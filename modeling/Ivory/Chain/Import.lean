import Ivory.Chain.Apply
import Ivory.Chain.Canonical

/-!
# What an import does

`import_and_apply` either refuses a block and leaves everything as it was, or
accepts it; `Accepted` says what holds then.  All later results about imports
start from `ChainState.importAndApply_cases` and do not unfold the import again.

* `ChainState.importAndApply_cases`: **an import is refused without a trace, or `Accepted`.**
* `ChainState.importAndApply_of_valid`: a block that passes every check is accepted.
* `Accepted.live_of_moved`, `Accepted.stayed`: the live state and the pool afterwards.
* `BlockStore.getBlock_pruneSnapshotsKeep`, `BlockStore.snapshots_pruneSnapshotsKeep`: what is
  left after pruning.
* `BlockStore.Pruned`: what the two ways of pruning snapshots keep.
-/

namespace Ivory

open BlockStore

/-! ### Imports -/

section

variable [Keccak] [Ed25519] [Wasmi]

/-- An accepted import: the state of the parent, the outcomes of the transactions, the state
after them, and the store before the snapshot is recorded. -/
structure Accepted (cs : ChainState) (b : Block) (pre : StateDB) (outs : List ExecutionOutcome)
    (post : StateDB) (ctx : ExecutionContext) (outcome : InsertOutcome) (store' : BlockStore)
    (cs' : ChainState) : Prop where
  parent : cs.store.stateAt b.header.parentHash = some pre
  executed : executeBlock pre b = .ok (outs, post, ctx)
  root : post.rootHash.1 = b.header.stateRoot
  insertable : Insertable cs.store b
  valid : b.validate = .ok ()
  inserted : Inserted cs.store b outcome store'
  result : cs' = if outcome.headChanged then
      { cs with store := store'.recordState b.hash post.rootHash.2 }.applyHeadChange outcome
    else { cs with store := store'.recordState b.hash post.rootHash.2 }

namespace ChainState

/-- **An import is refused without a trace, or accepted.** -/
theorem importAndApply_cases {cs : ChainState} (hi : StoreInv cs.store) (b : Block) :
    (∃ e, cs.importAndApply b = (.error e, cs))
      ∨ ∃ pre outs post ctx outcome store' cs', cs.importAndApply b = (.ok outcome, cs')
        ∧ Accepted cs b pre outs post ctx outcome store' cs' := by
  unfold importAndApply
  split
  · exact .inl ⟨_, rfl⟩
  next pre hpre =>
  split
  · exact .inl ⟨_, rfl⟩
  next outs post ctx hexec =>
  simp only
  split
  · exact .inl ⟨_, rfl⟩
  next hroot =>
  rcases insertBlock_cases hi b with ⟨e, he⟩ | ⟨outcome, store', heq, hins, hval, hn⟩
  · rw [he]
    exact .inl ⟨e, rfl⟩
  · rw [heq]
    refine .inr ⟨pre, outs, post, ctx, outcome, store', _, rfl, hpre, hexec, not_not.mp hroot, hins,
      hval, hn, ?_⟩
    simp only [hn.hash, StateDB.fork_eq]

theorem importAndApply_of_valid {cs : ChainState} (hi : StoreInv cs.store) {b : Block}
    {pre post : StateDB} {outs : List ExecutionOutcome} {ctx : ExecutionContext}
    (hpre : cs.store.stateAt b.header.parentHash = some pre)
    (hexec : executeBlock pre b = .ok (outs, post, ctx))
    (hroot : post.rootHash.1 = b.header.stateRoot) (hins : Insertable cs.store b)
    (hval : b.validate = .ok ()) :
    ∃ outcome store' cs', cs.importAndApply b = (.ok outcome, cs')
      ∧ Accepted cs b pre outs post ctx outcome store' cs' := by
  obtain ⟨outcome, store', heq, hn⟩ := insertValidated_of_fresh hi hins.fresh
  rw [← insertBlock_eq hins.toHeaderValid hval] at heq
  refine ⟨outcome, store', _, ?_, hpre, hexec, hroot, hins, hval, hn, rfl⟩
  unfold importAndApply
  simp only [hpre, hexec]
  rw [if_neg (not_not.mpr hroot), heq]
  simp only [hn.hash, StateDB.fork_eq]

end ChainState

namespace Accepted

variable {cs cs' : ChainState} {b : Block} {pre post : StateDB} {outs : List ExecutionOutcome}
  {ctx : ExecutionContext} {outcome : InsertOutcome} {store' : BlockStore}

theorem store_eq (ha : Accepted cs b pre outs post ctx outcome store' cs') :
    cs'.store = store'.recordState b.hash post.rootHash.2 := by
  rw [ha.result]
  split <;> rfl

theorem getBlock (ha : Accepted cs b pre outs post ctx outcome store' cs') (h : H256) :
    cs'.store.getBlock h = if h = b.hash then some b else cs.store.getBlock h := by
  rw [ha.store_eq]
  exact ha.inserted.getBlock h

theorem snapshots (ha : Accepted cs b pre outs post ctx outcome store' cs') :
    cs'.store.snapshots = cs.store.snapshots.insert b.hash post.rootHash.2 := by
  rw [ha.store_eq, ← ha.inserted.snapshots]
  rfl

theorem sameHeaders (ha : Accepted cs b pre outs post ctx outcome store' cs') :
    SameHeaders store' cs'.store := by
  rw [ha.store_eq]
  exact sameHeaders_recordState _ _ _

theorem storeInv (ha : Accepted cs b pre outs post ctx outcome store' cs')
    (hi : StoreInv cs.store) : StoreInv cs'.store :=
  (hi.inserted ha.insertable ha.inserted).of_sameHeaders ha.sameHeaders

theorem consensus (ha : Accepted cs b pre outs post ctx outcome store' cs') :
    cs'.store.consensus = cs.store.consensus := by
  rw [ha.store_eq]
  exact ha.inserted.consensus

theorem head (ha : Accepted cs b pre outs post ctx outcome store' cs') :
    cs'.store.head = some outcome.newHead := by
  rw [ha.store_eq]
  exact ha.inserted.newHead

theorem live_of_moved (ha : Accepted cs b pre outs post ctx outcome store' cs')
    (hm : outcome.headChanged = true) :
    cs'.store.head = some b.hash ∧ cs'.live = post.rootHash.2 := by
  rcases ha.inserted.cases with ⟨-, hhead, -⟩ | ⟨hf, -⟩
  · have hnew : outcome.newHead = b.hash := by
      rw [ha.inserted.newHead] at hhead
      exact Option.some.inj hhead
    refine ⟨by rw [ha.head, hnew], ?_⟩
    rw [ha.result, if_pos hm]
    unfold ChainState.applyHeadChange
    simp [stateAt, recordState, hnew]
  · rw [hm] at hf
    cases hf

/-- When the head did not move, nothing but the block and its snapshot was written. -/
theorem stayed (ha : Accepted cs b pre outs post ctx outcome store' cs')
    (hm : outcome.headChanged = false) :
    cs'.store.head = cs.store.head ∧ cs'.live = cs.live ∧ cs'.pool = cs.pool
      ∧ cs'.store.byNumber = cs.store.byNumber ∧ cs'.store.txIndex = cs.store.txIndex := by
  rcases ha.inserted.cases with ⟨hf, -⟩ | ⟨-, hhead, -, hnum, hidx⟩
  · rw [hm] at hf
    cases hf
  · rw [ha.result, hm]
    exact ⟨hhead, rfl, rfl, hnum, hidx⟩

theorem headChanged_of_head_eq (ha : Accepted cs b pre outs post ctx outcome store' cs')
    (hi : StoreInv cs.store) (hh : cs'.store.head = cs.store.head) :
    outcome.headChanged = false := by
  cases hm : outcome.headChanged with
  | false => rfl
  | true =>
    -- a moved head is the new block, which was not stored before
    rw [(ha.live_of_moved hm).1] at hh
    obtain ⟨x, hx, -⟩ := hi.head_max b.hash hh.symm
    rw [ha.insertable.fresh] at hx
    cases hx

end Accepted

end

/-! ### Pruning -/

/-- A block without its body. -/
def Block.stub (b : Block) : Block := ⟨b.header, Vec.empty, Vec.empty⟩

namespace BlockStore

/-- The lowest height that `prune_snapshots_keep` keeps below a head. -/
def cutoff (head keep : UInt64) : UInt64 := head.saturatingSub (keep.saturatingSub 1)

theorem cutoff_le (head keep : UInt64) : cutoff head keep ≤ head := by
  rw [UInt64.le_iff_toNat_le, cutoff, UInt64.toNat_saturatingSub]
  omega

/-- Pruning keeps the headers and the snapshot of the head, and adds no snapshot. -/
structure Pruned (store store' : BlockStore) : Prop where
  same : SameHeaders store store'
  sub : ∀ (h : H256) s, store'.snapshots[h]? = some s → store.snapshots[h]? = some s
  head : ∀ h, store.head = some h → store'.snapshots[h]? = store.snapshots[h]?

theorem Pruned.of_snapshots {store store' : BlockStore} (hsame : SameHeaders store store')
    {P : H256 → Prop} [DecidablePred P]
    (hs : ∀ h : H256, store'.snapshots[h]? = if P h then store.snapshots[h]? else none)
    (hhead : ∀ h, store.head = some h → P h) : Pruned store store' := by
  refine ⟨hsame, fun h s hget => ?_, fun h hh => ?_⟩
  · rw [hs] at hget
    split_ifs at hget
    exact hget
  · rw [hs, if_pos (hhead h hh)]

theorem snapshots_dropBodiesBelow (store : BlockStore) (n : UInt64) (archive : Bool) :
    (store.dropBodiesBelow n archive).snapshots = store.snapshots := by
  unfold dropBodiesBelow
  split <;> rfl

theorem getBlock_dropBodiesBelow (store : BlockStore) (n : UInt64) (h : H256) :
    (store.dropBodiesBelow n false).getBlock h
      = (store.getBlock h).map fun b => if b.header.number < n then b.stub else b :=
  Table.get_map _ _ _

theorem getBlock_pruneSnapshots (store : BlockStore) (h : H256) :
    store.pruneSnapshots.getBlock h = store.getBlock h := by
  unfold pruneSnapshots
  split <;> rfl

theorem snapshots_pruneSnapshots {store : BlockStore} {h₀ : H256} {l : List H256}
    (hh : store.head = some h₀) (hl : store.IsPath h₀ l) (h : H256) :
    store.pruneSnapshots.snapshots[h]? = if h ∈ l then store.snapshots[h]? else none := by
  unfold pruneSnapshots
  rw [hh]
  simp only [Table.get_filter, chainFrom_eq hl, List.mem_reverse]
  cases store.snapshots[h]? with
  | none => simp
  | some s => by_cases hm : h ∈ l <;> simp [hm]

section

variable [Keccak] {store : BlockStore} {h₀ : H256} {b₀ : Block}

theorem pruneSnapshotsKeep_eq (hi : StoreInv store) (hh : store.head = some h₀)
    (hb : store.getBlock h₀ = some b₀) (keep : UInt64) :
    store.pruneSnapshotsKeep keep =
      { store.pruneSnapshots.dropBodiesBelow (cutoff b₀.header.number keep) false with
        snapshots := store.pruneSnapshots.snapshots.filter fun h _ => h ∈
          ((store.pruneSnapshots.dropBodiesBelow (cutoff b₀.header.number keep) false).chainFrom
            h₀).filter fun h =>
              ((store.pruneSnapshots.dropBodiesBelow (cutoff b₀.header.number keep) false).getBlock
                h).any fun b => b.header.number ≥ cutoff b₀.header.number keep } := by
  have hhead : store.pruneSnapshots.headBlock = some b₀ := by
    rw [headBlock, (sameHeaders_pruneSnapshots store).head, hh, Option.bind_some,
      getBlock_pruneSnapshots, hb]
  unfold pruneSnapshotsKeep
  simp only [hhead, hi.keyed h₀ b₀ hb, ← cutoff.eq_def, snapshots_dropBodiesBelow]

theorem getBlock_pruneSnapshotsKeep (hi : StoreInv store) (hh : store.head = some h₀)
    (hb : store.getBlock h₀ = some b₀) (keep : UInt64) (h : H256) :
    (store.pruneSnapshotsKeep keep).getBlock h = (store.getBlock h).map fun b =>
      if b.header.number < cutoff b₀.header.number keep then b.stub else b := by
  rw [pruneSnapshotsKeep_eq hi hh hb, ← getBlock_pruneSnapshots store]
  exact getBlock_dropBodiesBelow _ _ _

theorem snapshots_pruneSnapshotsKeep (hi : StoreInv store) (hh : store.head = some h₀)
    (hb : store.getBlock h₀ = some b₀) {l : List H256} (hl : store.IsPath h₀ l) (keep : UInt64)
    (h : H256) : (store.pruneSnapshotsKeep keep).snapshots[h]?
      = if h ∈ l ∧ cutoff b₀.header.number keep ≤ store.numberOf h then store.snapshots[h]?
        else none := by
  have hd := (sameHeaders_pruneSnapshots store).trans
    (sameHeaders_dropBodiesBelow store.pruneSnapshots (cutoff b₀.header.number keep) false)
  rw [pruneSnapshotsKeep_eq hi hh hb]
  simp only [Table.get_filter, snapshots_pruneSnapshots hh hl, List.mem_filter,
    chainFrom_eq (hd.symm.isPath hl), List.mem_reverse]
  by_cases hm : h ∈ l
  · obtain ⟨_, hlh, -⟩ := hl.of_mem h hm
    obtain ⟨b, hb⟩ := hlh.get_isSome
    obtain ⟨b', hb', hbb⟩ := hd.symm.getBlock hb
    simp only [hm, if_true, true_and, hb', Option.any_some, hbb, numberOf_eq hb]
    cases store.snapshots[h]? with
    | none => simp
    | some s => by_cases hc : cutoff b₀.header.number keep ≤ b.header.number <;> simp [hc]
  · simp [hm]

theorem pruned_pruneSnapshots (hi : StoreInv store) : Pruned store store.pruneSnapshots := by
  have hsame := sameHeaders_pruneSnapshots store
  cases hh : store.head with
  | none =>
    have heq : store.pruneSnapshots = store := by rw [pruneSnapshots, hh]
    rw [heq] at hsame ⊢
    exact ⟨hsame, fun _ _ hs => hs, fun _ _ => rfl⟩
  | some h₀ =>
    obtain ⟨b₀, hb₀, -⟩ := hi.head_max h₀ hh
    obtain ⟨l, hl⟩ := hi.path h₀ b₀ hb₀
    refine .of_snapshots hsame (snapshots_pruneSnapshots hh hl) fun h heq => ?_
    cases hh.symm.trans heq
    exact hl.mem_self

theorem pruned_pruneSnapshotsKeep (hi : StoreInv store) (k : UInt64) :
    Pruned store (store.pruneSnapshotsKeep k) := by
  have hsame := sameHeaders_pruneSnapshotsKeep store k
  cases hh : store.head with
  | none =>
    have heq : store.pruneSnapshotsKeep k = store := by
      rw [pruneSnapshotsKeep, pruneSnapshots, hh]
      simp only [headBlock, hh, Option.bind_none]
    rw [heq] at hsame ⊢
    exact ⟨hsame, fun _ _ hs => hs, fun _ _ => rfl⟩
  | some h₀ =>
    obtain ⟨b₀, hb₀, -⟩ := hi.head_max h₀ hh
    obtain ⟨l, hl⟩ := hi.path h₀ b₀ hb₀
    refine .of_snapshots hsame (snapshots_pruneSnapshotsKeep hi hh hb₀ hl k) fun h heq => ?_
    -- the head is on its own chain and not below the cutoff
    cases hh.symm.trans heq
    refine ⟨hl.mem_self, ?_⟩
    rw [numberOf_eq hb₀]
    exact cutoff_le _ _

end

end BlockStore

end Ivory
