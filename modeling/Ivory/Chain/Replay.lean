import Ivory.Chain.Import
import Ivory.Executor.Frame

/-!
# The live state is the replay of the canonical chain

A chain state starts with one genesis block and its state.  Blocks are imported
and snapshots pruned in any order.  `Tracked` carries, next to the chain state,
the blocks as they were imported, since pruning drops bodies from the store.

`replay` executes blocks in order, each in a fresh context.  Like the import it
computes the state root after each block, which brings the storage roots up to
date; `executeBlocks` leaves that out, and the two agree on a state whose
storage roots are up to date already.

* `ReplayInv`: every snapshot is the replay of its chain, and the live state is
  the snapshot of the head.
* `ReplayInv.step`, `ChainOp.replayInv_run`: **every import and every pruning keeps this.**
* `ChainOp.live_eq_replay`: the live state after any run.
-/

namespace Ivory

open BlockStore

/-! ### Replay -/

section Replay

variable [Keccak] [Wasmi]

/-- Execute blocks in order; the state root is computed after each, as the import does. -/
def replay : StateDB → List Block → Except ExecutionError (List ExecutionOutcome × StateDB)
  | state, [] => .ok ([], state)
  | state, b :: bs =>
    match executeBlock state b with
    | .error e => .error e
    | .ok (outs, state, _) =>
      match replay state.rootHash.2 bs with
      | .error e => .error e
      | .ok (outs', state) => .ok (outs ++ outs', state)

/-- Execute the transactions of blocks in order, and nothing else. -/
def executeBlocks : StateDB → List Block → Except ExecutionError StateDB
  | state, [] => .ok state
  | state, b :: bs =>
    match executeBlock state b with
    | .error e => .error e
    | .ok (_, state, _) => executeBlocks state bs

theorem replay_cons {s : StateDB} {b : Block} {bs : List Block} {outs : List ExecutionOutcome}
    {s' : StateDB} (h : replay s (b :: bs) = .ok (outs, s')) :
    ∃ outs₁ s₁ ctx outs₂, executeBlock s b = .ok (outs₁, s₁, ctx)
      ∧ replay s₁.rootHash.2 bs = .ok (outs₂, s') ∧ outs = outs₁ ++ outs₂ := by
  rw [replay] at h
  split at h
  · cases h
  next outs₁ s₁ ctx he =>
  split at h
  · cases h
  next outs₂ s₂ hr =>
  cases h
  exact ⟨outs₁, s₁, ctx, outs₂, he, hr, rfl⟩

theorem replay_snoc {b : Block} {s₁ s₂ : StateDB} {outs₂ : List ExecutionOutcome}
    {ctx : ExecutionContext} (hb : executeBlock s₁ b = .ok (outs₂, s₂, ctx)) :
    ∀ {bs : List Block} {s : StateDB} {outs₁ : List ExecutionOutcome},
      replay s bs = .ok (outs₁, s₁) →
        replay s (bs ++ [b]) = .ok (outs₁ ++ outs₂, s₂.rootHash.2) := by
  intro bs
  induction bs with
  | nil =>
    intro s outs₁ h
    cases h
    simp [replay, hb]
  | cons x bs ih =>
    intro s outs₁ h
    obtain ⟨o₁, t, c, o₂, hx, hr, rfl⟩ := replay_cons h
    rw [List.cons_append, replay, hx]
    simp only [ih hr, List.append_assoc]

theorem executeAll_kept {P : StateDB → Prop} {cfg : GasConfig}
    (hP : ∀ s ctx tx, P s → P (executeTransaction cfg s ctx tx).2.1) : ∀ (txs : List Transaction)
    {s : StateDB} {ctx : ExecutionContext} {outs : List ExecutionOutcome} {s' : StateDB}
    {ctx' : ExecutionContext}, P s → executeAll cfg s ctx txs = .ok (outs, s', ctx') → P s' := by
  intro txs
  induction txs with
  | nil =>
    intro s ctx outs s' ctx' hs h
    cases h
    exact hs
  | cons tx txs ih =>
    intro s ctx outs s' ctx' hs h
    obtain ⟨out, s₁, ctx₁, outs₁, he, hr, -⟩ := executeAll_cons_eq_ok h
    have h₁ := hP s ctx tx hs
    rw [he] at h₁
    exact ih h₁ hr

/-- **Computing the roots on the way changes nothing** when the storage roots are up to date. -/
theorem executeBlocks_of_replay : ∀ (bs : List Block) {s : StateDB} {outs : List ExecutionOutcome}
    {s' : StateDB}, s.RootsCurrent → replay s bs = .ok (outs, s') →
      executeBlocks s bs = .ok s' := by
  intro bs
  induction bs with
  | nil =>
    intro s outs s' _ h
    cases h
    rfl
  | cons b bs ih =>
    intro s outs s' hs h
    obtain ⟨o₁, s₁, ctx, o₂, hb, hr, -⟩ := replay_cons h
    have hs₁ : s₁.RootsCurrent :=
      executeAll_kept (fun _ ctx tx => executeTransaction_rootsCurrent _ ctx tx) _ hs hb
    rw [StateDB.rootHash_of_rootsCurrent hs₁] at hr
    rw [executeBlocks, hb]
    exact ih hs₁ hr

end Replay

/-! ### Runs from a genesis -/

section Runs

variable [Keccak] [Ed25519]

/-- A genesis block that the store accepts, and the state it commits to. -/
structure Genesis where
  consensus : PoAConsensus
  block : Block
  state : StateDB
  number : block.header.number = 0
  parentHash : block.header.parentHash = H256.zero
  miner : consensus.isValidator block.header.miner = true
  seals : consensus.verifyCryptoSeals block.header = .ok ()
  valid : block.validate = .ok ()
  stateRoot : block.header.stateRoot = state.rootHash.1

namespace Genesis

/-- The store with the genesis inserted and its state recorded. -/
def store (g : Genesis) : BlockStore :=
  ((BlockStore.new g.consensus).insertGenesis g.block).2.recordState g.block.hash g.state

/-- The chain state a node starts with. -/
def start (g : Genesis) (pool : TransactionPool) : ChainState := ⟨g.store, g.state, pool⟩

theorem headerValid (g : Genesis) : HeaderValid (BlockStore.new g.consensus) g.block.header :=
  ⟨g.miner, g.seals, fun _ => g.parentHash, fun h => absurd g.number h⟩

theorem inserted (g : Genesis) : ∃ outcome store',
    (BlockStore.new g.consensus).insertGenesis g.block = (.ok outcome, store')
      ∧ Insertable (BlockStore.new g.consensus) g.block
      ∧ Inserted (BlockStore.new g.consensus) g.block outcome store' := by
  have hf : (BlockStore.new g.consensus).getBlock g.block.hash = none := by
    simp [BlockStore.getBlock, BlockStore.new]
  obtain ⟨outcome, store', heq, hn⟩ := insertValidated_of_fresh (storeInv_new g.consensus) hf
  exact ⟨outcome, store', by rw [insertGenesis_eq g.headerValid g.number g.valid, heq],
    ⟨g.headerValid, hf⟩, hn⟩

theorem storeInv (g : Genesis) : StoreInv g.store := by
  obtain ⟨outcome, store', heq, hins, hn⟩ := g.inserted
  rw [store, heq]
  exact ((storeInv_new _).inserted hins hn).of_sameHeaders (sameHeaders_recordState _ _ _)

theorem getBlock (g : Genesis) (h : H256) :
    g.store.getBlock h = if h = g.block.hash then some g.block else none := by
  obtain ⟨outcome, store', heq, -, hn⟩ := g.inserted
  rw [store, heq]
  refine (hn.getBlock h).trans ?_
  simp [BlockStore.getBlock, BlockStore.new]

theorem getBlock_block (g : Genesis) : g.store.getBlock g.block.hash = some g.block :=
  (g.getBlock _).trans (if_pos rfl)

theorem head (g : Genesis) : g.store.head = some g.block.hash := by
  obtain ⟨outcome, store', heq, -, hn⟩ := g.inserted
  rw [store, heq]
  rcases hn.cases with ⟨-, hh, -⟩ | ⟨-, hh, -⟩
  · exact hh
  · rw [hn.newHead] at hh
    cases hh

theorem snapshots (g : Genesis) (h : H256) :
    g.store.snapshots[h]? = if h = g.block.hash then some g.state else none := by
  obtain ⟨outcome, store', heq, -, hn⟩ := g.inserted
  rw [store, heq]
  refine (Table.get_insert _ _ _ _).trans ?_
  rw [hn.snapshots]
  simp [BlockStore.new]

end Genesis

end Runs

/-- A chain state together with the blocks as they were imported. -/
structure Tracked where
  cs : ChainState
  archive : Table H256 Block

namespace Tracked

/-- The blocks of `chain_from`, with their original bodies. -/
def chain (t : Tracked) (h : H256) : List Block :=
  (t.cs.store.chainFrom h).filterMap fun k => t.archive[k]?

theorem chain_eq {t : Tracked} {h : H256} {l : List H256} (hp : t.cs.store.IsPath h l) :
    t.chain h = l.reverse.filterMap fun k => t.archive[k]? := by
  rw [chain, chainFrom_eq hp]

end Tracked

/-- Imports and prunings. -/
inductive ChainOp
  | importBlock (b : Block)
  | pruneSnapshots
  | pruneSnapshotsKeep (keep : UInt64)

section Invariant

variable [Keccak] [Ed25519] [Wasmi]

/-- One step; an accepted block goes into the archive. -/
def ChainOp.step (t : Tracked) : ChainOp → Tracked
  | importBlock b =>
    match t.cs.importAndApply b with
    | (.ok _, cs) => ⟨cs, t.archive.insert b.hash b⟩
    | (.error _, cs) => ⟨cs, t.archive⟩
  | pruneSnapshots => { t with cs := { t.cs with store := t.cs.store.pruneSnapshots } }
  | pruneSnapshotsKeep keep =>
    { t with cs := { t.cs with store := t.cs.store.pruneSnapshotsKeep keep } }

/-- A genesis with nothing imported yet. -/
def Genesis.tracked (g : Genesis) (pool : TransactionPool) : Tracked :=
  ⟨g.start pool, (∅ : Table H256 Block).insert g.block.hash g.block⟩

/-- A run from a genesis. -/
def ChainOp.run (g : Genesis) (pool : TransactionPool) (ops : List ChainOp) : Tracked :=
  ops.foldl step (g.tracked pool)

/-- What is known of a stored block: its chain starts with the genesis, the blocks above it can be
replayed, and what that gives has the state root of the block and is its snapshot, as long as
that is kept. -/
def Replayed (g : Genesis) (t : Tracked) (h : H256) (b : Block) : Prop :=
  ∃ bs outs s, t.chain h = g.block :: bs ∧ replay g.state bs = .ok (outs, s)
    ∧ s.rootHash.1 = b.header.stateRoot ∧ ∀ s', t.cs.store.snapshots[h]? = some s' → s' = s

/-- **Every block can be replayed, every snapshot is such a replay, and the live state is the
snapshot of the head.** -/
structure ReplayInv (g : Genesis) (t : Tracked) : Prop where
  inv : StoreInv t.cs.store
  archived : ∀ h : H256, (t.archive[h]?).map Block.header = (t.cs.store.getBlock h).map Block.header
  nonzero : ∀ h b, t.cs.store.getBlock h = some b → h ≠ H256.zero
  stored : ∀ (h : H256) s, t.cs.store.snapshots[h]? = some s → ∃ b, t.cs.store.getBlock h = some b
  replayed : ∀ h b, t.cs.store.getBlock h = some b → Replayed g t h b
  live : ∃ h, t.cs.store.head = some h ∧ t.cs.store.snapshots[h]? = some t.cs.live

namespace ReplayInv

variable {g : Genesis} {t : Tracked}

theorem archive_of_getBlock (hr : ReplayInv g t) {h : H256} {b : Block}
    (hb : t.cs.store.getBlock h = some b) :
    ∃ b₀, t.archive[h]? = some b₀ ∧ b₀.header = b.header := by
  have hh := hr.archived h
  rw [hb, Option.map_some] at hh
  exact Option.map_eq_some_iff.mp hh

theorem map_hash_chain (hr : ReplayInv g t) {h : H256} {b : Block}
    (hb : t.cs.store.getBlock h = some b) :
    (t.chain h).map Block.hash = t.cs.store.chainFrom h := by
  obtain ⟨l, hl⟩ := hr.inv.path h b hb
  have hall : ∀ ks : List H256, (∀ k ∈ ks, k ∈ l) →
      (ks.filterMap fun k => t.archive[k]?).map Block.hash = ks := by
    intro ks
    induction ks with
    | nil => intro _; rfl
    | cons k ks ih =>
      intro hks
      obtain ⟨_, hlk, -⟩ := hl.of_mem k (hks k List.mem_cons_self)
      obtain ⟨x, hx⟩ := hlk.get_isSome
      obtain ⟨x₀, hx₀, hxx⟩ := hr.archive_of_getBlock hx
      have hkey : x₀.hash = k := by
        rw [Block.hash, hxx]
        exact hr.inv.keyed k x hx
      rw [List.filterMap_cons, hx₀, List.map_cons, hkey,
        ih fun j hj => hks j (List.mem_cons_of_mem _ hj)]
  rw [Tracked.chain_eq hl, chainFrom_eq hl]
  exact hall _ fun k hk => List.mem_reverse.mp hk

theorem start (g : Genesis) (pool : TransactionPool) (hz : g.block.hash ≠ H256.zero) :
    ReplayInv g (g.tracked pool) where
  inv := g.storeInv
  archived h := by
    show (((∅ : Table H256 Block).insert g.block.hash g.block)[h]?).map Block.header
      = (g.store.getBlock h).map Block.header
    rw [Table.get_insert, g.getBlock]
    split <;> simp
  nonzero h b hb := by
    change g.store.getBlock h = some b at hb
    rw [g.getBlock] at hb
    split at hb
    · next he => rwa [he]
    · cases hb
  stored h s hs := by
    change g.store.snapshots[h]? = some s at hs
    rw [g.snapshots] at hs
    split at hs
    · next he => exact ⟨g.block, by rw [he]; exact g.getBlock_block⟩
    · cases hs
  replayed h b hb := by
    have hb' : g.store.getBlock h = some b := hb
    rw [g.getBlock] at hb'
    split at hb'
    · next he =>
      cases hb'
      cases he
      have hp : (g.tracked pool).cs.store.IsPath g.block.hash [g.block.hash] :=
        .root hb (if_pos g.number)
      refine ⟨[], [], g.state, ?_, rfl, g.stateRoot.symm, fun s' hs' => ?_⟩
      · rw [Tracked.chain_eq hp]
        simp [Genesis.tracked]
      · change g.store.snapshots[g.block.hash]? = some s' at hs'
        rw [g.snapshots, if_pos rfl] at hs'
        exact (Option.some.inj hs').symm
    · cases hb'
  live := ⟨g.block.hash, g.head, by
    show g.store.snapshots[g.block.hash]? = some g.state
    rw [g.snapshots, if_pos rfl]⟩

section Accept

variable {b : Block} {pre post : StateDB} {outs : List ExecutionOutcome} {ctx : ExecutionContext}
  {outcome : InsertOutcome} {store' : BlockStore} {cs' : ChainState}

/-- The parent of an accepted block is stored, and the block is no genesis: its parent has a
snapshot, and no block has the hash that a genesis names as its parent. -/
theorem parent_of_accepted (hr : ReplayInv g t)
    (ha : Accepted t.cs b pre outs post ctx outcome store' cs') :
    b.header.number ≠ 0 ∧ t.cs.store.snapshots[b.header.parentHash]? = some pre := by
  have hpre : t.cs.store.snapshots[b.header.parentHash]? = some pre := by
    have := ha.parent
    rw [stateAt, Option.map_eq_some_iff] at this
    obtain ⟨s, hs, rfl⟩ := this
    exact hs
  refine ⟨fun h0 => ?_, hpre⟩
  obtain ⟨p, hp⟩ := hr.stored _ _ hpre
  exact hr.nonzero _ p hp (ha.insertable.genesis h0)

theorem chain_of_accepted (hr : ReplayInv g t)
    (ha : Accepted t.cs b pre outs post ctx outcome store' cs') {h : H256} {x : Block}
    (hx : t.cs.store.getBlock h = some x) :
    Tracked.chain ⟨cs', t.archive.insert b.hash b⟩ h = t.chain h := by
  obtain ⟨l, hl⟩ := hr.inv.path h x hx
  have hl' : cs'.store.IsPath h l :=
    ha.sameHeaders.symm.isPath (ha.inserted.isPath_mono ha.insertable.fresh hl)
  rw [Tracked.chain_eq hl, Tracked.chain_eq (t := ⟨cs', t.archive.insert b.hash b⟩) hl']
  refine List.filterMap_congr fun k hk => ?_
  obtain ⟨_, hlk, -⟩ := hl.of_mem k (List.mem_reverse.mp hk)
  obtain ⟨y, hy⟩ := hlk.get_isSome
  refine Table.get_insert_of_ne _ _ ?_
  rintro rfl
  rw [ha.insertable.fresh] at hy
  cases hy

theorem chain_self_of_accepted (hr : ReplayInv g t)
    (ha : Accepted t.cs b pre outs post ctx outcome store' cs') :
    Tracked.chain ⟨cs', t.archive.insert b.hash b⟩ b.hash = t.chain b.header.parentHash ++ [b] := by
  obtain ⟨h0, hpre⟩ := hr.parent_of_accepted ha
  obtain ⟨p, hp⟩ := hr.stored _ _ hpre
  obtain ⟨l, hl⟩ := hr.inv.path _ p hp
  have hl' : cs'.store.IsPath b.header.parentHash l :=
    ha.sameHeaders.symm.isPath (ha.inserted.isPath_mono ha.insertable.fresh hl)
  have hb : cs'.store.getBlock b.hash = some b := by rw [ha.getBlock, if_pos rfl]
  have hlb : cs'.store.IsPath b.hash (b.hash :: l) := .step hb (if_neg h0) hl'
  have hchain := hr.chain_of_accepted ha hp
  rw [Tracked.chain_eq (t := ⟨cs', t.archive.insert b.hash b⟩) hl'] at hchain
  rw [Tracked.chain_eq (t := ⟨cs', t.archive.insert b.hash b⟩) hlb, List.reverse_cons,
    List.filterMap_append, hchain]
  simp

/-- **An accepted import keeps the invariant.** -/
theorem accept (hr : ReplayInv g t) (hz : b.hash ≠ H256.zero)
    (ha : Accepted t.cs b pre outs post ctx outcome store' cs') :
    ReplayInv g ⟨cs', t.archive.insert b.hash b⟩ where
  inv := ha.storeInv hr.inv
  archived h := by
    show ((t.archive.insert b.hash b)[h]?).map Block.header = _
    rw [Table.get_insert, ha.getBlock]
    split
    · rfl
    · exact hr.archived h
  nonzero h x hx := by
    change cs'.store.getBlock h = some x at hx
    rw [ha.getBlock] at hx
    split at hx
    · next he => rwa [he]
    · exact hr.nonzero h x hx
  stored h s hs := by
    change cs'.store.snapshots[h]? = some s at hs
    show ∃ x, cs'.store.getBlock h = some x
    rw [ha.snapshots, Table.get_insert] at hs
    rw [ha.getBlock]
    split at hs
    · next he => exact ⟨b, if_pos he⟩
    · next hne =>
      obtain ⟨x, hx⟩ := hr.stored h s hs
      exact ⟨x, by rw [if_neg hne, hx]⟩
  replayed h x hx := by
    have hx' : cs'.store.getBlock h = some x := hx
    rw [ha.getBlock] at hx'
    split at hx'
    · next he =>
      cases he
      cases hx'
      obtain ⟨-, hpre⟩ := hr.parent_of_accepted ha
      obtain ⟨p, hp⟩ := hr.stored _ _ hpre
      obtain ⟨bs, outs₀, s, hchain, hrep, -, hsnap⟩ := hr.replayed _ p hp
      cases hsnap pre hpre
      refine ⟨bs ++ [b], outs₀ ++ outs, post.rootHash.2, ?_, replay_snoc ha.executed hrep, ?_,
        fun s' hs' => ?_⟩
      · rw [hr.chain_self_of_accepted ha, hchain, List.cons_append]
      · rw [StateDB.rootHash_of_rootsCurrent (StateDB.rootsCurrent_rootHash post)]
        exact ha.root
      · change cs'.store.snapshots[b.hash]? = some s' at hs'
        rw [ha.snapshots, Table.get_insert_self] at hs'
        exact (Option.some.inj hs').symm
    · next hne =>
      obtain ⟨bs, outs₀, s, hchain, hrep, hroot, hsnap⟩ := hr.replayed h x hx'
      refine ⟨bs, outs₀, s, (hr.chain_of_accepted ha hx').trans hchain, hrep, hroot,
        fun s' hs' => hsnap s' ?_⟩
      change cs'.store.snapshots[h]? = some s' at hs'
      rwa [ha.snapshots, Table.get_insert_of_ne _ _ hne] at hs'
  live := by
    show ∃ h, cs'.store.head = some h ∧ cs'.store.snapshots[h]? = some cs'.live
    rw [ha.snapshots]
    cases hm : outcome.headChanged with
    | true =>
      obtain ⟨hhead, hlive⟩ := ha.live_of_moved hm
      exact ⟨b.hash, hhead, by rw [Table.get_insert_self, hlive]⟩
    | false =>
      obtain ⟨hhead, hlive, -⟩ := ha.stayed hm
      obtain ⟨h, hh, hs⟩ := hr.live
      obtain ⟨x, hx⟩ := hr.stored h _ hs
      have hne : h ≠ b.hash := by
        rintro rfl
        rw [ha.insertable.fresh] at hx
        cases hx
      exact ⟨h, hhead.trans hh, by rw [Table.get_insert_of_ne _ _ hne, hs, hlive]⟩

end Accept

theorem prune (hr : ReplayInv g t) {store' : BlockStore} (hp : Pruned t.cs.store store') :
    ReplayInv g ⟨{ t.cs with store := store' }, t.archive⟩ where
  inv := hr.inv.of_sameHeaders hp.same
  archived h := (hr.archived h).trans (hp.same.headers h).symm
  nonzero h b hb := by
    obtain ⟨b₀, hb₀, -⟩ := hp.same.getBlock hb
    exact hr.nonzero h b₀ hb₀
  stored h s hs := by
    obtain ⟨b₀, hb₀⟩ := hr.stored h s (hp.sub h s hs)
    obtain ⟨b, hb, -⟩ := hp.same.symm.getBlock hb₀
    exact ⟨b, hb⟩
  replayed h b hb := by
    obtain ⟨b₀, hb₀, hbb⟩ := hp.same.getBlock hb
    obtain ⟨bs, outs, s, hchain, hrep, hroot, hsnap⟩ := hr.replayed h b₀ hb₀
    obtain ⟨l, hl⟩ := hr.inv.path h b₀ hb₀
    refine ⟨bs, outs, s, ?_, hrep, by rw [hroot, hbb], fun s' hs' => hsnap s' (hp.sub h s' hs')⟩
    rw [Tracked.chain_eq (t := ⟨{ t.cs with store := store' }, t.archive⟩) (hp.same.symm.isPath hl),
      ← Tracked.chain_eq hl, hchain]
  live := by
    obtain ⟨h, hh, hs⟩ := hr.live
    exact ⟨h, hp.same.head.trans hh, (hp.head h hh).trans hs⟩

/-- **One step keeps the invariant.** -/
theorem step (hr : ReplayInv g t) (op : ChainOp)
    (hz : ∀ b, op = .importBlock b → b.hash ≠ H256.zero) : ReplayInv g (op.step t) := by
  cases op with
  | importBlock b =>
    rw [ChainOp.step]
    rcases ChainState.importAndApply_cases hr.inv b with
      ⟨e, he⟩ | ⟨pre, outs, post, ctx, outcome, store', cs', heq, ha⟩
    · rw [he]
      exact hr
    · rw [heq]
      exact hr.accept (hz b rfl) ha
  | pruneSnapshots => exact hr.prune (pruned_pruneSnapshots hr.inv)
  | pruneSnapshotsKeep k => exact hr.prune (pruned_pruneSnapshotsKeep hr.inv k)

end ReplayInv

namespace ChainOp

variable (g : Genesis) (pool : TransactionPool) (ops : List ChainOp)

/-- No block of a run has the hash that a genesis names as its parent. -/
def NoZeroHash (g : Genesis) (ops : List ChainOp) : Prop :=
  g.block.hash ≠ H256.zero ∧ ∀ b, importBlock b ∈ ops → b.hash ≠ H256.zero

theorem replayInv_run (hz : NoZeroHash g ops) : ReplayInv g (run g pool ops) := by
  refine List.foldlRecOn ops step (motive := ReplayInv g) (ReplayInv.start g pool hz.1) ?_
  intro t hr op hop
  exact hr.step op fun b hb => hz.2 b (hb ▸ hop)

/-- **The live state is the replay of the canonical chain**, after any run: it is the snapshot of
the head, it is what executing the imported blocks of `chain_from` in order from the genesis state
gives, and it has the state root of the head.  An import that does not move the head changes
neither it nor the pool nor an index. -/
theorem live_eq_replay (hz : NoZeroHash g ops) :
    (∃ h b bs outs, (run g pool ops).cs.store.head = some h
      ∧ (run g pool ops).cs.store.getBlock h = some b
      ∧ (run g pool ops).cs.store.stateAt h = some (run g pool ops).cs.live
      ∧ (run g pool ops).chain h = g.block :: bs
      ∧ ((run g pool ops).chain h).map Block.hash = (run g pool ops).cs.store.chainFrom h
      ∧ replay g.state bs = .ok (outs, (run g pool ops).cs.live)
      ∧ (g.state.RootsCurrent → executeBlocks g.state bs = .ok (run g pool ops).cs.live
        ∧ (g.block.transactions.toList = [] →
          executeBlocks g.state ((run g pool ops).chain h) = .ok (run g pool ops).cs.live))
      ∧ (run g pool ops).cs.live.rootHash.1 = b.header.stateRoot)
    ∧ ∀ b, ((run g pool ops).cs.importAndApply b).2.store.head = (run g pool ops).cs.store.head →
      ((run g pool ops).cs.importAndApply b).2.live = (run g pool ops).cs.live
      ∧ ((run g pool ops).cs.importAndApply b).2.store.byNumber = (run g pool ops).cs.store.byNumber
      ∧ ((run g pool ops).cs.importAndApply b).2.store.txIndex = (run g pool ops).cs.store.txIndex
      ∧ ((run g pool ops).cs.importAndApply b).2.pool = (run g pool ops).cs.pool := by
  have hr := replayInv_run g pool ops hz
  generalize run g pool ops = t at hr ⊢
  constructor
  · obtain ⟨h, hh, hs⟩ := hr.live
    obtain ⟨b, hb⟩ := hr.stored h _ hs
    obtain ⟨bs, outs, s, hchain, hrep, hroot, hsnap⟩ := hr.replayed h b hb
    cases hsnap _ hs
    refine ⟨h, b, bs, outs, hh, hb, by rw [stateAt, hs]; rfl, hchain, hr.map_hash_chain hb, hrep,
      fun hcur => ⟨executeBlocks_of_replay bs hcur hrep, fun hnil => ?_⟩, hroot⟩
    have hexec : executeBlock g.state g.block
        = .ok ([], g.state, .new g.block.header.number g.block.header.timestamp) := by
      rw [executeBlock, hnil, executeAll]
    rw [hchain, executeBlocks, hexec]
    exact executeBlocks_of_replay bs hcur hrep
  · intro b hstay
    rcases ChainState.importAndApply_cases hr.inv b with
      ⟨e, he⟩ | ⟨pre, outs, post, ctx, outcome, store', cs', heq, ha⟩
    · rw [he]
      exact ⟨rfl, rfl, rfl, rfl⟩
    · rw [heq] at hstay ⊢
      obtain ⟨-, hlive, hpool, hnum, hidx⟩ := ha.stayed (ha.headChanged_of_head_eq hr.inv hstay)
      exact ⟨hlive, hnum, hidx, hpool⟩

end ChainOp

end Invariant

namespace Devnet

/-- The genesis of the small network. -/
def genesis : Genesis where
  consensus := consensus
  block := genesisBlock
  state := state
  number := sealed_genesisBlock.2.1
  parentHash := sealed_genesisBlock.2.2
  miner := sealed_genesisBlock.1.1
  seals := sealed_genesisBlock.1.2.1
  valid := sealed_genesisBlock.1.2.2
  stateRoot := by decide +kernel

/-- Two blocks on the genesis, with a pruning between them. -/
def chainOps : List ChainOp := [.importBlock blockA, .pruneSnapshotsKeep 1, .importBlock blockB]

theorem noZeroHash_chainOps : ChainOp.NoZeroHash genesis chainOps := by
  have hne : genesisBlock.hash ≠ H256.zero ∧ blockA.hash ≠ H256.zero
      ∧ blockB.hash ≠ H256.zero := by decide +kernel
  refine ⟨hne.1, fun b hb => ?_⟩
  simp only [chainOps, List.mem_cons, ChainOp.importBlock.injEq, reduceCtorEq, List.not_mem_nil,
    or_false, false_or] at hb
  rcases hb with rfl | rfl
  · exact hne.2.1
  · exact hne.2.2

/-- On the small network the live state is a replay of the blocks above the genesis. -/
theorem live_eq_replay_chainOps : ChainOp.NoZeroHash genesis chainOps
    ∧ ∃ bs outs, replay state bs
      = .ok (outs, (ChainOp.run genesis TransactionPool.new chainOps).cs.live) := by
  obtain ⟨⟨h, b, bs, outs, -, -, -, -, -, hrep, -⟩, -⟩ :=
    ChainOp.live_eq_replay genesis TransactionPool.new chainOps noZeroHash_chainOps
  exact ⟨noZeroHash_chainOps, bs, outs, hrep⟩

end Devnet

end Ivory
