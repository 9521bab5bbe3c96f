import Ivory.Chain.History
import Ivory.Chain.TxIndex

/-!
# What is kept of the canonical chain

`prune_snapshots_keep` drops the bodies of the blocks below a height, and the snapshots below it
and off the canonical chain.  Blocks are imported on any block with a snapshot, so the head can move
to a side chain in between, and prunings with different windows can follow one another.

What is left is always one window.  The canonical chain is a history; from some height on each of
its blocks is stored as it was imported, next to the state after it, and below that height each is
stored without its body and has no snapshot.  If every pruning keeps `k` heights, the window has
the last `k` heights, whatever reorganisations there were.

* `Retained`: the invariant, for the chain of every snapshot.
* `Retained.step`, `ChainOp.retained_run`: **every import and every pruning keeps it.**
* `Serves`: a store that shows a history through a window.
* `ChainOp.serves_run`: **after every run the store shows the canonical chain through a window.**
-/

namespace Ivory

open BlockStore

section

variable [Keccak] [Ed25519] [Wasmi]

/-- The lowest of the last `k` heights. -/
def BlockStore.floor (store : BlockStore) (k : ℕ) : ℕ :=
  (store.head.elim 0 fun h => (store.numberOf h).toNat) - (k - 1)

omit [Keccak] [Ed25519] [Wasmi] in
theorem BlockStore.SameHeaders.floor {store store' : BlockStore} (hs : SameHeaders store store')
    (k : ℕ) : store'.floor k = store.floor k := by
  simp only [BlockStore.floor, hs.head, hs.numberOf]

/-- What the store has of a history: the blocks with a snapshot are whole, those without one are
bare, below one without a snapshot no block has one, and those from height `m` on have one. -/
structure Windowed (store : BlockStore) (m : ℕ) (zs : List Block) : Prop where
  whole : ∀ y ∈ zs, ∀ s, store.snapshots[y.hash]? = some s → store.getBlock y.hash = some y
  bare : ∀ y ∈ zs, store.snapshots[y.hash]? = none → store.getBlock y.hash = some y.stub
  below : ∀ y ys, y :: ys <:+ zs → store.snapshots[y.hash]? = none →
    ∀ x ∈ ys, store.snapshots[x.hash]? = none
  recent : ∀ y ∈ zs, m ≤ y.header.number.toNat → ∃ s, store.snapshots[y.hash]? = some s

/-- The chain of a snapshot: a history of imported blocks that ends in the state of the snapshot. -/
structure ChainOf (g : Genesis) (k : ℕ) (t : Tracked) (h : H256) (s : StateDB) (zs : List Block) :
    Prop where
  history : History g zs s
  tip : ∃ z zs', zs = z :: zs' ∧ z.hash = h
  archived : ∀ y ∈ zs, t.archive[y.hash]? = some y
  windowed : Windowed t.cs.store (t.cs.store.floor k) zs

/-- **The chain of every snapshot is kept in a window**, which has the last `k` heights. -/
structure Retained (g : Genesis) (k : ℕ) (t : Tracked) : Prop where
  consensus : t.cs.store.consensus = g.consensus
  chain : ∀ (h : H256) s, t.cs.store.snapshots[h]? = some s → ∃ zs, ChainOf g k t h s zs

/-! ### One chain -/

namespace Windowed

variable {store : BlockStore} {m : ℕ} {zs : List Block}

omit [Ed25519] [Wasmi] in
theorem getBlock (hw : Windowed store m zs) {y : Block} (hy : y ∈ zs) :
    ∃ x, store.getBlock y.hash = some x ∧ x.header = y.header := by
  cases hs : store.snapshots[y.hash]? with
  | none => exact ⟨y.stub, hw.bare y hy hs, rfl⟩
  | some s => exact ⟨y, hw.whole y hy s hs, rfl⟩

theorem isPath (hw : Windowed store m zs) {g : Genesis} {s : StateDB} (hh : History g zs s)
    {z : Block} {zs' : List Block} (heq : zs = z :: zs') :
    store.IsPath z.hash (zs.map Block.hash) :=
  hh.isPath (fun _ hy => hw.getBlock hy) z zs' heq

omit [Ed25519] [Wasmi] in
theorem congr (hw : Windowed store m zs) {store' : BlockStore} {m' : ℕ} (hm : m ≤ m')
    (hget : ∀ y ∈ zs, store'.getBlock y.hash = store.getBlock y.hash)
    (hsnap : ∀ y ∈ zs, store'.snapshots[y.hash]? = store.snapshots[y.hash]?) :
    Windowed store' m' zs where
  whole y hy s hs := by
    rw [hget y hy]
    exact hw.whole y hy s (hsnap y hy ▸ hs)
  bare y hy hs := by
    rw [hget y hy]
    exact hw.bare y hy (hsnap y hy ▸ hs)
  below y ys hsub hs x hx := by
    have hy : y ∈ zs := hsub.subset List.mem_cons_self
    rw [hsnap x (hsub.subset (List.mem_cons_of_mem _ hx))]
    exact hw.below y ys hsub (hsnap y hy ▸ hs) x hx
  recent y hy hle := by
    rw [hsnap y hy]
    exact hw.recent y hy (hm.trans hle)

omit [Ed25519] [Wasmi] in
theorem cons (hw : Windowed store m zs) {b : Block} {s : StateDB}
    (hs : store.snapshots[b.hash]? = some s) (hb : store.getBlock b.hash = some b) :
    Windowed store m (b :: zs) where
  whole y hy s' hs' := by
    rcases List.mem_cons.mp hy with rfl | hy
    · exact hb
    · exact hw.whole y hy s' hs'
  bare y hy hnone := by
    rcases List.mem_cons.mp hy with rfl | hy
    · rw [hs] at hnone
      cases hnone
    · exact hw.bare y hy hnone
  below y ys hsub hnone := by
    rcases List.suffix_cons_iff.mp hsub with heq | hsub
    · cases heq
      rw [hs] at hnone
      cases hnone
    · exact hw.below y ys hsub hnone
  recent y hy hle := by
    rcases List.mem_cons.mp hy with rfl | hy
    · exact ⟨s, hs⟩
    · exact hw.recent y hy hle

/-- **Cutting off below a height.** -/
theorem cut (hw : Windowed store m zs) {g : Genesis} {s : StateDB} (hh : History g zs s)
    {store' : BlockStore} {c : UInt64} (hc : c.toNat ≤ m)
    (hget : ∀ y ∈ zs, store'.getBlock y.hash = (store.getBlock y.hash).map fun b =>
      if b.header.number < c then b.stub else b)
    (hsnap : ∀ y ∈ zs, store'.snapshots[y.hash]?
      = if c ≤ y.header.number then store.snapshots[y.hash]? else none) :
    Windowed store' m zs where
  whole y hy s' hs' := by
    rw [hsnap y hy] at hs'
    split at hs'
    · next hle =>
      rw [hget y hy, hw.whole y hy s' hs', Option.map_some, if_neg (UInt64.not_lt.mpr hle)]
    · cases hs'
  bare y hy hnone := by
    rw [hsnap y hy] at hnone
    rw [hget y hy]
    split at hnone
    · rw [hw.bare y hy hnone, Option.map_some]
      split <;> rfl
    · next hlt =>
      obtain ⟨x, hx, hhx⟩ := hw.getBlock hy
      rw [hx, Option.map_some, if_pos (by rw [hhx]; exact UInt64.not_le.mp hlt), Block.stub, hhx,
        Block.stub]
  below y ys hsub hnone x hx := by
    have hy : y ∈ zs := hsub.subset List.mem_cons_self
    have hxz : x ∈ zs := hsub.subset (List.mem_cons_of_mem _ hx)
    rw [hsnap y hy] at hnone
    rw [hsnap x hxz]
    split
    · next hle =>
      -- a block above `x` is not lower
      obtain ⟨pre, rfl⟩ := hsub
      obtain ⟨s', hys⟩ := hh.of_append
      have hxy := hys.number_le y ys rfl x (List.mem_cons_of_mem _ hx)
      rw [if_pos (UInt64.le_trans hle hxy)] at hnone
      exact hw.below y ys (List.suffix_append _ _) hnone x hx
    · rfl
  recent y hy hle := by
    rw [hsnap y hy, if_pos (UInt64.le_iff_toNat_le.mpr (hc.trans hle))]
    exact hw.recent y hy hle

end Windowed

namespace ChainOf

variable {g : Genesis} {k : ℕ} {t : Tracked} {h : H256} {s : StateDB} {zs : List Block}

theorem isPath (hc : ChainOf g k t h s zs) : t.cs.store.IsPath h (zs.map Block.hash) := by
  obtain ⟨z, zs', heq, rfl⟩ := hc.tip
  exact hc.windowed.isPath hc.history heq

theorem filterMap_archive (hc : ChainOf g k t h s zs) {ys : List Block} (hsub : ys <:+ zs) :
    (ys.map Block.hash).filterMap (fun k => t.archive[k]?) = ys := by
  have hall : ys.filterMap ((fun k => t.archive[k]?) ∘ Block.hash) = ys.filterMap some :=
    List.filterMap_congr fun y hy => hc.archived y (hsub.subset hy)
  rw [List.filterMap_map, hall, List.filterMap_some]

theorem chain_eq (hc : ChainOf g k t h s zs) : t.chain h = zs.reverse := by
  rw [Tracked.chain_eq hc.isPath, List.filterMap_reverse, hc.filterMap_archive List.suffix_rfl]

/-- **The chain of a snapshot further down is the rest of the chain.** -/
theorem of_suffix (hc : ChainOf g k t h s zs) {y : Block} {ys : List Block} (hsub : y :: ys <:+ zs)
    {s' : StateDB} {ws : List Block} (hc' : ChainOf g k t y.hash s' ws) : ws = y :: ys := by
  have hpath : t.cs.store.IsPath y.hash ((y :: ys).map Block.hash) := by
    obtain ⟨pre, rfl⟩ := hsub
    obtain ⟨s'', hys⟩ := hc.history.of_append
    exact hys.isPath (fun x hx => hc.windowed.getBlock (List.mem_append_right _ hx)) y ys rfl
  rw [← hc'.filterMap_archive List.suffix_rfl, hc'.isPath.unique hpath, hc.filterMap_archive hsub]

end ChainOf

/-! ### Runs -/

namespace Retained

variable {g : Genesis} {k : ℕ} {t : Tracked}

theorem start (g : Genesis) (k : ℕ) (pool : TransactionPool) : Retained g k (g.tracked pool) where
  consensus := by
    obtain ⟨outcome, store', heq, -, hn⟩ := g.inserted
    show (((BlockStore.new g.consensus).insertGenesis g.block).2.recordState _ _).consensus = _
    rw [heq]
    exact hn.consensus
  chain h s hs := by
    have hsnap := g.snapshots h
    rw [show g.store.snapshots[h]? = some s from hs] at hsnap
    split at hsnap
    · next he =>
      cases hsnap
      have hself : g.store.snapshots[g.block.hash]? = some g.state :=
        (g.snapshots _).trans (if_pos rfl)
      refine ⟨[g.block], .genesis, ⟨g.block, [], rfl, he.symm⟩, fun y hy => ?_, ?_⟩
      · rw [List.mem_singleton.mp hy]
        exact Table.get_insert_self _ _ _
      · have hnil : Windowed g.store (g.store.floor k) [] :=
          ⟨nofun, nofun, fun y ys hsub => (nomatch List.suffix_nil.mp hsub), nofun⟩
        exact hnil.cons hself g.getBlock_block
    · cases hsnap

section Accept

variable {b : Block} {pre post : StateDB} {outs : List ExecutionOutcome} {ctx : ExecutionContext}
  {outcome : InsertOutcome} {store' : BlockStore} {cs' : ChainState}

theorem floor_le_of_accepted (hi : StoreInv t.cs.store)
    (ha : Accepted t.cs b pre outs post ctx outcome store' cs') (k : ℕ) :
    t.cs.store.floor k ≤ cs'.store.floor k := by
  refine Nat.sub_le_sub_right ?_ _
  cases hh : t.cs.store.head with
  | none => exact Nat.zero_le _
  | some h =>
    obtain ⟨b₀, hb₀, -⟩ := hi.head_max h hh
    obtain ⟨b₁, hb₁, hmax⟩ := (ha.storeInv hi).head_max _ ha.head
    have hne : h ≠ b.hash := by
      rintro rfl
      rw [ha.insertable.fresh] at hb₀
      cases hb₀
    have hle := forkKey_le_iff.mp (hmax h b₀ ((ha.getBlock h).trans ((if_neg hne).trans hb₀)))
    rw [ha.head, Option.elim_some, Option.elim_some, numberOf_eq hb₀, numberOf_eq hb₁,
      ← UInt64.le_iff_toNat_le]
    exact hle.elim UInt64.le_of_lt fun h => UInt64.le_of_eq h.1

theorem chainOf_accepted (hi : StoreInv t.cs.store)
    (ha : Accepted t.cs b pre outs post ctx outcome store' cs') {h : H256} {s : StateDB}
    {zs : List Block} (hc : ChainOf g k t h s zs) :
    ChainOf g k ⟨cs', t.archive.insert b.hash b⟩ h s zs
      ∧ b.hash ∉ zs.map Block.hash := by
  have hne : ∀ y ∈ zs, y.hash ≠ b.hash := by
    intro y hy heq
    obtain ⟨x, hx, -⟩ := hc.windowed.getBlock hy
    rw [heq, ha.insertable.fresh] at hx
    cases hx
  refine ⟨⟨hc.history, hc.tip, fun y hy => ?_, hc.windowed.congr
    (floor_le_of_accepted hi ha k) (fun y hy => ?_) fun y hy => ?_⟩,
    fun hmem => ?_⟩
  · exact (Table.get_insert_of_ne _ _ (hne y hy)).trans (hc.archived y hy)
  · exact (ha.getBlock _).trans (if_neg (hne y hy))
  · show cs'.store.snapshots[y.hash]? = _
    rw [ha.snapshots, Table.get_insert_of_ne _ _ (hne y hy)]
  · obtain ⟨y, hy, heq⟩ := List.mem_map.mp hmem
    exact hne y hy heq

/-- **An accepted block** stands on the chain of its parent. -/
theorem accept (hk : Retained g k t) (hr : ReplayInv g t)
    (ha : Accepted t.cs b pre outs post ctx outcome store' cs') :
    Retained g k ⟨cs', t.archive.insert b.hash b⟩ where
  consensus := ha.consensus.trans hk.consensus
  chain h s hs := by
    change cs'.store.snapshots[h]? = some s at hs
    rw [ha.snapshots, Table.get_insert] at hs
    split at hs
    · next he =>
      cases hs
      obtain ⟨h0, hpre⟩ := hr.parent_of_accepted ha
      obtain ⟨zs, hc⟩ := hk.chain _ _ hpre
      obtain ⟨hc', hfresh⟩ := chainOf_accepted hr.inv ha hc
      obtain ⟨p, zs', rfl, hp⟩ := hc.tip
      have hget : t.cs.store.getBlock b.header.parentHash = some p := by
        rw [← hp] at hpre ⊢
        exact hc.windowed.whole p List.mem_cons_self pre hpre
      have haon := ha.acceptedOn hr.inv h0 hget
      rw [hk.consensus] at haon
      have hself : cs'.store.snapshots[b.hash]? = some post.rootHash.2 := by
        rw [ha.snapshots, Table.get_insert_self]
      refine ⟨b :: p :: zs', hc.history.step haon hfresh, ⟨b, p :: zs', rfl, he.symm⟩,
        fun y hy => ?_, hc'.windowed.cons hself ((ha.getBlock _).trans (if_pos rfl))⟩
      rcases List.mem_cons.mp hy with rfl | hy
      · exact Table.get_insert_self _ _ _
      · exact hc'.archived y hy
    · obtain ⟨zs, hc⟩ := hk.chain h s hs
      exact ⟨zs, (chainOf_accepted hr.inv ha hc).1⟩

end Accept

theorem prune (hk : Retained g k t) {store' : BlockStore} (hp : Pruned t.cs.store store')
    (hcons : store'.consensus = t.cs.store.consensus)
    (hwin : ∀ (h : H256) s zs, store'.snapshots[h]? = some s → ChainOf g k t h s zs →
      Windowed store' (store'.floor k) zs) :
    Retained g k ⟨{ t.cs with store := store' }, t.archive⟩ where
  consensus := hcons.trans hk.consensus
  chain h s hs := by
    obtain ⟨zs, hc⟩ := hk.chain h s (hp.sub h s hs)
    exact ⟨zs, hc.history, hc.tip, hc.archived, hwin h s zs hs hc⟩

theorem mem_of_chainOf {h h₀ : H256} {s : StateDB} {zs : List Block} {l : List H256}
    (hc : ChainOf g k t h s zs) (hl : t.cs.store.IsPath h₀ l) (hmem : h ∈ l) {y : Block}
    (hy : y ∈ zs) : y.hash ∈ l := by
  obtain ⟨m, hm, hsuf⟩ := hl.of_mem h hmem
  cases hc.isPath.unique hm
  exact hsuf.subset (List.mem_map_of_mem hy)

omit [Keccak] [Ed25519] [Wasmi] in
theorem toNat_cutoff_le_floor {store : BlockStore} {h₀ : H256} {b₀ : Block} {keep : UInt64}
    (hh : store.head = some h₀) (hb : store.getBlock h₀ = some b₀) (hkeep : k ≤ keep.toNat) :
    (cutoff b₀.header.number keep).toNat ≤ store.floor k := by
  rw [floor, hh, Option.elim_some, numberOf_eq hb, cutoff, UInt64.toNat_saturatingSub,
    UInt64.toNat_saturatingSub, UInt64.toNat_one]
  omega

/-- **One step.** -/
theorem step (hk : Retained g k t) (hr : ReplayInv g t) (op : ChainOp)
    (hkeep : ∀ keep, op = .pruneSnapshotsKeep keep → k ≤ keep.toNat) :
    Retained g k (op.step t) := by
  obtain ⟨h₀, hh, hs₀⟩ := hr.live
  obtain ⟨b₀, hb₀⟩ := hr.stored h₀ _ hs₀
  obtain ⟨l₀, hl₀⟩ := hr.inv.path h₀ b₀ hb₀
  cases op with
  | importBlock b =>
    rw [ChainOp.step]
    rcases ChainState.importAndApply_cases hr.inv b with
      ⟨e, he⟩ | ⟨pre, outs, post, ctx, outcome, store', cs', heq, ha⟩
    · rw [he]
      exact hk
    · rw [heq]
      exact hk.accept hr ha
  | pruneSnapshots =>
    refine hk.prune (pruned_pruneSnapshots hr.inv) ?_ fun h s zs hs hc => ?_
    · rw [pruneSnapshots]
      split <;> rfl
    rw [snapshots_pruneSnapshots hh hl₀] at hs
    split at hs
    · next hmem =>
      refine hc.windowed.congr ((sameHeaders_pruneSnapshots _).floor k).ge
        (fun y _ => getBlock_pruneSnapshots _ _) fun y hy => ?_
      rw [snapshots_pruneSnapshots hh hl₀, if_pos (mem_of_chainOf hc hl₀ hmem hy)]
    · cases hs
  | pruneSnapshotsKeep keep =>
    refine hk.prune (pruned_pruneSnapshotsKeep hr.inv keep) ?_ fun h s zs hs hc => ?_
    · rw [pruneSnapshotsKeep_eq hr.inv hh hb₀]
      rw [pruneSnapshots]
      split <;> rfl
    rw [snapshots_pruneSnapshotsKeep hr.inv hh hb₀ hl₀] at hs
    split at hs
    · next hmem =>
      rw [(sameHeaders_pruneSnapshotsKeep _ keep).floor k]
      refine hc.windowed.cut hc.history (toNat_cutoff_le_floor hh hb₀ (hkeep keep rfl))
        (fun y _ => getBlock_pruneSnapshotsKeep hr.inv hh hb₀ keep _) fun y hy => ?_
      obtain ⟨x, hx, hhx⟩ := hc.windowed.getBlock hy
      rw [snapshots_pruneSnapshotsKeep hr.inv hh hb₀ hl₀, numberOf_eq hx, hhx]
      simp only [mem_of_chainOf hc hl₀ hmem.1 hy, true_and]
    · cases hs

end Retained

/-! ### The window -/

omit [Keccak] [Ed25519] [Wasmi] in
theorem exists_cut {α : Type} {P : α → Prop} : ∀ (l : List α),
    (∀ y ys, y :: ys <:+ l → P y → ∀ x ∈ ys, P x) →
    ∃ lo ≤ l.length, ∀ y ys, y :: ys <:+ l → (P y ↔ ys.length < lo) := by
  intro l
  induction l with
  | nil => exact fun _ => ⟨0, le_rfl, fun y ys hsub => nomatch List.suffix_nil.mp hsub⟩
  | cons a l ih =>
    intro hdown
    by_cases ha : P a
    · refine ⟨(a :: l).length, le_rfl, fun y ys hsub => ⟨fun _ => hsub.length_le, fun _ => ?_⟩⟩
      rcases List.mem_cons.mp (hsub.subset List.mem_cons_self) with rfl | hy
      · exact ha
      · exact hdown a l List.suffix_rfl ha y hy
    · obtain ⟨lo, hle, hlo⟩ := ih fun y ys hsub => hdown y ys (hsub.trans (List.suffix_cons _ _))
      refine ⟨lo, hle.trans (Nat.le_succ _), fun y ys hsub => ?_⟩
      rcases List.suffix_cons_iff.mp hsub with heq | hsub
      · cases heq
        exact ⟨fun h => absurd h ha, fun h => absurd hle (Nat.not_le.mpr h)⟩
      · exact hlo y ys hsub

/-- The store shows the history `z :: zs` through a window: its blocks are whole and have their
states from height `lo` on, and are bare and have none below. -/
structure Serves (g : Genesis) (cs : ChainState) (z : Block) (zs : List Block) (lo : ℕ) : Prop where
  inv : StoreInv cs.store
  history : History g (z :: zs) cs.live
  length : (z :: zs).length < 2 ^ 64
  head : cs.store.head = some z.hash
  lo_le : lo ≤ z.header.number.toNat
  whole : ∀ y ys, y :: ys <:+ z :: zs → lo ≤ y.header.number.toNat →
    cs.store.getBlock y.hash = some y ∧ ∃ s, cs.store.stateAt y.hash = some s
      ∧ History g (y :: ys) s
  bare : ∀ y ys, y :: ys <:+ z :: zs → y.header.number.toNat < lo →
    cs.store.getBlock y.hash = some y.stub ∧ cs.store.stateAt y.hash = none

namespace Serves

variable {g : Genesis} {cs : ChainState} {z : Block} {zs : List Block} {lo : ℕ}

theorem history_of_suffix (hv : Serves g cs z zs lo) {y : Block} {ys : List Block}
    (hsub : y :: ys <:+ z :: zs) : (∃ s, History g (y :: ys) s) ∧ (y :: ys).length ≤ 2 ^ 64 := by
  have hle := hsub.length_le.trans hv.length.le
  obtain ⟨pre, heq⟩ := hsub
  exact ⟨(heq ▸ hv.history : History g (pre ++ y :: ys) cs.live).of_append, hle⟩

theorem exists_suffix (hv : Serves g cs z zs lo) {n : UInt64} (hn : n ≤ z.header.number) :
    ∃ y ys, y :: ys <:+ z :: zs ∧ y.header.number = n := by
  obtain ⟨y, hy, hnum⟩ := hv.history.exists_number_eq hv.length.le hn
  obtain ⟨pre, ys, heq⟩ := List.append_of_mem hy
  exact ⟨y, ys, ⟨pre, heq.symm⟩, hnum⟩

theorem getBlock (hv : Serves g cs z zs lo) {y : Block} {ys : List Block}
    (hsub : y :: ys <:+ z :: zs) : cs.store.getBlock y.hash
      = some (if lo ≤ y.header.number.toNat then y else y.stub) := by
  split
  · next hle => exact (hv.whole y ys hsub hle).1
  · next hlt => exact (hv.bare y ys hsub (Nat.lt_of_not_le hlt)).1

theorem headBlock (hv : Serves g cs z zs lo) : cs.store.headBlock = some z := by
  rw [BlockStore.headBlock, hv.head, Option.bind_some, hv.getBlock List.suffix_rfl,
    if_pos hv.lo_le]

theorem isPath (hv : Serves g cs z zs lo) : cs.store.IsPath z.hash ((z :: zs).map Block.hash) := by
  refine hv.history.isPath (fun y hy => ?_) z zs rfl
  obtain ⟨pre, ys, heq⟩ := List.append_of_mem hy
  refine ⟨_, hv.getBlock ⟨pre, heq.symm⟩, ?_⟩
  split <;> rfl

/-- **Lookups by height.** -/
theorem getBlockByNumber (hv : Serves g cs z zs lo) {y : Block} {ys : List Block}
    (hsub : y :: ys <:+ z :: zs) : cs.store.getBlockByNumber y.header.number
      = some (if lo ≤ y.header.number.toNat then y else y.stub) := by
  have hmem : y ∈ z :: zs := hsub.subset List.mem_cons_self
  have hnum : cs.store.numberOf y.hash = y.header.number := by
    rw [numberOf_eq (hv.getBlock hsub)]
    split <;> rfl
  have hindex : cs.store.byNumber[y.header.number]? = some y.hash := by
    rw [hv.inv.canonical z.hash _ hv.head hv.isPath,
      hv.inv.numberIndex_eq_some hv.isPath (by rw [List.length_map]; exact hv.length)]
    exact ⟨List.mem_map_of_mem hmem, hnum⟩
  rw [BlockStore.getBlockByNumber, hindex, Option.bind_some, hv.getBlock hsub]

theorem getBlockByNumber_above (hv : Serves g cs z zs lo) {n : UInt64} (hn : z.header.number < n) :
    cs.store.getBlockByNumber n = none := by
  cases hb : cs.store.getBlockByNumber n with
  | none => rfl
  | some b =>
    obtain ⟨-, head, hhead, hle⟩ := hv.inv.of_canonical hb
    rw [hv.headBlock] at hhead
    cases hhead
    exact absurd hn (UInt64.not_lt.mpr hle)

end Serves

namespace ChainOp

variable (g : Genesis) (pool : TransactionPool) (ops : List ChainOp)

/-- Every pruning keeps at least `k` heights. -/
def Keeps (k : ℕ) (ops : List ChainOp) : Prop :=
  ∀ keep, pruneSnapshotsKeep keep ∈ ops → k ≤ keep.toNat

theorem retained_run (hz : NoZeroHash g ops) {k : ℕ} (hkeep : Keeps k ops) :
    ReplayInv g (run g pool ops) ∧ Retained g k (run g pool ops) := by
  refine List.foldlRecOn ops step (motive := fun t => ReplayInv g t ∧ Retained g k t)
    ⟨.start g pool hz.1, .start g k pool⟩ ?_
  rintro t ⟨hr, hk⟩ op hop
  exact ⟨hr.step op fun b hb => hz.2 b (hb ▸ hop), hk.step hr op fun keep hop' =>
    hkeep keep (hop' ▸ hop)⟩

omit [Wasmi] in
theorem size_store (g : Genesis) : g.store.byHash.size = 1 := by
  obtain ⟨outcome, store', heq, -, hn⟩ := g.inserted
  rw [Genesis.store, heq]
  exact hn.size

theorem size_step_le {g : Genesis} {t : Tracked} (hr : ReplayInv g t) (op : ChainOp) :
    (op.step t).cs.store.byHash.size ≤ t.cs.store.byHash.size + 1 := by
  cases op with
  | importBlock b =>
    rw [step]
    rcases ChainState.importAndApply_cases hr.inv b with
      ⟨e, he⟩ | ⟨pre, outs, post, ctx, outcome, store', cs', heq, ha⟩
    · rw [he]
      exact Nat.le_succ _
    · rw [heq]
      exact (ha.sameHeaders.size.trans ha.inserted.size).le
  | pruneSnapshots => exact (pruned_pruneSnapshots hr.inv).same.size.le.trans (Nat.le_succ _)
  | pruneSnapshotsKeep k =>
    exact (pruned_pruneSnapshotsKeep hr.inv k).same.size.le.trans (Nat.le_succ _)

theorem size_foldl_le {g : Genesis} : ∀ (ops : List ChainOp) {t : Tracked}, ReplayInv g t →
    (∀ b, importBlock b ∈ ops → b.hash ≠ H256.zero) →
    (ops.foldl step t).cs.store.byHash.size ≤ t.cs.store.byHash.size + ops.length := by
  intro ops
  induction ops with
  | nil => intro t _ _; exact le_rfl
  | cons op ops ih =>
    intro t hr hne
    have hr' := hr.step op fun b hb => hne b (hb ▸ List.mem_cons_self)
    have hrest := ih hr' fun b hb => hne b (List.mem_cons_of_mem _ hb)
    have hop := size_step_le hr op
    rw [List.foldl_cons, List.length_cons]
    omega

/-- **After every run the store shows the canonical chain through a window**: the blocks of the
chain as they were imported, whole and with their states from some height on, bare below.  If every
pruning kept `k` heights, it shows the last `k`. -/
theorem serves_run (hz : NoZeroHash g ops) (hlen : ops.length + 1 < 2 ^ 64) {k : ℕ}
    (hkeep : Keeps k ops) :
    ∃ z zs lo, (run g pool ops).chain z.hash = (z :: zs).reverse
      ∧ lo ≤ z.header.number.toNat - (k - 1) ∧ Serves g (run g pool ops).cs z zs lo := by
  obtain ⟨hr, hk⟩ := retained_run g pool ops hz hkeep
  have hsize : (run g pool ops).cs.store.byHash.size < 2 ^ 64 := by
    have hle := size_foldl_le ops (ReplayInv.start g pool hz.1) hz.2
    rw [show (g.tracked pool).cs.store.byHash.size = 1 from size_store g] at hle
    exact lt_of_le_of_lt hle (by omega)
  generalize run g pool ops = t at hr hk hsize ⊢
  obtain ⟨h, hh, hs⟩ := hr.live
  obtain ⟨ws, hc⟩ := hk.chain h _ hs
  have hlen : ws.length < 2 ^ 64 := by
    have hle := IsPath.length_le_size hc.isPath
    rw [List.length_map] at hle
    exact lt_of_le_of_lt hle hsize
  obtain ⟨z, zs, rfl, rfl⟩ := hc.tip
  have hnum : ∀ y ys, y :: ys <:+ z :: zs → y.header.number.toNat = ys.length := by
    intro y ys hsub
    have hle := hsub.length_le
    obtain ⟨pre, heq⟩ := hsub
    obtain ⟨s', hys⟩ := (heq ▸ hc.history : History g (pre ++ y :: ys) t.cs.live).of_append
    exact hys.number_eq (by omega) y ys rfl
  obtain ⟨lo, -, hlo⟩ := exists_cut (z :: zs) hc.windowed.below
  have hdeep : lo ≤ z.header.number.toNat - (k - 1) := by
    -- the lowest of the last `k` blocks has a snapshot
    obtain ⟨y, hy, hny⟩ := hc.history.exists_number_eq hlen.le
      (UInt64.le_iff_toNat_le.mpr (by rw [UInt64.toNat_ofNat']; omega) :
        UInt64.ofNat (z.header.number.toNat - (k - 1)) ≤ z.header.number)
    obtain ⟨pre, ys, heq⟩ := List.append_of_mem hy
    have hn : y.header.number.toNat = z.header.number.toNat - (k - 1) := by
      rw [hny, UInt64.toNat_ofNat', Nat.mod_eq_of_lt (by have := z.header.number.toNat_lt; omega)]
    have hfloor : t.cs.store.floor k = z.header.number.toNat - (k - 1) := by
      obtain ⟨x, hx, hhx⟩ := hc.windowed.getBlock List.mem_cons_self
      rw [floor, hh, Option.elim_some, numberOf_eq hx, hhx]
    obtain ⟨s, hsy⟩ := hc.windowed.recent y hy (by rw [hfloor, hn])
    rw [← hn, hnum y ys ⟨pre, heq.symm⟩]
    refine Nat.le_of_not_lt fun hlt => ?_
    rw [(hlo y ys ⟨pre, heq.symm⟩).mpr hlt] at hsy
    cases hsy
  refine ⟨z, zs, lo, hc.chain_eq, hdeep, hr.inv, hc.history, hlen, hh,
    hdeep.trans (Nat.sub_le _ _), fun y ys hsub hle => ?_, fun y ys hsub hlt => ?_⟩
  · rw [hnum y ys hsub] at hle
    obtain ⟨s, hsy⟩ := Option.ne_none_iff_exists'.mp
      (mt (hlo y ys hsub).mp (Nat.not_lt.mpr hle))
    obtain ⟨ws, hcy⟩ := hk.chain _ _ hsy
    cases hc.of_suffix hsub hcy
    exact ⟨hc.windowed.whole y (hsub.subset List.mem_cons_self) s hsy, s,
      by rw [stateAt, hsy]; rfl, hcy.history⟩
  · rw [hnum y ys hsub] at hlt
    have hsy := (hlo y ys hsub).mpr hlt
    exact ⟨hc.windowed.bare y (hsub.subset List.mem_cons_self) hsy, by rw [stateAt, hsy]; rfl⟩

/-- The index of transactions points to the last occurrences, after every run. -/
theorem txIndexed_run (hz : NoZeroHash g ops) : TxIndexed (run g pool ops).cs.store := by
  refine (List.foldlRecOn ops step (motive := fun t => ReplayInv g t ∧ TxIndexed t.cs.store)
    ⟨.start g pool hz.1, ?_⟩ ?_).2
  · obtain ⟨outcome, store', heq, hins, hn⟩ := g.inserted
    show TxIndexed g.store
    rw [Genesis.store, heq]
    exact ((txIndexed_new _).inserted (storeInv_new _) hins hn).congr (fun _ => rfl) rfl
  · rintro t ⟨hr, hx⟩ op hop
    refine ⟨hr.step op fun b hb => hz.2 b (hb ▸ hop), ?_⟩
    cases op with
    | importBlock b =>
      rw [step]
      rcases ChainState.importAndApply_cases hr.inv b with
        ⟨e, he⟩ | ⟨pre, outs, post, ctx, outcome, store', cs', heq, ha⟩
      · rw [he]
        exact hx
      · rw [heq]
        show TxIndexed cs'.store
        rw [ha.store_eq]
        exact (hx.inserted hr.inv ha.insertable ha.inserted).congr (fun _ => rfl) rfl
    | pruneSnapshots =>
      exact hx.dropped hr.inv (dropped_zero (getBlock_pruneSnapshots _)
        (sameHeaders_pruneSnapshots _).byNumber (txIndex_pruneSnapshots _))
    | pruneSnapshotsKeep keep =>
      obtain ⟨m, hd⟩ := exists_dropped_pruneSnapshotsKeep hr.inv keep
      exact hx.dropped hr.inv hd

end ChainOp

end

end Ivory
