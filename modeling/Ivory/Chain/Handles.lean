import Ivory.Base.Cells
import Ivory.Chain.Import
import Ivory.Devnet

/-!
# Shared handles

`StateDB` is a handle: a clone shares the maps, `fork` copies them.  The executor
writes through the handle it is given, also when a transaction fails, and
`root_hash` writes too.  `ChainState` has values where the source has handles;
here is the chain state with the handles, and `import_and_apply` on it.

The live handle is not the handle of a snapshot, since `record_state` forks
(`Image.Sound`).

* `SharedChain.rejected_untouched`: **a refused block writes to nothing that the
  store, the live handle or the pool reaches.**
* `SharedChain.view_importAndApply`: **with values for handles, this is
  `ChainState.importAndApply`.**
-/

namespace Ivory

open BlockStore

/-- A chain state in memory: the contents behind the handles, the maps of the store, the handles
of its snapshots and of the live state, and the pool.  The snapshots of `blocks` are not used. -/
structure Image where
  heap : Cells StateDB
  blocks : BlockStore
  snapshots : Table H256 ℕ
  live : ℕ
  pool : TransactionPool

namespace Image

/-- No handle dangles, and the live state is not one of the snapshots. -/
structure Sound (m : Image) : Prop where
  live_lt : m.live < m.heap.size
  snapshot_lt : ∀ (h : H256) (r : ℕ), m.snapshots[h]? = some r → r < m.heap.size
  apart : ∀ (h : H256) (r : ℕ), m.snapshots[h]? = some r → r ≠ m.live

/-- The chain state with the contents in place of the handles. -/
def view (m : Image) : ChainState where
  store := { m.blocks with snapshots := m.snapshots.map fun _ r => m.heap.read r }
  live := m.heap.read m.live
  pool := m.pool

/-- Everything that the store, the live handle and the pool reach is as it was. -/
structure Untouched (m m' : Image) : Prop where
  blocks : m'.blocks = m.blocks
  snapshots : m'.snapshots = m.snapshots
  live : m'.live = m.live
  pool : m'.pool = m.pool
  cells : Cells.Extends m.heap m'.heap

section

variable [Keccak] [Wasmi]

/-- The loop over the transactions of a block, on the state behind a handle. -/
def executeOn (r : ℕ) : Cells StateDB → ExecutionContext → List Transaction →
    Except ExecutionError Unit × Cells StateDB
  | heap, _, [] => (.ok (), heap)
  | heap, ctx, tx :: txs =>
    match executeTransaction GasConfig.default (heap.read r) ctx tx with
    | (.error e, state, _) => (.error e, heap.write r state)
    | (.ok _, state, ctx) => executeOn r (heap.write r state) ctx txs

/-- `record_state`. -/
def recordState (m : Image) (hash : H256) (state : ℕ) : Image :=
  { m with
    heap := m.heap.alloc (m.heap.read state).fork
    snapshots := m.snapshots.insert hash m.heap.size }

/-- `live.reset_from(&store.state_at(&new_head))`, if there is such a snapshot. -/
def resetLive (m : Image) (newHead : H256) : Image :=
  match m.snapshots[newHead]? with
  | none => m
  | some snapshot =>
    let heap := m.heap.alloc (m.heap.read snapshot).fork
    { m with heap := heap.write m.live ((heap.read m.live).resetFrom (heap.read m.heap.size)) }

variable [Ed25519]

/-- `apply_head_change`. -/
def applyHeadChange (m : Image) (outcome : InsertOutcome) : Image :=
  let m := m.resetLive outcome.newHead
  let oldTxs := (outcome.oldHead.map m.blocks.txsOnPath).getD []
  let newTxs := m.blocks.txsOnPath outcome.newHead
  let newHashes := newTxs.map Transaction.hash
  let pool := oldTxs.foldl (fun pool tx =>
    if tx.hash ∈ newHashes then pool else (pool.addTransaction tx .local).2) m.pool
  { m with pool := newTxs.foldl (fun pool tx => pool.remove tx.hash) pool }

/-- `import_and_apply`: the trial state is a fork of the parent's snapshot, and the executor writes
through its handle. -/
def importAndApply (m : Image) (block : Block) : Except ChainError InsertOutcome × Image :=
  match m.snapshots[block.header.parentHash]? with
  | none => (.error .unknownParentState, m)
  | some snapshot =>
    let trial := m.heap.size
    let heap := m.heap.alloc (m.heap.read snapshot).fork
    match executeOn trial heap (ExecutionContext.new block.header.number block.header.timestamp)
        block.transactions.toList with
    | (.error e, heap) => (.error (.execution e), { m with heap := heap })
    | (.ok (), heap) =>
      let root := (heap.read trial).rootHash
      let heap := heap.write trial root.2
      if root.1 ≠ block.header.stateRoot then (.error .invalidStateRoot, { m with heap := heap })
      else
        match m.blocks.insertBlock block with
        | (.error e, blocks) => (.error e, { m with heap := heap, blocks := blocks })
        | (.ok outcome, blocks) =>
          let fork := heap.size
          let heap := heap.alloc (heap.read trial).fork
          let m := { m with heap := heap, blocks := blocks }.recordState outcome.hash fork
          (.ok outcome, if outcome.headChanged then m.applyHeadChange outcome else m)

end

/-! ### What is written -/

section

variable [Keccak] [Wasmi]

/-- The loop writes to its own cell only, and it is the execution of the transactions on the
contents of that cell. -/
theorem executeOn_spec (r : ℕ) : ∀ (txs : List Transaction) (heap : Cells StateDB)
    (ctx : ExecutionContext), r < heap.size →
    (executeOn r heap ctx txs).2.size = heap.size
    ∧ (∀ k, k ≠ r → (executeOn r heap ctx txs).2.read k = heap.read k)
    ∧ ((∃ e, executeAll GasConfig.default (heap.read r) ctx txs = .error e
        ∧ (executeOn r heap ctx txs).1 = .error e)
      ∨ ∃ outs s ctx', executeAll GasConfig.default (heap.read r) ctx txs = .ok (outs, s, ctx')
        ∧ (executeOn r heap ctx txs).1 = .ok () ∧ (executeOn r heap ctx txs).2.read r = s) := by
  intro txs
  induction txs with
  | nil => exact fun heap ctx hr => ⟨rfl, fun _ _ => rfl, .inr ⟨_, _, _, rfl, rfl, rfl⟩⟩
  | cons tx txs ih =>
    intro heap ctx hr
    rcases hx : executeTransaction GasConfig.default (heap.read r) ctx tx with ⟨res, state, ctx'⟩
    cases res with
    | error e =>
      have hon : executeOn r heap ctx (tx :: txs) = (.error e, heap.write r state) := by
        rw [executeOn, hx]
      rw [hon]
      refine ⟨Cells.size_write _ _ _, fun k hk => Cells.read_write_of_ne _ hk _, .inl ⟨e, ?_, rfl⟩⟩
      rw [executeAll, hx]
    | ok out =>
      have hon : executeOn r heap ctx (tx :: txs) = executeOn r (heap.write r state) ctx' txs := by
        rw [executeOn, hx]
      have hread : (heap.write r state).read r = state := Cells.read_write_self hr _
      obtain ⟨hsize, hother, hres⟩ := ih (heap.write r state) ctx' (by rwa [Cells.size_write])
      rw [hon]
      refine ⟨hsize.trans (Cells.size_write _ _ _), fun k hk => ?_, ?_⟩
      · rw [hother k hk, Cells.read_write_of_ne _ hk]
      · rw [hread] at hres
        rcases hres with ⟨e, he, hr'⟩ | ⟨outs, s, ctx'', he, hr'⟩
        · exact .inl ⟨e, by rw [executeAll, hx]; simp only [he], hr'⟩
        · exact .inr ⟨out :: outs, s, ctx'', by rw [executeAll, hx]; simp only [he], hr'⟩

theorem extends_executeOn {c heap : Cells StateDB} (h : Cells.Extends c heap) {r : ℕ}
    (hc : c.size ≤ r) (hr : r < heap.size) (ctx : ExecutionContext) (txs : List Transaction) :
    Cells.Extends c (executeOn r heap ctx txs).2 := by
  obtain ⟨hsize, hother, -⟩ := executeOn_spec r txs heap ctx hr
  refine ⟨by rw [hsize]; exact h.size_le, fun k hk => ?_⟩
  rw [hother k (Nat.ne_of_lt (lt_of_lt_of_le hk hc)), h.read_eq k hk]

end

section Insertion

/-- The store with other snapshots. -/
def withSnapshots (store : BlockStore) (t : Table H256 StateDB) : BlockStore :=
  { store with snapshots := t }

theorem rebuildTxIndex_withSnapshots [Keccak] (store : BlockStore) (t : Table H256 StateDB) :
    (withSnapshots store t).rebuildTxIndex = withSnapshots store.rebuildTxIndex t := by
  have hhead : (withSnapshots store t).headBlock = store.headBlock := rfl
  unfold rebuildTxIndex
  rw [hhead]
  cases store.headBlock <;> rfl

theorem maybeUpdateCanonical_withSnapshots (store : BlockStore) (t : Table H256 StateDB) (h : H256)
    (n : UInt64) : (withSnapshots store t).maybeUpdateCanonical h n
      = withSnapshots (store.maybeUpdateCanonical h n) t := by
  have htakes : (withSnapshots store t).takesHead h n = store.takesHead h n := rfl
  unfold maybeUpdateCanonical
  rw [htakes]
  split <;> rfl

variable [Keccak]

theorem insertValidated_withSnapshots (store : BlockStore) (t : Table H256 StateDB) (b : Block) :
    (withSnapshots store t).insertValidated b
      = ((store.insertValidated b).1, withSnapshots (store.insertValidated b).2 t) := by
  have hadded : (withSnapshots store t).added b = withSnapshots (store.added b) t := rfl
  have hget : (withSnapshots store t).getBlock b.hash = store.getBlock b.hash := rfl
  unfold insertValidated
  simp only [hadded, hget, maybeUpdateCanonical_withSnapshots, rebuildTxIndex_withSnapshots]
  by_cases hdup : (store.getBlock b.hash).isSome
  · rw [if_pos hdup, if_pos hdup]
  · rw [if_neg hdup, if_neg hdup]
    refine Prod.ext rfl ?_
    simp only [apply_ite (fun s => withSnapshots s t)]
    rfl

variable [Ed25519]

theorem insertBlock_withSnapshots (store : BlockStore) (t : Table H256 StateDB) (b : Block) :
    (withSnapshots store t).insertBlock b
      = ((store.insertBlock b).1, withSnapshots (store.insertBlock b).2 t) := by
  have hget : (withSnapshots store t).getBlock = store.getBlock := rfl
  have hcons : (withSnapshots store t).consensus = store.consensus := rfl
  unfold insertBlock insertGenesis
  simp only [hget, hcons, insertValidated_withSnapshots]
  split
  · split
    · rfl
    · split
      · rfl
      · split <;> rfl
  · split
    · rfl
    · split
      · rfl
      · split
        · rfl
        · split <;> rfl

theorem insertBlock_error {store : BlockStore} {b : Block} {e : ChainError}
    (h : (store.insertBlock b).1 = .error e) : (store.insertBlock b).2 = store := by
  rcases insertBlock_checks store b with ⟨e', he⟩ | ⟨-, -, heq⟩
  · rw [he]
  · rw [heq] at h ⊢
    unfold insertValidated at h ⊢
    by_cases hdup : (store.getBlock b.hash).isSome
    · simp only [if_pos hdup]
    · simp only [if_neg hdup] at h
      cases h

end Insertion

/-! ### The view -/

theorem stateAt_view (m : Image) (h : H256) :
    m.view.store.stateAt h = m.snapshots[h]?.map m.heap.read := by
  simp only [stateAt, view, Table.get_map, Option.map_map]
  rfl

namespace Sound

variable {m : Image} {heap : Cells StateDB}

theorem view_snapshots (hs : m.Sound) (hx : Cells.Extends m.heap heap) :
    (m.snapshots.map fun _ r => heap.read r) = m.snapshots.map fun _ r => m.heap.read r := by
  refine Table.ext fun h => ?_
  rw [Table.get_map, Table.get_map]
  cases hr : m.snapshots[h]? with
  | none => rfl
  | some r => rw [Option.map_some, Option.map_some, hx.read_eq r (hs.snapshot_lt h r hr)]

theorem grow (hs : m.Sound) (hx : Cells.Extends m.heap heap) (blocks : BlockStore) :
    ({ m with heap := heap, blocks := blocks } : Image).Sound where
  live_lt := lt_of_lt_of_le hs.live_lt hx.size_le
  snapshot_lt h r hr := lt_of_lt_of_le (hs.snapshot_lt h r hr) hx.size_le
  apart := hs.apart

theorem view_grow (hs : m.Sound) (hx : Cells.Extends m.heap heap) (blocks : BlockStore) :
    ({ m with heap := heap, blocks := blocks } : Image).view
      = { m.view with store := { blocks with snapshots := m.view.store.snapshots } } := by
  simp only [view, hs.view_snapshots hx, hx.read_eq m.live hs.live_lt]

theorem recordState (hs : m.Sound) (hash : H256) (r : ℕ) : (m.recordState hash r).Sound := by
  have hlt : m.heap.size < (m.heap.alloc (m.heap.read r).fork).size := by
    rw [Cells.size_alloc]
    exact Nat.lt_succ_self _
  refine ⟨hs.live_lt.trans hlt, fun h k hk => ?_, fun h k hk => ?_⟩
  all_goals
    simp only [Image.recordState, Table.get_insert] at hk
    split at hk
  · rw [← Option.some.inj hk]
    exact hlt
  · exact (hs.snapshot_lt h k hk).trans hlt
  · rw [← Option.some.inj hk]
    exact (Nat.ne_of_lt hs.live_lt).symm
  · exact hs.apart h k hk

theorem view_recordState (hs : m.Sound) (hash : H256) (r : ℕ) :
    (m.recordState hash r).view
      = { m.view with store := m.view.store.recordState hash (m.heap.read r) } := by
  have hx := (Cells.Extends.refl m.heap).alloc (m.heap.read r)
  have hsnap : ((m.snapshots.insert hash m.heap.size).map
      fun _ k => (m.heap.alloc (m.heap.read r)).read k)
      = (m.snapshots.map fun _ k => m.heap.read k).insert hash (m.heap.read r) := by
    refine Table.ext fun h => ?_
    rw [Table.get_map, Table.get_insert, Table.get_insert, ← hs.view_snapshots hx, Table.get_map]
    split
    · rw [Option.map_some, Cells.read_alloc_self]
    · rfl
  simp only [view, Image.recordState, BlockStore.recordState, StateDB.fork_eq, hsnap,
    hx.read_eq m.live hs.live_lt]

/-- Resetting the live state writes to its own cell, which is not the cell of a snapshot. -/
theorem resetLive (hs : m.Sound) (newHead : H256) :
    (m.resetLive newHead).Sound ∧ (m.resetLive newHead).blocks = m.blocks
      ∧ (m.resetLive newHead).view
        = { m.view with live := (m.view.store.stateAt newHead).getD m.view.live } := by
  rw [stateAt_view]
  unfold Image.resetLive
  cases hr : m.snapshots[newHead]? with
  | none => exact ⟨hs, rfl, rfl⟩
  | some r =>
    have hx := (Cells.Extends.refl m.heap).alloc (m.heap.read r)
    have hlive := lt_of_lt_of_le hs.live_lt hx.size_le
    simp only [StateDB.fork_eq, StateDB.resetFrom_eq, Cells.read_alloc_self]
    refine ⟨⟨?_, fun h k hk => ?_, hs.apart⟩, trivial, ?_⟩
    · rwa [Cells.size_write]
    · rw [Cells.size_write]
      exact lt_of_lt_of_le (hs.snapshot_lt h k hk) hx.size_le
    · have hsnap : (m.snapshots.map fun _ k =>
          ((m.heap.alloc (m.heap.read r)).write m.live (m.heap.read r)).read k)
          = m.snapshots.map fun _ k => m.heap.read k := by
        refine Table.ext fun h => ?_
        rw [Table.get_map, Table.get_map]
        cases hk : m.snapshots[h]? with
        | none => rfl
        | some k =>
          rw [Option.map_some, Option.map_some, Cells.read_write_of_ne _ (hs.apart h k hk),
            hx.read_eq k (hs.snapshot_lt h k hk)]
      simp only [view, hsnap, Cells.read_write_self hlive, Option.map_some, Option.getD_some]

theorem applyHeadChange [Keccak] [Ed25519] (hs : m.Sound) (outcome : InsertOutcome) :
    (m.applyHeadChange outcome).Sound
      ∧ (m.applyHeadChange outcome).view = m.view.applyHeadChange outcome := by
  obtain ⟨hsound, hblocks, hview⟩ := hs.resetLive outcome.newHead
  refine ⟨⟨hsound.live_lt, hsound.snapshot_lt, hsound.apart⟩, ?_⟩
  have hpool : (m.resetLive outcome.newHead).pool = m.pool := congrArg ChainState.pool hview
  have hwith (m' : Image) (pool : TransactionPool) :
      ({ m' with pool := pool } : Image).view = { m'.view with pool := pool } := rfl
  have hpath : m.view.store.txsOnPath = m.blocks.txsOnPath := rfl
  refine (hwith (m.resetLive outcome.newHead) _).trans ?_
  unfold ChainState.applyHeadChange
  simp only [hview, hblocks, hpool, hpath]
  cases m.view.store.stateAt outcome.newHead <;> rfl

/-- Recording the trial state of an inserted block and applying the change of the head, if any. -/
theorem accept [Keccak] [Ed25519] (hs : m.Sound) (hx : Cells.Extends m.heap heap)
    (blocks : BlockStore) (outcome : InsertOutcome) (trial : ℕ) {m' : Image} {cs : ChainState}
    (hm : m' = ({ m with heap := heap.alloc (heap.read trial).fork, blocks := blocks } :
      Image).recordState outcome.hash heap.size)
    (hcs : cs = { m.view with
      store := (withSnapshots blocks m.view.store.snapshots).recordState outcome.hash
        (heap.read trial) }) :
    (if outcome.headChanged then m'.applyHeadChange outcome else m').Sound
      ∧ (if outcome.headChanged then m'.applyHeadChange outcome else m').view
        = if outcome.headChanged then cs.applyHeadChange outcome else cs := by
  have hx' := hx.alloc (heap.read trial)
  have hsound : m'.Sound := by
    rw [hm]
    exact (hs.grow hx' blocks).recordState _ _
  have hview : m'.view = cs := by
    rw [hm, hcs, (hs.grow (hx.alloc _) blocks).view_recordState, hs.view_grow (hx.alloc _)]
    simp only [StateDB.fork_eq, Cells.read_alloc_self]
    rfl
  split
  · rw [← hview]
    exact hsound.applyHeadChange outcome
  · exact ⟨hsound, hview⟩

end Sound

/-! ### The import -/

section Import

variable [Keccak] [Ed25519] [Wasmi]

/-- **An import next to the import of the view.**  It is refused and only new cells were written,
or it is accepted; the two agree. -/
theorem importAndApply_cases {m : Image} (hs : m.Sound) (b : Block) :
    (∃ e heap, Cells.Extends m.heap heap
        ∧ m.importAndApply b = (.error e, { m with heap := heap })
        ∧ m.view.importAndApply b = (.error e, m.view))
      ∨ ∃ outcome m', m'.Sound ∧ m.importAndApply b = (.ok outcome, m')
        ∧ m.view.importAndApply b = (.ok outcome, m'.view) := by
  unfold importAndApply ChainState.importAndApply
  rw [stateAt_view]
  cases hr : m.snapshots[b.header.parentHash]? with
  | none => exact .inl ⟨_, m.heap, .refl _, rfl, rfl⟩
  | some r =>
    -- the trial state is a new cell with the parent's state
    have hx₀ := (Cells.Extends.refl m.heap).alloc (m.heap.read r)
    have htrial : m.heap.size < (m.heap.alloc (m.heap.read r)).size := by
      rw [Cells.size_alloc]
      exact Nat.lt_succ_self _
    have hspec := executeOn_spec m.heap.size b.transactions.toList _
      (ExecutionContext.new b.header.number b.header.timestamp) htrial
    have hx₁ := extends_executeOn hx₀ le_rfl htrial
      (ExecutionContext.new b.header.number b.header.timestamp) b.transactions.toList
    simp only [Option.map_some, StateDB.fork_eq, executeBlock]
    rw [Cells.read_alloc_self] at hspec
    generalize executeOn m.heap.size (m.heap.alloc (m.heap.read r))
      (ExecutionContext.new b.header.number b.header.timestamp) b.transactions.toList = out
      at hspec hx₁ ⊢
    obtain ⟨res, heap⟩ := out
    obtain ⟨hsize, -, ⟨e, he, hres⟩ | ⟨outs, post, ctx, he, hres, hread⟩⟩ := hspec
    · simp only at hres
      simp only [he, hres]
      exact .inl ⟨_, heap, hx₁, rfl, rfl⟩
    · simp only at hres hread
      simp only [he, hres, hread]
      have hx₂ := hx₁.write le_rfl post.rootHash.2
      have hread₂ : (heap.write m.heap.size post.rootHash.2).read m.heap.size = post.rootHash.2 :=
        Cells.read_write_self (by rw [hsize]; exact htrial) _
      by_cases hroot : post.rootHash.1 = b.header.stateRoot
      · rw [if_neg (not_not.mpr hroot), if_neg (not_not.mpr hroot)]
        have hins := insertBlock_withSnapshots m.blocks m.view.store.snapshots b
        have hstore : withSnapshots m.blocks m.view.store.snapshots = m.view.store := rfl
        rw [hstore] at hins
        rw [hins]
        cases hb : (m.blocks.insertBlock b).1 with
        | error e =>
          have heq : m.blocks.insertBlock b = (.error e, m.blocks) :=
            Prod.ext hb (insertBlock_error hb)
          rw [heq]
          exact .inl ⟨e, _, hx₂, rfl, rfl⟩
        | ok outcome =>
          have heq : m.blocks.insertBlock b = (.ok outcome, (m.blocks.insertBlock b).2) :=
            Prod.ext hb rfl
          rw [heq]
          obtain ⟨hsound, hview⟩ := hs.accept hx₂ (m.blocks.insertBlock b).2 outcome m.heap.size
            rfl rfl
          refine .inr ⟨outcome, _, hsound, rfl, ?_⟩
          rw [hview, hread₂]
      · rw [if_pos hroot, if_pos hroot]
        exact .inl ⟨_, _, hx₂, rfl, rfl⟩

end Import

end Image

/-- A chain state in memory whose handles are sound. -/
structure SharedChain extends Image where
  sound : toImage.Sound

namespace SharedChain

variable [Keccak] [Ed25519] [Wasmi]

theorem sound_importAndApply (m : SharedChain) (b : Block) :
    (m.toImage.importAndApply b).2.Sound := by
  rcases Image.importAndApply_cases m.sound b with ⟨e, heap, hx, h, -⟩ | ⟨_, m', hm', h, -⟩
  · rw [h]
    exact m.sound.grow hx m.blocks
  · rw [h]
    exact hm'

/-- `import_and_apply`. -/
def importAndApply (m : SharedChain) (b : Block) : Except ChainError InsertOutcome × SharedChain :=
  ((m.toImage.importAndApply b).1, ⟨(m.toImage.importAndApply b).2, m.sound_importAndApply b⟩)

/-- **With values for handles, this is `ChainState.importAndApply`.** -/
theorem view_importAndApply (m : SharedChain) (b : Block) :
    m.view.importAndApply b = ((m.importAndApply b).1, (m.importAndApply b).2.view) := by
  unfold importAndApply
  rcases Image.importAndApply_cases m.sound b with ⟨e, heap, hx, h, hv⟩ | ⟨_, m', -, h, hv⟩
  · rw [hv]
    simp only [h]
    rw [m.sound.view_grow hx m.blocks]
    rfl
  · rw [hv]
    simp only [h]

/-- **A refused block leaves no trace.**  The maps of the store, the handles and the pool are as
they were, and so is every cell that was there; the store, the live state and the pool have the
contents they had. -/
theorem rejected_untouched (m : SharedChain) (b : Block) (e : ChainError)
    (h : (m.importAndApply b).1 = .error e) :
    Image.Untouched m.toImage (m.importAndApply b).2.toImage
      ∧ (m.importAndApply b).2.view = m.view := by
  have hview := m.view_importAndApply b
  unfold importAndApply at h hview ⊢
  rcases Image.importAndApply_cases m.sound b with ⟨e', heap, hx, heq, hv⟩ | ⟨_, m', -, heq, -⟩
  · refine ⟨?_, ?_⟩
    · simp only [heq]
      exact ⟨rfl, rfl, rfl, rfl, hx⟩
    · rw [hv] at hview
      exact (congrArg Prod.snd hview).symm
  · simp only [heq] at h
    cases h

end SharedChain

namespace Devnet

/-- A node's memory after the genesis: the snapshot of the genesis and the live state are two
cells with the same contents. -/
def memory : SharedChain where
  heap := ⟨[state, state]⟩
  blocks := ((BlockStore.new consensus).insertBlock genesisBlock).2
  snapshots := (∅ : Table H256 ℕ).insert genesisBlock.hash 0
  live := 1
  pool := TransactionPool.new
  sound := by
    have hsnap (h : H256) (r : ℕ)
        (hr : ((∅ : Table H256 ℕ).insert genesisBlock.hash 0)[h]? = some r) : r = 0 := by
      rw [Table.get_insert] at hr
      split at hr
      · exact (Option.some.inj hr).symm
      · simp at hr
    refine ⟨by decide, fun h r hr => ?_, fun h r hr => ?_⟩
    · rw [hsnap h r hr]
      decide
    · rw [hsnap h r hr]
      decide

/-- A block whose second transfer has a nonce from the future. -/
@[irreducible] def gapBlock : Block :=
  build 1 genesisBlock.hash 1 0 H256.zero [transfer 0, transfer 5] []

/-- The first transfer of the block was executed before the second was refused. -/
theorem rejected_untouched_gap : ∃ e, (memory.importAndApply gapBlock).1 = .error e
    ∧ Image.Untouched memory.toImage (memory.importAndApply gapBlock).2.toImage
    ∧ (memory.importAndApply gapBlock).2.view = memory.view := by
  have heval : (memory.importAndApply gapBlock).1 = .error (.execution (.nonceMismatch 1 5)) := by
    decide +kernel
  exact ⟨_, heval, memory.rejected_untouched gapBlock _ heval⟩

end Devnet

end Ivory
