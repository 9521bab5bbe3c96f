import Ivory.Node.Admission
import Ivory.Node.Convergence
import Ivory.Node.Mirror

/-!
# Sessions on one data directory

A node imports blocks, writes the chain to disk after each and prunes its
memory.  A session ends, and the next one opens the same database, with an
archive policy of its own.

Side blocks lose their snapshots to the first pruning, so the parent of every
accepted block is canonical and the canonical chain is a history at all times.

* `Advances`: what an import can do to the canonical chain.
* `Session`: **what holds between the steps of a session**: memory and disk hold the same history,
  each with the state after its newest block.
* `Session.importBlock`, `Session.reopen`: the steps keep it.
* `Covers`: every body that the policy of the session keeps is there, or was empty.
* `SessionOp.reopens`: a database is loaded again, if the policy covers what every accepted import
  leaves.
* `SessionOp.restores`: under one policy, what is loaded is what was in memory.
-/

namespace Ivory

open BlockStore

/-! ### The chain after an import -/

section Advances

variable [Keccak]

/-- The canonical chain stays, or the block takes over on an older part of it. -/
inductive Advances (z : Block) (zs : List Block) (b : Block) : Block → List Block → Prop
  | stay : Advances z zs b z zs
  | move {ys : List Block} : ys <:+ z :: zs → forkKey z.hash z < forkKey b.hash b →
      Advances z zs b b ys

namespace Advances

variable {z z' b : Block} {zs zs' : List Block}

theorem mem (h : Advances z zs b z' zs') {y : Block} (hy : y ∈ z' :: zs') :
    y = b ∨ y ∈ z :: zs := by
  cases h with
  | stay => exact .inr hy
  | move hsuf _ => exact (List.mem_cons.mp hy).imp_right fun hy => hsuf.subset hy

theorem forkKey_le (h : Advances z zs b z' zs') : forkKey z.hash z ≤ forkKey z'.hash z' := by
  cases h with
  | stay => exact le_rfl
  | move _ hlt => exact hlt.le

theorem number_le (h : Advances z zs b z' zs') : z.header.number ≤ z'.header.number := by
  rcases forkKey_le_iff.mp h.forkKey_le with hlt | ⟨heq, -⟩
  · exact UInt64.le_of_lt hlt
  · exact UInt64.le_of_eq heq

theorem length_le (h : Advances z zs b z' zs') :
    (z' :: zs').length ≤ (z :: zs).length + 1 := by
  cases h with
  | stay => exact Nat.le_succ _
  | move hsuf _ => exact Nat.succ_le_succ hsuf.length_le

end Advances

end Advances

section Import

variable [Keccak] [Ed25519] [Wasmi] {g : Genesis} {z b : Block} {zs : List Block}
  {s pre post : StateDB} {cs cs' : ChainState}
  {outs : List ExecutionOutcome} {ctx : ExecutionContext} {outcome : InsertOutcome}
  {store' : BlockStore}

theorem AcceptedOn.of_header_eq {c : PoAConsensus} {x p : Block}
    (ha : AcceptedOn c x pre b outs post ctx) (heq : x.header = p.header) :
    AcceptedOn c p pre b outs post ctx where
  parent := by rw [ha.parent, Block.hash, Block.hash, heq]
  number := by rw [ha.number, heq]
  timestamp := by rw [← heq]; exact ha.timestamp
  miner := ha.miner
  seals := ha.seals
  valid := ha.valid
  executed := ha.executed
  root := ha.root

/-- The snapshots of a store belong to the blocks of the history. -/
def OnlyCanonical (z : Block) (zs : List Block) (store : BlockStore) : Prop :=
  ∀ (h : H256) s, store.snapshots[h]? = some s → h ∈ (z :: zs).map Block.hash

theorem History.number_ne_zero (hh : History g (z :: zs) s) (honly : OnlyCanonical z zs cs.store)
    (ha : Accepted cs b pre outs post ctx outcome store' cs')
    (hlt : forkKey z.hash z < forkKey b.hash b) : b.header.number ≠ 0 := by
  intro h0
  rcases forkKey_lt_iff.mp hlt with hlt | ⟨hz, hlt⟩
  · rw [h0] at hlt
    exact absurd hlt UInt64.not_lt_zero
  · -- the head is the genesis, whose hash would be zero
    obtain ⟨s', hs', -⟩ := Option.map_eq_some_iff.mp ha.parent
    obtain ⟨p, hp, hhash⟩ := List.mem_map.mp (honly _ s' hs')
    have hp0 : p.header.number = z.header.number := by
      have hle := hh.number_le z zs rfl p hp
      rw [hz, h0] at hle ⊢
      exact UInt64.le_antisymm hle UInt64.zero_le
    rw [hz, h0] at hp0
    have hpz : p = z := (hh.eq_genesis p hp hp0).trans
      (hh.eq_genesis z List.mem_cons_self (by rw [hz, h0])).symm
    rw [← hpz, hhash, ha.insertable.genesis h0] at hlt
    exact absurd hlt (not_lt.mpr (Arr.replicate_zero_le _))

namespace InMemory

theorem hash_ne (hm : InMemory g z zs cs.store)
    (ha : Accepted cs b pre outs post ctx outcome store' cs') {y : Block} (hy : y ∈ z :: zs) :
    y.hash ≠ b.hash := by
  intro heq
  obtain ⟨x, hx, -⟩ := hm.blocks y hy
  rw [heq, ha.insertable.fresh] at hx
  cases hx

/-- **The parent of a block that takes over is canonical.** -/
theorem exists_parent (hm : InMemory g z zs cs.store) (hh : History g (z :: zs) s)
    (honly : OnlyCanonical z zs cs.store) (ha : Accepted cs b pre outs post ctx outcome store' cs')
    (hlt : forkKey z.hash z < forkKey b.hash b) :
    ∃ p ys, p :: ys <:+ z :: zs ∧ History g (p :: ys) pre
      ∧ AcceptedOn g.consensus p pre b outs post ctx := by
  obtain ⟨s', hs', hfork⟩ := Option.map_eq_some_iff.mp ha.parent
  rw [StateDB.fork_eq] at hfork
  cases hfork
  obtain ⟨p, hp, hhash⟩ := List.mem_map.mp (honly _ pre hs')
  obtain ⟨l, ys, hsplit⟩ := List.append_of_mem hp
  have hsuf : p :: ys <:+ z :: zs := ⟨l, hsplit.symm⟩
  obtain ⟨x, hx, hv⟩ := hm.blocks p hp
  refine ⟨p, ys, hsuf, hm.snapshots p ys pre hsuf (by rw [hhash]; exact hs'), ?_⟩
  rw [← hm.consensus]
  exact (ha.acceptedOn hm.inv (hh.number_ne_zero honly ha hlt)
    (by rw [← hhash]; exact hx)).of_header_eq hv.header_eq

/-- **An accepted import leads from one history to the next.** -/
theorem accepted (hm : InMemory g z zs cs.store) (hh : History g (z :: zs) s)
    (hsnap : cs.store.snapshots[z.hash]? = some s) (honly : OnlyCanonical z zs cs.store)
    (ha : Accepted cs b pre outs post ctx outcome store' cs') :
    ∃ z' zs' s', Advances z zs b z' zs' ∧ History g (z' :: zs') s' ∧ InMemory g z' zs' cs'.store
      ∧ cs'.store.snapshots[z'.hash]? = some s' ∧ Newest z' zs' cs'.store b := by
  have hold : ∀ y ∈ z :: zs, cs'.store.getBlock y.hash = cs.store.getBlock y.hash := by
    intro y hy
    rw [ha.getBlock, if_neg (hm.hash_ne ha hy)]
  have holds : ∀ y ∈ z :: zs, cs'.store.snapshots[y.hash]? = cs.store.snapshots[y.hash]? := by
    intro y hy
    rw [ha.snapshots, Table.get_insert_of_ne _ _ (hm.hash_ne ha hy)]
  have hself : cs'.store.getBlock b.hash = some b := by rw [ha.getBlock, if_pos rfl]
  rcases ha.inserted.cases with ⟨hmoved, -, hlt, -⟩ | ⟨hstay, -⟩
  · obtain ⟨x, hx, hv⟩ := hm.blocks z List.mem_cons_self
    have hlt : forkKey z.hash z < forkKey b.hash b := by
      have hlt := hlt z.hash x hm.head hx
      rwa [forkKey, hv.header_eq] at hlt
    obtain ⟨p, ys, hsuf, hp, hon⟩ := hm.exists_parent hh honly ha hlt
    have hn : b.hash ∉ (p :: ys).map Block.hash := by
      rintro hmem
      obtain ⟨y, hy, heq⟩ := List.mem_map.mp hmem
      exact hm.hash_ne ha (hsuf.subset hy) heq
    have hpost : cs'.store.snapshots[b.hash]? = some post.rootHash.2 := by
      rw [ha.snapshots, Table.get_insert_self]
    refine ⟨b, p :: ys, post.rootHash.2, .move hsuf hlt, .step hp hon hn,
      ⟨ha.storeInv hm.inv, ha.consensus.trans hm.consensus, (ha.live_of_moved hmoved).1,
        fun y hy => ?_, fun y ys' s' hsuf' hs' => ?_⟩, hpost, fun y hy heq => ?_⟩
    · rcases List.mem_cons.mp hy with rfl | hy
      · exact ⟨y, hself, .inl rfl⟩
      · rw [hold y (hsuf.subset hy)]
        exact hm.blocks y (hsuf.subset hy)
    · rcases List.suffix_cons_iff.mp hsuf' with heq | hsuf'
      · cases heq
        cases hpost.symm.trans hs'
        exact .step hp hon hn
      · have hsuf'' := hsuf'.trans hsuf
        rw [holds y (hsuf''.subset List.mem_cons_self)] at hs'
        exact hm.snapshots y ys' s' hsuf'' hs'
    · rcases List.mem_cons.mp hy with rfl | hy
      · exact ⟨rfl, hself⟩
      · exact absurd heq (hm.hash_ne ha (hsuf.subset hy))
  · refine ⟨z, zs, s, .stay, hh, ⟨ha.storeInv hm.inv, ha.consensus.trans hm.consensus,
      (ha.stayed hstay).1.trans hm.head, fun y hy => ?_, fun y ys s' hsuf hs' => ?_⟩, ?_,
      fun y hy heq => absurd heq (hm.hash_ne ha hy)⟩
    · rw [hold y hy]
      exact hm.blocks y hy
    · rw [holds y (hsuf.subset List.mem_cons_self)] at hs'
      exact hm.snapshots y ys s' hsuf hs'
    · rw [holds z List.mem_cons_self, hsnap]

end InMemory

end Import

/-! ### Pruning -/

section Pruning

theorem ChainPersist.Keeps.not_lt_cutoff {persist : ChainPersist} {head number : UInt64}
    (hk : persist.Keeps head number) (harch : persist.archive = false) (h0 : number ≠ 0) :
    ¬ number < cutoff head persist.archiveKeep := by
  rcases hk with hk | hk | hk
  · rw [harch] at hk
    cases hk
  · exact absurd hk h0
  · rw [UInt64.lt_iff_toNat_lt, UInt64.toNat_saturatingSub] at hk
    rw [UInt64.lt_iff_toNat_lt, cutoff, UInt64.toNat_saturatingSub, UInt64.toNat_saturatingSub]
    simp
    omega

theorem ChainPersist.Keeps.of_le {persist : ChainPersist} {head head' number : UInt64}
    (hk : persist.Keeps head' number) (hle : head ≤ head') : persist.Keeps head number := by
  refine hk.imp_right (Or.imp_right fun hk => ?_)
  rw [UInt64.lt_iff_toNat_lt, UInt64.toNat_saturatingSub] at hk ⊢
  rw [UInt64.le_iff_toNat_le] at hle
  omega

variable [Keccak]

theorem Node.getBlock_pruneStore {store : BlockStore} (hi : StoreInv store) {h₀ : H256} {b₀ : Block}
    (hh : store.head = some h₀) (hb : store.getBlock h₀ = some b₀) (persist : ChainPersist)
    (h : H256) : (Node.pruneStore store persist).getBlock h = (store.getBlock h).map fun b =>
      if persist.archive = false
        ∧ b.header.number < cutoff b₀.header.number persist.archiveKeep then b.stub else b := by
  unfold Node.pruneStore
  split
  · next harch => simp [getBlock_pruneSnapshots, harch]
  · next harch => simp [getBlock_pruneSnapshotsKeep hi hh hb, harch]

theorem Node.mem_of_snapshots_pruneStore {store : BlockStore} (hi : StoreInv store) {h₀ : H256}
    {b₀ : Block} (hh : store.head = some h₀) (hb : store.getBlock h₀ = some b₀) {l : List H256}
    (hl : store.IsPath h₀ l) {persist : ChainPersist} {h : H256} {s : StateDB}
    (hs : (Node.pruneStore store persist).snapshots[h]? = some s) : h ∈ l := by
  unfold Node.pruneStore at hs
  split at hs
  · rw [snapshots_pruneSnapshots hh hl] at hs
    split at hs
    · next hmem => exact hmem
    · cases hs
  · rw [snapshots_pruneSnapshotsKeep hi hh hb hl] at hs
    split at hs
    · next hmem => exact hmem.1
    · cases hs

variable [Ed25519] [Wasmi] {g : Genesis} {z : Block} {zs : List Block} {s : StateDB}
  {store : BlockStore}

namespace InMemory

theorem pruneStore (hm : InMemory g z zs store) (persist : ChainPersist) :
    InMemory g z zs (Node.pruneStore store persist) := by
  have hp := Node.pruned_pruneStore hm.inv persist
  obtain ⟨b₀, hb₀, -⟩ := hm.blocks z List.mem_cons_self
  refine ⟨hm.inv.of_sameHeaders hp.same, hp.same.consensus.trans hm.consensus,
    hp.same.head.trans hm.head, fun y hy => ?_,
    fun y ys s' hsuf hs' => hm.snapshots y ys s' hsuf (hp.sub _ s' hs')⟩
  obtain ⟨x, hx, hv⟩ := hm.blocks y hy
  rw [Node.getBlock_pruneStore hm.inv hm.head hb₀, hx, Option.map_some]
  refine ⟨_, rfl, ?_⟩
  split
  · exact hv.stub
  · exact hv

theorem onlyCanonical_pruneStore (hm : InMemory g z zs store) (hh : History g (z :: zs) s)
    (persist : ChainPersist) : OnlyCanonical z zs (Node.pruneStore store persist) := by
  obtain ⟨b₀, hb₀, -⟩ := hm.blocks z List.mem_cons_self
  exact fun h s' hs' => Node.mem_of_snapshots_pruneStore hm.inv hm.head hb₀ (hm.isPath hh) hs'

theorem getBlock_pruneStore (hm : InMemory g z zs store) (hh : History g (z :: zs) s)
    (hg : g.block.stub = g.block) {persist : ChainPersist} {y : Block} (hy : y ∈ z :: zs)
    (hk : persist.Keeps z.header.number y.header.number) (hx : store.getBlock y.hash = some y) :
    (Node.pruneStore store persist).getBlock y.hash = some y := by
  obtain ⟨b₀, hb₀, hv⟩ := hm.blocks z List.mem_cons_self
  rw [Node.getBlock_pruneStore hm.inv hm.head hb₀, hx, Option.map_some, hv.header_eq]
  split
  · next hcut =>
    by_cases h0 : y.header.number = 0
    · rw [hh.eq_genesis y hy h0, hg]
    · exact absurd hcut.2 (hk.not_lt_cutoff hcut.1 h0)
  · rfl

end InMemory

end Pruning

/-! ### Between the steps -/

section Session

variable [Keccak] [Ed25519] [Wasmi]

/-- Memory and disk hold the history `z :: zs`, whose blocks are in `S`, with the state `s` after
it. The snapshots on disk that are not of this history belong to blocks that lost to `z`, and no
height above that of `z` was ever written. -/
structure Session (g : Genesis) (S : Set Block) (z : Block) (zs : List Block) (s : StateDB)
    (n : Node) : Prop where
  history : History g (z :: zs) s
  known : ∀ y ∈ z :: zs, y ∈ family g S
  keep : 0 < n.persist.archiveKeep
  memory : InMemory g z zs n.chain.store
  snapshot : n.chain.store.snapshots[z.hash]? = some s
  only : OnlyCanonical z zs n.chain.store
  disk : OnDisk g z zs n.persist.db
  top : n.persist.db.head = some z.hash
  saved : n.persist.getSnapshot z.hash = some s
  outdone : ∀ (h : H256) snap, n.persist.db.snapshots[h]? = some snap →
    ∃ y ∈ family g S, y.hash = h ∧ forkKey y.hash y ≤ forkKey z.hash z
  above : ∀ m, z.header.number < m → n.persist.db.heights[m]? = none

/-- The bodies that the policy keeps are there, in memory and on disk. -/
def Whole (z : Block) (zs : List Block) (n : Node) : Prop :=
  ∀ y ∈ z :: zs, n.persist.Keeps z.header.number y.header.number →
    n.chain.store.getBlock y.hash = some y ∧ n.persist.db.blocks[y.hash]? = some y

/-- The block `b` leads from the history `z :: zs` to the next one, which the store holds: what an
accepted block leaves in memory, before anything is written or pruned. -/
structure Succession (g : Genesis) (persist : ChainPersist) (z : Block) (zs : List Block)
    (b z' : Block) (zs' : List Block) (s' : StateDB) (store : BlockStore) : Prop where
  advances : Advances z zs b z' zs'
  history : History g (z' :: zs') s'
  length : (z' :: zs').length < 2 ^ 64
  memory : InMemory g z' zs' store
  snapshot : store.snapshots[z'.hash]? = some s'
  newest : Newest z' zs' store b
  fresh : ∀ y ∈ z :: zs, y.hash ≠ b.hash
  numbers : ∀ y ∈ z :: zs, store.numberOf y.hash = y.header.number
  snapshots : ∀ y ys t, y :: ys <:+ z :: zs → store.snapshots[y.hash]? = some t →
    History g (y :: ys) t
  valid : ∀ y ∈ z' :: zs', persist.Keeps z'.header.number y.header.number →
    ∀ x, store.getBlock y.hash = some x → x.validate = .ok ()

/-- Every canonical block of the store whose body the policy keeps passes `Block::validate`. -/
def ChainPersist.Covers (persist : ChainPersist) (store : BlockStore) : Prop :=
  ∀ head ∈ store.headBlock, ∀ m ∈ heightsBetween 0 head.header.number,
    ∀ b ∈ store.getBlockByNumber m, persist.Keeps head.header.number m → b.validate = .ok ()

instance (persist : ChainPersist) (head number : UInt64) : Decidable (persist.Keeps head number) :=
  inferInstanceAs (Decidable (_ ∨ _ ∨ _))

-- The instance for lists is named: the one for finite types would try every height.
instance (persist : ChainPersist) (store : BlockStore) : Decidable (persist.Covers store) :=
  letI (head : Block) : Decidable (∀ m ∈ heightsBetween 0 head.header.number,
      ∀ b ∈ store.getBlockByNumber m, persist.Keeps head.header.number m →
        b.validate = .ok ()) := List.decidableBAll _ _
  inferInstanceAs (Decidable (∀ head ∈ store.headBlock,
    ∀ m ∈ heightsBetween 0 head.header.number, ∀ b ∈ store.getBlockByNumber m,
      persist.Keeps head.header.number m → b.validate = .ok ()))

variable {g : Genesis} {S : Set Block} {z b : Block} {zs : List Block} {s : StateDB} {n : Node}

theorem History.forkKey_le (hh : History g (z :: zs) s) (hlen : (z :: zs).length < 2 ^ 64)
    {y : Block} (hy : y ∈ z :: zs) : forkKey y.hash y ≤ forkKey z.hash z := by
  by_cases heq : y.header.number = z.header.number
  · rw [hh.eq_of_number_eq hlen.le hy List.mem_cons_self heq]
  · exact forkKey_le_iff.mpr (.inl (UInt64.lt_of_le_of_ne (hh.number_le z zs rfl y hy) heq))

/-- The snapshots on disk after `persist_canonical`: those that were there, and some of the
history. -/
theorem InMemory.snapshots_persistCanonical {store : BlockStore} {persist : ChainPersist}
    (hm : InMemory g z zs store) (hh : History g (z :: zs) s) (hlen : (z :: zs).length < 2 ^ 64)
    {P : H256 → Prop} (hP : ∀ y ∈ z :: zs, P y.hash)
    (hold : ∀ (h : H256) snap, persist.db.snapshots[h]? = some snap → P h) (h : H256) :
    ∀ snap, (persist.persistCanonical store b).db.snapshots[h]? = some snap → P h := by
  refine (ChainWrite.observes_snapshots h).foldl_induction
    (Q := fun r => ∀ snap, r = some snap → P h) _ persist.db (fun w hw r hr _ _ => ?_)
    (.inr (hold h))
  obtain ⟨y, hy, rfl, -⟩ := hm.onSnapshots_eq_some hh hlen hw hr
  exact hP y hy

theorem InMemory.covers_iff {store : BlockStore} {persist : ChainPersist}
    (hm : InMemory g z zs store) (hh : History g (z :: zs) s) (hlen : (z :: zs).length < 2 ^ 64) :
    persist.Covers store ↔ ∀ y ∈ z :: zs, persist.Keeps z.header.number y.header.number →
      ∀ x, store.getBlock y.hash = some x → x.validate = .ok () := by
  obtain ⟨head, hhead, -, hv⟩ := hm.headBlock
  constructor
  · intro hc y hy hk x hx
    refine hc head hhead y.header.number ?_ x ?_ (by rwa [hv.header_eq])
    · rw [hv.header_eq]
      exact mem_heightsBetween.mpr ⟨UInt64.zero_le, hh.number_le z zs rfl y hy⟩
    · rw [Option.mem_def, hm.getBlockByNumber_eq hh hlen hy, hx]
  · intro hval head' hhead' m _ x hx hk
    cases hhead.symm.trans hhead'
    obtain ⟨k, hm', hget⟩ := Option.bind_eq_some_iff.mp hx
    obtain ⟨y, hy, rfl, rfl⟩ := (hm.byNumber_eq_some hh hlen).mp hm'
    rw [hv.header_eq] at hk
    exact hval y hy hk x hget

/-- The heights on disk after `persist_canonical`: those of the history, and those that were
there. -/
theorem InMemory.heights_persistCanonical {store : BlockStore} {persist : ChainPersist}
    (hm : InMemory g z zs store) (hh : History g (z :: zs) s) (hlen : (z :: zs).length < 2 ^ 64)
    (hold : ∀ m, z.header.number < m → persist.db.heights[m]? = none) (m : UInt64)
    (hlt : z.header.number < m) :
    (persist.persistCanonical store b).db.heights[m]? = none := by
  refine ((ChainWrite.observes_heights m).foldl_of_unset persist.db fun w hw => ?_).trans
    (hold m hlt)
  cases hr : w.onHeights m with
  | none => rfl
  | some r =>
    obtain ⟨y, hy, rfl, -⟩ := hm.onHeights_eq_some hh hlen hw hr
    exact absurd (hh.number_le z zs rfl y hy) (UInt64.not_le.mpr hlt)

namespace Session

section Steps

variable {pre post : StateDB} {cs' : ChainState} {outs : List ExecutionOutcome}
  {ctx : ExecutionContext} {outcome : InsertOutcome} {store' : BlockStore} {z' : Block}
  {zs' : List Block}

theorem succession (hs : Session g S z zs s n) (hlen : (z :: zs).length + 1 < 2 ^ 64)
    (ha : Accepted n.chain b pre outs post ctx outcome store' cs')
    (hc : n.persist.Covers cs'.store) :
    ∃ z' zs' s', Succession g n.persist z zs b z' zs' s' cs'.store := by
  have hfresh : ∀ y ∈ z :: zs, y.hash ≠ b.hash := fun y hy => hs.memory.hash_ne ha hy
  obtain ⟨z', zs', s', hadv, hh', hm', hsnap', hnew⟩ :=
    hs.memory.accepted hs.history hs.snapshot hs.only ha
  have hlen' := lt_of_le_of_lt hadv.length_le hlen
  refine ⟨z', zs', s', hadv, hh', hlen', hm', hsnap', hnew, hfresh, fun y hy => ?_,
    fun y ys t hsuf ht => ?_, (hm'.covers_iff hh' hlen').mp hc⟩
  · rw [← hs.memory.numberOf_eq hy, numberOf, numberOf, ha.getBlock, if_neg (hfresh y hy)]
  · rw [ha.snapshots, Table.get_insert_of_ne _ _ (hfresh y (hsuf.subset List.mem_cons_self))] at ht
    exact hs.memory.snapshots y ys t hsuf ht

theorem getBlock_of_whole (hw : Whole z zs n) (hadv : Advances z zs b z' zs')
    (ha : Accepted n.chain b pre outs post ctx outcome store' cs')
    (hfresh : ∀ y ∈ z :: zs, y.hash ≠ b.hash) {y : Block} (hy : y ∈ z' :: zs')
    (hk : n.persist.Keeps z'.header.number y.header.number) :
    cs'.store.getBlock y.hash = some y := by
  rw [ha.getBlock]
  split
  · next heq =>
    rcases hadv.mem hy with rfl | hy
    · rfl
    · exact absurd heq (hfresh y hy)
  · next hne =>
    rcases hadv.mem hy with rfl | hy
    · exact absurd rfl hne
    · exact (hw y hy (hk.of_le hadv.number_le)).1

theorem covers_of_whole (hs : Session g S z zs s n) (hlen : (z :: zs).length + 1 < 2 ^ 64)
    (hw : Whole z zs n) (ha : Accepted n.chain b pre outs post ctx outcome store' cs') :
    n.persist.Covers cs'.store := by
  obtain ⟨z', zs', s', hadv, hh', hm', -⟩ := hs.memory.accepted hs.history hs.snapshot hs.only ha
  refine (hm'.covers_iff hh' (lt_of_le_of_lt hadv.length_le hlen)).mpr fun y hy hk x hx => ?_
  have hget := getBlock_of_whole hw hadv ha (fun y hy => hs.memory.hash_ne ha hy) hy hk
  cases hget.symm.trans hx
  exact hh'.valid _ hy

theorem disk_snapshots (hs : Session g S z zs s n) (hadv : Advances z zs b z' zs') :
    ∀ y ys snap, y :: ys <:+ zs' → n.persist.db.snapshots[y.hash]? = some snap →
      History g (y :: ys) (StateDB.fromSnapshot snap) := by
  intro y ys snap hsuf
  refine hs.disk.snapshots y ys snap ?_
  cases hadv with
  | stay => exact hsuf.trans (List.suffix_cons z zs)
  | move hsuf' _ => exact hsuf.trans hsuf'

theorem known_advances (hs : Session g S z zs s n) (hb : b ∈ S) (hadv : Advances z zs b z' zs') :
    ∀ y ∈ z' :: zs', y ∈ family g S := by
  intro y hy
  rcases hadv.mem hy with rfl | hy
  · exact .inr hb
  · exact hs.known y hy

/-- **An accepted import, written to disk and followed by the pruning, keeps the session going.** -/
theorem importBlock (hs : Session g S z zs s n) (hlen : (z :: zs).length + 1 < 2 ^ 64)
    (hg : g.state.RootsCurrent) (hstub : g.block.stub = g.block) (hb : b ∈ S)
    (ha : Accepted n.chain b pre outs post ctx outcome store' cs')
    (hc : n.persist.Covers cs'.store) :
    ∃ z' zs' s', Advances z zs b z' zs' ∧ Session g S z' zs' s' ({ n with chain := cs' }.settle b)
      ∧ (Whole z zs n → Whole z' zs' ({ n with chain := cs' }.settle b)) := by
  obtain ⟨z', zs', s', hadv, hh', hlen', hm', hsnap', hnew, hfresh, -, -, hval⟩ :=
    hs.succession hlen ha hc
  have hknown := hs.known_advances hb hadv
  obtain ⟨hdisk, htop, hsaved, hkept⟩ := hm'.persistCanonical hh' hlen' hg hs.keep hnew hsnap' hval
    (hs.disk_snapshots hadv)
  have hold : ∀ (h : H256) snap, n.persist.db.snapshots[h]? = some snap →
      ∃ y ∈ family g S, y.hash = h ∧ forkKey y.hash y ≤ forkKey z'.hash z' := by
    intro h snap hsnap
    obtain ⟨y, hy, hhash, hle⟩ := hs.outdone h snap hsnap
    exact ⟨y, hy, hhash, hle.trans hadv.forkKey_le⟩
  -- trie nodes are written to a table of their own
  obtain ⟨t, ht⟩ := persistTrieNodes_eq (n.persist.persistCanonical cs'.store b)
    cs'.live.trieNodes.1
  have hpolicy := Node.samePolicy_settle { n with chain := cs' } b
  have hdb : ({ n with chain := cs' }.settle b).persist.db
      = { (n.persist.persistCanonical cs'.store b).db with trieNodes := t } := ht
  have hkeep : 0 < ({ n with chain := cs' }.settle b).persist.archiveKeep := by
    rw [hpolicy.archiveKeep]
    exact hs.keep
  refine ⟨z', zs', s', hadv, ⟨hh', hknown, hkeep, hm'.pruneStore _, ?_,
    hm'.onlyCanonical_pruneStore hh' _, ?_, ?_, ?_, ?_, ?_⟩, fun hw y hy hk => ?_⟩
  · exact ((Node.pruned_pruneStore hm'.inv _).head _ hm'.head).trans hsnap'
  · rw [hdb]
    exact { hdisk with }
  · rw [hdb]
    exact htop
  · rw [ChainPersist.getSnapshot, hdb]
    exact hsaved
  · rw [hdb]
    exact hm'.snapshots_persistCanonical hh' hlen'
      (fun y hy => ⟨y, hknown y hy, rfl, hh'.forkKey_le hlen' hy⟩) hold
  · rw [hdb]
    exact hm'.heights_persistCanonical hh' hlen' fun m hlt =>
      hs.above m (UInt64.lt_of_le_of_lt hadv.number_le hlt)
  · have hkeeps := (hpolicy.keeps_iff _ _).mp hk
    have hget := getBlock_of_whole hw hadv ha hfresh hy hkeeps
    refine ⟨hm'.getBlock_pruneStore hh' hstub hy hk hget, ?_⟩
    rw [hdb]
    exact hkept y hy y hget hkeeps

/-- **A session can be followed by another one**, with a policy of its own. -/
theorem reopen (hs : Session g S z zs s n) (hlen : (z :: zs).length < 2 ^ 64) (archive : Bool)
    (archiveKeep : UInt64) :
    ∃ n', Node.runNode g (ChainPersist.openWith n.persist.db archive archiveKeep) = .ok n'
      ∧ n'.persist = ChainPersist.openWith n.persist.db archive archiveKeep
      ∧ Session g S z zs s n'
      ∧ ∀ y ∈ z :: zs, n'.chain.store.getBlock y.hash = some (n.persist.db.version y) := by
  have hdisk : OnDisk g z zs (ChainPersist.openWith n.persist.db archive archiveKeep).db := hs.disk
  have hsaved : (ChainPersist.openWith n.persist.db archive archiveKeep).getSnapshot z.hash
      = some s := hs.saved
  obtain ⟨snap, hsnap, -⟩ := Option.map_eq_some_iff.mp hsaved
  obtain ⟨store, hrun, hr⟩ := hdisk.runNode hs.history hlen hsnap
  exact ⟨_, hrun, rfl, ⟨hs.history, hs.known, ChainPersist.archiveKeep_openWith _ _ _,
    hr.toInMemory, (hr.snapshot z List.mem_cons_self).trans hsaved, hr.only, hdisk, hs.top, hsaved,
    hs.outdone, hs.above⟩, hr.version⟩

end Steps

end Session

/-! ### The first session -/

theorem Genesis.inMemory (g : Genesis) : InMemory g g.block [] g.store := by
  have hself : ∀ y ∈ [g.block], y = g.block := fun y hy => List.mem_singleton.mp hy
  refine ⟨g.storeInv, ?_, g.head, fun y hy => ?_, fun y ys s hsuf hs => ?_⟩
  · obtain ⟨outcome, store', heq, -, hn⟩ := g.inserted
    rw [Genesis.store, heq]
    exact hn.consensus
  · rw [hself y hy]
    exact ⟨_, g.getBlock_block, .inl rfl⟩
  · rcases List.suffix_cons_iff.mp hsuf with heq | hsuf
    · cases heq
      rw [g.snapshots, if_pos rfl] at hs
      cases hs
      exact .genesis
    · cases List.suffix_nil.mp hsuf

/-- **A node that starts on an empty database begins a session**, and is whole. -/
theorem Session.fresh (g : Genesis) (S : Set Block) (hg : g.state.RootsCurrent) (archive : Bool)
    (archiveKeep : UInt64) :
    Session g S g.block [] g.state (Node.fresh g archive archiveKeep)
      ∧ Whole g.block [] (Node.fresh g archive archiveKeep) := by
  have hkeep := ChainPersist.archiveKeep_openWith ChainDb.empty archive archiveKeep
  have hself : ∀ y ∈ [g.block], y = g.block := fun y hy => List.mem_singleton.mp hy
  have hlen : [g.block].length < 2 ^ 64 := by norm_num
  have hget := g.getBlock_block
  have hsnap : g.store.snapshots[g.block.hash]? = some g.state := by rw [g.snapshots, if_pos rfl]
  have hknown : ∀ y ∈ [g.block], y ∈ family g S := fun y hy => .inl (hself y hy)
  have hempty : ∀ (h : H256) snap, (ChainPersist.openWith ChainDb.empty archive
      archiveKeep).db.snapshots[h]? ≠ some snap := by
    intro h snap hs
    rw [ChainPersist.openWith, ChainDb.empty, Std.ExtTreeMap.getElem?_empty] at hs
    cases hs
  have hnew : Newest g.block [] g.store g.block := fun y hy _ => ⟨hself y hy, hget⟩
  obtain ⟨hdisk, htop, hsaved, hkept⟩ :=
    g.inMemory.persistCanonical .genesis hlen hg hkeep hnew hsnap
    (fun y hy _ x hx => by
      rw [hself y hy, hget] at hx
      cases hx
      exact g.valid)
    (fun y ys snap hsuf => by cases List.suffix_nil.mp hsuf)
  refine ⟨⟨.genesis, hknown, hkeep, g.inMemory, hsnap, fun h s hs => ?_, hdisk, htop, hsaved,
    ?_, ?_⟩, fun y hy hk => ?_⟩
  · change g.store.snapshots[h]? = some s at hs
    rw [g.snapshots] at hs
    split at hs
    · next heq => exact List.mem_singleton.mpr heq
    · cases hs
  · exact g.inMemory.snapshots_persistCanonical .genesis hlen
      (fun y hy => ⟨y, hknown y hy, rfl, History.genesis.forkKey_le hlen hy⟩)
      fun h snap hs => absurd hs (hempty h snap)
  · exact g.inMemory.heights_persistCanonical .genesis hlen fun m _ => Std.ExtTreeMap.getElem?_empty
  · cases hself y hy
    exact ⟨hget, hkept g.block hy g.block hget hk⟩

end Session

theorem rootsCurrent_allocState [Keccak] (alloc : List (Address × U256)) :
    (allocState alloc).RootsCurrent :=
  List.foldlRecOn alloc _ (motive := StateDB.RootsCurrent) StateDB.rootsCurrent_new
    fun _ hs _ _ => hs.setAccount _ _

namespace AllocGenesis

variable [Keccak] [Ed25519] (g : AllocGenesis)

theorem rootsCurrent : g.state.RootsCurrent := by
  rw [g.state_eq]
  exact rootsCurrent_allocState g.alloc

theorem stub_block : g.block.stub = g.block := by
  obtain ⟨-, hcount, -⟩ := Block.validate_eq_ok.mp g.valid
  rw [g.transactions_eq, Vec.toList_empty, List.length_nil] at hcount
  have hreceipts : g.block.receipts = Vec.empty :=
    Vec.ext (List.length_eq_zero_iff.mp hcount.symm)
  rw [Block.stub, ← hreceipts, ← g.transactions_eq]

end AllocGenesis

/-! ### Runs -/

/-- What happens on a data directory: a block is imported, or a session ends and another opens. -/
inductive SessionOp
  | importBlock (b : Block)
  | reopen (archive : Bool) (archiveKeep : UInt64)

namespace SessionOp

variable [Keccak] [Ed25519] [Wasmi]

/-- The node after one step; there is none if it does not start. -/
def step (g : Genesis) (n : Node) : SessionOp → Option Node
  | importBlock b =>
    match n.chain.importAndApply b with
    | (.ok _, chain) => some ({ n with chain := chain }.settle b)
    | (.error _, chain) => some { n with chain := chain }
  | reopen archive archiveKeep =>
    (Node.runNode g (ChainPersist.openWith n.persist.db archive archiveKeep)).toOption

/-- The node after the steps, from the first session on an empty database. -/
def run (g : Genesis) (archive : Bool) (archiveKeep : UInt64) (ops : List SessionOp) :
    Option Node := ops.foldlM (step g) (Node.fresh g archive archiveKeep)

/-- After every accepted import, what the policy keeps below the new head is there. -/
def CoveredRun (g : Genesis) (archive : Bool) (archiveKeep : UInt64) (ops : List SessionOp) :
    Prop :=
  ∀ before b after, ops = before ++ importBlock b :: after →
    ∀ n outcome chain, run g archive archiveKeep before = some n →
      n.chain.importAndApply b = (.ok outcome, chain) → n.persist.Covers chain.store

variable {g : Genesis} {archive : Bool} {archiveKeep : UInt64} {S : Set Block}

theorem run_concat {ops : List SessionOp} {n : Node} (hn : run g archive archiveKeep ops = some n)
    (op : SessionOp) : run g archive archiveKeep (ops ++ [op]) = op.step g n := by
  rw [run] at hn
  rw [run, List.foldlM_append, hn]
  simp

/-- **One step of a session.** -/
theorem step_session {z : Block} {zs : List Block} {s : StateDB} {n : Node}
    (hs : Session g S z zs s n) (hlen : (z :: zs).length + 1 < 2 ^ 64) (hg : g.state.RootsCurrent)
    (hstub : g.block.stub = g.block) (op : SessionOp)
    (hop : ∀ b, op = importBlock b → b ∈ S ∧ ∀ outcome chain,
      n.chain.importAndApply b = (.ok outcome, chain) → n.persist.Covers chain.store) :
    ∃ n' z' zs' s', op.step g n = some n' ∧ Session g S z' zs' s' n'
      ∧ (z' :: zs').length ≤ (z :: zs).length + 1
      ∧ ∀ archive archiveKeep, Whole z zs n →
        n.persist = ChainPersist.openWith n.persist.db archive archiveKeep →
        (∀ a k, op = reopen a k → a = archive ∧ k = archiveKeep) →
        Whole z' zs' n'
          ∧ n'.persist = ChainPersist.openWith n'.persist.db archive archiveKeep := by
  cases op with
  | importBlock b =>
    obtain ⟨hb, hc⟩ := hop b rfl
    rcases ChainState.importAndApply_cases hs.memory.inv b with
      ⟨e, he⟩ | ⟨pre, outs, post, ctx, outcome, store', cs', heq, ha⟩
    · refine ⟨n, z, zs, s, ?_, hs, Nat.le_succ _, fun _ _ hw hp _ => ⟨hw, hp⟩⟩
      rw [step, he]
    · obtain ⟨z', zs', s', hadv, hs', hw'⟩ := hs.importBlock hlen hg hstub hb ha
        (hc outcome cs' heq)
      refine ⟨_, z', zs', s', ?_, hs', hadv.length_le, fun _ _ hw hp _ => ⟨hw' hw, ?_⟩⟩
      · rw [step, heq]
      · show (⟨_, n.persist.archive, n.persist.archiveKeep⟩ : ChainPersist) = _
        rw [hp]
        rfl
  | reopen a k =>
    obtain ⟨n', hrun, hpersist, hs', hver⟩ := hs.reopen (by omega) a k
    refine ⟨n', z, zs, s, ?_, hs', Nat.le_succ _, fun _ _ hw hp hpol => ?_⟩
    · rw [step, hrun]
      rfl
    · obtain ⟨rfl, rfl⟩ := hpol a k rfl
      have heq : n'.persist = n.persist := hpersist.trans hp.symm
      refine ⟨fun y hy hk => ?_, by rw [heq]; exact hp⟩
      rw [heq] at hk ⊢
      obtain ⟨-, hblock⟩ := hw y hy hk
      exact ⟨by rw [hver y hy, ChainDb.version_eq hblock], hblock⟩

/-- All sessions have the policy of the first. -/
def FixedPolicy (archive : Bool) (archiveKeep : UInt64) (ops : List SessionOp) : Prop :=
  ∀ a k, reopen a k ∈ ops → a = archive ∧ k = archiveKeep

/-- **The state of a run in which all accepted imports are covered, or of a run under one policy.**
In the second case the node is whole at all times. -/
theorem session_run (hg : g.state.RootsCurrent) (hstub : g.block.stub = g.block)
    (ops : List SessionOp) (hS : ∀ b, importBlock b ∈ ops → b ∈ S) (hlen : ops.length + 1 < 2 ^ 64)
    (hc : CoveredRun g archive archiveKeep ops ∨ FixedPolicy archive archiveKeep ops) :
    ∃ n z zs s, run g archive archiveKeep ops = some n ∧ Session g S z zs s n
      ∧ (z :: zs).length ≤ ops.length + 1
      ∧ (FixedPolicy archive archiveKeep ops → Whole z zs n
        ∧ n.persist = ChainPersist.openWith n.persist.db archive archiveKeep) := by
  induction ops using List.reverseRecOn with
  | nil =>
    obtain ⟨hs, hw⟩ := Session.fresh g S hg archive archiveKeep
    exact ⟨_, _, _, _, rfl, hs, le_rfl, fun _ => ⟨hw, rfl⟩⟩
  | append_singleton ops op ih =>
    have hinit : FixedPolicy archive archiveKeep (ops ++ [op]) →
        FixedPolicy archive archiveKeep ops :=
      fun hpol a k hmem => hpol a k (List.mem_append_left _ hmem)
    rw [List.length_append, List.length_singleton] at hlen ⊢
    obtain ⟨n, z, zs, s, hrun, hs, hle, hw⟩ := ih (fun b hb => hS b (List.mem_append_left _ hb))
      (by omega) (hc.imp (fun hc before b after heq => hc before b (after ++ [op]) (by simp [heq]))
        hinit)
    have hcov : ∀ b, op = importBlock b → ∀ outcome chain,
        n.chain.importAndApply b = (.ok outcome, chain) → n.persist.Covers chain.store := by
      rintro b rfl outcome chain himport
      rcases hc with hc | hpol
      · exact hc ops b [] rfl n outcome chain hrun himport
      · rcases ChainState.importAndApply_cases hs.memory.inv b with
          ⟨e, he⟩ | ⟨pre, outs, post, ctx, outcome', store', cs', heq, ha⟩
        · cases he.symm.trans himport
        · cases heq.symm.trans himport
          exact hs.covers_of_whole (by omega) (hw (hinit hpol)).1 ha
    obtain ⟨n', z', zs', s', hstep, hs', hle', hw'⟩ := step_session hs (by omega) hg hstub op
      fun b hb => ⟨hS b (by simp [hb]), hcov b hb⟩
    refine ⟨n', z', zs', s', (run_concat hrun op).trans hstep, hs', by omega, fun hpol => ?_⟩
    obtain ⟨hwhole, hp⟩ := hw (hinit hpol)
    exact hw' archive archiveKeep hwhole hp fun a k ha => hpol a k (by simp [ha])

theorem FixedPolicy.coveredRun (hg : g.state.RootsCurrent) (hstub : g.block.stub = g.block)
    {ops : List SessionOp} (hlen : ops.length + 1 < 2 ^ 64)
    (hpol : FixedPolicy archive archiveKeep ops) : CoveredRun g archive archiveKeep ops := by
  intro before b after heq n outcome chain hn himport
  have hpol' : FixedPolicy archive archiveKeep before := fun a k hmem =>
    hpol a k (by simp [heq, hmem])
  rw [heq, List.length_append, List.length_cons] at hlen
  obtain ⟨n', z, zs, s, hrun, hs, hle, hw⟩ :=
    session_run hg hstub before (fun _ _ => Set.mem_univ _) (by omega) (.inr hpol')
  cases hn.symm.trans hrun
  rcases ChainState.importAndApply_cases hs.memory.inv b with
    ⟨e, he⟩ | ⟨pre, outs, post, ctx, outcome', store', cs', hok, ha⟩
  · cases he.symm.trans himport
  · cases hok.symm.trans himport
    exact hs.covers_of_whole (by omega) (hw hpol').1 ha

/-- **A database that the node wrote is loaded again**, in every session and after the last, if all
accepted imports were covered. -/
theorem reopens (g : AllocGenesis) (archive : Bool) (archiveKeep : UInt64) (ops : List SessionOp)
    (hlen : ops.length + 1 < 2 ^ 64) (hc : CoveredRun g.toGenesis archive archiveKeep ops) :
    ∃ n, run g.toGenesis archive archiveKeep ops = some n ∧ ∀ a k, ∃ height store,
      (ChainPersist.openWith n.persist.db a k).loadInto (BlockStore.new g.consensus) g.block
        = .ok (some height, store) := by
  obtain ⟨n, z, zs, s, hrun, hs, hle, -⟩ := session_run g.rootsCurrent g.stub_block ops
    (fun _ _ => Set.mem_univ _) hlen (.inl hc)
  refine ⟨n, hrun, fun a k => ?_⟩
  have hdisk : OnDisk g.toGenesis z zs (ChainPersist.openWith n.persist.db a k).db := hs.disk
  obtain ⟨store, hload, -⟩ := hdisk.loadInto hs.history (by omega)
  exact ⟨_, store, hload⟩

/-- **Under one policy, what is loaded is what was in memory**: the head, the canonical hash at
every height, every body that the policy keeps, as it was imported, and the state after the head.
In archive mode the loaded bodies, executed from the alloc, lead to the same state. -/
theorem restores (g : AllocGenesis) (archive : Bool) (archiveKeep : UInt64) (ops : List SessionOp)
    (hlen : ops.length + 1 < 2 ^ 64) (hpol : FixedPolicy archive archiveKeep ops) :
    ∃ n head state store, run g.toGenesis archive archiveKeep ops = some n
      ∧ n.chain.store.headBlock = some head ∧ n.chain.store.stateAt head.hash = some state
      ∧ n.persist.loadInto (BlockStore.new g.consensus) g.block
        = .ok (some head.header.number, store)
      ∧ store.head = n.chain.store.head
      ∧ (∀ m : UInt64, store.byNumber[m]? = n.chain.store.byNumber[m]?)
      ∧ (∀ m ≤ head.header.number,
        archive = true ∨ m = 0 ∨ head.header.number - m < max archiveKeep 1 →
        ∃ b, store.getBlockByNumber m = some b ∧ n.chain.store.getBlockByNumber m = some b
          ∧ (b = g.block ∨ importBlock b ∈ ops))
      ∧ store.stateAt head.hash = some state
      ∧ (archive = true → executeBlocks g.state
        ((heightsBetween 1 head.header.number).filterMap store.getBlockByNumber) = .ok state) := by
  obtain ⟨n, z, zs, s, hrun, hs, hle, hw⟩ := session_run (S := { b | importBlock b ∈ ops })
    g.rootsCurrent g.stub_block ops (fun b hb => hb) hlen (.inr hpol)
  obtain ⟨hwhole, hpersist⟩ := hw hpol
  have hlen' : (z :: zs).length < 2 ^ 64 := by omega
  obtain ⟨store, hload, hr⟩ := hs.disk.loadInto hs.history hlen'
  have hkeeps : ∀ m ≤ z.header.number,
      archive = true ∨ m = 0 ∨ z.header.number - m < max archiveKeep 1 →
      n.persist.Keeps z.header.number m := by
    intro m hm hk
    rw [hpersist]
    refine hk.imp_right (Or.imp_right fun hk => ?_)
    rw [UInt64.lt_iff_toNat_lt, UInt64.toNat_sub_of_le _ _ hm] at hk
    rw [UInt64.lt_iff_toNat_lt, UInt64.toNat_saturatingSub]
    exact hk
  -- a body that is kept is the same on both sides
  have hfull : ∀ y ∈ z :: zs, n.persist.Keeps z.header.number y.header.number →
      store.getBlock y.hash = some y ∧ n.chain.store.getBlock y.hash = some y := by
    intro y hy hk
    obtain ⟨hget, hblock⟩ := hwhole y hy hk
    exact ⟨by rw [hr.version y hy, ChainDb.version_eq hblock], hget⟩
  obtain ⟨hz, hz'⟩ := hfull z List.mem_cons_self (ChainPersist.keeps_self hs.keep _)
  refine ⟨n, z, s, store, hrun, ?_, ?_, hload, hr.head.trans hs.memory.head.symm, fun m => ?_,
    fun m hm hk => ?_, ?_, fun harch => ?_⟩
  · rw [headBlock, hs.memory.head, Option.bind_some, hz']
  · rw [stateAt, hs.snapshot, Option.map_some, StateDB.fork_eq]
  · refine Option.ext fun k => ?_
    rw [hr.byNumber_eq_some hs.history hlen', hs.memory.byNumber_eq_some hs.history hlen']
  · obtain ⟨y, hy, rfl⟩ := hs.history.exists_number_eq hlen'.le hm
    obtain ⟨hy₁, hy₂⟩ := hfull y hy (hkeeps _ hm hk)
    rw [hr.getBlockByNumber_eq hs.history hlen' hy,
      hs.memory.getBlockByNumber_eq hs.history hlen' hy]
    exact ⟨y, hy₁, hy₂, hs.known y hy⟩
  · rw [stateAt, hr.snapshot z List.mem_cons_self, hs.saved, Option.map_some, StateDB.fork_eq]
  · have hall : ∀ y ∈ z :: zs, store.getBlock y.hash = some y := fun y hy =>
      (hfull y hy (.inl (by rw [hpersist]; exact harch))).1
    rw [hr.filterMap_getBlockByNumber hs.history hlen' hall]
    exact hs.history.executeBlocks g.rootsCurrent

end SessionOp

namespace Devnet

/-! ### A wider window -/

/-- An empty block on the child of the block with the transfer. -/
@[irreducible] def grandchildA : Block :=
  next (stateAfter (stateAfter state blockA) childA) childA 3 []

/-- What `load_into` says about the database of a node. -/
def loadError (n : Node) : Option LoadError :=
  match n.persist.loadInto (BlockStore.new consensus) genesisBlock with
  | .error e => some e
  | .ok _ => none

/-- **A session that keeps more than the one before it makes the database unreadable.**  The first
session keeps one body and drops the one with the transfer; the second archives, and writes the
block without its body as if it were whole. -/
theorem widened_window :
    ∃ n, SessionOp.run genesis false 1
        [.importBlock blockA, .importBlock childA, .reopen true 256, .importBlock grandchildA]
      = some n ∧ loadError n = some (.reloadBlock 1 (.block .invalidTransactionsRoot))
      ∧ n.chain.store.head = some grandchildA.hash := by
  have hrun : ((SessionOp.run genesis false 1 [.importBlock blockA, .importBlock childA,
      .reopen true 256, .importBlock grandchildA]).map fun n => (loadError n, n.chain.store.head))
      = some (some (.reloadBlock 1 (.block .invalidTransactionsRoot)), some grandchildA.hash) := by
    decide +kernel
  obtain ⟨n, hn, heq⟩ := Option.map_eq_some_iff.mp hrun
  exact ⟨n, hn, Prod.mk.inj heq⟩

/-- An archive session, and one that keeps a single body. -/
def narrowing : List SessionOp :=
  [.importBlock blockA, .reopen false 1, .importBlock childA, .reopen true 256]

theorem coveredRun_narrowing : SessionOp.CoveredRun genesis true 256 narrowing := by
  have hall : ∀ i ∈ List.range narrowing.length, ∀ b ∈ [blockA, childA],
      ((SessionOp.run genesis true 256 (narrowing.take i)).all fun n =>
        decide (n.persist.Covers (n.chain.importAndApply b).2.store)) = true := by
    decide +kernel
  intro before b after heq n outcome chain hn himport
  have hmem : before.length ∈ List.range narrowing.length := by
    rw [heq, List.mem_range, List.length_append, List.length_cons]
    omega
  have hb : SessionOp.importBlock b ∈ narrowing := by simp [heq]
  simp only [narrowing, List.mem_cons, SessionOp.importBlock.injEq, reduceCtorEq, false_or,
    List.not_mem_nil, or_false] at hb
  have hcov := hall _ hmem b (by simpa using hb)
  rw [heq, List.take_left, hn, Option.all_some, himport] at hcov
  exact of_decide_eq_true hcov

theorem reopens_narrowing : ∃ n, SessionOp.run genesis true 256 narrowing = some n
    ∧ ∀ a k, ∃ height store, (ChainPersist.openWith n.persist.db a k).loadInto
      (BlockStore.new genesis.consensus) genesis.block = .ok (some height, store) :=
  SessionOp.reopens allocGenesis true 256 narrowing (by decide) coveredRun_narrowing

/-- A fork, a restart and an extension under one policy. -/
def oneBody : List SessionOp :=
  [.importBlock blockB, .importBlock blockA, .reopen false 1, .importBlock childA]

theorem restores_oneBody : SessionOp.FixedPolicy false 1 oneBody ∧ ∃ n store,
    SessionOp.run genesis false 1 oneBody = some n
    ∧ (∃ height, n.persist.loadInto (BlockStore.new genesis.consensus) genesis.block
      = .ok (some height, store))
    ∧ store.head = n.chain.store.head := by
  have hpol : SessionOp.FixedPolicy false 1 oneBody := by
    intro a k hmem
    simp only [oneBody, List.mem_cons, SessionOp.reopen.injEq, List.not_mem_nil, or_false,
      reduceCtorEq, false_or] at hmem
    exact hmem
  obtain ⟨n, head, state, store, hrun, -, -, hload, hhead, -⟩ :=
    SessionOp.restores allocGenesis false 1 oneBody (by decide) hpol
  exact ⟨hpol, n, store, hrun, ⟨_, hload⟩, hhead⟩

end Devnet

end Ivory
