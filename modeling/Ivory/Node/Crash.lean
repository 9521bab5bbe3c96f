import Ivory.Node.Sessions

/-!
# A crash while the chain is written

`persist_canonical` puts and deletes one key after the other: the block, the
head, then for every height the block or its header and the hash at the height,
then the snapshots.  A crash leaves a first part of these writes.

* `Succession.onDisk_old`: the old history survives as long as the new head is not in the height
  index.
* `InMemory.onDisk_crashed`: the new one is there once it is.
* `OnDisk.startsAt_of_full`: without the snapshot of the head, a node starts by replay, which needs
  all transactions.
* `OnDisk.root_ne_of_lost`: **a replay without a transaction ends in another state.**
* `PersistCall`: a database and the `persist_canonical` that is cut short.
* `PersistCall.recovers_iff`: **a node recovers exactly from the safe cuts**: it starts again, with
  the old or the new head and a state with the root that its header names.
-/

namespace Ivory

open BlockStore

section

variable [Keccak] [Ed25519] [Wasmi] {g : Genesis} {z : Block} {zs : List Block} {s : StateDB}
  {persist : ChainPersist}

/-! ### Starting on what is there -/

/-- A node starts with `z` as its head and with the state `s`. -/
def StartsAt (g : Genesis) (persist : ChainPersist) (z : Block) (s : StateDB) : Prop :=
  ∃ n, Node.runNode g persist = .ok n ∧ n.chain.live = s ∧ n.chain.store.head = some z.hash
    ∧ ∃ x, n.chain.store.headBlock = some x ∧ x.header = z.header

theorem OnDisk.startsAt_of_snapshot (hd : OnDisk g z zs persist.db) (hh : History g (z :: zs) s)
    (hlen : (z :: zs).length < 2 ^ 64) {snap : StateSnapshot}
    (hsnap : persist.db.snapshots[z.hash]? = some snap) : StartsAt g persist z s := by
  obtain ⟨store, hrun, hr⟩ := hd.runNode hh hlen hsnap
  obtain ⟨x, hx, -, hv⟩ := hr.headBlock
  exact ⟨_, hrun, rfl, hr.head, x, hx, hv.header_eq⟩

omit [Ed25519] in
theorem replayHeight_eq {store : BlockStore} {n : UInt64} {b : Block}
    (hb : store.getBlockByNumber n = some b) (s₀ : StateDB) : Node.replayHeight (store, s₀) n
      = match executeBlock s₀ b with
        | .error e => .error (.replayTx n e)
        | .ok (_, post, _) => .ok (store.recordState b.hash post, post) := by
  cases he : executeBlock s₀ b <;> simp only [Node.replayHeight, hb, he]

omit [Ed25519] in
/-- The replay of some heights executes the blocks there, and fails exactly if one of them does. -/
theorem foldlM_replayHeight : ∀ (ns : List UInt64) (bs : List Block) (store : BlockStore)
    (s₀ : StateDB), ns.map store.getBlockByNumber = bs.map some →
      match executeBlocks s₀ bs with
      | .ok s => ∃ t, ns.foldlM Node.replayHeight (store, s₀)
          = .ok ({ store with snapshots := t }, s)
      | .error _ => ∃ e, ns.foldlM Node.replayHeight (store, s₀) = .error e := by
  intro ns
  induction ns with
  | nil =>
    intro bs store s₀ hbs
    cases List.map_eq_nil_iff.mp hbs.symm
    exact ⟨store.snapshots, rfl⟩
  | cons n ns ih =>
    intro bs store s₀ hbs
    cases bs with
    | nil => cases hbs
    | cons b bs =>
      obtain ⟨hb, hbs⟩ := List.cons.inj hbs
      rw [executeBlocks, List.foldlM_cons, replayHeight_eq hb]
      cases executeBlock s₀ b with
      | error e => exact ⟨_, rfl⟩
      | ok r => exact ih bs (store.recordState b.hash r.2.1) r.2.1 hbs

omit [Ed25519] in
theorem executeBlocks_of_foldlM {ns : List UInt64} {bs : List Block} (store : BlockStore)
    {s₀ : StateDB} {r : BlockStore × StateDB} (hbs : ns.map store.getBlockByNumber = bs.map some)
    (hfold : ns.foldlM Node.replayHeight (store, s₀) = .ok r) :
    executeBlocks s₀ bs = .ok r.2 ∧ ∃ t, r.1 = { store with snapshots := t } := by
  have hloop := foldlM_replayHeight ns bs store s₀ hbs
  cases hexec : executeBlocks s₀ bs with
  | error e =>
    rw [hexec] at hloop
    obtain ⟨e', he⟩ := hloop
    cases hfold.symm.trans he
  | ok s =>
    rw [hexec] at hloop
    obtain ⟨t, ht⟩ := hloop
    cases hfold.symm.trans ht
    exact ⟨rfl, t, rfl⟩

/-- **Without the snapshot of the head a node starts by replay**, if every block is loaded as it
was. -/
theorem OnDisk.startsAt_of_full (hd : OnDisk g z zs persist.db) (hh : History g (z :: zs) s)
    (hlen : (z :: zs).length < 2 ^ 64) (hg : g.state.RootsCurrent)
    (hfull : ∀ y ∈ z :: zs, persist.db.version y = y)
    (hnone : persist.db.snapshots[z.hash]? = none) : StartsAt g persist z s := by
  obtain ⟨store, hload, hr⟩ := hd.loadInto hh hlen
  obtain ⟨x, hx, -, hv⟩ := hr.headBlock
  have hstate : store.snapshots[z.hash]? = none := by
    rw [hr.snapshot z List.mem_cons_self, ChainPersist.getSnapshot, hnone, Option.map_none]
  have hblocks : ∀ y ∈ z :: zs, store.getBlock y.hash = some (id y) := by
    intro y hy
    rw [hr.version y hy, hfull y hy, id]
  have hmap := hr.map_getBlockByNumber hh hlen hblocks
  rw [List.map_id] at hmap
  have hloop := foldlM_replayHeight (heightsBetween 1 z.header.number) _
    (store.recordState g.block.hash g.state) g.state hmap
  rw [hh.executeBlocks hg] at hloop
  obtain ⟨t, hfold⟩ := hloop
  refine ⟨⟨⟨{ store.recordState g.block.hash g.state with snapshots := t }, s, TransactionPool.new⟩,
    ∅, persist⟩, ?_, rfl, hr.head, x, hx, hv.header_eq⟩
  unfold Node.runNode
  simp only [hload, hr.head, Option.bind_some, stateAt, hstate, Option.map_none, hfold]

/-- A node that starts without the snapshot of the head has executed the blocks it loaded. -/
theorem OnDisk.replayed (hd : OnDisk g z zs persist.db) (hh : History g (z :: zs) s)
    (hlen : (z :: zs).length < 2 ^ 64) (hnone : persist.db.snapshots[z.hash]? = none) {n : Node}
    (hrun : Node.runNode g persist = .ok n) :
    executeBlocks g.state ((z :: zs).reverse.tail.map persist.db.version) = .ok n.chain.live
      ∧ ∃ x, n.chain.store.headBlock = some x ∧ x.header = z.header := by
  obtain ⟨store, hload, hr⟩ := hd.loadInto hh hlen
  obtain ⟨x, hx, -, hv⟩ := hr.headBlock
  have hstate : store.snapshots[z.hash]? = none := by
    rw [hr.snapshot z List.mem_cons_self, ChainPersist.getSnapshot, hnone, Option.map_none]
  unfold Node.runNode at hrun
  simp only [hload, hr.head, Option.bind_some, stateAt, hstate, Option.map_none] at hrun
  split at hrun
  · cases hrun
  · next store' state hfold =>
    cases hrun
    obtain ⟨hexec, t, ht⟩ := executeBlocks_of_foldlM (store.recordState g.block.hash g.state)
      (hr.map_getBlockByNumber hh hlen hr.version) hfold
    cases ht
    exact ⟨hexec, x, hx, hv.header_eq⟩

/-! ### Lost transactions -/

omit [Keccak] [Ed25519] [Wasmi] in
theorem length_sentBy_txsOf (a : Address) (bs : List Block) : (sentBy a (txsOf bs)).length
    = (bs.map fun y => (sentBy a y.transactions.toList).length).sum := by
  rw [sentBy, txsOf, List.filter_flatMap, List.length_flatMap]
  rfl

omit [Keccak] [Ed25519] [Wasmi] in
theorem length_sentBy_lt {f : Block → Block} {bs : List Block} (hf : ∀ y ∈ bs, (f y).VersionOf y)
    {y : Block} (hy : y ∈ bs) (hstub : f y = y.stub) {tx : Transaction}
    (htx : tx ∈ y.transactions.toList) :
    (sentBy tx.sender (txsOf (bs.map f))).length < (sentBy tx.sender (txsOf bs)).length := by
  have hnil : ∀ y : Block, (sentBy tx.sender y.stub.transactions.toList).length = 0 := by
    intro y
    rw [Block.stub, Vec.toList_empty]
    rfl
  rw [length_sentBy_txsOf, length_sentBy_txsOf, List.map_map]
  refine List.sum_lt_sum _ _ (fun x hx => ?_) ⟨y, hy, ?_⟩
  · rw [Function.comp_apply]
    rcases hf x hx with heq | heq
    · rw [heq]
    · rw [heq, hnil]
      exact Nat.zero_le _
  · rw [Function.comp_apply, hstub, hnil]
    exact List.length_pos_of_mem (List.mem_filter.mpr ⟨htx, by simp⟩)

/-- **A replay without a transaction ends in another state**: the nonce of its sender is too low. -/
theorem OnDisk.root_ne_of_lost (hd : OnDisk g z zs persist.db) (hh : History g (z :: zs) s)
    (hlen : (z :: zs).length < 2 ^ 64) (hg : g.state.RootsCurrent)
    (hnone : persist.db.snapshots[z.hash]? = none) {y : Block} (hy : y ∈ (z :: zs).reverse.tail)
    (hstub : persist.db.version y = y.stub) {tx : Transaction} (htx : tx ∈ y.transactions.toList)
    {n : Node} (hrun : Node.runNode g persist = .ok n)
    (hcf : CollisionFree (n.chain.live.rootEncodings ∪ s.rootEncodings)) {head : Block}
    (hhead : n.chain.store.headBlock = some head) :
    n.chain.live.rootHash.1 ≠ head.header.stateRoot := by
  intro hroot
  obtain ⟨hexec, x, hx, hheader⟩ := hd.replayed hh hlen hnone hrun
  cases hx.symm.trans hhead
  rw [hheader, ← hh.root_eq] at hroot
  have hnonce := StateDB.nonce_eq_of_rootHash_eq hcf Set.subset_union_left Set.subset_union_right
    hroot tx.sender
  have hcount := executeBlocks_nonces tx.sender hexec
  have hcount' := executeBlocks_nonces tx.sender (hh.executeBlocks hg)
  have hlt := length_sentBy_lt (fun y hy => (hd.entries y (List.mem_reverse.mp
    (List.mem_of_mem_tail hy))).version_of) hy hstub htx
  rw [hnonce] at hcount
  omega

/-! ### A height that is missing -/

omit [Keccak] [Ed25519] [Wasmi] in
theorem foldlM_ne_ok {α σ ε : Type} {f : σ → α → Except ε σ} {a : α} (hf : ∀ s r, f s a ≠ .ok r) :
    ∀ (l : List α) (s r : σ), a ∈ l → l.foldlM f s ≠ .ok r := by
  intro l
  induction l with
  | nil => intro s r hmem; cases hmem
  | cons b l ih =>
    intro s r hmem hfold
    rw [List.foldlM_cons] at hfold
    cases hb : f s b with
    | error e =>
      rw [hb] at hfold
      cases hfold
    | ok s' =>
      rw [hb] at hfold
      rcases List.mem_cons.mp hmem with rfl | hmem
      · exact hf s s' hb
      · exact ih s' r hmem hfold

omit [Wasmi] in
/-- **A database whose head is not in the height index is not loaded.** -/
theorem ChainPersist.loadInto_ne_ok {h : H256} {x : Block} (hhead : persist.db.head = some h)
    (hx : persist.db.blocks[h]? = some x)
    (hmissing : persist.db.heights[x.header.number]? = none) (store : BlockStore) (genesis : Block)
    (r : Option UInt64 × BlockStore) : persist.loadInto store genesis ≠ .ok r := by
  intro hok
  have hheight : persist.getBlockByHeight x.header.number = none := by
    rw [getBlockByHeight, hmissing, Option.bind_none]
  unfold loadInto at hok
  simp only [hhead, hx] at hok
  split at hok
  · cases hok
  next y hzero =>
  split at hok
  · cases hok
  split at hok
  · cases hok
  split at hok
  · cases hok
  next hfold =>
  have h0 : x.header.number ≠ 0 := by
    intro h0
    rw [h0, hzero] at hheight
    cases hheight
  refine foldlM_ne_ok (a := x.header.number) (fun s r hr => ?_) _ _ _
    (mem_heightsBetween.mpr ⟨?_, UInt64.le_rfl⟩) hfold
  · unfold loadHeight at hr
    simp only [hheight, hmissing] at hr
    cases hr
  · rw [UInt64.le_iff_toNat_le]
    have hpos : x.header.number.toNat ≠ 0 := fun h => h0 (UInt64.toNat_inj.mp h)
    have hone : (1 : UInt64).toNat = 1 := rfl
    omega

theorem Node.runNode_ne_ok {h : H256} {x : Block} (hhead : persist.db.head = some h)
    (hx : persist.db.blocks[h]? = some x)
    (hmissing : persist.db.heights[x.header.number]? = none) (n : Node) :
    Node.runNode g persist ≠ .ok n := by
  intro hrun
  have hload := ChainPersist.loadInto_ne_ok hhead hx hmissing (BlockStore.new g.consensus) g.block
  unfold Node.runNode at hrun
  split at hrun
  · cases hrun
  · next heq => exact hload _ heq
  · next heq => exact hload _ heq

/-! ### The old history -/

/-- The database after the first `k` writes of `persist_canonical`. -/
def ChainPersist.crashed (persist : ChainPersist) (store : BlockStore) (block : Block) (k : ℕ) :
    ChainDb := ((persist.canonicalWrites store block).take k).foldl ChainDb.write persist.db

namespace Succession

variable {z' b y : Block} {zs' : List Block} {s' : StateDB} {store : BlockStore} {k : ℕ}

theorem eq_of_hash_eq (hp : Succession g persist z zs b z' zs' s' store)
    (hh : History g (z :: zs) s) (hy : y ∈ z :: zs) {y' : Block} (hy' : y' ∈ z' :: zs')
    (heq : y'.hash = y.hash) : y' = y := by
  rcases hp.advances.mem hy' with rfl | hy'
  · exact absurd heq.symm (hp.fresh y hy)
  · exact hh.eq_of_hash_eq hy' hy heq

theorem onBlocks_eq_some (hp : Succession g persist z zs b z' zs' s' store)
    (hh : History g (z :: zs) s) (hy : y ∈ z :: zs) {w : ChainWrite}
    (hw : w ∈ (persist.canonicalWrites store b).take k) {r : Option Block}
    (hr : w.onBlocks y.hash = some r) :
    (∃ x, r = some x ∧ x.VersionOf y ∧ x.validate = .ok ())
      ∨ (r = none ∧ w = .dropBlock y.hash
        ∧ ¬ persist.Keeps z'.header.number y.header.number) := by
  rcases hp.memory.onBlocks_eq_some hp.history hp.length (List.mem_of_mem_take hw) hr with
    ⟨heq, -⟩ | ⟨y', hy', x, hx, heq, hr⟩
  · exact absurd heq (hp.fresh y hy)
  · cases hp.eq_of_hash_eq hh hy hy' heq
    obtain ⟨x', hx', hv⟩ := hp.memory.blocks y hy'
    cases hx.symm.trans hx'
    rcases hr with ⟨hk, rfl⟩ | ⟨hk, rfl, rfl⟩
    · exact .inl ⟨x, rfl, hv, hp.valid y hy' hk x hx⟩
    · exact .inr ⟨rfl, rfl, hk⟩

theorem headers_of_drop (hp : Succession g persist z zs b z' zs' s' store)
    (hh : History g (z :: zs) s) (hy : y ∈ z :: zs)
    (h : ChainWrite.dropBlock y.hash ∈ (persist.canonicalWrites store b).take k
      ∨ persist.db.headers[y.hash]? = some y.header) :
    (persist.crashed store b k).headers[y.hash]? = some y.header := by
  refine (ChainWrite.observes_headers y.hash).foldl_induction (Q := (· = some y.header)) _
    persist.db
    (fun w hw r hr => ?_) (h.imp_left fun hdrop => ⟨.header y.header, ?_, _, if_pos rfl⟩)
  · obtain ⟨y', hy', heq, rfl⟩ :=
      hp.memory.onHeaders_eq_some hp.history hp.length (List.mem_of_mem_take hw) hr
    rw [hp.eq_of_hash_eq hh hy hy' heq]
  · refine ChainPersist.header_mem_take (fun m x hx hhash => ?_) hdrop
    obtain ⟨h, hm, hget⟩ := Option.bind_eq_some_iff.mp hx
    obtain ⟨y', hy', rfl, rfl⟩ := (hp.memory.byNumber_eq_some hp.history hp.length).mp hm
    obtain ⟨x', hx', hv⟩ := hp.memory.blocks y' hy'
    cases hget.symm.trans hx'
    rw [hv.header_eq, hp.eq_of_hash_eq hh hy hy' (hv.hash_eq.symm.trans hhash)]

/-- **The entry of an old block**, as long as its height is not given to another. -/
theorem entry (hp : Succession g persist z zs b z' zs' s' store) (hh : History g (z :: zs) s)
    (hlen : (z :: zs).length < 2 ^ 64)
    (hcut : z' :: zs' = z :: zs ∨ ChainWrite.height z'.header.number z'.hash
      ∉ (persist.canonicalWrites store b).take k) (hy : y ∈ z :: zs) (he : persist.db.Entry y) :
    (persist.crashed store b k).Entry y := by
  constructor
  · refine (ChainWrite.observes_heights _).foldl_induction (Q := (· = some y.hash)) _ persist.db
      (fun w hw r hr => ?_) (.inr he.1)
    obtain ⟨y', hy', hnum, rfl, rfl⟩ :=
      hp.memory.onHeights_eq_some hp.history hp.length (List.mem_of_mem_take hw) hr
    have hy'' : y' ∈ z :: zs := by
      rcases hcut with heq | hcut
      · rwa [heq] at hy'
      · cases hp.advances with
        | stay => exact hy'
        | move hsuf _ =>
          rcases List.mem_cons.mp hy' with rfl | hy'
          · exact absurd hw hcut
          · exact hsuf.subset hy'
    rw [hh.eq_of_number_eq hlen.le hy'' hy hnum]
  · have hblocks : (∃ x, (persist.crashed store b k).blocks[y.hash]? = some x ∧ x.VersionOf y
          ∧ x.validate = .ok ())
        ∨ ((persist.crashed store b k).blocks[y.hash]? = none
          ∧ (persist.crashed store b k).headers[y.hash]? = some y.header) := by
      refine (ChainWrite.observes_blocks y.hash).foldl_induction (Q := fun r =>
        (∃ x, r = some x ∧ x.VersionOf y ∧ x.validate = .ok ())
          ∨ (r = none ∧ (persist.crashed store b k).headers[y.hash]? = some y.header))
        _ persist.db (fun w hw r hr => ?_)
        (.inr (he.2.imp_right fun h => ⟨h.1, hp.headers_of_drop hh hy (.inr h.2)⟩))
      refine (hp.onBlocks_eq_some hh hy hw hr).imp_right ?_
      rintro ⟨rfl, rfl, -⟩
      exact ⟨rfl, hp.headers_of_drop hh hy (.inl hw)⟩
    exact hblocks

theorem blocks_of_keeps (hp : Succession g persist z zs b z' zs' s' store)
    (hh : History g (z :: zs) s) (hy : y ∈ z :: zs)
    (hk : persist.Keeps z'.header.number y.header.number)
    (hold : ∃ x, persist.db.blocks[y.hash]? = some x) :
    ∃ x, (persist.crashed store b k).blocks[y.hash]? = some x := by
  refine (ChainWrite.observes_blocks y.hash).foldl_induction (Q := fun r => ∃ x, r = some x) _
    persist.db (fun w hw r hr => ?_) (.inr hold)
  rcases hp.onBlocks_eq_some hh hy hw hr with ⟨x, rfl, -⟩ | ⟨-, -, hnk⟩
  · exact ⟨x, rfl⟩
  · exact absurd hk hnk

/-- **The old history survives** as long as the new head is not in the height index, if the head on
disk is as high. -/
theorem onDisk_old (hp : Succession g persist z zs b z' zs' s' store) (hh : History g (z :: zs) s)
    (hlen : (z :: zs).length < 2 ^ 64) (hg : g.state.RootsCurrent)
    (hd : OnDisk g z zs persist.db)
    (hcut : z' :: zs' = z :: zs ∨ ChainWrite.height z'.header.number z'.hash
      ∉ (persist.canonicalWrites store b).take k)
    (hhead : ∃ (h : H256) (x : Block), (persist.crashed store b k).head = some h
      ∧ (persist.crashed store b k).blocks[h]? = some x ∧ x.header.number = z.header.number) :
    OnDisk g z zs (persist.crashed store b k) := by
  refine ⟨hhead, fun y hy => hp.entry hh hlen hcut hy (hd.entries y hy),
    hp.blocks_of_keeps hh hh.genesis_mem (.inr (.inl g.number)) hd.genesis,
    fun y ys snap hsuf => ?_⟩
  refine (ChainWrite.observes_snapshots y.hash).foldl_induction
    (Q := fun r => ∀ snap, r = some snap → History g (y :: ys) (StateDB.fromSnapshot snap)) _
    persist.db (fun w hw r hr snap hsnap => ?_) (.inr fun snap => hd.snapshots y ys snap hsuf) snap
  obtain ⟨-, -, -, t, ht, rfl⟩ :=
    hp.memory.onSnapshots_eq_some hp.history hp.length (List.mem_of_mem_take hw) hr
  cases hsnap
  have hhist := hp.snapshots y ys t hsuf ht
  rwa [hhist.fromSnapshot_trieNodes hg]

end Succession

/-! ### The new history -/

/-- Every canonical body that the policy drops was empty: without its lists the block still passes
`Block::validate`. -/
def ChainPersist.DropsNothing (persist : ChainPersist) (store : BlockStore) : Prop :=
  ∀ head ∈ store.headBlock, ∀ m ∈ heightsBetween 0 head.header.number,
    ∀ b ∈ store.getBlockByNumber m,
      persist.Keeps head.header.number m ∨ b.stub.validate = .ok ()

instance (persist : ChainPersist) (store : BlockStore) : Decidable (persist.DropsNothing store) :=
  letI (head : Block) : Decidable (∀ m ∈ heightsBetween 0 head.header.number,
      ∀ b ∈ store.getBlockByNumber m,
        persist.Keeps head.header.number m ∨ b.stub.validate = .ok ()) := List.decidableBAll _ _
  inferInstanceAs (Decidable (∀ head ∈ store.headBlock,
    ∀ m ∈ heightsBetween 0 head.header.number, ∀ b ∈ store.getBlockByNumber m,
      persist.Keeps head.header.number m ∨ b.stub.validate = .ok ()))

omit [Ed25519] [Wasmi] in
theorem Block.exists_transaction {y : Block} (hy : y.validate = .ok ())
    (hstub : y.stub.validate ≠ .ok ()) : ∃ tx, tx ∈ y.transactions.toList := by
  refine List.exists_mem_of_ne_nil _ fun hnil => hstub ?_
  obtain ⟨-, hcount, -⟩ := Block.validate_eq_ok.mp hy
  rw [hnil, List.length_nil] at hcount
  have htxs : y.transactions = Vec.empty := Vec.ext (hnil.trans Vec.toList_empty.symm)
  have hreceipts : y.receipts = Vec.empty :=
    Vec.ext ((List.length_eq_zero_iff.mp hcount.symm).trans Vec.toList_empty.symm)
  have hself : y.stub = y := by rw [Block.stub, ← hreceipts, ← htxs]
  rwa [hself]

section New

variable {store : BlockStore} {b : Block} {k : ℕ}

theorem InMemory.dropsNothing_iff (hm : InMemory g z zs store) (hh : History g (z :: zs) s)
    (hlen : (z :: zs).length < 2 ^ 64) : persist.DropsNothing store ↔
      ∀ y ∈ z :: zs, persist.Keeps z.header.number y.header.number ∨ y.stub.validate = .ok () := by
  obtain ⟨head, hhead, -, hv⟩ := hm.headBlock
  constructor
  · intro hd y hy
    obtain ⟨x, hx, hxv⟩ := hm.blocks y hy
    have hdrop := hd head hhead y.header.number
      (mem_heightsBetween.mpr ⟨UInt64.zero_le, hv.header_eq ▸ hh.number_le z zs rfl y hy⟩) x
      ((hm.getBlockByNumber_eq hh hlen hy).trans hx)
    rwa [hv.header_eq, hxv.stub_eq] at hdrop
  · intro hall head' hhead' m _ x hx
    cases hhead.symm.trans hhead'
    obtain ⟨h, hm', hget⟩ := Option.bind_eq_some_iff.mp hx
    obtain ⟨y, hy, rfl, rfl⟩ := (hm.byNumber_eq_some hh hlen).mp hm'
    obtain ⟨x', hx', hxv⟩ := hm.blocks y hy
    cases hget.symm.trans hx'
    rw [hv.header_eq, hxv.stub_eq]
    exact hall y hy

omit [Ed25519] [Wasmi] in
theorem ChainPersist.exists_snapshot_crashed (store : BlockStore) (b : Block) (k : ℕ) {h : H256}
    (hsnap : (∃ snap, ChainWrite.snapshot h snap ∈ (persist.canonicalWrites store b).take k)
      ∨ ∃ snap, persist.db.snapshots[h]? = some snap) :
    ∃ snap, (persist.crashed store b k).snapshots[h]? = some snap := by
  refine (ChainWrite.observes_snapshots h).foldl_induction (Q := fun r => ∃ snap, r = some snap) _
    persist.db (fun w _ r hr => ?_) (hsnap.imp_left ?_)
  · cases w with
    | snapshot hash snap =>
      simp only [ChainWrite.onSnapshots, Option.ite_none_right_eq_some, Option.some.injEq] at hr
      exact ⟨snap, hr.2.symm⟩
    | _ => cases hr
  · rintro ⟨snap, hmem⟩
    exact ⟨_, hmem, _, if_pos rfl⟩

omit [Ed25519] [Wasmi] in
theorem ChainPersist.snapshots_crashed_eq_none {h : H256} (hnone : persist.db.snapshots[h]? = none)
    (hnot : ¬ ∃ snap, ChainWrite.snapshot h snap ∈ (persist.canonicalWrites store b).take k) :
    (persist.crashed store b k).snapshots[h]? = none := by
  refine ((ChainWrite.observes_snapshots h).foldl_of_unset persist.db fun w hw => ?_).trans hnone
  cases w with
  | snapshot hash snap =>
    refine if_neg ?_
    rintro rfl
    exact hnot ⟨snap, hw⟩
  | _ => rfl

/-- **Once the height of the new head is written, the new history is on disk**: the kept bodies as
they are in memory, and no others. -/
theorem InMemory.onDisk_crashed (hm : InMemory g z zs store) (hh : History g (z :: zs) s)
    (hlen : (z :: zs).length < 2 ^ 64) (hg : g.state.RootsCurrent) (hkeep : 0 < persist.archiveKeep)
    (hnew : Newest z zs store b)
    (hval : ∀ y ∈ z :: zs, persist.Keeps z.header.number y.header.number →
      ∀ x, store.getBlock y.hash = some x → x.validate = .ok ())
    (hold : ∀ y ys snap, y :: ys <:+ zs → persist.db.snapshots[y.hash]? = some snap →
      History g (y :: ys) (StateDB.fromSnapshot snap))
    (hnone : persist.db.snapshots[z.hash]? = none)
    (hmem : ChainWrite.height z.header.number z.hash
      ∈ (persist.canonicalWrites store b).take k) :
    OnDisk g z zs (persist.crashed store b k)
      ∧ ∀ y ∈ z :: zs, ∀ x, store.getBlock y.hash = some x →
        (persist.Keeps z.header.number y.header.number →
          (persist.crashed store b k).blocks[y.hash]? = some x)
        ∧ (¬ persist.Keeps z.header.number y.header.number →
          (persist.crashed store b k).blocks[y.hash]? = none) := by
  obtain ⟨head, hhead, hget, hv⟩ := hm.headBlock
  have hwrites : ∀ {w : ChainWrite}, (w = .head z.hash ∨ ∃ m x, m ≤ z.header.number
      ∧ store.getBlockByNumber m = some x ∧ w ∈ persist.blockWrites head m x) →
      w ∈ (persist.canonicalWrites store b).take k := by
    intro w hw
    rw [← hv.header_eq, ← hv.hash_eq] at hw hmem
    refine ChainPersist.mem_take_of_height hhead ?_ hmem hw
    rw [hv.header_eq, hm.getBlockByNumber_eq hh hlen List.mem_cons_self, hget]
  have hbody : ∀ y ∈ z :: zs, ∀ x, store.getBlock y.hash = some x →
      ∀ w, persist.BodyWrite z.header.number y x w →
        w ∈ (persist.canonicalWrites store b).take k := by
    intro y hy x hx w hw
    obtain ⟨x', hx', hv'⟩ := hm.blocks y hy
    cases hx.symm.trans hx'
    refine hwrites (.inr ⟨y.header.number, x, hh.number_le z zs rfl y hy, ?_, ?_⟩)
    · rw [hm.getBlockByNumber_eq hh hlen hy, hx]
    · rw [ChainPersist.mem_blockWrites, hv.header_eq, hv'.header_eq, hv'.hash_eq]
      exact hw
  exact hm.onDisk hh hlen hg hkeep hnew hval (fun w hw => List.mem_of_mem_take hw)
    (hwrites (.inl rfl)) hbody hold (.inr fun snap hsnap => by rw [hnone] at hsnap; cases hsnap)

variable {db : ChainDb} {archive : Bool} {archiveKeep : UInt64}

/-- **A node starts with the new head**, if its snapshot is there or nothing was lost with the
bodies. -/
theorem OnDisk.startsAt_of_dropsNothing (hd : OnDisk g z zs db) (hm : InMemory g z zs store)
    (hh : History g (z :: zs) s) (hlen : (z :: zs).length < 2 ^ 64) (hg : g.state.RootsCurrent)
    (hblocks : ∀ y ∈ z :: zs, ∀ x, store.getBlock y.hash = some x →
      persist.Keeps z.header.number y.header.number → db.blocks[y.hash]? = some x)
    (hval : ∀ y ∈ z :: zs, persist.Keeps z.header.number y.header.number →
      ∀ x, store.getBlock y.hash = some x → x.validate = .ok ())
    (hwhole : ∀ y ∈ z :: zs, ∀ x, x.VersionOf y → x.validate = .ok () → x = y)
    (hrest : (∃ snap, db.snapshots[z.hash]? = some snap) ∨ ∀ y ∈ z :: zs,
      persist.Keeps z.header.number y.header.number ∨ y.stub.validate = .ok ()) :
    StartsAt g (ChainPersist.openWith db archive archiveKeep) z s := by
  have hd' : OnDisk g z zs (ChainPersist.openWith db archive archiveKeep).db := hd
  cases hsnap : db.snapshots[z.hash]? with
  | some snap => exact hd'.startsAt_of_snapshot hh hlen hsnap
  | none =>
    have hdrops := hrest.resolve_left fun ⟨snap, hsnap'⟩ => by rw [hsnap] at hsnap'; cases hsnap'
    refine hd'.startsAt_of_full hh hlen hg (fun y hy => ?_) hsnap
    obtain ⟨x, hx, hv⟩ := hm.blocks y hy
    rcases hdrops y hy with hk | hstub
    · exact (ChainDb.version_eq (hblocks y hy x hx hk)).trans (hwhole y hy x hv (hval y hy hk x hx))
    · have hself : y.stub = y := hwhole y hy y.stub (.inr rfl) hstub
      exact (hd'.entries y hy).version_of.elim id fun heq => heq.trans hself

/-- **Otherwise its state has another root than the header of the head names.** -/
theorem OnDisk.root_ne_of_dropped (hd : OnDisk g z zs db) (hh : History g (z :: zs) s)
    (hlen : (z :: zs).length < 2 ^ 64) (hg : g.state.RootsCurrent)
    (hnone : db.snapshots[z.hash]? = none) {y : Block} (hy : y ∈ z :: zs)
    (hk : ¬ persist.Keeps z.header.number y.header.number) (hblock : db.blocks[y.hash]? = none)
    (hstub : y.stub.validate ≠ .ok ()) {n : Node}
    (hrun : Node.runNode g (ChainPersist.openWith db archive archiveKeep) = .ok n)
    (hcf : CollisionFree (n.chain.live.rootEncodings ∪ s.rootEncodings)) {head : Block}
    (hhead : n.chain.store.headBlock = some head) :
    n.chain.live.rootHash.1 ≠ head.header.stateRoot := by
  have hd' : OnDisk g z zs (ChainPersist.openWith db archive archiveKeep).db := hd
  obtain ⟨tx, htx⟩ := Block.exists_transaction (hh.valid y hy) hstub
  -- the genesis is always kept
  have hne : y ≠ g.block := by
    rintro rfl
    exact hk (.inr (.inl g.number))
  refine hd'.root_ne_of_lost hh hlen hg hnone (hh.mem_reverse_tail y hy hne) ?_ htx hrun hcf hhead
  rw [ChainDb.version]
  show db.blocks[y.hash]?.getD y.stub = y.stub
  rw [hblock, Option.getD_none]

end New

/-! ### Both -/

/-- A cut from which a node recovers: the head does not move; or it is not written yet; or the old
head is as high and the new one is not in the height index; or it is, and the snapshot of the new
head is written or the policy drops only empty bodies. -/
def SafeCut (persist : ChainPersist) (old : Option H256) (store : BlockStore) (block : Block)
    (k : ℕ) : Prop :=
  ∀ head ∈ store.headBlock,
    store.head = old
      ∨ ChainWrite.head head.hash ∉ (persist.canonicalWrites store block).take k
      ∨ ((∃ h, old = some h ∧ store.numberOf h = head.header.number)
        ∧ ChainWrite.height head.header.number head.hash
          ∉ (persist.canonicalWrites store block).take k)
      ∨ (ChainWrite.height head.header.number head.hash
          ∈ (persist.canonicalWrites store block).take k
        ∧ (persist.DropsNothing store ∨ ∃ snap,
          ChainWrite.snapshot head.hash snap ∈ (persist.canonicalWrites store block).take k))

/-- A node starts on the database, with one of the two heads and a state with the root that the
header of the head names. -/
def Recovers (g : Genesis) (persist : ChainPersist) (old new : Option H256) : Prop :=
  ∃ n head, Node.runNode g persist = .ok n
    ∧ (n.chain.store.head = old ∨ n.chain.store.head = new)
    ∧ n.chain.store.headBlock = some head
    ∧ n.chain.live.rootHash.1 = head.header.stateRoot

theorem StartsAt.recovers (hst : StartsAt g persist z s) (hh : History g (z :: zs) s)
    {old new : Option H256} (hor : some z.hash = old ∨ some z.hash = new) :
    Recovers g persist old new := by
  obtain ⟨n, hrun, hlive, hhead, x, hx, hheader⟩ := hst
  exact ⟨n, x, hrun, hhead ▸ hor, hx, by rw [hlive, hheader, hh.root_eq]⟩

omit [Ed25519] [Wasmi] in
theorem ChainPersist.eq_block_of_head_notMem {store : BlockStore} {block head : Block} {k : ℕ}
    (hhead : store.headBlock = some head)
    (hcut : ChainWrite.head head.hash ∉ (persist.canonicalWrites store block).take k)
    {w : ChainWrite} (hw : w ∈ (persist.canonicalWrites store block).take k) :
    w = .block block := by
  rw [canonicalWrites_eq hhead] at hw hcut
  match k with
  | 0 => simp at hw
  | 1 => simpa using hw
  | k + 2 => simp at hcut

section Session

variable {S : Set Block} {z' b : Block} {zs' : List Block} {s' : StateDB} {store : BlockStore}
  {n : Node} {k : ℕ}

namespace Session

theorem exists_block (hs : Session g S z zs s n) : ∃ x, n.persist.db.blocks[z.hash]? = some x
    ∧ x.header.number = z.header.number := by
  obtain ⟨h, x, hh, hx, hnum⟩ := hs.disk.head
  cases hs.top.symm.trans hh
  exact ⟨x, hx, hnum⟩

theorem startsAt_old (hs : Session g S z zs s n) (hlen : (z :: zs).length < 2 ^ 64)
    (hd : OnDisk g z zs (n.persist.crashed store b k)) (archive : Bool) (archiveKeep : UInt64) :
    StartsAt g (ChainPersist.openWith (n.persist.crashed store b k) archive archiveKeep) z s := by
  obtain ⟨snap, hsnap, -⟩ := Option.map_eq_some_iff.mp hs.saved
  obtain ⟨snap', hsnap'⟩ :=
    ChainPersist.exists_snapshot_crashed store b k (.inr ⟨snap, hsnap⟩)
  have hd : OnDisk g z zs
      (ChainPersist.openWith (n.persist.crashed store b k) archive archiveKeep).db := hd
  exact hd.startsAt_of_snapshot hs.history hlen hsnap'

/-- The head stays: the old history is on disk after every cut. -/
theorem onDisk_stay (hs : Session g S z zs s n) (hlen : (z :: zs).length < 2 ^ 64)
    (hg : g.state.RootsCurrent) (hp : Succession g n.persist z zs b z zs s' store) :
    OnDisk g z zs (n.persist.crashed store b k) := by
  refine hp.onDisk_old hs.history hlen hg hs.disk (.inl rfl) ?_
  have hz : z ∈ z :: zs := List.mem_cons_self
  have hhead : (n.persist.crashed store b k).head = some z.hash := by
    refine ChainWrite.observes_head.foldl_induction (Q := (· = some z.hash)) _ n.persist.db
      (fun w hw r hr => ?_) (.inr hs.top)
    exact (hp.memory.onHead_eq_some hp.history hp.length (List.mem_of_mem_take hw) hr).1
  obtain ⟨x₀, hx₀, -⟩ := hs.exists_block
  obtain ⟨x, hx⟩ := hp.blocks_of_keeps (k := k) hs.history hz
    (ChainPersist.keeps_self hs.keep _) ⟨x₀, hx₀⟩
  have he := hp.entry (k := k) hs.history hlen (.inl rfl) hz (hs.disk.entries z hz)
  refine ⟨z.hash, x, hhead, hx, ?_⟩
  rcases he.2 with ⟨x', hx', hv, -⟩ | ⟨hnone, -⟩
  · cases hx.symm.trans hx'
    rw [hv.header_eq]
  · rw [hx] at hnone
    cases hnone

theorem onDisk_before (hs : Session g S z zs s n) (hlen : (z :: zs).length < 2 ^ 64)
    (hg : g.state.RootsCurrent) (hp : Succession g n.persist z zs b z' zs' s' store)
    (hcut : ChainWrite.head z'.hash ∉ (n.persist.canonicalWrites store b).take k) :
    OnDisk g z zs (n.persist.crashed store b k) := by
  obtain ⟨head, hhead, -, hv⟩ := hp.memory.headBlock
  rw [← hv.hash_eq] at hcut
  have honly : ∀ w ∈ (n.persist.canonicalWrites store b).take k, w = .block b :=
    fun w hw => ChainPersist.eq_block_of_head_notMem hhead hcut hw
  obtain ⟨x, hx, hnum⟩ := hs.exists_block
  refine hp.onDisk_old hs.history hlen hg hs.disk (.inr fun hmem => ?_) ⟨z.hash, x, ?_, ?_, hnum⟩
  · cases honly _ hmem
  · rw [← hs.top]
    refine ChainWrite.observes_head.foldl_of_unset n.persist.db fun w hw => ?_
    rw [honly w hw]
    rfl
  · rw [← hx]
    refine (ChainWrite.observes_blocks z.hash).foldl_of_unset n.persist.db fun w hw => ?_
    rw [honly w hw]
    exact if_neg (hp.fresh z List.mem_cons_self)

theorem head_crashed (hs : Session g S z zs s n) (hp : Succession g n.persist z zs b b zs' s' store)
    (hhead : ChainWrite.head b.hash ∈ (n.persist.canonicalWrites store b).take k) :
    (n.persist.crashed store b k).head = some b.hash
      ∧ (n.persist.crashed store b k).blocks[b.hash]? = some b := by
  constructor
  · exact hp.memory.head_of_writes hp.history hp.length (fun w hw => List.mem_of_mem_take hw) hhead
  · have hblock : ChainWrite.block b ∈ (n.persist.canonicalWrites store b).take k := by
      refine Precedes.mem_take ?_ hhead
      rw [ChainPersist.canonicalWrites]
      exact Precedes.of_mem (l := [ChainWrite.block b]) (by simp) (by simp)
    refine (ChainWrite.observes_blocks b.hash).foldl_of_set n.persist.db
      (fun w hw r hr => ?_) hblock
      (if_pos rfl)
    rcases hp.memory.onBlocks_eq_some hp.history hp.length (List.mem_of_mem_take hw) hr with
      ⟨-, hr⟩ | ⟨y, hy, x, hx, heq, hr⟩
    · exact hr
    · obtain ⟨rfl, hget⟩ := hp.newest y hy heq
      cases hx.symm.trans hget
      rcases hr with ⟨-, hr⟩ | ⟨hk, -⟩
      · exact hr
      · exact absurd (ChainPersist.keeps_self hs.keep _) hk

theorem onDisk_tie (hs : Session g S z zs s n) (hlen : (z :: zs).length < 2 ^ 64)
    (hg : g.state.RootsCurrent) (hp : Succession g n.persist z zs b b zs' s' store)
    (hhead : ChainWrite.head b.hash ∈ (n.persist.canonicalWrites store b).take k)
    (hcut : ChainWrite.height b.header.number b.hash
      ∉ (n.persist.canonicalWrites store b).take k)
    (hnum : b.header.number = z.header.number) :
    OnDisk g z zs (n.persist.crashed store b k) := by
  obtain ⟨htop, hblock⟩ := hs.head_crashed hp hhead
  exact hp.onDisk_old hs.history hlen hg hs.disk (.inr hcut) ⟨b.hash, b, htop, hblock, hnum⟩

/-- The new head is higher than the old one, and not in the height index yet: the database is not
loaded. -/
theorem runNode_ne_ok (hs : Session g S z zs s n)
    (hp : Succession g n.persist z zs b b zs' s' store)
    (hhead : ChainWrite.head b.hash ∈ (n.persist.canonicalWrites store b).take k)
    (hcut : ChainWrite.height b.header.number b.hash
      ∉ (n.persist.canonicalWrites store b).take k)
    (hlt : z.header.number < b.header.number) (archive : Bool) (archiveKeep : UInt64) (n' : Node) :
    Node.runNode g (ChainPersist.openWith (n.persist.crashed store b k) archive archiveKeep)
      ≠ .ok n' := by
  obtain ⟨htop, hblock⟩ := hs.head_crashed hp hhead
  refine Node.runNode_ne_ok (x := b) htop hblock ?_ n'
  show (n.persist.crashed store b k).heights[b.header.number]? = none
  refine ((ChainWrite.observes_heights _).foldl_of_unset n.persist.db fun w hw => ?_).trans
    (hs.above _ hlt)
  cases hr : w.onHeights b.header.number with
  | none => rfl
  | some r =>
    obtain ⟨y, hy, hnum, -, rfl⟩ :=
      hp.memory.onHeights_eq_some hp.history hp.length (List.mem_of_mem_take hw) hr
    rw [hp.history.eq_of_number_eq hp.length.le hy List.mem_cons_self hnum] at hw
    exact absurd hw hcut

/-- Without collisions no snapshot on disk has the hash of a block that takes over. -/
theorem snapshot_eq_none (hs : Session g S z zs s n) (hcf : CollisionFree (familyEncodings g S))
    (hb : b ∈ S) (hlt : forkKey z.hash z < forkKey b.hash b) :
    n.persist.db.snapshots[b.hash]? = none := by
  cases hsnap : n.persist.db.snapshots[b.hash]? with
  | none => rfl
  | some snap =>
    obtain ⟨y, hy, hhash, hle⟩ := hs.outdone _ snap hsnap
    have hheader : y.header = b.header := BlockHeader.codec.encode_injective
      (hcf ⟨y, hy, by simp [Block.encodings]⟩ ⟨b, .inr hb, by simp [Block.encodings]⟩ hhash)
    have hkey : forkKey y.hash y = forkKey b.hash b := by rw [forkKey, forkKey, hhash, hheader]
    rw [hkey] at hle
    exact absurd hlt (not_lt.mpr hle)

section Cut

variable (hs : Session g S z zs s n) (hlen : (z :: zs).length < 2 ^ 64)
  (hg : g.state.RootsCurrent) (hcf : CollisionFree (familyEncodings g S)) (hb : b ∈ S)
  (hp : Succession g n.persist z zs b z' zs' s' store) (archive : Bool) (archiveKeep : UInt64)

include hs hlen hg hcf hb hp

/-- **A node recovers from a safe cut.** -/
theorem recovers_of_safeCut
    (hwhole : ∀ y ∈ z' :: zs', ∀ x, x.VersionOf y → x.validate = .ok () → x = y)
    (hcut : SafeCut n.persist n.chain.store.head store b k) :
    Recovers g (ChainPersist.openWith (n.persist.crashed store b k) archive archiveKeep)
      n.chain.store.head store.head := by
  obtain ⟨head, hhead, -, hv⟩ := hp.memory.headBlock
  have hcut := hcut head hhead
  rw [hv.hash_eq, hv.header_eq] at hcut
  have hold : StartsAt g (ChainPersist.openWith (n.persist.crashed store b k) archive archiveKeep)
      z s → Recovers g (ChainPersist.openWith (n.persist.crashed store b k) archive archiveKeep)
        n.chain.store.head store.head := fun hst =>
    hst.recovers hs.history (.inl hs.memory.head.symm)
  cases hp.advances with
  | stay => exact hold (hs.startsAt_old hlen (hs.onDisk_stay hlen hg hp) archive archiveKeep)
  | move hsuf hlt =>
    by_cases hbefore : ChainWrite.head z'.hash ∈ (n.persist.canonicalWrites store z').take k
    · rcases hcut with hstay | hcut | ⟨⟨h, hh, hnum⟩, hcut⟩ | ⟨hmem, hrest⟩
      · rw [hp.memory.head, hs.memory.head] at hstay
        exact absurd (Option.some.inj hstay).symm (hp.fresh z List.mem_cons_self)
      · exact absurd hbefore hcut
      · cases hs.memory.head.symm.trans hh
        rw [hp.numbers z List.mem_cons_self] at hnum
        exact hold (hs.startsAt_old hlen (hs.onDisk_tie hlen hg hp hbefore hcut hnum.symm) archive
          archiveKeep)
      · obtain ⟨hdisk, hblocks⟩ :=
          hp.memory.onDisk_crashed hp.history hp.length hg hs.keep hp.newest
          hp.valid (hs.disk_snapshots hp.advances) (hs.snapshot_eq_none hcf hb hlt) hmem
        refine StartsAt.recovers (hdisk.startsAt_of_dropsNothing hp.memory hp.history hp.length hg
          (fun y hy x hx => (hblocks y hy x hx).1) hp.valid hwhole ?_) hp.history
          (.inr hp.memory.head.symm)
        rcases hrest with hdrops | hwritten
        · exact .inr ((hp.memory.dropsNothing_iff hp.history hp.length).mp hdrops)
        · exact .inl (ChainPersist.exists_snapshot_crashed store _ k (.inl hwritten))
    · exact hold (hs.startsAt_old hlen (hs.onDisk_before hlen hg hp hbefore) archive archiveKeep)

omit hlen in
/-- **And from no other**: the database is not loaded, or a transaction is missing in the replay. -/
theorem safeCut_of_recovers
    (hroots : ∀ n', Node.runNode g (ChainPersist.openWith (n.persist.crashed store b k) archive
      archiveKeep) = .ok n' → CollisionFree (n'.chain.live.rootEncodings ∪ s'.rootEncodings))
    (hrec : Recovers g (ChainPersist.openWith (n.persist.crashed store b k) archive archiveKeep)
      n.chain.store.head store.head) :
    SafeCut n.persist n.chain.store.head store b k := by
  intro head hhead
  obtain ⟨head', hhead', -, hv⟩ := hp.memory.headBlock
  cases hhead.symm.trans hhead'
  rw [hv.hash_eq, hv.header_eq]
  obtain ⟨n', top, hrun, -, htop, hroot⟩ := hrec
  cases hp.advances with
  | stay => exact .inl (hp.memory.head.trans hs.memory.head.symm)
  | move hsuf hlt =>
    refine .inr ?_
    by_cases hbefore : ChainWrite.head z'.hash ∈ (n.persist.canonicalWrites store z').take k
    swap
    · exact .inl hbefore
    refine .inr ?_
    by_cases hmem : ChainWrite.height z'.header.number z'.hash
        ∈ (n.persist.canonicalWrites store z').take k
    · refine .inr ⟨hmem, ?_⟩
      by_contra hnot
      obtain ⟨hdrops, hwritten⟩ := not_or.mp hnot
      have hnone := hs.snapshot_eq_none hcf hb hlt
      obtain ⟨hdisk, hblocks⟩ := hp.memory.onDisk_crashed hp.history hp.length hg hs.keep hp.newest
        hp.valid (hs.disk_snapshots hp.advances) hnone hmem
      rw [hp.memory.dropsNothing_iff hp.history hp.length] at hdrops
      push Not at hdrops
      obtain ⟨y, hy, hk, hstub⟩ := hdrops
      obtain ⟨x, hx, -⟩ := hp.memory.blocks y hy
      exact hdisk.root_ne_of_dropped hp.history hp.length hg
        (ChainPersist.snapshots_crashed_eq_none hnone hwritten) hy hk
        ((hblocks y hy x hx).2 hk) hstub
        hrun (hroots n' hrun) htop hroot
    · rcases forkKey_lt_iff.mp hlt with hnum | ⟨hnum, -⟩
      · exact absurd hrun (hs.runNode_ne_ok hp hbefore hmem hnum archive archiveKeep n')
      · refine .inl ⟨⟨z.hash, hs.memory.head, ?_⟩, hmem⟩
        rw [hp.numbers z List.mem_cons_self, hnum]

end Cut

end Session

end Session

/-! ### Crashes -/

/-- A database written by complete calls of `persist_canonical`, and the next call: that of the
genesis on an empty database, or that of an accepted import.  With it come the steps of the
sessions, in which all accepted imports were covered, and the old head. -/
inductive PersistCall (g : Genesis) :
    List SessionOp → ChainPersist → Option H256 → BlockStore → Block → Prop
  | genesis (archive : Bool) (archiveKeep : UInt64) :
      PersistCall g [] (ChainPersist.openWith ChainDb.empty archive archiveKeep) none g.store
        g.block
  | imported {archive : Bool} {archiveKeep : UInt64} {ops : List SessionOp} {n : Node} {b : Block}
      {outcome : InsertOutcome} {cs' : ChainState} :
      SessionOp.run g archive archiveKeep ops = some n →
      SessionOp.CoveredRun g archive archiveKeep (ops ++ [.importBlock b]) →
      n.chain.importAndApply b = (.ok outcome, cs') →
      PersistCall g (ops ++ [.importBlock b]) n.persist n.chain.store.head cs'.store b

omit [Wasmi] in
theorem AllocGenesis.eq_of_version (g : AllocGenesis) {S : Set Block}
    (hcf : CollisionFree (familyEncodings g.toGenesis S)) {x y : Block}
    (hy : y ∈ family g.toGenesis S) (hvalid : y.validate = .ok ()) (hv : x.VersionOf y)
    (hx : x.validate = .ok ()) : x = y := by
  refine Block.eq_of_hash_eq hcf (fun e he => ?_) (fun e he => ⟨y, hy, he⟩) hx hvalid hv.hash_eq
  rcases hv with rfl | rfl
  · exact ⟨x, hy, he⟩
  · -- the genesis has empty lists, too
    have hstub := g.stub_block
    simp only [Block.encodings, Block.stub, List.mem_cons, List.not_mem_nil, or_false] at he
    rcases he with rfl | rfl | rfl
    · exact ⟨y, hy, by simp [Block.encodings]⟩
    · exact ⟨g.block, .inl rfl, by rw [← hstub]; simp [Block.encodings, Block.stub]⟩
    · exact ⟨g.block, .inl rfl, by rw [← hstub]; simp [Block.encodings, Block.stub]⟩

/-! ### The first call -/

namespace Genesis

variable (g : Genesis) {persist : ChainPersist} {k : ℕ}

omit [Wasmi] in
theorem headBlock_store : g.store.headBlock = some g.block := by
  rw [headBlock, g.head, Option.bind_some, g.getBlock_block]

omit [Wasmi] in
theorem eq_of_getBlock {x y : Block} (hy : y ∈ [g.block])
    (hx : g.store.getBlock y.hash = some x) : x = g.block := by
  rw [List.mem_singleton.mp hy, g.getBlock_block] at hx
  exact (Option.some.inj hx).symm

omit [Wasmi] in
/-- The genesis is kept under every policy. -/
theorem keeps_block (persist : ChainPersist) {y : Block} (hy : y ∈ [g.block]) :
    persist.Keeps g.block.header.number y.header.number := by
  rw [List.mem_singleton.mp hy]
  exact .inr (.inl g.number)

/-- The head is named by the database, and there is no height but what is written. -/
theorem runNode_ne_ok (hempty : persist.db = ChainDb.empty)
    (hhead : ChainWrite.head g.block.hash ∈ (persist.canonicalWrites g.store g.block).take k)
    (hcut : ChainWrite.height g.block.header.number g.block.hash
      ∉ (persist.canonicalWrites g.store g.block).take k)
    (archive : Bool) (archiveKeep : UInt64) (n : Node) :
    Node.runNode g (ChainPersist.openWith (persist.crashed g.store g.block k) archive archiveKeep)
      ≠ .ok n := by
  have hlen : [g.block].length < 2 ^ 64 := by norm_num
  refine Node.runNode_ne_ok (x := g.block) (g.inMemory.head_of_writes .genesis hlen
    (fun w hw => List.mem_of_mem_take hw) hhead) ?_ ?_ n
  · refine (ChainWrite.observes_blocks g.block.hash).foldl_of_set persist.db
      (fun w hw r hr => ?_) (w := .block g.block) ?_ (if_pos rfl)
    · rcases g.inMemory.onBlocks_eq_some .genesis hlen (List.mem_of_mem_take hw) hr with
        ⟨-, hr⟩ | ⟨y, hy, x, hx, -, ⟨-, hr⟩ | ⟨hk, -⟩⟩
      · exact hr
      · rw [hr, g.eq_of_getBlock hy hx]
      · exact absurd (g.keeps_block persist hy) hk
    · refine Precedes.mem_take ?_ hhead
      rw [ChainPersist.canonicalWrites]
      exact Precedes.of_mem (l := [ChainWrite.block g.block]) (by simp) (by simp)
  · refine ((ChainWrite.observes_heights _).foldl_of_unset persist.db fun w hw => ?_).trans ?_
    · cases hr : w.onHeights g.block.header.number with
      | none => rfl
      | some r =>
        obtain ⟨y, hy, -, -, rfl⟩ :=
          g.inMemory.onHeights_eq_some .genesis hlen (List.mem_of_mem_take hw) hr
        rw [List.mem_singleton.mp hy] at hw
        exact absurd hw hcut
    · rw [hempty]
      exact Std.ExtTreeMap.getElem?_empty

/-- The height of the genesis is written: the node starts there, with or without the snapshot. -/
theorem startsAt_of_height (hg : g.state.RootsCurrent) (hempty : persist.db = ChainDb.empty)
    (hkeep : 0 < persist.archiveKeep)
    (hmem : ChainWrite.height g.block.header.number g.block.hash
      ∈ (persist.canonicalWrites g.store g.block).take k)
    (archive : Bool) (archiveKeep : UInt64) :
    StartsAt g (ChainPersist.openWith (persist.crashed g.store g.block k) archive archiveKeep)
      g.block g.state := by
  have hlen : [g.block].length < 2 ^ 64 := by norm_num
  have hnone : persist.db.snapshots[g.block.hash]? = none := by
    rw [hempty]
    exact Std.ExtTreeMap.getElem?_empty
  obtain ⟨hdisk, hblocks⟩ := g.inMemory.onDisk_crashed .genesis hlen hg hkeep
    (fun y hy _ => ⟨List.mem_singleton.mp hy, g.getBlock_block⟩)
    (fun y hy _ x hx => g.eq_of_getBlock hy hx ▸ g.valid)
    (fun y ys snap hsuf => by cases List.suffix_nil.mp hsuf) hnone hmem
  have hfull : ∀ y ∈ [g.block], (persist.crashed g.store g.block k).version y = y := by
    intro y hy
    have hkept := (hblocks y hy g.block (List.mem_singleton.mp hy ▸ g.getBlock_block)).1
      (g.keeps_block persist hy)
    rw [List.mem_singleton.mp hy] at hkept ⊢
    exact ChainDb.version_eq hkept
  have hdisk : OnDisk g g.block [] (ChainPersist.openWith
      (persist.crashed g.store g.block k) archive archiveKeep).db := hdisk
  cases hsnap : (persist.crashed g.store g.block k).snapshots[g.block.hash]? with
  | some snap => exact hdisk.startsAt_of_snapshot .genesis hlen hsnap
  | none => exact hdisk.startsAt_of_full .genesis hlen hg hfull hsnap

/-- **A node recovers from a crash during the first call exactly if the cut is safe.** -/
theorem recovers_first_iff (hg : g.state.RootsCurrent) (hempty : persist.db = ChainDb.empty)
    (hkeep : 0 < persist.archiveKeep) (k : ℕ) (archive : Bool) (archiveKeep : UInt64) :
    Recovers g (ChainPersist.openWith (persist.crashed g.store g.block k) archive archiveKeep) none
        g.store.head
      ↔ SafeCut persist none g.store g.block k := by
  constructor
  · rintro ⟨n, -, hrun, -⟩ head hhead
    cases g.headBlock_store.symm.trans hhead
    refine .inr ?_
    by_cases hbefore : ChainWrite.head g.block.hash
        ∈ (persist.canonicalWrites g.store g.block).take k
    swap
    · exact .inl hbefore
    have hdrops : persist.DropsNothing g.store :=
      (g.inMemory.dropsNothing_iff .genesis (by norm_num)).mpr fun y hy =>
        .inl (g.keeps_block persist hy)
    refine .inr (.inr ⟨?_, .inl hdrops⟩)
    by_contra hmem
    exact g.runNode_ne_ok hempty hbefore hmem archive archiveKeep n hrun
  · intro hcut
    rcases hcut g.block g.headBlock_store with hstay | hcut | ⟨⟨h, hh, -⟩, -⟩ | ⟨hmem, -⟩
    · rw [g.head] at hstay
      cases hstay
    · -- nothing but the block is there, and the node starts afresh
      refine StartsAt.recovers (s := g.state) ⟨_, Node.runNode_of_head_eq_none g ?_, rfl, g.head,
        g.block, g.headBlock_store, rfl⟩ .genesis (.inr g.head.symm)
      refine (ChainWrite.observes_head.foldl_of_unset persist.db fun w hw => ?_).trans ?_
      · rw [ChainPersist.eq_block_of_head_notMem g.headBlock_store hcut hw]
        rfl
      · rw [hempty]
        rfl
    · cases hh
    · exact (g.startsAt_of_height hg hempty hkeep hmem archive archiveKeep).recovers .genesis
        (.inr g.head.symm)

end Genesis

/-! ### Any call -/

/-- **A node recovers from a crash during `persist_canonical` exactly if the cut is safe.**  The
database comes from complete calls in any sessions in which all accepted imports were covered, and
the restart may have any policy. -/
theorem PersistCall.recovers_iff (g : AllocGenesis) {ops : List SessionOp} {persist : ChainPersist}
    {old : Option H256} {store : BlockStore} {block : Block}
    (hcall : PersistCall g.toGenesis ops persist old store block) (hlen : ops.length + 1 < 2 ^ 64)
    (hcf : CollisionFree (familyEncodings g.toGenesis { b | SessionOp.importBlock b ∈ ops }))
    (k : ℕ) (archive : Bool) (archiveKeep : UInt64)
    (hroots : ∀ n s, Node.runNode g.toGenesis
        (ChainPersist.openWith (persist.crashed store block k) archive archiveKeep) = .ok n →
      store.head.bind store.stateAt = some s →
      CollisionFree (n.chain.live.rootEncodings ∪ s.rootEncodings)) :
    Recovers g.toGenesis
        (ChainPersist.openWith (persist.crashed store block k) archive archiveKeep) old store.head
      ↔ SafeCut persist old store block k := by
  cases hcall with
  | genesis archive₀ archiveKeep₀ =>
    exact g.recovers_first_iff g.rootsCurrent rfl (ChainPersist.archiveKeep_openWith _ _ _) k
      archive archiveKeep
  | @imported archive₀ archiveKeep₀ ops n _ outcome cs' hrun hc himport =>
    rw [List.length_append, List.length_singleton] at hlen
    obtain ⟨n', z, zs, s, hrun', hs, hle, -⟩ :=
      SessionOp.session_run (S := { x | SessionOp.importBlock x ∈ ops ++ [.importBlock block] })
        g.rootsCurrent g.stub_block ops (fun x hx => List.mem_append_left _ hx) (by omega)
        (.inl fun before x after heq => hc before x (after ++ [.importBlock block]) (by simp [heq]))
    cases hrun.symm.trans hrun'
    have hb : block ∈ { x | SessionOp.importBlock x ∈ ops ++ [.importBlock block] } := by simp
    rcases ChainState.importAndApply_cases hs.memory.inv block with
      ⟨e, he⟩ | ⟨pre, outs, post, ctx, outcome', store', cs'', heq, ha⟩
    · cases he.symm.trans himport
    cases heq.symm.trans himport
    obtain ⟨z', zs', s', hp⟩ := hs.succession (by omega) ha (hc ops block [] rfl n _ _ hrun himport)
    have hwhole : ∀ y ∈ z' :: zs', ∀ x, x.VersionOf y → x.validate = .ok () → x = y :=
      fun y hy x hv hvalid => g.eq_of_version hcf (hs.known_advances hb hp.advances y hy)
        (hp.history.valid y hy) hv hvalid
    have hstate : cs'.store.head.bind cs'.store.stateAt = some s' := by
      rw [hp.memory.head, Option.bind_some, stateAt, hp.snapshot, Option.map_some, StateDB.fork_eq]
    constructor
    · exact hs.safeCut_of_recovers g.rootsCurrent hcf hb hp archive archiveKeep
        fun n' hn' => hroots n' s' hn' hstate
    · exact hs.recovers_of_safeCut (by omega) g.rootsCurrent hcf hb hp archive archiveKeep hwhole

end

namespace Devnet

/-! ### Cuts that are not safe -/

/-- The call of `persist_canonical` after an import, in a single session. -/
theorem persistCall_imported {archive : Bool} {archiveKeep : UInt64} {bs : List Block} {n : Node}
    (hlen : bs.length + 2 < 2 ^ 64)
    (hrun : SessionOp.run genesis archive archiveKeep (bs.map .importBlock) = some n) {b : Block}
    (hok : (n.chain.importAndApply b).1.toOption.isSome = true) :
    PersistCall genesis (bs.map .importBlock ++ [.importBlock b]) n.persist n.chain.store.head
      (n.chain.importAndApply b).2.store b := by
  have hpol : SessionOp.FixedPolicy archive archiveKeep
      (bs.map .importBlock ++ [.importBlock b]) := by
    intro a k hmem
    simp at hmem
  have hc : SessionOp.CoveredRun genesis archive archiveKeep
      (bs.map .importBlock ++ [.importBlock b]) :=
    hpol.coveredRun allocGenesis.rootsCurrent allocGenesis.stub_block (by simpa using hlen)
  cases himport : n.chain.importAndApply b with
  | mk result cs' =>
    rw [himport] at hok
    cases result with
    | error e => cases hok
    | ok outcome => exact .imported hrun hc himport

/-- A restart after a crash during the call of `persist_canonical` for a block. -/
def restarted (n : Node) (b : Block) (k : ℕ) : Except StartError Node :=
  Node.runNode genesis (ChainPersist.openWith
    (n.persist.crashed (n.chain.importAndApply b).2.store b k)
    n.persist.archive n.persist.archiveKeep)

/-- The reason why a node does not start. -/
def startError : Except StartError Node → Option StartError
  | .error e => some e
  | .ok _ => none

/-- The root of the live state is that of the head. -/
def LiveAtHead (n : Node) : Prop :=
  ∀ head ∈ n.chain.store.headBlock, n.chain.live.rootHash.1 = head.header.stateRoot

instance (n : Node) : Decidable (LiveAtHead n) :=
  inferInstanceAs (Decidable (∀ head ∈ n.chain.store.headBlock, _))

/-- **Crashes from which a node does not recover.**  If the head is written and its height is not,
the database cannot be loaded.  If the snapshot of the head is missing and bodies were dropped, the
node replays blocks without their transactions and starts with a state that is not that of its
head. -/
theorem crash_unrecovered :
    (∃ n, PersistCall genesis [.importBlock blockA] n.persist n.chain.store.head
        (n.chain.importAndApply blockA).2.store blockA
      ∧ startError (restarted n blockA 2) = some (.load (.heightMissing 1)))
    ∧ ∃ n n', PersistCall genesis [.importBlock blockA, .importBlock childA] n.persist
        n.chain.store.head (n.chain.importAndApply childA).2.store childA
      ∧ restarted n childA 9 = .ok n' ∧ ¬ LiveAtHead n' := by
  have hfirst : ((SessionOp.run genesis true 256 ([].map .importBlock)).map fun n =>
      ((n.chain.importAndApply blockA).1.toOption.isSome, startError (restarted n blockA 2)))
      = some (true, some (.load (.heightMissing 1))) := by decide +kernel
  have hsecond : ((SessionOp.run genesis false 1 ([blockA].map .importBlock)).map fun n =>
      ((n.chain.importAndApply childA).1.toOption.isSome,
        (restarted n childA 9).toOption.map fun n' => decide (LiveAtHead n')))
      = some (true, some false) := by decide +kernel
  constructor
  · obtain ⟨n, hrun, heq⟩ := Option.map_eq_some_iff.mp hfirst
    obtain ⟨hok, herr⟩ := Prod.mk.inj heq
    exact ⟨n, persistCall_imported (by decide) hrun hok, herr⟩
  · obtain ⟨n, hrun, heq⟩ := Option.map_eq_some_iff.mp hsecond
    obtain ⟨hok, heq⟩ := Prod.mk.inj heq
    obtain ⟨n', hn', hlive⟩ := Option.map_eq_some_iff.mp heq
    refine ⟨n, n', persistCall_imported (by decide) hrun hok, ?_, of_decide_eq_false hlive⟩
    cases hres : restarted n childA 9 with
    | error e =>
      rw [hres] at hn'
      cases hn'
    | ok n'' =>
      rw [hres] at hn'
      cases hn'
      rfl

/-- The height of a block is among the first writes. -/
def heightWritten (n : Node) (b : Block) (k : ℕ) : Bool :=
  ((n.persist.canonicalWrites (n.chain.importAndApply b).2.store b).take k).any fun
    | .height number hash => number == b.header.number && hash == b.hash
    | _ => false

/-- What is hashed for the root of a state. -/
def rootBytes (s : StateDB) : List (List UInt8) :=
  (patriciaNodes s.rootHash.2.accountPairs).2.map Prod.snd

theorem mem_rootBytes {s : StateDB} {e : List UInt8} (he : e ∈ s.rootEncodings) :
    e ∈ rootBytes s := by
  obtain ⟨h, hmem⟩ := he
  exact List.mem_map.mpr ⟨(h, e), hmem, rfl⟩

/-- The state that a node has after the import of a block. -/
def stateOf (n : Node) (b : Block) : Option StateDB :=
  (n.chain.importAndApply b).2.store.head.bind (n.chain.importAndApply b).2.store.stateAt

/-- Two states have no collision in what is hashed for their roots. -/
def Apart (s s' : StateDB) : Prop :=
  ∀ x ∈ rootBytes s ++ rootBytes s', ∀ y ∈ rootBytes s ++ rootBytes s',
    keccak256 x = keccak256 y → x = y

instance (s s' : StateDB) : Decidable (Apart s s') := inferInstanceAs (Decidable (∀ x ∈ _, _))

/-- A node keeps one body, and both blocks are empty: it recovers although the crash comes before
the snapshot and after the first body was dropped. -/
theorem recovers_iff_childB : ∃ n, SessionOp.run genesis false 1 [.importBlock blockB] = some n
    ∧ PersistCall genesis [.importBlock blockB, .importBlock childB] n.persist n.chain.store.head
      (n.chain.importAndApply childB).2.store childB
    ∧ (n.persist.crashed (n.chain.importAndApply childB).2.store childB 9).blocks[blockB.hash]?
      = none
    ∧ SafeCut n.persist n.chain.store.head (n.chain.importAndApply childB).2.store childB 9
    ∧ ∃ n' head, restarted n childB 9 = .ok n' ∧ n'.chain.store.headBlock = some head
      ∧ n'.chain.live.rootHash.1 = head.header.stateRoot := by
  have heval : ((SessionOp.run genesis false 1 ([blockB].map .importBlock)).map fun n =>
      ((n.chain.importAndApply childB).1.toOption.isSome,
        (n.chain.importAndApply childB).2.store.headBlock, heightWritten n childB 9,
        decide (n.persist.DropsNothing (n.chain.importAndApply childB).2.store),
        (n.persist.crashed (n.chain.importAndApply childB).2.store childB 9).blocks[blockB.hash]?,
        (restarted n childB 9).toOption.all fun n' => (stateOf n childB).all fun s =>
          decide (Apart n'.chain.live s)))
      = some (true, some childB, true, true, none, true) := by decide +kernel
  have hfree : ∀ x ∈ [genesisBlock, blockB, childB].flatMap Block.encodings,
      ∀ y ∈ [genesisBlock, blockB, childB].flatMap Block.encodings,
        keccak256 x = keccak256 y → x = y := by decide +kernel
  have hcf : CollisionFree (familyEncodings genesis { b | SessionOp.importBlock b
      ∈ [SessionOp.importBlock blockB, SessionOp.importBlock childB] }) := by
    refine CollisionFree.of_list hfree ?_
    rintro e ⟨b, hb, he⟩
    refine List.mem_flatMap.mpr ⟨b, ?_, he⟩
    rcases hb with rfl | hb
    · exact List.mem_cons_self
    · simpa using Or.inr hb
  obtain ⟨n, hrun, heq⟩ := Option.map_eq_some_iff.mp heval
  simp only [Prod.mk.injEq] at heq
  obtain ⟨hok, hhead, hheight, hdrops, hdropped, hapart⟩ := heq
  have hcall := persistCall_imported (by decide) hrun hok
  have hcut : SafeCut n.persist n.chain.store.head (n.chain.importAndApply childB).2.store
      childB 9 := by
    intro head hmem
    cases hhead.symm.trans hmem
    obtain ⟨w, hw, heq⟩ := List.any_eq_true.mp hheight
    refine .inr (.inr (.inr ⟨?_, .inl (of_decide_eq_true hdrops)⟩))
    cases w with
    | height number hash =>
      simp only [Bool.and_eq_true, beq_iff_eq] at heq
      rwa [heq.1, heq.2] at hw
    | _ => cases heq
  have hroots : ∀ n' s, restarted n childB 9 = .ok n' → stateOf n childB = some s →
      CollisionFree (n'.chain.live.rootEncodings ∪ s.rootEncodings) := by
    intro n' s hn' hs
    rw [hn', hs] at hapart
    refine CollisionFree.of_list (of_decide_eq_true hapart : Apart n'.chain.live s) fun e he => ?_
    exact List.mem_append.mpr (he.imp mem_rootBytes mem_rootBytes)
  obtain ⟨n', head, hrun', -, hhead', hroot⟩ := (PersistCall.recovers_iff allocGenesis hcall
    (by decide) hcf 9 n.persist.archive n.persist.archiveKeep hroots).mpr hcut
  exact ⟨n, hrun, hcall, hdropped, hcut, n', head, hrun', hhead', hroot⟩

end Devnet

end Ivory
