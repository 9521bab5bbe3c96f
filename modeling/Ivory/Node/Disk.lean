import Ivory.Node.Archive

/-!
# The disk against an archive

The disk holds copies of blocks as the store does, and headers of those whose
bodies were dropped.  Both are compared with an archive of the accepted blocks.

* `DiskOk`: every block, header and snapshot on disk fits the archive.
* `HeadOnDisk`: the height index lists blocks of the chain of the head.
* `DiskOk.persistCanonical`, `HeadOnDisk.persistCanonical`: **writing a store to
  disk leaves both.**
* `Loaded`, `DiskOk.loadInto`: **what is loaded from disk fits the archive.**
* `DiskOk.runNode`: a node that restarts on a chain without transactions.
* `NodeFits`: all of it for a node.
-/

namespace Ivory

open BlockStore
open Ancestry (Path)

/-! ### The disk -/

/-- Everything on disk fits the archive. -/
structure DiskOk (A : Table H256 Block) (db : ChainDb) : Prop where
  blocks : ∀ (h : H256) b, db.blocks[h]? = some b → Copy A h b
  headers : ∀ (h : H256) hd, db.headers[h]? = some hd → ∃ a, A[h]? = some a ∧ a.header = hd
  snapshots : ∀ (h : H256) snap, db.snapshots[h]? = some snap →
    Counted A h (StateDB.fromSnapshot snap)

/-- The head on disk has the chain `l`, and the height index lists blocks of `l`. -/
structure HeadOnDisk (A : Table H256 Block) (db : ChainDb) (h : H256) (l : List H256) : Prop where
  head : db.head = some h
  path : ArchivePath A h l
  heights : ∀ a, A[h]? = some a → ∀ m ≤ a.header.number, ∃ k ∈ l, db.heights[m]? = some k

section Writes

variable [Keccak] {A : Table H256 Block}

/-- A write that fits the archive. -/
def ChainWrite.Ok (A : Table H256 Block) : ChainWrite → Prop
  | .block b => Copy A b.hash b
  | .header hd => ∃ a, A[hd.hash]? = some a ∧ a.header = hd
  | .snapshot h snap => Counted A h (StateDB.fromSnapshot snap)
  | _ => True

theorem DiskOk.write {db : ChainDb} (hd : DiskOk A db) {w : ChainWrite} (hw : w.Ok A) :
    DiskOk A (db.write w) := by
  cases w with
  | block b =>
    refine { hd with blocks := fun h x hx => ?_ }
    change (db.blocks.insert b.hash b)[h]? = some x at hx
    rw [Table.get_insert] at hx
    split at hx
    · next he =>
      cases hx
      rw [he]
      exact hw
    · exact hd.blocks h x hx
  | header hdr =>
    refine { hd with headers := fun h x hx => ?_ }
    change (db.headers.insert hdr.hash hdr)[h]? = some x at hx
    rw [Table.get_insert] at hx
    split at hx
    · next he =>
      cases hx
      rw [he]
      exact hw
    · exact hd.headers h x hx
  | dropBlock hash =>
    refine { hd with blocks := fun h x hx => ?_ }
    change (db.blocks.erase hash)[h]? = some x at hx
    rw [Table.get_erase] at hx
    split at hx
    · cases hx
    · exact hd.blocks h x hx
  | snapshot hash snap =>
    refine { hd with snapshots := fun h x hx => ?_ }
    change (db.snapshots.insert hash snap)[h]? = some x at hx
    rw [Table.get_insert] at hx
    split at hx
    · next he =>
      cases hx
      rw [he]
      exact hw
    · exact hd.snapshots h x hx
  | head hash => exact { hd with }
  | height number hash => exact { hd with }
  | trieNode hash bytes => exact { hd with }

theorem DiskOk.foldl_write {db : ChainDb} (hd : DiskOk A db) {ws : List ChainWrite}
    (hw : ∀ w ∈ ws, w.Ok A) : DiskOk A (ws.foldl ChainDb.write db) :=
  List.foldlRecOn ws ChainDb.write (motive := DiskOk A) hd fun _ h w hm => h.write (hw w hm)

section Persist

variable {persist : ChainPersist} {store : BlockStore} {block : Block}

/-- **Writing a store to disk leaves what fits the archive.** -/
theorem DiskOk.persistCanonical (hd : DiskOk A persist.db) (hi : StoreInv store)
    (hc : Copies A store) (hs : CountedSnapshots A store) (hb : Copy A block.hash block) :
    DiskOk A (persist.persistCanonical store block).db := by
  refine hd.foldl_write fun w hw => ?_
  cases hh : store.headBlock with
  | none =>
    rw [ChainPersist.canonicalWrites, hh, List.mem_singleton] at hw
    cases hw
    exact hb
  | some head =>
    obtain ⟨h, hhead, hx⟩ := Option.bind_eq_some_iff.mp hh
    obtain ⟨l, hl⟩ := hi.path h head hx
    rcases (ChainPersist.mem_canonicalWrites hh).mp hw with rfl | rfl | ⟨m, b, -, hm, hw⟩
    · exact hb
    · trivial
    · obtain ⟨hget, -⟩ := hi.of_getBlockByNumber hhead hl hm
      rcases hw with hw | hw
      · obtain ⟨a, ha, hha, -⟩ := hc b.hash b hget
        rcases ChainPersist.mem_blockWrites.mp hw with ⟨-, rfl⟩ | ⟨-, rfl | rfl⟩ | rfl
        · exact hc b.hash b hget
        · exact ⟨a, ha, hha.symm⟩
        · trivial
        · trivial
      · rcases ChainPersist.mem_snapshotWrites hw with ⟨_, _, rfl⟩ | ⟨s, hget', rfl⟩
        · trivial
        · show Counted A b.hash (StateDB.fromSnapshot _)
          rw [StateDB.fromSnapshot_toSnapshot]
          exact (hs b.hash s hget').congr fun a => (s.ledger_rootHash a).1

/-- **After a store was written to disk, the head on disk is its head.** -/
theorem HeadOnDisk.persistCanonical (hi : StoreInv store) (hc : Copies A store) {h : H256}
    {l : List H256} (hhead : store.head = some h) (hl : store.IsPath h l) :
    HeadOnDisk A (persist.persistCanonical store block).db h l := by
  obtain ⟨head, hx⟩ := hl.get_isSome
  have hkey : head.hash = h := hi.keyed h head hx
  have hh : store.headBlock = some head := by rw [headBlock, hhead, Option.bind_some, hx]
  have hwrites : ∀ w ∈ persist.canonicalWrites store block,
      (∀ h', w.onHead = some h' → h' = some h)
        ∧ ∀ m k, w.onHeights m = some k → ∃ k', k = some k' ∧ k' ∈ l := by
    -- the other columns say nothing of either
    have hsilent : ∀ {w : ChainWrite}, w.onHead = none → (∀ m, w.onHeights m = none) →
        (∀ h', w.onHead = some h' → h' = some h)
          ∧ ∀ m k, w.onHeights m = some k → ∃ k', k = some k' ∧ k' ∈ l := by
      intro w hhd hht
      refine ⟨fun h' he => ?_, fun m k he => ?_⟩
      · cases hhd.symm.trans he
      · cases (hht m).symm.trans he
    intro w hw
    rcases (ChainPersist.mem_canonicalWrites hh).mp hw with rfl | rfl | ⟨m, b, -, hb, hw | hw⟩
    · exact hsilent rfl fun _ => rfl
    · refine ⟨fun h' he => ?_, fun m k he => ?_⟩
      · cases he
        rw [hkey]
      · cases he
    · rcases ChainPersist.mem_blockWrites.mp hw with ⟨-, rfl⟩ | ⟨-, rfl | rfl⟩ | rfl
      · exact hsilent rfl fun _ => rfl
      · exact hsilent rfl fun _ => rfl
      · exact hsilent rfl fun _ => rfl
      · refine ⟨fun h' he => ?_, fun m' k he => ?_⟩
        · cases he
        · simp only [ChainWrite.onHeights] at he
          split at he
          · cases he
            exact ⟨_, rfl, (hi.of_getBlockByNumber hhead hl hb).2⟩
          · cases he
    · rcases ChainPersist.mem_snapshotWrites hw with ⟨_, _, rfl⟩ | ⟨_, -, rfl⟩
      · exact hsilent rfl fun _ => rfl
      · exact hsilent rfl fun _ => rfl
  refine ⟨ChainWrite.observes_head.foldl_induction (Q := (· = some h)) _ _
    (fun w hw => (hwrites w hw).1) (.inl ⟨.head head.hash, ?_, _, rfl⟩), hc.archivePath hl,
    fun a ha m hm => ?_⟩
  · exact (ChainPersist.mem_canonicalWrites hh).mpr (.inr (.inl rfl))
  · obtain ⟨a', ha', hha, -⟩ := hc h head hx
    cases ha.symm.trans ha'
    rw [← hha] at hm
    obtain ⟨b, hb, -, hbl⟩ := hi.getBlockByNumber_isSome hhead hx hl hm
    have hmem : ChainWrite.height m b.hash ∈ persist.canonicalWrites store block := by
      refine (ChainPersist.mem_canonicalWrites hh).mpr (.inr (.inr ⟨m, b, hm, hb, .inl ?_⟩))
      exact List.mem_append_right _ (List.mem_singleton_self _)
    obtain ⟨k, hk, hkl⟩ := (ChainWrite.observes_heights m).foldl_induction
      (Q := fun k => ∃ k', k = some k' ∧ k' ∈ l) (persist.canonicalWrites store block) persist.db
      (fun w hw => (hwrites w hw).2 m) (.inl ⟨_, hmem, _, if_pos rfl⟩)
    exact ⟨k, hkl, hk⟩

theorem persistTrieNodes_eq (persist : ChainPersist) (nodes : Written) :
    ∃ t, (persist.persistTrieNodes nodes).db = { persist.db with trieNodes := t } := by
  refine List.foldlRecOn (ChainPersist.trieWrites nodes) ChainDb.write
    (motive := fun db => ∃ t, db = { persist.db with trieNodes := t })
    ⟨persist.db.trieNodes, rfl⟩ ?_
  rintro db ⟨t, rfl⟩ w hw
  obtain ⟨e, -, rfl⟩ := List.mem_map.mp hw
  exact ⟨_, rfl⟩

theorem DiskOk.persistTrieNodes (hd : DiskOk A persist.db) (nodes : Written) :
    DiskOk A (persist.persistTrieNodes nodes).db := by
  obtain ⟨t, ht⟩ := persistTrieNodes_eq persist nodes
  rw [ht]
  exact { hd with }

theorem HeadOnDisk.persistTrieNodes {h : H256} {l : List H256} (hd : HeadOnDisk A persist.db h l)
    (nodes : Written) : HeadOnDisk A (persist.persistTrieNodes nodes).db h l := by
  obtain ⟨t, ht⟩ := persistTrieNodes_eq persist nodes
  rw [ht]
  exact { hd with }

end Persist

end Writes

/-! ### Loading -/

section Loading

variable {A : Table H256 Block} {l : List H256}

theorem HeadOnDisk.copy_of_height {persist : ChainPersist} {h : H256} {a b : Block}
    (hh : HeadOnDisk A persist.db h l) (hd : DiskOk A persist.db) (ha : A[h]? = some a) {m : UInt64}
    (hm : m ≤ a.header.number) (hb : persist.getBlockByHeight m = some b) :
    ∃ k ∈ l, Copy A k b := by
  obtain ⟨k, hk, hget⟩ := hh.heights a ha m hm
  rw [ChainPersist.getBlockByHeight, hget, Option.bind_some] at hb
  exact ⟨k, hk, hd.blocks k b hb⟩

/-- A block is archived under its hash. -/
def Keyed [Keccak] (A : Table H256 Block) : Prop := ∀ (h : H256) a, A[h]? = some a → a.hash = h

/-- A store whose blocks are copies of blocks of the chain `l`. -/
structure Holds [Keccak] (A : Table H256 Block) (l : List H256) (store : BlockStore) : Prop where
  inv : StoreInv store
  copies : Copies A store
  within : ∀ h b, store.getBlock h = some b → h ∈ l
  snapshots : CountedSnapshots A store

/-- Such a store with a head. -/
structure Loaded [Keccak] (A : Table H256 Block) (l : List H256) (store : BlockStore) : Prop
    extends Holds A l store where
  head : ∃ t, store.head = some t

section

variable [Keccak] {store store' : BlockStore}

theorem holds_new (c : PoAConsensus) : Holds A l (BlockStore.new c) := by
  have hnone : ∀ h, (BlockStore.new c).getBlock h = none := fun h => Std.ExtTreeMap.getElem?_empty
  refine ⟨storeInv_new c, fun h x hx => ?_, fun h x hx => ?_, fun h s hs => ?_⟩
  · rw [hnone] at hx
    cases hx
  · rw [hnone] at hx
    cases hx
  · rw [BlockStore.new, Std.ExtTreeMap.getElem?_empty] at hs
    cases hs

theorem Loaded.recordState (hL : Loaded A l store) {h : H256} {s : StateDB} (hs : Counted A h s) :
    Loaded A l (store.recordState h s) :=
  ⟨⟨hL.inv.of_sameHeaders (sameHeaders_recordState _ _ _), hL.copies, hL.within,
    hL.snapshots.recordState hs⟩, hL.head⟩

theorem Loaded.loadSnapshot {persist : ChainPersist} (hL : Loaded A l store)
    (hd : DiskOk A persist.db) (m : UInt64) : Loaded A l (persist.loadSnapshot store m) := by
  unfold ChainPersist.loadSnapshot
  split
  · exact hL
  · next b hb =>
    split
    · exact hL
    · next s hs =>
      obtain ⟨snap, hsnap, rfl⟩ := Option.map_eq_some_iff.mp hs
      exact hL.recordState (hd.snapshots _ snap hsnap)

end

variable [Keccak] [Ed25519] {store store' : BlockStore}

theorem Holds.inserted (hL : Holds A l store) {b : Block} {outcome : InsertOutcome} {k : H256}
    (hA : Keyed A) (hb : Copy A k b) (hk : k ∈ l) (hins : Insertable store b)
    (hn : Inserted store b outcome store') : Loaded A l store' := by
  obtain ⟨a, ha, hha, hsub⟩ := hb
  have hbk : b.hash = k := by
    rw [Block.hash, hha]
    exact hA k a ha
  refine ⟨⟨hL.inv.inserted hins hn, fun h x hx => ?_, fun h x hx => ?_, fun h s hs => ?_⟩,
    _, hn.newHead⟩
  · rcases hn.of_getBlock hx with ⟨rfl, rfl⟩ | hx
    · rw [hbk]
      exact ⟨a, ha, hha, hsub⟩
    · exact hL.copies h x hx
  · rcases hn.of_getBlock hx with ⟨rfl, rfl⟩ | hx
    · rwa [hbk]
    · exact hL.within h x hx
  · rw [hn.snapshots] at hs
    exact hL.snapshots h s hs

variable {persist : ChainPersist} {h : H256} {a : Block}

/-- **One height is loaded.** -/
theorem Holds.loadHeight (hL : Holds A l store) (hh : HeadOnDisk A persist.db h l)
    (hd : DiskOk A persist.db) (hA : Keyed A) (ha : A[h]? = some a) {m : UInt64}
    (hm : m ≤ a.header.number) (hload : persist.loadHeight store m = .ok store') :
    Loaded A l store' := by
  unfold ChainPersist.loadHeight at hload
  split at hload
  · next b hb =>
    obtain ⟨k, hk, hcopy⟩ := hh.copy_of_height hd ha hm hb
    rcases insertBlock_cases hL.inv b with ⟨e, he⟩ | ⟨outcome, store₁, heq, hins, -, hn⟩
    · rw [he] at hload
      cases hload
    · rw [heq] at hload
      cases hload
      exact hL.inserted hA hcopy hk hins hn
  · obtain ⟨k, hk, hget⟩ := hh.heights a ha m hm
    simp only [hget] at hload
    split at hload
    · cases hload
    · next hdr hhdr =>
      obtain ⟨a', ha', hha'⟩ := hd.headers k hdr hhdr
      have hcopy : Copy A k ⟨hdr, Vec.empty, Vec.empty⟩ :=
        ⟨a', ha', hha'.symm, fun tx htx => absurd htx List.not_mem_nil⟩
      rcases insertHeader_checks store hdr with ⟨e, he⟩ | ⟨hv, heq⟩
      · rw [he] at hload
        cases hload
      · rw [heq] at hload
        rcases insertValidated_cases (b := ⟨hdr, Vec.empty, Vec.empty⟩) hL.inv hv with
          he | ⟨outcome, store₁, heq', hins, hn⟩
        · rw [he] at hload
          cases hload
        · rw [heq'] at hload
          cases hload
          exact hL.inserted hA hcopy hk hins hn

theorem Loaded.foldlM_loadHeight (hh : HeadOnDisk A persist.db h l) (hd : DiskOk A persist.db)
    (hA : Keyed A) (ha : A[h]? = some a) :
    ∀ (ms : List UInt64) {store : BlockStore}, Loaded A l store → (∀ m ∈ ms, m ≤ a.header.number) →
      ms.foldlM persist.loadHeight store = .ok store' → Loaded A l store' := by
  intro ms
  induction ms with
  | nil =>
    intro store hL _ hload
    cases hload
    exact hL
  | cons m ms ih =>
    intro store hL hms hload
    rw [List.foldlM_cons] at hload
    cases hone : persist.loadHeight store m with
    | error e =>
      rw [hone] at hload
      cases hload
    | ok store₁ =>
      rw [hone] at hload
      exact ih (hL.loadHeight hh hd hA ha (hms m List.mem_cons_self) hone)
        (fun m' hm' => hms m' (List.mem_cons_of_mem _ hm')) hload

/-- **What is loaded from disk fits the archive**: copies of blocks of the chain that was
written. -/
theorem DiskOk.loadInto (hd : DiskOk A persist.db) (hh : HeadOnDisk A persist.db h l) (hA : Keyed A)
    {c : PoAConsensus} {genesis : Block} {height : Option UInt64}
    (hload : persist.loadInto (BlockStore.new c) genesis = .ok (height, store)) :
    Loaded A l store ∧ height ≠ none := by
  unfold ChainPersist.loadInto at hload
  rw [hh.head] at hload
  simp only at hload
  split at hload
  · cases hload
  next head hhead =>
  obtain ⟨a, ha, hha, -⟩ := hd.blocks h head hhead
  split at hload
  · cases hload
  next b hb =>
  split at hload
  · cases hload
  obtain ⟨k, hk, hcopy⟩ := hh.copy_of_height hd ha UInt64.zero_le hb
  rcases insertGenesis_checks (BlockStore.new c) b with ⟨e, he⟩ | ⟨hv, -, -, heq⟩
  · rw [he] at hload
    cases hload
  rcases insertValidated_cases (storeInv_new c) hv with he | ⟨outcome, store₁, heq', hins, hn⟩
  · rw [heq, he] at hload
    cases hload
  rw [heq, heq'] at hload
  simp only at hload
  split at hload
  · cases hload
  next store₂ hfold =>
  cases hload
  have h₁ := (holds_new c).inserted hA hcopy hk hins hn
  have h₂ := Loaded.foldlM_loadHeight hh hd hA ha _ h₁
    (fun m hm => by rw [← hha]; exact (mem_heightsBetween.mp hm).2) hfold
  refine ⟨?_, Option.some_ne_none _⟩
  exact List.foldlRecOn _ _ (motive := Loaded A l) h₂ fun _ h m _ => h.loadSnapshot hd m

end Loading

/-! ### Restarting -/

section Restart

variable [Keccak] {A : Table H256 Block} {l : List H256} {store : BlockStore} {k : H256} {b : Block}
  {s : StateDB}

namespace Loaded

theorem pathTxs_eq_nil (hL : Loaded A l store) (hnil : pathTxs A l = [])
    (hb : store.getBlock k = some b) : ∃ l', ArchivePath A k l' ∧ pathTxs A l' = [] := by
  obtain ⟨l', hl'⟩ := hL.inv.path k b hb
  refine ⟨l', hL.copies.archivePath hl', List.eq_nil_iff_forall_not_mem.mpr fun tx htx => ?_⟩
  obtain ⟨j, hj, a, ha, htx⟩ := mem_pathTxs.mp htx
  obtain ⟨_, hj', -⟩ := hl'.of_mem j hj
  obtain ⟨x, hx⟩ := hj'.get_isSome
  have hmem : tx ∈ pathTxs A l := mem_pathTxs.mpr ⟨j, hL.within j x hx, a, ha, htx⟩
  rw [hnil] at hmem
  cases hmem

theorem transactions_eq_nil (hL : Loaded A l store) (hnil : pathTxs A l = [])
    (hb : store.getBlock k = some b) : b.transactions.toList = [] := by
  refine List.eq_nil_iff_forall_not_mem.mpr fun tx htx => ?_
  obtain ⟨a, ha, -, hsub⟩ := hL.copies k b hb
  have hmem : tx ∈ pathTxs A l := mem_pathTxs.mpr ⟨k, hL.within k b hb, a, ha, hsub tx htx⟩
  rw [hnil] at hmem
  cases hmem

theorem counted (hL : Loaded A l store) (hnil : pathTxs A l = []) (hb : store.getBlock k = some b)
    (hzero : ∀ a, s.nonce a = 0) : Counted A k s := by
  obtain ⟨l', hl', hnil'⟩ := hL.pathTxs_eq_nil hnil hb
  exact counted_of_nil hl' hnil' hzero

theorem chainFits (hL : Loaded A l store) (hnil : pathTxs A l = []) (hzero : ∀ a, s.nonce a = 0)
    (pool : TransactionPool) : ChainFits A ⟨store, s, pool⟩ := by
  obtain ⟨t, ht⟩ := hL.head
  obtain ⟨b, hb, -⟩ := hL.inv.head_max t ht
  exact ⟨hL.inv, hL.copies, hL.snapshots, t, ht, hL.counted hnil hb hzero⟩

end Loaded

variable [Wasmi]

theorem Loaded.replay (hnil : pathTxs A l = []) :
    ∀ (ms : List UInt64) (acc res : BlockStore × StateDB),
    Loaded A l acc.1 → (∀ a, acc.2.nonce a = 0) → ms.foldlM Node.replayHeight acc = .ok res →
    Loaded A l res.1 ∧ ∀ a, res.2.nonce a = 0 := by
  intro ms
  induction ms with
  | nil =>
    intro acc res hL hzero h
    cases h
    exact ⟨hL, hzero⟩
  | cons m ms ih =>
    intro acc res hL hzero h
    rw [List.foldlM_cons, Node.replayHeight] at h
    cases hb : acc.1.getBlockByNumber m with
    | none =>
      rw [hb] at h
      cases h
    | some b =>
      obtain ⟨k, -, hget⟩ := Option.bind_eq_some_iff.mp hb
      cases hL.inv.keyed k b hget
      have hexec : ∃ ctx, executeBlock acc.2 b = .ok ([], acc.2, ctx) := by
        rw [executeBlock, hL.transactions_eq_nil hnil hget]
        exact ⟨_, rfl⟩
      obtain ⟨ctx, hexec⟩ := hexec
      simp only [hb, hexec] at h
      exact ih (acc.1.recordState b.hash acc.2, acc.2) res
        (hL.recordState (hL.counted hnil hget hzero)) hzero h

variable [Ed25519]

/-- **A node that restarts on a chain without transactions** comes back with what was written, no
nonces and an empty pool. -/
theorem DiskOk.runNode {persist : ChainPersist} {g : Genesis} {h : H256} {n : Node}
    (hd : DiskOk A persist.db) (hh : HeadOnDisk A persist.db h l) (hA : Keyed A)
    (hnil : pathTxs A l = []) (hzero : ∀ a, g.state.nonce a = 0)
    (hg : Counted A g.block.hash g.state) (hrun : Node.runNode g persist = .ok n) :
    ChainFits A n.chain ∧ (∀ a, n.chain.live.nonce a = 0) ∧ n.chain.pool = TransactionPool.new
      ∧ n.orphans = ∅ ∧ n.persist = persist := by
  unfold Node.runNode at hrun
  split at hrun
  · cases hrun
  · next store hload => exact absurd rfl (hd.loadInto hh hA hload).2
  next height store hload =>
  have hL := (hd.loadInto hh hA hload).1
  split at hrun
  · next state hstate =>
    cases hrun
    -- the snapshot of the head was written
    obtain ⟨t, ht, hs⟩ := Option.bind_eq_some_iff.mp hstate
    obtain ⟨s, hsnap, rfl⟩ := Option.map_eq_some_iff.mp hs
    obtain ⟨b, hb, -⟩ := hL.inv.head_max t ht
    obtain ⟨l', hl', hnil'⟩ := hL.pathTxs_eq_nil hnil hb
    have hlive : ∀ a, (g.state.resetFrom s.fork).nonce a = 0 :=
      fun a => (hL.snapshots t s hsnap).nonce_eq_zero hl' hnil' a
    exact ⟨hL.chainFits hnil hlive _, hlive, rfl, rfl, rfl⟩
  · simp only at hrun
    split at hrun
    · cases hrun
    next store' state hreplay =>
    cases hrun
    obtain ⟨hL', hlive⟩ := Loaded.replay hnil _ _ _ (hL.recordState hg) hzero hreplay
    exact ⟨hL'.chainFits hnil hlive _, hlive, rfl, rfl, rfl⟩

end Restart

/-! ### Nodes -/

/-- The memory and the disk of a node fit the archive, and the live state is counted for the head
on disk as well. -/
structure NodeFits [Keccak] (A : Table H256 Block) (n : Node) : Prop where
  chain : ChainFits A n.chain
  disk : DiskOk A n.persist.db
  written : ∃ h l, HeadOnDisk A n.persist.db h l ∧ Counted A h n.chain.live

namespace NodeFits

variable [Keccak] {A : Table H256 Block} {n : Node} {b : Block}

/-- **What follows an accepted import** brings the disk up to date. -/
theorem settle (hc : ChainFits A n.chain) (hd : DiskOk A n.persist.db) (hb : Copy A b.hash b) :
    NodeFits A (n.settle b) := by
  obtain ⟨h, l, hh, hl, -, hcount⟩ := hc.exists_path
  refine ⟨hc.settle b, ?_, h, l, ?_, hcount.congr fun a => (n.chain.live.ledger_rootHash a).1⟩
  · exact (hd.persistCanonical hc.inv hc.copies hc.snapshots hb).persistTrieNodes _
  · exact (HeadOnDisk.persistCanonical hc.inv hc.copies hh hl).persistTrieNodes _

variable [Ed25519]

/-- **The first start.** -/
theorem fresh {g : Genesis} (hA : A[g.block.hash]? = some g.block)
    (hg : Counted A g.block.hash g.state) (archive : Bool) (archiveKeep : UInt64) :
    NodeFits A (Node.fresh g archive archiveKeep) := by
  have hcopy : Copy A g.block.hash g.block := ⟨g.block, hA, rfl, fun _ htx => htx⟩
  have hc : ChainFits A (g.start TransactionPool.new) := by
    refine ⟨g.storeInv, fun h b hb => ?_, fun h s hs => ?_, g.block.hash, g.head, hg⟩
    · change g.store.getBlock h = some b at hb
      rw [g.getBlock] at hb
      split at hb
      · next he =>
        cases hb
        rw [he]
        exact hcopy
      · cases hb
    · change g.store.snapshots[h]? = some s at hs
      rw [g.snapshots] at hs
      split at hs
      · next he =>
        cases hs
        rw [he]
        exact hg
      · cases hs
  have hempty : DiskOk A (ChainPersist.openWith ChainDb.empty archive archiveKeep).db := by
    refine ⟨fun h b hb => ?_, fun h hd hh => ?_, fun h s hs => ?_⟩
    · rw [ChainPersist.openWith, ChainDb.empty, Std.ExtTreeMap.getElem?_empty] at hb
      cases hb
    · rw [ChainPersist.openWith, ChainDb.empty, Std.ExtTreeMap.getElem?_empty] at hh
      cases hh
    · rw [ChainPersist.openWith, ChainDb.empty, Std.ExtTreeMap.getElem?_empty] at hs
      cases hs
  obtain ⟨h, l, hh, hl, -, hcount⟩ := hc.exists_path
  exact ⟨hc, hempty.persistCanonical hc.inv hc.copies hc.snapshots hcopy, h, l,
    HeadOnDisk.persistCanonical hc.inv hc.copies hh hl, hcount⟩

variable [Wasmi]

/-- **An accepted block and what follows it.** -/
theorem accepted {pre post : StateDB} {outs : List ExecutionOutcome} {ctx : ExecutionContext}
    {outcome : InsertOutcome} {store' : BlockStore} {chain : ChainState} (hn : NodeFits A n)
    (ha : Accepted n.chain b pre outs post ctx outcome store' chain) (hA : A[b.hash]? = some b)
    (hz : A[H256.zero]? = none) : NodeFits A ({ n with chain := chain }.settle b) :=
  settle (n := { n with chain := chain }) (hn.chain.accepted ha hA hz) hn.disk
    ⟨b, hA, rfl, fun _ htx => htx⟩

/-- **A restart on a chain without transactions.** -/
theorem restart {g : Genesis} {archive : Bool} {archiveKeep : UInt64} {n' : Node}
    (hn : NodeFits A n)
    (hA : Keyed A) (hquiet : ∀ a, n.chain.live.nonce a = 0) (hzero : ∀ a, g.state.nonce a = 0)
    (hg : Counted A g.block.hash g.state)
    (hrun : Node.runNode g (ChainPersist.openWith n.persist.db archive archiveKeep) = .ok n') :
    NodeFits A n' ∧ (∀ a, n'.chain.live.nonce a = 0) ∧ n'.chain.pool = TransactionPool.new := by
  obtain ⟨h, l, hh, hcount⟩ := hn.written
  have hnil := hcount.pathTxs_eq_nil hquiet hh.path
  have hd : DiskOk A (ChainPersist.openWith n.persist.db archive archiveKeep).db := hn.disk
  obtain ⟨hchain, hlive, hpool, -, hpersist⟩ := hd.runNode hh hA hnil hzero hg hrun
  refine ⟨⟨hchain, ?_, h, l, ?_, counted_of_nil hh.path hnil hlive⟩, hlive, hpool⟩
  · rw [hpersist]
    exact hn.disk
  · rw [hpersist]
    exact hh

end NodeFits

end Ivory
