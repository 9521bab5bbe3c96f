import Ivory.Chain.Import
import Ivory.Chain.Order

/-!
# Looking up transactions

`tx_index` says where a transaction of the canonical chain is.  It is rebuilt
when the head moves, from height zero upwards, so that of several occurrences
the last one is written; bodies are dropped at other times and leave the index
alone.  `get_transaction` reads the entry and then the body.

An entry is `TxIndexed` in one of two ways: it points to the last occurrence, or
the body it points to was dropped.  Bodies are dropped from below, so in the
second case nothing occurs any more.

* `StoreInv.txIndexed_rebuilt`: a rebuilt index points to the last occurrences.
* `TxIndexed.dropped`: dropping bodies keeps the index good.
* `StoreOp.getTransaction_run`: **`get_transaction` finds exactly what the canonical
  chain holds**, after every sequence of operations.
-/

namespace Ivory

/-- One location comes before another on the chain. -/
def TxLocation.Before (a b : TxLocation) : Prop :=
  a.blockNumber < b.blockNumber ∨ (a.blockNumber = b.blockNumber ∧ a.index < b.index)

namespace BlockStore

/-! ### Blocks of the canonical chain -/

section

variable [Keccak] {store store' : BlockStore}

/-- A block of the canonical chain has its own height, which is not above the head. -/
theorem StoreInv.of_canonical (hi : StoreInv store) {n : UInt64} {b : Block}
    (hb : store.getBlockByNumber n = some b) : b.header.number = n
      ∧ ∃ head, store.headBlock = some head ∧ n ≤ head.header.number := by
  obtain ⟨k, hk, hget⟩ := Option.bind_eq_some_iff.mp hb
  cases hh : store.head with
  | none =>
    rw [(hi.no_head hh).1] at hk
    simp at hk
  | some h =>
    obtain ⟨x, hx, -⟩ := hi.head_max h hh
    obtain ⟨l, hl⟩ := hi.path h x hx
    rw [hi.canonical h l hh hl] at hk
    obtain ⟨hmem, hnum⟩ := of_numberIndex store l n k hk
    have hle := hi.numberOf_le hl k hmem
    rw [hnum, numberOf_eq hx] at hle
    rw [numberOf_eq hget] at hnum
    exact ⟨hnum, x, by rw [headBlock, hh, Option.bind_some, hx], hle⟩

/-! ### Occurrences -/

/-- The block of the canonical chain at a height holds a transaction with the hash at an index. -/
def Occurs (store : BlockStore) (h : H256) (n : UInt64) (i : ℕ) (tx : Transaction) : Prop :=
  ∃ b, store.getBlockByNumber n = some b ∧ b.transactions.toList[i]? = some tx ∧ tx.hash = h

/-- The index points to the last occurrence of each hash, or to a block whose body was dropped
after all occurrences were. -/
structure TxIndexed (store : BlockStore) : Prop where
  covers : ∀ h n i tx, store.Occurs h n i tx → ∃ loc, store.txIndex[h]? = some loc
    ∧ (n < loc.blockNumber ∨ (n = loc.blockNumber ∧ i ≤ loc.index))
  points : ∀ (h : H256) (loc : TxLocation), store.txIndex[h]? = some loc →
    ∃ b, store.getBlockByNumber loc.blockNumber = some b ∧ b.hash = loc.blockHash
      ∧ ((∃ tx, b.transactions.toList[loc.index]? = some tx ∧ tx.hash = h)
        ∨ (b.transactions.toList = [] ∧ ∀ n i tx, ¬ store.Occurs h n i tx))

theorem txIndexed_new (c : PoAConsensus) : TxIndexed (new c) where
  covers h n i tx := by
    rintro ⟨b, hb, -⟩
    simp [getBlockByNumber, new] at hb
  points h loc hl := by simp [new] at hl

theorem TxIndexed.congr (hx : TxIndexed store)
    (hnum : ∀ n, store'.getBlockByNumber n = store.getBlockByNumber n)
    (hidx : store'.txIndex = store.txIndex) : TxIndexed store' := by
  have hocc : ∀ h n i tx, store'.Occurs h n i tx ↔ store.Occurs h n i tx := by
    intro h n i tx
    rw [Occurs, Occurs, hnum]
  constructor
  · intro h n i tx ho
    rw [hidx]
    exact hx.covers h n i tx ((hocc h n i tx).mp ho)
  · intro h loc hl
    rw [hidx] at hl
    simp only [hnum, hocc]
    exact hx.points h loc hl

/-! ### Rebuilding -/

/-- What `rebuild_tx_index` inserts for one block. -/
def blockEntries (n : UInt64) (b : Block) : List (H256 × TxLocation) :=
  b.transactions.toList.zipIdx.map fun e => (e.1.hash, ⟨b.hash, n, e.2⟩)

/-- What it inserts for a height. -/
def heightEntries (store : BlockStore) (n : ℕ) : List (H256 × TxLocation) :=
  match store.getBlockByNumber (UInt64.ofNat n) with
  | none => []
  | some b => blockEntries (UInt64.ofNat n) b

/-- **Rebuilding inserts the entries of all heights, one after the other.** -/
theorem rebuildTxIndex_eq {head : Block} (hh : store.headBlock = some head) :
    store.rebuildTxIndex.txIndex
      = ((List.range (head.header.number.toNat + 1)).flatMap store.heightEntries).foldl
          (fun idx e => idx.insert e.1 e.2) ∅ := by
  unfold rebuildTxIndex
  rw [hh, List.foldl_flatMap]
  refine List.foldl_ext _ _ _ fun idx n _ => ?_
  rw [heightEntries]
  cases store.getBlockByNumber (UInt64.ofNat n) with
  | none => rfl
  | some b => simp only [indexBlock, blockEntries, List.foldl_map]

theorem mem_blockEntries {n : UInt64} {b : Block} {h : H256} {loc : TxLocation} :
    (h, loc) ∈ blockEntries n b ↔ loc.blockHash = b.hash ∧ loc.blockNumber = n
      ∧ ∃ tx, b.transactions.toList[loc.index]? = some tx ∧ tx.hash = h := by
  rw [blockEntries, List.mem_map]
  constructor
  · rintro ⟨⟨tx, i⟩, he, heq⟩
    cases heq
    exact ⟨rfl, rfl, tx, List.mem_zipIdx_iff_getElem?.mp he, rfl⟩
  · rintro ⟨hhash, hnum, tx, htx, rfl⟩
    refine ⟨(tx, loc.index), List.mem_zipIdx_iff_getElem?.mpr htx, ?_⟩
    cases loc
    cases hhash
    cases hnum
    rfl

theorem mem_heightEntries {n : ℕ} {h : H256} {loc : TxLocation} :
    (h, loc) ∈ store.heightEntries n ↔ loc.blockNumber = UInt64.ofNat n
      ∧ ∃ b, store.getBlockByNumber loc.blockNumber = some b ∧ loc.blockHash = b.hash
        ∧ ∃ tx, b.transactions.toList[loc.index]? = some tx ∧ tx.hash = h := by
  rw [heightEntries]
  cases hb : store.getBlockByNumber (UInt64.ofNat n) with
  | none =>
    constructor
    · intro hm
      cases hm
    · rintro ⟨hn, b, hb', -⟩
      rw [hn, hb] at hb'
      cases hb'
  | some b =>
    simp only
    rw [mem_blockEntries]
    constructor
    · rintro ⟨hhash, hn, htx⟩
      exact ⟨hn, b, by rw [hn, hb], hhash, htx⟩
    · rintro ⟨hn, b', hb', hhash, htx⟩
      rw [hn, hb] at hb'
      cases hb'
      exact ⟨hhash, hn, htx⟩

theorem pairwise_entries (store : BlockStore) {m : ℕ} (hm : m ≤ 2 ^ 64) :
    ((List.range m).flatMap store.heightEntries).Pairwise fun p q => p.2.Before q.2 := by
  rw [List.pairwise_flatMap]
  constructor
  · intro n _
    rw [heightEntries]
    cases store.getBlockByNumber (UInt64.ofNat n) with
    | none => exact .nil
    | some b =>
      simp only [blockEntries]
      rw [List.pairwise_map]
      have hidx : (b.transactions.toList.zipIdx.map Prod.snd).Pairwise (· < ·) := by
        rw [List.zipIdx_map_snd]
        exact List.pairwise_lt_range'
      rw [List.pairwise_map] at hidx
      exact hidx.imp fun hlt => .inr ⟨rfl, hlt⟩
  · refine List.Pairwise.imp_of_mem ?_ List.pairwise_lt_range
    rintro n n' hn hn' hlt ⟨h, loc⟩ he ⟨h', loc'⟩ he'
    left
    have hn := List.mem_range.mp hn
    have hn' := List.mem_range.mp hn'
    show loc.blockNumber < loc'.blockNumber
    rw [(mem_heightEntries.mp he).1, (mem_heightEntries.mp he').1, UInt64.lt_iff_toNat_lt,
      UInt64.toNat_ofNat', UInt64.toNat_ofNat', Nat.mod_eq_of_lt (by omega),
      Nat.mod_eq_of_lt (by omega)]
    exact hlt

/-- **A rebuilt index points to the last occurrence of every hash.** -/
theorem StoreInv.txIndexed_rebuilt (hi : StoreInv store)
    (hidx : store.txIndex = store.rebuildTxIndex.txIndex) : TxIndexed store := by
  cases hh : store.headBlock with
  | none =>
    have hempty : store.txIndex = ∅ := by
      rw [hidx, rebuildTxIndex, hh]
    constructor
    · rintro h n i tx ⟨b, hb, -⟩
      obtain ⟨-, head, hhead, -⟩ := hi.of_canonical hb
      rw [hh] at hhead
      cases hhead
    · intro h loc hl
      rw [hempty] at hl
      simp at hl
  | some head =>
    have hget : ∀ h : H256, store.txIndex[h]? = Table.lastValue
        ((List.range (head.header.number.toNat + 1)).flatMap store.heightEntries) h := by
      intro h
      rw [hidx, rebuildTxIndex_eq hh, Table.get_foldl_insert_last]
      simp
    have hsorted := store.pairwise_entries head.header.number.toNat_lt
    constructor
    · rintro h n i tx ⟨b, hb, htx, hhash⟩
      obtain ⟨-, head', hhead, hle⟩ := hi.of_canonical hb
      rw [hh] at hhead
      cases hhead
      have hmem : (h, (⟨b.hash, n, i⟩ : TxLocation))
          ∈ (List.range (head.header.number.toNat + 1)).flatMap store.heightEntries := by
        refine List.mem_flatMap.mpr ⟨n.toNat, List.mem_range.mpr ?_, mem_heightEntries.mpr
          ⟨UInt64.ofNat_toNat.symm, b, hb, rfl, tx, htx, hhash⟩⟩
        exact Nat.lt_succ_of_le (UInt64.le_iff_toNat_le.mp hle)
      obtain ⟨loc, hloc⟩ := Table.exists_lastValue hmem
      refine ⟨loc, (hget h).trans hloc, ?_⟩
      rcases Table.eq_or_rel_lastValue hsorted hloc hmem with rfl | hlt | ⟨hn, hlt⟩
      · exact .inr ⟨rfl, le_rfl⟩
      · exact .inl hlt
      · exact .inr ⟨hn, Nat.le_of_lt hlt⟩
    · intro h loc hl
      rw [hget] at hl
      obtain ⟨n, -, hm⟩ := List.mem_flatMap.mp (Table.mem_of_lastValue hl)
      obtain ⟨-, b, hb, hhash, htx⟩ := mem_heightEntries.mp hm
      exact ⟨b, hb, hhash.symm, .inl htx⟩

/-! ### Dropping bodies -/

/-- The bodies below a height are gone, nothing else changed. -/
structure Dropped (store : BlockStore) (n : UInt64) (store' : BlockStore) : Prop where
  getBlock : ∀ h, store'.getBlock h
    = (store.getBlock h).map fun b => if b.header.number < n then b.stub else b
  byNumber : store'.byNumber = store.byNumber
  txIndex : store'.txIndex = store.txIndex

omit [Keccak] in
theorem dropped_zero (hget : ∀ h, store'.getBlock h = store.getBlock h)
    (hnum : store'.byNumber = store.byNumber) (hidx : store'.txIndex = store.txIndex) :
    Dropped store 0 store' := by
  refine ⟨fun h => ?_, hnum, hidx⟩
  have hfun : (fun b : Block => if b.header.number < 0 then b.stub else b) = id := by
    funext b
    exact if_neg (UInt64.not_lt.mpr UInt64.zero_le)
  rw [hget, hfun, Option.map_id, id]

omit [Keccak] in
theorem Dropped.getBlockByNumber {m : UInt64} (hd : Dropped store m store') (n : UInt64) :
    store'.getBlockByNumber n = (store.getBlockByNumber n).map
      fun b => if b.header.number < m then b.stub else b := by
  rw [BlockStore.getBlockByNumber, BlockStore.getBlockByNumber, hd.byNumber]
  cases store.byNumber[n]? with
  | none => rfl
  | some k => exact hd.getBlock k

theorem Dropped.occurs {m : UInt64} (hd : Dropped store m store') (hi : StoreInv store) {h : H256}
    {n : UInt64} {i : ℕ} {tx : Transaction} (ho : store'.Occurs h n i tx) :
    store.Occurs h n i tx ∧ m ≤ n := by
  obtain ⟨b', hb', htx, hhash⟩ := ho
  rw [hd.getBlockByNumber] at hb'
  obtain ⟨b, hb, hbb⟩ := Option.map_eq_some_iff.mp hb'
  rw [← hbb] at htx
  split at htx
  · simp [Block.stub] at htx
  · next hge =>
    rw [(hi.of_canonical hb).1] at hge
    exact ⟨⟨b, hb, htx, hhash⟩, UInt64.not_lt.mp hge⟩

omit [Keccak] in
theorem txIndex_pruneSnapshots (store : BlockStore) :
    store.pruneSnapshots.txIndex = store.txIndex := by
  unfold pruneSnapshots
  split <;> rfl

omit [Keccak] in
theorem exists_dropped_dropBodiesBelow (store : BlockStore) (n : UInt64) (archive : Bool) :
    ∃ m, Dropped store m (store.dropBodiesBelow n archive) := by
  cases archive with
  | true => exact ⟨0, dropped_zero (fun _ => rfl) rfl rfl⟩
  | false => exact ⟨n, getBlock_dropBodiesBelow store n, rfl, rfl⟩

theorem exists_dropped_pruneSnapshotsKeep (hi : StoreInv store) (keep : UInt64) :
    ∃ m, Dropped store m (store.pruneSnapshotsKeep keep) := by
  have hnum := (sameHeaders_pruneSnapshotsKeep store keep).byNumber
  cases hh : store.head with
  | none =>
    have heq : store.pruneSnapshotsKeep keep = store := by
      simp only [pruneSnapshotsKeep, pruneSnapshots, headBlock, hh, Option.bind_none]
    exact ⟨0, by rw [heq]; exact dropped_zero (fun _ => rfl) rfl rfl⟩
  | some h₀ =>
    obtain ⟨b₀, hb₀, -⟩ := hi.head_max h₀ hh
    refine ⟨cutoff b₀.header.number keep, getBlock_pruneSnapshotsKeep hi hh hb₀ keep, hnum, ?_⟩
    rw [pruneSnapshotsKeep_eq hi hh hb₀]
    exact txIndex_pruneSnapshots store

/-- **Dropping bodies keeps the index good.**  An entry whose body goes was the last occurrence,
so the bodies of all the others go as well. -/
theorem TxIndexed.dropped {m : UInt64} (hx : TxIndexed store) (hi : StoreInv store)
    (hd : Dropped store m store') : TxIndexed store' := by
  constructor
  · intro h n i tx ho
    rw [hd.txIndex]
    exact hx.covers h n i tx (hd.occurs hi ho).1
  · intro h loc hl
    rw [hd.txIndex] at hl
    obtain ⟨b, hb, hhash, hbody⟩ := hx.points h loc hl
    have hb' := hd.getBlockByNumber loc.blockNumber
    rw [hb, Option.map_some] at hb'
    by_cases hlt : b.header.number < m
    · rw [if_pos hlt] at hb'
      refine ⟨b.stub, hb', hhash, .inr ⟨rfl, fun n i tx ho => ?_⟩⟩
      obtain ⟨ho, hge⟩ := hd.occurs hi ho
      obtain ⟨loc', hl', hpos⟩ := hx.covers h n i tx ho
      cases hl.symm.trans hl'
      rw [(hi.of_canonical hb).1] at hlt
      have hle : n ≤ loc.blockNumber := by
        rcases hpos with hn | ⟨hn, -⟩
        · exact UInt64.le_of_lt hn
        · exact hn ▸ UInt64.le_refl _
      exact UInt64.lt_irrefl _ (UInt64.lt_of_lt_of_le hlt (UInt64.le_trans hge hle))
    · rw [if_neg hlt] at hb'
      refine ⟨b, hb', hhash, hbody.imp_right fun hnone => ⟨hnone.1, fun n i tx ho => ?_⟩⟩
      exact hnone.2 n i tx (hd.occurs hi ho).1

/-! ### Insertion -/

/-- **An insertion keeps the index good.** -/
theorem TxIndexed.inserted [Ed25519] (hx : TxIndexed store) (hi : StoreInv store) {b : Block}
    {outcome : InsertOutcome} (hb : Insertable store b)
    (hn : Inserted store b outcome store') : TxIndexed store' := by
  rcases hn.cases with ⟨-, -, -, -, hidx⟩ | ⟨-, -, -, hnum, hidx⟩
  · exact (hi.inserted hb hn).txIndexed_rebuilt hidx
  · exact hx.congr (hn.getBlockByNumber_eq hi hb.fresh hnum) hidx

/-! ### Lookups -/

theorem TxIndexed.of_getTransaction (hx : TxIndexed store) (hi : StoreInv store) {h : H256}
    {tx : Transaction} {loc : TxLocation} (hg : store.getTransaction h = some (tx, loc)) :
    tx.hash = h
      ∧ (∃ b, store.getBlockByNumber loc.blockNumber = some b ∧ b.hash = loc.blockHash
        ∧ b.transactions.toList[loc.index]? = some tx)
      ∧ ∀ n i tx', store.Occurs h n i tx' →
        n < loc.blockNumber ∨ (n = loc.blockNumber ∧ i ≤ loc.index) := by
  simp only [getTransaction, Option.bind_eq_bind, Option.bind_eq_some_iff, Option.some.injEq,
    Prod.mk.injEq] at hg
  obtain ⟨loc', hl, b', hget, tx', htx, rfl, rfl⟩ := hg
  obtain ⟨b, hb, hhash, hbody⟩ := hx.points h loc' hl
  -- the block that the entry names is the one at its height
  obtain ⟨k, -, hk⟩ := Option.bind_eq_some_iff.mp hb
  rw [← hhash, hi.keyed k b hk, hk] at hget
  rw [← Option.some.inj hget] at htx
  rcases hbody with ⟨tx, htx', hth⟩ | ⟨hempty, -⟩
  · cases htx.symm.trans htx'
    refine ⟨hth, ⟨b, hb, hhash, htx⟩, fun n i tx' ho => ?_⟩
    obtain ⟨loc, hl', hpos⟩ := hx.covers h n i tx' ho
    cases hl.symm.trans hl'
    exact hpos
  · rw [hempty] at htx
    cases htx

theorem TxIndexed.getTransaction_of_occurs (hx : TxIndexed store) (hi : StoreInv store) {h : H256}
    {n : UInt64} {i : ℕ} {tx : Transaction} (ho : store.Occurs h n i tx) :
    ∃ r, store.getTransaction h = some r := by
  obtain ⟨loc, hl, -⟩ := hx.covers h n i tx ho
  obtain ⟨b, hb, hhash, hbody⟩ := hx.points h loc hl
  obtain ⟨k, -, hk⟩ := Option.bind_eq_some_iff.mp hb
  have hget : store.getBlock loc.blockHash = some b := by rw [← hhash, hi.keyed k b hk, hk]
  rcases hbody with ⟨tx', htx, -⟩ | ⟨-, hnone⟩
  · exact ⟨(tx', loc), by simp [getTransaction, hl, hget, htx]⟩
  · exact absurd ho (hnone n i tx)

/-- **Lookup is exact**: what is found is the last occurrence, and the last occurrence is found. -/
theorem TxIndexed.getTransaction_iff (hx : TxIndexed store) (hi : StoreInv store) {h : H256}
    {tx : Transaction} {loc : TxLocation} : store.getTransaction h = some (tx, loc)
      ↔ tx.hash = h
        ∧ (∃ b, store.getBlockByNumber loc.blockNumber = some b ∧ b.hash = loc.blockHash
          ∧ b.transactions.toList[loc.index]? = some tx)
        ∧ ∀ n i tx', store.Occurs h n i tx' →
          n < loc.blockNumber ∨ (n = loc.blockNumber ∧ i ≤ loc.index) := by
  refine ⟨hx.of_getTransaction hi, ?_⟩
  rintro ⟨hhash, ⟨b, hb, hbh, htx⟩, hlast⟩
  obtain ⟨⟨tx', loc'⟩, hg⟩ := hx.getTransaction_of_occurs hi ⟨b, hb, htx, hhash⟩
  obtain ⟨hhash', ⟨b', hb', hbh', htx'⟩, hlast'⟩ := hx.of_getTransaction hi hg
  -- each location is not after the other
  have hle := hlast _ _ tx' ⟨b', hb', htx', hhash'⟩
  have hle' := hlast' _ _ tx ⟨b, hb, htx, hhash⟩
  simp only [UInt64.lt_iff_toNat_lt, ← UInt64.toNat_inj] at hle hle'
  have hnum : loc.blockNumber = loc'.blockNumber := UInt64.toNat_inj.mp (by omega)
  have hidx : loc.index = loc'.index := by omega
  rw [hnum, hb'] at hb
  cases hb
  rw [hidx, htx'] at htx
  cases htx
  have hloc : loc' = loc := by
    cases loc
    cases loc'
    rw [TxLocation.mk.injEq]
    exact ⟨hbh'.symm.trans hbh, hnum.symm, hidx.symm⟩
  rw [hg, hloc]

/-- While heights do not saturate, the blocks of the height index are those on the path of the
head. -/
theorem StoreInv.canonical_iff (hi : StoreInv store) (hsize : store.byHash.size < 2 ^ 64)
    {h : H256} {l : List H256} (hh : store.head = some h) (hl : store.IsPath h l) {b : Block} :
    (∃ n, store.getBlockByNumber n = some b)
      ↔ b.hash ∈ l ∧ store.getBlock b.hash = some b := by
  constructor
  · rintro ⟨n, hb⟩
    exact (hi.of_getBlockByNumber hh hl hb).symm
  · rintro ⟨hmem, hget⟩
    have hnum : store.byNumber[b.header.number]? = some b.hash :=
      (hi.byNumber_eq_some hsize hh hl).mpr ⟨hmem, numberOf_eq hget⟩
    exact ⟨b.header.number, by rw [getBlockByNumber, hnum, Option.bind_some, hget]⟩

end

end BlockStore

/-! ### Runs -/

namespace StoreOp

open BlockStore

variable [Keccak] [Ed25519]

/-- What one operation does to bodies: drop those below a height, or insert one block. -/
theorem apply_dropped {store : BlockStore} (hi : StoreInv store) (op : StoreOp) :
    (∃ n, Dropped store n (op.apply store))
      ∨ ∃ b outcome, Insertable store b ∧ Inserted store b outcome (op.apply store) := by
  have hval : ∀ (b : Block) (res : Except ChainError InsertOutcome × BlockStore),
      ((∃ e, res = (.error e, store)) ∨ (HeaderValid store b.header
        ∧ res = store.insertValidated b)) → (∃ n, Dropped store n res.2)
      ∨ ∃ b outcome, Insertable store b ∧ Inserted store b outcome res.2 := by
    rintro b _ (⟨e, rfl⟩ | ⟨hv, rfl⟩)
    · exact .inl ⟨0, dropped_zero (fun _ => rfl) rfl rfl⟩
    · rcases insertValidated_cases hi hv with he | ⟨outcome, store', heq, hins, hn⟩
      · exact .inl ⟨0, by rw [he]; exact dropped_zero (fun _ => rfl) rfl rfl⟩
      · exact .inr ⟨b, outcome, hins, by rw [heq]; exact hn⟩
  cases op with
  | insertGenesis b =>
    exact hval b _ ((insertGenesis_checks store b).imp_right fun h => ⟨h.1, h.2.2.2⟩)
  | insertBlock b =>
    exact hval b _ ((insertBlock_checks store b).imp_right fun h => ⟨h.1, h.2.2⟩)
  | insertHeader h => exact hval ⟨h, Vec.empty, Vec.empty⟩ _ (insertHeader_checks store h)
  | recordState h s => exact .inl ⟨0, dropped_zero (fun _ => rfl) rfl rfl⟩
  | pruneSnapshots =>
    exact .inl ⟨0, dropped_zero (getBlock_pruneSnapshots store)
      (sameHeaders_pruneSnapshots store).byNumber (txIndex_pruneSnapshots store)⟩
  | pruneSnapshotsKeep keep => exact .inl (exists_dropped_pruneSnapshotsKeep hi keep)
  | dropBodiesBelow n archive => exact .inl (exists_dropped_dropBodiesBelow store n archive)

theorem txIndexed_run (c : PoAConsensus) (ops : List StoreOp) : TxIndexed (run c ops) := by
  refine (List.foldlRecOn ops apply (motive := fun s => StoreInv s ∧ TxIndexed s)
    ⟨storeInv_new c, txIndexed_new c⟩ ?_).2
  rintro store ⟨hi, hx⟩ op -
  refine ⟨(inv_apply hi op).1, ?_⟩
  rcases apply_dropped hi op with ⟨n, hd⟩ | ⟨b, outcome, hins, hn⟩
  · exact hx.dropped hi hd
  · exact hx.inserted hi hins hn

/-- **`get_transaction` finds exactly what the canonical chain holds**, after every sequence of
operations.  It finds something just when a block of the canonical chain holds a transaction
with the hash; what it finds is the last of these, with its place.  The blocks of the canonical
chain are those of the path of the head. -/
theorem getTransaction_run (c : PoAConsensus) (ops : List StoreOp) :
    (∀ h : H256, (∃ tx loc, (run c ops).getTransaction h = some (tx, loc))
      ↔ ∃ n b tx, (run c ops).getBlockByNumber n = some b ∧ tx ∈ b.transactions.toList
        ∧ tx.hash = h)
    ∧ (∀ (h : H256) (tx : Transaction) (loc : TxLocation),
      (run c ops).getTransaction h = some (tx, loc)
        ↔ tx.hash = h
          ∧ (∃ b, (run c ops).getBlockByNumber loc.blockNumber = some b ∧ b.hash = loc.blockHash
            ∧ b.transactions.toList[loc.index]? = some tx)
          ∧ ∀ n i tx', (run c ops).Occurs h n i tx' →
            n < loc.blockNumber ∨ (n = loc.blockNumber ∧ i ≤ loc.index))
    ∧ (ops.countP isInsertion < 2 ^ 64 → ∀ head l, (run c ops).head = some head →
      (run c ops).IsPath head l → ∀ b, (∃ n, (run c ops).getBlockByNumber n = some b)
        ↔ b.hash ∈ l ∧ (run c ops).getBlock b.hash = some b) := by
  have hi := (inv_run c ops).1
  have hx := txIndexed_run c ops
  refine ⟨fun h => ⟨?_, ?_⟩, fun h tx loc => hx.getTransaction_iff hi, fun hlt head l hh hl b => ?_⟩
  · rintro ⟨tx, loc, hg⟩
    obtain ⟨hhash, ⟨b, hb, -, htx⟩, -⟩ := hx.of_getTransaction hi hg
    exact ⟨loc.blockNumber, b, tx, hb, List.mem_of_getElem? htx, hhash⟩
  · rintro ⟨n, b, tx, hb, htx, hhash⟩
    obtain ⟨i, hi'⟩ := List.mem_iff_getElem?.mp htx
    obtain ⟨⟨tx', loc⟩, hg⟩ := hx.getTransaction_of_occurs hi ⟨b, hb, hi', hhash⟩
    exact ⟨tx', loc, hg⟩
  · refine hi.canonical_iff ?_ hh hl
    refine lt_of_le_of_lt (size_foldl_le ops (storeInv_new c)) ?_
    simpa [BlockStore.new] using hlt

end StoreOp

namespace Devnet

/-- The transfer in the block that became the head is found; once the body is dropped, no block
of the canonical chain holds it. -/
theorem getTransaction_run_transfer :
    (∃ n b tx, (StoreOp.run consensus storeOps).getBlockByNumber n = some b
      ∧ tx ∈ b.transactions.toList ∧ tx.hash = (transfer 0).hash)
    ∧ (∃ l, (StoreOp.run consensus storeOps).IsPath blockA.hash l
      ∧ ∀ b, (∃ n, (StoreOp.run consensus storeOps).getBlockByNumber n = some b)
        ↔ b.hash ∈ l ∧ (StoreOp.run consensus storeOps).getBlock b.hash = some b)
    ∧ ¬ ∃ n b tx, (StoreOp.run consensus
        (storeOps ++ [.dropBodiesBelow 2 false])).getBlockByNumber n = some b
      ∧ tx ∈ b.transactions.toList ∧ tx.hash = (transfer 0).hash := by
  have heval : ((StoreOp.run consensus storeOps).getTransaction (transfer 0).hash).isSome = true
      ∧ (StoreOp.run consensus storeOps).head = some blockA.hash
      ∧ ((StoreOp.run consensus storeOps).getBlock blockA.hash).isSome = true
      ∧ (StoreOp.run consensus (storeOps ++ [.dropBodiesBelow 2 false])).getTransaction
          (transfer 0).hash = none
      ∧ storeOps.countP StoreOp.isInsertion < 2 ^ 64 := by decide +kernel
  obtain ⟨hfound, hhead, hget, hgone, hlt⟩ := heval
  obtain ⟨hiff, -, hpath⟩ := StoreOp.getTransaction_run consensus storeOps
  obtain ⟨⟨tx, loc⟩, hfound⟩ := Option.isSome_iff_exists.mp hfound
  obtain ⟨b, hb⟩ := Option.isSome_iff_exists.mp hget
  obtain ⟨l, hl⟩ := (StoreOp.inv_run consensus storeOps).1.path _ b hb
  refine ⟨(hiff _).mp ⟨tx, loc, hfound⟩, ⟨l, hl, hpath hlt _ l hhead hl⟩, fun ho => ?_⟩
  obtain ⟨tx', loc', hg⟩ := ((StoreOp.getTransaction_run consensus _).1 _).mpr ho
  rw [hgone] at hg
  cases hg

end Devnet

end Ivory
