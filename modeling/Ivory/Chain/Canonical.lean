import Ivory.Chain.StoreInvariant
import Ivory.Devnet

/-!
# The canonical chain of a block store

A run of the operations of a `BlockStore`, in any order and with any failures,
keeps the invariant of `Chain/StoreInvariant.lean`.  Heights on a path count
down to zero one by one, as long as no height saturates, so the height index of
the head is the path of the head read backwards.

* `StoreOp.inv_run`: **every store reached by its operations satisfies the invariant.**
* `StoreInv.numbers_eq`, `StoreInv.byNumber_eq_some`: heights on a path, lookups by height.
* `canonicalIndex_run`: links, head and height index after any run.
-/

namespace Ivory

open Ancestry (Path)

namespace BlockStore

/-! ### Pruning keeps the headers -/

theorem sameHeaders_recordState (store : BlockStore) (h : H256) (s : StateDB) :
    SameHeaders store (store.recordState h s) := ⟨fun _ => rfl, rfl, rfl, rfl, rfl⟩

theorem sameHeaders_pruneSnapshots (store : BlockStore) :
    SameHeaders store store.pruneSnapshots := by
  unfold pruneSnapshots
  split
  · exact ⟨fun _ => rfl, rfl, rfl, rfl, rfl⟩
  · exact ⟨fun _ => rfl, rfl, rfl, rfl, rfl⟩

theorem sameHeaders_dropBodiesBelow (store : BlockStore) (n : UInt64) (archive : Bool) :
    SameHeaders store (store.dropBodiesBelow n archive) := by
  unfold dropBodiesBelow
  split
  · exact ⟨fun _ => rfl, rfl, rfl, rfl, rfl⟩
  · refine ⟨fun h => ?_, rfl, rfl, rfl, Std.ExtTreeMap.size_map⟩
    rw [getBlock, getBlock, Table.get_map, Option.map_map]
    refine congrFun (congrArg Option.map ?_) _
    funext b
    simp only [Function.comp_apply]
    split <;> rfl

theorem sameHeaders_pruneSnapshotsKeep [Keccak] (store : BlockStore) (k : UInt64) :
    SameHeaders store (store.pruneSnapshotsKeep k) := by
  unfold pruneSnapshotsKeep
  have hp := sameHeaders_pruneSnapshots store
  simp only
  split
  · exact hp
  · next head _ =>
    have hd := hp.trans (sameHeaders_dropBodiesBelow store.pruneSnapshots
      (head.header.number.saturatingSub (k.saturatingSub 1)) false)
    exact ⟨hd.headers, hd.head, hd.byNumber, hd.consensus, hd.size⟩

/-! ### Heights on a path -/

theorem number_of_parent_eq_none {b : Block} (h : b.parent = none) : b.header.number = 0 := by
  by_contra h0
  rw [Block.parent, if_neg h0] at h
  cases h

theorem parent_mem {store : BlockStore} {h : H256} {l : List H256} (hp : store.IsPath h l)
    {k : H256} {x : Block} (hk : k ∈ l) (hx : store.getBlock k = some x)
    (h0 : x.header.number ≠ 0) : x.header.parentHash ∈ l := by
  obtain ⟨l', hl', hs⟩ := hp.of_mem k hk
  cases hl' with
  | root hg hn =>
    cases hx.symm.trans hg
    rw [Block.parent, if_neg h0] at hn
    cases hn
  | step hg hn hp' =>
    cases hx.symm.trans hg
    rw [Block.parent, if_neg h0] at hn
    cases hn
    exact hs.subset (List.mem_cons_of_mem _ hp'.mem_self)

theorem of_numberIndex (store : BlockStore) (l : List H256) : ∀ (n : UInt64) (k : H256),
    (store.numberIndex l)[n]? = some k → k ∈ l ∧ store.numberOf k = n := by
  refine List.foldlRecOn l (fun m h => m.insert (store.numberOf h) h)
    (motive := fun m : Table UInt64 H256 => ∀ (n : UInt64) (k : H256), m[n]? = some k →
      k ∈ l ∧ store.numberOf k = n)
    (fun n k h => by simp at h) ?_
  intro m hm x hx n k hk
  rw [Table.get_insert] at hk
  split at hk
  · next hn =>
    cases hk
    exact ⟨hx, hn.symm⟩
  · exact hm n k hk

theorem numberIndex_isSome (store : BlockStore) : ∀ (l : List H256) (m : UInt64),
    (∃ k ∈ l, store.numberOf k = m) → ∃ k, (store.numberIndex l)[m]? = some k := by
  have hfold : ∀ (l : List H256) (t : Table UInt64 H256) (m : UInt64),
      ((∃ k ∈ l, store.numberOf k = m) ∨ ∃ k, t[m]? = some k) →
      ∃ k, (l.foldl (fun t h => t.insert (store.numberOf h) h) t)[m]? = some k := by
    intro l
    induction l with
    | nil =>
      rintro t m (⟨k, hk, -⟩ | h)
      · cases hk
      · exact h
    | cons j l ih =>
      intro t m h
      rw [List.foldl_cons]
      refine ih _ m ?_
      by_cases hj : m = store.numberOf j
      · exact .inr ⟨j, by rw [Table.get_insert, if_pos hj]⟩
      · rcases h with ⟨k, hk, hkm⟩ | ⟨k, hk⟩
        · rcases List.mem_cons.mp hk with rfl | hk
          · exact absurd hkm.symm hj
          · exact .inl ⟨k, hk, hkm⟩
        · exact .inr ⟨k, by rw [Table.get_insert, if_neg hj, hk]⟩
  exact fun l m h => hfold l ∅ m (.inl h)

section Heights

variable [Keccak] {store : BlockStore}

/-- A step of a path goes to a block that is one lower, if heights do not saturate. -/
theorem StoreInv.number_of_parent (hi : StoreInv store) {k p : H256} {b : Block}
    (hg : store.getBlock k = some b) (hn : b.parent = some p) :
    ∃ x, store.getBlock p = some x ∧ b.header.number = x.header.number.saturatingAdd 1 := by
  have h0 : b.header.number ≠ 0 := by
    intro h0
    rw [Block.parent, if_pos h0] at hn
    cases hn
  rw [Block.parent, if_neg h0] at hn
  cases hn
  obtain ⟨x, hx, hnum, -⟩ := hi.linked k b hg h0
  exact ⟨x, hx, hnum⟩

/-- The tip of a path is its highest block, also if heights saturate. -/
theorem StoreInv.numberOf_le (hi : StoreInv store) {h : H256} {l : List H256}
    (hl : store.IsPath h l) : ∀ k ∈ l, store.numberOf k ≤ store.numberOf h := by
  induction hl with
  | root _ _ =>
    intro k hk
    rw [List.mem_singleton.mp hk]
    exact UInt64.le_rfl
  | @step k p b l hg hn hp ih =>
    intro j hj
    rcases List.mem_cons.mp hj with rfl | hj
    · exact UInt64.le_rfl
    · obtain ⟨x, hx, hnum⟩ := hi.number_of_parent hg hn
      refine UInt64.le_trans (ih j hj) ?_
      rw [numberOf_eq hx, numberOf_eq hg, hnum, UInt64.le_iff_toNat_le, UInt64.toNat_saturatingAdd]
      exact le_min (Nat.le_add_right _ _) (UInt64.toNat_le_max _)

/-- **The heights on a path count down to zero.** -/
theorem StoreInv.numbers_eq (hi : StoreInv store) {h : H256} {l : List H256}
    (hp : store.IsPath h l) (hlen : l.length < 2 ^ 64) :
    l.map (fun k => (store.numberOf k).toNat) = (List.range l.length).reverse := by
  induction hp with
  | @root k b hg hn =>
    simp [numberOf_eq hg, number_of_parent_eq_none hn]
  | @step k p b l hg hn hp ih =>
    have hlen' : l.length + 1 < 2 ^ 64 := hlen
    specialize ih (by omega)
    obtain ⟨x, hx, hnum⟩ := hi.number_of_parent hg hn
    -- the height of the parent is the first of the rest
    obtain ⟨l', rfl⟩ := hp.exists_cons
    rw [List.length_cons, List.range_succ, List.reverse_append, List.map_cons] at ih
    have hx' : x.header.number.toNat = l'.length := by
      rw [← numberOf_eq hx]
      exact (List.cons.inj ih).1
    rw [List.length_cons] at hlen'
    have hb : b.header.number.toNat = l'.length + 1 := by
      rw [hnum, UInt64.toNat_saturatingAdd, hx']
      simp
      omega
    rw [List.map_cons, numberOf_eq hg, hb, List.map_cons, List.length_cons, List.length_cons,
      List.range_succ, List.reverse_append, List.range_succ, List.reverse_append, ih]
    rfl

theorem StoreInv.number_tip (hi : StoreInv store) {h : H256} {l : List H256} {b : Block}
    (hp : store.IsPath h l) (hlen : l.length < 2 ^ 64) (hb : store.getBlock h = some b) :
    b.header.number.toNat + 1 = l.length := by
  have hnum := hi.numbers_eq hp hlen
  obtain ⟨l', rfl⟩ := hp.exists_cons
  rw [List.length_cons, List.range_succ, List.reverse_append, List.map_cons, numberOf_eq hb] at hnum
  rw [List.length_cons, (List.cons.inj hnum).1]

theorem StoreInv.numberIndex_eq_some (hi : StoreInv store) {h : H256} {l : List H256}
    (hp : store.IsPath h l) (hlen : l.length < 2 ^ 64) {n : UInt64} {k : H256} :
    (store.numberIndex l)[n]? = some k ↔ k ∈ l ∧ store.numberOf k = n := by
  have hnd : (l.map fun k => store.numberOf k).Nodup := by
    refine List.Nodup.of_map UInt64.toNat ?_
    rw [List.map_map]
    exact (hi.numbers_eq hp hlen) ▸ List.nodup_reverse.mpr List.nodup_range
  have hfold : store.numberIndex l
      = (l.map fun k => (store.numberOf k, k)).foldl (fun m e => m.insert e.1 e.2) ∅ := by
    rw [numberIndex, List.foldl_map]
  rw [hfold, Table.get_foldl_insert _ _ _ _ (by rwa [List.map_map]) (fun e _ => by simp)]
  simp only [List.mem_map, Prod.mk.injEq]
  constructor
  · rintro (⟨j, hj, rfl, rfl⟩ | h)
    · exact ⟨hj, rfl⟩
    · simp at h
  · rintro ⟨hk, rfl⟩
    exact .inl ⟨k, hk, rfl, rfl⟩

/-- **Lookups by height**: the block of the path of the head at that height. -/
theorem StoreInv.byNumber_eq_some (hi : StoreInv store) (hsize : store.byHash.size < 2 ^ 64)
    {h : H256} {l : List H256} (hh : store.head = some h) (hp : store.IsPath h l) {n : UInt64}
    {k : H256} : store.byNumber[n]? = some k ↔ k ∈ l ∧ store.numberOf k = n := by
  rw [hi.canonical h l hh hp]
  exact hi.numberIndex_eq_some hp (lt_of_le_of_lt (IsPath.length_le_size hp) hsize)

theorem StoreInv.mem_byNumber (hi : StoreInv store) (hsize : store.byHash.size < 2 ^ 64)
    {h : H256} {b : Block} (hh : store.head = some h) (hb : store.getBlock h = some b)
    (n : UInt64) : n ∈ store.byNumber ↔ n ≤ b.header.number := by
  obtain ⟨l, hp⟩ := hi.path h b hb
  have hlen : l.length < 2 ^ 64 := lt_of_le_of_lt (IsPath.length_le_size hp) hsize
  have htip := hi.number_tip hp hlen hb
  have hmem : ∀ m, m ∈ l.map (fun k => (store.numberOf k).toNat) ↔ m < l.length := by
    intro m
    rw [hi.numbers_eq hp hlen, List.mem_reverse, List.mem_range]
  rw [← Std.ExtTreeMap.isSome_getElem?_iff_mem, Option.isSome_iff_exists, UInt64.le_iff_toNat_le]
  simp only [hi.byNumber_eq_some hsize hh hp]
  constructor
  · rintro ⟨k, hk, rfl⟩
    have := (hmem _).mp (List.mem_map_of_mem hk)
    omega
  · intro hn
    obtain ⟨k, hk, hkn⟩ := List.mem_map.mp ((hmem n.toNat).mpr (by omega))
    exact ⟨k, hk, UInt64.toNat_inj.mp hkn⟩

theorem StoreInv.number_parent (hi : StoreInv store) (hsize : store.byHash.size < 2 ^ 64)
    {h : H256} {b p : Block} (hb : store.getBlock h = some b) (h0 : b.header.number ≠ 0)
    (hp : store.getBlock b.header.parentHash = some p) :
    b.header.number.toNat = p.header.number.toNat + 1 := by
  obtain ⟨l, hl⟩ := hi.path _ p hp
  have hl' : store.IsPath h (h :: l) := .step hb (if_neg h0) hl
  have hlen : l.length + 1 < 2 ^ 64 := lt_of_le_of_lt (IsPath.length_le_size hl') hsize
  have h₁ := hi.number_tip hl (by omega) hp
  have h₂ := hi.number_tip hl' hlen hb
  rw [List.length_cons] at h₂
  omega

/-- Every height up to that of the head has its entry: the block of the path at that height. -/
theorem StoreInv.entry (hi : StoreInv store) (hsize : store.byHash.size < 2 ^ 64) {h : H256}
    {b : Block} {l : List H256} (hh : store.head = some h) (hb : store.getBlock h = some b)
    (hl : store.IsPath h l) {n : UInt64} (hn : n ≤ b.header.number) :
    ∃ x, store.getBlockByNumber n = some x ∧ x.hash ∈ l ∧ store.getBlock x.hash = some x
      ∧ x.header.number = n := by
  obtain ⟨k, hk⟩ := Option.isSome_iff_exists.mp (Std.ExtTreeMap.isSome_getElem?_iff_mem.mpr
    ((hi.mem_byNumber hsize hh hb n).mpr hn))
  obtain ⟨hkl, hkn⟩ := (hi.byNumber_eq_some hsize hh hl).mp hk
  obtain ⟨_, hpk, -⟩ := hl.of_mem k hkl
  obtain ⟨x, hx⟩ := hpk.get_isSome
  cases hi.keyed k x hx
  refine ⟨x, ?_, hkl, hx, by rw [← numberOf_eq hx, hkn]⟩
  rw [getBlockByNumber, hk, Option.bind_some, hx]

theorem StoreInv.entry_below (hi : StoreInv store) (hsize : store.byHash.size < 2 ^ 64) {h : H256}
    {x : Block} {l : List H256} (hh : store.head = some h) (hl : store.IsPath h l)
    (hxl : x.hash ∈ l) (hx : store.getBlock x.hash = some x) (h0 : x.header.number ≠ 0) :
    ∃ y, store.getBlockByNumber (x.header.number - 1) = some y ∧ x.header.parentHash = y.hash := by
  obtain ⟨p, hp, -⟩ := hi.linked _ x hx h0
  have hnum := hi.number_parent hsize hx h0 hp
  have hpn : p.header.number = x.header.number - 1 := by
    have h1 : (1 : UInt64) ≤ x.header.number := by
      rw [UInt64.le_iff_toNat_le, hnum]
      simp
    rw [← UInt64.toNat_inj, UInt64.toNat_sub_of_le _ _ h1, hnum]
    simp
  have hmem : store.byNumber[x.header.number - 1]? = some x.header.parentHash :=
    (hi.byNumber_eq_some hsize hh hl).mpr ⟨parent_mem hl hxl hx h0, by rw [numberOf_eq hp, hpn]⟩
  refine ⟨p, ?_, (hi.keyed _ p hp).symm⟩
  rw [getBlockByNumber, hmem, Option.bind_some, hp]

/-- Every height up to that of the tip occurs on the path, also if heights saturate. -/
theorem StoreInv.exists_number (hi : StoreInv store) {h : H256} {l : List H256}
    (hl : store.IsPath h l) : ∀ m ≤ (store.numberOf h).toNat, ∃ k ∈ l,
      (store.numberOf k).toNat = m := by
  induction hl with
  | @root k b hg hn =>
    intro m hm
    refine ⟨k, List.mem_singleton_self _, ?_⟩
    rw [numberOf_eq hg, number_of_parent_eq_none hn] at hm ⊢
    simp at hm
    simp [hm]
  | @step k p b l hg hn hp ih =>
    intro m hm
    obtain ⟨x, hx, hnum⟩ := hi.number_of_parent hg hn
    by_cases hlt : m ≤ (store.numberOf p).toNat
    · obtain ⟨j, hj, hjm⟩ := ih m hlt
      exact ⟨j, List.mem_cons_of_mem _ hj, hjm⟩
    · refine ⟨k, List.mem_cons_self, ?_⟩
      rw [numberOf_eq hx] at hlt
      rw [numberOf_eq hg, hnum, UInt64.toNat_saturatingAdd] at hm ⊢
      simp only [UInt64.toNat_one] at hm ⊢
      omega

/-- **Every height up to that of the head has a block of the canonical chain.** -/
theorem StoreInv.getBlockByNumber_isSome (hi : StoreInv store) {h : H256} {x : Block}
    {l : List H256} (hh : store.head = some h) (hx : store.getBlock h = some x)
    (hl : store.IsPath h l) {m : UInt64} (hm : m ≤ x.header.number) :
    ∃ b, store.getBlockByNumber m = some b ∧ store.getBlock b.hash = some b ∧ b.hash ∈ l := by
  obtain ⟨j, hj, hjm⟩ := hi.exists_number hl m.toNat (by
    rw [numberOf_eq hx]
    exact UInt64.le_iff_toNat_le.mp hm)
  obtain ⟨k, hk⟩ := numberIndex_isSome store l m ⟨j, hj, UInt64.toNat_inj.mp hjm⟩
  have hkl := (of_numberIndex store l m k hk).1
  obtain ⟨_, hlk, -⟩ := hl.of_mem k hkl
  obtain ⟨b, hb⟩ := hlk.get_isSome
  cases hi.keyed k b hb
  refine ⟨b, ?_, hb, hkl⟩
  rw [getBlockByNumber, hi.canonical h l hh hl, hk, Option.bind_some, hb]

theorem StoreInv.of_getBlockByNumber (hi : StoreInv store) {h : H256} {l : List H256}
    (hh : store.head = some h) (hl : store.IsPath h l) {m : UInt64} {b : Block}
    (hb : store.getBlockByNumber m = some b) : store.getBlock b.hash = some b ∧ b.hash ∈ l := by
  rw [getBlockByNumber, hi.canonical h l hh hl] at hb
  obtain ⟨k, hk, hget⟩ := Option.bind_eq_some_iff.mp hb
  cases hi.keyed k b hget
  exact ⟨hget, (of_numberIndex store l m _ hk).1⟩

end Heights

/-! ### Runs -/

end BlockStore

/-- An operation on a block store. -/
inductive StoreOp
  | insertGenesis (b : Block)
  | insertBlock (b : Block)
  | insertHeader (h : BlockHeader)
  | recordState (h : H256) (s : StateDB)
  | pruneSnapshots
  | pruneSnapshotsKeep (keep : UInt64)
  | dropBodiesBelow (keepFrom : UInt64) (archive : Bool)

namespace StoreOp

open BlockStore

/-- Whether the operation is one of the three insertions. -/
def isInsertion : StoreOp → Bool
  | insertGenesis _ => true
  | insertBlock _ => true
  | insertHeader _ => true
  | _ => false

variable [Keccak] [Ed25519]

/-- The store after an operation, whether it succeeded or not. -/
def apply (store : BlockStore) : StoreOp → BlockStore
  | insertGenesis b => (store.insertGenesis b).2
  | insertBlock b => (store.insertBlock b).2
  | insertHeader h => (store.insertHeader h).2
  | recordState h s => store.recordState h s
  | pruneSnapshots => store.pruneSnapshots
  | pruneSnapshotsKeep keep => store.pruneSnapshotsKeep keep
  | dropBodiesBelow keepFrom archive => store.dropBodiesBelow keepFrom archive

/-- A run on a new store. -/
def run (c : PoAConsensus) (ops : List StoreOp) : BlockStore := ops.foldl apply (BlockStore.new c)

/-- What one operation can do: keep the headers, or insert one block. -/
theorem apply_cases {store : BlockStore} (hi : StoreInv store) (op : StoreOp) :
    SameHeaders store (op.apply store)
      ∨ (op.isInsertion = true ∧ ∃ b outcome, Insertable store b
        ∧ Inserted store b outcome (op.apply store)) := by
  -- an insertion that passed its checks either refuses a duplicate or inserts
  have hval : ∀ b, HeaderValid store b.header → ∀ res, res = store.insertValidated b →
      SameHeaders store res.2 ∨ ∃ b outcome, Insertable store b
        ∧ Inserted store b outcome res.2 := by
    rintro b hv res rfl
    rcases insertValidated_cases hi hv with he | ⟨outcome, store', heq, hins, hn⟩
    · exact .inl (by rw [he]; exact ⟨fun _ => rfl, rfl, rfl, rfl, rfl⟩)
    · exact .inr ⟨b, outcome, hins, by rw [heq]; exact hn⟩
  have herr : ∀ res : Except ChainError InsertOutcome × BlockStore,
      (∃ e, res = (.error e, store)) → SameHeaders store res.2 := by
    rintro _ ⟨e, rfl⟩
    exact ⟨fun _ => rfl, rfl, rfl, rfl, rfl⟩
  cases op with
  | insertGenesis b =>
    rcases insertGenesis_checks store b with he | ⟨hv, -, -, heq⟩
    · exact .inl (herr _ he)
    · exact (hval b hv _ heq).imp_right fun h => ⟨rfl, h⟩
  | insertBlock b =>
    rcases insertBlock_checks store b with he | ⟨hv, -, heq⟩
    · exact .inl (herr _ he)
    · exact (hval b hv _ heq).imp_right fun h => ⟨rfl, h⟩
  | insertHeader h =>
    rcases insertHeader_checks store h with he | ⟨hv, heq⟩
    · exact .inl (herr _ he)
    · exact (hval ⟨h, Vec.empty, Vec.empty⟩ hv _ heq).imp_right fun h => ⟨rfl, h⟩
  | recordState h s => exact .inl (sameHeaders_recordState store h s)
  | pruneSnapshots => exact .inl (sameHeaders_pruneSnapshots store)
  | pruneSnapshotsKeep k => exact .inl (sameHeaders_pruneSnapshotsKeep store k)
  | dropBodiesBelow n archive => exact .inl (sameHeaders_dropBodiesBelow store n archive)

theorem inv_apply {store : BlockStore} (hi : StoreInv store) (op : StoreOp) :
    StoreInv (op.apply store) ∧ (op.apply store).consensus = store.consensus := by
  rcases apply_cases hi op with hs | ⟨-, b, outcome, hins, hn⟩
  · exact ⟨hi.of_sameHeaders hs, hs.consensus⟩
  · exact ⟨hi.inserted hins hn, hn.consensus⟩

/-- **Every store reached by its operations satisfies the invariant.** -/
theorem inv_run (c : PoAConsensus) (ops : List StoreOp) :
    StoreInv (run c ops) ∧ (run c ops).consensus = c := by
  refine List.foldlRecOn ops apply (motive := fun s => StoreInv s ∧ s.consensus = c)
    ⟨storeInv_new c, rfl⟩ ?_
  rintro store ⟨hi, hc⟩ op -
  obtain ⟨hi', hc'⟩ := inv_apply hi op
  exact ⟨hi', hc'.trans hc⟩

theorem seals_run (c : PoAConsensus) (ops : List StoreOp) : ∀ h b,
    (run c ops).getBlock h = some b → c.verifyCryptoSeals b.header = .ok () := by
  refine (List.foldlRecOn ops apply (motive := fun s => (StoreInv s ∧ s.consensus = c)
    ∧ ∀ h b, s.getBlock h = some b → c.verifyCryptoSeals b.header = .ok ())
    ⟨⟨storeInv_new c, rfl⟩, fun h b hb => by simp [getBlock, new] at hb⟩ ?_).2
  rintro store ⟨⟨hi, hc⟩, hseals⟩ op -
  obtain ⟨hi', hc'⟩ := inv_apply hi op
  refine ⟨⟨hi', hc'.trans hc⟩, fun h b hb => ?_⟩
  rcases apply_cases hi op with hs | ⟨-, x, outcome, hins, hn⟩
  · obtain ⟨b₀, hb₀, hh⟩ := hs.getBlock hb
    rw [← hh]
    exact hseals h b₀ hb₀
  · rcases hn.of_getBlock hb with ⟨-, rfl⟩ | hb
    · rw [← hc]
      exact hins.seals
    · exact hseals h b hb

theorem size_foldl_le : ∀ (ops : List StoreOp) {store : BlockStore}, StoreInv store →
    (ops.foldl apply store).byHash.size ≤ store.byHash.size + ops.countP isInsertion := by
  intro ops
  induction ops with
  | nil => intro store _; exact Nat.le_add_right _ _
  | cons op ops ih =>
    intro store hi
    refine (ih (inv_apply hi op).1).trans ?_
    rw [List.countP_cons]
    rcases apply_cases hi op with hs | ⟨hop, b, outcome, -, hn⟩
    · rw [hs.size]
      omega
    · rw [hn.size, if_pos hop]
      omega

/-- **Links, head and height index of every store reached by its operations.**  Above height
zero the parent is stored; the head is the greatest block by height, then the smallest by hash;
the height index is the path of the head. -/
theorem canonicalIndex_run (c : PoAConsensus) (ops : List StoreOp)
    (hlt : ops.countP isInsertion < 2 ^ 64) :
    (∀ h b, (run c ops).getBlock h = some b → 0 < b.header.number →
      c.isValidator b.header.miner = true
      ∧ ∃ p, (run c ops).getBlock b.header.parentHash = some p
        ∧ b.header.number.toNat = p.header.number.toNat + 1
        ∧ p.header.timestamp ≤ b.header.timestamp)
    ∧ ((run c ops).head = none ↔ ∀ h, (run c ops).getBlock h = none)
    ∧ (∀ h, (run c ops).head = some h → ∃ b, (run c ops).getBlock h = some b
      ∧ ∀ h' b', (run c ops).getBlock h' = some b' → b'.header.number < b.header.number
        ∨ (b'.header.number = b.header.number ∧ h ≤ h'))
    ∧ ((run c ops).head = none → (run c ops).byNumber = ∅)
    ∧ (∀ h b, (run c ops).head = some h → (run c ops).getBlock h = some b →
      (∀ n, n ∈ (run c ops).byNumber ↔ n ≤ b.header.number)
      ∧ ∃ l, (run c ops).IsPath h l ∧ ∀ n ≤ b.header.number,
        ∃ x, (run c ops).getBlockByNumber n = some x ∧ x.hash ∈ l ∧ x.header.number = n
          ∧ (0 < n → ∃ y, (run c ops).getBlockByNumber (n - 1) = some y
            ∧ x.header.parentHash = y.hash)) := by
  obtain ⟨hi, hc⟩ := inv_run c ops
  have hsize : (run c ops).byHash.size < 2 ^ 64 := by
    refine lt_of_le_of_lt (size_foldl_le ops (storeInv_new c)) ?_
    simpa [BlockStore.new] using hlt
  have hpos : ∀ n : UInt64, 0 < n → n ≠ 0 := by
    rintro n hn rfl
    exact absurd hn (by decide)
  refine ⟨fun h b hb h0 => ?_, ⟨fun hn => (hi.no_head hn).2, fun hn => ?_⟩, fun h hh => ?_,
    fun hn => (hi.no_head hn).1, fun h b hh hb => ⟨hi.mem_byNumber hsize hh hb, ?_⟩⟩
  · have hm := hi.miner h b hb
    rw [hc] at hm
    obtain ⟨p, hp, -, hts⟩ := hi.linked h b hb (hpos _ h0)
    exact ⟨hm, p, hp, hi.number_parent hsize hb (hpos _ h0) hp, hts⟩
  · cases hh : (run c ops).head with
    | none => rfl
    | some h =>
      obtain ⟨b, hb, -⟩ := hi.head_max h hh
      rw [hn h] at hb
      cases hb
  · obtain ⟨b, hb, hmax⟩ := hi.head_max h hh
    exact ⟨b, hb, fun h' b' hb' => forkKey_le_iff.mp (hmax h' b' hb')⟩
  · obtain ⟨l, hl⟩ := hi.path h b hb
    refine ⟨l, hl, fun n hn => ?_⟩
    obtain ⟨x, hbn, hxl, hx, rfl⟩ := hi.entry hsize hh hb hl hn
    exact ⟨x, hbn, hxl, rfl, fun h0 => hi.entry_below hsize hh hl hxl hx (hpos _ h0)⟩

end StoreOp

namespace Devnet

/-- Two blocks on one genesis, then a pruning. -/
def storeOps : List StoreOp :=
  [.insertGenesis genesisBlock, .insertBlock blockA, .insertBlock blockB, .pruneSnapshots]

/-- On the small network the index has the heights zero and one. -/
theorem canonicalIndex_storeOps : storeOps.countP StoreOp.isInsertion < 2 ^ 64
    ∧ ∀ n, n ∈ (StoreOp.run consensus storeOps).byNumber ↔ n ≤ 1 := by
  have hlt : storeOps.countP StoreOp.isInsertion < 2 ^ 64 := by decide
  have hhead : (StoreOp.run consensus storeOps).head = some blockA.hash := by decide +kernel
  have hget : (StoreOp.run consensus storeOps).getBlock blockA.hash = some blockA := by
    decide +kernel
  have hnum : blockA.header.number = 1 := by decide +kernel
  refine ⟨hlt, fun n => ?_⟩
  rw [← hnum]
  exact ((StoreOp.canonicalIndex_run consensus storeOps hlt).2.2.2.2 _ _ hhead hget).1 n

end Devnet

end Ivory
