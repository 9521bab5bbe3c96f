import Ivory.Chain.Store
import Mathlib.Data.Prod.Lex
import Mathlib.Order.Bounds.Basic

/-!
# The invariant of the block store

Every stored block is linked to a stored parent, so the parent walk from it
ends at height zero (`StoreInv.path`); the head is the greatest block in the
order of fork choice; the height index lists the path of the head.

* `insertValidated_of_fresh`, `Insertable`: what an accepted insertion needs and does.
* `StoreInv.inserted`: **an accepted insertion keeps the invariant.**
* `StoreInv.of_sameHeaders`: whatever keeps the headers, the head and the index
  keeps the invariant.
-/

namespace Ivory

open Ancestry (Path)

namespace BlockStore

/-! ### Paths, heights and fork choice -/

/-- The hashes from a stored block down to height zero, the block first. -/
abbrev IsPath (store : BlockStore) (h : H256) (l : List H256) : Prop :=
  Path store.getBlock Block.parent h l

/-- The height of a stored block. -/
def numberOf (store : BlockStore) (h : H256) : UInt64 :=
  ((store.getBlock h).map fun b => b.header.number).getD 0

theorem numberOf_eq {store : BlockStore} {h : H256} {b : Block} (hb : store.getBlock h = some b) :
    store.numberOf h = b.header.number := by rw [numberOf, hb]; rfl

/-- The order of fork choice: height first, then the smaller hash. -/
def forkKey (h : H256) (b : Block) : ℕ ×ₗ H256ᵒᵈ :=
  toLex (b.header.number.toNat, OrderDual.toDual h)

theorem forkKey_lt_iff {h h' : H256} {b b' : Block} : forkKey h b < forkKey h' b' ↔
    b.header.number < b'.header.number ∨ (b.header.number = b'.header.number ∧ h' < h) := by
  rw [forkKey, forkKey, Prod.Lex.toLex_lt_toLex, UInt64.lt_iff_toNat_lt, ← UInt64.toNat_inj]
  rfl

theorem forkKey_le_iff {h h' : H256} {b b' : Block} : forkKey h b ≤ forkKey h' b' ↔
    b.header.number < b'.header.number ∨ (b.header.number = b'.header.number ∧ h' ≤ h) := by
  rw [forkKey, forkKey, Prod.Lex.toLex_le_toLex, UInt64.lt_iff_toNat_lt, ← UInt64.toNat_inj]
  rfl

/-- The height index of a list of hashes. -/
def numberIndex (store : BlockStore) (l : List H256) : Table UInt64 H256 :=
  l.foldl (fun m h => m.insert (store.numberOf h) h) ∅

theorem IsPath.length_le_size {store : BlockStore} {h : H256} {l : List H256}
    (hp : store.IsPath h l) : l.length ≤ store.byHash.size := by
  have hle := Path.length_le hp (S := (store.byHash.toList.map Prod.fst).toFinset)
    (fun j v hj => List.mem_toFinset.mpr (List.mem_map_of_mem (Table.mem_toList.mpr hj)))
  rwa [List.toFinset_card_of_nodup (Table.nodup_keys _), List.length_map,
    Std.ExtTreeMap.length_toList] at hle

/-- **The parent walk of the store lists the path.** -/
theorem map_fst_parentWalk {store : BlockStore} {h : H256} {l : List H256}
    (hp : store.IsPath h l) : (store.parentWalk h).map Prod.fst = l :=
  Ancestry.map_fst_walk hp (IsPath.length_le_size hp)

theorem chainFrom_eq {store : BlockStore} {h : H256} {l : List H256} (hp : store.IsPath h l) :
    store.chainFrom h = l.reverse := by rw [chainFrom, map_fst_parentWalk hp]

theorem parentWalk_index {store : BlockStore} {h : H256} {l : List H256} (hp : store.IsPath h l) :
    (store.parentWalk h).foldl (fun m e => m.insert e.2.header.number e.1) ∅
      = store.numberIndex l := by
  rw [numberIndex, ← map_fst_parentWalk hp, List.foldl_map]
  refine List.foldl_ext _ _ _ fun m e he => ?_
  rw [numberOf_eq (Ancestry.get_of_mem_walk _ _ e he)]

/-- The parent that a header names is stored, one lower and not later. -/
def HasParent (store : BlockStore) (h : BlockHeader) : Prop :=
  ∃ p, store.getBlock h.parentHash = some p ∧ h.number = p.header.number.saturatingAdd 1
    ∧ p.header.timestamp ≤ h.timestamp

theorem HasParent.mono {store store' : BlockStore} {h : BlockHeader}
    (hsub : ∀ k v, store.getBlock k = some v →
      ∃ v', store'.getBlock k = some v' ∧ v'.header = v.header)
    (hp : store.HasParent h) : store'.HasParent h := by
  obtain ⟨p, hp, hnum, hts⟩ := hp
  obtain ⟨p', hp', hh⟩ := hsub _ _ hp
  exact ⟨p', hp', by rwa [hh], by rwa [hh]⟩

/-! ### Stores with the same headers -/

/-- Two stores with the same headers, head and index. -/
structure SameHeaders (store store' : BlockStore) : Prop where
  headers : ∀ h, (store'.getBlock h).map Block.header = (store.getBlock h).map Block.header
  head : store'.head = store.head
  byNumber : store'.byNumber = store.byNumber
  consensus : store'.consensus = store.consensus
  size : store'.byHash.size = store.byHash.size

namespace SameHeaders

variable {store store' : BlockStore}

theorem symm (hs : SameHeaders store store') : SameHeaders store' store :=
  ⟨fun h => (hs.headers h).symm, hs.head.symm, hs.byNumber.symm, hs.consensus.symm,
    hs.size.symm⟩

theorem trans {store'' : BlockStore} (hs : SameHeaders store store')
    (hs' : SameHeaders store' store'') : SameHeaders store store'' :=
  ⟨fun h => (hs'.headers h).trans (hs.headers h), hs'.head.trans hs.head,
    hs'.byNumber.trans hs.byNumber, hs'.consensus.trans hs.consensus, hs'.size.trans hs.size⟩

theorem getBlock (hs : SameHeaders store store') {h : H256} {b : Block}
    (hb : store'.getBlock h = some b) :
    ∃ b₀, store.getBlock h = some b₀ ∧ b₀.header = b.header := by
  have hh := hs.headers h
  rw [hb, Option.map_some] at hh
  exact Option.map_eq_some_iff.mp hh.symm

theorem isPath (hs : SameHeaders store store') {h : H256} {l : List H256}
    (hp : store'.IsPath h l) : store.IsPath h l := by
  refine Path.mono (fun k v hv => ?_) hp
  obtain ⟨b₀, hb₀, hh⟩ := hs.getBlock hv
  exact ⟨b₀, hb₀, by rw [Block.parent, Block.parent, hh]⟩

theorem numberOf (hs : SameHeaders store store') (h : H256) :
    store'.numberOf h = store.numberOf h := by
  have hn : ∀ s : BlockStore,
      s.numberOf h = (((s.getBlock h).map Block.header).map BlockHeader.number).getD 0 := by
    intro s
    rw [BlockStore.numberOf, Option.map_map]
    rfl
  rw [hn, hn, hs.headers h]

end SameHeaders

/-! ### The invariant -/

section Invariant

variable [Keccak]

/-- What holds of every store that was built by its own operations. -/
structure StoreInv (store : BlockStore) : Prop where
  keyed : ∀ h b, store.getBlock h = some b → b.hash = h
  linked : ∀ h b, store.getBlock h = some b → b.header.number ≠ 0 → store.HasParent b.header
  miner : ∀ h b, store.getBlock h = some b → store.consensus.isValidator b.header.miner = true
  genesis : ∀ h b, store.getBlock h = some b → b.header.number = 0 →
    b.header.parentHash = H256.zero
  path : ∀ h b, store.getBlock h = some b → ∃ l, store.IsPath h l
  no_head : store.head = none → store.byNumber = ∅ ∧ ∀ h, store.getBlock h = none
  head_max : ∀ h, store.head = some h → ∃ b, store.getBlock h = some b
    ∧ ∀ h' b', store.getBlock h' = some b' → forkKey h' b' ≤ forkKey h b
  canonical : ∀ h l, store.head = some h → store.IsPath h l → store.byNumber = store.numberIndex l

theorem storeInv_new (c : PoAConsensus) : StoreInv (new c) where
  keyed h b hb := by simp [getBlock, new] at hb
  linked h b hb := by simp [getBlock, new] at hb
  miner h b hb := by simp [getBlock, new] at hb
  genesis h b hb := by simp [getBlock, new] at hb
  path h b hb := by simp [getBlock, new] at hb
  no_head _ := ⟨rfl, fun h => by simp [getBlock, new]⟩
  head_max h hh := by cases hh
  canonical h l hh := by cases hh

theorem StoreInv.of_sameHeaders {store store' : BlockStore} (hi : StoreInv store)
    (hs : SameHeaders store store') : StoreInv store' where
  keyed h b hb := by
    obtain ⟨b₀, hb₀, hh⟩ := hs.getBlock hb
    rw [Block.hash, ← hh]
    exact hi.keyed h b₀ hb₀
  linked h b hb hn := by
    obtain ⟨b₀, hb₀, hh⟩ := hs.getBlock hb
    have hp := hi.linked h b₀ hb₀ (by rwa [hh])
    rw [hh] at hp
    exact hp.mono fun k v hv => hs.symm.getBlock hv
  miner h b hb := by
    obtain ⟨b₀, hb₀, hh⟩ := hs.getBlock hb
    rw [hs.consensus, ← hh]
    exact hi.miner h b₀ hb₀
  genesis h b hb hn := by
    obtain ⟨b₀, hb₀, hh⟩ := hs.getBlock hb
    rw [← hh] at hn ⊢
    exact hi.genesis h b₀ hb₀ hn
  path h b hb := by
    obtain ⟨b₀, hb₀, -⟩ := hs.getBlock hb
    obtain ⟨l, hl⟩ := hi.path h b₀ hb₀
    exact ⟨l, hs.symm.isPath hl⟩
  no_head hn := by
    rw [hs.head] at hn
    refine ⟨hs.byNumber.trans (hi.no_head hn).1, fun h => ?_⟩
    have hh := hs.headers h
    rw [(hi.no_head hn).2 h, Option.map_none, Option.map_eq_none_iff] at hh
    exact hh
  head_max h hh := by
    rw [hs.head] at hh
    obtain ⟨b₀, hb₀, hmax⟩ := hi.head_max h hh
    obtain ⟨b, hb, hbh⟩ := hs.symm.getBlock hb₀
    refine ⟨b, hb, fun h' b' hb' => ?_⟩
    obtain ⟨b₀', hb₀', hbh'⟩ := hs.getBlock hb'
    have hle := hmax h' b₀' hb₀'
    rw [forkKey_le_iff] at hle ⊢
    rwa [hbh, ← hbh']
  canonical h l hh hp := by
    rw [hs.head] at hh
    rw [hs.byNumber, hi.canonical h l hh (hs.isPath hp), numberIndex, numberIndex]
    refine List.foldl_ext _ _ _ fun m e _ => ?_
    rw [hs.numberOf e]

end Invariant

/-! ### Insertion -/

section Insertion

variable [Keccak]

/-- What an accepted insertion writes. -/
structure Inserted (store : BlockStore) (b : Block) (outcome : InsertOutcome)
    (store' : BlockStore) : Prop where
  getBlock : ∀ h, store'.getBlock h = if h = b.hash then some b else store.getBlock h
  size : store'.byHash.size = store.byHash.size + 1
  snapshots : store'.snapshots = store.snapshots
  consensus : store'.consensus = store.consensus
  hash : outcome.hash = b.hash
  oldHead : outcome.oldHead = store.head
  newHead : store'.head = some outcome.newHead
  /-- Either the block takes over and the indices are rebuilt, or the head stays. -/
  cases : (outcome.headChanged = true ∧ store'.head = some b.hash
        ∧ (∀ h b₀, store.head = some h → store.getBlock h = some b₀ →
          forkKey h b₀ < forkKey b.hash b)
        ∧ store'.byNumber
          = (store'.parentWalk b.hash).foldl (fun m e => m.insert e.2.header.number e.1) ∅
        ∧ store'.txIndex = store'.rebuildTxIndex.txIndex)
    ∨ (outcome.headChanged = false ∧ store'.head = store.head
        ∧ (∀ h b₀, store.head = some h → store.getBlock h = some b₀ →
          forkKey b.hash b ≤ forkKey h b₀)
        ∧ store'.byNumber = store.byNumber ∧ store'.txIndex = store.txIndex)

theorem getBlock_added (store : BlockStore) (b : Block) (h : H256) :
    (store.added b).getBlock h = if h = b.hash then some b else store.getBlock h :=
  Table.get_insert _ _ _ _

theorem takesHead_added {store : BlockStore} {b b₀ : Block} {h₀ : H256}
    (hf : store.getBlock b.hash = none) (hh : store.head = some h₀)
    (hb₀ : store.getBlock h₀ = some b₀) :
    (store.added b).takesHead b.hash b.header.number = true
      ↔ forkKey h₀ b₀ < forkKey b.hash b := by
  have hne : h₀ ≠ b.hash := by
    rintro rfl
    rw [hf] at hb₀
    cases hb₀
  have hget : (store.added b).getBlock h₀ = some b₀ := by rw [getBlock_added, if_neg hne, hb₀]
  have hhead : (store.added b).head = some h₀ := hh
  rw [takesHead, hhead]
  simp only [hget, Option.map_some, Option.getD_some, decide_eq_true_eq]
  rw [forkKey_lt_iff, eq_comm (a := b.header.number)]

@[simp] theorem rebuildTxIndex_head (store : BlockStore) :
    store.rebuildTxIndex.head = store.head := by
  unfold rebuildTxIndex; split <;> rfl

@[simp] theorem rebuildTxIndex_byHash (store : BlockStore) :
    store.rebuildTxIndex.byHash = store.byHash := by
  unfold rebuildTxIndex; split <;> rfl

@[simp] theorem rebuildTxIndex_byNumber (store : BlockStore) :
    store.rebuildTxIndex.byNumber = store.byNumber := by
  unfold rebuildTxIndex; split <;> rfl

@[simp] theorem rebuildTxIndex_snapshots (store : BlockStore) :
    store.rebuildTxIndex.snapshots = store.snapshots := by
  unfold rebuildTxIndex; split <;> rfl

@[simp] theorem rebuildTxIndex_consensus (store : BlockStore) :
    store.rebuildTxIndex.consensus = store.consensus := by
  unfold rebuildTxIndex; split <;> rfl

theorem rebuildTxIndex_congr {store store' : BlockStore}
    (hhead : store'.headBlock = store.headBlock)
    (hnum : ∀ n, store'.getBlockByNumber n = store.getBlockByNumber n) :
    store'.rebuildTxIndex.txIndex = store.rebuildTxIndex.txIndex := by
  unfold rebuildTxIndex
  rw [hhead]
  split
  · rfl
  · simp only [hnum]

theorem rebuildTxIndex_idem (store : BlockStore) :
    store.rebuildTxIndex.rebuildTxIndex.txIndex = store.rebuildTxIndex.txIndex := by
  refine rebuildTxIndex_congr ?_ fun n => ?_
  · unfold headBlock getBlock
    rw [rebuildTxIndex_head, rebuildTxIndex_byHash]
  · unfold getBlockByNumber getBlock
    rw [rebuildTxIndex_byNumber, rebuildTxIndex_byHash]

theorem insertValidated_of_takes {store : BlockStore} {b : Block}
    (hf : store.getBlock b.hash = none) (hne : store.head ≠ some b.hash)
    (ht : (store.added b).takesHead b.hash b.header.number = true) :
    ∃ outcome, store.insertValidated b
        = (.ok outcome, ({ store.added b with head := some b.hash }.rebuildCanonical
            b.hash).rebuildTxIndex)
      ∧ outcome.hash = b.hash ∧ outcome.oldHead = store.head ∧ outcome.newHead = b.hash
      ∧ outcome.headChanged = true := by
  have hup : (store.added b).maybeUpdateCanonical b.hash b.header.number
      = { store.added b with head := some b.hash }.rebuildCanonical b.hash := if_pos ht
  have hhead : ({ store.added b with head := some b.hash }.rebuildCanonical b.hash).head
      = some b.hash := rfl
  have hch : decide (store.head ≠ some b.hash) = true := decide_eq_true hne
  unfold insertValidated
  simp only [hf, Option.isSome_none, Bool.false_eq_true, if_false, hup, hhead, Option.getD_some,
    hch, if_true]
  exact ⟨_, rfl, rfl, rfl, rfl, rfl⟩

theorem insertValidated_of_not_takes {store : BlockStore} {b : Block} {h₀ : H256}
    (hf : store.getBlock b.hash = none) (hh : store.head = some h₀)
    (ht : (store.added b).takesHead b.hash b.header.number = false) :
    ∃ outcome, store.insertValidated b = (.ok outcome, store.added b)
      ∧ outcome.hash = b.hash ∧ outcome.oldHead = store.head ∧ outcome.newHead = h₀
      ∧ outcome.headChanged = false := by
  have hup : (store.added b).maybeUpdateCanonical b.hash b.header.number = store.added b :=
    if_neg (by rw [ht]; exact Bool.false_ne_true)
  have hhead : (store.added b).head = some h₀ := hh
  have hch : decide (store.head ≠ some h₀) = false := decide_eq_false (not_not.mpr hh)
  unfold insertValidated
  simp only [hf, Option.isSome_none, Bool.false_eq_true, if_false, hup, hhead, Option.getD_some,
    hch]
  exact ⟨_, rfl, rfl, rfl, rfl, rfl⟩

/-- **A fresh block is always inserted**, and this is what that writes. -/
theorem insertValidated_of_fresh {store : BlockStore} (hi : StoreInv store) {b : Block}
    (hf : store.getBlock b.hash = none) :
    ∃ outcome store', store.insertValidated b = (.ok outcome, store')
      ∧ Inserted store b outcome store' := by
  have hsize : (store.added b).byHash.size = store.byHash.size + 1 := by
    have hc : b.hash ∉ store.byHash := by
      rw [← Std.ExtTreeMap.isSome_getElem?_iff_mem]
      rw [getBlock] at hf
      simp [hf]
    simp [added, Std.ExtTreeMap.size_insert, hc]
  have hne : store.head ≠ some b.hash := by
    intro hh
    obtain ⟨b₀, hb₀, -⟩ := hi.head_max _ hh
    rw [hf] at hb₀
    cases hb₀
  cases ht : (store.added b).takesHead b.hash b.header.number with
  | true =>
    obtain ⟨outcome, heq, hhash, hold, hnew, hch⟩ := insertValidated_of_takes hf hne ht
    refine ⟨outcome, _, heq, ?_⟩
    have hget : ∀ h, (({ store.added b with head := some b.hash }.rebuildCanonical
        b.hash).rebuildTxIndex).getBlock h = if h = b.hash then some b else store.getBlock h := by
      intro h
      rw [getBlock, rebuildTxIndex_byHash]
      exact getBlock_added store b h
    exact
      { getBlock := hget
        size := by rw [rebuildTxIndex_byHash]; exact hsize
        snapshots := rebuildTxIndex_snapshots _
        consensus := rebuildTxIndex_consensus _
        hash := hhash
        oldHead := hold
        newHead := by rw [rebuildTxIndex_head, hnew]; rfl
        cases := .inl ⟨hch, rebuildTxIndex_head _,
          fun h b₀ hh hb₀ => (takesHead_added hf hh hb₀).mp ht, by
            rw [rebuildTxIndex_byNumber]
            unfold parentWalk
            have hg : (({ store.added b with head := some b.hash }.rebuildCanonical
                b.hash).rebuildTxIndex).getBlock = (store.added b).getBlock := by
              funext h
              rw [hget, getBlock_added]
            rw [hg, rebuildTxIndex_byHash]
            rfl,
          (rebuildTxIndex_idem _).symm⟩ }
  | false =>
    cases hh : store.head with
    | none =>
      rw [takesHead, show (store.added b).head = none from hh] at ht
      cases ht
    | some h₀ =>
      obtain ⟨outcome, heq, hhash, hold, hnew, hch⟩ := insertValidated_of_not_takes hf hh ht
      refine ⟨outcome, _, heq, ?_⟩
      exact
        { getBlock := getBlock_added store b
          size := hsize
          snapshots := rfl
          consensus := rfl
          hash := hhash
          oldHead := hold
          newHead := by rw [hnew]; exact hh
          cases := .inr ⟨hch, rfl, fun h b₀ hh' hb₀ => not_lt.mp fun hlt =>
            absurd ((takesHead_added hf hh' hb₀).mpr hlt) (by rw [ht]; exact Bool.false_ne_true),
            rfl, rfl⟩ }

namespace Inserted

variable {store store' : BlockStore} {b : Block} {outcome : InsertOutcome}

theorem mono (hn : Inserted store b outcome store') (hf : store.getBlock b.hash = none) {h : H256}
    {x : Block} (hx : store.getBlock h = some x) : store'.getBlock h = some x := by
  have hne : h ≠ b.hash := by
    rintro rfl
    rw [hf] at hx
    cases hx
  rw [hn.getBlock, if_neg hne, hx]

theorem self (hn : Inserted store b outcome store') : store'.getBlock b.hash = some b := by
  rw [hn.getBlock, if_pos rfl]

theorem of_getBlock (hn : Inserted store b outcome store') {h : H256} {x : Block}
    (hx : store'.getBlock h = some x) : (h = b.hash ∧ x = b) ∨ store.getBlock h = some x := by
  rw [hn.getBlock] at hx
  split at hx
  · next he => exact .inl ⟨he, (Option.some.inj hx).symm⟩
  · exact .inr hx

theorem isPath_mono (hn : Inserted store b outcome store') (hf : store.getBlock b.hash = none)
    {h : H256} {l : List H256} (hp : store.IsPath h l) : store'.IsPath h l :=
  Path.mono (fun _ v hv => ⟨v, hn.mono hf hv, rfl⟩) hp

theorem head_max (hn : Inserted store b outcome store') (hi : StoreInv store)
    (hf : store.getBlock b.hash = none) (h : H256) (hh : store'.head = some h) :
    ∃ x, store'.getBlock h = some x
      ∧ ∀ h' x', store'.getBlock h' = some x' → forkKey h' x' ≤ forkKey h x := by
  rcases hn.cases with ⟨-, hhead, hlt, -⟩ | ⟨-, hhead, hle, -⟩
  · rw [hhead] at hh
    cases hh
    refine ⟨b, hn.self, fun h' x' hx' => ?_⟩
    rcases hn.of_getBlock hx' with ⟨rfl, rfl⟩ | hx'
    · exact le_rfl
    · cases hold : store.head with
      | none =>
        rw [(hi.no_head hold).2] at hx'
        cases hx'
      | some h₀ =>
        obtain ⟨b₀, hb₀, hmax⟩ := hi.head_max h₀ hold
        exact (hmax h' x' hx').trans (hlt h₀ b₀ hold hb₀).le
  · rw [hhead] at hh
    obtain ⟨b₀, hb₀, hmax⟩ := hi.head_max h hh
    refine ⟨b₀, hn.mono hf hb₀, fun h' x' hx' => ?_⟩
    rcases hn.of_getBlock hx' with ⟨rfl, rfl⟩ | hx'
    · exact hle h b₀ hh hb₀
    · exact hmax h' x' hx'

/-- The height index after an insertion is that of the path of the head again. -/
theorem canonical (hn : Inserted store b outcome store') (hi : StoreInv store)
    (hf : store.getBlock b.hash = none) (h : H256) (l : List H256) (hh : store'.head = some h)
    (hp : store'.IsPath h l) : store'.byNumber = store'.numberIndex l := by
  rcases hn.cases with ⟨-, hhead, -, hidx, -⟩ | ⟨-, hhead, -, hidx, -⟩
  · rw [hhead] at hh
    cases hh
    rw [hidx, parentWalk_index hp]
  · rw [hhead] at hh
    obtain ⟨b₀, hb₀, -⟩ := hi.head_max h hh
    obtain ⟨l₀, hl₀⟩ := hi.path h b₀ hb₀
    -- the path of the head did not change, nor did the heights on it
    rw [← (hn.isPath_mono hf hl₀).unique hp, hidx, hi.canonical h l₀ hh hl₀, numberIndex,
      numberIndex]
    refine List.foldl_ext _ _ _ fun m e he => ?_
    obtain ⟨_, hpe, -⟩ := hl₀.of_mem e he
    obtain ⟨x, hx⟩ := hpe.get_isSome
    rw [numberOf_eq hx, numberOf_eq (hn.mono hf hx)]

end Inserted

end Insertion

/-! ### The checks of an insertion -/

section Checks

variable [Keccak] [Ed25519]

/-- The checks on the header of a block. -/
structure HeaderValid (store : BlockStore) (h : BlockHeader) : Prop where
  miner : store.consensus.isValidator h.miner = true
  seals : store.consensus.verifyCryptoSeals h = .ok ()
  genesis : h.number = 0 → h.parentHash = H256.zero
  parent : h.number ≠ 0 → store.HasParent h

/-- What the checks of an insertion establish. -/
structure Insertable (store : BlockStore) (b : Block) : Prop
    extends HeaderValid store b.header where
  fresh : store.getBlock b.hash = none

section Step

variable {store store' : BlockStore} {b : Block} {outcome : InsertOutcome}

theorem Inserted.exists_isPath (hn : Inserted store b outcome store') (hi : StoreInv store)
    (hb : Insertable store b) : ∃ l, store'.IsPath b.hash l := by
  by_cases h0 : b.header.number = 0
  · exact ⟨_, .root hn.self (if_pos h0)⟩
  · obtain ⟨p, hp, -⟩ := hb.parent h0
    obtain ⟨l, hl⟩ := hi.path _ p hp
    exact ⟨_, .step hn.self (if_neg h0) (hn.isPath_mono hb.fresh hl)⟩

/-- **An accepted insertion keeps the invariant.** -/
theorem StoreInv.inserted (hi : StoreInv store) (hb : Insertable store b)
    (hn : Inserted store b outcome store') : StoreInv store' where
  keyed h x hx := by
    rcases hn.of_getBlock hx with ⟨rfl, rfl⟩ | hx
    · rfl
    · exact hi.keyed h x hx
  linked h x hx h0 := by
    have hsub : ∀ k v, store.getBlock k = some v →
        ∃ v', store'.getBlock k = some v' ∧ v'.header = v.header :=
      fun k v hv => ⟨v, hn.mono hb.fresh hv, rfl⟩
    rcases hn.of_getBlock hx with ⟨rfl, rfl⟩ | hx
    · exact (hb.parent h0).mono hsub
    · exact (hi.linked h x hx h0).mono hsub
  miner h x hx := by
    rw [hn.consensus]
    rcases hn.of_getBlock hx with ⟨rfl, rfl⟩ | hx
    · exact hb.miner
    · exact hi.miner h x hx
  genesis h x hx h0 := by
    rcases hn.of_getBlock hx with ⟨rfl, rfl⟩ | hx
    · exact hb.genesis h0
    · exact hi.genesis h x hx h0
  path h x hx := by
    rcases hn.of_getBlock hx with ⟨rfl, rfl⟩ | hx
    · exact hn.exists_isPath hi hb
    · obtain ⟨l, hl⟩ := hi.path h x hx
      exact ⟨l, hn.isPath_mono hb.fresh hl⟩
  no_head hno := by
    rw [hn.newHead] at hno
    cases hno
  head_max := hn.head_max hi hb.fresh
  canonical := hn.canonical hi hb.fresh

end Step

/-! ### What the insertions check -/

section Calls

variable {store : BlockStore} {b : Block}

/-- An insertion after its checks: a duplicate is refused, a fresh block inserted. -/
theorem insertValidated_cases (hi : StoreInv store) (hv : HeaderValid store b.header) :
    store.insertValidated b = (.error .duplicateBlock, store)
      ∨ ∃ outcome store', store.insertValidated b = (.ok outcome, store') ∧ Insertable store b
        ∧ Inserted store b outcome store' := by
  cases hf : store.getBlock b.hash with
  | some x =>
    left
    unfold insertValidated
    simp [hf]
  | none =>
    obtain ⟨outcome, store', heq, hn⟩ := insertValidated_of_fresh hi hf
    exact .inr ⟨outcome, store', heq, ⟨hv, hf⟩, hn⟩

theorem HeaderValid.of_parent {h : BlockHeader} {p : Block} (h0 : h.number ≠ 0)
    (hp : store.getBlock h.parentHash = some p)
    (hnum : h.number = p.header.number.saturatingAdd 1)
    (hv : store.consensus.validateHeader h (some p.header) = .ok ()) : HeaderValid store h := by
  obtain ⟨hm, hts, hs⟩ := PoAConsensus.validateHeader_eq_ok.mp hv
  exact ⟨hm, hs, fun h => absurd h h0, fun _ => ⟨p, hp, hnum, hts p.header rfl⟩⟩

theorem HeaderValid.exists_parent {h : BlockHeader} (hv : HeaderValid store h)
    (h0 : h.number ≠ 0) : ∃ p, store.getBlock h.parentHash = some p
      ∧ h.number = p.header.number.saturatingAdd 1
      ∧ store.consensus.validateHeader h (some p.header) = .ok () := by
  obtain ⟨p, hp, hnum, hts⟩ := hv.parent h0
  refine ⟨p, hp, hnum, PoAConsensus.validateHeader_eq_ok.mpr ⟨hv.miner, fun q hq => ?_, hv.seals⟩⟩
  cases hq
  exact hts

theorem insertGenesis_checks (store : BlockStore) (b : Block) :
    (∃ e, store.insertGenesis b = (.error e, store))
      ∨ (HeaderValid store b.header ∧ b.header.number = 0 ∧ b.validate = .ok ()
        ∧ store.insertGenesis b = store.insertValidated b) := by
  unfold insertGenesis
  split
  · exact .inl ⟨_, rfl⟩
  · next hg =>
    push Not at hg
    split
    · exact .inl ⟨_, rfl⟩
    · next hv =>
      split
      · exact .inl ⟨_, rfl⟩
      · next hb =>
        obtain ⟨hm, -, hs⟩ := PoAConsensus.validateHeader_eq_ok.mp hv
        exact .inr ⟨⟨hm, hs, fun _ => hg.2, fun h => absurd hg.1 h⟩, hg.1, hb, rfl⟩

theorem insertGenesis_eq (hv : HeaderValid store b.header) (h0 : b.header.number = 0)
    (hb : b.validate = .ok ()) : store.insertGenesis b = store.insertValidated b := by
  have hok : store.consensus.validateHeader b.header none = .ok () :=
    PoAConsensus.validateHeader_eq_ok.mpr ⟨hv.miner, fun p hp => absurd hp (by simp), hv.seals⟩
  unfold insertGenesis
  rw [if_neg (by simp [h0, hv.genesis h0]), hok, hb]

/-- The checks of `insertBlock`: an error leaves the store, otherwise the header is
valid and the lists of the block match their roots. -/
theorem insertBlock_checks (store : BlockStore) (b : Block) :
    (∃ e, store.insertBlock b = (.error e, store))
      ∨ (HeaderValid store b.header ∧ b.validate = .ok ()
        ∧ store.insertBlock b = store.insertValidated b) := by
  unfold insertBlock
  split
  · rcases insertGenesis_checks store b with he | ⟨hv, -, hb, heq⟩
    · exact .inl he
    · exact .inr ⟨hv, hb, heq⟩
  · next h0 =>
    split
    · exact .inl ⟨_, rfl⟩
    · next p hp =>
      simp only
      split
      · exact .inl ⟨_, rfl⟩
      · next hnum =>
        split
        · exact .inl ⟨_, rfl⟩
        · next hv =>
          split
          · exact .inl ⟨_, rfl⟩
          · next hb =>
            exact .inr ⟨.of_parent h0 hp (not_not.mp hnum) hv, hb, rfl⟩

theorem insertBlock_eq (hv : HeaderValid store b.header) (hb : b.validate = .ok ()) :
    store.insertBlock b = store.insertValidated b := by
  unfold insertBlock
  by_cases h0 : b.header.number = 0
  · rw [if_pos h0, insertGenesis_eq hv h0 hb]
  · obtain ⟨p, hp, hnum, hok⟩ := hv.exists_parent h0
    simp only [if_neg h0, hp, hok, hb]
    rw [if_neg (not_not.mpr hnum)]

theorem insertHeader_checks (store : BlockStore) (h : BlockHeader) :
    (∃ e, store.insertHeader h = (.error e, store))
      ∨ (HeaderValid store h
        ∧ store.insertHeader h = store.insertValidated ⟨h, Vec.empty, Vec.empty⟩) := by
  unfold insertHeader
  split
  · exact .inl ⟨_, rfl⟩
  · next h0 =>
    split
    · exact .inl ⟨_, rfl⟩
    · next p hp =>
      simp only
      split
      · exact .inl ⟨_, rfl⟩
      · next hnum =>
        split
        · exact .inl ⟨_, rfl⟩
        · next hv =>
          exact .inr ⟨.of_parent h0 hp (not_not.mp hnum) hv, rfl⟩

/-- A header that passes the checks gets through to the insertion, as a block without a body. -/
theorem insertHeader_eq {h : BlockHeader} (hv : HeaderValid store h) (h0 : h.number ≠ 0) :
    store.insertHeader h = store.insertValidated ⟨h, Vec.empty, Vec.empty⟩ := by
  obtain ⟨p, hp, hnum, hok⟩ := hv.exists_parent h0
  unfold insertHeader
  simp only [if_neg h0, hp, hok]
  rw [if_neg (not_not.mpr hnum)]

/-- **A call of `insertBlock` leaves the store, or inserts a valid block.** -/
theorem insertBlock_cases (hi : StoreInv store) (b : Block) :
    (∃ e, store.insertBlock b = (.error e, store))
      ∨ ∃ outcome store', store.insertBlock b = (.ok outcome, store') ∧ Insertable store b
        ∧ b.validate = .ok () ∧ Inserted store b outcome store' := by
  rcases insertBlock_checks store b with he | ⟨hv, hb, heq⟩
  · exact .inl he
  · rw [heq]
    rcases insertValidated_cases hi hv with he | ⟨outcome, store', heq', hins, hn⟩
    · exact .inl ⟨_, he⟩
    · exact .inr ⟨outcome, store', heq', hins, hb, hn⟩

end Calls

end Checks

end BlockStore

end Ivory
