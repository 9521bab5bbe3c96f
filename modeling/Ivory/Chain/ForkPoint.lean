import Ivory.Chain.Canonical

/-!
# The fork point

`common_ancestor` looks for the first block of one parent chain, from the tip
downwards, that is also on the other.  The parent chains of a store are paths to
a root, so two of them that meet stay together (`Ancestry.Path.fork`); with one
genesis they always meet.

An insertion that moves the head reports the common ancestor of the old and of the
new head, which is where the transactions to undo and to apply begin.

The height of a block is the length of the parent chain below it (`heightOf`); it
is the number in the header as long as that number does not saturate.

* `StoreInv.forkPoint`: **the common ancestor is the highest block on both chains**, and
  above it the chains have nothing in common.
* `StoreOp.forkPoint_run`: and **an insertion reports it**, in every reachable store.
-/

namespace Ivory

namespace BlockStore

/-- The number of blocks below a block on its parent chain. -/
def heightOf (store : BlockStore) (h : H256) : ℕ := (store.chainFrom h).length - 1

/-- All blocks of number zero are one block. -/
def OneGenesis (store : BlockStore) : Prop :=
  ∀ h b h' b', store.getBlock h = some b → store.getBlock h' = some b' →
    b.header.number = 0 → b'.header.number = 0 → h = h'

instance (store : BlockStore) : Decidable store.OneGenesis :=
  decidable_of_iff (∀ p ∈ store.byHash.toList, ∀ q ∈ store.byHash.toList,
    p.2.header.number = 0 → q.2.header.number = 0 → p.1 = q.1)
    ⟨fun h k b k' b' hb hb' =>
        h (k, b) (Table.mem_toList.mpr hb) (k', b') (Table.mem_toList.mpr hb'),
      fun h p hp q hq => h p.1 p.2 q.1 q.2 (Table.mem_toList.mp hp) (Table.mem_toList.mp hq)⟩

/-- A block is where two parent chains part: the highest on both.  Up to it the chains are the
same, above it they have nothing in common. -/
structure ForkPoint (store : BlockStore) (a b k : H256) : Prop where
  mem_left : k ∈ store.chainFrom a
  mem_right : k ∈ store.chainFrom b
  highest : ∀ j, j ∈ store.chainFrom a → j ∈ store.chainFrom b → j ≠ k →
    store.heightOf j < store.heightOf k
  parted : ∃ shared left right, store.chainFrom a = shared ++ left
    ∧ store.chainFrom b = shared ++ right ∧ shared.getLast? = some k ∧ left.Disjoint right

theorem commonAncestor_eq {store : BlockStore} {a b : H256} {la lb : List H256}
    (ha : store.IsPath a la) (hb : store.IsPath b lb) :
    store.commonAncestor a b = lb.find? fun j => decide (j ∈ la) := by
  rw [commonAncestor, chainFrom_eq ha, chainFrom_eq hb, List.reverse_reverse]
  simp only [List.mem_reverse]

theorem heightOf_eq {store : BlockStore} {h : H256} {l : List H256} (hp : store.IsPath h l) :
    store.heightOf h = l.length - 1 := by
  rw [heightOf, chainFrom_eq hp, List.length_reverse]

section

variable [Keccak] {store store' : BlockStore}

/-- **The number in a header is the height**, up to the largest number. -/
theorem StoreInv.number_eq_heightOf (hi : StoreInv store) {h : H256} {b : Block}
    (hb : store.getBlock h = some b) :
    b.header.number.toNat = min (store.heightOf h) (2 ^ 64 - 1) := by
  obtain ⟨l, hl⟩ := hi.path h b hb
  rw [heightOf_eq hl]
  induction hl generalizing b with
  | root hg hn =>
    cases hb.symm.trans hg
    rw [number_of_parent_eq_none hn]
    rfl
  | @step k p v l hg hn hp ih =>
    obtain ⟨x, hx, hnum⟩ := hi.number_of_parent hg hn
    obtain ⟨t, rfl⟩ := hp.exists_cons
    rw [Option.some.inj (hb.symm.trans hg), hnum, UInt64.toNat_saturatingAdd, ih hx]
    simp only [List.length_cons, UInt64.toNat_one]
    omega

/-- **The common ancestor is the highest block on both chains.** -/
theorem StoreInv.forkPoint (hi : StoreInv store) (hone : store.OneGenesis) {a b : H256}
    {xa xb : Block} (ha : store.getBlock a = some xa) (hb : store.getBlock b = some xb) :
    ∃ k, store.commonAncestor a b = some k ∧ store.ForkPoint a b k := by
  obtain ⟨la, hla⟩ := hi.path a xa ha
  obtain ⟨lb, hlb⟩ := hi.path b xb hb
  obtain ⟨k, hk⟩ := hla.exists_fork hlb fun r r' v v' hr hr' hn hn' =>
    hone r v r' v' hr hr' (number_of_parent_eq_none hn) (number_of_parent_eq_none hn')
  obtain ⟨pa, pb, lk, hlk, rfl, rfl, hpa, hpb⟩ := hla.fork hlb hk
  refine ⟨k, (commonAncestor_eq hla hlb).trans hk, ?_⟩
  have hca := chainFrom_eq hla
  have hcb := chainFrom_eq hlb
  rw [List.reverse_append] at hca hcb
  refine ⟨?_, ?_, fun j hja hjb hne => ?_, lk.reverse, pa.reverse, pb.reverse, hca, hcb, ?_, ?_⟩
  · rw [hca, List.mem_append]
    exact .inl (List.mem_reverse.mpr hlk.mem_self)
  · rw [hcb, List.mem_append]
    exact .inl (List.mem_reverse.mpr hlk.mem_self)
  · -- what is on both chains is on the chain of the fork point
    rw [chainFrom_eq hla, List.mem_reverse] at hja
    rw [chainFrom_eq hlb, List.mem_reverse] at hjb
    have hj : j ∈ lk := (List.mem_append.mp hja).resolve_left fun hj => hpa j hj hjb
    obtain ⟨lj, hlj, -⟩ := hlk.of_mem j hj
    have hlt := hlk.length_lt hlj hj hne
    obtain ⟨t, rfl⟩ := hlj.exists_cons
    rw [heightOf_eq hlj, heightOf_eq hlk]
    simp only [List.length_cons] at hlt ⊢
    omega
  · obtain ⟨t, rfl⟩ := hlk.exists_cons
    rw [List.getLast?_reverse, List.head?_cons]
  · intro j hja hjb
    exact hpa j (List.mem_reverse.mp hja) (List.mem_append_left _ (List.mem_reverse.mp hjb))

/-! ### What an insertion reports -/

omit [Keccak] in
theorem commonAncestor_congr (h : store'.byHash = store.byHash) (a b : H256) :
    store'.commonAncestor a b = store.commonAncestor a b := by
  unfold commonAncestor chainFrom parentWalk getBlock
  rw [h]

theorem insertValidated_outcome {b : Block} {outcome : InsertOutcome}
    (h : store.insertValidated b = (.ok outcome, store')) :
    outcome.newHead = store'.head.getD b.hash
      ∧ outcome.headChanged = decide (store.head ≠ some outcome.newHead)
      ∧ ∀ o, store.head = some o → outcome.headChanged = true →
        outcome.ancestor = (store'.commonAncestor o outcome.newHead).getD b.hash := by
  unfold insertValidated at h
  simp only at h
  split at h
  · cases h
  · obtain ⟨hout, rfl⟩ := Prod.mk.inj h
    cases hout
    have hhead : ∀ (c : Prop) [Decidable c] (s : BlockStore),
        (if c then s.rebuildTxIndex else s).head = s.head := by
      intro c _ s
      split
      · exact rebuildTxIndex_head s
      · rfl
    have hby : ∀ (c : Prop) [Decidable c] (s : BlockStore),
        (if c then s.rebuildTxIndex else s).byHash = s.byHash := by
      intro c _ s
      split
      · exact rebuildTxIndex_byHash s
      · rfl
    refine ⟨by rw [hhead], rfl, fun o ho hch => ?_⟩
    rw [commonAncestor_congr (hby _ _)]
    simp only at hch ⊢
    rw [ho] at hch ⊢
    simp only [hch, if_true]

end

/-- A successful call of one of the three insertions. -/
inductive Inserts [Keccak] [Ed25519] (store : BlockStore) (outcome : InsertOutcome)
    (store' : BlockStore) : Prop
  | genesis (b : Block) (h : store.insertGenesis b = (.ok outcome, store'))
  | block (b : Block) (h : store.insertBlock b = (.ok outcome, store'))
  | header (header : BlockHeader) (h : store.insertHeader header = (.ok outcome, store'))

section

variable [Keccak] [Ed25519] {store store' : BlockStore} {outcome : InsertOutcome}

theorem Inserts.insertValidated (h : Inserts store outcome store') : ∃ b,
    HeaderValid store b.header ∧ store.insertValidated b = (.ok outcome, store') := by
  cases h with
  | genesis b h =>
    rcases insertGenesis_checks store b with ⟨e, he⟩ | ⟨hv, -, -, heq⟩
    · rw [he] at h
      cases h
    · exact ⟨b, hv, heq.symm.trans h⟩
  | block b h =>
    rcases insertBlock_checks store b with ⟨e, he⟩ | ⟨hv, -, heq⟩
    · rw [he] at h
      cases h
    · exact ⟨b, hv, heq.symm.trans h⟩
  | header header h =>
    rcases insertHeader_checks store header with ⟨e, he⟩ | ⟨hv, heq⟩
    · rw [he] at h
      cases h
    · exact ⟨_, hv, heq.symm.trans h⟩

/-- **An insertion reports the fork point.** -/
theorem Inserts.forkPoint (h : Inserts store outcome store') (hi : StoreInv store) :
    store'.head = some outcome.newHead
      ∧ (outcome.headChanged = true ↔ store.head ≠ store'.head)
      ∧ (store'.OneGenesis → ∀ o, store.head = some o → store'.head ≠ some o →
        store'.commonAncestor o outcome.newHead = some outcome.ancestor
        ∧ store'.chainFrom o = store.chainFrom o
        ∧ store'.ForkPoint o outcome.newHead outcome.ancestor) := by
  obtain ⟨b, hv, heq⟩ := h.insertValidated
  obtain ⟨hins, hn⟩ : Insertable store b ∧ Inserted store b outcome store' := by
    rcases insertValidated_cases hi hv with he | ⟨outcome', store'', heq', hins, hn⟩
    · rw [he] at heq
      cases heq
    · rw [heq'] at heq
      cases heq
      exact ⟨hins, hn⟩
  obtain ⟨-, hchanged, hanc⟩ := insertValidated_outcome heq
  have hiff : outcome.headChanged = true ↔ store.head ≠ store'.head := by
    rw [hchanged, hn.newHead, decide_eq_true_eq]
  refine ⟨hn.newHead, hiff, fun hone o ho hmoved => ?_⟩
  have hch : outcome.headChanged = true := by
    rw [hiff, ho]
    exact fun he => hmoved he.symm
  have hi' := hi.inserted hins hn
  obtain ⟨xo, hxo, -⟩ := hi.head_max o ho
  obtain ⟨xn, hxn, -⟩ := hi'.head_max _ hn.newHead
  obtain ⟨lo, hlo⟩ := hi.path o xo hxo
  obtain ⟨k, hk, hfork⟩ := hi'.forkPoint hone (hn.mono hins.fresh hxo) hxn
  have hkanc : k = outcome.ancestor := by
    rw [hanc o ho hch, hk, Option.getD_some]
  rw [hkanc] at hk hfork
  refine ⟨hk, ?_, hfork⟩
  rw [chainFrom_eq hlo, chainFrom_eq (hn.isPath_mono hins.fresh hlo)]

end

end BlockStore

namespace StoreOp

open BlockStore

variable [Keccak] [Ed25519]

/-- **The fork point is the true one**, in every store that is reached by its operations.  With one
genesis, `common_ancestor` of two stored blocks is the highest block on both parent chains, and
above it the chains have nothing in common.  An insertion of any kind reports the head, whether
it moved, and, with one genesis, the fork point of the old and the new one. -/
theorem forkPoint_run (c : PoAConsensus) (ops : List StoreOp) :
    (∀ h b, (run c ops).getBlock h = some b →
      b.header.number.toNat = min ((run c ops).heightOf h) (2 ^ 64 - 1))
    ∧ ((run c ops).OneGenesis → ∀ a b xa xb, (run c ops).getBlock a = some xa →
      (run c ops).getBlock b = some xb →
      ∃ k, (run c ops).commonAncestor a b = some k ∧ (run c ops).ForkPoint a b k)
    ∧ ∀ outcome store', Inserts (run c ops) outcome store' →
      store'.head = some outcome.newHead
      ∧ (outcome.headChanged = true ↔ (run c ops).head ≠ store'.head)
      ∧ (store'.OneGenesis → ∀ o, (run c ops).head = some o → store'.head ≠ some o →
        store'.commonAncestor o outcome.newHead = some outcome.ancestor
        ∧ store'.chainFrom o = (run c ops).chainFrom o
        ∧ store'.ForkPoint o outcome.newHead outcome.ancestor) := by
  have hi := (inv_run c ops).1
  exact ⟨fun h b hb => hi.number_eq_heightOf hb,
    fun hone a b xa xb ha hb => hi.forkPoint hone ha hb,
    fun outcome store' hins => hins.forkPoint hi⟩

end StoreOp

namespace Devnet

/-- A block on the genesis. -/
def oneBlock : List StoreOp := [.insertGenesis genesisBlock, .insertBlock blockB]

/-- A second block on the genesis takes the head; the two chains part at the genesis. -/
theorem forkPoint_run_oneBlock : ∃ outcome store',
    (StoreOp.run consensus oneBlock).insertBlock blockA = (.ok outcome, store')
    ∧ (StoreOp.run consensus oneBlock).head = some blockB.hash
    ∧ store'.head = some blockA.hash ∧ outcome.ancestor = genesisBlock.hash
    ∧ store'.ForkPoint blockB.hash blockA.hash genesisBlock.hash := by
  have heval : ((StoreOp.run consensus oneBlock).insertBlock blockA).1
        = .ok ⟨blockA.hash, some blockB.hash, blockA.hash, genesisBlock.hash, true⟩
      ∧ (StoreOp.run consensus oneBlock).head = some blockB.hash
      ∧ ((StoreOp.run consensus oneBlock).insertBlock blockA).2.OneGenesis
      ∧ blockA.hash ≠ blockB.hash := by decide +kernel
  obtain ⟨hok, hold, hone, hne⟩ := heval
  rcases hcall : (StoreOp.run consensus oneBlock).insertBlock blockA with ⟨res, store'⟩
  rw [hcall] at hok hone
  obtain rfl : res = _ := hok
  obtain ⟨hhead, -, hfork⟩ :=
    (StoreOp.forkPoint_run consensus oneBlock).2.2 _ _ (.block blockA hcall)
  refine ⟨_, store', rfl, hold, hhead, rfl, (hfork hone _ hold ?_).2.2⟩
  rw [hhead]
  exact fun he => hne (Option.some.inj he)

end Devnet

end Ivory
