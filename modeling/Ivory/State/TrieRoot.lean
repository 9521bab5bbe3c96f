import Ivory.State.Trie

/-!
# The root determines the items

Two tries with the same root hold the same items, as long as no two of the
node encodings stored for them collide.  The proof goes down both tries at
once: equal hashes give equal encodings, equal encodings give equal nodes, and
equal nodes have the same shape.

* `WellKeyed`: distinct keys made of nibbles, the hypothesis under which a trie
  loses nothing.
* `mem_of_buildNode_eq`: **the node determines the items**, by induction on the fuel.
* `patriciaRoot_inj`: **the root determines the pairs.**
-/

namespace Ivory

/-! ### Well-formed keys -/

/-- Distinct keys made of nibbles, short enough for a vector. -/
structure WellKeyed (items : List Item) : Prop where
  nodup : (items.map Prod.fst).Nodup
  nibbles : ∀ kv ∈ items, ∀ x ∈ kv.1, x.toNat < 16
  short : ∀ kv ∈ items, kv.1.length < 2 ^ 64

theorem take_sharedLen : ∀ (a b : List UInt8) (n : ℕ), n ≤ sharedLen a b →
    b.take n = a.take n := by
  intro a
  induction a with
  | nil =>
    intro b n hn
    have : n = 0 := by simpa [sharedLen] using hn
    simp [this]
  | cons x a ih =>
    intro b n hn
    cases n with
    | zero => rfl
    | succ n =>
      cases b with
      | nil => simp [sharedLen] at hn
      | cons y b =>
        rw [sharedLen] at hn
        split_ifs at hn with hxy
        · rw [List.take_succ_cons, List.take_succ_cons, hxy, ih b n (by omega)]
        · omega

theorem foldl_min_le (first : List UInt8) : ∀ (rest : List Item) (n : ℕ),
    rest.foldl (fun n kv => min n (sharedLen first kv.1)) n ≤ n
      ∧ ∀ kv ∈ rest, rest.foldl (fun n kv => min n (sharedLen first kv.1)) n
          ≤ sharedLen first kv.1 := by
  intro rest
  induction rest with
  | nil => intro n; simp
  | cons kv rest ih =>
    intro n
    rw [List.foldl_cons]
    obtain ⟨h₁, h₂⟩ := ih (min n (sharedLen first kv.1))
    refine ⟨h₁.trans (min_le_left _ _), ?_⟩
    intro q hq
    rcases List.mem_cons.mp hq with rfl | hq
    · exact h₁.trans (min_le_right _ _)
    · exact h₂ q hq

theorem take_commonPrefixLen {first : Item} {rest : List Item} :
    ∀ kv ∈ first :: rest, kv.1.take (commonPrefixLen (first :: rest))
      = first.1.take (commonPrefixLen (first :: rest)) := by
  intro kv hkv
  rcases List.mem_cons.mp hkv with rfl | hkv
  · rfl
  · exact take_sharedLen _ _ _ ((foldl_min_le first.1 rest first.1.length).2 kv hkv)

theorem commonPrefixLen_le {first : Item} {rest : List Item} :
    commonPrefixLen (first :: rest) ≤ first.1.length :=
  (foldl_min_le first.1 rest first.1.length).1

theorem mem_strip {n : ℕ} {items : List Item} {k : List UInt8} {v : Bytes} :
    (k, v) ∈ strip n items ↔ ∃ kv ∈ items, kv.1.drop n = k ∧ kv.2 = v := by
  simp only [strip, List.mem_map, Prod.mk.injEq]

theorem mem_group {i : UInt8} {items : List Item} {k : List UInt8} {v : Bytes} :
    (k, v) ∈ group i items ↔ (i :: k, v) ∈ items := by
  simp only [group, List.mem_map, List.mem_filter, decide_eq_true_eq, Prod.mk.injEq]
  constructor
  · rintro ⟨⟨q, w⟩, ⟨hq, hh⟩, ht, rfl⟩
    cases q with
    | nil => cases hh
    | cons x q =>
      cases hh
      cases ht
      exact hq
  · intro h
    exact ⟨(i :: k, v), ⟨h, rfl⟩, rfl, rfl⟩

theorem WellKeyed.strip {items : List Item} {n : ℕ} {p : List UInt8} (h : WellKeyed items)
    (hp : ∀ kv ∈ items, kv.1.take n = p) : WellKeyed (strip n items) where
  nodup := by
    rw [Ivory.strip, List.map_map]
    refine (List.nodup_map_iff_inj_on h.nodup.of_map).mpr ?_
    intro a ha b hb hab
    have hk : a.1 = b.1 := by
      rw [← List.take_append_drop n a.1, ← List.take_append_drop n b.1, hp a ha, hp b hb]
      exact congrArg (p ++ ·) hab
    exact List.inj_on_of_nodup_map h.nodup ha hb hk
  nibbles := by
    rintro ⟨k, v⟩ hkv x hx
    obtain ⟨kv, hmem, rfl, rfl⟩ := mem_strip.mp hkv
    exact h.nibbles kv hmem x (List.mem_of_mem_drop hx)
  short := by
    rintro ⟨k, v⟩ hkv
    obtain ⟨kv, hmem, rfl, rfl⟩ := mem_strip.mp hkv
    have := h.short kv hmem
    rw [List.length_drop]
    omega

theorem WellKeyed.group {items : List Item} (h : WellKeyed items) (i : UInt8) :
    WellKeyed (group i items) where
  nodup := by
    have hnd : (items.filter fun kv => kv.1.head? = some i).Nodup := h.nodup.of_map.filter _
    rw [Ivory.group, List.map_map]
    refine (List.nodup_map_iff_inj_on hnd).mpr ?_
    intro a ha b hb hab
    rw [List.mem_filter, decide_eq_true_eq] at ha hb
    refine List.inj_on_of_nodup_map h.nodup ha.1 hb.1 ?_
    rw [← List.cons_head?_tail ha.2, ← List.cons_head?_tail hb.2]
    exact congrArg (i :: ·) hab
  nibbles := by
    rintro ⟨k, v⟩ hkv x hx
    exact h.nibbles _ (mem_group.mp hkv) x (List.mem_cons_of_mem _ hx)
  short := by
    rintro ⟨k, v⟩ hkv
    have hlt : k.length + 1 < 2 ^ 64 := h.short _ (mem_group.mp hkv)
    exact Nat.lt_of_succ_lt hlt

theorem emptyKeyValue_eq_some {items : List Item} {v : Bytes} (h : emptyKeyValue items = some v) :
    ([], v) ∈ items := by
  obtain ⟨⟨k, w⟩, hf, rfl⟩ := Option.map_eq_some_iff.mp h
  have hk : k.isEmpty = true := by simpa using List.find?_some hf
  have hmem := List.mem_reverse.mp (List.mem_of_find?_eq_some hf)
  rwa [List.isEmpty_iff.mp hk] at hmem

theorem emptyKeyValue_of_mem {items : List Item} (hnd : (items.map Prod.fst).Nodup) {v : Bytes}
    (h : ([], v) ∈ items) : emptyKeyValue items = some v := by
  have hsome : (items.reverse.find? fun kv => kv.1.isEmpty).isSome :=
    List.find?_isSome.mpr ⟨_, List.mem_reverse.mpr h, rfl⟩
  obtain ⟨kv, hf⟩ := Option.isSome_iff_exists.mp hsome
  have hw : emptyKeyValue items = some kv.2 := by rw [emptyKeyValue, hf]; rfl
  have heq := List.inj_on_of_nodup_map hnd h (emptyKeyValue_eq_some hw) rfl
  rw [hw, ← (Prod.mk.inj heq).2]

/-- Enough fuel for the keys at hand. -/
def Enough (fuel : ℕ) (items : List Item) : Prop := ∀ kv ∈ items, kv.1.length < fuel

theorem Enough.strip {fuel n : ℕ} {first : Item} {rest : List Item}
    (h : Enough (fuel + 1) (first :: rest)) (hn : n > 0)
    (hp : ∀ kv ∈ first :: rest, kv.1.take n = first.1.take n) (hle : n ≤ first.1.length) :
    Enough fuel (strip n (first :: rest)) := by
  rintro ⟨k, v⟩ hkv
  obtain ⟨kv, hmem, rfl, rfl⟩ := mem_strip.mp hkv
  have hlt := h kv hmem
  have hlen : n ≤ kv.1.length := by
    have := congrArg List.length (hp kv hmem)
    rw [List.length_take, List.length_take] at this
    omega
  show (kv.1.drop n).length < fuel
  rw [List.length_drop]
  omega

theorem Enough.group {fuel : ℕ} {items : List Item} (h : Enough (fuel + 1) items) (i : UInt8) :
    Enough fuel (group i items) := by
  rintro ⟨k, v⟩ hkv
  have hlt : k.length + 1 < fuel + 1 := h _ (mem_group.mp hkv)
  exact Nat.lt_of_succ_lt_succ hlt

/-! ### From bytes to items -/

theorem enough_fuelFor (items : List Item) : Enough (fuelFor items) items := by
  intro kv hkv
  have hle : ∀ l : List ℕ, ∀ n ∈ l, n ≤ l.foldr max 0 := by
    intro l
    induction l with
    | nil => simp
    | cons a l ih =>
      intro n hn
      rw [List.foldr_cons]
      rcases List.mem_cons.mp hn with rfl | hn
      · exact le_max_left _ _
      · exact (ih n hn).trans (le_max_right _ _)
  exact Nat.lt_succ_of_le (hle _ _ (List.mem_map_of_mem hkv))

theorem nibble_hi (b : UInt8) : (b >>> 4).toNat = b.toNat / 16 := by
  simp [UInt8.toNat_shiftRight, Nat.shiftRight_eq_div_pow]

theorem nibble_lo (b : UInt8) : (b &&& 0x0f).toNat = b.toNat % 16 := by
  rw [UInt8.toNat_and]
  exact Nat.and_two_pow_sub_one_eq_mod b.toNat 4

theorem toNibbles_injective : Function.Injective toNibbles := by
  intro a
  induction a with
  | nil =>
    intro b h
    cases b with
    | nil => rfl
    | cons y b => simp [toNibbles] at h
  | cons x a ih =>
    intro b h
    cases b with
    | nil => simp [toNibbles] at h
    | cons y b =>
      simp only [toNibbles, List.flatMap_cons, List.cons_append, List.nil_append,
        List.cons.injEq] at h
      have hhi := congrArg UInt8.toNat h.1
      have hlo := congrArg UInt8.toNat h.2.1
      rw [nibble_hi, nibble_hi] at hhi
      rw [nibble_lo, nibble_lo] at hlo
      have hxy : x = y := UInt8.toNat_inj.mp (by omega)
      rw [hxy, ih h.2.2]

theorem toNibbles_lt {bytes : List UInt8} {x : UInt8} (h : x ∈ toNibbles bytes) : x.toNat < 16 := by
  obtain ⟨b, -, hx⟩ := List.mem_flatMap.mp h
  have hb : b.toNat < 256 := b.toNat_lt
  rcases List.mem_cons.mp hx with rfl | hx
  · rw [nibble_hi]
    omega
  · rw [List.mem_singleton.mp hx, nibble_lo]
    omega

theorem toNibbles_length (bytes : List UInt8) : (toNibbles bytes).length = 2 * bytes.length := by
  induction bytes with
  | nil => rfl
  | cons b bytes ih =>
    rw [toNibbles, List.flatMap_cons, List.length_append, List.length_cons]
    change _ + (toNibbles bytes).length = _
    rw [ih]
    simp
    omega

/-- The sorted items of a list of pairs, as `patricia_nodes` collects them. -/
def trieItems (pairs : List (List UInt8 × Bytes)) : List Item :=
  (pairs.foldl (fun m kv => m.insert (toNibbles kv.1) kv.2) (∅ : Table (List UInt8) Bytes)).toList

/-- **The items are the last values of the keys**, in nibbles. -/
theorem mem_trieItems {pairs : List (List UInt8 × Bytes)} {k : List UInt8} {v : Bytes} :
    (k, v) ∈ trieItems pairs ↔
      ∃ key, Table.lastValue pairs key = some v ∧ toNibbles key = k := by
  have hfold : pairs.foldl (fun m kv => m.insert (toNibbles kv.1) kv.2)
        (∅ : Table (List UInt8) Bytes)
      = (pairs.map fun kv => (toNibbles kv.1, kv.2)).foldl (fun m kv => m.insert kv.1 kv.2) ∅ := by
    rw [List.foldl_map]
  rw [trieItems, Table.mem_toList, hfold, Table.get_foldl_insert_last,
    Std.ExtTreeMap.getElem?_empty, Option.or_none]
  constructor
  · intro h
    obtain ⟨⟨key, w⟩, -, he⟩ := List.mem_map.mp (Table.mem_of_lastValue h)
    cases he
    exact ⟨key, by rwa [Table.lastValue_map toNibbles_injective] at h, rfl⟩
  · rintro ⟨key, h, rfl⟩
    rwa [Table.lastValue_map toNibbles_injective]

theorem mem_trieItems_of_nodup {pairs : List (List UInt8 × Bytes)}
    (hnd : (pairs.map Prod.fst).Nodup) {k : List UInt8} {v : Bytes} :
    (k, v) ∈ trieItems pairs ↔ ∃ key, (key, v) ∈ pairs ∧ toNibbles key = k := by
  simp only [mem_trieItems, Table.lastValue_eq_some_iff hnd]

theorem wellKeyed_trieItems {pairs : List (List UInt8 × Bytes)}
    (hshort : ∀ kv ∈ pairs, kv.1.length < 2 ^ 63) : WellKeyed (trieItems pairs) where
  nodup := Table.nodup_keys _
  nibbles := by
    rintro ⟨k, v⟩ hkv x hx
    obtain ⟨key, -, rfl⟩ := mem_trieItems.mp hkv
    exact toNibbles_lt hx
  short := by
    rintro ⟨k, v⟩ hkv
    obtain ⟨key, hm, rfl⟩ := mem_trieItems.mp hkv
    have hlt : key.length < 2 ^ 63 := hshort _ (Table.mem_of_lastValue hm)
    show (toNibbles key).length < 2 ^ 64
    rw [toNibbles_length]
    omega

/-! ### Going down two tries at once -/

section Roots

variable [Keccak]

/-- The encodings among the stored nodes. -/
def encodings (w : Written) : Set (List UInt8) := { e | ∃ h, (h, e) ∈ w }

theorem encodings_storeNode (r : TrieNode × Written) :
    encodings (storeNode r).2 = insert (TrieNode.codec.encode r.1) (encodings r.2) := by
  ext e
  simp only [encodings, storeNode, Set.mem_ofPred_eq, List.mem_append, List.mem_singleton,
    Prod.mk.injEq, Set.mem_insert_iff]
  constructor
  · rintro ⟨h, h' | ⟨-, rfl⟩⟩
    · exact .inr ⟨h, h'⟩
    · exact .inl rfl
  · rintro (rfl | ⟨h, h'⟩)
    · exact ⟨_, .inr ⟨rfl, rfl⟩⟩
    · exact ⟨h, .inl h'⟩

theorem node_eq_of_storeNode_eq {r r' : TrieNode × Written} {S : Set (List UInt8)}
    (hS : CollisionFree S) (hr : encodings (storeNode r).2 ⊆ S)
    (hr' : encodings (storeNode r').2 ⊆ S) (h : (storeNode r).1 = (storeNode r').1) :
    r.1 = r'.1 := by
  rw [encodings_storeNode] at hr hr'
  have he := hS (hr (Set.mem_insert _ _)) (hr' (Set.mem_insert _ _)) h
  exact TrieNode.codec.encode_injective he

theorem branchChild_of_mem {build : List Item → TrieNode × Written} {items : List Item} {i : ℕ}
    {kv : Item} (h : kv ∈ group (UInt8.ofNat i) items) :
    branchChild build items i = (some (storeNode (build (group (UInt8.ofNat i) items))).1,
      (storeNode (build (group (UInt8.ofNat i) items))).2) := by
  have hne : (group (UInt8.ofNat i) items).isEmpty = false :=
    List.isEmpty_eq_false_iff.mpr (List.ne_nil_of_mem h)
  simp [branchChild, hne]

theorem branchChild_eq_some {build : List Item → TrieNode × Written} {items : List Item} {i : ℕ}
    {h : H256} (hc : (branchChild build items i).1 = some h) :
    (storeNode (build (group (UInt8.ofNat i) items))).1 = h
      ∧ branchChild build items i = (some (storeNode (build (group (UInt8.ofNat i) items))).1,
        (storeNode (build (group (UInt8.ofNat i) items))).2) := by
  simp only [branchChild] at hc ⊢
  split_ifs at hc ⊢
  exact ⟨Option.some.inj hc, rfl⟩

/-! What a node says about the items it was built from. -/

theorem items_of_empty {fuel : ℕ} {items : List Item} (he : Enough fuel items)
    (h : (buildNodeCollected fuel items).1 = .empty) : items = [] := by
  cases fuel with
  | zero => exact List.eq_nil_iff_forall_not_mem.mpr fun kv hkv => Nat.not_lt_zero _ (he kv hkv)
  | succ fuel =>
    match items with
    | [] => rfl
    | [item] => cases h
    | first :: second :: rest =>
      rw [buildNodeCollected] at h
      simp only at h
      split_ifs at h

theorem items_of_leaf {fuel : ℕ} {items : List Item} {path value : Bytes}
    (h : (buildNodeCollected fuel items).1 = .leaf path value) :
    ∃ item, items = [item] ∧ Vec.ofList item.1 = path ∧ item.2 = value := by
  cases fuel with
  | zero => cases h
  | succ fuel =>
    match items with
    | [] => cases h
    | [item] =>
      cases h
      exact ⟨item, rfl, rfl, rfl⟩
    | first :: second :: rest =>
      rw [buildNodeCollected] at h
      simp only at h
      split_ifs at h

/-- Under an extension all keys start with its path, and the child holds what follows. -/
theorem items_of_extension {fuel : ℕ} {items : List Item} {path : Bytes} {child : H256}
    (he : Enough fuel items) (hw : WellKeyed items)
    (h : (buildNodeCollected fuel items).1 = .extension path child) :
    ∃ fuel' n, fuel = fuel' + 1 ∧ path.toList ≠ []
      ∧ (∀ kv ∈ items, kv.1.take n = path.toList)
      ∧ Enough fuel' (strip n items)
      ∧ (storeNode (buildNodeCollected fuel' (strip n items))).1 = child
      ∧ (buildNodeCollected fuel items).2
          = (storeNode (buildNodeCollected fuel' (strip n items))).2 := by
  cases fuel with
  | zero => cases h
  | succ fuel =>
    match items with
    | [] => cases h
    | [item] => cases h
    | first :: second :: rest =>
      rw [buildNodeCollected] at h ⊢
      simp only at h ⊢
      split_ifs at h ⊢ with hn
      cases h
      have htake := @take_commonPrefixLen first (second :: rest)
      have hshort : (first.1.take (commonPrefixLen (first :: second :: rest))).length < 2 ^ 64 :=
        (List.length_take_le' _ _).trans_lt (hw.short first List.mem_cons_self)
      have hle := @commonPrefixLen_le first (second :: rest)
      rw [Vec.toList_ofList hshort]
      refine ⟨fuel, _, rfl, fun hnil => ?_, htake, he.strip hn htake hle, rfl, rfl⟩
      have hlen := congrArg List.length hnil
      rw [List.length_take, List.length_nil] at hlen
      omega

theorem items_of_branch {fuel : ℕ} {items : List Item} {children : Arr (Option H256) 16}
    {value : Option Bytes} (h : (buildNodeCollected fuel items).1 = .branch children value) :
    ∃ fuel', fuel = fuel' + 1 ∧ value = emptyKeyValue items
      ∧ children = Arr.ofFn 16 (fun i => (branchChild (buildNodeCollected fuel') items i).1)
      ∧ (buildNodeCollected fuel items).2
          = (List.range 16).flatMap fun i =>
            (branchChild (buildNodeCollected fuel') items i).2 := by
  cases fuel with
  | zero => cases h
  | succ fuel =>
    match items with
    | [] => cases h
    | [item] => cases h
    | first :: second :: rest =>
      rw [buildNodeCollected] at h ⊢
      simp only at h ⊢
      split_ifs at h ⊢ with hn
      cases h
      exact ⟨fuel, rfl, rfl, rfl, rfl⟩

/-- **The node determines the items**: whatever one of two equal nodes was built
from, the other was built from as well. -/
theorem mem_of_buildNode_eq {S : Set (List UInt8)} (hS : CollisionFree S) :
    ∀ (fuel fuel' : ℕ) (items items' : List Item), WellKeyed items → WellKeyed items' →
      Enough fuel items → Enough fuel' items' →
      encodings (buildNodeCollected fuel items).2 ⊆ S →
      encodings (buildNodeCollected fuel' items').2 ⊆ S →
      (buildNodeCollected fuel items).1 = (buildNodeCollected fuel' items').1 →
      ∀ kv ∈ items, kv ∈ items' := by
  intro fuel
  induction fuel with
  | zero =>
    intro fuel' items items' _ _ he _ _ _ _ kv hkv
    exact absurd (he kv hkv) (Nat.not_lt_zero _)
  | succ fuel ih =>
    intro fuel' items items' hw hw' he he' hs hs' heq kv hkv
    cases hnode : (buildNodeCollected (fuel + 1) items).1 with
    | empty =>
      rw [items_of_empty he hnode] at hkv
      cases hkv
    | leaf path value =>
      obtain ⟨item, rfl, hp, hv⟩ := items_of_leaf hnode
      obtain ⟨item', rfl, hp', hv'⟩ := items_of_leaf (heq.symm.trans hnode)
      have hk := Vec.ofList_injOn (hw.short item List.mem_cons_self)
        (hw'.short item' List.mem_cons_self) (hp.trans hp'.symm)
      rw [List.mem_singleton] at hkv ⊢
      rw [hkv]
      exact Prod.ext hk (hv.trans hv'.symm)
    | extension path child =>
      obtain ⟨f, n, hf, -, hpre, hen, hc, hout⟩ := items_of_extension he hw hnode
      obtain ⟨f', n', hf', -, hpre', hen', hc', hout'⟩ :=
        items_of_extension he' hw' (heq.symm.trans hnode)
      cases hf
      rw [hout] at hs
      rw [hout'] at hs'
      have hnodes := node_eq_of_storeNode_eq hS hs hs' (hc.trans hc'.symm)
      rw [encodings_storeNode, Set.insert_subset_iff] at hs hs'
      have hmem := ih f' _ _ (hw.strip hpre) (hw'.strip hpre') hen hen' hs.2 hs'.2 hnodes
        (kv.1.drop n, kv.2) (mem_strip.mpr ⟨kv, hkv, rfl, rfl⟩)
      obtain ⟨kv', hkv', hd, hv⟩ := mem_strip.mp hmem
      -- the same prefix in front of the same rest
      have hk : kv.1 = kv'.1 := by
        rw [← List.take_append_drop n kv.1, ← List.take_append_drop n' kv'.1, hpre kv hkv,
          hpre' kv' hkv', hd]
      rwa [Prod.ext hk hv.symm]
    | branch children value =>
      obtain ⟨f, hf, hval, hch, hout⟩ := items_of_branch hnode
      obtain ⟨f', hf', hval', hch', hout'⟩ := items_of_branch (heq.symm.trans hnode)
      cases hf
      obtain ⟨k, v⟩ := kv
      cases k with
      | nil =>
        have h := emptyKeyValue_of_mem hw.nodup hkv
        exact emptyKeyValue_eq_some (hval'.symm.trans (hval.trans h))
      | cons x k =>
        have hx : x.toNat < 16 := hw.nibbles _ hkv x List.mem_cons_self
        have hofx : UInt8.ofNat x.toNat = x := UInt8.ofNat_toNat
        have hg : (k, v) ∈ group (UInt8.ofNat x.toNat) items := by
          rw [hofx]
          exact mem_group.mpr hkv
        have hchild := congrArg (fun a => a.getD x.toNat none) (hch.symm.trans hch')
        simp only [Arr.getD_ofFn _ hx] at hchild
        have hb := @branchChild_of_mem _ (buildNodeCollected fuel) _ _ _ hg
        have hb1 := congrArg Prod.fst hb
        obtain ⟨hsame, hb'⟩ := branchChild_eq_some (hchild.symm.trans hb1)
        have hsub : encodings (storeNode (buildNodeCollected fuel
            (group (UInt8.ofNat x.toNat) items))).2 ⊆ S := by
          rintro e ⟨h, hm⟩
          refine hs ⟨h, ?_⟩
          rw [hout, List.mem_flatMap]
          exact ⟨x.toNat, List.mem_range.mpr hx, by rw [hb]; exact hm⟩
        have hsub' : encodings (storeNode (buildNodeCollected f'
            (group (UInt8.ofNat x.toNat) items'))).2 ⊆ S := by
          rintro e ⟨h, hm⟩
          refine hs' ⟨h, ?_⟩
          rw [hout', List.mem_flatMap]
          exact ⟨x.toNat, List.mem_range.mpr hx, by rw [hb']; exact hm⟩
        have hnodes := node_eq_of_storeNode_eq hS hsub hsub' hsame.symm
        rw [encodings_storeNode, Set.insert_subset_iff] at hsub hsub'
        subst hf'
        have hmem := ih f' _ _ (hw.group _) (hw'.group _) (he.group _) (he'.group _) hsub.2
          hsub'.2 hnodes (k, v) hg
        rw [hofx] at hmem
        exact mem_group.mp hmem

/-! ### Roots of pairs -/

theorem patriciaNodes_eq (pairs : List (List UInt8 × Bytes)) :
    patriciaNodes pairs = storeTree (trieItems pairs) := by
  cases pairs with
  | nil => rfl
  | cons kv pairs => rfl

/-- **The root determines the pairs**, as long as no two stored nodes collide. -/
theorem patriciaRoot_inj {pairs pairs' : List (List UInt8 × Bytes)} {S : Set (List UInt8)}
    (hS : CollisionFree S) (hsub : encodings (patriciaNodes pairs).2 ⊆ S)
    (hsub' : encodings (patriciaNodes pairs').2 ⊆ S)
    (hnd : (pairs.map Prod.fst).Nodup) (hnd' : (pairs'.map Prod.fst).Nodup)
    (hshort : ∀ kv ∈ pairs, kv.1.length < 2 ^ 63) (hshort' : ∀ kv ∈ pairs', kv.1.length < 2 ^ 63)
    (h : patriciaRoot pairs = patriciaRoot pairs') : ∀ kv ∈ pairs, kv ∈ pairs' := by
  rw [patriciaNodes_eq] at hsub hsub'
  rw [patriciaRoot, patriciaRoot, patriciaNodes_eq, patriciaNodes_eq] at h
  have hnodes := node_eq_of_storeNode_eq hS hsub hsub' h
  rw [storeTree, encodings_storeNode, Set.insert_subset_iff] at hsub hsub'
  rintro ⟨key, v⟩ hkv
  have hmem := mem_of_buildNode_eq hS _ _ _ _ (wellKeyed_trieItems hshort)
    (wellKeyed_trieItems hshort') (enough_fuelFor _) (enough_fuelFor _) hsub.2 hsub'.2 hnodes
    (toNibbles key, v) ((mem_trieItems_of_nodup hnd).mpr ⟨key, hkv, rfl⟩)
  obtain ⟨key', hkv', hk⟩ := (mem_trieItems_of_nodup hnd').mp hmem
  rwa [toNibbles_injective hk] at hkv'

end Roots

end Ivory
