import Ivory.State.TrieProof

/-!
# The shape of a trie

What `build_node_collected` writes is canonical: no extension is empty or stands
over another one, no branch could have been left out, and nothing below a root
is `Empty`.  The argument is one about prefixes.  Once the common prefix of the
keys is stripped nothing common is left, so the keys, which are distinct, start
in at least two ways; "not at all" is one of them.

`Builds` is the recursion of the source without a fuel: its derivations are the
calls that return.

* `Trie.exists_builds`: **`build_node_collected` returns on every list of items.**
* `Trie.Builds.canonical`: **every node it writes is canonical.**
* `Trie.patriciaNodes_canonical`: **the nodes of a list of pairs are canonical and
  closed, and a walk over them finds the last values of the keys.**
-/

namespace Ivory

namespace Trie

/-! ### Common prefixes -/

theorem sharedLen_drop : ∀ (n : ℕ) (a b : List UInt8), n ≤ sharedLen a b →
    sharedLen (a.drop n) (b.drop n) = sharedLen a b - n := by
  intro n
  induction n with
  | zero => intro a b _; rfl
  | succ n ih =>
    intro a b hn
    match a, b with
    | [], _ => cases hn
    | _ :: _, [] => cases hn
    | x :: a, y :: b =>
      rw [sharedLen] at hn ⊢
      split_ifs at hn ⊢ with hxy
      · rw [List.drop_succ_cons, List.drop_succ_cons, ih a b (by omega)]
        omega
      · cases hn

theorem foldl_min_strip {n : ℕ} {first : List UInt8} : ∀ (rest : List Item) (m : ℕ),
    (∀ kv ∈ rest, n ≤ sharedLen first kv.1) →
    (strip n rest).foldl (fun m kv => min m (sharedLen (first.drop n) kv.1)) (m - n)
      = rest.foldl (fun m kv => min m (sharedLen first kv.1)) m - n := by
  intro rest
  induction rest with
  | nil => intro m _; rfl
  | cons kv rest ih =>
    intro m hle
    have hmin : min (m - n) (sharedLen first kv.1 - n) = min m (sharedLen first kv.1) - n := by
      omega
    rw [strip, List.map_cons, List.foldl_cons, List.foldl_cons,
      sharedLen_drop n _ _ (hle kv List.mem_cons_self), hmin]
    exact ih _ fun q hq => hle q (List.mem_cons_of_mem _ hq)

/-- **Nothing common is left** when the common prefix is stripped. -/
theorem commonPrefixLen_strip (first : Item) (rest : List Item) :
    commonPrefixLen (strip (commonPrefixLen (first :: rest)) (first :: rest)) = 0 := by
  have hle := (foldl_min_le first.1 rest first.1.length).2
  have hfold := foldl_min_strip rest first.1.length hle
  rw [← List.length_drop, Nat.sub_self] at hfold
  exact hfold

theorem exists_sharedLen_eq_zero {first : List UInt8} : ∀ (rest : List Item) (m : ℕ),
    rest.foldl (fun m kv => min m (sharedLen first kv.1)) m = 0 →
    m = 0 ∨ ∃ kv ∈ rest, sharedLen first kv.1 = 0 := by
  intro rest
  induction rest with
  | nil => intro m h; exact .inl h
  | cons kv rest ih =>
    intro m h
    rcases ih _ h with hmin | ⟨q, hq, hz⟩
    · rcases Nat.min_eq_zero_iff.mp hmin with hm | hz
      · exact .inl hm
      · exact .inr ⟨kv, List.mem_cons_self, hz⟩
    · exact .inr ⟨q, List.mem_cons_of_mem _ hq, hz⟩

theorem head?_ne_of_sharedLen_eq_zero {a b : List UInt8} (hne : a ≠ b)
    (h : sharedLen a b = 0) : a.head? ≠ b.head? := by
  match a, b with
  | [], [] => exact absurd rfl hne
  | [], _ :: _ => simp
  | _ :: _, [] => simp
  | x :: a, y :: b =>
    rw [sharedLen] at h
    split_ifs at h with hxy
    simpa using hxy

/-- **Distinct keys with nothing in common start in two ways.**  An empty key starts with no
nibble at all, which is a way of its own. -/
theorem exists_head?_ne {first second : Item} {rest : List Item}
    (hnd : ((first :: second :: rest).map Prod.fst).Nodup)
    (h : commonPrefixLen (first :: second :: rest) = 0) :
    ∃ kv ∈ second :: rest, first.1.head? ≠ kv.1.head? := by
  have hne : ∀ kv ∈ second :: rest, first.1 ≠ kv.1 := by
    intro kv hkv heq
    refine (List.nodup_cons.mp hnd).1 ?_
    rw [heq]
    exact List.mem_map_of_mem hkv
  rcases exists_sharedLen_eq_zero _ _ h with hnil | ⟨kv, hkv, hz⟩
  · -- an empty first key shares nothing with the second one
    rw [List.length_eq_zero_iff] at hnil
    refine ⟨second, List.mem_cons_self, head?_ne_of_sharedLen_eq_zero
      (hne second List.mem_cons_self) ?_⟩
    rw [hnil]
    rfl
  · exact ⟨kv, hkv, head?_ne_of_sharedLen_eq_zero (hne kv hkv) hz⟩

/-! ### Items and entries -/

theorem trieItems_ne_nil {pairs : List (List UInt8 × Bytes)} (h : pairs ≠ []) :
    trieItems pairs ≠ [] := by
  obtain ⟨⟨key, value⟩, hmem⟩ := List.exists_mem_of_ne_nil pairs h
  obtain ⟨v, hv⟩ := Table.exists_lastValue hmem
  exact List.ne_nil_of_mem (mem_trieItems.mpr ⟨key, hv, rfl⟩)

/-- The entry of a branch that a key goes to, by the nibble it starts with. -/
def slot : Option UInt8 → ℕ
  | none => 0
  | some x => x.toNat + 1

theorem slot_injective : Function.Injective slot := by
  intro a b h
  cases a with
  | none =>
    cases b with
    | none => rfl
    | some y => cases h
  | some x =>
    cases b with
    | none => cases h
    | some y => rw [UInt8.toNat_inj.mp (Nat.succ.inj h)]

theorem two_le_count {l : List Bool} {i j : ℕ} (hij : i ≠ j) (hi : l[i]? = some true)
    (hj : l[j]? = some true) : 2 ≤ l.count true := by
  rw [← List.duplicate_iff_two_le_count, List.duplicate_iff_exists_distinct_get]
  obtain ⟨hi', hi⟩ := List.getElem?_eq_some_iff.mp hi
  obtain ⟨hj', hj⟩ := List.getElem?_eq_some_iff.mp hj
  rcases lt_or_gt_of_ne hij with h | h
  · exact ⟨⟨i, hi'⟩, ⟨j, hj'⟩, h, hi.symm, hj.symm⟩
  · exact ⟨⟨j, hj'⟩, ⟨i, hi'⟩, h, hj.symm, hi.symm⟩

/-! ### The recursion without a fuel -/

section Shape

variable [Keccak]

/-- The branch over the items, with the nodes stored for its children. -/
def branchOf (build : List Item → TrieNode × Written) (items : List Item) : TrieNode × Written :=
  (.branch (Arr.ofFn 16 fun i => (branchChild build items i).1) (emptyKeyValue items),
    (List.range 16).flatMap fun i => (branchChild build items i).2)

theorem branchOf_congr {build build' : List Item → TrieNode × Written} {items : List Item}
    (h : ∀ i < 16, group (UInt8.ofNat i) items ≠ [] →
      build (group (UInt8.ofNat i) items) = build' (group (UInt8.ofNat i) items)) :
    branchOf build items = branchOf build' items := by
  have hchild : ∀ i < 16, branchChild build items i = branchChild build' items i := by
    intro i hi
    simp only [branchChild]
    split_ifs with hg
    · rfl
    · rw [h i hi (by simpa using hg)]
  have hchildren : Arr.ofFn 16 (fun i => (branchChild build items i).1)
      = Arr.ofFn 16 fun i => (branchChild build' items i).1 :=
    Arr.ofFn_congr fun i hi => by rw [hchild i hi]
  have hwritten : (List.range 16).flatMap (fun i => (branchChild build items i).2)
      = (List.range 16).flatMap fun i => (branchChild build' items i).2 :=
    List.flatMap_congr fun i hi => by rw [hchild i (List.mem_range.mp hi)]
  rw [branchOf, branchOf, hchildren, hwritten]

/-- The calls of `build_node_collected` that return, with what they return. -/
inductive Builds : List Item → TrieNode × Written → Prop
  | empty : Builds [] (.empty, [])
  | leaf (item : Item) : Builds [item] (.leaf (Vec.ofList item.1) item.2, [])
  | extension {first second : Item} {rest : List Item} {n : ℕ} {r : TrieNode × Written} :
    commonPrefixLen (first :: second :: rest) = n → 0 < n →
    Builds (strip n (first :: second :: rest)) r →
    Builds (first :: second :: rest)
      (.extension (Vec.ofList (first.1.take n)) (storeNode r).1, (storeNode r).2)
  | branch {first second : Item} {rest : List Item} {build : List Item → TrieNode × Written} :
    commonPrefixLen (first :: second :: rest) = 0 →
    -- only the groups that have items are built
    (∀ i < 16, group (UInt8.ofNat i) (first :: second :: rest) ≠ [] →
      Builds (group (UInt8.ofNat i) (first :: second :: rest))
        (build (group (UInt8.ofNat i) (first :: second :: rest)))) →
    Builds (first :: second :: rest) (branchOf build (first :: second :: rest))

theorem builds_of_enough : ∀ (fuel : ℕ) (items : List Item), Enough fuel items →
    Builds items (buildNodeCollected fuel items) := by
  intro fuel
  induction fuel with
  | zero =>
    intro items he
    obtain rfl : items = [] :=
      List.eq_nil_iff_forall_not_mem.mpr fun kv hkv => Nat.not_lt_zero _ (he kv hkv)
    exact .empty
  | succ fuel ih =>
    intro items he
    match items with
    | [] => exact .empty
    | [item] => exact .leaf item
    | first :: second :: rest =>
      rw [buildNodeCollected]
      simp only
      split_ifs with hn
      · exact .extension rfl hn (ih _ (he.strip hn take_commonPrefixLen commonPrefixLen_le))
      · exact .branch (Nat.eq_zero_of_not_pos hn) fun i _ _ => ih _ (he.group _)

theorem Builds.unique {items : List Item} {r r' : TrieNode × Written} (h : Builds items r)
    (h' : Builds items r') : r = r' := by
  induction h generalizing r' with
  | empty =>
    cases h'
    rfl
  | leaf item =>
    cases h'
    rfl
  | extension hn hpos _ ih =>
    cases h' with
    | extension hn' _ hr' =>
      obtain rfl := hn.symm.trans hn'
      rw [ih hr']
    | branch hz _ => omega
  | branch hz _ ih =>
    cases h' with
    | extension hn' hpos' _ => omega
    | branch _ hr' => exact branchOf_congr fun i hi hg => ih i hi hg (hr' i hi hg)

/-- **`build_node_collected` returns on every list of items**, and what it returns is what the
model computes with any fuel above the length of every key. -/
theorem exists_builds (items : List Item) :
    ∃ r, Builds items r ∧ (∀ r', Builds items r' → r' = r)
      ∧ ∀ fuel, Enough fuel items → buildNodeCollected fuel items = r := by
  have h := builds_of_enough _ items (enough_fuelFor items)
  exact ⟨_, h, fun r' h' => h'.unique h,
    fun fuel he => (builds_of_enough fuel items he).unique h⟩

/-! ### Canonical nodes -/

/-- The value and the children of a branch, `true` where there is one. -/
def entries (children : Arr (Option H256) 16) (value : Option Bytes) : List Bool :=
  value.isSome :: children.toList.map Option.isSome

/-- The node stands in the list under its hash. -/
def Listed (stored : Written) (h : H256) (node : TrieNode) : Prop :=
  (h, TrieNode.codec.encode node) ∈ stored ∧ keccak256 (TrieNode.codec.encode node) = h

/-- A node of a trie that has entries, over children that are in the list. -/
def Canonical (stored : Written) : TrieNode → Prop
  | .empty => False
  | .leaf _ _ => True
  | .extension path child =>
    path.toList ≠ [] ∧ ∃ children value, Listed stored child (.branch children value)
  | .branch children value =>
    2 ≤ (entries children value).count true
      ∧ ∀ child, some child ∈ children.toList → ∃ node, Listed stored child node

theorem Canonical.mono {stored stored' : Written} {node : TrieNode} (h : Canonical stored node)
    (hsub : stored ⊆ stored') : Canonical stored' node := by
  cases node with
  | empty => exact h
  | leaf path value => trivial
  | extension path child =>
    obtain ⟨hpath, children, value, hmem, hhash⟩ := h
    exact ⟨hpath, children, value, hsub hmem, hhash⟩
  | branch children value =>
    refine ⟨h.1, fun child hchild => ?_⟩
    obtain ⟨node, hmem, hhash⟩ := h.2 child hchild
    exact ⟨node, hsub hmem, hhash⟩

/-- What is written are canonical nodes, each under its hash. -/
def AllCanonical (stored written : Written) : Prop :=
  ∀ e ∈ written, ∃ node, e = (keccak256 (TrieNode.codec.encode node), TrieNode.codec.encode node)
    ∧ Canonical stored node

theorem AllCanonical.mono {stored stored' written : Written} (h : AllCanonical stored written)
    (hsub : stored ⊆ stored') : AllCanonical stored' written := by
  intro e he
  obtain ⟨node, heq, hnode⟩ := h e he
  exact ⟨node, heq, hnode.mono hsub⟩

theorem AllCanonical.storeNode {r : TrieNode × Written} (hnode : Canonical r.2 r.1)
    (hbelow : AllCanonical r.2 r.2) : AllCanonical (storeNode r).2 (storeNode r).2 := by
  have hsub : r.2 ⊆ (Ivory.storeNode r).2 := fun e he => List.mem_append_left _ he
  intro e he
  rcases List.mem_append.mp he with he | he
  · exact hbelow.mono hsub e he
  · exact ⟨r.1, List.mem_singleton.mp he, hnode.mono hsub⟩

theorem listed_storeNode (r : TrieNode × Written) :
    Listed (storeNode r).2 (storeNode r).1 r.1 :=
  ⟨List.mem_append_right _ List.mem_cons_self, rfl⟩

/-! ### Branches -/

theorem entries_slot {build : List Item → TrieNode × Written} {items : List Item}
    (hw : WellKeyed items) {kv : Item} (hkv : kv ∈ items) :
    (entries (Arr.ofFn 16 fun i => (branchChild build items i).1)
      (emptyKeyValue items))[slot kv.1.head?]? = some true := by
  obtain ⟨k, v⟩ := kv
  cases k with
  | nil =>
    show some (emptyKeyValue items).isSome = some true
    rw [emptyKeyValue_of_mem hw.nodup hkv]
    rfl
  | cons x k =>
    have hx : x.toNat < 16 := hw.nibbles _ hkv x List.mem_cons_self
    have hg : (k, v) ∈ group (UInt8.ofNat x.toNat) items := by
      rw [UInt8.ofNat_toNat]
      exact mem_group.mpr hkv
    have hchild : (branchChild build items x.toNat).1.isSome = true := by
      rw [branchChild_of_mem hg]
      rfl
    simp [entries, slot, Arr.ofFn, hx, hchild]

/-- **A branch is needed**: keys with nothing in common occupy two of its entries. -/
theorem two_le_entries {build : List Item → TrieNode × Written} {first second : Item}
    {rest : List Item} (hw : WellKeyed (first :: second :: rest))
    (hz : commonPrefixLen (first :: second :: rest) = 0) :
    2 ≤ (entries (Arr.ofFn 16 fun i => (branchChild build (first :: second :: rest) i).1)
      (emptyKeyValue (first :: second :: rest))).count true := by
  obtain ⟨kv, hkv, hne⟩ := exists_head?_ne hw.nodup hz
  exact two_le_count (slot_injective.ne hne) (entries_slot hw List.mem_cons_self)
    (entries_slot hw (List.mem_cons_of_mem _ hkv))

theorem branchChild_subset (build : List Item → TrieNode × Written) (items : List Item) {i : ℕ}
    (hi : i < 16) : (branchChild build items i).2 ⊆ (branchOf build items).2 :=
  fun _ he => List.mem_flatMap.mpr ⟨i, List.mem_range.mpr hi, he⟩

/-- A branch over items with nothing in common, if what is below it is canonical. -/
theorem canonical_branchOf {build : List Item → TrieNode × Written} {first second : Item}
    {rest : List Item} (hw : WellKeyed (first :: second :: rest))
    (hz : commonPrefixLen (first :: second :: rest) = 0)
    (hbelow : ∀ i < 16, group (UInt8.ofNat i) (first :: second :: rest) ≠ [] →
      AllCanonical
        (storeNode (build (group (UInt8.ofNat i) (first :: second :: rest)))).2
        (storeNode (build (group (UInt8.ofNat i) (first :: second :: rest)))).2) :
    Canonical (branchOf build (first :: second :: rest)).2
        (branchOf build (first :: second :: rest)).1
      ∧ AllCanonical (branchOf build (first :: second :: rest)).2
        (branchOf build (first :: second :: rest)).2 := by
  generalize hitems : first :: second :: rest = items at hw hz hbelow ⊢
  refine ⟨⟨?_, ?_⟩, ?_⟩
  · subst hitems
    exact two_le_entries hw hz
  · intro child hchild
    obtain ⟨i, hi, hc⟩ := List.mem_map.mp hchild
    obtain ⟨rfl, hbc⟩ := branchChild_eq_some hc
    have hlisted := listed_storeNode (build (group (UInt8.ofNat i) items))
    refine ⟨_, branchChild_subset build items (List.mem_range.mp hi) ?_, hlisted.2⟩
    rw [hbc]
    exact hlisted.1
  · intro e he
    obtain ⟨i, hi, he⟩ := List.mem_flatMap.mp he
    have hsub := branchChild_subset build items (List.mem_range.mp hi)
    simp only [branchChild] at he hsub
    split_ifs at he hsub with hg
    · cases he
    · exact (hbelow i (List.mem_range.mp hi) (by simpa using hg)).mono hsub e he

theorem Builds.exists_branch {items : List Item} {r : TrieNode × Written} (h : Builds items r)
    (hlen : 2 ≤ items.length) (hz : commonPrefixLen items = 0) :
    ∃ children value, r.1 = .branch children value := by
  cases h with
  | empty => simp at hlen
  | leaf item => simp at hlen
  | extension hn hpos _ => omega
  | branch _ _ => exact ⟨_, _, rfl⟩

/-- **Every node written for items is canonical.**  The induction is on the calls. -/
theorem Builds.canonical {items : List Item} {r : TrieNode × Written} (h : Builds items r)
    (hne : items ≠ []) (hw : WellKeyed items) : Canonical r.2 r.1 ∧ AllCanonical r.2 r.2 := by
  induction h with
  | empty => exact absurd rfl hne
  | leaf item => exact ⟨trivial, fun e he => by cases he⟩
  | @extension first second rest n r hn hpos hr ih =>
    have htake := @take_commonPrefixLen first (second :: rest)
    have hle := @commonPrefixLen_le first (second :: rest)
    have hzero := commonPrefixLen_strip first (second :: rest)
    rw [hn] at htake hle hzero
    obtain ⟨hnode, hbelow⟩ := ih (by simp [strip]) (hw.strip htake)
    obtain ⟨children, value, hbranch⟩ := hr.exists_branch (by simp [strip]) hzero
    have hshort : (first.1.take n).length < 2 ^ 64 :=
      (List.length_take_le' _ _).trans_lt (hw.short first List.mem_cons_self)
    refine ⟨⟨?_, children, value, ?_⟩, .storeNode hnode hbelow⟩
    · rw [Vec.toList_ofList hshort, ← List.length_pos_iff, List.length_take]
      omega
    · rw [← hbranch]
      exact listed_storeNode r
  | branch hz _ ih =>
    refine canonical_branchOf hw hz fun i hi hg => ?_
    obtain ⟨hnode, hbelow⟩ := ih i hi hg hg (hw.group _)
    exact .storeNode hnode hbelow

/-! ### Walks -/

/-- A walk over the listed nodes, from a hash and with the nibbles that are left, that ends with
a value or without one. -/
inductive Walks (stored : Written) : H256 → List UInt8 → Option Bytes → Prop
  | done {h : H256} {node : TrieNode} {rest : List UInt8} {v : Option Bytes} :
    Listed stored h node → node.visit rest = some (.done v) → Walks stored h rest v
  | down {h child : H256} {node : TrieNode} {rest rest' : List UInt8} {v : Option Bytes} :
    Listed stored h node → node.visit rest = some (.down rest' child) →
    Walks stored child rest' v → Walks stored h rest v

theorem Rooted.exists_walk {stored : Written} : ∀ (rest : List UInt8) (h : H256)
    (items : List Item), Rooted stored h items → Nibbles rest →
    ∃ v, Walks stored h rest v ∧ Finds items rest v := by
  intro rest
  -- every step down leaves fewer nibbles
  induction hl : rest.length using Nat.strong_induction_on generalizing rest with
  | _ n ih =>
    subst hl
    intro h items hr hn
    obtain ⟨node, hmem, hhash, hstep⟩ := hr.visit hn
    rcases hstep with ⟨v, hvisit, hfinds⟩ | ⟨rest', child, items', hvisit, hr', hlt, hn', hback⟩
    · exact ⟨v, .done ⟨hmem, hhash⟩ hvisit, hfinds⟩
    · obtain ⟨v, hwalk, hfinds⟩ := ih _ hlt rest' rfl child items' hr' hn'
      exact ⟨v, .down ⟨hmem, hhash⟩ hvisit hwalk, hback v hfinds⟩

theorem Listed.unique {stored : Written} (hS : CollisionFree (encodings stored)) {h : H256}
    {node node' : TrieNode} (hl : Listed stored h node) (hl' : Listed stored h node') :
    node = node' :=
  TrieNode.codec.encode_injective
    (hS ⟨h, hl.1⟩ ⟨h, hl'.1⟩ (hl.2.trans hl'.2.symm))

theorem Walks.unique {stored : Written} (hS : CollisionFree (encodings stored)) {h : H256}
    {rest : List UInt8} {v v' : Option Bytes} (hwalk : Walks stored h rest v)
    (hwalk' : Walks stored h rest v') : v = v' := by
  induction hwalk with
  | done hl hvisit =>
    cases hwalk' with
    | done hl' hvisit' =>
      rw [← hl.unique hS hl', hvisit] at hvisit'
      cases hvisit'
      rfl
    | down hl' hvisit' _ =>
      rw [← hl.unique hS hl', hvisit] at hvisit'
      cases hvisit'
  | down hl hvisit _ ih =>
    cases hwalk' with
    | done hl' hvisit' =>
      rw [← hl.unique hS hl', hvisit] at hvisit'
      cases hvisit'
    | down hl' hvisit' hwalk' =>
      rw [← hl.unique hS hl', hvisit] at hvisit'
      cases hvisit'
      exact ih hwalk'

/-! ### The nodes of a list of pairs -/

theorem allCanonical_patriciaNodes (pairs : Pairs) (h : pairs ≠ []) :
    AllCanonical (patriciaNodes pairs.raw).2 (patriciaNodes pairs.raw).2 := by
  have hraw : pairs.raw ≠ [] := fun hnil => h (List.map_eq_nil_iff.mp hnil)
  have hbuilds := builds_of_enough _ _ (enough_fuelFor (trieItems pairs.raw))
  obtain ⟨hnode, hbelow⟩ :=
    hbuilds.canonical (trieItems_ne_nil hraw) (wellKeyed_trieItems pairs.short)
  rw [patriciaNodes_eq]
  exact .storeNode hnode hbelow

/-- **The nodes of a trie are canonical and closed.**  `build_node_collected` returns on every
list of items.  In the list of `patricia_nodes` every node stands under its hash and is
canonical, apart from the `Empty` of the empty map, which is its root; the root is a listed node.
A walk of a key over the list ends with the last value of the key, and without a collision no
walk of nibbles ends with anything else. -/
theorem patriciaNodes_canonical (pairs : Pairs) :
    (∀ items, ∃ r, Builds items r ∧ (∀ r', Builds items r' → r' = r)
      ∧ ∀ fuel, Enough fuel items → buildNodeCollected fuel items = r)
    ∧ (∀ h enc, (h, enc) ∈ (patriciaNodes pairs.raw).2 →
      ∃ node, enc = TrieNode.codec.encode node ∧ keccak256 enc = h
        ∧ (Canonical (patriciaNodes pairs.raw).2 node
          ∨ (node = .empty ∧ pairs = [] ∧ h = (patriciaNodes pairs.raw).1)))
    ∧ (∃ node, Listed (patriciaNodes pairs.raw).2 (patriciaNodes pairs.raw).1 node)
    ∧ (∀ key, Walks (patriciaNodes pairs.raw).2 (patriciaNodes pairs.raw).1 (toNibbles key)
      (Table.lastValue pairs.raw key))
    ∧ (CollisionFree (encodings (patriciaNodes pairs.raw).2) → ∀ rest, Nibbles rest → ∀ w,
      Walks (patriciaNodes pairs.raw).2 (patriciaNodes pairs.raw).1 rest (some w) ↔
        ∃ key, Table.lastValue pairs.raw key = some w ∧ toNibbles key = rest) := by
  have hrooted := rooted_patriciaNodes pairs.short
  refine ⟨exists_builds, ?_, ?_, fun key => ?_, fun hS rest hn w => ?_⟩
  · intro h enc hmem
    by_cases hnil : pairs = []
    · subst hnil
      obtain ⟨rfl, rfl⟩ := Prod.mk.inj (List.mem_singleton.mp hmem)
      exact ⟨.empty, rfl, rfl, .inr ⟨rfl, rfl, rfl⟩⟩
    · obtain ⟨node, heq, hnode⟩ := allCanonical_patriciaNodes pairs hnil _ hmem
      obtain ⟨rfl, rfl⟩ := Prod.mk.inj heq
      exact ⟨node, rfl, rfl, .inl hnode⟩
  · obtain ⟨node, hmem, hhash, -⟩ := hrooted.visit (nibbles_toNibbles [])
    exact ⟨node, hmem, hhash⟩
  · obtain ⟨v, hwalk, hfinds⟩ := hrooted.exists_walk _ _ _ (nibbles_toNibbles key)
    rwa [← hfinds.eq_lastValue]
  · obtain ⟨v, hwalk, hfinds⟩ := hrooted.exists_walk _ _ _ hn
    rw [← mem_trieItems, ← hfinds w]
    constructor
    · exact fun hwalk' => hwalk.unique hS hwalk'
    · rintro rfl
      exact hwalk

end Shape

end Trie

namespace Devnet

open Trie

/-- The nodes of the four pairs: a key finds the value that is given last, half a key nothing. -/
theorem patriciaNodes_canonical_triePairs :
    Walks (patriciaNodes triePairs.raw).2 (patriciaNodes triePairs.raw).1 (toNibbles [0x12])
      (some (Vec.ofList [4]))
    ∧ ∀ w, ¬ Walks (patriciaNodes triePairs.raw).2 (patriciaNodes triePairs.raw).1 [1]
      (some w) := by
  have heval : Table.lastValue triePairs.raw [0x12] = some (Vec.ofList [4]) := by decide +kernel
  have hS : CollisionFree (encodings (patriciaNodes triePairs.raw).2) :=
    collisionFree_triePairs.mono Set.subset_union_left
  obtain ⟨-, -, -, hwalk, hexact⟩ := patriciaNodes_canonical triePairs
  refine ⟨?_, fun w hw => ?_⟩
  · rw [← heval]
    exact hwalk [0x12]
  · have hn : Nibbles [1] := by
      intro x hx
      rw [List.mem_singleton.mp hx]
      decide
    obtain ⟨key, -, hkey⟩ := (hexact hS [1] hn w).mp hw
    -- a key has an even number of nibbles
    have hlen := congrArg List.length hkey
    rw [toNibbles_length, List.length_singleton] at hlen
    omega

end Devnet

end Ivory
