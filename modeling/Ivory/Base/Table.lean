import Mathlib.Algebra.BigOperators.Group.Finset.Basic
import Mathlib.Data.Finset.Dedup
import Mathlib.Tactic

/-!
# Finite maps

`Table κ α` is a finite map with keys in a linear order.  Two tables with the
same lookups are equal, so a hash map of a program, whose iteration order means
nothing, is a `Table`.

* `Table.get_insert`, `Table.get_erase`, `Table.get_filter`: lookups after an update.
* `Table.total f m`: the sum of `f` over the entries.  `Table.total_update`:
  **an update at one key moves the total by the difference at that key.**
-/

/-- An order in which an iteration yields what it ranges over. -/
structure IterOrder (α : Type) where
  pick : List α → List α
  perm : ∀ l, (pick l).Perm l

/-- A finite map. -/
abbrev Table (κ α : Type) [Ord κ] := Std.ExtTreeMap κ α

namespace Table

variable {κ α β : Type} [Ord κ] [Std.TransOrd κ]

/-- The value of `f` at a key, nothing where the key is absent. -/
def weight (f : α → ℕ) (m : Table κ α) (k : κ) : ℕ := m[k]?.elim 0 f

theorem weight_of_some {f : α → ℕ} {m : Table κ α} {k : κ} {v : α} (h : m[k]? = some v) :
    weight f m k = f v := by rw [weight, h]; rfl

theorem weight_of_none {f : α → ℕ} {m : Table κ α} {k : κ} (h : m[k]? = none) :
    weight f m k = 0 := by rw [weight, h]; rfl

variable [Std.LawfulEqOrd κ]

/-! ### Lookups -/

theorem ext {m m' : Table κ α} (h : ∀ k : κ, m[k]? = m'[k]?) : m = m' :=
  Std.ExtTreeMap.ext_getElem? h

theorem mem_toList {m : Table κ α} {k : κ} {v : α} : (k, v) ∈ m.toList ↔ m[k]? = some v :=
  Std.ExtTreeMap.mem_toList_iff_getElem?_eq_some

theorem nodup_keys (m : Table κ α) : (m.toList.map Prod.fst).Nodup := by
  rw [List.Nodup, List.pairwise_map]
  refine Std.ExtTreeMap.distinct_keys_toList.imp ?_
  intro a b h he
  exact h (by rw [he]; exact Std.ReflOrd.compare_self)

theorem nodup_toList (m : Table κ α) : m.toList.Nodup := m.nodup_keys.of_map

theorem get_filter (m : Table κ α) (p : κ → α → Bool) (k : κ) :
    (m.filter p)[k]? = m[k]?.filter (p k) := by
  simp [Std.ExtTreeMap.getElem?_filter]

theorem get_map (m : Table κ α) (f : κ → α → β) (k : κ) :
    (m.map f)[k]? = m[k]?.map (f k) := Std.ExtTreeMap.getElem?_map

section Update

variable [DecidableEq κ]

theorem get_insert (m : Table κ α) (k a : κ) (v : α) :
    (m.insert k v)[a]? = if a = k then some v else m[a]? := by
  rw [Std.ExtTreeMap.getElem?_insert]
  by_cases h : a = k
  · rw [if_pos h, if_pos (by rw [h]; exact Std.ReflOrd.compare_self)]
  · rw [if_neg h, if_neg (fun hc => h (Std.LawfulEqOrd.eq_of_compare hc).symm)]

@[simp] theorem get_insert_self (m : Table κ α) (k : κ) (v : α) :
    (m.insert k v)[k]? = some v := by rw [get_insert, if_pos rfl]

theorem get_insert_of_ne (m : Table κ α) {k a : κ} (v : α) (h : a ≠ k) :
    (m.insert k v)[a]? = m[a]? := by rw [get_insert, if_neg h]

theorem get_erase (m : Table κ α) (k a : κ) :
    (m.erase k)[a]? = if a = k then none else m[a]? := by
  rw [Std.ExtTreeMap.getElem?_erase]
  by_cases h : a = k
  · rw [if_pos h, if_pos (by rw [h]; exact Std.ReflOrd.compare_self)]
  · rw [if_neg h, if_neg (fun hc => h (Std.LawfulEqOrd.eq_of_compare hc).symm)]

/-- If related values stand under one key, and nothing is related to the value that is written,
then related values still stand under one key. -/
theorem key_eq_of_insert {R : α → α → Prop} {m : Table κ α} {k : κ} {v : α}
    (hold : ∀ (a a' : κ) x x', m[a]? = some x → m[a']? = some x' → R x x' → a = a')
    (hnew : ∀ (a : κ) x, m[a]? = some x → ¬ R x v ∧ ¬ R v x) {a a' : κ} {x x' : α}
    (h : (m.insert k v)[a]? = some x) (h' : (m.insert k v)[a']? = some x') (hR : R x x') :
    a = a' := by
  rw [get_insert] at h h'
  split_ifs at h h' with ha ha' ha'
  · rw [ha, ha']
  · cases h
    exact absurd hR (hnew a' x' h').2
  · cases h'
    exact absurd hR (hnew a x h).1
  · exact hold a a' x x' h h' hR

theorem insert_eq_self {m : Table κ α} {k : κ} {v : α} (h : m[k]? = some v) :
    m.insert k v = m := by
  refine ext fun a => ?_
  rw [get_insert]
  by_cases ha : a = k
  · rw [if_pos ha, ha, h]
  · rw [if_neg ha]

/-- The map built by inserting the pairs of a list with distinct keys has exactly those pairs. -/
theorem get_foldl_insert : ∀ (l : List (κ × α)) (m : Table κ α) (k : κ) (v : α),
    (l.map Prod.fst).Nodup → (∀ p ∈ l, m[p.1]? = none) →
    ((l.foldl (fun m p => m.insert p.1 p.2) m)[k]? = some v ↔ (k, v) ∈ l ∨ m[k]? = some v) := by
  intro l
  induction l with
  | nil => intro m k v _ _; simp
  | cons p l ih =>
    intro m k v hnd hm
    rw [List.map_cons, List.nodup_cons] at hnd
    have hfresh : ∀ q ∈ l, (m.insert p.1 p.2)[q.1]? = none := by
      intro q hq
      have hne : q.1 ≠ p.1 := by
        intro h
        exact hnd.1 (h ▸ List.mem_map_of_mem hq)
      rw [get_insert_of_ne _ _ hne]
      exact hm q (List.mem_cons_of_mem _ hq)
    rw [List.foldl_cons, ih _ k v hnd.2 hfresh, get_insert, List.mem_cons]
    by_cases hk : k = p.1
    · have hnone : m[k]? = none := by rw [hk]; exact hm p List.mem_cons_self
      rw [if_pos hk, hnone]
      constructor
      · rintro (h | h)
        · exact .inl (.inr h)
        · exact .inl (.inl (Prod.ext hk (Option.some.inj h).symm))
      · rintro ((h | h) | h)
        · exact .inr (by rw [← h])
        · exact .inl h
        · cases h
    · rw [if_neg hk]
      constructor
      · rintro (h | h)
        · exact .inl (.inr h)
        · exact .inr h
      · rintro ((h | h) | h)
        · exact absurd (by rw [← h]) hk
        · exact .inl h
        · exact .inr h

/-- The value of the last pair at a key. -/
def lastValue (l : List (κ × α)) (k : κ) : Option α :=
  (l.reverse.find? fun p => p.1 = k).map Prod.snd

omit [Ord κ] [Std.TransOrd κ] [Std.LawfulEqOrd κ] in
theorem lastValue_append_singleton (l : List (κ × α)) (p : κ × α) (k : κ) :
    lastValue (l ++ [p]) k = if p.1 = k then some p.2 else lastValue l k := by
  rw [lastValue, List.reverse_append, List.reverse_singleton, List.singleton_append,
    List.find?_cons]
  by_cases h : p.1 = k
  · simp [h]
  · simp [h, lastValue]

/-- **Inserting pairs one after the other leaves the last value at each key.** -/
theorem get_foldl_insert_last (l : List (κ × α)) (m : Table κ α) (k : κ) :
    (l.foldl (fun m p => m.insert p.1 p.2) m)[k]? = (lastValue l k).or m[k]? := by
  induction l using List.reverseRecOn with
  | nil => rfl
  | append_singleton l p ih =>
    rw [List.foldl_append, List.foldl_cons, List.foldl_nil, get_insert,
      lastValue_append_singleton, ih]
    by_cases h : k = p.1
    · rw [if_pos h, if_pos h.symm, Option.some_or]
    · rw [if_neg h, if_neg fun he => h he.symm]

omit [Ord κ] [Std.TransOrd κ] [Std.LawfulEqOrd κ] in
theorem mem_of_lastValue {l : List (κ × α)} {k : κ} {v : α} (h : lastValue l k = some v) :
    (k, v) ∈ l := by
  obtain ⟨⟨j, w⟩, hf, rfl⟩ := Option.map_eq_some_iff.mp h
  have hj : j = k := by simpa using List.find?_some hf
  exact hj ▸ List.mem_reverse.mp (List.mem_of_find?_eq_some hf)

omit [Ord κ] [Std.TransOrd κ] [Std.LawfulEqOrd κ] in
theorem exists_lastValue {l : List (κ × α)} {k : κ} {w : α} (h : (k, w) ∈ l) :
    ∃ v, lastValue l k = some v := by
  have hsome : (l.reverse.find? fun p => p.1 = k).isSome :=
    List.find?_isSome.mpr ⟨_, List.mem_reverse.mpr h, decide_eq_true rfl⟩
  obtain ⟨p, hf⟩ := Option.isSome_iff_exists.mp hsome
  exact ⟨p.2, by rw [lastValue, hf]; rfl⟩

omit [Ord κ] [Std.TransOrd κ] [Std.LawfulEqOrd κ] in
theorem eq_or_rel_lastValue {R : α → α → Prop} {l : List (κ × α)}
    (hs : l.Pairwise fun p q => R p.2 q.2) {k : κ} {v w : α} (h : lastValue l k = some v)
    (hw : (k, w) ∈ l) : w = v ∨ R w v := by
  induction l using List.reverseRecOn with
  | nil => cases hw
  | append_singleton l p ih =>
    obtain ⟨hl, -, hlast⟩ := List.pairwise_append.mp hs
    rw [lastValue_append_singleton] at h
    rcases List.mem_append.mp hw with hw | hw
    · split_ifs at h with hp
      · cases h
        exact .inr (hlast _ hw p (List.mem_singleton_self p))
      · exact ih hl h hw
    · rw [← List.mem_singleton.mp hw, if_pos rfl] at h
      exact .inl (Option.some.inj h)

omit [Ord κ] [Std.TransOrd κ] [Std.LawfulEqOrd κ] in
theorem lastValue_of_unique {l : List (κ × α)} {k : κ} {v : α} (h : (k, v) ∈ l)
    (hu : ∀ w, (k, w) ∈ l → w = v) : lastValue l k = some v := by
  obtain ⟨w, hw⟩ := exists_lastValue h
  rw [hw, hu w (mem_of_lastValue hw)]

omit [Ord κ] [Std.TransOrd κ] [Std.LawfulEqOrd κ] in
theorem lastValue_eq_some_iff {l : List (κ × α)} (hnd : (l.map Prod.fst).Nodup) {k : κ} {v : α} :
    lastValue l k = some v ↔ (k, v) ∈ l := by
  refine ⟨mem_of_lastValue, fun h => lastValue_of_unique h fun w hw => ?_⟩
  exact (Prod.mk.inj (List.inj_on_of_nodup_map hnd hw h rfl)).2

omit [Ord κ] [Std.TransOrd κ] [Std.LawfulEqOrd κ] in
theorem lastValue_map {ι : Type} [DecidableEq ι] {f : κ → ι} (hf : Function.Injective f)
    (l : List (κ × α)) (k : κ) :
    lastValue (l.map fun p => (f p.1, p.2)) (f k) = lastValue l k := by
  induction l using List.reverseRecOn with
  | nil => rfl
  | append_singleton l p ih =>
    rw [List.map_append, List.map_singleton, lastValue_append_singleton,
      lastValue_append_singleton, ih]
    by_cases h : p.1 = k
    · rw [if_pos (congrArg f h), if_pos h]
    · rw [if_neg fun he => h (hf he), if_neg h]

theorem foldl_insert_of_perm {m : Table κ α} {l : List (κ × α)} (h : l.Perm m.toList) :
    l.foldl (fun m p => m.insert p.1 p.2) (∅ : Table κ α) = m := by
  have hnd : (l.map Prod.fst).Nodup := (h.map Prod.fst).nodup_iff.mpr m.nodup_keys
  refine ext fun k => Option.ext fun v => ?_
  rw [get_foldl_insert l ∅ k v hnd (fun p _ => by simp), h.mem_iff, mem_toList]
  simp

end Update

/-! ### Sizes -/

section Size

variable [DecidableEq κ]

theorem size_eq_card (m : Table κ α) : m.size = (m.toList.map Prod.fst).toFinset.card := by
  rw [List.toFinset_card_of_nodup m.nodup_keys, List.length_map, Std.ExtTreeMap.length_toList]

theorem mem_keys {m : Table κ α} {k : κ} :
    k ∈ (m.toList.map Prod.fst).toFinset ↔ ∃ v, m[k]? = some v := by
  rw [List.mem_toFinset, List.mem_map]
  constructor
  · rintro ⟨⟨k', v⟩, hm, rfl⟩
    exact ⟨v, mem_toList.mp hm⟩
  · rintro ⟨v, hv⟩
    exact ⟨(k, v), mem_toList.mpr hv, rfl⟩

theorem size_le {m : Table κ α} {m' : Table κ β}
    (h : ∀ (k : κ) (v : α), m[k]? = some v → ∃ v', m'[k]? = some v') : m.size ≤ m'.size := by
  rw [size_eq_card, size_eq_card]
  refine Finset.card_le_card fun k hk => ?_
  obtain ⟨v, hv⟩ := mem_keys.mp hk
  exact mem_keys.mpr (h k v hv)

theorem size_lt {m : Table κ α} {m' : Table κ β}
    (h : ∀ (k : κ) (v : α), m[k]? = some v → ∃ v', m'[k]? = some v') {k : κ} {v : β}
    (hk : m'[k]? = some v) (hno : m[k]? = none) : m.size < m'.size := by
  rw [size_eq_card, size_eq_card]
  refine Finset.card_lt_card (Finset.ssubset_iff_subset_ne.mpr ⟨fun j hj => ?_, fun heq => ?_⟩)
  · obtain ⟨w, hw⟩ := mem_keys.mp hj
    exact mem_keys.mpr (h j w hw)
  · obtain ⟨w, hw⟩ := mem_keys.mp (heq.symm ▸ mem_keys.mpr ⟨v, hk⟩)
    rw [hno] at hw
    cases hw

end Size

/-! ### Totals -/

/-- The sum of `f` over the entries. -/
def total (f : α → ℕ) (m : Table κ α) : ℕ := (m.toList.map (fun p => f p.2)).sum

section Total

variable [DecidableEq κ]

theorem total_eq_sum (f : α → ℕ) (m : Table κ α) (S : Finset κ)
    (hS : ∀ k v, m[k]? = some v → k ∈ S) : total f m = ∑ k ∈ S, weight f m k := by
  have hkeys : total f m = ∑ k ∈ (m.toList.map Prod.fst).toFinset, weight f m k := by
    rw [List.sum_toFinset _ m.nodup_keys, total, List.map_map]
    congr 1
    refine List.map_congr_left fun p hp => ?_
    exact (weight_of_some (mem_toList.mp hp)).symm
  rw [hkeys]
  refine Finset.sum_subset ?_ ?_
  · intro k hk
    obtain ⟨p, hp, rfl⟩ := List.mem_map.mp (List.mem_toFinset.mp hk)
    exact hS p.1 p.2 (mem_toList.mp hp)
  · intro k _ hk
    cases h : m[k]? with
    | none => exact weight_of_none h
    | some v =>
      exact absurd (List.mem_toFinset.mpr (List.mem_map_of_mem (mem_toList.mpr h))) hk

/-- **An update at one key moves the total by the difference at that key.** -/
theorem total_update (f : α → ℕ) {m m' : Table κ α} {k : κ}
    (h : ∀ a, a ≠ k → weight f m' a = weight f m a) :
    total f m' + weight f m k = total f m + weight f m' k := by
  classical
  -- one set of keys that covers both tables
  let S : Finset κ :=
    insert k ((m.toList.map Prod.fst).toFinset ∪ (m'.toList.map Prod.fst).toFinset)
  have hm : ∀ a v, m[a]? = some v → a ∈ S := fun a v ha =>
    Finset.mem_insert_of_mem (Finset.mem_union_left _
      (List.mem_toFinset.mpr (List.mem_map_of_mem (mem_toList.mpr ha))))
  have hm' : ∀ a v, m'[a]? = some v → a ∈ S := fun a v ha =>
    Finset.mem_insert_of_mem (Finset.mem_union_right _
      (List.mem_toFinset.mpr (List.mem_map_of_mem (mem_toList.mpr ha))))
  have hk : k ∈ S := Finset.mem_insert_self _ _
  rw [total_eq_sum f m S hm, total_eq_sum f m' S hm', ← Finset.add_sum_erase S _ hk,
    ← Finset.add_sum_erase S (weight f m) hk]
  have hrest : ∑ a ∈ S.erase k, weight f m' a = ∑ a ∈ S.erase k, weight f m a := by
    exact Finset.sum_congr rfl fun a ha => h a (Finset.ne_of_mem_erase ha)
  omega

end Total

end Table
