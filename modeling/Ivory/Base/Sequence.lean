import Mathlib.Order.Std
import Mathlib.Tactic

/-!
# Arrays and vectors

`Arr α n` is the Rust array `[T; N]`: a list together with its length.
`Vec α` is the Rust `Vec<T>`: a list whose length fits in a 64-bit word, which
is what lets a length prefix of eight bytes describe it.

An array of bytes is compared lexicographically, as Rust compares arrays, and
`Arr` inherits a linear order from that comparison.
-/

/-- The Rust array `[T; N]`. -/
structure Arr (α : Type) (n : ℕ) where
  toList : List α
  size : toList.length = n
deriving DecidableEq

namespace Arr

variable {α : Type} {n : ℕ}

theorem ext {a b : Arr α n} (h : a.toList = b.toList) : a = b := by
  cases a
  cases b
  cases h
  rfl

/-- `[x; N]`. -/
def replicate (n : ℕ) (x : α) : Arr α n := ⟨List.replicate n x, List.length_replicate⟩

/-- The array of the values of `f` on `0, …, N - 1`. -/
def ofFn (n : ℕ) (f : ℕ → α) : Arr α n := ⟨(List.range n).map f, by simp⟩

/-- `a[i]`, with a default outside the array. -/
def getD (a : Arr α n) (i : ℕ) (x : α) : α := a.toList.getD i x

theorem ofFn_congr {f g : ℕ → α} (h : ∀ i < n, f i = g i) : ofFn n f = ofFn n g := by
  refine ext ?_
  simp only [ofFn]
  exact List.map_congr_left fun i hi => h i (List.mem_range.mp hi)

theorem getD_ofFn (f : ℕ → α) {i : ℕ} (h : i < n) (x : α) : (ofFn n f).getD i x = f i := by
  simp [ofFn, getD, List.getD_eq_getElem?_getD, h]

@[simp] theorem ofFn_getElem? (a : Arr α n) (x : α) :
    ofFn n (fun i => a.toList[i]?.getD x) = a := by
  apply ext
  refine List.ext_getElem (by simp [ofFn, a.size]) ?_
  intro i _ h
  simp [ofFn, h]

section Order

variable [Ord α]

instance : Ord (Arr α n) := ⟨fun a b => compare a.toList b.toList⟩

theorem compare_def (a b : Arr α n) : compare a b = compare a.toList b.toList := rfl

instance [Std.TransOrd α] : Std.TransOrd (Arr α n) where
  eq_swap {a b} := by
    rw [compare_def, compare_def]
    exact Std.OrientedOrd.eq_swap
  isLE_trans {a b c} h₁ h₂ := by
    rw [compare_def] at h₁ h₂ ⊢
    exact Std.TransOrd.isLE_trans h₁ h₂

instance [Std.LawfulEqOrd α] : Std.LawfulEqOrd (Arr α n) where
  compare_self {a} := by
    rw [compare_def]
    exact Std.ReflOrd.compare_self
  eq_of_compare {a b} h := by
    rw [compare_def] at h
    exact ext (Std.LawfulEqOrd.eq_of_compare h)

end Order

instance : LinearOrder (Arr UInt8 n) := .ofStd (Arr UInt8 n)

theorem compare_replicate_zero (n : ℕ) : ∀ l : List UInt8, l.length = n →
    compare l (List.replicate n 0) ≠ .lt := by
  induction n with
  | zero =>
    intro l hl
    rw [List.length_eq_zero_iff.mp hl]
    exact nofun
  | succ n ih =>
    intro l hl
    cases l with
    | nil => cases hl
    | cons a l =>
      have hlt : compare a 0 ≠ .lt := by
        rw [ne_eq, Std.compare_eq_lt]
        exact UInt8.not_lt.mpr UInt8.zero_le
      rw [List.replicate_succ, List.compare_eq_compareLex, List.compareLex_cons_cons]
      intro h
      rcases Ordering.then_eq_lt.mp h with h | ⟨-, h⟩
      · exact hlt h
      · exact ih l (Nat.succ.inj hl) h

theorem replicate_zero_le (a : Arr UInt8 n) : replicate n 0 ≤ a := by
  by_contra h
  have h : compare a (replicate n 0) = .lt := Std.compare_eq_lt.mpr (not_le.mp h)
  exact compare_replicate_zero n a.toList a.size h

end Arr

/-- The Rust `Vec<T>`.  No vector has `2 ^ 64` elements or more. -/
structure Vec (α : Type) where
  toList : List α
  size_lt : toList.length < 2 ^ 64
deriving DecidableEq

namespace Vec

variable {α : Type}

theorem ext {a b : Vec α} (h : a.toList = b.toList) : a = b := by
  cases a
  cases b
  cases h
  rfl

/-- `Vec::new()`. -/
def empty : Vec α := ⟨[], by norm_num⟩

/-- The vector of a list.  A list too long for a vector, which no program
builds, is cut off. -/
def ofList (l : List α) : Vec α := ⟨l.take (2 ^ 64 - 1), by
  have : (l.take (2 ^ 64 - 1)).length ≤ 2 ^ 64 - 1 := List.length_take_le _ _
  omega⟩

@[simp] theorem toList_empty : (empty : Vec α).toList = [] := rfl

theorem toList_ofList {l : List α} (h : l.length < 2 ^ 64) : (ofList l).toList = l :=
  List.take_of_length_le (by omega)

@[simp] theorem ofList_toList (v : Vec α) : ofList v.toList = v := ext (toList_ofList v.size_lt)

theorem ofList_injOn {l l' : List α} (h : l.length < 2 ^ 64) (h' : l'.length < 2 ^ 64)
    (he : ofList l = ofList l') : l = l' := by
  rw [← toList_ofList h, ← toList_ofList h', he]

instance : Inhabited (Vec α) := ⟨empty⟩

end Vec
