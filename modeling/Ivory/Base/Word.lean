import Mathlib.Tactic

/-!
# Saturating and checked arithmetic on `u64`

Rust's `saturating_*` and `checked_*` on a 64-bit word, read on the natural
numbers.  Every operation comes with the one lemma that says what its value
is, so that a proof about words becomes a proof about naturals for `omega`.
-/

namespace UInt64

/-- `u64::MAX`. -/
def maxValue : UInt64 := UInt64.ofNat (2 ^ 64 - 1)

theorem toNat_le_max (a : UInt64) : a.toNat ≤ 2 ^ 64 - 1 := by
  have := a.toNat_lt
  omega

@[simp] theorem toNat_maxValue : maxValue.toNat = 2 ^ 64 - 1 := by decide

theorem toNat_ofNat_of_le {n : ℕ} (h : n ≤ 2 ^ 64 - 1) : (UInt64.ofNat n).toNat = n := by
  rw [UInt64.toNat_ofNat']
  exact Nat.mod_eq_of_lt (by omega)

/-- `a.saturating_add(b)`. -/
def saturatingAdd (a b : UInt64) : UInt64 := UInt64.ofNat (min (a.toNat + b.toNat) (2 ^ 64 - 1))

/-- `a.saturating_sub(b)`. -/
def saturatingSub (a b : UInt64) : UInt64 := UInt64.ofNat (a.toNat - b.toNat)

/-- `a.saturating_mul(b)`. -/
def saturatingMul (a b : UInt64) : UInt64 := UInt64.ofNat (min (a.toNat * b.toNat) (2 ^ 64 - 1))

/-- `a.checked_add(b)`. -/
def checkedAdd (a b : UInt64) : Option UInt64 :=
  if a.toNat + b.toNat < 2 ^ 64 then some (UInt64.ofNat (a.toNat + b.toNat)) else none

/-- `a.checked_sub(b)`. -/
def checkedSub (a b : UInt64) : Option UInt64 :=
  if b.toNat ≤ a.toNat then some (UInt64.ofNat (a.toNat - b.toNat)) else none

@[simp] theorem toNat_saturatingAdd (a b : UInt64) :
    (a.saturatingAdd b).toNat = min (a.toNat + b.toNat) (2 ^ 64 - 1) :=
  toNat_ofNat_of_le (min_le_right _ _)

@[simp] theorem toNat_saturatingSub (a b : UInt64) :
    (a.saturatingSub b).toNat = a.toNat - b.toNat :=
  toNat_ofNat_of_le (le_trans (Nat.sub_le _ _) a.toNat_le_max)

theorem checkedAdd_eq_some {a b c : UInt64} :
    a.checkedAdd b = some c ↔ c.toNat = a.toNat + b.toNat := by
  unfold checkedAdd
  split
  · rename_i h
    have hv : (UInt64.ofNat (a.toNat + b.toNat)).toNat = a.toNat + b.toNat :=
      toNat_ofNat_of_le (by omega)
    rw [Option.some.injEq, ← UInt64.toNat_inj, hv]
    exact eq_comm
  · have := c.toNat_lt
    constructor
    · intro h
      cases h
    · intro h
      omega

theorem checkedSub_eq_some {a b c : UInt64} :
    a.checkedSub b = some c ↔ c.toNat + b.toNat = a.toNat := by
  unfold checkedSub
  have ha := a.toNat_le_max
  split
  · rename_i h
    have hv : (UInt64.ofNat (a.toNat - b.toNat)).toNat = a.toNat - b.toNat :=
      toNat_ofNat_of_le (by omega)
    rw [Option.some.injEq, ← UInt64.toNat_inj, hv]
    omega
  · constructor
    · intro h
      cases h
    · intro h
      omega

/-! ### Overflowing operations -/

/-- `a.overflowing_add(b)`: the sum modulo `2 ^ 64`, and whether it wrapped. -/
def overflowingAdd (a b : UInt64) : UInt64 × Bool :=
  (UInt64.ofNat ((a.toNat + b.toNat) % 2 ^ 64), decide (2 ^ 64 ≤ a.toNat + b.toNat))

/-- `a.overflowing_sub(b)`: the difference modulo `2 ^ 64`, and whether it wrapped. -/
def overflowingSub (a b : UInt64) : UInt64 × Bool :=
  (UInt64.ofNat ((2 ^ 64 + a.toNat - b.toNat) % 2 ^ 64), decide (a.toNat < b.toNat))

/-- `u64::from(bool)`. -/
def ofBool (b : Bool) : UInt64 := if b then 1 else 0

theorem overflowingAdd_value (a b : UInt64) :
    (a.overflowingAdd b).1.toNat + 2 ^ 64 * (a.overflowingAdd b).2.toNat
      = a.toNat + b.toNat := by
  have ha := a.toNat_lt
  have hb := b.toNat_lt
  have hv : (UInt64.ofNat ((a.toNat + b.toNat) % 2 ^ 64)).toNat = (a.toNat + b.toNat) % 2 ^ 64 :=
    toNat_ofNat_of_le (by omega)
  rw [overflowingAdd, hv]
  by_cases h : 2 ^ 64 ≤ a.toNat + b.toNat
  · simp only [h, decide_true, Bool.toNat_true]
    omega
  · simp only [h, decide_false, Bool.toNat_false]
    omega

theorem overflowingSub_value (a b : UInt64) :
    (a.overflowingSub b).1.toNat + b.toNat
      = a.toNat + 2 ^ 64 * (a.overflowingSub b).2.toNat := by
  have ha := a.toNat_lt
  have hb := b.toNat_lt
  have hv : (UInt64.ofNat ((2 ^ 64 + a.toNat - b.toNat) % 2 ^ 64)).toNat
      = (2 ^ 64 + a.toNat - b.toNat) % 2 ^ 64 := toNat_ofNat_of_le (by omega)
  rw [overflowingSub, hv]
  by_cases h : a.toNat < b.toNat
  · simp only [h, decide_true, Bool.toNat_true]
    omega
  · simp only [h, decide_false, Bool.toNat_false]
    omega

/-- `a.leading_zeros()`. -/
def leadingZeros (a : UInt64) : ℕ := if a = 0 then 64 else 63 - a.toNat.log2

theorem toNat_ne_zero {a : UInt64} (h : a ≠ 0) : a.toNat ≠ 0 := by
  intro h0
  exact h (UInt64.toNat_inj.mp h0)

theorem leadingZeros_spec {a : UInt64} (h : a ≠ 0) :
    a.leadingZeros ≤ 63 ∧ 2 ^ (63 - a.leadingZeros) ≤ a.toNat
      ∧ a.toNat < 2 ^ (64 - a.leadingZeros) := by
  have h0 := toNat_ne_zero h
  have hlog : a.toNat.log2 < 64 := (Nat.log2_lt h0).mpr a.toNat_lt
  have hz : a.leadingZeros = 63 - a.toNat.log2 := if_neg h
  refine ⟨by omega, ?_, ?_⟩
  · rw [show 63 - a.leadingZeros = a.toNat.log2 by omega]
    exact Nat.log2_self_le h0
  · rw [show 64 - a.leadingZeros = a.toNat.log2 + 1 by omega]
    exact Nat.lt_log2_self

end UInt64
