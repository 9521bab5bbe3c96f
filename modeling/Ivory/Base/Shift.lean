import Ivory.Base.Limbs
import Mathlib.Data.Nat.Bitwise

/-!
# Shifting limbs

`shl` and `shr` move the limbs of a number by whole limbs and by some bits; a
bit that leaves a limb enters its neighbour.  `bitOr` joins two numbers limb by
limb.  All three are read bit by bit: bit `64 * i + j` of a number is bit `j` of
its limb `i`.

* `testBit_value`: **the bits of a number are the bits of its limbs.**
* `value_shl`, `value_shr`: shifts are multiplication and division by a power
  of two, on the bits that are there.
-/

namespace Limbs

/-! ### Bits -/

/-- **The bits of a number are the bits of its limbs.** -/
theorem testBit_value : ∀ (as : List UInt64) (i j : ℕ), j < 64 →
    (value as).testBit (64 * i + j) = (as.getD i 0).toNat.testBit j := by
  intro as
  induction as with
  | nil =>
    intro i j _
    simp
  | cons a as ih =>
    intro i j hj
    rw [value_cons, Nat.add_comm, Nat.testBit_two_pow_mul_add _ a.toNat_lt]
    cases i with
    | zero =>
      rw [if_pos (by omega), Nat.mul_zero, Nat.zero_add]
      rfl
    | succ i =>
      rw [if_neg (by omega), show 64 * (i + 1) + j - 64 = 64 * i + j by omega, ih i j hj]
      rfl

theorem value_eq_of_testBit {as : List UInt64} {n m : ℕ} (hlen : as.length = n)
    (hm : m < 2 ^ (64 * n))
    (h : ∀ i < n, ∀ j < 64, (as.getD i 0).toNat.testBit j = m.testBit (64 * i + j)) :
    value as = m := by
  refine Nat.eq_of_testBit_eq fun k => ?_
  have hk : k = 64 * (k / 64) + k % 64 := (Nat.div_add_mod k 64).symm
  have hj : k % 64 < 64 := Nat.mod_lt _ (by norm_num)
  by_cases hi : k / 64 < n
  · rw [hk, testBit_value as _ _ hj, h _ hi _ hj]
  · have hle : 64 * n ≤ k := by omega
    have hv : value as < 2 ^ (64 * n) := hlen ▸ value_lt as
    rw [Nat.testBit_lt_two_pow (hv.trans_le (Nat.pow_le_pow_right (by norm_num) hle)),
      Nat.testBit_lt_two_pow (hm.trans_le (Nat.pow_le_pow_right (by norm_num) hle))]

/-! ### Disjunction -/

/-- Limb by limb. -/
def bitOr (as bs : List UInt64) : List UInt64 := List.zipWith (· ||| ·) as bs

theorem bitOr_length {as bs : List UInt64} (h : as.length = bs.length) :
    (bitOr as bs).length = as.length := by
  rw [bitOr, List.length_zipWith, h, Nat.min_self]

theorem value_bitOr : ∀ as bs : List UInt64, as.length = bs.length →
    value (bitOr as bs) = value as ||| value bs := by
  intro as bs h
  refine value_eq_of_testBit (bitOr_length h) ?_ fun i hi j hj => ?_
  · exact Nat.or_lt_two_pow (value_lt as) (h ▸ value_lt bs)
  · have hget : (bitOr as bs).getD i 0 = as.getD i 0 ||| bs.getD i 0 := by
      simp only [bitOr, List.getD_eq_getElem?_getD, List.getElem?_zipWith,
        List.getElem?_eq_getElem hi, List.getElem?_eq_getElem (h ▸ hi)]
      rfl
    rw [hget, UInt64.toNat_or, Nat.testBit_or, Nat.testBit_or, testBit_value as i j hj,
      testBit_value bs i j hj]

/-! ### Shifts -/

theorem testBit_shiftLeft (a : UInt64) {s j : ℕ} (hs : s < 64) (hj : j < 64) :
    (a <<< UInt64.ofNat s).toNat.testBit j = (decide (s ≤ j) && a.toNat.testBit (j - s)) := by
  have hmod : (UInt64.ofNat s).toNat % 64 = s := by
    rw [UInt64.toNat_ofNat_of_le (by omega), Nat.mod_eq_of_lt hs]
  rw [UInt64.toNat_shiftLeft, hmod, Nat.testBit_mod_two_pow, Nat.testBit_shiftLeft,
    decide_eq_true hj, Bool.true_and]

theorem testBit_shiftRight (a : UInt64) {s : ℕ} (hs : s < 64) (j : ℕ) :
    (a >>> UInt64.ofNat s).toNat.testBit j = a.toNat.testBit (s + j) := by
  have hmod : (UInt64.ofNat s).toNat % 64 = s := by
    rw [UInt64.toNat_ofNat_of_le (by omega), Nat.mod_eq_of_lt hs]
  rw [UInt64.toNat_shiftRight, hmod, Nat.testBit_shiftRight]

theorem testBit_of_ge (a : UInt64) {j : ℕ} (hj : 64 ≤ j) : a.toNat.testBit j = false :=
  Nat.testBit_lt_two_pow (a.toNat_lt.trans_le (Nat.pow_le_pow_right (by norm_num) hj))

/-- To the left, by whole limbs and by less than a limb. -/
def shl (limbShift bitShift : ℕ) (as : List UInt64) : List UInt64 :=
  (List.range as.length).map fun i =>
    if i < limbShift then 0
    else if bitShift = 0 then as.getD (i - limbShift) 0
    else
      let limb := as.getD (i - limbShift) 0 <<< UInt64.ofNat bitShift
      if i > limbShift then
        limb ||| (as.getD (i - limbShift - 1) 0 >>> UInt64.ofNat (64 - bitShift))
      else limb

/-- To the right, by whole limbs and by less than a limb. -/
def shr (limbShift bitShift : ℕ) (as : List UInt64) : List UInt64 :=
  (List.range as.length).map fun i =>
    if i ≥ as.length - limbShift then 0
    else if bitShift = 0 then as.getD (i + limbShift) 0
    else
      let limb := as.getD (i + limbShift) 0 >>> UInt64.ofNat bitShift
      if i + limbShift + 1 < as.length then
        limb ||| (as.getD (i + limbShift + 1) 0 <<< UInt64.ofNat (64 - bitShift))
      else limb

@[simp] theorem shl_length (limbShift bitShift : ℕ) (as : List UInt64) :
    (shl limbShift bitShift as).length = as.length := by simp [shl]

@[simp] theorem shr_length (limbShift bitShift : ℕ) (as : List UInt64) :
    (shr limbShift bitShift as).length = as.length := by simp [shr]

theorem getD_map_range {n i : ℕ} (f : ℕ → UInt64) (hi : i < n) :
    ((List.range n).map f).getD i 0 = f i := by
  simp [List.getD_eq_getElem?_getD, hi]

theorem testBit_shl (as : List UInt64) {limbShift bitShift i j : ℕ} (hb : bitShift < 64)
    (hi : i < as.length) (hj : j < 64) :
    ((shl limbShift bitShift as).getD i 0).toNat.testBit j
      = (decide (64 * limbShift + bitShift ≤ 64 * i + j)
        && (value as).testBit (64 * i + j - (64 * limbShift + bitShift))) := by
  rw [shl, getD_map_range _ hi]
  by_cases hlt : i < limbShift
  · rw [if_pos hlt, decide_eq_false (by omega), Bool.false_and]
    simp
  rw [if_neg hlt]
  by_cases h0 : bitShift = 0
  · subst h0
    rw [if_pos rfl, decide_eq_true (by omega), Bool.true_and,
      show 64 * i + j - (64 * limbShift + 0) = 64 * (i - limbShift) + j by omega,
      testBit_value as _ _ hj]
  rw [if_neg h0]
  by_cases hjb : bitShift ≤ j
  · have hv : (value as).testBit (64 * i + j - (64 * limbShift + bitShift))
        = (as.getD (i - limbShift) 0).toNat.testBit (j - bitShift) := by
      rw [show 64 * i + j - (64 * limbShift + bitShift)
        = 64 * (i - limbShift) + (j - bitShift) by omega, testBit_value as _ _ (by omega)]
    rw [decide_eq_true (by omega), Bool.true_and, hv]
    simp only
    split_ifs
    · rw [UInt64.toNat_or, Nat.testBit_or, testBit_shiftLeft _ hb hj, decide_eq_true hjb,
        Bool.true_and, testBit_shiftRight _ (by omega),
        testBit_of_ge _ (show 64 ≤ 64 - bitShift + j by omega), Bool.or_false]
    · rw [testBit_shiftLeft _ hb hj, decide_eq_true hjb, Bool.true_and]
  · -- the bit comes from the limb below, if there is one
    simp only
    split_ifs with hgt
    · rw [UInt64.toNat_or, Nat.testBit_or, testBit_shiftLeft _ hb hj, decide_eq_false hjb,
        Bool.false_and, Bool.false_or, testBit_shiftRight _ (by omega), decide_eq_true (by omega),
        Bool.true_and, show 64 * i + j - (64 * limbShift + bitShift)
          = 64 * (i - limbShift - 1) + (64 - bitShift + j) by omega,
        testBit_value as _ _ (by omega)]
    · rw [testBit_shiftLeft _ hb hj, decide_eq_false hjb, Bool.false_and,
        decide_eq_false (by omega), Bool.false_and]

theorem testBit_shr (as : List UInt64) {limbShift bitShift i j : ℕ} (hb : bitShift < 64)
    (hi : i < as.length) (hj : j < 64) :
    ((shr limbShift bitShift as).getD i 0).toNat.testBit j
      = (value as).testBit (64 * limbShift + bitShift + (64 * i + j)) := by
  -- beyond the last limb there are no bits
  have hout : ∀ k j, as.length ≤ k → j < 64 → (value as).testBit (64 * k + j) = false := by
    intro k j hk hj
    rw [testBit_value as k j hj, List.getD_eq_default _ _ hk]
    simp
  rw [shr, getD_map_range _ hi]
  by_cases hge : i ≥ as.length - limbShift
  · rw [if_pos hge, UInt64.toNat_zero, Nat.zero_testBit]
    by_cases hjb : bitShift + j < 64
    · rw [show 64 * limbShift + bitShift + (64 * i + j) = 64 * (i + limbShift) + (bitShift + j)
        by omega, hout _ _ (by omega) hjb]
    · rw [show 64 * limbShift + bitShift + (64 * i + j)
        = 64 * (i + limbShift + 1) + (bitShift + j - 64) by omega, hout _ _ (by omega) (by omega)]
  rw [if_neg hge]
  by_cases h0 : bitShift = 0
  · subst h0
    rw [if_pos rfl, show 64 * limbShift + 0 + (64 * i + j) = 64 * (i + limbShift) + j by omega,
      testBit_value as _ _ hj]
  rw [if_neg h0]
  by_cases hjb : bitShift + j < 64
  · have hv : (value as).testBit (64 * limbShift + bitShift + (64 * i + j))
        = (as.getD (i + limbShift) 0).toNat.testBit (bitShift + j) := by
      rw [show 64 * limbShift + bitShift + (64 * i + j) = 64 * (i + limbShift) + (bitShift + j)
        by omega, testBit_value as _ _ hjb]
    rw [hv]
    simp only
    split_ifs
    · rw [UInt64.toNat_or, Nat.testBit_or, testBit_shiftRight _ hb,
        testBit_shiftLeft _ (by omega) hj, decide_eq_false (by omega), Bool.false_and,
        Bool.or_false]
    · rw [testBit_shiftRight _ hb]
  · -- the bit comes from the limb above, if there is one
    rw [show 64 * limbShift + bitShift + (64 * i + j)
      = 64 * (i + limbShift + 1) + (bitShift + j - 64) by omega]
    simp only
    split_ifs with hlt
    · rw [UInt64.toNat_or, Nat.testBit_or, testBit_shiftRight _ hb, testBit_of_ge _ (by omega),
        Bool.false_or, testBit_shiftLeft _ (by omega) hj, decide_eq_true (by omega),
        Bool.true_and, testBit_value as _ _ (by omega),
        show j - (64 - bitShift) = bitShift + j - 64 by omega]
    · rw [testBit_shiftRight _ hb, testBit_of_ge _ (by omega), hout _ _ (by omega) (by omega)]

/-- **A shift to the left multiplies**, and drops what does not fit. -/
theorem value_shl (as : List UInt64) {bitShift : ℕ} (limbShift : ℕ) (hb : bitShift < 64) :
    value (shl limbShift bitShift as)
      = value as * 2 ^ (64 * limbShift + bitShift) % 2 ^ (64 * as.length) := by
  refine value_eq_of_testBit (shl_length _ _ _) (Nat.mod_lt _ (by positivity)) fun i hi j hj => ?_
  have hin : decide (64 * i + j < 64 * as.length) = true := decide_eq_true (by omega)
  rw [testBit_shl as hb hi hj, Nat.testBit_mod_two_pow, hin, Bool.true_and,
    Nat.testBit_mul_two_pow]

/-- **A shift to the right divides.** -/
theorem value_shr (as : List UInt64) {bitShift : ℕ} (limbShift : ℕ) (hb : bitShift < 64) :
    value (shr limbShift bitShift as) = value as / 2 ^ (64 * limbShift + bitShift) := by
  refine value_eq_of_testBit (shr_length _ _ _)
    (lt_of_le_of_lt (Nat.div_le_self _ _) (value_lt as)) fun i hi j hj => ?_
  rw [testBit_shr as hb hi hj, Nat.testBit_div_two_pow, Nat.add_comm]

end Limbs
