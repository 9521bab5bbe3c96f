import Ivory.Base.Shift
import Ivory.Primitives.Uint

/-!
# Products, quotients and powers of `U256`

`checked_mul` computes its rows in 128-bit words, `checked_div` is a
shift-and-subtract loop over the bits of the quotient, `checked_rem` multiplies
back, `checked_pow` squares and multiplies.

* `U256.checkedMul_exact`: the product, or nothing when it does not fit; **the
  128-bit words suffice.**
* `DivInv.step`: what one pass of the division loop keeps.
* `U256.checkedDiv_exact`: **quotient and remainder**, and that nothing fails on the way.
* `U256.checkedPow_exact`: the power, or nothing when it does not fit; **no square
  overflows early.**
-/

namespace Ivory

namespace U256

/-! ### Products -/

/-- `checked_mul`, with checked 128-bit operations; `none` if one of them overflows. -/
def checkedMulWide (x y : U256) : Option (Option U256) :=
  if x.isZero || y.isZero then some (some zero)
  else if x = one then some (some y)
  else if y = one then some (some x)
  else if x.bits + y.bits > 257 then some none
  else match Limbs.mulLoopWide y.limbs 0 x.limbs [0, 0, 0, 0] with
    | none => none
    | some none => some none
    | some (some r) => some (if h : r.length = 4 then some ⟨r, h⟩ else none)

theorem checkedMulWide_eq (x y : U256) : x.checkedMulWide y = some (x.checkedMul y) := by
  rw [checkedMulWide, checkedMul, Limbs.mulLoopWide_eq]
  split_ifs
  · rfl
  · rfl
  · rfl
  · rfl
  · cases Limbs.mulLoop y.limbs 0 x.limbs [0, 0, 0, 0] with
    | none => rfl
    | some r => rfl

/-- **Multiplication is exact.**  The result is the product, and there is none exactly if the
product does not fit; no 128-bit operation on the way overflows. -/
theorem checkedMul_exact (a b : U256) :
    (∀ c, a.checkedMul b = some c ↔ c.toNat = a.toNat * b.toNat)
    ∧ (a.checkedMul b = none ↔ 2 ^ 256 ≤ a.toNat * b.toNat)
    ∧ a.checkedMulWide b = some (a.checkedMul b) :=
  ⟨fun _ => checkedMul_eq_some, checkedMul_eq_none, checkedMulWide_eq a b⟩

/-! ### Leading zeros -/

/-- `leading_zeros`. -/
def leadingZeros (x : U256) : ℕ := Limbs.leadingZeros x.limbs.reverse

theorem leadingZeros_le (x : U256) : x.leadingZeros ≤ 256 := by
  have hall : ∀ l : List UInt64, Limbs.leadingZeros l ≤ 64 * l.length := by
    intro l
    induction l with
    | nil => exact le_rfl
    | cons a l ih =>
      rw [Limbs.leadingZeros, List.length_cons]
      split_ifs with ha
      · omega
      · have := (UInt64.leadingZeros_spec ha).1
        omega
  have h := hall x.limbs.reverse
  rwa [List.length_reverse, x.size] at h

theorem bits_eq (x : U256) : x.bits = 256 - x.leadingZeros := by
  rw [bits, Limbs.bits, x.size, leadingZeros]

theorem toNat_lt_pow_bits (x : U256) : x.toNat < 2 ^ x.bits := Limbs.value_lt_pow_bits x.limbs

theorem pow_bits_le_toNat {x : U256} (h : x.toNat ≠ 0) : 2 ^ (x.bits - 1) ≤ x.toNat :=
  Limbs.pow_bits_le_value h

theorem bits_pos {x : U256} (h : x.toNat ≠ 0) : 0 < x.bits := by
  by_contra h0
  have hlt := x.toNat_lt_pow_bits
  rw [Nat.eq_zero_of_not_pos h0] at hlt
  omega

theorem leadingZeros_anti {x y : U256} (h : y.toNat ≤ x.toNat) (h0 : y.toNat ≠ 0) :
    x.leadingZeros ≤ y.leadingZeros := by
  have hlt : 2 ^ (y.bits - 1) < 2 ^ x.bits :=
    (pow_bits_le_toNat h0).trans_lt (h.trans_lt x.toNat_lt_pow_bits)
  have hbits := (Nat.pow_lt_pow_iff_right (by norm_num)).mp hlt
  have hx := x.leadingZeros_le
  rw [bits_eq, bits_eq] at hbits
  omega

/-! ### Shifts -/

/-- `Shl`. -/
def shl (x : U256) (shift : ℕ) : U256 :=
  if shift ≥ 256 then zero
  else if shift = 0 then x
  else ⟨Limbs.shl (shift / 64) (shift % 64) x.limbs, by rw [Limbs.shl_length, x.size]⟩

/-- `Shr`. -/
def shr (x : U256) (shift : ℕ) : U256 :=
  if shift ≥ 256 then zero
  else if shift = 0 then x
  else ⟨Limbs.shr (shift / 64) (shift % 64) x.limbs, by rw [Limbs.shr_length, x.size]⟩

/-- `BitOr`. -/
def bitOr (x y : U256) : U256 :=
  ⟨Limbs.bitOr x.limbs y.limbs, by rw [Limbs.bitOr_length (by rw [x.size, y.size]), x.size]⟩

theorem toNat_shl (x : U256) (shift : ℕ) :
    (x.shl shift).toNat = x.toNat * 2 ^ shift % 2 ^ 256 := by
  rw [shl]
  split_ifs with hge h0
  · obtain ⟨k, rfl⟩ := Nat.exists_eq_add_of_le hge
    rw [toNat_zero, pow_add, Nat.mul_left_comm, Nat.mul_mod_right]
  · rw [h0, pow_zero, mul_one, Nat.mod_eq_of_lt x.toNat_lt]
  · have h := Limbs.value_shl x.limbs (shift / 64) (Nat.mod_lt shift (by norm_num : 64 > 0))
    rwa [Nat.div_add_mod, x.size] at h

theorem toNat_shr (x : U256) (shift : ℕ) : (x.shr shift).toNat = x.toNat / 2 ^ shift := by
  rw [shr]
  split_ifs with hge h0
  · have hlt : x.toNat < 2 ^ shift := x.toNat_lt.trans_le (Nat.pow_le_pow_right (by norm_num) hge)
    rw [toNat_zero, Nat.div_eq_of_lt hlt]
  · rw [h0, pow_zero, Nat.div_one]
  · have h := Limbs.value_shr x.limbs (shift / 64) (Nat.mod_lt shift (by norm_num : 64 > 0))
    rwa [Nat.div_add_mod] at h

theorem toNat_bitOr (x y : U256) : (x.bitOr y).toNat = x.toNat ||| y.toNat :=
  Limbs.value_bitOr x.limbs y.limbs (by rw [x.size, y.size])

theorem toNat_shl_of_leadingZeros {x y : U256} (h0 : y.toNat ≠ 0)
    (h : x.leadingZeros ≤ y.leadingZeros) :
    (y.shl (y.leadingZeros - x.leadingZeros)).toNat
      = y.toNat * 2 ^ (y.leadingZeros - x.leadingZeros) := by
  have hpos := bits_pos h0
  have hlt : y.toNat * 2 ^ (y.leadingZeros - x.leadingZeros)
      < 2 ^ y.bits * 2 ^ (y.leadingZeros - x.leadingZeros) :=
    Nat.mul_lt_mul_of_pos_right y.toNat_lt_pow_bits (by positivity)
  have hle : 2 ^ y.bits * 2 ^ (y.leadingZeros - x.leadingZeros) ≤ 2 ^ 256 := by
    rw [← pow_add]
    exact Nat.pow_le_pow_right (by norm_num) (by rw [bits_eq] at hpos ⊢; omega)
  rw [toNat_shl, Nat.mod_eq_of_lt (hlt.trans_le hle)]

end U256

/-! ### The division loop -/

/-- The variables of the loop of `checked_div`. -/
structure DivState where
  quotient : U256
  remainder : U256
  divisor : U256

namespace DivState

/-- The body of the loop, at bit `i`. -/
def step (i : ℕ) (st : DivState) : Option DivState :=
  if st.remainder < st.divisor then some { st with divisor := st.divisor.shr 1 }
  else do
    let remainder ← st.remainder.checkedSub st.divisor
    some ⟨st.quotient.bitOr (U256.one.shl i), remainder, st.divisor.shr 1⟩

/-- `n` passes, from bit `n - 1` down to bit zero. -/
def loop : ℕ → DivState → Option DivState
  | 0, st => some st
  | i + 1, st => (st.step i).bind (loop i)

end DivState

/-- With `n` bits of the quotient to come: what was taken off `a` is the quotient so far times `b`,
less than `2 ^ n` times `b` is left, and the divisor is aligned with the next bit. -/
structure DivInv (a b n : ℕ) (st : DivState) : Prop where
  sum : st.quotient.toNat * b + st.remainder.toNat = a
  bound : st.remainder.toNat < b * 2 ^ n
  bits : 2 ^ n ∣ st.quotient.toNat
  divisor : st.divisor.toNat = b * 2 ^ n / 2

namespace DivInv

variable {a b n : ℕ} {st : DivState}

theorem divisor_succ (h : DivInv a b (n + 1) st) : st.divisor.toNat = b * 2 ^ n := by
  rw [h.divisor, pow_succ, ← mul_assoc, Nat.mul_div_cancel _ (by norm_num)]

theorem shr_divisor (h : DivInv a b (n + 1) st) :
    (st.divisor.shr 1).toNat = b * 2 ^ n / 2 := by
  rw [U256.toNat_shr, h.divisor_succ, pow_one]

theorem bitOr_quotient (h : DivInv a b (n + 1) st) (hn : n < 256) :
    (st.quotient.bitOr (U256.one.shl n)).toNat = st.quotient.toNat + 2 ^ n := by
  have hone : (U256.one.shl n).toNat = 2 ^ n := by
    rw [U256.toNat_shl, U256.toNat_one, one_mul,
      Nat.mod_eq_of_lt (Nat.pow_lt_pow_right (by norm_num) hn)]
  obtain ⟨k, hk⟩ := h.bits
  rw [U256.toNat_bitOr, hone, hk,
    Nat.two_pow_add_eq_or_of_lt (Nat.pow_lt_pow_right (by norm_num) (Nat.lt_succ_self n))]

/-- **One pass of the division loop**: it does not fail, and decides one bit. -/
theorem step (h : DivInv a b (n + 1) st) (hn : n < 256) :
    ∃ st', st.step n = some st' ∧ DivInv a b n st' := by
  have hd := h.divisor_succ
  have hbits : 2 ^ n ∣ st.quotient.toNat := (pow_dvd_pow 2 (Nat.le_succ n)).trans h.bits
  rw [DivState.step]
  by_cases hlt : st.remainder < st.divisor
  · refine ⟨_, if_pos hlt, h.sum, ?_, hbits, h.shr_divisor⟩
    rw [← hd]
    exact U256.lt_iff.mp hlt
  · have hle : st.divisor.toNat ≤ st.remainder.toNat :=
      Nat.not_lt.mp fun h' => hlt (U256.lt_iff.mpr h')
    have hr : st.remainder.toNat - st.divisor.toNat < 2 ^ 256 :=
      lt_of_le_of_lt (Nat.sub_le _ _) st.remainder.toNat_lt
    obtain ⟨r, hrval⟩ := U256.exists_toNat_eq hr
    have hsub : st.remainder.checkedSub st.divisor = some r :=
      U256.checkedSub_eq_some.mpr (by omega)
    have hq := h.bitOr_quotient hn
    refine ⟨⟨st.quotient.bitOr (U256.one.shl n), r, st.divisor.shr 1⟩, ?_, ?_, ?_, ?_,
      h.shr_divisor⟩
    · rw [if_neg hlt, hsub]
      rfl
    · -- what the bit adds to the quotient, the remainder loses
      have hsum := h.sum
      show (st.quotient.bitOr (U256.one.shl n)).toNat * b + r.toNat = a
      rw [hq, hrval, hd, add_mul, mul_comm (2 ^ n) b]
      rw [hd] at hle
      omega
    · have hb := h.bound
      show r.toNat < b * 2 ^ n
      rw [hrval, hd]
      rw [pow_succ, ← mul_assoc] at hb
      omega
    · show 2 ^ n ∣ (st.quotient.bitOr (U256.one.shl n)).toNat
      rw [hq]
      exact Dvd.dvd.add hbits dvd_rfl

/-- **The loop ends with all bits decided.** -/
theorem loop : ∀ {n : ℕ} {st : DivState}, DivInv a b n st → n ≤ 256 →
    ∃ st', st.loop n = some st' ∧ DivInv a b 0 st' := by
  intro n
  induction n with
  | zero => intro st h _; exact ⟨st, rfl, h⟩
  | succ n ih =>
    intro st h hn
    obtain ⟨st', hstep, h'⟩ := h.step hn
    obtain ⟨st'', hloop, h''⟩ := ih h' (by omega)
    exact ⟨st'', by rw [DivState.loop, hstep, Option.bind_some, hloop], h''⟩

theorem quotient_eq (h : DivInv a b 0 st) : st.quotient.toNat = a / b := by
  have hsum := h.sum
  have hbound := h.bound
  rw [pow_zero, mul_one] at hbound
  have hb : 0 < b := by omega
  rw [← hsum, Nat.add_comm, Nat.add_mul_div_right _ _ hb, Nat.div_eq_of_lt hbound, Nat.zero_add]

end DivInv

namespace U256

/-! ### Quotients -/

/-- The loop variables before the first pass. -/
def divStart (x y : U256) : DivState := ⟨zero, x, y.shl (y.leadingZeros - x.leadingZeros)⟩

/-- `checked_div`. -/
def checkedDiv (x y : U256) : Option U256 :=
  if y.isZero then none
  else if x.isZero then some zero
  else if x < y then some zero
  else if y = one then some x
  else ((divStart x y).loop (y.leadingZeros - x.leadingZeros + 1)).map DivState.quotient

/-- `checked_rem`. -/
def checkedRem (x y : U256) : Option U256 :=
  if y.isZero then none
  else do
    let quotient ← x.checkedDiv y
    let product ← quotient.checkedMul y
    x.checkedSub product

theorem divInv_start {x y : U256} (h0 : y.toNat ≠ 0) (hle : y.toNat ≤ x.toNat) :
    DivInv x.toNat y.toNat (y.leadingZeros - x.leadingZeros + 1) (divStart x y) where
  sum := by
    show zero.toNat * y.toNat + x.toNat = x.toNat
    rw [toNat_zero, zero_mul, Nat.zero_add]
  bound := by
    have hlz := leadingZeros_anti hle h0
    have hpos := bits_pos h0
    show x.toNat < y.toNat * 2 ^ (y.leadingZeros - x.leadingZeros + 1)
    calc x.toNat < 2 ^ x.bits := x.toNat_lt_pow_bits
      _ = 2 ^ (y.bits - 1) * 2 ^ (y.leadingZeros - x.leadingZeros + 1) := by
        rw [← pow_add]
        congr 1
        rw [bits_eq] at hpos ⊢
        rw [bits_eq]
        omega
      _ ≤ y.toNat * 2 ^ (y.leadingZeros - x.leadingZeros + 1) :=
        Nat.mul_le_mul_right _ (pow_bits_le_toNat h0)
  bits := by
    show 2 ^ (y.leadingZeros - x.leadingZeros + 1) ∣ zero.toNat
    rw [toNat_zero]
    exact dvd_zero _
  divisor := by
    show (y.shl (y.leadingZeros - x.leadingZeros)).toNat = _
    rw [toNat_shl_of_leadingZeros h0 (leadingZeros_anti hle h0), pow_succ, ← mul_assoc,
      Nat.mul_div_cancel _ (by norm_num)]

theorem shift_lt {x y : U256} (h0 : y.toNat ≠ 0) : y.leadingZeros - x.leadingZeros + 1 ≤ 256 := by
  have hpos := bits_pos h0
  rw [bits_eq] at hpos
  omega

theorem loop_divStart {x y : U256} (h0 : y.toNat ≠ 0) (hle : y.toNat ≤ x.toNat) :
    ∃ st, (divStart x y).loop (y.leadingZeros - x.leadingZeros + 1) = some st
      ∧ st.quotient.toNat = x.toNat / y.toNat := by
  obtain ⟨st, hloop, hst⟩ := (divInv_start h0 hle).loop (shift_lt h0)
  exact ⟨st, hloop, hst.quotient_eq⟩

theorem exists_checkedDiv {x y : U256} (h0 : y.toNat ≠ 0) :
    ∃ q, x.checkedDiv y = some q ∧ q.toNat = x.toNat / y.toNat := by
  rw [checkedDiv, if_neg (fun h => h0 (isZero_iff.mp h))]
  split_ifs with hx hlt h1
  · refine ⟨zero, rfl, ?_⟩
    rw [isZero_iff.mp hx, Nat.zero_div, toNat_zero]
  · refine ⟨zero, rfl, ?_⟩
    rw [Nat.div_eq_of_lt (lt_iff.mp hlt), toNat_zero]
  · refine ⟨x, rfl, ?_⟩
    rw [h1, toNat_one, Nat.div_one]
  · obtain ⟨st, hloop, hq⟩ := loop_divStart h0 (Nat.not_lt.mp fun h => hlt (lt_iff.mpr h))
    exact ⟨st.quotient, by rw [hloop, Option.map_some], hq⟩

theorem exists_checkedRem {x y q : U256} (hq : q.toNat = x.toNat / y.toNat) :
    ∃ p r, q.checkedMul y = some p ∧ x.checkedSub p = some r ∧ r.toNat = x.toNat % y.toNat := by
  have hle : x.toNat / y.toNat * y.toNat ≤ x.toNat := Nat.div_mul_le_self _ _
  have hdiv := Nat.div_add_mod' x.toNat y.toNat
  obtain ⟨p, hp⟩ := exists_toNat_eq (hle.trans_lt x.toNat_lt)
  obtain ⟨r, hr⟩ := exists_toNat_eq (lt_of_le_of_lt (Nat.mod_le x.toNat y.toNat) x.toNat_lt)
  exact ⟨p, r, checkedMul_eq_some.mpr (by rw [hp, hq]), checkedSub_eq_some.mpr (by omega), hr⟩

/-- **Division is exact.**  Quotient and remainder are those of the numbers, and there are none
exactly for the divisor zero.  Where the loop is reached, the count of its passes does not
underflow, the aligned divisor loses no bits and no pass fails; neither the product nor the
difference of `checked_rem` fails. -/
theorem checkedDiv_exact (a b : U256) :
    (a.checkedDiv b = none ↔ b = zero) ∧ (a.checkedRem b = none ↔ b = zero)
    ∧ (∀ q, a.checkedDiv b = some q ↔ b ≠ zero ∧ q.toNat = a.toNat / b.toNat)
    ∧ (∀ r, a.checkedRem b = some r ↔ b ≠ zero ∧ r.toNat = a.toNat % b.toNat)
    ∧ (b ≠ zero → ¬ a < b →
      a.leadingZeros ≤ b.leadingZeros
      ∧ (b.shl (b.leadingZeros - a.leadingZeros)).toNat
        = b.toNat * 2 ^ (b.leadingZeros - a.leadingZeros)
      ∧ ∃ st, (divStart a b).loop (b.leadingZeros - a.leadingZeros + 1) = some st)
    ∧ ∀ q, a.checkedDiv b = some q → ∃ p r, q.checkedMul b = some p ∧ a.checkedSub p = some r := by
  have hzero : b = zero ↔ b.toNat = 0 := by rw [← toNat_inj, toNat_zero]
  by_cases h0 : b = zero
  · have hz : b.isZero = true := isZero_iff_eq.mpr h0
    have hdiv : a.checkedDiv b = none := by rw [checkedDiv, if_pos hz]
    have hrem : a.checkedRem b = none := by rw [checkedRem, if_pos hz]
    rw [hdiv, hrem]
    simp [h0]
  · have hne : b.toNat ≠ 0 := fun h => h0 (hzero.mpr h)
    obtain ⟨q, hdiv, hq⟩ := exists_checkedDiv (x := a) hne
    obtain ⟨p, r, hp, hsub, hr⟩ := exists_checkedRem hq
    have hrem : a.checkedRem b = some r := by
      rw [checkedRem, if_neg (fun h => h0 (isZero_iff_eq.mp h)), hdiv]
      simp only [Option.bind_eq_bind, Option.bind_some, hp, hsub]
    refine ⟨by simp [hdiv, h0], by simp [hrem, h0], fun q' => ?_, fun r' => ?_, fun _ hlt => ?_,
      fun q' hq' => ?_⟩
    · rw [hdiv, Option.some.injEq, ← toNat_inj, hq, eq_comm]
      exact (and_iff_right h0).symm
    · rw [hrem, Option.some.injEq, ← toNat_inj, hr, eq_comm]
      exact (and_iff_right h0).symm
    · have hle : b.toNat ≤ a.toNat := Nat.not_lt.mp fun h => hlt (lt_iff.mpr h)
      have hlz := leadingZeros_anti hle hne
      obtain ⟨st, hloop, -⟩ := loop_divStart hne hle
      exact ⟨hlz, toNat_shl_of_leadingZeros hne hlz, st, hloop⟩
    · rw [hdiv] at hq'
      cases hq'
      exact ⟨p, r, hp, hsub⟩

/-- A thousand by three, where the loop makes nine passes. -/
theorem checkedDiv_exact_thousand :
    (ofU64 1000).checkedDiv (ofU64 3) = some (ofU64 333)
    ∧ (ofU64 1000).checkedRem (ofU64 3) = some (ofU64 1)
    ∧ ∃ st, (divStart (ofU64 1000) (ofU64 3)).loop 9 = some st := by
  obtain ⟨-, -, hdiv, hrem, hloop, -⟩ := checkedDiv_exact (ofU64 1000) (ofU64 3)
  have hne : ofU64 3 ≠ zero := by decide
  have hshift : (ofU64 3).leadingZeros - (ofU64 1000).leadingZeros + 1 = 9 := by decide +kernel
  obtain ⟨-, -, hst⟩ := hloop hne (by decide)
  rw [hshift] at hst
  exact ⟨(hdiv _).mpr ⟨hne, by decide⟩, (hrem _).mpr ⟨hne, by decide⟩, hst⟩

/-! ### Powers -/

theorem toNat_shiftRight_one (exp : UInt32) : (exp >>> 1).toNat = exp.toNat / 2 := by
  rw [UInt32.toNat_shiftRight, Nat.shiftRight_eq_div_pow]
  rfl

theorem and_one_eq_one_iff (exp : UInt32) : exp &&& 1 = 1 ↔ exp.toNat % 2 = 1 := by
  rw [← UInt32.toNat_inj, UInt32.toNat_and]
  show exp.toNat &&& 1 = 1 ↔ _
  rw [Nat.and_one_is_mod]

theorem toNat_ne_zero_of_ne {exp : UInt32} (h : exp ≠ 0) : exp.toNat ≠ 0 :=
  fun h0 => h (UInt32.toNat_inj.mp h0)

/-- The loop of `checked_pow`. -/
def powLoop (base result : U256) (exp : UInt32) : Option U256 :=
  if exp = 0 then some result
  else
    match if exp &&& 1 = 1 then result.checkedMul base else some result with
    | none => none
    | some result =>
      match if exp >>> 1 > 0 then base.checkedMul base else some base with
      | none => none
      | some base => powLoop base result (exp >>> 1)
termination_by exp.toNat
decreasing_by
  have hne := toNat_ne_zero_of_ne ‹¬ exp = 0›
  rw [toNat_shiftRight_one]
  omega

/-- `checked_pow`. -/
def checkedPow (x : U256) (exp : UInt32) : Option U256 :=
  if exp = 0 then some one else powLoop x one exp

theorem mulBit_eq_some {base result z : U256} {exp : UInt32} :
    (if exp &&& 1 = 1 then result.checkedMul base else some result) = some z
      ↔ z.toNat = result.toNat * base.toNat ^ (exp.toNat % 2) := by
  split_ifs with hbit
  · rw [checkedMul_eq_some, (and_one_eq_one_iff exp).mp hbit, pow_one]
  · rw [and_one_eq_one_iff] at hbit
    have hzero : exp.toNat % 2 = 0 := by omega
    rw [Option.some.injEq, ← toNat_inj, hzero, pow_zero, mul_one, eq_comm]

theorem square_eq_some {base z : U256} {exp : UInt32}
    (h : (if exp >>> 1 > 0 then base.checkedMul base else some base) = some z) :
    z.toNat ^ (exp.toNat / 2) = (base.toNat * base.toNat) ^ (exp.toNat / 2)
      ∧ (base.toNat = 0 → z.toNat = 0) := by
  split_ifs at h with hpos
  · rw [checkedMul_eq_some] at h
    refine ⟨by rw [h], fun h0 => by rw [h, h0]⟩
  · cases h
    rw [gt_iff_lt, UInt32.lt_iff_toNat_lt, toNat_shiftRight_one, UInt32.toNat_zero] at hpos
    have hzero : exp.toNat / 2 = 0 := by omega
    exact ⟨by rw [hzero, pow_zero, pow_zero], id⟩

/-- A base that cannot be multiplied in: the factor does not fit, and is not of a zero base. -/
theorem mulBit_eq_none {base result : U256} {exp : UInt32}
    (h : (if exp &&& 1 = 1 then result.checkedMul base else some result) = none) :
    2 ^ 256 ≤ result.toNat * base.toNat ^ (exp.toNat % 2) ∧ base.toNat ≠ 0 := by
  have hbig : 2 ^ 256 ≤ result.toNat * base.toNat ^ (exp.toNat % 2) := by
    by_contra hlt
    obtain ⟨w, hw⟩ := exists_toNat_eq (Nat.not_le.mp hlt)
    rw [mulBit_eq_some.mpr hw] at h
    cases h
  refine ⟨hbig, fun hb => ?_⟩
  rw [hb] at hbig
  have hone : 0 ^ (exp.toNat % 2) ≤ 1 := zero_pow_le_one _
  have hle := Nat.mul_le_mul_left result.toNat hone
  have hlt := result.toNat_lt
  omega

/-- A base that cannot be squared: the power of the square does not fit, nor is the base zero. -/
theorem square_eq_none {base : U256} {exp : UInt32}
    (h : (if exp >>> 1 > 0 then base.checkedMul base else some base) = none) :
    2 ^ 256 ≤ (base.toNat * base.toNat) ^ (exp.toNat / 2) ∧ base.toNat ≠ 0 := by
  split_ifs at h with hpos
  rw [checkedMul_eq_none] at h
  rw [gt_iff_lt, UInt32.lt_iff_toNat_lt, toNat_shiftRight_one, UInt32.toNat_zero] at hpos
  refine ⟨h.trans (Nat.le_self_pow (by omega) _), fun hb => ?_⟩
  rw [hb] at h
  omega

/-- The power without the lowest bit of the exponent is a power of the square. -/
theorem mul_pow_eq_mul_square (r b e : ℕ) :
    r * b ^ e = r * b ^ (e % 2) * (b * b) ^ (e / 2) := by
  rw [← sq, ← pow_mul, mul_assoc, ← pow_add, Nat.mod_add_div]

/-- **The loop computes `result * base ^ exp`**, or stops when that does not fit: what overflows is
a factor of it, as long as the result so far is not zero. -/
theorem powLoop_eq_some : ∀ (n : ℕ) {base result z : U256} {exp : UInt32}, exp.toNat = n →
    (result.toNat = 0 → base.toNat = 0) →
    (powLoop base result exp = some z ↔ z.toNat = result.toNat * base.toNat ^ exp.toNat) := by
  intro n
  induction n using Nat.strong_induction_on with
  | _ n ih =>
    rintro base result z exp rfl hres
    rw [powLoop]
    by_cases h0 : exp = 0
    · rw [if_pos h0, h0, UInt32.toNat_zero, pow_zero, mul_one, Option.some.injEq, ← toNat_inj,
        eq_comm]
    rw [if_neg h0, mul_pow_eq_mul_square]
    have hexp := toNat_ne_zero_of_ne h0
    have hz := z.toNat_lt
    cases hmul : if exp &&& 1 = 1 then result.checkedMul base else some result with
    | none =>
      obtain ⟨hbig, hb⟩ := mulBit_eq_none hmul
      have hpos : 0 < (base.toNat * base.toNat) ^ (exp.toNat / 2) :=
        Nat.pow_pos (Nat.mul_pos (Nat.pos_of_ne_zero hb) (Nat.pos_of_ne_zero hb))
      have hle := Nat.le_mul_of_pos_right (result.toNat * base.toNat ^ (exp.toNat % 2)) hpos
      exact ⟨fun h => (by cases h), fun h => by omega⟩
    | some result' =>
      have hval := mulBit_eq_some.mp hmul
      simp only
      rw [← hval]
      cases hsq : if exp >>> 1 > 0 then base.checkedMul base else some base with
      | none =>
        obtain ⟨hbig, hb⟩ := square_eq_none hsq
        have hpos : 0 < result'.toNat := by
          rw [hval]
          exact Nat.mul_pos (Nat.pos_of_ne_zero fun h => hb (hres h))
            (Nat.pow_pos (Nat.pos_of_ne_zero hb))
        have hle := Nat.le_mul_of_pos_left ((base.toNat * base.toNat) ^ (exp.toNat / 2)) hpos
        exact ⟨fun h => (by cases h), fun h => by omega⟩
      | some base' =>
        obtain ⟨hpow', hzero⟩ := square_eq_some hsq
        have hhalf := toNat_shiftRight_one exp
        simp only
        rw [← hpow', ← hhalf]
        refine ih _ (by omega) rfl fun h => hzero ?_
        rw [hval] at h
        rcases Nat.mul_eq_zero.mp h with h | h
        · exact hres h
        · exact (Nat.pow_eq_zero.mp h).1

/-- **Powers are exact.**  The result is the power, and there is none exactly if the power does not
fit; in particular no square on the way overflows if it fits. -/
theorem checkedPow_exact (a : U256) (e : UInt32) :
    (∀ c, a.checkedPow e = some c ↔ c.toNat = a.toNat ^ e.toNat)
    ∧ (a.checkedPow e = none ↔ 2 ^ 256 ≤ a.toNat ^ e.toNat) := by
  have hsome : ∀ c, a.checkedPow e = some c ↔ c.toNat = a.toNat ^ e.toNat := by
    intro c
    rw [checkedPow]
    split_ifs with h0
    · rw [h0, UInt32.toNat_zero, pow_zero, Option.some.injEq, ← toNat_inj, toNat_one, eq_comm]
    · rw [powLoop_eq_some _ rfl (fun h => by cases h), toNat_one, one_mul]
  exact ⟨hsome, eq_none_iff hsome⟩

end U256

end Ivory
