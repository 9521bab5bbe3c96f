import Mathlib.Data.Nat.Size
import Ivory.Primitives.Arithmetic
import Ivory.Primitives.HexText

/-!
# `U256` as a number

The operations of `U256` that only move limbs around: wrapping and saturating
arithmetic, next to the comparison, the checked operations, the shifts, the bit
length and the two byte orders.  The loops of `wrapping_add` and `wrapping_sub`
are those of the checked operations; the carry that is left says what wraps.

* `U256.toNat_wrappingAdd`, `U256.toNat_wrappingSub`: arithmetic modulo `2 ^ 256`.
* `U256.bits_eq_size`: the highest limb that is not zero gives the bit length.
* `U256.toNat_exact`: **each operation is the one of the same name on numbers below
  `2 ^ 256`.**
-/

namespace Ivory

namespace U256

/-! ### Wrapping arithmetic -/

/-- `wrapping_add`. -/
def wrappingAdd (x y : U256) : U256 :=
  ⟨(Limbs.addLoop x.limbs y.limbs 0).1, length_addLoop x y⟩

/-- `wrapping_sub`. -/
def wrappingSub (x y : U256) : U256 :=
  ⟨(Limbs.subLoop x.limbs y.limbs 0).1, length_subLoop x y⟩

theorem toNat_wrappingAdd (x y : U256) :
    (x.wrappingAdd y).toNat = (x.toNat + y.toNat) % 2 ^ 256 := by
  have hv := value_addLoop x y
  change (x.wrappingAdd y).toNat + 2 ^ 256 * _ = x.toNat + y.toNat at hv
  rw [← hv, Nat.add_mul_mod_self_left, Nat.mod_eq_of_lt (toNat_lt _)]

theorem toNat_wrappingSub (x y : U256) :
    ((x.wrappingSub y).toNat : ℤ) = ((x.toNat : ℤ) - y.toNat) % 2 ^ 256 := by
  have hv := value_subLoop x y
  change (x.wrappingSub y).toNat + y.toNat = x.toNat + 2 ^ 256 * _ at hv
  have hlt := (x.wrappingSub y).toNat_lt
  omega

/-! ### Saturating arithmetic -/

/-- `U256::MAX`. -/
def maxValue : U256 :=
  ⟨[UInt64.maxValue, UInt64.maxValue, UInt64.maxValue, UInt64.maxValue], rfl⟩

theorem toNat_maxValue : maxValue.toNat = 2 ^ 256 - 1 := by decide

/-- `saturating_add`. -/
def saturatingAdd (x y : U256) : U256 := (x.checkedAdd y).getD maxValue

/-- `saturating_sub`. -/
def saturatingSub (x y : U256) : U256 := (x.checkedSub y).getD zero

/-- `saturating_mul`. -/
def saturatingMul (x y : U256) : U256 := (x.checkedMul y).getD maxValue

theorem checkedSub_eq_none {x y : U256} : x.checkedSub y = none ↔ x.toNat < y.toNat := by
  constructor
  · intro h
    by_contra hle
    obtain ⟨z, hz⟩ := exists_toNat_eq (lt_of_le_of_lt (Nat.sub_le x.toNat y.toNat) x.toNat_lt)
    rw [checkedSub_eq_some.mpr (by omega : z.toNat + y.toNat = x.toNat)] at h
    cases h
  · intro hlt
    rw [checkedSub, if_pos (lt_iff.mpr hlt)]

theorem toNat_getD_maxValue {r : Option U256} {n : ℕ} (h : ∀ z, r = some z ↔ z.toNat = n) :
    (r.getD maxValue).toNat = min n (2 ^ 256 - 1) := by
  cases hr : r with
  | none =>
    have hn := (eq_none_iff h).mp hr
    rw [Option.getD_none, toNat_maxValue]
    omega
  | some z =>
    have hz := z.toNat_lt
    rw [Option.getD_some, ← (h z).mp hr]
    omega

theorem toNat_saturatingAdd (x y : U256) :
    (x.saturatingAdd y).toNat = min (x.toNat + y.toNat) (2 ^ 256 - 1) :=
  toNat_getD_maxValue fun _ => checkedAdd_eq_some

theorem toNat_saturatingMul (x y : U256) :
    (x.saturatingMul y).toNat = min (x.toNat * y.toNat) (2 ^ 256 - 1) :=
  toNat_getD_maxValue fun _ => checkedMul_eq_some

theorem toNat_saturatingSub (x y : U256) :
    (x.saturatingSub y).toNat = x.toNat - y.toNat := by
  rw [saturatingSub]
  cases hr : x.checkedSub y with
  | none =>
    have hlt := checkedSub_eq_none.mp hr
    rw [Option.getD_none, toNat_zero]
    omega
  | some z =>
    have hz := checkedSub_eq_some.mp hr
    rw [Option.getD_some]
    omega

/-! ### Bits and shifts -/

/-- **`bits` is the bit length.** -/
theorem bits_eq_size (x : U256) : x.bits = Nat.size x.toNat := by
  refine le_antisymm ?_ (Nat.size_le.mpr x.toNat_lt_pow_bits)
  by_cases h0 : x.toNat = 0
  · rw [isZero_iff_eq.mp (isZero_iff.mpr h0)]
    decide
  · have hlt : x.bits - 1 < Nat.size x.toNat := Nat.lt_size.mpr (pow_bits_le_toNat h0)
    omega

theorem shl_add_256 (x : U256) (s : ℕ) : x.shl (256 + s) = zero :=
  if_pos (Nat.le_add_right 256 s)

theorem shr_add_256 (x : U256) (s : ℕ) : x.shr (256 + s) = zero :=
  if_pos (Nat.le_add_right 256 s)

/-! ### Bytes -/

theorem toNat_fromLeBytes (bytes : Arr UInt8 32) :
    (fromLeBytes bytes).toNat = Nat.ofDigits 256 (bytes.toList.map UInt8.toNat) := by
  rw [toNat_fromLeBytes_eq, ofDigits_toNat]

theorem ofDigits_toLeBytes (x : U256) :
    Nat.ofDigits 256 (x.toLeBytes.toList.map UInt8.toNat) = x.toNat := by
  rw [← toNat_fromLeBytes, fromLeBytes_toLeBytes]

theorem ofDigits_toBeBytes (x : U256) :
    Nat.ofDigits 256 (x.toBeBytes.toList.map UInt8.toNat).reverse = x.toNat := by
  rw [← toNat_fromBeBytes, fromBeBytes_toBeBytes]

/-! ### All operations -/

/-- **Arithmetic on limbs is arithmetic on numbers.**  A word is a number below `2 ^ 256`, and every
such number is one word.  Comparison is that of the numbers; checked operations give the number or
nothing exactly if there is none; wrapping ones compute modulo `2 ^ 256`, saturating ones stop at
the ends of the range; shifts multiply and divide by powers of two; `bits` is the bit length; and
both byte orders write and read the digits of the number to base 256. -/
theorem toNat_exact (a b : U256) (s : ℕ) (bytes : Arr UInt8 32) :
    -- the reading
    (a.toNat < 2 ^ 256 ∧ (a.toNat = b.toNat ↔ a = b) ∧ ∀ n : Fin (2 ^ 256), ∃ x : U256, x.toNat = n)
    ∧ a.cmp b = compare a.toNat b.toNat
    -- checked
    ∧ ((∀ c, a.checkedAdd b = some c ↔ c.toNat = a.toNat + b.toNat)
      ∧ (a.checkedAdd b = none ↔ 2 ^ 256 ≤ a.toNat + b.toNat))
    ∧ ((∀ c, a.checkedSub b = some c ↔ c.toNat + b.toNat = a.toNat)
      ∧ (a.checkedSub b = none ↔ a.toNat < b.toNat))
    -- wrapping
    ∧ (a.wrappingAdd b).toNat = (a.toNat + b.toNat) % 2 ^ 256
    ∧ ((a.wrappingSub b).toNat : ℤ) = ((a.toNat : ℤ) - b.toNat) % 2 ^ 256
    -- saturating
    ∧ (a.saturatingAdd b).toNat = min (a.toNat + b.toNat) (2 ^ 256 - 1)
    ∧ (a.saturatingSub b).toNat = a.toNat - b.toNat
    ∧ (a.saturatingMul b).toNat = min (a.toNat * b.toNat) (2 ^ 256 - 1)
    -- shifts and bits
    ∧ ((a.shl s).toNat = a.toNat * 2 ^ s % 2 ^ 256 ∧ a.shl (256 + s) = zero)
    ∧ ((a.shr s).toNat = a.toNat / 2 ^ s ∧ a.shr (256 + s) = zero)
    ∧ (a.bits = Nat.size a.toNat ∧ a.bits + a.leadingZeros = 256)
    -- big-endian bytes
    ∧ (fromBeBytes a.toBeBytes = a ∧ (fromBeBytes bytes).toBeBytes = bytes
      ∧ (fromBeBytes bytes).toNat = Nat.ofDigits 256 (bytes.toList.map UInt8.toNat).reverse
      ∧ Nat.ofDigits 256 (a.toBeBytes.toList.map UInt8.toNat).reverse = a.toNat)
    -- little-endian bytes
    ∧ (fromLeBytes a.toLeBytes = a ∧ (fromLeBytes bytes).toLeBytes = bytes
      ∧ (fromLeBytes bytes).toNat = Nat.ofDigits 256 (bytes.toList.map UInt8.toNat)
      ∧ Nat.ofDigits 256 (a.toLeBytes.toList.map UInt8.toNat) = a.toNat) := by
  refine ⟨⟨a.toNat_lt, toNat_inj, fun n => exists_toNat_eq n.isLt⟩, cmp_eq a b,
    ⟨fun _ => checkedAdd_eq_some, checkedAdd_eq_none⟩,
    ⟨fun _ => checkedSub_eq_some, checkedSub_eq_none⟩, toNat_wrappingAdd a b,
    toNat_wrappingSub a b, toNat_saturatingAdd a b, toNat_saturatingSub a b,
    toNat_saturatingMul a b, ⟨toNat_shl a s, shl_add_256 a s⟩, ⟨toNat_shr a s, shr_add_256 a s⟩,
    ⟨bits_eq_size a, ?_⟩, ?_, ?_⟩
  · have hle := a.leadingZeros_le
    rw [bits_eq]
    omega
  · exact ⟨fromBeBytes_toBeBytes a, toBeBytes_fromBeBytes bytes, toNat_fromBeBytes bytes,
      ofDigits_toBeBytes a⟩
  · exact ⟨fromLeBytes_toLeBytes a, toLeBytes_fromLeBytes bytes, toNat_fromLeBytes bytes,
      ofDigits_toLeBytes a⟩

end U256

end Ivory
