import Ivory.Base.Codec
import Ivory.Base.Limbs

/-!
# `U256`

The 256-bit unsigned integers of `ivory-primitives`: four 64-bit limbs, the
least significant first.  The operations are the loops of the source; the
lemmas read them as arithmetic on natural numbers, and from here on a balance
is its `toNat`.

* `U256.lt_iff`: comparison is the numeric order.
* `U256.checkedAdd_eq_some`, `U256.checkedSub_eq_some`,
  `U256.checkedMul_eq_some`: the checked operations are exact.
-/

namespace Ivory

/-- `U256`: four limbs, `limbs[0]` least significant. -/
structure U256 where
  limbs : List UInt64
  size : limbs.length = 4
deriving DecidableEq

namespace U256

/-- The number the limbs spell. -/
def toNat (x : U256) : ℕ := Limbs.value x.limbs

theorem toNat_mk {l : List UInt64} (h : l.length = 4) : toNat ⟨l, h⟩ = Limbs.value l := rfl

theorem toNat_lt (x : U256) : x.toNat < 2 ^ 256 := by
  have h := Limbs.value_lt x.limbs
  rwa [x.size] at h

theorem toNat_inj {x y : U256} : x.toNat = y.toNat ↔ x = y := by
  constructor
  · intro h
    have hl := Limbs.value_inj x.limbs y.limbs (by rw [x.size, y.size]) h
    cases x
    cases y
    cases hl
    rfl
  · rintro rfl
    rfl

/-- `U256::ZERO`. -/
def zero : U256 := ⟨[0, 0, 0, 0], rfl⟩

/-- `U256::ONE`. -/
def one : U256 := ⟨[1, 0, 0, 0], rfl⟩

instance : Inhabited U256 := ⟨zero⟩

@[simp] theorem toNat_zero : zero.toNat = 0 := rfl

@[simp] theorem toNat_one : one.toNat = 1 := rfl

/-- `U256::from(v)`. -/
def ofU64 (v : UInt64) : U256 := ⟨[v, 0, 0, 0], rfl⟩

@[simp] theorem toNat_ofU64 (v : UInt64) : (ofU64 v).toNat = v.toNat := by
  simp [toNat, ofU64]

/-- `low_u64`. -/
def lowU64 (x : U256) : UInt64 := x.limbs.headD 0

/-- `is_zero`. -/
def isZero (x : U256) : Bool := x.limbs.all (· == 0)

theorem isZero_iff {x : U256} : x.isZero = true ↔ x.toNat = 0 := by
  have hall : ∀ l : List UInt64, l.all (· == 0) = true ↔ Limbs.value l = 0 := by
    intro l
    induction l with
    | nil => simp
    | cons a l ih =>
      have ha : a = 0 ↔ a.toNat = 0 := UInt64.toNat_inj.symm
      rw [List.all_cons, Bool.and_eq_true, ih, beq_iff_eq, ha, Limbs.value_cons]
      omega
  exact hall x.limbs

theorem isZero_iff_eq {x : U256} : x.isZero = true ↔ x = zero := by
  rw [isZero_iff, ← toNat_inj, toNat_zero]

/-! ### Comparison -/

/-- `Ord::cmp`: the most significant limb decides first. -/
def cmp (x y : U256) : Ordering := Limbs.cmpLoop x.limbs y.limbs

instance : LT U256 := ⟨fun x y => x.cmp y = .lt⟩

instance (x y : U256) : Decidable (x < y) := inferInstanceAs (Decidable (x.cmp y = .lt))

theorem cmp_eq (x y : U256) : x.cmp y = compare x.toNat y.toNat :=
  Limbs.cmpLoop_value x.limbs y.limbs (by rw [x.size, y.size])

/-- **Comparison is the numeric order.** -/
theorem lt_iff {x y : U256} : x < y ↔ x.toNat < y.toNat := by
  show x.cmp y = .lt ↔ _
  rw [cmp_eq, Nat.compare_eq_lt]

/-! ### Checked arithmetic -/

/-- `checked_add`. -/
def checkedAdd (x y : U256) : Option U256 :=
  let r := Limbs.addLoop x.limbs y.limbs 0
  if r.2 > 0 then none
  else if h : r.1.length = 4 then some ⟨r.1, h⟩ else none

/-- `checked_sub`. -/
def checkedSub (x y : U256) : Option U256 :=
  if x < y then none
  else
    let r := Limbs.subLoop x.limbs y.limbs 0
    if h : r.1.length = 4 then some ⟨r.1, h⟩ else none

/-- `bits`. -/
def bits (x : U256) : ℕ := Limbs.bits x.limbs

/-- `checked_mul`. -/
def checkedMul (x y : U256) : Option U256 :=
  if x.isZero || y.isZero then some zero
  else if x = one then some y
  else if y = one then some x
  else if x.bits + y.bits > 257 then none
  else match Limbs.mulLoop y.limbs 0 x.limbs [0, 0, 0, 0] with
    | none => none
    | some r => if h : r.length = 4 then some ⟨r, h⟩ else none

theorem length_addLoop (x y : U256) : (Limbs.addLoop x.limbs y.limbs 0).1.length = 4 := by
  rw [Limbs.addLoop_length _ _ _ (by rw [x.size, y.size]), x.size]

theorem length_subLoop (x y : U256) : (Limbs.subLoop x.limbs y.limbs 0).1.length = 4 := by
  rw [Limbs.subLoop_length _ _ _ (by rw [x.size, y.size]), x.size]

theorem value_addLoop (x y : U256) : Limbs.value (Limbs.addLoop x.limbs y.limbs 0).1
    + 2 ^ 256 * (Limbs.addLoop x.limbs y.limbs 0).2.toNat = x.toNat + y.toNat := by
  have h := Limbs.addLoop_value x.limbs y.limbs 0 (by rw [x.size, y.size]) (by decide)
  rwa [x.size, UInt64.toNat_zero, Nat.add_zero] at h

theorem value_subLoop (x y : U256) : Limbs.value (Limbs.subLoop x.limbs y.limbs 0).1 + y.toNat
    = x.toNat + 2 ^ 256 * (Limbs.subLoop x.limbs y.limbs 0).2.toNat := by
  have h := Limbs.subLoop_value x.limbs y.limbs 0 (by rw [x.size, y.size]) (by decide)
  rwa [x.size, UInt64.toNat_zero, Nat.add_zero] at h

/-- **Addition is exact**, and fails only when the sum does not fit. -/
theorem checkedAdd_eq_some {x y z : U256} :
    x.checkedAdd y = some z ↔ z.toNat = x.toNat + y.toNat := by
  have hlen := length_addLoop x y
  have hv := value_addLoop x y
  have hz := z.toNat_lt
  simp only [checkedAdd, hlen, dif_pos]
  by_cases hc : (Limbs.addLoop x.limbs y.limbs 0).2 > 0
  · rw [if_pos hc]
    have hpos : 0 < (Limbs.addLoop x.limbs y.limbs 0).2.toNat := UInt64.lt_iff_toNat_lt.mp hc
    constructor
    · intro h
      cases h
    · intro h
      omega
  · have h0 : (Limbs.addLoop x.limbs y.limbs 0).2.toNat = 0 := by
      rw [gt_iff_lt, UInt64.lt_iff_toNat_lt] at hc
      simpa using hc
    rw [if_neg hc, Option.some.injEq, ← toNat_inj, ← hv, h0, eq_comm]
    rfl

/-- **Subtraction is exact**, and fails only when it would go below zero. -/
theorem checkedSub_eq_some {x y z : U256} :
    x.checkedSub y = some z ↔ z.toNat + y.toNat = x.toNat := by
  have hlen := length_subLoop x y
  rw [checkedSub]
  by_cases hxy : x < y
  · rw [if_pos hxy]
    have hlt := lt_iff.mp hxy
    constructor
    · intro h
      cases h
    · intro h
      omega
  · rw [if_neg hxy]
    simp only [hlen, dif_pos, Option.some.injEq]
    have hge : y.toNat ≤ x.toNat := Nat.not_lt.mp (fun h => hxy (lt_iff.mpr h))
    have hv := value_subLoop x y
    have hr := toNat_lt ⟨(Limbs.subLoop x.limbs y.limbs 0).1, hlen⟩
    rw [← toNat_inj]
    rw [toNat_mk] at hr ⊢
    have hy := y.toNat_lt
    have hx := x.toNat_lt
    constructor
    · intro h
      omega
    · intro h
      omega

/-- **Multiplication is exact**, and fails only when the product does not fit. -/
theorem checkedMul_eq_some {x y z : U256} :
    x.checkedMul y = some z ↔ z.toNat = x.toNat * y.toNat := by
  have hz := z.toNat_lt
  rw [checkedMul]
  by_cases h0 : (x.isZero || y.isZero) = true
  · rw [if_pos h0, Option.some.injEq, ← toNat_inj, toNat_zero]
    rw [Bool.or_eq_true, isZero_iff, isZero_iff] at h0
    rcases h0 with h | h <;> simp [h, eq_comm]
  rw [if_neg h0]
  by_cases hx1 : x = one
  · rw [if_pos hx1, hx1, Option.some.injEq, ← toNat_inj, toNat_one, one_mul, eq_comm]
  rw [if_neg hx1]
  by_cases hy1 : y = one
  · rw [if_pos hy1, hy1, Option.some.injEq, ← toNat_inj, toNat_one, mul_one, eq_comm]
  rw [if_neg hy1]
  rw [Bool.or_eq_true, isZero_iff, isZero_iff, not_or] at h0
  by_cases hb : x.bits + y.bits > 257
  · -- more than 257 bits in the factors put at least 256 into the product
    rw [if_pos hb]
    have hp : 2 ^ 256 ≤ x.toNat * y.toNat := by
      have h₁ := Limbs.pow_bits_le_value h0.1
      have h₂ := Limbs.pow_bits_le_value h0.2
      calc 2 ^ 256 ≤ 2 ^ ((x.bits - 1) + (y.bits - 1)) :=
            Nat.pow_le_pow_right (by norm_num) (by omega)
        _ = 2 ^ (x.bits - 1) * 2 ^ (y.bits - 1) := pow_add _ _ _
        _ ≤ x.toNat * y.toNat := Nat.mul_le_mul h₁ h₂
    constructor
    · intro h
      cases h
    · intro h
      omega
  · rw [if_neg hb]
    have hm := Limbs.mulLoop_value y.limbs x.limbs [] [0, 0, 0, 0] (by rw [y.size]; rfl)
      (by rw [x.size, y.size]; rfl) (by simp) (by
        rw [y.size]
        simpa [bits] using Nat.not_lt.mp hb)
    rw [List.nil_append, List.length_nil, y.size] at hm
    change Limbs.IsExact 4 (x.toNat * y.toNat) _ at hm
    cases hr : Limbs.mulLoop y.limbs 0 x.limbs [0, 0, 0, 0] with
    | none =>
      rw [hr] at hm
      change 2 ^ 256 ≤ _ at hm
      constructor
      · intro h
        cases h
      · intro h
        omega
    | some r =>
      rw [hr] at hm
      obtain ⟨hlen, hval⟩ := hm
      simp only [hlen, dif_pos, Option.some.injEq]
      rw [← hval, ← toNat_inj, eq_comm]
      rfl

theorem exists_toNat_eq {n : ℕ} (h : n < 2 ^ 256) : ∃ x : U256, x.toNat = n := by
  have hlimb : ∀ m : ℕ, (UInt64.ofNat m).toNat = m % 2 ^ 64 := fun m => UInt64.toNat_ofNat
  refine ⟨⟨[UInt64.ofNat n, UInt64.ofNat (n / 2 ^ 64), UInt64.ofNat (n / 2 ^ 128),
    UInt64.ofNat (n / 2 ^ 192)], rfl⟩, ?_⟩
  rw [toNat_mk]
  simp only [Limbs.value, hlimb]
  omega

/-- An operation that gives a number wherever it fits fails exactly when it does not. -/
theorem eq_none_iff {r : Option U256} {n : ℕ} (h : ∀ z, r = some z ↔ z.toNat = n) :
    r = none ↔ 2 ^ 256 ≤ n := by
  constructor
  · intro hr
    by_contra hlt
    obtain ⟨z, hz⟩ := exists_toNat_eq (Nat.not_le.mp hlt)
    rw [(h z).mpr hz] at hr
    cases hr
  · intro hn
    cases hr : r with
    | none => rfl
    | some z =>
      have hz := z.toNat_lt
      rw [(h z).mp hr] at hz
      omega

theorem checkedAdd_eq_none {x y : U256} :
    x.checkedAdd y = none ↔ 2 ^ 256 ≤ x.toNat + y.toNat :=
  eq_none_iff fun _ => checkedAdd_eq_some

theorem checkedMul_eq_none {x y : U256} :
    x.checkedMul y = none ↔ 2 ^ 256 ≤ x.toNat * y.toNat :=
  eq_none_iff fun _ => checkedMul_eq_some

end U256

end Ivory
