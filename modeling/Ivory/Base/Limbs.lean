import Ivory.Base.Word

/-!
# Numbers as lists of 64-bit limbs

`value` reads a list of words as a number, the first word least significant.
The loops are those of a schoolbook implementation: `addLoop` and `subLoop`
carry a bit from one limb to the next, `cmpLoop` compares from the most
significant limb down, `mulLoop` adds one shifted row for each limb of the
left factor.  Each comes with the identity on naturals that it computes.

A row of `mulLoop` that reaches the end of the result stops there and looks at
one more limb only.  `mulRow_value` asks that the right factor have nothing
above it; `mulLoop_value` gets this from a bound on the two bit lengths, which
is what the caller checks first.

`mulLoopWide_eq` says that the 128-bit words in which a row is computed are
wide enough.
-/

namespace Limbs

/-- The number a list of limbs spells. -/
def value : List UInt64 → ℕ
  | [] => 0
  | a :: as => a.toNat + 2 ^ 64 * value as

@[simp] theorem value_nil : value [] = 0 := rfl

@[simp] theorem value_cons (a : UInt64) (as : List UInt64) :
    value (a :: as) = a.toNat + 2 ^ 64 * value as := rfl

theorem value_lt : ∀ as : List UInt64, value as < 2 ^ (64 * as.length) := by
  intro as
  induction as with
  | nil => simp
  | cons a as ih =>
    have ha := a.toNat_lt
    rw [value_cons, List.length_cons, show 64 * (as.length + 1) = 64 * as.length + 64 by ring,
      pow_add]
    have : 2 ^ 64 * (value as + 1) ≤ 2 ^ 64 * 2 ^ (64 * as.length) := Nat.mul_le_mul_left _ ih
    rw [mul_comm (2 ^ (64 * as.length))]
    omega

theorem value_append : ∀ as bs : List UInt64,
    value (as ++ bs) = value as + 2 ^ (64 * as.length) * value bs := by
  intro as bs
  induction as with
  | nil => simp
  | cons a as ih =>
    rw [List.cons_append, value_cons, ih, value_cons, List.length_cons,
      show 64 * (as.length + 1) = 64 + 64 * as.length by ring, pow_add]
    ring

theorem value_inj : ∀ as bs : List UInt64, as.length = bs.length → value as = value bs →
    as = bs := by
  intro as
  induction as with
  | nil =>
    intro bs hl _
    exact (List.length_eq_zero_iff.mp hl.symm).symm
  | cons a as ih =>
    intro bs hl hv
    cases bs with
    | nil => simp at hl
    | cons b bs =>
      have ha := a.toNat_lt
      have hb := b.toNat_lt
      simp only [value_cons] at hv
      have h₁ : a.toNat = b.toNat := by omega
      have h₂ : value as = value bs := by omega
      rw [UInt64.toNat_inj.mp h₁, ih bs (by simpa using hl) h₂]

/-! ### Addition and subtraction -/

/-- Limbwise addition with a carry. -/
def addLoop : List UInt64 → List UInt64 → UInt64 → List UInt64 × UInt64
  | a :: as, b :: bs, carry =>
    let s₁ := a.overflowingAdd b
    let s₂ := s₁.1.overflowingAdd carry
    let r := addLoop as bs (UInt64.ofBool s₁.2 + UInt64.ofBool s₂.2)
    (s₂.1 :: r.1, r.2)
  | _, _, carry => ([], carry)

/-- Limbwise subtraction with a borrow. -/
def subLoop : List UInt64 → List UInt64 → UInt64 → List UInt64 × UInt64
  | a :: as, b :: bs, borrow =>
    let d₁ := a.overflowingSub b
    let d₂ := d₁.1.overflowingSub borrow
    let r := subLoop as bs (UInt64.ofBool d₁.2 + UInt64.ofBool d₂.2)
    (d₂.1 :: r.1, r.2)
  | _, _, borrow => ([], borrow)

theorem toNat_ofBool_add {b c : Bool} : (UInt64.ofBool b + UInt64.ofBool c).toNat
    = b.toNat + c.toNat := by
  cases b <;> cases c <;> decide

theorem addLoop_length : ∀ (as bs : List UInt64) (carry : UInt64), as.length = bs.length →
    (addLoop as bs carry).1.length = as.length := by
  intro as
  induction as with
  | nil => intro bs carry _; rfl
  | cons a as ih =>
    intro bs carry h
    cases bs with
    | nil => simp at h
    | cons b bs => simp [addLoop, ih bs _ (by simpa using h)]

theorem subLoop_length : ∀ (as bs : List UInt64) (borrow : UInt64), as.length = bs.length →
    (subLoop as bs borrow).1.length = as.length := by
  intro as
  induction as with
  | nil => intro bs borrow _; rfl
  | cons a as ih =>
    intro bs borrow h
    cases bs with
    | nil => simp at h
    | cons b bs => simp [subLoop, ih bs _ (by simpa using h)]

/-- **The addition loop loses nothing**: its limbs and its carry add up. -/
theorem addLoop_value : ∀ (as bs : List UInt64) (carry : UInt64), as.length = bs.length →
    carry.toNat ≤ 1 →
    value (addLoop as bs carry).1 + 2 ^ (64 * as.length) * (addLoop as bs carry).2.toNat
      = value as + value bs + carry.toNat := by
  intro as
  induction as with
  | nil =>
    intro bs carry hl _
    rw [List.length_eq_zero_iff.mp hl.symm]
    simp [addLoop]
  | cons a as ih =>
    intro bs carry hl hc
    cases bs with
    | nil => simp at hl
    | cons b bs =>
      have hs₁ := UInt64.overflowingAdd_value a b
      have hs₂ := UInt64.overflowingAdd_value (a.overflowingAdd b).1 carry
      have hcc := @toNat_ofBool_add (a.overflowingAdd b).2
        ((a.overflowingAdd b).1.overflowingAdd carry).2
      have ha := a.toNat_lt
      have hb := b.toNat_lt
      have hb₁ := Bool.toNat_le (a.overflowingAdd b).2
      have hb₂ := Bool.toNat_le ((a.overflowingAdd b).1.overflowingAdd carry).2
      -- both additions cannot wrap: the first leaves at most `2 ^ 64 - 2`
      have hle : (UInt64.ofBool (a.overflowingAdd b).2
          + UInt64.ofBool ((a.overflowingAdd b).1.overflowingAdd carry).2).toNat ≤ 1 := by
        have := (a.overflowingAdd b).1.toNat_lt
        omega
      have hr := ih bs _ (by simpa using hl) hle
      rw [hcc] at hr
      simp only [addLoop, value_cons, List.length_cons]
      rw [show 64 * (as.length + 1) = 64 + 64 * as.length by ring, pow_add, mul_assoc]
      generalize 2 ^ (64 * as.length) * _ = t at hr ⊢
      omega

/-- **The subtraction loop loses nothing**: what it borrows is what is missing. -/
theorem subLoop_value : ∀ (as bs : List UInt64) (borrow : UInt64), as.length = bs.length →
    borrow.toNat ≤ 1 →
    value (subLoop as bs borrow).1 + value bs + borrow.toNat
      = value as + 2 ^ (64 * as.length) * (subLoop as bs borrow).2.toNat := by
  intro as
  induction as with
  | nil =>
    intro bs borrow hl _
    rw [List.length_eq_zero_iff.mp hl.symm]
    simp [subLoop]
  | cons a as ih =>
    intro bs borrow hl hc
    cases bs with
    | nil => simp at hl
    | cons b bs =>
      have hd₁ := UInt64.overflowingSub_value a b
      have hd₂ := UInt64.overflowingSub_value (a.overflowingSub b).1 borrow
      have hcc := @toNat_ofBool_add (a.overflowingSub b).2
        ((a.overflowingSub b).1.overflowingSub borrow).2
      have ha := a.toNat_lt
      have hb := b.toNat_lt
      have hb₁ := Bool.toNat_le (a.overflowingSub b).2
      have hb₂ := Bool.toNat_le ((a.overflowingSub b).1.overflowingSub borrow).2
      -- both subtractions cannot wrap: after the first one wraps at least `1` is left
      have hle : (UInt64.ofBool (a.overflowingSub b).2
          + UInt64.ofBool ((a.overflowingSub b).1.overflowingSub borrow).2).toNat ≤ 1 := by
        have := ((a.overflowingSub b).1.overflowingSub borrow).1.toNat_lt
        omega
      have hr := ih bs _ (by simpa using hl) hle
      rw [hcc] at hr
      simp only [subLoop, value_cons, List.length_cons]
      rw [show 64 * (as.length + 1) = 64 + 64 * as.length by ring, pow_add, mul_assoc]
      generalize 2 ^ (64 * as.length) * _ = t at hr ⊢
      omega

/-! ### Comparison -/

/-- Comparison from the most significant limb down. -/
def cmpLoop : List UInt64 → List UInt64 → Ordering
  | a :: as, b :: bs => (cmpLoop as bs).then (compare a b)
  | _, _ => .eq

theorem compare_toNat (a b : UInt64) : compare a b = compare a.toNat b.toNat := by
  simp only [compare, compareOfLessAndEq, UInt64.lt_iff_toNat_lt, ← UInt64.toNat_inj]

theorem cmpLoop_value : ∀ as bs : List UInt64, as.length = bs.length →
    cmpLoop as bs = compare (value as) (value bs) := by
  intro as
  induction as with
  | nil =>
    intro bs h
    rw [List.length_eq_zero_iff.mp h.symm]
    rfl
  | cons a as ih =>
    intro bs h
    cases bs with
    | nil => simp at h
    | cons b bs =>
      have ha := a.toNat_lt
      have hb := b.toNat_lt
      rw [cmpLoop, ih bs (by simpa using h), value_cons, value_cons, compare_toNat]
      rcases Nat.lt_trichotomy (value as) (value bs) with hlt | heq | hgt
      · rw [Nat.compare_eq_lt.mpr hlt]
        exact (Nat.compare_eq_lt.mpr (by omega)).symm
      · rw [heq, Nat.compare_eq_eq.mpr rfl, Ordering.eq_then]
        symm
        rcases Nat.lt_trichotomy a.toNat b.toNat with h₁ | h₁ | h₁
        · rw [Nat.compare_eq_lt.mpr h₁]
          exact Nat.compare_eq_lt.mpr (by omega)
        · simp [h₁]
        · rw [Nat.compare_eq_gt.mpr h₁]
          exact Nat.compare_eq_gt.mpr (by omega)
      · rw [Nat.compare_eq_gt.mpr hgt]
        exact (Nat.compare_eq_gt.mpr (by omega)).symm

/-! ### Bit length -/

/-- Leading zero bits of limbs listed most significant first. -/
def leadingZeros : List UInt64 → ℕ
  | [] => 0
  | a :: as => if a = 0 then 64 + leadingZeros as else a.leadingZeros

/-- The number of bits up to the leading one. -/
def bits (as : List UInt64) : ℕ := 64 * as.length - leadingZeros as.reverse

theorem bits_append_zero (as : List UInt64) : bits (as ++ [0]) = bits as := by
  simp only [bits, List.length_append, List.length_singleton, List.reverse_append,
    List.reverse_singleton, List.singleton_append, leadingZeros, if_true]
  omega

theorem bits_append_ne_zero (as : List UInt64) {a : UInt64} (h : a ≠ 0) :
    bits (as ++ [a]) = 64 * as.length + (64 - a.leadingZeros) := by
  have := (UInt64.leadingZeros_spec h).1
  simp only [bits, List.length_append, List.length_singleton, List.reverse_append,
    List.reverse_singleton, List.singleton_append, leadingZeros, if_neg h]
  omega

theorem value_append_singleton (as : List UInt64) (a : UInt64) :
    value (as ++ [a]) = value as + 2 ^ (64 * as.length) * a.toNat := by
  simp [value_append]

theorem value_lt_pow_bits (as : List UInt64) : value as < 2 ^ bits as := by
  induction as using List.reverseRecOn with
  | nil => simp
  | append_singleton as a ih =>
    rw [value_append_singleton]
    by_cases h : a = 0
    · subst h
      rw [bits_append_zero]
      simpa using ih
    · have ha := (UInt64.leadingZeros_spec h).2.2
      have hv := value_lt as
      rw [bits_append_ne_zero as h, pow_add]
      calc value as + 2 ^ (64 * as.length) * a.toNat
          < 2 ^ (64 * as.length) * (a.toNat + 1) := by rw [mul_add, mul_one]; omega
        _ ≤ _ := Nat.mul_le_mul_left _ ha

theorem pow_bits_le_value {as : List UInt64} (h : value as ≠ 0) :
    2 ^ (bits as - 1) ≤ value as := by
  induction as using List.reverseRecOn with
  | nil => simp at h
  | append_singleton as a ih =>
    rw [value_append_singleton] at h ⊢
    by_cases ha : a = 0
    · subst ha
      rw [bits_append_zero]
      simpa using ih (by simpa using h)
    · obtain ⟨h63, hle, _⟩ := UInt64.leadingZeros_spec ha
      rw [bits_append_ne_zero as ha,
        show 64 * as.length + (64 - a.leadingZeros) - 1
          = 64 * as.length + (63 - a.leadingZeros) by omega, pow_add]
      exact (Nat.mul_le_mul_left _ hle).trans (Nat.le_add_left _ _)

/-! ### Multiplication -/

/-- One row: `a` times the right factor, added into the rest of the result.
When the result ends first, one more product is inspected and the row stops. -/
def mulRow (a : UInt64) : List UInt64 → List UInt64 → ℕ → Option (List UInt64 × ℕ)
  | [], acc, carry => some (acc, carry)
  | b :: _, [], carry => if a.toNat * b.toNat + carry > 0 then none else some ([], carry)
  | b :: bs, r :: acc, carry =>
    let product := a.toNat * b.toNat + r.toNat + carry
    match mulRow a bs acc (product / 2 ^ 64) with
    | none => none
    | some (acc', carry') => some (UInt64.ofNat (product % 2 ^ 64) :: acc', carry')

/-- The rows of a product, `i` counting the limbs of the left factor already used. -/
def mulLoop (bs : List UInt64) : ℕ → List UInt64 → List UInt64 → Option (List UInt64)
  | _, [], result => some result
  | i, a :: as, result =>
    if a = 0 then mulLoop bs (i + 1) as result
    else match mulRow a bs (result.drop i) 0 with
      | none => none
      | some (row, carry) =>
        if carry > 0 ∧ i + bs.length ≤ bs.length then none
        else mulLoop bs (i + 1) as (result.take i ++ row)

/-- A row is exact as long as the right factor has nothing above the result:
it returns the sum and the carry out of it, or stops on a carry it cannot place. -/
theorem mulRow_value (a : UInt64) : ∀ (bs acc : List UInt64) (carry : ℕ),
    acc.length ≤ bs.length → value bs < 2 ^ (64 * acc.length) →
    match mulRow a bs acc carry with
    | some (row, carry') => row.length = acc.length
        ∧ value row + 2 ^ (64 * acc.length) * carry' = a.toNat * value bs + value acc + carry
        ∧ (acc.length < bs.length → carry' = 0)
    | none => 2 ^ (64 * acc.length) ≤ a.toNat * value bs + value acc + carry := by
  intro bs
  induction bs with
  | nil =>
    intro acc carry hl _
    rw [List.length_eq_zero_iff.mp (Nat.le_zero.mp hl)]
    simp [mulRow]
  | cons b bs ih =>
    intro acc carry hl hv
    cases acc with
    | nil =>
      have hb : value (b :: bs) = 0 := by simpa using hv
      have hb0 : b.toNat = 0 := by rw [value_cons] at hb; omega
      by_cases hc : carry = 0
      · simp [mulRow, hb0, hc, hb]
      · simp only [mulRow, hb0, Nat.mul_zero, Nat.zero_add, gt_iff_lt, Nat.pos_of_ne_zero hc,
          if_true, List.length_nil, pow_zero, value_nil, Nat.add_zero]
        omega
    | cons r acc =>
      rw [List.length_cons, List.length_cons] at hl
      have hl' : acc.length ≤ bs.length := by omega
      have hpow : 2 ^ (64 * (acc.length + 1)) = 2 ^ 64 * 2 ^ (64 * acc.length) := by
        rw [← pow_add]; ring_nf
      have hv' : value bs < 2 ^ (64 * acc.length) := by
        rw [value_cons, List.length_cons, hpow] at hv
        have := Nat.lt_of_le_of_lt (Nat.le_add_left _ _) hv
        exact Nat.lt_of_mul_lt_mul_left this
      have hr := ih acc ((a.toNat * b.toNat + r.toNat + carry) / 2 ^ 64) hl' hv'
      have hd := Nat.div_add_mod (a.toNat * b.toNat + r.toNat + carry) (2 ^ 64)
      have hm : (UInt64.ofNat ((a.toNat * b.toNat + r.toNat + carry) % 2 ^ 64)).toNat
          = (a.toNat * b.toNat + r.toNat + carry) % 2 ^ 64 :=
        UInt64.toNat_ofNat_of_le (by omega)
      have hsum : a.toNat * value (b :: bs) + value (r :: acc) + carry
          = a.toNat * b.toNat + r.toNat + carry + 2 ^ 64 * (a.toNat * value bs + value acc) := by
        simp only [value_cons]; ring
      rw [hsum, List.length_cons, hpow]
      simp only [mulRow]
      cases hrow : mulRow a bs acc ((a.toNat * b.toNat + r.toNat + carry) / 2 ^ 64) with
      | none =>
        rw [hrow] at hr
        simp only at hr ⊢
        have := Nat.mul_le_mul_left (2 ^ 64) hr
        rw [mul_add] at this
        omega
      | some p =>
        obtain ⟨row, carry'⟩ := p
        rw [hrow] at hr
        obtain ⟨h₁, h₂, h₃⟩ := hr
        refine ⟨by simp [h₁], ?_, fun h => h₃ (by simpa using h)⟩
        rw [value_cons, hm, mul_assoc, add_assoc, ← mul_add, h₂, mul_add]
        omega

/-- A nonzero limb at position `i` leaves the right factor below `2 ^ (64 * (n - i))`. -/
theorem value_lt_of_bits_le {done as bs : List UInt64} {a : UInt64} (ha : a ≠ 0)
    (hb : bits (done ++ a :: as) + bits bs ≤ 64 * bs.length + 1) :
    value bs < 2 ^ (64 * (bs.length - done.length)) := by
  have hge : 2 ^ (64 * done.length) ≤ value (done ++ a :: as) := by
    have h1 : 1 ≤ value (a :: as) := by
      have := UInt64.toNat_ne_zero ha
      rw [value_cons]
      omega
    rw [value_append]
    exact (Nat.le_mul_of_pos_right _ h1).trans (Nat.le_add_left _ _)
  have hbits : 64 * done.length < bits (done ++ a :: as) :=
    (Nat.pow_lt_pow_iff_right (by norm_num)).mp (hge.trans_lt (value_lt_pow_bits _))
  exact (value_lt_pow_bits bs).trans_le (Nat.pow_le_pow_right (by norm_num) (by omega))

theorem value_take_append {result row : List UInt64} {i : ℕ} (hi : i ≤ result.length) :
    value (result.take i ++ row) + 2 ^ (64 * i) * value (result.drop i)
      = value result + 2 ^ (64 * i) * value row := by
  have hl : (result.take i).length = i := List.length_take_of_le hi
  have h := value_append (result.take i) (result.drop i)
  rw [List.take_append_drop, hl] at h
  rw [value_append, hl, h]
  ring

/-- A row too large for the space above position `i` makes the whole product too large. -/
theorem le_value_mul_of_row {done as bs result : List UInt64} {a : UInt64}
    (hle : done.length ≤ bs.length) (hr : result.length = bs.length)
    (hv : value result = value done * value bs)
    (h : 2 ^ (64 * (bs.length - done.length))
      ≤ a.toNat * value bs + value (result.drop done.length)) :
    2 ^ (64 * bs.length) ≤ value (done ++ a :: as) * value bs := by
  have htake := @value_take_append result [] done.length (hr ▸ hle)
  rw [List.append_nil, value_nil, Nat.mul_zero, Nat.add_zero, hv] at htake
  calc 2 ^ (64 * bs.length)
      = 2 ^ (64 * done.length) * 2 ^ (64 * (bs.length - done.length)) := by
        rw [← pow_add, ← mul_add, Nat.add_sub_cancel' hle]
    _ ≤ 2 ^ (64 * done.length) * (a.toNat * value bs + value (result.drop done.length)) :=
        Nat.mul_le_mul_left _ h
    _ ≤ value done * value bs + 2 ^ (64 * done.length) * a.toNat * value bs := by
        rw [mul_add, ← htake, mul_assoc]
        omega
    _ ≤ value (done ++ a :: as) * value bs := by
        rw [← add_mul, value_append, value_cons]
        exact Nat.mul_le_mul_right _
          (Nat.add_le_add_left (Nat.mul_le_mul_left _ (Nat.le_add_right _ _)) _)

/-- What an `n`-limb product should return: the number, or nothing when it does not fit. -/
def IsExact (n p : ℕ) : Option (List UInt64) → Prop
  | some r => r.length = n ∧ value r = p
  | none => 2 ^ (64 * n) ≤ p

/-- **The product loop is exact**: when the bit lengths allow the product at
most one bit too many, the loop returns it or reports that it does not fit. -/
theorem mulLoop_value (bs : List UInt64) : ∀ (as done result : List UInt64),
    result.length = bs.length → done.length + as.length = bs.length →
    value result = value done * value bs →
    bits (done ++ as) + bits bs ≤ 64 * bs.length + 1 →
    IsExact bs.length (value (done ++ as) * value bs) (mulLoop bs done.length as result) := by
  intro as
  induction as with
  | nil =>
    intro done result hr _ hv _
    simpa [mulLoop, IsExact] using ⟨hr, hv⟩
  | cons a as ih =>
    intro done result hr hl hv hb
    have hsplit : done ++ a :: as = (done ++ [a]) ++ as := by simp
    have hlen : (done ++ [a]).length = done.length + 1 := by simp
    rw [List.length_cons] at hl
    have hstep : ∀ result' : List UInt64, result'.length = bs.length →
        value result' = value (done ++ [a]) * value bs →
        IsExact bs.length (value (done ++ a :: as) * value bs)
          (mulLoop bs (done.length + 1) as result') := by
      intro result' hr' hv'
      have h := ih (done ++ [a]) result' hr' (by omega) hv' (by rwa [← hsplit])
      rwa [hlen, ← hsplit] at h
    by_cases ha : a = 0
    · rw [mulLoop, if_pos ha]
      refine hstep result hr ?_
      rw [value_append_singleton, ha, hv]
      simp
    · have hi : done.length ≤ result.length := by omega
      have hdrop : (result.drop done.length).length = bs.length - done.length := by
        rw [List.length_drop, hr]
      have hrow := mulRow_value a bs (result.drop done.length) 0 (by omega)
        (by rw [hdrop]; exact value_lt_of_bits_le ha hb)
      rw [hdrop, Nat.add_zero] at hrow
      have hover := @le_value_mul_of_row done as bs result a (by omega) hr hv
      rw [mulLoop, if_neg ha]
      cases hm : mulRow a bs (result.drop done.length) 0 with
      | none =>
        rw [hm] at hrow
        exact hover hrow
      | some p =>
        obtain ⟨row, carry⟩ := p
        rw [hm] at hrow
        obtain ⟨hrl, hrv, hrc⟩ := hrow
        simp only
        by_cases hc : carry > 0 ∧ done.length + bs.length ≤ bs.length
        · rw [if_pos hc]
          refine hover (hrv ▸ ?_)
          exact (Nat.le_mul_of_pos_right _ hc.1).trans (Nat.le_add_left _ _)
        · rw [if_neg hc]
          have hc0 : carry = 0 := by omega
          rw [hc0, Nat.mul_zero, Nat.add_zero] at hrv
          refine hstep _ ?_ ?_
          · rw [List.length_append, List.length_take_of_le hi, hrl]
            omega
          · have h := @value_take_append result row done.length hi
            rw [hrv, hv] at h
            rw [value_append_singleton, add_mul, mul_assoc]
            rw [mul_add] at h
            omega

/-! ### Wide intermediate results

The source computes a row in 128-bit words.  `mulRowWide` and `mulLoopWide` are
the same loops with every wide operation checked: `none` stands for one that
does not fit.
-/

/-- A wide result, if it fits. -/
def wide (n : ℕ) : Option ℕ := if n < 2 ^ 128 then some n else none

/-- `mulRow`, with checked products and sums. -/
def mulRowWide (a : UInt64) : List UInt64 → List UInt64 → ℕ → Option (Option (List UInt64 × ℕ))
  | [], acc, carry => some (some (acc, carry))
  | b :: _, [], carry => do
    let ab ← wide (a.toNat * b.toNat)
    let product ← wide (ab + carry)
    some (if product > 0 then none else some ([], carry))
  | b :: bs, r :: acc, carry => do
    let ab ← wide (a.toNat * b.toNat)
    let sum ← wide (ab + r.toNat)
    let product ← wide (sum + carry)
    let row ← mulRowWide a bs acc (product / 2 ^ 64)
    some (row.map fun p => (UInt64.ofNat (product % 2 ^ 64) :: p.1, p.2))

/-- `mulLoop`, with checked rows. -/
def mulLoopWide (bs : List UInt64) :
    ℕ → List UInt64 → List UInt64 → Option (Option (List UInt64))
  | _, [], result => some (some result)
  | i, a :: as, result =>
    if a = 0 then mulLoopWide bs (i + 1) as result
    else match mulRowWide a bs (result.drop i) 0 with
      | none => none
      | some none => some none
      | some (some (row, carry)) =>
        if carry > 0 ∧ i + bs.length ≤ bs.length then some none
        else mulLoopWide bs (i + 1) as (result.take i ++ row)

theorem wide_of_lt {n : ℕ} (h : n < 2 ^ 128) : wide n = some n := if_pos h

theorem mul_add_add_lt (a b : UInt64) {r carry : ℕ} (hr : r < 2 ^ 64) (hc : carry < 2 ^ 64) :
    a.toNat * b.toNat + r + carry < 2 ^ 128 := by
  have ha := a.toNat_le_max
  have hb := b.toNat_le_max
  have hab : a.toNat * b.toNat ≤ (2 ^ 64 - 1) * (2 ^ 64 - 1) := Nat.mul_le_mul ha hb
  omega

/-- **No wide operation of a row overflows**, and the carry stays a limb. -/
theorem mulRowWide_eq (a : UInt64) : ∀ (bs acc : List UInt64) (carry : ℕ), carry < 2 ^ 64 →
    mulRowWide a bs acc carry = some (mulRow a bs acc carry) := by
  intro bs
  induction bs with
  | nil => intro acc carry _; rfl
  | cons b bs ih =>
    intro acc carry hc
    cases acc with
    | nil =>
      have h := mul_add_add_lt a b (r := 0) (by norm_num) hc
      simp only [mulRowWide, wide_of_lt (show a.toNat * b.toNat < 2 ^ 128 by omega),
        wide_of_lt (show a.toNat * b.toNat + carry < 2 ^ 128 by omega), Option.bind_eq_bind,
        Option.bind_some, mulRow]
    | cons r acc =>
      have h := mul_add_add_lt a b r.toNat_lt hc
      have hcarry : (a.toNat * b.toNat + r.toNat + carry) / 2 ^ 64 < 2 ^ 64 := by omega
      simp only [mulRowWide, wide_of_lt (show a.toNat * b.toNat < 2 ^ 128 by omega),
        wide_of_lt (show a.toNat * b.toNat + r.toNat < 2 ^ 128 by omega), wide_of_lt h,
        ih acc _ hcarry, Option.bind_eq_bind, Option.bind_some, mulRow]
      cases mulRow a bs acc ((a.toNat * b.toNat + r.toNat + carry) / 2 ^ 64) with
      | none => rfl
      | some p => rfl

/-- **No wide operation of a product overflows.** -/
theorem mulLoopWide_eq (bs : List UInt64) : ∀ (as : List UInt64) (i : ℕ) (result : List UInt64),
    mulLoopWide bs i as result = some (mulLoop bs i as result) := by
  intro as
  induction as with
  | nil => intro i result; rfl
  | cons a as ih =>
    intro i result
    rw [mulLoopWide, mulLoop]
    by_cases ha : a = 0
    · rw [if_pos ha, if_pos ha, ih]
    · rw [if_neg ha, if_neg ha, mulRowWide_eq a bs _ 0 (by norm_num)]
      cases mulRow a bs (result.drop i) 0 with
      | none => rfl
      | some p =>
        obtain ⟨row, carry⟩ := p
        simp only
        split_ifs
        · rfl
        · exact ih _ _

end Limbs
