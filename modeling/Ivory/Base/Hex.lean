import Mathlib.Data.List.TakeWhile
import Mathlib.Data.Nat.Digits.Defs
import Mathlib.Tactic

/-!
# Hexadecimal text

A text is the list of its bytes.  `encode` writes two digits for every byte,
`ofNat` writes a number without leading zeros; both write lower-case digits.
The readers `decode` and `number` take digits of either case.

* `decode_encode`, `number_ofNat`: **what is written is read back.**
* `decode_eq_some`: **what is read**, as the values of the digits.
* `ofDigits_nibbles`: the digits of bytes and the bytes spell the same number.
* `leftpad_dropWhile`, `map_digit_dropWhile`: padding gives back the zeros that were trimmed,
  and what is left are the digits of the number.
-/

namespace Hex

/-! ### Digits -/

/-- The value of a digit, of either case. -/
def value (c : UInt8) : Option ℕ :=
  if 48 ≤ c ∧ c ≤ 57 then some (c.toNat - 48)
  else if 97 ≤ c ∧ c ≤ 102 then some (c.toNat - 87)
  else if 65 ≤ c ∧ c ≤ 70 then some (c.toNat - 55)
  else none

/-- The lower-case digit of a number below sixteen. -/
def digit (n : ℕ) : UInt8 := if n < 10 then UInt8.ofNat (48 + n) else UInt8.ofNat (87 + n)

/-- What holds of the sixteen digits: each is read back, and none is a sign. -/
theorem value_digit {n : ℕ} (h : n < 16) : value (digit n) = some n ∧ digit n ≠ 43 := by
  have hall : ∀ i : Fin 16, value (digit i) = some i.val ∧ digit i ≠ 43 := by decide
  exact hall ⟨n, h⟩

/-! ### Bytes -/

/-- Two digits for every byte, the high half first. -/
def encode (bytes : List UInt8) : List UInt8 :=
  bytes.flatMap fun b => [digit (b.toNat / 16), digit (b.toNat % 16)]

/-- Read two digits for every byte. -/
def decode : List UInt8 → Option (List UInt8)
  | [] => some []
  | [_] => none
  | a :: b :: rest => do
    let hi ← value a
    let lo ← value b
    let bytes ← decode rest
    some (UInt8.ofNat (16 * hi + lo) :: bytes)

@[simp] theorem encode_length (bytes : List UInt8) : (encode bytes).length = 2 * bytes.length := by
  induction bytes with
  | nil => rfl
  | cons b bytes ih =>
    rw [encode, List.flatMap_cons, List.length_append, ← encode, ih, List.length_cons]
    simp only [List.length_cons, List.length_nil]
    omega

/-- **What is written is read back.** -/
@[simp] theorem decode_encode (bytes : List UInt8) : decode (encode bytes) = some bytes := by
  induction bytes with
  | nil => rfl
  | cons b bytes ih =>
    have hb : b.toNat < 256 := b.toNat_lt
    have hhi := (value_digit (show b.toNat / 16 < 16 by omega)).1
    have hlo := (value_digit (show b.toNat % 16 < 16 by omega)).1
    have hbyte : 16 * (b.toNat / 16) + b.toNat % 16 = b.toNat := Nat.div_add_mod b.toNat 16
    rw [encode, List.flatMap_cons, ← encode]
    simp only [List.cons_append, List.nil_append, decode, hhi, hlo, ih, hbyte,
      UInt8.ofNat_toNat, Option.bind_eq_bind, Option.bind_some]

theorem leftpad_dropWhile {α : Type} [BEq α] [LawfulBEq α] (a : α) (l : List α) :
    (l.dropWhile (· == a)).leftpad l.length a = l := by
  have hrep : l.takeWhile (· == a) = List.replicate (l.takeWhile (· == a)).length a := by
    refine List.eq_replicate_of_mem fun b hb => ?_
    have hba : (b == a) = true := List.mem_takeWhile_imp (p := (· == a)) hb
    exact eq_of_beq hba
  have hlen : l.length - (l.dropWhile (· == a)).length = (l.takeWhile (· == a)).length := by
    have h := congrArg List.length (List.takeWhile_append_dropWhile (p := (· == a)) (l := l))
    rw [List.length_append] at h
    omega
  rw [List.leftpad, hlen, ← hrep, List.takeWhile_append_dropWhile]

/-! ### Numbers -/

/-- The digits of a number, the most significant first. -/
def ofNat (n : ℕ) : List UInt8 :=
  if n = 0 then [digit 0] else (Nat.digits 16 n).reverse.map digit

/-- Take in one more digit, as long as the number stays below the limit. -/
def push (limit n : ℕ) (c : UInt8) : Option ℕ := do
  let d ← value c
  if n * 16 + d < limit then some (n * 16 + d) else none

/-- Read a number below a limit.  A plus sign may stand in front; there must be a digit. -/
def number (limit : ℕ) (text : List UInt8) : Option ℕ :=
  match (if text.head? = some 43 then text.tail else text) with
  | [] => none
  | digits => digits.foldlM (push limit) 0

theorem push_digit {limit n d : ℕ} (hd : d < 16) (h : n * 16 + d < limit) :
    push limit n (digit d) = some (n * 16 + d) := by
  rw [push, (value_digit hd).1]
  exact if_pos h

/-- Digits are read from the most significant one, so the number read so far only grows. -/
theorem foldlM_push {limit : ℕ} : ∀ {ds : List ℕ}, (∀ d ∈ ds, d < 16) →
    Nat.ofDigits 16 ds < limit →
    (ds.reverse.map digit).foldlM (push limit) 0 = some (Nat.ofDigits 16 ds) := by
  intro ds
  induction ds with
  | nil => intro _ _; rfl
  | cons d ds ih =>
    intro hds hlt
    rw [Nat.ofDigits_cons] at hlt ⊢
    have hd := hds d List.mem_cons_self
    have hread := ih (fun x hx => hds x (List.mem_cons_of_mem _ hx)) (by omega)
    have hcomm : Nat.ofDigits 16 ds * 16 + d = d + 16 * Nat.ofDigits 16 ds := by omega
    have hpush : push limit (Nat.ofDigits 16 ds) (digit d)
        = some (d + 16 * Nat.ofDigits 16 ds) := by
      rw [push_digit hd (by omega), hcomm]
    rw [List.reverse_cons, List.map_append, List.foldlM_append, hread]
    simp [hpush]

theorem head?_ofNat (n : ℕ) : ∃ d < 16, (ofNat n).head? = some (digit d) := by
  by_cases h0 : n = 0
  · exact ⟨0, by norm_num, by rw [ofNat, if_pos h0]; rfl⟩
  · have hne : Nat.digits 16 n ≠ [] := Nat.digits_ne_nil_iff_ne_zero.mpr h0
    refine ⟨(Nat.digits 16 n).getLast hne,
      Nat.digits_lt_base (by norm_num) (List.getLast_mem hne), ?_⟩
    rw [ofNat, if_neg h0, List.head?_map, List.head?_reverse,
      List.getLast?_eq_getLast_of_ne_nil hne]
    rfl

/-- **A number that is written is read back.** -/
theorem number_ofNat {limit n : ℕ} (h : n < limit) : number limit (ofNat n) = some n := by
  obtain ⟨d, hd, hhead⟩ := head?_ofNat n
  have hsign : (ofNat n).head? ≠ some 43 := by
    rw [hhead]
    exact fun he => (value_digit hd).2 (Option.some.inj he)
  have hfold : (ofNat n).foldlM (push limit) 0 = some n := by
    by_cases h0 : n = 0
    · subst h0
      rw [ofNat, if_pos rfl]
      simp [push_digit (show 0 < 16 by norm_num) (show 0 * 16 + 0 < limit from h)]
    · rw [ofNat, if_neg h0, foldlM_push (fun x hx => Nat.digits_lt_base (by norm_num) hx)
        (by rwa [Nat.ofDigits_digits]), Nat.ofDigits_digits]
  rw [number, if_neg hsign]
  cases htext : ofNat n with
  | nil => rw [htext] at hhead; cases hhead
  | cons c text => rw [htext] at hfold; exact hfold

/-! ### The values of digits -/

/-- The values of the digits of bytes. -/
def nibbles (bytes : List UInt8) : List ℕ := bytes.flatMap fun b => [b.toNat / 16, b.toNat % 16]

theorem nibbles_cons (b : UInt8) (bytes : List UInt8) :
    nibbles (b :: bytes) = b.toNat / 16 :: b.toNat % 16 :: nibbles bytes := rfl

theorem nibbles_lt {bytes : List UInt8} : ∀ d ∈ nibbles bytes, d < 16 := by
  intro d hd
  obtain ⟨b, -, hb⟩ := List.mem_flatMap.mp hd
  have hlt : b.toNat < 256 := b.toNat_lt
  simp only [List.mem_cons, List.not_mem_nil, or_false] at hb
  omega

theorem nibbles_length (bytes : List UInt8) : (nibbles bytes).length = 2 * bytes.length := by
  induction bytes with
  | nil => rfl
  | cons b bytes ih =>
    rw [nibbles_cons, List.length_cons, List.length_cons, ih, List.length_cons]
    omega

theorem encode_eq_map (bytes : List UInt8) : encode bytes = (nibbles bytes).map digit := by
  rw [encode, nibbles, List.map_flatMap]
  rfl

theorem exists_nibbles : ∀ {n : ℕ} {ds : List ℕ}, ds.length = 2 * n → (∀ d ∈ ds, d < 16) →
    ∃ bytes, bytes.length = n ∧ nibbles bytes = ds := by
  intro n
  induction n with
  | zero =>
    intro ds hlen _
    exact ⟨[], rfl, (List.length_eq_zero_iff.mp hlen).symm⟩
  | succ n ih =>
    intro ds hlen hlt
    match ds with
    | [] => simp at hlen
    | [_] => simp at hlen; omega
    | hi :: lo :: ds =>
      have hhi := hlt hi List.mem_cons_self
      have hlo := hlt lo (List.mem_cons_of_mem _ List.mem_cons_self)
      have hrest : ds.length = 2 * n := by
        simp at hlen
        omega
      obtain ⟨bytes, hbytes, rfl⟩ := ih hrest fun d hd =>
        hlt d (List.mem_cons_of_mem _ (List.mem_cons_of_mem _ hd))
      have hval : (UInt8.ofNat (16 * hi + lo)).toNat = 16 * hi + lo := by
        rw [UInt8.toNat_ofNat']
        exact Nat.mod_eq_of_lt (by omega)
      refine ⟨UInt8.ofNat (16 * hi + lo) :: bytes, by rw [List.length_cons, hbytes], ?_⟩
      rw [nibbles_cons, hval]
      congr 1
      · omega
      · congr 1
        omega

theorem value_lt {c : UInt8} {d : ℕ} (h : value c = some d) : d < 16 := by
  have hall : ∀ n : Fin 256, (value (UInt8.ofNat n)).getD 0 < 16 := by decide +kernel
  have hc := hall ⟨c.toNat, c.toNat_lt⟩
  rw [UInt8.ofNat_toNat, h] at hc
  exact hc

/-- **What is read**: two digits for every byte. -/
theorem decode_eq_some : ∀ {text bytes : List UInt8},
    decode text = some bytes ↔ text.map value = (nibbles bytes).map some
  | [], bytes => by
    cases bytes with
    | nil => simp [decode, nibbles]
    | cons b bytes => simp [decode, nibbles_cons]
  | [a], bytes => by
    cases bytes with
    | nil => simp [decode, nibbles]
    | cons b bytes => simp [decode, nibbles_cons]
  | a :: b :: text, bytes => by
    rw [decode, List.map_cons, List.map_cons]
    simp only [Option.bind_eq_bind, Option.bind_eq_some_iff, Option.some.injEq]
    constructor
    · rintro ⟨hi, hhi, lo, hlo, rest, hrest, rfl⟩
      have h₁ := value_lt hhi
      have h₂ := value_lt hlo
      have hval : (UInt8.ofNat (16 * hi + lo)).toNat = 16 * hi + lo := by
        rw [UInt8.toNat_ofNat']
        exact Nat.mod_eq_of_lt (by omega)
      rw [nibbles_cons, hval, decode_eq_some.mp hrest, hhi, hlo, List.map_cons, List.map_cons,
        show (16 * hi + lo) / 16 = hi by omega, show (16 * hi + lo) % 16 = lo by omega]
    · intro h
      cases bytes with
      | nil => simp [nibbles] at h
      | cons c bytes =>
        rw [nibbles_cons, List.map_cons, List.map_cons] at h
        obtain ⟨hhi, h⟩ := List.cons.inj h
        obtain ⟨hlo, h⟩ := List.cons.inj h
        refine ⟨_, hhi, _, hlo, bytes, decode_eq_some.mpr h, ?_⟩
        rw [Nat.div_add_mod, UInt8.ofNat_toNat]

theorem ofDigits_nibbles (bytes : List UInt8) : Nat.ofDigits 16 (nibbles bytes).reverse
    = Nat.ofDigits 256 (bytes.map UInt8.toNat).reverse := by
  induction bytes with
  | nil => rfl
  | cons b bytes ih =>
    have hb := Nat.div_add_mod b.toNat 16
    have hpair : Nat.ofDigits 16 [b.toNat % 16, b.toNat / 16] = Nat.ofDigits 256 [b.toNat] := by
      simp only [Nat.ofDigits_cons, Nat.ofDigits_nil]
      omega
    rw [nibbles_cons, List.reverse_cons, List.reverse_cons, List.append_assoc, List.map_cons,
      List.reverse_cons]
    show Nat.ofDigits 16 ((nibbles bytes).reverse ++ [b.toNat % 16, b.toNat / 16]) = _
    rw [Nat.ofDigits_append, Nat.ofDigits_append, ih, hpair, List.length_reverse,
      List.length_reverse, nibbles_length, List.length_map, pow_mul]
    norm_num

theorem ofDigits_dropWhile (ds : List ℕ) : Nat.ofDigits 16 (ds.dropWhile (· == 0)).reverse
    = Nat.ofDigits 16 ds.reverse := by
  have hpad := leftpad_dropWhile 0 ds
  rw [List.leftpad] at hpad
  conv_rhs => rw [← hpad, List.reverse_append, Nat.ofDigits_append, List.reverse_replicate,
    Nat.ofDigits_replicate_zero, Nat.mul_zero, Nat.add_zero]

theorem dropWhile_map_digit {ds : List ℕ} (hlt : ∀ d ∈ ds, d < 16) :
    (ds.map digit).dropWhile (· == 48) = (ds.dropWhile (· == 0)).map digit := by
  have hzero : ∀ d : Fin 16, (digit d == 48) = (d.val == 0) := by decide
  induction ds with
  | nil => rfl
  | cons d ds ih =>
    have hd := hzero ⟨d, hlt d List.mem_cons_self⟩
    rw [List.map_cons, List.dropWhile_cons, List.dropWhile_cons, hd]
    split
    · exact ih fun e he => hlt e (List.mem_cons_of_mem d he)
    · rfl

/-- **Without leading zeros** the digits of a number are those it is written with. -/
theorem map_digit_dropWhile {ds : List ℕ} (hlt : ∀ d ∈ ds, d < 16)
    (hne : Nat.ofDigits 16 ds.reverse ≠ 0) :
    (ds.dropWhile (· == 0)).map digit = ofNat (Nat.ofDigits 16 ds.reverse) := by
  have hdig : Nat.digits 16 (Nat.ofDigits 16 (ds.dropWhile (· == 0)).reverse)
      = (ds.dropWhile (· == 0)).reverse := by
    refine Nat.digits_ofDigits 16 (by norm_num) _ (fun d hd => ?_) fun hnil => ?_
    · exact hlt d ((List.dropWhile_suffix _).subset (List.mem_reverse.mp hd))
    · rw [List.getLast_reverse]
      have hhead := List.head_dropWhile_not (p := fun d : ℕ => d == 0) (l := ds)
        (by simpa using hnil)
      simpa using hhead
  rw [ofNat, if_neg hne, ← ofDigits_dropWhile, hdig, List.reverse_reverse]

end Hex
