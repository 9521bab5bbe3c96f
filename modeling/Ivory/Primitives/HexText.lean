import Ivory.Base.Hex
import Ivory.Base.Text
import Ivory.Primitives.Types

/-!
# Hexadecimal texts of the primitives

`to_hex` and `from_hex` of the fixed-size byte types and of `U256`.  A text is
the list of its bytes; the texts behind a prefix are read with `stripHex`.

`U256::from_hex` measures a text in bytes, pads it in characters and copies the
decoded bytes into an array of 32.  `U256.fromHexString` is that function on
strings, with the panic of the copy as `none`; `U256.fromHex` is the same on
the bytes of a text (`U256.fromHex_utf8`).

* `U256.fromHexString_cases`: what `from_hex` does with each string.
* `U256.fromHexString_grammar`: **exactly the strings of the grammar are read**, as
  the number they spell, nothing panics, and what `to_hex` writes is read back.
-/

namespace Ivory

/-! ### Bytes and words -/

/-- `0x` and the digits. -/
def hexText (digits : List UInt8) : List UInt8 := 48 :: 120 :: digits

/-- The text behind `0x`, or behind `0X`, or all of it. -/
def stripHex (s : List UInt8) : List UInt8 :=
  ((s.dropPrefix? [48, 120]).or (s.dropPrefix? [48, 88])).getD s

@[simp] theorem stripHex_hexText (digits : List UInt8) : stripHex (hexText digits) = digits := by
  simp [stripHex, hexText, List.dropPrefix?]

/-- `to_hex` of the fixed-size byte types. -/
def fixedToHex {n : ℕ} (a : Arr UInt8 n) : List UInt8 := hexText (Hex.encode a.toList)

/-- `from_hex` of the fixed-size byte types. -/
def fixedFromHex (n : ℕ) (s : List UInt8) : Option (Arr UInt8 n) :=
  let s := stripHex s
  if s.length ≠ n * 2 then none
  else do
    let bytes ← Hex.decode s
    if h : bytes.length = n then some ⟨bytes, h⟩ else none

theorem fixedFromHex_fixedToHex {n : ℕ} (a : Arr UInt8 n) :
    fixedFromHex n (fixedToHex a) = some a := by
  have hlen : (Hex.encode a.toList).length = n * 2 := by
    rw [Hex.encode_length, a.size, Nat.mul_comm]
  simp only [fixedFromHex, fixedToHex, stripHex_hexText, hlen, ne_eq, not_true_eq_false, if_false,
    Hex.decode_encode, Option.bind_eq_bind, Option.bind_some, dif_pos a.size]

namespace U256

/-- `to_hex`: the digits without leading zeros. -/
def toHex (x : U256) : List UInt8 :=
  if x.isZero then hexText [48]
  else
    let trimmed := (Hex.encode x.toBeBytes.toList).dropWhile (· == 48)
    if trimmed.isEmpty then hexText [48] else hexText trimmed

/-- `from_hex`: padded to 64 digits, which are 32 bytes. -/
def fromHex (s : List UInt8) : Option U256 :=
  let s := stripHex s
  if s.isEmpty then some zero
  else if s.length > 64 then none
  else do
    let bytes ← Hex.decode (s.leftpad 64 48)
    if h : bytes.length = 32 then some (fromBeBytes ⟨bytes, h⟩) else none

theorem fromHex_of_leftpad {x : U256} {digits : List UInt8} (hne : digits.isEmpty = false)
    (hpad : digits.leftpad 64 48 = Hex.encode x.toBeBytes.toList) :
    fromHex (hexText digits) = some x := by
  have hlen : ¬ digits.length > 64 := by
    have h := congrArg List.length hpad
    rw [List.leftpad, List.length_append, List.length_replicate, Hex.encode_length,
      x.toBeBytes.size] at h
    omega
  simp only [fromHex, stripHex_hexText, hne, Bool.false_eq_true, if_false, if_neg hlen, hpad,
    Hex.decode_encode, Option.bind_eq_bind, Option.bind_some, dif_pos x.toBeBytes.size]
  exact congrArg some (fromBeBytes_toBeBytes x)

theorem fromHex_toHex (x : U256) : fromHex x.toHex = some x := by
  have hlen : (Hex.encode x.toBeBytes.toList).length = 64 := by
    rw [Hex.encode_length, x.toBeBytes.size]
  have hpad := Hex.leftpad_dropWhile 48 (Hex.encode x.toBeBytes.toList)
  rw [hlen] at hpad
  -- all digits are zeros exactly for zero, where one of them is kept
  have hzero : x.toBeBytes.toList = List.replicate 32 0 → fromHex (hexText [48]) = some x := by
    intro hx
    refine fromHex_of_leftpad rfl ?_
    rw [hx]
    rfl
  rw [toHex]
  split
  · next hz =>
    refine hzero ?_
    rw [isZero_iff_eq.mp hz]
    rfl
  · simp only
    split
    · next hnil =>
      refine hzero ?_
      rw [List.isEmpty_iff.mp hnil] at hpad
      have hdec := Hex.decode_encode x.toBeBytes.toList
      rw [← hpad] at hdec
      exact (Option.some.inj hdec).symm
    · next hne => exact fromHex_of_leftpad (Bool.not_eq_true _ ▸ hne) hpad

end U256

/-! ### Characters

What the grammar of `from_hex` speaks of: digits of either case, and the number
that a list of them spells.
-/

/-- The value of a hexadecimal digit, of either case. -/
def hexDigitValue (c : Char) : Option ℕ :=
  if '0' ≤ c ∧ c ≤ '9' then some (c.toNat - '0'.toNat)
  else if 'a' ≤ c ∧ c ≤ 'f' then some (c.toNat - 'a'.toNat + 10)
  else if 'A' ≤ c ∧ c ≤ 'F' then some (c.toNat - 'A'.toNat + 10)
  else none

/-- Only digits. -/
def HexDigits (cs : List Char) : Prop := ∀ c ∈ cs, (hexDigitValue c).isSome

/-- The number that digits spell, the most significant first. -/
def hexNumber (cs : List Char) : ℕ :=
  Nat.ofDigits 16 (cs.map fun c => (hexDigitValue c).getD 0).reverse

/-- The UTF-8 bytes of characters. -/
def charBytes (cs : List Char) : List UInt8 := cs.flatMap String.utf8EncodeChar

theorem utf8_eq_charBytes (s : String) : utf8 s = charBytes s.toList := by
  rw [utf8, ← String.utf8Encode_toList, List.utf8Encode, charBytes]
  simp

theorem hexDigitValue_eq_none {c : Char} (h : 127 < c.toNat) : hexDigitValue c = none := by
  have hle : ∀ d : Char, d.toNat ≤ 127 → ¬ c ≤ d := fun d hd hc =>
    absurd (h.trans_le (UInt32.le_iff_toNat_le.mp hc)) (Nat.not_lt.mpr hd)
  rw [hexDigitValue, if_neg fun hd => hle '9' (by decide) hd.2,
    if_neg fun hd => hle 'f' (by decide) hd.2, if_neg fun hd => hle 'F' (by decide) hd.2]

/-- A digit is one byte with its value; any other character has a byte that is no digit. -/
theorem utf8EncodeChar_cases (c : Char) :
    (∃ b d, String.utf8EncodeChar c = [b] ∧ Hex.value b = some d ∧ hexDigitValue c = some d)
      ∨ (hexDigitValue c = none ∧ ∃ b ∈ String.utf8EncodeChar c, Hex.value b = none) := by
  have hascii : ∀ n : Fin 128, Hex.value (UInt8.ofNat n) = hexDigitValue (Char.ofNat n) := by
    decide +kernel
  have hhigh : ∀ n : Fin 64, Hex.value (UInt8.ofNat (n + 128)) = none := by decide +kernel
  by_cases hc : c.toNat ≤ 127
  · have henc : String.utf8EncodeChar c = [UInt8.ofNat c.toNat] := if_pos hc
    have hval := hascii ⟨c.toNat, Nat.lt_succ_of_le hc⟩
    rw [Char.ofNat_toNat] at hval
    cases hd : hexDigitValue c with
    | none => exact .inr ⟨rfl, _, by rw [henc]; exact List.mem_singleton_self _, by rw [hval, hd]⟩
    | some d => exact .inl ⟨_, d, henc, by rw [hval, hd], rfl⟩
  · -- the last byte of every longer encoding carries six bits above 128
    refine .inr ⟨hexDigitValue_eq_none (Nat.not_le.mp hc), UInt8.ofNat (c.toNat % 64 + 128), ?_,
      hhigh ⟨c.toNat % 64, Nat.mod_lt _ (by norm_num)⟩⟩
    rw [String.utf8EncodeChar]
    simp only [Char.toNat] at hc ⊢
    rw [if_neg hc]
    split <;> [skip; split] <;> simp

theorem isEmpty_charBytes (cs : List Char) : (charBytes cs).isEmpty = cs.isEmpty := by
  cases cs with
  | nil => rfl
  | cons c cs =>
    obtain ⟨b, d, henc, -⟩ | ⟨-, b, hb, -⟩ := utf8EncodeChar_cases c
    · rw [charBytes, List.flatMap_cons, henc]
      rfl
    · rw [charBytes, List.flatMap_cons, List.isEmpty_cons, List.isEmpty_eq_false_iff]
      exact List.append_ne_nil_of_left_ne_nil (List.ne_nil_of_mem hb) _

theorem map_value_charBytes {cs : List Char} (h : HexDigits cs) :
    (charBytes cs).map Hex.value = cs.map hexDigitValue := by
  induction cs with
  | nil => rfl
  | cons c cs ih =>
    have hcs : HexDigits cs := fun d hd => h d (List.mem_cons_of_mem c hd)
    obtain ⟨b, d, henc, hval, hd⟩ | ⟨hnone, -⟩ := utf8EncodeChar_cases c
    · rw [charBytes, List.flatMap_cons, henc, ← charBytes, List.map_append, ih hcs, List.map_cons,
        List.map_nil, hval, List.map_cons, hd]
      rfl
    · have hc := h c List.mem_cons_self
      rw [hnone] at hc
      exact absurd hc Bool.false_ne_true

theorem decode_charBytes {cs : List Char} {bytes : List UInt8} :
    Hex.decode (charBytes cs) = some bytes
      ↔ HexDigits cs ∧ cs.map hexDigitValue = (Hex.nibbles bytes).map some := by
  rw [Hex.decode_eq_some]
  constructor
  · intro h
    have hdigits : HexDigits cs := by
      intro c hc
      obtain ⟨b, d, -, -, hd⟩ | ⟨-, b, hb, hnone⟩ := utf8EncodeChar_cases c
      · rw [hd]
        rfl
      · have hmem : Hex.value b ∈ (charBytes cs).map Hex.value :=
          List.mem_map_of_mem (List.mem_flatMap.mpr ⟨c, hc, hb⟩)
        rw [h, hnone] at hmem
        obtain ⟨d, -, hd⟩ := List.mem_map.mp hmem
        exact absurd hd (Option.some_ne_none d)
    exact ⟨hdigits, (map_value_charBytes hdigits).symm.trans h⟩
  · rintro ⟨hdigits, h⟩
    exact (map_value_charBytes hdigits).trans h

theorem hexDigits_leftpad {n : ℕ} {cs : List Char} :
    HexDigits (cs.leftpad n '0') ↔ HexDigits cs := by
  constructor
  · exact fun h c hc => h c (List.mem_append_right _ hc)
  · intro h c hc
    rcases List.mem_append.mp hc with hc | hc
    · rw [List.eq_of_mem_replicate hc]
      decide
    · exact h c hc

theorem hexNumber_leftpad (n : ℕ) (cs : List Char) :
    hexNumber (cs.leftpad n '0') = hexNumber cs := by
  have hzero : (hexDigitValue '0').getD 0 = 0 := by decide
  rw [hexNumber, hexNumber, List.leftpad, List.map_append, List.map_replicate, hzero,
    List.reverse_append, List.reverse_replicate, Nat.ofDigits_append_replicate_zero]

theorem hexNumber_of_nibbles {cs : List Char} {bytes : List UInt8}
    (h : cs.map hexDigitValue = (Hex.nibbles bytes).map some) :
    hexNumber cs = Nat.ofDigits 256 (bytes.map UInt8.toNat).reverse := by
  have hmap : (cs.map fun c => (hexDigitValue c).getD 0) = Hex.nibbles bytes := by
    have hget := congrArg (List.map (Option.getD · 0)) h
    simpa [List.map_map, Function.comp_def] using hget
  rw [hexNumber, hmap, Hex.ofDigits_nibbles]

theorem ofDigits_toNat (bs : List UInt8) :
    Nat.ofDigits 256 (bs.map UInt8.toNat) = ofLeBytes bs := by
  induction bs with
  | nil => rfl
  | cons b bs ih => rw [List.map_cons, Nat.ofDigits_cons, ih, ofLeBytes]

theorem hexDigitValue_lt {c : Char} {d : ℕ} (h : hexDigitValue c = some d) : d < 16 := by
  obtain ⟨b, e, -, hval, he⟩ | ⟨hnone, -⟩ := utf8EncodeChar_cases c
  · rw [he] at h
    exact Option.some.inj h ▸ Hex.value_lt hval
  · rw [hnone] at h
    exact absurd h.symm (Option.some_ne_none d)

theorem charBytes_length {cs : List Char} (h : HexDigits cs) :
    (charBytes cs).length = cs.length := by
  have hlen := congrArg List.length (map_value_charBytes h)
  rwa [List.length_map, List.length_map] at hlen

theorem exists_bytes_of_hexDigits {cs : List Char} (h : HexDigits cs)
    (hle : (charBytes cs).length ≤ 64) : ∃ bytes : List UInt8, bytes.length = 32
      ∧ (cs.leftpad 64 '0').map hexDigitValue = (Hex.nibbles bytes).map some := by
  have hpad : HexDigits (cs.leftpad 64 '0') := hexDigits_leftpad.mpr h
  rw [charBytes_length h] at hle
  have hsome : (cs.leftpad 64 '0').map hexDigitValue
      = ((cs.leftpad 64 '0').map fun c => (hexDigitValue c).getD 0).map some := by
    rw [List.map_map]
    refine List.map_congr_left fun c hc => ?_
    obtain ⟨d, hd⟩ := Option.isSome_iff_exists.mp (hpad c hc)
    simp [hd]
  have hcount : ((cs.leftpad 64 '0').map fun c => (hexDigitValue c).getD 0).length = 2 * 32 := by
    rw [List.length_map, List.leftpad, List.length_append, List.length_replicate]
    omega
  obtain ⟨bytes, hlen, hbytes⟩ := Hex.exists_nibbles hcount (by
    intro d hd
    obtain ⟨c, hc, rfl⟩ := List.mem_map.mp hd
    obtain ⟨e, he⟩ := Option.isSome_iff_exists.mp (hpad c hc)
    rw [he]
    exact hexDigitValue_lt he)
  exact ⟨bytes, hlen, by rw [hbytes, hsome]⟩

theorem utf8EncodeChar_of_gt {c : Char} (h : 127 < c.toNat) :
    ∃ b bs, String.utf8EncodeChar c = b :: bs ∧ 127 < b.toNat := by
  rw [String.utf8EncodeChar]
  simp only [Char.toNat] at h
  rw [if_neg (Nat.not_le.mpr h)]
  split
  · exact ⟨_, _, rfl, by rw [UInt8.toNat_ofNat']; omega⟩
  split
  · exact ⟨_, _, rfl, by rw [UInt8.toNat_ofNat']; omega⟩
  · exact ⟨_, _, rfl, by rw [UInt8.toNat_ofNat']; omega⟩

theorem charBytes_cons_of_le {c : Char} (h : c.toNat ≤ 127) (cs : List Char) :
    charBytes (c :: cs) = UInt8.ofNat c.toNat :: charBytes cs := by
  rw [charBytes, List.flatMap_cons, show String.utf8EncodeChar c = _ from if_pos h]
  rfl

theorem toNat_ofNat_of_le {c : Char} (h : c.toNat ≤ 127) :
    (UInt8.ofNat c.toNat).toNat = c.toNat := by
  rw [UInt8.toNat_ofNat']
  exact Nat.mod_eq_of_lt (by omega)

theorem dropPrefix?_charBytes : ∀ {p : List Char} (cs : List Char), (∀ a ∈ p, a.toNat ≤ 127) →
    (charBytes cs).dropPrefix? (charBytes p) = (cs.dropPrefix? p).map charBytes := by
  intro p
  induction p with
  | nil => intro cs _; cases cs <;> simp [charBytes, List.dropPrefix?]
  | cons a p ih =>
    intro cs hp
    have ha : a.toNat ≤ 127 := hp a List.mem_cons_self
    have hbyte := toNat_ofNat_of_le ha
    rw [charBytes_cons_of_le ha]
    cases cs with
    | nil => rfl
    | cons c cs =>
      by_cases hc : c.toNat ≤ 127
      · have hbeq : (UInt8.ofNat c.toNat == UInt8.ofNat a.toNat) = (c == a) := by
          rw [Bool.eq_iff_iff, beq_iff_eq, beq_iff_eq, ← UInt8.toNat_inj, toNat_ofNat_of_le hc,
            hbyte, Char.toNat_inj]
        rw [charBytes_cons_of_le hc, List.dropPrefix?, List.dropPrefix?, hbeq]
        split
        · exact ih cs fun b hb => hp b (List.mem_cons_of_mem a hb)
        · rfl
      · obtain ⟨b, bs, hb, hgt⟩ := utf8EncodeChar_of_gt (Nat.not_le.mp hc)
        have hbne : (b == UInt8.ofNat a.toNat) = false := by
          rw [beq_eq_false_iff_ne]
          rintro rfl
          omega
        have hcne : (c == a) = false := by
          rw [beq_eq_false_iff_ne]
          rintro rfl
          exact hc ha
        rw [charBytes, List.flatMap_cons, hb, List.cons_append, List.dropPrefix?, hbne,
          List.dropPrefix?, hcne]
        rfl

/-! ### Strings -/

/-- The errors of `from_hex`. -/
inductive PrimitiveError
  | overflow
  | invalidHex
deriving DecidableEq

/-- The characters behind `0x`, or behind `0X`, or all of them. -/
def stripHexChars (cs : List Char) : List Char :=
  ((cs.dropPrefix? ['0', 'x']).or (cs.dropPrefix? ['0', 'X'])).getD cs

theorem stripHex_charBytes (cs : List Char) :
    stripHex (charBytes cs) = charBytes (stripHexChars cs) := by
  have hx : (charBytes cs).dropPrefix? [48, 120] = (cs.dropPrefix? ['0', 'x']).map charBytes :=
    dropPrefix?_charBytes (p := ['0', 'x']) cs (by simp)
  have hX : (charBytes cs).dropPrefix? [48, 88] = (cs.dropPrefix? ['0', 'X']).map charBytes :=
    dropPrefix?_charBytes (p := ['0', 'X']) cs (by simp)
  rw [stripHex, stripHexChars, hx, hX]
  cases cs.dropPrefix? ['0', 'x'] with
  | some rest => rfl
  | none => cases cs.dropPrefix? ['0', 'X'] <;> rfl

namespace U256

theorem toNat_fromBeBytes (bytes : Arr UInt8 32) :
    (fromBeBytes bytes).toNat = Nat.ofDigits 256 (bytes.toList.map UInt8.toNat).reverse := by
  rw [toNat_fromBeBytes_eq, ← List.map_reverse, ofDigits_toNat]

/-- `from_hex` of a string.  The text is measured in bytes and padded in characters; the
copy into the array panics for any number of bytes but 32. -/
def fromHexString (s : String) : Option (Except PrimitiveError U256) :=
  let s := stripHexChars s.toList
  if s.isEmpty then some (.ok zero)
  else if (charBytes s).length > 64 then some (.error .overflow)
  else
    match Hex.decode (charBytes (s.leftpad 64 '0')) with
    | none => some (.error .invalidHex)
    | some bytes => if h : bytes.length = 32 then some (.ok (fromBeBytes ⟨bytes, h⟩)) else none

/-- `to_hex` as a string. -/
def toHexString (x : U256) : String := String.ofList (x.toHex.map fun b => Char.ofNat b.toNat)

/-! What `from_hex` reads. -/

/-- **What `from_hex` does with a string**: too long, not all digits, or the number. -/
theorem fromHexString_cases (s : String) :
    (64 < (charBytes (stripHexChars s.toList)).length
        ∧ fromHexString s = some (.error .overflow))
      ∨ ((charBytes (stripHexChars s.toList)).length ≤ 64 ∧ ¬ HexDigits (stripHexChars s.toList)
        ∧ fromHexString s = some (.error .invalidHex))
      ∨ ((charBytes (stripHexChars s.toList)).length ≤ 64 ∧ HexDigits (stripHexChars s.toList)
        ∧ ∃ v, fromHexString s = some (.ok v) ∧ v.toNat = hexNumber (stripHexChars s.toList)) := by
  rw [fromHexString]
  generalize stripHexChars s.toList = cs
  by_cases hempty : cs.isEmpty = true
  · rw [List.isEmpty_iff.mp hempty]
    exact .inr (.inr ⟨by simp [charBytes], by simp [HexDigits], zero, rfl, rfl⟩)
  simp only [hempty, Bool.false_eq_true, if_false]
  by_cases hlong : 64 < (charBytes cs).length
  · exact .inl ⟨hlong, if_pos hlong⟩
  rw [if_neg hlong]
  have hle := Nat.not_lt.mp hlong
  by_cases hdigits : HexDigits cs
  · obtain ⟨bytes, hlen, hbytes⟩ := exists_bytes_of_hexDigits hdigits hle
    have hdec := decode_charBytes.mpr ⟨hexDigits_leftpad.mpr hdigits, hbytes⟩
    refine .inr (.inr ⟨hle, hdigits, fromBeBytes ⟨bytes, hlen⟩, ?_, ?_⟩)
    · rw [hdec]
      exact dif_pos hlen
    · rw [toNat_fromBeBytes, ← hexNumber_of_nibbles hbytes, hexNumber_leftpad]
  · refine .inr (.inl ⟨hle, hdigits, ?_⟩)
    cases hdec : Hex.decode (charBytes (cs.leftpad 64 '0')) with
    | none => rfl
    | some bytes => exact absurd (hexDigits_leftpad.mp (decode_charBytes.mp hdec).1) hdigits

theorem toHex_eq (x : U256) : x.toHex = hexText (Hex.ofNat x.toNat) := by
  have hval : Nat.ofDigits 16 (Hex.nibbles x.toBeBytes.toList).reverse = x.toNat := by
    rw [Hex.ofDigits_nibbles, ← toNat_fromBeBytes, fromBeBytes_toBeBytes]
  rw [toHex]
  by_cases hz : x.isZero = true
  · rw [if_pos hz, isZero_iff_eq.mp hz]
    rfl
  have hne : x.toNat ≠ 0 := fun h0 => hz (isZero_iff.mpr h0)
  have htrim : (Hex.encode x.toBeBytes.toList).dropWhile (· == 48) = Hex.ofNat x.toNat := by
    rw [Hex.encode_eq_map, Hex.dropWhile_map_digit Hex.nibbles_lt,
      Hex.map_digit_dropWhile Hex.nibbles_lt (by rwa [hval]), hval]
  have hnonempty : (Hex.ofNat x.toNat).isEmpty = false := by
    obtain ⟨d, -, hhead⟩ := Hex.head?_ofNat x.toNat
    cases hof : Hex.ofNat x.toNat with
    | nil => rw [hof] at hhead; exact absurd hhead (by simp)
    | cons a as => rfl
  rw [if_neg hz]
  simp only [htrim, hnonempty, Bool.false_eq_true, if_false]

theorem toList_toHexString (x : U256) : (toHexString x).toList = '0' :: 'x' ::
    (if x.toNat = 0 then ['0'] else (Nat.digits 16 x.toNat).reverse.map Nat.digitChar) := by
  have hchar : ∀ d : Fin 16, Char.ofNat (Hex.digit d).toNat = Nat.digitChar d := by decide
  rw [toHexString, String.toList_ofList, toHex_eq, hexText, Hex.ofNat]
  split
  · rfl
  · rw [List.map_cons, List.map_cons, List.map_map]
    refine congrArg ('0' :: 'x' :: ·) (List.map_congr_left fun d hd => ?_)
    exact hchar ⟨d, Nat.digits_lt_base (by norm_num) (List.mem_reverse.mp hd)⟩

/-- What `to_hex` writes behind `0x` spells the number with at most 64 digits. -/
theorem hexNumber_digits {n : ℕ} (hlt : n < 2 ^ 256) {cs : List Char}
    (hcs : cs = if n = 0 then ['0'] else (Nat.digits 16 n).reverse.map Nat.digitChar) :
    HexDigits cs ∧ cs.length ≤ 64 ∧ hexNumber cs = n := by
  have hval : ∀ d : Fin 16, hexDigitValue (Nat.digitChar d) = some d.val := by decide
  split at hcs
  · next h0 =>
    subst hcs h0
    exact ⟨by simp [HexDigits]; decide, by simp, by decide⟩
  · subst hcs
    have hdig : ∀ d ∈ (Nat.digits 16 n).reverse, hexDigitValue (Nat.digitChar d) = some d :=
      fun d hd => hval ⟨d, Nat.digits_lt_base (by norm_num) (List.mem_reverse.mp hd)⟩
    refine ⟨fun c hc => ?_, ?_, ?_⟩
    · obtain ⟨d, hd, rfl⟩ := List.mem_map.mp hc
      rw [hdig d hd]
      rfl
    · rw [List.length_map, List.length_reverse]
      exact (Nat.digits_length_le_iff (by norm_num) n).mpr (hlt.trans_eq (by norm_num))
    · have hmap : ((Nat.digits 16 n).reverse.map Nat.digitChar).map
          (fun c => (hexDigitValue c).getD 0) = (Nat.digits 16 n).reverse := by
        rw [List.map_map]
        refine (List.map_congr_left fun d hd => ?_).trans (List.map_id _)
        simp [hdig d hd]
      rw [hexNumber, hmap, List.reverse_reverse, Nat.ofDigits_digits]

/-- **`from_hex` reads exactly its grammar**: it panics on no string, and what it accepts
are the strings that have, behind one `0x` or `0X`, at most 64 bytes and only digits; the
result is the number that they spell.  `to_hex` writes `0x` and the digits without leading
zeros, and is read back. -/
theorem fromHexString_grammar :
    (∀ s : String, fromHexString s ≠ none)
      ∧ (∀ (s : String) (v : U256), fromHexString s = some (.ok v)
        ↔ (charBytes (stripHexChars s.toList)).length ≤ 64 ∧ HexDigits (stripHexChars s.toList)
          ∧ v.toNat = hexNumber (stripHexChars s.toList))
      ∧ ∀ v : U256, ((toHexString v).toList = '0' :: 'x' ::
          (if v.toNat = 0 then ['0'] else (Nat.digits 16 v.toNat).reverse.map Nat.digitChar))
        ∧ fromHexString (toHexString v) = some (.ok v) := by
  have hread : ∀ (s : String) (v : U256), fromHexString s = some (.ok v)
      ↔ (charBytes (stripHexChars s.toList)).length ≤ 64 ∧ HexDigits (stripHexChars s.toList)
        ∧ v.toNat = hexNumber (stripHexChars s.toList) := by
    intro s v
    obtain ⟨hlong, hres⟩ | ⟨-, hdigits, hres⟩ | ⟨hle, hdigits, w, hres, hw⟩ := fromHexString_cases s
    · rw [hres]
      exact ⟨fun h => by simp at h, fun h => absurd hlong (Nat.not_lt.mpr h.1)⟩
    · rw [hres]
      exact ⟨fun h => by simp at h, fun h => absurd h.2.1 hdigits⟩
    · rw [hres]
      constructor
      · intro h
        obtain rfl : w = v := by simpa using h
        exact ⟨hle, hdigits, hw⟩
      · rintro ⟨-, -, hv⟩
        rw [toNat_inj.mp (hw.trans hv.symm)]
  refine ⟨fun s h => ?_, hread, fun v => ⟨toList_toHexString v, ?_⟩⟩
  · obtain ⟨-, hres⟩ | ⟨-, -, hres⟩ | ⟨-, -, w, hres, -⟩ := fromHexString_cases s <;>
      exact absurd (hres.symm.trans h) (Option.some_ne_none _)
  · obtain ⟨hdigits, hlen, hnum⟩ := hexNumber_digits v.toNat_lt rfl
    rw [hread, toList_toHexString]
    simp only [stripHexChars, List.dropPrefix?, beq_self_eq_true, if_true, Option.some_or,
      Option.getD_some]
    exact ⟨(charBytes_length hdigits).trans_le hlen, hdigits, hnum.symm⟩

theorem decode_leftpad_charBytes (cs : List Char) :
    Hex.decode ((charBytes cs).leftpad 64 48) = Hex.decode (charBytes (cs.leftpad 64 '0')) := by
  have hpad : (charBytes cs).leftpad 64 48
      = charBytes (List.replicate (64 - (charBytes cs).length) '0' ++ cs) := by
    have hzero : String.utf8EncodeChar '0' = [48] := by decide
    rw [List.leftpad, charBytes, charBytes, List.flatMap_append, List.flatMap_replicate, hzero,
      List.flatten_replicate_singleton]
  by_cases hdigits : HexDigits cs
  · rw [hpad, charBytes_length hdigits]
    rfl
  · -- some character is no digit, in whatever way the text is padded
    have hnone : ∀ n, Hex.decode (charBytes (List.replicate n '0' ++ cs)) = none := by
      intro n
      cases hdec : Hex.decode (charBytes (List.replicate n '0' ++ cs)) with
      | none => rfl
      | some bytes =>
        have hall := (decode_charBytes.mp hdec).1
        exact absurd (fun c hc => hall c (List.mem_append_right _ hc)) hdigits
    rw [hpad, List.leftpad, hnone, hnone]

/-- **`from_hex` of a text's bytes** is `from_hex` of the string, errors forgotten. -/
theorem fromHex_utf8 (s : String) :
    fromHex (utf8 s) = (fromHexString s).bind Except.toOption := by
  rw [utf8_eq_charBytes, fromHex, fromHexString, stripHex_charBytes]
  generalize stripHexChars s.toList = cs
  simp only [isEmpty_charBytes, decode_leftpad_charBytes]
  split
  · rfl
  split
  · rfl
  cases Hex.decode (charBytes (cs.leftpad 64 '0')) with
  | none => rfl
  | some bytes =>
    simp only [Option.bind_eq_bind, Option.bind_some]
    split <;> rfl

end U256

end Ivory
