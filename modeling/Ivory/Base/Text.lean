import Ivory.Base.Codec

/-!
# Texts

`utf8` and `ofUtf8` go between a string and its UTF-8 bytes.  `Text` is the Rust
`String`: the bytes fit in a vector.  It is encoded as that vector, and bytes
that are not UTF-8 are refused.

* `Codec.decode_text`: what is read as a text.
-/

/-- The UTF-8 bytes of a string. -/
def utf8 (s : String) : List UInt8 := s.toByteArray.data.toList

/-- The string that the bytes spell, if they are UTF-8. -/
def ofUtf8 (bytes : List UInt8) : Option String := String.fromUTF8? ⟨bytes.toArray⟩

@[simp] theorem ofUtf8_utf8 (s : String) : ofUtf8 (utf8 s) = some s := by
  have hbytes : (⟨(utf8 s).toArray⟩ : ByteArray) = s.toByteArray := by
    rw [utf8, Array.toArray_toList]
  rw [ofUtf8, hbytes, String.fromUTF8?, dif_pos s.isValidUTF8]
  rfl

theorem utf8_of_ofUtf8 {bytes : List UInt8} {s : String} (h : ofUtf8 bytes = some s) :
    utf8 s = bytes := by
  rw [ofUtf8, String.fromUTF8?] at h
  split at h
  · cases h
    rfl
  · cases h

/-- The Rust `String`. -/
structure Text where
  str : String
  size_lt : (utf8 str).length < 2 ^ 64
deriving DecidableEq

namespace Codec

/-- `String`: the vector of its bytes. -/
def text : Codec Text :=
  byte.vec.refine
    (fun v => (ofUtf8 v.toList).bind fun s =>
      if h : (utf8 s).length < 2 ^ 64 then some ⟨s, h⟩ else none)
    (fun t => ⟨utf8 t.str, t.size_lt⟩)
    (fun t => by rw [ofUtf8_utf8, Option.bind_some, dif_pos t.size_lt])

theorem encode_text (t : Text) :
    text.encode t = leBytes 8 (utf8 t.str).length ++ utf8 t.str := by
  have hlen : (UInt64.ofNat (utf8 t.str).length).toNat = (utf8 t.str).length := by
    rw [UInt64.toNat_ofNat']
    exact Nat.mod_eq_of_lt t.size_lt
  rw [text, encode_refine]
  show word64.encode _ ++ (utf8 t.str).flatMap byte.encode = _
  rw [encode_word64, hlen]
  exact congrArg _ (List.flatMap_singleton' _)

/-- **What is read as a text**: a length, and as many bytes, which are UTF-8. -/
theorem decode_text {bytes rest : List UInt8} {t : Text} : text.decode bytes = some (t, rest) ↔
    ∃ n bytes', word64.decode bytes = some (n, bytes') ∧ n.toNat ≤ bytes'.length
      ∧ ofUtf8 (bytes'.take n.toNat) = some t.str ∧ rest = bytes'.drop n.toNat := by
  simp only [text, refine, Option.bind_eq_bind, Option.bind_eq_some_iff, Prod.exists,
    decode_vec, decodeN_byte]
  constructor
  · rintro ⟨v, rest', ⟨n, bytes', hn, hv⟩, t', ⟨s, hs, ht⟩, h⟩
    cases h
    split at hv
    · next hle =>
      split at ht
      · cases ht
        obtain ⟨hv, hrest⟩ := Prod.mk.inj (Option.some.inj hv)
        rw [← hv] at hs
        exact ⟨n, bytes', hn, hle, hs, hrest.symm⟩
      · cases ht
    · cases hv
  · rintro ⟨n, bytes', hn, hle, hs, rfl⟩
    have hlen : (bytes'.take n.toNat).length < 2 ^ 64 := by
      have := n.toNat_lt
      rw [List.length_take]
      omega
    exact ⟨⟨_, hlen⟩, _, ⟨n, bytes', hn, by rw [if_pos hle]⟩, t,
      ⟨t.str, hs, dif_pos t.size_lt⟩, rfl⟩

end Codec
