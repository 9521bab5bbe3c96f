import Ivory.Base.Sequence

/-!
# Byte codecs

A `Codec α` writes a value as bytes and reads it back from the front of a byte
string, leaving what follows.  The one law `decode_encode` is all that is ever
needed of it: it makes the encoding injective (`encode_injective`), and it
makes two encodings followed by anything else split in the same place
(`encode_append_inj`).

The combinators follow the fixed-width little-endian layout that serde derives
for `bincode` 1.x: a word is its bytes from the least significant one, an array
is its elements, an option is a tag byte and its payload, a vector is a
64-bit length and its elements, a structure is its fields in order.
-/

/-- A self-delimiting byte encoding of `α`. -/
structure Codec (α : Type) where
  encode : α → List UInt8
  decode : List UInt8 → Option (α × List UInt8)
  decode_encode : ∀ (a : α) (rest : List UInt8), decode (encode a ++ rest) = some (a, rest)

/-! ### Little-endian numbers -/

/-- The `k` low bytes of `n`, the least significant first. -/
def leBytes : ℕ → ℕ → List UInt8
  | 0, _ => []
  | k + 1, n => UInt8.ofNat (n % 256) :: leBytes k (n / 256)

/-- The number a little-endian byte string spells. -/
def ofLeBytes : List UInt8 → ℕ
  | [] => 0
  | b :: bs => b.toNat + 256 * ofLeBytes bs

@[simp] theorem leBytes_length : ∀ k n : ℕ, (leBytes k n).length = k := by
  intro k
  induction k with
  | zero => intro n; rfl
  | succ k ih => intro n; simp [leBytes, ih]

theorem ofLeBytes_leBytes : ∀ k n : ℕ, n < 256 ^ k → ofLeBytes (leBytes k n) = n := by
  intro k
  induction k with
  | zero =>
    intro n h
    have hz : n = 0 := by simpa using h
    subst hz
    rfl
  | succ k ih =>
    intro n h
    have hq : n / 256 < 256 ^ k := by
      rw [Nat.div_lt_iff_lt_mul (by norm_num)]
      rwa [pow_succ] at h
    have hb : (UInt8.ofNat (n % 256)).toNat = n % 256 := by
      rw [UInt8.toNat_ofNat']
      exact Nat.mod_eq_of_lt (Nat.mod_lt _ (by norm_num))
    rw [leBytes, ofLeBytes, hb, ih _ hq]
    exact Nat.mod_add_div n 256

theorem leBytes_add (k m : ℕ) : ∀ {j n : ℕ}, n < 256 ^ j →
    leBytes (j + k) (n + 256 ^ j * m) = leBytes j n ++ leBytes k m := by
  intro j
  induction j with
  | zero =>
    intro n h
    have hz : n = 0 := by simpa using h
    subst hz
    simp [leBytes]
  | succ j ih =>
    intro n h
    have hq : n / 256 < 256 ^ j := by
      rw [Nat.div_lt_iff_lt_mul (by norm_num)]
      rwa [pow_succ] at h
    have hsplit : n + 256 ^ (j + 1) * m = n + 256 * (256 ^ j * m) := by ring
    rw [show j + 1 + k = (j + k) + 1 by omega, leBytes, leBytes, hsplit, Nat.add_mul_mod_self_left,
      Nat.add_mul_div_left _ _ (by norm_num), ih hq, List.cons_append]

theorem ofLeBytes_lt : ∀ bs : List UInt8, ofLeBytes bs < 256 ^ bs.length := by
  intro bs
  induction bs with
  | nil => simp [ofLeBytes]
  | cons b bs ih =>
    have hb : b.toNat < 256 := b.toNat_lt
    rw [ofLeBytes, List.length_cons, pow_succ]
    omega

theorem ofLeBytes_append (as bs : List UInt8) :
    ofLeBytes (as ++ bs) = ofLeBytes as + 256 ^ as.length * ofLeBytes bs := by
  induction as with
  | nil => simp [ofLeBytes]
  | cons a as ih =>
    rw [List.cons_append, ofLeBytes, ih, ofLeBytes, List.length_cons, pow_succ]
    ring

theorem leBytes_ofLeBytes (bs : List UInt8) : leBytes bs.length (ofLeBytes bs) = bs := by
  induction bs with
  | nil => rfl
  | cons b bs ih =>
    have hb : b.toNat < 256 := b.toNat_lt
    have hmod : (b.toNat + 256 * ofLeBytes bs) % 256 = b.toNat := by omega
    have hdiv : (b.toNat + 256 * ofLeBytes bs) / 256 = ofLeBytes bs := by omega
    rw [ofLeBytes, List.length_cons, leBytes, hmod, hdiv, ih, UInt8.ofNat_toNat]

namespace Codec

variable {α β γ : Type}

/-! ### What the law gives -/

/-- **Two encodings followed by anything split in the same place.** -/
theorem encode_append_inj (c : Codec α) {a b : α} {r s : List UInt8}
    (h : c.encode a ++ r = c.encode b ++ s) : a = b ∧ r = s := by
  have ha := c.decode_encode a r
  rw [h, c.decode_encode b s, Option.some.injEq, Prod.mk.injEq] at ha
  exact ⟨ha.1.symm, ha.2.symm⟩

theorem encode_injective (c : Codec α) : Function.Injective c.encode := by
  intro a b h
  have h' : c.encode a ++ [] = c.encode b ++ [] := by rw [h]
  exact (c.encode_append_inj h').1

theorem encode_prefix_inj (c : Codec α) {a b : α} (h : c.encode a <+: c.encode b) : a = b := by
  obtain ⟨r, hr⟩ := h
  have h' : c.encode a ++ r = c.encode b ++ [] := by rw [hr, List.append_nil]
  exact (c.encode_append_inj h').1

/-- `bincode::deserialize`: bytes after the value are ignored. -/
def deserialize (c : Codec α) (bytes : List UInt8) : Option α := (c.decode bytes).map Prod.fst

theorem deserialize_encode_append (c : Codec α) (a : α) (rest : List UInt8) :
    c.deserialize (c.encode a ++ rest) = some a := by
  rw [deserialize, c.decode_encode]
  rfl

theorem deserialize_encode (c : Codec α) (a : α) : c.deserialize (c.encode a) = some a := by
  rw [← List.append_nil (c.encode a), c.deserialize_encode_append]

/-- Every value is read back from its bytes, whatever follows them, and no encoding starts
another one. -/
structure Unambiguous (c : Codec α) : Prop where
  roundTrip : ∀ (a : α) (rest : List UInt8), c.deserialize (c.encode a ++ rest) = some a
  prefixFree : ∀ a b, c.encode a <+: c.encode b → a = b
  injective : Function.Injective c.encode

theorem unambiguous (c : Codec α) : c.Unambiguous :=
  ⟨c.deserialize_encode_append, fun _ _ => c.encode_prefix_inj, c.encode_injective⟩

/-! ### Combinators -/

/-- One byte. -/
def byte : Codec UInt8 where
  encode b := [b]
  decode
    | [] => none
    | b :: rest => some (b, rest)
  decode_encode _ _ := rfl

/-- A structure: one field after the other. -/
def pair (c : Codec α) (d : Codec β) : Codec (α × β) where
  encode p := c.encode p.1 ++ d.encode p.2
  decode bytes := do
    let (a, rest) ← c.decode bytes
    let (b, rest) ← d.decode rest
    some ((a, b), rest)
  decode_encode := by
    rintro ⟨a, b⟩ rest
    simp [List.append_assoc, c.decode_encode, d.decode_encode]

/-- Read the fields of one variant of an `enum`. -/
def decodeVariant (c : Codec α) (make : α → β) (bytes : List UInt8) : Option (β × List UInt8) :=
  (c.decode bytes).map fun p => (make p.1, p.2)

@[simp] theorem decodeVariant_encode (c : Codec α) (make : α → β) (a : α) (rest : List UInt8) :
    c.decodeVariant make (c.encode a ++ rest) = some (make a, rest) := by
  rw [decodeVariant, c.decode_encode]
  rfl

/-- The encoding of `β` as those values of `α` that `f` accepts. -/
def refine (c : Codec α) (f : α → Option β) (g : β → α) (h : ∀ b, f (g b) = some b) :
    Codec β where
  encode b := c.encode (g b)
  decode bytes := do
    let (a, rest) ← c.decode bytes
    let b ← f a
    some (b, rest)
  decode_encode := by
    intro b rest
    simp [c.decode_encode, h]

/-- The encoding of `β` through a representation in `α`. -/
def map (c : Codec α) (f : α → β) (g : β → α) (h : ∀ b, f (g b) = b) : Codec β :=
  c.refine (fun a => some (f a)) g (fun b => by rw [h])

@[simp] theorem encode_pair (c : Codec α) (d : Codec β) (p : α × β) :
    (c.pair d).encode p = c.encode p.1 ++ d.encode p.2 := rfl

@[simp] theorem encode_refine (c : Codec α) (f : α → Option β) (g : β → α)
    (h : ∀ b, f (g b) = some b) (b : β) : (c.refine f g h).encode b = c.encode (g b) := rfl

@[simp] theorem encode_map (c : Codec α) (f : α → β) (g : β → α) (h : ∀ b, f (g b) = b) (b : β) :
    (c.map f g h).encode b = c.encode (g b) := rfl

/-! ### Repetition -/

/-- Read `n` values in a row. -/
def decodeN (c : Codec α) : ℕ → List UInt8 → Option (List α × List UInt8)
  | 0, bytes => some ([], bytes)
  | n + 1, bytes => do
    let (a, rest) ← c.decode bytes
    let (as, rest) ← decodeN c n rest
    some (a :: as, rest)

theorem decodeN_flatMap (c : Codec α) : ∀ (l : List α) (rest : List UInt8),
    c.decodeN l.length (l.flatMap c.encode ++ rest) = some (l, rest) := by
  intro l rest
  induction l with
  | nil => rfl
  | cons a l ih => simp [decodeN, List.append_assoc, c.decode_encode, ih]

theorem decodeN_length (c : Codec α) : ∀ {n : ℕ} {bytes rest : List UInt8} {l : List α},
    c.decodeN n bytes = some (l, rest) → l.length = n := by
  intro n
  induction n with
  | zero =>
    intro bytes rest l h
    cases h
    rfl
  | succ n ih =>
    intro bytes rest l h
    simp only [decodeN, Option.bind_eq_bind, Option.bind_eq_some_iff, Option.some.injEq,
      Prod.mk.injEq] at h
    obtain ⟨p, -, q, hq, rfl, -⟩ := h
    rw [List.length_cons, ih hq]

theorem decodeN_byte : ∀ (n : ℕ) (bytes : List UInt8), byte.decodeN n bytes
    = if n ≤ bytes.length then some (bytes.take n, bytes.drop n) else none := by
  intro n
  induction n with
  | zero => intro bytes; simp [decodeN]
  | succ n ih =>
    intro bytes
    cases bytes with
    | nil => simp [decodeN, byte]
    | cons b bytes =>
      simp only [decodeN, byte, Option.bind_eq_bind, Option.bind_some, List.length_cons,
        Nat.add_le_add_iff_right, List.take_succ_cons, List.drop_succ_cons]
      have hrest := ih bytes
      simp only [byte] at hrest
      rw [hrest]
      split <;> rfl

/-- `[T; N]`, as a tuple: the elements with no length. -/
def array (c : Codec α) (n : ℕ) : Codec (Arr α n) where
  encode a := a.toList.flatMap c.encode
  decode bytes := do
    let (l, rest) ← c.decodeN n bytes
    if h : l.length = n then some (⟨l, h⟩, rest) else none
  decode_encode := by
    rintro ⟨l, h⟩ rest
    subst h
    simp [c.decodeN_flatMap]

@[simp] theorem encode_array_byte {n : ℕ} (a : Arr UInt8 n) : (byte.array n).encode a = a.toList :=
  List.flatMap_singleton' a.toList

theorem decode_array_byte (n : ℕ) (bytes : List UInt8) : (byte.array n).decode bytes
    = if h : n ≤ bytes.length then some (⟨bytes.take n, by simp [h]⟩, bytes.drop n) else none := by
  simp only [array, decodeN_byte]
  split <;> simp_all

/-- Eight little-endian bytes. -/
def word64 : Codec UInt64 :=
  (byte.array 8).map (fun a => UInt64.ofNat (ofLeBytes a.toList))
    (fun w => ⟨leBytes 8 w.toNat, leBytes_length 8 _⟩)
    (fun w => by
      have hw : w.toNat < 256 ^ 8 := by
        have := w.toNat_lt
        norm_num
        omega
      show UInt64.ofNat (ofLeBytes (leBytes 8 w.toNat)) = w
      rw [ofLeBytes_leBytes 8 _ hw]
      exact UInt64.ofNat_toNat)

theorem encode_word64 (w : UInt64) : word64.encode w = leBytes 8 w.toNat :=
  encode_array_byte (n := 8) _

/-- Four little-endian bytes. -/
def word32 : Codec UInt32 :=
  (byte.array 4).map (fun a => UInt32.ofNat (ofLeBytes a.toList))
    (fun w => ⟨leBytes 4 w.toNat, leBytes_length 4 _⟩)
    (fun w => by
      have hw : w.toNat < 256 ^ 4 := by
        have := w.toNat_lt
        norm_num
        omega
      show UInt32.ofNat (ofLeBytes (leBytes 4 w.toNat)) = w
      rw [ofLeBytes_leBytes 4 _ hw]
      exact UInt32.ofNat_toNat)

/-- Two little-endian bytes. -/
def word16 : Codec UInt16 :=
  (byte.array 2).map (fun a => UInt16.ofNat (ofLeBytes a.toList))
    (fun w => ⟨leBytes 2 w.toNat, leBytes_length 2 _⟩)
    (fun w => by
      have hw : w.toNat < 256 ^ 2 := by
        have := w.toNat_lt
        norm_num
        omega
      show UInt16.ofNat (ofLeBytes (leBytes 2 w.toNat)) = w
      rw [ofLeBytes_leBytes 2 _ hw]
      exact UInt16.ofNat_toNat)

theorem encode_word16 (w : UInt16) : word16.encode w = leBytes 2 w.toNat :=
  encode_array_byte (n := 2) _

theorem decode_word64 (bytes : List UInt8) : word64.decode bytes
    = if 8 ≤ bytes.length then some (UInt64.ofNat (ofLeBytes (bytes.take 8)), bytes.drop 8)
      else none := by
  simp only [word64, map, refine, decode_array_byte]
  split <;> rfl

theorem decode_word16 (bytes : List UInt8) : word16.decode bytes
    = if 2 ≤ bytes.length then some (UInt16.ofNat (ofLeBytes (bytes.take 2)), bytes.drop 2)
      else none := by
  simp only [word16, map, refine, decode_array_byte]
  split <;> rfl

/-- `Vec<T>`: a 64-bit length and the elements. -/
def vec (c : Codec α) : Codec (Vec α) where
  encode v := word64.encode (UInt64.ofNat v.toList.length) ++ v.toList.flatMap c.encode
  decode bytes := do
    let (n, rest) ← word64.decode bytes
    let (l, rest) ← c.decodeN n.toNat rest
    if h : l.length < 2 ^ 64 then some (⟨l, h⟩, rest) else none
  decode_encode := by
    rintro ⟨l, h⟩ rest
    have hn : (UInt64.ofNat l.length).toNat = l.length := by
      rw [UInt64.toNat_ofNat']
      exact Nat.mod_eq_of_lt h
    simpa [List.append_assoc, word64.decode_encode, hn, c.decodeN_flatMap] using h

theorem decode_vec {c : Codec α} {bytes rest : List UInt8} {v : Vec α} :
    c.vec.decode bytes = some (v, rest) ↔ ∃ n bytes', word64.decode bytes = some (n, bytes')
      ∧ c.decodeN n.toNat bytes' = some (v.toList, rest) := by
  simp only [vec, Option.bind_eq_bind, Option.bind_eq_some_iff, Prod.exists]
  constructor
  · rintro ⟨n, bytes', hn, l, rest', hl, h⟩
    split at h
    · cases h
      exact ⟨n, bytes', hn, hl⟩
    · cases h
  · rintro ⟨n, bytes', hn, hl⟩
    exact ⟨n, bytes', hn, v.toList, rest, hl, dif_pos v.size_lt⟩

/-- A `bool`: any tag but `0` and `1` is refused. -/
def bool : Codec Bool :=
  byte.refine (fun b => if b = 0 then some false else if b = 1 then some true else none)
    (fun b => if b then 1 else 0) (fun b => by cases b <;> rfl)

/-- `Option<T>`: a tag byte, and the value behind the tag `1`. -/
def option (c : Codec α) : Codec (Option α) where
  encode
    | none => [0]
    | some a => 1 :: c.encode a
  decode
    | [] => none
    | tag :: rest =>
      if tag = 0 then some (none, rest)
      else if tag = 1 then (c.decode rest).map (fun p => (some p.1, p.2))
      else none
  decode_encode := by
    intro o rest
    cases o with
    | none => rfl
    | some a => simp [c.decode_encode]

/-! ### Codes that use every string -/

/-- Every string of `n` bytes is an encoding. -/
def Full (c : Codec α) (n : ℕ) : Prop :=
  ∀ bytes : List UInt8, bytes.length = n → ∃ a, c.encode a = bytes

theorem full_array_byte (n : ℕ) : (byte.array n).Full n := fun bytes h =>
  ⟨⟨bytes, h⟩, encode_array_byte _⟩

theorem Full.pair {c : Codec α} {d : Codec β} {m n : ℕ} (hc : c.Full m) (hd : d.Full n) :
    (c.pair d).Full (m + n) := by
  intro bytes h
  obtain ⟨a, ha⟩ := hc (bytes.take m) (by rw [List.length_take]; omega)
  obtain ⟨b, hb⟩ := hd (bytes.drop m) (by rw [List.length_drop]; omega)
  exact ⟨(a, b), by rw [encode_pair, ha, hb, List.take_append_drop]⟩

theorem Full.map {c : Codec α} {n : ℕ} (hc : c.Full n) {f : α → β} {g : β → α}
    (h : ∀ b, f (g b) = b) (hinv : ∀ a, g (f a) = a) : (c.map f g h).Full n := by
  intro bytes hlen
  obtain ⟨a, ha⟩ := hc bytes hlen
  exact ⟨f a, by rw [encode_map, hinv, ha]⟩

theorem full_word64 : word64.Full 8 := by
  refine (full_array_byte 8).map _ fun a => Arr.ext ?_
  have hlt : ofLeBytes a.toList < 2 ^ 64 := by
    have h := ofLeBytes_lt a.toList
    rw [a.size] at h
    norm_num at h
    exact h
  have hback := leBytes_ofLeBytes a.toList
  rw [a.size] at hback
  show leBytes 8 (UInt64.ofNat (ofLeBytes a.toList)).toNat = a.toList
  rw [UInt64.toNat_ofNat_of_lt' hlt, hback]

end Codec
