import Ivory.Primitives.Uint

/-!
# Byte types, hashing and encodings of the primitives

`H256`, `Address`, `Signature`, `PublicKey` and `SecretKey` are fixed byte
arrays, `Bytes` is a byte vector.  Their encodings are the ones serde derives
for a format that is not human readable.

`keccak256` comes from outside the repository.  It is a parameter of the whole
development: a class with one function and no law.  What a theorem needs of it
is stated where it is needed, on the encodings that occur there
(`CollisionFree`), since no function into 32 bytes is injective.
-/

namespace Ivory

/-- A 32-byte hash. -/
abbrev H256 := Arr UInt8 32

/-- A 20-byte account address. -/
abbrev Address := Arr UInt8 20

/-- A 64-byte Ed25519 signature. -/
abbrev Signature := Arr UInt8 64

/-- A 32-byte Ed25519 verifying key. -/
abbrev PublicKey := Arr UInt8 32

/-- A 32-byte Ed25519 secret key. -/
abbrev SecretKey := Arr UInt8 32

/-- A byte vector. -/
abbrev Bytes := Vec UInt8

-- Hashes and addresses are keys of tables and members of lists: the laws of their order and of
-- their equality have names of their own.

instance : Std.TransOrd H256 := inferInstanceAs (Std.TransOrd (Arr UInt8 32))

instance : Std.TransOrd Address := inferInstanceAs (Std.TransOrd (Arr UInt8 20))

instance : LawfulBEq H256 := inferInstanceAs (LawfulBEq (Arr UInt8 32))

instance : LawfulBEq Address := inferInstanceAs (LawfulBEq (Arr UInt8 20))

/-- `H256::ZERO`. -/
def H256.zero : H256 := Arr.replicate 32 0

/-- `Address::zero()`. -/
def Address.zero : Address := Arr.replicate 20 0

/-- `Address::from_h256`: the last twenty bytes. -/
def Address.fromH256 (h : H256) : Address :=
  ⟨h.toList.drop 12, by rw [List.length_drop, h.size]⟩

/-! ### Keccak-256 -/

/-- The hash function of the `sha3` crate. -/
class Keccak where
  digest : List UInt8 → H256

section Hashing

variable [Keccak]

/-- `keccak256(data)`. -/
def keccak256 (data : List UInt8) : H256 := Keccak.digest data

/-- No two of the byte strings in `S` have the same hash. -/
def CollisionFree (S : Set (List UInt8)) : Prop := Set.InjOn keccak256 S

theorem CollisionFree.mono {S T : Set (List UInt8)} (h : CollisionFree T) (hs : S ⊆ T) :
    CollisionFree S := Set.InjOn.mono hs h

theorem CollisionFree.of_list {S : Set (List UInt8)} {l : List (List UInt8)}
    (h : ∀ x ∈ l, ∀ y ∈ l, keccak256 x = keccak256 y → x = y) (hs : ∀ e ∈ S, e ∈ l) :
    CollisionFree S := fun x hx y hy => h x (hs x hx) y (hs y hy)

/-- `u64::to_be_bytes`. -/
def beBytes (w : UInt64) : List UInt8 := (leBytes 8 w.toNat).reverse

/-- `Address::create`: `keccak256(sender || nonce_be)[12:]`. -/
def Address.create (sender : Address) (nonce : UInt64) : Address :=
  Address.fromH256 (keccak256 (sender.toList ++ beBytes nonce))

/-- `keccak256(bincode(value))`. -/
def keccakBincode {α : Type} (c : Codec α) (value : α) : H256 := keccak256 (c.encode value)

end Hashing

/-! ### Encodings -/

namespace U256

/-- `to_be_bytes`. -/
def toBeBytes (x : U256) : Arr UInt8 32 :=
  ⟨x.limbs.reverse.flatMap beBytes, by
    have h : ∀ l : List UInt64, (l.flatMap beBytes).length = 8 * l.length := by
      intro l
      induction l with
      | nil => rfl
      | cons a l ih => simp [beBytes, ih]; omega
    rw [h, List.length_reverse, x.size]⟩

/-- `from_be_bytes`. -/
def fromBeBytes (bytes : Arr UInt8 32) : U256 :=
  ⟨(List.range 4).map fun i =>
    UInt64.ofNat (ofLeBytes ((bytes.toList.drop ((3 - i) * 8)).take 8).reverse), by simp⟩

theorem leBytes_value : ∀ l : List UInt64,
    leBytes (8 * l.length) (Limbs.value l) = l.flatMap fun w => leBytes 8 w.toNat := by
  intro l
  induction l with
  | nil => rfl
  | cons a l ih =>
    have ha : a.toNat < 256 ^ 8 := lt_of_lt_of_eq a.toNat_lt (by norm_num)
    rw [Limbs.value_cons, List.length_cons, List.flatMap_cons, ← ih, ← leBytes_add _ _ ha,
      show 8 * (l.length + 1) = 8 + 8 * l.length by omega]
    norm_num

theorem value_groups : ∀ (n : ℕ) (bytes : List UInt8), bytes.length = 8 * n →
    Limbs.value ((List.range n).map fun i =>
      UInt64.ofNat (ofLeBytes ((bytes.drop (i * 8)).take 8))) = ofLeBytes bytes := by
  intro n
  induction n with
  | zero =>
    intro bytes h
    rw [List.length_eq_zero_iff.mp h]
    rfl
  | succ n ih =>
    intro bytes h
    have hfirst : (bytes.take 8).length = 8 := by
      rw [List.length_take]
      omega
    have hword : (UInt64.ofNat (ofLeBytes (bytes.take 8))).toNat = ofLeBytes (bytes.take 8) := by
      have hlt := ofLeBytes_lt (bytes.take 8)
      rw [hfirst] at hlt
      exact UInt64.toNat_ofNat_of_le (by omega)
    have hrest := ih (bytes.drop 8) (by rw [List.length_drop]; omega)
    -- the groups after the first are those of the bytes after the first eight
    have hgroups : ∀ i, bytes.drop ((i + 1) * 8) = (bytes.drop 8).drop (i * 8) := by
      intro i
      rw [List.drop_drop, Nat.succ_mul, Nat.add_comm]
    rw [List.range_succ_eq_map, List.map_cons, List.map_map, Limbs.value_cons, Nat.zero_mul,
      List.drop_zero, hword]
    simp only [Function.comp_def, Nat.succ_eq_add_one, hgroups]
    have hsplit := ofLeBytes_append (bytes.take 8) (bytes.drop 8)
    rw [List.take_append_drop, hfirst] at hsplit
    rw [hrest, hsplit]
    norm_num

/-! The least significant byte first. -/

/-- `to_le_bytes`. -/
def toLeBytes (x : U256) : Arr UInt8 32 :=
  ⟨x.limbs.flatMap fun w => leBytes 8 w.toNat, by
    rw [← leBytes_value, leBytes_length, x.size]⟩

/-- `from_le_bytes`. -/
def fromLeBytes (bytes : Arr UInt8 32) : U256 :=
  ⟨(List.range 4).map fun i => UInt64.ofNat (ofLeBytes ((bytes.toList.drop (i * 8)).take 8)),
    by simp⟩

theorem toList_toLeBytes (x : U256) : x.toLeBytes.toList = leBytes 32 x.toNat := by
  have h := leBytes_value x.limbs
  rw [x.size] at h
  exact h.symm

theorem toNat_fromLeBytes_eq (bytes : Arr UInt8 32) :
    (fromLeBytes bytes).toNat = ofLeBytes bytes.toList :=
  value_groups 4 bytes.toList bytes.size

theorem ofLeBytes_leBytes_toNat (x : U256) : ofLeBytes (leBytes 32 x.toNat) = x.toNat :=
  ofLeBytes_leBytes 32 _ (lt_of_lt_of_eq x.toNat_lt (by norm_num))

theorem fromLeBytes_toLeBytes (x : U256) : fromLeBytes x.toLeBytes = x := by
  rw [← toNat_inj, toNat_fromLeBytes_eq, toList_toLeBytes, ofLeBytes_leBytes_toNat]

theorem toLeBytes_fromLeBytes (bytes : Arr UInt8 32) : (fromLeBytes bytes).toLeBytes = bytes := by
  refine Arr.ext ?_
  have h := leBytes_ofLeBytes bytes.toList
  rw [bytes.size] at h
  rw [toList_toLeBytes, toNat_fromLeBytes_eq, h]

/-! The most significant byte first: the same bytes backwards. -/

theorem toList_toBeBytes (x : U256) : x.toBeBytes.toList = (leBytes 32 x.toNat).reverse := by
  have h := leBytes_value x.limbs
  rw [x.size] at h
  rw [toNat, h, List.reverse_flatMap]
  rfl

theorem fromBeBytes_eq (bytes : Arr UInt8 32) : fromBeBytes bytes
    = fromLeBytes ⟨bytes.toList.reverse, by rw [List.length_reverse, bytes.size]⟩ := by
  have hgroup : ∀ i < 4, ((bytes.toList.drop ((3 - i) * 8)).take 8).reverse
      = (bytes.toList.reverse.drop (i * 8)).take 8 := by
    intro i hi
    have hlen : (bytes.toList.take (32 - i * 8)).length = 32 - i * 8 := by
      rw [List.length_take, bytes.size]
      omega
    rw [List.drop_reverse, List.take_reverse, bytes.size, hlen, List.take_drop,
      show (3 - i) * 8 + 8 = 32 - i * 8 by omega, show 32 - i * 8 - 8 = (3 - i) * 8 by omega]
  simp only [fromBeBytes, fromLeBytes, U256.mk.injEq]
  refine List.map_congr_left fun i hi => ?_
  rw [hgroup i (List.mem_range.mp hi)]

theorem toNat_fromBeBytes_eq (bytes : Arr UInt8 32) :
    (fromBeBytes bytes).toNat = ofLeBytes bytes.toList.reverse := by
  rw [fromBeBytes_eq, toNat_fromLeBytes_eq]

theorem fromBeBytes_toBeBytes (x : U256) : fromBeBytes x.toBeBytes = x := by
  rw [← toNat_inj, toNat_fromBeBytes_eq, toList_toBeBytes, List.reverse_reverse,
    ofLeBytes_leBytes_toNat]

theorem toBeBytes_fromBeBytes (bytes : Arr UInt8 32) : (fromBeBytes bytes).toBeBytes = bytes := by
  refine Arr.ext ?_
  have h := leBytes_ofLeBytes bytes.toList.reverse
  rw [List.length_reverse, bytes.size] at h
  rw [toList_toBeBytes, toNat_fromBeBytes_eq, h, List.reverse_reverse]

/-- `U256` as its 32 big-endian bytes. -/
def codec : Codec U256 := (Codec.byte.array 32).map fromBeBytes toBeBytes fromBeBytes_toBeBytes

end U256

/-- The fixed-size byte types: the bytes, with no length. -/
def fixedCodec (n : ℕ) : Codec (Arr UInt8 n) := Codec.byte.array n

/-- `Bytes`: a 64-bit length and the bytes. -/
def bytesCodec : Codec Bytes := Codec.byte.vec

end Ivory
