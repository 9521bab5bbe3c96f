import Ivory.Base.Readers
import Ivory.Crypto
import Ivory.Quant

/-!
# The Python client

`codec.py` of the Python SDK writes transactions and envelopes by hand in the
layout that the node derives, and reads envelopes by hand.  Integers are
unbounded; a conversion to bytes raises outside its range.  A slice of a
memoryview ends where the view ends, and nothing is raised.

The hash is Keccak-256 on both sides.  The signing library is another one than
the node's; all that matters here is that it returns a key and a signature.

* `encodes_alike`: **both sides write the same bytes**, so they hash and sign the
  same, and the node reads back what the client wrote.
* `takeFields_follows`: up to the optional fields the client reads what the node
  reads, or raises, or is at the end of the input.
* `decodeEnvelope_agrees_iff`: **both sides accept the same input exactly if it is not
  `Lax`**.  The client takes any tag but `1` for none, and a last string that is cut
  off for what is left of it: `Devnet.lax_options`.
-/

namespace Ivory.PythonClient

/-- The exceptions of `codec.py` and of the functions it calls. -/
inductive PyError
  | structError
  | indexError
  | unicodeError
  | overflowError
  | valueError (message : String)
deriving DecidableEq

/-- The functions of `nacl.signing.SigningKey`. -/
class SigningKey where
  /-- `SigningKey(sk).verify_key.encode()`. -/
  verifyKey : SecretKey → PublicKey
  /-- `SigningKey(sk).sign(message).signature`. -/
  sign : SecretKey → List UInt8 → Signature

/-! ### Writing -/

/-- `bytes([n])`. -/
def u8 (n : ℤ) : Except PyError (List UInt8) :=
  if 0 ≤ n ∧ n < 256 then .ok [UInt8.ofNat n.toNat]
  else .error (.valueError "bytes must be in range(0, 256)")

/-- `struct.pack` of an unsigned little-endian integer. -/
def pack (width : ℕ) (n : ℤ) : Except PyError (List UInt8) :=
  if 0 ≤ n ∧ n < 256 ^ width then .ok (leBytes width n.toNat) else .error .structError

/-- `struct.pack("<H", n)`. -/
def u16 : ℤ → Except PyError (List UInt8) := pack 2

/-- `struct.pack("<Q", n)`. -/
def u64 : ℤ → Except PyError (List UInt8) := pack 8

/-- `n.to_bytes(32, "big")`. -/
def toBytes32 (n : ℤ) : Except PyError (List UInt8) :=
  if 0 ≤ n ∧ n < 2 ^ 256 then .ok (leBytes 32 n.toNat).reverse else .error .overflowError

/-- `encode_bytes`. -/
def encodeBytes (data : List UInt8) : Except PyError (List UInt8) := do
  let len ← u64 data.length
  .ok (len ++ data)

/-- `encode_str`. -/
def encodeStr (s : String) : Except PyError (List UInt8) := encodeBytes (utf8 s)

/-- `encode_option_bytes`. -/
def encodeOptionBytes : Option (List UInt8) → Except PyError (List UInt8)
  | none => u8 0
  | some data => do
    let tag ← u8 1
    .ok (tag ++ data)

/-- The loop of `encode_envelope` over the metrics. -/
def encodeMetrics (body : List UInt8) (metrics : List (String × String)) :
    Except PyError (List UInt8) :=
  metrics.foldlM (fun body m => do
    let name ← encodeStr m.1
    let value ← encodeStr m.2
    .ok (body ++ (name ++ value))) body

/-- The branch of `encode_envelope` on the content address. -/
def encodeCid : Option String → Except PyError (List UInt8)
  | none => u8 0
  | some cid => do
    let tag ← u8 1
    let cid ← encodeStr cid
    .ok (tag ++ cid)

/-- `encode_envelope`. -/
def encodeEnvelope (decisionId schema : String) (metrics : List (String × String))
    (contentHash : Option (List UInt8)) (cid : Option String) (version : ℤ) :
    Except PyError (List UInt8) := do
  let version ← u16 version
  let decisionId ← encodeStr decisionId
  let schema ← encodeStr schema
  let count ← u64 metrics.length
  let body ← encodeMetrics (version ++ decisionId ++ schema ++ count) metrics
  let contentHash ← encodeOptionBytes contentHash
  let cid ← encodeCid cid
  .ok (quantMagic ++ (body ++ contentHash ++ cid))

/-- `encode_unsigned_tx`. -/
def encodeUnsignedTx (sender : List UInt8) (recipient : Option (List UInt8)) (value : ℤ)
    (data : List UInt8) (gasPrice gas nonce : ℤ) : Except PyError (List UInt8) := do
  let recipient ← encodeOptionBytes recipient
  let value ← toBytes32 value
  let data ← encodeBytes data
  let gasPrice ← toBytes32 gasPrice
  let gas ← u64 gas
  let nonce ← u64 nonce
  .ok (sender ++ recipient ++ value ++ data ++ gasPrice ++ gas ++ nonce)

section Hashing

variable [Keccak] [SigningKey]

/-- `address_from_pubkey`. -/
def addressFromPubkey (pk : List UInt8) : List UInt8 := (keccak256 pk).toList.drop 12

/-- `encode_signed_tx`: the hash and the payload. -/
def encodeSignedTx (sk : SecretKey) (recipient : Option (List UInt8)) (nonce value gas gasPrice : ℤ)
    (data : List UInt8) : Except PyError (List UInt8 × List UInt8) := do
  let pk := SigningKey.verifyKey sk
  let sender := addressFromPubkey pk.toList
  let unsigned ← encodeUnsignedTx sender recipient value data gasPrice gas nonce
  let signingHash := keccak256 unsigned
  let sig := SigningKey.sign sk signingHash.toList
  let payload := unsigned ++ sig.toList ++ pk.toList
  .ok ((keccak256 payload).toList, payload)

end Hashing

/-! ### Both sides write alike -/

theorem pack_eq {width n : ℕ} (h : n < 256 ^ width) : pack width n = .ok (leBytes width n) := by
  have hrange : (0 : ℤ) ≤ n ∧ (n : ℤ) < 256 ^ width := ⟨Int.natCast_nonneg n, by exact_mod_cast h⟩
  rw [pack, if_pos hrange, Int.toNat_natCast]

theorem u64_eq {n : ℕ} (h : n < 2 ^ 64) : u64 n = .ok (leBytes 8 n) :=
  pack_eq (lt_of_lt_of_eq h (by norm_num))

theorem u64_word (w : UInt64) : u64 w.toNat = .ok (Codec.word64.encode w) := by
  rw [u64_eq w.toNat_lt, Codec.encode_word64]

theorem u16_word (w : UInt16) : u16 w.toNat = .ok (Codec.word16.encode w) := by
  rw [Codec.encode_word16]
  exact pack_eq (lt_of_lt_of_eq w.toNat_lt (by norm_num))

theorem toBytes32_u256 (x : U256) : toBytes32 x.toNat = .ok (U256.codec.encode x) := by
  have hrange : (0 : ℤ) ≤ x.toNat ∧ (x.toNat : ℤ) < 2 ^ 256 :=
    ⟨Int.natCast_nonneg _, by exact_mod_cast x.toNat_lt⟩
  rw [toBytes32, if_pos hrange, Int.toNat_natCast, U256.codec, Codec.encode_map,
    Codec.encode_array_byte, U256.toList_toBeBytes]

theorem encodeBytes_bytes (data : Bytes) :
    encodeBytes data.toList = .ok (bytesCodec.encode data) := by
  have hlen : (UInt64.ofNat data.toList.length).toNat = data.toList.length := by
    rw [UInt64.toNat_ofNat']
    exact Nat.mod_eq_of_lt data.size_lt
  have henc : bytesCodec.encode data = leBytes 8 data.toList.length ++ data.toList := by
    show Codec.word64.encode _ ++ data.toList.flatMap Codec.byte.encode = _
    rw [Codec.encode_word64, hlen]
    exact congrArg _ (List.flatMap_singleton' _)
  rw [encodeBytes, u64_eq data.size_lt, henc]
  rfl

theorem encodeStr_text (t : Text) : encodeStr t.str = .ok (Codec.text.encode t) := by
  rw [encodeStr, encodeBytes, u64_eq t.size_lt, Codec.encode_text]
  rfl

theorem encodeOptionBytes_fixed {n : ℕ} (a : Option (Arr UInt8 n)) :
    encodeOptionBytes (a.map Arr.toList) = .ok ((fixedCodec n).option.encode a) := by
  cases a with
  | none => rfl
  | some a =>
    rw [Option.map_some, encodeOptionBytes]
    show Except.ok (1 :: a.toList) = Except.ok (1 :: (fixedCodec n).encode a)
    rw [fixedCodec, Codec.encode_array_byte]

theorem encodeCid_text (cid : Option Text) :
    encodeCid (cid.map Text.str) = .ok (Codec.text.option.encode cid) := by
  cases cid with
  | none => rfl
  | some cid =>
    rw [Option.map_some, encodeCid, encodeStr_text]
    rfl

/-- The metric as a pair of strings. -/
def metricPair (m : QuantMetric) : String × String := (m.name.str, m.value.str)

theorem encodeMetrics_eq (metrics : List QuantMetric) : ∀ body : List UInt8,
    encodeMetrics body (metrics.map metricPair)
      = .ok (body ++ metrics.flatMap QuantMetric.codec.encode) := by
  induction metrics with
  | nil => intro body; rw [List.flatMap_nil, List.append_nil]; rfl
  | cons m metrics ih =>
    intro body
    rw [encodeMetrics, List.map_cons, List.foldlM_cons, metricPair, encodeStr_text, encodeStr_text,
      List.flatMap_cons, ← List.append_assoc]
    exact ih _

theorem encodeUnsignedTx_eq (t : UnsignedTransaction) :
    encodeUnsignedTx t.sender.toList (t.recipient.map Arr.toList) t.value.toNat t.data.toList
      t.gasPrice.toNat t.gas.toNat t.nonce.toNat = .ok (UnsignedTransaction.codec.encode t) := by
  rw [encodeUnsignedTx, encodeOptionBytes_fixed, toBytes32_u256, encodeBytes_bytes, toBytes32_u256,
    u64_word, u64_word]
  simp [UnsignedTransaction.codec, fixedCodec, bind, Except.bind]

theorem encodeEnvelope_eq (e : QuantEnvelope) :
    encodeEnvelope e.decisionId.str e.schema.str (e.metrics.toList.map metricPair)
      (e.contentHash.map Arr.toList) (e.cid.map Text.str) e.version.toNat = .ok e.encode := by
  have hcount : u64 (e.metrics.toList.map metricPair).length
      = .ok (Codec.word64.encode (UInt64.ofNat e.metrics.toList.length)) := by
    have hlen : (UInt64.ofNat e.metrics.toList.length).toNat = e.metrics.toList.length := by
      rw [UInt64.toNat_ofNat']
      exact Nat.mod_eq_of_lt e.metrics.size_lt
    rw [List.length_map, ← hlen, u64_word, hlen]
  have hvec : QuantMetric.codec.vec.encode e.metrics
      = Codec.word64.encode (UInt64.ofNat e.metrics.toList.length)
        ++ e.metrics.toList.flatMap QuantMetric.codec.encode := rfl
  rw [encodeEnvelope, u16_word, encodeStr_text, encodeStr_text, hcount, encodeOptionBytes_fixed,
    encodeCid_text]
  simp only [bind, Except.bind, encodeMetrics_eq, QuantEnvelope.encode, QuantEnvelope.codec,
    QuantEnvelope.fieldsCodec, QuantEnvelope.optionsCodec, Codec.encode_map, Codec.encode_pair,
    hvec, List.append_assoc]

section Signing

variable [Keccak] [SigningKey]

/-- The transaction that `encode_signed_tx` writes. -/
def signedTransaction (sk : SecretKey) (recipient : Option Address) (nonce : UInt64) (value : U256)
    (gas : UInt64) (gasPrice : U256) (data : Bytes) : Transaction :=
  let publicKey := SigningKey.verifyKey sk
  let unsigned : UnsignedTransaction :=
    ⟨addressFromPublicKey publicKey, recipient, value, data, gasPrice, gas, nonce⟩
  { sender := unsigned.sender, recipient, value, data, gasPrice, gas, nonce
    signature := SigningKey.sign sk (keccakBincode UnsignedTransaction.codec unsigned).toList
    publicKey }

theorem encodeSignedTx_eq (sk : SecretKey) (recipient : Option Address) (nonce : UInt64)
    (value : U256) (gas : UInt64) (gasPrice : U256) (data : Bytes) :
    encodeSignedTx sk (recipient.map Arr.toList) nonce.toNat value.toNat gas.toNat gasPrice.toNat
        data.toList
      = .ok ((signedTransaction sk recipient nonce value gas gasPrice data).hash.toList,
        Transaction.codec.encode
          (signedTransaction sk recipient nonce value gas gasPrice data)) := by
  have hunsigned := encodeUnsignedTx_eq
    ⟨addressFromPublicKey (SigningKey.verifyKey sk), recipient, value, data, gasPrice, gas, nonce⟩
  have hpayload : ∀ t : Transaction, Transaction.codec.encode t
      = UnsignedTransaction.codec.encode t.unsigned ++ t.signature.toList
        ++ t.publicKey.toList := by
    intro t
    simp [Transaction.codec, Transaction.unsigned, fixedCodec]
  rw [encodeSignedTx]
  simp only [bind, Except.bind]
  rw [show addressFromPubkey (SigningKey.verifyKey sk).toList
    = (addressFromPublicKey (SigningKey.verifyKey sk)).toList from rfl, hunsigned, Transaction.hash,
    keccakBincode, hpayload]
  rfl

/-- **The client and the node write the same bytes.**  For every unsigned transaction, for every
key and every transaction that the client signs with it, and for every envelope, the bytes of the
client are the encodings of the node.  So the signed hash and the transaction hash are the node's,
and the node reads back that transaction.  It reads back the envelope if its version is the current
one and there is a decision id, and refuses it otherwise. -/
theorem encodes_alike :
    (∀ t : UnsignedTransaction,
      encodeUnsignedTx t.sender.toList (t.recipient.map Arr.toList) t.value.toNat t.data.toList
        t.gasPrice.toNat t.gas.toNat t.nonce.toNat = .ok (UnsignedTransaction.codec.encode t))
    ∧ (∀ (sk : SecretKey) (recipient : Option Address) (nonce : UInt64) (value : U256)
        (gas : UInt64) (gasPrice : U256) (data : Bytes), ∃ tx : Transaction,
      tx.unsigned = ⟨addressFromPublicKey (SigningKey.verifyKey sk), recipient, value, data,
        gasPrice, gas, nonce⟩
      ∧ tx.publicKey = SigningKey.verifyKey sk
      ∧ tx.signature = SigningKey.sign sk tx.signingHash.toList
      ∧ encodeSignedTx sk (recipient.map Arr.toList) nonce.toNat value.toNat gas.toNat
          gasPrice.toNat data.toList = .ok (tx.hash.toList, Transaction.codec.encode tx)
      ∧ Transaction.codec.deserialize (Transaction.codec.encode tx) = some tx)
    ∧ ∀ e : QuantEnvelope,
      encodeEnvelope e.decisionId.str e.schema.str (e.metrics.toList.map metricPair)
        (e.contentHash.map Arr.toList) (e.cid.map Text.str) e.version.toNat = .ok e.encode
      ∧ (e.version = 1 ∧ e.decisionId.str ≠ "" → QuantEnvelope.decode e.encode = .ok e)
      ∧ (¬ (e.version = 1 ∧ e.decisionId.str ≠ "") →
        ∃ err, QuantEnvelope.decode e.encode = .error err) := by
  refine ⟨encodeUnsignedTx_eq, fun sk recipient nonce value gas gasPrice data =>
    ⟨signedTransaction sk recipient nonce value gas gasPrice data, rfl, rfl, rfl,
      encodeSignedTx_eq sk recipient nonce value gas gasPrice data,
      Transaction.codec.deserialize_encode _⟩, fun e =>
        ⟨encodeEnvelope_eq e, fun h => ?_, fun h => ?_⟩⟩
  · rw [QuantEnvelope.decode_encode, QuantEnvelope.check_eq_ok]
    exact ⟨rfl, h⟩
  · rw [QuantEnvelope.decode_encode]
    cases hc : e.check with
    | error err => exact ⟨err, rfl⟩
    | ok e' => exact absurd (QuantEnvelope.check_eq_ok.mp hc).2 h

end Signing

/-! ### Reading -/

/-- A reader of the view behind the magic bytes. -/
abbrev Take (α : Type) : Type := Reader PyError α

/-- `take_u8`. -/
def takeU8 : Take UInt8 := fun view =>
  match view with
  | [] => .error .indexError
  | n :: view => .ok (n, view)

/-- `struct.unpack_from` of an unsigned little-endian integer. -/
def unpack (width : ℕ) : Take ℕ := fun view =>
  if view.length < width then .error .structError
  else .ok (ofLeBytes (view.take width), view.drop width)

/-- `take_u16`. -/
def takeU16 : Take ℕ := unpack 2

/-- `take_u64`. -/
def takeU64 : Take ℕ := unpack 8

/-- `view[:n]`, with no error where the view is shorter. -/
def takeSlice (n : ℕ) : Take (List UInt8) := fun view => .ok (view.take n, view.drop n)

/-- `decode("utf-8")`. -/
def decodeUtf8 (bytes : List UInt8) : Take String := fun view =>
  match ofUtf8 bytes with
  | none => .error .unicodeError
  | some s => .ok (s, view)

/-- `take_str`. -/
def takeStr : Take String := do
  let n ← takeU64
  let bytes ← takeSlice n
  decodeUtf8 bytes

/-- The metrics: a count and as many pairs of strings. -/
def takeMetrics : Take (List (String × String)) := do
  let n ← takeU64
  (takeStr.pair takeStr).times n

/-- The fields that are always there. -/
def takeFields : Take (ℕ × String × String × List (String × String)) := do
  let version ← takeU16
  let decisionId ← takeStr
  let schema ← takeStr
  let metrics ← takeMetrics
  pure (version, decisionId, schema, metrics)

/-- The content hash: any tag but `1` stands for none. -/
def takeHash : Take (Option (List UInt8)) := do
  let hasHash ← takeU8
  if hasHash = 1 then some <$> takeSlice 32 else pure none

/-- The content address: any tag but `1` stands for none. -/
def takeCid : Take (Option String) := do
  let hasCid ← takeU8
  if hasCid = 1 then some <$> takeStr else pure none

/-- The dictionary that `decode_envelope` returns. -/
structure PyEnvelope where
  version : ℕ
  decisionId : String
  schema : String
  metrics : List (String × String)
  contentHash : Option (List UInt8)
  cid : Option String
deriving DecidableEq

/-- The readers of `decode_envelope` in order. -/
def takeEnvelope : Take PyEnvelope := do
  let (version, decisionId, schema, metrics) ← takeFields
  let (contentHash, cid) ← takeHash.pair takeCid
  pure { version, decisionId, schema, metrics, contentHash, cid }

/-- The checks of `decode_envelope` on what was read. -/
def PyEnvelope.check (e : PyEnvelope) : Except PyError PyEnvelope :=
  if e.version ≠ 1 then .error (.valueError "unsupported version")
  else if e.decisionId = "" then .error (.valueError "empty decision_id")
  else .ok e

/-- `decode_envelope`. -/
def decodeEnvelope (data : List UInt8) : Except PyError PyEnvelope :=
  if data.take 4 ≠ quantMagic then .error (.valueError "missing IQNT magic")
  else
    match takeEnvelope.run (data.drop 4) with
    | .error e => .error e
    | .ok (e, _) => e.check

/-! ### What the client reads -/

open Reader (Follows Ended)

theorem unpack_run (width : ℕ) (view : List UInt8) : (unpack width).run view
    = if view.length < width then .error .structError
      else .ok (ofLeBytes (view.take width), view.drop width) := rfl

theorem ended_unpack (width : ℕ) : Ended (unpack width) := by
  intro n r h
  rw [unpack_run] at h
  split at h
  · cases h
  · cases h
    exact List.drop_nil

theorem unpack_agrees {ω : Type} {width : ℕ} {c : Codec ω} {ofNat : ℕ → ω} {toNat : ω → ℕ}
    (hdecode : ∀ v, c.decode v = if width ≤ v.length then
      some (ofNat (ofLeBytes (v.take width)), v.drop width) else none)
    (hnat : ∀ n < 256 ^ width, toNat (ofNat n) = n) :
    Reader.Agrees (unpack width) c.decode toNat := by
  intro v
  rw [unpack_run, hdecode]
  by_cases hle : width ≤ v.length
  · have hlt := ofLeBytes_lt (v.take width)
    rw [List.length_take, Nat.min_eq_left hle] at hlt
    rw [if_neg (Nat.not_lt.mpr hle), if_pos hle, Option.map_some, hnat _ hlt]
    rfl
  · rw [if_pos (Nat.not_le.mp hle), if_neg hle]
    rfl

theorem takeU64_agrees : Reader.Agrees takeU64 Codec.word64.decode UInt64.toNat :=
  unpack_agrees Codec.decode_word64 fun n hn => by
    rw [UInt64.toNat_ofNat', Nat.mod_eq_of_lt (lt_of_lt_of_eq hn (by norm_num))]

theorem takeU16_agrees : Reader.Agrees takeU16 Codec.word16.decode UInt16.toNat :=
  unpack_agrees Codec.decode_word16 fun n hn => by
    rw [UInt16.toNat_ofNat', Nat.mod_eq_of_lt (lt_of_lt_of_eq hn (by norm_num))]

theorem decodeUtf8_eq_ok {bytes v r : List UInt8} {s : String} :
    (decodeUtf8 bytes).run v = .ok (s, r) ↔ ofUtf8 bytes = some s ∧ r = v := by
  change (match ofUtf8 bytes with
    | none => Except.error PyError.unicodeError
    | some s => .ok (s, v)) = _ ↔ _
  cases ofUtf8 bytes with
  | none => simp
  | some s' => simp [eq_comm]

/-- What is read as a string: a length, and as many bytes as there are up to that length. -/
theorem takeStr_eq_ok {v r : List UInt8} {s : String} : takeStr.run v = .ok (s, r) ↔
    ∃ n v', takeU64.run v = .ok (n, v') ∧ ofUtf8 (v'.take n) = some s ∧ r = v'.drop n := by
  rw [takeStr, Reader.run_bind_eq_ok]
  refine exists_congr fun n => exists_congr fun v' => and_congr_right fun _ => ?_
  rw [Reader.run_bind_eq_ok]
  constructor
  · rintro ⟨bytes, w, hslice, hs⟩
    cases hslice
    exact decodeUtf8_eq_ok.mp hs
  · intro h
    exact ⟨_, _, rfl, decodeUtf8_eq_ok.mpr h⟩

theorem ended_takeStr : Ended takeStr := by
  intro s r h
  obtain ⟨n, v', hn, -, rfl⟩ := takeStr_eq_ok.mp h
  cases ended_unpack 8 n v' hn
  exact List.drop_nil

/-- A string that is cut off is read too, but then nothing is left. -/
theorem takeStr_follows : Follows takeStr Codec.text.decode Text.str where
  agree := by
    intro v r t h
    obtain ⟨n, v', hn, -, hs, hr⟩ := Codec.decode_text.mp h
    exact takeStr_eq_ok.mpr ⟨n.toNat, v', takeU64_agrees.follows.agree hn, hs, hr⟩
  exhausted := by
    intro v r s hnone h
    obtain ⟨n, v', hn, hs, rfl⟩ := takeStr_eq_ok.mp h
    cases hw : Codec.word64.decode v with
    | none =>
      cases takeU64_agrees.follows.exhausted hw hn
      exact List.drop_nil
    | some x =>
      rw [takeU64_agrees.follows.agree hw] at hn
      cases hn
      by_contra hne
      have hle : x.1.toNat ≤ x.2.length := by
        rw [List.drop_eq_nil_iff] at hne
        omega
      have hlen : (utf8 s).length < 2 ^ 64 := by
        have := x.1.toNat_lt
        rw [utf8_of_ofUtf8 hs, List.length_take]
        omega
      have hread : Codec.text.decode v = some (⟨s, hlen⟩, x.2.drop x.1.toNat) :=
        Codec.decode_text.mpr ⟨x.1, x.2, hw, hle, hs, rfl⟩
      rw [hnone] at hread
      cases hread

theorem takeMetrics_follows :
    Follows takeMetrics QuantMetric.codec.vec.decode (fun v => v.toList.map metricPair) :=
  Follows.vec takeU64_agrees.follows
    ((takeStr_follows.pair takeStr_follows ended_takeStr).map fun _ => rfl)
    (ended_takeStr.pair ended_takeStr)

theorem ended_takeMetrics : Ended takeMetrics :=
  (ended_unpack 8).bind fun n => (ended_takeStr.pair ended_takeStr).times n

/-- The fields that are always there, as the client has them. -/
def fieldsOf (p : UInt16 × Text × Text × Vec QuantMetric) :
    ℕ × String × String × List (String × String) :=
  (p.1.toNat, p.2.1.str, p.2.2.1.str, p.2.2.2.toList.map metricPair)

/-- **The client reads the fields that the node reads**, or raises, or is at the end. -/
theorem takeFields_follows : Follows takeFields QuantEnvelope.fieldsCodec.decode fieldsOf := by
  have hpairs : takeFields = takeU16.pair (takeStr.pair (takeStr.pair takeMetrics)) := by
    simp [takeFields, Reader.pair]
  rw [hpairs]
  exact takeU16_agrees.follows.pair (takeStr_follows.pair (takeStr_follows.pair takeMetrics_follows
    ended_takeMetrics) (ended_takeStr.pair ended_takeMetrics))
    (ended_takeStr.pair (ended_takeStr.pair ended_takeMetrics))

/-! ### The optional fields -/

/-- The client reads a content address here: none at any tag but `1`, or what there is of the
string behind it. -/
def cidRead : List UInt8 → Bool
  | [] => false
  | tag :: rest => tag != 1
    || (Codec.word64.decode rest).any fun p => (ofUtf8 (p.2.take p.1.toNat)).isSome

/-- Only the client reads a content address here: the tag is neither `0` nor `1`, or the length
behind it is more than what follows, which is a string. -/
def cidLax : List UInt8 → Bool
  | [] => false
  | tag :: rest => (tag != 0 && tag != 1)
    || (tag == 1 && (Codec.word64.decode rest).any fun p =>
      decide (p.2.length < p.1.toNat) && (ofUtf8 p.2).isSome)

/-- Only the client reads the optional fields here: the tag of the hash is `0` or `1` and the
content address behind it is lax, or it is another one, which the client skips. -/
def optionsLax : List UInt8 → Bool
  | [] => false
  | tag :: rest =>
    if tag = 0 then cidLax rest else if tag = 1 then cidLax (rest.drop 32) else cidRead rest

theorem takeCid_run_one (rest : List UInt8) :
    takeCid.run (1 :: rest) = (takeStr.run rest).map fun x => (some x.1, x.2) := by
  show (some <$> takeStr).run rest = _
  rw [StateT.run_map]
  rfl

theorem takeCid_run_of_ne {tag : UInt8} (h : tag ≠ 1) (rest : List UInt8) :
    takeCid.run (tag :: rest) = .ok (none, rest) := by
  show (if tag = 1 then some <$> takeStr else pure none : Take (Option String)).run rest = _
  rw [if_neg h]
  rfl

theorem decode_option_of_ne {α : Type} {c : Codec α} {tag : UInt8} (h₀ : tag ≠ 0) (h₁ : tag ≠ 1)
    (rest : List UInt8) : c.option.decode (tag :: rest) = none := by
  show (if tag = 0 then _ else if tag = 1 then _ else none) = none
  rw [if_neg h₀, if_neg h₁]

theorem decode_option_one {α : Type} {c : Codec α} (rest : List UInt8) :
    c.option.decode (1 :: rest) = (c.decode rest).map fun p => (some p.1, p.2) := rfl

theorem takeCid_agree {v r : List UInt8} {cid : Option Text}
    (h : Codec.text.option.decode v = some (cid, r)) :
    takeCid.run v = .ok (cid.map Text.str, r) := by
  cases v with
  | nil => cases h
  | cons tag rest =>
    by_cases h₁ : tag = 1
    · subst h₁
      rw [decode_option_one] at h
      obtain ⟨x, hx, heq⟩ := Option.map_eq_some_iff.mp h
      cases heq
      rw [takeCid_run_one, takeStr_follows.agree hx]
      rfl
    · by_cases h₀ : tag = 0
      · subst h₀
        cases h
        rfl
      · rw [decode_option_of_ne h₀ h₁] at h
        cases h

theorem takeStr_isOk_iff {v : List UInt8} : (∃ x, takeStr.run v = .ok x)
    ↔ ∃ p ∈ Codec.word64.decode v, (ofUtf8 (p.2.take p.1.toNat)).isSome = true := by
  constructor
  · rintro ⟨⟨s, r⟩, h⟩
    obtain ⟨n, v', hn, hs, -⟩ := takeStr_eq_ok.mp h
    have hagree := takeU64_agrees v
    rw [hn] at hagree
    obtain ⟨p, hp, heq⟩ := Option.map_eq_some_iff.mp hagree.symm
    cases heq
    exact ⟨p, hp, by rw [hs]; rfl⟩
  · rintro ⟨p, hp, hs⟩
    obtain ⟨s, hs⟩ := Option.isSome_iff_exists.mp hs
    exact ⟨(s, _), takeStr_eq_ok.mpr ⟨_, _, takeU64_agrees.follows.agree hp, hs, rfl⟩⟩

theorem decode_text_eq_none_iff {v : List UInt8} : Codec.text.decode v = none
    ↔ ∀ p ∈ Codec.word64.decode v, p.1.toNat ≤ p.2.length →
      ofUtf8 (p.2.take p.1.toNat) = none := by
  constructor
  · intro h p hp hle
    cases hs : ofUtf8 (p.2.take p.1.toNat) with
    | none => rfl
    | some s =>
      have hlen : (utf8 s).length < 2 ^ 64 := by
        have := p.1.toNat_lt
        rw [utf8_of_ofUtf8 hs, List.length_take]
        omega
      have hread : Codec.text.decode v = some (⟨s, hlen⟩, p.2.drop p.1.toNat) :=
        Codec.decode_text.mpr ⟨p.1, p.2, hp, hle, hs, rfl⟩
      rw [h] at hread
      cases hread
  · intro h
    cases ht : Codec.text.decode v with
    | none => rfl
    | some x =>
      obtain ⟨n, v', hn, hle, hs, -⟩ := Codec.decode_text.mp ht
      rw [h (n, v') hn hle] at hs
      cases hs

theorem takeCid_isOk_iff {v : List UInt8} :
    (∃ x, takeCid.run v = .ok x) ↔ cidRead v = true := by
  cases v with
  | nil => exact ⟨nofun, nofun⟩
  | cons tag rest =>
    by_cases h₁ : tag = 1
    · subst h₁
      have hread : cidRead (1 :: rest) = true ↔ ∃ x, takeStr.run rest = .ok x := by
        rw [takeStr_isOk_iff]
        simp [cidRead, Option.any_eq_true]
      rw [hread, takeCid_run_one]
      cases takeStr.run rest with
      | error e => exact ⟨nofun, nofun⟩
      | ok x => exact ⟨fun _ => ⟨x, rfl⟩, fun _ => ⟨_, rfl⟩⟩
    · rw [takeCid_run_of_ne h₁]
      exact ⟨fun _ => by simp [cidRead, h₁], fun _ => ⟨_, rfl⟩⟩

/-- **Where only the client reads a content address.** -/
theorem cidLax_iff {v : List UInt8} : cidLax v = true
    ↔ cidRead v = true ∧ Codec.text.option.decode v = none := by
  cases v with
  | nil => exact ⟨nofun, nofun⟩
  | cons tag rest =>
    by_cases h₁ : tag = 1
    · subst h₁
      rw [decode_option_one, Option.map_eq_none_iff, decode_text_eq_none_iff]
      cases hw : Codec.word64.decode rest with
      | none => simp [cidLax, cidRead, hw]
      | some p =>
        by_cases hle : p.1.toNat ≤ p.2.length
        · -- what fits is read by both or by neither
          have hboth : ¬ ((ofUtf8 (p.2.take p.1.toNat)).isSome = true
              ∧ ofUtf8 (p.2.take p.1.toNat) = none) := fun h => by
            rw [h.2] at h
            cases h.1
          simp only [cidLax, cidRead, hw]
          simpa [hle, Nat.not_lt.mpr hle] using hboth
        · have htake : p.2.take p.1.toNat = p.2 := List.take_of_length_le (by omega)
          simp [cidLax, cidRead, hw, hle, Nat.not_le.mp hle, htake]
    · by_cases h₀ : tag = 0
      · subst h₀
        exact ⟨nofun, nofun⟩
      · rw [decode_option_of_ne h₀ h₁]
        simp [cidLax, cidRead, h₀, h₁]

/-! ### Both optional fields -/

theorem takeHash_run_one (rest : List UInt8) :
    takeHash.run (1 :: rest) = .ok (some (rest.take 32), rest.drop 32) := rfl

theorem takeHash_run_of_ne {tag : UInt8} (h : tag ≠ 1) (rest : List UInt8) :
    takeHash.run (tag :: rest) = .ok (none, rest) := by
  show (if tag = 1 then some <$> takeSlice 32 else pure none : Take (Option (List UInt8))).run rest
    = _
  rw [if_neg h]
  rfl

theorem takeOptions_run {v rest : List UInt8} {hash : Option (List UInt8)}
    (h : takeHash.run v = .ok (hash, rest)) : (takeHash.pair takeCid).run v
      = (takeCid.run rest).map fun y => ((hash, y.1), y.2) := by
  rw [Reader.pair]
  show (takeHash.run v).bind _ = _
  rw [h]
  show (takeCid.run rest).bind _ = _
  cases takeCid.run rest <;> rfl

theorem takeOptions_isOk_iff {v rest : List UInt8} {hash : Option (List UInt8)}
    (h : takeHash.run v = .ok (hash, rest)) :
    (∃ y, (takeHash.pair takeCid).run v = .ok y) ↔ cidRead rest = true := by
  rw [takeOptions_run h, ← takeCid_isOk_iff]
  cases takeCid.run rest with
  | error e => exact ⟨nofun, nofun⟩
  | ok x => exact ⟨fun _ => ⟨x, rfl⟩, fun _ => ⟨_, rfl⟩⟩

theorem decode_options_eq {v : List UInt8} : QuantEnvelope.optionsCodec.decode v
    = ((fixedCodec 32).option.decode v).bind fun x =>
      (Codec.text.option.decode x.2).map fun y => ((x.1, y.1), y.2) := by
  simp only [QuantEnvelope.optionsCodec, Codec.pair, Option.bind_eq_bind]
  refine congrArg _ (funext fun x => ?_)
  cases Codec.text.option.decode x.2 <;> rfl

theorem decode_hash_one {rest : List UInt8} : (fixedCodec 32).option.decode (1 :: rest)
    = if h : 32 ≤ rest.length then some (some ⟨rest.take 32, by simp [h]⟩, rest.drop 32)
      else none := by
  rw [decode_option_one, fixedCodec, Codec.decode_array_byte]
  split <;> rfl

theorem takeHash_agree {v r : List UInt8} {hash : Option H256}
    (h : (fixedCodec 32).option.decode v = some (hash, r)) :
    takeHash.run v = .ok (hash.map Arr.toList, r) := by
  cases v with
  | nil => cases h
  | cons tag rest =>
    by_cases h₁ : tag = 1
    · subst h₁
      rw [decode_hash_one] at h
      split at h
      · cases h
        rfl
      · cases h
    · by_cases h₀ : tag = 0
      · subst h₀
        cases h
        rfl
      · rw [decode_option_of_ne h₀ h₁] at h
        cases h

theorem takeOptions_agree {v r : List UInt8} {options : Option H256 × Option Text}
    (h : QuantEnvelope.optionsCodec.decode v = some (options, r)) :
    (takeHash.pair takeCid).run v
      = .ok ((options.1.map Arr.toList, options.2.map Text.str), r) := by
  rw [decode_options_eq] at h
  obtain ⟨x, hx, hmap⟩ := Option.bind_eq_some_iff.mp h
  obtain ⟨y, hy, heq⟩ := Option.map_eq_some_iff.mp hmap
  cases heq
  rw [takeOptions_run (takeHash_agree hx), takeCid_agree hy]
  rfl

/-- **Where only the client reads the optional fields.** -/
theorem optionsLax_iff {v : List UInt8} : optionsLax v = true
    ↔ (∃ y, (takeHash.pair takeCid).run v = .ok y)
      ∧ QuantEnvelope.optionsCodec.decode v = none := by
  cases v with
  | nil => exact ⟨nofun, fun h => h.1.elim nofun⟩
  | cons tag rest =>
    by_cases h₁ : tag = 1
    · subst h₁
      rw [takeOptions_isOk_iff (takeHash_run_one rest), decode_options_eq, decode_hash_one]
      show cidLax (rest.drop 32) = true ↔ _
      rw [cidLax_iff]
      by_cases hle : 32 ≤ rest.length
      · rw [dif_pos hle, Option.bind_some, Option.map_eq_none_iff]
      · -- the hash is cut off, and the tag behind it is missing
        rw [List.drop_eq_nil_iff.mpr (by omega)]
        exact ⟨fun h => absurd h.1 nofun, fun h => absurd h.1 nofun⟩
    · rw [takeOptions_isOk_iff (takeHash_run_of_ne h₁ rest), decode_options_eq]
      by_cases h₀ : tag = 0
      · subst h₀
        show cidLax rest = true ↔ cidRead rest = true
          ∧ (Codec.text.option.decode rest).map _ = none
        rw [cidLax_iff, Option.map_eq_none_iff]
      · rw [decode_option_of_ne h₀ h₁]
        simp [optionsLax, h₀, h₁]

/-! ### Where the two readers agree -/

/-- The dictionary of an envelope. -/
def PyEnvelope.ofEnvelope (e : QuantEnvelope) : PyEnvelope :=
  { version := e.version.toNat
    decisionId := e.decisionId.str
    schema := e.schema.str
    metrics := e.metrics.toList.map metricPair
    contentHash := e.contentHash.map Arr.toList
    cid := e.cid.map Text.str }

theorem PyEnvelope.check_ofEnvelope (e : QuantEnvelope) :
    (ofEnvelope e).check.toOption = e.check.toOption.map ofEnvelope := by
  have hversion : (ofEnvelope e).version = 1 ↔ e.version = quantSchemaVersion := by
    rw [← UInt16.toNat_inj]
    rfl
  rw [check, QuantEnvelope.check]
  by_cases hv : e.version = quantSchemaVersion
  · rw [if_neg (not_not.mpr (hversion.mpr hv)), if_neg (not_not.mpr hv)]
    show (if e.decisionId.str = "" then _ else _ : Except PyError PyEnvelope).toOption = _
    split <;> rfl
  · rw [if_pos (fun h => hv (hversion.mp h)), if_pos hv]
    rfl

/-- The dictionary of what was read. -/
def PyEnvelope.ofParts (x : ℕ × String × String × List (String × String))
    (y : Option (List UInt8) × Option String) : PyEnvelope :=
  ⟨x.1, x.2.1, x.2.2.1, x.2.2.2, y.1, y.2⟩

theorem toOption_decodeEnvelope (body : List UInt8) :
    (decodeEnvelope (quantMagic ++ body)).toOption
      = (takeFields.run body).toOption.bind fun x =>
        ((takeHash.pair takeCid).run x.2).toOption.bind fun y =>
          (PyEnvelope.ofParts x.1 y.1).check.toOption := by
  have hmagic : ¬ (quantMagic ++ body).take 4 ≠ quantMagic := by simp [quantMagic]
  rw [decodeEnvelope, if_neg hmagic]
  show (match takeEnvelope.run body with
    | .error e => .error e
    | .ok (e, _) => e.check : Except PyError PyEnvelope).toOption = _
  have hrun : takeEnvelope.run body = (takeFields.run body).bind fun x =>
      ((takeHash.pair takeCid).run x.2).bind fun y => .ok (PyEnvelope.ofParts x.1 y.1, y.2) := rfl
  rw [hrun]
  cases takeFields.run body with
  | error e => rfl
  | ok x =>
    simp only [Except.bind, Except.toOption, Option.bind_some]
    cases (takeHash.pair takeCid).run x.2 <;> rfl

/-- The envelope of what was read. -/
def envelopeOfParts (x : UInt16 × Text × Text × Vec QuantMetric) (y : Option H256 × Option Text) :
    QuantEnvelope :=
  ⟨x.1, x.2.1, x.2.2.1, x.2.2.2, y.1, y.2⟩

theorem deserialize_envelope (v : List UInt8) : QuantEnvelope.codec.deserialize v
    = (QuantEnvelope.fieldsCodec.decode v).bind fun x =>
      (QuantEnvelope.optionsCodec.decode x.2).map fun y => envelopeOfParts x.1 y.1 := by
  simp only [Codec.deserialize, QuantEnvelope.codec, Codec.map, Codec.refine, Codec.pair,
    Option.bind_eq_bind, Option.bind_assoc, Option.map_bind]
  refine congrArg _ (funext fun x => ?_)
  rw [Function.comp_apply]
  cases QuantEnvelope.optionsCodec.decode x.2 <;> rfl

theorem toOption_decode (body : List UInt8) : (QuantEnvelope.decode (quantMagic ++ body)).toOption
    = (QuantEnvelope.fieldsCodec.decode body).bind fun x =>
      (QuantEnvelope.optionsCodec.decode x.2).bind fun y =>
        (envelopeOfParts x.1 y.1).check.toOption := by
  rw [QuantEnvelope.decode_magic_append, deserialize_envelope]
  cases QuantEnvelope.fieldsCodec.decode body with
  | none => rfl
  | some x =>
    rw [Option.bind_some, Option.bind_some]
    cases QuantEnvelope.optionsCodec.decode x.2 <;> rfl

/-- Only the client accepts the input: magic, strings, version and id are as the node wants them,
and the optional fields are lax. -/
def Lax (data : List UInt8) : Prop :=
  data.take 4 = quantMagic
    ∧ ∃ p ∈ QuantEnvelope.fieldsCodec.decode (data.drop 4),
      p.1.1 = quantSchemaVersion ∧ p.1.2.1.str ≠ "" ∧ optionsLax p.2 = true

theorem PyEnvelope.check_isSome_iff {e : PyEnvelope} :
    e.check.toOption.isSome = true ↔ e.version = 1 ∧ e.decisionId ≠ "" := by
  rw [check]
  split_ifs with hv hid
  · exact ⟨nofun, fun h => absurd h.1 hv⟩
  · exact ⟨nofun, fun h => absurd hid h.2⟩
  · exact ⟨fun _ => ⟨not_not.mp hv, hid⟩, fun _ => rfl⟩

/-- Behind the fields that are always there, the two agree exactly if the checks fail or the
optional fields are not lax. -/
theorem options_agree_iff (p : UInt16 × Text × Text × Vec QuantMetric) (v : List UInt8) :
    (((takeHash.pair takeCid).run v).toOption.bind fun y =>
        (PyEnvelope.ofParts (fieldsOf p) y.1).check.toOption)
      = ((QuantEnvelope.optionsCodec.decode v).bind fun y =>
        (envelopeOfParts p y.1).check.toOption).map PyEnvelope.ofEnvelope
    ↔ ¬ (p.1 = quantSchemaVersion ∧ p.2.1.str ≠ "" ∧ optionsLax v = true) := by
  rw [optionsLax_iff]
  cases hn : QuantEnvelope.optionsCodec.decode v with
  | some x =>
    rw [takeOptions_agree hn]
    refine ⟨fun _ h => ?_, fun _ => PyEnvelope.check_ofEnvelope (envelopeOfParts p x.1)⟩
    cases h.2.2.2
  | none =>
    cases hc : (takeHash.pair takeCid).run v with
    | error e => exact ⟨fun _ h => h.2.2.1.elim nofun, fun _ => rfl⟩
    | ok y =>
      have hversion : p.1.toNat = 1 ↔ p.1 = quantSchemaVersion := by
        rw [← UInt16.toNat_inj]
        rfl
      have hcheck : (PyEnvelope.ofParts (fieldsOf p) y.1).check.toOption = none
          ↔ ¬ (p.1.toNat = 1 ∧ p.2.1.str ≠ "") := by
        rw [← Option.not_isSome_iff_eq_none, PyEnvelope.check_isSome_iff]
        rfl
      refine hcheck.trans (not_congr ?_)
      rw [hversion]
      exact ⟨fun h => ⟨h.1, h.2, ⟨y, rfl⟩, rfl⟩, fun h => ⟨h.1, h.2.1⟩⟩

/-- **Where the client and the node agree.**  They accept the same input, and read the same fields,
exactly if it is not lax. -/
theorem decodeEnvelope_agrees_iff (data : List UInt8) :
    (decodeEnvelope data).toOption
      = (QuantEnvelope.decode data).toOption.map PyEnvelope.ofEnvelope ↔ ¬ Lax data := by
  by_cases hmagic : data.take 4 = quantMagic
  · obtain ⟨body, rfl⟩ : ∃ body, data = quantMagic ++ body :=
      ⟨data.drop 4, by rw [← hmagic, List.take_append_drop]⟩
    have hlax : Lax (quantMagic ++ body) ↔ ∃ p ∈ QuantEnvelope.fieldsCodec.decode body,
        p.1.1 = quantSchemaVersion ∧ p.1.2.1.str ≠ "" ∧ optionsLax p.2 = true :=
      and_iff_right hmagic
    rw [hlax, toOption_decodeEnvelope, toOption_decode]
    cases hf : QuantEnvelope.fieldsCodec.decode body with
    | none =>
      refine ⟨fun _ => nofun, fun _ => ?_⟩
      cases hp : takeFields.run body with
      | error e => rfl
      | ok x =>
        -- the client went on with nothing left, and misses the next tag
        have hnil : x.2 = [] := takeFields_follows.exhausted hf hp
        show ((takeHash.pair takeCid).run x.2).toOption.bind _ = none
        rw [hnil]
        rfl
    | some x =>
      rw [takeFields_follows.agree hf]
      refine (options_agree_iff x.1 x.2).trans (not_congr ?_)
      exact ⟨fun h => ⟨x, rfl, h⟩, fun ⟨p, hp, h⟩ => by cases hp; exact h⟩
  · rw [decodeEnvelope, if_pos hmagic, QuantEnvelope.decode_of_take_ne hmagic]
    exact ⟨fun _ h => hmagic h.1, fun _ => rfl⟩

end Ivory.PythonClient

namespace Ivory.Devnet

open PythonClient

/-- The fields of a small envelope. -/
def quantFields : UInt16 × Text × Text × Vec QuantMetric :=
  (1, ⟨"d", by decide⟩, ⟨"s", by decide⟩, Vec.empty)

/-- A small envelope, with the given bytes in place of the optional fields. -/
def quantData (options : List UInt8) : List UInt8 :=
  quantMagic ++ (QuantEnvelope.fieldsCodec.encode quantFields ++ options)

/-- What the client makes of such an envelope depends on the optional fields only. -/
theorem decodeEnvelope_quantData (options : List UInt8) :
    (decodeEnvelope (quantData options)).toOption
      = ((takeHash.pair takeCid).run options).toOption.map
        fun y => ⟨1, "d", "s", [], y.1.1, y.1.2⟩ := by
  have hfields : takeFields.run (QuantEnvelope.fieldsCodec.encode quantFields ++ options)
      = .ok (fieldsOf quantFields, options) :=
    takeFields_follows.agree (QuantEnvelope.fieldsCodec.decode_encode _ _)
  rw [quantData, toOption_decodeEnvelope, hfields]
  show ((takeHash.pair takeCid).run options).toOption.bind _ = _
  cases ((takeHash.pair takeCid).run options).toOption <;> rfl

theorem decode_quantData {options : List UInt8}
    (h : QuantEnvelope.optionsCodec.decode options = none) :
    QuantEnvelope.decode (quantData options) = .error (.invalidQuantEnvelope "bincode") := by
  rw [quantData, QuantEnvelope.decode_magic_append, deserialize_envelope,
    QuantEnvelope.fieldsCodec.decode_encode, Option.bind_some, h]
  rfl

/-- **Envelopes that only the client accepts**: a tag that is neither `0` nor `1` is read as none,
and a content address that is shorter than its length is cut off. -/
theorem lax_options :
    (decodeEnvelope (quantData [2, 0])).toOption = some ⟨1, "d", "s", [], none, none⟩
    ∧ QuantEnvelope.decode (quantData [2, 0]) = .error (.invalidQuantEnvelope "bincode")
    ∧ (decodeEnvelope (quantData ([0, 1] ++ leBytes 8 5 ++ utf8 "x"))).toOption
      = some ⟨1, "d", "s", [], none, some "x"⟩
    ∧ QuantEnvelope.decode (quantData ([0, 1] ++ leBytes 8 5 ++ utf8 "x"))
      = .error (.invalidQuantEnvelope "bincode") := by
  have hcut : takeStr.run (leBytes 8 5 ++ utf8 "x") = .ok ("x", []) :=
    takeStr_eq_ok.mpr ⟨5, utf8 "x", rfl, ofUtf8_utf8 "x", rfl⟩
  refine ⟨?_, decode_quantData rfl, ?_, decode_quantData rfl⟩
  · rw [decodeEnvelope_quantData]
    rfl
  · rw [decodeEnvelope_quantData]
    have hcid : takeCid.run (1 :: (leBytes 8 5 ++ utf8 "x")) = .ok (some "x", []) := by
      rw [takeCid_run_one, hcut]
      rfl
    have hrun : (takeHash.pair takeCid).run ([0, 1] ++ leBytes 8 5 ++ utf8 "x")
        = .ok ((none, some "x"), []) :=
      Reader.run_bind_eq_ok.mpr ⟨none, 1 :: (leBytes 8 5 ++ utf8 "x"), rfl,
        Reader.run_bind_eq_ok.mpr ⟨some "x", [], hcid, rfl⟩⟩
    rw [hrun]
    rfl

end Ivory.Devnet
