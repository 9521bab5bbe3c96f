import Ivory.Base.Text
import Ivory.Core

/-!
# Quant envelopes

`quant.rs` of `ivory-core`: an application payload in the data of a transaction,
the magic bytes `IQNT` and the encoding of the envelope.

* `QuantEnvelope.decode_encode`: what is encoded is decoded, if the version is
  the current one and there is a decision id, and refused otherwise.
-/

namespace Ivory

/-- A named metric. -/
structure QuantMetric where
  name : Text
  value : Text
deriving DecidableEq

/-- The encoding of a metric. -/
def QuantMetric.codec : Codec QuantMetric :=
  (Codec.text.pair Codec.text).map (fun p => ⟨p.1, p.2⟩) (fun m => (m.name, m.value))
    (fun _ => rfl)

/-- A structured payload of a transaction. -/
structure QuantEnvelope where
  version : UInt16
  decisionId : Text
  schema : Text
  metrics : Vec QuantMetric
  contentHash : Option H256
  cid : Option Text
deriving DecidableEq

/-- `QUANT_MAGIC`: the bytes of `IQNT`. -/
def quantMagic : List UInt8 := [73, 81, 78, 84]

/-- `QUANT_SCHEMA_VERSION`. -/
def quantSchemaVersion : UInt16 := 1

/-- `BlockError::InvalidQuantEnvelope`. -/
inductive QuantError
  | invalidQuantEnvelope (reason : String)
deriving DecidableEq

namespace QuantEnvelope

/-- The encoding of the fields that are always there. -/
def fieldsCodec : Codec (UInt16 × Text × Text × Vec QuantMetric) :=
  Codec.word16.pair (Codec.text.pair (Codec.text.pair QuantMetric.codec.vec))

/-- The encoding of the fields behind them, which may be missing. -/
def optionsCodec : Codec (Option H256 × Option Text) :=
  (fixedCodec 32).option.pair Codec.text.option

/-- The encoding of an envelope. -/
def codec : Codec QuantEnvelope :=
  (fieldsCodec.pair optionsCodec).map
    (fun p => ⟨p.1.1, p.1.2.1, p.1.2.2.1, p.1.2.2.2, p.2.1, p.2.2⟩)
    (fun e => ((e.version, e.decisionId, e.schema, e.metrics), e.contentHash, e.cid))
    (fun _ => rfl)

/-- `QuantEnvelope::encode`. -/
def encode (e : QuantEnvelope) : List UInt8 := quantMagic ++ codec.encode e

/-- The checks of `decode` on an envelope that was read. -/
def check (e : QuantEnvelope) : Except QuantError QuantEnvelope :=
  if e.version ≠ quantSchemaVersion then .error (.invalidQuantEnvelope "unsupported version")
  else if e.decisionId.str = "" then .error (.invalidQuantEnvelope "empty decision_id")
  else .ok e

/-- `QuantEnvelope::decode`. -/
def decode (data : List UInt8) : Except QuantError QuantEnvelope :=
  if data.length < 4 ∨ data.take 4 ≠ quantMagic then
    .error (.invalidQuantEnvelope "missing IQNT magic")
  else
    match codec.deserialize (data.drop 4) with
    | none => .error (.invalidQuantEnvelope "bincode")
    | some e => e.check

theorem check_eq_ok {e e' : QuantEnvelope} : e.check = .ok e' ↔
    e = e' ∧ e.version = quantSchemaVersion ∧ e.decisionId.str ≠ "" := by
  rw [check]
  split_ifs with hv hid
  · simp [hv]
  · simp [hid]
  · simp [not_not.mp hv, hid]

theorem decode_magic_append (body : List UInt8) : decode (quantMagic ++ body) =
    match codec.deserialize body with
    | none => .error (.invalidQuantEnvelope "bincode")
    | some e => e.check := by
  have hmagic : ¬ ((quantMagic ++ body).length < 4 ∨ (quantMagic ++ body).take 4 ≠ quantMagic) := by
    simp [quantMagic]
  rw [decode, if_neg hmagic]
  rfl

theorem decode_of_take_ne {data : List UInt8} (h : data.take 4 ≠ quantMagic) :
    decode data = .error (.invalidQuantEnvelope "missing IQNT magic") :=
  if_pos (.inr h)

/-- **What is encoded is read back** and then only checked. -/
theorem decode_encode (e : QuantEnvelope) : decode e.encode = e.check := by
  rw [encode, decode_magic_append, codec.deserialize_encode]

end QuantEnvelope

end Ivory
