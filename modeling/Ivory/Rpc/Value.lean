import Ivory.Executor.Simulate
import Ivory.Rpc
import Ivory.State.TrieProof
import Ivory.TxPool

/-!
# Requests

What the methods of `handler.rs` read from the parameters of a request: JSON values, hexadecimal
texts, block identifiers, and the object of `eth_call`.  A text is the list of its bytes, as in
`Rpc.lean`; what `serde_json` does between the text of a request and its value is not modelled.

An error keeps the text that the handler gives it.  Where the text comes from another error, that
error is kept; of the crates `hex`, `bincode` and `serde_json` only the fact is.
-/

namespace Ivory

/-! ### Values -/

/-- A number as `serde_json` holds it. -/
inductive Number
  | posInt (n : UInt64)
  | negInt (n : Int64)
  | float (bits : UInt64)
deriving DecidableEq

/-- A JSON value. -/
inductive Value
  | null
  | bool (b : Bool)
  | number (n : Number)
  | string (text : List UInt8)
  | array (items : List Value)
  | object (fields : List (String × Value))

namespace Value

/-- `as_u64`. -/
def asU64 : Value → Option UInt64
  | number (.posInt n) => some n
  | _ => none

/-- `as_str`. -/
def asStr : Value → Option (List UInt8)
  | string text => some text
  | _ => none

/-- `as_array`. -/
def asArray : Value → Option (List Value)
  | array items => some items
  | _ => none

/-- `as_object`. -/
def asObject : Value → Option (List (String × Value))
  | object fields => some fields
  | _ => none

/-- `get` of a field. -/
def field (v : Value) (name : String) : Option Value := v.asObject.bind (List.lookup name)

/-- `is_null`. -/
def isNull : Value → Bool
  | null => true
  | _ => false

/-- A text, written as such. -/
def text (s : String) : Value := string (utf8 s)

/-- `json!` of an option. -/
def ofOption {α : Type} (f : α → Value) : Option α → Value
  | none => null
  | some a => f a

end Value

/-! ### Errors -/

/-- The errors of `from_hex` of the fixed-size byte types. -/
inductive HexError
  | invalidLength (expected got : ℕ)
  | invalidHex
deriving DecidableEq

/-- What the text of an error is. -/
inductive Detail
  | text (s : String)
  | primitive (e : HexError)
  | pool (e : TxPoolError)
  | execution (e : ExecutionError)
  | proof (e : ProofError)
  | unknownSubscription (topic : List UInt8)
  | hex
  | bincode
  | json
deriving DecidableEq

/-- RPC errors. -/
inductive RpcError
  | methodNotFound (method : String)
  | invalidParams (detail : Detail)
  | internal (detail : Detail)
  | server (detail : Detail)
  | transactionNotFound
  | blockNotFound
  | accountNotFound
deriving DecidableEq

/-- The numeric code of the JSON-RPC error. -/
def RpcError.code : RpcError → ℤ
  | methodNotFound _ => -32601
  | invalidParams _ => -32602
  | internal _ | server _ => -32603
  | transactionNotFound => -32000
  | blockNotFound => -32001
  | accountNotFound => -32002

/-! ### Positional parameters -/

/-- Invalid parameters, with a text of the handler. -/
def invalidParams {α : Type} (s : String) : Except RpcError α := .error (.invalidParams (.text s))

/-- `params_array`. -/
def paramsArray (params : Value) : Except RpcError (List Value) :=
  match params.asArray with
  | none => invalidParams "expected array"
  | some items => .ok items

/-- `parse_string_at`. -/
def parseStringAt (params : Value) (idx : ℕ) : Except RpcError (List UInt8) := do
  let items ← paramsArray params
  match items[idx]?.bind Value.asStr with
  | none => invalidParams s!"missing string at {idx}"
  | some s => .ok s

/-- `decode_hex`. -/
def decodeHex (s : List UInt8) : Except RpcError (List UInt8) :=
  match Hex.decode (stripHex s) with
  | none => .error (.invalidParams .hex)
  | some bytes => .ok bytes

/-- `from_hex` of the fixed-size byte types, with its errors. -/
def fixedOfHex (n : ℕ) (s : List UInt8) : Except HexError (Arr UInt8 n) :=
  let s := stripHex s
  if s.length ≠ n * 2 then .error (.invalidLength (n * 2) s.length)
  else
    match Hex.decode s with
    | none => .error .invalidHex
    | some bytes =>
      if h : bytes.length = n then .ok ⟨bytes, h⟩ else .error (.invalidLength n bytes.length)

theorem toOption_fixedOfHex (n : ℕ) (s : List UInt8) :
    (fixedOfHex n s).toOption = fixedFromHex n s := by
  unfold fixedOfHex fixedFromHex
  simp only
  split
  · rfl
  · cases Hex.decode (stripHex s) with
    | none => rfl
    | some bytes =>
      simp only [Option.bind_eq_bind, Option.bind_some]
      split <;> rfl

theorem fixedOfHex_fixedToHex {n : ℕ} (a : Arr UInt8 n) : fixedOfHex n (fixedToHex a) = .ok a := by
  have h := toOption_fixedOfHex n (fixedToHex a)
  rw [fixedFromHex_fixedToHex] at h
  cases hx : fixedOfHex n (fixedToHex a) with
  | error e =>
    rw [hx] at h
    cases h
  | ok b =>
    rw [hx] at h
    cases h
    rfl

/-- Read a text as bytes of fixed size; the error is that of `from_hex`. -/
def parseFixed (n : ℕ) (s : List UInt8) : Except RpcError (Arr UInt8 n) :=
  (fixedOfHex n s).mapError fun e => .invalidParams (.primitive e)

/-- `parse_address_at`. -/
def parseAddressAt (params : Value) (idx : ℕ) : Except RpcError Address :=
  parseStringAt params idx >>= parseFixed 20

/-- `parse_h256_at`. -/
def parseH256At (params : Value) (idx : ℕ) : Except RpcError H256 :=
  parseStringAt params idx >>= parseFixed 32

/-- A list of texts that are bytes of fixed size. -/
def parseFixedList (n : ℕ) (entryError : String) (items : List Value) :
    Except RpcError (List (Arr UInt8 n)) :=
  items.mapM fun v =>
    match v.asStr with
    | none => invalidParams entryError
    | some s => parseFixed n s

/-- `parse_storage_keys`. -/
def parseStorageKeys (params : Value) (idx : ℕ) : Except RpcError (List H256) := do
  let items ← paramsArray params
  match items[idx]? with
  | none => .ok []
  | some v =>
    if v.isNull then .ok []
    else
      match v.asArray with
      | none => invalidParams "storage keys must be an array"
      | some keys => parseFixedList 32 "storage key must be hex" keys

/-- `parse_log_addresses`. -/
def parseLogAddresses : Option Value → Except RpcError (List Address)
  | none => .ok []
  | some v =>
    if v.isNull then .ok []
    else
      match v.asStr with
      | some s => (parseFixed 20 s).map fun a => [a]
      | none =>
        match v.asArray with
        | none => invalidParams "address must be hex or array"
        | some items => parseFixedList 20 "address entry must be hex" items

/-! ### Block identifiers -/

/-- Block tags. -/
inductive BlockTag
  | latest | earliest | pending | safe | finalized
deriving DecidableEq

/-- A block by its number or by a tag. -/
inductive BlockNumberOrTag
  | number (n : UInt64)
  | tag (t : BlockTag)
deriving DecidableEq

/-- `parse_block_id`. -/
def parseBlockId (v : Value) : Except RpcError BlockNumberOrTag :=
  match v.asU64 with
  | some n => .ok (.number n)
  | none =>
    match v.asStr with
    | none => invalidParams "block id must be string or number"
    | some s =>
      if s = utf8 "latest" then .ok (.tag .latest)
      else if s = utf8 "earliest" then .ok (.tag .earliest)
      else if s = utf8 "pending" then .ok (.tag .pending)
      else if s = utf8 "safe" then .ok (.tag .safe)
      else if s = utf8 "finalized" then .ok (.tag .finalized)
      else
        match qtyFromHex s with
        | none => invalidParams "invalid block number"
        | some n => .ok (.number n)

/-- `parse_block_id_at`. -/
def parseBlockIdAt (params : Value) (idx : ℕ) : Except RpcError BlockNumberOrTag := do
  let items ← paramsArray params
  match items[idx]? with
  | none => invalidParams s!"missing block id at {idx}"
  | some v => parseBlockId v

/-- `optional_block_id`: `latest` where there is none. -/
def optionalBlockId (params : Value) (idx : ℕ) : Except RpcError BlockNumberOrTag := do
  let items ← paramsArray params
  match items[idx]? with
  | none => .ok (.tag .latest)
  | some v => if v.isNull then .ok (.tag .latest) else parseBlockId v

/-! ### The object of `eth_call` -/

/-- `TransactionRequest`. -/
structure TransactionRequest where
  sender : Option Address
  recipient : Option Address
  gas : Option U256
  gasPrice : Option U256
  value : Option U256
  data : Option (List UInt8)
  nonce : Option U256

/-- An optional field: nothing and `null` are absent, anything else has to be a text that is
read. -/
def optionalField {α : Type} (read : List UInt8 → Option α) :
    Option Value → Except RpcError (Option α)
  | none | some .null => .ok none
  | some v =>
    match v.asStr.bind read with
    | none => .error (.invalidParams .json)
    | some a => .ok (some a)

/-- `TransactionRequest`, as serde derives its reading: an object with these fields and others, or
an array with exactly these. -/
def TransactionRequest.fromValue (v : Value) : Except RpcError TransactionRequest := do
  let field ← match v with
    | .object fields => .ok fun (name : String) (_ : ℕ) => fields.lookup name
    | .array items =>
      if items.length = 7 then .ok fun (_ : String) (idx : ℕ) => items[idx]?
      else .error (.invalidParams .json)
    | _ => .error (.invalidParams .json)
  let sender ← optionalField (fixedFromHex 20) (field "from" 0)
  let recipient ← optionalField (fixedFromHex 20) (field "to" 1)
  let gas ← optionalField U256.fromHex (field "gas" 2)
  let gasPrice ← optionalField U256.fromHex (field "gasPrice" 3)
  let value ← optionalField U256.fromHex (field "value" 4)
  let data ← optionalField some (field "data" 5)
  let nonce ← optionalField U256.fromHex (field "nonce" 6)
  .ok { sender, recipient, gas, gasPrice, value, data, nonce }

/-- `gas_limit`. -/
def gasLimit : Option U256 → UInt64
  | none => 10000000
  | some v =>
    if v.isZero then 10000000
    else if U256.ofU64 (UInt64.ofNat (2 ^ 64 - 1)) < v then UInt64.ofNat (2 ^ 64 - 1)
    else v.lowU64

/-- `parse_call_args`. -/
def parseCallArgs (params : Value) : Except RpcError (SimulateRequest × BlockNumberOrTag) := do
  let items ← paramsArray params
  match items with
  | [] => invalidParams "missing transaction object"
  | obj :: rest =>
    let req ← TransactionRequest.fromValue obj
    let tag ← match rest with
      | [] => .ok (.tag .latest)
      | v :: _ => parseBlockId v
    let data ← match req.data with
      | none | some [] => .ok Vec.empty
      | some s => (decodeHex s).map Vec.ofList
    .ok ({ sender := req.sender.getD Address.zero
           recipient := req.recipient
           value := req.value.getD U256.zero
           data := data
           gas := gasLimit req.gas }, tag)

end Ivory
