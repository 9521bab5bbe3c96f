import Ivory.Devnet
import Ivory.Primitives.HexText

/-!
# Headers over JSON-RPC

A full node answers `ivory_getHeaderByNumber` with `header_to_json` of
`ivory-rpc`; a light client reads the answer with `header_from_rpc` of
`ivory-light`.  Numbers and bytes travel as hexadecimal text
(`Primitives/HexText.lean`), and a text is the list of its bytes.

* `headerFromRpc_headerToJson`, `verifyRpcHash_headerToJson`: **the header that
  a full node sends is the header that a light client reads.**
* `headerJson_exact`: and an answer with the hash of a block that passes the check
  **is read as the header of that block**, whatever else it contains.
-/

namespace Ivory

/-! ### Quantities -/

/-- `encode_qty`. -/
def encodeQty (n : UInt64) : List UInt8 :=
  if n = 0 then hexText [48] else hexText (Hex.ofNat n.toNat)

/-- `u64::from_str_radix(.., 16)` of the text behind the prefix. -/
def qtyFromHex (s : List UInt8) : Option UInt64 :=
  (Hex.number (2 ^ 64) (stripHex s)).map UInt64.ofNat

theorem qtyFromHex_encodeQty (n : UInt64) : qtyFromHex (encodeQty n) = some n := by
  have htext : encodeQty n = hexText (Hex.ofNat n.toNat) := by
    rw [encodeQty]
    split
    · next h0 => rw [h0]; rfl
    · rfl
  rw [qtyFromHex, htext, stripHex_hexText, Hex.number_ofNat n.toNat_lt, Option.map_some,
    UInt64.ofNat_toNat]

/-! ### Objects -/

/-- A JSON value, as far as headers need it: texts, objects, and values that are neither. -/
inductive Json
  | str (text : List UInt8)
  | object (fields : List (String × Json))
  | other

namespace Json

/-- `Value::get`. -/
def get (v : Json) (key : String) : Option Json :=
  match v with
  | object fields => fields.lookup key
  | _ => none

/-- `Value::as_str`. -/
def asStr : Json → Option (List UInt8)
  | str text => some text
  | _ => none

end Json

/-- Errors of the light client. -/
inductive LightError
  | parentMismatch
  | numberMismatch
  | missingSeal
  | invalidRpc (field : String)
  | hashMismatch
deriving DecidableEq

/-- Read a text; the error names what was expected. -/
def parseText {α : Type} (what : String) (read : List UInt8 → Option α) (v : Json) :
    Except LightError α :=
  match v.asStr.bind read with
  | none => .error (.invalidRpc what)
  | some a => .ok a

/-- `parse_qty`. -/
def parseQty : Json → Except LightError UInt64 := parseText "qty" qtyFromHex

/-- `parse_h256`. -/
def parseH256 : Json → Except LightError H256 := parseText "hash" (fixedFromHex 32)

/-- `parse_address`. -/
def parseAddress : Json → Except LightError Address := parseText "address" (fixedFromHex 20)

/-- `parse_u256`. -/
def parseU256 : Json → Except LightError U256 := parseText "u256" U256.fromHex

/-- `parse_bytes`. -/
def parseBytes : Json → Except LightError Bytes :=
  parseText "bytes" fun s => (Hex.decode (stripHex s)).map Vec.ofList

/-- A field that must be there; the error names the field. -/
def required {α : Type} (v : Json) (field : String) (parse : Json → Except LightError α) :
    Except LightError α :=
  match v.get field with
  | none => .error (.invalidRpc field)
  | some x => parse x

theorem parseText_str {α : Type} {what : String} {read : List UInt8 → Option α}
    {text : List UInt8} {a : α} (h : read text = some a) :
    parseText what read (.str text) = .ok a := by
  rw [parseText, Json.asStr, Option.bind_some, h]

theorem required_of_get {α : Type} {v x : Json} {field : String}
    {parse : Json → Except LightError α} (h : v.get field = some x) :
    required v field parse = parse x := by rw [required, h]

/-! ### Headers -/

/-- `header_from_rpc`.  Only `difficulty` may be missing. -/
def headerFromRpc (v : Json) : Except LightError BlockHeader := do
  let number ← required v "number" parseQty
  let parentHash ← required v "parentHash" parseH256
  let timestamp ← required v "timestamp" parseQty
  let miner ← required v "miner" parseAddress
  let gasLimit ← required v "gasLimit" parseQty
  let gasUsed ← required v "gasUsed" parseQty
  let stateRoot ← required v "stateRoot" parseH256
  let transactionsRoot ← required v "transactionsRoot" parseH256
  let receiptsRoot ← required v "receiptsRoot" parseH256
  let difficulty ← match v.get "difficulty" with
    | some d => parseU256 d
    | none => .ok U256.zero
  let extraData ← required v "extraData" parseBytes
  .ok { number, parentHash, timestamp, miner, gasLimit, gasUsed, stateRoot, transactionsRoot,
        receiptsRoot, difficulty, extraData }

/-- The hash that an answer reports. -/
def reportedHash (v : Json) : Except LightError H256 := required v "hash" parseH256

section

variable [Keccak]

/-- `verify_rpc_hash`. -/
def verifyRpcHash (header : BlockHeader) (v : Json) : Except LightError Unit := do
  let reported ← reportedHash v
  if reported ≠ header.hash then .error .hashMismatch else .ok ()

theorem verifyRpcHash_eq_ok {header : BlockHeader} {v : Json} :
    verifyRpcHash header v = .ok () ↔ reportedHash v = .ok header.hash := by
  rw [verifyRpcHash]
  cases hr : reportedHash v with
  | error e => simp [bind, Except.bind]
  | ok reported =>
    simp only [bind, Except.bind, Except.ok.injEq]
    split
    · next hne => simp [hne]
    · next heq => simp [not_not.mp heq]

/-- `header_to_json`. -/
def headerToJson (b : Block) : Json :=
  .object
    [("number", .str (encodeQty b.header.number)),
     ("hash", .str (fixedToHex b.hash)),
     ("parentHash", .str (fixedToHex b.header.parentHash)),
     ("miner", .str (fixedToHex b.header.miner)),
     ("timestamp", .str (encodeQty b.header.timestamp)),
     ("gasLimit", .str (encodeQty b.header.gasLimit)),
     ("gasUsed", .str (encodeQty b.header.gasUsed)),
     ("stateRoot", .str (fixedToHex b.header.stateRoot)),
     ("transactionsRoot", .str (fixedToHex b.header.transactionsRoot)),
     ("receiptsRoot", .str (fixedToHex b.header.receiptsRoot)),
     ("difficulty", .str b.header.difficulty.toHex),
     ("extraData", .str (hexText (Hex.encode b.header.extraData.toList)))]

/-- **The header that a full node sends is the header that a light client reads.** -/
theorem headerFromRpc_headerToJson (b : Block) : headerFromRpc (headerToJson b) = .ok b.header := by
  have hqty : ∀ (field : String) (n : UInt64),
      (headerToJson b).get field = some (.str (encodeQty n)) →
      required (headerToJson b) field parseQty = .ok n := fun field n hget =>
    (required_of_get hget).trans (parseText_str (qtyFromHex_encodeQty n))
  have hhash : ∀ (field : String) (h : H256),
      (headerToJson b).get field = some (.str (fixedToHex h)) →
      required (headerToJson b) field parseH256 = .ok h := fun field h hget =>
    (required_of_get hget).trans (parseText_str (fixedFromHex_fixedToHex h))
  have hminer : required (headerToJson b) "miner" parseAddress = .ok b.header.miner :=
    (required_of_get rfl).trans (parseText_str (fixedFromHex_fixedToHex b.header.miner))
  have hget : (headerToJson b).get "difficulty" = some (.str b.header.difficulty.toHex) := rfl
  have hdifficulty : parseU256 (.str b.header.difficulty.toHex) = .ok b.header.difficulty :=
    parseText_str (U256.fromHex_toHex _)
  have hextra : required (headerToJson b) "extraData" parseBytes = .ok b.header.extraData :=
    (required_of_get rfl).trans (parseText_str (by simp))
  simp only [headerFromRpc, hqty "number" b.header.number rfl,
    hhash "parentHash" b.header.parentHash rfl, hqty "timestamp" b.header.timestamp rfl, hminer,
    hqty "gasLimit" b.header.gasLimit rfl, hqty "gasUsed" b.header.gasUsed rfl,
    hhash "stateRoot" b.header.stateRoot rfl,
    hhash "transactionsRoot" b.header.transactionsRoot rfl,
    hhash "receiptsRoot" b.header.receiptsRoot rfl, hget, hdifficulty, hextra, bind, Except.bind]

theorem verifyRpcHash_headerToJson (b : Block) :
    verifyRpcHash b.header (headerToJson b) = .ok () := by
  rw [verifyRpcHash_eq_ok, reportedHash,
    required_of_get (show (headerToJson b).get "hash" = some (.str (fixedToHex b.hash)) from rfl)]
  exact parseText_str (fixedFromHex_fixedToHex _)

/-- **The header of a block is what is read under its hash.**  It is read from the answer of a
full node, which passes the check; and from any other answer that reports the hash of the block
and passes the check, as long as the hash does not collide on the two headers. -/
theorem headerJson_exact (b : Block) :
    headerFromRpc (headerToJson b) = .ok b.header
      ∧ verifyRpcHash b.header (headerToJson b) = .ok ()
      ∧ ∀ (v : Json) (h : BlockHeader), reportedHash v = .ok b.hash → headerFromRpc v = .ok h →
        verifyRpcHash h v = .ok () →
        CollisionFree {BlockHeader.codec.encode h, BlockHeader.codec.encode b.header} →
        h = b.header := by
  refine ⟨headerFromRpc_headerToJson b, verifyRpcHash_headerToJson b, ?_⟩
  intro v h hreported _ hverify hcf
  have hhash : h.hash = b.header.hash :=
    Except.ok.inj ((verifyRpcHash_eq_ok.mp hverify).symm.trans hreported)
  exact BlockHeader.codec.encode_injective (hcf (.inl rfl) (.inr rfl) hhash)

/-- `get_header_by_number`, asked for a height; `none` is the answer `BlockNotFound`. -/
def BlockStore.getHeaderByNumber (store : BlockStore) (n : UInt64) : Option Json :=
  (store.getBlockByNumber n).map headerToJson

end

namespace Devnet

/-- The header of a block in other words: `difficulty` is left out, the number has a plus sign and
a leading zero, and a field is there that nobody reads. -/
def reworded (b : Block) : Json :=
  .object
    [("number", .str (43 :: 48 :: Hex.ofNat b.header.number.toNat)),
     ("size", .other),
     ("hash", .str (fixedToHex b.hash)),
     ("parentHash", .str (Hex.encode b.header.parentHash.toList)),
     ("miner", .str (fixedToHex b.header.miner)),
     ("timestamp", .str (encodeQty b.header.timestamp)),
     ("gasLimit", .str (encodeQty b.header.gasLimit)),
     ("gasUsed", .str (encodeQty b.header.gasUsed)),
     ("stateRoot", .str (fixedToHex b.header.stateRoot)),
     ("transactionsRoot", .str (fixedToHex b.header.transactionsRoot)),
     ("receiptsRoot", .str (fixedToHex b.header.receiptsRoot)),
     ("extraData", .str (hexText (Hex.encode b.header.extraData.toList)))]

/-- An answer in other words gives the same header. -/
theorem headerJson_exact_reworded : ∃ h, headerFromRpc (reworded blockA) = .ok h
    ∧ verifyRpcHash h (reworded blockA) = .ok () ∧ h = blockA.header := by
  have heval : reportedHash (reworded blockA) = .ok blockA.hash
      ∧ headerFromRpc (reworded blockA) = .ok blockA.header
      ∧ verifyRpcHash blockA.header (reworded blockA) = .ok () := by decide +kernel
  obtain ⟨hreported, hread, hverify⟩ := heval
  refine ⟨_, hread, hverify, (headerJson_exact blockA).2.2 _ _ hreported hread hverify ?_⟩
  rintro x (rfl | rfl) y (rfl | rfl) _ <;> rfl

end Devnet

end Ivory
