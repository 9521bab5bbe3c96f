import Ivory.State.StateDB

/-!
# The wire format

`codec.rs` of `ivory-network`: a gossip message is an `enum` with the derived
encoding, a 32-bit tag and the fields of the variant.  Blocks, transactions and
headers travel in it; lists of transactions and receipts are hashed; snapshots
are written to disk.

The reader of each type is part of its codec, so that a round trip is one law
for all of them.

* `NetworkMessage.wire_format`: **what is written is read back, whatever follows
  it**; no encoding starts another one; equal hashes come from equal values.
-/

namespace Ivory

/-! ### Blocks and snapshots -/

/-- The encoding of a block. -/
def Block.codec : Codec Block :=
  (BlockHeader.codec.pair (Transaction.codec.vec.pair Receipt.codec.vec)).map
    (fun p => ⟨p.1, p.2.1, p.2.2⟩) (fun b => (b.header, b.transactions, b.receipts))
    (fun _ => rfl)

/-- `StateSnapshot` with the three vectors it has on disk. -/
structure SnapshotFile where
  accounts : Vec (Address × Account)
  storage : Vec (Address × H256 × U256)
  code : Vec (Address × Bytes)

namespace SnapshotFile

/-- The maps that a snapshot lists. -/
def toSnapshot (f : SnapshotFile) : StateSnapshot :=
  ⟨f.accounts.toList, f.storage.toList, f.code.toList⟩

/-- The encoding of a snapshot. -/
def codec : Codec SnapshotFile :=
  (((fixedCodec 20).pair Account.codec).vec.pair
    (((fixedCodec 20).pair ((fixedCodec 32).pair U256.codec)).vec.pair
      ((fixedCodec 20).pair bytesCodec).vec)).map
    (fun p => ⟨p.1, p.2.1, p.2.2⟩) (fun f => (f.accounts, f.storage, f.code)) (fun _ => rfl)

end SnapshotFile

/-! ### Messages -/

/-- Gossip and sync payload. -/
inductive NetworkMessage
  | block (b : Block)
  | transaction (tx : Transaction)
  | getBlock (hash : H256)
  | header (h : BlockHeader)
  | getHeader (hash : H256)
deriving DecidableEq

/-- The one error of the codec. -/
inductive NetworkError
  | invalidMessage
deriving DecidableEq

namespace NetworkMessage

/-- The encoding of a message: the tags follow the order of the variants. -/
def codec : Codec NetworkMessage where
  encode
    | block b => Codec.word32.encode 0 ++ Block.codec.encode b
    | transaction tx => Codec.word32.encode 1 ++ Transaction.codec.encode tx
    | getBlock hash => Codec.word32.encode 2 ++ (fixedCodec 32).encode hash
    | header h => Codec.word32.encode 3 ++ BlockHeader.codec.encode h
    | getHeader hash => Codec.word32.encode 4 ++ (fixedCodec 32).encode hash
  decode bytes := do
    let (tag, rest) ← Codec.word32.decode bytes
    if tag = 0 then Block.codec.decodeVariant block rest
    else if tag = 1 then Transaction.codec.decodeVariant transaction rest
    else if tag = 2 then (fixedCodec 32).decodeVariant getBlock rest
    else if tag = 3 then BlockHeader.codec.decodeVariant header rest
    else if tag = 4 then (fixedCodec 32).decodeVariant getHeader rest
    else none
  decode_encode := by
    intro m rest
    cases m <;> simp [List.append_assoc, Codec.decode_encode]

/-- `encode`. -/
def encode (m : NetworkMessage) : Except NetworkError (List UInt8) := .ok (codec.encode m)

/-- `decode`. -/
def decode (bytes : List UInt8) : Except NetworkError NetworkMessage :=
  match codec.deserialize bytes with
  | none => .error .invalidMessage
  | some m => .ok m

end NetworkMessage

/-! ### Round trips -/

theorem keccakBincode_injOn [Keccak] {α : Type} (c : Codec α) {a b : α}
    (hcf : CollisionFree {c.encode a, c.encode b}) (h : keccakBincode c a = keccakBincode c b) :
    a = b := c.encode_injective (hcf (Set.mem_insert _ _) (Set.mem_insert_of_mem _ rfl) h)

/-- **The wire format is unambiguous.**  A message is read back from its bytes, whatever follows
them; so are a transaction, a header, a list of transactions or of receipts and a snapshot.  No
encoding starts another one, and without collisions equal hashes and list roots come from equal
values. -/
theorem NetworkMessage.wire_format [Keccak] :
    (∀ m : NetworkMessage, ∃ bytes, m.encode = .ok bytes
      ∧ ∀ rest, NetworkMessage.decode (bytes ++ rest) = .ok m)
    ∧ NetworkMessage.codec.Unambiguous ∧ Transaction.codec.Unambiguous
    ∧ BlockHeader.codec.Unambiguous ∧ Transaction.codec.vec.Unambiguous
    ∧ Receipt.codec.vec.Unambiguous ∧ SnapshotFile.codec.Unambiguous
    ∧ (∀ h h' : BlockHeader,
      CollisionFree {BlockHeader.codec.encode h, BlockHeader.codec.encode h'} →
      h.hash = h'.hash → h = h')
    ∧ (∀ t t' : Transaction,
      CollisionFree {Transaction.codec.encode t, Transaction.codec.encode t'} →
      t.hash = t'.hash → t = t')
    ∧ (∀ ts ts' : Vec Transaction,
      CollisionFree {Transaction.codec.vec.encode ts, Transaction.codec.vec.encode ts'} →
      listRoot Transaction.codec ts = listRoot Transaction.codec ts' → ts = ts')
    ∧ ∀ rs rs' : Vec Receipt,
      CollisionFree {Receipt.codec.vec.encode rs, Receipt.codec.vec.encode rs'} →
      listRoot Receipt.codec rs = listRoot Receipt.codec rs' → rs = rs' := by
  refine ⟨fun m => ⟨_, rfl, fun rest => ?_⟩, Codec.unambiguous _, Codec.unambiguous _,
    Codec.unambiguous _, Codec.unambiguous _, Codec.unambiguous _, Codec.unambiguous _,
    fun _ _ => keccakBincode_injOn _, fun _ _ => keccakBincode_injOn _,
    fun _ _ => keccakBincode_injOn _, fun _ _ => keccakBincode_injOn _⟩
  rw [decode, codec.deserialize_encode_append]

end Ivory
