import Ivory.Primitives.Types

/-!
# Accounts, transactions, receipts and blocks

The data types of `ivory-core` with the encodings that serde derives for them:
every field in the order of its declaration.  Hashes are taken of these
encodings, so the order matters.  `from` and `to` are keywords of Lean; the two
parties of a transaction are the fields `sender` and `recipient`.
-/

namespace Ivory

/-! ### Accounts -/

/-- Account state stored in the ledger. -/
structure Account where
  nonce : UInt64
  balance : U256
  codeHash : H256
  storageRoot : H256
deriving DecidableEq

namespace Account

/-- `Account::new()`. -/
def new : Account := ⟨0, U256.zero, H256.zero, H256.zero⟩

instance : Inhabited Account := ⟨new⟩

/-- No nonce, balance, code or storage. -/
def isEmpty (a : Account) : Bool :=
  a.nonce == 0 && a.balance.isZero && a.codeHash == H256.zero && a.storageRoot == H256.zero

theorem isEmpty_iff {a : Account} : a.isEmpty = true ↔ a = new := by
  obtain ⟨n, b, c, s⟩ := a
  simp [isEmpty, new, U256.isZero_iff_eq, and_assoc]

/-- The encoding of an account. -/
def codec : Codec Account :=
  (Codec.word64.pair (U256.codec.pair ((fixedCodec 32).pair (fixedCodec 32)))).map
    (fun p => ⟨p.1, p.2.1, p.2.2.1, p.2.2.2⟩)
    (fun a => (a.nonce, a.balance, a.codeHash, a.storageRoot))
    (fun _ => rfl)

theorem encode_length (a : Account) : (codec.encode a).length = 104 := by
  simp [codec, U256.codec, fixedCodec, Codec.encode_word64, Arr.size]

end Account

/-! ### Transactions -/

/-- A signed ledger transaction. -/
structure Transaction where
  sender : Address
  recipient : Option Address
  value : U256
  data : Bytes
  gasPrice : U256
  gas : UInt64
  nonce : UInt64
  signature : Signature
  publicKey : PublicKey
deriving DecidableEq

/-- The fields that are signed: all but `signature` and `public_key`. -/
structure UnsignedTransaction where
  sender : Address
  recipient : Option Address
  value : U256
  data : Bytes
  gasPrice : U256
  gas : UInt64
  nonce : UInt64
deriving DecidableEq

/-- The encoding of the signed fields. -/
def UnsignedTransaction.codec : Codec UnsignedTransaction :=
  ((fixedCodec 20).pair ((fixedCodec 20).option.pair (U256.codec.pair (bytesCodec.pair
    (U256.codec.pair (Codec.word64.pair Codec.word64)))))).map
    (fun p => ⟨p.1, p.2.1, p.2.2.1, p.2.2.2.1, p.2.2.2.2.1, p.2.2.2.2.2.1, p.2.2.2.2.2.2⟩)
    (fun t => (t.sender, t.recipient, t.value, t.data, t.gasPrice, t.gas, t.nonce))
    (fun _ => rfl)

namespace Transaction

/-- The encoding of a transaction: the signed fields, then signature and key. -/
def codec : Codec Transaction :=
  (UnsignedTransaction.codec.pair ((fixedCodec 64).pair (fixedCodec 32))).map
    (fun p => ⟨p.1.sender, p.1.recipient, p.1.value, p.1.data, p.1.gasPrice, p.1.gas, p.1.nonce,
      p.2.1, p.2.2⟩)
    (fun t => (⟨t.sender, t.recipient, t.value, t.data, t.gasPrice, t.gas, t.nonce⟩,
      t.signature, t.publicKey))
    (fun _ => rfl)

/-- The signed part of a transaction. -/
def unsigned (t : Transaction) : UnsignedTransaction :=
  ⟨t.sender, t.recipient, t.value, t.data, t.gasPrice, t.gas, t.nonce⟩

/-- `is_create`. -/
def isCreate (t : Transaction) : Bool := t.recipient.isNone

/-- `data_len`. -/
def dataLen (t : Transaction) : ℕ := t.data.toList.length

variable [Keccak]

/-- `keccak256(bincode(tx))`. -/
def hash (t : Transaction) : H256 := keccakBincode codec t

/-- `keccak256(bincode(unsigned fields))`: the message that is signed. -/
def signingHash (t : Transaction) : H256 := keccakBincode UnsignedTransaction.codec t.unsigned

end Transaction

/-! ### Receipts -/

/-- A contract log. -/
structure Log where
  address : Address
  topics : Vec H256
  data : Bytes
deriving DecidableEq

/-- The encoding of a log. -/
def Log.codec : Codec Log :=
  ((fixedCodec 20).pair ((fixedCodec 32).vec.pair bytesCodec)).map
    (fun p => ⟨p.1, p.2.1, p.2.2⟩) (fun l => (l.address, l.topics, l.data)) (fun _ => rfl)

/-- Execution receipt of an included transaction. -/
structure Receipt where
  txHash : H256
  blockNumber : UInt64
  gasUsed : UInt64
  status : Bool
  logs : Vec Log
deriving DecidableEq

/-- The encoding of a receipt. -/
def Receipt.codec : Codec Receipt :=
  ((fixedCodec 32).pair (Codec.word64.pair (Codec.word64.pair (Codec.bool.pair
    Log.codec.vec)))).map
    (fun p => ⟨p.1, p.2.1, p.2.2.1, p.2.2.2.1, p.2.2.2.2⟩)
    (fun r => (r.txHash, r.blockNumber, r.gasUsed, r.status, r.logs))
    (fun _ => rfl)

/-! ### Blocks -/

/-- Header fields committed by consensus. -/
structure BlockHeader where
  number : UInt64
  parentHash : H256
  timestamp : UInt64
  miner : Address
  gasLimit : UInt64
  gasUsed : UInt64
  stateRoot : H256
  transactionsRoot : H256
  receiptsRoot : H256
  difficulty : U256
  extraData : Bytes
deriving DecidableEq

/-- The encoding of a header. -/
def BlockHeader.codec : Codec BlockHeader :=
  (Codec.word64.pair ((fixedCodec 32).pair (Codec.word64.pair ((fixedCodec 20).pair
    (Codec.word64.pair (Codec.word64.pair ((fixedCodec 32).pair ((fixedCodec 32).pair
      ((fixedCodec 32).pair (U256.codec.pair bytesCodec)))))))))).map
    (fun p => ⟨p.1, p.2.1, p.2.2.1, p.2.2.2.1, p.2.2.2.2.1, p.2.2.2.2.2.1, p.2.2.2.2.2.2.1,
      p.2.2.2.2.2.2.2.1, p.2.2.2.2.2.2.2.2.1, p.2.2.2.2.2.2.2.2.2.1, p.2.2.2.2.2.2.2.2.2.2⟩)
    (fun h => (h.number, h.parentHash, h.timestamp, h.miner, h.gasLimit, h.gasUsed,
      h.stateRoot, h.transactionsRoot, h.receiptsRoot, h.difficulty, h.extraData))
    (fun _ => rfl)

/-- A block: header, transactions and receipts. -/
structure Block where
  header : BlockHeader
  transactions : Vec Transaction
  receipts : Vec Receipt
deriving DecidableEq

/-- The errors of block validation that this development can reach. -/
inductive BlockError
  | gasExceeded
  | invalidTransactionsRoot
  | invalidReceiptsRoot
  | txReceiptCountMismatch
deriving DecidableEq

section Hashing

variable [Keccak]

/-- `keccak256(bincode(header))`. -/
def BlockHeader.hash (h : BlockHeader) : H256 := keccakBincode BlockHeader.codec h

/-- `keccak256(bincode(items))`. -/
def listRoot {α : Type} (c : Codec α) (items : Vec α) : H256 := keccakBincode c.vec items

namespace Block

/-- The hash of a block is the hash of its header. -/
def hash (b : Block) : H256 := b.header.hash

/-- `Block::validate`: the checks that need no chain. -/
def validate (b : Block) : Except BlockError Unit :=
  if b.header.gasUsed > b.header.gasLimit then .error .gasExceeded
  else if b.transactions.toList.length ≠ b.receipts.toList.length then
    .error .txReceiptCountMismatch
  else if b.header.transactionsRoot ≠ listRoot Transaction.codec b.transactions then
    .error .invalidTransactionsRoot
  else if b.header.receiptsRoot ≠ listRoot Receipt.codec b.receipts then
    .error .invalidReceiptsRoot
  else .ok ()

theorem validate_eq_ok {b : Block} : b.validate = .ok () ↔
    b.header.gasUsed ≤ b.header.gasLimit
      ∧ b.transactions.toList.length = b.receipts.toList.length
      ∧ b.header.transactionsRoot = listRoot Transaction.codec b.transactions
      ∧ b.header.receiptsRoot = listRoot Receipt.codec b.receipts := by
  rw [validate]
  split_ifs with h₁ h₂ h₃ h₄ <;> simp_all [UInt64.not_lt]

/-- What is hashed for a block: its header and its two lists. -/
def encodings (b : Block) : List (List UInt8) :=
  [BlockHeader.codec.encode b.header, Transaction.codec.vec.encode b.transactions,
    Receipt.codec.vec.encode b.receipts]

/-- **Without collisions the hash of a block determines the block**, its lists included. -/
theorem eq_of_hash_eq {b b' : Block} {S : Set (List UInt8)} (hcf : CollisionFree S)
    (hb : ∀ e ∈ b.encodings, e ∈ S) (hb' : ∀ e ∈ b'.encodings, e ∈ S)
    (hv : b.validate = .ok ()) (hv' : b'.validate = .ok ()) (h : b.hash = b'.hash) : b = b' := by
  obtain ⟨-, -, ht, hr⟩ := validate_eq_ok.mp hv
  obtain ⟨-, -, ht', hr'⟩ := validate_eq_ok.mp hv'
  have hheader : b.header = b'.header :=
    BlockHeader.codec.encode_injective (hcf (hb _ (by simp [encodings]))
      (hb' _ (by simp [encodings])) h)
  rw [hheader] at ht hr
  have htx : b.transactions = b'.transactions :=
    Transaction.codec.vec.encode_injective
      (hcf (hb _ (by simp [encodings])) (hb' _ (by simp [encodings])) (ht.symm.trans ht'))
  have hre : b.receipts = b'.receipts :=
    Receipt.codec.vec.encode_injective
      (hcf (hb _ (by simp [encodings])) (hb' _ (by simp [encodings])) (hr.symm.trans hr'))
  cases b
  cases b'
  cases hheader
  cases htx
  cases hre
  rfl

end Block

end Hashing

end Ivory
