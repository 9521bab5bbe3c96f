import Ivory.Chain.Apply

/-!
# A small network

Concrete stand-ins for the three parts that live outside the repository, and a
network with one validator and one funded account.  Theorems are stated over
all such parts; here is one choice on which they can be evaluated.

* the hash reads its input as a number in a large base, modulo `2 ^ 256`;
* a signature is the hash of the message and the key, followed by the key;
* the interpreter accepts no module, as `wasmi` does on bytes that are none.

`roundTrip`: what a key signs verifies under it.
-/

namespace Ivory.Devnet

/-! ### Hash, signatures, interpreter -/

/-- The input as a number in a large base. -/
def digestNat (bytes : List UInt8) : ℕ :=
  bytes.foldl (fun acc b => (acc * 1099511628211 + b.toNat + 1) % 2 ^ 256) 14695981039346656037

scoped instance : Keccak where
  digest bytes := ⟨leBytes 32 (digestNat bytes), by simp⟩

/-- The hash of the message and the key, followed by the key. -/
def signature (message : List UInt8) (key : SecretKey) : Signature :=
  ⟨(keccak256 (message ++ key.toList)).toList ++ key.toList, by simp [Arr.size]⟩

scoped instance : Ed25519 where
  verifyingKey sk := sk
  signMessage := signature
  validKey _ := true
  verifies message sig pk := sig == signature message pk

theorem roundTrip : Ed25519.RoundTrip :=
  ⟨fun _ => rfl, fun message sk => beq_self_eq_true (signature message sk)⟩

scoped instance : Wasmi where
  Module := Empty
  Inst := Empty
  parse _ := .error "invalid"
  start m := m.elim
  callExport i := i.elim
  call i := i.elim

/-! ### Keys, accounts and the genesis block -/

/-- The key of the validator. -/
def validatorKey : SecretKey := Arr.replicate 32 1

/-- The address of the validator. -/
def validator : Address := addressFromSecret validatorKey

/-- The key of the funded account. -/
def userKey : SecretKey := Arr.replicate 32 2

/-- The funded account. -/
def user : Address := addressFromSecret userKey

/-- An account without a key. -/
def sink : Address := Arr.replicate 20 7

/-- One validator, one seal. -/
def consensus : PoAConsensus :=
  ⟨⟨[Validator.fromSecret validatorKey], 1⟩, by simp, by decide⟩

/-- The state in which only the user has a balance. -/
def state : StateDB :=
  StateDB.new.setAccount user { Account.new with balance := U256.ofU64 1000000000000 }

/-- A block with the given lists on the given parent, sealed by the validator. -/
def build (number : UInt64) (parentHash : H256) (timestamp gasUsed : UInt64) (stateRoot : H256)
    (txs : List Transaction) (receipts : List Receipt) : Block :=
  let header : BlockHeader :=
    { number, parentHash, timestamp, miner := validator, gasLimit := 30000000, gasUsed, stateRoot
      transactionsRoot := listRoot Transaction.codec (Vec.ofList txs)
      receiptsRoot := listRoot Receipt.codec (Vec.ofList receipts)
      difficulty := U256.zero, extraData := Vec.empty }
  match consensus.sealHeader header validator validatorKey with
  | .ok header => ⟨header, Vec.ofList txs, Vec.ofList receipts⟩
  | .error _ => ⟨header, Vec.ofList txs, Vec.ofList receipts⟩

-- The blocks are irreducible: they are only ever evaluated as a whole.

/-- The genesis block. -/
@[irreducible] def genesisBlock : Block := build 0 H256.zero 0 0 state.rootHash.1 [] []

/-- The state after transactions that are executed in the next block. -/
def after (pre : StateDB) (parent : Block) (timestamp : UInt64) (txs : List Transaction) :
    StateDB :=
  match executeAll GasConfig.default pre
      (.new (parent.header.number.saturatingAdd 1) timestamp) txs with
  | .ok (_, post, _) => post
  | .error _ => pre

/-- The next block on a parent, with the receipts and the gas that execution gives. -/
def next [Wasmi] (pre : StateDB) (parent : Block) (timestamp : UInt64) (txs : List Transaction) :
    Block :=
  match executeAll GasConfig.default pre
      (.new (parent.header.number.saturatingAdd 1) timestamp) txs with
  | .ok (outs, post, ctx) =>
    build (parent.header.number.saturatingAdd 1) parent.hash timestamp ctx.gasUsed post.rootHash.1
      txs (outs.map ExecutionOutcome.receipt)
  | .error _ => parent

/-- A transfer of one unit from the user, signed. -/
def transfer (nonce : UInt64) : Transaction :=
  signedTx userKey (some sink) nonce U256.one 21000 U256.one Vec.empty

/-- A block with one transfer on the genesis. -/
@[irreducible] def blockA : Block := next state genesisBlock 1 [transfer 0]

/-- A block with two transfers on the genesis. -/
@[irreducible] def blockTwo : Block := next state genesisBlock 1 [transfer 0, transfer 1]

/-- Another block on the genesis, without transactions. -/
@[irreducible] def blockB : Block := next state genesisBlock 2 []

/-- Entries in the order they are listed in. -/
def inOrder {α : Type} : IterOrder α := ⟨id, List.Perm.refl⟩

/-- The last entry first. -/
def lastFirst {α : Type} : IterOrder α := ⟨List.reverse, List.reverse_perm⟩

/-- A block that the validator sealed and whose lists match its header. -/
def Sealed (b : Block) : Prop :=
  consensus.isValidator b.header.miner = true ∧ consensus.verifyCryptoSeals b.header = .ok ()
    ∧ b.validate = .ok ()

instance (b : Block) : Decidable (Sealed b) :=
  inferInstanceAs (Decidable (_ ∧ _ ∧ _))

theorem sealed_genesisBlock : Sealed genesisBlock ∧ genesisBlock.header.number = 0
    ∧ genesisBlock.header.parentHash = H256.zero := by decide +kernel

/-- A block one above the genesis. -/
def OnGenesis (b : Block) : Prop :=
  b.header.number = 1 ∧ genesisBlock.hash = b.header.parentHash
    ∧ b.header.number = genesisBlock.header.number.saturatingAdd 1
    ∧ genesisBlock.header.timestamp ≤ b.header.timestamp

instance (b : Block) : Decidable (OnGenesis b) :=
  inferInstanceAs (Decidable (_ ∧ _ ∧ _ ∧ _))

theorem sealed_blockA : Sealed blockA ∧ OnGenesis blockA := by decide +kernel

theorem sealed_blockB : Sealed blockB ∧ OnGenesis blockB := by decide +kernel

end Ivory.Devnet
