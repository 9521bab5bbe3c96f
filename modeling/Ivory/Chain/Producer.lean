import Ivory.Chain.Apply
import Mathlib.Data.List.Sort

/-!
# Producing a block

`produce_block` takes pending transactions, sorts them by sender and nonce,
executes them one after the other on the shared state of the executor, keeps
those that succeed, and seals a header over the result.

The order in which the pool yields its entries is an argument
(`TransactionPool.Iterates`).
-/

namespace Ivory

/-- Inputs of `produce_block`.  `entries` is what an iteration over the pool yields. -/
structure ProduceParams where
  parent : Block
  entries : List PendingTx
  state : StateDB
  consensus : PoAConsensus
  miner : Address
  minerKey : SecretKey
  timestamp : UInt64
  maxTxs : UInt64

/-- The order of execution: by sender, then by nonce. -/
def Transaction.Le (a b : Transaction) : Prop :=
  (compare a.sender b.sender).then (compare a.nonce b.nonce) ≠ .gt

instance : DecidableRel Transaction.Le := fun a b =>
  inferInstanceAs (Decidable ((compare a.sender b.sender).then (compare a.nonce b.nonce) ≠ .gt))

/-- The transactions a block is built from, in the order of execution. -/
def ProduceParams.candidates (params : ProduceParams) : List Transaction :=
  (TransactionPool.getPending params.entries params.maxTxs).insertionSort Transaction.Le

section

variable [Keccak] [Wasmi]

/-- Execute transactions in order on one state and keep those that succeed. -/
def executeEach (cfg : GasConfig) : StateDB → ExecutionContext → List Transaction →
    List (Transaction × Receipt) × StateDB × ExecutionContext
  | state, ctx, [] => ([], state, ctx)
  | state, ctx, tx :: txs =>
    match executeTransaction cfg state ctx tx with
    | (.ok out, state, ctx) =>
      let rest := executeEach cfg state ctx txs
      ((tx, out.receipt) :: rest.1, rest.2)
    | (.error _, state, ctx) => executeEach cfg state ctx txs

/-- The context of the block being built. -/
def ProduceParams.context (params : ProduceParams) : ExecutionContext :=
  { ExecutionContext.new (params.parent.header.number.saturatingAdd 1) params.timestamp with
    beneficiary := params.miner }

/-- The run over the candidates. -/
def ProduceParams.executed (params : ProduceParams) :
    List (Transaction × Receipt) × StateDB × ExecutionContext :=
  executeEach GasConfig.default params.state params.context params.candidates

/-- The header over a run, before sealing. -/
def ProduceParams.headerOf (params : ProduceParams)
    (run : List (Transaction × Receipt) × StateDB × ExecutionContext) (gasLimit : UInt64) :
    BlockHeader :=
  { number := params.parent.header.number.saturatingAdd 1
    parentHash := params.parent.hash
    timestamp := params.timestamp
    miner := params.miner
    gasLimit := gasLimit
    gasUsed := run.2.2.gasUsed
    stateRoot := run.2.1.rootHash.1
    transactionsRoot := listRoot Transaction.codec (Vec.ofList (run.1.map Prod.fst))
    receiptsRoot := listRoot Receipt.codec (Vec.ofList (run.1.map Prod.snd))
    difficulty := U256.zero
    extraData := Vec.empty }

/-- The header of the run over the candidates. -/
def ProduceParams.header (params : ProduceParams) (gasLimit : UInt64) : BlockHeader :=
  params.headerOf params.executed gasLimit

end

/-- Builds sealed blocks from pending transactions. -/
structure BlockProducer where
  gasLimit : UInt64

namespace BlockProducer

/-- `BlockProducer::new()`: the block gas cap of the default schedule. -/
def new : BlockProducer := ⟨GasConfig.default.maxGasPerBlock⟩

/-- `BlockProducer::with_gas_limit`. -/
def withGasLimit (gasLimit : UInt64) : BlockProducer := ⟨gasLimit⟩

variable [Keccak] [Ed25519] [Wasmi]

/-- `produce_block` with an executor of any gas schedule, and the state of the executor it
leaves. -/
def produceBlockWith (cfg : GasConfig) (producer : BlockProducer) (params : ProduceParams) :
    Except ChainError Block × StateDB :=
  let run := executeEach cfg params.state params.context params.candidates
  let included := Vec.ofList (run.1.map Prod.fst)
  let receipts := Vec.ofList (run.1.map Prod.snd)
  let left := run.2.1.rootHash.2
  match params.consensus.sealHeader (params.headerOf run producer.gasLimit) params.miner
      params.minerKey with
  | .error e => (.error (.consensus e), left)
  | .ok header => (.ok ⟨header, included, receipts⟩, left)

/-- `produce_block` with the executor of the node, `Executor::new`. -/
def produceBlock (producer : BlockProducer) (params : ProduceParams) :
    Except ChainError Block × StateDB :=
  producer.produceBlockWith GasConfig.default params

end BlockProducer

end Ivory
