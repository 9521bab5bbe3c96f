import Ivory.Persist
import Ivory.Rpc.Value
import Ivory.State.Commitment

/-!
# The methods

`handler.rs` of `ivory-rpc`: what each method answers from the store, the pool and the live state,
and what it leaves behind.  A method that panics has no reply; that is possible only for
`eth_getProof`, whose trie walk is bounded here.

* `RpcContext.handle`: one request.
* `RpcContext.handle_eq_answer`: **only `eth_sendRawTransaction` writes**, to the pool, to the
  network and to the subscribers.
-/

namespace Ivory

/-- Producer or follower. -/
inductive NodeRole
  | producer
  | follower
deriving DecidableEq

/-- `as_str`. -/
def NodeRole.asStr : NodeRole → String
  | producer => "producer"
  | follower => "follower"

/-- Catalog row for a contract that is kept in files. -/
structure ContractMeta where
  name : String
  schema : String
  source : String
  description : String
deriving DecidableEq

/-- What subscribers are told. -/
inductive RpcEvent
  | newHead (number : UInt64) (hash parentHash : H256) (miner : Address) (timestamp : UInt64)
      (stateRoot : H256) (gasLimit gasUsed : UInt64)
  | newPendingTx (hash : H256)
  | newLogs (logs : List Log) (blockNumber : UInt64) (blockHash : H256)
deriving DecidableEq

/-- What the methods read: the chain, the pool and the live state, and what the node was started
with. -/
structure RpcContext where
  chain : ChainState
  chainId : UInt64
  role : NodeRole
  address : Address
  peerId : String
  peers : ℕ
  bootstrap : List String
  contractLookup : Option (H256 → Option ContractMeta)
  gossips : Bool
  allowMethods : Option (List String)

/-- The methods that `handle` knows. -/
inductive Method
  | chainId | blockNumber | getBalance | getCode | getStorageAt | getBlockByNumber | getBlockByHash
  | getTransactionByHash | getTransactionReceipt | getTransactionCount | sendRawTransaction | call
  | estimateGas | getLogs | getProof | subscribe | unsubscribe | nodeInfo | listContracts
  | getHeaderByNumber
deriving DecidableEq

namespace Method

/-- The name of a method. -/
def name : Method → String
  | chainId => "eth_chainId"
  | blockNumber => "eth_blockNumber"
  | getBalance => "eth_getBalance"
  | getCode => "eth_getCode"
  | getStorageAt => "eth_getStorageAt"
  | getBlockByNumber => "eth_getBlockByNumber"
  | getBlockByHash => "eth_getBlockByHash"
  | getTransactionByHash => "eth_getTransactionByHash"
  | getTransactionReceipt => "eth_getTransactionReceipt"
  | getTransactionCount => "eth_getTransactionCount"
  | sendRawTransaction => "eth_sendRawTransaction"
  | call => "eth_call"
  | estimateGas => "eth_estimateGas"
  | getLogs => "eth_getLogs"
  | getProof => "eth_getProof"
  | subscribe => "eth_subscribe"
  | unsubscribe => "eth_unsubscribe"
  | nodeInfo => "ivory_nodeInfo"
  | listContracts => "ivory_listContracts"
  | getHeaderByNumber => "ivory_getHeaderByNumber"

/-- All methods, in the order of the `match`. -/
def all : List Method :=
  [chainId, blockNumber, getBalance, getCode, getStorageAt, getBlockByNumber, getBlockByHash,
    getTransactionByHash, getTransactionReceipt, getTransactionCount, sendRawTransaction, call,
    estimateGas, getLogs, getProof, subscribe, unsubscribe, nodeInfo, listContracts,
    getHeaderByNumber]

/-- The `match` on the name. -/
def ofName (s : String) : Option Method := all.find? fun m => m.name == s

theorem name_of_ofName {s : String} {m : Method} (h : ofName s = some m) : m.name = s := by
  have := List.find?_some h
  simpa using this

theorem ofName_name (m : Method) : ofName m.name = some m := by
  cases m <;> rfl

end Method

/-! ### Answers -/

/-- A quantity. -/
def Value.qty (n : UInt64) : Value := .string (encodeQty n)

theorem encodeQty_injective : Function.Injective encodeQty := by
  intro n m h
  have hread := qtyFromHex_encodeQty n
  rw [h, qtyFromHex_encodeQty] at hread
  exact (Option.some.inj hread).symm

theorem Value.qty_injective : Function.Injective Value.qty :=
  fun _ _ h => encodeQty_injective (Value.string.inj h)

/-- Bytes of fixed size. -/
def Value.fixed {n : ℕ} (a : Arr UInt8 n) : Value := .string (fixedToHex a)

/-- A 256-bit number. -/
def Value.u256 (x : U256) : Value := .string x.toHex

/-- Bytes. -/
def Value.bytes (bs : List UInt8) : Value := .string (hexText (Hex.encode bs))

/-- `log_to_json`. -/
def logToJson (log : Log) : Value :=
  .object
    [("address", .fixed log.address),
     ("topics", .array (log.topics.toList.map .fixed)),
     ("data", .bytes log.data.toList)]

section Answers

variable [Keccak]

/-- `header_to_json`. -/
def headerToValue (b : Block) : Value :=
  .object
    [("number", .qty b.header.number),
     ("hash", .fixed b.hash),
     ("parentHash", .fixed b.header.parentHash),
     ("miner", .fixed b.header.miner),
     ("timestamp", .qty b.header.timestamp),
     ("gasLimit", .qty b.header.gasLimit),
     ("gasUsed", .qty b.header.gasUsed),
     ("stateRoot", .fixed b.header.stateRoot),
     ("transactionsRoot", .fixed b.header.transactionsRoot),
     ("receiptsRoot", .fixed b.header.receiptsRoot),
     ("difficulty", .u256 b.header.difficulty),
     ("extraData", .bytes b.header.extraData.toList)]

/-- `block_to_json`. -/
def blockToJson (b : Block) : Value :=
  .object
    [("number", .qty b.header.number),
     ("hash", .fixed b.hash),
     ("parentHash", .fixed b.header.parentHash),
     ("miner", .fixed b.header.miner),
     ("timestamp", .qty b.header.timestamp),
     ("gasLimit", .qty b.header.gasLimit),
     ("gasUsed", .qty b.header.gasUsed),
     ("stateRoot", .fixed b.header.stateRoot),
     ("transactionsRoot", .fixed b.header.transactionsRoot),
     ("receiptsRoot", .fixed b.header.receiptsRoot),
     ("extraData", .bytes b.header.extraData.toList),
     ("transactions", .array (b.transactions.toList.map fun tx => .fixed tx.hash))]

/-- `tx_to_json`. -/
def txToJson (tx : Transaction) (loc : Option TxLocation) : Value :=
  .object
    [("hash", .fixed tx.hash),
     ("nonce", .qty tx.nonce),
     ("blockHash", .ofOption (fun l => .fixed l.blockHash) loc),
     ("blockNumber", .ofOption (fun l => .qty l.blockNumber) loc),
     ("transactionIndex", .ofOption (fun l => .qty (UInt64.ofNat l.index)) loc),
     ("from", .fixed tx.sender),
     ("to", .ofOption .fixed tx.recipient),
     ("value", .u256 tx.value),
     ("gas", .qty tx.gas),
     ("gasPrice", .u256 tx.gasPrice),
     ("input", .bytes tx.data.toList)]

/-- The answer of `eth_getTransactionReceipt`. -/
def receiptToJson (hash : H256) (tx : Transaction) (loc : TxLocation) (receipt : Receipt) : Value :=
  .object
    [("transactionHash", .fixed hash),
     ("transactionIndex", .qty (UInt64.ofNat loc.index)),
     ("blockHash", .fixed loc.blockHash),
     ("blockNumber", .qty loc.blockNumber),
     ("from", .fixed tx.sender),
     ("to", .ofOption .fixed tx.recipient),
     ("gasUsed", .qty receipt.gasUsed),
     ("cumulativeGasUsed", .qty receipt.gasUsed),
     ("status", .text (if receipt.status then "0x1" else "0x0")),
     ("logs", .array (receipt.logs.toList.map logToJson)),
     ("contractAddress", if tx.isCreate then .fixed (Address.create tx.sender tx.nonce) else .null)]

/-- `encode_proof_nodes`. -/
def encodeProofNodes (nodes : List (List UInt8)) : Value := .array (nodes.map .bytes)

/-- The answer of `eth_getProof`. -/
def proofToJson (addr : Address) (answer : ProofAnswer) : Value :=
  .object
    [("address", .fixed addr),
     ("accountProof", encodeProofNodes answer.accountProof),
     ("balance", .u256 answer.account.balance),
     ("codeHash", .fixed answer.account.codeHash),
     ("nonce", .qty answer.account.nonce),
     ("storageHash", .fixed answer.account.storageRoot),
     ("storageProof", .array (answer.storageProof.map fun e => .object
       [("key", .fixed e.1), ("value", .u256 e.2.1), ("proof", encodeProofNodes e.2.2)]))]

/-- An entry of `eth_getLogs`. -/
def logEntryToJson (number : UInt64) (hash txHash : H256) (txIdx logIdx : ℕ) (log : Log) : Value :=
  .object
    [("address", .fixed log.address),
     ("topics", .array (log.topics.toList.map .fixed)),
     ("data", .bytes log.data.toList),
     ("blockNumber", .qty number),
     ("blockHash", .fixed hash),
     ("transactionHash", .fixed txHash),
     ("transactionIndex", .qty (UInt64.ofNat txIdx)),
     ("logIndex", .qty (UInt64.ofNat logIdx))]

/-- An entry of `ivory_listContracts`. -/
def contractToJson (number : UInt64) (tx : Transaction) (code : List UInt8)
    (row : Option ContractMeta) : Value :=
  .object
    [("address", .fixed (Address.create tx.sender tx.nonce)),
     ("codeSize", .number (.posInt (UInt64.ofNat code.length))),
     ("blockNumber", .qty number),
     ("transactionHash", .fixed tx.hash),
     ("name", .ofOption (fun m => .text m.name) row),
     ("schema", .ofOption (fun m => .text m.schema) row),
     ("source", .ofOption (fun m => .text m.source) row),
     ("description", .ofOption (fun m => .text m.description) row),
     ("registered", .bool row.isSome)]

end Answers

/-- A value that has to be there. -/
def found {α : Type} (e : RpcError) : Option α → Except RpcError α
  | none => .error e
  | some a => .ok a

namespace RpcContext

variable (ctx : RpcContext)

/-! ### Blocks and states -/

/-- `block_by_tag`. -/
def blockByTag : BlockNumberOrTag → Option Block
  | .number n => ctx.chain.store.getBlockByNumber n
  | .tag .earliest => ctx.chain.store.getBlockByNumber 0
  | .tag .latest | .tag .pending | .tag .safe | .tag .finalized => ctx.chain.store.headBlock

section

variable [Keccak]

/-- `state_for_tag`. -/
def stateForTag : BlockNumberOrTag → Except RpcError StateDB
  | .tag .latest | .tag .pending | .tag .safe | .tag .finalized => .ok ctx.chain.live.fork
  | other => do
    let block ← found .blockNotFound (ctx.blockByTag other)
    found .blockNotFound (ctx.chain.store.stateAt block.hash)

/-! ### Queries -/

/-- `block_number`. -/
def getBlockNumber : Except RpcError Value :=
  (found .blockNotFound ctx.chain.store.headBlock).map fun b => .qty b.header.number

/-- `get_balance`. -/
def getBalance (params : Value) : Except RpcError Value := do
  let addr ← parseAddressAt params 0
  let state ← ctx.stateForTag (← optionalBlockId params 1)
  .ok (.u256 ((state.getAccount addr).elim U256.zero Account.balance))

/-- `get_code`. -/
def getCode (params : Value) : Except RpcError Value := do
  let addr ← parseAddressAt params 0
  let state ← ctx.stateForTag (← optionalBlockId params 1)
  .ok (.bytes (state.getCode addr))

/-- `get_storage_at`. -/
def getStorageAt (params : Value) : Except RpcError Value := do
  let addr ← parseAddressAt params 0
  let slot ← parseH256At params 1
  let state ← ctx.stateForTag (← optionalBlockId params 2)
  .ok (.u256 (state.getStorage addr slot))

/-- `get_transaction_count`. -/
def getTransactionCount (params : Value) : Except RpcError Value := do
  let addr ← parseAddressAt params 0
  let state ← ctx.stateForTag (← optionalBlockId params 1)
  .ok (.qty ((state.getAccount addr).elim 0 Account.nonce))

/-- The levels that a walk down a trie of keys of 32 bytes can pass. -/
def proofLevels : ℕ := 65

/-- `eth_get_proof`. -/
def ethGetProof (params : Value) : Option (Except RpcError Value) :=
  match (do
      let addr ← parseAddressAt params 0
      let slots ← parseStorageKeys params 1
      let state ← ctx.stateForTag (← optionalBlockId params 2)
      pure (addr, slots, state) : Except RpcError (Address × List H256 × StateDB)) with
  | .error e => some (.error e)
  | .ok (addr, slots, state) =>
    (state.ethGetProof proofLevels addr slots).map fun r =>
      (r.mapError fun e => .server (.proof e)).map (proofToJson addr)

/-- `get_block_by_number`. -/
def getBlockByNumber (params : Value) : Except RpcError Value := do
  let tag ← parseBlockIdAt params 0
  (found .blockNotFound (ctx.blockByTag tag)).map blockToJson

/-- `get_block_by_hash`. -/
def getBlockByHash (params : Value) : Except RpcError Value := do
  let hash ← parseH256At params 0
  (found .blockNotFound (ctx.chain.store.getBlock hash)).map blockToJson

/-- `get_transaction_by_hash`: the pool is asked first. -/
def getTransactionByHash (params : Value) : Except RpcError Value := do
  let hash ← parseH256At params 0
  match ctx.chain.pool.pending[hash]? with
  | some entry => .ok (txToJson entry.tx none)
  | none =>
    let (tx, loc) ← found .transactionNotFound (ctx.chain.store.getTransaction hash)
    .ok (txToJson tx (some loc))

/-- `get_transaction_receipt`. -/
def getTransactionReceipt (params : Value) : Except RpcError Value := do
  let hash ← parseH256At params 0
  let (tx, loc) ← found .transactionNotFound (ctx.chain.store.getTransaction hash)
  let block ← found .blockNotFound (ctx.chain.store.getBlock loc.blockHash)
  let receipt ← found .transactionNotFound block.receipts.toList[loc.index]?
  .ok (receiptToJson hash tx loc receipt)

/-- `node_info`. -/
def nodeInfo : Value :=
  let head := ctx.chain.store.headBlock
  .object
    [("role", .text ctx.role.asStr),
     ("address", .fixed ctx.address),
     ("chainId", .qty ctx.chainId),
     ("peerId", .text ctx.peerId),
     ("peers", .number (.posInt (UInt64.ofNat ctx.peers))),
     ("pending", .number (.posInt (UInt64.ofNat ctx.chain.pool.pending.size))),
     ("headNumber", head.elim (.text "0x0") fun b => .qty b.header.number),
     ("headHash", .ofOption (fun b => .fixed b.hash) head),
     ("bootstrap", .array (ctx.bootstrap.map .text))]

/-- The contracts that a block created. -/
def contractsOf (number : UInt64) (b : Block) : List Value :=
  (b.transactions.toList.zip b.receipts.toList).filterMap fun e =>
    if !e.1.isCreate || !e.2.status then none
    else
      let code := ctx.chain.live.getCode (Address.create e.1.sender e.1.nonce)
      let row := ctx.contractLookup.bind fun f => f (keccak256 code)
      some (contractToJson number e.1 code row)

/-- `list_contracts`. -/
def listContracts : Value :=
  match ctx.chain.store.headBlock with
  | none => .array []
  | some head => .array ((heightsBetween 1 head.header.number).flatMap fun n =>
      match ctx.chain.store.getBlockByNumber n with
      | none => []
      | some b => ctx.contractsOf n b)

/-- `get_header_by_number`. -/
def getHeaderByNumber (params : Value) : Except RpcError Value := do
  let tag ← parseBlockIdAt params 0
  (found .blockNotFound (ctx.blockByTag tag)).map headerToValue

/-! ### Logs -/

/-- One end of the range of `eth_get_logs`; `missing` is its value for a tag without a block, and
`absent` where the filter does not say. -/
def logBound (v : Option Value) (missing absent : UInt64) : Except RpcError UInt64 :=
  match v with
  | none => .ok absent
  | some v => do
    match ← parseBlockId v with
    | .number n => .ok n
    | tag => .ok ((ctx.blockByTag tag).elim missing fun b => b.header.number)

/-- The logs of a block that the filter selects. -/
def logsOf (addrs : List Address) (number : UInt64) (b : Block) : List Value :=
  b.receipts.toList.zipIdx.flatMap fun r =>
    r.1.logs.toList.zipIdx.filterMap fun l =>
      if addrs ≠ [] ∧ l.1.address ∉ addrs then none
      else some (logEntryToJson number b.hash r.1.txHash r.2 l.2 l.1)

/-- The logs of the canonical blocks from one height to another. -/
def logsBetween (addrs : List Address) (first last : UInt64) : List Value :=
  (heightsBetween first last).flatMap fun n =>
    match ctx.chain.store.getBlockByNumber n with
    | none => []
    | some b => logsOf addrs n b

/-- `eth_get_logs`. -/
def ethGetLogs (params : Value) : Except RpcError Value := do
  let items ← paramsArray params
  match items.head?.bind Value.asObject with
  | none => invalidParams "expected filter object"
  | some filter =>
    let head ← found .blockNotFound ctx.chain.store.headBlock
    let first ← ctx.logBound (filter.lookup "fromBlock") 0 0
    let last ← ctx.logBound (filter.lookup "toBlock") head.header.number head.header.number
    if last < first then invalidParams "toBlock < fromBlock"
    else if last.saturatingSub first > 1000 then invalidParams "log scan exceeds 1000 blocks"
    else
      let addrs ← parseLogAddresses (filter.lookup "address")
      .ok (.array (ctx.logsBetween addrs first last))

/-! ### Simulation -/

variable [Wasmi]

/-- `simulate`: on a fork of the state that was asked for. -/
def simulate (params : Value) : Except RpcError SimulateOutcome := do
  let (req, tag) ← parseCallArgs params
  let state ← ctx.stateForTag tag
  (SimulateRequest.simulate GasConfig.default state req).1.mapError fun e => .server (.execution e)

/-- `eth_call`. -/
def ethCall (params : Value) : Except RpcError Value :=
  (ctx.simulate params).map fun out => .bytes out.call.output.toList

/-- `eth_estimate_gas`. -/
def ethEstimateGas (params : Value) : Except RpcError Value :=
  (ctx.simulate params).map fun out => .qty out.gasUsed

end

end RpcContext

/-! ### Dispatch -/

/-- What a request leaves behind: its answer, the pool, the transactions that are passed on to the
network, and what subscribers are told. -/
structure RpcReply where
  result : Except RpcError Value
  pool : TransactionPool
  sent : List Transaction
  events : List RpcEvent

namespace RpcContext

variable [Keccak] [Ed25519] [Wasmi]

/-- A reply that leaves nothing behind. -/
def answer (ctx : RpcContext) (result : Except RpcError Value) : RpcReply :=
  ⟨result, ctx.chain.pool, [], []⟩

/-- What `eth_sendRawTransaction` reads from its parameters. -/
def parseRawTransaction (params : Value) : Except RpcError Transaction := do
  let s ← parseStringAt params 0
  let raw ← decodeHex s
  found (.invalidParams .bincode) (Transaction.codec.deserialize raw)

/-- `send_raw_transaction`. -/
def sendRawTransaction (ctx : RpcContext) (params : Value) : RpcReply :=
  match parseRawTransaction params with
  | .error e => ctx.answer (.error e)
  | .ok tx =>
    match ctx.chain.pool.addTransaction tx .local with
    | (.error e, pool) => ⟨.error (.invalidParams (.pool e)), pool, [], []⟩
    | (.ok hash, pool) =>
      ⟨.ok (.fixed hash), pool, if ctx.gossips then [tx] else [], [.newPendingTx hash]⟩

/-- The `match` of `handle`. -/
def dispatch (ctx : RpcContext) (params : Value) : Method → Option RpcReply
  | .chainId => some (ctx.answer (.ok (.qty ctx.chainId)))
  | .blockNumber => some (ctx.answer ctx.getBlockNumber)
  | .getBalance => some (ctx.answer (ctx.getBalance params))
  | .getCode => some (ctx.answer (ctx.getCode params))
  | .getStorageAt => some (ctx.answer (ctx.getStorageAt params))
  | .getBlockByNumber => some (ctx.answer (ctx.getBlockByNumber params))
  | .getBlockByHash => some (ctx.answer (ctx.getBlockByHash params))
  | .getTransactionByHash => some (ctx.answer (ctx.getTransactionByHash params))
  | .getTransactionReceipt => some (ctx.answer (ctx.getTransactionReceipt params))
  | .getTransactionCount => some (ctx.answer (ctx.getTransactionCount params))
  | .sendRawTransaction => some (ctx.sendRawTransaction params)
  | .call => some (ctx.answer (ctx.ethCall params))
  | .estimateGas => some (ctx.answer (ctx.ethEstimateGas params))
  | .getLogs => some (ctx.answer (ctx.ethGetLogs params))
  | .getProof => (ctx.ethGetProof params).map ctx.answer
  | .subscribe | .unsubscribe => some (ctx.answer (.error (.server (.text "WebSocket only"))))
  | .nodeInfo => some (ctx.answer (.ok ctx.nodeInfo))
  | .listContracts => some (ctx.answer (.ok ctx.listContracts))
  | .getHeaderByNumber => some (ctx.answer (ctx.getHeaderByNumber params))

/-- The method is on the list of this handler, if it has one. -/
def Allows (ctx : RpcContext) (method : String) : Prop :=
  ∀ names, ctx.allowMethods = some names → method ∈ names

instance (ctx : RpcContext) (method : String) : Decidable (ctx.Allows method) :=
  decidable_of_iff (ctx.allowMethods.all fun names => decide (method ∈ names))
    (by cases h : ctx.allowMethods <;> simp [Allows, h])

omit [Keccak] [Ed25519] [Wasmi] in
theorem allows_of_none {ctx : RpcContext} (hall : ctx.allowMethods = none) (method : String) :
    ctx.Allows method := by
  intro names h
  rw [hall] at h
  cases h

/-- `handle`. -/
def handle (ctx : RpcContext) (method : String) (params : Value) : Option RpcReply :=
  if ctx.Allows method then
    match Method.ofName method with
    | none => some (ctx.answer (.error (.methodNotFound method)))
    | some m => ctx.dispatch params m
  else some (ctx.answer (.error (.methodNotFound method)))

/-- The answer to a request for a method with positional parameters. -/
def result (ctx : RpcContext) (m : Method) (params : List Value) :
    Option (Except RpcError Value) :=
  (ctx.handle m.name (.array params)).map RpcReply.result

theorem handle_of_allows {ctx : RpcContext} {m : Method} (h : ctx.Allows m.name) (params : Value) :
    ctx.handle m.name params = ctx.dispatch params m := by
  rw [handle, if_pos h, Method.ofName_name]

/-- **Every other method leaves nothing behind.** -/
theorem handle_eq_answer {ctx : RpcContext} {method : String} {params : Value} {reply : RpcReply}
    (hmethod : ¬ ctx.Allows method ∨ method ≠ Method.sendRawTransaction.name)
    (h : ctx.handle method params = some reply) : reply = ctx.answer reply.result := by
  unfold handle at h
  split at h
  · next hallows =>
    split at h
    · cases h
      rfl
    · next m hm =>
      have hne : m ≠ .sendRawTransaction := by
        rintro rfl
        exact hmethod.elim (fun hn => hn hallows) fun hn => hn (Method.name_of_ofName hm).symm
      cases m <;> simp only [dispatch, Option.some.injEq, Option.map_eq_some_iff] at h
      case sendRawTransaction => exact absurd rfl hne
      case getProof =>
        obtain ⟨result, -, rfl⟩ := h
        rfl
      all_goals
        rw [← h]
        rfl
  · cases h
    rfl

theorem result_of_allows {ctx : RpcContext} {m : Method} (h : ctx.Allows m.name)
    (params : List Value) :
    ctx.result m params = (ctx.dispatch (.array params) m).map RpcReply.result := by
  rw [result, handle_of_allows h]

end RpcContext

end Ivory
