import Ivory.Chain.Producer
import Ivory.Chain.Replay
import Ivory.Persist

/-!
# The node

`node.rs` of the node binary: a chain state, the blocks that wait for a parent,
and the chain on disk.  The node reacts to a transaction, to a block from a
peer, to the tick on which it may produce a block, and to a restart.

Iteration over a hash map yields its entries in an order that is not specified:
`IterOrder` is such an order, and an event carries the one it meets.

`import_block` calls itself for every waiting child of a block it accepted.
`importBlock` has a bound on the depth of that recursion;
`Node/Orphans.lean` shows that it is never reached.  Next to the node it
returns the calls of `import_and_apply` that were made, each with the chain
state it met, so that the theorems can speak of them.
-/

namespace Ivory

/-- The state of a node. -/
structure Node where
  chain : ChainState
  orphans : Table H256 Block
  persist : ChainPersist

/-- A call of `import_and_apply`: the chain state before it, and the block. -/
structure ImportCall where
  chain : ChainState
  block : Block

/-- Reasons why a node does not start. -/
inductive StartError
  | load (e : LoadError)
  | genesis (e : ChainError)
  | replayMissing (number : UInt64)
  | replayTx (number : UInt64) (e : ExecutionError)
deriving DecidableEq

/-- The genesis state of `run_node`: new accounts with the allocated balances. -/
def allocState [Keccak] (alloc : List (Address × U256)) : StateDB :=
  alloc.foldl (fun state e => state.setAccount e.1 { Account.new with balance := e.2 }) StateDB.new

/-- The genesis as `run_node` builds it: the state is the alloc, the block has no transactions. -/
structure AllocGenesis [Keccak] [Ed25519] extends Genesis where
  alloc : List (Address × U256)
  state_eq : state = allocState alloc
  transactions_eq : block.transactions = Vec.empty

namespace Node

/-! ### Blocks from peers -/

section Import

variable [Keccak] [Ed25519]

/-- `prune_store`. -/
def pruneStore (store : BlockStore) (persist : ChainPersist) : BlockStore :=
  if persist.archive then store.pruneSnapshots else store.pruneSnapshotsKeep persist.archiveKeep

/-- What follows every accepted import: the chain is written to disk, the storage roots of the live
state are brought up to date for the trie nodes, and the store is pruned. -/
def settle (n : Node) (block : Block) : Node :=
  let persist := n.persist.persistCanonical n.chain.store block
  let nodes := n.chain.live.trieNodes
  let persist := persist.persistTrieNodes nodes.1
  { n with
    persist := persist
    chain := { n.chain with live := nodes.2, store := pruneStore n.chain.store persist } }

omit [Ed25519] in
theorem samePolicy_settle (n : Node) (block : Block) :
    n.persist.SamePolicy (n.settle block).persist :=
  n.persist.samePolicy_persist n.chain.store block n.chain.live.trieNodes.1

/-- The waiting children of a block. -/
def children (n : Node) (hash : H256) : List Block :=
  (n.orphans.toList.map Prod.snd).filter fun b => b.header.parentHash = hash

/-- A block that waits for its parent. -/
def addOrphan (n : Node) (block : Block) : Node :=
  { n with orphans := n.orphans.insert block.hash block }

/-- A child is taken out before it is tried again. -/
def takeOrphan (n : Node) (block : Block) : Node :=
  { n with orphans := n.orphans.erase block.hash }

/-- What a refused block leaves: it waits if its parent, or the state of its parent, is missing. -/
def refuse (n : Node) (block : Block) : ChainError → Node
  | .unknownParent | .unknownParentState => n.addOrphan block
  | _ => n

variable [Wasmi]

/-- `import_block`, with a bound on the depth of the recursion; `none` if it is reached. -/
def importBlock (order : IterOrder Block) : ℕ → Node → Block → Option (Node × List ImportCall)
  | 0, _, _ => none
  | fuel + 1, n, block =>
    match n.chain.importAndApply block with
    | (.ok _, chain) =>
      let n' := { n with chain := chain }.settle block
      (order.pick (n'.children block.hash)).foldlM (fun acc child => do
        let (n, calls) ← importBlock order fuel (acc.1.takeOrphan child) child
        pure (n, acc.2 ++ calls)) (n', [⟨n.chain, block⟩])
    | (.error e, chain) => some ({ n with chain := chain }.refuse block e, [⟨n.chain, block⟩])

/-- `import_block` on a node: the orphans bound the depth. -/
def receive (n : Node) (order : IterOrder Block) (block : Block) :
    Option (Node × List ImportCall) := importBlock order (n.orphans.size + 1) n block

/-- Blocks delivered one after the other, and all calls that were made. -/
def deliver (n : Node) (deliveries : List (Block × IterOrder Block)) :
    Option (Node × List ImportCall) :=
  deliveries.foldlM (fun acc d => do
    let (n, calls) ← acc.1.receive d.2 d.1
    pure (n, acc.2 ++ calls)) (n, [])

/-! ### Production -/

/-- What the node passes to `produce_block` on the tick. -/
def produceParams (n : Node) (order : IterOrder PendingTx) (key : SecretKey) (parent : Block)
    (state : StateDB) : ProduceParams where
  parent := parent
  entries := order.pick (n.chain.pool.pending.toList.map Prod.snd)
  state := state
  consensus := n.chain.store.consensus
  miner := addressFromSecret key
  minerKey := key
  timestamp := parent.header.timestamp.saturatingAdd 1
  maxTxs := 128

/-- The tick of the producer, and the call of `import_and_apply` if a block was built. -/
def produce (n : Node) (producer : BlockProducer) (order : IterOrder PendingTx) (key : SecretKey) :
    Node × List ImportCall :=
  if n.chain.pool.pending.size = 0 then (n, [])
  else
    match n.chain.store.headBlock with
    | none => (n, [])
    | some parent =>
      match n.chain.store.stateAt parent.hash with
      | none => (n, [])
      | some state =>
        match (producer.produceBlock (n.produceParams order key parent state)).1 with
        | .error _ => (n, [])
        | .ok block =>
          match n.chain.importAndApply block with
          | (.error _, chain) => ({ n with chain := chain }, [⟨n.chain, block⟩])
          | (.ok _, chain) => ({ n with chain := chain }.settle block, [⟨n.chain, block⟩])

/-! ### Start and restart -/

/-- One height of the replay in `run_node`, for a database without the snapshot of the head. -/
def replayHeight (acc : BlockStore × StateDB) (number : UInt64) :
    Except StartError (BlockStore × StateDB) :=
  match acc.1.getBlockByNumber number with
  | none => .error (.replayMissing number)
  | some block =>
    match executeBlock acc.2 block with
    | .error e => .error (.replayTx number e)
    | .ok (_, state, _) => .ok (acc.1.recordState block.hash state, state)

/-- `run_node`: the chain is loaded from disk, or starts with the genesis; the pool is empty. -/
def runNode (g : Genesis) (persist : ChainPersist) : Except StartError Node :=
  match persist.loadInto (BlockStore.new g.consensus) g.block with
  | .error e => .error (.load e)
  | .ok (none, store) =>
    match store.insertGenesis g.block with
    | (.error e, _) => .error (.genesis e)
    | (.ok _, store) =>
      let store := store.recordState g.block.hash g.state
      .ok ⟨⟨store, g.state, TransactionPool.new⟩, ∅, persist.persistCanonical store g.block⟩
  | .ok (some height, store) =>
    match store.head.bind store.stateAt with
    | some state =>
      .ok ⟨⟨store, g.state.resetFrom state, TransactionPool.new⟩, ∅, persist⟩
    | none =>
      let store := store.recordState g.block.hash g.state
      match (heightsBetween 1 height).foldlM replayHeight (store, g.state) with
      | .error e => .error e
      | .ok (store, state) => .ok ⟨⟨store, state, TransactionPool.new⟩, ∅, persist⟩

/-- The node that starts on an empty database. -/
def fresh (g : Genesis) (archive : Bool) (archiveKeep : UInt64) : Node where
  chain := g.start TransactionPool.new
  orphans := ∅
  persist := (ChainPersist.openWith ChainDb.empty archive archiveKeep).persistCanonical g.store
    g.block

/-- **A node starts with the genesis if no head is on disk.** -/
theorem runNode_of_head_eq_none (g : Genesis) {persist : ChainPersist}
    (hhead : persist.db.head = none) : runNode g persist
      = .ok ⟨g.start TransactionPool.new, ∅, persist.persistCanonical g.store g.block⟩ := by
  have hload : persist.loadInto (BlockStore.new g.consensus) g.block
      = .ok (none, BlockStore.new g.consensus) := by rw [ChainPersist.loadInto, hhead]
  obtain ⟨outcome, store', heq, -, -⟩ := g.inserted
  have hstore : g.store = store'.recordState g.block.hash g.state := by rw [Genesis.store, heq]
  rw [runNode, hload]
  simp only [heq]
  rw [Genesis.start, hstore]

end Import

end Node

/-! ### Events -/

/-- What a node reacts to.  A restart opens the same database, with a policy of its own. -/
inductive NodeEvent
  | transaction (tx : Transaction) (origin : TxOrigin) (addedAtMs : UInt64)
  | block (b : Block) (order : IterOrder Block)
  | tick (producer : BlockProducer) (key : SecretKey) (order : IterOrder PendingTx)
  | restart (archive : Bool) (archiveKeep : UInt64)

namespace NodeEvent

variable [Keccak] [Ed25519] [Wasmi]

/-- The node after an event, and the calls it made; a node that does not start again is gone. -/
def step (g : Genesis) (n : Node) : NodeEvent → Option (Node × List ImportCall)
  | transaction tx origin addedAtMs =>
    some ({ n with chain :=
      { n.chain with pool := (n.chain.pool.addTransactionAt tx origin addedAtMs).2 } }, [])
  | block b order => n.receive order b
  | tick producer key order => some (n.produce producer order key)
  | restart archive archiveKeep =>
    (Node.runNode g (ChainPersist.openWith n.persist.db archive archiveKeep)).toOption.map
      fun n => (n, [])

/-- The node after a list of events, and all calls. -/
def run (g : Genesis) (n : Node) : List NodeEvent → Option (Node × List ImportCall)
  | [] => some (n, [])
  | e :: es =>
    match e.step g n with
    | none => none
    | some (n, calls) => (run g n es).map fun r => (r.1, calls ++ r.2)

end NodeEvent

end Ivory
