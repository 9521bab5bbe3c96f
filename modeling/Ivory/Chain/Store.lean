import Ivory.Base.Ancestry
import Ivory.Base.Word
import Ivory.Consensus
import Ivory.Executor

/-!
# The block store

`BlockStore` of `ivory-chain`: blocks by hash, the canonical hash at each
height, the head, a state snapshot for some blocks and an index of the
transactions on the canonical chain.  A function that writes returns the store
next to its result.

The parent walks of `chain_from` and `rebuild_canonical` are `Ancestry.walk`
with one step for every stored block.  The walk of the source has no bound;
`Chain/StoreInvariant.lean` shows that the bound is never reached.
-/

namespace Ivory

/-- Errors of the store and of block import. -/
inductive ChainError
  | block (e : BlockError)
  | consensus (e : ConsensusError)
  | unknownParent
  | duplicateBlock
  | invalidBlockNumber (expected got : UInt64)
  | invalidGenesis
  | execution (e : ExecutionError)
  | invalidStateRoot
  | unknownParentState
deriving DecidableEq

/-- Where a transaction was included. -/
structure TxLocation where
  blockHash : H256
  blockNumber : UInt64
  index : ℕ
deriving DecidableEq

/-- Result of inserting a block. -/
structure InsertOutcome where
  hash : H256
  oldHead : Option H256
  newHead : H256
  ancestor : H256
  headChanged : Bool
deriving DecidableEq

/-- Indexed blocks and state snapshots. -/
structure BlockStore where
  byHash : Table H256 Block
  byNumber : Table UInt64 H256
  head : Option H256
  snapshots : Table H256 StateDB
  txIndex : Table H256 TxLocation
  consensus : PoAConsensus

/-- The parent of a block; a block of height zero has none. -/
def Block.parent (b : Block) : Option H256 :=
  if b.header.number = 0 then none else some b.header.parentHash

namespace BlockStore

/-! ### Lookups -/

/-- `BlockStore::new`. -/
def new (consensus : PoAConsensus) : BlockStore := ⟨∅, ∅, none, ∅, ∅, consensus⟩

/-- `get_block`. -/
def getBlock (store : BlockStore) (hash : H256) : Option Block := store.byHash[hash]?

/-- `head_block`. -/
def headBlock (store : BlockStore) : Option Block := store.head.bind store.getBlock

/-- `get_block_by_number`. -/
def getBlockByNumber (store : BlockStore) (number : UInt64) : Option Block :=
  store.byNumber[number]?.bind store.getBlock

/-- `get_transaction`. -/
def getTransaction (store : BlockStore) (hash : H256) : Option (Transaction × TxLocation) := do
  let loc ← store.txIndex[hash]?
  let block ← store.getBlock loc.blockHash
  let tx ← block.transactions.toList[loc.index]?
  some (tx, loc)

/-- `state_at`. -/
def stateAt (store : BlockStore) (hash : H256) : Option StateDB :=
  store.snapshots[hash]?.map StateDB.fork

/-- `record_state`. -/
def recordState (store : BlockStore) (hash : H256) (state : StateDB) : BlockStore :=
  { store with snapshots := store.snapshots.insert hash state.fork }

/-- The parent walk from a tip, tip first. -/
def parentWalk (store : BlockStore) (tip : H256) : List (H256 × Block) :=
  Ancestry.walk store.getBlock Block.parent store.byHash.size tip

/-- `chain_from`: the hashes from genesis to the tip. -/
def chainFrom (store : BlockStore) (tip : H256) : List H256 :=
  ((store.parentWalk tip).map Prod.fst).reverse

/-- `common_ancestor`. -/
def commonAncestor (store : BlockStore) (a b : H256) : Option H256 :=
  (store.chainFrom b).reverse.find? fun h => h ∈ store.chainFrom a

/-! ### Pruning -/

/-- `drop_bodies_below`. -/
def dropBodiesBelow (store : BlockStore) (keepFrom : UInt64) (archive : Bool) : BlockStore :=
  if archive then store
  else
    { store with byHash := store.byHash.map fun _ block =>
        if block.header.number < keepFrom then
          { block with transactions := Vec.empty, receipts := Vec.empty }
        else block }

/-- `prune_snapshots`. -/
def pruneSnapshots (store : BlockStore) : BlockStore :=
  match store.head with
  | none => store
  | some head =>
    let keep := store.chainFrom head
    { store with snapshots := store.snapshots.filter fun h _ => h ∈ keep }

section Insertion

variable [Keccak] [Ed25519]

/-- `prune_snapshots_keep`. -/
def pruneSnapshotsKeep (store : BlockStore) (keep : UInt64) : BlockStore :=
  let store := store.pruneSnapshots
  match store.headBlock with
  | none => store
  | some head =>
    let cutoff := head.header.number.saturatingSub (keep.saturatingSub 1)
    let store := store.dropBodiesBelow cutoff false
    let keepHashes := (store.chainFrom head.hash).filter fun h =>
      (store.getBlock h).any fun b => b.header.number ≥ cutoff
    { store with snapshots := store.snapshots.filter fun h _ => h ∈ keepHashes }

/-! ### The canonical chain -/

/-- `rebuild_canonical`. -/
def rebuildCanonical (store : BlockStore) (tip : H256) : BlockStore :=
  { store with byNumber :=
      (store.parentWalk tip).foldl (fun m e => m.insert e.2.header.number e.1) ∅ }

/-- Whether a block takes over from the head: higher, or as high with a smaller hash. -/
def takesHead (store : BlockStore) (hash : H256) (number : UInt64) : Bool :=
  match store.head with
  | none => true
  | some headHash =>
    let headNum := ((store.getBlock headHash).map fun b => b.header.number).getD 0
    decide (number > headNum ∨ (number = headNum ∧ hash < headHash))

/-- `maybe_update_canonical`. -/
def maybeUpdateCanonical (store : BlockStore) (hash : H256) (number : UInt64) : BlockStore :=
  if store.takesHead hash number then { store with head := some hash }.rebuildCanonical hash
  else store

/-- The index entries of one block. -/
def indexBlock (idx : Table H256 TxLocation) (number : UInt64) (block : Block) :
    Table H256 TxLocation :=
  block.transactions.toList.zipIdx.foldl
    (fun idx e => idx.insert e.1.hash ⟨block.hash, number, e.2⟩) idx

/-- `rebuild_tx_index`. -/
def rebuildTxIndex (store : BlockStore) : BlockStore :=
  match store.headBlock with
  | none => { store with txIndex := ∅ }
  | some head =>
    { store with txIndex :=
        (List.range (head.header.number.toNat + 1)).foldl (fun idx n =>
          match store.getBlockByNumber (UInt64.ofNat n) with
          | none => idx
          | some block => indexBlock idx (UInt64.ofNat n) block) ∅ }

/-! ### Insertion -/

/-- The write to the map of blocks. -/
def added (store : BlockStore) (block : Block) : BlockStore :=
  { store with byHash := store.byHash.insert block.hash block }

/-- `insert_validated`, and the store it leaves. -/
def insertValidated (store : BlockStore) (block : Block) :
    Except ChainError InsertOutcome × BlockStore :=
  let hash := block.hash
  if (store.getBlock hash).isSome then (.error .duplicateBlock, store)
  else
    let oldHead := store.head
    let store := (store.added block).maybeUpdateCanonical hash block.header.number
    let newHead := store.head.getD hash
    let headChanged := decide (oldHead ≠ some newHead)
    let ancestor :=
      match oldHead with
      | none => hash
      | some old => if headChanged then (store.commonAncestor old newHead).getD hash else old
    let store := if headChanged then store.rebuildTxIndex else store
    (.ok ⟨hash, oldHead, newHead, ancestor, headChanged⟩, store)

/-- `insert_genesis`. -/
def insertGenesis (store : BlockStore) (block : Block) :
    Except ChainError InsertOutcome × BlockStore :=
  if block.header.number ≠ 0 ∨ block.header.parentHash ≠ H256.zero then
    (.error .invalidGenesis, store)
  else
    match store.consensus.validateHeader block.header none with
    | .error e => (.error (.consensus e), store)
    | .ok () =>
      match block.validate with
      | .error e => (.error (.block e), store)
      | .ok () => store.insertValidated block

/-- `insert_block`. -/
def insertBlock (store : BlockStore) (block : Block) :
    Except ChainError InsertOutcome × BlockStore :=
  if block.header.number = 0 then store.insertGenesis block
  else
    match store.getBlock block.header.parentHash with
    | none => (.error .unknownParent, store)
    | some parent =>
      let expected := parent.header.number.saturatingAdd 1
      if block.header.number ≠ expected then
        (.error (.invalidBlockNumber expected block.header.number), store)
      else
        match store.consensus.validateHeader block.header (some parent.header) with
        | .error e => (.error (.consensus e), store)
        | .ok () =>
          match block.validate with
          | .error e => (.error (.block e), store)
          | .ok () => store.insertValidated block

/-- `insert_header`: the same checks, but no body to compare the list roots with. -/
def insertHeader (store : BlockStore) (header : BlockHeader) :
    Except ChainError InsertOutcome × BlockStore :=
  if header.number = 0 then (.error .invalidGenesis, store)
  else
    match store.getBlock header.parentHash with
    | none => (.error .unknownParent, store)
    | some parent =>
      let expected := parent.header.number.saturatingAdd 1
      if header.number ≠ expected then
        (.error (.invalidBlockNumber expected header.number), store)
      else
        match store.consensus.validateHeader header (some parent.header) with
        | .error e => (.error (.consensus e), store)
        | .ok () => store.insertValidated ⟨header, Vec.empty, Vec.empty⟩

end Insertion

end BlockStore

end Ivory
