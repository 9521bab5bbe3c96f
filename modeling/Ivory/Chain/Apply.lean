import Ivory.Chain.Store
import Ivory.TxPool

/-!
# Importing a block

`import_and_apply` executes a block on a copy of its parent's snapshot, compares
the state root, inserts the block and records its snapshot; when the head moved
it resets the live state and moves transactions between the pool and the chain.

`executeAll` also returns the outcomes of the transactions.  The source drops
them; they are here so that the theorems can speak of the receipts that
execution produced.
-/

namespace Ivory

/-- The store, the live state and the pool of a node. -/
structure ChainState where
  store : BlockStore
  live : StateDB
  pool : TransactionPool

section

variable [Keccak] [Wasmi]

/-- Execute transactions in order and stop at the first error. -/
def executeAll (cfg : GasConfig) : StateDB → ExecutionContext → List Transaction →
    Except ExecutionError (List ExecutionOutcome × StateDB × ExecutionContext)
  | state, ctx, [] => .ok ([], state, ctx)
  | state, ctx, tx :: txs =>
    match executeTransaction cfg state ctx tx with
    | (.error e, _, _) => .error e
    | (.ok out, state, ctx) =>
      match executeAll cfg state ctx txs with
      | .error e => .error e
      | .ok (outs, state, ctx) => .ok (out :: outs, state, ctx)

theorem executeAll_cons_eq_ok {cfg : GasConfig} {s s' : StateDB} {ctx ctx' : ExecutionContext}
    {tx : Transaction} {txs : List Transaction} {outs : List ExecutionOutcome}
    (h : executeAll cfg s ctx (tx :: txs) = .ok (outs, s', ctx')) :
    ∃ out s₁ ctx₁ outs₁, executeTransaction cfg s ctx tx = (.ok out, s₁, ctx₁)
      ∧ executeAll cfg s₁ ctx₁ txs = .ok (outs₁, s', ctx') ∧ outs = out :: outs₁ := by
  rw [executeAll] at h
  split at h
  · cases h
  next out s₁ ctx₁ he =>
  split at h
  · cases h
  next outs₁ s₂ ctx₂ hr =>
  cases h
  exact ⟨out, s₁, ctx₁, outs₁, he, hr, rfl⟩

/-- Execute a block on the state of its parent, in a fresh context. -/
def executeBlock (state : StateDB) (block : Block) :
    Except ExecutionError (List ExecutionOutcome × StateDB × ExecutionContext) :=
  executeAll GasConfig.default state
    (ExecutionContext.new block.header.number block.header.timestamp) block.transactions.toList

end

/-- `txs_on_path`. -/
def BlockStore.txsOnPath (store : BlockStore) (tip : H256) : List Transaction :=
  (store.chainFrom tip).flatMap fun h =>
    ((store.getBlock h).map fun b => b.transactions.toList).getD []

section Import

variable [Keccak] [Ed25519] [Wasmi]

namespace ChainState

/-- `apply_head_change`. -/
def applyHeadChange (cs : ChainState) (outcome : InsertOutcome) : ChainState :=
  let live :=
    match cs.store.stateAt outcome.newHead with
    | some post => cs.live.resetFrom post
    | none => cs.live
  let oldTxs := (outcome.oldHead.map cs.store.txsOnPath).getD []
  let newTxs := cs.store.txsOnPath outcome.newHead
  let newHashes := newTxs.map Transaction.hash
  let pool := oldTxs.foldl (fun pool tx =>
    if tx.hash ∈ newHashes then pool else (pool.addTransaction tx .local).2) cs.pool
  let pool := newTxs.foldl (fun pool tx => pool.remove tx.hash) pool
  { cs with live := live, pool := pool }

/-- `import_and_apply`, and the chain state it leaves. -/
def importAndApply (cs : ChainState) (block : Block) :
    Except ChainError InsertOutcome × ChainState :=
  match cs.store.stateAt block.header.parentHash with
  | none => (.error .unknownParentState, cs)
  | some parentState =>
    match executeBlock parentState block with
    | .error e => (.error (.execution e), cs)
    | .ok (_, trial, _) =>
      let (root, trial) := trial.rootHash
      if root ≠ block.header.stateRoot then (.error .invalidStateRoot, cs)
      else
        match cs.store.insertBlock block with
        | (.error e, store) => (.error e, { cs with store := store })
        | (.ok outcome, store) =>
          let cs := { cs with store := store.recordState outcome.hash trial.fork }
          (.ok outcome, if outcome.headChanged then cs.applyHeadChange outcome else cs)

end ChainState

end Import

end Ivory
