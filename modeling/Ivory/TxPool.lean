import Ivory.Base.Table
import Ivory.Base.Word
import Ivory.Crypto

/-!
# The transaction pool

`ivory-txpool`: pending transactions by hash, the next nonce the pool accepts
of each sender, and the number of pending transactions of each sender.  The
next nonce only ever moves up; removing a transaction does not move it back.

A concurrent map is a `Table`, and an iteration over it yields its entries in
an order that is not specified: a function that iterates takes the order as an
argument.

* `addTransactionAt_cases`: **exactly when a transaction is admitted, and what
  admission writes.**
* `PoolOp.signed_run`: **what is pending was signed by its sender.**
-/

namespace Ivory

/-- Admission limits. -/
structure PoolConfig where
  maxPending : UInt64
  maxPerSender : UInt64
  minGas : UInt64
deriving DecidableEq

/-- `PoolConfig::default()`. -/
def PoolConfig.default : PoolConfig := ⟨4096, 64, 21000⟩

/-- Where a transaction came from. -/
inductive TxOrigin
  | local
  | remote
deriving DecidableEq

/-- A pending entry. -/
structure PendingTx where
  hash : H256
  tx : Transaction
  origin : TxOrigin
  addedAtMs : UInt64
deriving DecidableEq

/-- Reasons to refuse a transaction. -/
inductive TxPoolError
  | nonceTooLow (expected got : UInt64)
  | nonceGap (expected got : UInt64)
  | alreadyKnown
  | gasLimitTooLow (min got : UInt64)
  | poolFull
  | senderLimitReached
  | invalidSignature
deriving DecidableEq

/-- The pool. -/
structure TransactionPool where
  config : PoolConfig
  pending : Table H256 PendingTx
  nextNonce : Table Address UInt64
  perSender : Table Address UInt64

namespace TransactionPool

/-- `TransactionPool::with_config`. -/
def withConfig (config : PoolConfig) : TransactionPool := ⟨config, ∅, ∅, ∅⟩

/-- `TransactionPool::new()`. -/
def new : TransactionPool := withConfig PoolConfig.default

/-- `expected_nonce`: zero for an unknown sender. -/
def expectedNonce (pool : TransactionPool) (addr : Address) : UInt64 :=
  pool.nextNonce[addr]?.getD 0

/-- The number of pending transactions of a sender. -/
def senderCount (pool : TransactionPool) (addr : Address) : UInt64 :=
  pool.perSender[addr]?.getD 0

/-- `get_pending_entries`, for an iteration that yields `entries`. -/
def getPendingEntries (entries : List PendingTx) (max : UInt64) : List PendingTx :=
  entries.take max.toNat

/-- `get_pending`. -/
def getPending (entries : List PendingTx) (max : UInt64) : List Transaction :=
  (getPendingEntries entries max).map PendingTx.tx

/-- An order in which an iteration over the pending entries may yield them. -/
def Iterates (pool : TransactionPool) (entries : List PendingTx) : Prop :=
  entries.Perm (pool.pending.toList.map Prod.snd)

/-- `remove`: the next nonce stays. -/
def remove (pool : TransactionPool) (hash : H256) : TransactionPool :=
  match pool.pending[hash]? with
  | none => pool
  | some entry =>
    let sender := entry.tx.sender
    { pool with
      pending := pool.pending.erase hash
      perSender :=
        match pool.perSender[sender]? with
        | none => pool.perSender
        | some count =>
          let count := count.saturatingSub 1
          if count = 0 then pool.perSender.erase sender else pool.perSender.insert sender count }

/-- `clear_pending`: the next nonces stay. -/
def clearPending (pool : TransactionPool) : TransactionPool :=
  { pool with pending := ∅, perSender := ∅ }

/-- `clear`. -/
def clear (pool : TransactionPool) : TransactionPool :=
  { pool with pending := ∅, nextNonce := ∅, perSender := ∅ }

section Admission

variable [Keccak] [Ed25519]

/-- What admission writes. -/
def enqueue (pool : TransactionPool) (tx : Transaction) (origin : TxOrigin) (addedAtMs : UInt64) :
    TransactionPool :=
  { pool with
    pending := pool.pending.insert tx.hash ⟨tx.hash, tx, origin, addedAtMs⟩
    nextNonce := pool.nextNonce.insert tx.sender ((pool.expectedNonce tx.sender).saturatingAdd 1)
    perSender := pool.perSender.insert tx.sender ((pool.senderCount tx.sender).saturatingAdd 1) }

/-- `add_transaction_at`, and the pool it leaves. -/
def addTransactionAt (pool : TransactionPool) (tx : Transaction) (origin : TxOrigin)
    (addedAtMs : UInt64) : Except TxPoolError H256 × TransactionPool :=
  if tx.gas < pool.config.minGas then (.error (.gasLimitTooLow pool.config.minGas tx.gas), pool)
  else
    match recoverSender tx with
    | .error _ => (.error .invalidSignature, pool)
    | .ok _ =>
      if pool.pending[tx.hash]?.isSome then (.error .alreadyKnown, pool)
      else if pool.pending.size ≥ pool.config.maxPending.toNat then (.error .poolFull, pool)
      else if pool.senderCount tx.sender ≥ pool.config.maxPerSender then
        (.error .senderLimitReached, pool)
      else
        let expected := pool.expectedNonce tx.sender
        if tx.nonce < expected then (.error (.nonceTooLow expected tx.nonce), pool)
        else if tx.nonce > expected then (.error (.nonceGap expected tx.nonce), pool)
        else (.ok tx.hash, pool.enqueue tx origin addedAtMs)

/-- `add_transaction`. -/
def addTransaction (pool : TransactionPool) (tx : Transaction) (origin : TxOrigin) :
    Except TxPoolError H256 × TransactionPool := pool.addTransactionAt tx origin 0

/-- What admission asks of a transaction. -/
structure Admissible (pool : TransactionPool) (tx : Transaction) : Prop where
  gas : pool.config.minGas ≤ tx.gas
  signed : recoverSender tx = .ok tx.sender
  fresh : pool.pending[tx.hash]? = none
  room : pool.pending.size < pool.config.maxPending.toNat
  senderRoom : pool.senderCount tx.sender < pool.config.maxPerSender
  nonce : tx.nonce = pool.expectedNonce tx.sender

/-- **Exactly when a transaction is admitted, and what admission writes**; a refused one
writes nothing. -/
theorem addTransactionAt_cases (pool : TransactionPool) (tx : Transaction) (origin : TxOrigin)
    (addedAtMs : UInt64) :
    (pool.Admissible tx
        ∧ pool.addTransactionAt tx origin addedAtMs
          = (.ok tx.hash, pool.enqueue tx origin addedAtMs))
      ∨ (¬ pool.Admissible tx
        ∧ ∃ e, pool.addTransactionAt tx origin addedAtMs = (.error e, pool)) := by
  unfold addTransactionAt
  split
  · next h => exact .inr ⟨fun ha => absurd ha.gas (UInt64.not_le.mpr h), _, rfl⟩
  next hgas =>
  split
  · next e hr => exact .inr ⟨fun ha => (by rw [ha.signed] at hr; cases hr), _, rfl⟩
  next a hr =>
  split
  · next h => exact .inr ⟨fun ha => (by rw [ha.fresh] at h; cases h), _, rfl⟩
  next hfresh =>
  split
  · next h => exact .inr ⟨fun ha => absurd ha.room (Nat.not_lt.mpr h), _, rfl⟩
  next hroom =>
  split
  · next h => exact .inr ⟨fun ha => absurd ha.senderRoom (UInt64.not_lt.mpr h), _, rfl⟩
  next hcount =>
  simp only
  split
  · next h => exact .inr ⟨fun ha => absurd ha.nonce (UInt64.ne_of_lt h), _, rfl⟩
  next hlow =>
  split
  · next h => exact .inr ⟨fun ha => absurd ha.nonce.symm (UInt64.ne_of_lt h), _, rfl⟩
  next hgap =>
  refine .inl ⟨?_, rfl⟩
  exact
    { gas := UInt64.not_lt.mp hgas
      signed := by rw [← (recoverSender_eq_ok hr).1]; exact hr
      fresh := by simpa using hfresh
      room := Nat.not_le.mp hroom
      senderRoom := UInt64.not_le.mp hcount
      nonce := UInt64.le_antisymm (UInt64.not_lt.mp hgap) (UInt64.not_lt.mp hlow) }

omit [Ed25519] in
theorem expectedNonce_enqueue (pool : TransactionPool) (tx : Transaction)
    (origin : TxOrigin) (addedAtMs : UInt64) (a : Address) :
    (pool.enqueue tx origin addedAtMs).expectedNonce a
      = if a = tx.sender then (pool.expectedNonce tx.sender).saturatingAdd 1
        else pool.expectedNonce a := by
  rw [expectedNonce, enqueue]
  simp only [Table.get_insert]
  split
  · rfl
  · rfl

end Admission

theorem get_remove (pool : TransactionPool) (hash h : H256) :
    (pool.remove hash).pending[h]? = if h = hash then none else pool.pending[h]? := by
  unfold remove
  split
  · next hnone =>
    split
    · next heq => rw [heq, hnone]
    · rfl
  · exact Table.get_erase _ _ _

theorem get_of_get_remove {pool : TransactionPool} {hash h : H256} {entry : PendingTx}
    (he : (pool.remove hash).pending[h]? = some entry) : pool.pending[h]? = some entry := by
  rw [get_remove] at he
  split_ifs at he
  exact he

theorem config_remove (pool : TransactionPool) (hash : H256) :
    (pool.remove hash).config = pool.config := by
  unfold remove
  split
  · rfl
  · rfl

theorem expectedNonce_remove (pool : TransactionPool) (hash : H256) (a : Address) :
    (pool.remove hash).expectedNonce a = pool.expectedNonce a := by
  unfold remove
  split
  · rfl
  · rfl

/-- Pending transactions are filed under their hashes. -/
def Filed [Keccak] (pool : TransactionPool) : Prop :=
  ∀ (hash : H256) (entry : PendingTx), pool.pending[hash]? = some entry →
    entry.hash = hash ∧ entry.tx.hash = hash

namespace Filed

variable [Keccak] {pool : TransactionPool}

theorem of_empty (h : pool.pending = ∅) : pool.Filed := by
  intro hash entry he
  rw [h, Std.ExtTreeMap.getElem?_empty] at he
  cases he

theorem remove (hf : pool.Filed) (hash : H256) : (pool.remove hash).Filed :=
  fun h entry he => hf h entry (get_of_get_remove he)

theorem enqueue (hf : pool.Filed) (tx : Transaction) (origin : TxOrigin) (addedAtMs : UInt64) :
    (pool.enqueue tx origin addedAtMs).Filed := by
  intro hash entry he
  change (pool.pending.insert tx.hash _)[hash]? = some entry at he
  rw [Table.get_insert] at he
  split_ifs at he with hk
  · cases he
    exact ⟨hk.symm, hk.symm⟩
  · exact hf hash entry he

theorem addTransactionAt [Ed25519] (hf : pool.Filed) (tx : Transaction) (origin : TxOrigin)
    (addedAtMs : UInt64) : (pool.addTransactionAt tx origin addedAtMs).2.Filed := by
  rcases pool.addTransactionAt_cases tx origin addedAtMs with ⟨-, heq⟩ | ⟨-, _, heq⟩
  · rw [heq]
    exact hf.enqueue tx origin addedAtMs
  · rw [heq]
    exact hf

end Filed

theorem mem_of_iterates {pool : TransactionPool} {entries : List PendingTx}
    (h : pool.Iterates entries) {entry : PendingTx} (hm : entry ∈ entries) :
    ∃ hash : H256, pool.pending[hash]? = some entry := by
  obtain ⟨⟨hash, entry'⟩, hmem, rfl⟩ := List.mem_map.mp (h.mem_iff.mp hm)
  exact ⟨hash, Table.mem_toList.mp hmem⟩

end TransactionPool

/-! ### Runs -/

/-- The operations that write to a pool. -/
inductive PoolOp
  | add (tx : Transaction) (origin : TxOrigin) (addedAtMs : UInt64)
  | remove (hash : H256)

namespace PoolOp

variable [Keccak] [Ed25519]

/-- The pool after one operation. -/
def apply (pool : TransactionPool) : PoolOp → TransactionPool
  | add tx origin addedAtMs => (pool.addTransactionAt tx origin addedAtMs).2
  | remove hash => pool.remove hash

/-- The pool after operations on an empty one. -/
def run (config : PoolConfig) (ops : List PoolOp) : TransactionPool :=
  ops.foldl apply (TransactionPool.withConfig config)

/-- Every pending transaction is signed by its sender. -/
def Signed (pool : TransactionPool) : Prop :=
  ∀ (hash : H256) (entry : PendingTx), pool.pending[hash]? = some entry →
    recoverSender entry.tx = .ok entry.tx.sender

theorem signed_apply {pool : TransactionPool} (h : Signed pool) (op : PoolOp) :
    Signed (op.apply pool) := by
  cases op with
  | add tx origin addedAtMs =>
    rcases pool.addTransactionAt_cases tx origin addedAtMs with ⟨ha, heq⟩ | ⟨-, e, heq⟩
    · rw [apply, heq]
      intro hash entry hget
      change (pool.pending.insert _ _)[hash]? = _ at hget
      rw [Table.get_insert] at hget
      split at hget
      · cases hget
        exact ha.signed
      · exact h hash entry hget
    · rw [apply, heq]
      exact h
  | remove hash =>
    intro hash' entry hget
    exact h hash' entry (TransactionPool.get_of_get_remove hget)

/-- **What is pending was signed by its sender**, whatever was added and removed. -/
theorem signed_run (config : PoolConfig) (ops : List PoolOp) : Signed (run config ops) := by
  refine List.foldlRecOn ops apply (motive := Signed) ?_ fun pool h op _ => signed_apply h op
  intro hash entry hget
  rw [TransactionPool.withConfig, Std.ExtTreeMap.getElem?_empty] at hget
  cases hget

end PoolOp

end Ivory
