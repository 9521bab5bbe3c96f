import Ivory.Chain.Agreement
import Ivory.Executor.Failure
import Ivory.TxPool.Invariant

/-!
# Production and the order of the pool

`produce_block` takes what an iteration over the pending map yields and sorts it
by sender and nonce.  The sort leaves the order open only between transactions
with the same sender and the same nonce, and the pool holds two of these for one
nonce only: `next_nonce` saturates, so the last nonce is admitted again and again.
No account gets past the last nonce, so `execute_transaction` refuses all of them
before it writes anything, in whatever order they come.

* `TransactionPool.distinct_run`: **below the last nonce, pending transactions have
  distinct senders or nonces**, after every sequence of calls.
* `executeEach_filter_usable`: transactions with the last nonce leave no trace.
* `BlockProducer.produceBlock_order`: **the block does not depend on the order in
  which the pool yields its entries.**
-/

namespace Ivory

/-! ### The order of execution -/

namespace Transaction

theorem le_iff_isLE {a b : Transaction} :
    a.Le b ↔ (compareLex (compareOn sender) (compareOn nonce) a b).isLE = true := by
  rw [Le, Ordering.isLE_iff_ne_gt]
  rfl

instance : IsTrans Transaction Le where
  trans _ _ _ hab hbc :=
    le_iff_isLE.mpr (Std.TransCmp.isLE_trans (le_iff_isLE.mp hab) (le_iff_isLE.mp hbc))

instance : Std.Total Le where
  total a b := by
    rw [le_iff_isLE, le_iff_isLE]
    cases hab : compareLex (compareOn sender) (compareOn nonce) a b with
    | lt => exact .inl rfl
    | eq => exact .inl rfl
    | gt => exact .inr (by rw [Std.OrientedCmp.gt_iff_lt.mp hab]; rfl)

theorem key_eq_of_le_le {a b : Transaction} (hab : a.Le b) (hba : b.Le a) :
    a.sender = b.sender ∧ a.nonce = b.nonce := by
  have heq := Std.OrientedCmp.isLE_antisymm (le_iff_isLE.mp hab) (le_iff_isLE.mp hba)
  rw [compareLex, Ordering.then_eq_eq] at heq
  exact ⟨Std.LawfulEqOrd.eq_of_compare heq.1, Std.LawfulEqOrd.eq_of_compare heq.2⟩

/-- An account can get past the nonce: it is not the last one. -/
def Usable (tx : Transaction) : Prop := tx.nonce.toNat + 1 < 2 ^ 64

instance (tx : Transaction) : Decidable tx.Usable := inferInstanceAs (Decidable (_ < _))

end Transaction

theorem ProduceParams.sorted_candidates (params : ProduceParams) :
    params.candidates.Pairwise Transaction.Le :=
  List.pairwise_insertionSort _ _

/-! ### The last nonce -/

section

variable [Keccak] [Wasmi]

/-- **Transactions with the last nonce leave no trace**: the first checks refuse them. -/
theorem executeEach_filter_usable (cfg : GasConfig) : ∀ (txs : List Transaction) (s : StateDB)
    (ctx : ExecutionContext),
    executeEach cfg s ctx (txs.filter (·.Usable)) = executeEach cfg s ctx txs := by
  intro txs
  induction txs with
  | nil => intro s ctx; rfl
  | cons tx txs ih =>
    intro s ctx
    by_cases hu : tx.Usable
    · rw [List.filter_cons_of_pos (by simpa using hu), executeEach, executeEach]
      simp only [ih]
    · rw [List.filter_cons_of_neg (by simpa using hu), ih, executeEach]
      cases hc : precheck cfg s ctx tx with
      | error e => rw [executeTransaction_of_precheck_error hc]
      | ok checked => exact absurd (precheck_isOk_iff.mp ⟨checked, hc⟩).next hu

end

/-! ### Distinct transactions -/

namespace TransactionPool

/-- Pending transactions below the last nonce differ in the sender or in the nonce. -/
def Distinct (pool : TransactionPool) : Prop :=
  ∀ (hash hash' : H256) (entry entry' : PendingTx), pool.pending[hash]? = some entry →
    pool.pending[hash']? = some entry' → entry.tx.Usable → entry.tx.sender = entry'.tx.sender →
    entry.tx.nonce = entry'.tx.nonce → hash = hash'

/-- And their nonces are behind the next one of their sender. -/
structure Behind (pool : TransactionPool) : Prop where
  below : ∀ (hash : H256) (entry : PendingTx), pool.pending[hash]? = some entry →
    entry.tx.Usable → entry.tx.nonce < pool.expectedNonce entry.tx.sender
  distinct : pool.Distinct

theorem behind_of_empty {pool : TransactionPool} (h : pool.pending = ∅) : pool.Behind := by
  have hget : ∀ (hash : H256) (entry : PendingTx), pool.pending[hash]? ≠ some entry := by
    intro hash entry he
    rw [h, Std.ExtTreeMap.getElem?_empty] at he
    cases he
  exact ⟨fun hash entry he => absurd he (hget hash entry),
    fun hash _ entry _ he => absurd he (hget hash entry)⟩

theorem Behind.remove {pool : TransactionPool} (h : pool.Behind) (hash : H256) :
    (pool.remove hash).Behind := by
  refine ⟨fun k e hk => ?_, fun k k' e e' hk hk' =>
    h.distinct k k' e e' (get_of_get_remove hk) (get_of_get_remove hk')⟩
  rw [expectedNonce_remove]
  exact h.below k e (get_of_get_remove hk)

variable [Keccak]

theorem expectedNonce_le_enqueue (pool : TransactionPool) (tx : Transaction) (origin : TxOrigin)
    (addedAtMs : UInt64) (a : Address) :
    pool.expectedNonce a ≤ (pool.enqueue tx origin addedAtMs).expectedNonce a := by
  rw [expectedNonce_enqueue]
  split_ifs with hs
  · rw [hs, UInt64.le_iff_toNat_le, UInt64.toNat_saturatingAdd]
    exact le_min (Nat.le_add_right _ _) (UInt64.toNat_le_max _)
  · exact UInt64.le_refl _

variable [Ed25519]

/-- **Admission keeps transactions distinct**, also when the next nonce saturates: the new
transaction then has the last nonce itself. -/
theorem Behind.enqueue {pool : TransactionPool} (h : pool.Behind) {tx : Transaction}
    (ha : pool.Admissible tx) (origin : TxOrigin) (addedAtMs : UInt64) :
    (pool.enqueue tx origin addedAtMs).Behind := by
  -- nothing pending shares its sender and a usable nonce with the new transaction
  have hother : ∀ (hash : H256) entry, pool.pending[hash]? = some entry → entry.tx.Usable →
      entry.tx.sender = tx.sender → entry.tx.nonce ≠ tx.nonce := by
    intro hash entry he hu hs hn
    have hlt := h.below hash entry he hu
    rw [hs, hn, ha.nonce] at hlt
    exact absurd hlt (UInt64.lt_irrefl _)
  refine ⟨fun hash entry he hu => ?_, fun hash hash' entry entry' he he' hu hs hn => ?_⟩
  · change (pool.pending.insert tx.hash _)[hash]? = some entry at he
    rw [Table.get_insert] at he
    split_ifs at he with hk
    · cases he
      have hlast : (pool.expectedNonce tx.sender).toNat + 1 < 2 ^ 64 := by
        rw [← ha.nonce]
        exact hu
      rw [UInt64.lt_iff_toNat_lt, toNat_expectedNonce_enqueue hlast, if_pos rfl, ← ha.nonce]
      exact Nat.lt_succ_self _
    · exact UInt64.lt_of_lt_of_le (h.below hash entry he hu)
        (pool.expectedNonce_le_enqueue tx origin addedAtMs _)
  · refine Table.key_eq_of_insert
      (R := fun e e' => e.tx.Usable ∧ e.tx.sender = e'.tx.sender ∧ e.tx.nonce = e'.tx.nonce)
      (fun k k' e e' hk hk' hR => h.distinct k k' e e' hk hk' hR.1 hR.2.1 hR.2.2)
      (fun k e hk => ⟨fun hR => ?_, fun hR => ?_⟩) he he' ⟨hu, hs, hn⟩
    · exact hother k e hk hR.1 hR.2.1 hR.2.2
    · have hu' : e.tx.Usable := by
        rw [Transaction.Usable, ← hR.2.2]
        exact hR.1
      exact hother k e hk hu' hR.2.1.symm hR.2.2.symm

theorem Behind.addTransactionAt {pool : TransactionPool} (h : pool.Behind) (tx : Transaction)
    (origin : TxOrigin) (addedAtMs : UInt64) :
    (pool.addTransactionAt tx origin addedAtMs).2.Behind := by
  rcases pool.addTransactionAt_cases tx origin addedAtMs with ⟨ha, heq⟩ | ⟨-, e, heq⟩
  · rw [heq]
    exact h.enqueue ha origin addedAtMs
  · rw [heq]
    exact h

theorem behind_step {t : PoolLog} (h : t.pool.Behind) (cmd : PoolCommand) :
    (t.step cmd).pool.Behind := by
  cases cmd with
  | add tx origin addedAtMs =>
    have hadd := h.addTransactionAt tx origin addedAtMs
    rw [PoolLog.step]
    rcases t.pool.addTransactionAt_cases tx origin addedAtMs with ⟨-, heq⟩ | ⟨-, e, heq⟩
    · rw [heq] at hadd ⊢
      exact hadd
    · rw [heq]
      exact h
  | remove hash => exact h.remove hash
  | clearPending => exact behind_of_empty rfl
  | clear => exact behind_of_empty rfl

/-- **Below the last nonce, pending transactions have distinct senders or nonces**, after every
sequence of calls, however long. -/
theorem distinct_run (config : PoolConfig) (cmds : List PoolCommand) :
    (PoolLog.run config cmds).pool.Distinct := by
  have hrun : (PoolLog.run config cmds).pool.Behind :=
    List.foldlRecOn cmds PoolLog.step (motive := fun t => t.pool.Behind) (behind_of_empty rfl)
      fun t h cmd _ => behind_step h cmd
  exact hrun.distinct

end TransactionPool

/-! ### Production -/

/-- When all of the pool is asked for, the candidates are the pending transactions. -/
theorem ProduceParams.perm_candidates {pool : TransactionPool} {params : ProduceParams}
    (hiter : pool.Iterates params.entries) (hmax : pool.pending.size ≤ params.maxTxs.toNat) :
    params.candidates.Perm (pool.pending.toList.map fun p => p.2.tx) := by
  have hlen : params.entries.length ≤ params.maxTxs.toNat := by
    rw [hiter.length_eq, List.length_map, Std.ExtTreeMap.length_toList]
    exact hmax
  rw [candidates, TransactionPool.getPending, TransactionPool.getPendingEntries,
    List.take_of_length_le hlen]
  refine (List.perm_insertionSort _ _).trans ?_
  have hmap := hiter.map PendingTx.tx
  rwa [List.map_map] at hmap

/-- **The usable candidates are the same for every order**: the sort leaves no choice. -/
theorem ProduceParams.filter_candidates_eq {pool : TransactionPool} (hd : pool.Distinct)
    (params params' : ProduceParams) (hiter : pool.Iterates params.entries)
    (hiter' : pool.Iterates params'.entries) (hmax : pool.pending.size ≤ params.maxTxs.toNat)
    (hmax' : pool.pending.size ≤ params'.maxTxs.toNat) :
    params.candidates.filter (·.Usable) = params'.candidates.filter (·.Usable) := by
  have hperm := perm_candidates hiter hmax
  have hperm' := perm_candidates hiter' hmax'
  have hmem : ∀ tx, tx ∈ params.candidates.filter (·.Usable) →
      tx.Usable ∧ ∃ (hash : H256) (entry : PendingTx),
        pool.pending[hash]? = some entry ∧ entry.tx = tx := by
    intro tx htx
    obtain ⟨hc, hu⟩ := List.mem_filter.mp htx
    obtain ⟨⟨hash, entry⟩, hp, heq⟩ := List.mem_map.mp (hperm.mem_iff.mp hc)
    exact ⟨by simpa using hu, hash, entry, Table.mem_toList.mp hp, heq⟩
  have hfilter := (hperm.trans hperm'.symm).filter fun tx : Transaction => decide tx.Usable
  refine hfilter.eq_of_pairwise (fun a b ha hb hab hba => ?_)
    (params.sorted_candidates.filter _) (params'.sorted_candidates.filter _)
  -- equal keys belong to one entry of the pool
  obtain ⟨hu, hash, entry, he, rfl⟩ := hmem a ha
  obtain ⟨-, hash', entry', he', rfl⟩ := hmem b (hfilter.mem_iff.mpr hb)
  obtain ⟨hs, hn⟩ := Transaction.key_eq_of_le_le hab hba
  obtain rfl := hd hash hash' entry entry' he he' hu hs hn
  rw [Option.some.inj (he.symm.trans he')]

namespace BlockProducer

variable [Keccak] [Ed25519] [Wasmi]

omit [Ed25519] in
/-- Parameters that differ only in what the iteration yields execute the same. -/
theorem executed_order {pool : TransactionPool} (hd : pool.Distinct) (params : ProduceParams)
    {entries entries' : List PendingTx} (hiter : pool.Iterates entries)
    (hiter' : pool.Iterates entries') (hmax : pool.pending.size ≤ params.maxTxs.toNat) :
    ProduceParams.executed { params with entries := entries }
      = ProduceParams.executed { params with entries := entries' } := by
  have hsame := ProduceParams.filter_candidates_eq hd { params with entries := entries }
    { params with entries := entries' } hiter hiter' hmax hmax
  rw [ProduceParams.executed, ProduceParams.executed, ← executeEach_filter_usable, hsame,
    executeEach_filter_usable]
  rfl

/-- In any pool with distinct transactions the order of the entries does not matter. -/
theorem produceBlock_of_distinct {pool : TransactionPool} (hd : pool.Distinct)
    (producer : BlockProducer) (params : ProduceParams) {entries entries' : List PendingTx}
    (hiter : pool.Iterates entries) (hiter' : pool.Iterates entries')
    (hmax : pool.pending.size ≤ params.maxTxs.toNat) :
    producer.produceBlock { params with entries := entries }
      = producer.produceBlock { params with entries := entries' } := by
  have hexec := executed_order hd params hiter hiter' hmax
  rw [ProduceParams.executed, ProduceParams.executed] at hexec
  simp only [produceBlock, produceBlockWith, hexec]
  rfl

/-- **The block does not depend on the order of the pool.**  For every sequence of calls to a pool
of any configuration, if the pool holds at most `max_txs` transactions, then any two orders in
which the iteration yields them give the same block, or the same error, and leave the same
state. -/
theorem produceBlock_order (producer : BlockProducer) (config : PoolConfig)
    (cmds : List PoolCommand) (params : ProduceParams) (entries entries' : List PendingTx)
    (hiter : (PoolLog.run config cmds).pool.Iterates entries)
    (hiter' : (PoolLog.run config cmds).pool.Iterates entries')
    (hmax : (PoolLog.run config cmds).pool.pending.size ≤ params.maxTxs.toNat) :
    producer.produceBlock { params with entries := entries }
      = producer.produceBlock { params with entries := entries' } :=
  produceBlock_of_distinct (TransactionPool.distinct_run config cmds) producer params hiter hiter'
    hmax

end BlockProducer

namespace Devnet

/-- Two transfers of one sender are admitted. -/
def twoTransfers : List PoolCommand :=
  [.add (transfer 0) .local 0, .add (transfer 1) .remote 1]

/-- What an iteration over both yields, in one order. -/
def twoEntries : List PendingTx := entriesOf (PoolLog.run PoolConfig.default twoTransfers).pool

/-- Both orders of two transfers give one block. -/
theorem produceBlock_order_twoTransfers :
    twoEntries ≠ twoEntries.reverse
      ∧ (params twoEntries).executed.1.map Prod.fst = [transfer 0, transfer 1]
      ∧ BlockProducer.new.produceBlock (params twoEntries)
        = BlockProducer.new.produceBlock (params twoEntries.reverse) := by
  have heval : twoEntries ≠ twoEntries.reverse
      ∧ (params twoEntries).executed.1.map Prod.fst = [transfer 0, transfer 1]
      ∧ (PoolLog.run PoolConfig.default twoTransfers).pool.pending.size
        ≤ (params []).maxTxs.toNat := by decide +kernel
  obtain ⟨hne, hexec, hsize⟩ := heval
  exact ⟨hne, hexec, BlockProducer.produceBlock_order BlockProducer.new PoolConfig.default
    twoTransfers (params []) twoEntries twoEntries.reverse (List.Perm.refl _)
    (List.reverse_perm _) hsize⟩

end Devnet

end Ivory
