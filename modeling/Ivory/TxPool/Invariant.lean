import Ivory.TxPool.Calls

/-!
# The three maps of the pool

`add_transaction_at`, `remove`, `clear_pending` and `clear` one after the other, on
a pool of any configuration.  Each of them writes two or three maps with early
exits, saturating counters and the removal of empty counters between the writes.

* `TransactionPool.WellKept`: the maps agree and the limits are kept.
* `PoolLog.inv_step`: **every command keeps the invariant**, as long as nonces do not run out.
* `PoolLog.well_kept_run`: **the pool is well kept after every sequence of commands**,
  and between two `clear`s the nonces of a sender are admitted in order.
-/

namespace Ivory

namespace TransactionPool

variable [Keccak] [Ed25519]

/-- The maps of a pool agree, and its limits are kept. -/
structure WellKept (pool : TransactionPool) : Prop where
  counts : ∀ a : Address, (pool.perSender[a]?).map UInt64.toNat
    = if pool.pendingOf a = 0 then none else some (pool.pendingOf a)
  limit : ∀ a, pool.pendingOf a ≤ pool.config.maxPerSender.toNat
  room : pool.pending.size ≤ pool.config.maxPending.toNat
  keyed : ∀ (hash : H256) (entry : PendingTx), pool.pending[hash]? = some entry →
    entry.hash = hash ∧ entry.tx.hash = hash
  admissible : ∀ (hash : H256) (entry : PendingTx), pool.pending[hash]? = some entry →
    recoverSender entry.tx = .ok entry.tx.sender ∧ pool.config.minGas ≤ entry.tx.gas
  nonces : ∀ (hash : H256) (entry : PendingTx), pool.pending[hash]? = some entry →
    entry.tx.nonce < pool.expectedNonce entry.tx.sender
  unique : pool.Unique

omit [Ed25519] in
theorem toNat_expectedNonce_enqueue {pool : TransactionPool} {tx : Transaction}
    (hlast : (pool.expectedNonce tx.sender).toNat + 1 < 2 ^ 64) (origin : TxOrigin)
    (addedAtMs : UInt64) (a : Address) :
    ((pool.enqueue tx origin addedAtMs).expectedNonce a).toNat
      = (pool.expectedNonce a).toNat + if a = tx.sender then 1 else 0 := by
  rw [expectedNonce_enqueue]
  split_ifs with hs
  · rw [hs, UInt64.toNat_saturatingAdd]
    exact min_eq_left (Nat.le_sub_one_of_lt hlast)
  · rfl

omit [Keccak] [Ed25519] in
theorem remove_eq (pool : TransactionPool) {hash : H256} {entry : PendingTx} {n : UInt64}
    (he : pool.pending[hash]? = some entry) (hn : pool.perSender[entry.tx.sender]? = some n) :
    pool.remove hash = { pool with
      pending := pool.pending.erase hash
      perSender := if n.saturatingSub 1 = 0 then pool.perSender.erase entry.tx.sender
        else pool.perSender.insert entry.tx.sender (n.saturatingSub 1) } := by
  rw [remove, he]
  simp only [hn]

omit [Keccak] [Ed25519] in
theorem perSender_remove (pool : TransactionPool) {hash : H256} {entry : PendingTx} {n : UInt64}
    (he : pool.pending[hash]? = some entry) (hn : pool.perSender[entry.tx.sender]? = some n)
    (a : Address) : (pool.remove hash).perSender[a]?
      = if a = entry.tx.sender then if n.saturatingSub 1 = 0 then none
          else some (n.saturatingSub 1)
        else pool.perSender[a]? := by
  rw [pool.remove_eq he hn]
  by_cases hzero : n.saturatingSub 1 = 0
  · simp only [if_pos hzero, Table.get_erase]
  · simp only [if_neg hzero, Table.get_insert]

omit [Keccak] [Ed25519] in
theorem pendingOf_remove (pool : TransactionPool) {hash : H256} {entry : PendingTx} {n : UInt64}
    (he : pool.pending[hash]? = some entry) (hn : pool.perSender[entry.tx.sender]? = some n)
    (a : Address) : (pool.remove hash).pendingOf a + (if entry.tx.sender = a then 1 else 0)
      = pool.pendingOf a := by
  rw [pool.remove_eq he hn]
  exact pool.pendingOf_erase he a

/-- Without pending transactions and without counts there is nothing to keep. -/
theorem wellKept_of_empty {pool : TransactionPool} (hpending : pool.pending = ∅)
    (hcounts : pool.perSender = ∅) : pool.WellKept := by
  have hget : ∀ (hash : H256) (entry : PendingTx), pool.pending[hash]? ≠ some entry := by
    intro hash entry h
    rw [hpending, Std.ExtTreeMap.getElem?_empty] at h
    cases h
  have hzero : ∀ a, pool.pendingOf a = 0 := by
    intro a
    rw [pendingOf, hpending]
    rfl
  exact
    { counts := fun a => by rw [if_pos (hzero a), hcounts, Std.ExtTreeMap.getElem?_empty]; rfl
      limit := fun a => by rw [hzero a]; exact Nat.zero_le _
      room := by rw [hpending]; exact Nat.zero_le _
      keyed := Filed.of_empty hpending
      admissible := fun hash entry h => absurd h (hget hash entry)
      nonces := fun hash entry h => absurd h (hget hash entry)
      unique := fun hash _ entry _ h => absurd h (hget hash entry) }

namespace WellKept

variable {pool : TransactionPool}

theorem toNat_senderCount (h : pool.WellKept) (a : Address) :
    (pool.senderCount a).toNat = pool.pendingOf a := by
  have hcount := h.counts a
  rw [senderCount]
  by_cases hzero : pool.pendingOf a = 0
  · rw [if_pos hzero, Option.map_eq_none_iff] at hcount
    rw [hcount, hzero]
    rfl
  · rw [if_neg hzero, Option.map_eq_some_iff] at hcount
    obtain ⟨n, hn, hval⟩ := hcount
    rw [hn]
    exact hval

/-! ### Admission -/

/-- **Admission keeps the pool.**  The new nonce is above those that are pending, and the count
is below a limit that fits. -/
theorem enqueue (h : pool.WellKept) {tx : Transaction} (ha : pool.Admissible tx)
    (hlast : (pool.expectedNonce tx.sender).toNat + 1 < 2 ^ 64) (origin : TxOrigin)
    (addedAtMs : UInt64) : (pool.enqueue tx origin addedAtMs).WellKept := by
  have hget : ∀ hash : H256, (pool.enqueue tx origin addedAtMs).pending[hash]?
      = if hash = tx.hash then some ⟨tx.hash, tx, origin, addedAtMs⟩
        else pool.pending[hash]? := fun hash => Table.get_insert _ _ _ _
  have hpending : ∀ a, (pool.enqueue tx origin addedAtMs).pendingOf a
      = pool.pendingOf a + if tx.sender = a then 1 else 0 :=
    fun a => pool.pendingOf_insert ha.fresh ⟨tx.hash, tx, origin, addedAtMs⟩ a
  have hsender : pool.pendingOf tx.sender < pool.config.maxPerSender.toNat := by
    rw [← h.toNat_senderCount]
    exact UInt64.lt_iff_toNat_lt.mp ha.senderRoom
  have hexpected := toNat_expectedNonce_enqueue hlast origin addedAtMs
  -- what was pending stays below the next nonce of its sender
  have hbelow : ∀ (hash : H256) entry, pool.pending[hash]? = some entry →
      entry.tx.nonce < (pool.enqueue tx origin addedAtMs).expectedNonce entry.tx.sender := by
    intro hash entry he
    have hlt := h.nonces hash entry he
    rw [UInt64.lt_iff_toNat_lt] at hlt ⊢
    rw [hexpected]
    omega
  -- so the new transaction shares its nonce with none of its sender
  have hother : ∀ (hash : H256) entry, pool.pending[hash]? = some entry →
      entry.tx.sender = tx.sender → entry.tx.nonce ≠ tx.nonce := by
    intro hash entry he hs hn
    have hlt := h.nonces hash entry he
    rw [hs, hn, ha.nonce] at hlt
    exact absurd hlt (UInt64.lt_irrefl _)
  refine ⟨fun a => ?_, fun a => ?_, ?_, fun hash entry he => ?_, fun hash entry he => ?_,
    fun hash entry he => ?_, fun hash hash' entry entry' he he' hs hn => ?_⟩
  · show ((pool.perSender.insert tx.sender _)[a]?).map UInt64.toNat = _
    rw [Table.get_insert, hpending]
    by_cases hs : a = tx.sender
    · subst hs
      rw [if_pos rfl, if_pos rfl, if_neg (Nat.succ_ne_zero _), Option.map_some,
        UInt64.toNat_saturatingAdd, h.toNat_senderCount]
      have hfits := pool.config.maxPerSender.toNat_lt
      have hone : (1 : UInt64).toNat = 1 := rfl
      exact congrArg some (min_eq_left (by omega))
    · rw [if_neg hs, if_neg (Ne.symm hs), Nat.add_zero]
      exact h.counts a
  · show (pool.enqueue tx origin addedAtMs).pendingOf a ≤ pool.config.maxPerSender.toNat
    rw [hpending]
    split_ifs with hs
    · rw [← hs]
      exact hsender
    · exact h.limit a
  · exact le_trans Std.ExtTreeMap.size_insert_le ha.room
  · exact Filed.enqueue h.keyed tx origin addedAtMs hash entry he
  · rw [hget] at he
    split_ifs at he with hk
    · cases he
      exact ⟨ha.signed, ha.gas⟩
    · exact h.admissible hash entry he
  · rw [hget] at he
    split_ifs at he with hk
    · cases he
      rw [UInt64.lt_iff_toNat_lt, hexpected, if_pos rfl, ← ha.nonce]
      exact Nat.lt_succ_self _
    · exact hbelow hash entry he
  · refine Table.key_eq_of_insert
      (R := fun e e' => e.tx.sender = e'.tx.sender ∧ e.tx.nonce = e'.tx.nonce)
      (fun k k' e e' hk hk' hR => h.unique k k' e e' hk hk' hR.1 hR.2)
      (fun k e hk => ⟨fun hR => ?_, fun hR => ?_⟩) he he' ⟨hs, hn⟩
    · exact hother k e hk hR.1 hR.2
    · exact hother k e hk hR.1.symm hR.2.symm

/-! ### Removal -/

theorem exists_count (h : pool.WellKept) {hash : H256} {entry : PendingTx}
    (he : pool.pending[hash]? = some entry) :
    ∃ n, pool.perSender[entry.tx.sender]? = some n
      ∧ n.toNat = pool.pendingOf entry.tx.sender ∧ 0 < n.toNat := by
  have hpos := pool.pendingOf_erase he entry.tx.sender
  rw [if_pos rfl] at hpos
  have hcount := h.counts entry.tx.sender
  rw [if_neg (by omega), Option.map_eq_some_iff] at hcount
  obtain ⟨n, hn, hval⟩ := hcount
  exact ⟨n, hn, hval, by omega⟩

/-- **Removal keeps the pool**: the counter goes down with the entries, and goes away at zero. -/
theorem remove (h : pool.WellKept) (hash : H256) : (pool.remove hash).WellKept := by
  cases he : pool.pending[hash]? with
  | none =>
    have hsame : pool.remove hash = pool := by rw [TransactionPool.remove, he]
    rw [hsame]
    exact h
  | some entry =>
    obtain ⟨n, hn, hval, hpos⟩ := h.exists_count he
    have hpending := pool.pendingOf_remove he hn
    refine ⟨fun a => ?_, fun a => ?_, ?_, Filed.remove h.keyed hash,
      fun k e hk => ?_, fun k e hk => ?_, fun k k' e e' hk hk' =>
      h.unique k k' e e' (get_of_get_remove hk) (get_of_get_remove hk')⟩
    · have ha := hpending a
      rw [pool.perSender_remove he hn]
      by_cases hs : a = entry.tx.sender
      · have hsub : (n.saturatingSub 1).toNat = n.toNat - 1 := UInt64.toNat_saturatingSub _ _
        have hleft : (pool.remove hash).pendingOf a = n.toNat - 1 := by
          rw [hs, if_pos rfl, ← hval] at ha
          rw [hs]
          omega
        have hiff : n.saturatingSub 1 = 0 ↔ n.toNat - 1 = 0 := by
          rw [← UInt64.toNat_inj, hsub]
          rfl
        rw [if_pos hs, hleft]
        by_cases hzero : n.saturatingSub 1 = 0
        · rw [if_pos hzero, if_pos (hiff.mp hzero)]
          rfl
        · rw [if_neg hzero, if_neg (mt hiff.mpr hzero), Option.map_some, hsub]
      · rw [if_neg (Ne.symm hs), Nat.add_zero] at ha
        rw [if_neg hs, ha]
        exact h.counts a
    · have ha := hpending a
      have hlimit := h.limit a
      rw [config_remove]
      omega
    · rw [config_remove, pool.remove_eq he hn]
      exact le_trans Std.ExtTreeMap.size_erase_le h.room
    · rw [config_remove]
      exact h.admissible k e (get_of_get_remove hk)
    · rw [expectedNonce_remove]
      exact h.nonces k e (get_of_get_remove hk)

end WellKept

end TransactionPool

/-! ### Sequences of commands -/

/-- The calls that write to a pool. -/
inductive PoolCommand
  | add (tx : Transaction) (origin : TxOrigin) (addedAtMs : UInt64)
  | remove (hash : H256)
  | clearPending
  | clear

/-- A pool, the transactions it admitted since the last `clear`, in order, and the number of all
its admissions. -/
structure PoolLog where
  pool : TransactionPool
  admitted : List Transaction
  admissions : ℕ

namespace PoolLog

/-- The admitted nonces of a sender, in order. -/
def noncesOf (t : PoolLog) (a : Address) : List ℕ :=
  (t.admitted.filter fun tx => tx.sender = a).map fun tx => tx.nonce.toNat

theorem length_noncesOf_le (t : PoolLog) (a : Address) :
    (t.noncesOf a).length ≤ t.admitted.length := by
  rw [noncesOf, List.length_map]
  exact List.length_filter_le _ _

variable [Keccak] [Ed25519]

/-- One call. -/
def step (t : PoolLog) : PoolCommand → PoolLog
  | .add tx origin addedAtMs =>
    match t.pool.addTransactionAt tx origin addedAtMs with
    | (.ok _, pool) => ⟨pool, t.admitted ++ [tx], t.admissions + 1⟩
    | (.error _, pool) => { t with pool }
  | .remove hash => { t with pool := t.pool.remove hash }
  | .clearPending => { t with pool := t.pool.clearPending }
  | .clear => { t with pool := t.pool.clear, admitted := [] }

/-- Calls on an empty pool. -/
def run (config : PoolConfig) (cmds : List PoolCommand) : PoolLog :=
  cmds.foldl step ⟨.withConfig config, [], 0⟩

/-- The pool is well kept, and the next nonce of each sender counts its admissions. -/
structure Inv (config : PoolConfig) (t : PoolLog) : Prop where
  config_eq : t.pool.config = config
  wellKept : t.pool.WellKept
  ordered : ∀ a, t.noncesOf a = List.range (t.pool.expectedNonce a).toNat
  few : t.admitted.length ≤ t.admissions

theorem admissions_step_le (t : PoolLog) (cmd : PoolCommand) :
    t.admissions ≤ (t.step cmd).admissions := by
  cases cmd with
  | add tx origin addedAtMs =>
    rw [step]
    rcases t.pool.addTransactionAt_cases tx origin addedAtMs with ⟨-, heq⟩ | ⟨-, e, heq⟩
    · rw [heq]
      exact Nat.le_succ _
    · rw [heq]
  | remove hash => exact le_rfl
  | clearPending => exact le_rfl
  | clear => exact le_rfl

theorem inv_empty {config : PoolConfig} {t : PoolLog} (hconfig : t.pool.config = config)
    (hpending : t.pool.pending = ∅) (hcounts : t.pool.perSender = ∅)
    (hnonces : t.pool.nextNonce = ∅) (hadmitted : t.admitted = []) : Inv config t where
  config_eq := hconfig
  wellKept := TransactionPool.wellKept_of_empty hpending hcounts
  ordered a := by
    rw [noncesOf, hadmitted, TransactionPool.expectedNonce, hnonces,
      Std.ExtTreeMap.getElem?_empty]
    rfl
  few := by rw [hadmitted]; exact Nat.zero_le _

theorem Inv.enqueue {config : PoolConfig} {t : PoolLog} (h : Inv config t) {tx : Transaction}
    (ha : t.pool.Admissible tx) (hlast : t.admissions + 1 < 2 ^ 64) (origin : TxOrigin)
    (addedAtMs : UInt64) : Inv config
      ⟨t.pool.enqueue tx origin addedAtMs, t.admitted ++ [tx], t.admissions + 1⟩ := by
  have hcount : (t.pool.expectedNonce tx.sender).toNat ≤ t.admissions := by
    have hlen := t.length_noncesOf_le tx.sender
    rw [h.ordered, List.length_range] at hlen
    exact hlen.trans h.few
  have hnext : (t.pool.expectedNonce tx.sender).toNat + 1 < 2 ^ 64 := by omega
  refine ⟨h.config_eq, h.wellKept.enqueue ha hnext origin addedAtMs, fun a => ?_, ?_⟩
  · show ((t.admitted ++ [tx]).filter _).map _ = _
    rw [TransactionPool.toNat_expectedNonce_enqueue hnext, List.filter_append, List.map_append]
    have hold := h.ordered a
    rw [noncesOf] at hold
    rw [hold]
    by_cases hs : a = tx.sender
    · have hself : [tx].filter (fun tx => tx.sender = a) = [tx] := by simp [hs]
      rw [hself, if_pos hs, hs, List.range_succ, List.map_singleton, ha.nonce]
    · have hnone : [tx].filter (fun tx => tx.sender = a) = [] := by simp [Ne.symm hs]
      rw [hnone, if_neg hs, List.map_nil, List.append_nil, Nat.add_zero]
  · show (t.admitted ++ [tx]).length ≤ t.admissions + 1
    rw [List.length_append, List.length_singleton]
    exact Nat.succ_le_succ h.few

/-- **Every command keeps the invariant**, as long as nonces do not run out. -/
theorem inv_step {config : PoolConfig} {t : PoolLog} (h : Inv config t) (cmd : PoolCommand)
    (hfew : (t.step cmd).admissions < 2 ^ 64) : Inv config (t.step cmd) := by
  cases cmd with
  | add tx origin addedAtMs =>
    rw [step] at hfew ⊢
    rcases t.pool.addTransactionAt_cases tx origin addedAtMs with ⟨ha, heq⟩ | ⟨-, e, heq⟩
    · rw [heq] at hfew ⊢
      exact h.enqueue ha hfew origin addedAtMs
    · rw [heq]
      exact h
  | remove hash =>
    refine ⟨(t.pool.config_remove hash).trans h.config_eq, h.wellKept.remove hash, fun a => ?_,
      h.few⟩
    show t.noncesOf a = List.range ((t.pool.remove hash).expectedNonce a).toNat
    rw [TransactionPool.expectedNonce_remove]
    exact h.ordered a
  | clearPending =>
    exact ⟨h.config_eq, TransactionPool.wellKept_of_empty rfl rfl, h.ordered, h.few⟩
  | clear => exact inv_empty h.config_eq rfl rfl rfl rfl

theorem inv_run (config : PoolConfig) (cmds : List PoolCommand)
    (hfew : (run config cmds).admissions < 2 ^ 64) : Inv config (run config cmds) := by
  induction cmds using List.reverseRecOn with
  | nil => exact inv_empty rfl rfl rfl rfl rfl
  | append_singleton cmds cmd ih =>
    have hrun : run config (cmds ++ [cmd]) = (run config cmds).step cmd := by
      rw [run, List.foldl_append]
      rfl
    rw [hrun] at hfew ⊢
    exact inv_step (ih (lt_of_le_of_lt (admissions_step_le _ cmd) hfew)) cmd hfew

/-- **The pool is well kept after every sequence of commands** with fewer than `2 ^ 64`
admissions, on a pool of any configuration: its maps agree and its limits hold; the nonces of a
sender that were admitted since the last `clear` are `0, 1, 2, …` up to the one that is expected
next; and an admission that is refused changes nothing. -/
theorem well_kept_run (config : PoolConfig) (cmds : List PoolCommand)
    (hfew : (run config cmds).admissions < 2 ^ 64) :
    (run config cmds).pool.config = config
    ∧ (run config cmds).pool.WellKept
    ∧ (∀ a, (run config cmds).noncesOf a
      = List.range ((run config cmds).pool.expectedNonce a).toNat)
    ∧ ∀ tx origin addedAtMs e pool',
      (run config cmds).pool.addTransactionAt tx origin addedAtMs = (.error e, pool') →
        pool' = (run config cmds).pool := by
  have h := inv_run config cmds hfew
  refine ⟨h.config_eq, h.wellKept, h.ordered, fun tx origin addedAtMs e pool' heq => ?_⟩
  rcases (run config cmds).pool.addTransactionAt_cases tx origin addedAtMs with
    ⟨-, hok⟩ | ⟨-, e', herr⟩
  · rw [hok] at heq
    cases heq
  · rw [herr] at heq
    cases heq
    rfl

end PoolLog

namespace Devnet

/-- Two transfers are admitted and one is included; a second one with the nonce of the first is
refused, before and after the pending transactions are dropped. -/
def poolCommands : List PoolCommand :=
  [.add (transfer 0) .local 0, .add (transfer 1) .remote 1, .remove (transfer 0).hash,
    .add otherTransfer .local 2, .clearPending, .add otherTransfer .local 3]

theorem well_kept_run_poolCommands :
    (PoolLog.run PoolConfig.default poolCommands).admissions = 2
    ∧ (PoolLog.run PoolConfig.default poolCommands).noncesOf user = [0, 1]
    ∧ (PoolLog.run PoolConfig.default poolCommands).pool.WellKept := by
  have heval : (PoolLog.run PoolConfig.default poolCommands).admissions = 2
      ∧ (PoolLog.run PoolConfig.default poolCommands).noncesOf user = [0, 1] := by decide +kernel
  obtain ⟨htwo, hnonces⟩ := heval
  have hfew : (PoolLog.run PoolConfig.default poolCommands).admissions < 2 ^ 64 := by
    rw [htwo]
    norm_num
  obtain ⟨-, hkept, -⟩ := PoolLog.well_kept_run PoolConfig.default poolCommands hfew
  exact ⟨htwo, hnonces, hkept⟩

end Devnet

end Ivory
