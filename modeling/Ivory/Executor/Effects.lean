import Ivory.Executor
import Ivory.State.Ledger

/-!
# What a transaction does to the ledger

One lemma for each step of `execute_transaction`, and from them what a whole
transaction does.

* `Executed`: **what a successful transaction does** to nonces, balances and
  their total, and what it reports.  `executeTransaction_eq_ok` derives it.
* `nonce_executeTransaction`: **every transaction that passes the first checks
  uses up its nonce**, whether it succeeds or fails later.
* `executeTransaction_of_precheck_error`: a failed first check leaves no trace.
-/

namespace Ivory

/-! ### The steps -/

/-- What the first checks establish. -/
structure Precheck (cfg : GasConfig) (state : StateDB) (ctx : ExecutionContext) (tx : Transaction)
    (checked : Checked) : Prop where
  nonce_eq : state.nonce tx.sender = tx.nonce
  next_nonce : checked.sender.nonce.toNat = tx.nonce.toNat + 1
  debit : checked.sender.balance.toNat + (tx.value.toNat + tx.gas.toNat * tx.gasPrice.toNat)
    = state.balance tx.sender
  limit : checked.meter.limit = tx.gas
  remaining : checked.meter.remaining.toNat + (computeIntrinsicGas tx cfg).toNat = tx.gas.toNat
  projected : ctx.gasUsed.saturatingAdd tx.gas ≤ cfg.maxGasPerBlock

theorem precheck_eq_ok {cfg : GasConfig} {state : StateDB} {ctx : ExecutionContext}
    {tx : Transaction} {checked : Checked} (h : precheck cfg state ctx tx = .ok checked) :
    Precheck cfg state ctx tx checked := by
  unfold precheck at h
  simp only at h
  split at h
  · cases h
  next hn =>
  split at h
  · cases h
  next meter hm =>
  split at h
  · cases h
  next gasCost hg =>
  split at h
  · cases h
  next total ht =>
  split at h
  · cases h
  split at h
  · cases h
  next hp =>
  split at h
  · cases h
  next balance hs =>
  split at h
  · cases h
  next nonce hc =>
  cases h
  rw [not_not] at hn
  unfold GasMeter.new at hm
  split at hm
  · cases hm
  next remaining hr =>
  cases hm
  rw [U256.checkedMul_eq_some, U256.toNat_ofU64] at hg
  rw [U256.checkedAdd_eq_some] at ht
  rw [U256.checkedSub_eq_some] at hs
  rw [UInt64.checkedAdd_eq_some] at hc
  rw [UInt64.checkedSub_eq_some] at hr
  exact
    { nonce_eq := hn
      next_nonce := by rw [← hn]; exact hc
      debit := by rw [← hg, ← ht]; exact hs
      limit := rfl
      remaining := hr
      projected := UInt64.not_lt.mp hp }

theorem GasMeter.charge_isOk {meter : GasMeter} {used : UInt64}
    (h : used.toNat ≤ meter.remaining.toNat) :
    ∃ meter', (if used > 0 then meter.spend used else .ok meter) = .ok meter'
      ∧ meter'.limit = meter.limit
      ∧ meter'.remaining.toNat + used.toNat = meter.remaining.toNat := by
  split_ifs with hpos
  · have hsub : (UInt64.ofNat (meter.remaining.toNat - used.toNat)).toNat
        = meter.remaining.toNat - used.toNat :=
      UInt64.toNat_ofNat_of_le (le_trans (Nat.sub_le _ _) (UInt64.toNat_le_max _))
    rw [GasMeter.spend, UInt64.checkedSub, if_pos h]
    refine ⟨_, rfl, rfl, ?_⟩
    show (UInt64.ofNat _).toNat + _ = _
    rw [hsub]
    omega
  · have hzero : used.toNat = 0 := by
      rw [gt_iff_lt, UInt64.lt_iff_toNat_lt, Nat.not_lt] at hpos
      exact Nat.le_zero.mp hpos
    exact ⟨meter, rfl, rfl, by omega⟩

section Writes

variable [Keccak]

theorem totalBalance_debit {cfg : GasConfig} {s : StateDB} {ctx : ExecutionContext}
    {tx : Transaction} {checked : Checked} (h : precheck cfg s ctx tx = .ok checked) :
    (s.setAccount tx.sender checked.sender).totalBalance
      + (tx.value.toNat + tx.gas.toNat * tx.gasPrice.toNat) = s.totalBalance := by
  have hdebit := (precheck_eq_ok h).debit
  have hset : ∀ a, (s.setAccount tx.sender checked.sender).balance a
      = if a = tx.sender then checked.sender.balance.toNat else s.balance a :=
    fun a => StateDB.balance_setAccount _ _ _ _
  have hother : ∀ b, b ≠ tx.sender →
      (s.setAccount tx.sender checked.sender).balance b = s.balance b := by
    intro b hb
    rw [hset b, if_neg hb]
  have hu := StateDB.totalBalance_update hother
  rw [hset, if_pos rfl] at hu
  omega

theorem credit_eq_ok {s s' : StateDB} {tx : Transaction} (h : credit s tx = .ok s') :
    (∀ a, s'.nonce a = s.nonce a)
      ∧ ∀ a, s'.balance a = s.balance a + if a = tx.target then tx.value.toNat else 0 := by
  unfold credit at h
  split at h
  · next target hr =>
    have ht : tx.target = target := by rw [Transaction.target, hr]; rfl
    simp only at h
    split at h
    · cases h
    next balance hb =>
    cases h
    rw [U256.checkedAdd_eq_some] at hb
    refine ⟨fun a => ?_, fun a => ?_⟩
    · rw [StateDB.nonce_setAccount]
      split_ifs with ha
      · rw [ha]; rfl
      · rfl
    · rw [StateDB.balance_setAccount, ht]
      split_ifs with ha
      · rw [hb, ha]; rfl
      · rfl
  · next hr =>
    have ht : tx.target = Address.create tx.sender tx.nonce := by rw [Transaction.target, hr]; rfl
    simp only at h
    split at h
    · cases h
    next balance hb =>
    cases h
    rw [U256.checkedAdd_eq_some] at hb
    refine ⟨fun a => ?_, fun a => ?_⟩
    · refine (StateDB.nonce_setAccount s _ a _).trans ?_
      split_ifs with ha
      · rw [ha]; rfl
      · rfl
    · refine (StateDB.balance_setAccount s _ a _).trans ?_
      rw [ht]
      split_ifs with ha
      · rw [ha]; exact hb
      · rfl

theorem refund_eq_ok {s s' : StateDB} {tx : Transaction} {units : UInt64}
    (h : refund s tx units = .ok s') :
    (∀ a, s'.nonce a = s.nonce a)
      ∧ ∀ a, s'.balance a
        = s.balance a + if a = tx.sender then units.toNat * tx.gasPrice.toNat else 0 := by
  unfold refund at h
  split at h
  · cases h
  next amount hm =>
  rw [U256.checkedMul_eq_some, U256.toNat_ofU64] at hm
  split_ifs at h with hz
  · cases h
    rw [U256.isZero_iff, hm] at hz
    exact ⟨fun _ => rfl, fun a => by rw [hz]; simp⟩
  · simp only at h
    split at h
    · cases h
    next balance hb =>
    cases h
    rw [U256.checkedAdd_eq_some] at hb
    refine ⟨fun a => ?_, fun a => ?_⟩
    · rw [StateDB.nonce_setAccount]
      split_ifs with ha
      · rw [ha]; rfl
      · rfl
    · rw [StateDB.balance_setAccount]
      split_ifs with ha
      · rw [hb, ha, hm]; rfl
      · rfl

end Writes

section Transactions

variable [Keccak] [Wasmi]

theorem executeCall_state {P : StateDB → Prop}
    (hset : ∀ s a slot value, P s → P (s.setStorage a slot value)) (input : CallInput)
    {state : StateDB} (gasLimit : UInt64) (hP : P state) :
    P (executeCall input state gasLimit).2 := by
  unfold executeCall
  split
  · exact hP
  · simp only
    split_ifs
    · exact hP
    · have hx := WasmVm.state_execute (hset · (input.recipient.getD input.sender) · ·)
        (state.getCode (input.recipient.getD input.sender)) gasLimit input.data.toList hP
      split
      · next e s he => rw [he] at hx; exact hx
      · next out s he => rw [he] at hx; exact hx

theorem executeCall_ledger (input : CallInput) (state : StateDB) (gasLimit : UInt64) (a : Address) :
    (executeCall input state gasLimit).2.nonce a = state.nonce a
      ∧ (executeCall input state gasLimit).2.balance a = state.balance a := by
  refine executeCall_state (P := fun s => s.nonce a = state.nonce a
    ∧ s.balance a = state.balance a) ?_ input gasLimit ⟨rfl, rfl⟩
  rintro s b slot value ⟨hn, hb⟩
  obtain ⟨hn', hb'⟩ := s.ledger_setStorage b a slot value
  exact ⟨hn'.trans hn, hb'.trans hb⟩

theorem executeCall_rootsCurrent (input : CallInput) {state : StateDB} (gasLimit : UInt64)
    (h : state.RootsCurrent) : (executeCall input state gasLimit).2.RootsCurrent :=
  executeCall_state (fun _ a slot value hs => hs.setStorage a slot value) input gasLimit h

theorem executeCall_gasUsed_le {input : CallInput} {s s' : StateDB} {gasLimit : UInt64}
    {call : CallResult} (h : executeCall input s gasLimit = (.ok call, s')) :
    call.gasUsed.toNat ≤ gasLimit.toNat := by
  unfold executeCall at h
  split at h
  · cases h
    exact Nat.zero_le _
  · simp only at h
    split_ifs at h
    · cases h
      exact Nat.zero_le _
    · split at h
      · cases h
      · cases h
        rw [UInt64.toNat_saturatingSub]
        exact Nat.sub_le _ _

/-! ### Whole transactions -/

theorem settle_nonce (state : StateDB) (ctx : ExecutionContext) (tx : Transaction)
    (meter : GasMeter) (a : Address) :
    (settle state ctx tx meter).2.1.nonce a = state.nonce a := by
  unfold settle
  split
  · rfl
  next s₁ hc =>
  have h₁ := (credit_eq_ok hc).1 a
  have h₂ := (executeCall_ledger (CallInput.fromTx tx) s₁ meter.remaining a).1
  split
  · next e s₂ he => rw [he] at h₂; exact h₂.trans h₁
  next call s₂ he =>
  rw [he] at h₂
  split
  · exact h₂.trans h₁
  split
  · exact h₂.trans h₁
  next s₃ hr => exact ((refund_eq_ok hr).1 a).trans (h₂.trans h₁)

theorem settle_error_ctx {state state' : StateDB} {ctx ctx' : ExecutionContext} {tx : Transaction}
    {meter : GasMeter} {e : ExecutionError}
    (h : settle state ctx tx meter = (.error e, state', ctx')) : ctx' = ctx := by
  unfold settle at h
  split at h
  · cases h
    rfl
  split at h
  · cases h
    rfl
  split at h
  · cases h
    rfl
  split at h
  · cases h
    rfl
  · cases h

theorem executeTransaction_of_precheck_error {cfg : GasConfig} {state : StateDB}
    {ctx : ExecutionContext} {tx : Transaction} {e : ExecutionError}
    (h : precheck cfg state ctx tx = .error e) :
    executeTransaction cfg state ctx tx = (.error e, state, ctx) := by
  rw [executeTransaction, h]

/-- **A transaction that passes the first checks uses up its nonce**, and no other
nonce changes, whether it succeeds or fails later. -/
theorem nonce_executeTransaction {cfg : GasConfig} {state : StateDB} {ctx : ExecutionContext}
    {tx : Transaction} {checked : Checked} (h : precheck cfg state ctx tx = .ok checked)
    (a : Address) :
    ((executeTransaction cfg state ctx tx).2.1.nonce a).toNat
      = (state.nonce a).toNat + if a = tx.sender then 1 else 0 := by
  have hp := precheck_eq_ok h
  rw [executeTransaction, h]
  simp only
  rw [settle_nonce, StateDB.nonce_setAccount]
  split_ifs with ha
  · rw [hp.next_nonce, ha, hp.nonce_eq]
  · rfl

/-- What a successful settlement does and reports. -/
structure Settled (state : StateDB) (ctx : ExecutionContext) (tx : Transaction) (meter : GasMeter)
    (out : ExecutionOutcome) (state' : StateDB) (ctx' : ExecutionContext) : Prop where
  balance : ∀ a, state'.balance a = state.balance a
    + (if a = tx.target then tx.value.toNat else 0)
    + if a = tx.sender then out.gasRefunded.toNat * tx.gasPrice.toNat else 0
  total : state'.totalBalance
    = state.totalBalance + tx.value.toNat + out.gasRefunded.toNat * tx.gasPrice.toNat
  gas : out.gasUsed.toNat + out.gasRefunded.toNat = meter.limit.toNat
  ctx_eq : ctx' = { ctx with gasUsed := ctx.gasUsed.saturatingAdd out.gasUsed }
  receipt : out.receipt = ⟨tx.hash, ctx.blockNumber, out.gasUsed, out.call.success,
    Vec.ofList out.call.logs⟩

/-- **The steps of a successful settlement**: credit, call and refund went through; the refund is
what the call left. -/
structure Steps (state : StateDB) (ctx : ExecutionContext) (tx : Transaction) (meter : GasMeter)
    (out : ExecutionOutcome) (state' : StateDB) (ctx' : ExecutionContext)
    (credited called : StateDB) : Prop where
  credit : credit state tx = .ok credited
  call : executeCall (CallInput.fromTx tx) credited meter.remaining = (.ok out.call, called)
  refund : refund called tx out.gasRefunded = .ok state'
  left : out.gasRefunded.toNat + out.call.gasUsed.toNat = meter.remaining.toNat
  used : out.gasUsed = meter.limit.saturatingSub out.gasRefunded
  ctx_eq : ctx' = { ctx with gasUsed := ctx.gasUsed.saturatingAdd out.gasUsed }
  receipt : out.receipt = ⟨tx.hash, ctx.blockNumber, out.gasUsed, out.call.success,
    Vec.ofList out.call.logs⟩

theorem settle_steps {state state' : StateDB} {ctx ctx' : ExecutionContext} {tx : Transaction}
    {meter : GasMeter} {out : ExecutionOutcome}
    (h : settle state ctx tx meter = (.ok out, state', ctx')) :
    ∃ s₁ s₂, Steps state ctx tx meter out state' ctx' s₁ s₂ := by
  unfold settle at h
  split at h
  · cases h
  next s₁ hc =>
  split at h
  · cases h
  next call s₂ he =>
  obtain ⟨meter', hcharge, hlimit, hleft⟩ := GasMeter.charge_isOk (executeCall_gasUsed_le he)
  rw [hcharge] at h
  simp only at h
  split at h
  · cases h
  next s₃ hr =>
  cases h
  exact ⟨s₁, s₂,
    { credit := hc
      call := he
      refund := hr
      left := hleft
      used := by rw [← hlimit]; rfl
      ctx_eq := rfl
      receipt := rfl }⟩

theorem settle_eq_ok {state state' : StateDB} {ctx ctx' : ExecutionContext} {tx : Transaction}
    {meter : GasMeter} {out : ExecutionOutcome} (hm : meter.remaining.toNat ≤ meter.limit.toNat)
    (h : settle state ctx tx meter = (.ok out, state', ctx')) :
    Settled state ctx tx meter out state' ctx' := by
  obtain ⟨s₁, s₂, hs⟩ := settle_steps h
  have hcall := executeCall_ledger (CallInput.fromTx tx) s₁ meter.remaining
  rw [hs.call] at hcall
  have h₁ := (credit_eq_ok hs.credit).2
  have h₂ := (refund_eq_ok hs.refund).2
  refine
    { balance := fun a => by rw [h₂ a, (hcall a).2, h₁ a]
      total := ?_
      gas := ?_
      ctx_eq := hs.ctx_eq
      receipt := hs.receipt }
  · rw [StateDB.totalBalance_add h₂, StateDB.totalBalance_congr (fun a => (hcall a).2),
      StateDB.totalBalance_add h₁]
  · have hleft := hs.left
    rw [hs.used, UInt64.toNat_saturatingSub]
    omega

/-- **What a successful transaction does** to nonces, balances and their total, and what
it reports. -/
structure Executed (cfg : GasConfig) (state : StateDB) (ctx : ExecutionContext) (tx : Transaction)
    (out : ExecutionOutcome) (state' : StateDB) (ctx' : ExecutionContext) : Prop where
  nonce_eq : state.nonce tx.sender = tx.nonce
  nonce : ∀ a, (state'.nonce a).toNat = (state.nonce a).toNat + if a = tx.sender then 1 else 0
  balance : ∀ a, state'.balance a + (if a = tx.sender then
      tx.value.toNat + out.gasUsed.toNat * tx.gasPrice.toNat else 0)
    = state.balance a + if a = tx.target then tx.value.toNat else 0
  total : state'.totalBalance + out.gasUsed.toNat * tx.gasPrice.toNat = state.totalBalance
  gas : out.gasUsed.toNat + out.gasRefunded.toNat = tx.gas.toNat
  projected : ctx.gasUsed.saturatingAdd tx.gas ≤ cfg.maxGasPerBlock
  ctx_eq : ctx' = { ctx with gasUsed := ctx.gasUsed.saturatingAdd out.gasUsed }
  receipt : out.receipt = ⟨tx.hash, ctx.blockNumber, out.gasUsed, out.call.success,
    Vec.ofList out.call.logs⟩

theorem executeTransaction_eq_ok {cfg : GasConfig} {state state' : StateDB}
    {ctx ctx' : ExecutionContext} {tx : Transaction} {out : ExecutionOutcome}
    (h : executeTransaction cfg state ctx tx = (.ok out, state', ctx')) :
    Executed cfg state ctx tx out state' ctx' := by
  cases hc : precheck cfg state ctx tx with
  | error e =>
    rw [executeTransaction_of_precheck_error hc] at h
    cases h
  | ok checked =>
    have hp := precheck_eq_ok hc
    have hnonce := nonce_executeTransaction hc
    rw [h] at hnonce
    rw [executeTransaction, hc] at h
    have hs := settle_eq_ok (by rw [hp.limit]; have := hp.remaining; omega) h
    have hgas := hs.gas
    rw [hp.limit] at hgas
    -- gas bought, minus gas refunded, is gas used
    have hcost : tx.gas.toNat * tx.gasPrice.toNat
        = out.gasUsed.toNat * tx.gasPrice.toNat + out.gasRefunded.toNat * tx.gasPrice.toNat := by
      rw [← hgas, add_mul]
    have hdebit := hp.debit
    have hset : ∀ a, (state.setAccount tx.sender checked.sender).balance a
        = if a = tx.sender then checked.sender.balance.toNat else state.balance a :=
      fun a => StateDB.balance_setAccount _ _ _ _
    refine
      { nonce_eq := hp.nonce_eq
        nonce := hnonce
        balance := fun a => ?_
        total := ?_
        gas := hgas
        projected := hp.projected
        ctx_eq := hs.ctx_eq
        receipt := hs.receipt }
    · rw [hs.balance a, hset a]
      by_cases ha : a = tx.sender
      · rw [if_pos ha, if_pos ha, if_pos ha, ha]
        omega
      · rw [if_neg ha, if_neg ha, if_neg ha]
        omega
    · have htotal := totalBalance_debit hc
      rw [hs.total]
      omega

omit [Wasmi] in
/-- Under a cap below the largest number, the gas of a block grows by that of the transaction and
stays below the cap. -/
theorem Executed.gasUsed_ctx {cfg : GasConfig} (hcfg : cfg.maxGasPerBlock < UInt64.maxValue)
    {state state' : StateDB} {ctx ctx' : ExecutionContext} {tx : Transaction}
    {out : ExecutionOutcome} (h : Executed cfg state ctx tx out state' ctx') :
    ctx'.gasUsed.toNat = ctx.gasUsed.toNat + out.gasUsed.toNat
      ∧ ctx'.gasUsed ≤ cfg.maxGasPerBlock := by
  have hproj := h.projected
  have hgas := h.gas
  rw [UInt64.lt_iff_toNat_lt, UInt64.toNat_maxValue] at hcfg
  rw [UInt64.le_iff_toNat_le, UInt64.toNat_saturatingAdd] at hproj
  rw [h.ctx_eq, UInt64.le_iff_toNat_le]
  simp only [UInt64.toNat_saturatingAdd]
  omega

end Transactions

end Ivory
