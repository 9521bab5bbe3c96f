import Ivory.Devnet.Script
import Ivory.Executor.Frame

/-!
# What a failed transaction leaves

`execute_transaction` returns early on an error and undoes nothing.  The first
checks come before the first write, so a transaction that they refuse leaves no
trace.  Three things can fail after the first write: the credit overflows, the
contract fails, the refund overflows.  The first and the last cannot happen while the
sum of all balances fits into a balance, since every amount that is credited has
been debited before; the second can (`Devnet.trapped_call`).

* `Payable`: what the first checks ask for.  `precheck_isOk_iff` says that it is
  just that.
* `settle_eq_error`: the failures after the first write.
* `executeTransaction_error_iff`: **a failed transaction leaves no trace exactly when
  a first check refused it.**
* `no_late_overflow`: **after the first write nothing overflows, if the supply
  fits**, and the supply fits again afterwards.
-/

namespace Ivory

/-! ### The first checks -/

/-- What the first checks ask for. -/
structure Payable (cfg : GasConfig) (s : StateDB) (ctx : ExecutionContext) (tx : Transaction) :
    Prop where
  nonce : s.nonce tx.sender = tx.nonce
  gas : (computeIntrinsicGas tx cfg).toNat ≤ tx.gas.toNat
  balance : tx.value.toNat + tx.gas.toNat * tx.gasPrice.toNat ≤ s.balance tx.sender
  room : ctx.gasUsed.saturatingAdd tx.gas ≤ cfg.maxGasPerBlock
  next : tx.nonce.toNat + 1 < 2 ^ 64

theorem GasMeter.new_isOk {limit intrinsic : UInt64} (h : intrinsic.toNat ≤ limit.toNat) :
    ∃ meter, GasMeter.new limit intrinsic = .ok meter := by
  rw [GasMeter.new, UInt64.checkedSub, if_pos h]
  exact ⟨_, rfl⟩

theorem Payable.precheck {cfg : GasConfig} {s : StateDB} {ctx : ExecutionContext}
    {tx : Transaction} (h : Payable cfg s ctx tx) :
    ∃ checked, precheck cfg s ctx tx = .ok checked := by
  have hbal : (s.account tx.sender).balance.toNat < 2 ^ 256 := U256.toNat_lt _
  have hafford : tx.value.toNat + tx.gas.toNat * tx.gasPrice.toNat
      ≤ (s.account tx.sender).balance.toNat := h.balance
  obtain ⟨meter, hm⟩ := GasMeter.new_isOk h.gas
  obtain ⟨cost, hcost⟩ := U256.exists_toNat_eq (n := tx.gas.toNat * tx.gasPrice.toNat) (by omega)
  obtain ⟨total, htotal⟩ := U256.exists_toNat_eq
    (n := tx.value.toNat + tx.gas.toNat * tx.gasPrice.toNat) (by omega)
  obtain ⟨rest, hrest⟩ := U256.exists_toNat_eq
    (n := (s.account tx.sender).balance.toNat - total.toNat) (by omega)
  have hmul : (U256.ofU64 tx.gas).checkedMul tx.gasPrice = some cost := by
    rw [U256.checkedMul_eq_some, U256.toNat_ofU64, hcost]
  have hadd : tx.value.checkedAdd cost = some total := by
    rw [U256.checkedAdd_eq_some, htotal, hcost]
  have hsub : (s.account tx.sender).balance.checkedSub total = some rest := by
    rw [U256.checkedSub_eq_some]
    omega
  have hlt : ¬ (s.account tx.sender).balance < total := by
    rw [U256.lt_iff]
    omega
  have hnonce : (s.account tx.sender).nonce = tx.nonce := h.nonce
  have hnext : tx.nonce.checkedAdd 1 = some (UInt64.ofNat (tx.nonce.toNat + 1)) :=
    if_pos h.next
  refine ⟨⟨meter, { s.account tx.sender with
    balance := rest, nonce := UInt64.ofNat (tx.nonce.toNat + 1) }⟩, ?_⟩
  unfold Ivory.precheck
  simp only [hm, hmul, hadd, hsub]
  rw [if_neg (not_not.mpr hnonce), if_neg hlt, if_neg (UInt64.not_lt.mpr h.room), hnonce, hnext]

/-- **The first checks are `Payable`.** -/
theorem precheck_isOk_iff {cfg : GasConfig} {s : StateDB} {ctx : ExecutionContext}
    {tx : Transaction} :
    (∃ checked, precheck cfg s ctx tx = .ok checked) ↔ Payable cfg s ctx tx := by
  constructor
  · rintro ⟨checked, h⟩
    have hp := precheck_eq_ok h
    have hnext := checked.sender.nonce.toNat_lt
    rw [hp.next_nonce] at hnext
    refine ⟨hp.nonce_eq, ?_, ?_, hp.projected, hnext⟩
    · have := hp.remaining
      omega
    · have := hp.debit
      omega
  · exact Payable.precheck

theorem precheck_eq_overflow {cfg : GasConfig} {s : StateDB} {ctx : ExecutionContext}
    {tx : Transaction} (h : precheck cfg s ctx tx = .error .overflow) :
    2 ^ 256 ≤ tx.gas.toNat * tx.gasPrice.toNat
      ∨ 2 ^ 256 ≤ tx.value.toNat + tx.gas.toNat * tx.gasPrice.toNat
      ∨ s.nonce tx.sender = UInt64.maxValue := by
  unfold precheck at h
  simp only at h
  split at h
  · cases h
  split at h
  · next e he =>
    unfold GasMeter.new at he
    split at he
    · cases he
      cases h
    · cases he
  split at h
  · next hm =>
    rw [U256.checkedMul_eq_none, U256.toNat_ofU64] at hm
    exact .inl hm
  next cost hm =>
  rw [U256.checkedMul_eq_some, U256.toNat_ofU64] at hm
  split at h
  · next ha =>
    rw [U256.checkedAdd_eq_none, hm] at ha
    exact .inr (.inl ha)
  next total ha =>
  split at h
  · cases h
  next hlt =>
  split at h
  · cases h
  split at h
  · -- the balance was compared before
    next hs =>
    rw [U256.lt_iff, Nat.not_lt] at hlt
    obtain ⟨rest, hrest⟩ := U256.exists_toNat_eq
      (n := (s.account tx.sender).balance.toNat - total.toNat)
      (lt_of_le_of_lt (Nat.sub_le _ _) (U256.toNat_lt _))
    rw [U256.checkedSub_eq_some.mpr (show rest.toNat + total.toNat = _ by omega)] at hs
    cases hs
  split at h
  · next hn =>
    refine .inr (.inr ?_)
    rw [UInt64.checkedAdd] at hn
    split at hn
    · cases hn
    next hmax =>
    have hlt := (s.nonce tx.sender).toNat_lt
    have hone : (1 : UInt64).toNat = 1 := rfl
    change ¬ (s.nonce tx.sender).toNat + _ < _ at hmax
    rw [← UInt64.toNat_inj, UInt64.toNat_maxValue]
    omega
  · cases h

theorem Precheck.refund_le {cfg : GasConfig} {s : StateDB} {ctx : ExecutionContext}
    {tx : Transaction} {checked : Checked} (hp : Precheck cfg s ctx tx checked) {units : UInt64}
    (h : units.toNat ≤ checked.meter.remaining.toNat) :
    units.toNat * tx.gasPrice.toNat ≤ tx.gas.toNat * tx.gasPrice.toNat := by
  have := hp.remaining
  exact Nat.mul_le_mul_right _ (by omega)

section

variable [Keccak]

/-! ### The failures after the first write -/

theorem credit_eq_error {s : StateDB} {tx : Transaction} {e : ExecutionError}
    (h : credit s tx = .error e) :
    e = .overflow ∧ 2 ^ 256 ≤ s.balance tx.target + tx.value.toNat := by
  unfold credit at h
  split at h
  · next callee hto =>
    simp only at h
    split at h
    · next hadd =>
      cases h
      rw [U256.checkedAdd_eq_none] at hadd
      rw [Transaction.target_of_some hto]
      exact ⟨rfl, hadd⟩
    · cases h
  · next hto =>
    simp only at h
    split at h
    · next hadd =>
      cases h
      rw [U256.checkedAdd_eq_none] at hadd
      rw [Transaction.target_of_none hto]
      exact ⟨rfl, hadd⟩
    · cases h

theorem refund_eq_error {s : StateDB} {tx : Transaction} {units : UInt64} {e : ExecutionError}
    (h : refund s tx units = .error e) :
    e = .overflow ∧ 2 ^ 256 ≤ s.balance tx.sender + units.toNat * tx.gasPrice.toNat := by
  unfold refund at h
  split at h
  · next hm =>
    cases h
    rw [U256.checkedMul_eq_none, U256.toNat_ofU64] at hm
    exact ⟨rfl, by omega⟩
  next amount hm =>
  rw [U256.checkedMul_eq_some, U256.toNat_ofU64] at hm
  split_ifs at h
  simp only at h
  split at h
  · next hadd =>
    cases h
    rw [U256.checkedAdd_eq_none, hm] at hadd
    exact ⟨rfl, hadd⟩
  · cases h

variable [Wasmi]

theorem executeCall_eq_error {input : CallInput} {s s' : StateDB} {gasLimit : UInt64}
    {e : ExecutionError} (h : executeCall input s gasLimit = (.error e, s')) :
    ∃ text, e = .vm text := by
  unfold executeCall at h
  split at h
  · cases h
  · simp only at h
    split_ifs at h
    · cases h
    · split at h
      · cases h
        exact ⟨_, rfl⟩
      · cases h

/-- **The failures after the first write**: the credit overflows, the contract fails, or the refund
overflows. -/
theorem settle_eq_error {s s' : StateDB} {ctx ctx' : ExecutionContext} {tx : Transaction}
    {meter : GasMeter} {e : ExecutionError}
    (h : settle s ctx tx meter = (.error e, s', ctx')) :
    (e = .overflow ∧ s' = s ∧ credit s tx = .error .overflow)
    ∨ (∃ s₁ text, credit s tx = .ok s₁ ∧ e = .vm text
      ∧ executeCall (CallInput.fromTx tx) s₁ meter.remaining = (.error (.vm text), s'))
    ∨ (∃ s₁ call units, credit s tx = .ok s₁ ∧ e = .overflow
      ∧ executeCall (CallInput.fromTx tx) s₁ meter.remaining = (.ok call, s')
      ∧ units.toNat ≤ meter.remaining.toNat ∧ refund s' tx units = .error .overflow) := by
  unfold settle at h
  split at h
  · next e₁ hc =>
    cases h
    obtain ⟨rfl, -⟩ := credit_eq_error hc
    exact .inl ⟨rfl, rfl, hc⟩
  next s₁ hc =>
  right
  split at h
  · next e₁ s₂ he =>
    cases h
    obtain ⟨text, rfl⟩ := executeCall_eq_error he
    exact .inl ⟨s₁, text, hc, rfl, he⟩
  next call s₂ he =>
  obtain ⟨meter', hcharge, -, hleft⟩ := GasMeter.charge_isOk (executeCall_gasUsed_le he)
  rw [hcharge] at h
  simp only at h
  split at h
  · next e₁ hr =>
    cases h
    obtain ⟨rfl, -⟩ := refund_eq_error hr
    refine .inr ⟨s₁, call, meter'.refundGas, hc, rfl, he, ?_, hr⟩
    show meter'.remaining.toNat ≤ _
    omega
  · cases h

theorem executeTransaction_error_ctx {cfg : GasConfig} {s s' : StateDB}
    {ctx ctx' : ExecutionContext} {tx : Transaction} {e : ExecutionError}
    (h : executeTransaction cfg s ctx tx = (.error e, s', ctx')) : ctx' = ctx := by
  cases hc : precheck cfg s ctx tx with
  | error e₁ =>
    rw [executeTransaction_of_precheck_error hc] at h
    cases h
    rfl
  | ok checked =>
    rw [executeTransaction, hc] at h
    exact settle_error_ctx h

/-! ### A supply that fits -/

theorem totalBalance_executeCall (input : CallInput) (s : StateDB) (gasLimit : UInt64) :
    (executeCall input s gasLimit).2.totalBalance = s.totalBalance :=
  StateDB.totalBalance_congr fun a => (executeCall_ledger input s gasLimit a).2

section Supply

variable {cfg : GasConfig} {s s₁ s₂ : StateDB} {ctx : ExecutionContext} {tx : Transaction}
  {checked : Checked} {call : CallResult} {units : UInt64}

omit [Wasmi] in
theorem credit_le_supply (h : precheck cfg s ctx tx = .ok checked) :
    (s.setAccount tx.sender checked.sender).balance tx.target + tx.value.toNat
      ≤ s.totalBalance := by
  have hdebit := totalBalance_debit h
  have hle := (s.setAccount tx.sender checked.sender).balance_le_totalBalance tx.target
  omega

theorem refund_le_supply (h : precheck cfg s ctx tx = .ok checked)
    (hc : credit (s.setAccount tx.sender checked.sender) tx = .ok s₁)
    (he : executeCall (CallInput.fromTx tx) s₁ checked.meter.remaining = (.ok call, s₂))
    (hu : units.toNat ≤ checked.meter.remaining.toNat) :
    s₂.totalBalance + units.toNat * tx.gasPrice.toNat ≤ s.totalBalance := by
  have hdebit := totalBalance_debit h
  have hcredit := StateDB.totalBalance_add (credit_eq_ok hc).2
  have hcall := totalBalance_executeCall (CallInput.fromTx tx) s₁ checked.meter.remaining
  rw [he] at hcall
  change s₂.totalBalance = _ at hcall
  have hcost := (precheck_eq_ok h).refund_le hu
  omega

omit [Wasmi] in
/-- After the first write the credit and the refund go through, if the supply fits. -/
theorem late_credit (hsupply : s.totalBalance < 2 ^ 256)
    (h : precheck cfg s ctx tx = .ok checked) :
    ∃ s₁, credit (s.setAccount tx.sender checked.sender) tx = .ok s₁ := by
  cases hc : credit (s.setAccount tx.sender checked.sender) tx with
  | ok s₁ => exact ⟨s₁, rfl⟩
  | error e =>
    have hover := (credit_eq_error hc).2
    have hle := credit_le_supply h
    omega

theorem late_refund (hsupply : s.totalBalance < 2 ^ 256)
    (h : precheck cfg s ctx tx = .ok checked)
    (hc : credit (s.setAccount tx.sender checked.sender) tx = .ok s₁)
    (he : executeCall (CallInput.fromTx tx) s₁ checked.meter.remaining = (.ok call, s₂))
    (hu : units.toNat ≤ checked.meter.remaining.toNat) : ∃ s₃, refund s₂ tx units = .ok s₃ := by
  cases hr : refund s₂ tx units with
  | ok s₃ => exact ⟨s₃, rfl⟩
  | error e =>
    have hover := (refund_eq_error hr).2
    have hle := refund_le_supply h hc he hu
    have hbal := s₂.balance_le_totalBalance tx.sender
    omega

end Supply

/-- The failures after the first write, if the supply fits: only the contract. -/
theorem executeTransaction_late {cfg : GasConfig} {s s' : StateDB} {ctx ctx' : ExecutionContext}
    {tx : Transaction} {checked : Checked} {e : ExecutionError}
    (hsupply : s.totalBalance < 2 ^ 256) (hc : precheck cfg s ctx tx = .ok checked)
    (h : executeTransaction cfg s ctx tx = (.error e, s', ctx')) :
    ∃ s₁ text, credit (s.setAccount tx.sender checked.sender) tx = .ok s₁ ∧ e = .vm text
      ∧ executeCall (CallInput.fromTx tx) s₁ checked.meter.remaining
        = (.error (.vm text), s') := by
  rw [executeTransaction, hc] at h
  rcases settle_eq_error h with ⟨-, -, hcr⟩ | hcall | ⟨s₁, call, units, hcr, -, he, hu, hr⟩
  · obtain ⟨s₁, hok⟩ := late_credit hsupply hc
    rw [hok] at hcr
    cases hcr
  · exact hcall
  · obtain ⟨s₃, hok⟩ := late_refund hsupply hc hcr he hu
    rw [hok] at hr
    cases hr

/-- A transaction that fails after the first checks leaves the debited sender, or what the call
left. -/
theorem state_of_error {cfg : GasConfig} {s s' : StateDB} {ctx ctx' : ExecutionContext}
    {tx : Transaction} {checked : Checked} {e : ExecutionError}
    (hc : precheck cfg s ctx tx = .ok checked)
    (h : executeTransaction cfg s ctx tx = (.error e, s', ctx')) :
    s' = s.setAccount tx.sender checked.sender
      ∨ ∃ s₁, credit (s.setAccount tx.sender checked.sender) tx = .ok s₁
        ∧ s' = (executeCall (CallInput.fromTx tx) s₁ checked.meter.remaining).2 := by
  rw [executeTransaction, hc] at h
  rcases settle_eq_error h with ⟨-, hs, -⟩ | ⟨s₁, text, hcr, -, he⟩
    | ⟨s₁, call, units, hcr, -, he, -, -⟩
  · exact .inl hs
  · exact .inr ⟨s₁, hcr, by rw [he]⟩
  · exact .inr ⟨s₁, hcr, by rw [he]⟩

/-- **No transaction raises the total**, whether it succeeds or fails. -/
theorem totalBalance_executeTransaction_le (cfg : GasConfig) (s : StateDB)
    (ctx : ExecutionContext) (tx : Transaction) :
    (executeTransaction cfg s ctx tx).2.1.totalBalance ≤ s.totalBalance := by
  cases hc : precheck cfg s ctx tx with
  | error e => rw [executeTransaction_of_precheck_error hc]
  | ok checked =>
    have hdebit := totalBalance_debit hc
    rcases hx : executeTransaction cfg s ctx tx with ⟨_ | out, s', ctx'⟩
    · rcases state_of_error hc hx with rfl | ⟨s₁, hcr, rfl⟩
      · show (s.setAccount tx.sender checked.sender).totalBalance ≤ _
        omega
      · -- what was credited had been debited
        show (executeCall _ s₁ _).2.totalBalance ≤ _
        rw [totalBalance_executeCall, StateDB.totalBalance_add (credit_eq_ok hcr).2]
        omega
    · have htotal := (executeTransaction_eq_ok hx).total
      simp only
      omega

/-- **After the first write nothing overflows, if the supply fits.**  The credit and the refund of
whatever gas is left go through; an overflow that is reported comes from the price of the gas, the
sum of value and price, or the nonce, and nothing has been written; and the supply fits again
afterwards, whatever the result. -/
theorem no_late_overflow (cfg : GasConfig) (s : StateDB) (ctx : ExecutionContext)
    (tx : Transaction) (hsupply : s.totalBalance < 2 ^ 256) :
    (∀ checked, precheck cfg s ctx tx = .ok checked →
      ∃ s₁, credit (s.setAccount tx.sender checked.sender) tx = .ok s₁
        ∧ ∀ call s₂ units,
          executeCall (CallInput.fromTx tx) s₁ checked.meter.remaining = (.ok call, s₂) →
          units.toNat ≤ checked.meter.remaining.toNat → ∃ s₃, refund s₂ tx units = .ok s₃)
    ∧ (∀ s' ctx', executeTransaction cfg s ctx tx = (.error .overflow, s', ctx') →
      s' = s ∧ ctx' = ctx ∧ (2 ^ 256 ≤ tx.gas.toNat * tx.gasPrice.toNat
        ∨ 2 ^ 256 ≤ tx.value.toNat + tx.gas.toNat * tx.gasPrice.toNat
        ∨ s.nonce tx.sender = UInt64.maxValue))
    ∧ (executeTransaction cfg s ctx tx).2.1.totalBalance < 2 ^ 256 := by
  refine ⟨fun checked hc => ?_, fun s' ctx' h => ?_, ?_⟩
  · obtain ⟨s₁, hcr⟩ := late_credit hsupply hc
    exact ⟨s₁, hcr, fun call s₂ units he hu => late_refund hsupply hc hcr he hu⟩
  · cases hc : precheck cfg s ctx tx with
    | error e =>
      rw [executeTransaction_of_precheck_error hc] at h
      cases h
      exact ⟨rfl, rfl, precheck_eq_overflow hc⟩
    | ok checked =>
      obtain ⟨s₁, text, -, he, -⟩ := executeTransaction_late hsupply hc h
      cases he
  · exact lt_of_le_of_lt (totalBalance_executeTransaction_le cfg s ctx tx) hsupply

/-! ### Atomic failures -/

/-- **A failed transaction leaves no trace exactly when a first check refused it.**  One that
passes the first checks and fails later has used up its nonce.  The context is left alone by every
failure. -/
theorem executeTransaction_error_iff {cfg : GasConfig} {s s' : StateDB}
    {ctx ctx' : ExecutionContext} {tx : Transaction} {e : ExecutionError}
    (h : executeTransaction cfg s ctx tx = (.error e, s', ctx')) :
    (s' = s ↔ ¬ Payable cfg s ctx tx) ∧ ctx' = ctx := by
  refine ⟨?_, executeTransaction_error_ctx h⟩
  rw [← precheck_isOk_iff]
  cases hc : precheck cfg s ctx tx with
  | error e₁ =>
    rw [executeTransaction_of_precheck_error hc] at h
    cases h
    refine ⟨fun _ => ?_, fun _ => rfl⟩
    rintro ⟨checked, hok⟩
    cases hok
  | ok checked =>
    have hn := nonce_executeTransaction hc tx.sender
    rw [h, if_pos rfl] at hn
    change (s'.nonce tx.sender).toNat = _ at hn
    refine ⟨fun heq => ?_, fun hno => absurd ⟨checked, rfl⟩ hno⟩
    rw [heq] at hn
    omega

end

namespace Devnet

/-- A contract that writes five to slot zero and traps. -/
def trapping : StateDB := state.setCode sink (Vec.ofList [0, 5, 0])

/-- A call of it with gas for five writes. -/
def callSink : Transaction :=
  signedTx userKey (some sink) 0 U256.one 21005 U256.one Vec.empty

/-- What a call of a script leaves. -/
def callScript (s : StateDB) (tx : Transaction) :
    Except ExecutionError ExecutionOutcome × StateDB × ExecutionContext :=
  @executeTransaction _ scripts GasConfig.default s (.new 1 1) tx

/-- **A call that traps leaves its writes behind**: the slot, the value, the price of all gas and
the nonce. -/
theorem trapped_call :
    (callScript trapping callSink).1 = .error (.vm "trap: unreachable")
    ∧ trapping.getStorage sink H256.zero = U256.zero
    ∧ (callScript trapping callSink).2.1.getStorage sink H256.zero = U256.ofU64 5
    ∧ trapping.nonce user = 0 ∧ (callScript trapping callSink).2.1.nonce user = 1
    ∧ trapping.balance sink = 0 ∧ (callScript trapping callSink).2.1.balance sink = 1
    ∧ (callScript trapping callSink).2.1.balance user + 21006 = trapping.balance user := by
  decide +kernel

/-- A transfer with a nonce that is not next is refused and leaves no trace; the call that traps
passed the first checks and leaves one. -/
theorem executeTransaction_error_iff_calls :
    (∃ s', executeTransaction GasConfig.default state (.new 1 1) (transfer 1)
      = (.error (.nonceMismatch 0 1), s', .new 1 1)
      ∧ (s' = state ↔ ¬ Payable GasConfig.default state (.new 1 1) (transfer 1)) ∧ s' = state)
    ∧ ∃ s', callScript trapping callSink = (.error (.vm "trap: unreachable"), s', .new 1 1)
      ∧ s' ≠ trapping := by
  have heval : (executeTransaction GasConfig.default state (.new 1 1) (transfer 1)).1
        = .error (.nonceMismatch 0 1)
      ∧ (callScript trapping callSink).1 = .error (.vm "trap: unreachable")
      ∧ state.nonce (transfer 1).sender ≠ (transfer 1).nonce
      ∧ (trapping.nonce callSink.sender = callSink.nonce
        ∧ (computeIntrinsicGas callSink GasConfig.default).toNat ≤ callSink.gas.toNat
        ∧ callSink.value.toNat + callSink.gas.toNat * callSink.gasPrice.toNat
          ≤ trapping.balance callSink.sender
        ∧ (ExecutionContext.new 1 1).gasUsed.saturatingAdd callSink.gas
          ≤ GasConfig.default.maxGasPerBlock
        ∧ callSink.nonce.toNat + 1 < 2 ^ 64) := by decide +kernel
  obtain ⟨hrefused, htrapped, hnonce, hn, hg, hb, hr, hx⟩ := heval
  constructor
  · rcases he : executeTransaction GasConfig.default state (.new 1 1) (transfer 1)
      with ⟨r, s', ctx'⟩
    rw [he] at hrefused
    cases hrefused
    obtain ⟨hiff, rfl⟩ := executeTransaction_error_iff he
    exact ⟨s', rfl, hiff, hiff.mpr fun hpay => hnonce hpay.nonce⟩
  · rcases he : callScript trapping callSink with ⟨r, s', ctx'⟩
    rw [he] at htrapped
    cases htrapped
    obtain ⟨hiff, rfl⟩ := @executeTransaction_error_iff _ scripts _ _ _ _ _ _ _ he
    exact ⟨s', rfl, fun heq => hiff.mp heq ⟨hn, hg, hb, hr, hx⟩⟩

/-- On the small network the supply fits, so a transfer cannot overflow late. -/
theorem no_late_overflow_transfer : state.totalBalance < 2 ^ 256
    ∧ (executeTransaction GasConfig.default state (.new 1 1) (transfer 0)).2.1.totalBalance
      < 2 ^ 256 := by
  have hsupply : state.totalBalance < 2 ^ 256 := by decide +kernel
  exact ⟨hsupply,
    (no_late_overflow GasConfig.default state (.new 1 1) (transfer 0) hsupply).2.2⟩

end Devnet

end Ivory
