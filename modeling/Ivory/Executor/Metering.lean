import Ivory.Executor.Failure

/-!
# Paying for a call

The gas that is left after the intrinsic cost becomes the fuel of the interpreter,
and what the interpreter leaves of it is refunded.  Zero is special on this way:
`WasmVm::execute` reads a limit of zero as no limit and then reports nothing as
left.  A transaction whose gas is just the intrinsic cost thus runs its contract on
ten million units of fuel and pays for none of them (`Devnet.free_call`).

* `Invocation`, `invocation`: the run of the interpreter that a transaction makes.
* `CallPaid`: a call gets no more fuel than was paid for and pays for what it consumes.
* `call_paid_iff`: **this holds exactly with gas beyond the intrinsic cost**, or if the run is
  never made.
-/

namespace Ivory

/-- A run of the interpreter. -/
structure Invocation where
  code : List UInt8
  state : StateDB
  address : Address
  fuel : UInt64
  input : List UInt8

section

variable [Keccak] [Wasmi]

/-- What the run gives, and the state it leaves. -/
def Invocation.run (i : Invocation) : Except VmError WasmVm.Run × StateDB :=
  WasmVm.run i.code i.state i.address i.fuel i.input

/-- The run of the interpreter that `execute_transaction` makes, if it gets to one: on the state
after the debit and the credit. -/
def invocation (cfg : GasConfig) (s : StateDB) (ctx : ExecutionContext) (tx : Transaction) :
    Option Invocation :=
  match precheck cfg s ctx tx with
  | .error _ => none
  | .ok checked =>
    match credit (s.setAccount tx.sender checked.sender) tx with
    | .error _ => none
    | .ok s₁ =>
      match tx.recipient with
      | none => none
      | some callee =>
        if (s₁.getCode callee).isEmpty then none
        else some ⟨s₁.getCode callee, s₁, callee, WasmVm.fuelFor checked.meter.remaining,
          tx.data.toList⟩

/-- The interpreter consumes at most the fuel that is set on its store. -/
def Wasmi.Metered : Prop :=
  ∀ (code : List UInt8) (s : StateDB) (address : Address) (fuel : UInt64) (input : List UInt8)
    (r : WasmVm.Run), (WasmVm.run code s address fuel input).1 = .ok r →
      r.fuelLeft.toNat ≤ fuel.toNat

omit [Wasmi] in
theorem invocation_of_credit {cfg : GasConfig} {s s₁ : StateDB} {ctx : ExecutionContext}
    {tx : Transaction} {callee : Address} {checked : Checked} (hcalls : tx.CallsCode s callee)
    (hc : precheck cfg s ctx tx = .ok checked)
    (hcr : credit (s.setAccount tx.sender checked.sender) tx = .ok s₁) :
    tx.CallsCode s₁ callee ∧ invocation cfg s ctx tx = some ⟨s₁.getCode callee, s₁, callee,
      WasmVm.fuelFor checked.meter.remaining, tx.data.toList⟩ := by
  have hcode : s₁.getCode callee = s.getCode callee := by
    rw [StateDB.getCode, code_of_credit hcalls.1 hcr]
    rfl
  have hne : s₁.getCode callee ≠ [] := by
    rw [hcode]
    exact hcalls.2
  refine ⟨⟨hcalls.1, hne⟩, ?_⟩
  rw [invocation, hc]
  simp only [hcr, hcalls.1]
  rw [if_neg]
  rw [List.isEmpty_iff]
  exact hne

omit [Keccak] [Wasmi] in
theorem fuel_of_ne_zero {gasLimit : UInt64} (h : gasLimit ≠ 0) :
    WasmVm.fuelFor gasLimit = gasLimit ∧ ∀ fuel, remainingFuel fuel gasLimit = fuel :=
  ⟨if_neg h, fun _ => if_neg h⟩

/-- A call is paid for: the run that a transaction makes gets at most the gas beyond the intrinsic
cost as fuel; the transaction fails if the run does; and if it succeeds, its receipt says the
intrinsic cost and the fuel that the run consumed. -/
structure CallPaid (cfg : GasConfig) (s : StateDB) (ctx : ExecutionContext) (tx : Transaction) :
    Prop where
  fuel : ∀ inv, invocation cfg s ctx tx = some inv →
    inv.fuel.toNat ≤ tx.gas.toNat - (computeIntrinsicGas tx cfg).toNat
  failed : ∀ inv, invocation cfg s ctx tx = some inv → ∀ e t, inv.run = (.error e, t) →
    executeTransaction cfg s ctx tx = (.error (.vm e.message), t, ctx)
  receipt : ∀ out s' ctx', executeTransaction cfg s ctx tx = (.ok out, s', ctx') →
    ∃ inv r, invocation cfg s ctx tx = some inv ∧ inv.run.1 = .ok r
      ∧ r.fuelLeft.toNat ≤ inv.fuel.toNat
      ∧ out.receipt.gasUsed.toNat = (computeIntrinsicGas tx cfg).toNat
        + (inv.fuel.toNat - r.fuelLeft.toNat)

/-- The recipient can be credited: it is the sender, which was debited before, or its balance has
room for the value. -/
def Transaction.Creditable (s : StateDB) (tx : Transaction) (callee : Address) : Prop :=
  callee = tx.sender ∨ s.balance callee + tx.value.toNat < 2 ^ 256

section Calls

variable {cfg : GasConfig} {s s₁ : StateDB} {ctx : ExecutionContext} {tx : Transaction}
  {callee : Address} {checked : Checked}

omit [Wasmi] in
/-- Past the first checks, the credit goes through exactly if the recipient can be credited. -/
theorem credit_isOk_iff (hto : tx.recipient = some callee)
    (hc : precheck cfg s ctx tx = .ok checked) :
    (∃ s₁, credit (s.setAccount tx.sender checked.sender) tx = .ok s₁)
      ↔ tx.Creditable s callee := by
  have hdebit := (precheck_eq_ok hc).debit
  have hbal : s.balance tx.sender < 2 ^ 256 := U256.toNat_lt _
  have hset := s.balance_setAccount tx.sender callee checked.sender
  have htarget : tx.target = callee := Transaction.target_of_some hto
  constructor
  · rintro ⟨s₁, hcr⟩
    by_cases hself : callee = tx.sender
    · exact .inl hself
    · -- the credited balance is a balance
      have hcredit := (credit_eq_ok hcr).2 callee
      have hlt : s₁.balance callee < 2 ^ 256 := U256.toNat_lt _
      rw [htarget, if_pos rfl] at hcredit
      rw [if_neg hself] at hset
      exact .inr (by omega)
  · intro hroom
    cases hcr : credit (s.setAccount tx.sender checked.sender) tx with
    | ok s₁ => exact ⟨s₁, rfl⟩
    | error e =>
      have hover := (credit_eq_error hcr).2
      rw [htarget, hset] at hover
      rcases hroom with hself | hroom
      · rw [if_pos hself] at hover
        omega
      · split_ifs at hover with hself
        · omega
        · omega

theorem CallPaid.of_none (hcalls : tx.CallsCode s callee)
    (hnone : invocation cfg s ctx tx = none) : CallPaid cfg s ctx tx := by
  refine ⟨fun inv hinv => ?_, fun inv hinv => ?_, fun out s' ctx' h => ?_⟩
  · rw [hnone] at hinv
    cases hinv
  · rw [hnone] at hinv
    cases hinv
  · -- a success has got past the credit
    cases hc : precheck cfg s ctx tx with
    | error e =>
      rw [executeTransaction_of_precheck_error hc] at h
      cases h
    | ok checked =>
      rw [executeTransaction, hc] at h
      obtain ⟨s₁, s₂, hs⟩ := settle_steps h
      rw [(invocation_of_credit hcalls hc hs.credit).2] at hnone
      cases hnone

/-- What a call that succeeds has used: the intrinsic gas, and the fuel that the run took off what
was left of the gas. -/
theorem gasUsed_of_run (hw : Wasmi.Metered) (hcalls : tx.CallsCode s₁ callee)
    (hne : checked.meter.remaining ≠ 0) (hc : precheck cfg s ctx tx = .ok checked)
    (hcr : credit (s.setAccount tx.sender checked.sender) tx = .ok s₁) {out : ExecutionOutcome}
    {s' : StateDB} {ctx' : ExecutionContext}
    (h : executeTransaction cfg s ctx tx = (.ok out, s', ctx')) :
    ∃ r t, WasmVm.run (s₁.getCode callee) s₁ callee checked.meter.remaining tx.data.toList
        = (.ok r, t)
      ∧ r.fuelLeft.toNat ≤ checked.meter.remaining.toNat
      ∧ out.receipt.gasUsed.toNat = (computeIntrinsicGas tx cfg).toNat
        + (checked.meter.remaining.toNat - r.fuelLeft.toNat) := by
  have hp := precheck_eq_ok hc
  have hremaining := hp.remaining
  obtain ⟨hfuel, hleft⟩ := fuel_of_ne_zero hne
  rw [executeTransaction, hc] at h
  obtain ⟨t₁, s₂, hs⟩ := settle_steps h
  have hsame : t₁ = s₁ := Except.ok.inj (hs.credit.symm.trans hcr)
  subst hsame
  have hcall := hs.call
  rw [executeCall_of_callsCode hcalls] at hcall
  split at hcall
  · cases hcall
  next r t hrun =>
  rw [Prod.mk.injEq, Except.ok.injEq] at hcall
  have hbound : r.fuelLeft.toNat ≤ checked.meter.remaining.toNat := by
    have := hw _ _ _ _ _ r (congrArg Prod.fst hrun)
    rwa [hfuel] at this
  rw [hfuel] at hrun
  refine ⟨r, t, hrun, hbound, ?_⟩
  have hused : out.call.gasUsed.toNat = checked.meter.remaining.toNat - r.fuelLeft.toNat := by
    rw [← hcall.1]
    show (checked.meter.remaining.saturatingSub
      (remainingFuel r.fuelLeft checked.meter.remaining)).toNat = _
    rw [hleft, UInt64.toNat_saturatingSub]
  have hrefund := hs.left
  rw [hs.receipt, hs.used, UInt64.toNat_saturatingSub, hp.limit]
  omega

theorem CallPaid.of_lt (hw : Wasmi.Metered) (hcalls : tx.CallsCode s callee)
    (hgas : computeIntrinsicGas tx cfg < tx.gas) (hc : precheck cfg s ctx tx = .ok checked)
    (hcr : credit (s.setAccount tx.sender checked.sender) tx = .ok s₁) :
    CallPaid cfg s ctx tx := by
  rw [UInt64.lt_iff_toNat_lt] at hgas
  have hremaining := (precheck_eq_ok hc).remaining
  have hne : checked.meter.remaining ≠ 0 := by
    intro h0
    rw [h0, UInt64.toNat_zero] at hremaining
    omega
  obtain ⟨hfuel, -⟩ := fuel_of_ne_zero hne
  obtain ⟨hcalls₁, hinv⟩ := invocation_of_credit hcalls hc hcr
  refine ⟨fun inv hsome => ?_, fun inv hsome e t hrun => ?_, fun out s' ctx' h => ?_⟩
  · rw [hinv, Option.some.injEq] at hsome
    subst hsome
    show (WasmVm.fuelFor checked.meter.remaining).toNat ≤ _
    rw [hfuel]
    omega
  · rw [hinv, Option.some.injEq] at hsome
    subst hsome
    change WasmVm.run _ s₁ callee _ tx.data.toList = _ at hrun
    rw [executeTransaction, hc]
    simp only [settle, hcr, executeCall_of_callsCode hcalls₁, hrun]
  · obtain ⟨r, t, hrun, hbound, hused⟩ := gasUsed_of_run hw hcalls₁ hne hc hcr h
    refine ⟨_, r, hinv, ?_, ?_, ?_⟩
    · show (WasmVm.run _ s₁ callee (WasmVm.fuelFor checked.meter.remaining) tx.data.toList).1 = _
      rw [hfuel, hrun]
    · show _ ≤ (WasmVm.fuelFor checked.meter.remaining).toNat
      rwa [hfuel]
    · show _ = _ + ((WasmVm.fuelFor checked.meter.remaining).toNat - _)
      rwa [hfuel]

theorem CallPaid.lt_of_credit (h : CallPaid cfg s ctx tx) (hcalls : tx.CallsCode s callee)
    (hc : precheck cfg s ctx tx = .ok checked)
    (hcr : credit (s.setAccount tx.sender checked.sender) tx = .ok s₁) :
    computeIntrinsicGas tx cfg < tx.gas := by
  have hremaining := (precheck_eq_ok hc).remaining
  rw [UInt64.lt_iff_toNat_lt]
  by_contra hle
  have hzero : checked.meter.remaining = 0 := by
    rw [← UInt64.toNat_inj, UInt64.toNat_zero]
    omega
  have hfuel := h.fuel _ (invocation_of_credit hcalls hc hcr).2
  change (WasmVm.fuelFor checked.meter.remaining).toNat ≤ _ at hfuel
  rw [hzero] at hfuel
  have hdefault : (WasmVm.fuelFor 0).toNat = 10000000 := by decide
  omega

/-- **When a call is paid for**: exactly if the gas of the transaction exceeds its intrinsic cost,
or the run is never made, because a first check or the credit of the value fails. -/
theorem call_paid_iff (hw : Wasmi.Metered) (hcalls : tx.CallsCode s callee) :
    CallPaid cfg s ctx tx ↔ computeIntrinsicGas tx cfg < tx.gas
      ∨ ¬ Payable cfg s ctx tx ∨ ¬ tx.Creditable s callee := by
  rw [← precheck_isOk_iff]
  cases hc : precheck cfg s ctx tx with
  | error e =>
    refine ⟨fun _ => .inr (.inl nofun), fun _ => .of_none hcalls ?_⟩
    rw [invocation, hc]
  | ok checked =>
    have hiff := credit_isOk_iff hcalls.1 hc
    cases hcr : credit (s.setAccount tx.sender checked.sender) tx with
    | error e =>
      rw [hcr] at hiff
      refine ⟨fun _ => .inr (.inr fun hok => ?_), fun _ => .of_none hcalls ?_⟩
      · obtain ⟨s₁, he⟩ := hiff.mpr hok
        cases he
      · rw [invocation, hc]
        simp only [hcr]
    | ok s₁ =>
      refine ⟨fun h => .inl (h.lt_of_credit hcalls hc hcr), ?_⟩
      rintro (hgas | hrefused | hfull)
      · exact .of_lt hw hcalls hgas hc hcr
      · exact absurd ⟨checked, rfl⟩ hrefused
      · exact absurd (hiff.mp ⟨s₁, hcr⟩) hfull

end Calls

end

namespace Devnet

/-- A contract that writes three times. -/
def counting : StateDB := state.setCode sink (Vec.ofList [0, 1, 2, 3])

/-- Scripts consume at most the fuel they are given. -/
theorem metered_scripts : @Wasmi.Metered _ scripts := by
  intro code s address fuel input r h
  rw [run_scripts] at h
  split at h
  · split at h
    · cases h
    next value left host hrun =>
    cases h
    have hlen := (script_run code.tail fuel _ (congrArg Prod.fst hrun)).1
    show left.toNat ≤ _
    omega
  · cases h

/-- The units of fuel that a call of a script is given, and those it consumes. -/
def scriptFuel (s : StateDB) (tx : Transaction) : Option (UInt64 × UInt64) :=
  (invocation GasConfig.default s (.new 1 1) tx).bind fun inv =>
    (@Invocation.run _ scripts inv).1.toOption.map fun r => (inv.fuel, inv.fuel - r.fuelLeft)

/-- **A call that nobody pays for.**  The gas of the transfer is just its intrinsic cost; it runs
the contract on ten million units of fuel and pays for none. -/
theorem free_call :
    computeIntrinsicGas (transfer 0) GasConfig.default = (transfer 0).gas
    ∧ scriptFuel counting (transfer 0) = some (10000000, 3)
    ∧ (callScript counting (transfer 0)).1.toOption.map (fun out => out.receipt.gasUsed)
      = some (transfer 0).gas := by decide +kernel

/-- With gas for five writes, the three of the contract are paid for; the transfer with just the
intrinsic cost is not. -/
theorem call_paid_iff_counting :
    (∃ inv r, invocation GasConfig.default counting (.new 1 1) callSink = some inv
      ∧ (@Invocation.run _ scripts inv).1 = .ok r
      ∧ (callScript counting callSink).1.toOption.map (fun out => out.receipt.gasUsed.toNat)
        = some (21000 + (inv.fuel.toNat - r.fuelLeft.toNat)))
    ∧ ¬ @CallPaid _ scripts GasConfig.default counting (.new 1 1) (transfer 0) := by
  have heval : (callScript counting callSink).1.toOption.isSome = true
      ∧ counting.getCode sink ≠ []
      ∧ computeIntrinsicGas callSink GasConfig.default < callSink.gas
      ∧ (computeIntrinsicGas callSink GasConfig.default).toNat = 21000
      ∧ ¬ computeIntrinsicGas (transfer 0) GasConfig.default < (transfer 0).gas
      ∧ (precheck GasConfig.default counting (.new 1 1) (transfer 0)).toOption.isSome = true
      ∧ counting.balance sink + (transfer 0).value.toNat < 2 ^ 256 := by decide +kernel
  obtain ⟨hok, hcode, hgas, hintrinsic, hjust, hpay, hroom⟩ := heval
  constructor
  · rcases hx : callScript counting callSink with ⟨_ | out, s', ctx'⟩
    · rw [hx] at hok
      cases hok
    · have hpaid := (@call_paid_iff _ scripts GasConfig.default counting (.new 1 1) callSink sink
        metered_scripts ⟨rfl, hcode⟩).mpr (.inl hgas)
      obtain ⟨inv, r, hinv, hrun, -, hused⟩ :=
        @CallPaid.receipt _ scripts _ _ _ _ hpaid out s' ctx' hx
      rw [hintrinsic] at hused
      exact ⟨inv, r, hinv, hrun, congrArg some hused⟩
  · intro hpaid
    rcases (@call_paid_iff _ scripts GasConfig.default counting (.new 1 1) (transfer 0) sink
      metered_scripts ⟨rfl, hcode⟩).mp hpaid with hlt | hrefused | hfull
    · exact hjust hlt
    · rw [← precheck_isOk_iff] at hrefused
      cases hc : precheck GasConfig.default counting (.new 1 1) (transfer 0) with
      | error e =>
        rw [hc] at hpay
        cases hpay
      | ok checked => exact hrefused ⟨checked, hc⟩
    · exact hfull (.inr hroom)

end Devnet

end Ivory
