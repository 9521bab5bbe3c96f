import Ivory.Executor.Metering

/-!
# Simulation

`Executor::simulate` serves `eth_call` and `eth_estimateGas`.  It repeats the steps
of `execute_transaction` with other guards: no nonce, no gas price, no write where
there is no value, and a gas limit of its own.  Its estimate is the gas it used.

A simulated and an executed transaction leave states that differ in what the sender
paid (`Charged`).  The relation is kept by every write that both make, and a contract
sees nothing of the difference.

* `Wasmi.Elastic`: what is assumed of the interpreter: a run that succeeds does so on
  any fuel that covers what it consumed.
* `SimulateRequest.predicts`: **the transaction that a request stands for, with the
  estimate as its gas, succeeds with the result of the simulation.**
-/

namespace Ivory

/-- RPC inputs; nonce and gas price are not among them. -/
structure SimulateRequest where
  sender : Address
  recipient : Option Address
  value : U256
  data : Bytes
  gas : UInt64

/-- Result of `simulate`. -/
structure SimulateOutcome where
  call : CallResult
  gasUsed : UInt64
  intrinsic : UInt64
deriving DecidableEq

namespace SimulateRequest

/-- The gas limit: zero means ten million. -/
def limit (req : SimulateRequest) : UInt64 := if req.gas = 0 then 10000000 else req.gas

/-- The input of the call. -/
def callInput (req : SimulateRequest) : CallInput :=
  { kind := if req.recipient.isNone then .create else .call
    sender := req.sender, recipient := req.recipient, value := req.value, data := req.data }

section

variable [Keccak]

/-- The sender pays the value, if there is any. -/
def debit (req : SimulateRequest) (state : StateDB) : Except ExecutionError StateDB :=
  let sender := state.account req.sender
  if req.value.isZero then .ok state
  else
    match sender.balance.checkedSub req.value with
    | none => .error .overflow
    | some balance => .ok (state.setAccount req.sender { sender with balance := balance })

/-- The recipient receives the value, if there is any, or the contract is created.  `nonce` is that
of the sender. -/
def credit (req : SimulateRequest) (nonce : UInt64) (state : StateDB) :
    Except ExecutionError StateDB :=
  match req.recipient with
  | some callee =>
    if req.value.isZero then .ok state
    else
      let recipient := state.account callee
      match recipient.balance.checkedAdd req.value with
      | none => .error .overflow
      | some balance => .ok (state.setAccount callee { recipient with balance := balance })
  | none =>
    let created := Address.create req.sender nonce
    let account := state.account created
    match if req.value.isZero then some account.balance
        else account.balance.checkedAdd req.value with
    | none => .error .overflow
    | some balance =>
      let account := { account with balance := balance, codeHash := keccak256 req.data.toList }
      .ok ((state.setAccount created account).setCode created req.data)

end

variable [Keccak] [Wasmi]

/-- `Executor::simulate`, and the state it leaves. -/
def simulate (cfg : GasConfig) (state : StateDB) (req : SimulateRequest) :
    Except ExecutionError SimulateOutcome × StateDB :=
  let intrinsic := computeIntrinsicGasLen req.data.toList.length cfg
  match GasMeter.new req.limit intrinsic with
  | .error e => (.error e, state)
  | .ok meter =>
    let sender := state.account req.sender
    if sender.balance < req.value then (.error .insufficientBalance, state)
    else
      match req.debit state with
      | .error e => (.error e, state)
      | .ok debited =>
        match req.credit sender.nonce debited with
        | .error e => (.error e, debited)
        | .ok state =>
          match executeCall req.callInput state meter.remaining with
          | (.error e, state) => (.error e, state)
          | (.ok call, state) =>
            match if call.gasUsed > 0 then meter.spend call.gasUsed else .ok meter with
            | .error e => (.error e, state)
            | .ok meter => (.ok ⟨call, meter.gasUsed, intrinsic⟩, state)

end SimulateRequest

/-! ### States that differ in what was paid -/

/-- `t'` is `t`, but `a` has sent `n` more transactions and paid `cost` more.  Missing accounts
count as empty ones. -/
structure Charged (a : Address) (n cost : ℕ) (t t' : StateDB) : Prop where
  storage : t'.storage = t.storage
  code : t'.code = t.code
  codeHash : ∀ b, (t'.account b).codeHash = (t.account b).codeHash
  nonce : ∀ b, (t'.nonce b).toNat = (t.nonce b).toNat + if b = a then n else 0
  balance : ∀ b, t'.balance b + (if b = a then cost else 0) = t.balance b

namespace Charged

variable {a : Address} {n cost : ℕ} {t t' : StateDB}

theorem trans_none {b : Address} {t'' : StateDB} (h : Charged a n cost t t')
    (h' : Charged b 0 0 t' t'') : Charged a n cost t t'' where
  storage := h'.storage.trans h.storage
  code := h'.code.trans h.code
  codeHash x := (h'.codeHash x).trans (h.codeHash x)
  nonce x := by
    rw [← h.nonce x, h'.nonce x, ite_self, Nat.add_zero]
  balance x := by
    rw [← h.balance x, ← h'.balance x, ite_self, Nat.add_zero]

theorem getStorage (h : Charged a n cost t t') (b : Address) (slot : H256) :
    t.getStorage b slot = t'.getStorage b slot := by
  rw [StateDB.getStorage, StateDB.getStorage, h.storage]

theorem getCode (h : Charged a n cost t t') (b : Address) : t'.getCode b = t.getCode b := by
  rw [StateDB.getCode, StateDB.getCode, h.code]

theorem setCode (h : Charged a n cost t t') (b : Address) (code : Bytes) :
    Charged a n cost (t.setCode b code) (t'.setCode b code) :=
  ⟨h.storage, by rw [StateDB.setCode, StateDB.setCode, h.code], h.codeHash, h.nonce, h.balance⟩

variable [Keccak]

theorem setAccount (h : Charged a n cost t t') (b : Address) {acc acc' : Account}
    (hcode : acc'.codeHash = acc.codeHash)
    (hnonce : acc'.nonce.toNat = acc.nonce.toNat + if b = a then n else 0)
    (hbalance : acc'.balance.toNat + (if b = a then cost else 0) = acc.balance.toNat) :
    Charged a n cost (t.setAccount b acc) (t'.setAccount b acc') where
  storage := h.storage
  code := h.code
  codeHash x := by
    rw [StateDB.account_setAccount, StateDB.account_setAccount]
    split_ifs with hx
    · exact hcode
    · exact h.codeHash x
  nonce x := by
    rw [StateDB.nonce_setAccount, StateDB.nonce_setAccount]
    by_cases hx : x = b
    · rw [if_pos hx, if_pos hx, hx]
      exact hnonce
    · rw [if_neg hx, if_neg hx]
      exact h.nonce x
  balance x := by
    rw [StateDB.balance_setAccount, StateDB.balance_setAccount]
    by_cases hx : x = b
    · rw [if_pos hx, if_pos hx, hx]
      exact hbalance
    · rw [if_neg hx, if_neg hx]
      exact h.balance x

theorem charge (t : StateDB) {acc : Account} (hcode : acc.codeHash = (t.account a).codeHash)
    (hnonce : acc.nonce.toNat = (t.nonce a).toNat + n)
    (hbalance : acc.balance.toNat + cost = t.balance a) :
    Charged a n cost t (t.setAccount a acc) where
  storage := rfl
  code := rfl
  codeHash b := by
    rw [StateDB.account_setAccount]
    split_ifs with hb
    · rw [hb]
      exact hcode
    · rfl
  nonce b := by
    rw [StateDB.nonce_setAccount]
    split_ifs with hb
    · rw [hb]
      exact hnonce
    · rfl
  balance b := by
    rw [StateDB.balance_setAccount]
    split_ifs with hb
    · rw [hb]
      exact hbalance
    · rfl

theorem setStorage (h : Charged a n cost t t') (b : Address) (slot : H256) (v : U256) :
    Charged a n cost (t.setStorage b slot v) (t'.setStorage b slot v) where
  storage := by
    unfold StateDB.setStorage
    simp only [StateDB.storage_refreshStorageRoot, h.storage]
  code := by rw [StateDB.code_setStorage, StateDB.code_setStorage, h.code]
  codeHash x := by
    rw [StateDB.codeHash_setStorage, StateDB.codeHash_setStorage]
    exact h.codeHash x
  nonce x := by
    rw [(t.ledger_setStorage b x slot v).1, (t'.ledger_setStorage b x slot v).1]
    exact h.nonce x
  balance x := by
    rw [(t.ledger_setStorage b x slot v).2, (t'.ledger_setStorage b x slot v).2]
    exact h.balance x

end Charged

/-! ### The steps -/

/-- What is assumed of the interpreter: a run that succeeds consumes at most its fuel, and succeeds
in the same way, consuming as much, on any fuel that covers what it consumed. -/
def Wasmi.Elastic [Keccak] [Wasmi] : Prop :=
  ∀ (code : List UInt8) (s t : StateDB) (address : Address) (fuel : UInt64) (input : List UInt8)
    (r : WasmVm.Run), WasmVm.run code s address fuel input = (.ok r, t) →
      r.fuelLeft.toNat ≤ fuel.toNat
      ∧ ∀ fuel' : UInt64, fuel.toNat ≤ fuel'.toNat + r.fuelLeft.toNat →
        ∃ left' : UInt64, left'.toNat + fuel.toNat = fuel'.toNat + r.fuelLeft.toNat
          ∧ WasmVm.run code s address fuel' input = (.ok { r with fuelLeft := left' }, t)

/-- The transaction asks for what the request asks for. -/
structure SimulateRequest.Matches (req : SimulateRequest) (tx : Transaction) : Prop where
  sender : tx.sender = req.sender
  recipient : tx.recipient = req.recipient
  value : tx.value = req.value
  data : tx.data = req.data

theorem SimulateRequest.Matches.callInput {req : SimulateRequest} {tx : Transaction}
    (h : req.Matches tx) : req.callInput = CallInput.fromTx tx := by
  rw [SimulateRequest.callInput, ← h.sender, ← h.recipient, ← h.value, ← h.data]
  rfl

section

variable [Keccak]

theorem SimulateRequest.Matches.credit {req : SimulateRequest} {tx : Transaction} {a : Address}
    {n cost : ℕ} {t t' t₁ : StateDB} (hm : req.Matches tx) (h : Charged a n cost t t')
    (hc : req.credit tx.nonce t = .ok t₁) :
    ∃ t₁', Ivory.credit t' tx = .ok t₁' ∧ Charged a n cost t₁ t₁' := by
  -- what fits on the side that paid less fits on the other
  have hfits : ∀ x, t.balance x + tx.value.toNat < 2 ^ 256 →
      ∃ b : U256, (t'.account x).balance.checkedAdd tx.value = some b
        ∧ b.toNat = t'.balance x + tx.value.toNat := by
    intro x hx
    have hbal := h.balance x
    obtain ⟨b, hb⟩ := U256.exists_toNat_eq (n := t'.balance x + tx.value.toNat) (by omega)
    exact ⟨b, U256.checkedAdd_eq_some.mpr hb, hb⟩
  have hless : ∀ x, t.balance x < 2 ^ 256 := fun x => U256.toNat_lt _
  unfold SimulateRequest.credit at hc
  rw [← hm.recipient, ← hm.value, ← hm.data, ← hm.sender] at hc
  unfold Ivory.credit
  cases hto : tx.recipient with
  | some callee =>
    rw [hto] at hc
    simp only at hc ⊢
    split_ifs at hc with hz
    · -- no value: the request leaves the recipient alone, the transaction rewrites it
      cases hc
      have hzero := U256.isZero_iff.mp hz
      obtain ⟨b, hadd, hb⟩ := hfits callee (by rw [hzero]; exact hless callee)
      rw [hzero, Nat.add_zero] at hb
      rw [hadd]
      exact ⟨_, rfl, h.trans_none (Charged.charge t' rfl rfl hb)⟩
    · split at hc
      · cases hc
      next b₀ hadd₀ =>
      cases hc
      have hb₀ := U256.checkedAdd_eq_some.mp hadd₀
      obtain ⟨b, hadd, hb⟩ := hfits callee (by
        show (t.account callee).balance.toNat + _ < _
        rw [← hb₀]
        exact U256.toNat_lt _)
      rw [hadd]
      refine ⟨_, rfl, h.setAccount callee (h.codeHash callee) (h.nonce callee) ?_⟩
      show b.toNat + _ = b₀.toNat
      have hbal := h.balance callee
      rw [hb, hb₀]
      show _ = t.balance callee + _
      omega
  | none =>
    rw [hto] at hc
    simp only at hc ⊢
    have hcreate : ∃ b₀ : U256, b₀.toNat
        = t.balance (Address.create tx.sender tx.nonce) + tx.value.toNat
      ∧ t₁ = (t.setAccount (Address.create tx.sender tx.nonce)
          { t.account (Address.create tx.sender tx.nonce) with
            balance := b₀, codeHash := keccak256 tx.data.toList }).setCode
          (Address.create tx.sender tx.nonce) tx.data := by
      split at hc
      · cases hc
      next b₀ hadd₀ =>
      cases hc
      refine ⟨b₀, ?_, rfl⟩
      split_ifs at hadd₀ with hz
      · cases hadd₀
        rw [U256.isZero_iff.mp hz]
        rfl
      · exact U256.checkedAdd_eq_some.mp hadd₀
    obtain ⟨b₀, hb₀, rfl⟩ := hcreate
    obtain ⟨b, hadd, hb⟩ := hfits (Address.create tx.sender tx.nonce)
      (by rw [← hb₀]; exact U256.toNat_lt _)
    rw [hadd]
    refine ⟨_, rfl, Charged.setCode (h.setAccount _ ?_ ?_ ?_) _ _⟩
    · rfl
    · exact h.nonce _
    · show b.toNat + _ = b₀.toNat
      have hbal := h.balance (Address.create tx.sender tx.nonce)
      omega

theorem SimulateRequest.Matches.debit {req : SimulateRequest} {tx : Transaction}
    {cfg : GasConfig} {s t : StateDB} {ctx : ExecutionContext} {checked : Checked}
    (hm : req.Matches tx) (hd : req.debit s = .ok t)
    (hc : precheck cfg s ctx tx = .ok checked) :
    Charged tx.sender 1 (tx.gas.toNat * tx.gasPrice.toNat) t
      (s.setAccount tx.sender checked.sender) := by
  have hp := precheck_eq_ok hc
  have hcode := precheck_sender hc
  have hnonce : checked.sender.nonce.toNat = (s.nonce tx.sender).toNat + 1 := by
    rw [hp.next_nonce, hp.nonce_eq]
  have hdebit := hp.debit
  unfold SimulateRequest.debit at hd
  rw [← hm.sender, ← hm.value] at hd
  simp only at hd
  split_ifs at hd with hz
  · cases hd
    refine Charged.charge s hcode hnonce ?_
    rw [U256.isZero_iff.mp hz] at hdebit
    omega
  · split at hd
    · cases hd
    next b hsub =>
    cases hd
    have hb := U256.checkedSub_eq_some.mp hsub
    change b.toNat + tx.value.toNat = s.balance tx.sender at hb
    rw [← StateDB.setAccount_setAccount s tx.sender
      { s.account tx.sender with balance := b } checked.sender]
    refine Charged.charge _ ?_ ?_ ?_
    · rw [StateDB.account_setAccount, if_pos rfl]
      exact hcode
    · rw [StateDB.nonce_setAccount, if_pos rfl]
      exact hnonce
    · rw [StateDB.balance_setAccount, if_pos rfl]
      show _ = b.toNat
      omega

end

section

variable [Keccak] [Wasmi]

omit [Keccak] [Wasmi] in
/-- The gas that a call reports, given as its limit, is enough for the same call, and it reports as
much again. -/
theorem gasLimit_of_gasUsed {gasLimit used left : UInt64}
    (hused : used = gasLimit.saturatingSub (remainingFuel left gasLimit))
    (hle : left.toNat ≤ (WasmVm.fuelFor gasLimit).toNat) :
    (WasmVm.fuelFor gasLimit).toNat ≤ (WasmVm.fuelFor used).toNat + left.toNat
    ∧ ∀ left' : UInt64, left'.toNat + (WasmVm.fuelFor gasLimit).toNat
        = (WasmVm.fuelFor used).toNat + left.toNat →
      used.saturatingSub (remainingFuel left' used) = used := by
  by_cases h0 : used = 0
  · have hzero : (0 : UInt64).saturatingSub (remainingFuel left 0) = 0 := rfl
    refine ⟨?_, fun left' _ => by rw [h0]; rfl⟩
    by_cases hg : gasLimit = 0
    · rw [h0, hg]
      omega
    · obtain ⟨hfuel, hleft⟩ := fuel_of_ne_zero hg
      rw [hleft] at hused
      have hu := congrArg UInt64.toNat hused
      rw [h0, UInt64.toNat_zero, UInt64.toNat_saturatingSub] at hu
      rw [hfuel]
      omega
  · have hg : gasLimit ≠ 0 := by
      rintro rfl
      exact h0 (by rw [hused]; rfl)
    obtain ⟨hfuel, hleft⟩ := fuel_of_ne_zero hg
    obtain ⟨hfuel', hleft'⟩ := fuel_of_ne_zero h0
    rw [hleft] at hused
    have hu := congrArg UInt64.toNat hused
    rw [UInt64.toNat_saturatingSub] at hu
    rw [hfuel] at hle
    rw [hfuel, hfuel']
    refine ⟨by omega, fun left' heq => ?_⟩
    rw [hleft', ← UInt64.toNat_inj, UInt64.toNat_saturatingSub]
    omega

/-- A call that succeeded does so again on a charged state, with what it used as its limit. -/
theorem executeCall_charged (hw : Wasmi.Elastic) {tx : Transaction} {a : Address} {n cost : ℕ}
    {t t' t₁ : StateDB} {gasLimit : UInt64} {call : CallResult} (h : Charged a n cost t t')
    (he : executeCall (CallInput.fromTx tx) t gasLimit = (.ok call, t₁)) :
    ∃ t₁', executeCall (CallInput.fromTx tx) t' call.gasUsed = (.ok call, t₁')
      ∧ Charged a n cost t₁ t₁' := by
  by_cases hcalls : ∃ callee, tx.CallsCode t callee
  · obtain ⟨callee, hto, hcode⟩ := hcalls
    rw [executeCall_of_callsCode ⟨hto, hcode⟩] at he
    split at he
    · cases he
    next r t₂ hrun =>
    rw [Prod.mk.injEq, Except.ok.injEq] at he
    obtain ⟨rfl, rfl⟩ := he
    obtain ⟨hle, hmore⟩ := hw _ _ _ _ _ _ r hrun
    obtain ⟨hcover, hreport⟩ := gasLimit_of_gasUsed rfl hle
    obtain ⟨left', hleft', hrun'⟩ := hmore _ hcover
    obtain ⟨hres, hcharged⟩ := WasmVm.run_related (R := Charged a n cost)
      (fun s s' slot hR => hR.getStorage callee slot)
      (fun s s' slot v hR => hR.setStorage callee slot v) (t.getCode callee)
      (WasmVm.fuelFor (gasLimit.saturatingSub (remainingFuel r.fuelLeft gasLimit)))
      tx.data.toList h
    rw [hrun'] at hres hcharged
    have hcalls' : tx.CallsCode t' callee := ⟨hto, by rw [h.getCode]; exact hcode⟩
    refine ⟨_, ?_, hcharged⟩
    rw [executeCall_of_callsCode hcalls', h.getCode]
    rcases hrun₂ : WasmVm.run (t.getCode callee) t' callee
      (WasmVm.fuelFor (gasLimit.saturatingSub (remainingFuel r.fuelLeft gasLimit)))
      tx.data.toList with ⟨r₂, t₂'⟩
    rw [hrun₂] at hres
    simp only at hres
    subst hres
    simp only [hreport left' hleft']
  · rw [executeCall_of_not_callsCode (not_exists.mp hcalls)] at he
    cases he
    have hcalls' : ∀ callee, ¬ tx.CallsCode t' callee := by
      rintro callee ⟨hto, hcode⟩
      rw [h.getCode] at hcode
      exact hcalls ⟨callee, hto, hcode⟩
    exact ⟨t', executeCall_of_not_callsCode hcalls' _, h⟩

/-- The steps of a simulation that succeeds. -/
structure SimulateRequest.Steps (cfg : GasConfig) (s : StateDB) (req : SimulateRequest)
    (sim : SimulateOutcome) (t debited credited : StateDB) (gasLimit : UInt64) : Prop where
  debit : req.debit s = .ok debited
  credit : req.credit (s.nonce req.sender) debited = .ok credited
  call : executeCall req.callInput credited gasLimit = (.ok sim.call, t)
  gasUsed : sim.gasUsed.toNat
    = (computeIntrinsicGasLen req.data.toList.length cfg).toNat + sim.call.gasUsed.toNat

theorem SimulateRequest.steps_of_ok {cfg : GasConfig} {s t : StateDB} {req : SimulateRequest}
    {sim : SimulateOutcome} (h : simulate cfg s req = (.ok sim, t)) :
    ∃ debited credited gasLimit, Steps cfg s req sim t debited credited gasLimit := by
  unfold simulate at h
  simp only at h
  split at h
  · cases h
  next meter hmeter =>
  split_ifs at h
  · cases h
  split at h
  · cases h
  next t₀ hd =>
  split at h
  · cases h
  next t₁ hc =>
  split at h
  · cases h
  next call t₂ he =>
  obtain ⟨meter', hcharge, hlimit, hleft⟩ := GasMeter.charge_isOk (executeCall_gasUsed_le he)
  rw [hcharge] at h
  cases h
  refine ⟨t₀, t₁, meter.remaining, hd, hc, he, ?_⟩
  unfold GasMeter.new at hmeter
  split at hmeter
  · cases hmeter
  next remaining hsub =>
  cases hmeter
  rw [UInt64.checkedSub_eq_some] at hsub
  show (meter'.limit.saturatingSub meter'.remaining).toNat = _ + call.gasUsed.toNat
  rw [hlimit, UInt64.toNat_saturatingSub]
  change _ + _ = remaining.toNat at hleft
  show req.limit.toNat - _ = _
  omega

theorem settle_isOk {s s₁ s₂ : StateDB} (ctx : ExecutionContext) {tx : Transaction}
    {meter : GasMeter} {call : CallResult} (hc : credit s tx = .ok s₁)
    (he : executeCall (CallInput.fromTx tx) s₁ meter.remaining = (.ok call, s₂))
    (hr : ∀ units : UInt64, units.toNat + call.gasUsed.toNat = meter.remaining.toNat →
      ∃ s₃, refund s₂ tx units = .ok s₃) :
    ∃ out s₃ ctx', settle s ctx tx meter = (.ok out, s₃, ctx') ∧ out.call = call
      ∧ refund s₂ tx out.gasRefunded = .ok s₃ := by
  obtain ⟨meter', hcharge, -, hleft⟩ := GasMeter.charge_isOk (executeCall_gasUsed_le he)
  obtain ⟨s₃, hs₃⟩ := hr meter'.remaining hleft
  unfold settle
  simp only [hc, he, hcharge, GasMeter.refundGas, hs₃]
  exact ⟨_, _, _, rfl, rfl, hs₃⟩

omit [Wasmi] in
theorem refund_zero (s : StateDB) (tx : Transaction) : refund s tx 0 = .ok s := by
  have hmul : (U256.ofU64 0).checkedMul tx.gasPrice = some U256.zero := by
    rw [U256.checkedMul_eq_some, U256.toNat_ofU64]
    simp
  unfold refund
  rw [hmul]
  rfl

theorem SimulateRequest.rootsCurrent_simulate {cfg : GasConfig} {s t : StateDB}
    {req : SimulateRequest} {sim : SimulateOutcome} (h : simulate cfg s req = (.ok sim, t))
    (hs : s.RootsCurrent) : t.RootsCurrent := by
  obtain ⟨t₀, t₁, gasLimit, hsteps⟩ := steps_of_ok h
  have h₀ : t₀.RootsCurrent := by
    have hd := hsteps.debit
    unfold debit at hd
    simp only at hd
    split_ifs at hd
    · cases hd
      exact hs
    · split at hd
      · cases hd
      · cases hd
        exact hs.setAccount _ _
  have h₁ : t₁.RootsCurrent := by
    have hc := hsteps.credit
    unfold credit at hc
    split at hc
    · split_ifs at hc
      · cases hc
        exact h₀
      · simp only at hc
        split at hc
        · cases hc
        · cases hc
          exact h₀.setAccount _ _
    · simp only at hc
      split at hc
      · cases hc
      · cases hc
        exact (h₀.setAccount _ _).setCode _ _
  have h₂ := executeCall_rootsCurrent req.callInput gasLimit h₁
  rw [hsteps.call] at h₂
  exact h₂

/-- **Simulation predicts execution.**  If a simulation succeeds on a state, then so does, on the
same state, the transaction that the request stands for, with the estimate as its gas, the next
nonce and any price the sender can pay, as long as the block has room for it.  It uses just the
estimate, its call has the result of the simulated one, and the states differ in the nonce of the
sender and in what it paid for gas. -/
theorem SimulateRequest.predicts (hw : Wasmi.Elastic) {cfg : GasConfig} {s t : StateDB}
    {req : SimulateRequest} {sim : SimulateOutcome} (hsim : simulate cfg s req = (.ok sim, t))
    {ctx : ExecutionContext} {tx : Transaction} (hm : req.Matches tx) (hgas : tx.gas = sim.gasUsed)
    (hnonce : tx.nonce = s.nonce req.sender) (hmax : s.nonce req.sender < UInt64.maxValue)
    (hafford : req.value.toNat + sim.gasUsed.toNat * tx.gasPrice.toNat ≤ s.balance req.sender)
    (hroom : ctx.gasUsed.saturatingAdd sim.gasUsed ≤ cfg.maxGasPerBlock) :
    ∃ out t' ctx', executeTransaction cfg s ctx tx = (.ok out, t', ctx')
      ∧ out.receipt.gasUsed = sim.gasUsed ∧ out.gasRefunded = 0
      ∧ out.receipt.status = sim.call.success ∧ out.receipt.logs = Vec.ofList sim.call.logs
      ∧ out.call = sim.call
      ∧ Charged req.sender 1 (sim.gasUsed.toNat * tx.gasPrice.toNat) t t'
      ∧ (s.RootsCurrent → ∀ a, (t'.account a).storageRoot = (t.account a).storageRoot) := by
  obtain ⟨t₀, t₁, gasLimit, hsteps⟩ := steps_of_ok hsim
  have hintrinsic : computeIntrinsicGas tx cfg
      = computeIntrinsicGasLen req.data.toList.length cfg := by
    rw [computeIntrinsicGas, Transaction.dataLen, hm.data]
  have hused := hsteps.gasUsed
  rw [← hintrinsic] at hused
  have hpay : Payable cfg s ctx tx :=
    { nonce := by rw [hm.sender, hnonce]
      gas := by rw [hgas]; omega
      balance := by rw [hm.value, hm.sender, hgas]; exact hafford
      room := by rw [hgas]; exact hroom
      next := by
        rw [UInt64.lt_iff_toNat_lt, UInt64.toNat_maxValue] at hmax
        rw [hnonce]
        omega }
  obtain ⟨checked, hc⟩ := hpay.precheck
  have hp := precheck_eq_ok hc
  -- the limit of the call is what the simulated call used
  have hlimit : checked.meter.remaining = sim.call.gasUsed := by
    have hremaining := hp.remaining
    rw [hgas] at hremaining
    rw [← UInt64.toNat_inj]
    omega
  have h₀ := hm.debit hsteps.debit hc
  have hcredit := hsteps.credit
  rw [← hnonce] at hcredit
  obtain ⟨t₁', hcr, h₁⟩ := hm.credit h₀ hcredit
  have hcall := hsteps.call
  rw [hm.callInput] at hcall
  obtain ⟨t₂', he, h₂⟩ := executeCall_charged hw h₁ hcall
  rw [← hlimit] at he
  have hrefund : ∀ units : UInt64,
      units.toNat + sim.call.gasUsed.toNat = checked.meter.remaining.toNat → units = 0 := by
    intro units hu
    rw [hlimit] at hu
    rw [← UInt64.toNat_inj, UInt64.toNat_zero]
    omega
  obtain ⟨out, t', ctx', hsettle, hout, hr⟩ := settle_isOk ctx hcr he fun units hu => by
    rw [hrefund units hu]
    exact ⟨t₂', refund_zero t₂' tx⟩
  have hx : executeTransaction cfg s ctx tx = (.ok out, t', ctx') := by
    rw [executeTransaction, hc]
    exact hsettle
  obtain ⟨_, _, hs⟩ := settle_steps hsettle
  have hzero : out.gasRefunded = 0 := hrefund _ (by rw [← hout]; exact hs.left)
  rw [hzero, refund_zero, Except.ok.injEq] at hr
  subst hr
  have hgasUsed : out.gasUsed = sim.gasUsed := by
    rw [hs.used, hzero, hp.limit, hgas, ← UInt64.toNat_inj, UInt64.toNat_saturatingSub]
    rfl
  rw [hm.sender, hgas] at h₂
  refine ⟨out, t₂', ctx', hx, ?_, hzero, ?_, ?_, hout, h₂, fun hroots a => ?_⟩
  · rw [hs.receipt]
    exact hgasUsed
  · rw [hs.receipt, ← hout]
  · rw [hs.receipt, ← hout]
  · have hcurrent := executeTransaction_rootsCurrent cfg ctx tx hroots
    rw [hx] at hcurrent
    rw [hcurrent a, rootsCurrent_simulate hsim hroots a]
    exact StateDB.computeStorageRoot_congr fun slot => by rw [h₂.storage]

end

namespace Devnet

/-- Scripts succeed on any fuel that covers their bytes. -/
theorem elastic_scripts : @Wasmi.Elastic _ scripts := by
  intro code s t address fuel input r h
  rw [run_scripts] at h
  split at h
  · next hmagic =>
    split at h
    · cases h
    next value left host hrun =>
    cases h
    obtain ⟨hlen, hall⟩ := script_run code.tail fuel _ (congrArg Prod.fst hrun)
    refine ⟨?_, fun fuel' hle => ?_⟩
    · show left.toNat ≤ _
      omega
    · change fuel.toNat ≤ fuel'.toNat + left.toNat at hle
      obtain ⟨left', hleft', hrun'⟩ := hall fuel' (by omega)
      refine ⟨left', ?_, ?_⟩
      · show _ = fuel'.toNat + left.toNat
        omega
      · rw [run_scripts, if_pos hmagic, hrun', hrun]
  · cases h

/-- A request to call the contract that writes three times. -/
def countingRequest : SimulateRequest :=
  { sender := user, recipient := some sink, value := U256.one, data := Vec.empty, gas := 0 }

/-- The transaction of the request, with gas for the intrinsic cost and three writes. -/
def countingCall : Transaction :=
  signedTx userKey (some sink) 0 U256.one 21003 U256.one Vec.empty

/-- The request is estimated at the intrinsic cost and three writes, and so it is executed. -/
theorem predicts_counting : ∃ sim t out t' ctx',
    @SimulateRequest.simulate _ scripts GasConfig.default counting countingRequest = (.ok sim, t)
    ∧ sim.gasUsed = 21003
    ∧ callScript counting countingCall = (.ok out, t', ctx')
    ∧ out.receipt.gasUsed = sim.gasUsed ∧ t'.storage = t.storage := by
  have heval : ((@SimulateRequest.simulate _ scripts GasConfig.default counting
        countingRequest).1.toOption.map fun sim => sim.gasUsed) = some 21003
      ∧ countingCall.sender = user ∧ counting.nonce user = 0
      ∧ 1 + 21003 * countingCall.gasPrice.toNat ≤ counting.balance user := by decide +kernel
  obtain ⟨hsim, hsender, hnonce, hafford⟩ := heval
  rcases hx : @SimulateRequest.simulate _ scripts GasConfig.default counting countingRequest with
    ⟨_ | sim, t⟩
  · rw [hx] at hsim
    cases hsim
  · rw [hx] at hsim
    have hused : sim.gasUsed = 21003 := Option.some.inj hsim
    obtain ⟨out, t', ctx', hexec, hgas, -, -, -, -, hcharged, -⟩ :=
      @SimulateRequest.predicts _ scripts elastic_scripts GasConfig.default counting t
        countingRequest sim hx (.new 1 1) countingCall ⟨hsender, rfl, rfl, rfl⟩
        (by rw [hused]; rfl) hnonce.symm
        (by show counting.nonce user < _; rw [hnonce]; decide)
        (by rw [hused]; exact hafford) (by rw [hused]; decide)
    exact ⟨sim, t, out, t', ctx', rfl, hused, hexec, hgas, hcharged.storage⟩

end Devnet

end Ivory
