import Ivory.Executor.Effects

/-!
# The footprint of a transaction

A transaction writes accounts, code and storage slots of at most two addresses:
its sender, and its target, which is the recipient or the created contract.  The
contract runs on the same state and may write as often as it likes, but only
slots of the target.

* `Kept P s tx`: the writes a transaction can make keep `P`.
* `executeTransaction_kept`: **what each single write keeps, a transaction keeps**,
  whether it succeeds or fails.
* `executeTransaction_footprint`: **a transaction touches only its parties.**
-/

namespace Ivory

/-- The transaction calls code: its recipient has some. -/
def Transaction.CallsCode (tx : Transaction) (s : StateDB) (callee : Address) : Prop :=
  tx.recipient = some callee ∧ s.getCode callee ≠ []

variable [Keccak]

/-! ### The writes -/

/-- The writes that a transaction can make on a state `s` keep `P`: accounts of the two parties
are rewritten with the code hash they have, a creation installs its code together with its hash,
and slots of the recipient are written if it has code. -/
structure Kept (P : StateDB → Prop) (s : StateDB) (tx : Transaction) : Prop where
  account : ∀ t a acc, a = tx.sender ∨ a = tx.target → acc.codeHash = (t.account a).codeHash →
    P t → P (t.setAccount a acc)
  create : tx.recipient = none → ∀ t acc, acc.codeHash = keccak256 tx.data.toList →
    P t → P ((t.setAccount tx.target acc).setCode tx.target tx.data)
  slot : ∀ callee, tx.CallsCode s callee → ∀ t slot v, P t → P (t.setStorage callee slot v)

theorem Transaction.target_of_some {tx : Transaction} {callee : Address}
    (h : tx.recipient = some callee) : tx.target = callee := by rw [target, h]; rfl

theorem Transaction.target_of_none {tx : Transaction} (h : tx.recipient = none) :
    tx.target = Address.create tx.sender tx.nonce := by rw [target, h]; rfl

omit [Keccak] in
theorem precheck_sender {cfg : GasConfig} {s : StateDB} {ctx : ExecutionContext} {tx : Transaction}
    {checked : Checked} (h : precheck cfg s ctx tx = .ok checked) :
    checked.sender.codeHash = (s.account tx.sender).codeHash := by
  unfold precheck at h
  simp only at h
  split at h
  · cases h
  split at h
  · cases h
  split at h
  · cases h
  split at h
  · cases h
  split at h
  · cases h
  split at h
  · cases h
  split at h
  · cases h
  split at h
  · cases h
  · cases h
    rfl

/-! ### The call -/

section Call

variable [Wasmi]

/-- Without code at the recipient, and for a creation, the call does nothing. -/
theorem executeCall_of_not_callsCode {s : StateDB} {tx : Transaction}
    (h : ∀ callee, ¬ tx.CallsCode s callee) (gasLimit : UInt64) :
    executeCall (CallInput.fromTx tx) s gasLimit = (.ok (.empty true 0), s) := by
  unfold executeCall CallInput.fromTx Transaction.isCreate
  cases hto : tx.recipient with
  | none => rfl
  | some callee =>
    have hempty : s.getCode callee = [] := by
      by_contra hne
      exact h callee ⟨hto, hne⟩
    simp [hempty]

/-- **A call of code is a run of it**, with the fuel that stands for the gas; the gas is what the
run reports as used. -/
theorem executeCall_of_callsCode {s : StateDB} {tx : Transaction} {callee : Address}
    (h : tx.CallsCode s callee) (gasLimit : UInt64) :
    executeCall (CallInput.fromTx tx) s gasLimit
      = match WasmVm.run (s.getCode callee) s callee (WasmVm.fuelFor gasLimit) tx.data.toList with
        | (.error e, t) => (.error (.vm e.message), t)
        | (.ok r, t) => (.ok ⟨true, r.logs,
            gasLimit.saturatingSub (remainingFuel r.fuelLeft gasLimit),
            (r.returnValue.map outputFromI32).getD Vec.empty⟩, t) := by
  obtain ⟨hto, hcode⟩ := h
  have hne : (s.getCode callee).isEmpty = false := by
    cases hc : s.getCode callee with
    | nil => exact absurd hc hcode
    | cons b code => rfl
  unfold executeCall CallInput.fromTx Transaction.isCreate
  rw [hto]
  simp only [Option.isNone_some, Bool.false_eq_true, if_false, Option.getD_some, hne]
  rw [WasmVm.execute_eq]
  rcases WasmVm.run (s.getCode callee) s callee (WasmVm.fuelFor gasLimit) tx.data.toList with
    ⟨e | r, t⟩
  · rfl
  · rfl

end Call

namespace Kept

variable {P : StateDB → Prop} {s t t' : StateDB} {tx : Transaction}

theorem credit (hk : Kept P s tx) (h : credit t tx = .ok t') (hP : P t) : P t' := by
  unfold Ivory.credit at h
  split at h
  · next callee hto =>
    simp only at h
    split at h
    · cases h
    · cases h
      exact hk.account t callee _ (.inr (Transaction.target_of_some hto).symm) rfl hP
  · next hto =>
    simp only at h
    split at h
    · cases h
    · cases h
      have hcreate := hk.create hto t
      rw [Transaction.target_of_none hto] at hcreate
      exact hcreate _ rfl hP

theorem refund (hk : Kept P s tx) {units : UInt64} (h : refund t tx units = .ok t') (hP : P t) :
    P t' := by
  unfold Ivory.refund at h
  split at h
  · cases h
  split_ifs at h
  · cases h
    exact hP
  · simp only at h
    split at h
    · cases h
    · cases h
      exact hk.account t tx.sender _ (.inl rfl) rfl hP

/-- The call writes slots of the recipient, if it has code when the call starts. -/
theorem executeCall [Wasmi] (hk : Kept P s tx) (gasLimit : UInt64)
    (hcode : ∀ callee, tx.recipient = some callee → t.getCode callee = s.getCode callee)
    (hP : P t) : P (executeCall (CallInput.fromTx tx) t gasLimit).2 := by
  by_cases h : ∃ callee, tx.CallsCode t callee
  · obtain ⟨callee, hto, hne⟩ := h
    have hslot := hk.slot callee ⟨hto, by rw [← hcode callee hto]; exact hne⟩
    have hx := WasmVm.state_execute hslot (t.getCode callee) gasLimit tx.data.toList hP
    rw [WasmVm.execute_eq] at hx
    rw [executeCall_of_callsCode ⟨hto, hne⟩]
    revert hx
    rcases WasmVm.run (t.getCode callee) t callee (WasmVm.fuelFor gasLimit) tx.data.toList with
      ⟨e | r, t₁⟩
    · exact id
    · exact id
  · rw [executeCall_of_not_callsCode (not_exists.mp h)]
    exact hP

end Kept

theorem code_of_credit {s s' : StateDB} {tx : Transaction} {callee : Address}
    (hto : tx.recipient = some callee) (h : credit s tx = .ok s') : s'.code = s.code := by
  unfold credit at h
  rw [hto] at h
  simp only at h
  split at h
  · cases h
  · cases h
    rfl

/-! ### Whole transactions -/

section

variable [Wasmi]

/-- **What each single write keeps, a transaction keeps**, whether it succeeds or fails. -/
theorem executeTransaction_kept {P : StateDB → Prop} (cfg : GasConfig) {s : StateDB}
    (ctx : ExecutionContext) {tx : Transaction} (hk : Kept P s tx) (hP : P s) :
    P (executeTransaction cfg s ctx tx).2.1 := by
  cases hc : precheck cfg s ctx tx with
  | error e =>
    rw [executeTransaction_of_precheck_error hc]
    exact hP
  | ok checked =>
    rw [executeTransaction, hc]
    simp only
    have hdebit : P (s.setAccount tx.sender checked.sender) :=
      hk.account s tx.sender _ (.inl rfl) (precheck_sender hc) hP
    unfold settle
    split
    · exact hdebit
    next s₁ hcr =>
    have h₁ : P s₁ := hk.credit hcr hdebit
    have hcode : ∀ callee, tx.recipient = some callee → s₁.getCode callee = s.getCode callee := by
      intro callee hto
      rw [StateDB.getCode, code_of_credit hto hcr]
      rfl
    have h₂ := hk.executeCall checked.meter.remaining hcode h₁
    split
    · next e s₂ he => rw [he] at h₂; exact h₂
    next call s₂ he =>
    rw [he] at h₂
    split
    · exact h₂
    split
    · exact h₂
    next s₃ hr => exact hk.refund hr h₂

theorem executeTransaction_rootsCurrent (cfg : GasConfig) {state : StateDB}
    (ctx : ExecutionContext) (tx : Transaction) (h : state.RootsCurrent) :
    (executeTransaction cfg state ctx tx).2.1.RootsCurrent :=
  executeTransaction_kept cfg ctx
    ⟨fun _ a acc _ _ ht => ht.setAccount a acc,
      fun _ _ acc _ ht => (ht.setAccount _ acc).setCode _ _,
      fun callee _ _ slot v ht => ht.setStorage callee slot v⟩ h

/-- What a transaction leaves as it was. -/
structure Footprint (s : StateDB) (tx : Transaction) (s' : StateDB) : Prop where
  others : ∀ a, a ≠ tx.sender → a ≠ tx.target → s'.getAccount a = s.getAccount a
    ∧ s'.code[a]? = s.code[a]? ∧ ∀ slot : H256, s'.storage[(a, slot)]? = s.storage[(a, slot)]?
  storage : ∀ (a : Address) (slot : H256), s'.storage[(a, slot)]? ≠ s.storage[(a, slot)]? →
    a = tx.target ∧ tx.recipient = some a ∧ s.getCode a ≠ []
  code : ∀ a : Address, s'.code[a]? ≠ s.code[a]? → tx.recipient = none ∧ a = tx.target
  nonce : ∀ a, a ≠ tx.sender → s'.nonce a = s.nonce a

theorem storage_executeTransaction (cfg : GasConfig) (s : StateDB) (ctx : ExecutionContext)
    (tx : Transaction) (a : Address) (slot : H256)
    (ha : ¬ tx.CallsCode s a) :
    (executeTransaction cfg s ctx tx).2.1.storage[(a, slot)]? = s.storage[(a, slot)]? := by
  refine executeTransaction_kept (P := fun t => t.storage[(a, slot)]? = s.storage[(a, slot)]?) cfg
    ctx ⟨fun t b acc _ _ h => h, fun _ t acc _ h => h, fun callee hcalls t slot' v h => ?_⟩ rfl
  have hne : a ≠ callee := by
    intro he
    rw [he] at ha
    exact ha hcalls
  rw [StateDB.storage_setStorage_of_ne t slot' slot v hne]
  exact h

theorem code_executeTransaction (cfg : GasConfig) (s : StateDB) (ctx : ExecutionContext)
    (tx : Transaction) (a : Address) (ha : ¬ (tx.recipient = none ∧ a = tx.target)) :
    (executeTransaction cfg s ctx tx).2.1.code[a]? = s.code[a]? := by
  refine executeTransaction_kept (P := fun t => t.code[a]? = s.code[a]?) cfg ctx
    ⟨fun t b acc _ _ h => h, fun hto t acc _ h => ?_, fun callee _ t slot v h => ?_⟩ rfl
  · show (t.code.insert tx.target tx.data)[a]? = _
    rw [Table.get_insert_of_ne _ _ fun he => ha ⟨hto, he⟩]
    exact h
  · rw [StateDB.code_setStorage]
    exact h

theorem getAccount_executeTransaction (cfg : GasConfig) (s : StateDB) (ctx : ExecutionContext)
    (tx : Transaction) {a : Address} (hs : a ≠ tx.sender) (ht : a ≠ tx.target) :
    (executeTransaction cfg s ctx tx).2.1.getAccount a = s.getAccount a := by
  refine executeTransaction_kept (P := fun t => t.getAccount a = s.getAccount a) cfg ctx
    ⟨fun t b acc hb _ h => ?_, fun hto t acc _ h => ?_, fun callee hcalls t slot v h => ?_⟩ rfl
  · have hne : a ≠ b := by
      rintro rfl
      exact hb.elim hs ht
    rw [StateDB.getAccount_setAccount, if_neg hne]
    exact h
  · show (t.setAccount tx.target acc).getAccount a = _
    rw [StateDB.getAccount_setAccount, if_neg ht]
    exact h
  · rw [Transaction.target_of_some hcalls.1] at ht
    rw [StateDB.getAccount_setStorage_of_ne t slot v ht]
    exact h

/-- **A transaction touches only its parties**, whatever the contract does: other addresses keep
account, code and slots; slots change only at a recipient with code, code only at the address of a
creation, and no nonce but that of the sender. -/
theorem executeTransaction_footprint (cfg : GasConfig) (s : StateDB) (ctx : ExecutionContext)
    (tx : Transaction) : Footprint s tx (executeTransaction cfg s ctx tx).2.1 where
  others a hs ht := by
    refine ⟨getAccount_executeTransaction cfg s ctx tx hs ht,
      code_executeTransaction cfg s ctx tx a fun h => ht h.2,
      fun slot => storage_executeTransaction cfg s ctx tx a slot ?_⟩
    intro h
    exact ht (Transaction.target_of_some h.1).symm
  storage a slot hne := by
    by_contra hno
    refine hne (storage_executeTransaction cfg s ctx tx a slot fun h => hno ?_)
    exact ⟨(Transaction.target_of_some h.1).symm, h⟩
  code a hne := by
    by_contra hno
    exact hne (code_executeTransaction cfg s ctx tx a hno)
  nonce a ha := by
    cases hc : precheck cfg s ctx tx with
    | error e => rw [executeTransaction_of_precheck_error hc]
    | ok checked =>
      have hn := nonce_executeTransaction hc a
      rw [if_neg ha, Nat.add_zero] at hn
      exact UInt64.toNat_inj.mp hn

end

end Ivory
