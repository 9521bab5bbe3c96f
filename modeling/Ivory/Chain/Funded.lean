import Ivory.Chain.ProducerOrder

/-!
# Transactions that all go through

`produce_block` skips what fails.  Here is when nothing fails: the nonces of every sender count up
from that of its account, the balance of every sender covers all it sends, the gas of all fits in
one block, and no call reaches code.

The balances are those before the block: what a sender receives in the block is not counted.

* `Funded`: such a list.
* `Funded.step`: **the first one succeeds, and the rest is funded after it.**
* `Funded.executeEach`: all are included, in order, all succeed, and none uses more than its gas.
-/

namespace Ivory

namespace Transaction

/-- What the sender of a transaction has to have. -/
def cost (tx : Transaction) : ℕ := tx.value.toNat + tx.gas.toNat * tx.gasPrice.toNat

/-- A call among these reaches no code: neither now nor after a creation among them. -/
def Plain (s : StateDB) [Keccak] (txs : List Transaction) (tx : Transaction) : Prop :=
  ∀ callee, tx.recipient = some callee → s.getCode callee = []
    ∧ ∀ other ∈ txs, other.recipient = none → other.target ≠ callee

end Transaction

section

variable [Keccak]

theorem Executed.gasUsed_le {cfg : GasConfig} {s s' : StateDB} {ctx ctx' : ExecutionContext}
    {tx : Transaction} {out : ExecutionOutcome} (h : Executed cfg s ctx tx out s' ctx') :
    ctx'.gasUsed.toNat ≤ ctx.gasUsed.toNat + tx.gas.toNat := by
  have hgas := h.gas
  rw [h.ctx_eq]
  show (ctx.gasUsed.saturatingAdd out.gasUsed).toNat ≤ _
  rw [UInt64.toNat_saturatingAdd]
  omega

theorem getCode_executeTransaction [Wasmi] (cfg : GasConfig) (s : StateDB) (ctx : ExecutionContext)
    {tx : Transaction} {a : Address} (ha : ¬ (tx.recipient = none ∧ a = tx.target)) :
    (executeTransaction cfg s ctx tx).2.1.getCode a = s.getCode a := by
  rw [StateDB.getCode, StateDB.getCode, code_executeTransaction cfg s ctx tx a ha]

/-- Transactions that can be executed one after the other. -/
structure Funded (cfg : GasConfig) (s : StateDB) (ctx : ExecutionContext) (txs : List Transaction) :
    Prop where
  nonces : ∀ a, CountsUp a txs (s.nonce a).toNat
  balances : ∀ a, ((sentBy a txs).map Transaction.cost).sum ≤ s.balance a
  usable : ∀ tx ∈ txs, tx.Usable
  intrinsic : ∀ tx ∈ txs, (computeIntrinsicGas tx cfg).toNat ≤ tx.gas.toNat
  room : ctx.gasUsed.toNat + (txs.map fun tx => tx.gas.toNat).sum ≤ cfg.maxGasPerBlock.toNat
  plain : ∀ tx ∈ txs, tx.Plain s txs
  supply : s.totalBalance < 2 ^ 256

namespace Funded

variable {cfg : GasConfig} {s : StateDB} {ctx : ExecutionContext} {tx : Transaction}
  {txs : List Transaction}

omit [Keccak] in
theorem sentBy_cons_self (tx : Transaction) (txs : List Transaction) :
    sentBy tx.sender (tx :: txs) = tx :: sentBy tx.sender txs :=
  List.filter_cons_of_pos (by simp)

omit [Keccak] in
theorem sentBy_cons_of_ne {a : Address} (h : a ≠ tx.sender) :
    sentBy a (tx :: txs) = sentBy a txs :=
  List.filter_cons_of_neg (by simpa using h.symm)

theorem payable (h : Funded cfg s ctx (tx :: txs)) : Payable cfg s ctx tx := by
  have hn := h.nonces tx.sender
  have hb := h.balances tx.sender
  have hroom := h.room
  rw [CountsUp, sentBy_cons_self, List.length_cons, List.range'_succ, List.map_cons,
    List.cons.injEq] at hn
  rw [sentBy_cons_self, List.map_cons, List.sum_cons] at hb
  rw [List.map_cons, List.sum_cons] at hroom
  refine ⟨UInt64.toNat_inj.mp hn.1.symm, h.intrinsic tx List.mem_cons_self, ?_, ?_,
    h.usable tx List.mem_cons_self⟩
  · rw [Transaction.cost] at hb
    omega
  · rw [UInt64.le_iff_toNat_le, UInt64.toNat_saturatingAdd]
    omega

variable [Wasmi]

theorem executeCall (h : Funded cfg s ctx (tx :: txs)) {acc : Account} {s₁ : StateDB}
    (hc : credit (s.setAccount tx.sender acc) tx = .ok s₁) (gasLimit : UInt64) :
    Ivory.executeCall (CallInput.fromTx tx) s₁ gasLimit = (.ok (.empty true 0), s₁) := by
  refine executeCall_of_not_callsCode (fun callee hcalls => hcalls.2 ?_) gasLimit
  rw [StateDB.getCode, code_of_credit hcalls.1 hc]
  exact (h.plain tx List.mem_cons_self callee hcalls.1).1

theorem succeeds (h : Funded cfg s ctx (tx :: txs)) :
    ∃ out s₁ ctx₁, executeTransaction cfg s ctx tx = (.ok out, s₁, ctx₁)
      ∧ out.receipt.status = true := by
  obtain ⟨checked, hc⟩ := h.payable.precheck
  rcases hx : executeTransaction cfg s ctx tx with ⟨e | out, s₁, ctx₁⟩
  · -- after the first checks only the call could fail
    obtain ⟨t, text, hcr, -, he⟩ := executeTransaction_late h.supply hc hx
    rw [h.executeCall hcr] at he
    cases he
  · refine ⟨out, s₁, ctx₁, rfl, ?_⟩
    rw [executeTransaction, hc] at hx
    obtain ⟨t₁, t₂, hs⟩ := settle_steps hx
    have hcall := hs.call
    rw [h.executeCall hs.credit] at hcall
    rw [hs.receipt, ← Except.ok.inj (congrArg Prod.fst hcall)]
    rfl

/-- **The first transaction succeeds, and the rest is funded after it.** -/
theorem step (h : Funded cfg s ctx (tx :: txs)) :
    ∃ out s₁ ctx₁, executeTransaction cfg s ctx tx = (.ok out, s₁, ctx₁)
      ∧ out.receipt.status = true ∧ Funded cfg s₁ ctx₁ txs := by
  obtain ⟨out, s₁, ctx₁, hx, hstatus⟩ := h.succeeds
  refine ⟨out, s₁, ctx₁, hx, hstatus, ?_⟩
  have hex := executeTransaction_eq_ok hx
  refine ⟨fun a => ?_, fun a => ?_, fun x hx => h.usable x (List.mem_cons_of_mem _ hx),
    fun x hx => h.intrinsic x (List.mem_cons_of_mem _ hx), ?_, fun x hmem callee hto => ?_, ?_⟩
  · have hn := h.nonces a
    rw [hex.nonce a]
    by_cases ha : a = tx.sender
    · subst ha
      rw [CountsUp, sentBy_cons_self, List.length_cons, List.range'_succ, List.map_cons,
        List.cons.injEq] at hn
      rw [if_pos rfl]
      exact hn.2
    · rw [CountsUp, sentBy_cons_of_ne ha] at hn
      rw [if_neg ha]
      exact hn
  · have hb := h.balances a
    have hbal := hex.balance a
    by_cases ha : a = tx.sender
    · subst ha
      rw [sentBy_cons_self, List.map_cons, List.sum_cons, Transaction.cost] at hb
      rw [if_pos rfl] at hbal
      have hused : out.gasUsed.toNat * tx.gasPrice.toNat ≤ tx.gas.toNat * tx.gasPrice.toNat :=
        Nat.mul_le_mul_right _ (by have := hex.gas; omega)
      omega
    · rw [sentBy_cons_of_ne ha] at hb
      rw [if_neg ha] at hbal
      omega
  · have hroom := h.room
    have hgas := hex.gasUsed_le
    rw [List.map_cons, List.sum_cons] at hroom
    omega
  · obtain ⟨hempty, hothers⟩ := h.plain x (List.mem_cons_of_mem _ hmem) callee hto
    refine ⟨?_, fun other ho => hothers other (List.mem_cons_of_mem _ ho)⟩
    have hkept := getCode_executeTransaction cfg s ctx
      fun hc : tx.recipient = none ∧ callee = tx.target =>
        hothers tx List.mem_cons_self hc.1 hc.2.symm
    rw [hx] at hkept
    exact hkept.trans hempty
  · have htotal := hex.total
    have := h.supply
    omega

/-- **All are included, in order, and all succeed.** -/
theorem executeEach : ∀ (txs : List Transaction) {s : StateDB} {ctx : ExecutionContext},
    Funded cfg s ctx txs → (Ivory.executeEach cfg s ctx txs).1.map Prod.fst = txs
      ∧ (∀ p ∈ (Ivory.executeEach cfg s ctx txs).1, p.2.status = true)
      ∧ (Ivory.executeEach cfg s ctx txs).2.2.gasUsed.toNat
        ≤ ctx.gasUsed.toNat + (txs.map fun tx => tx.gas.toNat).sum
      ∧ lateFailures cfg s ctx txs = [] := by
  intro txs
  induction txs with
  | nil => intro s ctx _; exact ⟨rfl, nofun, Nat.le_add_right _ _, rfl⟩
  | cons tx txs ih =>
    intro s ctx h
    obtain ⟨out, s₁, ctx₁, hx, hstatus, h₁⟩ := h.step
    obtain ⟨hincluded, hall, hgas, hlate⟩ := ih h₁
    rw [Ivory.executeEach, lateFailures, hx]
    refine ⟨congrArg (tx :: ·) hincluded, List.forall_mem_cons.mpr ⟨hstatus, hall⟩, ?_, hlate⟩
    have hctx := (executeTransaction_eq_ok hx).gasUsed_le
    rw [List.map_cons, List.sum_cons]
    refine hgas.trans ?_
    omega

end Funded

end

end Ivory
