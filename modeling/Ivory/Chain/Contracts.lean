import Ivory.Chain.Accounting
import Ivory.Chain.Code
import Ivory.Chain.History

/-!
# Contracts

A transaction without a recipient creates a contract: its data becomes the code of the address that
its sender and its nonce give.  No other write touches code, so the code of a state is a function of
the transactions of its chain.

A sender uses a nonce once on a chain (`replay_nonces`).  While no two pairs of a sender and a nonce
give one address, each creation has an address of its own, and its code stays.

* `creations`: the contracts that transactions create.
* `replay_code`: the code after a replay.
* `History.code_iff`: **the code of a state is what the creations of its chain left.**
-/

namespace Ivory

section

variable [Keccak]

/-- The contract that a transaction creates: its address and its code. -/
def Transaction.creation (tx : Transaction) : Option (Address × Bytes) :=
  if tx.isCreate then some (Address.create tx.sender tx.nonce, tx.data) else none

/-- The contracts that transactions create. -/
def creations (txs : List Transaction) : List (Address × Bytes) :=
  txs.filterMap Transaction.creation

theorem mem_creations {txs : List Transaction} {a : Address} {code : Bytes} :
    (a, code) ∈ creations txs ↔ ∃ tx ∈ txs, tx.isCreate = true
      ∧ Address.create tx.sender tx.nonce = a ∧ tx.data = code := by
  simp only [creations, List.mem_filterMap, Transaction.creation]
  refine exists_congr fun tx => and_congr_right fun _ => ?_
  split
  · next h => simp [h]
  · next h => simp [h]

theorem creations_cons (tx : Transaction) (txs : List Transaction) :
    creations (tx :: txs) = tx.creation.toList ++ creations txs := by
  rw [creations, List.filterMap_cons]
  cases tx.creation <;> rfl

theorem creations_append (txs txs' : List Transaction) :
    creations (txs ++ txs') = creations txs ++ creations txs' := List.filterMap_append

/-- No two creations by different senders or with different nonces have one address. -/
def NoCreateCollision (txs : List Transaction) : Prop :=
  ∀ tx ∈ txs, ∀ tx' ∈ txs, tx.isCreate = true → tx'.isCreate = true →
    Address.create tx.sender tx.nonce = Address.create tx'.sender tx'.nonce →
    tx.sender = tx'.sender ∧ tx.nonce = tx'.nonce

theorem NoCreateCollision.mono {txs txs' : List Transaction} (h : NoCreateCollision txs')
    (hsub : txs ⊆ txs') : NoCreateCollision txs :=
  fun tx htx tx' htx' => h tx (hsub htx) tx' (hsub htx')

/-- While no sender uses a nonce twice, every creation has an address of its own. -/
theorem nodup_creations : ∀ {txs : List Transaction},
    (txs.map fun tx => (tx.sender, tx.nonce)).Nodup → NoCreateCollision txs →
    ((creations txs).map Prod.fst).Nodup := by
  intro txs
  induction txs with
  | nil => intro _ _; exact List.nodup_nil
  | cons tx txs ih =>
    intro hnd hinj
    rw [List.map_cons, List.nodup_cons] at hnd
    have hrest := ih hnd.2 (hinj.mono (List.subset_cons_self _ _))
    rw [creations_cons, Transaction.creation]
    split
    · next hcreate =>
      refine List.nodup_cons.mpr ⟨fun hmem => ?_, hrest⟩
      obtain ⟨⟨a, code⟩, he, ha⟩ := List.mem_map.mp hmem
      obtain ⟨tx', htx', hcreate', hto, -⟩ := mem_creations.mp he
      obtain ⟨hs, hn⟩ := hinj tx List.mem_cons_self tx' (List.mem_cons_of_mem _ htx') hcreate
        hcreate' (by rw [hto]; exact ha.symm)
      exact hnd.1 (List.mem_map.mpr ⟨tx', htx', by rw [hs, hn]⟩)
    · exact hrest

/-- Code is entered for one contract after the other. -/
def enter (code : Table Address Bytes) (es : List (Address × Bytes)) : Table Address Bytes :=
  es.foldl (fun m e => m.insert e.1 e.2) code

omit [Keccak] in
theorem enter_append (code : Table Address Bytes) (es es' : List (Address × Bytes)) :
    enter code (es ++ es') = enter (enter code es) es' := List.foldl_append

/-! ### Execution -/

theorem code_rootHash (s : StateDB) : s.rootHash.2.code = s.code :=
  List.foldlRecOn s.addresses StateDB.refreshStorageRoot (motive := fun t => t.code = s.code) rfl
    fun t ht a _ => (StateDB.code_refreshStorageRoot t a).trans ht

variable [Wasmi]

theorem code_executeCall (input : CallInput) (s : StateDB) (gasLimit : UInt64) :
    (executeCall input s gasLimit).2.code = s.code := by
  refine executeCall_state (P := fun t => t.code = s.code) (fun t a slot v h => ?_) input gasLimit
    rfl
  rw [StateDB.code_setStorage]
  exact h

/-- **A transaction that succeeds** enters the contract it creates. -/
theorem code_of_ok {cfg : GasConfig} {s s' : StateDB} {ctx ctx' : ExecutionContext}
    {tx : Transaction} {out : ExecutionOutcome}
    (h : executeTransaction cfg s ctx tx = (.ok out, s', ctx')) :
    s'.code = enter s.code tx.creation.toList := by
  rw [executeTransaction] at h
  split at h
  · cases h
  next checked _ =>
  obtain ⟨s₁, s₂, hs⟩ := settle_steps h
  have hcredit : s₁.code = enter s.code tx.creation.toList := by
    have hc := hs.credit
    unfold credit at hc
    unfold Transaction.creation Transaction.isCreate
    cases hto : tx.recipient with
    | none =>
      rw [hto] at hc
      simp only at hc
      split at hc
      · cases hc
      · cases hc
        rfl
    | some callee =>
      rw [hto] at hc
      simp only at hc
      split at hc
      · cases hc
      · cases hc
        rfl
  have hcall : s₂.code = s₁.code := by
    have := code_executeCall (CallInput.fromTx tx) s₁ checked.meter.remaining
    rwa [hs.call] at this
  have hrefund : s'.code = s₂.code := by
    have hr := hs.refund
    unfold refund at hr
    split at hr
    · cases hr
    · split at hr
      · cases hr
        rfl
      · simp only at hr
        split at hr
        · cases hr
        · cases hr
          rfl
  rw [hrefund, hcall, hcredit]

theorem code_of_executeAll {cfg : GasConfig} : ∀ (txs : List Transaction) {s s' : StateDB}
    {ctx ctx' : ExecutionContext} {outs : List ExecutionOutcome},
    executeAll cfg s ctx txs = .ok (outs, s', ctx') → s'.code = enter s.code (creations txs) := by
  intro txs
  induction txs with
  | nil =>
    intro s s' ctx ctx' outs h
    cases h
    rfl
  | cons tx txs ih =>
    intro s s' ctx ctx' outs h
    obtain ⟨out, s₁, ctx₁, outs₁, he, hr, -⟩ := executeAll_cons_eq_ok h
    rw [ih hr, code_of_ok he, creations_cons, enter_append]

/-- **The code after a replay** is what the transactions created, on top of what was there. -/
theorem replay_code : ∀ (bs : List Block) {s s' : StateDB} {outs : List ExecutionOutcome},
    replay s bs = .ok (outs, s') → s'.code = enter s.code (creations (txsOf bs)) := by
  intro bs
  induction bs with
  | nil =>
    intro s s' outs h
    cases h
    rfl
  | cons b bs ih =>
    intro s s' outs h
    obtain ⟨outs₁, s₁, ctx, outs₂, hb, hr, -⟩ := replay_cons h
    have htxs : txsOf (b :: bs) = b.transactions.toList ++ txsOf bs := rfl
    rw [ih hr, code_rootHash, code_of_executeAll _ hb, htxs, creations_append, enter_append]

/-! ### Chains -/

variable [Ed25519]

theorem History.nodup_nonces {g : Genesis} {zs : List Block} {s : StateDB} (hh : History g zs s) :
    ((txsOf zs.reverse.tail).map fun tx => (tx.sender, tx.nonce)).Nodup := by
  obtain ⟨outs, hrep⟩ := hh.replay
  exact nodup_of_countsUp (fun a => (g.state.nonce a).toNat) _ fun a => (replay_nonces a hrep).1

/-- **The code of a state** is what the creations of its chain left: an address has code just when
a transaction of the chain created it, and it is the data of that transaction. -/
theorem History.code_iff {g : Genesis} {zs : List Block} {s : StateDB} (hh : History g zs s)
    (hg : g.state.NoCode) (hinj : NoCreateCollision (txsOf zs.reverse.tail)) {a : Address}
    {code : Bytes} :
    s.code[a]? = some code ↔ (a, code) ∈ creations (txsOf zs.reverse.tail) := by
  obtain ⟨outs, hrep⟩ := hh.replay
  rw [replay_code _ hrep, enter,
    Table.get_foldl_insert _ _ _ _ (nodup_creations hh.nodup_nonces hinj) fun e _ => hg.code e.1,
    hg.code a]
  simp

omit [Keccak] [Wasmi] [Ed25519] in
theorem txsOf_tail_cons {y : Block} {ys : List Block} (hne : ys ≠ []) :
    txsOf (y :: ys).reverse.tail = txsOf ys.reverse.tail ++ y.transactions.toList := by
  have hne' : ys.reverse ≠ [] := by simpa using hne
  rw [List.reverse_cons, List.tail_append_of_ne_nil hne', txsOf, List.flatMap_append]
  simp [txsOf]

omit [Keccak] [Wasmi] [Ed25519] in
theorem txsOf_tail_subset {ws zs : List Block} (hne : ws ≠ []) (hsub : ws <:+ zs) :
    txsOf ws.reverse.tail ⊆ txsOf zs.reverse.tail := by
  obtain ⟨pre, rfl⟩ := hsub
  have hne' : ws.reverse ≠ [] := by simpa using hne
  rw [List.reverse_append, List.tail_append_of_ne_nil hne', txsOf, txsOf, List.flatMap_append]
  exact List.subset_append_left _ _

theorem History.nonce_once {g : Genesis} {y : Block} {ys : List Block} {s : StateDB}
    (hh : History g (y :: ys) s) (hne : ys ≠ []) {tx tx' : Transaction}
    (htx : tx ∈ y.transactions.toList) (htx' : tx' ∈ txsOf ys.reverse.tail) :
    ¬ (tx'.sender = tx.sender ∧ tx'.nonce = tx.nonce) := by
  rintro ⟨hs, hn⟩
  have hnd := hh.nodup_nonces
  rw [txsOf_tail_cons hne, List.map_append, List.nodup_append] at hnd
  exact hnd.2.2 _ (List.mem_map_of_mem htx') _ (List.mem_map_of_mem htx) (by rw [hs, hn])

theorem History.number_of_suffix {g : Genesis} {zs : List Block} {s : StateDB} (hh : History g zs s)
    (hlen : zs.length ≤ 2 ^ 64) {y : Block} {ys : List Block} (hsub : y :: ys <:+ zs) :
    (∃ s', History g (y :: ys) s') ∧ y.header.number.toNat = ys.length := by
  have hle := hsub.length_le.trans hlen
  obtain ⟨pre, rfl⟩ := hsub
  obtain ⟨s', hy⟩ := hh.of_append
  exact ⟨⟨s', hy⟩, hy.number_eq hle y ys rfl⟩

/-- **A contract has its code from its block on.**  Of two states of one chain, the one at or above
the block of a creation has the code, the one below has none. -/
theorem History.getCode_creation {g : Genesis} {z : Block} {zs : List Block} {s : StateDB}
    (hh : History g (z :: zs) s) (hlen : (z :: zs).length ≤ 2 ^ 64) (hg : g.state.NoCode)
    (hinj : NoCreateCollision (txsOf (z :: zs).reverse.tail)) {y : Block} {ys : List Block}
    (hy : y :: ys <:+ z :: zs) (hne : ys ≠ []) {tx : Transaction}
    (htx : tx ∈ y.transactions.toList) (hcreate : tx.isCreate = true) {x : Block} {xs : List Block}
    (hx : x :: xs <:+ z :: zs) {sx : StateDB} (hsx : History g (x :: xs) sx) :
    sx.getCode (Address.create tx.sender tx.nonce)
      = if y.header.number ≤ x.header.number then tx.data.toList else [] := by
  obtain ⟨⟨sy, hsy⟩, hynum⟩ := hh.number_of_suffix hlen hy
  obtain ⟨-, hxnum⟩ := hh.number_of_suffix hlen hx
  have hxinj := hinj.mono (txsOf_tail_subset (List.cons_ne_nil x xs) hx)
  have hyinj := hinj.mono (txsOf_tail_subset (List.cons_ne_nil y ys) hy)
  have htxy : tx ∈ txsOf (y :: ys).reverse.tail := by
    rw [txsOf_tail_cons hne]
    exact List.mem_append_right _ htx
  simp only [UInt64.le_iff_toNat_le, hynum, hxnum]
  split
  · next hle =>
    have hsub : y :: ys <:+ x :: xs := by
      rcases List.suffix_or_suffix_of_suffix hy hx with h | h
      · exact h
      · rw [h.eq_of_length (by have := h.length_le; simp at this ⊢; omega)]
    have hcode := (hsx.code_iff hg hxinj).mpr
      (mem_creations.mpr
        ⟨tx, txsOf_tail_subset (List.cons_ne_nil y ys) hsub htxy, hcreate, rfl, rfl⟩)
    rw [StateDB.getCode, hcode]
    rfl
  · next hlt =>
    have hsub : x :: xs <:+ ys := by
      rcases List.suffix_or_suffix_of_suffix hx hy with h | h
      · rcases List.suffix_cons_iff.mp h with heq | h
        · cases heq
          exact absurd le_rfl hlt
        · exact h
      · exact absurd (by have := h.length_le; simp at this; exact this) hlt
    have hnone : sx.code[Address.create tx.sender tx.nonce]? = none := by
      refine Option.eq_none_iff_forall_ne_some.mpr fun code hcode => ?_
      obtain ⟨tx', htx', hcreate', hto, -⟩ := mem_creations.mp ((hsx.code_iff hg hxinj).mp hcode)
      have hbelow := txsOf_tail_subset (List.cons_ne_nil x xs) hsub htx'
      have hall : tx' ∈ txsOf (y :: ys).reverse.tail := by
        rw [txsOf_tail_cons hne]
        exact List.mem_append_left _ hbelow
      exact hsy.nonce_once hne htx hbelow (hyinj tx' hall tx htxy hcreate' hcreate hto)
    rw [StateDB.getCode, hnone]
    rfl

end

end Ivory
