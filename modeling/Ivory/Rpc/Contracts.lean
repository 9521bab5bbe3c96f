import Ivory.Chain.Contracts
import Ivory.Rpc.Logs
import Ivory.Rpc.Lookups

/-!
# Contracts over RPC

A tool that deploys a contract sends a transaction without a recipient, waits for its receipt, and
takes `contractAddress` from it (`deploy.rs`).  The handler computes that address from the sender
and the nonce of the transaction, and so does the executor when it writes the code.

* `RpcContext.contract_answers`: **the code is found at the address of the receipt, at the block of
  the creation and at every later height, and at no earlier one.**
-/

namespace Ivory

open BlockStore

section

variable [Keccak] [Ed25519] [Wasmi]

/-- A transaction above the genesis stands at one place of the chain: no later block has it
again. -/
theorem HeldAt.eq_block {g : Genesis} {z : Block} {zs : List Block} {s : StateDB} {lo : ℕ}
    (hh : History g (z :: zs) s) (hlen : (z :: zs).length ≤ 2 ^ 64) {hash : H256} {y y' : Block}
    {i' : ℕ} {ys : List Block} {tx : Transaction} (hsub : y :: ys <:+ z :: zs) (hne : ys ≠ [])
    (htx : tx ∈ y.transactions.toList) (hheld : HeldAt z zs lo hash y' i' tx)
    (hle : y.header.number ≤ y'.header.number) : y' = y := by
  obtain ⟨ys', hsub'⟩ := hheld.canonical
  obtain ⟨⟨s', hs'⟩, hnum'⟩ := hh.number_of_suffix hlen hsub'
  obtain ⟨-, hnum⟩ := hh.number_of_suffix hlen hsub
  rw [UInt64.le_iff_toNat_le, hnum, hnum'] at hle
  rcases List.suffix_or_suffix_of_suffix hsub hsub' with h | h
  · rcases List.suffix_cons_iff.mp h with heq | h
    · cases heq
      rfl
    · have hmem : tx ∈ txsOf ys'.reverse.tail := by
        refine txsOf_tail_subset (List.cons_ne_nil y ys) h ?_
        rw [txsOf_tail_cons hne]
        exact List.mem_append_right _ htx
      have hne' : ys' ≠ [] := by
        rintro rfl
        exact nomatch List.suffix_nil.mp h
      exact absurd ⟨rfl, rfl⟩ (hs'.nonce_once hne' (List.mem_of_getElem? hheld.at_index) hmem)
  · have hlen := h.length_le
    rw [List.length_cons, List.length_cons] at hlen
    cases h.eq_of_length (by simp; omega)
    rfl

namespace RpcContext

/-- **Deployed contracts.**  After every run, for every creation on the canonical chain above the
genesis: wherever the node answers for a state, the code at the address of the creation is its data
from the block of the creation on, and empty below; and while that block is whole, the receipt of
the transaction is found and names the address. -/
theorem contract_answers (g : Genesis) (hg : g.state.NoCode) (pool : TransactionPool)
    (ops : List ChainOp) (hz : ChainOp.NoZeroHash g ops) (hlen : ops.length + 1 < 2 ^ 64)
    {k : ℕ} (hkeep : ChainOp.Keeps k ops) (ctx : RpcContext)
    (hctx : ctx.chain = (ChainOp.run g pool ops).cs)
    (hall : ctx.allowMethods = none)
    (hinj : ∀ h, ctx.chain.store.head = some h →
      NoCreateCollision (txsOf ((ChainOp.run g pool ops).chain h))
      ∧ Set.InjOn Transaction.hash {tx | tx ∈ txsOf ((ChainOp.run g pool ops).chain h)}) :
    ∃ z zs lo, (ChainOp.run g pool ops).chain z.hash = (z :: zs).reverse
      ∧ History g (z :: zs) ctx.chain.live ∧ lo ≤ z.header.number.toNat - (k - 1)
      ∧ ∀ y ys tx, y :: ys <:+ z :: zs → ys ≠ [] → tx ∈ y.transactions.toList →
        tx.isCreate = true →
        (∀ x xs, x :: xs <:+ z :: zs → lo ≤ x.header.number.toNat →
          ctx.result .getCode [.fixed (Address.create tx.sender tx.nonce), .qty x.header.number]
            = some (.ok (.bytes
              (if y.header.number ≤ x.header.number then tx.data.toList else []))))
        ∧ (lo ≤ y.header.number.toNat → ∃ answer,
          ctx.result .getTransactionReceipt [.fixed tx.hash] = some (.ok answer)
          ∧ answer.field "blockNumber" = some (.qty y.header.number)
          ∧ answer.field "contractAddress"
            = some (.fixed (Address.create tx.sender tx.nonce))) := by
  obtain ⟨z, zs, lo, hchain, hdeep, hv⟩ := ChainOp.serves_run g pool ops hz hlen hkeep
  have hx := ChainOp.txIndexed_run g pool ops hz
  rw [← hctx] at hv hx
  obtain ⟨hcollide, hhash⟩ := hinj z.hash hv.head
  rw [hchain] at hcollide hhash
  have htail : txsOf (z :: zs).reverse.tail ⊆ txsOf (z :: zs).reverse :=
    fun tx htx => by
      obtain ⟨b, hb, htx⟩ := List.mem_flatMap.mp htx
      exact List.mem_flatMap.mpr ⟨b, List.mem_of_mem_tail hb, htx⟩
  refine ⟨z, zs, lo, hchain, hv.history, hdeep, fun y ys tx hsub hne htx hcreate => ⟨?_, ?_⟩⟩
  · intro x xs hsubx hle
    obtain ⟨sx, hsx, hstate⟩ := stateForTag_whole hv hsubx hle
    have hread := result_reading_at hall (.code (Address.create tx.sender tx.nonce)) x.header.number
    rw [hstate] at hread
    refine hread.trans ?_
    show some (Except.ok (Value.bytes (sx.getCode (Address.create tx.sender tx.nonce)))) = _
    rw [hv.history.getCode_creation hv.length.le hg (hcollide.mono htail) hsub hne htx hcreate hsubx
      hsx]
  · intro hle
    obtain ⟨i, hi⟩ := List.mem_iff_getElem?.mp htx
    have hheld : HeldAt z zs lo tx.hash y i tx := ⟨⟨ys, hsub⟩, hle, hi, rfl⟩
    rcases hv.getTransaction_cases hx tx.hash with ⟨y', i', tx', hheld', hlast, hget⟩ | ⟨hnone, -⟩
    · have hmem : ∀ y i tx', HeldAt z zs lo tx.hash y i tx' → tx' ∈ txsOf (z :: zs).reverse := by
        rintro y i tx' ⟨⟨ys, hsub⟩, -, htx', -⟩
        exact List.mem_flatMap.mpr ⟨y, List.mem_reverse.mpr (hsub.subset List.mem_cons_self),
          List.mem_of_getElem? htx'⟩
      obtain rfl : tx' = tx := hhash (hmem _ _ _ hheld') (hmem _ _ _ hheld) hheld'.hash_eq
      have hge : y.header.number ≤ y'.header.number := by
        rcases hlast y i tx' hheld with h | h
        · exact UInt64.le_of_lt h
        · exact UInt64.le_of_eq h.1
      obtain rfl := HeldAt.eq_block hv.history hv.length.le hsub hne htx hheld' hge
      obtain ⟨r, -, hres⟩ := result_receipt hall hv hheld' hget
      refine ⟨_, hres, rfl, ?_⟩
      show some (if tx'.isCreate = true then _ else _) = _
      rw [if_pos hcreate]
    · exact absurd hheld (hnone y i tx)

end RpcContext

end

namespace Devnet

/-- On the small network the code of the created contract is answered at the height of its block. -/
theorem contract_answers_create : ∃ z zs lo, lo ≤ z.header.number.toNat - 1
    ∧ History genesis (z :: zs) (ChainOp.run genesis TransactionPool.new createOps).cs.live
    ∧ ∀ y ys tx, y :: ys <:+ z :: zs → ys ≠ [] → tx ∈ y.transactions.toList → tx.isCreate = true →
      (context (ChainOp.run genesis TransactionPool.new createOps).cs).result .getCode
          [.fixed (Address.create tx.sender tx.nonce), .qty z.header.number]
        = some (.ok (.bytes
          (if y.header.number ≤ z.header.number then tx.data.toList else []))) := by
  have heval : genesisBlock.hash ≠ H256.zero ∧ (produced [create]).hash ≠ H256.zero
      ∧ (ChainOp.run genesis TransactionPool.new createOps).cs.store.head
        = some (produced [create]).hash
      ∧ txsOf ((ChainOp.run genesis TransactionPool.new createOps).chain (produced [create]).hash)
        = [create] := by decide +kernel
  obtain ⟨hgen, hne, hhead, htxs⟩ := heval
  have hz : ChainOp.NoZeroHash genesis createOps := by
    refine ⟨hgen, fun b hb => ?_⟩
    rw [ChainOp.importBlock.inj (List.mem_singleton.mp hb)]
    exact hne
  have hkeep : ChainOp.Keeps 2 createOps := fun keep h => nomatch List.mem_singleton.mp h
  obtain ⟨z, zs, lo, -, hh, hlo, hcode⟩ := RpcContext.contract_answers genesis noCode_state
    TransactionPool.new createOps hz (by decide) hkeep (context _) rfl rfl fun h hh => by
      rw [← Option.some.inj (hhead.symm.trans hh), htxs]
      refine ⟨fun tx htx tx' htx' _ _ _ => ?_, fun tx htx tx' htx' _ => ?_⟩
      · rw [List.mem_singleton.mp htx, List.mem_singleton.mp htx']
        exact ⟨rfl, rfl⟩
      · exact (List.mem_singleton.mp htx).trans (List.mem_singleton.mp htx').symm
  exact ⟨z, zs, lo, hlo, hh, fun y ys tx hsub hne htx hcreate =>
    (hcode y ys tx hsub hne htx hcreate).1 z zs List.suffix_rfl (hlo.trans (Nat.sub_le _ _))⟩

end Devnet

end Ivory
