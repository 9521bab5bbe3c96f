import Ivory.Rpc.Queries

/-!
# Transactions and receipts by hash

`eth_getTransactionByHash` asks the pool and then the index of the store;
`eth_getTransactionReceipt` asks the index.  The index also points into blocks whose bodies were
dropped, where nothing is found.

* `Serves.occurs_iff`: a transaction occurs in the store where it occurs in a whole block of the
  canonical chain.
* `RpcContext.lookup_answers`: **the transaction, its place and its receipt, or not found.**
-/

namespace Ivory

open BlockStore

section

variable [Keccak] [Ed25519] [Wasmi]

/-- A whole block of the chain holds a transaction with the hash at an index. -/
structure HeldAt (z : Block) (zs : List Block) (lo : ℕ) (hash : H256) (y : Block) (i : ℕ)
    (tx : Transaction) : Prop where
  canonical : ∃ ys, y :: ys <:+ z :: zs
  whole : lo ≤ y.header.number.toNat
  at_index : y.transactions.toList[i]? = some tx
  hash_eq : tx.hash = hash

/-- No such block is higher, and no such index in it. -/
def LastHeld (z : Block) (zs : List Block) (lo : ℕ) (hash : H256) (y : Block) (i : ℕ) : Prop :=
  ∀ y' i' tx', HeldAt z zs lo hash y' i' tx' → y'.header.number < y.header.number
    ∨ (y'.header.number = y.header.number ∧ i' ≤ i)

namespace Serves

variable {g : Genesis} {cs : ChainState} {z : Block} {zs : List Block} {lo : ℕ} {hash : H256}

theorem of_getBlockByNumber (hv : Serves g cs z zs lo) {n : UInt64} {b : Block}
    (hb : cs.store.getBlockByNumber n = some b) : ∃ y ys, y :: ys <:+ z :: zs
      ∧ y.header.number = n ∧ b = if lo ≤ y.header.number.toNat then y else y.stub := by
  obtain ⟨-, head, hhead, hle⟩ := hv.inv.of_canonical hb
  rw [hv.headBlock] at hhead
  cases hhead
  obtain ⟨y, ys, hsub, rfl⟩ := hv.exists_suffix hle
  rw [hv.getBlockByNumber hsub] at hb
  exact ⟨y, ys, hsub, rfl, (Option.some.inj hb).symm⟩

theorem occurs_iff (hv : Serves g cs z zs lo) {n : UInt64} {i : ℕ} {tx : Transaction} :
    cs.store.Occurs hash n i tx ↔ ∃ y, HeldAt z zs lo hash y i tx ∧ y.header.number = n := by
  constructor
  · rintro ⟨b, hb, htx, hhash⟩
    obtain ⟨y, ys, hsub, hnum, rfl⟩ := hv.of_getBlockByNumber hb
    split at htx
    · next hle => exact ⟨y, ⟨⟨ys, hsub⟩, hle, htx, hhash⟩, hnum⟩
    · cases htx
  · rintro ⟨y, ⟨⟨ys, hsub⟩, hle, htx, hhash⟩, rfl⟩
    exact ⟨y, by rw [hv.getBlockByNumber hsub, if_pos hle], htx, hhash⟩

/-- **The index finds the last occurrence.** -/
theorem getTransaction_cases (hv : Serves g cs z zs lo) (hx : TxIndexed cs.store) (hash : H256) :
    (∃ y i tx, HeldAt z zs lo hash y i tx ∧ LastHeld z zs lo hash y i
      ∧ cs.store.getTransaction hash = some (tx, ⟨y.hash, y.header.number, i⟩))
    ∨ ((∀ y i tx, ¬ HeldAt z zs lo hash y i tx) ∧ cs.store.getTransaction hash = none) := by
  cases hg : cs.store.getTransaction hash with
  | none =>
    refine .inr ⟨fun y i tx hheld => ?_, rfl⟩
    obtain ⟨r, hr⟩ := hx.getTransaction_of_occurs hv.inv (hv.occurs_iff.mpr ⟨y, hheld, rfl⟩)
    rw [hg] at hr
    cases hr
  | some r =>
    obtain ⟨tx, loc⟩ := r
    obtain ⟨hhash, ⟨b, hb, hbh, htx⟩, hlast⟩ := (hx.getTransaction_iff hv.inv).mp hg
    obtain ⟨y, hheld, hnum⟩ := hv.occurs_iff.mp ⟨b, hb, htx, hhash⟩
    obtain ⟨ys, hsub⟩ := hheld.canonical
    have hby : b = y := by
      rw [← hnum, hv.getBlockByNumber hsub, if_pos hheld.whole] at hb
      exact (Option.some.inj hb).symm
    subst hby
    refine .inl ⟨b, loc.index, tx, hheld, fun y' i' tx' h' => ?_, ?_⟩
    · rw [hnum]
      exact hlast _ _ _ (hv.occurs_iff.mpr ⟨y', h', rfl⟩)
    · rw [hbh, hnum]

end Serves

namespace RpcContext

/-- The receipt of a transaction that the index finds: a valid block has one for each. -/
theorem result_receipt {g : Genesis} {ctx : RpcContext} {z : Block} {zs : List Block} {lo : ℕ}
    (hall : ctx.allowMethods = none) (hv : Serves g ctx.chain z zs lo) {hash : H256} {y : Block}
    {i : ℕ} {tx : Transaction} (hheld : HeldAt z zs lo hash y i tx)
    (hg : ctx.chain.store.getTransaction hash = some (tx, ⟨y.hash, y.header.number, i⟩)) :
    ∃ r, y.receipts.toList[i]? = some r ∧ ctx.result .getTransactionReceipt [.fixed hash]
      = some (.ok (receiptToJson hash tx ⟨y.hash, y.header.number, i⟩ r)) := by
  have hparse : parseH256At (.array [.fixed hash]) 0 = .ok hash := parseH256At_fixed rfl
  obtain ⟨ys, hsub⟩ := hheld.canonical
  have hval := hv.history.valid y (hsub.subset List.mem_cons_self)
  obtain ⟨-, hcount, -⟩ := Block.validate_eq_ok.mp hval
  obtain ⟨hi, -⟩ := List.getElem?_eq_some_iff.mp hheld.at_index
  have hr : y.receipts.toList[i]? = some y.receipts.toList[i] := List.getElem?_eq_getElem _
  refine ⟨_, hr, ?_⟩
  rw [result_of_allows (allows_of_none hall _)]
  show some (ctx.getTransactionReceipt (.array [.fixed hash])) = _
  simp only [getTransactionReceipt, hparse, bind, Except.bind, hg, found,
    (hv.whole y ys hsub hheld.whole).1, hr]

/-- **Transactions and receipts by hash.**  After every run there is a height from which on lookups
answer for the canonical chain.  If a block from there on holds a transaction with the hash, the
last place that does is answered, with the receipt that the block has at that place; if none does,
no receipt is found.  A transaction in the pool is answered from there, without a place. -/
theorem lookup_answers (g : Genesis) (pool : TransactionPool) (ops : List ChainOp)
    (hz : ChainOp.NoZeroHash g ops) (hlen : ops.length + 1 < 2 ^ 64) {k : ℕ}
    (hkeep : ChainOp.Keeps k ops) (ctx : RpcContext)
    (hctx : ctx.chain = (ChainOp.run g pool ops).cs) (hall : ctx.allowMethods = none) :
    ∃ z zs lo, (ChainOp.run g pool ops).chain z.hash = (z :: zs).reverse
      ∧ History g (z :: zs) ctx.chain.live ∧ lo ≤ z.header.number.toNat - (k - 1)
      ∧ ∀ hash, (∀ e, ctx.chain.pool.pending[hash]? = some e →
          ctx.result .getTransactionByHash [.fixed hash] = some (.ok (txToJson e.tx none)))
        ∧ ((∃ y i tx r, HeldAt z zs lo hash y i tx ∧ LastHeld z zs lo hash y i
            ∧ y.receipts.toList[i]? = some r
            ∧ ctx.result .getTransactionReceipt [.fixed hash]
              = some (.ok (receiptToJson hash tx ⟨y.hash, y.header.number, i⟩ r))
            ∧ (ctx.chain.pool.pending[hash]? = none →
              ctx.result .getTransactionByHash [.fixed hash]
                = some (.ok (txToJson tx (some ⟨y.hash, y.header.number, i⟩)))))
          ∨ ((∀ y i tx, ¬ HeldAt z zs lo hash y i tx)
            ∧ ctx.result .getTransactionReceipt [.fixed hash] = some (.error .transactionNotFound)
            ∧ (ctx.chain.pool.pending[hash]? = none →
              ctx.result .getTransactionByHash [.fixed hash]
                = some (.error .transactionNotFound)))) := by
  obtain ⟨z, zs, lo, hchain, hdeep, hv⟩ := ChainOp.serves_run g pool ops hz hlen hkeep
  have hx := ChainOp.txIndexed_run g pool ops hz
  rw [← hctx] at hv hx
  refine ⟨z, zs, lo, hchain, hv.history, hdeep, fun hash => ?_⟩
  have hparse : parseH256At (.array [.fixed hash]) 0 = .ok hash := parseH256At_fixed rfl
  have hby : ctx.result .getTransactionByHash [.fixed hash]
      = some (ctx.getTransactionByHash (.array [.fixed hash])) := by
    rw [result_of_allows (allows_of_none hall _)]
    rfl
  have hpending : ∀ e, ctx.chain.pool.pending[hash]? = some e →
      ctx.getTransactionByHash (.array [.fixed hash]) = .ok (txToJson e.tx none) := by
    intro e he
    simp only [getTransactionByHash, hparse, bind, Except.bind, he]
  rw [hby]
  refine ⟨fun e he => congrArg some (hpending e he), ?_⟩
  rcases hv.getTransaction_cases hx hash with ⟨y, i, tx, hheld, hlast, hg⟩ | ⟨hnone, hg⟩
  · obtain ⟨r, hr, hres⟩ := result_receipt hall hv hheld hg
    refine .inl ⟨y, i, tx, r, hheld, hlast, hr, hres, fun hpool => ?_⟩
    simp only [getTransactionByHash, hparse, bind, Except.bind, hpool, hg, found]
  · refine .inr ⟨hnone, ?_, fun hpool => ?_⟩
    · rw [result_of_allows (allows_of_none hall _)]
      show some (ctx.getTransactionReceipt (.array [.fixed hash])) = _
      simp only [getTransactionReceipt, hparse, bind, Except.bind, hg, found]
    · simp only [getTransactionByHash, hparse, bind, Except.bind, hpool, hg, found]

end RpcContext

end

namespace Devnet

/-- On the small network every hash is answered with a receipt or not found. -/
theorem lookup_answers_chainOps : chainOps.length + 1 < 2 ^ 64
    ∧ ∀ hash, (∃ tx loc r, (context (ChainOp.run genesis TransactionPool.new chainOps).cs).result
          .getTransactionReceipt [.fixed hash] = some (.ok (receiptToJson hash tx loc r)))
      ∨ (context (ChainOp.run genesis TransactionPool.new chainOps).cs).result
          .getTransactionReceipt [.fixed hash] = some (.error .transactionNotFound) := by
  obtain ⟨z, zs, lo, -, -, -, hlook⟩ := RpcContext.lookup_answers genesis TransactionPool.new
    chainOps noZeroHash_chainOps (by decide) keeps_chainOps (context _) rfl rfl
  refine ⟨by decide, fun hash => ?_⟩
  obtain ⟨-, ⟨y, i, tx, r, -, -, -, hrec, -⟩ | ⟨-, hrec, -⟩⟩ := hlook hash
  · exact .inl ⟨tx, _, r, hrec⟩
  · exact .inr hrec

end Devnet

end Ivory
