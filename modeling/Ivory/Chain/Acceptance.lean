import Ivory.Chain.Agreement

/-!
# What acceptance establishes

An import executes the transactions of a block and compares the state root, the
number of receipts and the two list roots.  It does not compare the receipts and
the gas of the header with those of the execution, and it does not look at
signatures; receipts are right and signatures checked because of how an honest
producer builds a block from its pool.

* `ChainState.importAndApply_ok`: what any accepted block satisfies, on any store.
* `ChainState.accepted_receipts`: **accepted receipts have the right number and root**, and
  a produced block has the receipts and the gas of its execution.
* `ChainState.accepted_spending`: **a balance falls only through a transaction that names
  its owner as the sender**, and what a pool admits is signed by its sender.
-/

namespace Ivory

open BlockStore

/-! ### Acceptance on any store -/

theorem BlockStore.insertValidated_hash [Keccak] {store store' : BlockStore} {b : Block}
    {outcome : InsertOutcome} (h : store.insertValidated b = (.ok outcome, store')) :
    outcome.hash = b.hash := by
  unfold insertValidated at h
  simp only at h
  split at h
  · cases h
  · cases h
    rfl

theorem ExecutedAll.gasUsed [Keccak] {cfg : GasConfig}
    (hcfg : cfg.maxGasPerBlock < UInt64.maxValue) {s s' : StateDB} {ctx ctx' : ExecutionContext}
    {txs : List Transaction} {outs : List ExecutionOutcome}
    (h : ExecutedAll cfg s ctx txs outs s' ctx') :
    ctx'.gasUsed.toNat = ctx.gasUsed.toNat + (outs.map fun out => out.gasUsed.toNat).sum := by
  induction h with
  | nil => rfl
  | cons hx _ ih =>
    rw [ih, (hx.gasUsed_ctx hcfg).1, List.map_cons, List.sum_cons]
    omega

/-- A balance falls only through a transaction that names its owner as the sender. -/
theorem ExecutedAll.exists_sender [Keccak] {cfg : GasConfig} {s s' : StateDB}
    {ctx ctx' : ExecutionContext} {txs : List Transaction} {outs : List ExecutionOutcome}
    (h : ExecutedAll cfg s ctx txs outs s' ctx') {a : Address} (hlt : s'.balance a < s.balance a) :
    ∃ tx ∈ txs, tx.sender = a := by
  induction h with
  | nil => exact absurd hlt (lt_irrefl _)
  | @cons s s₁ s₂ ctx ctx₁ ctx₂ tx txs out outs hx _ ih =>
    by_cases ha : a = tx.sender
    · exact ⟨tx, List.mem_cons_self, ha.symm⟩
    · have hbal := hx.balance a
      rw [if_neg ha] at hbal
      obtain ⟨tx', hmem, hs⟩ := ih (by omega)
      exact ⟨tx', List.mem_cons_of_mem _ hmem, hs⟩

section

variable [Keccak] [Ed25519] [Wasmi]

theorem ChainState.importAndApply_ok {cs cs' : ChainState} {b : Block} {outcome : InsertOutcome}
    (h : cs.importAndApply b = (.ok outcome, cs')) :
    ∃ pre outs post ctx, cs.store.stateAt b.header.parentHash = some pre
      ∧ executeBlock pre b = .ok (outs, post, ctx) ∧ post.rootHash.1 = b.header.stateRoot
      ∧ b.validate = .ok () ∧ cs'.store.stateAt b.hash = some post.rootHash.2 := by
  unfold importAndApply at h
  split at h
  · cases h
  next pre hpre =>
  split at h
  · cases h
  next outs post ctx hexec =>
  simp only at h
  split at h
  · cases h
  next hroot =>
  rcases insertBlock_checks cs.store b with ⟨e, he⟩ | ⟨-, hval, heq⟩
  · rw [he] at h
    cases h
  · rw [heq] at h
    split at h
    · cases h
    next outcome' store' hins =>
    cases h
    refine ⟨pre, outs, post, ctx, hpre, hexec, not_not.mp hroot, hval, ?_⟩
    have hstore : (if outcome.headChanged = true then
        ({ cs with store := store'.recordState outcome.hash post.rootHash.2.fork }
          : ChainState).applyHeadChange outcome
        else { cs with store := store'.recordState outcome.hash post.rootHash.2.fork }).store
        = store'.recordState outcome.hash post.rootHash.2.fork := by
      split <;> rfl
    rw [hstore, insertValidated_hash hins, stateAt, recordState, Table.get_insert_self]
    rfl

/-! ### Receipts -/

theorem Produced.receipts_of_root {producer : BlockProducer} {params : ProduceParams} {b : Block}
    (hp : Produced producer params b) {outs : List ExecutionOutcome} {post : StateDB}
    {ctx : ExecutionContext} (hexec : executeBlock params.state b = .ok (outs, post, ctx))
    (hroot : post.rootHash.1 = b.header.stateRoot)
    (hcf : CollisionFree (params.executed.2.1.rootEncodings ∪ post.rootEncodings)) :
    b.receipts.toList = outs.map ExecutionOutcome.receipt
      ∧ b.header.gasUsed.toNat = (outs.map fun out => out.gasUsed.toNat).sum := by
  rw [hp.stateRoot] at hroot
  have hclean := hp.late_eq_nil hexec (StateDB.nonce_eq_of_rootHash_eq hcf
    Set.subset_union_right Set.subset_union_left hroot)
  obtain ⟨outs', hexec', hrec⟩ := hp.executeBlock_of_clean hclean
  cases hexec.symm.trans hexec'
  have hgas := (executedAll_of_ok hexec).gasUsed (by decide)
  refine ⟨hrec.symm, ?_⟩
  rw [hp.gasUsed]
  exact hgas.trans (Nat.zero_add _)

/-- **What an accepted block says about its execution.**  All its transactions execute on the state
of the parent and lead to its state root; it has one receipt for each, they hash to the receipts
root, and its gas is at most its limit.  If `produce_block` built it on that state, its receipts are
exactly those of the execution and its gas is their sum. -/
theorem ChainState.accepted_receipts (cs cs' : ChainState) (b : Block) (outcome : InsertOutcome)
    (h : cs.importAndApply b = (.ok outcome, cs')) :
    ∃ pre outs post ctx, cs.store.stateAt b.header.parentHash = some pre
      ∧ executeBlock pre b = .ok (outs, post, ctx) ∧ post.rootHash.1 = b.header.stateRoot
      ∧ outs.length = b.transactions.toList.length
      ∧ b.receipts.toList.length = b.transactions.toList.length
      ∧ listRoot Receipt.codec b.receipts = b.header.receiptsRoot
      ∧ b.header.gasUsed ≤ b.header.gasLimit
      ∧ ∀ producer params, params.state = pre →
        (BlockProducer.produceBlock producer params).1 = .ok b →
        CollisionFree (params.executed.2.1.rootEncodings ∪ post.rootEncodings) →
        b.receipts.toList = outs.map ExecutionOutcome.receipt
        ∧ b.header.gasUsed.toNat = (outs.map fun out => out.gasUsed.toNat).sum := by
  obtain ⟨pre, outs, post, ctx, hpre, hexec, hroot, hval, -⟩ := importAndApply_ok h
  obtain ⟨hgas, hlen, -, hrec⟩ := Block.validate_eq_ok.mp hval
  refine ⟨pre, outs, post, ctx, hpre, hexec, hroot, (executedAll_of_ok hexec).length_eq, hlen.symm,
    hrec.symm, hgas, ?_⟩
  rintro producer params rfl hb hcf
  exact (BlockProducer.produced_of_ok hb).receipts_of_root hexec hroot hcf

end

namespace Devnet

/-- The chain state of the small network, with transactions in the pool. -/
def start (txs : List Transaction) : ChainState :=
  ⟨StoreOp.run consensus genesisOps, state, poolOf txs⟩

/-- An import that the evaluation shows to succeed. -/
theorem importAndApply_of_isSome {cs : ChainState} {b : Block}
    (h : (cs.importAndApply b).1.toOption.isSome = true) :
    ∃ outcome, cs.importAndApply b = (.ok outcome, (cs.importAndApply b).2) := by
  rcases hr : cs.importAndApply b with ⟨r, cs'⟩
  rw [hr] at h
  cases r with
  | error e => cases h
  | ok outcome => exact ⟨outcome, rfl⟩

/-- One transfer, with a receipt for another transaction and no gas. -/
def forged : Block :=
  build 1 genesisBlock.hash 1 0 blockA.header.stateRoot [transfer 0]
    [⟨H256.zero, 7, 0, false, Vec.empty⟩]

/-- **A false receipt is accepted**, and so is a header that counts no gas. -/
theorem forged_receipt_accepted :
    (∃ outcome, (start []).importAndApply forged
      = (.ok outcome, ((start []).importAndApply forged).2))
    ∧ ∃ outs post ctx, executeBlock state forged = .ok (outs, post, ctx)
      ∧ forged.receipts.toList ≠ outs.map ExecutionOutcome.receipt
      ∧ forged.header.gasUsed.toNat ≠ (outs.map fun out => out.gasUsed.toNat).sum := by
  have heval : ((start []).importAndApply forged).1.toOption.isSome = true
      ∧ ((executeBlock state forged).toOption.map fun r =>
        (decide (forged.receipts.toList ≠ r.1.map ExecutionOutcome.receipt),
          decide (forged.header.gasUsed.toNat ≠ (r.1.map fun out => out.gasUsed.toNat).sum)))
        = some (true, true) := by decide +kernel
  obtain ⟨himp, hdiff⟩ := heval
  refine ⟨importAndApply_of_isSome himp, ?_⟩
  cases hexec : executeBlock state forged with
  | error e => rw [hexec] at hdiff; cases hdiff
  | ok r =>
    rw [hexec] at hdiff
    obtain ⟨hrec, hgas⟩ := Prod.mk.inj (Option.some.inj hdiff)
    exact ⟨r.1, r.2.1, r.2.2, rfl, of_decide_eq_true hrec, of_decide_eq_true hgas⟩

/-- The small network imports the block of a transfer, and the user spends in it. -/
theorem imported_transfer :
    ((start [transfer 0]).importAndApply (produced [transfer 0])).1.toOption.isSome = true
    ∧ (produced [transfer 0]).header.parentHash = genesisBlock.hash
    ∧ (((start [transfer 0]).importAndApply (produced [transfer 0])).2.store.stateAt
      (produced [transfer 0]).hash).map
        (fun post => decide (post.balance user < state.balance user)) = some true := by
  decide +kernel

/-- The block of a transfer that a node of the small network produces and accepts. -/
theorem accepted_receipts_transfer : ∃ outs post ctx,
    executeBlock state (produced [transfer 0]) = .ok (outs, post, ctx)
      ∧ (produced [transfer 0]).receipts.toList = outs.map ExecutionOutcome.receipt
      ∧ (produced [transfer 0]).header.gasUsed.toNat
        = (outs.map fun out => out.gasUsed.toNat).sum := by
  obtain ⟨himp, hparent, -⟩ := imported_transfer
  obtain ⟨outcome, h⟩ := importAndApply_of_isSome himp
  obtain ⟨pre, outs, post, ctx, hpre, hexec, -, -, -, -, -, hprod⟩ :=
    ChainState.accepted_receipts _ _ _ _ h
  obtain rfl : state = pre := by
    rw [hparent] at hpre
    exact Option.some.inj ((ready_params []).snapshot.symm.trans hpre)
  have hcf : CollisionFree ((params (entriesOf (poolOf [transfer 0]))).executed.2.1.rootEncodings
      ∪ post.rootEncodings) := by
    refine collisionFree_transfer.mono (Set.union_subset (fun e he => ?_) fun e he => ?_)
    · exact .inr (.inr (.inl he))
    · exact .inr (.inr (.inr ⟨outs, post, ctx, hexec, he⟩))
  exact ⟨outs, post, ctx, hexec, hprod BlockProducer.new (params (entriesOf (poolOf [transfer 0])))
    rfl produced_transfer hcf⟩

end Devnet

section

variable [Keccak] [Ed25519] [Wasmi]

/-! ### Signatures -/

theorem Produced.exists_pending {producer : BlockProducer} {params : ProduceParams} {b : Block}
    (hp : Produced producer params b) {pool : TransactionPool} (hi : pool.Iterates params.entries)
    {tx : Transaction} (htx : tx ∈ b.transactions.toList) :
    ∃ (hash : H256) (entry : PendingTx), pool.pending[hash]? = some entry ∧ entry.tx = tx := by
  rw [hp.transactions] at htx
  obtain ⟨entry, hentry, rfl⟩ :=
    ProduceParams.mem_candidates ((executeEach_sublist _ _ _ _).subset htx)
  obtain ⟨hash, hget⟩ := TransactionPool.mem_of_iterates hi hentry
  exact ⟨hash, entry, hget, rfl⟩

/-- **Who spends on an imported chain.**  If a block is accepted, a balance after it is below the
balance before it only if the block has a transaction that names the owner as its sender.
Signatures are checked at the pool: if `produce_block` built the block from what a pool admitted,
all its transactions are signed by their senders, and so is the one that spends. -/
theorem ChainState.accepted_spending (cs cs' : ChainState) (b : Block) (outcome : InsertOutcome)
    (h : cs.importAndApply b = (.ok outcome, cs')) :
    ∃ pre post, cs.store.stateAt b.header.parentHash = some pre
      ∧ cs'.store.stateAt b.hash = some post
      ∧ (∀ a, post.balance a < pre.balance a → ∃ tx ∈ b.transactions.toList, tx.sender = a)
      ∧ ∀ config ops producer params, (PoolOp.run config ops).Iterates params.entries →
        (BlockProducer.produceBlock producer params).1 = .ok b →
        (∀ tx ∈ b.transactions.toList, recoverSender tx = .ok tx.sender)
        ∧ ∀ a, post.balance a < pre.balance a →
          ∃ tx ∈ b.transactions.toList, recoverSender tx = .ok a := by
  obtain ⟨pre, outs, post, ctx, hpre, hexec, -, -, hpost⟩ := importAndApply_ok h
  have hspend : ∀ a, post.rootHash.2.balance a < pre.balance a →
      ∃ tx ∈ b.transactions.toList, tx.sender = a := by
    intro a hlt
    rw [(post.ledger_rootHash a).2] at hlt
    exact (executedAll_of_ok hexec).exists_sender hlt
  refine ⟨pre, post.rootHash.2, hpre, hpost, hspend, ?_⟩
  intro config ops producer params hi hb
  have hsigned : ∀ tx ∈ b.transactions.toList, recoverSender tx = .ok tx.sender := by
    intro tx htx
    obtain ⟨hash, entry, hget, rfl⟩ := (BlockProducer.produced_of_ok hb).exists_pending hi htx
    exact PoolOp.signed_run config ops hash entry hget
  refine ⟨hsigned, fun a hlt => ?_⟩
  obtain ⟨tx, htx, rfl⟩ := hspend a hlt
  exact ⟨tx, htx, hsigned tx htx⟩

end

namespace Devnet

/-- The transfer of the user with a signature that is none. -/
def unsigned : Transaction := { transfer 0 with signature := Arr.replicate 64 0 }

/-- A block that spends what the user owns without a signature. -/
def theft : Block := next state genesisBlock 1 [unsigned]

/-- **An unsigned transaction is accepted** in a sealed block, and the balance of the account it
names falls. -/
theorem unsigned_transfer_accepted :
    (∃ outcome, (start []).importAndApply theft
      = (.ok outcome, ((start []).importAndApply theft).2))
    ∧ unsigned ∈ theft.transactions.toList ∧ unsigned.sender = user
    ∧ recoverSender unsigned = .error .invalidSignature
    ∧ ∃ post, ((start []).importAndApply theft).2.store.stateAt theft.hash = some post
      ∧ post.balance user < state.balance user := by
  have heval : ((start []).importAndApply theft).1.toOption.isSome = true
      ∧ (((start []).importAndApply theft).2.store.stateAt theft.hash).map
        (fun post => decide (post.balance user < state.balance user)) = some true
      ∧ unsigned ∈ theft.transactions.toList ∧ unsigned.sender = user
      ∧ recoverSender unsigned = .error .invalidSignature := by decide +kernel
  obtain ⟨himp, hpost, hmem, hsender, hsig⟩ := heval
  refine ⟨importAndApply_of_isSome himp, hmem, hsender, hsig, ?_⟩
  obtain ⟨post, hget, hlt⟩ := Option.map_eq_some_iff.mp hpost
  exact ⟨post, hget, of_decide_eq_true hlt⟩

theorem iterates_params (txs : List Transaction) :
    (PoolOp.run PoolConfig.default (txs.map fun tx => .add tx .local 0)).Iterates
      (params (entriesOf (poolOf txs))).entries := by
  have hrun : PoolOp.run PoolConfig.default (txs.map fun tx => .add tx .local 0) = poolOf txs :=
    List.foldl_map
  rw [hrun]
  exact List.Perm.refl _

/-- In the block of a transfer that a node of the small network produces and accepts, the user
spends with a signature. -/
theorem accepted_spending_transfer :
    ∃ tx ∈ (produced [transfer 0]).transactions.toList, recoverSender tx = .ok user := by
  obtain ⟨himp, hparent, hpost⟩ := imported_transfer
  obtain ⟨outcome, h⟩ := importAndApply_of_isSome himp
  obtain ⟨pre, post, hpre, hget, -, hprod⟩ := ChainState.accepted_spending _ _ _ _ h
  obtain rfl : state = pre := by
    rw [hparent] at hpre
    exact Option.some.inj ((ready_params []).snapshot.symm.trans hpre)
  rw [hget] at hpost
  obtain ⟨-, hspend⟩ := hprod _ _ _ _ (iterates_params [transfer 0]) produced_transfer
  exact hspend user (of_decide_eq_true (Option.some.inj hpost))

end Devnet

end Ivory
