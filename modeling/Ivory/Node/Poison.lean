import Ivory.Node.Confirmation

/-!
# A transaction that stalls the chain

`produce_block` leaves out a transaction that fails, but not what it wrote before it failed: the
state root is that of a state in which the sender has paid.  An importer executes the included
transactions only, arrives at another root, and refuses.  The refused block was built from the
pool, the transaction stays there, and the next tick builds on it again.

* `Poison`: a call that passes the first checks, of code that fails on every state.
* `Spared`: what the transactions before it leave to it.
* `Stalled`: a node with such a transaction in its pool; `Stalled.tick`: one tick.
* `Node.stalled_run`: **nothing is ever confirmed**, whatever is submitted and however often the
  producer ticks, while all that is pending fits in one block.
-/

namespace Ivory

open BlockStore

section

variable [Keccak] [Wasmi]

/-! ### Executing what comes before -/

/-- **Nobody but the sender loses**, whether a transaction succeeds or fails. -/
theorem balance_le_executeTransaction (cfg : GasConfig) (s : StateDB) (ctx : ExecutionContext)
    {tx : Transaction} {a : Address} (ha : a ≠ tx.sender) :
    s.balance a ≤ (executeTransaction cfg s ctx tx).2.1.balance a := by
  cases hc : precheck cfg s ctx tx with
  | error e => rw [executeTransaction_of_precheck_error hc]
  | ok checked =>
    have hset : (s.setAccount tx.sender checked.sender).balance a = s.balance a := by
      rw [StateDB.balance_setAccount, if_neg ha]
    rcases hx : executeTransaction cfg s ctx tx with ⟨e | out, s', ctx'⟩
    · rcases state_of_error hc hx with rfl | ⟨s₁, hcr, rfl⟩
      · exact hset.ge
      · show s.balance a ≤ (executeCall _ s₁ _).2.balance a
        rw [(executeCall_ledger _ _ _ a).2, (credit_eq_ok hcr).2 a, hset]
        exact Nat.le_add_right _ _
    · have hbal := (executeTransaction_eq_ok hx).balance a
      rw [if_neg ha] at hbal
      show s.balance a ≤ s'.balance a
      omega

/-- What others leave to a sender and to a contract. -/
structure Spared (sender callee : Address) (s s' : StateDB) : Prop where
  nonce : s'.nonce sender = s.nonce sender
  balance : s.balance sender ≤ s'.balance sender
  code : s'.getCode callee = s.getCode callee

omit [Keccak] [Wasmi] in
theorem Spared.trans {sender callee : Address} {s s' s'' : StateDB} (h : Spared sender callee s s')
    (h' : Spared sender callee s' s'') : Spared sender callee s s'' :=
  ⟨h'.nonce.trans h.nonce, h.balance.trans h'.balance, h'.code.trans h.code⟩

/-- One transaction of another sender, or of the sender with another nonce than that of its account,
that does not create the contract. -/
theorem spared_executeTransaction {sender callee : Address} (cfg : GasConfig) (s : StateDB)
    (ctx : ExecutionContext) {tx : Transaction}
    (hs : tx.sender = sender → tx.nonce ≠ s.nonce sender)
    (hcreate : tx.recipient = none → tx.target ≠ callee) :
    Spared sender callee s (executeTransaction cfg s ctx tx).2.1 := by
  cases hc : precheck cfg s ctx tx with
  | error e =>
    rw [executeTransaction_of_precheck_error hc]
    exact ⟨rfl, le_rfl, rfl⟩
  | ok checked =>
    have hne : sender ≠ tx.sender := by
      rintro rfl
      exact hs rfl (precheck_eq_ok hc).nonce_eq.symm
    refine ⟨?_, balance_le_executeTransaction cfg s ctx hne,
      getCode_executeTransaction cfg s ctx fun h => hcreate h.1 h.2.symm⟩
    have hnonce := nonce_executeTransaction hc sender
    rw [if_neg hne] at hnonce
    exact UInt64.toNat_inj.mp hnonce

/-- **Such transactions**, however they end, and the gas they can use. -/
theorem spared_executeEach {sender callee : Address} (cfg : GasConfig) :
    ∀ (txs : List Transaction) (s : StateDB) (ctx : ExecutionContext),
      (∀ tx ∈ txs, (tx.sender = sender → tx.nonce ≠ s.nonce sender)
        ∧ (tx.recipient = none → tx.target ≠ callee)) →
      Spared sender callee s (executeEach cfg s ctx txs).2.1
        ∧ (executeEach cfg s ctx txs).2.2.gasUsed.toNat
          ≤ ctx.gasUsed.toNat + (txs.map fun tx => tx.gas.toNat).sum := by
  intro txs
  induction txs with
  | nil => intro s ctx _; exact ⟨⟨rfl, le_rfl, rfl⟩, Nat.le_add_right _ _⟩
  | cons tx txs ih =>
    intro s ctx h
    obtain ⟨hs, hcreate⟩ := h tx List.mem_cons_self
    have hone := spared_executeTransaction cfg s ctx hs hcreate
    have hrest : ∀ s₁ : StateDB, s₁.nonce sender = s.nonce sender → ∀ x ∈ txs,
        (x.sender = sender → x.nonce ≠ s₁.nonce sender)
          ∧ (x.recipient = none → x.target ≠ callee) := by
      intro s₁ hsame x hx
      rw [hsame]
      exact h x (List.mem_cons_of_mem _ hx)
    rw [List.map_cons, List.sum_cons]
    rcases executeEach_cons cfg s ctx tx txs with ⟨out, s₁, ctx₁, hx, heach, -⟩
      | ⟨heach, -⟩ | ⟨_, s₁, ctx₁, -, hx, rfl, heach, -⟩
    · rw [hx] at hone
      obtain ⟨hspared, hgas⟩ := ih s₁ ctx₁ (hrest s₁ hone.nonce)
      have hctx := (executeTransaction_eq_ok hx).gasUsed_le
      rw [heach]
      refine ⟨hone.trans hspared, ?_⟩
      show (executeEach cfg s₁ ctx₁ txs).2.2.gasUsed.toNat ≤ _
      omega
    · rw [heach]
      obtain ⟨hspared, hgas⟩ := ih s ctx (hrest s rfl)
      exact ⟨hspared, by omega⟩
    · rw [hx] at hone
      rw [heach]
      obtain ⟨hspared, hgas⟩ := ih s₁ ctx₁ (hrest s₁ hone.nonce)
      exact ⟨hone.trans hspared, by omega⟩

theorem lateFailures_append (cfg : GasConfig) : ∀ (txs txs' : List Transaction) (s : StateDB)
    (ctx : ExecutionContext), lateFailures cfg s ctx (txs ++ txs')
      = lateFailures cfg s ctx txs
        ++ lateFailures cfg (executeEach cfg s ctx txs).2.1
          (executeEach cfg s ctx txs).2.2 txs' := by
  intro txs txs'
  induction txs with
  | nil => intro s ctx; rfl
  | cons tx txs ih =>
    intro s ctx
    rw [List.cons_append, lateFailures, lateFailures, executeEach]
    rcases executeTransaction cfg s ctx tx with ⟨e | out, s₁, ctx₁⟩
    · cases precheck cfg s ctx tx with
      | error e' => exact ih s₁ ctx₁
      | ok checked => exact congrArg (tx :: ·) (ih s₁ ctx₁)
    · exact ih s₁ ctx₁

/-! ### The transaction -/

/-- A call that passes the first checks on a state, of code that fails on every state. -/
structure Poison (cfg : GasConfig) (s : StateDB) (tx : Transaction) (callee : Address) : Prop where
  nonce : s.nonce tx.sender = tx.nonce
  usable : tx.Usable
  intrinsic : (computeIntrinsicGas tx cfg).toNat ≤ tx.gas.toNat
  balance : tx.cost ≤ s.balance tx.sender
  recipient : tx.recipient = some callee
  code : s.getCode callee ≠ []
  traps : ∀ t, ∃ e, (WasmVm.execute (s.getCode callee) t callee
    (tx.gas.saturatingSub (computeIntrinsicGas tx cfg)) tx.data.toList).1 = .error e

namespace Poison

variable {cfg : GasConfig} {s s' : StateDB} {tx : Transaction} {callee : Address}
  {ctx : ExecutionContext}

theorem late (hp : Poison cfg s tx callee) (hs : Spared tx.sender callee s s')
    (hroom : ctx.gasUsed.toNat + tx.gas.toNat ≤ cfg.maxGasPerBlock.toNat) (txs : List Transaction) :
    lateFailures cfg s' ctx (tx :: txs) ≠ [] := by
  have hpay : Payable cfg s' ctx tx := by
    refine ⟨hs.nonce.trans hp.nonce, hp.intrinsic, hp.balance.trans hs.balance, ?_, hp.usable⟩
    rw [UInt64.le_iff_toNat_le, UInt64.toNat_saturatingAdd]
    omega
  obtain ⟨checked, hc⟩ := hpay.precheck
  rcases hx : executeTransaction cfg s' ctx tx with ⟨e | out, s₁, ctx₁⟩
  · rw [lateFailures, hx, hc]
    exact List.cons_ne_nil _ _
  · -- the call cannot have succeeded
    exfalso
    have hleft : checked.meter.remaining = tx.gas.saturatingSub (computeIntrinsicGas tx cfg) := by
      have := (precheck_eq_ok hc).remaining
      rw [← UInt64.toNat_inj, UInt64.toNat_saturatingSub]
      omega
    rw [executeTransaction, hc] at hx
    obtain ⟨t, t', hsteps⟩ := settle_steps hx
    have hcode : t.getCode callee = s.getCode callee := by
      rw [StateDB.getCode, code_of_credit hp.recipient hsteps.credit]
      exact hs.code
    have hcall := hsteps.call
    rw [executeCall_of_callsCode ⟨hp.recipient, hcode ▸ hp.code⟩, hcode, hleft] at hcall
    obtain ⟨e, he⟩ := hp.traps t
    rw [WasmVm.execute_eq] at he
    split at hcall
    · cases hcall
    · next r t₁ hrun =>
      rw [hrun] at he
      cases he

/-- **Among transactions none of which takes its nonce there is a late failure.** -/
theorem late_of_mem (hp : Poison cfg s tx callee) {txs before after : List Transaction}
    (hsplit : txs = before ++ tx :: after)
    (hothers : ∀ x ∈ before, (x.sender = tx.sender → x.nonce ≠ s.nonce tx.sender)
      ∧ (x.recipient = none → x.target ≠ callee))
    (hroom : ctx.gasUsed.toNat + (txs.map fun x => x.gas.toNat).sum ≤ cfg.maxGasPerBlock.toNat) :
    lateFailures cfg s ctx txs ≠ [] := by
  obtain ⟨hspared, hgas⟩ := spared_executeEach cfg before s ctx hothers
  rw [hsplit, List.map_append, List.map_cons, List.sum_append, List.sum_cons] at hroom
  rw [hsplit, lateFailures_append]
  intro hnil
  exact hp.late hspared (by omega) after (List.append_eq_nil_iff.mp hnil).2

end Poison

/-! ### The node -/

variable [Ed25519]

/-- A node that has such a transaction in its pool.  The pending nonces of a sender differ, as
admission keeps them. -/
structure Stalled (n : Node) (h : H256) (s : StateDB) (tx : Transaction) (callee : Address) :
    Prop where
  inv : StoreInv n.chain.store
  head : n.chain.store.head = some h
  snapshot : n.chain.store.stateAt h = some s
  behind : n.chain.pool.Behind
  pending : tx ∈ n.chain.pool.transactions
  poison : Poison GasConfig.default s tx callee

/-- What is pending when the producer ticks fits in one block, and does not create the contract; no
hash collides when its block is imported. -/
structure Together (callee : Address) (producer : BlockProducer) (key : SecretKey)
    (order : IterOrder PendingTx) (n : Node) : Prop where
  few : n.chain.pool.pending.size ≤ 128
  room : (n.chain.pool.transactions.map fun tx => tx.gas.toNat).sum
    ≤ GasConfig.default.maxGasPerBlock.toNat
  others : ∀ other ∈ n.chain.pool.transactions, other.recipient = none → other.target ≠ callee
  collisionFree : ∀ parent state b, n.Builds producer order key parent state b →
    CollisionFree (agreementEncodings n.chain.store (n.produceParams order key parent state) b)

namespace Stalled

variable {n : Node} {h : H256} {s : StateDB} {tx : Transaction} {callee : Address}
  {producer : BlockProducer} {key : SecretKey} {order : IterOrder PendingTx}

theorem late (hn : Stalled n h s tx callee) (ht : Together callee producer key order n)
    (parent : Block) : (n.produceParams order key parent s).late ≠ [] := by
  have hperm : (n.produceParams order key parent s).candidates.Perm n.chain.pool.transactions :=
    ProduceParams.perm_candidates (order.perm _) ht.few
  obtain ⟨before, after, hsplit, hfirst⟩ :=
    List.eq_append_cons_of_mem (hperm.mem_iff.mpr hn.pending)
  refine hn.poison.late_of_mem hsplit (fun x hx => ⟨fun hsame hnonce => hfirst ?_, ?_⟩) ?_
  · -- one of the sender with the same nonce is the same
    have hxc : x ∈ (n.produceParams order key parent s).candidates := by
      rw [hsplit]
      exact List.mem_append_left _ hx
    obtain ⟨k, e, he, rfl⟩ := TransactionPool.mem_transactions.mp (hperm.mem_iff.mp hxc)
    obtain ⟨k', e', he', rfl⟩ := TransactionPool.mem_transactions.mp hn.pending
    have hkey := hn.behind.distinct k' k e' e he' he hn.poison.usable hsame.symm
      (hnonce.trans hn.poison.nonce).symm
    rw [hkey, he] at he'
    rw [← Option.some.inj he']
    exact hx
  · refine ht.others x (hperm.mem_iff.mp ?_)
    rw [hsplit]
    exact List.mem_append_left _ hx
  · have hsum := (hperm.map fun x => x.gas.toNat).sum_eq
    have hzero : (n.produceParams order key parent s).context.gasUsed.toNat = 0 := rfl
    rw [hsum, hzero, Nat.zero_add]
    exact ht.room

/-- **A tick changes nothing.** -/
theorem tick (hn : Stalled n h s tx callee) (ht : Together callee producer key order n) :
    (n.produce producer order key).1 = n
      ∧ ∀ call ∈ (n.produce producer order key).2,
        ∃ e, (call.chain.importAndApply call.block).1 = .error e := by
  rcases n.produce_cases hn.inv producer order key with heq | ⟨parent, state, b, hb, hcases⟩
  · rw [heq]
    exact ⟨rfl, nofun⟩
  obtain rfl : parent.hash = h := Option.some.inj (hb.head.symm.trans hn.head)
  obtain rfl : state = s := Option.some.inj (hb.snapshot.symm.trans hn.snapshot)
  -- the block cannot be accepted
  have hrefused : ∀ {pre outs post ctx outcome store' chain},
      ¬ Accepted n.chain b pre outs post ctx outcome store' chain := by
    intro pre outs post ctx outcome store' chain ha
    have hexec := ha.executed
    rw [hb.pre_eq ha] at hexec
    exact hn.late ht parent ((hb.produced.root_iff (ht.collisionFree parent state b hb)).mp
      ⟨outs, post, ctx, hexec, ha.root⟩)
  rcases hcases with heq | ⟨pre, outs, post, ctx, outcome, store', chain, ha, -⟩
  · rw [heq]
    refine ⟨rfl, fun call hcall => ?_⟩
    rw [List.mem_singleton.mp hcall]
    rcases ChainState.importAndApply_cases hn.inv b with ⟨e, he⟩
      | ⟨pre, outs, post, ctx, outcome, store', chain, -, ha⟩
    · exact ⟨e, congrArg Prod.fst he⟩
    · exact absurd ha hrefused
  · exact absurd ha hrefused

/-- **A submitted transaction** is refused or waits with the others. -/
theorem submit (hn : Stalled n h s tx callee) (tx' : Transaction) (origin : TxOrigin)
    (addedAtMs : UInt64) : Stalled { n with chain := { n.chain with
      pool := (n.chain.pool.addTransactionAt tx' origin addedAtMs).2 } } h s tx callee := by
  obtain ⟨k, e, he, heq⟩ := TransactionPool.mem_transactions.mp hn.pending
  exact { hn with
    behind := hn.behind.addTransactionAt tx' origin addedAtMs
    pending := TransactionPool.mem_transactions.mpr
      ⟨k, e, TransactionPool.pending_addTransactionAt he tx' origin addedAtMs, heq⟩ }

end Stalled

/-- **One transaction stalls the chain.**  A node without peers has a call in its pool that passes
the first checks, of code that fails on every state, and the pending nonces of each sender differ.
Whatever is submitted later and however often the producer ticks: as long as all that is pending
fits in one block, every block it builds is refused, the chain stays as it is, and what is pending
stays pending. -/
theorem Node.stalled_run (g : Genesis) {n : Node} {h : H256} {s : StateDB} {tx : Transaction}
    {callee : Address} (hn : Stalled n h s tx callee) (es : List NodeEvent)
    (hes : ∀ e ∈ es, e.Alone) (hticks : NodeEvent.EachTick (Together callee) g n es) :
    ∃ n' calls, NodeEvent.run g n es = some (n', calls) ∧ Stalled n' h s tx callee
      ∧ n'.chain.store = n.chain.store
      ∧ (∀ (k : H256) e, n.chain.pool.pending[k]? = some e → n'.chain.pool.pending[k]? = some e)
      ∧ ∀ call ∈ calls, ∃ e, (call.chain.importAndApply call.block).1 = .error e := by
  induction es using List.reverseRecOn with
  | nil => exact ⟨n, [], rfl, hn, rfl, fun _ _ he => he, nofun⟩
  | append_singleton es e ih =>
    obtain ⟨n₁, calls₁, hrun, hn₁, hstore, hpending, hcalls⟩ :=
      ih (fun e he => hes e (List.mem_append_left _ he)) hticks.of_snoc
    have he := hes e (List.mem_append_right _ (List.mem_singleton_self _))
    cases e with
    | transaction tx' origin addedAtMs =>
      refine ⟨_, _, NodeEvent.run_snoc hrun rfl, hn₁.submit tx' origin addedAtMs, hstore,
        fun k e hk => ?_, ?_⟩
      · exact TransactionPool.pending_addTransactionAt (hpending k e hk) tx' origin addedAtMs
      · rw [List.append_nil]
        exact hcalls
    | tick producer key order =>
      have hstep : (NodeEvent.tick producer key order).step g n₁
          = some ((n₁.produce producer order key).1, (n₁.produce producer order key).2) := rfl
      obtain ⟨hsame, hrefused⟩ := hn₁.tick (hticks es producer key order [] rfl n₁ calls₁ hrun)
      rw [hsame] at hstep
      refine ⟨n₁, _, NodeEvent.run_snoc hrun hstep, hn₁, hstore, hpending, fun call hcall => ?_⟩
      exact (List.mem_append.mp hcall).elim (hcalls call) (hrefused call)
    | block b order => exact he.elim
    | restart archive archiveKeep => exact he.elim

end

namespace Devnet

/-- The genesis block of a network with a contract that no interpreter accepts. -/
@[irreducible] def brokenBlock : Block := build 0 H256.zero 0 0 trapping.rootHash.1 [] []

theorem sealed_brokenBlock : Sealed brokenBlock ∧ brokenBlock.header.number = 0
    ∧ brokenBlock.header.parentHash = H256.zero
    ∧ brokenBlock.header.stateRoot = trapping.rootHash.1 := by decide +kernel

/-- That network. -/
def broken : Genesis where
  consensus := consensus
  block := brokenBlock
  state := trapping
  number := sealed_brokenBlock.2.1
  parentHash := sealed_brokenBlock.2.2.1
  miner := sealed_brokenBlock.1.1
  seals := sealed_brokenBlock.1.2.1
  valid := sealed_brokenBlock.1.2.2
  stateRoot := sealed_brokenBlock.2.2.2

/-- A node that was sent a call of the contract. -/
def stalledNode : Node :=
  let n := Node.fresh broken true 1
  { n with chain := { n.chain with
    pool := (TransactionPool.new.addTransactionAt callSink .local 0).2 } }

theorem stalled_stalledNode : Stalled stalledNode broken.block.hash trapping callSink sink := by
  have heval : trapping.nonce callSink.sender = callSink.nonce ∧ callSink.Usable
      ∧ (computeIntrinsicGas callSink GasConfig.default).toNat ≤ callSink.gas.toNat
      ∧ callSink.cost ≤ trapping.balance callSink.sender ∧ callSink.recipient = some sink
      ∧ trapping.getCode sink ≠ [] ∧ stalledNode.chain.pool.transactions = [callSink] := by
    decide +kernel
  obtain ⟨hnonce, husable, hgas, hcost, hto, hcode, htxs⟩ := heval
  have hsnap : broken.store.stateAt broken.block.hash = some trapping :=
    congrArg (Option.map StateDB.fork) ((broken.snapshots _).trans (if_pos rfl))
  have hempty : TransactionPool.new.Behind := TransactionPool.behind_of_empty rfl
  have hbehind : stalledNode.chain.pool.Behind := by
    simp only [stalledNode]
    exact hempty.addTransactionAt callSink .local 0
  refine ⟨broken.storeInv, broken.head, hsnap, hbehind, ?_,
    ⟨hnonce, husable, hgas, hcost, hto, hcode, fun t => ⟨.invalidModule "invalid", ?_⟩⟩⟩
  · rw [htxs]
    exact List.mem_singleton_self _
  · rw [WasmVm.execute_eq]
    rfl

/-- What the next tick builds from. -/
def stalledParams : ProduceParams :=
  stalledNode.produceParams inOrder validatorKey broken.block trapping

/-- What is hashed when a block on the genesis is imported, as a list. -/
def hashedStalled (b : Block) : List (List UInt8) :=
  [BlockHeader.codec.encode b.header, BlockHeader.codec.encode brokenBlock.header]
    ++ (patriciaNodes stalledParams.executed.2.1.rootHash.2.accountPairs).2.map Prod.snd
    ++ match executeBlock trapping b with
      | .ok (_, post, _) => (patriciaNodes post.rootHash.2.accountPairs).2.map Prod.snd
      | .error _ => []

theorem agreementEncodings_stalled (b : Block) :
    agreementEncodings broken.store stalledParams b ⊆ { e | e ∈ hashedStalled b } := by
  refine broken.agreementEncodings_subset (by simp [hashedStalled])
    (by simp [hashedStalled, broken]) ?_ ?_
  · rintro e ⟨h, he⟩
    refine List.mem_append_left _ (List.mem_append_right _ ?_)
    exact List.mem_map.mpr ⟨_, he, rfl⟩
  · rintro outs post ctx hexec e ⟨h, he⟩
    refine List.mem_append_right _ ?_
    change executeBlock trapping b = _ at hexec
    rw [hexec]
    exact List.mem_map.mpr ⟨_, he, rfl⟩

theorem together_stalledNode :
    Together sink BlockProducer.new validatorKey inOrder stalledNode := by
  have heval : stalledNode.chain.pool.transactions = [callSink]
      ∧ stalledNode.chain.pool.pending.size ≤ 128
      ∧ callSink.gas.toNat ≤ GasConfig.default.maxGasPerBlock.toNat
      ∧ callSink.recipient = some sink
      ∧ ((BlockProducer.new.produceBlock stalledParams).1.toOption.map fun b =>
        decide (∀ x ∈ hashedStalled b, ∀ y ∈ hashedStalled b, keccak256 x = keccak256 y → x = y))
        = some true := by
    decide +kernel
  obtain ⟨htxs, hfew, hgas, hto, hcf⟩ := heval
  refine ⟨hfew, ?_, ?_, fun parent state b hb => ?_⟩
  · rw [htxs]
    simpa using hgas
  · rw [htxs]
    intro other hother hnone
    rw [List.mem_singleton.mp hother, hto] at hnone
    cases hnone
  · -- the block is the one that was evaluated
    have hhash : parent.hash = broken.block.hash :=
      Option.some.inj (hb.head.symm.trans broken.head)
    have hstored : broken.store.getBlock broken.block.hash = some parent := hhash ▸ hb.stored
    rw [broken.getBlock, if_pos rfl] at hstored
    cases hstored
    obtain rfl : trapping = state :=
      Option.some.inj (stalled_stalledNode.snapshot.symm.trans hb.snapshot)
    have hbuilt : (BlockProducer.new.produceBlock stalledParams).1 = .ok b := hb.built
    rw [hbuilt] at hcf
    exact CollisionFree.of_list (of_decide_eq_true (Option.some.inj hcf))
      (agreementEncodings_stalled b)

/-- On this network a tick builds a block and confirms nothing. -/
theorem stalled_run_stalledNode : ∃ n' calls,
    NodeEvent.run broken stalledNode [.tick BlockProducer.new validatorKey inOrder]
      = some (n', calls)
    ∧ n'.chain.store = stalledNode.chain.store ∧ calls.length = 1
    ∧ ∀ call ∈ calls, ∃ e, (call.chain.importAndApply call.block).1 = .error e := by
  obtain ⟨n', calls, hrun, -, hstore, -, hcalls⟩ := Node.stalled_run broken stalled_stalledNode
    [.tick BlockProducer.new validatorKey inOrder] (by simp [NodeEvent.Alone])
    (fun before producer key order after heq n calls hrun => by
      rcases before with _ | ⟨e, rest⟩
      · cases heq
        cases hrun
        exact together_stalledNode
      · simp at heq)
  have hone : ((NodeEvent.run broken stalledNode
      [.tick BlockProducer.new validatorKey inOrder]).map fun r => r.2.length) = some 1 := by
    decide +kernel
  rw [hrun] at hone
  exact ⟨n', calls, hrun, hstore, Option.some.inj hone, hcalls⟩

end Devnet

end Ivory
