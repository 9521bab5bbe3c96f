import Ivory.Chain.Funded
import Ivory.Node.Readmission

/-!
# Ticks

On each tick a producer builds a block on its head, from pending transactions, and imports it.

* `Node.produce_cases`: what a tick does.
* `Node.Jammed`: a full pool of transactions that their senders cannot pay.
* `Node.jammed_run`: **such a pool stays as it is**, through all ticks and all transactions that are
  submitted, and no transaction is ever confirmed.
-/

namespace Ivory

open BlockStore

section

variable [Keccak] [Ed25519] [Wasmi]

/-! ### One tick -/

/-- The block that a tick builds, on the head and its state. -/
structure Node.Builds (n : Node) (producer : BlockProducer) (order : IterOrder PendingTx)
    (key : SecretKey) (parent : Block) (state : StateDB) (b : Block) : Prop where
  head : n.chain.store.head = some parent.hash
  stored : n.chain.store.getBlock parent.hash = some parent
  snapshot : n.chain.store.stateAt parent.hash = some state
  built : (producer.produceBlock (n.produceParams order key parent state)).1 = .ok b

/-- **What a tick does**: nothing, or it builds a block, which is refused or imported. -/
theorem Node.produce_cases {n : Node} (hi : StoreInv n.chain.store) (producer : BlockProducer)
    (order : IterOrder PendingTx) (key : SecretKey) :
    n.produce producer order key = (n, [])
    ∨ ∃ parent state b, n.Builds producer order key parent state b
      ∧ (n.produce producer order key = (n, [⟨n.chain, b⟩])
        ∨ ∃ pre outs post ctx outcome store' chain,
          Accepted n.chain b pre outs post ctx outcome store' chain
          ∧ n.produce producer order key
            = ({ n with chain := chain }.settle b, [⟨n.chain, b⟩])) := by
  unfold Node.produce
  split
  · exact .inl rfl
  cases hparent : n.chain.store.headBlock with
  | none => exact .inl rfl
  | some parent =>
    simp only
    cases hstate : n.chain.store.stateAt parent.hash with
    | none => exact .inl rfl
    | some state =>
      simp only
      cases hblock : (producer.produceBlock (n.produceParams order key parent state)).1 with
      | error e => exact .inl rfl
      | ok b =>
        obtain ⟨h, hh, hget⟩ := Option.bind_eq_some_iff.mp hparent
        have hkey := hi.keyed h parent hget
        refine .inr ⟨parent, state, b,
          ⟨hkey ▸ hh, hkey ▸ hget, hstate, hblock⟩, ?_⟩
        rcases ChainState.importAndApply_cases hi b with
          ⟨e, he⟩ | ⟨pre, outs, post, ctx, outcome, store', chain, heq, ha⟩
        · left
          simp only [he]
        · exact .inr ⟨pre, outs, post, ctx, outcome, store', chain, ha, by simp only [heq]⟩

namespace Node.Builds

variable {n : Node} {producer : BlockProducer} {order : IterOrder PendingTx} {key : SecretKey}
  {parent b : Block} {state : StateDB}

theorem produced (hb : n.Builds producer order key parent state b) :
    Produced producer (n.produceParams order key parent state) b :=
  BlockProducer.produced_of_ok hb.built

theorem number_ne_zero (hb : n.Builds producer order key parent state b) : b.header.number ≠ 0 := by
  intro h0
  have hnum := congrArg UInt64.toNat hb.produced.number
  rw [h0, UInt64.toNat_saturatingAdd] at hnum
  simp at hnum
  omega

omit [Wasmi] in
theorem exists_pending {tx : Transaction}
    (htx : tx ∈ (n.produceParams order key parent state).candidates) :
    ∃ (k : H256) (e : PendingTx), n.chain.pool.pending[k]? = some e ∧ e.tx = tx := by
  obtain ⟨e, he, rfl⟩ := ProduceParams.mem_candidates htx
  obtain ⟨⟨k, e'⟩, hmem, rfl⟩ := List.mem_map.mp ((order.perm _).subset he)
  exact ⟨k, e', Table.mem_toList.mp hmem, rfl⟩

section Accepted

variable {pre post : StateDB} {outs : List ExecutionOutcome} {ctx : ExecutionContext}
  {outcome : InsertOutcome} {store' : BlockStore} {chain : ChainState}

theorem pre_eq (hb : n.Builds producer order key parent state b)
    (ha : Accepted n.chain b pre outs post ctx outcome store' chain) : pre = state := by
  have hpre := ha.parent
  rw [hb.produced.parentHash] at hpre
  exact Option.some.inj (hpre.symm.trans hb.snapshot)

theorem pool_of_moved (hb : n.Builds producer order key parent state b)
    (hi : StoreInv n.chain.store)
    (ha : Accepted n.chain b pre outs post ctx outcome store' chain)
    (hm : outcome.headChanged = true) :
    chain.pool = (n.chain.store.txsOnPath parent.hash ++ b.transactions.toList).foldl
      (fun pool tx => pool.remove tx.hash) n.chain.pool := by
  obtain ⟨l, hl⟩ := hi.path _ _ hb.stored
  have hparent : b.header.parentHash = parent.hash := hb.produced.parentHash
  have hl' : n.chain.store.IsPath b.header.parentHash l := hparent ▸ hl
  have hdropped : n.chain.dropped b = [] := by
    rw [ChainState.dropped, hb.head, hparent]
    refine List.filter_eq_nil_iff.mpr fun tx htx => ?_
    rw [decide_eq_true_eq, not_not, List.map_append]
    exact List.mem_append_left _ (List.mem_map_of_mem htx)
  rw [ha.pool_eq_takeBack hm hb.head hl hb.number_ne_zero hl', hdropped,
    ha.txsOnPath_self hb.number_ne_zero hl', hparent]
  rfl

theorem moved (hb : n.Builds producer order key parent state b)
    (hheight : parent.header.number < UInt64.maxValue)
    (ha : Accepted n.chain b pre outs post ctx outcome store' chain) :
    outcome.headChanged = true := by
  rcases ha.inserted.cases with ⟨hm, -⟩ | ⟨-, -, hle, -⟩
  · exact hm
  · have hnum := congrArg UInt64.toNat hb.produced.number
    have hparent : (n.produceParams order key parent state).parent = parent := rfl
    rw [hparent, UInt64.toNat_saturatingAdd] at hnum
    rw [UInt64.lt_iff_toNat_lt, UInt64.toNat_maxValue] at hheight
    have h1 : (1 : UInt64).toNat = 1 := rfl
    rcases forkKey_le_iff.mp (hle _ _ hb.head hb.stored) with hlt | ⟨heq, -⟩
    · rw [UInt64.lt_iff_toNat_lt] at hlt
      omega
    · have heq := congrArg UInt64.toNat heq
      omega

end Accepted

end Node.Builds

/-! ### Pruning -/

omit [Ed25519] [Wasmi] in
theorem mem_txsOnPath_of_pruneStore {store : BlockStore} (hi : StoreInv store)
    {persist : ChainPersist} {h : H256} {b : Block} (hb : store.getBlock h = some b)
    {tx : Transaction} (htx : tx ∈ (Node.pruneStore store persist).txsOnPath h) :
    tx ∈ store.txsOnPath h := by
  obtain ⟨l, hl⟩ := hi.path h b hb
  have hsame := Node.sameHeaders_pruneStore store persist
  obtain ⟨k, hk, x, hx, htx⟩ := (mem_txsOnPath (hsame.symm.isPath hl)).mp htx
  refine (mem_txsOnPath hl).mpr ⟨k, hk, ?_⟩
  unfold Node.pruneStore at hx
  split at hx
  · rw [getBlock_pruneSnapshots] at hx
    exact ⟨x, hx, htx⟩
  · cases hh : store.head with
    | none => exact absurd ((hi.no_head hh).2 h) (by rw [hb]; nofun)
    | some h₀ =>
      obtain ⟨b₀, hb₀, -⟩ := hi.head_max h₀ hh
      rw [getBlock_pruneSnapshotsKeep hi hh hb₀] at hx
      obtain ⟨y, hy, rfl⟩ := Option.map_eq_some_iff.mp hx
      split at htx
      · exact absurd htx (List.not_mem_nil)
      · exact ⟨y, hy, htx⟩

/-- **The head after an import that moved it**, with its state. -/
theorem Node.head_settle {n : Node} {b : Block} {pre post : StateDB}
    {outs : List ExecutionOutcome} {ctx : ExecutionContext} {outcome : InsertOutcome}
    {store' : BlockStore} {chain : ChainState} (hi : StoreInv n.chain.store)
    (ha : Accepted n.chain b pre outs post ctx outcome store' chain)
    (hm : outcome.headChanged = true) :
    ∃ x : Block, x.header = b.header
      ∧ ({ n with chain := chain }.settle b).chain.store.head = some x.hash
      ∧ ({ n with chain := chain }.settle b).chain.store.getBlock x.hash = some x
      ∧ ({ n with chain := chain }.settle b).chain.store.stateAt x.hash = some post.rootHash.2 := by
  have hprune := pruned_pruneStore (ha.storeInv hi)
    ((n.persist.persistCanonical chain.store b).persistTrieNodes chain.live.trieNodes.1)
  have hhead := (ha.live_of_moved hm).1
  have hheader := hprune.same.headers b.hash
  rw [ha.getBlock, if_pos rfl, Option.map_some] at hheader
  obtain ⟨x, hx, hxb⟩ := Option.map_eq_some_iff.mp hheader
  have hhash : x.hash = b.hash := congrArg BlockHeader.hash hxb
  refine ⟨x, hxb, ?_, ?_, ?_⟩
  · rw [hhash]
    exact hprune.same.head.trans hhead
  · rw [hhash]
    exact hx
  · rw [hhash, stateAt]
    refine (congrArg (Option.map StateDB.fork) (hprune.head b.hash hhead)).trans ?_
    rw [ha.snapshots, Table.get_insert_self]
    rfl

/-! ### A full pool that nobody can pay -/

omit [Ed25519] in
theorem executeEach_of_unpayable (cfg : GasConfig) (s : StateDB) (ctx : ExecutionContext)
    {txs : List Transaction} (h : ∀ tx ∈ txs, s.balance tx.sender < tx.cost) :
    executeEach cfg s ctx txs = ([], s, ctx) := by
  induction txs with
  | nil => rfl
  | cons tx txs ih =>
    have hpoor := h tx List.mem_cons_self
    cases hc : precheck cfg s ctx tx with
    | ok checked =>
      have hp := precheck_isOk_iff.mp ⟨checked, hc⟩
      exact absurd hp.balance (Nat.not_le.mpr hpoor)
    | error e =>
      rw [executeEach, executeTransaction_of_precheck_error hc]
      exact ih fun x hx => h x (List.mem_cons_of_mem _ hx)

namespace TransactionPool

omit [Wasmi] in
theorem addTransactionAt_of_full {pool : TransactionPool}
    (h : pool.config.maxPending.toNat ≤ pool.pending.size) (tx : Transaction) (origin : TxOrigin)
    (addedAtMs : UInt64) :
    ∃ e, pool.addTransactionAt tx origin addedAtMs = (.error e, pool) := by
  rcases pool.addTransactionAt_cases tx origin addedAtMs with ⟨ha, -⟩ | ⟨-, e, heq⟩
  · exact absurd ha.room (Nat.not_lt.mpr h)
  · exact ⟨e, heq⟩

omit [Ed25519] [Wasmi] in
theorem foldl_remove_of_none {pool : TransactionPool} {txs : List Transaction}
    (h : ∀ tx ∈ txs, pool.pending[tx.hash]? = none) :
    txs.foldl (fun pool tx => pool.remove tx.hash) pool = pool := by
  induction txs with
  | nil => rfl
  | cons tx txs ih =>
    have hremove : pool.remove tx.hash = pool := by
      rw [remove, h tx List.mem_cons_self]
    rw [List.foldl_cons, hremove]
    exact ih fun x hx => h x (List.mem_cons_of_mem _ hx)

end TransactionPool

namespace Node

/-- The pool is full, and after the head no sender can pay what it has there. -/
structure Jammed (n : Node) : Prop where
  inv : StoreInv n.chain.store
  full : n.chain.pool.config.maxPending.toNat ≤ n.chain.pool.pending.size
  poor : ∀ h s, n.chain.store.head = some h → n.chain.store.stateAt h = some s →
    ∀ (k : H256) e, n.chain.pool.pending[k]? = some e → s.balance e.tx.sender < e.tx.cost
  unconfirmed : ∀ h, n.chain.store.head = some h → ∀ tx ∈ n.chain.store.txsOnPath h,
    n.chain.pool.pending[tx.hash]? = none

variable {n : Node} {producer : BlockProducer} {order : IterOrder PendingTx} {key : SecretKey}
  {parent b : Block} {state : StateDB}

theorem Jammed.transactions (hj : n.Jammed) (hb : n.Builds producer order key parent state b) :
    b.transactions.toList = [] := by
  have hexec : (n.produceParams order key parent state).executed.1 = [] := by
    rw [ProduceParams.executed, executeEach_of_unpayable]
    intro tx htx
    obtain ⟨k, e, he, rfl⟩ := Builds.exists_pending htx
    exact hj.poor _ _ hb.head hb.snapshot k e he
  rw [hb.produced.transactions, hexec]
  rfl

variable {pre post : StateDB} {outs : List ExecutionOutcome} {ctx : ExecutionContext}
  {outcome : InsertOutcome} {store' : BlockStore} {chain : ChainState}

theorem Jammed.accepted (hj : n.Jammed) (hb : n.Builds producer order key parent state b)
    (ha : Accepted n.chain b pre outs post ctx outcome store' chain) :
    chain.pool = n.chain.pool ∧ ({ n with chain := chain }.settle b).Jammed := by
  have hempty := hj.transactions hb
  have hnone : ∀ tx ∈ n.chain.store.txsOnPath parent.hash ++ b.transactions.toList,
      n.chain.pool.pending[tx.hash]? = none := by
    rw [hempty, List.append_nil]
    exact hj.unconfirmed _ hb.head
  have hpost : post = state := by
    have hexec := ha.executed
    rw [executeBlock, hempty, hb.pre_eq ha] at hexec
    cases hexec
    rfl
  have hpool : chain.pool = n.chain.pool := by
    cases hm : outcome.headChanged with
    | true => rw [hb.pool_of_moved hj.inv ha hm, TransactionPool.foldl_remove_of_none hnone]
    | false => exact (ha.stayed hm).2.2.1
  have hinv := ha.storeInv hj.inv
  obtain ⟨l, hl⟩ := hj.inv.path _ _ hb.stored
  -- what holds of the store before it is pruned
  have hhead : ∀ h, chain.store.head = some h →
      (∀ s, chain.store.snapshots[h]? = some s →
        ∀ (k : H256) e, n.chain.pool.pending[k]? = some e → s.balance e.tx.sender < e.tx.cost)
      ∧ ∀ tx ∈ chain.store.txsOnPath h, n.chain.pool.pending[tx.hash]? = none := by
    intro h hh
    rw [ha.snapshots, Table.get_insert]
    cases hm : outcome.headChanged with
    | true =>
      obtain rfl : b.hash = h := Option.some.inj ((ha.live_of_moved hm).1.symm.trans hh)
      rw [if_pos rfl]
      constructor
      · intro s hs k e he
        cases hs
        rw [hpost, (state.ledger_rootHash _).2]
        exact hj.poor _ _ hb.head hb.snapshot k e he
      · have hparent : b.header.parentHash = parent.hash := hb.produced.parentHash
        rw [ha.txsOnPath_self hb.number_ne_zero (hparent ▸ hl), hparent]
        exact hnone
    | false =>
      have hstay := (ha.stayed hm).1.symm.trans hh
      obtain rfl : parent.hash = h := Option.some.inj (hb.head.symm.trans hstay)
      have hne : parent.hash ≠ b.hash := by
        intro he
        have hfresh := ha.insertable.fresh
        rw [← he, hb.stored] at hfresh
        cases hfresh
      rw [if_neg hne, ha.txsOnPath_of_path hl]
      refine ⟨fun s hs => hj.poor _ s hb.head ?_, hj.unconfirmed _ hb.head⟩
      rw [stateAt, hs]
      rfl
  refine ⟨hpool, storeInv_settle hj.inv ha, ?_, ?_, ?_⟩
  · show chain.pool.config.maxPending.toNat ≤ chain.pool.pending.size
    rw [hpool]
    exact hj.full
  · intro h s hh hs
    show ∀ (k : H256) e, chain.pool.pending[k]? = some e → _
    rw [hpool]
    obtain ⟨s₀, hs₀, rfl⟩ := Option.map_eq_some_iff.mp hs
    have hprune := pruned_pruneStore hinv
      ((n.persist.persistCanonical chain.store b).persistTrieNodes chain.live.trieNodes.1)
    exact (hhead h (hprune.same.head.symm.trans hh)).1 s₀ (hprune.sub h s₀ hs₀)
  · intro h hh tx htx
    show chain.pool.pending[tx.hash]? = none
    rw [hpool]
    have hh' : chain.store.head = some h :=
      (sameHeaders_settle { n with chain := chain } b).head.symm.trans hh
    obtain ⟨x, hx, -⟩ := hinv.head_max h hh'
    exact (hhead h hh').2 tx (mem_txsOnPath_of_pruneStore hinv hx htx)

/-- **A tick on a jammed node.** -/
theorem Jammed.produce (hj : n.Jammed) (producer : BlockProducer) (order : IterOrder PendingTx)
    (key : SecretKey) : (n.produce producer order key).1.Jammed
      ∧ (n.produce producer order key).1.chain.pool = n.chain.pool
      ∧ ∀ call ∈ (n.produce producer order key).2, call.block.transactions.toList = [] := by
  rcases n.produce_cases hj.inv producer order key with heq | ⟨parent, state, b, hb, hcases⟩
  · rw [heq]
    exact ⟨hj, rfl, nofun⟩
  have hempty : ∀ call ∈ [(⟨n.chain, b⟩ : ImportCall)], call.block.transactions.toList = [] := by
    intro call hcall
    rw [List.mem_singleton.mp hcall]
    exact hj.transactions hb
  rcases hcases with heq | ⟨pre, outs, post, ctx, outcome, store', chain, ha, heq⟩
  · rw [heq]
    exact ⟨hj, rfl, hempty⟩
  · rw [heq]
    obtain ⟨hpool, hj'⟩ := hj.accepted hb ha
    exact ⟨hj', hpool, hempty⟩

end Node

/-- What a node without peers reacts to: transactions that are submitted, and ticks. -/
def NodeEvent.Alone : NodeEvent → Prop
  | .transaction _ _ _ | .tick _ _ _ => True
  | .block _ _ | .restart _ _ => False

namespace NodeEvent

variable {g : Genesis} {n n' n'' : Node} {es : List NodeEvent} {e : NodeEvent}
  {calls calls' : List ImportCall}

theorem Alone.step_isSome (he : e.Alone) (g : Genesis) (n : Node) :
    ∃ n' calls, e.step g n = some (n', calls) := by
  cases e with
  | transaction tx origin addedAtMs => exact ⟨_, _, rfl⟩
  | tick producer key order => exact ⟨_, _, rfl⟩
  | block b order => exact he.elim
  | restart archive archiveKeep => exact he.elim

theorem run_snoc (h : run g n es = some (n', calls)) (hstep : e.step g n' = some (n'', calls')) :
    run g n (es ++ [e]) = some (n'', calls ++ calls') := by
  induction es generalizing n calls with
  | nil =>
    cases h
    rw [List.nil_append, run, hstep]
    simp [run]
  | cons e₀ es ih =>
    rw [run] at h
    cases h₀ : e₀.step g n with
    | none =>
      rw [h₀] at h
      cases h
    | some r =>
      rw [h₀] at h
      obtain ⟨⟨n₁, calls₁⟩, h₁, heq⟩ := Option.map_eq_some_iff.mp h
      cases heq
      rw [List.cons_append, run, h₀]
      simp only [ih h₁, Option.map_some, List.append_assoc]

/-- Every tick of a run meets a node with `P`. -/
def EachTick (P : BlockProducer → SecretKey → IterOrder PendingTx → Node → Prop) (g : Genesis)
    (n : Node) (es : List NodeEvent) : Prop :=
  ∀ before producer key order after, es = before ++ tick producer key order :: after →
    ∀ n' calls, run g n before = some (n', calls) → P producer key order n'

theorem EachTick.of_snoc {P : BlockProducer → SecretKey → IterOrder PendingTx → Node → Prop}
    (h : EachTick P g n (es ++ [e])) : EachTick P g n es := by
  intro before producer key order after heq
  refine h before producer key order (after ++ [e]) ?_
  rw [heq, List.append_assoc, List.cons_append]

end NodeEvent

/-- **One event on a jammed node.** -/
theorem Node.Jammed.step {n : Node} (hj : n.Jammed) (g : Genesis) {e : NodeEvent} (he : e.Alone) :
    ∃ n' calls, e.step g n = some (n', calls) ∧ n'.Jammed ∧ n'.chain.pool = n.chain.pool
      ∧ ∀ call ∈ calls, call.block.transactions.toList = [] := by
  cases e with
  | transaction tx origin addedAtMs =>
    obtain ⟨e, heq⟩ := TransactionPool.addTransactionAt_of_full hj.full tx origin addedAtMs
    refine ⟨n, [], ?_, hj, rfl, nofun⟩
    rw [NodeEvent.step, heq]
  | tick producer key order => exact ⟨_, _, rfl, hj.produce producer order key⟩
  | block b order => exact he.elim
  | restart archive archiveKeep => exact he.elim

/-- **A full pool that nobody can pay stays full.**  Whatever is submitted later and however often
the producer ticks: the pool stays as it is, the next submission is refused like all before it, and
every block that is built is empty. -/
theorem Node.jammed_run (g : Genesis) {n : Node} (hj : n.Jammed) (es : List NodeEvent)
    (hes : ∀ e ∈ es, e.Alone) :
    ∃ n' calls, NodeEvent.run g n es = some (n', calls) ∧ n'.Jammed
      ∧ n'.chain.pool = n.chain.pool
      ∧ (∀ tx origin addedAtMs, ∃ e,
        n'.chain.pool.addTransactionAt tx origin addedAtMs = (.error e, n.chain.pool))
      ∧ ∀ call ∈ calls, call.block.transactions.toList = [] := by
  induction es generalizing n with
  | nil => exact ⟨n, [], rfl, hj, rfl, TransactionPool.addTransactionAt_of_full hj.full, nofun⟩
  | cons e es ih =>
    obtain ⟨n₁, calls₁, hstep, hj₁, hpool₁, hcalls₁⟩ := hj.step g (hes e List.mem_cons_self)
    obtain ⟨n₂, calls₂, hrun, hj₂, hpool₂, hrefused, hcalls₂⟩ :=
      ih hj₁ fun e he => hes e (List.mem_cons_of_mem _ he)
    rw [hpool₁] at hpool₂ hrefused
    refine ⟨n₂, calls₁ ++ calls₂, ?_, hj₂, hpool₂, hrefused, fun call hcall => ?_⟩
    · rw [NodeEvent.run, hstep]
      simp only [hrun, Option.map_some]
    · exact (List.mem_append.mp hcall).elim (hcalls₁ call) (hcalls₂ call)

end

namespace Devnet

/-- A transfer of all that the user has, who has to pay for gas too. -/
def tooMuch : Transaction :=
  signedTx userKey (some sink) 0 (U256.ofU64 1000000000000) 21000 U256.one Vec.empty

/-- A node whose pool has room for one transaction, and has this one. -/
def jammedNode : Node :=
  let n := Node.fresh genesis true 1
  { n with chain := { n.chain with
    pool := ((TransactionPool.withConfig ⟨1, 64, 21000⟩).addTransaction tooMuch .local).2 } }

theorem jammed_jammedNode : jammedNode.Jammed := by
  have heval : (jammedNode.chain.pool.config.maxPending.toNat ≤ jammedNode.chain.pool.pending.size
      ∧ jammedNode.chain.pool.pending.toList.map (fun p => p.2.tx) = [tooMuch]
      ∧ genesis.store.txsOnPath genesis.block.hash = []
      ∧ state.balance tooMuch.sender < tooMuch.cost) := by decide +kernel
  obtain ⟨hfull, hpending, htxs, hpoor⟩ := heval
  refine ⟨genesis.storeInv, hfull, fun h s hh hs k e he => ?_, fun h hh tx htx => ?_⟩
  · have hmem : e.tx ∈ jammedNode.chain.pool.pending.toList.map (fun p => p.2.tx) :=
      List.mem_map.mpr ⟨(k, e), Table.mem_toList.mpr he, rfl⟩
    rw [hpending, List.mem_singleton] at hmem
    obtain rfl : genesis.block.hash = h := Option.some.inj (genesis.head.symm.trans hh)
    change genesis.store.snapshots[genesis.block.hash]?.map StateDB.fork = some s at hs
    rw [genesis.snapshots, if_pos rfl] at hs
    cases hs
    rw [hmem]
    exact hpoor
  · obtain rfl : genesis.block.hash = h := Option.some.inj (genesis.head.symm.trans hh)
    change tx ∈ genesis.store.txsOnPath genesis.block.hash at htx
    rw [htxs] at htx
    cases htx

/-- On the small network the jam outlives a good transaction and two ticks, and after them the
transaction is refused again. -/
theorem jammed_run_jammedNode : ∃ n' calls,
    NodeEvent.run genesis jammedNode [.transaction (transfer 0) .local 0,
      .tick BlockProducer.new validatorKey inOrder, .tick BlockProducer.new validatorKey inOrder]
      = some (n', calls)
    ∧ n'.chain.pool = jammedNode.chain.pool
    ∧ (∃ e, (n'.chain.pool.addTransactionAt (transfer 0) .local 0).1 = .error e)
    ∧ ∀ call ∈ calls, call.block.transactions.toList = [] := by
  obtain ⟨n', calls, hrun, -, hpool, hrefused, hcalls⟩ := Node.jammed_run genesis jammed_jammedNode
    [.transaction (transfer 0) .local 0, .tick BlockProducer.new validatorKey inOrder,
      .tick BlockProducer.new validatorKey inOrder]
    (by simp only [List.forall_mem_cons, NodeEvent.Alone]; simp)
  obtain ⟨e, he⟩ := hrefused (transfer 0) .local 0
  exact ⟨n', calls, hrun, hpool, ⟨e, congrArg Prod.fst he⟩, hcalls⟩

end Devnet

end Ivory
