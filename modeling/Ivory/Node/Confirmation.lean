import Ivory.Node.Events
import Ivory.Node.Ticks

/-!
# Confirmation

A node without peers admits transactions and builds blocks.  Its pool hands out nonces without a
gap, `produce_block` sorts by sender and nonce, and a block takes at most 128 transactions.  If what
is pending when the producer ticks can be executed and fits in one block, then the block has all of
it.

* `Queues`: the pending nonces of every sender follow that of its account.
* `Queues.countsUp`: sorted, they count up.
* `Affordable`: what is pending can be paid, has its intrinsic gas, calls no code and fits in one
  block.
* `Serving`: a node between two events; `Serving.tick`, `Serving.submit`: one event.
* `NodeEvent.all_confirmed`: **every transaction that is admitted is in a block after the next
  tick**, once, and succeeds.
-/

namespace Ivory

open BlockStore

/-! ### Queues -/

theorem Transaction.Le.nonce_le {a b : Transaction} (h : a.Le b) (hs : a.sender = b.sender) :
    a.nonce ≤ b.nonce := by
  have hself : compare b.sender b.sender = .eq := Std.ReflCmp.compare_self
  rw [Transaction.Le, hs, hself] at h
  exact Std.isLE_compare.mp (Ordering.isLE_iff_ne_gt.mpr h)

namespace TransactionPool

/-- The pending transactions. -/
def transactions (pool : TransactionPool) : List Transaction :=
  pool.pending.toList.map fun p => p.2.tx

theorem mem_transactions {pool : TransactionPool} {tx : Transaction} :
    tx ∈ pool.transactions
      ↔ ∃ (k : H256) (e : PendingTx), pool.pending[k]? = some e ∧ e.tx = tx := by
  rw [transactions, List.mem_map]
  constructor
  · rintro ⟨⟨k, e⟩, hmem, rfl⟩
    exact ⟨k, e, Table.mem_toList.mp hmem, rfl⟩
  · rintro ⟨k, e, he, rfl⟩
    exact ⟨(k, e), Table.mem_toList.mpr he, rfl⟩

end TransactionPool

section

variable [Keccak]

/-- The pending nonces of every sender follow that of its account, without a gap. -/
structure Queues (s : StateDB) (pool : TransactionPool) : Prop where
  fits : PoolFits Set.univ s pool
  behind : pool.Behind
  ahead : ∀ (k : H256) e, pool.pending[k]? = some e → s.nonce e.tx.sender ≤ e.tx.nonce

namespace Queues

variable {s : StateDB} {pool : TransactionPool}

theorem of_empty (hempty : pool.pending = ∅) (hexp : ∀ a, pool.expectedNonce a = s.nonce a) :
    Queues s pool := by
  have hnone : ∀ (k : H256) (e : PendingTx), pool.pending[k]? ≠ some e := by
    intro k e he
    rw [hempty, Std.ExtTreeMap.getElem?_empty] at he
    cases he
  refine ⟨⟨fun k e he => absurd he (hnone k e), fun k e he => absurd he (hnone k e),
    fun k e he => absurd he (hnone k e), fun a => ?_, fun a m hle hlt => ?_⟩,
    TransactionPool.behind_of_empty hempty, fun k e he => absurd he (hnone k e)⟩
  · rw [hexp]
    exact UInt64.le_rfl
  · rw [hexp] at hlt
    exact absurd hle (UInt64.not_le.mpr hlt)

/-- **Sorted, the pending nonces of a sender count up**, from that of the account to the one that
the pool expects. -/
theorem countsUp (hq : Queues s pool) (husable : ∀ tx ∈ pool.transactions, tx.Usable)
    {txs : List Transaction} (hperm : txs.Perm pool.transactions)
    (hsorted : txs.Pairwise Transaction.Le) (a : Address) :
    CountsUp a txs (s.nonce a).toNat
      ∧ (s.nonce a).toNat + (sentBy a txs).length = (pool.expectedNonce a).toNat := by
  have hle := UInt64.le_iff_toNat_le.mp (hq.fits.le a)
  -- the pending nonces of the sender are distinct
  have hnodup : ((sentBy a txs).map fun tx => tx.nonce.toNat).Nodup := by
    refine List.Perm.nodup (((hperm.symm.filter _).map _)) ?_
    rw [TransactionPool.transactions, List.filter_map, List.map_map, List.Nodup, List.pairwise_map]
    have hkeys := List.pairwise_map.mp pool.pending.nodup_keys
    refine (hkeys.filter _).imp_of_mem fun {p q} hp hq' hne heq => hne ?_
    obtain ⟨hp, hpa⟩ := List.mem_filter.mp hp
    obtain ⟨hq', hqa⟩ := List.mem_filter.mp hq'
    have hpu := husable p.2.tx (List.mem_map_of_mem hp)
    exact hq.behind.distinct p.1 q.1 p.2 q.2 (Table.mem_toList.mp hp) (Table.mem_toList.mp hq') hpu
      ((of_decide_eq_true hpa).trans (of_decide_eq_true hqa).symm) (UInt64.toNat_inj.mp heq)
  -- and they are those in between
  have hmem : ∀ m, m ∈ ((sentBy a txs).map fun tx => tx.nonce.toNat)
      ↔ m ∈ List.range' (s.nonce a).toNat ((pool.expectedNonce a).toNat - (s.nonce a).toNat) := by
    intro m
    rw [List.mem_map, List.mem_range'_1]
    constructor
    · rintro ⟨tx, htx, rfl⟩
      obtain ⟨htx, hsender⟩ := List.mem_filter.mp htx
      obtain ⟨k, e, he, rfl⟩ := TransactionPool.mem_transactions.mp (hperm.mem_iff.mp htx)
      have hlow := hq.ahead k e he
      have hhigh := hq.behind.below k e he (husable e.tx (hperm.mem_iff.mp htx))
      rw [of_decide_eq_true hsender] at hlow hhigh
      rw [UInt64.le_iff_toNat_le] at hlow
      rw [UInt64.lt_iff_toNat_lt] at hhigh
      omega
    · rintro ⟨hlow, hhigh⟩
      have hlt := (pool.expectedNonce a).toNat_lt
      have hm : (UInt64.ofNat m).toNat = m :=
        UInt64.toNat_ofNat_of_lt' (show m < 2 ^ 64 by omega)
      obtain ⟨k, e, he, hsender, hnonce⟩ := hq.fits.covered a (UInt64.ofNat m)
        (by rw [UInt64.le_iff_toNat_le]; omega) (by rw [UInt64.lt_iff_toNat_lt]; omega)
      refine ⟨e.tx, List.mem_filter.mpr ⟨?_, decide_eq_true hsender⟩, by rw [hnonce, hm]⟩
      exact hperm.mem_iff.mpr (TransactionPool.mem_transactions.mpr ⟨k, e, he, rfl⟩)
  have hperm' := (List.perm_ext_iff_of_nodup hnodup List.nodup_range').mpr hmem
  have hlen := hperm'.length_eq
  rw [List.length_map, List.length_range'] at hlen
  refine ⟨?_, by omega⟩
  rw [CountsUp, hlen]
  have hantisymm : ∀ x y : ℕ, x ∈ (sentBy a txs).map (fun tx => tx.nonce.toNat) →
      y ∈ List.range' (s.nonce a).toNat ((pool.expectedNonce a).toNat - (s.nonce a).toNat) →
      x ≤ y → y ≤ x → x = y := fun x y _ _ hxy hyx => Nat.le_antisymm hxy hyx
  refine hperm'.eq_of_pairwise hantisymm ?_ List.pairwise_le_range'
  rw [List.pairwise_map]
  refine (hsorted.filter _).imp_of_mem fun {x y} hx hy hle => ?_
  have hx := of_decide_eq_true (List.mem_filter.mp hx).2
  have hy := of_decide_eq_true (List.mem_filter.mp hy).2
  exact UInt64.le_iff_toNat_le.mp (hle.nonce_le (hx.trans hy.symm))

/-- **A transaction is submitted.** -/
theorem addTransactionAt [Ed25519] (hq : Queues s pool) (tx : Transaction) (origin : TxOrigin)
    (addedAtMs : UInt64) : Queues s (pool.addTransactionAt tx origin addedAtMs).2 := by
  refine ⟨hq.fits.addTransactionAt (Set.mem_univ _) origin addedAtMs, ?_, fun k e he => ?_⟩
  · rcases pool.addTransactionAt_cases tx origin addedAtMs with ⟨ha, heq⟩ | ⟨-, e, heq⟩
    · rw [heq]
      exact hq.behind.enqueue ha origin addedAtMs
    · rw [heq]
      exact hq.behind
  · rcases pool.addTransactionAt_cases tx origin addedAtMs with ⟨ha, heq⟩ | ⟨-, e', heq⟩
    · rw [heq] at he
      change (pool.pending.insert tx.hash _)[k]? = some e at he
      rw [Table.get_insert] at he
      split at he
      · cases he
        rw [ha.nonce]
        exact hq.fits.le _
      · exact hq.ahead k e he
    · rw [heq] at he
      exact hq.ahead k e he

end Queues

/-- What is pending can be paid, has gas for its intrinsic cost, calls no code, and fits in one
block and under the gas limit of the producer. -/
structure Affordable (producer : BlockProducer) (s : StateDB) (pool : TransactionPool) : Prop where
  few : pool.pending.size ≤ 128
  balances : ∀ a, ((sentBy a pool.transactions).map Transaction.cost).sum ≤ s.balance a
  usable : ∀ tx ∈ pool.transactions, tx.Usable
  intrinsic : ∀ tx ∈ pool.transactions,
    (computeIntrinsicGas tx GasConfig.default).toNat ≤ tx.gas.toNat
  room : (pool.transactions.map fun tx => tx.gas.toNat).sum ≤ GasConfig.default.maxGasPerBlock.toNat
  limit : (pool.transactions.map fun tx => tx.gas.toNat).sum ≤ producer.gasLimit.toNat
  plain : ∀ tx ∈ pool.transactions, tx.Plain s pool.transactions

theorem Affordable.funded {producer : BlockProducer} {pool : TransactionPool}
    {params : ProduceParams} (ha : Affordable producer params.state pool)
    (hq : Queues params.state pool) (hsupply : params.state.totalBalance < 2 ^ 256)
    (hperm : params.candidates.Perm pool.transactions) :
    Funded GasConfig.default params.state params.context params.candidates := by
  refine ⟨fun a => (hq.countsUp ha.usable hperm params.sorted_candidates a).1, fun a => ?_,
    fun tx htx => ha.usable tx (hperm.mem_iff.mp htx),
    fun tx htx => ha.intrinsic tx (hperm.mem_iff.mp htx), ?_, fun tx htx callee hto => ?_, hsupply⟩
  · have hsum := ((hperm.filter fun tx => tx.sender = a).map Transaction.cost).sum_eq
    rw [sentBy, hsum]
    exact ha.balances a
  · have hsum := (hperm.map fun tx => tx.gas.toNat).sum_eq
    rw [hsum]
    have hroom := ha.room
    have hzero : params.context.gasUsed.toNat = 0 := rfl
    omega
  · obtain ⟨hempty, hothers⟩ := ha.plain tx (hperm.mem_iff.mp htx) callee hto
    exact ⟨hempty, fun other ho => hothers other (hperm.mem_iff.mp ho)⟩

/-! ### A node without peers -/

variable [Ed25519] [Wasmi]

/-- A validator of a network that asks for one seal. -/
structure Validates (g : Genesis) (key : SecretKey) : Prop where
  roundTrip : Ed25519.RoundTrip
  member : Validator.fromSecret key ∈ g.consensus.config.validators
  required : g.consensus.config.requiredSignatures = 1

/-- The headers of the genesis and of the blocks of calls. -/
def headersOf (g : Genesis) (calls : List ImportCall) : List BlockHeader :=
  (g.block :: calls.map ImportCall.block).map Block.header

/-- What is hashed when these are looked up. -/
def headerBytes (g : Genesis) (calls : List ImportCall) : Set (List UInt8) :=
  { e | ∃ header ∈ headersOf g calls, e = BlockHeader.codec.encode header }

/-- A node between two events.  Its head `parent` is at most `k` blocks above the genesis, `s` is
the state there, and what it stores came with `calls`. -/
structure Serving (g : Genesis) (k : ℕ) (calls : List ImportCall) (n : Node) (parent : Block)
    (s : StateDB) : Prop where
  inv : StoreInv n.chain.store
  head : n.chain.store.head = some parent.hash
  stored : n.chain.store.getBlock parent.hash = some parent
  snapshot : n.chain.store.stateAt parent.hash = some s
  height : parent.header.number.toNat ≤ k
  consensus : n.chain.store.consensus = g.consensus
  known : ∀ h x, n.chain.store.getBlock h = some x → x.header ∈ headersOf g calls
  queues : Queues s n.chain.pool
  supply : s.totalBalance < 2 ^ 256

namespace Serving

variable {g : Genesis} {k : ℕ} {calls : List ImportCall} {n : Node} {parent : Block} {s : StateDB}
  {producer : BlockProducer} {key : SecretKey}

omit [Wasmi] in
theorem mem_headersOf {header : BlockHeader} (h : header ∈ headersOf g calls)
    (calls' : List ImportCall) : header ∈ headersOf g (calls ++ calls') := by
  obtain ⟨y, hy, rfl⟩ := List.mem_map.mp h
  refine List.mem_map_of_mem ?_
  rcases List.mem_cons.mp hy with rfl | hy
  · exact List.mem_cons_self
  · obtain ⟨call, hcall, rfl⟩ := List.mem_map.mp hy
    exact List.mem_cons_of_mem _ (List.mem_map_of_mem (List.mem_append_left _ hcall))

omit [Wasmi] in
theorem built_mem_headersOf (calls : List ImportCall) (call : ImportCall) :
    call.block.header ∈ headersOf g (calls ++ [call]) := by
  refine List.mem_map_of_mem (List.mem_cons_of_mem _ (List.mem_map_of_mem ?_))
  exact List.mem_append_right _ (List.mem_singleton_self _)

omit [Wasmi] in
theorem ready (hn : Serving g k calls n parent s) (hk : k + 1 < 2 ^ 64) (hv : Validates g key)
    (order : IterOrder PendingTx) : Ready n.chain.store (n.produceParams order key parent s) := by
  refine ⟨hn.head, hn.stored, hn.snapshot, ?_, rfl, rfl, ?_, ?_, ?_⟩
  · have hheight := hn.height
    show parent.header.number < UInt64.maxValue
    rw [UInt64.lt_iff_toNat_lt, UInt64.toNat_maxValue]
    omega
  · rw [hn.consensus]
    exact hv.member
  · rw [hn.consensus]
    exact hv.required
  · show parent.header.timestamp ≤ parent.header.timestamp.saturatingAdd 1
    rw [UInt64.le_iff_toNat_le, UInt64.toNat_saturatingAdd]
    exact le_min (Nat.le_add_right _ _) (UInt64.toNat_le_max _)

theorem produce_eq (hn : Serving g k calls n parent s) (h0 : n.chain.pool.pending.size ≠ 0)
    {order : IterOrder PendingTx} {b : Block}
    (hb : (producer.produceBlock (n.produceParams order key parent s)).1 = .ok b) :
    (n.produce producer order key).2 = [⟨n.chain, b⟩]
      ∧ ∀ outcome chain, n.chain.importAndApply b = (.ok outcome, chain) →
        n.produce producer order key = ({ n with chain := chain }.settle b, [⟨n.chain, b⟩]) := by
  have hparent : n.chain.store.headBlock = some parent := by
    rw [headBlock, hn.head]
    exact hn.stored
  rw [Node.produce, if_neg h0, hparent]
  simp only [hn.snapshot, hb]
  refine ⟨?_, fun outcome chain himport => by simp only [himport]⟩
  split <;> rfl

/-- **A tick imports all that is pending.** -/
theorem imports (hn : Serving g k calls n parent s) (hk : k + 1 < 2 ^ 64) (hv : Validates g key)
    (haff : Affordable producer s n.chain.pool) (h0 : n.chain.pool.pending.size ≠ 0)
    {order : IterOrder PendingTx}
    (hcf : CollisionFree (headerBytes g (calls ++ (n.produce producer order key).2))) :
    ∃ b outs post ctx outcome store' chain, n.Builds producer order key parent s b
      ∧ Accepted n.chain b s outs post ctx outcome store' chain
      ∧ n.chain.importAndApply b = (.ok outcome, chain)
      ∧ n.produce producer order key = ({ n with chain := chain }.settle b, [⟨n.chain, b⟩])
      ∧ b.transactions.toList = (n.produceParams order key parent s).candidates
      ∧ ∀ r ∈ b.receipts.toList, r.status = true := by
  have hr := hn.ready hk hv order
  obtain ⟨b, hb⟩ := hr.exists_block producer
  have hp := BlockProducer.produced_of_ok hb
  obtain ⟨hcalls, hproduce⟩ := hn.produce_eq h0 hb
  rw [hcalls] at hcf
  -- everything goes through
  have hperm : (n.produceParams order key parent s).candidates.Perm n.chain.pool.transactions :=
    ProduceParams.perm_candidates (order.perm _) haff.few
  have hfunded : Funded GasConfig.default (n.produceParams order key parent s).state
      (n.produceParams order key parent s).context
      (n.produceParams order key parent s).candidates :=
    haff.funded hn.queues hn.supply hperm
  obtain ⟨hall, hstatus, hgas, hclean⟩ := hfunded.executeEach
  have hlimit : (n.produceParams order key parent s).executed.2.2.gasUsed ≤ producer.gasLimit := by
    rw [UInt64.le_iff_toNat_le]
    refine hgas.trans ?_
    have hsum := (hperm.map fun tx => tx.gas.toNat).sum_eq
    have hzero : (n.produceParams order key parent s).context.gasUsed.toNat = 0 := rfl
    rw [hsum, hzero, Nat.zero_add]
    exact haff.limit
  -- the block is valid, and new
  obtain ⟨outs, hexec, -⟩ := hp.executeBlock_of_clean hclean
  have hfresh : n.chain.store.getBlock b.hash = none := by
    refine hr.fresh hn.inv hp hcf ⟨b.header, ?_, rfl⟩ fun h x hx => ⟨x.header, ?_, rfl⟩
    · exact built_mem_headersOf calls ⟨n.chain, b⟩
    · exact mem_headersOf (hn.known h x hx) _
  have hpre : n.chain.store.stateAt b.header.parentHash = some s := by
    rw [hp.parentHash]
    exact hn.snapshot
  obtain ⟨outcome, store', chain, himport, ha⟩ := ChainState.importAndApply_of_valid hn.inv hpre
    hexec hp.stateRoot.symm ⟨hr.headerValid hv.roundTrip hp, hfresh⟩ (hp.validate_of_le hlimit)
  refine ⟨b, outs, _, _, outcome, store', chain, ⟨hn.head, hn.stored, hn.snapshot, hb⟩, ha, himport,
    hproduce outcome chain himport, hp.transactions.trans hall, fun r hr => ?_⟩
  rw [hp.receipts] at hr
  obtain ⟨p, hp, rfl⟩ := List.mem_map.mp hr
  exact hstatus p hp

/-- **A tick leaves nothing pending.** -/
theorem tick (hn : Serving g k calls n parent s) (hk : k + 1 < 2 ^ 64) (hv : Validates g key)
    (haff : Affordable producer s n.chain.pool) {order : IterOrder PendingTx}
    (hcf : CollisionFree (headerBytes g (calls ++ (n.produce producer order key).2))) :
    (∃ parent' s', Serving g (k + 1) (calls ++ (n.produce producer order key).2)
      (n.produce producer order key).1 parent' s')
    ∧ (n.produce producer order key).1.chain.pool.pending = ∅
    ∧ ((n.produce producer order key).2.flatMap fun call => call.block.transactions.toList).Perm
      n.chain.pool.transactions
    ∧ ∀ call ∈ (n.produce producer order key).2, call.newHead = some call.block
      ∧ ∀ r ∈ call.block.receipts.toList, r.status = true := by
  by_cases h0 : n.chain.pool.pending.size = 0
  · have hempty : n.chain.pool.pending = ∅ := Std.ExtTreeMap.eq_empty_iff_size_eq_zero.mpr h0
    rw [Node.produce, if_pos h0, List.append_nil]
    refine ⟨⟨parent, s, { hn with height := hn.height.trans (Nat.le_succ k) }⟩, hempty, ?_, nofun⟩
    rw [TransactionPool.transactions, hempty]
    exact .refl _
  obtain ⟨b, outs, post, ctx, outcome, store', chain, hb, ha, himport, heq, htxs, hstatus⟩ :=
    hn.imports hk hv haff h0 hcf
  have hperm : (n.produceParams order key parent s).candidates.Perm n.chain.pool.transactions :=
    ProduceParams.perm_candidates (order.perm _) haff.few
  have hm := hb.moved (hn.ready hk hv order).height ha
  obtain ⟨hget, hexp⟩ := TransactionPool.removed
    (n.chain.store.txsOnPath parent.hash ++ b.transactions.toList) n.chain.pool
  rw [← hb.pool_of_moved hn.inv ha hm] at hget hexp
  have hempty : chain.pool.pending = ∅ := by
    refine Table.ext fun h => ?_
    rw [hget, Std.ExtTreeMap.getElem?_empty]
    split
    · rfl
    · next hmem =>
      cases he : n.chain.pool.pending[h]? with
      | none => rfl
      | some e =>
        refine absurd ?_ hmem
        rw [← (hn.queues.fits.keyed h e he).2]
        refine List.mem_map_of_mem (List.mem_append_right _ ?_)
        rw [htxs, hperm.mem_iff]
        exact TransactionPool.mem_transactions.mpr ⟨h, e, he, rfl⟩
  rw [heq]
  refine ⟨?_, hempty, ?_, fun call hcall => ?_⟩
  · obtain ⟨x, hxb, hhead, hstored, hsnap⟩ := Node.head_settle hn.inv ha hm
    refine ⟨x, post.rootHash.2, Node.storeInv_settle hn.inv ha, hhead, hstored, hsnap, ?_, ?_,
      fun h y hy => ?_, Queues.of_empty hempty fun a => ?_, ?_⟩
    · have hheight := hn.height
      have hnum : b.header.number = parent.header.number.saturatingAdd 1 := hb.produced.number
      have h1 : (1 : UInt64).toNat = 1 := rfl
      rw [hxb, hnum, UInt64.toNat_saturatingAdd]
      omega
    · rw [(Node.sameHeaders_settle { n with chain := chain } b).consensus, ha.consensus]
      exact hn.consensus
    · have hheader := (Node.sameHeaders_settle { n with chain := chain } b).headers h
      rw [hy, Option.map_some] at hheader
      obtain ⟨z, hz, hzy⟩ := Option.map_eq_some_iff.mp hheader.symm
      change chain.store.getBlock h = some z at hz
      rw [ha.getBlock] at hz
      rw [← hzy]
      split at hz
      · cases hz
        exact built_mem_headersOf calls ⟨n.chain, b⟩
      · exact mem_headersOf (hn.known h z hz) _
    · show chain.pool.expectedNonce a = _
      have hnonce := (ha.nonce_post a).2
      have hcount := (hn.queues.countsUp haff.usable hperm
        (n.produceParams order key parent s).sorted_candidates a).2
      rw [htxs] at hnonce
      rw [hexp, (post.ledger_rootHash a).1, ← UInt64.toNat_inj]
      omega
    · have htotal := (executedAll_of_ok ha.executed).total
      have hsupply := hn.supply
      rw [StateDB.totalBalance_rootHash]
      omega
  · rw [List.flatMap_singleton, htxs]
    exact hperm
  · rw [List.mem_singleton.mp hcall]
    refine ⟨?_, hstatus⟩
    rw [ImportCall.newHead, himport]
    exact if_pos hm

omit [Wasmi] in
/-- **A transaction is submitted.** -/
theorem submit (hn : Serving g k calls n parent s) (tx : Transaction) (origin : TxOrigin)
    (addedAtMs : UInt64) :
    Serving g k calls { n with chain :=
      { n.chain with pool := (n.chain.pool.addTransactionAt tx origin addedAtMs).2 } } parent s :=
  { hn with queues := hn.queues.addTransactionAt tx origin addedAtMs }

end Serving

/-! ### Runs -/

/-- The hash of a transaction that was admitted. -/
def Told.pending : Told → Option H256
  | transaction hash => some hash
  | imported _ | produced _ => none

omit [Ed25519] [Wasmi] in
theorem Queues.hashes {s : StateDB} {pool : TransactionPool} (hq : Queues s pool) :
    pool.transactions.map Transaction.hash = pool.pending.toList.map Prod.fst := by
  rw [TransactionPool.transactions, List.map_map]
  refine List.map_congr_left fun p hp => ?_
  exact (hq.fits.keyed p.1 p.2 (Table.mem_toList.mp hp)).2

/-- **What is told is what becomes pending.** -/
theorem Queues.told {s : StateDB} {n : Node} (hq : Queues s n.chain.pool) (tx : Transaction)
    (origin : TxOrigin) (addedAtMs : UInt64) :
    (((NodeEvent.transaction tx origin addedAtMs).told n).filterMap Told.pending
      ++ n.chain.pool.transactions.map Transaction.hash).Perm
    ((n.chain.pool.addTransactionAt tx origin addedAtMs).2.transactions.map Transaction.hash) := by
  have hkeys : ∀ (m : Table H256 PendingTx) (k : H256),
      k ∈ m.toList.map Prod.fst ↔ ∃ e, m[k]? = some e :=
    fun m k => List.mem_toFinset.symm.trans Table.mem_keys
  rw [(hq.addTransactionAt tx origin addedAtMs).hashes, hq.hashes, NodeEvent.told]
  rcases n.chain.pool.addTransactionAt_cases tx origin addedAtMs with ⟨ha, heq⟩ | ⟨-, e, heq⟩
  · rw [heq]
    refine (List.perm_ext_iff_of_nodup ?_ (Table.nodup_keys _)).mpr fun k => ?_
    · refine List.nodup_cons.mpr ⟨fun hmem => ?_, Table.nodup_keys _⟩
      obtain ⟨e, he⟩ := (hkeys _ _).mp hmem
      rw [ha.fresh] at he
      cases he
    · show k ∈ tx.hash :: n.chain.pool.pending.toList.map Prod.fst
        ↔ k ∈ (n.chain.pool.pending.insert tx.hash _).toList.map Prod.fst
      rw [List.mem_cons, hkeys, hkeys, Table.get_insert]
      by_cases hk : k = tx.hash
      · simp [hk]
      · simp [hk]
  · rw [heq]
    exact .refl _

namespace NodeEvent

variable {g : Genesis} {n n' n'' : Node} {es : List NodeEvent} {e : NodeEvent}
  {calls calls' : List ImportCall}

theorem toldRun_snoc (h : run g n es = some (n', calls))
    (hstep : e.step g n' = some (n'', calls')) :
    toldRun g n (es ++ [e]) = toldRun g n es ++ e.told n' := by
  induction es generalizing n calls with
  | nil =>
    cases h
    simp [toldRun, hstep]
  | cons e₀ es ih =>
    rw [run] at h
    cases h₀ : e₀.step g n with
    | none =>
      rw [h₀] at h
      cases h
    | some r =>
      rw [h₀] at h
      obtain ⟨⟨n₁, calls₁⟩, h₁, heq⟩ := Option.map_eq_some_iff.mp h
      cases heq
      rw [List.cons_append, toldRun, toldRun, h₀]
      simp only [ih h₁, List.append_assoc]

/-- The included transactions, with those that are pending. -/
def taken (calls : List ImportCall) (n : Node) : List Transaction :=
  (calls.flatMap fun call => call.block.transactions.toList) ++ n.chain.pool.transactions

/-- Every tick of the events meets a pool that can be paid. -/
def AffordableRun : Genesis → Node → List NodeEvent → Prop :=
  EachTick fun producer _ _ n => ∀ h s, n.chain.store.head = some h →
    n.chain.store.stateAt h = some s → Affordable producer s n.chain.pool

omit [Wasmi] in
theorem serving_fresh (g : AllocGenesis) (archive : Bool) (archiveKeep : UInt64)
    (hsupply : g.state.totalBalance < 2 ^ 256) :
    Serving g.toGenesis 0 [] (Node.fresh g.toGenesis archive archiveKeep) g.block g.state := by
  have hsnap : g.store.stateAt g.block.hash = some g.state :=
    congrArg (Option.map StateDB.fork) ((g.snapshots _).trans (if_pos rfl))
  refine ⟨g.storeInv, g.head, g.getBlock_block, hsnap, ?_, ?_, fun h x hx => ?_, ?_, hsupply⟩
  · rw [g.number]
    exact le_rfl
  · obtain ⟨outcome, store', heq, -, hn⟩ := g.inserted
    show g.store.consensus = _
    rw [Genesis.store, heq]
    exact hn.consensus
  · have hx := (g.getBlock h).symm.trans hx
    split at hx
    · cases hx
      exact List.mem_cons_self
    · cases hx
  · refine Queues.of_empty rfl fun a => ?_
    rw [g.nonce_eq_zero]
    rfl

/-- **Between any two events**: what was told is included or pending, everything included was
included in a head, and succeeded. -/
theorem serving_run (g : AllocGenesis) (archive : Bool) (archiveKeep : UInt64)
    (hsupply : g.state.totalBalance < 2 ^ 256) (es : List NodeEvent) (hes : ∀ e ∈ es, e.Alone)
    (hkeys : ∀ producer key order, tick producer key order ∈ es → Validates g.toGenesis key)
    (hlen : es.length < 2 ^ 64)
    (haff : AffordableRun g.toGenesis (Node.fresh g.toGenesis archive archiveKeep) es)
    (hcf : ∀ n calls, run g.toGenesis (Node.fresh g.toGenesis archive archiveKeep) es
      = some (n, calls) → CollisionFree (headerBytes g.toGenesis calls)) :
    ∃ n calls parent s,
      run g.toGenesis (Node.fresh g.toGenesis archive archiveKeep) es = some (n, calls)
      ∧ Serving g.toGenesis es.length calls n parent s
      ∧ ((toldRun g.toGenesis (Node.fresh g.toGenesis archive archiveKeep) es).filterMap
        Told.pending).Perm ((taken calls n).map Transaction.hash)
      ∧ (∀ call ∈ calls, call.newHead = some call.block
        ∧ ∀ r ∈ call.block.receipts.toList, r.status = true)
      ∧ ∀ before producer key order, es = before ++ [tick producer key order] →
        n.chain.pool.pending = ∅ := by
  induction es using List.reverseRecOn with
  | nil =>
    refine ⟨_, [], g.block, g.state, rfl, serving_fresh g archive archiveKeep hsupply, ?_, nofun,
      fun before producer key order heq => ?_⟩
    · exact .refl _
    · simp at heq
  | append_singleton es e ih =>
    have he := hes e (List.mem_append_right _ (List.mem_singleton_self _))
    rw [List.length_append, List.length_singleton] at hlen ⊢
    obtain ⟨n, calls, parent, s, hrun, hn, htold, hcalls, -⟩ := ih
      (fun e he => hes e (List.mem_append_left _ he))
      (fun producer key order h => hkeys producer key order (List.mem_append_left _ h))
      (by omega) (EachTick.of_snoc haff) (fun n calls h => by
        obtain ⟨n', calls', hstep⟩ := he.step_isSome g.toGenesis n
        refine (hcf n' _ (run_snoc h hstep)).mono ?_
        rintro x ⟨header, hmem, rfl⟩
        exact ⟨header, Serving.mem_headersOf hmem _, rfl⟩)
    cases e with
    | transaction tx origin addedAtMs =>
      have hstep := (rfl : (transaction tx origin addedAtMs).step g.toGenesis n = some _)
      have hrun' := run_snoc hrun hstep
      rw [List.append_nil] at hrun'
      refine ⟨_, calls, parent, s, hrun', ?_, ?_, hcalls, fun before producer key order heq => ?_⟩
      · exact { hn.submit tx origin addedAtMs with height := hn.height.trans (Nat.le_succ _) }
      · rw [toldRun_snoc hrun hstep, List.filterMap_append]
        refine (htold.append_right _).trans ?_
        rw [taken, taken, List.map_append, List.map_append, List.append_assoc]
        refine List.Perm.append_left _ ?_
        exact List.perm_append_comm.trans (hn.queues.told tx origin addedAtMs)
      · have hlast := congrArg List.getLast? heq
        simp at hlast
    | tick producer key order =>
      have hstep : (tick producer key order).step g.toGenesis n
          = some ((n.produce producer order key).1, (n.produce producer order key).2) := rfl
      have hrun' := run_snoc hrun hstep
      have hafford := haff es producer key order [] rfl n calls hrun _ s hn.head hn.snapshot
      have hval := hkeys producer key order (List.mem_append_right _ (List.mem_singleton_self _))
      obtain ⟨⟨parent', s', hn'⟩, hempty, hperm, hnew⟩ := hn.tick hlen hval hafford (hcf _ _ hrun')
      refine ⟨_, _, parent', s', hrun', hn', ?_, fun call hcall => ?_, fun _ _ _ _ _ => hempty⟩
      · have hnothing : (((tick producer key order).told n).filterMap Told.pending) = [] := by
          rw [told]
          refine List.filterMap_eq_nil_iff.mpr fun t ht => ?_
          obtain ⟨b, -, rfl⟩ := List.mem_map.mp ht
          rfl
        have hpool : (n.produce producer order key).1.chain.pool.transactions = [] := by
          rw [TransactionPool.transactions, hempty]
          rfl
        rw [toldRun_snoc hrun hstep, List.filterMap_append, hnothing, List.append_nil]
        refine htold.trans (List.Perm.map _ ?_)
        rw [taken, taken, hpool, List.append_nil, List.flatMap_append]
        exact hperm.symm.append_left _
      · exact (List.mem_append.mp hcall).elim (hcalls call) (hnew call)
    | block b order => exact he.elim
    | restart archive archiveKeep => exact he.elim

/-- **Every transaction that is admitted is confirmed.**  A validator of a network that asks for one
seal has no peers and starts from its genesis, whose balances make up less than `2 ^ 256`;
transactions are submitted and the producer ticks, in any order.  At every tick at most 128
transactions are pending, the senders can pay for all of them, each has gas for its intrinsic cost
and not the last nonce, none calls code, and the gas of all is within the limit of a block and that
of the producer; no two headers have one hash.  Then every block it builds becomes its head, with
receipts that report success; the transactions that were told as pending are those in the blocks
and those still pending, each as often as it was told; and right after a tick none is pending. -/
theorem all_confirmed (g : AllocGenesis) (archive : Bool) (archiveKeep : UInt64)
    (hsupply : g.state.totalBalance < 2 ^ 256) (es : List NodeEvent) (hes : ∀ e ∈ es, e.Alone)
    (hkeys : ∀ producer key order, tick producer key order ∈ es → Validates g.toGenesis key)
    (hlen : es.length < 2 ^ 64)
    (haff : AffordableRun g.toGenesis (Node.fresh g.toGenesis archive archiveKeep) es)
    (hcf : ∀ n calls, run g.toGenesis (Node.fresh g.toGenesis archive archiveKeep) es
      = some (n, calls) → CollisionFree (headerBytes g.toGenesis calls)) :
    ∃ n calls, run g.toGenesis (Node.fresh g.toGenesis archive archiveKeep) es = some (n, calls)
      ∧ ((toldRun g.toGenesis (Node.fresh g.toGenesis archive archiveKeep) es).filterMap
        Told.pending).Perm ((taken calls n).map Transaction.hash)
      ∧ (∀ call ∈ calls, call.newHead = some call.block
        ∧ ∀ r ∈ call.block.receipts.toList, r.status = true)
      ∧ ∀ before producer key order, es = before ++ [tick producer key order] →
        n.chain.pool.pending = ∅ := by
  obtain ⟨n, calls, parent, s, hrun, -, htold, hcalls, hempty⟩ :=
    serving_run g archive archiveKeep hsupply es hes hkeys hlen haff hcf
  exact ⟨n, calls, hrun, htold, hcalls, hempty⟩

end NodeEvent

end

namespace Devnet

/-- Two transfers are submitted, the later one first refused, and the producer ticks. -/
def twoAndTick : List NodeEvent :=
  [.transaction (transfer 1) .local 0, .transaction (transfer 0) .local 0,
    .transaction (transfer 1) .local 0, .tick BlockProducer.new validatorKey inOrder]

/-- The node before the tick. -/
def beforeTick : Node :=
  let n := Node.fresh genesis true 1
  { n with chain := { n.chain with
    pool := (((n.chain.pool.addTransactionAt (transfer 1) .local 0).2.addTransactionAt
      (transfer 0) .local 0).2.addTransactionAt (transfer 1) .local 0).2 } }

theorem run_beforeTick : NodeEvent.run genesis (Node.fresh genesis true 1) (twoAndTick.take 3)
    = some (beforeTick, []) := by
  simp only [twoAndTick, List.take, NodeEvent.run, NodeEvent.step, Option.map_some, List.append_nil,
    beforeTick]

theorem affordable_beforeTick : Affordable BlockProducer.new state beforeTick.chain.pool := by
  have heval : beforeTick.chain.pool.transactions = [transfer 1, transfer 0]
      ∧ (transfer 0).sender = user ∧ (transfer 1).sender = user
      ∧ ([transfer 1, transfer 0].map Transaction.cost).sum ≤ state.balance user
      ∧ (∀ tx ∈ [transfer 1, transfer 0], tx.Usable
        ∧ (computeIntrinsicGas tx GasConfig.default).toNat ≤ tx.gas.toNat
        ∧ tx.recipient = some sink)
      ∧ state.getCode sink = [] := by decide +kernel
  obtain ⟨htxs, hzero, hone, hsum, htx, hcode⟩ := heval
  refine ⟨by decide +kernel, fun a => ?_, ?_, ?_, ?_, ?_, ?_⟩
  · rw [htxs]
    by_cases ha : a = user
    · have hsent : sentBy a [transfer 1, transfer 0] = [transfer 1, transfer 0] := by
        simp [sentBy, hzero, hone, ha]
      rw [hsent, ha]
      exact hsum
    · have hsent : sentBy a [transfer 1, transfer 0] = [] := by
        simp [sentBy, hzero, hone, Ne.symm ha]
      rw [hsent]
      exact Nat.zero_le _
  · rw [htxs]
    exact fun tx h => (htx tx h).1
  · rw [htxs]
    exact fun tx h => (htx tx h).2.1
  · rw [htxs]
    decide
  · rw [htxs]
    decide
  · rw [htxs]
    intro tx h callee hto
    obtain ⟨-, -, hsink⟩ := htx tx h
    cases hsink.symm.trans hto
    refine ⟨hcode, fun other ho hnone => ?_⟩
    rw [(htx other ho).2.2] at hnone
    cases hnone

/-- On the small network both transfers are confirmed. -/
theorem all_confirmed_twoAndTick : ∃ n calls,
    NodeEvent.run genesis (Node.fresh genesis true 1) twoAndTick = some (n, calls)
    ∧ ((NodeEvent.toldRun genesis (Node.fresh genesis true 1) twoAndTick).filterMap
      Told.pending).Perm ((NodeEvent.taken calls n).map Transaction.hash)
    ∧ n.chain.pool.pending = ∅ := by
  have hcf : ((NodeEvent.run genesis (Node.fresh genesis true 1) twoAndTick).map
      fun r : Node × List ImportCall => decide (
        ∀ x ∈ (headersOf genesis r.2).map BlockHeader.codec.encode,
        ∀ y ∈ (headersOf genesis r.2).map BlockHeader.codec.encode,
          keccak256 x = keccak256 y → x = y)) = some true := by decide +kernel
  obtain ⟨n, calls, hrun, htold, -, hempty⟩ := NodeEvent.all_confirmed allocGenesis true 1
    (by decide +kernel) twoAndTick
    (by simp only [twoAndTick, List.forall_mem_cons, NodeEvent.Alone]; simp)
    (fun producer key order hmem => by
      obtain rfl : key = validatorKey := by
        simp [twoAndTick] at hmem
        exact hmem.2.1
      exact ⟨roundTrip, List.mem_singleton_self _, rfl⟩)
    (by decide)
    (fun before producer key order after heq n calls hrun h s hh hs => by
      have hlen : before = twoAndTick.take 3 ∧ producer = BlockProducer.new := by
        rcases before with _ | ⟨e₀, _ | ⟨e₁, _ | ⟨e₂, _ | ⟨e₃, rest⟩⟩⟩⟩
        · simp [twoAndTick] at heq
        · simp [twoAndTick] at heq
        · simp [twoAndTick] at heq
        · simp only [twoAndTick, List.cons_append, List.nil_append, List.cons.injEq,
            NodeEvent.tick.injEq] at heq
          obtain ⟨rfl, rfl, rfl, ⟨rfl, -, -⟩, -⟩ := heq
          exact ⟨rfl, rfl⟩
        · simp [twoAndTick] at heq
      rw [hlen.1] at hrun
      have hsome : some (n, calls) = some (beforeTick, []) := hrun.symm.trans run_beforeTick
      cases hsome
      obtain rfl : genesis.block.hash = h := Option.some.inj (genesis.head.symm.trans hh)
      change genesis.store.snapshots[genesis.block.hash]?.map StateDB.fork = some s at hs
      rw [genesis.snapshots, if_pos rfl] at hs
      cases hs
      rw [hlen.2]
      exact affordable_beforeTick)
    (fun n calls hrun => by
      change NodeEvent.run genesis (Node.fresh genesis true 1) twoAndTick = _ at hrun
      rw [hrun] at hcf
      refine CollisionFree.of_list (of_decide_eq_true (Option.some.inj hcf)) ?_
      rintro e ⟨header, hmem, rfl⟩
      exact List.mem_map_of_mem hmem)
  exact ⟨n, calls, hrun, htold,
    hempty (twoAndTick.take 3) BlockProducer.new validatorKey inOrder rfl⟩

end Devnet

end Ivory
