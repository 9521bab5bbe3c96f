import Ivory.Chain.Acceptance
import Ivory.Node.Disk

/-!
# The pool and the chain

The pool has a next nonce for every sender, the live state has the nonces of the
accounts.  Admission moves the first, inclusion in a block the second, and a
restart forgets the first.  The two stay in step as long as no block takes the
head that moves a nonce back or beyond what the pool admitted, and no node
restarts on a chain with transactions; both can happen, and then they part.

* `PoolFits`: between the nonce of an account and the next nonce of the pool every
  nonce has its pending transaction.
* `PoolFits.enqueue`, `PoolFits.moved`: **admission and a new head keep this.**
* `InSync`, `NodeEvent.inSync_run`: **every run of steady events keeps this.**
* `NodeEvent.admission_follows_chain`: what follows for admission.
-/

namespace Ivory

open BlockStore

/-! ### The pool -/

namespace TransactionPool

theorem removed [Keccak] (txs : List Transaction) (pool : TransactionPool) :
    (∀ h : H256, (txs.foldl (fun pool tx => pool.remove tx.hash) pool).pending[h]?
      = if h ∈ txs.map Transaction.hash then none else pool.pending[h]?)
    ∧ ∀ a, (txs.foldl (fun pool tx => pool.remove tx.hash) pool).expectedNonce a
      = pool.expectedNonce a := by
  induction txs generalizing pool with
  | nil => exact ⟨fun h => by simp, fun a => rfl⟩
  | cons tx txs ih =>
    obtain ⟨hp, hn⟩ := ih (pool.remove tx.hash)
    refine ⟨fun h => ?_, fun a => (hn a).trans (expectedNonce_remove _ _ _)⟩
    rw [List.foldl_cons, hp, get_remove]
    simp only [List.map_cons, List.mem_cons, ← ite_or]
    exact if_congr or_comm rfl rfl

end TransactionPool

/-- The pool fits a state.  `S` are the encodings of the transactions that were ever seen. -/
structure PoolFits [Keccak] (S : Set (List UInt8)) (live : StateDB) (pool : TransactionPool) :
    Prop where
  keyed : pool.Filed
  known : ∀ (h : H256) e, pool.pending[h]? = some e → Transaction.codec.encode e.tx ∈ S
  /-- The greatest nonce is admitted again and again, but never executed. -/
  below : ∀ (h : H256) e, pool.pending[h]? = some e →
    e.tx.nonce < pool.expectedNonce e.tx.sender ∨ e.tx.nonce = UInt64.maxValue
  le : ∀ a, live.nonce a ≤ pool.expectedNonce a
  covered : ∀ a m, live.nonce a ≤ m → m < pool.expectedNonce a →
    ∃ (h : H256) (e : PendingTx), pool.pending[h]? = some e ∧ e.tx.sender = a ∧ e.tx.nonce = m

namespace PoolFits

variable [Keccak] {S : Set (List UInt8)} {live live' : StateDB} {pool : TransactionPool}

theorem congr (hp : PoolFits S live pool) (h : ∀ a, live'.nonce a = live.nonce a) :
    PoolFits S live' pool :=
  { hp with
    le := fun a => by rw [h a]; exact hp.le a
    covered := fun a m hm => hp.covered a m (by rw [← h a]; exact hm) }

theorem new (h : ∀ a, live.nonce a = 0) : PoolFits S live TransactionPool.new := by
  have hnone : ∀ h : H256, TransactionPool.new.pending[h]? = none :=
    fun h => Std.ExtTreeMap.getElem?_empty
  have hexp : ∀ a, TransactionPool.new.expectedNonce a = 0 := by
    intro a
    rw [TransactionPool.expectedNonce, TransactionPool.new, TransactionPool.withConfig,
      Std.ExtTreeMap.getElem?_empty]
    rfl
  refine ⟨.of_empty rfl, fun k e he => ?_, fun k e he => ?_, fun a => ?_, fun a m _ hm => ?_⟩
  · rw [hnone] at he
    cases he
  · rw [hnone] at he
    cases he
  · rw [h, hexp]
    exact UInt64.le_rfl
  · rw [hexp] at hm
    exact absurd hm (UInt64.not_lt.mpr UInt64.zero_le)

/-- **A sender without pending transactions**: the pool expects the nonce of the account. -/
theorem expectedNonce_eq (hp : PoolFits S live pool) {a : Address}
    (hno : ∀ (h : H256) e, pool.pending[h]? = some e → e.tx.sender ≠ a) :
    pool.expectedNonce a = live.nonce a := by
  refine UInt64.le_antisymm (UInt64.not_lt.mp fun hlt => ?_) (hp.le a)
  obtain ⟨h, e, he, hs, -⟩ := hp.covered a (live.nonce a) UInt64.le_rfl hlt
  exact hno h e he hs

variable [Ed25519]

theorem not_admissible (hp : PoolFits S live pool) {tx : Transaction}
    (h : tx.nonce < live.nonce tx.sender) : ¬ pool.Admissible tx := by
  intro ha
  rw [ha.nonce] at h
  exact absurd (hp.le tx.sender) (UInt64.not_le.mpr h)

theorem enqueue (hp : PoolFits S live pool) {tx : Transaction} (ha : pool.Admissible tx)
    (hS : Transaction.codec.encode tx ∈ S) (origin : TxOrigin) (addedAtMs : UInt64) :
    PoolFits S live (pool.enqueue tx origin addedAtMs) := by
  have hexp := pool.expectedNonce_enqueue tx origin addedAtMs
  have hsat := UInt64.toNat_saturatingAdd (pool.expectedNonce tx.sender) 1
  have hmono : ∀ a, pool.expectedNonce a ≤ (pool.enqueue tx origin addedAtMs).expectedNonce a := by
    intro a
    rw [hexp]
    split
    · next he =>
      rw [he, UInt64.le_iff_toNat_le, hsat]
      have := (pool.expectedNonce tx.sender).toNat_le_max
      omega
    · exact UInt64.le_rfl
  have hget : ∀ (h : H256) e, (pool.enqueue tx origin addedAtMs).pending[h]? = some e →
      (h = tx.hash ∧ e = ⟨tx.hash, tx, origin, addedAtMs⟩) ∨ pool.pending[h]? = some e := by
    intro h e he
    change (pool.pending.insert tx.hash _)[h]? = some e at he
    rw [Table.get_insert] at he
    split at he
    · next hh =>
      cases he
      exact .inl ⟨hh, rfl⟩
    · exact .inr he
  have hkeep : ∀ (h : H256) e, pool.pending[h]? = some e →
      (pool.enqueue tx origin addedAtMs).pending[h]? = some e := by
    intro h e he
    refine (Table.get_insert_of_ne _ _ ?_).trans he
    rintro rfl
    rw [ha.fresh] at he
    cases he
  refine ⟨hp.keyed.enqueue tx origin addedAtMs, fun h e he => ?_, fun h e he => ?_, fun a => ?_,
    fun a m hle hlt => ?_⟩
  · rcases hget h e he with ⟨rfl, rfl⟩ | he
    · exact hS
    · exact hp.known h e he
  · rcases hget h e he with ⟨rfl, rfl⟩ | he
    · rw [hexp, if_pos rfl, ha.nonce, UInt64.lt_iff_toNat_lt, hsat, ← UInt64.toNat_inj,
        UInt64.toNat_maxValue]
      have := (pool.expectedNonce tx.sender).toNat_le_max
      have h1 : (1 : UInt64).toNat = 1 := rfl
      omega
    · exact (hp.below h e he).imp_left fun hlt => UInt64.lt_of_lt_of_le hlt (hmono _)
  · exact UInt64.le_trans (hp.le a) (hmono a)
  · by_cases hm : m < pool.expectedNonce a
    · obtain ⟨h, e, he, hs⟩ := hp.covered a m hle hm
      exact ⟨h, e, hkeep h e he, hs⟩
    · -- the only new nonce is that of the transaction
      rw [hexp] at hlt
      split at hlt
      · next hs =>
        refine ⟨tx.hash, _, Table.get_insert_self _ _ _, hs.symm, ?_⟩
        rw [hs, UInt64.lt_iff_toNat_lt] at hm
        rw [UInt64.lt_iff_toNat_lt, hsat] at hlt
        have h1 : (1 : UInt64).toNat = 1 := rfl
        rw [ha.nonce, ← UInt64.toNat_inj]
        omega
      · exact absurd hlt hm

/-- **Admission**, whether the transaction is admitted or refused. -/
theorem addTransactionAt (hp : PoolFits S live pool) {tx : Transaction}
    (hS : Transaction.codec.encode tx ∈ S) (origin : TxOrigin) (addedAtMs : UInt64) :
    PoolFits S live (pool.addTransactionAt tx origin addedAtMs).2 := by
  rcases pool.addTransactionAt_cases tx origin addedAtMs with ⟨ha, heq⟩ | ⟨-, e, heq⟩
  · rw [heq]
    exact hp.enqueue ha hS origin addedAtMs
  · rw [heq]
    exact hp

theorem readded (hp : PoolFits S live pool) (hashes : List H256) {txs : List Transaction}
    (h : ∀ tx ∈ txs, tx.nonce < live.nonce tx.sender) :
    txs.foldl (fun pool tx =>
      if tx.hash ∈ hashes then pool else (pool.addTransaction tx .local).2) pool = pool := by
  refine List.foldlRecOn txs _ (motive := fun p => p = pool) rfl ?_
  rintro p rfl tx htx
  split
  · rfl
  · rcases p.addTransactionAt_cases tx .local 0 with ⟨ha, -⟩ | ⟨-, e, heq⟩
    · exact absurd ha (hp.not_admissible (h tx htx))
    · rw [TransactionPool.addTransaction, heq]

/-- **A new head.**  The transactions of the old chain are used up, those of the new chain leave the
pool, and the new nonces lie between the old ones and what the pool expects. -/
theorem moved (hp : PoolFits S live pool) (hcf : CollisionFree S) {old new : List Transaction}
    (hold : ∀ tx ∈ old, tx.nonce < live.nonce tx.sender)
    (hnew : ∀ tx ∈ new, tx.nonce < live'.nonce tx.sender ∧ Transaction.codec.encode tx ∈ S)
    (hstep : ∀ a, live.nonce a ≤ live'.nonce a ∧ live'.nonce a ≤ pool.expectedNonce a) :
    PoolFits S live' (new.foldl (fun pool tx => pool.remove tx.hash)
      (old.foldl (fun pool tx => if tx.hash ∈ new.map Transaction.hash then pool
        else (pool.addTransaction tx .local).2) pool)) := by
  rw [hp.readded _ hold]
  obtain ⟨hget, hexp⟩ := TransactionPool.removed new pool
  have hsub : ∀ (h : H256) e, (new.foldl (fun pool tx => pool.remove tx.hash) pool).pending[h]?
      = some e → pool.pending[h]? = some e := by
    intro h e he
    rw [hget] at he
    split at he
    · cases he
    · exact he
  refine ⟨fun h e he => hp.keyed h e (hsub h e he), fun h e he => hp.known h e (hsub h e he),
    fun h e he => ?_, fun a => ?_, fun a m hle hlt => ?_⟩
  · rw [hexp]
    exact hp.below h e (hsub h e he)
  · rw [hexp]
    exact (hstep a).2
  · rw [hexp] at hlt
    obtain ⟨h, e, he, hs, hm⟩ := hp.covered a m (UInt64.le_trans (hstep a).1 hle) hlt
    refine ⟨h, e, ?_, hs, hm⟩
    rw [hget, if_neg, he]
    -- a removed transaction is on the new chain, so its nonce is used up there
    intro hmem
    obtain ⟨tx, htx, hhash⟩ := List.mem_map.mp hmem
    have heq : e.tx = tx := Transaction.codec.encode_injective
      (hcf (hp.known h e he) (hnew tx htx).2 ((hp.keyed h e he).2.trans hhash.symm))
    have hlow := (hnew tx htx).1
    rw [← heq, hm, hs] at hlow
    exact absurd hle (UInt64.not_le.mpr hlow)

end PoolFits

/-! ### Imports -/

/-- An import that, if it takes the head, moves no nonce back and none beyond what the pool
admitted. -/
def ImportCall.InStep [Keccak] (call : ImportCall) : Prop :=
  ∀ pre, call.chain.store.stateAt call.block.header.parentHash = some pre →
    call.chain.store.takesHead call.block.hash call.block.header.number = true →
    ∀ a, (call.chain.live.nonce a).toNat
        ≤ (pre.nonce a).toNat + (sentBy a call.block.transactions.toList).length
      ∧ (pre.nonce a).toNat + (sentBy a call.block.transactions.toList).length
        ≤ (call.chain.pool.expectedNonce a).toNat

/-- The archive of a run: blocks under their hashes, among them the genesis, and nothing under the
zero hash.  The encodings of their transactions are in `S`. -/
structure Archived [Keccak] [Ed25519] (g : Genesis) (S : Set (List UInt8)) (A : Table H256 Block) :
    Prop where
  keyed : Keyed A
  zero : A[H256.zero]? = none
  genesis : A[g.block.hash]? = some g.block
  known : ∀ (h : H256) a, A[h]? = some a → ∀ tx ∈ a.transactions.toList,
    Transaction.codec.encode tx ∈ S

/-- Everything a node holds fits the archive, and its pool fits its live state. -/
structure InSync [Keccak] (A : Table H256 Block) (S : Set (List UInt8)) (n : Node) : Prop where
  fits : NodeFits A n
  pool : PoolFits S n.chain.live n.chain.pool

/-- Whether the import succeeds. -/
def ImportCall.accepted [Keccak] [Ed25519] [Wasmi] (call : ImportCall) : Bool :=
  (call.chain.importAndApply call.block).1.toOption.isSome

section Imports

variable [Keccak] [Ed25519] [Wasmi] {g : Genesis} {A : Table H256 Block} {S : Set (List UInt8)}

namespace Accepted

variable {cs cs' : ChainState} {b : Block} {pre post : StateDB} {outs : List ExecutionOutcome}
  {ctx : ExecutionContext} {outcome : InsertOutcome} {store' : BlockStore}

theorem importAndApply_isSome (ha : Accepted cs b pre outs post ctx outcome store' cs')
    (hi : StoreInv cs.store) : (cs.importAndApply b).1.toOption.isSome = true := by
  obtain ⟨outcome', store'', cs'', heq, -⟩ := ChainState.importAndApply_of_valid hi ha.parent
    ha.executed ha.root ha.insertable ha.valid
  rw [heq]
  rfl

theorem takesHead (ha : Accepted cs b pre outs post ctx outcome store' cs')
    (hi : StoreInv cs.store) (hm : outcome.headChanged = true) :
    cs.store.takesHead b.hash b.header.number = true := by
  rcases ha.inserted.cases with ⟨-, -, hlt, -⟩ | ⟨hf, -⟩
  · rw [BlockStore.takesHead]
    cases hh : cs.store.head with
    | none => rfl
    | some h =>
      obtain ⟨x, hx, -⟩ := hi.head_max h hh
      simp only [hx, Option.map_some, Option.getD_some, decide_eq_true_eq]
      rw [eq_comm (a := b.header.number)]
      exact forkKey_lt_iff.mp (hlt h x hh hx)
  · rw [hm] at hf
    cases hf

theorem pool_of_moved (ha : Accepted cs b pre outs post ctx outcome store' cs')
    (hm : outcome.headChanged = true) {h : H256} (hh : cs.store.head = some h) :
    cs'.pool = (cs'.store.txsOnPath b.hash).foldl (fun pool tx => pool.remove tx.hash)
      ((cs'.store.txsOnPath h).foldl (fun pool tx =>
        if tx.hash ∈ (cs'.store.txsOnPath b.hash).map Transaction.hash then pool
        else (pool.addTransaction tx .local).2) cs.pool) := by
  have hnew : outcome.newHead = b.hash :=
    Option.some.inj (ha.head.symm.trans (ha.live_of_moved hm).1)
  have hold : outcome.oldHead = some h := ha.inserted.oldHead.trans hh
  rw [ha.store_eq, ha.result, if_pos hm]
  simp only [ChainState.applyHeadChange, hnew, hold, Option.map_some, Option.getD_some]

theorem nonce_post (ha : Accepted cs b pre outs post ctx outcome store' cs') (a : Address) :
    CountsUp a b.transactions.toList (pre.nonce a).toNat
      ∧ (post.nonce a).toNat
        = (pre.nonce a).toNat + (sentBy a b.transactions.toList).length :=
  (executedAll_of_ok ha.executed).nonces a

end Accepted

/-- **The pool after an accepted block**, if the nonces after it lie between those of the live state
and what the pool expects. -/
theorem PoolFits.accepted {cs cs' : ChainState} {b : Block} {pre post : StateDB}
    {outs : List ExecutionOutcome} {ctx : ExecutionContext} {outcome : InsertOutcome}
    {store' : BlockStore} (hp : PoolFits S cs.live cs.pool) (hf : ChainFits A cs)
    (hA : Archived g S A) (hcf : CollisionFree S)
    (ha : Accepted cs b pre outs post ctx outcome store' cs') (hb : A[b.hash]? = some b)
    (hstep : outcome.headChanged = true →
      ∀ a, cs.live.nonce a ≤ post.nonce a ∧ post.nonce a ≤ cs.pool.expectedNonce a) :
    PoolFits S cs'.live cs'.pool := by
  cases hm : outcome.headChanged with
  | false =>
    obtain ⟨-, hlive, hpool, -⟩ := ha.stayed hm
    rw [hlive, hpool]
    exact hp
  | true =>
    have hf' := hf.accepted ha hb hA.zero
    obtain ⟨hhead, hlive⟩ := ha.live_of_moved hm
    -- the old head with its chain, in the new store
    obtain ⟨h, hh, hcount⟩ := hf.live
    obtain ⟨x, hx, -⟩ := hf.inv.head_max h hh
    obtain ⟨l, hl⟩ := hf'.inv.path h x
      (by rw [ha.store_eq]; exact ha.inserted.mono ha.insertable.fresh hx)
    obtain ⟨h', l', hh', hl', harch, hcount'⟩ := hf'.exists_path
    cases hhead.symm.trans hh'
    rw [ha.pool_of_moved hm hh]
    refine hp.moved hcf (fun tx htx => ?_) (fun tx htx => ?_) fun a => ?_
    · exact hcount.nonce_lt (hf'.copies.archivePath hl) (hf'.copies.mem_pathTxs hl htx)
    · have hmem := hf'.copies.mem_pathTxs hl' htx
      obtain ⟨k, -, y, hy, hty⟩ := mem_pathTxs.mp hmem
      exact ⟨hcount'.nonce_lt harch hmem, hA.known k y hy tx hty⟩
    · rw [hlive, (post.ledger_rootHash a).1]
      exact hstep hm a

/-- **A node after an accepted block.** -/
theorem InSync.accepted {n : Node} {b : Block} {pre post : StateDB} {outs : List ExecutionOutcome}
    {ctx : ExecutionContext} {outcome : InsertOutcome} {store' : BlockStore} {chain : ChainState}
    (hI : InSync A S n) (hA : Archived g S A) (hcf : CollisionFree S)
    (ha : Accepted n.chain b pre outs post ctx outcome store' chain) (hb : A[b.hash]? = some b)
    (hstep : outcome.headChanged = true →
      ∀ a, n.chain.live.nonce a ≤ post.nonce a ∧ post.nonce a ≤ n.chain.pool.expectedNonce a) :
    InSync A S ({ n with chain := chain }.settle b) :=
  ⟨hI.fits.accepted ha hb hA.zero,
    (hI.pool.accepted hI.fits.chain hA hcf ha hb hstep).congr fun a =>
      (chain.live.ledger_rootHash a).1⟩

/-- What is known of each call made for a block of a peer. -/
def ImportCall.Steady (A : Table H256 Block) (call : ImportCall) : Prop :=
  call.InStep ∧ (call.accepted = true → A[call.block.hash]? = some call.block)

/-- **Blocks of peers**: one call of `import_and_apply` after the other. -/
theorem InSync.callRule (hA : Archived g S A) (hcf : CollisionFree S) :
    Node.CallRule (ImportCall.Steady A) fun _ n => InSync A S n where
  inv _ _ hI := hI.fits.chain.inv
  take _ _ _ hI := ⟨⟨hI.fits.chain, hI.fits.disk, hI.fits.written⟩, hI.pool⟩
  refuse _ n b e hI _ _ := by
    cases e <;> exact ⟨⟨hI.fits.chain, hI.fits.disk, hI.fits.written⟩, hI.pool⟩
  accept _ n b pre outs post ctx outcome store' chain hI hok ha _ _ := by
    refine hI.accepted hA hcf ha (hok.2 (ha.importAndApply_isSome hI.fits.chain.inv)) fun hm a => ?_
    obtain ⟨hlow, hhigh⟩ := hok.1 pre ha.parent (ha.takesHead hI.fits.chain.inv hm) a
    rw [UInt64.le_iff_toNat_le, UInt64.le_iff_toNat_le, (ha.nonce_post a).2]
    exact ⟨hlow, hhigh⟩

/-! ### Production -/

/-- A block built on the head from pending transactions moves no nonce beyond what the pool
expects. -/
theorem PoolFits.le_of_pending {live : StateDB} {pool : TransactionPool} (hp : PoolFits S live pool)
    {cs cs' : ChainState} {b : Block} {pre post : StateDB} {outs : List ExecutionOutcome}
    {ctx : ExecutionContext} {outcome : InsertOutcome} {store' : BlockStore}
    (ha : Accepted cs b pre outs post ctx outcome store' cs')
    (hpre : ∀ a, pre.nonce a = live.nonce a)
    (hpend : ∀ tx ∈ b.transactions.toList, ∃ (h : H256) (e : PendingTx),
      pool.pending[h]? = some e ∧ e.tx = tx) (a : Address) :
    live.nonce a ≤ post.nonce a ∧ post.nonce a ≤ pool.expectedNonce a := by
  obtain ⟨hup, hpost⟩ := ha.nonce_post a
  have hle := hp.le a
  rw [hpre a] at hup hpost
  rw [UInt64.le_iff_toNat_le] at hle ⊢
  rw [UInt64.le_iff_toNat_le]
  refine ⟨by omega, ?_⟩
  cases hlen : (sentBy a b.transactions.toList).length with
  | zero => omega
  | succ k =>
    -- the last transaction of the account is pending, and its nonce is not the greatest one
    have hmem : (live.nonce a).toNat + k
        ∈ (sentBy a b.transactions.toList).map fun tx => tx.nonce.toNat := by
      rw [hup, List.mem_range'_1]
      omega
    obtain ⟨tx, htx, hnonce⟩ := List.mem_map.mp hmem
    obtain ⟨htx, hsender⟩ := List.mem_filter.mp htx
    obtain ⟨h, e, he, rfl⟩ := hpend tx htx
    have hmax := (post.nonce a).toNat_le_max
    rcases hp.below h e he with hlt | heq
    · rw [of_decide_eq_true hsender, UInt64.lt_iff_toNat_lt] at hlt
      omega
    · rw [heq, UInt64.toNat_maxValue] at hnonce
      omega

/-- **The tick of the producer.** -/
theorem InSync.produce {n : Node} (hI : InSync A S n) (hA : Archived g S A) (hcf : CollisionFree S)
    (producer : BlockProducer) (order : IterOrder PendingTx) (key : SecretKey)
    (hcalls : ∀ call ∈ (n.produce producer order key).2, call.accepted = true →
      A[call.block.hash]? = some call.block) :
    InSync A S (n.produce producer order key).1 := by
  have hi := hI.fits.chain.inv
  unfold Node.produce at hcalls ⊢
  split at hcalls
  · next h0 => rwa [if_pos h0]
  next h0 =>
  rw [if_neg h0]
  cases hparent : n.chain.store.headBlock with
  | none => exact hI
  | some parent =>
    cases hstate : n.chain.store.stateAt parent.hash with
    | none => simpa only [hstate] using hI
    | some state =>
      simp only [hparent, hstate] at hcalls ⊢
      cases hblock : (producer.produceBlock (n.produceParams order key parent state)).1 with
      | error e => exact hI
      | ok block =>
        simp only [hblock] at hcalls ⊢
        rcases ChainState.importAndApply_cases hi block with
          ⟨e, he⟩ | ⟨pre, outs, post, ctx, outcome, store', chain, heq, ha⟩
        · simp only [he]
          exact hI
        · simp only [heq] at hcalls ⊢
          have hb := hcalls ⟨n.chain, block⟩ (List.mem_singleton_self _)
            (ha.importAndApply_isSome hi)
          have hprod := BlockProducer.produced_of_ok hblock
          refine hI.accepted hA hcf ha hb fun _ a => ?_
          refine hI.pool.le_of_pending ha (fun a => ?_) (fun tx htx => ?_) a
          · -- the block was built on the snapshot of the head
            obtain ⟨h, hh, hcount⟩ := hI.fits.chain.live
            obtain ⟨h', hh', hget⟩ := Option.bind_eq_some_iff.mp hparent
            cases hh.symm.trans hh'
            have hpre := ha.parent
            rw [hprod.parentHash] at hpre
            change n.chain.store.stateAt parent.hash = some pre at hpre
            rw [hi.keyed h parent hget] at hpre
            obtain ⟨s, hs, rfl⟩ := Option.map_eq_some_iff.mp hpre
            exact (hI.fits.chain.snapshots h s hs).nonce_eq hcount a
          · exact hprod.exists_pending (order.perm _) htx

end Imports

/-! ### The genesis -/

theorem nonce_allocState [Keccak] (alloc : List (Address × U256)) (a : Address) :
    (allocState alloc).nonce a = 0 := by
  refine List.foldlRecOn alloc _ (motive := fun s : StateDB => s.nonce a = 0) rfl ?_
  intro s hs e _
  rw [StateDB.nonce_setAccount]
  split
  · rfl
  · exact hs

namespace AllocGenesis

variable [Keccak] [Ed25519] (g : AllocGenesis)

theorem nonce_eq_zero (a : Address) : g.state.nonce a = 0 := by
  rw [g.state_eq]
  exact nonce_allocState g.alloc a

theorem counted {A : Table H256 Block} (hA : A[g.block.hash]? = some g.block) :
    Counted A g.block.hash g.state := by
  refine counted_of_nil (.root hA (if_pos g.number)) ?_ g.nonce_eq_zero
  rw [pathTxs_cons hA, g.transactions_eq]
  rfl

end AllocGenesis

/-! ### Runs -/

section Runs

variable [Keccak] [Ed25519] [Wasmi]

/-- The accepted blocks of a run, as they came. -/
def archiveOf (g : Genesis) (calls : List ImportCall) : Table H256 Block :=
  calls.foldl (fun A call => if call.accepted then A.insert call.block.hash call.block else A)
    ((∅ : Table H256 Block).insert g.block.hash g.block)

/-- The bytes that are hashed for a block and its transactions. -/
def Block.hashedBytes (b : Block) : List (List UInt8) :=
  b.encodings ++ b.transactions.toList.map Transaction.codec.encode

namespace NodeEvent

/-- The bytes that are hashed for an admission. -/
def hashedBytes : NodeEvent → List (List UInt8)
  | transaction tx _ _ => [Transaction.codec.encode tx]
  | _ => []

/-- The bytes that are hashed for the blocks and transactions of a run. -/
def runBytes (g : Genesis) (events : List NodeEvent) (calls : List ImportCall) :
    List (List UInt8) :=
  (g.block :: calls.map ImportCall.block).flatMap Block.hashedBytes ++ events.flatMap hashedBytes

/-- An event that keeps the pool and the chain in step: a block of a peer whose imports are in step,
or a restart on a chain without transactions.  Nothing is asked of an admission or a tick. -/
def Steady (n : Node) : NodeEvent → Prop
  | block b order => ∀ n' calls, n.receive order b = some (n', calls) → ∀ call ∈ calls, call.InStep
  | restart _ _ => ∀ a, n.chain.live.nonce a = 0
  | transaction _ _ _ => True
  | tick _ _ _ => True

/-- A run of steady events. -/
def SteadyRun (g : Genesis) : Node → List NodeEvent → Prop
  | _, [] => True
  | n, e :: es => e.Steady n ∧ ∀ n' calls, e.step g n = some (n', calls) → SteadyRun g n' es

end NodeEvent

section Archive

variable {g : Genesis} {calls : List ImportCall} {S : Set (List UInt8)}

theorem of_archiveOf {h : H256} {b : Block} (hb : (archiveOf g calls)[h]? = some b) :
    b.hash = h ∧ (b = g.block ∨ ∃ call ∈ calls, call.accepted = true ∧ call.block = b) := by
  revert hb
  refine List.foldlRecOn calls _ (motive := fun A : Table H256 Block => A[h]? = some b →
    b.hash = h ∧ (b = g.block ∨ ∃ call ∈ calls, call.accepted = true ∧ call.block = b)) ?_ ?_
  · intro hb
    rw [Table.get_insert] at hb
    split at hb
    · next he =>
      cases hb
      exact ⟨he.symm, .inl rfl⟩
    · rw [Std.ExtTreeMap.getElem?_empty] at hb
      cases hb
  · intro A ih call hcall hb
    split at hb
    · next hacc =>
      rw [Table.get_insert] at hb
      split at hb
      · next he =>
        cases hb
        exact ⟨he.symm, .inr ⟨call, hcall, hacc, rfl⟩⟩
      · exact ih hb
    · exact ih hb

theorem archiveOf_isSome (g : Genesis) (calls : List ImportCall) :
    (∃ b, (archiveOf g calls)[g.block.hash]? = some b)
    ∧ ∀ call ∈ calls, call.accepted = true →
      ∃ b, (archiveOf g calls)[call.block.hash]? = some b := by
  have hmono : ∀ (cs : List ImportCall) (A : Table H256 Block) (h : H256) (b : Block),
      A[h]? = some b → ∃ b', (cs.foldl (fun A call =>
        if call.accepted then A.insert call.block.hash call.block else A) A)[h]? = some b' := by
    intro cs A h b hb
    refine List.foldlRecOn cs _ (motive := fun A : Table H256 Block => ∃ b', A[h]? = some b')
      ⟨b, hb⟩ ?_
    rintro A ⟨b', hb'⟩ call -
    split
    · rw [Table.get_insert]
      split
      · exact ⟨_, rfl⟩
      · exact ⟨b', hb'⟩
    · exact ⟨b', hb'⟩
  refine ⟨hmono _ _ _ g.block (Table.get_insert_self _ _ _), fun call hcall hacc => ?_⟩
  obtain ⟨cs, cs', rfl⟩ := List.append_of_mem hcall
  rw [archiveOf, List.foldl_append, List.foldl_cons, if_pos hacc]
  exact hmono _ _ _ call.block (Table.get_insert_self _ _ _)

theorem ImportCall.validate_of_accepted {call : ImportCall} (h : call.accepted = true) :
    call.block.validate = .ok () := by
  rw [accepted] at h
  rcases hr : call.chain.importAndApply call.block with ⟨r, cs'⟩
  rw [hr] at h
  cases r with
  | error e => cases h
  | ok outcome =>
    obtain ⟨-, -, -, -, -, -, -, hvalid, -⟩ := ChainState.importAndApply_ok hr
    exact hvalid

/-- **Without collisions the archive holds every accepted block**, under its own hash. -/
theorem archived_archiveOf {events : List NodeEvent} (hcf : CollisionFree S)
    (hS : ∀ e ∈ NodeEvent.runBytes g events calls, e ∈ S)
    (hz : g.block.hash ≠ H256.zero ∧ ∀ call ∈ calls, call.block.hash ≠ H256.zero) :
    Archived g S (archiveOf g calls) ∧ ∀ call ∈ calls, call.accepted = true →
      (archiveOf g calls)[call.block.hash]? = some call.block := by
  have hbytes : ∀ b, (b = g.block ∨ ∃ call ∈ calls, call.accepted = true ∧ call.block = b) →
      b.validate = .ok () ∧ ∀ e ∈ b.hashedBytes, e ∈ S := by
    have hmem : ∀ b ∈ g.block :: calls.map ImportCall.block, ∀ e ∈ b.hashedBytes, e ∈ S :=
      fun b hb e he => hS e (List.mem_append_left _ (List.mem_flatMap.mpr ⟨b, hb, he⟩))
    rintro b (rfl | ⟨call, hcall, hacc, rfl⟩)
    · exact ⟨g.valid, hmem _ List.mem_cons_self⟩
    · exact ⟨ImportCall.validate_of_accepted hacc,
        hmem _ (List.mem_cons_of_mem _ (List.mem_map_of_mem hcall))⟩
  -- what is archived under the hash of a valid block is that block
  have hself : ∀ b b', (b = g.block ∨ ∃ call ∈ calls, call.accepted = true ∧ call.block = b) →
      (archiveOf g calls)[b.hash]? = some b' → (archiveOf g calls)[b.hash]? = some b := by
    intro b b' hb hget
    obtain ⟨hhash, hb'⟩ := of_archiveOf hget
    obtain ⟨hv, he⟩ := hbytes b hb
    obtain ⟨hv', he'⟩ := hbytes b' hb'
    rw [hget, Block.eq_of_hash_eq hcf (fun e hm => he' e (List.mem_append_left _ hm))
      (fun e hm => he e (List.mem_append_left _ hm)) hv' hv hhash]
  refine ⟨⟨fun h a ha => (of_archiveOf ha).1, ?_, ?_, fun h a ha tx htx => ?_⟩, ?_⟩
  · cases hget : (archiveOf g calls)[H256.zero]? with
    | none => rfl
    | some b =>
      obtain ⟨hhash, rfl | ⟨call, hcall, -, rfl⟩⟩ := of_archiveOf hget
      · exact absurd hhash hz.1
      · exact absurd hhash (hz.2 call hcall)
  · obtain ⟨b, hb⟩ := (archiveOf_isSome g calls).1
    exact hself g.block b (.inl rfl) hb
  · exact (hbytes a (of_archiveOf ha).2).2 _
      (List.mem_append_right _ (List.mem_map_of_mem htx))
  · intro call hcall hacc
    obtain ⟨b, hb⟩ := (archiveOf_isSome g calls).2 call hcall hacc
    exact hself call.block b (.inr ⟨call, hcall, hacc, rfl⟩) hb

end Archive

namespace NodeEvent

variable {g : AllocGenesis} {A : Table H256 Block} {S : Set (List UInt8)}

/-- **One steady event keeps the pool and the chain in step.** -/
theorem inSync_step {n n' : Node} {e : NodeEvent} {calls : List ImportCall}
    (hA : Archived g.toGenesis S A) (hcf : CollisionFree S) (hI : InSync A S n) (hs : e.Steady n)
    (hb : ∀ x ∈ e.hashedBytes, x ∈ S) (hstep : e.step g.toGenesis n = some (n', calls))
    (hcalls : ∀ call ∈ calls, call.accepted = true → A[call.block.hash]? = some call.block) :
    InSync A S n' := by
  cases e with
  | transaction tx origin addedAtMs =>
    cases hstep
    refine ⟨⟨⟨hI.fits.chain.inv, hI.fits.chain.copies, hI.fits.chain.snapshots, hI.fits.chain.live⟩,
      hI.fits.disk, hI.fits.written⟩, ?_⟩
    exact hI.pool.addTransactionAt (hb _ (List.mem_singleton_self _)) origin addedAtMs
  | block b order =>
    exact Node.receive_rule (InSync.callRule hA hcf) hstep
      (fun call hcall => ⟨hs n' calls hstep call hcall, hcalls call hcall⟩) hI
  | tick producer key order =>
    have heq : n.produce producer order key = (n', calls) := Option.some.inj hstep
    have hI' := hI.produce hA hcf producer order key (by rw [heq]; exact hcalls)
    rw [heq] at hI'
    exact hI'
  | restart archive archiveKeep =>
    obtain ⟨m, hm, heq⟩ := Option.map_eq_some_iff.mp hstep
    cases heq
    have hrun : Node.runNode g.toGenesis
        (ChainPersist.openWith n.persist.db archive archiveKeep) = .ok n' := by
      cases hr : Node.runNode g.toGenesis
          (ChainPersist.openWith n.persist.db archive archiveKeep) with
      | error e =>
        rw [hr] at hm
        cases hm
      | ok x =>
        rw [hr] at hm
        cases hm
        rfl
    obtain ⟨hfits, hlive, hpool⟩ := hI.fits.restart hA.keyed hs g.nonce_eq_zero
      (g.counted hA.genesis) hrun
    refine ⟨hfits, ?_⟩
    rw [hpool]
    exact PoolFits.new hlive

/-- **Every run of steady events keeps the pool and the chain in step.** -/
theorem inSync_run (hA : Archived g.toGenesis S A) (hcf : CollisionFree S) :
    ∀ (events : List NodeEvent) (n n' : Node) (calls : List ImportCall), InSync A S n →
      SteadyRun g.toGenesis n events → (∀ x ∈ events.flatMap hashedBytes, x ∈ S) →
      run g.toGenesis n events = some (n', calls) →
      (∀ call ∈ calls, call.accepted = true → A[call.block.hash]? = some call.block) →
      InSync A S n' := by
  intro events
  induction events with
  | nil =>
    intro n n' calls hI _ _ hrun _
    cases hrun
    exact hI
  | cons e es ih =>
    intro n n' calls hI hs hb hrun hcalls
    rw [run] at hrun
    split at hrun
    · cases hrun
    next n₁ calls₁ hstep =>
    obtain ⟨⟨n₂, calls₂⟩, hrest, heq⟩ := Option.map_eq_some_iff.mp hrun
    cases heq
    rw [List.flatMap_cons] at hb
    have h₁ := inSync_step hA hcf hI hs.1 (fun x hx => hb x (List.mem_append_left _ hx)) hstep
      fun call hc => hcalls call (List.mem_append_left _ hc)
    exact ih n₁ n₂ calls₂ h₁ (hs.2 n₁ calls₁ hstep) (fun x hx => hb x (List.mem_append_right _ hx))
      hrest fun call hc => hcalls call (List.mem_append_right _ hc)

/-- **Admission follows the chain**, in every run of steady events: an account without a pending
transaction is expected to use its nonce in the live state, a signed transaction with that nonce is
admitted as long as the limits of the pool allow it, and no transaction of the canonical chain is
admitted again. -/
theorem admission_follows_chain (g : AllocGenesis) (archive : Bool) (archiveKeep : UInt64)
    (events : List NodeEvent) (n : Node) (calls : List ImportCall)
    (hrun : run g.toGenesis (Node.fresh g.toGenesis archive archiveKeep) events = some (n, calls))
    (hsteady : SteadyRun g.toGenesis (Node.fresh g.toGenesis archive archiveKeep) events)
    (S : Set (List UInt8)) (hcf : CollisionFree S)
    (hS : ∀ e ∈ runBytes g.toGenesis events calls, e ∈ S)
    (hz : g.block.hash ≠ H256.zero ∧ ∀ call ∈ calls, call.block.hash ≠ H256.zero) :
    (∀ a, (∀ (h : H256) entry, n.chain.pool.pending[h]? = some entry → entry.tx.sender ≠ a) →
      n.chain.pool.expectedNonce a = n.chain.live.nonce a
      ∧ ∀ tx origin addedAtMs, recoverSender tx = .ok a → tx.nonce = n.chain.live.nonce a →
        Transaction.codec.encode tx ∈ S → n.chain.pool.config.minGas ≤ tx.gas →
        n.chain.pool.pending.size < n.chain.pool.config.maxPending.toNat →
        n.chain.pool.senderCount a < n.chain.pool.config.maxPerSender →
        (n.chain.pool.addTransactionAt tx origin addedAtMs).1 = .ok tx.hash)
    ∧ ∃ h, n.chain.store.head = some h
      ∧ ∀ tx ∈ txsOf (Tracked.chain ⟨n.chain, archiveOf g.toGenesis calls⟩ h), ∀ origin addedAtMs,
        ∃ e, n.chain.pool.addTransactionAt tx origin addedAtMs = (.error e, n.chain.pool) := by
  obtain ⟨hA, hcalls⟩ := archived_archiveOf hcf hS hz
  have hfresh : InSync (archiveOf g.toGenesis calls) S
      (Node.fresh g.toGenesis archive archiveKeep) :=
    ⟨NodeFits.fresh hA.genesis (g.counted hA.genesis) archive archiveKeep,
      PoolFits.new g.nonce_eq_zero⟩
  have hI := inSync_run hA hcf events _ n calls hfresh hsteady
    (fun x hx => hS x (List.mem_append_right _ hx)) hrun hcalls
  refine ⟨fun a hno => ?_, ?_⟩
  · have hexp := hI.pool.expectedNonce_eq hno
    refine ⟨hexp, fun tx origin addedAtMs hsig hnonce htx hgas hroom hcount => ?_⟩
    obtain ⟨rfl, -⟩ := recoverSender_eq_ok hsig
    have ha : n.chain.pool.Admissible tx := by
      refine ⟨hgas, hsig, ?_, hroom, hcount, hnonce.trans hexp.symm⟩
      -- a pending transaction with this hash would be this one
      cases hget : n.chain.pool.pending[tx.hash]? with
      | none => rfl
      | some entry =>
        have heq : entry.tx = tx := Transaction.codec.encode_injective
          (hcf (hI.pool.known _ entry hget) htx (hI.pool.keyed _ entry hget).2)
        exact absurd (congrArg Transaction.sender heq) (hno _ entry hget)
    rcases n.chain.pool.addTransactionAt_cases tx origin addedAtMs with ⟨-, heq⟩ | ⟨hna, -⟩
    · rw [heq]
    · exact absurd ha hna
  · obtain ⟨h, l, hh, hl, harch, hcount⟩ := hI.fits.chain.exists_path
    refine ⟨h, hh, fun tx htx origin addedAtMs => ?_⟩
    rw [Tracked.chain_eq (t := ⟨n.chain, archiveOf g.toGenesis calls⟩) hl] at htx
    rcases n.chain.pool.addTransactionAt_cases tx origin addedAtMs with ⟨ha, -⟩ | ⟨-, e, heq⟩
    · exact absurd ha (hI.pool.not_admissible (hcount.nonce_lt harch htx))
    · exact ⟨e, heq⟩

end NodeEvent

end Runs

namespace Devnet

/-- The pool and the chain disagree about the user: nothing is pending and the head has the first
transfer, yet the pool takes that transfer again and refuses the next one. -/
def OutOfStep (n : Node) : Prop :=
  n.chain.pool.pending.size = 0 ∧ n.chain.live.nonce user = 1 ∧ n.chain.pool.expectedNonce user = 0
    ∧ (n.chain.store.headBlock.map fun b => b.transactions.toList) = some [transfer 0]
    ∧ (n.chain.pool.addTransactionAt (transfer 0) .local 0).1.toOption = some (transfer 0).hash
    ∧ (n.chain.pool.addTransactionAt (transfer 1) .local 0).1.toOption = none

instance (n : Node) : Decidable (OutOfStep n) :=
  inferInstanceAs (Decidable (_ ∧ _ ∧ _ ∧ _ ∧ _ ∧ _))

/-- **A block of a peer puts the pool out of step, and so does a restart.**  The first node imports
a transfer that its pool never saw; the second one admits the transfer, includes it and restarts. -/
theorem pool_out_of_step :
    (∃ n calls, NodeEvent.run genesis (Node.fresh genesis true 256) [.block blockA inOrder]
      = some (n, calls) ∧ OutOfStep n)
    ∧ ∃ n calls, NodeEvent.run genesis (Node.fresh genesis true 256)
        [.transaction (transfer 0) .local 0, .tick BlockProducer.new validatorKey inOrder,
          .restart true 256] = some (n, calls) ∧ OutOfStep n := by
  have heval : ((NodeEvent.run genesis (Node.fresh genesis true 256) [.block blockA inOrder]).map
      fun r => decide (OutOfStep r.1)) = some true
      ∧ ((NodeEvent.run genesis (Node.fresh genesis true 256)
        [.transaction (transfer 0) .local 0, .tick BlockProducer.new validatorKey inOrder,
          .restart true 256]).map fun r => decide (OutOfStep r.1)) = some true := by decide +kernel
  obtain ⟨hpeer, hrestart⟩ := heval
  constructor
  · obtain ⟨⟨n, calls⟩, hrun, hout⟩ := Option.map_eq_some_iff.mp hpeer
    exact ⟨n, calls, hrun, of_decide_eq_true hout⟩
  · obtain ⟨⟨n, calls⟩, hrun, hout⟩ := Option.map_eq_some_iff.mp hrestart
    exact ⟨n, calls, hrun, of_decide_eq_true hout⟩

/-- The small network as a node starts it. -/
def allocGenesis : AllocGenesis where
  toGenesis := genesis
  alloc := [(user, U256.ofU64 1000000000000)]
  state_eq := rfl
  transactions_eq := by decide +kernel

/-- A node admits a transfer and then imports it from a peer. -/
def admitted : List NodeEvent := [.transaction (transfer 0) .local 0, .block blockA inOrder]

/-- The transfer of the block is in step once the pool admitted it. -/
theorem inStep_blockA {cs : ChainState} (hstore : cs.store = genesis.store)
    (hlive : cs.live = state)
    (hpool : cs.pool.expectedNonce user = 1) : (⟨cs, blockA⟩ : ImportCall).InStep := by
  intro pre hpre _ a
  have heval : blockA.header.parentHash = genesis.block.hash
      ∧ blockA.transactions.toList = [transfer 0] ∧ (transfer 0).sender = user := by decide +kernel
  obtain ⟨hparent, htxs, hsender⟩ := heval
  have hzero : (state.nonce a).toNat = 0 := congrArg UInt64.toNat (allocGenesis.nonce_eq_zero a)
  rw [hstore, hparent, stateAt, genesis.snapshots, if_pos rfl] at hpre
  cases hpre
  change (cs.live.nonce a).toNat ≤ (state.nonce a).toNat + _ ∧ (state.nonce a).toNat + _ ≤ _
  rw [hlive, hzero, htxs]
  refine ⟨Nat.zero_le _, ?_⟩
  by_cases ha : a = user
  · rw [ha, sentBy, List.filter_cons_of_pos (by simpa using hsender)]
    simp only [hpool]
    decide
  · rw [sentBy, List.filter_cons_of_neg (by simpa [hsender] using Ne.symm ha)]
    exact Nat.zero_le _

theorem steadyRun_admitted :
    NodeEvent.SteadyRun genesis (Node.fresh genesis true 256) admitted := by
  refine ⟨trivial, ?_⟩
  intro n₁ calls₁ h₁
  cases h₁
  refine ⟨?_, fun _ _ _ => trivial⟩
  intro n₂ calls₂ h₂ call hcall
  rw [Node.receive_calls rfl h₂, List.mem_singleton] at hcall
  rw [hcall]
  exact inStep_blockA rfl rfl (by decide +kernel)

/-- The node of the run above: the pool expects the nonce of the user, takes the next transfer and
refuses the one in the block. -/
theorem admission_follows_chain_admitted : ∃ n calls,
    NodeEvent.run genesis (Node.fresh genesis true 256) admitted = some (n, calls)
      ∧ n.chain.pool.expectedNonce user = n.chain.live.nonce user
      ∧ (n.chain.pool.addTransactionAt (transfer 1) .local 0).1 = .ok (transfer 1).hash
      ∧ ∃ e, n.chain.pool.addTransactionAt (transfer 0) .local 0 = (.error e, n.chain.pool) := by
  have heval : ((NodeEvent.run genesis (Node.fresh genesis true 256) admitted).map fun r =>
      decide (r.1.chain.pool.pending.toList = [] ∧ r.1.chain.store.head = some blockA.hash
        ∧ r.2.map ImportCall.block = [blockA] ∧ (transfer 1).nonce = r.1.chain.live.nonce user
        ∧ transfer 0 ∈ txsOf (Tracked.chain ⟨r.1.chain, archiveOf genesis r.2⟩ blockA.hash)
        ∧ r.1.chain.pool.config.minGas ≤ (transfer 1).gas
        ∧ r.1.chain.pool.pending.size < r.1.chain.pool.config.maxPending.toNat
        ∧ r.1.chain.pool.senderCount user < r.1.chain.pool.config.maxPerSender)) = some true
      ∧ genesisBlock.hash ≠ H256.zero ∧ blockA.hash ≠ H256.zero
      ∧ recoverSender (transfer 1) = .ok user := by
    decide +kernel
  obtain ⟨heval, hzero, hzeroA, hsig⟩ := heval
  obtain ⟨⟨n, calls⟩, hrun, heval⟩ := Option.map_eq_some_iff.mp heval
  obtain ⟨hpending, hhead, hblocks, hnonce, hmem, hgas, hroom, hcount⟩ := of_decide_eq_true heval
  -- everything that is hashed: the two blocks and the two transfers
  have hcf : ∀ x ∈ Transaction.codec.encode (transfer 1)
        :: ([genesisBlock, blockA].flatMap Block.hashedBytes
          ++ admitted.flatMap NodeEvent.hashedBytes),
      ∀ y ∈ Transaction.codec.encode (transfer 1)
        :: ([genesisBlock, blockA].flatMap Block.hashedBytes
          ++ admitted.flatMap NodeEvent.hashedBytes),
        keccak256 x = keccak256 y → x = y := by decide +kernel
  obtain ⟨hfree, h, hh, hrefuse⟩ :=
    NodeEvent.admission_follows_chain allocGenesis true 256 admitted n
    calls hrun steadyRun_admitted _ (fun x hx y hy => hcf x hx y hy)
    (fun e he => by
      rw [NodeEvent.runBytes, hblocks] at he
      exact List.mem_cons_of_mem _ he)
    ⟨hzero, fun call hcall => by
      have hb : call.block ∈ calls.map ImportCall.block := List.mem_map_of_mem hcall
      rw [hblocks, List.mem_singleton] at hb
      rw [hb]
      exact hzeroA⟩
  obtain ⟨hexp, hnext⟩ := hfree user fun h entry he => by
    have hm : (h, entry) ∈ n.chain.pool.pending.toList := Table.mem_toList.mpr he
    rw [hpending] at hm
    cases hm
  cases hhead.symm.trans hh
  exact ⟨n, calls, hrun, hexp,
    hnext (transfer 1) .local 0 hsig hnonce List.mem_cons_self hgas hroom hcount,
    hrefuse (transfer 0) hmem .local 0⟩

end Devnet

end Ivory
