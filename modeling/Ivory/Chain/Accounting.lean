import Ivory.Chain.Replay

/-!
# Value and nonces along a chain

What the execution of a list of transactions does to the ledger, by induction
on the list; from it what a replay does; and from that, since every stored block
can be replayed, what holds on every chain a node accepted.

* `ExecutedAll`: a list of successful transactions, one after the other.
* `ChainOp.value_conserved`: **balances and gas paid add up to the genesis balances.**
* `ChainOp.no_replay`: **on every chain the nonces of each sender count up from its
  genesis nonce**, so no transaction occurs twice.
-/

namespace Ivory

open BlockStore

/-! ### Lists of transactions -/

/-- Successful transactions, one after the other. -/
inductive ExecutedAll [Keccak] (cfg : GasConfig) : StateDB → ExecutionContext →
    List Transaction → List ExecutionOutcome → StateDB → ExecutionContext → Prop
  | nil {s : StateDB} {ctx : ExecutionContext} : ExecutedAll cfg s ctx [] [] s ctx
  | cons {s s₁ s₂ : StateDB} {ctx ctx₁ ctx₂ : ExecutionContext} {tx : Transaction}
      {txs : List Transaction} {out : ExecutionOutcome} {outs : List ExecutionOutcome} :
      Executed cfg s ctx tx out s₁ ctx₁ → ExecutedAll cfg s₁ ctx₁ txs outs s₂ ctx₂ →
      ExecutedAll cfg s ctx (tx :: txs) (out :: outs) s₂ ctx₂

/-- What the transactions paid for gas. -/
def charges (txs : List Transaction) (outs : List ExecutionOutcome) : ℕ :=
  ((txs.zip outs).map fun e => e.2.gasUsed.toNat * e.1.gasPrice.toNat).sum

@[simp] theorem charges_cons (tx : Transaction) (txs : List Transaction) (out : ExecutionOutcome)
    (outs : List ExecutionOutcome) : charges (tx :: txs) (out :: outs)
      = out.gasUsed.toNat * tx.gasPrice.toNat + charges txs outs := rfl

theorem charges_append {txs₁ txs₂ : List Transaction} {outs₁ outs₂ : List ExecutionOutcome}
    (h : outs₁.length = txs₁.length) :
    charges (txs₁ ++ txs₂) (outs₁ ++ outs₂) = charges txs₁ outs₁ + charges txs₂ outs₂ := by
  rw [charges, List.zip_append h.symm, List.map_append, List.sum_append]
  rfl

/-- The transactions of one sender. -/
def sentBy (a : Address) (txs : List Transaction) : List Transaction :=
  txs.filter fun tx => tx.sender = a

/-- The nonces of a sender count up from `n`. -/
def CountsUp (a : Address) (txs : List Transaction) (n : ℕ) : Prop :=
  (sentBy a txs).map (fun tx => tx.nonce.toNat) = List.range' n (sentBy a txs).length

theorem CountsUp.append {a : Address} {txs₁ txs₂ : List Transaction} {n : ℕ}
    (h₁ : CountsUp a txs₁ n) (h₂ : CountsUp a txs₂ (n + (sentBy a txs₁).length)) :
    CountsUp a (txs₁ ++ txs₂) n := by
  rw [CountsUp, sentBy, List.filter_append, List.map_append, List.length_append,
    ← List.range'_append_1]
  exact congrArg₂ _ h₁ h₂

theorem CountsUp.nonce_lt {a : Address} {txs : List Transaction} {n : ℕ} (h : CountsUp a txs n)
    {tx : Transaction} (htx : tx ∈ txs) (hs : tx.sender = a) :
    tx.nonce.toNat < n + (sentBy a txs).length := by
  have hmem : tx.nonce.toNat ∈ (sentBy a txs).map fun t => t.nonce.toNat :=
    List.mem_map_of_mem (List.mem_filter.mpr ⟨htx, by simpa using hs⟩)
  rw [h, List.mem_range'_1] at hmem
  exact hmem.2

theorem CountsUp.pairwise {a : Address} {txs : List Transaction} {n : ℕ} (h : CountsUp a txs n) :
    txs.Pairwise fun x y => x.sender = a → y.sender = a → x.nonce < y.nonce := by
  have hup : ((sentBy a txs).map fun tx => tx.nonce.toNat).Pairwise (· < ·) := by
    rw [h]
    exact List.pairwise_lt_range' 1
  rw [List.pairwise_map, sentBy, List.pairwise_filter] at hup
  refine hup.imp fun hlt hx hy => ?_
  exact UInt64.lt_iff_toNat_lt.mpr (hlt (decide_eq_true hx) (decide_eq_true hy))

theorem nodup_of_countsUp (n : Address → ℕ) : ∀ (txs : List Transaction),
    (∀ a, CountsUp a txs (n a)) → (txs.map fun tx => (tx.sender, tx.nonce)).Nodup := by
  have hpairs : ∀ txs : List Transaction, (∀ a, ((sentBy a txs).map fun tx => tx.nonce).Nodup) →
      (txs.map fun tx => (tx.sender, tx.nonce)).Nodup := by
    intro txs
    induction txs with
    | nil => intro _; exact List.nodup_nil
    | cons tx txs ih =>
      intro h
      rw [List.map_cons, List.nodup_cons]
      refine ⟨fun hmem => ?_, ih fun a => ?_⟩
      · obtain ⟨tx', htx', heq⟩ := List.mem_map.mp hmem
        obtain ⟨hs, hn⟩ := Prod.mk.inj heq
        have hnd := h tx.sender
        rw [sentBy, List.filter_cons_of_pos (by simp), List.map_cons, List.nodup_cons] at hnd
        exact hnd.1 (List.mem_map.mpr ⟨tx', List.mem_filter.mpr ⟨htx', by simpa using hs⟩, hn⟩)
      · refine (h a).sublist (List.Sublist.map _ ?_)
        exact List.Sublist.filter _ (List.sublist_cons_self _ _)
  intro txs h
  refine hpairs txs fun a => List.Nodup.of_map UInt64.toNat ?_
  rw [List.map_map]
  exact (h a) ▸ List.nodup_range'

section

variable [Keccak] [Wasmi]

theorem executedAll_of_ok {cfg : GasConfig} : ∀ {txs : List Transaction} {s s' : StateDB}
    {ctx ctx' : ExecutionContext} {outs : List ExecutionOutcome},
    executeAll cfg s ctx txs = .ok (outs, s', ctx') → ExecutedAll cfg s ctx txs outs s' ctx' := by
  intro txs
  induction txs with
  | nil =>
    intro s s' ctx ctx' outs h
    cases h
    exact .nil
  | cons tx txs ih =>
    intro s s' ctx ctx' outs h
    obtain ⟨out, s₁, ctx₁, outs₁, he, hr, rfl⟩ := executeAll_cons_eq_ok h
    exact .cons (executeTransaction_eq_ok he) (ih hr)

end

namespace ExecutedAll

variable [Keccak] {cfg : GasConfig} {s s' : StateDB} {ctx ctx' : ExecutionContext}
  {txs : List Transaction} {outs : List ExecutionOutcome}

theorem length_eq (h : ExecutedAll cfg s ctx txs outs s' ctx') : outs.length = txs.length := by
  induction h with
  | nil => rfl
  | cons _ _ ih => rw [List.length_cons, List.length_cons, ih]

theorem total (h : ExecutedAll cfg s ctx txs outs s' ctx') :
    s'.totalBalance + charges txs outs = s.totalBalance := by
  induction h with
  | nil => rfl
  | cons hx _ ih =>
    have := hx.total
    rw [charges_cons]
    omega

theorem nonces (h : ExecutedAll cfg s ctx txs outs s' ctx') (a : Address) :
    CountsUp a txs (s.nonce a).toNat
      ∧ (s'.nonce a).toNat = (s.nonce a).toNat + (sentBy a txs).length := by
  induction h with
  | nil => exact ⟨rfl, rfl⟩
  | @cons s s₁ s₂ ctx ctx₁ ctx₂ tx txs out outs hx _ ih =>
    obtain ⟨hc, hn⟩ := ih
    have h₁ := hx.nonce a
    by_cases ha : tx.sender = a
    · have hsent : sentBy a (tx :: txs) = tx :: sentBy a txs := List.filter_cons_of_pos (by simpa)
      rw [if_pos ha.symm] at h₁
      rw [h₁] at hc hn
      rw [CountsUp, hsent, List.length_cons, List.map_cons, List.range'_succ, hn]
      refine ⟨congrArg₂ _ ?_ hc, by omega⟩
      rw [← hx.nonce_eq, ha]
    · have hsent : sentBy a (tx :: txs) = sentBy a txs := List.filter_cons_of_neg (by simpa)
      rw [if_neg (Ne.symm ha), Nat.add_zero] at h₁
      rw [h₁] at hc hn
      rw [CountsUp, hsent]
      exact ⟨hc, hn⟩

end ExecutedAll

/-! ### Replays -/

/-- The transactions of blocks, in order. -/
def txsOf (bs : List Block) : List Transaction := bs.flatMap fun b => b.transactions.toList

section

variable [Keccak] [Wasmi]

theorem replay_total : ∀ {bs : List Block} {s s' : StateDB} {outs : List ExecutionOutcome},
    replay s bs = .ok (outs, s') → outs.length = (txsOf bs).length
      ∧ s'.totalBalance + charges (txsOf bs) outs = s.totalBalance := by
  intro bs
  induction bs with
  | nil =>
    intro s s' outs h
    cases h
    exact ⟨rfl, rfl⟩
  | cons b bs ih =>
    intro s s' outs h
    obtain ⟨outs₁, s₁, ctx, outs₂, hb, hr, rfl⟩ := replay_cons h
    have hx := executedAll_of_ok hb
    obtain ⟨hlen, htot⟩ := ih hr
    have h₁ := hx.total
    rw [StateDB.totalBalance_rootHash] at htot
    rw [txsOf, List.flatMap_cons, ← txsOf, charges_append hx.length_eq, List.length_append,
      List.length_append, hlen, hx.length_eq]
    exact ⟨rfl, by omega⟩

theorem replay_nonces (a : Address) : ∀ {bs : List Block} {s s' : StateDB}
    {outs : List ExecutionOutcome}, replay s bs = .ok (outs, s') →
      CountsUp a (txsOf bs) (s.nonce a).toNat
        ∧ (s'.nonce a).toNat = (s.nonce a).toNat + (sentBy a (txsOf bs)).length := by
  intro bs
  induction bs with
  | nil =>
    intro s s' outs h
    cases h
    exact ⟨rfl, rfl⟩
  | cons b bs ih =>
    intro s s' outs h
    obtain ⟨outs₁, s₁, ctx, outs₂, hb, hr, rfl⟩ := replay_cons h
    obtain ⟨hc₁, hn₁⟩ := (executedAll_of_ok hb).nonces a
    obtain ⟨hc, hn⟩ := ih hr
    rw [(StateDB.ledger_rootHash s₁ a).1, hn₁] at hc hn
    rw [txsOf, List.flatMap_cons, ← txsOf]
    refine ⟨hc₁.append hc, ?_⟩
    rw [hn, sentBy, sentBy, sentBy, List.filter_append, List.length_append]
    omega

theorem executeBlocks_nonces (a : Address) : ∀ {bs : List Block} {s s' : StateDB},
    executeBlocks s bs = .ok s' →
      (s'.nonce a).toNat = (s.nonce a).toNat + (sentBy a (txsOf bs)).length := by
  intro bs
  induction bs with
  | nil =>
    intro s s' h
    cases h
    rfl
  | cons b bs ih =>
    intro s s' h
    rw [executeBlocks] at h
    cases he : executeBlock s b with
    | error e =>
      rw [he] at h
      cases h
    | ok r =>
      obtain ⟨outs, post, ctx⟩ := r
      rw [he] at h
      rw [ih h, ((executedAll_of_ok he).nonces a).2, txsOf, txsOf, List.flatMap_cons, sentBy,
        sentBy, sentBy, List.filter_append, List.length_append, Nat.add_assoc]

end

/-! ### Chains -/

namespace ChainOp

variable [Keccak] [Ed25519] [Wasmi]

variable (g : Genesis) (pool : TransactionPool) (ops : List ChainOp)

/-- **Value is conserved.**  On every chain a node accepted, the balances in the state of its tip
and what its transactions paid for gas when they were executed add up to the genesis balances;
and every block that is accepted next takes from the balances just what its transactions pay. -/
theorem value_conserved (hz : NoZeroHash g ops) :
    (∀ h s, (run g pool ops).cs.store.stateAt h = some s →
      ∃ bs outs, (run g pool ops).chain h = g.block :: bs ∧ replay g.state bs = .ok (outs, s)
        ∧ outs.length = (txsOf bs).length
        ∧ s.totalBalance + charges (txsOf bs) outs = g.state.totalBalance)
    ∧ ∀ b outcome cs', (run g pool ops).cs.importAndApply b = (.ok outcome, cs') →
      ∃ pre outs post ctx s, (run g pool ops).cs.store.stateAt b.header.parentHash = some pre
        ∧ executeBlock pre b = .ok (outs, post, ctx) ∧ cs'.store.stateAt b.hash = some s
        ∧ s.totalBalance + charges b.transactions.toList outs = pre.totalBalance := by
  have hr := replayInv_run g pool ops hz
  generalize run g pool ops = t at hr ⊢
  constructor
  · intro h s hs
    rw [stateAt, Option.map_eq_some_iff] at hs
    obtain ⟨s, hs, rfl⟩ := hs
    obtain ⟨b, hb⟩ := hr.stored h s hs
    obtain ⟨bs, outs, s₁, hchain, hrep, -, hsnap⟩ := hr.replayed h b hb
    cases hsnap s hs
    obtain ⟨hlen, htot⟩ := replay_total hrep
    exact ⟨bs, outs, hchain, hrep, hlen, htot⟩
  · intro b outcome cs' heq
    rcases ChainState.importAndApply_cases hr.inv b with
      ⟨e, he⟩ | ⟨pre, outs, post, ctx, outcome', store', cs'', heq', ha⟩
    · rw [he] at heq
      cases heq
    · rw [heq'] at heq
      cases heq
      refine ⟨pre, outs, post, ctx, post.rootHash.2, ha.parent, ha.executed, ?_, ?_⟩
      · rw [stateAt, ha.snapshots, Table.get_insert_self]
        rfl
      · rw [StateDB.totalBalance_rootHash]
        exact (executedAll_of_ok ha.executed).total

/-- **No transaction is replayed.**  On the chain of every stored block the nonces of each sender
count up from its genesis nonce, so no two transactions share sender and nonce, and none has the
hash of another; the nonce of an account in the state of the tip counts its transactions. -/
theorem no_replay (hz : NoZeroHash g ops) (h : H256) (b : Block)
    (hb : (run g pool ops).cs.store.getBlock h = some b) :
    ∃ bs, (run g pool ops).chain h = g.block :: bs
      ∧ ((txsOf bs).map fun tx => (tx.sender, tx.nonce)).Nodup
      ∧ (∀ a, CountsUp a (txsOf bs) (g.state.nonce a).toNat)
      ∧ (∀ s a, (run g pool ops).cs.store.stateAt h = some s →
        (s.nonce a).toNat = (g.state.nonce a).toNat + (sentBy a (txsOf bs)).length)
      ∧ (CollisionFree { e | ∃ tx ∈ txsOf bs, e = Transaction.codec.encode tx } →
        ((txsOf bs).map Transaction.hash).Nodup) := by
  have hr := replayInv_run g pool ops hz
  generalize run g pool ops = t at hr hb ⊢
  obtain ⟨bs, outs, s₁, hchain, hrep, -, hsnap⟩ := hr.replayed h b hb
  have hnd := nodup_of_countsUp (fun a => (g.state.nonce a).toNat) (txsOf bs)
    fun a => (replay_nonces a hrep).1
  refine ⟨bs, hchain, hnd, fun a => (replay_nonces a hrep).1, fun s a hs => ?_, fun hcf => ?_⟩
  · rw [stateAt, Option.map_eq_some_iff] at hs
    obtain ⟨s, hs, rfl⟩ := hs
    cases hsnap s hs
    exact (replay_nonces a hrep).2
  · refine (List.nodup_map_iff_inj_on hnd.of_map).mpr fun tx htx tx' htx' heq => ?_
    exact Transaction.codec.encode_injective (hcf ⟨tx, htx, rfl⟩ ⟨tx', htx', rfl⟩ heq)

end ChainOp

namespace Devnet

/-- The block with two transfers is imported. -/
def twoOps : List ChainOp := [.importBlock blockTwo]

theorem noZeroHash_twoOps : ChainOp.NoZeroHash genesis twoOps := by
  have hne : genesisBlock.hash ≠ H256.zero ∧ blockTwo.hash ≠ H256.zero := by decide +kernel
  refine ⟨hne.1, fun b hb => ?_⟩
  simp only [twoOps, List.mem_singleton, ChainOp.importBlock.injEq] at hb
  rw [hb]
  exact hne.2

theorem chain_twoOps : (ChainOp.run genesis TransactionPool.new twoOps).chain blockTwo.hash
    = [genesis.block, blockTwo] := by decide +kernel

/-- After two transfers of the user the balances and the gas of both make up the alloc. -/
theorem value_conserved_blockTwo : ∃ s outs,
    (ChainOp.run genesis TransactionPool.new twoOps).cs.store.stateAt blockTwo.hash = some s
      ∧ (ChainOp.run genesis TransactionPool.new twoOps).chain blockTwo.hash
        = [genesis.block, blockTwo]
      ∧ replay state [blockTwo] = .ok (outs, s) ∧ outs.length = 2
      ∧ s.totalBalance + charges (txsOf [blockTwo]) outs = state.totalBalance := by
  have heval : ((ChainOp.run genesis TransactionPool.new twoOps).cs.store.stateAt
      blockTwo.hash).isSome = true ∧ (txsOf [blockTwo]).length = 2 := by decide +kernel
  obtain ⟨s, hs⟩ := Option.isSome_iff_exists.mp heval.1
  obtain ⟨bs, outs, hchain, hrep, hlen, htot⟩ := (ChainOp.value_conserved genesis
    TransactionPool.new twoOps noZeroHash_twoOps).1 blockTwo.hash s hs
  obtain rfl : bs = [blockTwo] := List.tail_eq_of_cons_eq (hchain.symm.trans chain_twoOps)
  exact ⟨s, outs, hs, chain_twoOps, hrep, hlen.trans heval.2, htot⟩

/-- The nonces of two transfers of the user count up from zero. -/
theorem no_replay_blockTwo :
    (ChainOp.run genesis TransactionPool.new twoOps).chain blockTwo.hash = [genesis.block, blockTwo]
      ∧ txsOf [blockTwo] = [transfer 0, transfer 1]
      ∧ ((txsOf [blockTwo]).map fun tx => (tx.sender, tx.nonce)).Nodup
      ∧ CountsUp user (txsOf [blockTwo]) 0
      ∧ ∃ s, (ChainOp.run genesis TransactionPool.new twoOps).cs.store.stateAt blockTwo.hash
          = some s ∧ (s.nonce user).toNat = 2 := by
  have heval : ((ChainOp.run genesis TransactionPool.new twoOps).cs.store.getBlock
        blockTwo.hash).isSome = true
      ∧ ((ChainOp.run genesis TransactionPool.new twoOps).cs.store.stateAt
        blockTwo.hash).isSome = true
      ∧ txsOf [blockTwo] = [transfer 0, transfer 1]
      ∧ (sentBy user (txsOf [blockTwo])).length = 2 ∧ (genesis.state.nonce user).toNat = 0 := by
    decide +kernel
  obtain ⟨hblock, hstate, htxs, hlen, hzero⟩ := heval
  obtain ⟨b, hb⟩ := Option.isSome_iff_exists.mp hblock
  obtain ⟨s, hs⟩ := Option.isSome_iff_exists.mp hstate
  obtain ⟨bs, hchain, hnd, hup, hcount, -⟩ := ChainOp.no_replay genesis TransactionPool.new twoOps
    noZeroHash_twoOps blockTwo.hash b hb
  obtain rfl : bs = [blockTwo] := List.tail_eq_of_cons_eq (hchain.symm.trans chain_twoOps)
  have hnonce := hcount s user hs
  have hupUser := hup user
  rw [hzero] at hupUser hnonce
  exact ⟨chain_twoOps, htxs, hnd, hupUser, s, hs, by rw [hnonce, hlen]⟩

end Devnet

end Ivory
