import Ivory.Chain.Accounting
import Ivory.Chain.Producer

/-!
# Producer and importer

The producer executes all candidates on one state and skips those that fail;
the importer executes the included ones only.  A candidate that fails in a first
check leaves no trace, so skipping it is harmless.  A candidate that fails later
has been debited and its nonce is used up, and the root in the header commits to
that.

* `lateFailures`: the candidates that fail after the first write.
* `executeAll_of_clean`: **without such a candidate the importer reaches the state of
  the producer**, with the same receipts.
* `nonce_executeEach`: the nonces of the producer count those candidates too.
* `BlockProducer.import_iff`: **the produced block is imported exactly when there is
  no such candidate.**
-/

namespace Ivory

open BlockStore

/-! ### The context -/

/-- The same context with another beneficiary. -/
def ExecutionContext.payTo (ctx : ExecutionContext) (a : Address) : ExecutionContext :=
  { ctx with beneficiary := a }

section Runs

variable [Keccak] [Wasmi]

/-- Execution does not read the beneficiary. -/
theorem executeTransaction_payTo (cfg : GasConfig) (s : StateDB) (ctx : ExecutionContext)
    (tx : Transaction) (a : Address) : executeTransaction cfg s (ctx.payTo a) tx
      = ((executeTransaction cfg s ctx tx).1, (executeTransaction cfg s ctx tx).2.1,
          (executeTransaction cfg s ctx tx).2.2.payTo a) := by
  have hpre : precheck cfg s (ctx.payTo a) tx = precheck cfg s ctx tx := rfl
  rw [executeTransaction, executeTransaction, hpre]
  split
  · rfl
  next checked _ =>
  unfold settle
  split
  · rfl
  split
  · rfl
  split
  · rfl
  split
  · rfl
  · rfl

/-! ### Skipped transactions -/

/-- The transactions that fail after the first write, in the run that skips failures. -/
def lateFailures (cfg : GasConfig) : StateDB → ExecutionContext → List Transaction →
    List Transaction
  | _, _, [] => []
  | state, ctx, tx :: txs =>
    match executeTransaction cfg state ctx tx with
    | (.ok _, state, ctx) => lateFailures cfg state ctx txs
    | (.error _, state', ctx') =>
      match precheck cfg state ctx tx with
      | .error _ => lateFailures cfg state' ctx' txs
      | .ok _ => tx :: lateFailures cfg state' ctx' txs

/-- What one step of the run that skips failures can do. -/
theorem executeEach_cons (cfg : GasConfig) (s : StateDB) (ctx : ExecutionContext) (tx : Transaction)
    (txs : List Transaction) :
    (∃ out s₁ ctx₁, executeTransaction cfg s ctx tx = (.ok out, s₁, ctx₁)
      ∧ executeEach cfg s ctx (tx :: txs) = ((tx, out.receipt) :: (executeEach cfg s₁ ctx₁ txs).1,
          (executeEach cfg s₁ ctx₁ txs).2)
      ∧ lateFailures cfg s ctx (tx :: txs) = lateFailures cfg s₁ ctx₁ txs)
    ∨ (executeEach cfg s ctx (tx :: txs) = executeEach cfg s ctx txs
      ∧ lateFailures cfg s ctx (tx :: txs) = lateFailures cfg s ctx txs)
    ∨ (∃ checked s₁ ctx₁, precheck cfg s ctx tx = .ok checked
      ∧ (executeTransaction cfg s ctx tx).2 = (s₁, ctx₁) ∧ ctx₁ = ctx
      ∧ executeEach cfg s ctx (tx :: txs) = executeEach cfg s₁ ctx₁ txs
      ∧ lateFailures cfg s ctx (tx :: txs) = tx :: lateFailures cfg s₁ ctx₁ txs) := by
  rcases hx : executeTransaction cfg s ctx tx with ⟨r, s₁, ctx₁⟩
  cases r with
  | ok out =>
    refine .inl ⟨out, s₁, ctx₁, rfl, ?_, ?_⟩
    · rw [executeEach, hx]
    · rw [lateFailures, hx]
  | error e =>
    right
    cases hp : precheck cfg s ctx tx with
    | error e' =>
      rw [executeTransaction_of_precheck_error hp] at hx
      cases hx
      left
      rw [executeEach, lateFailures, executeTransaction_of_precheck_error hp, hp]
      exact ⟨rfl, rfl⟩
    | ok checked =>
      refine .inr ⟨checked, s₁, ctx₁, rfl, rfl, ?_, ?_, ?_⟩
      · rw [executeTransaction, hp] at hx
        exact settle_error_ctx hx
      · rw [executeEach, hx]
      · rw [lateFailures, hx, hp]

/-- **Without a late failure the importer reaches the state of the producer**, in the same
context and with the same receipts. -/
theorem executeAll_of_clean (cfg : GasConfig) : ∀ (txs : List Transaction) (s : StateDB)
    (ctx : ExecutionContext), lateFailures cfg s ctx txs = [] →
    ∃ outs, executeAll cfg s ctx ((executeEach cfg s ctx txs).1.map Prod.fst)
        = .ok (outs, (executeEach cfg s ctx txs).2)
      ∧ outs.map ExecutionOutcome.receipt = (executeEach cfg s ctx txs).1.map Prod.snd := by
  intro txs
  induction txs with
  | nil => intro s ctx _; exact ⟨[], rfl, rfl⟩
  | cons tx txs ih =>
    intro s ctx hclean
    rcases executeEach_cons cfg s ctx tx txs with ⟨out, s₁, ctx₁, hx, heach, hlate⟩
      | ⟨heach, hlate⟩ | ⟨_, s₁, ctx₁, -, -, -, -, hlate⟩
    · rw [hlate] at hclean
      obtain ⟨outs, hall, hrec⟩ := ih s₁ ctx₁ hclean
      refine ⟨out :: outs, ?_, ?_⟩
      · rw [heach, List.map_cons, executeAll, hx]
        simp only [hall]
      · rw [heach, List.map_cons, List.map_cons, hrec]
    · rw [hlate] at hclean
      rw [heach]
      exact ih s ctx hclean
    · rw [hlate] at hclean
      cases hclean

theorem executeAll_payTo (cfg : GasConfig) (a : Address) : ∀ (txs : List Transaction)
    {s s' : StateDB} {ctx ctx' : ExecutionContext} {outs : List ExecutionOutcome},
    executeAll cfg s ctx txs = .ok (outs, s', ctx') →
      executeAll cfg s (ctx.payTo a) txs = .ok (outs, s', ctx'.payTo a) := by
  intro txs
  induction txs with
  | nil =>
    intro s s' ctx ctx' outs h
    cases h
    rfl
  | cons tx txs ih =>
    intro s s' ctx ctx' outs h
    obtain ⟨out, s₁, ctx₁, outs₁, he, hr, rfl⟩ := executeAll_cons_eq_ok h
    rw [executeAll, executeTransaction_payTo, he]
    simp only [ih hr]

/-- **The nonces of the producer** count the included transactions and the late failures. -/
theorem nonce_executeEach (cfg : GasConfig) (a : Address) : ∀ (txs : List Transaction) (s : StateDB)
    (ctx : ExecutionContext), ((executeEach cfg s ctx txs).2.1.nonce a).toNat
      = (s.nonce a).toNat + (sentBy a ((executeEach cfg s ctx txs).1.map Prod.fst)).length
        + (sentBy a (lateFailures cfg s ctx txs)).length := by
  have hcons : ∀ (tx : Transaction) (txs : List Transaction), (sentBy a (tx :: txs)).length
      = (if a = tx.sender then 1 else 0) + (sentBy a txs).length := by
    intro tx txs
    by_cases ha : a = tx.sender
    · rw [sentBy, List.filter_cons_of_pos (by simpa using ha.symm), if_pos ha, List.length_cons,
        ← sentBy]
      omega
    · rw [sentBy, List.filter_cons_of_neg (by simpa using Ne.symm ha), if_neg ha, ← sentBy]
      omega
  intro txs
  induction txs with
  | nil => intro s ctx; rfl
  | cons tx txs ih =>
    intro s ctx
    rcases executeEach_cons cfg s ctx tx txs with ⟨out, s₁, ctx₁, hx, heach, hlate⟩
      | ⟨heach, hlate⟩ | ⟨checked, s₁, ctx₁, hp, hx, -, heach, hlate⟩
    · have h₁ := (executeTransaction_eq_ok hx).nonce a
      rw [heach, hlate]
      simp only [List.map_cons]
      rw [ih s₁ ctx₁, hcons, h₁]
      omega
    · rw [heach, hlate]
      exact ih s ctx
    · have h₁ := nonce_executeTransaction hp a
      rw [hx] at h₁
      rw [heach, hlate, ih s₁ ctx₁, hcons, h₁]
      omega

theorem gasUsed_executeEach (cfg : GasConfig) : ∀ (txs : List Transaction) (s : StateDB)
    (ctx : ExecutionContext), ctx.gasUsed ≤ cfg.maxGasPerBlock →
      (executeEach cfg s ctx txs).2.2.gasUsed ≤ cfg.maxGasPerBlock := by
  intro txs
  induction txs with
  | nil => intro s ctx h; exact h
  | cons tx txs ih =>
    intro s ctx h
    rcases executeEach_cons cfg s ctx tx txs with ⟨out, s₁, ctx₁, hx, heach, -⟩
      | ⟨heach, -⟩ | ⟨_, s₁, ctx₁, -, -, rfl, heach, -⟩
    · have hex := executeTransaction_eq_ok hx
      rw [heach]
      refine ih s₁ ctx₁ ?_
      have hproj := hex.projected
      have hgas := hex.gas
      rw [hex.ctx_eq]
      rw [UInt64.le_iff_toNat_le, UInt64.toNat_saturatingAdd] at hproj ⊢
      omega
    · rw [heach]
      exact ih s ctx h
    · rw [heach]
      exact ih s₁ ctx₁ h

theorem executeEach_sublist (cfg : GasConfig) : ∀ (txs : List Transaction) (s : StateDB)
    (ctx : ExecutionContext), ((executeEach cfg s ctx txs).1.map Prod.fst).Sublist txs := by
  intro txs
  induction txs with
  | nil => intro s ctx; exact List.Sublist.refl _
  | cons tx txs ih =>
    intro s ctx
    rcases executeEach_cons cfg s ctx tx txs with ⟨out, s₁, ctx₁, -, heach, -⟩
      | ⟨heach, -⟩ | ⟨_, s₁, ctx₁, -, -, -, heach, -⟩
    · rw [heach]
      exact (ih s₁ ctx₁).cons_cons tx
    · rw [heach]
      exact (ih s ctx).cons tx
    · rw [heach]
      exact (ih s₁ ctx₁).cons tx

end Runs

/-! ### The produced block -/

namespace ProduceParams

theorem mem_candidates {params : ProduceParams} {tx : Transaction} (h : tx ∈ params.candidates) :
    ∃ entry ∈ params.entries, entry.tx = tx := by
  have hmem : tx ∈ TransactionPool.getPending params.entries params.maxTxs :=
    (List.perm_insertionSort _ _).mem_iff.mp h
  obtain ⟨entry, he, rfl⟩ := List.mem_map.mp hmem
  exact ⟨entry, List.mem_of_mem_take he, rfl⟩

theorem length_candidates (params : ProduceParams) : params.candidates.length < 2 ^ 64 := by
  refine lt_of_le_of_lt ?_ params.maxTxs.toNat_lt
  rw [candidates, List.length_insertionSort, TransactionPool.getPending, List.length_map,
    TransactionPool.getPendingEntries, List.length_take]
  exact min_le_left _ _

variable [Keccak] [Wasmi]

theorem length_executed (params : ProduceParams) : params.executed.1.length < 2 ^ 64 := by
  have hle := (executeEach_sublist GasConfig.default params.candidates params.state
    params.context).length_le
  rw [List.length_map] at hle
  exact lt_of_le_of_lt hle params.length_candidates

theorem gasUsed_executed (params : ProduceParams) :
    params.executed.2.2.gasUsed ≤ GasConfig.default.maxGasPerBlock :=
  gasUsed_executeEach _ _ _ _ (UInt64.le_iff_toNat_le.mpr (Nat.zero_le _))

/-- The candidates that fail after the first write. -/
def late (params : ProduceParams) : List Transaction :=
  lateFailures GasConfig.default params.state params.context params.candidates

end ProduceParams

section Produced

variable [Keccak] [Ed25519] [Wasmi]

/-- What a produced block holds. -/
structure Produced (producer : BlockProducer) (params : ProduceParams) (b : Block) : Prop where
  number : b.header.number = params.parent.header.number.saturatingAdd 1
  parentHash : b.header.parentHash = params.parent.hash
  timestamp : b.header.timestamp = params.timestamp
  gasLimit : b.header.gasLimit = producer.gasLimit
  gasUsed : b.header.gasUsed = params.executed.2.2.gasUsed
  stateRoot : b.header.stateRoot = params.executed.2.1.rootHash.1
  transactions : b.transactions.toList = params.executed.1.map Prod.fst
  receipts : b.receipts.toList = params.executed.1.map Prod.snd
  transactionsRoot : b.header.transactionsRoot = listRoot Transaction.codec b.transactions
  receiptsRoot : b.header.receiptsRoot = listRoot Receipt.codec b.receipts
  miner : params.consensus.isValidator b.header.miner = true
  sealed : params.consensus.sealHeader (params.header producer.gasLimit) params.miner
    params.minerKey = .ok b.header

theorem BlockProducer.produced_of_ok {producer : BlockProducer} {params : ProduceParams} {b : Block}
    (h : (producer.produceBlock params).1 = .ok b) : Produced producer params b := by
  unfold produceBlock produceBlockWith at h
  simp only at h
  split at h
  · cases h
  next header hs =>
  cases h
  obtain ⟨hv, -, extra, rfl, -⟩ := PoAConsensus.sealHeader_eq_ok hs
  exact
    { number := rfl
      parentHash := rfl
      timestamp := rfl
      gasLimit := rfl
      gasUsed := rfl
      stateRoot := rfl
      transactions := Vec.toList_ofList (by rw [List.length_map]; exact params.length_executed)
      receipts := Vec.toList_ofList (by rw [List.length_map]; exact params.length_executed)
      transactionsRoot := rfl
      receiptsRoot := rfl
      miner := hv
      sealed := hs }

/-- The lists of a produced block match its header, so it is valid if its gas is below its limit. -/
theorem Produced.validate_of_le {producer : BlockProducer} {params : ProduceParams} {b : Block}
    (hp : Produced producer params b) (hle : params.executed.2.2.gasUsed ≤ producer.gasLimit) :
    b.validate = .ok () := by
  refine Block.validate_eq_ok.mpr ⟨?_, ?_, hp.transactionsRoot, hp.receiptsRoot⟩
  · rw [hp.gasUsed, hp.gasLimit]
    exact hle
  · rw [hp.transactions, hp.receipts, List.length_map, List.length_map]

theorem BlockProducer.exists_block {params : ProduceParams} (producer : BlockProducer)
    (hminer : params.miner = addressFromSecret params.minerKey)
    (hv : Validator.fromSecret params.minerKey ∈ params.consensus.config.validators) :
    ∃ b, (producer.produceBlock params).1 = .ok b := by
  obtain ⟨header, hs⟩ := PoAConsensus.sealHeader_isOk (c := params.consensus)
    (params.header producer.gasLimit) hv
  rw [← hminer, ProduceParams.header, ProduceParams.executed] at hs
  unfold BlockProducer.produceBlock BlockProducer.produceBlockWith
  simp only [hs]
  exact ⟨_, rfl⟩

/-- The producer works on the head of the store, with the key of a validator of a network that
asks for one seal. -/
structure Ready (store : BlockStore) (params : ProduceParams) : Prop where
  head : store.head = some params.parent.hash
  stored : store.getBlock params.parent.hash = some params.parent
  snapshot : store.stateAt params.parent.hash = some params.state
  height : params.parent.header.number < UInt64.maxValue
  consensus : params.consensus = store.consensus
  miner : params.miner = addressFromSecret params.minerKey
  validator : Validator.fromSecret params.minerKey ∈ store.consensus.config.validators
  required : store.consensus.config.requiredSignatures = 1
  timestamp : params.parent.header.timestamp ≤ params.timestamp

namespace Ready

variable {store : BlockStore} {params : ProduceParams}

theorem exists_block (hr : Ready store params) (producer : BlockProducer) :
    ∃ b, (producer.produceBlock params).1 = .ok b :=
  producer.exists_block hr.miner (by rw [hr.consensus]; exact hr.validator)

theorem headerValid (hr : Ready store params) (hrt : Ed25519.RoundTrip) {producer : BlockProducer}
    {b : Block} (hp : Produced producer params b) : HeaderValid store b.header := by
  have hv : Validator.fromSecret params.minerKey ∈ params.consensus.config.validators := by
    rw [hr.consensus]
    exact hr.validator
  have hreq : params.consensus.config.requiredSignatures = 1 := by
    rw [hr.consensus]
    exact hr.required
  refine ⟨by rw [← hr.consensus]; exact hp.miner, ?_, fun h0 => ?_, fun _ => ?_⟩
  · rw [← hr.consensus]
    exact PoAConsensus.verifyCryptoSeals_sealHeader hrt hv hreq hp.sealed
  · rw [hp.number, ← UInt64.toNat_inj, UInt64.toNat_saturatingAdd] at h0
    simp at h0
  · refine ⟨params.parent, by rw [hp.parentHash]; exact hr.stored, hp.number, ?_⟩
    rw [hp.timestamp]
    exact hr.timestamp

/-- Under the limit of `BlockProducer::new`, the cap of the executor, this is always so. -/
theorem validate {b : Block} (hp : Produced BlockProducer.new params b) : b.validate = .ok () :=
  hp.validate_of_le params.gasUsed_executed

/-- A produced block is higher than every stored block, so its hash is not stored. -/
theorem fresh (hr : Ready store params) (hi : StoreInv store) {producer : BlockProducer} {b : Block}
    (hp : Produced producer params b) {S : Set (List UInt8)} (hcf : CollisionFree S)
    (hb : BlockHeader.codec.encode b.header ∈ S)
    (hS : ∀ h x, store.getBlock h = some x → BlockHeader.codec.encode x.header ∈ S) :
    store.getBlock b.hash = none := by
  cases hx : store.getBlock b.hash with
  | none => rfl
  | some x =>
    have hheader : x.header = b.header :=
      BlockHeader.codec.encode_injective (hcf (hS _ x hx) hb (hi.keyed _ x hx))
    obtain ⟨p, hp', hmax⟩ := hi.head_max _ hr.head
    cases hp'.symm.trans hr.stored
    have hheight := hr.height
    rcases forkKey_le_iff.mp (hmax _ x hx) with hlt | ⟨heq, -⟩
    · rw [hheader, hp.number, UInt64.lt_iff_toNat_lt, UInt64.toNat_saturatingAdd] at hlt
      have := params.parent.header.number.toNat_lt
      simp at hlt
      omega
    · rw [hheader, hp.number, ← UInt64.toNat_inj, UInt64.toNat_saturatingAdd] at heq
      rw [UInt64.lt_iff_toNat_lt, UInt64.toNat_maxValue] at hheight
      simp at heq
      omega

end Ready

/-! ### Agreement -/

/-- The importer executes the included transactions in the context of the producer, but for the
beneficiary. -/
theorem Produced.executeBlock_eq {producer : BlockProducer} {params : ProduceParams} {b : Block}
    (hp : Produced producer params b) (s : StateDB) : executeBlock s b
      = executeAll GasConfig.default s (params.context.payTo Address.zero)
          (params.executed.1.map Prod.fst) := by
  rw [executeBlock, hp.transactions, hp.number, hp.timestamp]
  rfl

theorem Produced.executeBlock_of_clean {producer : BlockProducer} {params : ProduceParams}
    {b : Block} (hp : Produced producer params b) (hclean : params.late = []) :
    ∃ outs, executeBlock params.state b = .ok (outs, params.executed.2.1,
        params.executed.2.2.payTo Address.zero)
      ∧ outs.map ExecutionOutcome.receipt = b.receipts.toList := by
  obtain ⟨outs, hall, hrec⟩ := executeAll_of_clean _ _ _ _ hclean
  refine ⟨outs, ?_, hrec.trans hp.receipts.symm⟩
  rw [hp.executeBlock_eq]
  exact executeAll_payTo _ _ _ hall

/-- If the included transactions lead to the nonces of the producer, nothing failed late. -/
theorem Produced.late_eq_nil {producer : BlockProducer} {params : ProduceParams} {b : Block}
    (hp : Produced producer params b) {outs : List ExecutionOutcome} {post : StateDB}
    {ctx : ExecutionContext} (hexec : executeBlock params.state b = .ok (outs, post, ctx))
    (hnonce : ∀ a, post.nonce a = params.executed.2.1.nonce a) : params.late = [] := by
  have hlate : ∀ a, (sentBy a params.late).length = 0 := by
    intro a
    have h₁ := ((executedAll_of_ok hexec).nonces a).2
    have h₂ := nonce_executeEach GasConfig.default a params.candidates params.state params.context
    rw [hnonce a, hp.transactions] at h₁
    rw [ProduceParams.late]
    rw [ProduceParams.executed] at h₁
    omega
  cases hl : params.late with
  | nil => rfl
  | cons tx txs =>
    -- the sender of a late failure has sent one
    have h := hlate tx.sender
    rw [hl, sentBy, List.filter_cons_of_pos (by simp), List.length_cons] at h
    omega

/-- What is hashed when a produced block is looked up and its state root computed again. -/
def agreementEncodings (store : BlockStore) (params : ProduceParams) (b : Block) :
    Set (List UInt8) :=
  { e | e = BlockHeader.codec.encode b.header
      ∨ (∃ h x, store.getBlock h = some x ∧ e = BlockHeader.codec.encode x.header)
      ∨ e ∈ params.executed.2.1.rootEncodings
      ∨ ∃ outs post ctx, executeBlock params.state b = .ok (outs, post, ctx)
        ∧ e ∈ post.rootEncodings }

/-- On a fresh chain these are few, and can be listed. -/
theorem Genesis.agreementEncodings_subset (g : Genesis) {params : ProduceParams} {b : Block}
    {l : List (List UInt8)} (hb : BlockHeader.codec.encode b.header ∈ l)
    (hg : BlockHeader.codec.encode g.block.header ∈ l)
    (hroot : ∀ e ∈ params.executed.2.1.rootEncodings, e ∈ l)
    (hpost : ∀ outs post ctx, executeBlock params.state b = .ok (outs, post, ctx) →
      ∀ e ∈ post.rootEncodings, e ∈ l) :
    agreementEncodings g.store params b ⊆ { e | e ∈ l } := by
  rintro e (rfl | ⟨h, x, hx, rfl⟩ | he | ⟨outs, post, ctx, hexec, he⟩)
  · exact hb
  · rw [g.getBlock] at hx
    split at hx
    · cases hx
      exact hg
    · cases hx
  · exact hroot e he
  · exact hpost outs post ctx hexec e he

/-- The root in the header of a produced block is that of its included transactions exactly when
nothing failed late. -/
theorem Produced.root_iff {producer : BlockProducer} {params : ProduceParams} {b : Block}
    (hp : Produced producer params b) {store : BlockStore}
    (hcf : CollisionFree (agreementEncodings store params b)) :
    (∃ outs post ctx, executeBlock params.state b = .ok (outs, post, ctx)
      ∧ post.rootHash.1 = b.header.stateRoot) ↔ params.late = [] := by
  constructor
  · rintro ⟨outs, post, ctx, hexec, hroot⟩
    rw [hp.stateRoot] at hroot
    exact hp.late_eq_nil hexec (StateDB.nonce_eq_of_rootHash_eq hcf
      (fun e he => .inr (.inr (.inr ⟨outs, post, ctx, hexec, he⟩)))
      (fun e he => .inr (.inr (.inl he))) hroot)
  · intro hclean
    obtain ⟨outs, hexec, -⟩ := hp.executeBlock_of_clean hclean
    exact ⟨outs, _, _, hexec, hp.stateRoot.symm⟩

/-- **When a produced block is imported.**  A validator that builds on the head of any store its
operations can reach gets a block, whatever the pool holds.  The same store imports it exactly when
no candidate, executed in its turn, passed the first checks and failed after them; and exactly then
its state root is that of the included transactions, executed in order on the state of the
parent. -/
theorem BlockProducer.import_iff (c : PoAConsensus) (ops : List StoreOp) (live : StateDB)
    (pool : TransactionPool) (params : ProduceParams) (hr : Ready (StoreOp.run c ops) params)
    (hrt : Ed25519.RoundTrip)
    (hcf : ∀ b, (BlockProducer.new.produceBlock params).1 = .ok b →
      CollisionFree (agreementEncodings (StoreOp.run c ops) params b)) :
    ∃ b, (BlockProducer.new.produceBlock params).1 = .ok b
      ∧ ((∃ outcome, ((⟨StoreOp.run c ops, live, pool⟩ : ChainState).importAndApply b).1
        = .ok outcome) ↔ params.late = [])
      ∧ ((∃ outs post ctx, executeBlock params.state b = .ok (outs, post, ctx)
        ∧ post.rootHash.1 = b.header.stateRoot) ↔ params.late = []) := by
  obtain ⟨hi, -⟩ := StoreOp.inv_run c ops
  generalize StoreOp.run c ops = store at hr hcf hi ⊢
  have hi' : StoreInv (⟨store, live, pool⟩ : ChainState).store := hi
  obtain ⟨b, hb⟩ := hr.exists_block BlockProducer.new
  have hp := BlockProducer.produced_of_ok hb
  have hcf := hcf b hb
  have hroot := hp.root_iff hcf
  have hpre : store.stateAt b.header.parentHash = some params.state := by
    rw [hp.parentHash]
    exact hr.snapshot
  refine ⟨b, hb, ⟨?_, fun hclean => ?_⟩, hroot⟩
  · rintro ⟨outcome, hok⟩
    rcases ChainState.importAndApply_cases hi' b with
      ⟨e, he⟩ | ⟨pre, outs, post, ctx, outcome', store', cs', heq, ha⟩
    · rw [he] at hok
      cases hok
    · cases hpre.symm.trans ha.parent
      exact hroot.mp ⟨outs, post, ctx, ha.executed, ha.root⟩
  · obtain ⟨outs, post, ctx, hexec, hpost⟩ := hroot.mpr hclean
    have hins : Insertable store b :=
      ⟨hr.headerValid hrt hp, hr.fresh hi hp hcf (.inl rfl)
        fun h x hx => .inr (.inl ⟨h, x, hx, rfl⟩)⟩
    obtain ⟨outcome, store', cs', heq, -⟩ := ChainState.importAndApply_of_valid hi' hpre hexec hpost
      hins (Ready.validate hp)
    exact ⟨outcome, by rw [heq]⟩

end Produced

namespace Devnet

/-! ### A block that its own producer refuses -/

/-- The operations that set up the store of the small network. -/
def genesisOps : List StoreOp :=
  [.insertGenesis genesisBlock, .recordState genesisBlock.hash state]

/-- Production on the genesis of the small network. -/
def params (entries : List PendingTx) : ProduceParams :=
  { parent := genesisBlock, entries, state, consensus, miner := validator, minerKey := validatorKey
    timestamp := 1, maxTxs := 128 }

theorem run_genesisOps : StoreOp.run consensus genesisOps = genesis.store := rfl

theorem ready_params (entries : List PendingTx) :
    Ready (StoreOp.run consensus genesisOps) (params entries) := by
  have hc : genesis.store.consensus = consensus := (StoreOp.inv_run consensus genesisOps).2
  have hhead : genesis.store.head = some genesisBlock.hash := genesis.head
  have hget : genesis.store.getBlock genesisBlock.hash = some genesisBlock :=
    (genesis.getBlock _).trans (if_pos rfl)
  have hsnap : genesis.store.stateAt genesisBlock.hash = some state :=
    congrArg (Option.map StateDB.fork) ((genesis.snapshots _).trans (if_pos rfl))
  have hheight : genesisBlock.header.number < UInt64.maxValue := by
    rw [sealed_genesisBlock.2.1]
    decide
  have hval : Validator.fromSecret validatorKey ∈ genesis.store.consensus.config.validators := by
    rw [hc]
    exact List.mem_singleton_self _
  have hminer : validator = addressFromSecret validatorKey := by rw [validator]
  have hreq : genesis.store.consensus.config.requiredSignatures = 1 := by
    rw [hc]
    rfl
  have hts : genesisBlock.header.timestamp ≤ 1 := by decide +kernel
  rw [run_genesisOps]
  exact ⟨hhead, hget, hsnap, hheight, hc.symm, hminer, hval, hreq, hts⟩

/-- A contract creation whose code is no module, signed by the user. -/
def create : Transaction :=
  signedTx userKey none 0 U256.zero 60000 U256.one (Vec.ofList [42])

/-- A call of that contract. -/
def call : Transaction :=
  signedTx userKey (some (Address.create user 0)) 1 U256.zero 60000 U256.one Vec.empty

/-- The pool after transactions were added. -/
def poolOf (txs : List Transaction) : TransactionPool :=
  txs.foldl (fun pool tx => (pool.addTransaction tx .local).2) TransactionPool.new

/-- What an iteration over a pool yields. -/
def entriesOf (pool : TransactionPool) : List PendingTx := pool.pending.toList.map Prod.snd

/-- The block that is built from transactions in the pool. -/
def produced (txs : List Transaction) : Block :=
  ((BlockProducer.new.produceBlock (params (entriesOf (poolOf txs)))).1.toOption).getD genesisBlock

/-- **The producer refuses its own block.**  The pool admits the creation and the call, the block
includes the creation only, and its import fails: the call was debited before it failed. -/
theorem produced_block_refused :
    (∀ tx ∈ [create, call], recoverSender tx = .ok tx.sender)
    ∧ (entriesOf (poolOf [create, call])).length = 2
    ∧ Ready (StoreOp.run consensus genesisOps) (params (entriesOf (poolOf [create, call])))
    ∧ (BlockProducer.new.produceBlock (params (entriesOf (poolOf [create, call])))).1
      = .ok (produced [create, call])
    ∧ (produced [create, call]).transactions.toList = [create]
    ∧ ((⟨StoreOp.run consensus genesisOps, state, poolOf [create, call]⟩ :
      ChainState).importAndApply (produced [create, call])).1 = .error .invalidStateRoot := by
  have heval : (∀ tx ∈ [create, call], recoverSender tx = .ok tx.sender)
      ∧ (entriesOf (poolOf [create, call])).length = 2
      ∧ (BlockProducer.new.produceBlock (params (entriesOf (poolOf [create, call])))).1
        = .ok (produced [create, call])
      ∧ (produced [create, call]).transactions.toList = [create]
      ∧ ((⟨StoreOp.run consensus genesisOps, state, poolOf [create, call]⟩ :
        ChainState).importAndApply (produced [create, call])).1 = .error .invalidStateRoot := by
    decide +kernel
  obtain ⟨hsigned, hpool, hprod, htxs, himp⟩ := heval
  exact ⟨hsigned, hpool, ready_params _, hprod, htxs, himp⟩

/-- What is hashed for a block that was built on the genesis, as a list. -/
def hashedFor (entries : List PendingTx) (b : Block) : List (List UInt8) :=
  [BlockHeader.codec.encode b.header, BlockHeader.codec.encode genesisBlock.header]
    ++ (patriciaNodes (params entries).executed.2.1.rootHash.2.accountPairs).2.map Prod.snd
    ++ match executeBlock state b with
      | .ok (_, post, _) => (patriciaNodes post.rootHash.2.accountPairs).2.map Prod.snd
      | .error _ => []

theorem agreementEncodings_subset (entries : List PendingTx) (b : Block) :
    agreementEncodings (StoreOp.run consensus genesisOps) (params entries) b
      ⊆ { e | e ∈ hashedFor entries b } := by
  rw [run_genesisOps]
  refine genesis.agreementEncodings_subset (by simp [hashedFor]) (by simp [hashedFor, genesis])
    ?_ ?_
  · rintro e ⟨h, he⟩
    refine List.mem_append_left _ (List.mem_append_right _ ?_)
    exact List.mem_map.mpr ⟨_, he, rfl⟩
  · rintro outs post ctx hexec e ⟨h, he⟩
    refine List.mem_append_right _ ?_
    change executeBlock state b = _ at hexec
    rw [hexec]
    exact List.mem_map.mpr ⟨_, he, rfl⟩

-- One evaluation: its parts share the block.
theorem evaluated_transfer :
    (BlockProducer.new.produceBlock (params (entriesOf (poolOf [transfer 0])))).1
      = .ok (produced [transfer 0])
    ∧ (params (entriesOf (poolOf [transfer 0]))).late = []
    ∧ ∀ x ∈ hashedFor (entriesOf (poolOf [transfer 0])) (produced [transfer 0]),
      ∀ y ∈ hashedFor (entriesOf (poolOf [transfer 0])) (produced [transfer 0]),
        keccak256 x = keccak256 y → x = y := by decide +kernel

theorem produced_transfer :
    (BlockProducer.new.produceBlock (params (entriesOf (poolOf [transfer 0])))).1
      = .ok (produced [transfer 0]) := evaluated_transfer.1

theorem collisionFree_transfer :
    CollisionFree (agreementEncodings (StoreOp.run consensus genesisOps)
      (params (entriesOf (poolOf [transfer 0]))) (produced [transfer 0])) := by
  obtain ⟨-, -, hcf⟩ := evaluated_transfer
  exact CollisionFree.mono (fun x hx y hy => hcf x hx y hy) (agreementEncodings_subset _ _)

/-- A block of transfers is imported: nothing in it can fail late. -/
theorem import_iff_transfer : ∃ b,
    (BlockProducer.new.produceBlock (params (entriesOf (poolOf [transfer 0])))).1 = .ok b
      ∧ ∃ outcome, ((⟨StoreOp.run consensus genesisOps, state, poolOf [transfer 0]⟩ :
        ChainState).importAndApply b).1 = .ok outcome := by
  have hlate := evaluated_transfer.2.1
  obtain ⟨b, hb, himp, -⟩ := BlockProducer.import_iff consensus genesisOps state
    (poolOf [transfer 0]) (params (entriesOf (poolOf [transfer 0]))) (ready_params _) roundTrip
    (fun b hb => by
      obtain rfl : produced [transfer 0] = b := Except.ok.inj (produced_transfer.symm.trans hb)
      exact collisionFree_transfer)
  exact ⟨b, hb, himp.mpr hlate⟩

end Devnet

end Ivory
