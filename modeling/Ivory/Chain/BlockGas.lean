import Ivory.Chain.Funded

/-!
# Gas along a block

`execute_transaction` compares the declared gas of a transaction with what is left of
the block and adds the gas it used to the context.  Both sums saturate, but neither
ever does while the cap of a block is below the largest number.

A header gets its gas limit from the producer, and the sum of the gas used from an
executor with a cap of its own; nothing brings the two together
(`Devnet.limit_exceeded`).

* `execCalls`: calls of `execute_transaction` one after the other, failures included.
* `BlockProducer.gas_accounted`: **used gas adds up**, call by call and over a block.
* `BlockProducer.exists_full_block`: a block that uses the whole cap of the executor.
* `BlockProducer.validate_iff_limit`: **all produced blocks pass `Block::validate` exactly if their
  limit is at least that cap**, and one block exactly if the gas it uses is within its limit.
-/

namespace Ivory

/-! ### Calls -/

/-- One call of `execute_transaction`: what it was given and what it gave. -/
structure ExecCall where
  before : StateDB
  ctx : ExecutionContext
  tx : Transaction
  result : Except ExecutionError ExecutionOutcome
  after : StateDB
  ctxAfter : ExecutionContext

namespace ExecCall

/-- The gas that the call adds to the block. -/
def gas (c : ExecCall) : ℕ :=
  match c.result with
  | .ok out => out.gasUsed.toNat
  | .error _ => 0

/-- What a producer keeps of the call. -/
def included (c : ExecCall) : Option (Transaction × Receipt) :=
  match c.result with
  | .ok out => some (c.tx, out.receipt)
  | .error _ => none

end ExecCall

section

variable [Keccak] [Wasmi]

/-- Calls one after the other, on one state and one context, whatever their results. -/
def execCalls (cfg : GasConfig) : StateDB → ExecutionContext → List Transaction →
    List ExecCall × StateDB × ExecutionContext
  | s, ctx, [] => ([], s, ctx)
  | s, ctx, tx :: txs =>
    let x := executeTransaction cfg s ctx tx
    let rest := execCalls cfg x.2.1 x.2.2 txs
    (⟨s, ctx, tx, x.1, x.2.1, x.2.2⟩ :: rest.1, rest.2)

theorem executeEach_eq (cfg : GasConfig) : ∀ (txs : List Transaction) (s : StateDB)
    (ctx : ExecutionContext), executeEach cfg s ctx txs
      = ((execCalls cfg s ctx txs).1.filterMap ExecCall.included, (execCalls cfg s ctx txs).2) := by
  intro txs
  induction txs with
  | nil => intro s ctx; rfl
  | cons tx txs ih =>
    intro s ctx
    rw [executeEach, execCalls]
    rcases hx : executeTransaction cfg s ctx tx with ⟨e | out, s₁, ctx₁⟩
    · simp only [ih s₁ ctx₁, List.filterMap_cons, ExecCall.included]
    · simp only [ih s₁ ctx₁, List.filterMap_cons, ExecCall.included]

/-- What the books say of a successful call. -/
structure Accounted (cfg : GasConfig) (c : ExecCall) (out : ExecutionOutcome) : Prop where
  intrinsic : (computeIntrinsicGas c.tx cfg).toNat ≤ out.receipt.gasUsed.toNat
  receipt : out.receipt.gasUsed = out.gasUsed ∧ out.receipt.txHash = c.tx.hash
  gas : out.gasUsed.toNat + out.gasRefunded.toNat = c.tx.gas.toNat
  sender : c.after.balance c.tx.sender
      + (c.tx.value.toNat + out.gasUsed.toNat * c.tx.gasPrice.toNat)
    = c.before.balance c.tx.sender + if c.tx.sender = c.tx.target then c.tx.value.toNat else 0

theorem intrinsic_le_gasUsed {cfg : GasConfig} {s s' : StateDB} {ctx ctx' : ExecutionContext}
    {tx : Transaction} {out : ExecutionOutcome}
    (h : executeTransaction cfg s ctx tx = (.ok out, s', ctx')) :
    (computeIntrinsicGas tx cfg).toNat ≤ out.gasUsed.toNat := by
  cases hc : precheck cfg s ctx tx with
  | error e =>
    rw [executeTransaction_of_precheck_error hc] at h
    cases h
  | ok checked =>
    have hp := precheck_eq_ok hc
    rw [executeTransaction, hc] at h
    obtain ⟨_, _, hs⟩ := settle_steps h
    have hremaining := hp.remaining
    have hleft := hs.left
    rw [hs.used, UInt64.toNat_saturatingSub, hp.limit]
    omega

theorem Funded.intrinsic_le {cfg : GasConfig} (hcfg : cfg.maxGasPerBlock < UInt64.maxValue) :
    ∀ {txs : List Transaction} {s : StateDB} {ctx : ExecutionContext}, Funded cfg s ctx txs →
      ctx.gasUsed.toNat + (txs.map fun tx => (computeIntrinsicGas tx cfg).toNat).sum
        ≤ (Ivory.executeEach cfg s ctx txs).2.2.gasUsed.toNat := by
  intro txs
  induction txs with
  | nil => intro s ctx _; exact le_rfl
  | cons tx txs ih =>
    intro s ctx h
    obtain ⟨out, s₁, ctx₁, hx, -, h₁⟩ := h.step
    have hrest := ih h₁
    have hctx := ((executeTransaction_eq_ok hx).gasUsed_ctx hcfg).1
    have hused := intrinsic_le_gasUsed hx
    rw [Ivory.executeEach, hx, List.map_cons, List.sum_cons]
    show _ ≤ (Ivory.executeEach cfg s₁ ctx₁ txs).2.2.gasUsed.toNat
    omega

theorem accounted_of_ok {cfg : GasConfig} {s s' : StateDB} {ctx ctx' : ExecutionContext}
    {tx : Transaction} {out : ExecutionOutcome}
    (h : executeTransaction cfg s ctx tx = (.ok out, s', ctx')) :
    Accounted cfg ⟨s, ctx, tx, .ok out, s', ctx'⟩ out := by
  have hx := executeTransaction_eq_ok h
  have hbal := hx.balance tx.sender
  rw [if_pos rfl] at hbal
  have hreceipt : out.receipt.gasUsed = out.gasUsed := by rw [hx.receipt]
  exact
    { intrinsic := by rw [hreceipt]; exact intrinsic_le_gasUsed h
      receipt := ⟨hreceipt, by rw [hx.receipt]⟩
      gas := hx.gas
      sender := hbal }

/-- **One call keeps the books**: the context grows by what the call used, without saturating, and
stays below the cap. -/
theorem executeTransaction_gas {cfg : GasConfig} (hcfg : cfg.maxGasPerBlock < UInt64.maxValue)
    (s : StateDB) {ctx : ExecutionContext} (hctx : ctx.gasUsed ≤ cfg.maxGasPerBlock)
    (tx : Transaction) :
    (executeTransaction cfg s ctx tx).2.2.gasUsed.toNat = ctx.gasUsed.toNat
        + ExecCall.gas ⟨s, ctx, tx, (executeTransaction cfg s ctx tx).1,
          (executeTransaction cfg s ctx tx).2.1, (executeTransaction cfg s ctx tx).2.2⟩
    ∧ (executeTransaction cfg s ctx tx).2.2.gasUsed ≤ cfg.maxGasPerBlock := by
  rcases hx : executeTransaction cfg s ctx tx with ⟨e | out, s', ctx'⟩
  · have hsame := executeTransaction_error_ctx hx
    simp only [ExecCall.gas]
    rw [hsame]
    exact ⟨rfl, hctx⟩
  · exact (executeTransaction_eq_ok hx).gasUsed_ctx hcfg

/-- **All calls keep the books.** -/
theorem execCalls_gas {cfg : GasConfig} (hcfg : cfg.maxGasPerBlock < UInt64.maxValue) :
    ∀ (txs : List Transaction) (s : StateDB) (ctx : ExecutionContext),
      ctx.gasUsed ≤ cfg.maxGasPerBlock →
      (∀ c ∈ (execCalls cfg s ctx txs).1, ∀ out, c.result = .ok out → Accounted cfg c out)
      ∧ (execCalls cfg s ctx txs).2.2.gasUsed.toNat
        = ctx.gasUsed.toNat + ((execCalls cfg s ctx txs).1.map ExecCall.gas).sum
      ∧ (execCalls cfg s ctx txs).2.2.gasUsed ≤ cfg.maxGasPerBlock := by
  intro txs
  induction txs with
  | nil =>
    intro s ctx hctx
    refine ⟨fun c hc => ?_, rfl, hctx⟩
    cases hc
  | cons tx txs ih =>
    intro s ctx hctx
    obtain ⟨hadd, hcap⟩ := executeTransaction_gas hcfg s hctx tx
    obtain ⟨hall, hsum, hle⟩ := ih (executeTransaction cfg s ctx tx).2.1
      (executeTransaction cfg s ctx tx).2.2 hcap
    rw [execCalls]
    refine ⟨fun c hc out hout => ?_, ?_, hle⟩
    · rcases List.mem_cons.mp hc with rfl | hc
      · have hx : executeTransaction cfg s ctx tx = (.ok out,
            (executeTransaction cfg s ctx tx).2.1, (executeTransaction cfg s ctx tx).2.2) := by
          rw [← hout]
        have hacc := accounted_of_ok hx
        rw [← hout] at hacc
        exact hacc
      · exact hall c hc out hout
    · simp only [List.map_cons, List.sum_cons]
      rw [hsum, hadd]
      omega

omit [Wasmi] in
theorem sum_gas_le {cfg : GasConfig} : ∀ {calls : List ExecCall},
    (∀ c ∈ calls, ∀ out, c.result = .ok out → Accounted cfg c out) →
      (calls.map ExecCall.gas).sum ≤ ((calls.map ExecCall.tx).map fun tx => tx.gas.toNat).sum := by
  intro calls hall
  rw [List.map_map]
  refine List.sum_le_sum fun c hc => ?_
  cases hres : c.result with
  | error e =>
    rw [ExecCall.gas, hres]
    exact Nat.zero_le _
  | ok out =>
    have hgas := (hall c hc out hres).gas
    rw [ExecCall.gas, hres]
    show out.gasUsed.toNat ≤ c.tx.gas.toNat
    omega

theorem map_tx_execCalls (cfg : GasConfig) : ∀ (txs : List Transaction) (s : StateDB)
    (ctx : ExecutionContext), (execCalls cfg s ctx txs).1.map ExecCall.tx = txs := by
  intro txs
  induction txs with
  | nil => intro s ctx; rfl
  | cons tx txs ih =>
    intro s ctx
    rw [execCalls, List.map_cons, ih]

/-! ### Blocks -/

omit [Wasmi] in
theorem sum_included {cfg : GasConfig} : ∀ {calls : List ExecCall},
    (∀ c ∈ calls, ∀ out, c.result = .ok out → Accounted cfg c out) →
      ((calls.filterMap ExecCall.included).map fun e => e.2.gasUsed.toNat).sum
        = (calls.map ExecCall.gas).sum
      ∧ (calls.filterMap ExecCall.included).map (fun e => e.2.txHash)
        = (calls.filterMap ExecCall.included).map fun e => e.1.hash := by
  intro calls
  induction calls with
  | nil => intro _; exact ⟨rfl, rfl⟩
  | cons c calls ih =>
    intro hall
    obtain ⟨hsum, hhash⟩ := ih fun d hd => hall d (List.mem_cons_of_mem _ hd)
    cases hres : c.result with
    | error e =>
      have hnone : c.included = none := by rw [ExecCall.included, hres]
      have hzero : c.gas = 0 := by rw [ExecCall.gas, hres]
      rw [List.filterMap_cons, hnone, List.map_cons, List.sum_cons, hzero, Nat.zero_add]
      exact ⟨hsum, hhash⟩
    | ok out =>
      have hacc := hall c List.mem_cons_self out hres
      have hsome : c.included = some (c.tx, out.receipt) := by rw [ExecCall.included, hres]
      have hgas : c.gas = out.gasUsed.toNat := by rw [ExecCall.gas, hres]
      rw [List.filterMap_cons, hsome]
      simp only [List.map_cons, List.sum_cons]
      rw [hsum, hhash, hgas, hacc.receipt.1, hacc.receipt.2]
      exact ⟨rfl, rfl⟩

/-- A produced block passes its own checks exactly if the gas of the run is within its limit. -/
theorem Produced.validate_iff [Ed25519] {producer : BlockProducer} {params : ProduceParams}
    {b : Block}
    (hp : Produced producer params b) :
    b.validate = .ok () ↔ params.executed.2.2.gasUsed ≤ producer.gasLimit := by
  refine ⟨fun hval => ?_, hp.validate_of_le⟩
  have hle := (Block.validate_eq_ok.mp hval).1
  rwa [hp.gasUsed, hp.gasLimit] at hle

end

namespace BlockProducer

variable [Keccak] [Ed25519] [Wasmi]

theorem produceBlockWith_eq_ok {cfg : GasConfig} {producer : BlockProducer}
    {params : ProduceParams} {b : Block} (h : (producer.produceBlockWith cfg params).1 = .ok b) :
    b.header.gasUsed = (executeEach cfg params.state params.context params.candidates).2.2.gasUsed
    ∧ b.transactions.toList
      = (executeEach cfg params.state params.context params.candidates).1.map Prod.fst
    ∧ b.receipts.toList
      = (executeEach cfg params.state params.context params.candidates).1.map Prod.snd := by
  have hlen : (executeEach cfg params.state params.context params.candidates).1.length
      < 2 ^ 64 := by
    have hle := (executeEach_sublist cfg params.candidates params.state params.context).length_le
    rw [List.length_map] at hle
    exact lt_of_le_of_lt hle params.length_candidates
  unfold produceBlockWith at h
  simp only at h
  split at h
  · cases h
  next header hs =>
  cases h
  obtain ⟨-, -, extra, rfl, -⟩ := PoAConsensus.sealHeader_eq_ok hs
  exact ⟨rfl, Vec.toList_ofList (by rw [List.length_map]; exact hlen),
    Vec.toList_ofList (by rw [List.length_map]; exact hlen)⟩

/-- **Used gas adds up.**  Under a cap below the largest number, whatever calls are made on whatever
state: each success uses at least the intrinsic gas, refunds the rest and charges its sender
just that; the context grows by the gas of the successes, without saturating, and stays below
the cap.  So the gas in the header of a produced block is the sum over its receipts, which are
those of its transactions. -/
theorem gas_accounted (cfg : GasConfig) (hcfg : cfg.maxGasPerBlock < UInt64.maxValue) :
    (∀ (s : StateDB) (ctx : ExecutionContext) (txs : List Transaction),
      ctx.gasUsed ≤ cfg.maxGasPerBlock →
      (∀ c ∈ (execCalls cfg s ctx txs).1, ∀ out, c.result = .ok out → Accounted cfg c out)
      ∧ (execCalls cfg s ctx txs).2.2.gasUsed.toNat
        = ctx.gasUsed.toNat + ((execCalls cfg s ctx txs).1.map ExecCall.gas).sum
      ∧ (execCalls cfg s ctx txs).2.2.gasUsed ≤ cfg.maxGasPerBlock)
    ∧ ∀ (producer : BlockProducer) (params : ProduceParams) (b : Block),
      (producer.produceBlockWith cfg params).1 = .ok b →
      b.header.gasUsed.toNat = (b.receipts.toList.map fun r => r.gasUsed.toNat).sum
      ∧ b.receipts.toList.map Receipt.txHash = b.transactions.toList.map Transaction.hash := by
  refine ⟨fun s ctx txs hctx => execCalls_gas hcfg txs s ctx hctx, fun producer params b h => ?_⟩
  obtain ⟨hgas, htxs, hreceipts⟩ := produceBlockWith_eq_ok h
  have hzero : params.context.gasUsed ≤ cfg.maxGasPerBlock :=
    UInt64.le_iff_toNat_le.mpr (Nat.zero_le _)
  obtain ⟨hall, hsum, -⟩ := execCalls_gas hcfg params.candidates params.state params.context hzero
  obtain ⟨hinc, hhash⟩ := sum_included hall
  rw [hgas, htxs, hreceipts, executeEach_eq, List.map_map, List.map_map, List.map_map]
  refine ⟨?_, hhash⟩
  rw [hsum]
  refine (Nat.zero_add _).trans ?_
  exact hinc.symm

/-! ### The gas limit of a header -/

omit [Keccak] [Ed25519] [Wasmi] in
theorem sum_candidates_le (params : ProduceParams) :
    (params.candidates.map fun tx => tx.gas.toNat).sum
      ≤ (params.entries.map fun e => e.tx.gas.toNat).sum := by
  have hperm : (params.candidates.map fun tx => tx.gas.toNat).Perm
      ((TransactionPool.getPending params.entries params.maxTxs).map fun tx => tx.gas.toNat) :=
    (List.perm_insertionSort _ _).map _
  rw [hperm.sum_eq, TransactionPool.getPending, List.map_map]
  have hsub : (TransactionPool.getPendingEntries params.entries params.maxTxs).Sublist
      params.entries := List.take_sublist _ _
  exact (hsub.map _).sum_le_sum fun _ _ => Nat.zero_le _

omit [Ed25519] in
theorem gasUsed_executed_le (params : ProduceParams) :
    params.executed.2.2.gasUsed.toNat ≤ (params.entries.map fun e => e.tx.gas.toNat).sum := by
  have hcap : GasConfig.default.maxGasPerBlock < UInt64.maxValue := by decide
  obtain ⟨hall, hsum, -⟩ := execCalls_gas hcap params.candidates params.state params.context
    (UInt64.le_iff_toNat_le.mpr (Nat.zero_le _))
  have hle := sum_gas_le hall
  rw [map_tx_execCalls] at hle
  rw [ProduceParams.executed, executeEach_eq]
  exact (hsum.trans (Nat.zero_add _)).le.trans (hle.trans (sum_candidates_le params))

/-! ### A block that fills the cap -/

/-- A transaction without value and price, with just the gas that its data costs. -/
def filler (nonce : UInt64) (data : ℕ) : Transaction :=
  { sender := Address.zero
    recipient := some Address.zero
    value := U256.zero
    data := Vec.ofList (List.replicate data 0)
    gasPrice := U256.zero
    gas := computeIntrinsicGasLen data GasConfig.default
    nonce := nonce
    signature := Arr.replicate 64 0
    publicKey := Arr.replicate 32 0 }

omit [Keccak] [Ed25519] [Wasmi] in
theorem computeIntrinsicGas_filler (nonce : UInt64) {data : ℕ} (hdata : data < 2 ^ 64) :
    computeIntrinsicGas (filler nonce data) GasConfig.default = (filler nonce data).gas := by
  have hlen : (filler nonce data).dataLen = data := by
    rw [Transaction.dataLen, filler, Vec.toList_ofList (by rwa [List.length_replicate]),
      List.length_replicate]
  rw [computeIntrinsicGas, hlen]
  rfl

/-- Two of them from one sender, the second with data. -/
def fillers (data : ℕ) : List Transaction := [filler 0 0, filler 1 data]

omit [Keccak] [Ed25519] [Wasmi] in
theorem exists_data : ∃ data < 2 ^ 64,
    ((fillers data).map fun tx => tx.gas.toNat).sum = GasConfig.default.maxGasPerBlock.toNat := by
  refine ⟨1872375, by norm_num, ?_⟩
  show (computeIntrinsicGasLen 0 GasConfig.default).toNat
    + ((computeIntrinsicGasLen 1872375 GasConfig.default).toNat + 0) = _
  decide

section Fillers

variable {data : ℕ}

omit [Keccak] [Ed25519] [Wasmi] in
theorem mem_fillers {tx : Transaction} :
    tx ∈ fillers data ↔ tx = filler 0 0 ∨ tx = filler 1 data := by
  rw [fillers, List.mem_cons, List.mem_singleton]

omit [Keccak] [Ed25519] [Wasmi] in
theorem computeIntrinsicGas_of_mem_fillers (hdata : data < 2 ^ 64) {tx : Transaction}
    (htx : tx ∈ fillers data) : computeIntrinsicGas tx GasConfig.default = tx.gas := by
  rcases mem_fillers.mp htx with rfl | rfl
  · exact computeIntrinsicGas_filler 0 (by norm_num)
  · exact computeIntrinsicGas_filler 1 hdata

omit [Keccak] [Ed25519] [Wasmi] in
theorem countsUp_fillers (a : Address) : CountsUp a (fillers data) 0 := by
  by_cases ha : Address.zero = a
  · subst ha
    rfl
  · have hnone : sentBy a (fillers data) = [] := by
      rw [sentBy, List.filter_eq_nil_iff]
      intro tx htx hsender
      rcases mem_fillers.mp htx with rfl | rfl
      · exact ha (of_decide_eq_true hsender)
      · exact ha (of_decide_eq_true hsender)
    rw [CountsUp, hnone]
    rfl

omit [Ed25519] [Wasmi] in
/-- They need no balance, so they can be executed on the empty state. -/
theorem funded_fillers (hdata : data < 2 ^ 64)
    (hsum : ((fillers data).map fun tx => tx.gas.toNat).sum
      = GasConfig.default.maxGasPerBlock.toNat)
    {ctx : ExecutionContext} (hctx : ctx.gasUsed = 0) :
    Funded GasConfig.default StateDB.new ctx (fillers data) where
  nonces a := countsUp_fillers a
  balances a := by
    refine (List.sum_eq_zero fun n hn => ?_).le.trans (Nat.zero_le _)
    obtain ⟨tx, htx, rfl⟩ := List.mem_map.mp hn
    rcases mem_fillers.mp (List.mem_filter.mp htx).1 with rfl | rfl
    · exact (Nat.zero_add _).trans (Nat.mul_zero _)
    · exact (Nat.zero_add _).trans (Nat.mul_zero _)
  usable tx htx := by
    rcases mem_fillers.mp htx with rfl | rfl
    · show (0 : UInt64).toNat + 1 < 2 ^ 64
      decide
    · show (1 : UInt64).toNat + 1 < 2 ^ 64
      decide
  intrinsic tx htx := by rw [computeIntrinsicGas_of_mem_fillers hdata htx]
  room := by
    rw [hsum, hctx]
    exact (Nat.zero_add _).le
  plain tx htx callee _ := by
    refine ⟨rfl, fun other hother hcreate => ?_⟩
    rcases mem_fillers.mp hother with rfl | rfl
    · cases hcreate
    · cases hcreate
  supply := by
    have hempty : (StateDB.new).totalBalance = 0 := rfl
    rw [hempty]
    norm_num

end Fillers

/-- A parent for a block, nothing but zeros. -/
def blank : Block :=
  { header :=
      { number := 0, parentHash := H256.zero, timestamp := 0, miner := Address.zero, gasLimit := 0
        gasUsed := 0, stateRoot := H256.zero, transactionsRoot := H256.zero
        receiptsRoot := H256.zero, difficulty := U256.zero, extraData := Vec.empty }
    transactions := Vec.empty
    receipts := Vec.empty }

/-- A validator of its own network with a pool of these two transactions. -/
def fillingParams (sk : SecretKey) (data : ℕ) : ProduceParams :=
  { parent := blank
    entries := (fillers data).map fun tx => ⟨tx.hash, tx, .local, 0⟩
    state := StateDB.new
    consensus := ⟨⟨[Validator.fromSecret sk], 1⟩, List.cons_ne_nil _ _,
      show (1 : UInt64) ≠ 0 by decide⟩
    miner := addressFromSecret sk
    minerKey := sk
    timestamp := 0
    maxTxs := 2 }

omit [Wasmi] in
theorem candidates_fillingParams (sk : SecretKey) (data : ℕ) :
    (fillingParams sk data).candidates = fillers data := by
  have hle : (filler 0 0).Le (filler 1 data) := by
    show (compare Address.zero Address.zero).then (compare (0 : UInt64) 1) ≠ .gt
    decide
  refine List.Pairwise.insertionSort_eq ?_
  exact List.pairwise_pair.mpr hle

/-- **A block that uses the cap of the executor to the last unit**, whatever the limit of the
header. -/
theorem exists_full_block (gasLimit : UInt64) : ∃ params b,
    ((withGasLimit gasLimit).produceBlock params).1 = .ok b
      ∧ GasConfig.default.maxGasPerBlock ≤ params.executed.2.2.gasUsed := by
  obtain ⟨data, hdata, hsum⟩ := exists_data
  let sk : SecretKey := Arr.replicate 32 0
  have hv : Validator.fromSecret (fillingParams sk data).minerKey
      ∈ (fillingParams sk data).consensus.config.validators := List.mem_cons_self
  obtain ⟨b, hb⟩ := (withGasLimit gasLimit).exists_block rfl hv
  refine ⟨fillingParams sk data, b, hb, ?_⟩
  have hfunded : Funded GasConfig.default (fillingParams sk data).state
    (fillingParams sk data).context (fillers data) := funded_fillers hdata hsum rfl
  have hused := hfunded.intrinsic_le (by decide)
  rw [List.map_congr_left fun tx htx => congrArg UInt64.toNat
    (computeIntrinsicGas_of_mem_fillers hdata htx), hsum] at hused
  rw [UInt64.le_iff_toNat_le, ProduceParams.executed, candidates_fillingParams]
  omega

/-- **When a producer stays within its own limit.**  All blocks it can build pass their own checks
exactly if the limit is at least the cap of the executor; one block passes exactly if the gas that
its candidates use is within the limit, and that is at most what the pool declares. -/
theorem validate_iff_limit (gasLimit : UInt64) :
    ((∀ params b, ((withGasLimit gasLimit).produceBlock params).1 = .ok b → b.validate = .ok ())
      ↔ GasConfig.default.maxGasPerBlock ≤ gasLimit)
    ∧ ∀ params b, ((withGasLimit gasLimit).produceBlock params).1 = .ok b →
      (b.validate = .ok () ↔ params.executed.2.2.gasUsed ≤ gasLimit)
      ∧ params.executed.2.2.gasUsed.toNat ≤ (params.entries.map fun e => e.tx.gas.toNat).sum := by
  refine ⟨⟨fun hall => ?_, fun hcap params b hb => ?_⟩, fun params b hb => ?_⟩
  · obtain ⟨params, b, hb, hfull⟩ := exists_full_block gasLimit
    exact UInt64.le_trans hfull ((produced_of_ok hb).validate_iff.mp (hall params b hb))
  · exact (produced_of_ok hb).validate_iff.mpr (UInt64.le_trans params.gasUsed_executed hcap)
  · exact ⟨(produced_of_ok hb).validate_iff, gasUsed_executed_le params⟩

end BlockProducer

namespace Devnet

/-- Blocks with a limit of 30000, from transactions in the pool. -/
def tight (txs : List Transaction) : Except ChainError Block :=
  ((BlockProducer.withGasLimit 30000).produceBlock (params (entriesOf (poolOf txs)))).1

/-- **A block over its own limit.**  Each of two transfers fits under 30000, and the executor takes
both: its cap is 30000000. -/
theorem limit_exceeded :
    (entriesOf (poolOf [transfer 0, transfer 1])).length = 2
    ∧ (tight [transfer 0, transfer 1]).toOption.map (fun b => (b.header.gasLimit, b.header.gasUsed))
      = some (30000, 42000)
    ∧ (tight [transfer 0, transfer 1]).toOption.map Block.validate
      = some (.error .gasExceeded) := by
  decide +kernel

/-- The default schedule has a cap below the largest number; two transfers use 42000. -/
theorem gas_accounted_transfers : ∃ b, tight [transfer 0, transfer 1] = .ok b
    ∧ b.header.gasUsed = 42000
    ∧ b.header.gasUsed.toNat = (b.receipts.toList.map fun r => r.gasUsed.toNat).sum
    ∧ b.receipts.toList.map Receipt.txHash = b.transactions.toList.map Transaction.hash := by
  have heval : (tight [transfer 0, transfer 1]).toOption.map (fun b => b.header.gasUsed)
      = some 42000 := by decide +kernel
  cases hb : tight [transfer 0, transfer 1] with
  | error e =>
    rw [hb] at heval
    cases heval
  | ok b =>
    rw [hb] at heval
    rw [tight] at hb
    exact ⟨b, rfl, Option.some.inj heval,
      (BlockProducer.gas_accounted GasConfig.default (by decide)).2 _ _ b hb⟩

end Devnet

end Ivory
