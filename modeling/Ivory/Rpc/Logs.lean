import Ivory.Executor.Failure
import Ivory.Rpc.Queries

/-!
# Logs

`eth_getLogs` walks over the heights of its range and collects the logs of the canonical blocks that
it finds there.  A block whose body was dropped has no receipts, so its logs are missing from the
answer without an error.

* `Serves.flatMap_heights`: a walk over heights is a walk over a stretch of the canonical chain.
* `RpcContext.getLogs_answers`: **the logs of the canonical chain in the range, each once.**
-/

namespace Ivory

open BlockStore

/-! ### Lists -/

theorem filterMap_getElem_range' {α : Type} (l : List α) : ∀ (k a : ℕ),
    (List.range' a k).filterMap (fun i => l[i]?) = (l.drop a).take k := by
  intro k
  induction k with
  | zero => intro a; simp
  | succ k ih =>
    intro a
    rw [List.range'_succ, List.filterMap_cons]
    rcases Nat.lt_or_ge a l.length with hlt | hge
    · rw [List.getElem?_eq_getElem hlt, List.drop_eq_getElem_cons hlt, List.take_succ_cons, ih]
    · rw [List.getElem?_eq_none hge, ih, List.drop_eq_nil_of_le hge,
        List.drop_eq_nil_of_le (Nat.le_succ_of_le hge)]
      simp

theorem flatMap_filterMap {α β γ : Type} (f : β → List γ) (g : α → Option β) (l : List α) :
    (l.filterMap g).flatMap f = l.flatMap fun a => (g a).elim [] f := by
  induction l with
  | nil => rfl
  | cons a l ih =>
    rw [List.filterMap_cons, List.flatMap_cons, ← ih]
    cases g a with
    | none => rfl
    | some b => rw [List.flatMap_cons, Option.elim_some]

theorem nodup_flatMap_of_key {α β κ : Type} {l : List α} {f : α → List β} (tag : α → κ)
    (key : β → κ) (hl : (l.map tag).Nodup) (hf : ∀ a ∈ l, (f a).Nodup)
    (hkey : ∀ a ∈ l, ∀ b ∈ f a, key b = tag a) : (l.flatMap f).Nodup := by
  rw [List.nodup_flatMap]
  refine ⟨hf, ?_⟩
  refine (List.pairwise_map.mp hl).imp_of_mem fun {a a'} ha ha' hne => ?_
  intro b hb hb'
  exact hne ((hkey a ha b hb).symm.trans (hkey a' ha' b hb'))

/-! ### Heights -/

section

variable [Keccak] [Ed25519] [Wasmi]

/-- A block as the store shows it. -/
def Block.shown (lo : ℕ) (y : Block) : Block := if lo ≤ y.header.number.toNat then y else y.stub

/-- The blocks of a chain at the heights from `first` to `last`, as far as they are whole. -/
def wholeBetween (chain : List Block) (lo : ℕ) (first last : UInt64) : List Block :=
  ((chain.drop first.toNat).take (last.toNat + 1 - first.toNat)).filter
    fun y => lo ≤ y.header.number.toNat

omit [Keccak] [Ed25519] [Wasmi] in
theorem wholeBetween_sublist (chain : List Block) (lo : ℕ) (first last : UInt64) :
    (wholeBetween chain lo first last).Sublist chain :=
  List.filter_sublist.trans ((List.take_sublist _ _).trans (List.drop_sublist _ _))

namespace Serves

variable {g : Genesis} {cs : ChainState} {z : Block} {zs : List Block} {lo : ℕ}

theorem place (hv : Serves g cs z zs lo) {y : Block} {ys : List Block}
    (hsub : y :: ys <:+ z :: zs) : (z :: zs).reverse[y.header.number.toNat]? = some y := by
  obtain ⟨⟨s, hys⟩, hle⟩ := hv.history_of_suffix hsub
  obtain ⟨pre, heq⟩ := hsub
  rw [hys.number_eq hle y ys rfl, ← heq, List.reverse_append, List.reverse_cons, List.append_assoc,
    ← List.length_reverse, List.getElem?_append_right le_rfl, Nat.sub_self]
  rfl

theorem number_of_place (hv : Serves g cs z zs lo) {i : ℕ} {y : Block}
    (hy : (z :: zs).reverse[i]? = some y) : y.header.number.toNat = i := by
  have hmap := congrArg (fun l => l[i]?) (hv.history.numbers_eq hv.length.le)
  simp only [List.getElem?_map, hy, Option.map_some] at hmap
  obtain ⟨_, heq⟩ := List.getElem?_eq_some_iff.mp hmap.symm
  rw [← heq, List.getElem_range]

theorem getBlockByNumber_eq (hv : Serves g cs z zs lo) (n : UInt64) :
    cs.store.getBlockByNumber n = ((z :: zs).reverse[n.toNat]?).map (Block.shown lo) := by
  rcases UInt64.le_total n z.header.number with hle | hle
  · obtain ⟨y, ys, hsub, rfl⟩ := hv.exists_suffix hle
    rw [hv.getBlockByNumber hsub, hv.place hsub]
    rfl
  · by_cases heq : n = z.header.number
    · rw [heq, hv.getBlockByNumber List.suffix_rfl, hv.place List.suffix_rfl]
      rfl
    · have hlt := UInt64.lt_of_le_of_ne hle (Ne.symm heq)
      have hz := hv.history.number_eq hv.length.le z zs rfl
      rw [hv.getBlockByNumber_above hlt, List.getElem?_eq_none, Option.map_none]
      rw [UInt64.lt_iff_toNat_lt] at hlt
      simp only [List.length_reverse, List.length_cons]
      omega

theorem mem_wholeBetween (hv : Serves g cs z zs lo) {first last : UInt64} {y : Block} :
    y ∈ wholeBetween (z :: zs).reverse lo first last
      ↔ ∃ ys, y :: ys <:+ z :: zs ∧ lo ≤ y.header.number.toNat ∧ first ≤ y.header.number
        ∧ y.header.number ≤ last := by
  simp only [wholeBetween, List.mem_filter, decide_eq_true_eq, ← filterMap_getElem_range',
    List.mem_filterMap, List.mem_range'_1, UInt64.le_iff_toNat_le]
  constructor
  · rintro ⟨⟨i, hi, hy⟩, hlo⟩
    have hnum := hv.number_of_place hy
    obtain ⟨pre, ys, heq⟩ := List.append_of_mem (List.mem_reverse.mp (List.mem_of_getElem? hy))
    exact ⟨ys, ⟨pre, heq.symm⟩, hlo, by omega, by omega⟩
  · rintro ⟨ys, hsub, hlo, hge, hle⟩
    exact ⟨⟨_, by omega, hv.place hsub⟩, hlo⟩

/-- **A walk over heights is a walk over a stretch of the chain.** -/
theorem flatMap_heights (hv : Serves g cs z zs lo) {α : Type} (f : UInt64 → Block → List α)
    (hstub : ∀ n (b : Block), f n b.stub = []) (first last : UInt64) :
    (heightsBetween first last).flatMap (fun n =>
        match cs.store.getBlockByNumber n with
        | none => []
        | some b => f n b)
      = (wholeBetween (z :: zs).reverse lo first last).flatMap fun y => f y.header.number y := by
  rw [wholeBetween, ← filterMap_getElem_range', List.filter_filterMap, flatMap_filterMap,
    heightsBetween, List.flatMap_map]
  refine List.flatMap_congr fun i hi => ?_
  have hlast := last.toNat_lt
  rw [List.mem_range'_1] at hi
  have hn : (UInt64.ofNat i).toNat = i := by
    rw [UInt64.toNat_ofNat', Nat.mod_eq_of_lt (by omega)]
  rw [hv.getBlockByNumber_eq, hn]
  cases hy : (z :: zs).reverse[i]? with
  | none => rfl
  | some y =>
    have hnum : y.header.number = UInt64.ofNat i := by
      rw [← UInt64.toNat_inj, hn, hv.number_of_place hy]
    rw [Option.map_some, Block.shown, ← hnum, Option.filter_some]
    by_cases hle : lo ≤ y.header.number.toNat
    · simp only [hle, if_true, decide_true, Option.elim_some]
    · simp only [hle, if_false, decide_false, hstub, Bool.false_eq_true, Option.elim_none]

end Serves

/-! ### Entries -/

omit [Keccak] [Ed25519] [Wasmi] in
theorem nodup_places {α : Type} (v : Vec α) :
    (v.toList.zipIdx.map fun e => some (Value.qty (UInt64.ofNat e.2))).Nodup := by
  have hplaces : (v.toList.zipIdx.map Prod.snd).Nodup := by
    rw [List.zipIdx_map_snd]
    exact List.nodup_range'
  refine (List.pairwise_map.mpr ?_)
  refine (List.pairwise_map.mp hplaces).imp_of_mem fun {a a'} ha ha' hne heq => hne ?_
  have hlt := List.snd_lt_add_of_mem_zipIdx ha
  have hlt' := List.snd_lt_add_of_mem_zipIdx ha'
  have hsize := v.size_lt
  have hnum := congrArg UInt64.toNat (Value.qty_injective (Option.some.inj heq))
  rw [UInt64.toNat_ofNat', UInt64.toNat_ofNat', Nat.mod_eq_of_lt (by omega),
    Nat.mod_eq_of_lt (by omega)] at hnum
  exact hnum

namespace RpcContext

omit [Ed25519] [Wasmi] in
theorem mem_logsOf {addrs : List Address} {n : UInt64} {b : Block} {e : Value} :
    e ∈ logsOf addrs n b ↔ ∃ i r j l, b.receipts.toList[i]? = some r ∧ r.logs.toList[j]? = some l
      ∧ (addrs = [] ∨ l.address ∈ addrs) ∧ e = logEntryToJson n b.hash r.txHash i j l := by
  simp only [logsOf, List.mem_flatMap, List.mem_filterMap, Prod.exists,
    List.mk_mem_zipIdx_iff_getElem?, Option.ite_none_left_eq_some, Option.some.injEq, not_and_or,
    not_not]
  constructor
  · rintro ⟨r, i, hr, l, j, hl, hsel, rfl⟩
    exact ⟨i, r, j, l, hr, hl, hsel, rfl⟩
  · rintro ⟨i, r, j, l, hr, hl, hsel, rfl⟩
    exact ⟨r, i, hr, l, j, hl, hsel, rfl⟩

omit [Ed25519] [Wasmi] in
theorem logsOf_stub (addrs : List Address) (n : UInt64) (b : Block) :
    logsOf addrs n b.stub = [] := rfl

omit [Ed25519] [Wasmi] in
/-- **No log of a block is listed twice**: entries differ in the index of the transaction or in that
of the log. -/
theorem nodup_logsOf (addrs : List Address) (n : UInt64) (b : Block) :
    (logsOf addrs n b).Nodup := by
  refine nodup_flatMap_of_key _ (fun e => e.field "transactionIndex") (nodup_places b.receipts)
    (fun r _ => ?_) fun r _ e he => ?_
  · rw [List.filterMap_eq_flatMap_toList]
    refine nodup_flatMap_of_key _ (fun e => e.field "logIndex") (nodup_places r.1.logs)
      (fun l _ => ?_) fun l _ e he => ?_
    · split <;> simp
    · rw [Option.mem_toList] at he
      split at he
      · cases he
      · cases he
        rfl
  · obtain ⟨l, -, hl⟩ := List.mem_filterMap.mp he
    split at hl
    · cases hl
    · cases hl
      rfl

theorem nodup_flatMap_logsOf {g : Genesis} {zs : List Block} {s : StateDB} (hh : History g zs s)
    (hlen : zs.length ≤ 2 ^ 64) (addrs : List Address) {ys : List Block}
    (hsub : ys.Sublist zs.reverse) :
    (ys.flatMap fun y => logsOf addrs y.header.number y).Nodup := by
  refine nodup_flatMap_of_key (fun y => some (Value.qty y.header.number))
    (fun e => e.field "blockNumber") ?_ (fun y _ => nodup_logsOf _ _ _) fun y _ e he => ?_
  · have hnums : (zs.reverse.map fun y => y.header.number.toNat).Nodup := by
      rw [hh.numbers_eq hlen]
      exact List.nodup_range
    refine List.Nodup.sublist (hsub.map _) ?_
    refine List.pairwise_map.mpr ((List.pairwise_map.mp hnums).imp fun {y y'} hne heq => hne ?_)
    exact congrArg UInt64.toNat (Value.qty_injective (Option.some.inj heq))
  · obtain ⟨i, r, j, l, -, -, -, rfl⟩ := mem_logsOf.mp he
    rfl

omit [Ed25519] [Wasmi] in
theorem ethGetLogs_eq {ctx : RpcContext} {head : Block}
    (hhead : ctx.chain.store.headBlock = some head)
    {filter : List (String × Value)} {rest : List Value} {first last : UInt64}
    {addrs : List Address}
    (hfirst : ctx.logBound (filter.lookup "fromBlock") 0 0 = .ok first)
    (hlast : ctx.logBound (filter.lookup "toBlock") head.header.number head.header.number
      = .ok last)
    (haddrs : parseLogAddresses (filter.lookup "address") = .ok addrs) (hle : first ≤ last)
    (hspan : last.toNat - first.toNat ≤ 1000) :
    ctx.ethGetLogs (.array (.object filter :: rest))
      = .ok (.array (ctx.logsBetween addrs first last)) := by
  have hsub : ¬ last.saturatingSub first > 1000 := by
    rw [gt_iff_lt, UInt64.lt_iff_toNat_lt, UInt64.toNat_saturatingSub]
    exact Nat.not_lt.mpr hspan
  simp only [ethGetLogs, paramsArray, Value.asArray, bind, Except.bind, List.head?_cons,
    Option.bind_some, Value.asObject, found, hhead, hfirst, hlast, haddrs]
  rw [if_neg (UInt64.not_lt.mpr hle), if_neg hsub]

/-- **The logs of the canonical chain.**  After every run there is a height from which on
`eth_getLogs` answers exactly: a filter over an allowed range gets the logs of its addresses in the
blocks of the range, in the order of the chain and each once, with their places.  Of blocks below
that height it gets none. -/
theorem getLogs_answers (g : Genesis) (pool : TransactionPool) (ops : List ChainOp)
    (hz : ChainOp.NoZeroHash g ops) (hlen : ops.length + 1 < 2 ^ 64) {k : ℕ}
    (hkeep : ChainOp.Keeps k ops) (ctx : RpcContext)
    (hctx : ctx.chain = (ChainOp.run g pool ops).cs) (hall : ctx.allowMethods = none) :
    ∃ z zs lo, (ChainOp.run g pool ops).chain z.hash = (z :: zs).reverse
      ∧ History g (z :: zs) ctx.chain.live ∧ lo ≤ z.header.number.toNat - (k - 1)
      ∧ ∀ filter rest first last addrs, ctx.logBound (filter.lookup "fromBlock") 0 0 = .ok first →
        ctx.logBound (filter.lookup "toBlock") z.header.number z.header.number = .ok last →
        parseLogAddresses (filter.lookup "address") = .ok addrs → first ≤ last →
        last.toNat - first.toNat ≤ 1000 →
        ∃ entries, ctx.result .getLogs (.object filter :: rest) = some (.ok (.array entries))
          ∧ entries = (wholeBetween (z :: zs).reverse lo first last).flatMap
            (fun y => logsOf addrs y.header.number y)
          ∧ entries.Nodup
          ∧ ∀ e, e ∈ entries ↔ ∃ y ys i r j l, y :: ys <:+ z :: zs ∧ lo ≤ y.header.number.toNat
            ∧ first ≤ y.header.number ∧ y.header.number ≤ last
            ∧ y.receipts.toList[i]? = some r ∧ r.logs.toList[j]? = some l
            ∧ (addrs = [] ∨ l.address ∈ addrs)
            ∧ e = logEntryToJson y.header.number y.hash r.txHash i j l := by
  obtain ⟨z, zs, lo, hchain, hdeep, hv⟩ := ChainOp.serves_run g pool ops hz hlen hkeep
  rw [← hctx] at hv
  refine ⟨z, zs, lo, hchain, hv.history, hdeep, ?_⟩
  intro filter rest first last addrs hfirst hlast haddrs hle hspan
  have hwalk := hv.flatMap_heights (fun n b => logsOf addrs n b) (logsOf_stub addrs) first last
  refine ⟨_, ?_, hwalk, ?_, fun e => ?_⟩
  · rw [result_of_allows (allows_of_none hall _)]
    show some (ctx.ethGetLogs (.array (.object filter :: rest))) = _
    rw [ethGetLogs_eq hv.headBlock hfirst hlast haddrs hle hspan]
    rfl
  · rw [hwalk]
    exact nodup_flatMap_logsOf hv.history hv.length.le addrs (wholeBetween_sublist _ _ _ _)
  · rw [hwalk, List.mem_flatMap]
    constructor
    · rintro ⟨y, hy, he⟩
      obtain ⟨ys, hsub, hlo, hge, hle'⟩ := hv.mem_wholeBetween.mp hy
      obtain ⟨i, r, j, l, hr, hl, hsel, rfl⟩ := mem_logsOf.mp he
      exact ⟨y, ys, i, r, j, l, hsub, hlo, hge, hle', hr, hl, hsel, rfl⟩
    · rintro ⟨y, ys, i, r, j, l, hsub, hlo, hge, hle', hr, hl, hsel, rfl⟩
      exact ⟨y, hv.mem_wholeBetween.mpr ⟨ys, hsub, hlo, hge, hle'⟩,
        mem_logsOf.mpr ⟨i, r, j, l, hr, hl, hsel, rfl⟩⟩

end RpcContext

end

namespace Devnet

/-- A contract that emits two logs. -/
def loud : StateDB := state.setCode sink (Vec.ofList [0, 255, 255])

/-- The genesis block of a network with it. -/
@[irreducible] def loudGenesisBlock : Block := build 0 H256.zero 0 0 loud.rootHash.1 [] []

theorem sealed_loudGenesisBlock : Sealed loudGenesisBlock ∧ loudGenesisBlock.header.number = 0
    ∧ loudGenesisBlock.header.parentHash = H256.zero
    ∧ loudGenesisBlock.header.stateRoot = loud.rootHash.1 := by decide +kernel

/-- That network. -/
def loudGenesis : Genesis where
  consensus := consensus
  block := loudGenesisBlock
  state := loud
  number := sealed_loudGenesisBlock.2.1
  parentHash := sealed_loudGenesisBlock.2.2.1
  miner := sealed_loudGenesisBlock.1.1
  seals := sealed_loudGenesisBlock.1.2.1
  valid := sealed_loudGenesisBlock.1.2.2
  stateRoot := sealed_loudGenesisBlock.2.2.2

/-- A block that calls the contract. -/
@[irreducible] def loudBlock : Block := @next scripts loud loudGenesisBlock 1 [callSink]

/-- The node of that network after the block. -/
def loudRun : Tracked :=
  @ChainOp.run _ _ scripts loudGenesis TransactionPool.new [.importBlock loudBlock]

theorem noZeroHash_loud : ChainOp.NoZeroHash loudGenesis [.importBlock loudBlock] := by
  have hne : loudGenesisBlock.hash ≠ H256.zero ∧ loudBlock.hash ≠ H256.zero := by decide +kernel
  refine ⟨hne.1, fun b hb => ?_⟩
  simp only [List.mem_singleton, ChainOp.importBlock.injEq] at hb
  rw [hb]
  exact hne.2

/-- What the contract emits, twice. -/
def loudLog : Log := ⟨sink, Vec.ofList [wordFromI32 255], Vec.empty⟩

/-- The logs of the block that a filter for one address selects. -/
theorem logsOf_loudBlock (addr : Address) :
    RpcContext.logsOf [addr] loudBlock.header.number loudBlock
      = if addr = sink then [logEntryToJson 1 loudBlock.hash callSink.hash 0 0 loudLog,
          logEntryToJson 1 loudBlock.hash callSink.hash 0 1 loudLog] else [] := by
  have heval : loudBlock.header.number = 1
      ∧ loudBlock.receipts.toList.map (fun r => (r.txHash, r.logs.toList))
        = [(callSink.hash, [loudLog, loudLog])] := by decide +kernel
  obtain ⟨hone, hmap⟩ := heval
  obtain ⟨r, hr, hpair⟩ := List.map_eq_singleton_iff.mp hmap
  obtain ⟨hhash, hlogs⟩ := Prod.mk.inj hpair
  have haddr : loudLog.address = sink := rfl
  rw [RpcContext.logsOf, hr, hone]
  by_cases h : addr = sink
  · simp [hhash, hlogs, haddr, h]
  · simp [hlogs, haddr, h, Ne.symm h]

/-- What the node answers to a filter for one address. -/
def loudAnswer (addr : Address) : Option (Except RpcError Value) :=
  @RpcContext.result _ _ scripts (context loudRun.cs) .getLogs
    [.object [("fromBlock", .qty 0), ("toBlock", .qty 1), ("address", .fixed addr)]]

/-- A filter for the contract gets its two logs, in their order; a filter for the sender of the call
gets none. -/
theorem getLogs_answers_loud :
    loudAnswer sink = some (.ok (.array [logEntryToJson 1 loudBlock.hash callSink.hash 0 0 loudLog,
        logEntryToJson 1 loudBlock.hash callSink.hash 0 1 loudLog]))
      ∧ loudAnswer user = some (.ok (.array [])) := by
  have heval : (∀ p ∈ loudRun.archive.toList, p.2 = loudGenesis.block ∨ p.2 = loudBlock)
      ∧ loudRun.cs.live.rootHash.1 ≠ loudGenesis.block.header.stateRoot
      ∧ loudRun.chain loudBlock.hash = [loudGenesis.block, loudBlock]
      ∧ loudBlock.header.number.toNat = 1
      ∧ loudGenesis.block.receipts.toList = [] ∧ user ≠ sink := by decide +kernel
  obtain ⟨harch, hroot, htwo, hone, hnone, hne⟩ := heval
  obtain ⟨z, zs, lo, hchain, hh, hlo, hlogs⟩ := @RpcContext.getLogs_answers _ _ scripts loudGenesis
    TransactionPool.new [.importBlock loudBlock] noZeroHash_loud (by decide) 2
    (by intro keep h; simp at h) (context loudRun.cs) rfl rfl
  obtain rfl : z = loudBlock := @Tracked.tip_eq _ _ scripts loudGenesis loudRun _ _ _ harch hroot
    hchain hh
  obtain rfl : lo = 0 := by omega
  have hwhole : wholeBetween (loudBlock :: zs).reverse 0 0 1 = [loudGenesis.block, loudBlock] := by
    rw [← hchain, wholeBetween, List.filter_eq_self.mpr (by simp)]
    exact congrArg (List.take 2) htwo
  have hbound : ∀ (ctx : RpcContext) n missing absent,
      ctx.logBound (some (.qty n)) missing absent = .ok n := by
    intro ctx n missing absent
    simp only [RpcContext.logBound, parseBlockId_qty, bind, Except.bind]
  have hres : ∀ addr, loudAnswer addr
      = some (.ok (.array (RpcContext.logsOf [addr] loudBlock.header.number loudBlock))) := by
    intro addr
    obtain ⟨entries, hresult, hentries, -⟩ := hlogs
      [("fromBlock", .qty 0), ("toBlock", .qty 1), ("address", .fixed addr)] [] 0 1 [addr]
      (hbound _ _ _ _) (hbound _ _ _ _) (congrArg (Except.map _) (parseFixed_fixedToHex addr))
      (by decide) (by decide)
    rw [hwhole] at hentries
    rw [loudAnswer, hresult, hentries, List.flatMap_cons, List.flatMap_singleton, RpcContext.logsOf,
      hnone]
    rfl
  rw [hres, hres, logsOf_loudBlock, logsOf_loudBlock, if_pos rfl, if_neg hne]
  exact ⟨rfl, rfl⟩

end Devnet

end Ivory
