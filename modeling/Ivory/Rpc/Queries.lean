import Ivory.Chain.Window
import Ivory.Rpc.Handler

/-!
# What the methods answer about the chain

The methods read the store, and the store shows the canonical chain through a window
(`ChainOp.serves_run`).  Here that is carried to the answers: a client writes an address, a hash or
a height as the node writes them, and the answers are those of the history.

* `RpcContext.history_answers`: **states and blocks by height.**
-/

namespace Ivory

open BlockStore

/-! ### Parameters -/

theorem parseStringAt_string {items : List Value} {idx : ℕ} {s : List UInt8}
    (h : items[idx]? = some (.string s)) : parseStringAt (.array items) idx = .ok s := by
  simp only [parseStringAt, paramsArray, Value.asArray, bind, Except.bind, h, Option.bind_some,
    Value.asStr]

theorem parseFixed_fixedToHex {n : ℕ} (a : Arr UInt8 n) : parseFixed n (fixedToHex a) = .ok a := by
  rw [parseFixed, fixedOfHex_fixedToHex]
  rfl

theorem parseAddressAt_fixed {items : List Value} {idx : ℕ} {a : Address}
    (h : items[idx]? = some (.fixed a)) : parseAddressAt (.array items) idx = .ok a := by
  rw [parseAddressAt, parseStringAt_string h]
  exact parseFixed_fixedToHex a

theorem parseH256At_fixed {items : List Value} {idx : ℕ} {a : H256}
    (h : items[idx]? = some (.fixed a)) : parseH256At (.array items) idx = .ok a := by
  rw [parseH256At, parseStringAt_string h]
  exact parseFixed_fixedToHex a

/-- A number that the node wrote is read as that number: no tag is a hexadecimal number. -/
theorem parseBlockId_qty (n : UInt64) : parseBlockId (.qty n) = .ok (.number n) := by
  have hne : ∀ s, qtyFromHex s = none → encodeQty n ≠ s := by
    rintro s hs rfl
    rw [qtyFromHex_encodeQty] at hs
    cases hs
  have htags : qtyFromHex (utf8 "latest") = none ∧ qtyFromHex (utf8 "earliest") = none
      ∧ qtyFromHex (utf8 "pending") = none ∧ qtyFromHex (utf8 "safe") = none
      ∧ qtyFromHex (utf8 "finalized") = none := by decide +kernel
  obtain ⟨hl, he, hp, hs, hf⟩ := htags
  simp only [parseBlockId, Value.qty, Value.asU64, Value.asStr, if_neg (hne _ hl),
    if_neg (hne _ he), if_neg (hne _ hp), if_neg (hne _ hs), if_neg (hne _ hf),
    qtyFromHex_encodeQty]

theorem parseBlockIdAt_qty {items : List Value} {idx : ℕ} {n : UInt64}
    (h : items[idx]? = some (.qty n)) : parseBlockIdAt (.array items) idx = .ok (.number n) := by
  simp only [parseBlockIdAt, paramsArray, Value.asArray, bind, Except.bind, h]
  exact parseBlockId_qty n

theorem optionalBlockId_qty {items : List Value} {idx : ℕ} {n : UInt64}
    (h : items[idx]? = some (.qty n)) : optionalBlockId (.array items) idx = .ok (.number n) := by
  simp only [optionalBlockId, paramsArray, Value.asArray, bind, Except.bind, h]
  exact parseBlockId_qty n

theorem optionalBlockId_absent {items : List Value} {idx : ℕ} (h : items[idx]? = none) :
    optionalBlockId (.array items) idx = .ok (.tag .latest) := by
  simp only [optionalBlockId, paramsArray, Value.asArray, bind, Except.bind, h]

/-! ### States and blocks by height -/

namespace RpcContext

section Reads

variable [Keccak] [Ed25519] [Wasmi] {ctx : RpcContext}

/-- The methods that read one state: their parameters, then perhaps a block. -/
inductive Reading
  | balance (addr : Address)
  | code (addr : Address)
  | slot (addr : Address) (slot : H256)
  | count (addr : Address)

namespace Reading

/-- The method. -/
def method : Reading → Method
  | balance _ => .getBalance
  | code _ => .getCode
  | slot _ _ => .getStorageAt
  | count _ => .getTransactionCount

/-- The parameters in front of the block. -/
def params : Reading → List Value
  | balance addr | code addr | count addr => [.fixed addr]
  | slot addr key => [.fixed addr, .fixed key]

/-- What is read. -/
def value (s : StateDB) : Reading → Value
  | balance addr => .u256 (s.account addr).balance
  | code addr => .bytes (s.getCode addr)
  | slot addr key => .u256 (s.getStorage addr key)
  | count addr => .qty (s.account addr).nonce

end Reading

/-- **A reading** is answered from the state of the block it names. -/
theorem result_reading (hall : ctx.allowMethods = none) (r : Reading) {rest : List Value}
    {tag : BlockNumberOrTag}
    (htag : optionalBlockId (.array (r.params ++ rest)) r.params.length = .ok tag) :
    ctx.result r.method (r.params ++ rest)
      = some ((ctx.stateForTag tag).map fun s => r.value s) := by
  rw [result_of_allows (allows_of_none hall _)]
  cases r with
  | balance addr =>
    have haddr : parseAddressAt (.array (.fixed addr :: rest)) 0 = .ok addr :=
      parseAddressAt_fixed rfl
    change optionalBlockId (.array (.fixed addr :: rest)) 1 = .ok tag at htag
    show some (ctx.getBalance (.array (.fixed addr :: rest))) = _
    simp only [getBalance, haddr, htag, bind, Except.bind]
    cases ctx.stateForTag tag with
    | error e => rfl
    | ok s =>
      simp only [Except.map, Reading.value, StateDB.account]
      cases s.getAccount addr <;> rfl
  | code addr =>
    have haddr : parseAddressAt (.array (.fixed addr :: rest)) 0 = .ok addr :=
      parseAddressAt_fixed rfl
    change optionalBlockId (.array (.fixed addr :: rest)) 1 = .ok tag at htag
    show some (ctx.getCode (.array (.fixed addr :: rest))) = _
    simp only [getCode, haddr, htag, bind, Except.bind]
    cases ctx.stateForTag tag <;> rfl
  | slot addr key =>
    have haddr : parseAddressAt (.array (.fixed addr :: .fixed key :: rest)) 0 = .ok addr :=
      parseAddressAt_fixed rfl
    have hkey : parseH256At (.array (.fixed addr :: .fixed key :: rest)) 1 = .ok key :=
      parseH256At_fixed rfl
    change optionalBlockId (.array (.fixed addr :: .fixed key :: rest)) 2 = .ok tag at htag
    show some (ctx.getStorageAt (.array (.fixed addr :: .fixed key :: rest))) = _
    simp only [getStorageAt, haddr, hkey, htag, bind, Except.bind]
    cases ctx.stateForTag tag <;> rfl
  | count addr =>
    have haddr : parseAddressAt (.array (.fixed addr :: rest)) 0 = .ok addr :=
      parseAddressAt_fixed rfl
    change optionalBlockId (.array (.fixed addr :: rest)) 1 = .ok tag at htag
    show some (ctx.getTransactionCount (.array (.fixed addr :: rest))) = _
    simp only [getTransactionCount, haddr, htag, bind, Except.bind]
    cases ctx.stateForTag tag with
    | error e => rfl
    | ok s =>
      simp only [Except.map, Reading.value, StateDB.account]
      cases s.getAccount addr <;> rfl

theorem result_block (hall : ctx.allowMethods = none) (n : UInt64) :
    ctx.result .getBlockByNumber [.qty n]
      = some ((found .blockNotFound (ctx.chain.store.getBlockByNumber n)).map blockToJson) := by
  have htag : parseBlockIdAt (.array [.qty n]) 0 = .ok (.number n) := parseBlockIdAt_qty rfl
  rw [result_of_allows (allows_of_none hall _)]
  show some (ctx.getBlockByNumber (.array [.qty n])) = _
  simp only [getBlockByNumber, htag, bind, Except.bind, blockByTag]

theorem result_reading_at (hall : ctx.allowMethods = none) (r : Reading) (n : UInt64) :
    ctx.result r.method (r.params ++ [.qty n])
      = some ((ctx.stateForTag (.number n)).map fun s => r.value s) :=
  result_reading hall r (optionalBlockId_qty (by simp))

section Window

variable {g : Genesis} {z : Block} {zs : List Block} {lo : ℕ}

theorem stateForTag_whole (hv : Serves g ctx.chain z zs lo) {y : Block} {ys : List Block}
    (hsub : y :: ys <:+ z :: zs) (hle : lo ≤ y.header.number.toNat) :
    ∃ s, History g (y :: ys) s ∧ ctx.stateForTag (.number y.header.number) = .ok s := by
  obtain ⟨-, s, hs, hh⟩ := hv.whole y ys hsub hle
  refine ⟨s, hh, ?_⟩
  simp only [stateForTag, blockByTag, hv.getBlockByNumber hsub, if_pos hle, found, bind,
    Except.bind, hs]

theorem stateForTag_bare (hv : Serves g ctx.chain z zs lo) {y : Block} {ys : List Block}
    (hsub : y :: ys <:+ z :: zs) (hlt : y.header.number.toNat < lo) :
    ctx.stateForTag (.number y.header.number) = .error .blockNotFound := by
  obtain ⟨-, hs⟩ := hv.bare y ys hsub hlt
  have hhash : y.stub.hash = y.hash := rfl
  simp only [stateForTag, blockByTag, hv.getBlockByNumber hsub, if_neg (Nat.not_le.mpr hlt), found,
    bind, Except.bind, hhash, hs]

theorem stateForTag_above (hv : Serves g ctx.chain z zs lo) {n : UInt64}
    (hn : z.header.number < n) : ctx.stateForTag (.number n) = .error .blockNotFound := by
  simp only [stateForTag, blockByTag, hv.getBlockByNumber_above hn, found, bind, Except.bind]

end Window

/-- **Answers about the past.**  After every run there is a height from which on the node answers
for the whole canonical chain, with the last `k` heights if every pruning kept `k`.  A balance,
code, slot or nonce at such a height is that of the state after the blocks up to it, and the block
is the one that was imported.  Below, states are not found, and blocks are answered without their
transactions; above the head nothing is found.  Without a height the live state answers, which is
the state after the head. -/
theorem history_answers (g : Genesis) (pool : TransactionPool) (ops : List ChainOp)
    (hz : ChainOp.NoZeroHash g ops) (hlen : ops.length + 1 < 2 ^ 64) {k : ℕ}
    (hkeep : ChainOp.Keeps k ops) (ctx : RpcContext)
    (hctx : ctx.chain = (ChainOp.run g pool ops).cs) (hall : ctx.allowMethods = none) :
    ∃ z zs lo, (ChainOp.run g pool ops).chain z.hash = (z :: zs).reverse
      ∧ History g (z :: zs) ctx.chain.live ∧ lo ≤ z.header.number.toNat - (k - 1)
      ∧ (∀ r : Reading, ctx.result r.method r.params = some (.ok (r.value ctx.chain.live)))
      ∧ (∀ y ys, y :: ys <:+ z :: zs → lo ≤ y.header.number.toNat →
        ctx.result .getBlockByNumber [.qty y.header.number] = some (.ok (blockToJson y))
        ∧ ∃ s, History g (y :: ys) s ∧ ∀ r : Reading,
          ctx.result r.method (r.params ++ [.qty y.header.number]) = some (.ok (r.value s)))
      ∧ (∀ y ys, y :: ys <:+ z :: zs → y.header.number.toNat < lo →
        ctx.result .getBlockByNumber [.qty y.header.number] = some (.ok (blockToJson y.stub))
        ∧ ∀ r : Reading, ctx.result r.method (r.params ++ [.qty y.header.number])
          = some (.error .blockNotFound))
      ∧ ∀ n, z.header.number < n →
        ctx.result .getBlockByNumber [.qty n] = some (.error .blockNotFound)
        ∧ ∀ r : Reading, ctx.result r.method (r.params ++ [.qty n])
          = some (.error .blockNotFound) := by
  obtain ⟨z, zs, lo, hchain, hdeep, hv⟩ := ChainOp.serves_run g pool ops hz hlen hkeep
  rw [← hctx] at hv
  refine ⟨z, zs, lo, hchain, hv.history, hdeep, fun r => ?_, fun y ys hsub hle => ⟨?_, ?_⟩,
    fun y ys hsub hlt => ⟨?_, fun r => ?_⟩, fun n hn => ⟨?_, fun r => ?_⟩⟩
  · have hlatest : ctx.result r.method (r.params ++ []) = _ :=
      result_reading hall r (optionalBlockId_absent (by simp))
    rw [List.append_nil] at hlatest
    rw [hlatest, stateForTag, StateDB.fork_eq]
    rfl
  · rw [result_block hall, hv.getBlockByNumber hsub, if_pos hle]
    rfl
  · obtain ⟨s, hh, hs⟩ := stateForTag_whole hv hsub hle
    refine ⟨s, hh, fun r => ?_⟩
    rw [result_reading_at hall, hs]
    rfl
  · rw [result_block hall, hv.getBlockByNumber hsub, if_neg (Nat.not_le.mpr hlt)]
    rfl
  · rw [result_reading_at hall, stateForTag_bare hv hsub hlt]
    rfl
  · rw [result_block hall, hv.getBlockByNumber_above hn]
    rfl
  · rw [result_reading_at hall, stateForTag_above hv hn]
    rfl

end Reads

end RpcContext

section

variable [Keccak] [Ed25519] [Wasmi]

theorem Tracked.tip_eq {g : Genesis} {t : Tracked} {b z : Block} {zs : List Block}
    (harch : ∀ p ∈ t.archive.toList, p.2 = g.block ∨ p.2 = b)
    (hroot : t.cs.live.rootHash.1 ≠ g.block.header.stateRoot)
    (hchain : t.chain z.hash = (z :: zs).reverse) (hh : History g (z :: zs) t.cs.live) :
    z = b := by
  have hz : z ∈ t.chain z.hash := by
    rw [hchain]
    exact List.mem_reverse.mpr List.mem_cons_self
  obtain ⟨k, -, hk⟩ := List.mem_filterMap.mp hz
  rcases harch (k, z) (Table.mem_toList.mpr hk) with hg | hb
  · exact absurd (hh.root_eq.trans (congrArg (fun y => y.header.stateRoot) hg)) hroot
  · exact hb

end

namespace Devnet

/-- A follower of the small network that serves a chain. -/
def context (chain : ChainState) : RpcContext where
  chain := chain
  chainId := 1
  role := .follower
  address := user
  peerId := ""
  peers := 0
  bootstrap := []
  contractLookup := none
  gossips := true
  allowMethods := none

theorem keeps_chainOps : ChainOp.Keeps 1 chainOps := by
  intro keep h
  simp only [chainOps, List.mem_cons, ChainOp.pruneSnapshotsKeep.injEq, reduceCtorEq, false_or,
    List.not_mem_nil, or_false] at h
  subst h
  decide

/-- A block with two transfers, and a pruning that keeps its parent. -/
def pastOps : List ChainOp := [.importBlock blockTwo, .pruneSnapshotsKeep 2]

theorem noZeroHash_pastOps : ChainOp.NoZeroHash genesis pastOps := by
  have hne : genesisBlock.hash ≠ H256.zero ∧ blockTwo.hash ≠ H256.zero := by decide +kernel
  refine ⟨hne.1, fun b hb => ?_⟩
  simp only [pastOps, List.mem_cons, ChainOp.importBlock.injEq, reduceCtorEq, List.not_mem_nil,
    or_false] at hb
  rw [hb]
  exact hne.2

theorem keeps_pastOps : ChainOp.Keeps 2 pastOps := by
  intro keep h
  simp only [pastOps, List.mem_cons, ChainOp.pruneSnapshotsKeep.injEq, reduceCtorEq, false_or,
    List.not_mem_nil, or_false] at h
  rw [h]
  decide

/-- The chain that the node serves after it. -/
def pastChain : ChainState := (ChainOp.run genesis TransactionPool.new pastOps).cs

/-- After two transfers in one block the node answers the balance of the user at the head, and also
the balance at the genesis, which is higher by the amounts and the gas of both. -/
theorem history_answers_pastOps :
    (context pastChain).result .getBalance [.fixed user]
        = some (.ok (.u256 (pastChain.live.account user).balance))
      ∧ (context pastChain).result .getBalance [.fixed user, .qty 0]
        = some (.ok (.u256 (state.account user).balance))
      ∧ state.balance user = pastChain.live.balance user + 42002 := by
  have heval : (∀ p ∈ (ChainOp.run genesis TransactionPool.new pastOps).archive.toList,
        p.2 = genesis.block ∨ p.2 = blockTwo)
      ∧ (ChainOp.run genesis TransactionPool.new pastOps).cs.live.rootHash.1
        ≠ genesis.block.header.stateRoot
      ∧ (ChainOp.run genesis TransactionPool.new pastOps).chain blockTwo.hash
        = [genesis.block, blockTwo]
      ∧ blockTwo.header.number.toNat = 1 ∧ genesis.block.header.number = 0
      ∧ state.balance user = pastChain.live.balance user + 42002 := by decide +kernel
  obtain ⟨harch, hroot, htwo, hone, hzero, hpaid⟩ := heval
  obtain ⟨z, zs, lo, hchain, hh, hlo, hlatest, hpast, -⟩ := RpcContext.history_answers genesis
    TransactionPool.new pastOps noZeroHash_pastOps (by decide) keeps_pastOps (context pastChain) rfl
    rfl
  obtain rfl : z = blockTwo := Tracked.tip_eq harch hroot hchain hh
  have hzs : blockTwo :: zs = [blockTwo, genesis.block] := by
    have hrev := congrArg List.reverse (hchain.symm.trans htwo)
    rwa [List.reverse_reverse] at hrev
  -- the pruning kept two heights, so the genesis is among those that are answered
  obtain ⟨-, s, hs, hread⟩ := hpast genesis.block [] ⟨[blockTwo], hzs.symm⟩ (by omega)
  obtain rfl := hs.unique .genesis
  rw [hzero] at hread
  exact ⟨hlatest (.balance user), hread (.balance user), hpaid⟩

end Devnet

end Ivory
