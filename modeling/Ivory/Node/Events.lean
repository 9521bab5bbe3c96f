import Ivory.Node.Orphans
import Ivory.Rpc.Service

/-!
# What a node tells its subscribers

`run_node` sends an event when the pool admits a transaction, and events when the head moves: the
new head, and after it the logs of its block.  One delivered block can move the head several times,
because blocks that waited for it are imported after it; a side chain that overtakes moves the head
to its tip.

* `Told`: what is told at once.
* `NodeTask.importBlock`: an import, as the service around it sees it.
* `NodeEvent.told`, `NodeEvent.toldRun`: what a node tells while it runs.
* `Climb`: heads one above the other.
* `Node.importBlock_climb`, `Node.produce_climb`: what a delivered block and a tick announce.
* `NodeEvent.heads_climb`: **the heads that are told go up in the order of the fork choice, and
  the last one is the head**, while the tasks take turns.  Tasks that overlap can tell of two heads
  in the other order: the event is sent after the import has returned, and no lock is held.
-/

namespace Ivory

open BlockStore

/-! ### Events -/

section Told

variable [Keccak]

/-- `RpcEvent::new_head`. -/
def RpcEvent.ofHead (b : Block) : RpcEvent :=
  .newHead b.header.number b.hash b.header.parentHash b.header.miner b.header.timestamp
    b.header.stateRoot b.header.gasLimit b.header.gasUsed

/-- `RpcEvent::new_logs`. -/
def RpcEvent.ofLogs (b : Block) : RpcEvent :=
  .newLogs (b.receipts.toList.flatMap fun r => r.logs.toList) b.header.number b.hash

/-- `emit_logs`. -/
def emitLogs (b : Block) : List RpcEvent :=
  if (b.receipts.toList.flatMap fun r => r.logs.toList).isEmpty then [] else [.ofLogs b]

/-- What is told at once: an admitted transaction, an imported head, or a produced one. -/
inductive Told
  | transaction (hash : H256)
  | imported (b : Block)
  | produced (b : Block)

namespace Told

/-- The events. -/
def events : Told → List RpcEvent
  | transaction hash => [.newPendingTx hash]
  | imported b => .ofHead b :: emitLogs b
  | produced b => [.ofHead b, .ofLogs b]

/-- The head. -/
def head : Told → Option Block
  | transaction _ => none
  | imported b | produced b => some b

theorem filterMap_newHeads (told : List Told) :
    (told.flatMap events).filterMap SubKind.newHeads.notification
      = (told.filterMap head).filterMap fun b => SubKind.newHeads.notification (.ofHead b) := by
  induction told with
  | nil => rfl
  | cons t told ih =>
    rw [List.flatMap_cons, List.filterMap_append, ih]
    cases t with
    | transaction hash => rfl
    | imported b =>
      have hlogs : (emitLogs b).filterMap SubKind.newHeads.notification = [] := by
        unfold emitLogs
        split <;> rfl
      rw [events, List.filterMap_cons, hlogs]
      rfl
    | produced b => rfl

end Told

variable [Ed25519] [Wasmi]

/-- The block of a call, if it became the head. -/
def ImportCall.newHead (call : ImportCall) : Option Block :=
  match (call.chain.importAndApply call.block).1 with
  | .error _ => none
  | .ok outcome => if outcome.headChanged then some call.block else none

/-! ### Imports under the service -/

namespace BlockStore

omit [Ed25519] [Wasmi] in
theorem headBlock_rebuildTxIndex (store : BlockStore) :
    store.rebuildTxIndex.headBlock = store.headBlock := by
  rw [rebuildTxIndex]
  split <;> rfl

omit [Ed25519] [Wasmi] in
theorem headBlock_of_added {store : BlockStore} {b : Block}
    (h : ((store.added b).maybeUpdateCanonical b.hash b.header.number).headBlock = none) :
    store.headBlock = none := by
  rw [maybeUpdateCanonical] at h
  split at h
  · have hsome : (store.added b).getBlock b.hash = some b := by
      rw [getBlock_added, if_pos rfl]
    exact absurd (hsome.symm.trans h) nofun
  · rw [headBlock, Option.bind_eq_none_iff] at h ⊢
    intro x hx
    have hnone := h x hx
    rw [getBlock_added] at hnone
    split at hnone
    · cases hnone
    · exact hnone

omit [Ed25519] [Wasmi] in
theorem headBlock_insertValidated {store : BlockStore} {b : Block}
    (h : (store.insertValidated b).2.headBlock = none) : store.headBlock = none := by
  simp only [insertValidated] at h
  split at h
  · exact h
  · refine headBlock_of_added (b := b) ?_
    simp only at h
    split at h
    · rwa [headBlock_rebuildTxIndex] at h
    · exact h

end BlockStore

theorem ChainState.headBlock_importAndApply (cs : ChainState) (b : Block)
    (h : (cs.importAndApply b).2.store.headBlock = none) : cs.store.headBlock = none := by
  have hinsert : (cs.store.insertBlock b).2.headBlock = none → cs.store.headBlock = none := by
    rcases insertBlock_checks cs.store b with ⟨e, he⟩ | ⟨-, -, heq⟩
    · rw [he]
      exact fun hnone => hnone
    · rw [heq]
      exact headBlock_insertValidated
  unfold importAndApply at h
  split at h
  · exact h
  split at h
  · exact h
  simp only at h
  split at h
  · exact h
  rcases hi : cs.store.insertBlock b with ⟨res, store⟩
  rw [hi] at h hinsert
  cases res with
  | error e => exact hinsert h
  | ok outcome =>
    simp only at h
    split at h <;> exact hinsert h

/-- The import of a block, and the events of the head if it moves. -/
def NodeTask.importBlock (b : Block) : NodeTask where
  run cs := ((cs.importAndApply b).2,
    (ImportCall.newHead ⟨cs, b⟩).elim [] fun b => (Told.imported b).events)
  head cs := cs.headBlock_importAndApply b

namespace NodeEvent

/-- What a node tells on an event. -/
def told (n : Node) : NodeEvent → List Told
  | transaction tx origin addedAtMs =>
    match (n.chain.pool.addTransactionAt tx origin addedAtMs).1 with
    | .error _ => []
    | .ok hash => [.transaction hash]
  | block b order =>
    match n.receive order b with
    | none => []
    | some (_, calls) => (calls.filterMap ImportCall.newHead).map .imported
  | tick producer key order =>
    ((n.produce producer order key).2.filterMap ImportCall.newHead).map .produced
  | restart _ _ => []

/-- What a node tells while it runs. -/
def toldRun (g : Genesis) (n : Node) : List NodeEvent → List Told
  | [] => []
  | e :: es =>
    match e.step g n with
    | none => []
    | some (n', _) => e.told n ++ toldRun g n' es

/-- The node is not started anew. -/
def Continues : NodeEvent → Prop
  | restart _ _ => False
  | _ => True

end NodeEvent

end Told

/-! ### Climbing -/

section Climb

variable {κ : Type} [Preorder κ] {a b c : κ} {ks ks' : List κ}

/-- From `a` through `ks`, each above the one before, to the last one. -/
structure Climb (a : κ) (ks : List κ) (b : κ) : Prop where
  pairwise : (a :: ks).Pairwise (· < ·)
  last : b = ks.getLastD a

theorem Climb.refl (a : κ) : Climb a [] a := ⟨List.pairwise_singleton _ _, rfl⟩

theorem Climb.single (h : a < b) : Climb a [b] b := ⟨by simpa using h, rfl⟩

theorem Climb.trans (h : Climb a ks b) (h' : Climb b ks' c) : Climb a (ks ++ ks') c := by
  induction ks generalizing a with
  | nil =>
    have hab : b = a := h.last
    subst hab
    exact h'
  | cons k ks ih =>
    obtain ⟨hak, hks⟩ := List.pairwise_cons.mp h.pairwise
    obtain ⟨hpair, hlast⟩ := ih ⟨hks, by rw [h.last, List.getLastD_cons]⟩
    refine ⟨List.pairwise_cons.mpr ⟨fun x hx => ?_, hpair⟩, ?_⟩
    · have hk : a < k := hak k List.mem_cons_self
      rcases List.mem_cons.mp hx with rfl | hx
      · exact hk
      · exact hk.trans ((List.pairwise_cons.mp hpair).1 x hx)
    · rw [hlast, List.cons_append, List.getLastD_cons]

end Climb

namespace BlockStore

variable [Keccak]

/-- The head in the order of the fork choice. -/
def headKey (store : BlockStore) : WithBot (ℕ ×ₗ H256ᵒᵈ) :=
  store.head.elim ⊥ fun h =>
    (toLex ((store.numberOf h).toNat, OrderDual.toDual h) : ℕ ×ₗ H256ᵒᵈ)

/-- A block in the order of the fork choice. -/
def blockKey (b : Block) : WithBot (ℕ ×ₗ H256ᵒᵈ) := forkKey b.hash b

omit [Keccak] in
theorem headKey_of_head {store : BlockStore} {h : H256} {b : Block} (hh : store.head = some h)
    (hb : store.getBlock h = some b) : store.headKey = forkKey h b := by
  rw [headKey, hh, Option.elim_some, numberOf_eq hb]
  rfl

omit [Keccak] in
theorem SameHeaders.headKey {store store' : BlockStore} (hs : SameHeaders store store') :
    store'.headKey = store.headKey := by
  simp only [BlockStore.headKey, hs.head, hs.numberOf]

theorem head_of_headKey {store : BlockStore} {b : Block} (h : store.headKey = blockKey b) :
    store.head = some b.hash := by
  rw [headKey] at h
  cases hh : store.head with
  | none =>
    rw [hh] at h
    cases h
  | some h₀ =>
    rw [hh] at h
    have hkey := congrArg (fun k : ℕ ×ₗ H256ᵒᵈ => OrderDual.ofDual (ofLex k).2)
      (WithBot.coe_injective h)
    exact congrArg some hkey

end BlockStore

/-! ### Imports and ticks -/

namespace Node

variable [Keccak] [Ed25519] [Wasmi]

/-- The heads that calls announce, in the order of the fork choice. -/
def headKeys (calls : List ImportCall) : List (WithBot (ℕ ×ₗ H256ᵒᵈ)) :=
  (calls.filterMap ImportCall.newHead).map blockKey

theorem headKeys_append (calls calls' : List ImportCall) :
    headKeys (calls ++ calls') = headKeys calls ++ headKeys calls' := by
  rw [headKeys, List.filterMap_append, List.map_append]
  rfl

theorem newHead_of_error {chain chain' : ChainState} {b : Block} {e : ChainError}
    (h : chain.importAndApply b = (.error e, chain')) : ImportCall.newHead ⟨chain, b⟩ = none := by
  rw [ImportCall.newHead, h]

/-- **One accepted call**: the head is announced exactly if it moved, and then it moved up. -/
theorem climb_of_accepted {chain chain' : ChainState} (hi : StoreInv chain.store) {b : Block}
    {pre post : StateDB} {outs : List ExecutionOutcome} {ctx : ExecutionContext}
    {outcome : InsertOutcome} {store' : BlockStore}
    (h : chain.importAndApply b = (.ok outcome, chain'))
    (ha : Accepted chain b pre outs post ctx outcome store' chain') :
    Climb chain.store.headKey (headKeys [⟨chain, b⟩]) chain'.store.headKey := by
  have hnew : ImportCall.newHead ⟨chain, b⟩
      = if outcome.headChanged then some b else none := by rw [ImportCall.newHead, h]
  rw [headKeys, List.filterMap_cons, hnew]
  cases hm : outcome.headChanged with
  | true =>
    have hkey : chain'.store.headKey = blockKey b :=
      headKey_of_head (ha.live_of_moved hm).1 ((ha.getBlock _).trans (if_pos rfl))
    rw [hkey]
    refine .single ?_
    rcases ha.inserted.cases with ⟨-, -, hlt, -⟩ | ⟨hf, -⟩
    · cases hh : chain.store.head with
      | none =>
        rw [headKey, hh]
        exact WithBot.bot_lt_coe _
      | some h₀ =>
        obtain ⟨b₀, hb₀, -⟩ := hi.head_max h₀ hh
        rw [headKey_of_head hh hb₀]
        exact WithBot.coe_lt_coe.mpr (hlt h₀ b₀ hh hb₀)
    · rw [hm] at hf
      cases hf
  | false =>
    have hkey : chain'.store.headKey = chain.store.headKey := by
      cases hh : chain.store.head with
      | none =>
        rw [headKey, headKey, (ha.stayed hm).1, hh]
        rfl
      | some h₀ =>
        obtain ⟨b₀, hb₀, -⟩ := hi.head_max h₀ hh
        have hne : h₀ ≠ b.hash := by
          rintro rfl
          rw [ha.insertable.fresh] at hb₀
          cases hb₀
        rw [headKey_of_head hh hb₀, headKey_of_head ((ha.stayed hm).1.trans hh)
          ((ha.getBlock h₀).trans ((if_neg hne).trans hb₀))]
    rw [hkey]
    exact .refl _

theorem foldlM_climb {f : Node → Block → Option (Node × List ImportCall)}
    (hf : ∀ n c n' calls, f n c = some (n', calls) → StoreInv n.chain.store →
      StoreInv n'.chain.store
        ∧ Climb n.chain.store.headKey (headKeys calls) n'.chain.store.headKey)
    {k : WithBot (ℕ ×ₗ H256ᵒᵈ)} : ∀ (cs : List Block) (acc res : Node × List ImportCall),
    cs.foldlM (fun acc child => (f acc.1 child).bind fun r => some (r.1, acc.2 ++ r.2)) acc
      = some res →
    StoreInv acc.1.chain.store → Climb k (headKeys acc.2) acc.1.chain.store.headKey →
    StoreInv res.1.chain.store ∧ Climb k (headKeys res.2) res.1.chain.store.headKey := by
  intro cs
  induction cs with
  | nil =>
    intro acc res h hacc hclimb
    cases h
    exact ⟨hacc, hclimb⟩
  | cons c cs ih =>
    intro acc res h hacc hclimb
    rw [List.foldlM_cons] at h
    cases h₁ : f acc.1 c with
    | none =>
      rw [h₁] at h
      cases h
    | some r =>
      rw [h₁] at h
      obtain ⟨hi', hclimb'⟩ := hf acc.1 c r.1 r.2 h₁ hacc
      refine ih (r.1, acc.2 ++ r.2) res h hi' ?_
      rw [headKeys_append]
      exact hclimb.trans hclimb'

/-- **A delivered block**, with the blocks that waited for it. -/
theorem importBlock_climb (order : IterOrder Block) : ∀ (fuel : ℕ) (n : Node) (b : Block)
    (n' : Node) (calls : List ImportCall), StoreInv n.chain.store →
    importBlock order fuel n b = some (n', calls) →
    StoreInv n'.chain.store
      ∧ Climb n.chain.store.headKey (headKeys calls) n'.chain.store.headKey := by
  intro fuel
  induction fuel with
  | zero => intro n b n' calls _ h; cases h
  | succ fuel ih =>
    intro n b n' calls hi h
    rcases importBlock_cases hi order fuel b with
      ⟨e, he, heq⟩ | ⟨pre, outs, post, ctx, outcome, store', chain, hok, ha, heq⟩
    · rw [heq] at h
      cases h
      rw [refuse_chain, headKeys, List.filterMap_cons, newHead_of_error he]
      exact ⟨hi, .refl _⟩
    · rw [heq] at h
      -- the children one after the other
      refine foldlM_climb (f := fun n c => importBlock order fuel (n.takeOrphan c) c)
        (fun n c n' calls hc hn => ih (n.takeOrphan c) c n' calls hn hc) _ _ _ h
        (storeInv_settle hi ha) ?_
      rw [(sameHeaders_settle { n with chain := chain } b).headKey]
      exact climb_of_accepted hi hok ha

/-- **A tick.** -/
theorem produce_climb (n : Node) (producer : BlockProducer) (order : IterOrder PendingTx)
    (key : SecretKey) (hi : StoreInv n.chain.store) :
    StoreInv (n.produce producer order key).1.chain.store
      ∧ Climb n.chain.store.headKey (headKeys (n.produce producer order key).2)
        (n.produce producer order key).1.chain.store.headKey := by
  have hnothing : StoreInv n.chain.store
      ∧ Climb n.chain.store.headKey (headKeys []) n.chain.store.headKey := ⟨hi, .refl _⟩
  unfold produce
  split
  · exact hnothing
  split
  · exact hnothing
  split
  · exact hnothing
  split
  · exact hnothing
  · next b _ =>
    rcases ChainState.importAndApply_cases hi b with
      ⟨e, he⟩ | ⟨pre, outs, post, ctx, outcome, store', chain, hok, ha⟩
    · rw [he]
      refine ⟨hi, ?_⟩
      rw [headKeys, List.filterMap_cons, newHead_of_error he]
      exact .refl _
    · rw [hok]
      refine ⟨storeInv_settle hi ha, ?_⟩
      show Climb _ _ ({ n with chain := chain }.settle b).chain.store.headKey
      rw [(sameHeaders_settle { n with chain := chain } b).headKey]
      exact climb_of_accepted hi hok ha

end Node

/-! ### Runs -/

namespace NodeEvent

variable [Keccak] [Ed25519] [Wasmi]

/-- **One event.** -/
theorem climb_step (g : Genesis) {n n' : Node} (hi : StoreInv n.chain.store) {e : NodeEvent}
    (he : e.Continues) {calls : List ImportCall} (h : e.step g n = some (n', calls)) :
    StoreInv n'.chain.store ∧ Climb n.chain.store.headKey
      (((e.told n).filterMap Told.head).map blockKey) n'.chain.store.headKey := by
  have hheads : ∀ (f : Block → Told) (bs : List Block), (∀ b, (f b).head = some b) →
      (bs.map f).filterMap Told.head = bs := by
    intro f bs hf
    induction bs with
    | nil => rfl
    | cons b bs ih => rw [List.map_cons, List.filterMap_cons, hf b, ih]
  cases e with
  | transaction tx origin addedAtMs =>
    cases h
    refine ⟨hi, ?_⟩
    rw [told]
    split <;> exact .refl _
  | block b order =>
    change n.receive order b = some (n', calls) at h
    rw [told, h]
    simp only [hheads .imported _ fun _ => rfl]
    exact Node.importBlock_climb order _ n b n' calls hi h
  | tick producer key order =>
    have heq : n.produce producer order key = (n', calls) := Option.some.inj h
    have hclimb := n.produce_climb producer order key hi
    rw [heq] at hclimb
    rw [told, heq, hheads .produced _ fun _ => rfl]
    exact hclimb
  | restart archive archiveKeep => exact he.elim

theorem climb_run (g : Genesis) : ∀ (es : List NodeEvent) (n n' : Node) (calls : List ImportCall),
    StoreInv n.chain.store → (∀ e ∈ es, e.Continues) → run g n es = some (n', calls) →
    Climb n.chain.store.headKey (((toldRun g n es).filterMap Told.head).map blockKey)
      n'.chain.store.headKey := by
  intro es
  induction es with
  | nil =>
    intro n n' calls _ _ h
    cases h
    exact .refl _
  | cons e es ih =>
    intro n n' calls hi hes h
    rw [run] at h
    cases he : e.step g n with
    | none =>
      rw [he] at h
      cases h
    | some r =>
      obtain ⟨n₁, calls₁⟩ := r
      rw [he] at h
      obtain ⟨⟨n₂, calls₂⟩, h₂, heq⟩ := Option.map_eq_some_iff.mp h
      cases heq
      obtain ⟨hi₁, hclimb⟩ := climb_step g hi (hes e List.mem_cons_self) he
      rw [toldRun, he]
      simp only [List.filterMap_append, List.map_append]
      exact hclimb.trans (ih n₁ _ _ hi₁ (fun e he => hes e (List.mem_cons_of_mem _ he)) h₂)

/-- **The heads that are told.**  A node that runs from its genesis on, through any transactions,
blocks from peers in any order, and ticks, and whose tasks do not overlap, so that each event is
dealt with and told of before the next, tells of heads that go up in the order of the fork choice,
so of none twice, and the last of them is the head.  Subscribers to new heads are told of these and
of nothing else. -/
theorem heads_climb (g : Genesis) (archive : Bool) (archiveKeep : UInt64) (es : List NodeEvent)
    (hes : ∀ e ∈ es, e.Continues) {n : Node} {calls : List ImportCall}
    (hrun : run g (Node.fresh g archive archiveKeep) es = some (n, calls)) :
    ∃ heads : List Block,
      heads = (toldRun g (Node.fresh g archive archiveKeep) es).filterMap Told.head
      ∧ (g.block :: heads).Pairwise (fun a b => forkKey a.hash a < forkKey b.hash b)
      ∧ n.chain.store.head = some (heads.getLastD g.block).hash
      ∧ ((toldRun g (Node.fresh g archive archiveKeep) es).flatMap Told.events).filterMap
          SubKind.newHeads.notification
        = heads.filterMap fun b => SubKind.newHeads.notification (.ofHead b) := by
  have hclimb := climb_run g es _ n calls g.storeInv hes hrun
  generalize hheads : (toldRun g (Node.fresh g archive archiveKeep) es).filterMap Told.head = heads
    at hclimb
  have hstart : (Node.fresh g archive archiveKeep).chain.store.headKey = blockKey g.block :=
    headKey_of_head g.head g.getBlock_block
  rw [hstart] at hclimb
  refine ⟨heads, rfl, ?_, head_of_headKey ?_, ?_⟩
  · have hpair : ((g.block :: heads).map blockKey).Pairwise (· < ·) := hclimb.pairwise
    exact (List.pairwise_map.mp hpair).imp fun h => WithBot.coe_lt_coe.mp h
  · rw [hclimb.last]
    exact List.getLastD_map
  · rw [Told.filterMap_newHeads, hheads]

end NodeEvent

namespace Devnet

/-- A transaction and two blocks on the genesis. -/
def rivals : List NodeEvent :=
  [.transaction (transfer 0) .local 0, .block blockA inOrder, .block blockB inOrder]

/-- On the small network the heads that are told lead to the head. -/
theorem heads_climb_rivals : ∃ (n : Node) (heads : List Block),
    heads = (NodeEvent.toldRun genesis (Node.fresh genesis true 1) rivals).filterMap Told.head
    ∧ (genesis.block :: heads).Pairwise (fun a b => forkKey a.hash a < forkKey b.hash b)
    ∧ n.chain.store.head = some (heads.getLastD genesis.block).hash := by
  have hsome : (NodeEvent.run genesis (Node.fresh genesis true 1) rivals).isSome = true := by
    decide +kernel
  obtain ⟨⟨n, calls⟩, hrun⟩ := Option.isSome_iff_exists.mp hsome
  have hes : ∀ e ∈ rivals, e.Continues := by
    intro e he
    simp only [rivals, List.mem_cons, List.not_mem_nil, or_false] at he
    rcases he with rfl | rfl | rfl <;> trivial
  obtain ⟨heads, hheads, hpair, hlast, -⟩ := NodeEvent.heads_climb genesis true 1 rivals hes hrun
  exact ⟨n, heads, hheads, hpair, hlast⟩

end Devnet

end Ivory
