import Ivory.Chain.Canonical

/-!
# The order of insertion

What a block store answers depends on which blocks it holds, not on the order
in which they came: the head is the greatest block, the height index its path,
and the transaction index is what `rebuild_tx_index` would compute now.

* `StoreInv.head_eq`, `StoreInv.byNumber_eq`: stores with the same blocks have the same
  head and the same height index.
* `Inserted.indexed`: an insertion keeps the transaction index up to date.
* `InsertCall.order_irrelevant`: **two valid orders of the same blocks end in the same
  head, height index and transaction index.**
-/

namespace Ivory

namespace BlockStore

section Determined

variable [Keccak] {store store' : BlockStore}

/-! ### Same blocks, same head -/

/-- **Stores with the same blocks have the same head.** -/
theorem StoreInv.head_eq (hi : StoreInv store) (hi' : StoreInv store')
    (hget : ∀ h, store'.getBlock h = store.getBlock h) : store'.head = store.head := by
  cases hh : store.head with
  | none =>
    cases hh' : store'.head with
    | none => rfl
    | some h' =>
      obtain ⟨b', hb', -⟩ := hi'.head_max h' hh'
      rw [hget, (hi.no_head hh).2] at hb'
      cases hb'
  | some h =>
    obtain ⟨b, hb, hmax⟩ := hi.head_max h hh
    cases hh' : store'.head with
    | none =>
      rw [← hget, (hi'.no_head hh').2] at hb
      cases hb
    | some h' =>
      obtain ⟨b', hb', hmax'⟩ := hi'.head_max h' hh'
      -- each head is the greatest block of the other store
      have hle := hmax h' b' ((hget h').symm.trans hb')
      have hle' := hmax' h b ((hget h).trans hb)
      have heq : forkKey h' b' = forkKey h b := le_antisymm hle hle'
      exact congrArg some (OrderDual.toDual.injective (Prod.ext_iff.mp (toLex.injective heq)).2)

theorem StoreInv.byNumber_eq (hi : StoreInv store) (hi' : StoreInv store')
    (hget : ∀ h, store'.getBlock h = store.getBlock h) : store'.byNumber = store.byNumber := by
  have hhead := hi.head_eq hi' hget
  have hfun : store'.getBlock = store.getBlock := funext hget
  cases hh : store.head with
  | none => rw [(hi.no_head hh).1, (hi'.no_head (hhead.trans hh)).1]
  | some h =>
    obtain ⟨b, hb, -⟩ := hi.head_max h hh
    obtain ⟨l, hl⟩ := hi.path h b hb
    have hl' : store'.IsPath h l := by
      rw [IsPath, hfun]
      exact hl
    rw [hi.canonical h l hh hl, hi'.canonical h l (hhead.trans hh) hl', numberIndex, numberIndex]
    refine List.foldl_ext _ _ _ fun m e _ => ?_
    rw [numberOf, numberOf, hget]

/-! ### The transaction index -/

/-- The transaction index is what rebuilding it would give. -/
def Indexed (store : BlockStore) : Prop := store.txIndex = store.rebuildTxIndex.txIndex

theorem indexed_new (c : PoAConsensus) : Indexed (new c) := rfl

theorem StoreInv.getBlock_of_byNumber (hi : StoreInv store) {n : UInt64} {k : H256}
    (h : store.byNumber[n]? = some k) : ∃ b, store.getBlock k = some b := by
  cases hh : store.head with
  | none =>
    rw [(hi.no_head hh).1] at h
    simp at h
  | some t =>
    obtain ⟨b, hb, -⟩ := hi.head_max t hh
    obtain ⟨l, hl⟩ := hi.path t b hb
    rw [hi.canonical t l hh hl] at h
    obtain ⟨_, hl', -⟩ := hl.of_mem k (of_numberIndex store l n k h).1
    exact hl'.get_isSome

theorem Inserted.getBlockByNumber_eq {b : Block} {outcome : InsertOutcome}
    (hn : Inserted store b outcome store') (hi : StoreInv store)
    (hf : store.getBlock b.hash = none) (hnum : store'.byNumber = store.byNumber) (n : UInt64) :
    store'.getBlockByNumber n = store.getBlockByNumber n := by
  unfold getBlockByNumber
  rw [hnum]
  cases hk : store.byNumber[n]? with
  | none => rfl
  | some k =>
    obtain ⟨x, hx⟩ := hi.getBlock_of_byNumber hk
    rw [Option.bind_some, Option.bind_some, hx, hn.mono hf hx]

/-- **An insertion keeps the transaction index up to date**, also when the head stays. -/
theorem Inserted.indexed {b : Block} {outcome : InsertOutcome}
    (hn : Inserted store b outcome store') (hi : StoreInv store)
    (hf : store.getBlock b.hash = none) (hx : Indexed store) : Indexed store' := by
  rcases hn.cases with ⟨-, -, -, -, hidx⟩ | ⟨-, hhead, -, hnum, hidx⟩
  · exact hidx
  · rw [Indexed, hidx, hx]
    refine (rebuildTxIndex_congr ?_ (hn.getBlockByNumber_eq hi hf hnum)).symm
    unfold headBlock
    rw [hhead]
    cases hh : store.head with
    | none =>
      rw [hn.newHead, hh] at hhead
      cases hhead
    | some h =>
      obtain ⟨x, hx, -⟩ := hi.head_max h hh
      rw [Option.bind_some, Option.bind_some, hx, hn.mono hf hx]

theorem StoreInv.txIndex_eq (hi : StoreInv store) (hi' : StoreInv store')
    (hget : ∀ h, store'.getBlock h = store.getBlock h) (hx : Indexed store) (hx' : Indexed store') :
    store'.txIndex = store.txIndex := by
  have hfun : store'.getBlock = store.getBlock := funext hget
  rw [hx, hx']
  refine rebuildTxIndex_congr ?_ fun n => ?_
  · rw [headBlock, headBlock, hi.head_eq hi' hget, hfun]
  · rw [getBlockByNumber, getBlockByNumber, hi.byNumber_eq hi' hget, hfun]

end Determined

end BlockStore

/-! ### Sequences of insertions -/

/-- A call of `insert_genesis` or of `insert_block`. -/
structure InsertCall where
  viaGenesis : Bool
  block : Block

namespace InsertCall

open BlockStore

/-- The call as an operation of the store. -/
def op (call : InsertCall) : StoreOp :=
  if call.viaGenesis then .insertGenesis call.block else .insertBlock call.block

/-- What is hashed for the blocks of a sequence. -/
def encodings (calls : List InsertCall) : Set (List UInt8) :=
  { e | e ∈ (calls.map block).flatMap Block.encodings }

theorem encodings_subset (pre post : List InsertCall) :
    encodings pre ⊆ encodings (pre ++ post) := by
  intro e he
  unfold encodings at he ⊢
  rw [List.map_append, List.flatMap_append]
  exact List.mem_append_left _ he

variable [Keccak] [Ed25519]

/-- The call on a store. -/
def apply (store : BlockStore) (call : InsertCall) : Except ChainError InsertOutcome × BlockStore :=
  if call.viaGenesis then store.insertGenesis call.block else store.insertBlock call.block

theorem op_apply (store : BlockStore) (call : InsertCall) :
    call.op.apply store = (call.apply store).2 := by
  unfold op apply
  split <;> rfl

/-- The store after a sequence of calls on a new store. -/
def run (c : PoAConsensus) (calls : List InsertCall) : BlockStore :=
  calls.foldl (fun store call => (call.apply store).2) (BlockStore.new c)

theorem run_eq (c : PoAConsensus) (calls : List InsertCall) :
    run c calls = StoreOp.run c (calls.map op) := by
  rw [run, StoreOp.run, List.foldl_map]
  exact List.foldl_ext _ _ _ fun store call _ => (op_apply store call).symm

theorem run_snoc (c : PoAConsensus) (calls : List InsertCall) (call : InsertCall) :
    run c (calls ++ [call]) = (call.apply (run c calls)).2 := by
  rw [run, List.foldl_append]
  rfl

/-- The block of a call is valid, and its parent is among the blocks before it. -/
structure ValidAfter (c : PoAConsensus) (before : List Block) (call : InsertCall) : Prop where
  miner : c.isValidator call.block.header.miner = true
  seals : c.verifyCryptoSeals call.block.header = .ok ()
  body : call.block.validate = .ok ()
  genesis : call.block.header.number = 0 → call.block.header.parentHash = H256.zero
  viaGenesis : call.viaGenesis = true → call.block.header.number = 0
  parent : call.block.header.number ≠ 0 → ∃ p ∈ before, p.hash = call.block.header.parentHash
    ∧ call.block.header.number = p.header.number.saturatingAdd 1
    ∧ p.header.timestamp ≤ call.block.header.timestamp

/-- A sequence of calls of valid blocks in which every parent precedes its children. -/
def ValidSeq (c : PoAConsensus) (calls : List InsertCall) : Prop :=
  ∀ pre call post, calls = pre ++ call :: post → ValidAfter c (pre.map block) call

theorem ValidSeq.of_append {c : PoAConsensus} {pre post : List InsertCall}
    (h : ValidSeq c (pre ++ post)) : ValidSeq c pre := by
  rintro p call q rfl
  exact h p call (q ++ post) (by simp)

theorem ValidSeq.last {c : PoAConsensus} {pre : List InsertCall} {call : InsertCall}
    (h : ValidSeq c (pre ++ [call])) : ValidAfter c (pre.map block) call := h pre call [] rfl

theorem ValidSeq.snoc {c : PoAConsensus} {pre : List InsertCall} {call : InsertCall}
    (h : ValidSeq c pre) (hl : ValidAfter c (pre.map block) call) : ValidSeq c (pre ++ [call]) := by
  intro p x q heq
  rcases List.eq_nil_or_concat q with rfl | ⟨q, y, rfl⟩
  · obtain ⟨rfl, hx⟩ := List.append_inj' heq rfl
    cases hx
    exact hl
  · have heq' : pre ++ [call] = (p ++ x :: q) ++ [y] := by simpa using heq
    obtain ⟨rfl, -⟩ := List.append_inj' heq' rfl
    exact h p x q rfl

/-- The blocks of the store are those of the calls. -/
def Holds (store : BlockStore) (calls : List InsertCall) : Prop :=
  ∀ h b, store.getBlock h = some b ↔ b ∈ calls.map block ∧ b.hash = h

section Step

variable {c : PoAConsensus} {pre : List InsertCall} {call : InsertCall}

theorem fresh_of_holds (hcf : CollisionFree (encodings (pre ++ [call])))
    (hseq : ValidSeq c (pre ++ [call])) (hnd : ((pre ++ [call]).map block).Nodup)
    (hold : Holds (run c pre) pre) : (run c pre).getBlock call.block.hash = none := by
  cases hg : (run c pre).getBlock call.block.hash with
  | none => rfl
  | some b =>
    obtain ⟨hb, hh⟩ := (hold _ _).mp hg
    obtain ⟨call', hcall', rfl⟩ := List.mem_map.mp hb
    obtain ⟨p, q, rfl⟩ := List.append_of_mem hcall'
    -- a stored block with this hash would be the block itself
    have heq : call'.block = call.block := by
      refine Block.eq_of_hash_eq hcf (fun e he => ?_) (fun e he => ?_)
        (hseq p call' (q ++ [call]) (by simp)).body hseq.last.body hh
      · exact List.mem_flatMap.mpr ⟨call'.block, by simp, he⟩
      · exact List.mem_flatMap.mpr ⟨call.block, by simp, he⟩
    simp [heq, List.nodup_append] at hnd

theorem apply_of_holds (hcf : CollisionFree (encodings (pre ++ [call])))
    (hseq : ValidSeq c (pre ++ [call])) (hnd : ((pre ++ [call]).map block).Nodup)
    (hold : Holds (run c pre) pre) :
    ∃ outcome store', call.apply (run c pre) = (.ok outcome, store')
      ∧ Inserted (run c pre) call.block outcome store' := by
  obtain ⟨hi, hc⟩ := StoreOp.inv_run c (pre.map op)
  rw [← run_eq] at hi hc
  have hva := hseq.last
  have hval : HeaderValid (run c pre) call.block.header := by
    refine ⟨by rw [hc]; exact hva.miner, by rw [hc]; exact hva.seals, hva.genesis, fun h0 => ?_⟩
    obtain ⟨p, hp, hhash, hnum, hts⟩ := hva.parent h0
    exact ⟨p, (hold _ _).mpr ⟨hp, hhash⟩, hnum, hts⟩
  obtain ⟨outcome, store', heq, hn⟩ :=
    insertValidated_of_fresh hi (fresh_of_holds hcf hseq hnd hold)
  refine ⟨outcome, store', ?_, hn⟩
  unfold apply
  split
  · next hg => rw [insertGenesis_eq hval (hva.viaGenesis hg) hva.body, heq]
  · rw [insertBlock_eq hval hva.body, heq]

end Step

/-- **After a valid sequence the store holds its blocks, with the indices up to date.** -/
theorem holds_run (c : PoAConsensus) (calls : List InsertCall) :
    CollisionFree (encodings calls) → ValidSeq c calls → (calls.map block).Nodup →
    Holds (run c calls) calls ∧ Indexed (run c calls) := by
  induction calls using List.reverseRecOn with
  | nil =>
    intro _ _ _
    exact ⟨fun h b => by simp [run, getBlock, BlockStore.new], indexed_new c⟩
  | append_singleton pre call ih =>
    intro hcf hseq hnd
    have hnd' : (pre.map block).Nodup := by
      rw [List.map_append] at hnd
      exact hnd.of_append_left
    obtain ⟨hold, hx⟩ := ih (hcf.mono (encodings_subset pre [call])) hseq.of_append hnd'
    obtain ⟨outcome, store', heq, hn⟩ := apply_of_holds hcf hseq hnd hold
    have hf := fresh_of_holds hcf hseq hnd hold
    have hi := (StoreOp.inv_run c (pre.map op)).1
    rw [← run_eq] at hi
    rw [run_snoc, heq]
    refine ⟨fun h b => ?_, hn.indexed hi hf hx⟩
    rw [hn.getBlock, List.map_append, List.mem_append, List.map_singleton, List.mem_singleton]
    constructor
    · intro hb
      split at hb
      · next hh => exact ⟨.inr (Option.some.inj hb).symm, by rw [← Option.some.inj hb, hh]⟩
      · exact ⟨.inl ((hold h b).mp hb).1, ((hold h b).mp hb).2⟩
    · rintro ⟨hb | rfl, rfl⟩
      · have hb := (hold b.hash b).mpr ⟨hb, rfl⟩
        have hne : b.hash ≠ call.block.hash := by
          intro he
          rw [he, hf] at hb
          cases hb
        rw [if_neg hne, hb]
      · rw [if_pos rfl]

theorem succeeds {c : PoAConsensus} {calls : List InsertCall}
    (hcf : CollisionFree (encodings calls))
    (hseq : ValidSeq c calls) (hnd : (calls.map block).Nodup) :
    ∀ pre call post, calls = pre ++ call :: post →
      ∃ outcome, (call.apply (run c pre)).1 = .ok outcome := by
  rintro pre call post rfl
  have hsplit : pre ++ call :: post = (pre ++ [call]) ++ post := by simp
  rw [hsplit] at hseq hnd hcf
  have hcf' := hcf.mono (encodings_subset _ post)
  rw [List.map_append] at hnd
  have hnd' := hnd.of_append_left
  rw [List.map_append] at hnd'
  obtain ⟨hold, -⟩ := holds_run c pre (hcf'.mono (encodings_subset _ _))
    hseq.of_append.of_append hnd'.of_append_left
  obtain ⟨outcome, store', heq, -⟩ := apply_of_holds hcf' hseq.of_append hnd.of_append_left hold
  exact ⟨outcome, by rw [heq]⟩

/-- **The order of insertion does not matter.**  Two sequences of calls over the same distinct
blocks, all valid and every parent before its children, all succeed and end with the same head,
the same height index and the same transaction index. -/
theorem order_irrelevant (c : PoAConsensus) (calls calls' : List InsertCall)
    (hseq : ValidSeq c calls) (hseq' : ValidSeq c calls')
    (hnd : (calls.map block).Nodup) (hnd' : (calls'.map block).Nodup)
    (hsame : ∀ b, b ∈ calls.map block ↔ b ∈ calls'.map block)
    (hcf : CollisionFree (encodings calls)) :
    (∀ pre call post, calls = pre ++ call :: post →
      ∃ outcome, (call.apply (run c pre)).1 = .ok outcome)
    ∧ (∀ pre call post, calls' = pre ++ call :: post →
      ∃ outcome, (call.apply (run c pre)).1 = .ok outcome)
    ∧ (run c calls).head = (run c calls').head
    ∧ (run c calls).byNumber = (run c calls').byNumber
    ∧ (run c calls).txIndex = (run c calls').txIndex := by
  have hcf' : CollisionFree (encodings calls') := by
    refine hcf.mono fun e he => ?_
    obtain ⟨b, hb, heb⟩ := List.mem_flatMap.mp he
    exact List.mem_flatMap.mpr ⟨b, (hsame b).mpr hb, heb⟩
  obtain ⟨hold, hx⟩ := holds_run c calls hcf hseq hnd
  obtain ⟨hold', hx'⟩ := holds_run c calls' hcf' hseq' hnd'
  have hget : ∀ h, (run c calls).getBlock h = (run c calls').getBlock h := by
    intro h
    refine Option.ext fun b => ?_
    rw [hold h b, hold' h b, hsame b]
  have hi := (StoreOp.inv_run c (calls.map op)).1
  have hi' := (StoreOp.inv_run c (calls'.map op)).1
  rw [← run_eq] at hi hi'
  exact ⟨succeeds hcf hseq hnd, succeeds hcf' hseq' hnd', hi'.head_eq hi hget,
    hi'.byNumber_eq hi hget, hi'.txIndex_eq hi hget hx' hx⟩

end InsertCall

namespace Devnet

/-- A genesis and two blocks on it, in one order. -/
def callsAB : List InsertCall := [⟨true, genesisBlock⟩, ⟨false, blockA⟩, ⟨false, blockB⟩]

/-- The same blocks in the other order. -/
def callsBA : List InsertCall := [⟨false, genesisBlock⟩, ⟨false, blockB⟩, ⟨false, blockA⟩]

theorem validSeq_genesis (viaGenesis : Bool) :
    InsertCall.ValidSeq consensus ([] ++ [⟨viaGenesis, genesisBlock⟩]) := by
  obtain ⟨⟨hm, hs, hv⟩, h0, hp⟩ := sealed_genesisBlock
  have hnil : InsertCall.ValidSeq consensus [] := fun pre call post h => by simp at h
  exact hnil.snoc ⟨hm, hs, hv, fun _ => hp, fun _ => h0, fun h => absurd h0 h⟩

theorem validAfter_onGenesis {b : Block} (hb : Sealed b ∧ OnGenesis b) {before : List Block}
    (h : genesisBlock ∈ before) : InsertCall.ValidAfter consensus before ⟨false, b⟩ := by
  obtain ⟨⟨hm, hs, hv⟩, h1, hp, hnum, hts⟩ := hb
  refine ⟨hm, hs, hv, fun h0 => ?_, fun h => (by cases h),
    fun _ => ⟨genesisBlock, h, hp, hnum, hts⟩⟩
  rw [h1] at h0
  cases h0

/-- On the small network the two orders end in the same store, with the same head. -/
theorem order_irrelevant_blocks :
    (InsertCall.run consensus callsAB).head = (InsertCall.run consensus callsBA).head
    ∧ (InsertCall.run consensus callsAB).byNumber = (InsertCall.run consensus callsBA).byNumber
    ∧ (InsertCall.run consensus callsAB).txIndex = (InsertCall.run consensus callsBA).txIndex := by
  have hab : InsertCall.ValidSeq consensus callsAB :=
    ((validSeq_genesis true).snoc (validAfter_onGenesis sealed_blockA (by simp))).snoc
      (validAfter_onGenesis sealed_blockB (by simp))
  have hba : InsertCall.ValidSeq consensus callsBA :=
    ((validSeq_genesis false).snoc (validAfter_onGenesis sealed_blockB (by simp))).snoc
      (validAfter_onGenesis sealed_blockA (by simp))
  have hnd : (callsAB.map InsertCall.block).Nodup := by decide +kernel
  have hnd' : (callsBA.map InsertCall.block).Nodup := by decide +kernel
  have hsame : ∀ b, b ∈ callsAB.map InsertCall.block ↔ b ∈ callsBA.map InsertCall.block := by
    intro b
    simp only [callsAB, callsBA, List.map_cons, List.map_nil, List.mem_cons, List.not_mem_nil,
      or_false]
    tauto
  have hcf : ∀ x ∈ (callsAB.map InsertCall.block).flatMap Block.encodings,
      ∀ y ∈ (callsAB.map InsertCall.block).flatMap Block.encodings,
        keccak256 x = keccak256 y → x = y := by decide +kernel
  exact (InsertCall.order_irrelevant consensus callsAB callsBA hab hba hnd hnd' hsame
    fun x hx y hy => hcf x hx y hy).2.2

end Devnet

end Ivory
