import Ivory.Node.Admission
import Ivory.Node.Convergence

/-!
# A block that waits

`import_block` puts a block aside while its parent is not stored, under its hash,
and before any check.  The hash is that of the header: a block with the same header
and another body takes the place of the one that waits (`Devnet.waiting_replaced`).

A block also stays aside for good if the state of its parent is pruned before the
block is tried.

* `Node.Awaiting`: the block waits and its parent is not stored, or it is about to be tried.
* `Node.imported_or_waiting`: **a block that no block delivered after it shares its hash with, and
  whose parent keeps its state until the block is tried, is imported with its parent.**
-/

namespace Ivory

open BlockStore

/-- The state of the parent of the block is known. -/
def ImportCall.ParentKnown (call : ImportCall) : Prop :=
  (call.chain.store.stateAt call.block.header.parentHash).isSome = true

instance (call : ImportCall) : Decidable call.ParentKnown := inferInstanceAs (Decidable (_ = _))

namespace Node

section

variable [Keccak]

/-- What every node keeps: blocks wait under their hashes, and states are those of stored blocks. -/
structure Kept (n : Node) : Prop where
  inv : StoreInv n.chain.store
  keyed : ∀ (key : H256) x, n.orphans[key]? = some x → x.hash = key
  snapshots : ∀ (h : H256) s, n.chain.store.snapshots[h]? = some s →
    ∃ x, n.chain.store.getBlock h = some x

/-- Among the blocks that wait and those still to be tried, only `b` has the hash of `b`; it is not
stored before its parent. -/
structure Holding (b : Block) (T : List Block) (n : Node) : Prop extends Kept n where
  orphan : ∀ x, n.orphans[b.hash]? = some x → x = b
  todo : ∀ x ∈ T, x.hash = b.hash → x = b
  parent : (∃ x, n.chain.store.getBlock b.hash = some x) →
    ∃ p, n.chain.store.getBlock b.header.parentHash = some p

/-- The block is stored, or about to be tried, or it waits and its parent is not stored. -/
structure Awaiting (b : Block) (T : List Block) (n : Node) : Prop extends Holding b T n where
  waits : (∃ x, n.chain.store.getBlock b.hash = some x) ∨ b ∈ T
    ∨ (n.orphans[b.hash]? = some b ∧ n.chain.store.getBlock b.header.parentHash = none)

theorem orphans_takeOrphan {n : Node} {c x : Block} {key : H256}
    (h : (n.takeOrphan c).orphans[key]? = some x) : n.orphans[key]? = some x := by
  change (n.orphans.erase c.hash)[key]? = some x at h
  rw [Table.get_erase] at h
  split at h
  · cases h
  · exact h

theorem orphans_addOrphan {n : Node} {c x : Block} {key : H256}
    (h : (n.addOrphan c).orphans[key]? = some x) :
    (key = c.hash ∧ x = c) ∨ n.orphans[key]? = some x := by
  change (n.orphans.insert c.hash c)[key]? = some x at h
  rw [Table.get_insert] at h
  split at h
  next heq =>
    cases h
    exact .inl ⟨heq, rfl⟩
  next => exact .inr h

namespace Kept

variable {n : Node}

theorem takeOrphan (hk : Kept n) (c : Block) : Kept (n.takeOrphan c) :=
  { hk with keyed := fun key x hx => hk.keyed key x (orphans_takeOrphan hx) }

theorem addOrphan (hk : Kept n) (c : Block) : Kept (n.addOrphan c) := by
  refine { hk with keyed := fun key x hx => ?_ }
  rcases orphans_addOrphan hx with ⟨rfl, rfl⟩ | hx
  · rfl
  · exact hk.keyed key x hx

theorem refuse (hk : Kept n) (c : Block) (e : ChainError) : Kept (n.refuse c e) := by
  cases e <;> first | exact hk.addOrphan c | exact hk

end Kept

namespace Holding

variable {b c : Block} {T : List Block} {n : Node}

theorem takeOrphan (hd : Holding b T n) (c : Block) : Holding b T (n.takeOrphan c) :=
  { hd with
    toKept := hd.toKept.takeOrphan c
    orphan := fun x hx => hd.orphan x (orphans_takeOrphan hx) }

theorem refuse (hd : Holding b (c :: T) n) (e : ChainError) : Holding b T (n.refuse c e) := by
  have hT : ∀ x ∈ T, x.hash = b.hash → x = b := fun x hx => hd.todo x (List.mem_cons_of_mem _ hx)
  have hadd : Holding b T (n.addOrphan c) := by
    refine { hd with toKept := hd.toKept.addOrphan c, orphan := fun x hx => ?_, todo := hT }
    rcases orphans_addOrphan hx with ⟨heq, rfl⟩ | hx
    · exact hd.todo x List.mem_cons_self heq.symm
    · exact hd.orphan x hx
  cases e <;> first | exact hadd | exact { hd with todo := hT }

end Holding

end

section

variable [Keccak] [Ed25519] [Wasmi]

section Accept

variable {b x : Block} {T : List Block} {n : Node} {pre post : StateDB}
  {outs : List ExecutionOutcome} {ctx : ExecutionContext} {outcome : InsertOutcome}
  {store' : BlockStore} {chain : ChainState}

theorem getBlock_settle_of_ne (ha : Accepted n.chain x pre outs post ctx outcome store' chain)
    {h : H256} (hne : h ≠ x.hash) :
    ({ n with chain := chain }.settle x).chain.store.getBlock h = none
      ↔ n.chain.store.getBlock h = none := by
  have hh := getBlock_settle ha h
  rw [if_neg hne] at hh
  rw [← Option.map_eq_none_iff (f := Block.header), hh, Option.map_eq_none_iff]

theorem Kept.accept (hk : Kept n)
    (ha : Accepted n.chain x pre outs post ctx outcome store' chain) :
    Kept ({ n with chain := chain }.settle x) where
  inv := storeInv_settle hk.inv ha
  keyed := hk.keyed
  snapshots h s hs := by
    have hpruned : Pruned chain.store ({ n with chain := chain }.settle x).chain.store :=
      pruned_pruneStore (ha.storeInv hk.inv) _
    have hs' := hpruned.sub h s hs
    rw [ha.snapshots, Table.get_insert] at hs'
    split at hs'
    next heq =>
      rw [heq]
      exact self_settle ha
    next =>
      obtain ⟨y, hy⟩ := hk.snapshots h s hs'
      exact grows_settle ha h y hy

theorem Holding.accept (hd : Holding b (x :: T) n)
    (ha : Accepted n.chain x pre outs post ctx outcome store' chain) {cs : List Block}
    (hcs : cs.Perm (({ n with chain := chain }.settle x).children x.hash)) :
    Holding b (cs ++ T) ({ n with chain := chain }.settle x) where
  toKept := hd.toKept.accept ha
  orphan := hd.orphan
  todo y hy heq := by
    rcases List.mem_append.mp hy with hy | hy
    · obtain ⟨⟨key, hkey⟩, -⟩ := mem_children.mp (hcs.mem_iff.mp hy)
      have hfiled := hd.keyed key y hkey
      rw [← hfiled, heq] at hkey
      exact hd.orphan y hkey
    · exact hd.todo y (List.mem_cons_of_mem _ hy) heq
  parent hstored := by
    by_cases heq : b.hash = x.hash
    · -- the block itself was accepted, on the state of its parent
      obtain rfl : x = b := hd.todo x List.mem_cons_self heq.symm
      obtain ⟨s, hs, -⟩ := Option.map_eq_some_iff.mp ha.parent
      obtain ⟨p, hp⟩ := hd.snapshots _ s hs
      exact grows_settle ha _ p hp
    · have hold : ∃ y, n.chain.store.getBlock b.hash = some y := by
        rw [← Option.ne_none_iff_exists'] at hstored ⊢
        exact fun hnone => hstored ((getBlock_settle_of_ne ha heq).mpr hnone)
      obtain ⟨p, hp⟩ := hd.parent hold
      exact grows_settle ha _ p hp

theorem Awaiting.accept (hd : Awaiting b (x :: T) n)
    (ha : Accepted n.chain x pre outs post ctx outcome store' chain) {cs : List Block}
    (hcs : cs.Perm (({ n with chain := chain }.settle x).children x.hash)) :
    Awaiting b (cs ++ T) ({ n with chain := chain }.settle x) where
  toHolding := hd.toHolding.accept ha hcs
  waits := by
    rcases hd.waits with ⟨y, hy⟩ | hT | ⟨ho, hp⟩
    · exact .inl (grows_settle ha _ y hy)
    · rcases List.mem_cons.mp hT with rfl | hT
      · exact .inl (self_settle ha)
      · exact .inr (.inl (List.mem_append_right _ hT))
    · by_cases heq : b.header.parentHash = x.hash
      · exact .inr (.inl (List.mem_append_left _
          (hcs.mem_iff.mpr (mem_children.mpr ⟨⟨_, ho⟩, heq⟩))))
      · exact .inr (.inr ⟨ho, (getBlock_settle_of_ne ha heq).mpr hp⟩)

end Accept

/-- **What one call keeps.** -/
theorem kept_rule : CallRule (fun _ => True) (fun _ => Kept) where
  inv _ _ hk := hk.inv
  take _ _ c hk := hk.takeOrphan c
  refuse _ _ c e hk _ _ := hk.refuse c e
  accept _ _ _ _ _ _ _ _ _ _ hk _ ha _ _ := hk.accept ha

/-- What is asked of the calls for a block: its parent has its state if it is stored, and then the
block is accepted if it is new. -/
def Timely (b : Block) (call : ImportCall) : Prop :=
  call.block = b →
    ((call.chain.store.getBlock b.header.parentHash).isSome = true → call.ParentKnown)
      ∧ (call.ParentKnown → call.chain.store.getBlock b.hash = none → call.accepted = true)

instance (b : Block) (call : ImportCall) : Decidable (Timely b call) :=
  inferInstanceAs (Decidable (_ → _ ∧ _))

/-- **A block waits until its parent is stored, and is tried then.** -/
theorem awaiting_rule (b : Block) : CallRule (Timely b) (Awaiting b) where
  inv _ _ hd := hd.inv
  take T n c hd := by
    refine { hd.toHolding.takeOrphan c with waits := ?_ }
    rcases hd.waits with hx | hT | ⟨ho, hp⟩
    · exact .inl hx
    · exact .inr (.inl hT)
    · by_cases heq : b.hash = c.hash
      · exact .inr (.inl (hd.todo c List.mem_cons_self heq.symm ▸ List.mem_cons_self))
      · refine .inr (.inr ⟨?_, hp⟩)
        show (n.orphans.erase c.hash)[b.hash]? = some b
        rw [Table.get_erase, if_neg heq]
        exact ho
  refuse T n c e hd hok he := by
    refine { hd.toHolding.refuse e with waits := ?_ }
    have hstore : (n.refuse c e).chain.store = n.chain.store := by rw [refuse_chain]
    rw [hstore]
    cases hb : n.chain.store.getBlock b.hash with
    | some y => exact .inl ⟨y, rfl⟩
    | none =>
      right
      by_cases hc : c = b
      · subst hc
        obtain ⟨hknown, haccept⟩ := hok rfl
        -- with the state of its parent it would have been accepted
        have hstate : n.chain.store.stateAt c.header.parentHash = none := by
          cases hs : n.chain.store.stateAt c.header.parentHash with
          | none => rfl
          | some s =>
            have hyes := haccept (by rw [ImportCall.ParentKnown, hs]; rfl) hb
            rw [ImportCall.accepted, he] at hyes
            cases hyes
        have hparent : n.chain.store.getBlock c.header.parentHash = none := by
          cases hp : n.chain.store.getBlock c.header.parentHash with
          | none => rfl
          | some p =>
            have hk := hknown (by rw [hp]; rfl)
            rw [ImportCall.ParentKnown, hstate] at hk
            cases hk
        have herr : e = .unknownParentState := by
          unfold ChainState.importAndApply at he
          rw [hstate] at he
          cases he
          rfl
        rw [herr]
        exact .inr ⟨Table.get_insert_self _ _ _, hparent⟩
      · have hne : b.hash ≠ c.hash := fun heq => hc (hd.todo c List.mem_cons_self heq.symm)
        rcases hd.waits with ⟨y, hy⟩ | hT | ⟨ho, hp⟩
        · rw [hb] at hy
          cases hy
        · rcases List.mem_cons.mp hT with heq | hT
          · exact absurd heq.symm hc
          · exact .inl hT
        · refine .inr ⟨?_, hp⟩
          have hadd : (n.addOrphan c).orphans[b.hash]? = some b := by
            show (n.orphans.insert c.hash c)[b.hash]? = some b
            rw [Table.get_insert_of_ne _ _ hne]
            exact ho
          cases e <;> first | exact hadd | exact ho
  accept _ _ _ _ _ _ _ _ _ _ hd _ ha _ hcs := hd.accept ha hcs

/-- **Only an accepted call for the block stores it.** -/
theorem missing_rule (b : Block) : CallRule (fun call => call.block = b → call.accepted = false)
    (fun T n => Holding b T n ∧ n.chain.store.getBlock b.hash = none) where
  inv _ _ hd := hd.1.inv
  take _ _ c hd := ⟨hd.1.takeOrphan c, hd.2⟩
  refuse _ _ _ e hd _ _ := ⟨hd.1.refuse e, by rw [refuse_chain]; exact hd.2⟩
  accept T n x pre outs post ctx outcome store' chain hd hok ha cs hcs := by
    refine ⟨hd.1.accept ha hcs, (getBlock_settle_of_ne ha fun heq => ?_).mpr hd.2⟩
    have hno := hok (hd.1.todo x List.mem_cons_self heq.symm)
    have hyes := ha.importAndApply_isSome hd.1.inv
    rw [ImportCall.accepted, hyes] at hno
    cases hno

omit [Wasmi] in
theorem kept_fresh (g : Genesis) (archive : Bool) (archiveKeep : UInt64) :
    Kept (fresh g archive archiveKeep) where
  inv := g.storeInv
  keyed key x hx := by
    change (∅ : Table H256 Block)[key]? = some x at hx
    simp at hx
  snapshots h s hs := by
    rw [show (fresh g archive archiveKeep).chain.store = g.store from rfl, g.snapshots] at hs
    split at hs
    next heq => exact ⟨g.block, (g.getBlock h).trans (if_pos heq)⟩
    next => cases hs

/-- A block whose parent is not stored is put aside, and takes the place of one with its hash. -/
theorem Kept.receive {n : Node} (hk : Kept n) {b : Block}
    (hparent : n.chain.store.getBlock b.header.parentHash = none) (order : IterOrder Block) :
    n.receive order b = some (n.addOrphan b, [⟨n.chain, b⟩]) := by
  have hstate : n.chain.store.stateAt b.header.parentHash = none := by
    rw [stateAt, Option.map_eq_none_iff]
    refine Option.eq_none_iff_forall_ne_some.mpr fun s hs => ?_
    obtain ⟨x, hx⟩ := hk.snapshots _ s hs
    rw [hparent] at hx
    cases hx
  rw [Node.receive, importBlock, ChainState.importAndApply, hstate]
  rfl

omit [Ed25519] [Wasmi] in
theorem Kept.holding {n : Node} (hk : Kept n) {b : Block} {T : List Block}
    (hmissing : n.chain.store.getBlock b.hash = none) (hT : ∀ x ∈ T, x.hash = b.hash → x = b) :
    Holding b T (n.addOrphan b) where
  toKept := hk.addOrphan b
  orphan x hx := by
    change (n.orphans.insert b.hash b)[b.hash]? = some x at hx
    rw [Table.get_insert_self] at hx
    exact (Option.some.inj hx).symm
  todo := hT
  parent hx := by
    obtain ⟨x, hx⟩ := hx
    exact absurd (hmissing.symm.trans hx) nofun

/-- **A block that waits for its parent is imported with it.**  Any blocks are delivered to a fresh
node, then `b` while neither it nor its parent is stored, then any other blocks; none of these later
ones shares its hash with `b`.  Whenever `b` is tried and its parent is stored, the state of the
parent is there and `b` is accepted.  Then `b` waits as long as its parent is not stored; otherwise
`b` was imported. -/
theorem imported_or_waiting (g : Genesis) (archive : Bool) (archiveKeep : UInt64)
    (before after : List (Block × IterOrder Block)) (b : Block) (order : IterOrder Block)
    (n₀ : Node) (calls₀ : List ImportCall)
    (h₀ : (fresh g archive archiveKeep).deliver before = some (n₀, calls₀))
    (hparent : n₀.chain.store.getBlock b.header.parentHash = none)
    (hmissing : n₀.chain.store.getBlock b.hash = none)
    (hhash : ∀ d ∈ after, d.1.hash = b.hash → d.1 = b) :
    ∃ n calls, n₀.deliver ((b, order) :: after) = some (n, calls)
      ∧ ((∀ call ∈ calls, call.block = b →
          (call.chain.store.getBlock b.header.parentHash).isSome = true → call.ParentKnown) →
        (∀ call ∈ calls, call.block = b → call.ParentKnown →
          call.chain.store.getBlock b.hash = none → call.accepted = true) →
        (n.chain.store.getBlock b.header.parentHash = none ∧ n.orphans[b.hash]? = some b)
          ∨ ((∃ p, n.chain.store.getBlock b.header.parentHash = some p)
            ∧ (∃ x, n.chain.store.getBlock b.hash = some x)
            ∧ ∃ call ∈ calls, call.block = b ∧ call.accepted = true)) := by
  have hkept : Kept n₀ :=
    deliver_rule kept_rule h₀ (fun _ _ => trivial) (kept_fresh g archive archiveKeep)
  have hfirst := hkept.receive hparent order
  have hhold : Holding b (after.map Prod.fst) (n₀.addOrphan b) := by
    refine hkept.holding hmissing fun x hx => ?_
    obtain ⟨d, hd, rfl⟩ := List.mem_map.mp hx
    exact hhash d hd
  obtain ⟨⟨n, calls⟩, hrun⟩ := deliver_isSome ((b, order) :: after) (n₀, []) hkept.inv
  refine ⟨n, calls, hrun, fun hknown haccept => ?_⟩
  have hdone : Awaiting b [] n := deliver_rule_cons (awaiting_rule b) hfirst hrun
    (fun call hc heq => ⟨hknown call hc heq, haccept call hc heq⟩)
    ⟨hhold, .inr (.inr ⟨Table.get_insert_self _ _ _, hparent⟩)⟩
  rcases hdone.waits with hx | hnil | ⟨ho, hp⟩
  · refine .inr ⟨hdone.parent hx, hx, ?_⟩
    by_contra hnone
    obtain ⟨x, hx⟩ := hx
    have hmiss := (deliver_rule_cons (missing_rule b) hfirst hrun (fun call hc heq => ?_)
      ⟨hhold, hmissing⟩).2
    · rw [hmiss] at hx
      cases hx
    · refine Bool.eq_false_of_not_eq_true fun hyes => hnone ⟨call, hc, heq, hyes⟩
  · cases hnil
  · exact .inl ⟨hp, ho⟩

end

end Node

namespace Devnet

/-- The child with a transaction that does not belong to it. -/
def imposter : Block := { childA with transactions := Vec.ofList [transfer 0] }

/-- A child that comes before its parent, after a block with its header and another body: it takes
the place of that block and is imported. -/
theorem imported_or_waiting_childA : ∃ n₀ calls₀ n calls,
    (Node.fresh genesis true 256).deliver (deliveries [imposter]) = some (n₀, calls₀)
      ∧ n₀.deliver (deliveries [childA, blockA]) = some (n, calls)
      ∧ imposter.hash = childA.hash
      ∧ (∃ p, n.chain.store.getBlock childA.header.parentHash = some p)
      ∧ (∃ x, n.chain.store.getBlock childA.hash = some x)
      ∧ ∃ call ∈ calls, call.block = childA ∧ call.accepted = true := by
  have heval : imposter.hash = childA.hash ∧ blockA.hash ≠ childA.hash
      ∧ (((Node.fresh genesis true 256).deliver (deliveries [imposter])).map fun r =>
        (decide (r.1.chain.store.getBlock childA.header.parentHash = none),
          decide (r.1.chain.store.getBlock childA.hash = none))) = some (true, true)
      ∧ ((((Node.fresh genesis true 256).deliver (deliveries [imposter])).bind fun r =>
        r.1.deliver (deliveries [childA, blockA])).map fun r =>
          (decide (∀ call ∈ r.2, Node.Timely childA call),
            decide (r.1.chain.store.getBlock childA.header.parentHash = none)))
        = some (true, false) := by decide +kernel
  obtain ⟨hhash, hne, hbefore, hcalls⟩ := heval
  obtain ⟨⟨n₀, calls₀⟩, h₀, hmap⟩ := Option.map_eq_some_iff.mp hbefore
  obtain ⟨hparent, hmissing⟩ := Prod.mk.inj hmap
  obtain ⟨n, calls, hrun, himported⟩ := Node.imported_or_waiting genesis true 256
    (deliveries [imposter]) [(blockA, inOrder)] childA inOrder n₀ calls₀ h₀
    (of_decide_eq_true hparent) (of_decide_eq_true hmissing) fun d hd heq => by
      cases List.mem_singleton.mp hd
      exact absurd heq hne
  rw [h₀, Option.bind_some, show n₀.deliver (deliveries [childA, blockA]) = some (n, calls)
    from hrun, Option.map_some] at hcalls
  obtain ⟨htimely, hstored⟩ := Prod.mk.inj (Option.some.inj hcalls)
  have hcall := of_decide_eq_true htimely
  refine ⟨n₀, calls₀, n, calls, h₀, hrun, hhash, ?_⟩
  rcases himported (fun call hc hb => (hcall call hc hb).1) (fun call hc hb => (hcall call hc hb).2)
    with ⟨hnone, -⟩ | himp
  · exact absurd hnone (of_decide_eq_false hstored)
  · exact himp

/-- **A waiting block is replaced.**  The child waits for its parent; a block with the same header
and another body is delivered, and then the parent.  The child is neither stored nor does it wait.
Without the other block it is imported with its parent. -/
theorem waiting_replaced : imposter.hash = childA.hash
    ∧ (∃ n calls, (Node.fresh genesis true 256).deliver (deliveries [childA, blockA])
      = some (n, calls) ∧ n.chain.store.head = some childA.hash)
    ∧ ∃ n calls, (Node.fresh genesis true 256).deliver (deliveries [childA, imposter, blockA])
      = some (n, calls) ∧ n.chain.store.head = some childA.header.parentHash
      ∧ n.chain.store.getBlock childA.hash = none ∧ n.orphans[childA.hash]? = none := by
  have heval : (((Node.fresh genesis true 256).deliver (deliveries [childA, blockA])).map
      fun r => r.1.chain.store.head) = some (some childA.hash)
      ∧ (((Node.fresh genesis true 256).deliver (deliveries [childA, imposter, blockA])).map
        fun r => (r.1.chain.store.head, decide (r.1.chain.store.getBlock childA.hash = none),
          decide (r.1.orphans[childA.hash]? = none)))
          = some (some childA.header.parentHash, true, true) := by decide +kernel
  obtain ⟨hgood, hbad⟩ := heval
  refine ⟨rfl, ?_, ?_⟩
  · obtain ⟨⟨n, calls⟩, hrun, hhead⟩ := Option.map_eq_some_iff.mp hgood
    exact ⟨n, calls, hrun, hhead⟩
  · obtain ⟨⟨n, calls⟩, hrun, heq⟩ := Option.map_eq_some_iff.mp hbad
    obtain ⟨hhead, heq⟩ := Prod.mk.inj heq
    obtain ⟨hnone, horphan⟩ := Prod.mk.inj heq
    exact ⟨n, calls, hrun, hhead, of_decide_eq_true hnone, of_decide_eq_true horphan⟩

end Devnet

end Ivory
