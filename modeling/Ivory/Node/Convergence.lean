import Ivory.Chain.History
import Ivory.Node.Orphans

/-!
# Delivery order

Blocks reach a node in any order, some of them several times; those whose
parent is not stored wait for it.  Every accepted import prunes the snapshots of
blocks that are not on the canonical chain, so a block can be imported while its
parent is canonical, and never after its parent became a side block: then it
waits for a state that does not come back.

`PostState g S b s`: `s` is the state after `b`, where `b` and its ancestors down
to the genesis are in `S` and each is accepted on the state after its parent.

* `OnCanonical`: the parent of a block that is tried is canonical, if it is stored.
* `Delivering`, `Delivering.callRule`: what one call keeps while blocks are delivered.
* `deliver_head`: **if this holds of every call, the order of delivery does not matter**:
  in the end the head is the greatest block.
-/

namespace Ivory

open BlockStore

/-! ### Pruning with a long memory -/

/-- The policy keeps everything on chains up to a height. -/
def ChainPersist.Reaches (persist : ChainPersist) (number : UInt64) : Prop :=
  persist.archive = true ∨ number < persist.archiveKeep

theorem ChainPersist.SamePolicy.reaches {persist persist' : ChainPersist}
    (h : persist.SamePolicy persist') {number : UInt64} (hreach : persist.Reaches number) :
    persist'.Reaches number := by
  rw [ChainPersist.Reaches, h.archive, h.archiveKeep]
  exact hreach

/-- **If the policy reaches the head, pruning keeps all blocks and the snapshots of the canonical
chain.** -/
theorem Node.pruneStore_of_reaches [Keccak] {store : BlockStore} (hi : StoreInv store)
    {persist : ChainPersist} {h : H256} {b : Block} (hh : store.head = some h)
    (hb : store.getBlock h = some b) (hreach : persist.Reaches b.header.number) :
    (Node.pruneStore store persist).byHash = store.byHash
      ∧ ∀ k ∈ store.chainFrom h,
        (Node.pruneStore store persist).snapshots[k]? = store.snapshots[k]? := by
  obtain ⟨l, hl⟩ := hi.path h b hb
  rw [chainFrom_eq hl]
  unfold Node.pruneStore
  by_cases harch : persist.archive = true
  · rw [if_pos harch]
    refine ⟨Table.ext (getBlock_pruneSnapshots store), fun k hk => ?_⟩
    rw [snapshots_pruneSnapshots hh hl, if_pos (List.mem_reverse.mp hk)]
  · have hlt := hreach.resolve_left harch
    have hcut : cutoff b.header.number persist.archiveKeep = 0 := by
      rw [UInt64.lt_iff_toNat_lt] at hlt
      refine UInt64.toNat_inj.mp ?_
      rw [cutoff, UInt64.toNat_saturatingSub, UInt64.toNat_saturatingSub]
      simp
      omega
    rw [if_neg harch]
    refine ⟨Table.ext fun k => ?_, fun k hk => ?_⟩
    · refine (getBlock_pruneSnapshotsKeep hi hh hb _ k).trans ?_
      simp [hcut, getBlock]
    · rw [snapshots_pruneSnapshotsKeep hi hh hb hl, hcut,
        if_pos ⟨List.mem_reverse.mp hk, UInt64.zero_le⟩]

theorem Node.settle_of_reaches [Keccak] {n : Node} (hi : StoreInv n.chain.store) (block : Block)
    {h : H256} {b : Block} (hh : n.chain.store.head = some h)
    (hb : n.chain.store.getBlock h = some b) (hreach : n.persist.Reaches b.header.number) :
    (n.settle block).chain.store.getBlock = n.chain.store.getBlock
      ∧ ∀ k ∈ n.chain.store.chainFrom h,
        (n.settle block).chain.store.snapshots[k]? = n.chain.store.snapshots[k]? := by
  have hreach' : ((n.persist.persistCanonical n.chain.store block).persistTrieNodes
      n.chain.live.trieNodes.1).Reaches b.header.number :=
    (n.persist.samePolicy_persist _ _ _).reaches hreach
  obtain ⟨hbyHash, hsnaps⟩ := Node.pruneStore_of_reaches hi hh hb hreach'
  refine ⟨funext fun k => ?_, hsnaps⟩
  show (Node.pruneStore _ _).byHash[k]? = _
  rw [hbyHash]
  rfl

section

variable [Keccak] [Ed25519] [Wasmi]

/-! ### Trees of blocks -/

/-- The state after a block of `S`, executed from the genesis. -/
inductive PostState (g : Genesis) (S : Set Block) : Block → StateDB → Prop
  | genesis : PostState g S g.block g.state
  | step {p b : Block} {s post : StateDB} {outs : List ExecutionOutcome} {ctx : ExecutionContext} :
      b ∈ S → PostState g S p s → AcceptedOn g.consensus p s b outs post ctx →
      PostState g S b post.rootHash.2

/-- The genesis and the blocks of `S`. -/
def family (g : Genesis) (S : Set Block) : Set Block := insert g.block S

/-- What is hashed for the blocks of a family. -/
def familyEncodings (g : Genesis) (S : Set Block) : Set (List UInt8) :=
  { e | ∃ b ∈ family g S, e ∈ b.encodings }

/-- `S` grows from the genesis: every block of it has a state. -/
def Grown (g : Genesis) (S : Set Block) : Prop := ∀ b ∈ S, ∃ s, PostState g S b s

namespace PostState

variable {g : Genesis} {S : Set Block} {b : Block} {s : StateDB}

theorem mem_family (h : PostState g S b s) : b ∈ family g S := by
  cases h with
  | genesis => exact Set.mem_insert _ _
  | step hb _ _ => exact Set.mem_insert_of_mem _ hb

theorem valid (h : PostState g S b s) : b.validate = .ok () := by
  cases h with
  | genesis => exact g.valid
  | step _ _ ha => exact ha.valid

end PostState

section Family

variable {g : Genesis} {S : Set Block}

theorem Grown.exists_postState (hS : Grown g S) {b : Block} (hb : b ∈ family g S) :
    ∃ s, PostState g S b s := by
  rcases hb with rfl | hb
  · exact ⟨_, .genesis⟩
  · exact hS b hb

/-- **In a family the hash determines the block.** -/
theorem Grown.eq_of_hash_eq (hS : Grown g S) (hcf : CollisionFree (familyEncodings g S))
    {b b' : Block} (hb : b ∈ family g S) (hb' : b' ∈ family g S) (h : b.hash = b'.hash) :
    b = b' := by
  obtain ⟨s, hs⟩ := hS.exists_postState hb
  obtain ⟨s', hs'⟩ := hS.exists_postState hb'
  exact Block.eq_of_hash_eq hcf (fun e he => ⟨b, hb, he⟩) (fun e he => ⟨b', hb', he⟩) hs.valid
    hs'.valid h

/-- **A block has one state.** -/
theorem PostState.unique (hS : Grown g S) (hcf : CollisionFree (familyEncodings g S)) {b : Block}
    {s : StateDB} (h : PostState g S b s) : ∀ {s' : StateDB}, PostState g S b s' → s = s' := by
  induction h with
  | genesis =>
    intro s' h'
    cases h' with
    | genesis => rfl
    | step _ _ ha => exact absurd g.number ha.number_ne_zero
  | @step p b s post outs ctx hb hp ha ih =>
    intro s' h'
    generalize hx : b = x at h'
    cases h' with
    | genesis =>
      rw [hx] at ha
      exact absurd g.number ha.number_ne_zero
    | @step p' _ t post' outs' ctx' _ hp' ha' =>
      cases hx
      have hpp : p = p' := hS.eq_of_hash_eq hcf hp.mem_family hp'.mem_family
        (ha.parent.symm.trans ha'.parent)
      cases hpp
      cases ih hp'
      cases ha.executed.symm.trans ha'.executed
      rfl

end Family

/-! ### One call -/

/-- The parent of a block that is tried is on the canonical chain, if it is stored. -/
def ImportCall.OnCanonical (call : ImportCall) : Prop :=
  ∀ p, call.chain.store.getBlock call.block.header.parentHash = some p →
    ∃ h, call.chain.store.head = some h
      ∧ call.block.header.parentHash ∈ call.chain.store.chainFrom h

/-- While the blocks `T` are still to be tried: every block of `S` is stored, or waits for a parent
that is not stored, or is one of `T`; and every canonical block has its snapshot. -/
structure Delivering (g : Genesis) (S : Set Block) (T : List Block) (n : Node) : Prop where
  inv : StoreInv n.chain.store
  consensus : n.chain.store.consensus = g.consensus
  reaches : ∀ b ∈ family g S, n.persist.Reaches b.header.number
  genesis : n.chain.store.getBlock g.block.hash = some g.block
  stored : ∀ h b, n.chain.store.getBlock h = some b → b ∈ family g S
  snapshots : ∀ (h : H256) s, n.chain.store.snapshots[h]? = some s →
    ∃ b, n.chain.store.getBlock h = some b ∧ PostState g S b s
  canonical : ∀ h, n.chain.store.head = some h → ∀ k ∈ n.chain.store.chainFrom h,
    ∃ s, n.chain.store.snapshots[k]? = some s
  orphans : ∀ (key : H256) b, n.orphans[key]? = some b → b ∈ S ∧ b.hash = key
  todo : ∀ b ∈ T, b ∈ S
  reached : ∀ b ∈ S, n.chain.store.getBlock b.hash = some b
    ∨ (n.orphans[b.hash]? = some b ∧ n.chain.store.getBlock b.header.parentHash = none) ∨ b ∈ T

namespace Delivering

variable {g : Genesis} {S : Set Block} {T : List Block} {n : Node}

theorem getBlock_hash (hd : Delivering g S T n) (hS : Grown g S)
    (hcf : CollisionFree (familyEncodings g S)) {b x : Block} (hb : b ∈ family g S)
    (hx : n.chain.store.getBlock b.hash = some x) : x = b :=
  hS.eq_of_hash_eq hcf (hd.stored _ x hx) hb (hd.inv.keyed _ x hx)

theorem takeOrphan (hS : Grown g S) (hcf : CollisionFree (familyEncodings g S)) {c : Block}
    (hd : Delivering g S (c :: T) n) : Delivering g S (c :: T) (n.takeOrphan c) := by
  have herase : ∀ key : H256, (n.takeOrphan c).orphans[key]?
      = if key = c.hash then none else n.orphans[key]? := Table.get_erase _ _
  refine { hd with orphans := fun key b hb => ?_, reached := fun b hb => ?_ }
  · rw [herase] at hb
    split at hb
    · cases hb
    · exact hd.orphans key b hb
  · rcases hd.reached b hb with h | ⟨ho, hp⟩ | h
    · exact .inl h
    · by_cases he : b.hash = c.hash
      · have hbc : b = c := hS.eq_of_hash_eq hcf (Set.mem_insert_of_mem _ hb)
          (Set.mem_insert_of_mem _ (hd.todo c List.mem_cons_self)) he
        exact .inr (.inr (by rw [hbc]; exact List.mem_cons_self))
      · exact .inr (.inl ⟨by rw [herase, if_neg he]; exact ho, hp⟩)
    · exact .inr (.inr h)

theorem addOrphan (hS : Grown g S) (hcf : CollisionFree (familyEncodings g S)) {b : Block}
    (hd : Delivering g S (b :: T) n) (hb : n.chain.store.getBlock b.hash = some b
      ∨ n.chain.store.getBlock b.header.parentHash = none) :
    Delivering g S T (n.addOrphan b) := by
  have hbS := hd.todo b List.mem_cons_self
  have hins : ∀ key : H256, (n.addOrphan b).orphans[key]?
      = if key = b.hash then some b else n.orphans[key]? := fun key => Table.get_insert _ _ _ _
  refine { hd with
    orphans := fun key x hx => ?_
    todo := fun x hx => hd.todo x (List.mem_cons_of_mem _ hx)
    reached := fun x hx => ?_ }
  · rw [hins] at hx
    split at hx
    · next he =>
      cases hx
      exact ⟨hbS, he.symm⟩
    · exact hd.orphans key x hx
  · by_cases he : x.hash = b.hash
    · have hxb : x = b := hS.eq_of_hash_eq hcf (Set.mem_insert_of_mem _ hx)
        (Set.mem_insert_of_mem _ hbS) he
      cases hxb
      rcases hb with hb | hb
      · exact .inl hb
      · exact .inr (.inl ⟨by rw [hins, if_pos rfl], hb⟩)
    · rcases hd.reached x hx with h | ⟨ho, hp⟩ | h
      · exact .inl h
      · exact .inr (.inl ⟨by rw [hins, if_neg he]; exact ho, hp⟩)
      · rcases List.mem_cons.mp h with rfl | h
        · exact absurd rfl he
        · exact .inr (.inr h)

theorem drop {b : Block} (hd : Delivering g S (b :: T) n)
    (hb : n.chain.store.getBlock b.hash = some b) : Delivering g S T n := by
  refine { hd with
    todo := fun x hx => hd.todo x (List.mem_cons_of_mem _ hx)
    reached := fun x hx => ?_ }
  rcases hd.reached x hx with h | h | h
  · exact .inl h
  · exact .inr (.inl h)
  · rcases List.mem_cons.mp h with rfl | h
    · exact .inl hb
    · exact .inr (.inr h)

/-- **A refused block is stored already, or waits for a parent that is not stored.** -/
theorem refuse (hS : Grown g S) (hcf : CollisionFree (familyEncodings g S)) {b : Block}
    {e : ChainError} (hd : Delivering g S (b :: T) n) (hok : ImportCall.OnCanonical ⟨n.chain, b⟩)
    (he : n.chain.importAndApply b = (.error e, n.chain)) : Delivering g S T (n.refuse b e) := by
  have hbS := hd.todo b List.mem_cons_self
  cases hb : n.chain.store.getBlock b.hash with
  | some x =>
    cases hd.getBlock_hash hS hcf (Set.mem_insert_of_mem _ hbS) hb
    cases e <;> first | exact hd.drop hb | exact hd.addOrphan hS hcf (.inl hb)
  | none =>
    cases hs : n.chain.store.stateAt b.header.parentHash with
    | none =>
      -- a stored parent would be canonical and have its snapshot
      have hno : n.chain.store.getBlock b.header.parentHash = none := by
        cases hp : n.chain.store.getBlock b.header.parentHash with
        | none => rfl
        | some p =>
          obtain ⟨h, hh, hmem⟩ := hok p hp
          obtain ⟨s, hsnap⟩ := hd.canonical h hh _ hmem
          rw [stateAt, hsnap] at hs
          cases hs
      have herr : e = .unknownParentState := by
        unfold ChainState.importAndApply at he
        rw [hs] at he
        cases he
        rfl
      rw [herr]
      exact hd.addOrphan hS hcf (.inr hno)
    | some s =>
      -- the block would be accepted
      obtain ⟨s', hsnap, rfl⟩ := Option.map_eq_some_iff.mp hs
      obtain ⟨p, hp, hpost⟩ := hd.snapshots _ s' hsnap
      obtain ⟨sb, hsb⟩ := hS b hbS
      cases hsb with
      | genesis =>
        rw [hd.genesis] at hb
        cases hb
      | @step p' _ t post outs ctx _ hp' ha =>
        have hpp : p = p' := hS.eq_of_hash_eq hcf hpost.mem_family hp'.mem_family
          ((hd.inv.keyed _ p hp).trans ha.parent)
        cases hpp
        cases hpost.unique hS hcf hp'
        rw [ha.parent] at hp hs
        obtain ⟨outcome, cs', hok'⟩ := ha.importAndApply hd.inv hd.consensus hp hs hb
        rw [he] at hok'
        cases hok'

section Accept

variable {b : Block} {pre post : StateDB} {outs : List ExecutionOutcome} {ctx : ExecutionContext}
  {outcome : InsertOutcome} {store' : BlockStore} {chain : ChainState}

/-- **After an accepted block every canonical block still has its snapshot**: the new block stands
on a canonical one. -/
theorem canonical_accept (hd : Delivering g S (b :: T) n)
    (hok : ImportCall.OnCanonical ⟨n.chain, b⟩)
    (ha : Accepted n.chain b pre outs post ctx outcome store' chain) {p : Block}
    (hp : n.chain.store.getBlock b.header.parentHash = some p) (h0 : b.header.number ≠ 0) {h : H256}
    (hh : chain.store.head = some h) {k : H256} (hk : k ∈ chain.store.chainFrom h) :
    ∃ s, chain.store.snapshots[k]? = some s := by
  have hold : ∀ {j : H256} {l : List H256}, n.chain.store.IsPath j l → chain.store.IsPath j l :=
    fun hl => ha.sameHeaders.symm.isPath (ha.inserted.isPath_mono ha.insertable.fresh hl)
  have hkeep : ∀ {j : H256}, (∃ s, n.chain.store.snapshots[j]? = some s) →
      ∃ s, chain.store.snapshots[j]? = some s := by
    rintro j ⟨s, hs⟩
    rw [ha.snapshots, Table.get_insert]
    split
    · exact ⟨_, rfl⟩
    · exact ⟨s, hs⟩
  cases hm : outcome.headChanged with
  | true =>
    rw [(ha.live_of_moved hm).1] at hh
    cases hh
    obtain ⟨l, hl⟩ := hd.inv.path _ p hp
    have hself : chain.store.getBlock b.hash = some b := by rw [ha.getBlock, if_pos rfl]
    rw [chainFrom_eq (.step hself (if_neg h0) (hold hl)), List.mem_reverse] at hk
    rcases List.mem_cons.mp hk with rfl | hk
    · rw [ha.snapshots, Table.get_insert_self]
      exact ⟨_, rfl⟩
    · -- the chain of the parent is a part of the canonical chain
      obtain ⟨t, ht, hmem⟩ := hok p hp
      obtain ⟨x, hx, -⟩ := hd.inv.head_max t ht
      obtain ⟨lt, hlt⟩ := hd.inv.path t x hx
      rw [chainFrom_eq hlt, List.mem_reverse] at hmem
      obtain ⟨l', hl', hsuf⟩ := hlt.of_mem _ hmem
      cases hl.unique hl'
      refine hkeep (hd.canonical t ht k ?_)
      rw [chainFrom_eq hlt, List.mem_reverse]
      exact hsuf.subset hk
  | false =>
    rw [(ha.stayed hm).1] at hh
    obtain ⟨x, hx, -⟩ := hd.inv.head_max h hh
    obtain ⟨l, hl⟩ := hd.inv.path h x hx
    refine hkeep (hd.canonical h hh k ?_)
    rwa [chainFrom_eq (hold hl), ← chainFrom_eq hl] at hk

/-- **An accepted block is stored, and its waiting children are tried next.** -/
theorem accept (hS : Grown g S) (hcf : CollisionFree (familyEncodings g S))
    (hd : Delivering g S (b :: T) n) (hok : ImportCall.OnCanonical ⟨n.chain, b⟩)
    (ha : Accepted n.chain b pre outs post ctx outcome store' chain) {cs : List Block}
    (hcs : cs.Perm (({ n with chain := chain }.settle b).children b.hash)) :
    Delivering g S (cs ++ T) ({ n with chain := chain }.settle b) := by
  have hbS := hd.todo b List.mem_cons_self
  have hi := ha.storeInv hd.inv
  -- the parent, and the state of the block
  obtain ⟨pre', hsnap, rfl⟩ := Option.map_eq_some_iff.mp ha.parent
  obtain ⟨p, hp, hpost⟩ := hd.snapshots _ pre' hsnap
  have h0 : b.header.number ≠ 0 := by
    obtain ⟨sb, hsb⟩ := hS b hbS
    cases hsb with
    | genesis =>
      have hfresh := ha.insertable.fresh
      rw [hd.genesis] at hfresh
      cases hfresh
    | step _ _ hb => exact hb.number_ne_zero
  have hb : PostState g S b post.rootHash.2 :=
    .step hbS hpost (hd.consensus ▸ ha.acceptedOn hd.inv h0 hp)
  -- pruning keeps the blocks, and the snapshots of the canonical chain
  obtain ⟨h, hh⟩ : ∃ h, chain.store.head = some h := ⟨_, ha.head⟩
  obtain ⟨x, hx, -⟩ := hi.head_max h hh
  have hfam : ∀ k y, chain.store.getBlock k = some y → y ∈ family g S := by
    intro k y hy
    rw [ha.getBlock] at hy
    split at hy
    · cases hy
      exact Set.mem_insert_of_mem _ hbS
    · exact hd.stored k y hy
  obtain ⟨hget, hsnaps⟩ := Node.settle_of_reaches (n := { n with chain := chain }) hi b hh hx
    (hd.reaches x (hfam h x hx))
  have hpruned : Pruned chain.store ({ n with chain := chain }.settle b).chain.store :=
    Node.pruned_pruneStore hi _
  have hsame := hpruned.same
  have hpolicy := Node.samePolicy_settle { n with chain := chain } b
  have hpath : ∀ {l : List H256}, chain.store.IsPath h l →
      ({ n with chain := chain }.settle b).chain.store.chainFrom h = chain.store.chainFrom h := by
    intro l hl
    rw [chainFrom_eq hl, chainFrom_eq (hsame.symm.isPath hl)]
  have hgetAt : ∀ k, ({ n with chain := chain }.settle b).chain.store.getBlock k
      = if k = b.hash then some b else n.chain.store.getBlock k :=
    fun k => by rw [hget, ha.getBlock]
  refine
    { inv := hi.of_sameHeaders hsame
      consensus := (hsame.consensus.trans ha.consensus).trans hd.consensus
      reaches := fun y hy => hpolicy.reaches (hd.reaches y hy)
      genesis := ?_
      stored := fun k y hy => hfam k y (by rw [← hget]; exact hy)
      snapshots := fun k s hs => ?_
      canonical := fun k hk j hj => ?_
      orphans := hd.orphans
      todo := fun y hy => ?_
      reached := fun y hy => ?_ }
  · rw [hgetAt, hd.genesis]
    split
    · next he =>
      have hfresh := ha.insertable.fresh
      rw [← he, hd.genesis] at hfresh
      cases hfresh
    · rfl
  · have hs' := hpruned.sub k s hs
    rw [ha.snapshots, Table.get_insert] at hs'
    rw [hgetAt]
    split at hs'
    · next he =>
      cases hs'
      exact ⟨b, if_pos he, hb⟩
    · next he =>
      rw [if_neg he]
      exact hd.snapshots k s hs'
  · rw [hsame.head, hh] at hk
    cases hk
    obtain ⟨l, hl⟩ := hi.path h x hx
    rw [hpath hl] at hj
    rw [hsnaps j hj]
    exact hd.canonical_accept hok ha hp h0 hh hj
  · rcases List.mem_append.mp hy with hy | hy
    · obtain ⟨⟨key, hkey⟩, -⟩ := Node.mem_children.mp (hcs.mem_iff.mp hy)
      exact (hd.orphans key y hkey).1
    · exact hd.todo y (List.mem_cons_of_mem _ hy)
  · rcases hd.reached y hy with hst | ⟨ho, hno⟩ | hT
    · left
      rw [hgetAt, hst]
      split
      · next he =>
        have hyb : y = b := hS.eq_of_hash_eq hcf (Set.mem_insert_of_mem _ hy)
          (Set.mem_insert_of_mem _ hbS) he
        rw [hyb]
      · rfl
    · by_cases he : y.header.parentHash = b.hash
      · exact .inr (.inr (List.mem_append_left _
          (hcs.mem_iff.mpr (Node.mem_children.mpr ⟨⟨_, ho⟩, he⟩))))
      · exact .inr (.inl ⟨ho, by rw [hgetAt, if_neg he]; exact hno⟩)
    · rcases List.mem_cons.mp hT with rfl | hT
      · exact .inl (by rw [hgetAt, if_pos rfl])
      · exact .inr (.inr (List.mem_append_right _ hT))

end Accept

/-- **What one call keeps.** -/
theorem callRule (hS : Grown g S) (hcf : CollisionFree (familyEncodings g S)) :
    Node.CallRule ImportCall.OnCanonical (Delivering g S) where
  inv _ _ hd := hd.inv
  take _ _ _ hd := hd.takeOrphan hS hcf
  refuse _ _ _ _ hd hok he := hd.refuse hS hcf hok he
  accept _ _ _ _ _ _ _ _ _ _ hd hok ha _ hcs := hd.accept hS hcf hok ha hcs

theorem start {archive : Bool} {archiveKeep : UInt64}
    (hkeep : archive = true ∨ ∀ b ∈ S, b.header.number < archiveKeep) (hT : ∀ b, b ∈ T ↔ b ∈ S) :
    Delivering g S T (Node.fresh g archive archiveKeep) where
  inv := g.storeInv
  consensus := by
    obtain ⟨outcome, store', heq, -, hn⟩ := g.inserted
    show g.store.consensus = _
    rw [Genesis.store, heq]
    exact hn.consensus
  reaches b hb := by
    refine hkeep.imp id fun hlt => ?_
    show b.header.number < if archiveKeep ≤ 1 then 1 else archiveKeep
    have hnum : b.header.number.toNat = 0 ∨ b.header.number.toNat < archiveKeep.toNat := by
      rcases hb with rfl | hb
      · exact .inl (by rw [g.number]; rfl)
      · exact .inr (UInt64.lt_iff_toNat_lt.mp (hlt b hb))
    have hone : (1 : UInt64).toNat = 1 := rfl
    rw [UInt64.lt_iff_toNat_lt]
    by_cases hkeep : archiveKeep ≤ 1
    · rw [UInt64.le_iff_toNat_le] at hkeep
      rw [if_pos (UInt64.le_iff_toNat_le.mpr hkeep)]
      omega
    · rw [if_neg hkeep]
      rw [UInt64.le_iff_toNat_le] at hkeep
      omega
  genesis := g.getBlock_block
  stored h b hb := by
    change g.store.getBlock h = some b at hb
    rw [g.getBlock] at hb
    split at hb
    · cases hb
      exact Set.mem_insert _ _
    · cases hb
  snapshots h s hs := by
    change g.store.snapshots[h]? = some s at hs
    rw [g.snapshots] at hs
    split at hs
    · next he =>
      cases hs
      exact ⟨g.block, (g.getBlock h).trans (if_pos he), .genesis⟩
    · cases hs
  canonical h hh k hk := by
    change g.store.head = some h at hh
    change k ∈ g.store.chainFrom h at hk
    rw [g.head] at hh
    cases hh
    have hp : g.store.IsPath g.block.hash [g.block.hash] :=
      .root g.getBlock_block (if_pos g.number)
    rw [chainFrom_eq hp, List.mem_reverse] at hk
    exact ⟨g.state, (g.snapshots k).trans (if_pos (List.mem_singleton.mp hk))⟩
  orphans key b hb := by
    change (∅ : Table H256 Block)[key]? = some b at hb
    simp at hb
  todo b hb := (hT b).mp hb
  reached b hb := .inr (.inr ((hT b).mpr hb))

/-- **When nothing is left to be tried, every block is stored.** -/
theorem getBlock_of_done (hd : Delivering g S [] n) {b : Block} {s : StateDB}
    (hb : PostState g S b s) : n.chain.store.getBlock b.hash = some b := by
  induction hb with
  | genesis => exact hd.genesis
  | @step p b s post outs ctx hb _ ha ih =>
    rcases hd.reached b hb with h | ⟨-, hno⟩ | h
    · exact h
    · rw [ha.parent, ih] at hno
      cases hno
    · cases h

/-- **When nothing is left to be tried, the head is the greatest block.** -/
theorem head_of_done (hd : Delivering g S [] n) (hS : Grown g S) {best : Block}
    (hbest : best ∈ family g S)
    (hmax : ∀ b ∈ family g S, forkKey b.hash b ≤ forkKey best.hash best) :
    n.chain.store.head = some best.hash := by
  obtain ⟨s, hs⟩ := hS.exists_postState hbest
  have hstored := hd.getBlock_of_done hs
  cases hh : n.chain.store.head with
  | none =>
    rw [(hd.inv.no_head hh).2] at hstored
    cases hstored
  | some h =>
    obtain ⟨x, hx, hxmax⟩ := hd.inv.head_max h hh
    have hkey : x.hash = h := hd.inv.keyed h x hx
    have hle := hmax x (hd.stored h x hx)
    rw [hkey] at hle
    have heq : forkKey h x = forkKey best.hash best := le_antisymm hle (hxmax _ best hstored)
    exact congrArg some (OrderDual.toDual.injective (Prod.ext_iff.mp (toLex.injective heq)).2)

end Delivering

/-! ### Whole deliveries -/

/-- **The order of delivery does not matter**, as long as no block is tried whose parent is stored
but not on the canonical chain.  Let `S` be a finite set of blocks that grows from the genesis.  One
block of it, of the greatest height and among those of the smallest hash, is the head of every node
to which all of `S` and nothing else was delivered, in any order and with repetitions; the node
keeps everything, or at least as many snapshots as the longest branch is long. -/
theorem Node.deliver_head (g : Genesis) (S : Set Block) (hfin : S.Finite) (hS : Grown g S)
    (hcf : CollisionFree (familyEncodings g S)) :
    ∃ best ∈ family g S,
      (∀ b ∈ family g S, b.header.number < best.header.number
        ∨ (b.header.number = best.header.number ∧ best.hash ≤ b.hash))
      ∧ ∀ archive archiveKeep ds, (∀ b, b ∈ ds.map Prod.fst ↔ b ∈ S) →
        (archive = true ∨ ∀ b ∈ S, b.header.number < archiveKeep) →
        (∀ n calls, (Node.fresh g archive archiveKeep).deliver ds = some (n, calls) →
          ∀ call ∈ calls, call.OnCanonical) →
        ∃ n calls, (Node.fresh g archive archiveKeep).deliver ds = some (n, calls)
          ∧ n.chain.store.head = some best.hash := by
  obtain ⟨best, hbest, hmax⟩ := Set.exists_max_image (family g S) (fun b => forkKey b.hash b)
    (hfin.insert _) ⟨g.block, Set.mem_insert _ _⟩
  refine ⟨best, hbest, fun b hb => forkKey_le_iff.mp (hmax b hb), ?_⟩
  intro archive archiveKeep ds hds hkeep hok
  obtain ⟨⟨n, calls⟩, hrun⟩ := Node.deliver_isSome ds (Node.fresh g archive archiveKeep, [])
    g.storeInv
  refine ⟨n, calls, hrun, ?_⟩
  have hdone : Delivering g S [] n := Node.deliver_rule (Delivering.callRule hS hcf) hrun
    (hok n calls hrun) (Delivering.start hkeep hds)
  exact hdone.head_of_done hS hbest hmax

end

instance [Keccak] (call : ImportCall) : Decidable call.OnCanonical :=
  decidable_of_iff (call.chain.store.getBlock call.block.header.parentHash = none
      ∨ (call.chain.store.head.any fun h =>
        call.block.header.parentHash ∈ call.chain.store.chainFrom h) = true) (by
    rw [ImportCall.OnCanonical, Option.any_eq_true]
    cases call.chain.store.getBlock call.block.header.parentHash <;> simp)

namespace Devnet

/-! ### A branch that is lost -/

/-- The state after a block. -/
def stateAfter (s : StateDB) (b : Block) : StateDB :=
  match executeBlock s b with
  | .ok (_, post, _) => post.rootHash.2
  | .error _ => s

/-- An empty block on the block with the transfer. -/
@[irreducible] def childA : Block := next (stateAfter state blockA) blockA 2 []

/-- An empty block on the other block. -/
@[irreducible] def childB : Block := next (stateAfter state blockB) blockB 3 []

/-- A sealed block that follows a parent and leads to its own state root. -/
def Follows (p : Block) (s : StateDB) (b : Block) : Prop :=
  Sealed b ∧ b.header.parentHash = p.hash ∧ b.header.number = p.header.number.saturatingAdd 1
    ∧ p.header.timestamp ≤ b.header.timestamp
    ∧ ((executeBlock s b).toOption.map fun r => r.2.1.rootHash.1) = some b.header.stateRoot

instance (p : Block) (s : StateDB) (b : Block) : Decidable (Follows p s b) :=
  inferInstanceAs (Decidable (_ ∧ _ ∧ _ ∧ _ ∧ _))

theorem Follows.accepted {p b : Block} {s : StateDB} (hf : Follows p s b) :
    ∃ outs post ctx, AcceptedOn consensus p s b outs post ctx
      ∧ stateAfter s b = post.rootHash.2 := by
  obtain ⟨⟨hminer, hseals, hvalid⟩, hparent, hnum, hts, hexec⟩ := hf
  rw [stateAfter]
  cases he : executeBlock s b with
  | error e =>
    rw [he] at hexec
    cases hexec
  | ok r =>
    rw [he] at hexec
    exact ⟨_, _, _, ⟨hparent, hnum, hts, hminer, hseals, hvalid, he, Option.some.inj hexec⟩, rfl⟩

theorem postState_of_follows {S : Set Block} {p b : Block} {s : StateDB} (hb : b ∈ S)
    (hp : PostState genesis S p s) (hf : Follows p s b) :
    PostState genesis S b (stateAfter s b) := by
  obtain ⟨outs, post, ctx, ha, heq⟩ := hf.accepted
  rw [heq]
  exact .step hb hp ha

theorem follows_blocks : Follows genesisBlock state blockA ∧ Follows genesisBlock state blockB
    ∧ Follows blockA (stateAfter state blockA) childA
    ∧ Follows blockB (stateAfter state blockB) childB := by
  decide +kernel

/-- The deliveries of a list of blocks. -/
def deliveries (bs : List Block) : List (Block × IterOrder Block) := bs.map fun b => (b, inOrder)

theorem mem_deliveries (bs : List Block) (b : Block) :
    b ∈ (deliveries bs).map Prod.fst ↔ b ∈ bs := by
  rw [deliveries, List.map_map, show (Prod.fst ∘ fun b : Block => (b, (inOrder : IterOrder Block)))
    = id from rfl, List.map_id]

/-- **Delivery order decides the head.**  Each of the three blocks is accepted on the state of its
parent.  Delivered parent first along the longer branch they make its tip the head; delivered with
the rival first, the tip is never imported, since the snapshot of its parent was pruned. -/
theorem branch_lost :
    Grown genesis { b | b ∈ [blockA, blockB, childB] }
    ∧ blockA.header.number < childB.header.number
    ∧ (∃ n calls, (Node.fresh genesis true 256).deliver (deliveries [blockB, childB, blockA])
      = some (n, calls) ∧ n.chain.store.head = some childB.hash)
    ∧ ∃ n calls, (Node.fresh genesis true 256).deliver (deliveries [blockA, blockB, childB])
      = some (n, calls) ∧ n.chain.store.head = some blockA.hash
      ∧ n.chain.store.getBlock childB.hash = none := by
  have heval : (((Node.fresh genesis true 256).deliver (deliveries [blockB, childB, blockA])).map
      fun r => r.1.chain.store.head) = some (some childB.hash)
      ∧ (((Node.fresh genesis true 256).deliver (deliveries [blockA, blockB, childB])).map
        fun r => (r.1.chain.store.head, decide (r.1.chain.store.getBlock childB.hash = none)))
          = some (some blockA.hash, true)
      ∧ blockA.header.number < childB.header.number := by decide +kernel
  obtain ⟨hlong, hshort, hnum⟩ := heval
  refine ⟨?_, hnum, ?_, ?_⟩
  · have hB := postState_of_follows (S := { b | b ∈ [blockA, blockB, childB] }) (by simp) .genesis
      follows_blocks.2.1
    intro b hb
    simp only [Set.mem_ofPred_eq, List.mem_cons, List.not_mem_nil, or_false] at hb
    rcases hb with rfl | rfl | rfl
    · exact ⟨_, postState_of_follows (by simp) .genesis follows_blocks.1⟩
    · exact ⟨_, hB⟩
    · exact ⟨_, postState_of_follows (by simp) hB follows_blocks.2.2.2⟩
  · obtain ⟨⟨n, calls⟩, hrun, hhead⟩ := Option.map_eq_some_iff.mp hlong
    exact ⟨n, calls, hrun, hhead⟩
  · obtain ⟨⟨n, calls⟩, hrun, heq⟩ := Option.map_eq_some_iff.mp hshort
    obtain ⟨hhead, hnone⟩ := Prod.mk.inj heq
    exact ⟨n, calls, hrun, hhead, of_decide_eq_true hnone⟩

/-- A fork and a child before its parent: in the end the child is the head. -/
theorem deliver_head_blocks : ∃ best ∈ family genesis { b | b ∈ [childA, blockB, blockA] },
    (∀ b ∈ [childA, blockB, blockA], b.header.number < best.header.number
      ∨ (b.header.number = best.header.number ∧ best.hash ≤ b.hash))
    ∧ ∃ n calls, (Node.fresh genesis false 3).deliver (deliveries [childA, blockB, blockA])
      = some (n, calls) ∧ n.chain.store.head = some best.hash := by
  have hS : Grown genesis { b | b ∈ [childA, blockB, blockA] } := by
    have hA := postState_of_follows (S := { b | b ∈ [childA, blockB, blockA] }) (by simp) .genesis
      follows_blocks.1
    intro b hb
    simp only [Set.mem_ofPred_eq, List.mem_cons, List.not_mem_nil, or_false] at hb
    rcases hb with rfl | rfl | rfl
    · exact ⟨_, postState_of_follows (by simp) hA follows_blocks.2.2.1⟩
    · exact ⟨_, postState_of_follows (by simp) .genesis follows_blocks.2.1⟩
    · exact ⟨_, hA⟩
  have heval : (∀ x ∈ [genesisBlock, childA, blockB, blockA].flatMap Block.encodings,
      ∀ y ∈ [genesisBlock, childA, blockB, blockA].flatMap Block.encodings,
        keccak256 x = keccak256 y → x = y)
      ∧ (((Node.fresh genesis false 3).deliver (deliveries [childA, blockB, blockA])).map
        fun r => decide (∀ call ∈ r.2, call.OnCanonical)) = some true
      ∧ ∀ b ∈ [childA, blockB, blockA], b.header.number < 3 := by decide +kernel
  obtain ⟨hcf, hcalls, hkeep⟩ := heval
  have hsub : familyEncodings genesis { b | b ∈ [childA, blockB, blockA] }
      ⊆ { e | e ∈ [genesisBlock, childA, blockB, blockA].flatMap Block.encodings } := by
    rintro e ⟨b, hb, he⟩
    exact List.mem_flatMap.mpr ⟨b, List.mem_cons.mpr hb, he⟩
  obtain ⟨best, hbest, hmax, hrun⟩ := Node.deliver_head genesis { b | b ∈ [childA, blockB, blockA] }
    (List.finite_toSet _) hS (CollisionFree.mono (fun x hx y hy => hcf x hx y hy) hsub)
  refine ⟨best, hbest, fun b hb => hmax b (Set.mem_insert_of_mem _ hb), ?_⟩
  refine hrun false 3 _ (mem_deliveries _) (.inr hkeep) fun n calls hn => ?_
  rw [hn] at hcalls
  exact of_decide_eq_true (Option.some.inj hcalls)

end Devnet

end Ivory
