import Ivory.Base.Gossip
import Ivory.Network
import Ivory.Node.Convergence

/-!
# Catching up

Nodes exchange blocks by gossip (`service.rs` of `ivory-network` and the import task of `run_node`).
A node that hears of a header it does not store asks for the block; a node that is asked for a
block it stores publishes the header and then the block; a block whose parent is missing waits,
and its parent is asked for.  A message is read back from its bytes (`NetworkMessage.codec`), so
messages travel here as such.  Publications are numbered, so that equal messages are not taken for
one; each reaches every other node.

The chain that is exchanged is a `Line`: a history, the newest block first, whose blocks are told
apart by their hashes.  `L.Fed D n`: of the line `L` the blocks `D` were delivered to the node `n`.

* `Node.catch_up`: **whatever the order of deliveries, when no message is on the way every node that
  was told of the tip has it as its head.**
-/

namespace Ivory

open BlockStore

section

variable [Keccak] [Ed25519] [Wasmi]

/-! ### Reactions -/

/-- The parent that a refused block asks the peers for. -/
def ImportCall.request (call : ImportCall) : Option H256 :=
  match (call.chain.importAndApply call.block).1 with
  | .error .unknownParent | .error .unknownParentState => some call.block.header.parentHash
  | _ => none

/-- The import task of `run_node` on one message, and the messages that the node publishes; `order`
is that of an iteration over the waiting blocks. -/
def Node.react (order : IterOrder Block) (n : Node) :
    NetworkMessage → Option (Node × List NetworkMessage)
  | .transaction tx =>
    some ({ n with chain :=
      { n.chain with pool := (n.chain.pool.addTransaction tx .remote).2 } }, [])
  | .block b => (n.receive order b).map fun r =>
      (r.1, r.2.filterMap fun call => call.request.map .getBlock)
  | .getBlock hash => some (n, match n.chain.store.getBlock hash with
      | none => []
      | some b => [.header b.header, .block b])
  | .header h => some (n, if (n.chain.store.getBlock h.hash).isNone then [.getBlock h.hash] else [])
  | .getHeader hash => some (n, match n.chain.store.getBlock hash with
      | none => []
      | some b => [.header b.header])

theorem Node.receive_of_unknown {n : Node} {b : Block} (order : IterOrder Block)
    (h : n.chain.store.stateAt b.header.parentHash = none) :
    n.receive order b = some (n.addOrphan b, [⟨n.chain, b⟩])
      ∧ ImportCall.request ⟨n.chain, b⟩ = some b.header.parentHash := by
  have herr : n.chain.importAndApply b = (.error .unknownParentState, n.chain) := by
    unfold ChainState.importAndApply
    rw [h]
  refine ⟨?_, by rw [ImportCall.request, herr]⟩
  rw [Node.receive, Node.importBlock, herr]
  rfl

/-- The errors on which a node asks for the parent. -/
def ChainError.Asks (e : ChainError) : Prop := e = .unknownParent ∨ e = .unknownParentState

omit [Ed25519] [Wasmi] in
theorem BlockStore.insertValidated_asks {store : BlockStore} {b : Block} {e : ChainError}
    (h : (store.insertValidated b).1 = .error e) : ¬e.Asks := by
  unfold insertValidated at h
  simp only at h
  split at h
  · cases h
    simp [ChainError.Asks]
  · cases h

omit [Wasmi] in
theorem BlockStore.insertBlock_asks {store : BlockStore} {b : Block} {e : ChainError}
    (h : (store.insertBlock b).1 = .error e) (he : e.Asks) :
    store.getBlock b.header.parentHash = none := by
  unfold insertBlock insertGenesis at h
  split at h
  · split at h
    · cases h
      simp [ChainError.Asks] at he
    · split at h
      · cases h
        simp [ChainError.Asks] at he
      · split at h
        · cases h
          simp [ChainError.Asks] at he
        · exact absurd he (insertValidated_asks h)
  · split at h
    · assumption
    · simp only at h
      split at h
      · cases h
        simp [ChainError.Asks] at he
      · split at h
        · cases h
          simp [ChainError.Asks] at he
        · split at h
          · cases h
            simp [ChainError.Asks] at he
          · exact absurd he (insertValidated_asks h)

theorem ChainState.importAndApply_asks {cs : ChainState} {b : Block} {e : ChainError}
    (h : (cs.importAndApply b).1 = .error e) (he : e.Asks) :
    cs.store.stateAt b.header.parentHash = none ∨ cs.store.getBlock b.header.parentHash = none := by
  unfold importAndApply at h
  split at h
  · exact .inl (by assumption)
  · split at h
    · cases h
      simp [ChainError.Asks] at he
    · simp only at h
      split at h
      · cases h
        simp [ChainError.Asks] at he
      · cases hins : cs.store.insertBlock b with
        | mk res store =>
          rw [hins] at h
          cases res with
          | error e' =>
            cases h
            exact .inr (insertBlock_asks (by rw [hins]) he)
          | ok outcome => cases h

theorem ImportCall.request_missing {call : ImportCall} {hash : H256}
    (h : call.request = some hash) : hash = call.block.header.parentHash
      ∧ (call.chain.store.stateAt hash = none ∨ call.chain.store.getBlock hash = none) := by
  unfold request at h
  split at h
  · next heq =>
    cases h
    exact ⟨rfl, ChainState.importAndApply_asks heq (.inl rfl)⟩
  · next heq =>
    cases h
    exact ⟨rfl, ChainState.importAndApply_asks heq (.inr rfl)⟩
  · cases h

/-! ### Chains -/

namespace History

variable {g : Genesis} {zs : List Block} {s : StateDB}

theorem postState (h : History g zs s) {S : Set Block} (hS : ∀ y ∈ zs, y ∈ S) :
    (∀ z zs', zs = z :: zs' → PostState g S z s) ∧ ∀ y ∈ zs, ∃ s', PostState g S y s' := by
  induction h with
  | genesis =>
    refine ⟨?_, fun y hy => ?_⟩
    · rintro z zs' heq
      cases heq
      exact .genesis
    · rw [List.mem_singleton.mp hy]
      exact ⟨_, .genesis⟩
  | @step p b zs s post outs ctx _ ha _ ih =>
    obtain ⟨ihp, ihall⟩ := ih fun y hy => hS y (List.mem_cons_of_mem _ hy)
    have hb : PostState g S b post.rootHash.2 :=
      .step (hS b List.mem_cons_self) (ihp p zs rfl) ha
    refine ⟨?_, fun y hy => ?_⟩
    · rintro z zs' heq
      cases heq
      exact hb
    · rcases List.mem_cons.mp hy with rfl | hy
      · exact ⟨_, hb⟩
      · exact ihall y hy

end History

/-- A line of blocks: a history whose blocks are told apart by their hashes. -/
structure Line (g : Genesis) where
  blocks : List Block
  state : StateDB
  history : History g blocks state
  length_le : blocks.length ≤ 2 ^ 64
  collisionFree : CollisionFree (familyEncodings g { b | b ∈ blocks ∧ b ≠ g.block })

/-- The node has the block. -/
def Node.Stores (n : Node) (b : Block) : Prop := n.chain.store.getBlock b.hash = some b

namespace Line

variable {g : Genesis} (L : Line g)

/-- The blocks above the genesis. -/
def above : Set Block := { b | b ∈ L.blocks ∧ b ≠ g.block }

theorem mem_family {b : Block} : b ∈ family g L.above ↔ b ∈ L.blocks := by
  constructor
  · rintro (rfl | hb)
    · exact L.history.genesis_mem
    · exact hb.1
  · intro hb
    by_cases hg : b = g.block
    · exact .inl hg
    · exact .inr ⟨hb, hg⟩

theorem grown : Grown g L.above := by
  -- the states after the blocks of the line, with the genesis as an extra member of the set
  have hpost : ∀ {b : Block} {s : StateDB}, PostState g { b | b ∈ L.blocks } b s →
      PostState g L.above b s := by
    intro b s h
    induction h with
    | genesis => exact .genesis
    | @step p b s post outs ctx hb _ ha ih =>
      refine .step ⟨hb, fun hg => ha.number_ne_zero ?_⟩ ih ha
      rw [hg]
      exact g.number
  rintro b ⟨hb, -⟩
  obtain ⟨s, hs⟩ := (L.history.postState fun _ hb => hb).2 b hb
  exact ⟨s, hpost hs⟩

theorem eq_of_hash_eq {b b' : Block} (hb : b ∈ L.blocks) (hb' : b' ∈ L.blocks)
    (h : b.hash = b'.hash) : b = b' :=
  L.grown.eq_of_hash_eq L.collisionFree (L.mem_family.mpr hb) (L.mem_family.mpr hb') h

theorem exists_parent {b : Block} (hb : b ∈ L.above) :
    ∃ pre p ws, L.blocks = pre ++ b :: p :: ws ∧ b.header.parentHash = p.hash := by
  obtain ⟨pre, rest, heq⟩ := List.append_of_mem hb.1
  cases rest with
  | nil => exact absurd (L.history.eq_genesis_of_append heq) hb.2
  | cons p ws =>
    obtain ⟨_, _, _, _, ha⟩ := L.history.acceptedOn heq
    exact ⟨pre, p, ws, heq, ha.parent⟩

theorem mem_above {pre rest : List Block} {b : Block} (heq : L.blocks = pre ++ b :: rest)
    (hne : rest ≠ []) : b ∈ L.above := by
  refine ⟨by rw [heq]; simp, fun hg => ?_⟩
  obtain ⟨p, ws, rfl⟩ := List.exists_cons_of_ne_nil hne
  obtain ⟨_, _, _, _, ha⟩ := L.history.acceptedOn heq
  exact ha.number_ne_zero (by rw [hg]; exact g.number)

end Line

/-! ### Nodes on one line -/

section Nodes

variable {g : Genesis} {L : Line g} {T : List Block} {n : Node}

theorem Delivering.stores (hd : Delivering g L.above T n) {b x : Block} (hb : b ∈ L.blocks)
    (hx : n.chain.store.getBlock b.hash = some x) : n.Stores b := by
  cases hd.getBlock_hash L.grown L.collisionFree (L.mem_family.mpr hb) hx
  exact hx

theorem Delivering.path_eq (hd : Delivering g L.above T n) {k : H256} {l : List H256}
    (hp : n.chain.store.IsPath k l) : ∀ {pre : List Block} {x : Block} {rest : List Block},
    L.blocks = pre ++ x :: rest → k = x.hash → l = (x :: rest).map Block.hash := by
  induction hp with
  | @root k v hv hnext =>
    intro pre x rest heq hk
    have hx : x ∈ L.blocks := by rw [heq]; simp
    cases hk
    cases hv.symm.trans (hd.stores hx hv)
    cases rest with
    | nil => rfl
    | cons p ws =>
      obtain ⟨_, _, _, _, ha⟩ := L.history.acceptedOn heq
      rw [Block.parent, if_neg ha.number_ne_zero] at hnext
      cases hnext
  | @step k p v l hv hnext _ ih =>
    intro pre x rest heq hk
    have hx : x ∈ L.blocks := by rw [heq]; simp
    cases hk
    cases hv.symm.trans (hd.stores hx hv)
    cases rest with
    | nil =>
      rw [Block.parent, L.history.eq_genesis_of_append heq, if_pos g.number] at hnext
      cases hnext
    | cons q ws =>
      obtain ⟨_, _, _, _, ha⟩ := L.history.acceptedOn heq
      rw [Block.parent, if_neg ha.number_ne_zero, ha.parent, Option.some.injEq] at hnext
      have hq : L.blocks = (pre ++ [v]) ++ q :: ws := by rw [heq]; simp
      rw [List.map_cons, ih hq hnext.symm]

theorem Delivering.of_head (hd : Delivering g L.above T n) {pre rest : List Block} {x : Block}
    (heq : L.blocks = pre ++ x :: rest) (hhead : n.chain.store.head = some x.hash) :
    n.Stores x ∧ ∀ y ∈ pre, n.chain.store.getBlock y.hash = none := by
  obtain ⟨x', hx', hmax⟩ := hd.inv.head_max x.hash hhead
  have hs : n.Stores x := hd.stores (by rw [heq]; simp) hx'
  cases hx'.symm.trans hs
  refine ⟨hs, fun y hy => ?_⟩
  cases hstored : n.chain.store.getBlock y.hash with
  | none => rfl
  | some z =>
    -- it would be higher than the head
    have hyz := hd.stores (by rw [heq]; exact List.mem_append_left _ hy) hstored
    have hlt := L.history.number_lt L.length_le heq hy
    rcases forkKey_le_iff.mp (hmax _ y hyz) with hle | ⟨hnum, -⟩
    · exact absurd hlt (UInt64.not_lt.mpr (UInt64.le_of_lt hle))
    · exact absurd hlt (UInt64.not_lt.mpr (hnum ▸ UInt64.le_rfl))

theorem Delivering.head_line (hd : Delivering g L.above T n) :
    ∃ pre x rest, L.blocks = pre ++ x :: rest ∧ n.chain.store.head = some x.hash
      ∧ n.chain.store.chainFrom x.hash = ((x :: rest).map Block.hash).reverse
      ∧ ∀ y ∈ L.blocks, n.Stores y → y ∈ x :: rest := by
  cases hh : n.chain.store.head with
  | none =>
    have hg := hd.genesis
    rw [(hd.inv.no_head hh).2] at hg
    cases hg
  | some t =>
    obtain ⟨x, hx, -⟩ := hd.inv.head_max t hh
    have hk : x.hash = t := hd.inv.keyed t x hx
    subst hk
    obtain ⟨l, hl⟩ := hd.inv.path _ x hx
    obtain ⟨pre, rest, heq⟩ := List.append_of_mem (L.mem_family.mp (hd.stored _ x hx))
    refine ⟨pre, x, rest, heq, rfl, ?_, fun y hy hs => ?_⟩
    · rw [chainFrom_eq hl, hd.path_eq hl heq rfl]
    · rw [heq, List.mem_append] at hy
      refine hy.resolve_left fun hy => ?_
      have hno := (hd.of_head heq hh).2 y hy
      rw [hs] at hno
      cases hno

/-- **On one line every stored block is canonical.** -/
theorem Delivering.onCanonical (hd : Delivering g L.above T n) (b : Block) :
    ImportCall.OnCanonical ⟨n.chain, b⟩ := by
  intro p hp
  obtain ⟨pre, x, rest, -, hhead, hchain, hmem⟩ := hd.head_line
  have hpz : p ∈ L.blocks := L.mem_family.mp (hd.stored _ p hp)
  have hkey := hd.inv.keyed _ p hp
  refine ⟨x.hash, hhead, ?_⟩
  show b.header.parentHash ∈ n.chain.store.chainFrom x.hash
  rw [hchain, List.mem_reverse, ← hkey]
  exact List.mem_map_of_mem (hmem p hpz (hd.stores hpz (hkey ▸ hp)))

/-- **What one call keeps, on one line.** -/
theorem Delivering.callRule_line :
    Node.CallRule (fun _ => True) (Delivering g L.above) where
  inv _ _ hd := hd.inv
  take _ _ _ hd := hd.takeOrphan L.grown L.collisionFree
  refuse _ _ b _ hd _ he := hd.refuse L.grown L.collisionFree (hd.onCanonical b) he
  accept _ _ b _ _ _ _ _ _ _ hd _ ha _ hcs :=
    hd.accept L.grown L.collisionFree (hd.onCanonical b) ha hcs

/-- **A block asks only for a parent that is not stored.** -/
theorem Delivering.request_missing (hd : Delivering g L.above T n) {b : Block} {hash : H256}
    (h : ImportCall.request ⟨n.chain, b⟩ = some hash) :
    hash = b.header.parentHash ∧ n.chain.store.getBlock hash = none := by
  obtain ⟨hpar, hmiss⟩ := ImportCall.request_missing h
  refine ⟨hpar, ?_⟩
  rcases hmiss with hs | hno
  · cases hp : n.chain.store.getBlock hash with
    | none => rfl
    | some p =>
      rw [hpar] at hp hs
      obtain ⟨t, ht, hmem⟩ := hd.onCanonical b p hp
      obtain ⟨s, hsnap⟩ := hd.canonical t ht _ hmem
      rw [stateAt, hsnap] at hs
      cases hs
  · exact hno

theorem Delivering.request {b : Block} (hd : Delivering g L.above (b :: T) n) {hash : H256}
    (h : ImportCall.request ⟨n.chain, b⟩ = some hash) : ∃ p ∈ L.above, hash = p.hash := by
  obtain ⟨hpar, hno⟩ := hd.request_missing h
  obtain ⟨pre, p, ws, heq, hp⟩ := L.exists_parent (hd.todo b List.mem_cons_self)
  refine ⟨p, ⟨by rw [heq]; simp, fun hg => ?_⟩, hpar.trans hp⟩
  have hgen := hd.genesis
  rw [← hg, ← hp, ← hpar, hno] at hgen
  cases hgen

/-! ### Deliveries -/

/-- Of the line the blocks `D` were delivered to the node. -/
def Line.Fed (L : Line g) (D : List Block) (n : Node) : Prop :=
  Delivering g L.above (L.blocks.filter fun b => b ≠ g.block ∧ b ∉ D) n

theorem Delivering.mono (hd : Delivering g L.above T n) {T' : List Block} (h : T ⊆ T')
    (hT' : ∀ b ∈ T', b ∈ L.above) : Delivering g L.above T' n :=
  { hd with
    todo := hT'
    reached := fun b hb => (hd.reached b hb).imp_right (Or.imp_right fun h' => h h') }

namespace Line.Fed

variable {D : List Block}

theorem of_deliver {archive : Bool} {archiveKeep : UInt64} {ds : List (Block × IterOrder Block)}
    {calls : List ImportCall}
    (hkeep : archive = true ∨ ∀ b ∈ L.above, b.header.number < archiveKeep)
    (hds : ∀ b ∈ ds.map Prod.fst, b ∈ L.above)
    (h : (Node.fresh g archive archiveKeep).deliver ds = some (n, calls)) :
    L.Fed (ds.map Prod.fst) n := by
  refine Node.deliver_rule_append Delivering.callRule_line _ h (fun _ _ => trivial)
    (Delivering.start hkeep fun b => ?_)
  rw [List.mem_append, List.mem_filter, decide_eq_true_eq]
  constructor
  · rintro (hb | ⟨hb, hg, -⟩)
    · exact hds b hb
    · exact ⟨hb, hg⟩
  · rintro ⟨hb, hg⟩
    by_cases hD : b ∈ ds.map Prod.fst
    · exact .inl hD
    · exact .inr ⟨hb, hg, hD⟩

theorem stores_of_parent (hf : L.Fed D n) {pre ws : List Block} {b p : Block}
    (heq : L.blocks = pre ++ b :: p :: ws) (hb : b ∈ D) (hp : n.Stores p) : n.Stores b := by
  obtain ⟨_, _, _, _, ha⟩ := L.history.acceptedOn heq
  rcases hf.reached b (L.mem_above heq (by simp)) with h | ⟨-, hno⟩ | h
  · exact h
  · rw [ha.parent, hp] at hno
    cases hno
  · rw [List.mem_filter, decide_eq_true_eq] at h
    exact absurd hb h.2.2

/-- **If all blocks above a stored one were delivered, the whole line is stored.** -/
theorem stores_above (hf : L.Fed D n) : ∀ (pre : List Block) {b : Block} {rest : List Block},
    L.blocks = pre ++ b :: rest → pre ⊆ D → n.Stores b → ∀ y ∈ pre, n.Stores y := by
  intro pre
  -- from the lowest of the delivered blocks upwards
  induction pre using List.reverseRecOn with
  | nil => intro b rest _ _ _ y hy; cases hy
  | append_singleton pre x ih =>
    intro b rest heq hD hb y hy
    rw [List.append_assoc, List.singleton_append] at heq
    have hx : n.Stores x := hf.stores_of_parent heq (hD (by simp)) hb
    rcases List.mem_append.mp hy with hy | hy
    · exact ih heq (fun z hz => hD (List.mem_append_left _ hz)) hx y hy
    · rw [List.mem_singleton.mp hy]
      exact hx

theorem stores_of_grows {n' : Node} {D' : List Block} (hf' : L.Fed D' n') (hg : Node.Grows n n')
    {y : Block} (hy : y ∈ L.blocks) (h : n.Stores y) : n'.Stores y := by
  obtain ⟨x, hx⟩ := hg _ y h
  exact Delivering.stores hf' hy hx

theorem stores_below (hf : L.Fed D n) {pre rest : List Block} {x : Block}
    (heq : L.blocks = pre ++ x :: rest) (hx : n.Stores x) : ∀ y ∈ rest, n.Stores y := by
  intro y hy
  obtain ⟨l, hl⟩ := hf.inv.path _ x hx
  have hyz : y ∈ L.blocks := by rw [heq]; simp [hy]
  have hmem : y.hash ∈ l := by
    rw [hf.path_eq hl heq rfl]
    exact List.mem_map_of_mem (List.mem_cons_of_mem _ hy)
  obtain ⟨l', hl', -⟩ := hl.of_mem _ hmem
  obtain ⟨v, hv⟩ := hl'.get_isSome
  exact Delivering.stores hf hyz hv

theorem receive_of_missing (hf : L.Fed D n) {pre ws : List Block} {b p : Block}
    (heq : L.blocks = pre ++ b :: p :: ws) (hp : n.chain.store.getBlock p.hash = none)
    (order : IterOrder Block) : n.receive order b = some (n.addOrphan b, [⟨n.chain, b⟩])
      ∧ ImportCall.request ⟨n.chain, b⟩ = some p.hash := by
  obtain ⟨_, _, _, _, ha⟩ := L.history.acceptedOn heq
  rw [← ha.parent]
  refine Node.receive_of_unknown order ?_
  rw [ha.parent, stateAt, Option.map_eq_none_iff]
  -- a snapshot would belong to a stored block
  cases hsnap : n.chain.store.snapshots[p.hash]? with
  | none => rfl
  | some s =>
    obtain ⟨z, hz, -⟩ := hf.snapshots _ s hsnap
    rw [hp] at hz
    cases hz

theorem stores_all (hf : L.Fed D n) {tip : Block} {zs : List Block} (htip : L.blocks = tip :: zs)
    (hs : n.Stores tip) : ∀ y ∈ L.blocks, n.Stores y := by
  intro y hy
  rw [htip] at hy
  rcases List.mem_cons.mp hy with rfl | hy
  · exact hs
  · have hline : L.blocks = [] ++ tip :: zs := htip
    exact hf.stores_below hline hs y hy

theorem missing_above (hf : L.Fed D n) {pre rest : List Block} {c : Block}
    (heq : L.blocks = pre ++ c :: rest) (hc : n.chain.store.getBlock c.hash = none) :
    ∀ y ∈ pre, n.chain.store.getBlock y.hash = none := by
  intro y hy
  cases hstored : n.chain.store.getBlock y.hash with
  | none => rfl
  | some z =>
    obtain ⟨pre₁, pre₂, rfl⟩ := List.append_of_mem hy
    rw [List.append_assoc, List.cons_append] at heq
    have hs := Delivering.stores hf (by rw [heq]; simp) hstored
    rw [hf.stores_below heq hs c (by simp)] at hc
    cases hc

/-- **A delivered block is dealt with, and it asks for blocks of the line only.** -/
theorem receive (hf : L.Fed D n) {b : Block} (hb : b ∈ L.above) (order : IterOrder Block) :
    ∃ n' calls, n.receive order b = some (n', calls) ∧ L.Fed (b :: D) n' ∧ Node.Grows n n'
      ∧ ∀ call ∈ calls, ∀ hash, call.request = some hash → ∃ p ∈ L.above, hash = p.hash := by
  obtain ⟨n', calls, heq, hc⟩ := Node.receive_isSome hf.inv order b
  have hstart : Delivering g L.above
      (b :: L.blocks.filter fun x => x ≠ g.block ∧ x ∉ b :: D) n := by
    refine Delivering.mono hf (fun x hx => ?_) fun x hx => ?_
    · rw [List.mem_filter, decide_eq_true_eq] at hx
      by_cases hxb : x = b
      · exact hxb ▸ List.mem_cons_self
      · exact List.mem_cons_of_mem _ (List.mem_filter.mpr ⟨hx.1, by simp [hx.2.1, hx.2.2, hxb]⟩)
    · rcases List.mem_cons.mp hx with rfl | hx
      · exact hb
      · rw [List.mem_filter, decide_eq_true_eq] at hx
        exact ⟨hx.1, hx.2.1⟩
  refine ⟨n', calls, heq, ?_, hc.grows, ?_⟩
  · exact Node.importBlock_rule Delivering.callRule_line order _ _ n b n' calls heq
      (fun _ _ => trivial) hstart
  · exact Node.importBlock_calls Delivering.callRule_line
      (P := fun call => ∀ hash, call.request = some hash → ∃ p ∈ L.above, hash = p.hash)
      (fun T n b hd hash h => hd.request h) order _ _ n b n' calls heq hstart

end Line.Fed

/-! ### One reaction -/

/-- The message tells of the block. -/
def NetworkMessage.Offers (y : Block) (m : NetworkMessage) : Prop :=
  m = .header y.header ∨ m = .block y

/-- The message tells of the block or asks for it. -/
def NetworkMessage.About (y : Block) (m : NetworkMessage) : Prop :=
  m.Offers y ∨ m = .getBlock y.hash

/-- What a reaction to a message leaves behind, on a line of which `D` were delivered before and
`D'` after: a header that is new is asked for, a block is delivered and asks for its parent, and
what is asked for is answered. -/
structure Line.Reacts (L : Line g) (D D' : List Block) (n : Node) (m : NetworkMessage)
    (r : Node × List NetworkMessage) : Prop where
  fed : L.Fed D' r.1
  grows : Node.Grows n r.1
  subset : D ⊆ D'
  asks : ∀ y, m.Offers y → ∀ o ∈ r.2, ∃ p ∈ L.above, o = .getBlock p.hash
  answers : ∀ y, m = .getBlock (Block.hash y) → ∀ o ∈ r.2, ∃ p ∈ L.above, o.Offers p
  header : ∀ y, y ∈ L.blocks → m = .header y.header → n.Stores y ∨ .getBlock y.hash ∈ r.2
  block : ∀ pre y p ws, L.blocks = pre ++ y :: p :: ws → m = .block y →
    y ∈ D' ∧ (r.1.Stores p ∨ .getBlock p.hash ∈ r.2)
  answer : ∀ y, n.Stores y → m = .getBlock y.hash → .header y.header ∈ r.2

/-- **A node on the line reacts to every message about it.** -/
theorem Line.Fed.react {D : List Block} (hf : L.Fed D n) {m : NetworkMessage} {y : Block}
    (hy : y ∈ L.above) (hm : m.About y) (k : IterOrder Block) :
    ∃ r D', n.react k m = some r ∧ L.Reacts D D' n m r := by
  have hkeeps : Node.Grows n n := fun _ x hx => ⟨x, hx⟩
  rcases hm with (rfl | rfl) | rfl
  · refine ⟨_, D, rfl, hf, hkeeps, List.Subset.refl D, fun _ _ o ho => ?_, nofun,
      fun x hx h => ?_, nofun, nofun⟩
    · split at ho
      · exact ⟨y, hy, List.mem_singleton.mp ho⟩
      · cases ho
    · have hhash : y.hash = x.hash := congrArg BlockHeader.hash (NetworkMessage.header.inj h)
      cases L.eq_of_hash_eq hy.1 hx hhash
      cases hstored : n.chain.store.getBlock y.hash with
      | none => exact .inr (by simp [show y.header.hash = y.hash from rfl, hstored])
      | some z => exact .inl (Delivering.stores hf hx hstored)
  · obtain ⟨n', calls, heq, hfed, hgrows, hasks⟩ := hf.receive hy k
    refine ⟨(n', calls.filterMap fun call => call.request.map .getBlock), y :: D, ?_, hfed, hgrows,
      List.subset_cons_self y D, fun _ _ o ho => ?_, nofun, nofun,
      fun pre x p ws hline h => ?_, nofun⟩
    · rw [Node.react, heq]
      rfl
    · obtain ⟨call, hcall, ho⟩ := List.mem_filterMap.mp ho
      obtain ⟨hash, hreq, rfl⟩ := Option.map_eq_some_iff.mp ho
      obtain ⟨p, hp, rfl⟩ := hasks call hcall hash hreq
      exact ⟨p, hp, rfl⟩
    · cases h
      refine ⟨List.mem_cons_self, ?_⟩
      have hp : p ∈ L.blocks := by rw [hline]; simp
      cases hstored : n.chain.store.getBlock p.hash with
      | some z =>
        exact .inl (hfed.stores_of_grows hgrows hp (Delivering.stores hf hp hstored))
      | none =>
        obtain ⟨hrec, hreq⟩ := hf.receive_of_missing hline hstored k
        rw [hrec] at heq
        cases heq
        exact .inr (by simp [hreq])
  · refine ⟨_, D, rfl, hf, hkeeps, List.Subset.refl D, nofun, fun _ _ o ho => ?_, nofun, nofun,
      fun x hx h => ?_⟩
    · split at ho
      · cases ho
      · next z hz =>
        cases hz.symm.trans (Delivering.stores hf hy.1 hz)
        rcases List.mem_cons.mp ho with rfl | ho
        · exact ⟨y, hy, .inl rfl⟩
        · exact ⟨y, hy, .inr (List.mem_singleton.mp ho)⟩
    · rw [NetworkMessage.getBlock.injEq] at h
      rw [h, hx]
      exact List.mem_cons_self

theorem Line.Reacts.sent {D D' : List Block} {m : NetworkMessage} {r : Node × List NetworkMessage}
    (hr : L.Reacts D D' n m r) {y : Block} (hm : m.About y) :
    ∀ o ∈ r.2, ∃ p ∈ L.above, o.About p := by
  intro o ho
  rcases hm with hm | hm
  · obtain ⟨p, hp, rfl⟩ := hr.asks y hm o ho
    exact ⟨p, hp, .inr rfl⟩
  · obtain ⟨p, hp, hoff⟩ := hr.answers y hm o ho
    exact ⟨p, hp, .inl hoff⟩

/-! ### All schedules -/

section Schedules

variable {ι : Type} [DecidableEq ι]

/-- A word of the block is on its way to the party: the header or the block itself, or the request
for it to the source. -/
def OnTheWay (x : Gossip ι Node NetworkMessage) (src i : ι) (b : Block) : Prop :=
  .header b.header ∈ x.mail i ∨ .block b ∈ x.mail i ∨ .getBlock b.hash ∈ x.mail src

/-- Every party has the tip, or all blocks above one that is on its way. -/
structure CatchingUp (L : Line g) (tip : Block) (src : ι) (x : Gossip ι Node NetworkMessage) :
    Prop where
  fed : ∀ i, ∃ D, L.Fed D (x.party i) ∧ ((x.party i).Stores tip
    ∨ ∃ pre b rest, L.blocks = pre ++ b :: rest ∧ pre ⊆ D ∧ OnTheWay x src i b)
  about : ∀ i, ∀ m ∈ x.mail i, ∃ y ∈ L.above, m.About y
  source : (x.party src).Stores tip

namespace CatchingUp

variable {tip : Block} {zs : List Block} {src : ι} {x : Gossip ι Node NetworkMessage}

theorem stores_tip {D : List Block} (hf : L.Fed D n) (htip : L.blocks = tip :: zs)
    {pre rest : List Block} {b : Block} (heq : L.blocks = pre ++ b :: rest) (hD : pre ⊆ D)
    (hb : n.Stores b) : n.Stores tip := by
  cases pre with
  | nil =>
    rw [htip] at heq
    cases heq
    exact hb
  | cons y pre =>
    have hy : y = tip := by
      rw [htip] at heq
      exact (List.cons.inj heq).1.symm
    rw [← hy]
    exact hf.stores_above _ heq hD hb y List.mem_cons_self

/-- The party that reacts: if its word of a block is used up, the tip is stored or there is word of
the block below. -/
theorem self {i : ι} {D D' : List Block} {m : NetworkMessage} {left : List NetworkMessage}
    {r : Node × List NetworkMessage} (htip : L.blocks = tip :: zs)
    (hr : L.Reacts D D' (x.party i) m r) (hleft : x.mail i ⊆ m :: left) (hne : src ≠ i)
    {pre rest : List Block} {b : Block} (heq : L.blocks = pre ++ b :: rest) (hD : pre ⊆ D)
    (hway : OnTheWay x src i b) :
    r.1.Stores tip ∨ ∃ pre b rest, L.blocks = pre ++ b :: rest ∧ pre ⊆ D'
      ∧ OnTheWay (x.reacted i left r) src i b := by
  have hb : b ∈ L.blocks := by rw [heq]; simp
  have hD' : pre ⊆ D' := fun y hy => hr.subset (hD hy)
  have hsent : ∀ o ∈ r.2, o ∈ (x.reacted i left r).mail src := by
    intro o ho
    rw [Gossip.reacted_mail_of_ne _ _ _ hne]
    exact List.mem_append_right _ ho
  have hkept : ∀ o ∈ x.mail i, o ≠ m → o ∈ (x.reacted i left r).mail i := by
    intro o ho hom
    rw [Gossip.reacted_mail_self]
    exact (List.mem_cons.mp (hleft ho)).resolve_left hom
  rcases hway with h | h | h
  · by_cases hm : .header b.header = m
    · rcases hr.header b hb hm.symm with hs | hask
      · exact .inl (stores_tip hr.fed htip heq hD' (hr.fed.stores_of_grows hr.grows hb hs))
      · exact .inr ⟨pre, b, rest, heq, hD', .inr (.inr (hsent _ hask))⟩
    · exact .inr ⟨pre, b, rest, heq, hD', .inl (hkept _ h hm)⟩
  · by_cases hm : .block b = m
    · cases rest with
      | nil =>
        -- the genesis is stored from the start
        have hgen : r.1.Stores b := by
          rw [L.history.eq_genesis_of_append heq]
          exact hr.fed.genesis
        exact .inl (stores_tip hr.fed htip heq hD' hgen)
      | cons p ws =>
        obtain ⟨hbD, hs | hask⟩ := hr.block pre b p ws heq hm.symm
        · exact .inl (stores_tip hr.fed htip heq hD' (hr.fed.stores_of_parent heq hbD hs))
        · refine .inr ⟨pre ++ [b], p, ws, by rw [heq]; simp, fun y hy => ?_,
            .inr (.inr (hsent _ hask))⟩
          rcases List.mem_append.mp hy with hy | hy
          · exact hD' hy
          · rw [List.mem_singleton.mp hy]
            exact hbD
    · exact .inr ⟨pre, b, rest, heq, hD', .inr (.inl (hkept _ h hm))⟩
  · refine .inr ⟨pre, b, rest, heq, hD', .inr (.inr ?_)⟩
    rw [Gossip.reacted_mail_of_ne _ _ _ hne]
    exact List.mem_append_left _ h

theorem other {i j : ι} {D D' : List Block} {m : NetworkMessage} {left : List NetworkMessage}
    {r : Node × List NetworkMessage} (hr : L.Reacts D D' (x.party i) m r)
    (hleft : x.mail i ⊆ m :: left) (hji : j ≠ i) {b : Block} (hs : (x.party src).Stores b)
    (hway : OnTheWay x src j b) : OnTheWay (x.reacted i left r) src j b := by
  have hmail := Gossip.reacted_mail_of_ne x left r hji
  rcases hway with h | h | h
  · exact .inl (hmail ▸ List.mem_append_left _ h)
  · exact .inr (.inl (hmail ▸ List.mem_append_left _ h))
  · by_cases hsi : src = i
    · subst hsi
      by_cases hm : .getBlock b.hash = m
      · exact .inl (hmail ▸ List.mem_append_right _ (hr.answer b hs hm.symm))
      · refine .inr (.inr ?_)
        rw [Gossip.reacted_mail_self]
        exact (List.mem_cons.mp (hleft h)).resolve_left hm
    · refine .inr (.inr ?_)
      rw [Gossip.reacted_mail_of_ne _ _ _ hsi]
      exact List.mem_append_left _ h

/-- **Every delivery is dealt with, and the parties go on catching up.** -/
theorem deliver (htip : L.blocks = tip :: zs) (hx : CatchingUp L tip src x)
    (d : Gossip.Delivery ι (IterOrder Block)) :
    ∃ x', Gossip.deliver Node.react x d = some x' ∧ CatchingUp L tip src x' := by
  refine Gossip.deliver_rule _ d hx fun m hm => ?_
  obtain ⟨y, hy, habout⟩ := hx.about d.target m hm
  obtain ⟨D, hf, hway⟩ := hx.fed d.target
  obtain ⟨r, D', hreact, hr⟩ := hf.react hy habout d.choice
  have htipz : tip ∈ L.blocks := by rw [htip]; simp
  refine ⟨r, hreact, fun left hsub hleft => ⟨fun j => ?_, fun j o ho => ?_, ?_⟩⟩
  · by_cases hj : j = d.target
    · subst hj
      rw [Gossip.reacted_party_self]
      refine ⟨D', hr.fed, ?_⟩
      rcases hway with hs | ⟨pre, b, rest, heq, hD, hway⟩
      · exact .inl (hr.fed.stores_of_grows hr.grows htipz hs)
      · by_cases hsrc : src = d.target
        · exact .inl (hr.fed.stores_of_grows hr.grows htipz (hsrc ▸ hx.source))
        · exact self htip hr hleft hsrc heq hD hway
    · rw [Gossip.reacted_party_of_ne _ _ _ hj]
      obtain ⟨Dj, hfj, hwayj⟩ := hx.fed j
      refine ⟨Dj, hfj, hwayj.imp_right ?_⟩
      rintro ⟨pre, b, rest, heq, hD, hwayb⟩
      -- the source has the tip, and so everything below it
      obtain ⟨Ds, hfs, -⟩ := hx.fed src
      have hsb : (x.party src).Stores b :=
        hfs.stores_all htip hx.source b (by rw [heq]; simp)
      exact ⟨pre, b, rest, heq, hD, other hr hleft hj hsb hwayb⟩
  · rcases Gossip.mem_reacted_mail hsub ho with ho | ho
    · exact hx.about j o ho
    · exact hr.sent habout o ho
  · by_cases hsrc : src = d.target
    · subst hsrc
      rw [Gossip.reacted_party_self]
      exact hr.fed.stores_of_grows hr.grows htipz hx.source
    · rw [Gossip.reacted_party_of_ne _ _ _ hsrc]
      exact hx.source

omit [DecidableEq ι] in
/-- **When nothing is on the way, every party has the tip.** -/
theorem stores_of_quiet (hx : CatchingUp L tip src x) (hq : x.Quiet) (i : ι) :
    (x.party i).Stores tip := by
  obtain ⟨D, -, hs | ⟨pre, b, rest, -, -, hway⟩⟩ := hx.fed i
  · exact hs
  · rw [OnTheWay, hq i, hq src] at hway
    simp at hway

end CatchingUp

theorem Delivering.head_of_stores (hd : Delivering g L.above T n) {tip : Block} {zs : List Block}
    (htip : L.blocks = tip :: zs) (hs : n.Stores tip) : n.chain.store.head = some tip.hash := by
  obtain ⟨pre, x, rest, heq, hhead, -, hmem⟩ := hd.head_line
  have hin := hmem tip (by rw [htip]; simp) hs
  cases pre with
  | nil =>
    rw [htip] at heq
    cases heq
    exact hhead
  | cons y pre =>
    -- the hashes are distinct, so the first block is not among the later ones
    have hnd := L.history.nodup
    have hy : y = tip := by
      rw [htip] at heq
      exact (List.cons.inj heq).1.symm
    rw [heq, hy, List.cons_append, List.map_cons, List.nodup_cons] at hnd
    exact absurd (List.mem_map_of_mem (List.mem_append_right _ hin)) hnd.1

/-- A node of the network: it started on the genesis, got some blocks of the line, and never drops a
body of it, because it archives or because `archive_keep` is more than the greatest height. -/
def Line.Holds (L : Line g) (n : Node) : Prop :=
  ∃ archive archiveKeep ds calls,
    (archive = true ∨ ∀ b ∈ L.above, b.header.number < archiveKeep)
    ∧ (∀ b ∈ ds.map Prod.fst, b ∈ L.above)
    ∧ (Node.fresh g archive archiveKeep).deliver ds = some (n, calls)

/-- **Nodes catch up over gossip.**  Any number of nodes have got some blocks of one line, in any
order, and none of them drops bodies of it; all messages on the way are about blocks of the line.
One node has the tip, and each of the others has been told of the tip by its header or by the block.
Then every schedule of deliveries is dealt with, in whatever order waiting blocks are tried, and
when no message is on the way the tip is the head of every node. -/
theorem Node.catch_up (L : Line g) {tip : Block} {zs : List Block} (htip : L.blocks = tip :: zs)
    (x : Gossip ι Node NetworkMessage) (src : ι) (hnodes : ∀ i, L.Holds (x.party i))
    (hsrc : (x.party src).Stores tip)
    (htold : ∀ i, (x.party i).Stores tip ∨ .header tip.header ∈ x.mail i ∨ .block tip ∈ x.mail i)
    (hmail : ∀ i, ∀ m ∈ x.mail i, ∃ y ∈ L.above, m.About y)
    (ds : List (Gossip.Delivery ι (IterOrder Block))) :
    ∃ x', Gossip.run Node.react x ds = some x'
      ∧ (x'.Quiet → ∀ i, (x'.party i).chain.store.head = some tip.hash) := by
  have hstart : CatchingUp L tip src x := by
    refine ⟨fun i => ?_, hmail, hsrc⟩
    obtain ⟨archive, archiveKeep, ds, calls, hkeep, hds, hn⟩ := hnodes i
    refine ⟨_, .of_deliver hkeep hds hn, (htold i).imp_right fun h => ⟨[], tip, zs, htip, ?_, ?_⟩⟩
    · exact List.nil_subset _
    · exact h.elim .inl fun h => .inr (.inl h)
  obtain ⟨x', hrun, hx'⟩ := Gossip.run_rule Node.react
    (fun x d hx => CatchingUp.deliver htip hx d) ds x hstart
  refine ⟨x', hrun, fun hq i => ?_⟩
  obtain ⟨D, hf, -⟩ := hx'.fed i
  exact Delivering.head_of_stores hf htip (hx'.stores_of_quiet hq i)

end Schedules

end Nodes

end

/-! ### Two nodes of a devnet -/

namespace Devnet

theorem history_of_follows {p b : Block} {zs : List Block} {s : StateDB}
    (hp : History genesis (p :: zs) s) (hf : Follows p s b)
    (hfresh : b.hash ∉ (p :: zs).map Block.hash) :
    History genesis (b :: p :: zs) (stateAfter s b) := by
  obtain ⟨outs, post, ctx, ha, heq⟩ := hf.accepted
  rw [heq]
  exact .step hp ha hfresh

theorem encodings_injective : (∀ x ∈ [genesisBlock, childA, blockA].flatMap Block.encodings,
    ∀ y ∈ [genesisBlock, childA, blockA].flatMap Block.encodings,
      keccak256 x = keccak256 y → x = y)
    ∧ blockA.hash ∉ [genesisBlock].map Block.hash
    ∧ childA.hash ∉ [blockA, genesisBlock].map Block.hash := by decide +kernel

/-- Two blocks on the genesis. -/
def lineA : Line genesis where
  blocks := [childA, blockA, genesisBlock]
  state := stateAfter (stateAfter state blockA) childA
  history := history_of_follows (history_of_follows .genesis follows_blocks.1
    encodings_injective.2.1) follows_blocks.2.2.1 encodings_injective.2.2
  length_le := by simp
  collisionFree := by
    refine CollisionFree.mono (fun x hx y hy => encodings_injective.1 x hx y hy) ?_
    rintro e ⟨b, hb, he⟩
    refine List.mem_flatMap.mpr ⟨b, ?_, he⟩
    rcases hb with rfl | ⟨hb, hg⟩
    · exact List.mem_cons_self
    · simp only [List.mem_cons, List.not_mem_nil, or_false] at hb ⊢
      tauto

/-- A node that got some blocks. -/
def nodeWith (bs : List Block) : Node :=
  (((Node.fresh genesis false 3).deliver (deliveries bs)).map Prod.fst).getD
    (Node.fresh genesis false 3)

instance (n : Node) (b : Block) : Decidable (n.Stores b) :=
  inferInstanceAs (Decidable (_ = _))

theorem holds_nodeWith (bs : List Block) (hbs : ∀ b ∈ bs, b ∈ lineA.above) :
    lineA.Holds (nodeWith bs) := by
  obtain ⟨⟨n, calls⟩, hn⟩ := Node.deliver_isSome (deliveries bs) (Node.fresh genesis false 3, [])
    genesis.storeInv
  have hnode : nodeWith bs = n := by
    rw [nodeWith, Node.deliver, hn]
    rfl
  have hkeep : ∀ b ∈ [childA, blockA, genesisBlock], b.header.number < 3 := by decide +kernel
  rw [hnode]
  exact ⟨false, 3, deliveries bs, calls, .inr fun b hb => hkeep b hb.1,
    fun b hb => hbs b ((mem_deliveries bs b).mp hb), hn⟩

/-- Two nodes, one of which has announced the tip to the other; the block overtakes the header. -/
theorem catch_up_lineA :
    ∃ x : Gossip Bool Node NetworkMessage, Gossip.run Node.react
        (.pair (nodeWith []) (nodeWith [blockA, childA]) [.header childA.header, .block childA] [])
        [⟨false, 1, inOrder⟩, ⟨true, 0, inOrder⟩, ⟨false, 2, inOrder⟩, ⟨false, 0, inOrder⟩,
          ⟨false, 0, inOrder⟩] = some x
      ∧ ∀ i, (x.party i).chain.store.head = some childA.hash := by
  have heval : (nodeWith [blockA, childA]).Stores childA
      ∧ ((Gossip.run Node.react
        (.pair (nodeWith []) (nodeWith [blockA, childA]) [.header childA.header, .block childA] [])
        [⟨false, 1, inOrder⟩, ⟨true, 0, inOrder⟩, ⟨false, 2, inOrder⟩, ⟨false, 0, inOrder⟩,
          ⟨false, 0, inOrder⟩]).map fun x => (x.mail false, x.mail true)) = some ([], [])
      ∧ blockA ≠ genesisBlock ∧ childA ≠ genesisBlock := by decide +kernel
  obtain ⟨hsrc, hquiet, hA, hc⟩ := heval
  have hAabove : blockA ∈ lineA.above := ⟨by simp [lineA], hA⟩
  have hcabove : childA ∈ lineA.above := ⟨by simp [lineA], hc⟩
  have htip : lineA.blocks = childA :: [blockA, genesisBlock] := rfl
  obtain ⟨x, hrun, hx⟩ := Node.catch_up lineA htip
    (.pair (nodeWith []) (nodeWith [blockA, childA]) [.header childA.header, .block childA] []) true
    (by
      rintro (_ | _)
      · exact holds_nodeWith [] (by simp)
      · exact holds_nodeWith [blockA, childA] (by simp [hAabove, hcabove]))
    hsrc
    (by
      rintro (_ | _)
      · exact .inr (.inl List.mem_cons_self)
      · exact .inl hsrc)
    (by
      rintro (_ | _) m hm
      · refine ⟨childA, hcabove, .inl ?_⟩
        simpa [Gossip.pair, NetworkMessage.Offers] using hm
      · cases hm)
    [⟨false, 1, inOrder⟩, ⟨true, 0, inOrder⟩, ⟨false, 2, inOrder⟩, ⟨false, 0, inOrder⟩,
      ⟨false, 0, inOrder⟩]
  rw [hrun, Option.map_some, Option.some.injEq, Prod.mk.injEq] at hquiet
  refine ⟨x, hrun, hx ?_⟩
  rintro (_ | _)
  · exact hquiet.1
  · exact hquiet.2

end Devnet

end Ivory
