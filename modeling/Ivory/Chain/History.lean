import Ivory.Chain.Replay

/-!
# Histories

A history is a list of blocks, the newest first, each accepted on the state
after the one before it, down to the genesis.  The canonical chain of a node is a
history; what the node keeps of it in memory and on disk are copies of its
blocks, some without their bodies, and some of its states.

* `AcceptedOn`: `import_and_apply` accepts a block on a parent and a state.
* `History g zs s`: the blocks `zs` were accepted one after the other, and `s` is the
  state after the newest.
* `History.unique`, `History.root_eq`: the blocks determine the state, and the newest
  header commits to it.
* `History.number_eq`, `History.exists_number_eq`: heights count the blocks, as long as they do not
  saturate.
* `History.executeBlocks`: **executing the blocks from the genesis state gives the state.**
* `History.isPath`: a store with the headers of a history has its path.
-/

namespace Ivory

open BlockStore
open Ancestry (Path)

section

variable [Keccak] [Ed25519] [Wasmi]

/-! ### Acceptance -/

/-- `import_and_apply` accepts `b` when its parent `p` is stored with the state `s`. -/
structure AcceptedOn (c : PoAConsensus) (p : Block) (s : StateDB) (b : Block)
    (outs : List ExecutionOutcome) (post : StateDB) (ctx : ExecutionContext) : Prop where
  parent : b.header.parentHash = p.hash
  number : b.header.number = p.header.number.saturatingAdd 1
  timestamp : p.header.timestamp ≤ b.header.timestamp
  miner : c.isValidator b.header.miner = true
  seals : c.verifyCryptoSeals b.header = .ok ()
  valid : b.validate = .ok ()
  executed : executeBlock s b = .ok (outs, post, ctx)
  root : post.rootHash.1 = b.header.stateRoot

namespace AcceptedOn

variable {c : PoAConsensus} {p b : Block} {s post : StateDB} {outs : List ExecutionOutcome}
  {ctx : ExecutionContext}

theorem number_ne_zero (ha : AcceptedOn c p s b outs post ctx) : b.header.number ≠ 0 := by
  intro h0
  have hnum := congrArg UInt64.toNat ha.number
  rw [h0, UInt64.toNat_saturatingAdd] at hnum
  simp at hnum
  omega

/-- The import of such a block, on any store with its parent and the state of its parent. -/
theorem importAndApply (ha : AcceptedOn c p s b outs post ctx) {cs : ChainState}
    (hi : StoreInv cs.store) (hc : cs.store.consensus = c) (hp : cs.store.getBlock p.hash = some p)
    (hs : cs.store.stateAt p.hash = some s) (hf : cs.store.getBlock b.hash = none) :
    ∃ outcome cs', cs.importAndApply b = (.ok outcome, cs') := by
  have hins : Insertable cs.store b :=
    { miner := by rw [hc]; exact ha.miner
      seals := by rw [hc]; exact ha.seals
      genesis := fun h0 => absurd h0 ha.number_ne_zero
      parent := fun _ => ⟨p, by rw [ha.parent]; exact hp, ha.number, ha.timestamp⟩
      fresh := hf }
  obtain ⟨outcome, store', cs', heq, -⟩ := ChainState.importAndApply_of_valid hi
    (by rw [ha.parent]; exact hs) ha.executed ha.root hins ha.valid
  exact ⟨outcome, cs', heq⟩

end AcceptedOn

theorem Accepted.acceptedOn {cs cs' : ChainState} {b p : Block} {pre post : StateDB}
    {outs : List ExecutionOutcome} {ctx : ExecutionContext} {outcome : InsertOutcome}
    {store' : BlockStore} (ha : Accepted cs b pre outs post ctx outcome store' cs')
    (hi : StoreInv cs.store) (h0 : b.header.number ≠ 0)
    (hp : cs.store.getBlock b.header.parentHash = some p) :
    AcceptedOn cs.store.consensus p pre b outs post ctx := by
  obtain ⟨p', hp', hnum, hts⟩ := ha.insertable.parent h0
  cases hp.symm.trans hp'
  exact
    { parent := (hi.keyed _ p hp).symm
      number := hnum
      timestamp := hts
      miner := ha.insertable.miner
      seals := ha.insertable.seals
      valid := ha.valid
      executed := ha.executed
      root := ha.root }

/-! ### Histories -/

/-- Blocks that were accepted one after the other, the newest first, and the state after the
newest. -/
inductive History (g : Genesis) : List Block → StateDB → Prop
  | genesis : History g [g.block] g.state
  | step {p b : Block} {zs : List Block} {s post : StateDB} {outs : List ExecutionOutcome}
      {ctx : ExecutionContext} : History g (p :: zs) s →
      AcceptedOn g.consensus p s b outs post ctx → b.hash ∉ (p :: zs).map Block.hash →
      History g (b :: p :: zs) post.rootHash.2

namespace History

variable {g : Genesis} {zs : List Block} {s : StateDB}

/-- **The blocks determine the state.** -/
theorem unique (h : History g zs s) : ∀ {s' : StateDB}, History g zs s' → s = s' := by
  induction h with
  | genesis =>
    intro s' h'
    cases h'
    rfl
  | step hp ha _ ih =>
    intro s' h'
    cases h' with
    | step hp' ha' _ =>
      cases ih hp'
      cases ha.executed.symm.trans ha'.executed
      rfl

theorem nodup (h : History g zs s) : (zs.map Block.hash).Nodup := by
  induction h with
  | genesis => exact List.nodup_singleton _
  | step _ _ hn ih => exact List.nodup_cons.mpr ⟨hn, ih⟩

theorem genesis_mem (h : History g zs s) : g.block ∈ zs := by
  induction h with
  | genesis => exact List.mem_singleton_self _
  | step _ _ _ ih => exact List.mem_cons_of_mem _ ih

theorem mem_reverse_tail (h : History g zs s) : ∀ y ∈ zs, y ≠ g.block → y ∈ zs.reverse.tail := by
  induction h with
  | genesis => intro y hy hne; exact absurd (List.mem_singleton.mp hy) hne
  | @step p b zs s post outs ctx _ _ _ ih =>
    intro y hy hne
    have hnil : (p :: zs).reverse ≠ [] := by simp
    rw [List.reverse_cons, List.tail_append_of_ne_nil hnil, List.mem_append, List.mem_singleton]
    rcases List.mem_cons.mp hy with rfl | hy
    · exact .inr rfl
    · exact .inl (ih y hy hne)

theorem valid (h : History g zs s) : ∀ y ∈ zs, y.validate = .ok () := by
  induction h with
  | genesis =>
    intro y hy
    rw [List.mem_singleton.mp hy]
    exact g.valid
  | step _ ha _ ih =>
    intro y hy
    rcases List.mem_cons.mp hy with rfl | hy
    · exact ha.valid
    · exact ih y hy

/-- **The newest header commits to the state.** -/
theorem root_eq {z : Block} (h : History g (z :: zs) s) : s.rootHash.1 = z.header.stateRoot := by
  cases h with
  | genesis => exact g.stateRoot.symm
  | step _ ha _ =>
    rw [StateDB.rootHash_of_rootsCurrent (StateDB.rootsCurrent_rootHash _)]
    exact ha.root

theorem rootsCurrent (h : History g zs s) (hg : g.state.RootsCurrent) : s.RootsCurrent := by
  cases h with
  | genesis => exact hg
  | step _ _ _ => exact StateDB.rootsCurrent_rootHash _

theorem fromSnapshot_trieNodes (h : History g zs s) (hg : g.state.RootsCurrent) :
    StateDB.fromSnapshot s.trieNodes.2.toSnapshot = s := by
  have hsync : s.trieNodes.2 = s :=
    congrArg Prod.snd (StateDB.rootHash_of_rootsCurrent (h.rootsCurrent hg))
  rw [hsync, StateDB.fromSnapshot_toSnapshot]

/-- **Executing the blocks from the genesis state gives the state.** -/
theorem replay (h : History g zs s) :
    ∃ outs, Ivory.replay g.state zs.reverse.tail = .ok (outs, s) := by
  induction h with
  | genesis => exact ⟨[], rfl⟩
  | @step p b zs s post outs ctx hp ha _ ih =>
    obtain ⟨outs', ih⟩ := ih
    refine ⟨outs' ++ outs, ?_⟩
    have hne : (p :: zs).reverse ≠ [] := by simp
    rw [List.reverse_cons, List.tail_append_of_ne_nil hne]
    exact replay_snoc ha.executed ih

theorem executeBlocks (h : History g zs s) (hg : g.state.RootsCurrent) :
    Ivory.executeBlocks g.state zs.reverse.tail = .ok s := by
  obtain ⟨outs, hr⟩ := h.replay
  exact executeBlocks_of_replay _ hg hr

/-- **Heights count the blocks**, as long as they do not saturate. -/
theorem number_eq (h : History g zs s) (hlen : zs.length ≤ 2 ^ 64) :
    ∀ z zs', zs = z :: zs' → z.header.number.toNat = zs'.length := by
  induction h with
  | genesis =>
    rintro z zs' heq
    cases heq
    rw [g.number]
    rfl
  | @step p b zs s post outs ctx _ ha _ ih =>
    rintro z zs' heq
    cases heq
    rw [List.length_cons, List.length_cons] at hlen
    have hp := ih (by rw [List.length_cons]; omega) p zs rfl
    rw [ha.number, UInt64.toNat_saturatingAdd, hp, List.length_cons]
    simp
    omega

theorem numbers_eq (h : History g zs s) (hlen : zs.length ≤ 2 ^ 64) :
    zs.reverse.map (fun y => y.header.number.toNat) = List.range zs.length := by
  induction h with
  | genesis => simp [g.number]
  | @step p b zs s post outs ctx hp ha hn ih =>
    have hb := (History.step hp ha hn).number_eq hlen b (p :: zs) rfl
    rw [List.length_cons] at hlen
    rw [List.reverse_cons, List.map_append, ih (by omega), List.map_singleton, hb,
      List.length_cons (a := b), List.range_succ]

theorem exists_number_eq {z : Block} (h : History g (z :: zs) s)
    (hlen : (z :: zs).length ≤ 2 ^ 64) {n : UInt64} (hn : n ≤ z.header.number) :
    ∃ y ∈ z :: zs, y.header.number = n := by
  have hz := h.number_eq hlen z zs rfl
  have hmem : n.toNat ∈ (z :: zs).reverse.map fun y => y.header.number.toNat := by
    rw [h.numbers_eq hlen, List.mem_range, List.length_cons]
    rw [UInt64.le_iff_toNat_le] at hn
    omega
  obtain ⟨y, hy, heq⟩ := List.mem_map.mp hmem
  exact ⟨y, List.mem_reverse.mp hy, UInt64.toNat_inj.mp heq⟩

theorem eq_of_hash_eq (h : History g zs s) {y y' : Block} (hy : y ∈ zs) (hy' : y' ∈ zs)
    (heq : y.hash = y'.hash) : y = y' := List.inj_on_of_nodup_map h.nodup hy hy' heq

theorem eq_of_number_eq (h : History g zs s) (hlen : zs.length ≤ 2 ^ 64) {y y' : Block}
    (hy : y ∈ zs)
    (hy' : y' ∈ zs) (heq : y.header.number = y'.header.number) : y = y' := by
  have hnd : (zs.reverse.map fun y => y.header.number.toNat).Nodup := by
    rw [h.numbers_eq hlen]
    exact List.nodup_range
  exact List.inj_on_of_nodup_map hnd (List.mem_reverse.mpr hy) (List.mem_reverse.mpr hy')
    (congrArg UInt64.toNat heq)

theorem eq_genesis (h : History g zs s) : ∀ y ∈ zs, y.header.number = 0 → y = g.block := by
  induction h with
  | genesis =>
    intro y hy _
    exact List.mem_singleton.mp hy
  | step _ ha _ ih =>
    intro y hy h0
    rcases List.mem_cons.mp hy with rfl | hy
    · exact absurd h0 ha.number_ne_zero
    · exact ih y hy h0

theorem number_le (h : History g zs s) : ∀ z zs', zs = z :: zs' →
    ∀ y ∈ zs, y.header.number ≤ z.header.number := by
  induction h with
  | genesis =>
    rintro z zs' heq y hy
    cases heq
    rw [List.mem_singleton.mp hy]
    exact UInt64.le_rfl
  | @step p b zs s post outs ctx _ ha _ ih =>
    rintro z zs' heq y hy
    cases heq
    rcases List.mem_cons.mp hy with rfl | hy
    · exact UInt64.le_rfl
    · refine UInt64.le_trans (ih p zs rfl y hy) ?_
      rw [ha.number, UInt64.le_iff_toNat_le, UInt64.toNat_saturatingAdd]
      have := p.header.number.toNat_le_max
      omega

theorem tail {z : Block} (h : History g (z :: zs) s) (hne : zs ≠ []) : ∃ s', History g zs s' := by
  cases h with
  | genesis => exact absurd rfl hne
  | step hp _ _ => exact ⟨_, hp⟩

theorem of_append {x : Block} {rest : List Block} : ∀ {pre : List Block} {s : StateDB},
    History g (pre ++ x :: rest) s → ∃ s', History g (x :: rest) s' := by
  intro pre
  induction pre with
  | nil => intro s h; exact ⟨s, h⟩
  | cons y pre ih =>
    intro s h
    obtain ⟨s', h'⟩ := h.tail (by simp)
    exact ih h'

theorem acceptedOn {b p : Block} {pre ws : List Block} (h : History g zs s)
    (heq : zs = pre ++ b :: p :: ws) :
    ∃ s' outs post ctx, AcceptedOn g.consensus p s' b outs post ctx := by
  rw [heq] at h
  obtain ⟨s', h'⟩ := h.of_append
  cases h' with
  | step _ ha _ => exact ⟨_, _, _, _, ha⟩

theorem eq_genesis_of_append {b : Block} {pre : List Block} (h : History g zs s)
    (heq : zs = pre ++ [b]) : b = g.block := by
  rw [heq] at h
  obtain ⟨s', h'⟩ := h.of_append
  cases h'
  rfl

theorem number_lt {x y : Block} {pre rest : List Block} (h : History g zs s)
    (hlen : zs.length ≤ 2 ^ 64) (heq : zs = pre ++ x :: rest) (hy : y ∈ pre) :
    x.header.number < y.header.number := by
  obtain ⟨pre₁, pre₂, rfl⟩ := List.append_of_mem hy
  rw [List.append_assoc, List.cons_append] at heq
  have hxz : x ∈ zs := by rw [heq]; simp
  have hyz : y ∈ zs := by rw [heq]; simp
  have hsub := heq ▸ h
  obtain ⟨s', h'⟩ := hsub.of_append
  have hle := h'.number_le y _ rfl x (by simp)
  refine UInt64.lt_of_le_of_ne hle fun hnum => ?_
  -- equal heights would make them one block, but the hashes are distinct
  have hxy := h.eq_of_number_eq hlen hxz hyz hnum
  have hnd := h'.nodup
  rw [List.map_cons, List.nodup_cons] at hnd
  exact hnd.1 (by rw [hxy]; simp)

/-- **A store with the headers of a history has its path.** -/
theorem isPath (h : History g zs s) {store : BlockStore}
    (hget : ∀ y ∈ zs, ∃ x, store.getBlock y.hash = some x ∧ x.header = y.header) :
    ∀ z zs', zs = z :: zs' → store.IsPath z.hash (zs.map Block.hash) := by
  induction h with
  | genesis =>
    rintro z zs' heq
    cases heq
    obtain ⟨x, hx, hhx⟩ := hget _ (List.mem_singleton_self _)
    exact .root hx (if_pos (by rw [hhx, g.number]))
  | @step p b zs s post outs ctx _ ha _ ih =>
    rintro z zs' heq
    cases heq
    obtain ⟨x, hx, hhx⟩ := hget b List.mem_cons_self
    refine .step hx (p := p.hash) ?_ (ih (fun y hy => hget y (List.mem_cons_of_mem _ hy)) p zs rfl)
    rw [Block.parent, hhx, if_neg ha.number_ne_zero, ha.parent]

end History

end

end Ivory
