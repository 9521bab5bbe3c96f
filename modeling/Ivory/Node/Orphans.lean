import Ivory.Node

/-!
# Waiting blocks

`import_block` tries every waiting child of a block it accepted.  Two things are
shown about that recursion once, for all later use.

It ends: a block waits while its parent is not stored, every accepted block
that has a waiting child stores such a parent, and so the bound on the depth is
never reached.

It has an invariant rule: `I T n` speaks of the node and of the blocks `T` that
are still to be tried; it is enough to know what one call of `import_and_apply`
does to it.

* `receive_isSome`, `deliver_isSome`: **every delivered block is dealt with.**
* `importBlock_rule`, `deliver_rule`: **what one call keeps, the whole recursion keeps.**
-/

namespace Ivory.Node

open BlockStore

/-! ### Waiting and growing -/

/-- The blocks whose parent is not stored. -/
def waiting (n : Node) : Table H256 Block :=
  n.orphans.filter fun _ b => (n.chain.store.getBlock b.header.parentHash).isNone

theorem get_waiting {n : Node} {key : H256} {b : Block} : n.waiting[key]? = some b
    ↔ n.orphans[key]? = some b ∧ n.chain.store.getBlock b.header.parentHash = none := by
  rw [waiting, Table.get_filter, Option.filter_eq_some_iff, Option.isNone_iff_eq_none]

theorem mem_children {n : Node} {hash : H256} {b : Block} :
    b ∈ n.children hash
      ↔ (∃ key : H256, n.orphans[key]? = some b) ∧ b.header.parentHash = hash := by
  rw [children, List.mem_filter, List.mem_map, decide_eq_true_eq]
  constructor
  · rintro ⟨⟨⟨key, b'⟩, hm, rfl⟩, hp⟩
    exact ⟨⟨key, Table.mem_toList.mp hm⟩, hp⟩
  · rintro ⟨⟨key, hk⟩, hp⟩
    exact ⟨⟨(key, b), Table.mem_toList.mpr hk, rfl⟩, hp⟩

/-- A node that stores at least as much. -/
def Grows (n n' : Node) : Prop :=
  ∀ h b, n.chain.store.getBlock h = some b → ∃ b', n'.chain.store.getBlock h = some b'

theorem Grows.trans {n₁ n₂ n₃ : Node} (h : Grows n₁ n₂) (h' : Grows n₂ n₃) : Grows n₁ n₃ := by
  intro k b hb
  obtain ⟨b', hb'⟩ := h k b hb
  exact h' k b' hb'

/-! ### Sequences of calls -/

/-- Blocks are dealt with one after the other, and the calls collected.  If dealing with one keeps
`I`, where the first of the blocks still to be tried is the one dealt with, so does the sequence. -/
theorem foldlM_calls {α : Type} {Ok : ImportCall → Prop} {I : List Block → Node → Prop}
    {k : α → Block} {f : Node → α → Option (Node × List ImportCall)}
    (hf : ∀ T n c n' calls, f n c = some (n', calls) → (∀ call ∈ calls, Ok call) →
      I (k c :: T) n → I T n') (T : List Block) :
    ∀ (cs : List α) (acc res : Node × List ImportCall),
      cs.foldlM (fun acc child => do
        let (n, calls) ← f acc.1 child
        pure (n, acc.2 ++ calls)) acc = some res →
      acc.2 ⊆ res.2 ∧ ((∀ call ∈ res.2, Ok call) → I (cs.map k ++ T) acc.1 → I T res.1) := by
  intro cs
  induction cs with
  | nil =>
    intro acc res h
    cases h
    exact ⟨fun _ hc => hc, fun _ hI => hI⟩
  | cons c cs ih =>
    intro acc res h
    rw [List.foldlM_cons] at h
    cases h₁ : f acc.1 c with
    | none =>
      rw [h₁] at h
      cases h
    | some r =>
      rw [h₁] at h
      obtain ⟨hsub, hI⟩ := ih (r.1, acc.2 ++ r.2) res h
      refine ⟨fun call hc => hsub (List.mem_append_left _ hc), fun hok hacc => hI hok ?_⟩
      exact hf (cs.map k ++ T) acc.1 c r.1 r.2 h₁
        (fun call hc => hok call (hsub (List.mem_append_right _ hc))) hacc

section

variable [Keccak]

theorem size_waiting_takeOrphan (n : Node) (c : Block) :
    (n.takeOrphan c).waiting.size ≤ n.waiting.size := by
  refine Table.size_le fun key b hb => ?_
  obtain ⟨ho, hp⟩ := get_waiting.mp hb
  change (n.orphans.erase c.hash)[key]? = some b at ho
  rw [Table.get_erase] at ho
  split at ho
  · cases ho
  · exact ⟨b, get_waiting.mpr ⟨ho, hp⟩⟩

theorem of_waiting_addOrphan {n : Node} {b x : Block} {key : H256}
    (h : (n.addOrphan b).waiting[key]? = some x) :
    (key = b.hash ∧ n.chain.store.getBlock b.header.parentHash = none)
      ∨ n.waiting[key]? = some x := by
  obtain ⟨ho, hp⟩ := get_waiting.mp h
  change (n.orphans.insert b.hash b)[key]? = some x at ho
  rw [Table.get_insert] at ho
  split at ho
  · next he =>
    cases ho
    exact .inl ⟨he, hp⟩
  · exact .inr (get_waiting.mpr ⟨ho, hp⟩)

theorem size_waiting_refuse_of_stored {n : Node} {b p : Block}
    (hp : n.chain.store.getBlock b.header.parentHash = some p) (e : ChainError) :
    (n.refuse b e).waiting.size ≤ n.waiting.size := by
  have hadd : (n.addOrphan b).waiting.size ≤ n.waiting.size := by
    refine Table.size_le fun key x hx => ?_
    rcases of_waiting_addOrphan hx with ⟨-, hno⟩ | hx
    · rw [hp] at hno
      cases hno
    · exact ⟨x, hx⟩
  cases e <;> first | exact hadd | exact le_rfl

theorem sameHeaders_pruneStore (store : BlockStore) (persist : ChainPersist) :
    SameHeaders store (pruneStore store persist) := by
  unfold pruneStore
  split
  · exact sameHeaders_pruneSnapshots store
  · exact sameHeaders_pruneSnapshotsKeep store _

theorem pruned_pruneStore {store : BlockStore} (hi : StoreInv store) (persist : ChainPersist) :
    Pruned store (pruneStore store persist) := by
  unfold pruneStore
  split
  · exact pruned_pruneSnapshots hi
  · exact pruned_pruneSnapshotsKeep hi _

theorem sameHeaders_settle (n : Node) (b : Block) :
    SameHeaders n.chain.store (n.settle b).chain.store := sameHeaders_pruneStore _ _

theorem refuse_chain (n : Node) (b : Block) (e : ChainError) : (n.refuse b e).chain = n.chain := by
  cases e <;> rfl

end

section

variable [Keccak] [Ed25519] [Wasmi]

/-! ### The recursion ends -/

/-- One call: a refused block changes the orphans only. -/
theorem importBlock_cases {n : Node} (hi : StoreInv n.chain.store) (order : IterOrder Block)
    (fuel : ℕ) (b : Block) :
    (∃ e, n.chain.importAndApply b = (.error e, n.chain)
      ∧ importBlock order (fuel + 1) n b = some (n.refuse b e, [⟨n.chain, b⟩]))
    ∨ ∃ pre outs post ctx outcome store' chain, n.chain.importAndApply b = (.ok outcome, chain)
      ∧ Accepted n.chain b pre outs post ctx outcome store' chain
      ∧ importBlock order (fuel + 1) n b
        = (order.pick (({ n with chain := chain }.settle b).children b.hash)).foldlM
            (fun acc child => do
              let (n, calls) ← importBlock order fuel (acc.1.takeOrphan child) child
              pure (n, acc.2 ++ calls))
            ({ n with chain := chain }.settle b, [⟨n.chain, b⟩]) := by
  rcases ChainState.importAndApply_cases hi b with
    ⟨e, he⟩ | ⟨pre, outs, post, ctx, outcome, store', chain, heq, ha⟩
  · exact .inl ⟨e, he, by rw [importBlock, he]⟩
  · exact .inr ⟨pre, outs, post, ctx, outcome, store', chain, heq, ha, by rw [importBlock, heq]⟩

section Accept

variable {n : Node} {b : Block} {pre post : StateDB} {outs : List ExecutionOutcome}
  {ctx : ExecutionContext} {outcome : InsertOutcome} {store' : BlockStore} {chain : ChainState}

theorem storeInv_settle (hi : StoreInv n.chain.store)
    (ha : Accepted n.chain b pre outs post ctx outcome store' chain) :
    StoreInv ({ n with chain := chain }.settle b).chain.store :=
  (ha.storeInv hi).of_sameHeaders (sameHeaders_settle { n with chain := chain } b)

theorem getBlock_settle (ha : Accepted n.chain b pre outs post ctx outcome store' chain)
    (h : H256) :
    ((({ n with chain := chain }.settle b).chain.store.getBlock h).map Block.header)
      = if h = b.hash then some b.header else (n.chain.store.getBlock h).map Block.header := by
  rw [(sameHeaders_settle _ _).headers h, ha.getBlock]
  split <;> rfl

theorem grows_settle (ha : Accepted n.chain b pre outs post ctx outcome store' chain) :
    Grows n ({ n with chain := chain }.settle b) := by
  intro h x hx
  have hh := getBlock_settle ha h
  rw [hx] at hh
  split at hh
  · obtain ⟨y, hy, -⟩ := Option.map_eq_some_iff.mp hh
    exact ⟨y, hy⟩
  · obtain ⟨y, hy, -⟩ := Option.map_eq_some_iff.mp hh
    exact ⟨y, hy⟩

theorem self_settle (ha : Accepted n.chain b pre outs post ctx outcome store' chain) :
    ∃ x, ({ n with chain := chain }.settle b).chain.store.getBlock b.hash = some x := by
  have hh := getBlock_settle ha b.hash
  rw [if_pos rfl] at hh
  obtain ⟨y, hy, -⟩ := Option.map_eq_some_iff.mp hh
  exact ⟨y, hy⟩

theorem waiting_settle (ha : Accepted n.chain b pre outs post ctx outcome store' chain) {key : H256}
    {x : Block} (hx : ({ n with chain := chain }.settle b).waiting[key]? = some x) :
    n.waiting[key]? = some x := by
  obtain ⟨ho, hp⟩ := get_waiting.mp hx
  refine get_waiting.mpr ⟨ho, ?_⟩
  cases hold : n.chain.store.getBlock x.header.parentHash with
  | none => rfl
  | some y =>
    obtain ⟨y', hy'⟩ := grows_settle ha _ y hold
    rw [hp] at hy'
    cases hy'

theorem size_waiting_settle (ha : Accepted n.chain b pre outs post ctx outcome store' chain)
    {c : Block} (hc : c ∈ ({ n with chain := chain }.settle b).children b.hash) :
    ({ n with chain := chain }.settle b).waiting.size < n.waiting.size := by
  obtain ⟨⟨key, hkey⟩, hp⟩ := mem_children.mp hc
  have hbefore : n.waiting[key]? = some c := by
    refine get_waiting.mpr ⟨hkey, ?_⟩
    rw [hp]
    exact ha.insertable.fresh
  refine Table.size_lt (fun k x hx => ⟨x, waiting_settle ha hx⟩) hbefore ?_
  cases hafter : ({ n with chain := chain }.settle b).waiting[key]? with
  | none => rfl
  | some x =>
    obtain ⟨hx, hno⟩ := get_waiting.mp hafter
    cases hkey.symm.trans hx
    obtain ⟨y, hy⟩ := self_settle ha
    rw [hp, hy] at hno
    cases hno

end Accept

/-- What a completed call leaves: a sound store that holds at least as much, and if the parent of
the block was stored, no more waiting blocks. -/
structure Completed (n : Node) (b : Block) (n' : Node) : Prop where
  inv : StoreInv n'.chain.store
  grows : Grows n n'
  waiting : (∃ p, n.chain.store.getBlock b.header.parentHash = some p) →
    n'.waiting.size ≤ n.waiting.size

/-- **With a bound above the number of waiting blocks the recursion ends.** -/
theorem importBlock_isSome (order : IterOrder Block) : ∀ (fuel : ℕ) (n : Node) (b : Block),
    StoreInv n.chain.store → n.waiting.size < fuel →
    ∃ n' calls, importBlock order fuel n b = some (n', calls) ∧ Completed n b n' := by
  intro fuel
  induction fuel with
  | zero => intro n b _ h; exact absurd h (Nat.not_lt_zero _)
  | succ fuel ih =>
    intro n b hi hfuel
    -- the children one after the other, each with its parent stored
    have hfold : ∀ (cs : List Block) (acc : Node × List ImportCall), StoreInv acc.1.chain.store →
        (∀ c ∈ cs, ∃ p, acc.1.chain.store.getBlock c.header.parentHash = some p) →
        acc.1.waiting.size < fuel →
        ∃ n' calls, cs.foldlM (fun acc child => do
            let (n, calls) ← importBlock order fuel (acc.1.takeOrphan child) child
            pure (n, acc.2 ++ calls)) acc = some (n', calls)
          ∧ StoreInv n'.chain.store ∧ Grows acc.1 n' ∧ n'.waiting.size ≤ acc.1.waiting.size := by
      intro cs
      induction cs with
      | nil =>
        intro acc hi _ _
        exact ⟨acc.1, acc.2, rfl, hi, fun h x hx => ⟨x, hx⟩, le_rfl⟩
      | cons c cs ihcs =>
        intro acc hi hstored hlt
        have htake := size_waiting_takeOrphan acc.1 c
        obtain ⟨n₁, calls₁, h₁, hc⟩ := ih (acc.1.takeOrphan c) c hi (lt_of_le_of_lt htake hlt)
        have hle : n₁.waiting.size ≤ acc.1.waiting.size :=
          (hc.waiting (hstored c List.mem_cons_self)).trans htake
        obtain ⟨n₂, calls₂, h₂, hi₂, hg₂, hw₂⟩ := ihcs (n₁, acc.2 ++ calls₁) hc.inv
          (fun c' hc' => by
            obtain ⟨p, hp⟩ := hstored c' (List.mem_cons_of_mem _ hc')
            exact hc.grows _ p hp)
          (lt_of_le_of_lt hle hlt)
        refine ⟨n₂, calls₂, ?_, hi₂, hc.grows.trans hg₂, hw₂.trans hle⟩
        rw [List.foldlM_cons, h₁]
        exact h₂
    rcases importBlock_cases hi order fuel b with
      ⟨e, -, heq⟩ | ⟨pre, outs, post, ctx, outcome, store', chain, -, ha, heq⟩
    · refine ⟨n.refuse b e, _, heq, ?_, ?_, ?_⟩
      · rw [refuse_chain]
        exact hi
      · intro h x hx
        rw [refuse_chain]
        exact ⟨x, hx⟩
      · rintro ⟨p, hp⟩
        exact size_waiting_refuse_of_stored hp e
    · rw [heq]
      have hinv := storeInv_settle hi ha
      have hgrows := grows_settle ha
      have hself := self_settle ha
      have hle : ({ n with chain := chain }.settle b).waiting.size ≤ n.waiting.size :=
        Table.size_le fun k x hx => ⟨x, waiting_settle ha hx⟩
      have hlt := fun c => size_waiting_settle (c := c) ha
      generalize { n with chain := chain }.settle b = n₁ at hinv hgrows hself hle hlt ⊢
      have hperm := order.perm (n₁.children b.hash)
      generalize order.pick (n₁.children b.hash) = cs at hperm ⊢
      cases cs with
      | nil => exact ⟨n₁, _, rfl, hinv, hgrows, fun _ => hle⟩
      | cons c cs =>
        specialize hlt c (hperm.mem_iff.mp List.mem_cons_self)
        obtain ⟨n', calls, h', hi', hg', hw'⟩ := hfold (c :: cs) (n₁, [⟨n.chain, b⟩]) hinv
          (fun c' hc' => by
            rw [(mem_children.mp (hperm.mem_iff.mp hc')).2]
            exact hself)
          (lt_of_lt_of_le hlt (Nat.le_of_lt_succ hfuel))
        exact ⟨n', calls, h', hi', hgrows.trans hg', fun _ => hw'.trans hle⟩

/-- **Every delivered block is dealt with.** -/
theorem receive_isSome {n : Node} (hi : StoreInv n.chain.store) (order : IterOrder Block)
    (b : Block) : ∃ n' calls, n.receive order b = some (n', calls) ∧ Completed n b n' := by
  refine importBlock_isSome order _ n b hi (Nat.lt_succ_of_le (Table.size_le fun key x hx => ?_))
  exact ⟨x, (get_waiting.mp hx).1⟩

/-- **Every sequence of deliveries is dealt with.** -/
theorem deliver_isSome : ∀ (ds : List (Block × IterOrder Block))
    (acc : Node × List ImportCall), StoreInv acc.1.chain.store →
    ∃ res, ds.foldlM (fun acc d => do
      let (n, calls) ← acc.1.receive d.2 d.1
      pure (n, acc.2 ++ calls)) acc = some res := by
  intro ds
  induction ds with
  | nil => intro acc _; exact ⟨acc, rfl⟩
  | cons d ds ih =>
    intro acc hi
    obtain ⟨n₁, calls₁, h₁, hc⟩ := receive_isSome hi d.2 d.1
    obtain ⟨res, hres⟩ := ih (n₁, acc.2 ++ calls₁) hc.inv
    refine ⟨res, ?_⟩
    rw [List.foldlM_cons, h₁]
    exact hres

theorem receive_calls {n n' : Node} {order : IterOrder Block} {b : Block} {calls : List ImportCall}
    (ho : n.orphans = ∅) (h : n.receive order b = some (n', calls)) : calls = [⟨n.chain, b⟩] := by
  have hnone : ∀ chain, ({ n with chain := chain }.settle b).children b.hash = [] := by
    intro chain
    refine List.eq_nil_iff_forall_not_mem.mpr fun c hc => ?_
    obtain ⟨⟨key, hkey⟩, -⟩ := mem_children.mp hc
    change n.orphans[key]? = some c at hkey
    rw [ho, Std.ExtTreeMap.getElem?_empty] at hkey
    cases hkey
  rw [receive, importBlock] at h
  split at h
  · next chain _ =>
    simp only [hnone chain, (order.perm []).eq_nil] at h
    cases h
    rfl
  · cases h
    rfl

/-! ### The invariant rule -/

/-- What an invariant has to be kept by.  `I T n` speaks of a node with the blocks `T` still to be
tried, and `Ok` is what is known of each call. -/
structure CallRule (Ok : ImportCall → Prop) (I : List Block → Node → Prop) : Prop where
  inv : ∀ T n, I T n → StoreInv n.chain.store
  take : ∀ T n c, I (c :: T) n → I (c :: T) (n.takeOrphan c)
  refuse : ∀ T n b e, I (b :: T) n → Ok ⟨n.chain, b⟩ →
    n.chain.importAndApply b = (.error e, n.chain) → I T (n.refuse b e)
  accept : ∀ T n b pre outs post ctx outcome store' chain, I (b :: T) n → Ok ⟨n.chain, b⟩ →
    Accepted n.chain b pre outs post ctx outcome store' chain →
    ∀ cs : List Block, cs.Perm (({ n with chain := chain }.settle b).children b.hash) →
      I (cs ++ T) ({ n with chain := chain }.settle b)

/-- **What one call keeps, the whole recursion keeps.** -/
theorem importBlock_rule {Ok : ImportCall → Prop} {I : List Block → Node → Prop}
    (hr : CallRule Ok I) (order : IterOrder Block) : ∀ (fuel : ℕ) (T : List Block) (n : Node)
    (b : Block) (n' : Node) (calls : List ImportCall),
    importBlock order fuel n b = some (n', calls) →
    (∀ call ∈ calls, Ok call) → I (b :: T) n → I T n' := by
  intro fuel
  induction fuel with
  | zero => intro T n b n' calls h; cases h
  | succ fuel ih =>
    intro T n b n' calls h hok hI
    rcases importBlock_cases (hr.inv _ _ hI) order fuel b with
      ⟨e, he, heq⟩ | ⟨pre, outs, post, ctx, outcome, store', chain, -, ha, heq⟩
    · rw [heq] at h
      cases h
      exact hr.refuse T n b e hI (hok _ (List.mem_singleton_self _)) he
    · rw [heq] at h
      have hfold := foldlM_calls (k := id)
        (f := fun m c => importBlock order fuel (m.takeOrphan c) c)
        (fun T n c n' calls hc hok hI => ih T _ c n' calls hc hok (hr.take T n c hI)) T _ _ _ h
      rw [List.map_id] at hfold
      exact hfold.2 hok (hr.accept T n b pre outs post ctx outcome store' chain hI
        (hok _ (hfold.1 (List.mem_singleton_self _))) ha _ (order.perm _))

/-- What follows from the invariant whenever a block is tried holds of all calls. -/
theorem importBlock_calls {I : List Block → Node → Prop} (hr : CallRule (fun _ => True) I)
    {P : ImportCall → Prop} (hP : ∀ T n b, I (b :: T) n → P ⟨n.chain, b⟩)
    (order : IterOrder Block) :
    ∀ (fuel : ℕ) (T : List Block) (n : Node) (b : Block) (n' : Node) (calls : List ImportCall),
      importBlock order fuel n b = some (n', calls) → I (b :: T) n → ∀ call ∈ calls, P call := by
  intro fuel
  induction fuel with
  | zero => intro T n b n' calls h; cases h
  | succ fuel ih =>
    intro T n b n' calls h hI
    -- the children one after the other, each with its own calls
    have hfold : ∀ (cs : List Block) (acc res : Node × List ImportCall),
        cs.foldlM (fun acc child => do
          let (n, calls) ← importBlock order fuel (acc.1.takeOrphan child) child
          pure (n, acc.2 ++ calls)) acc = some res →
        I (cs ++ T) acc.1 → (∀ call ∈ acc.2, P call) → ∀ call ∈ res.2, P call := by
      intro cs
      induction cs with
      | nil =>
        intro acc res h _ hacc
        cases h
        exact hacc
      | cons c cs ihcs =>
        intro acc res h hI hacc
        rw [List.foldlM_cons] at h
        cases h₁ : importBlock order fuel (acc.1.takeOrphan c) c with
        | none =>
          rw [h₁] at h
          cases h
        | some r =>
          rw [h₁] at h
          have htake := hr.take (cs ++ T) acc.1 c hI
          have hI' := importBlock_rule hr order fuel _ _ c r.1 r.2 h₁ (fun _ _ => trivial) htake
          refine ihcs (r.1, acc.2 ++ r.2) res h hI' fun call hc => ?_
          rcases List.mem_append.mp hc with hc | hc
          · exact hacc call hc
          · exact ih _ _ c r.1 r.2 h₁ htake call hc
    rcases importBlock_cases (hr.inv _ _ hI) order fuel b with
      ⟨e, he, heq⟩ | ⟨pre, outs, post, ctx, outcome, store', chain, -, ha, heq⟩
    · rw [heq] at h
      cases h
      intro call hc
      rw [List.mem_singleton.mp hc]
      exact hP T n b hI
    · rw [heq] at h
      refine hfold _ _ _ h (hr.accept T n b pre outs post ctx outcome store' chain hI trivial ha _
        (order.perm _)) fun call hc => ?_
      rw [List.mem_singleton.mp hc]
      exact hP T n b hI

theorem receive_rule {Ok : ImportCall → Prop} {I : List Block → Node → Prop} (hr : CallRule Ok I)
    {n n' : Node} {order : IterOrder Block} {b : Block} {calls : List ImportCall}
    (h : n.receive order b = some (n', calls)) (hok : ∀ call ∈ calls, Ok call) (hI : I [b] n) :
    I [] n' := importBlock_rule hr order _ [] n b n' calls h hok hI

section Deliveries

variable {Ok : ImportCall → Prop} {I : List Block → Node → Prop} {n n₁ n' : Node}
  {ds : List (Block × IterOrder Block)} {calls calls₁ : List ImportCall}

/-- Deliveries after some calls. -/
theorem foldlM_receive_rule (hr : CallRule Ok I) (T : List Block)
    {acc res : Node × List ImportCall}
    (h : ds.foldlM (fun acc d => do
      let (n, calls) ← acc.1.receive d.2 d.1
      pure (n, acc.2 ++ calls)) acc = some res)
    (hok : ∀ call ∈ res.2, Ok call) (hI : I (ds.map Prod.fst ++ T) acc.1) : I T res.1 :=
  (foldlM_calls (k := Prod.fst) (f := fun n d => n.receive d.2 d.1)
    (fun T n d n' calls h hok hI => importBlock_rule hr d.2 _ T n d.1 n' calls h hok hI) T ds _ _
    h).2 hok hI

theorem deliver_rule_append (hr : CallRule Ok I) (T : List Block)
    (h : n.deliver ds = some (n', calls)) (hok : ∀ call ∈ calls, Ok call)
    (hI : I (ds.map Prod.fst ++ T) n) : I T n' := foldlM_receive_rule hr T h hok hI

theorem deliver_rule (hr : CallRule Ok I) (h : n.deliver ds = some (n', calls))
    (hok : ∀ call ∈ calls, Ok call) (hI : I (ds.map Prod.fst) n) : I [] n' :=
  deliver_rule_append hr [] h hok (by rwa [List.append_nil])

theorem deliver_rule_cons (hr : CallRule Ok I) {d : Block × IterOrder Block}
    (h₁ : n.receive d.2 d.1 = some (n₁, calls₁)) (h : n.deliver (d :: ds) = some (n', calls))
    (hok : ∀ call ∈ calls, Ok call) (hI : I (ds.map Prod.fst) n₁) : I [] n' := by
  rw [deliver, List.foldlM_cons, h₁] at h
  exact foldlM_receive_rule hr [] h hok (by rwa [List.append_nil])

end Deliveries

end

end Ivory.Node
