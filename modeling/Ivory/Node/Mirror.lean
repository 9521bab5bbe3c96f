import Ivory.Chain.History
import Ivory.Node

/-!
# A history in memory and on disk

The canonical chain of a node is a history `z :: zs`.  The store in memory and the
database each hold a version of every block of it, which is the block or the
block without its body, and the states after some of them.

* `InMemory`, `OnDisk`: a store, and a database, that hold a history.
* `InMemory.getBlockByNumber_eq`: lookups by height.
* `OnDisk.loadInto`: **loading a database that holds a history succeeds, and the store then
  holds it.**
-/

namespace Ivory

open BlockStore

/-! ### Versions of a block -/

/-- The block, or the block without its body. -/
def Block.VersionOf (x y : Block) : Prop := x = y ∨ x = y.stub

namespace Block.VersionOf

variable {x y : Block}

theorem header_eq (h : x.VersionOf y) : x.header = y.header := by
  rcases h with rfl | rfl <;> rfl

theorem hash_eq [Keccak] (h : x.VersionOf y) : x.hash = y.hash := by
  rw [Block.hash, Block.hash, h.header_eq]

theorem stub_eq (h : x.VersionOf y) : x.stub = y.stub := by
  rcases h with rfl | rfl <;> rfl

theorem stub (h : x.VersionOf y) : x.stub.VersionOf y := .inr h.stub_eq

end Block.VersionOf

/-! ### In memory -/

section

variable [Keccak] [Ed25519] [Wasmi]

theorem History.heightsBetween_eq {g : Genesis} {z : Block} {zs : List Block} {s : StateDB}
    (hh : History g (z :: zs) s) (hlen : (z :: zs).length ≤ 2 ^ 64) :
    heightsBetween 1 z.header.number = (z :: zs).reverse.tail.map fun y => y.header.number := by
  have hz := hh.number_eq hlen z zs rfl
  have hnums := congrArg List.tail (hh.numbers_eq hlen)
  rw [← List.map_tail, List.length_cons, List.range_eq_range', List.tail_range'] at hnums
  rw [heightsBetween, hz, UInt64.toNat_one, Nat.add_sub_cancel]
  rw [Nat.zero_add, Nat.add_sub_cancel] at hnums
  rw [← hnums, List.map_map]
  exact List.map_congr_left fun y _ => UInt64.ofNat_toNat

/-- The canonical chain of the store is the history, and its snapshots are the states of it. -/
structure InMemory (g : Genesis) (z : Block) (zs : List Block) (store : BlockStore) : Prop where
  inv : StoreInv store
  consensus : store.consensus = g.consensus
  head : store.head = some z.hash
  blocks : ∀ y ∈ z :: zs, ∃ x, store.getBlock y.hash = some x ∧ x.VersionOf y
  snapshots : ∀ y ys s, y :: ys <:+ z :: zs → store.snapshots[y.hash]? = some s →
    History g (y :: ys) s

namespace InMemory

variable {g : Genesis} {z : Block} {zs : List Block} {store : BlockStore} {s : StateDB}

theorem isPath (hm : InMemory g z zs store) (hh : History g (z :: zs) s) :
    store.IsPath z.hash ((z :: zs).map Block.hash) := by
  refine hh.isPath (fun y hy => ?_) z zs rfl
  obtain ⟨x, hx, hv⟩ := hm.blocks y hy
  exact ⟨x, hx, hv.header_eq⟩

theorem numberOf_eq (hm : InMemory g z zs store) {y : Block} (hy : y ∈ z :: zs) :
    store.numberOf y.hash = y.header.number := by
  obtain ⟨x, hx, hv⟩ := hm.blocks y hy
  rw [BlockStore.numberOf_eq hx, hv.header_eq]

theorem headBlock (hm : InMemory g z zs store) :
    ∃ x, store.headBlock = some x ∧ store.getBlock z.hash = some x ∧ x.VersionOf z := by
  obtain ⟨x, hx, hv⟩ := hm.blocks z List.mem_cons_self
  exact ⟨x, by rw [BlockStore.headBlock, hm.head, Option.bind_some, hx], hx, hv⟩

/-- **Lookups by height**: the hash at a height is that of the block of the history. -/
theorem byNumber_eq_some (hm : InMemory g z zs store) (hh : History g (z :: zs) s)
    (hlen : (z :: zs).length < 2 ^ 64) {n : UInt64} {k : H256} :
    store.byNumber[n]? = some k ↔ ∃ y ∈ z :: zs, y.header.number = n ∧ y.hash = k := by
  rw [hm.inv.canonical z.hash _ hm.head (hm.isPath hh), hm.inv.numberIndex_eq_some (hm.isPath hh)
    (by rwa [List.length_map])]
  constructor
  · rintro ⟨hk, rfl⟩
    obtain ⟨y, hy, rfl⟩ := List.mem_map.mp hk
    exact ⟨y, hy, (hm.numberOf_eq hy).symm, rfl⟩
  · rintro ⟨y, hy, rfl, rfl⟩
    exact ⟨List.mem_map_of_mem hy, hm.numberOf_eq hy⟩

theorem getBlockByNumber_eq (hm : InMemory g z zs store) (hh : History g (z :: zs) s)
    (hlen : (z :: zs).length < 2 ^ 64) {y : Block} (hy : y ∈ z :: zs) :
    store.getBlockByNumber y.header.number = store.getBlock y.hash := by
  rw [getBlockByNumber, (hm.byNumber_eq_some hh hlen).mpr ⟨y, hy, rfl, rfl⟩, Option.bind_some]

theorem map_getBlockByNumber (hm : InMemory g z zs store) (hh : History g (z :: zs) s)
    (hlen : (z :: zs).length < 2 ^ 64) {f : Block → Block}
    (hf : ∀ y ∈ z :: zs, store.getBlock y.hash = some (f y)) :
    (heightsBetween 1 z.header.number).map store.getBlockByNumber
      = ((z :: zs).reverse.tail.map f).map some := by
  rw [hh.heightsBetween_eq hlen.le, List.map_map, List.map_map]
  refine List.map_congr_left fun y hy => ?_
  have hy : y ∈ z :: zs := List.mem_reverse.mp (List.mem_of_mem_tail hy)
  rw [Function.comp_apply, Function.comp_apply, hm.getBlockByNumber_eq hh hlen hy, hf y hy]

theorem filterMap_getBlockByNumber (hm : InMemory g z zs store) (hh : History g (z :: zs) s)
    (hlen : (z :: zs).length < 2 ^ 64) (hfull : ∀ y ∈ z :: zs, store.getBlock y.hash = some y) :
    (heightsBetween 1 z.header.number).filterMap store.getBlockByNumber
      = (z :: zs).reverse.tail := by
  have hmap := congrArg (List.filterMap id) (hm.map_getBlockByNumber (f := id) hh hlen hfull)
  rw [List.filterMap_map, List.map_id, List.filterMap_map] at hmap
  exact hmap.trans List.filterMap_some

end InMemory

/-! ### On disk -/

/-- The database has a version of the block under its height and its hash, or its header. -/
def ChainDb.Entry (db : ChainDb) (y : Block) : Prop :=
  db.heights[y.header.number]? = some y.hash
    ∧ ((∃ x, db.blocks[y.hash]? = some x ∧ x.VersionOf y ∧ x.validate = .ok ())
      ∨ (db.blocks[y.hash]? = none ∧ db.headers[y.hash]? = some y.header))

/-- The database has an entry for every block of the history, its snapshots are the states of it,
and the head on disk is as high as the newest block. -/
structure OnDisk (g : Genesis) (z : Block) (zs : List Block) (db : ChainDb) : Prop where
  head : ∃ (h : H256) (x : Block), db.head = some h ∧ db.blocks[h]? = some x
    ∧ x.header.number = z.header.number
  entries : ∀ y ∈ z :: zs, db.Entry y
  genesis : ∃ x, db.blocks[g.block.hash]? = some x
  snapshots : ∀ y ys snap, y :: ys <:+ z :: zs → db.snapshots[y.hash]? = some snap →
    History g (y :: ys) (StateDB.fromSnapshot snap)

end

/-! ### Loading -/

section Version

variable [Keccak] {db : ChainDb} {y : Block}

/-- The version of a block that is loaded. -/
def ChainDb.version (db : ChainDb) (y : Block) : Block := db.blocks[y.hash]?.getD y.stub

theorem ChainDb.version_eq {x : Block} (hx : db.blocks[y.hash]? = some x) : db.version y = x := by
  rw [ChainDb.version, hx, Option.getD_some]

theorem ChainDb.Entry.version_of (he : db.Entry y) : (db.version y).VersionOf y := by
  rcases he.2 with ⟨x, hx, hv, -⟩ | ⟨hx, -⟩
  · rw [ChainDb.version_eq hx]
    exact hv
  · rw [ChainDb.version, hx]
    exact .inr rfl

end Version

section Loading

variable [Keccak] [Ed25519] {g : Genesis}

/-- Part of a history was loaded, up to the block `z`. -/
structure Loading (g : Genesis) (db : ChainDb) (z : Block) (zs : List Block) (store : BlockStore) :
    Prop where
  inv : StoreInv store
  consensus : store.consensus = g.consensus
  head : store.head = some z.hash
  blocks : ∀ y ∈ z :: zs, store.getBlock y.hash = some (db.version y)
  only : ∀ h x, store.getBlock h = some x → h ∈ (z :: zs).map Block.hash
  snapshots : store.snapshots = ∅

theorem ChainPersist.loadHeight_eq {persist : ChainPersist} {store store' : BlockStore} {b : Block}
    {outcome : InsertOutcome} (he : persist.db.Entry b) (h0 : b.header.number ≠ 0)
    (hv : HeaderValid store b.header)
    (hins : store.insertValidated (persist.db.version b) = (.ok outcome, store')) :
    persist.loadHeight store b.header.number = .ok store' := by
  unfold loadHeight getBlockByHeight
  rw [he.1, Option.bind_some]
  rcases he.2 with ⟨x, hx, hx', hval⟩ | ⟨hx, hhd⟩
  · rw [ChainDb.version_eq hx] at hins
    rw [← hx'.header_eq] at hv
    simp only [hx, insertBlock_eq hv hval, hins]
  · have hver : persist.db.version b = ⟨b.header, Vec.empty, Vec.empty⟩ := by
      rw [ChainDb.version, hx]
      rfl
    rw [hver] at hins
    simp only [hx, hhd, insertHeader_eq hv h0, hins]

variable [Wasmi] {persist : ChainPersist} {z p b : Block} {zs : List Block} {store : BlockStore}
  {s post : StateDB} {outs : List ExecutionOutcome} {ctx : ExecutionContext}

/-- **One more block is loaded.** -/
theorem Loading.loadHeight (hL : Loading g persist.db p zs store)
    (ha : AcceptedOn g.consensus p s b outs post ctx) (hn : b.hash ∉ (p :: zs).map Block.hash)
    (hlt : p.header.number < b.header.number) (hp : persist.db.Entry p) (hb : persist.db.Entry b) :
    ∃ store', persist.loadHeight store b.header.number = .ok store'
      ∧ Loading g persist.db b (p :: zs) store' := by
  have hpget := hL.blocks p List.mem_cons_self
  have hv : HeaderValid store b.header :=
    { miner := by rw [hL.consensus]; exact ha.miner
      seals := by rw [hL.consensus]; exact ha.seals
      genesis := fun h0 => absurd h0 ha.number_ne_zero
      parent := fun _ => ⟨_, by rw [ha.parent]; exact hpget, by
        rw [hp.version_of.header_eq]
        exact ha.number, by
        rw [hp.version_of.header_eq]
        exact ha.timestamp⟩ }
  have hhash := hb.version_of.hash_eq
  have hfresh : store.getBlock (persist.db.version b).hash = none := by
    rw [hhash]
    cases hget : store.getBlock b.hash with
    | none => rfl
    | some x => exact absurd (hL.only _ x hget) hn
  obtain ⟨outcome, store', heq, hins⟩ := insertValidated_of_fresh hL.inv hfresh
  refine ⟨store', ChainPersist.loadHeight_eq hb ha.number_ne_zero hv heq, ?_⟩
  have hinsert : Insertable store (persist.db.version b) :=
    ⟨by rw [hb.version_of.header_eq]; exact hv, hfresh⟩
  refine ⟨hL.inv.inserted hinsert hins, hins.consensus.trans hL.consensus, ?_, fun y hy => ?_,
    fun h x hx => ?_, hins.snapshots.trans hL.snapshots⟩
  · rcases hins.cases with ⟨-, hhead, -⟩ | ⟨-, -, hle, -⟩
    · rw [hhead, hhash]
    · -- the block is higher than the head
      have hle := hle _ _ hL.head hpget
      rw [forkKey_le_iff, hb.version_of.header_eq, hp.version_of.header_eq] at hle
      rcases hle with hlt' | ⟨heq', -⟩
      · exact absurd hlt (UInt64.lt_asymm hlt')
      · rw [heq'] at hlt
        exact absurd hlt (UInt64.lt_irrefl _)
  · rcases List.mem_cons.mp hy with rfl | hy
    · rw [← hhash]
      exact hins.self
    · exact hins.mono hfresh (hL.blocks y hy)
  · rcases hins.of_getBlock hx with ⟨rfl, -⟩ | hx
    · rw [hhash]
      exact List.mem_cons_self
    · exact List.mem_cons_of_mem _ (hL.only h x hx)

theorem Loading.foldlM_loadHeight {store₀ : BlockStore}
    (hL : Loading g persist.db g.block [] store₀)
    {l : List Block} (hh : History g l s) (hlen : l.length ≤ 2 ^ 64)
    (he : ∀ y ∈ l, persist.db.Entry y) : ∀ z zs, l = z :: zs →
      ∃ store, (heightsBetween 1 z.header.number).foldlM persist.loadHeight store₀ = .ok store
        ∧ Loading g persist.db z zs store := by
  induction hh with
  | genesis =>
    rintro z zs heq
    cases heq
    rw [g.number]
    exact ⟨store₀, rfl, hL⟩
  | @step p b zs s post outs ctx hp ha hn ih =>
    rintro z zs' heq
    cases heq
    have hnum := (History.step hp ha hn).number_eq hlen b (p :: zs) rfl
    rw [List.length_cons] at hlen
    have hnum' := hp.number_eq (by omega) p zs rfl
    rw [List.length_cons, ← hnum'] at hnum
    obtain ⟨store, hfold, hL'⟩ :=
      ih (by omega) (fun y hy => he y (List.mem_cons_of_mem _ hy)) p zs rfl
    obtain ⟨store', hload, hL''⟩ := hL'.loadHeight ha hn
      (by rw [UInt64.lt_iff_toNat_lt]; omega) (he p (by simp)) (he b (by simp))
    have hone : (1 : UInt64) ≤ b.header.number := by
      rw [UInt64.le_iff_toNat_le, hnum]
      simp
    refine ⟨store', ?_, hL''⟩
    rw [heightsBetween_succ hnum hone, List.foldlM_append, hfold]
    simp only [List.foldlM_cons, List.foldlM_nil]
    change (persist.loadHeight store b.header.number >>= pure) = _
    rw [hload]
    rfl

omit [Ed25519] [Wasmi] in
theorem ChainPersist.foldl_loadSnapshot (persist : ChainPersist) (store : BlockStore)
    (ns : List UInt64) : ∃ t, ns.foldl persist.loadSnapshot store = { store with snapshots := t }
      ∧ (∀ (h : H256) s, t[h]? = some s → store.snapshots[h]? = some s
        ∨ (persist.getSnapshot h = some s
          ∧ ∃ n ∈ ns, ∃ b, store.getBlockByNumber n = some b ∧ b.hash = h))
      ∧ ∀ n ∈ ns, ∀ b s, store.getBlockByNumber n = some b → persist.getSnapshot b.hash = some s →
        t[b.hash]? = some s := by
  induction ns using List.reverseRecOn with
  | nil => exact ⟨store.snapshots, rfl, fun h s hs => .inl hs, nofun⟩
  | append_singleton ns n ih =>
    obtain ⟨t, hfold, hsub, hall⟩ := ih
    have hnum : ∀ m, ({ store with snapshots := t } : BlockStore).getBlockByNumber m
        = store.getBlockByNumber m := fun _ => rfl
    have hsub' : ∀ (h : H256) s, t[h]? = some s → store.snapshots[h]? = some s
        ∨ (persist.getSnapshot h = some s
          ∧ ∃ m ∈ ns ++ [n], ∃ b, store.getBlockByNumber m = some b ∧ b.hash = h) := by
      intro h s hs
      refine (hsub h s hs).imp_right ?_
      rintro ⟨hget, m, hm, b, hb⟩
      exact ⟨hget, m, List.mem_append_left _ hm, b, hb⟩
    rw [List.foldl_append, List.foldl_cons, List.foldl_nil, hfold, loadSnapshot, hnum]
    cases hb : store.getBlockByNumber n with
    | none =>
      refine ⟨t, rfl, hsub', fun m hm b s hmb hs => ?_⟩
      rcases List.mem_append.mp hm with hm | hm
      · exact hall m hm b s hmb hs
      · rw [List.mem_singleton.mp hm, hb] at hmb
        cases hmb
    | some b =>
      cases hs : persist.getSnapshot b.hash with
      | none =>
        refine ⟨t, by simp only [hs], hsub', fun m hm b' s' hmb hs' => ?_⟩
        rcases List.mem_append.mp hm with hm | hm
        · exact hall m hm b' s' hmb hs'
        · rw [List.mem_singleton.mp hm, hb] at hmb
          cases hmb
          rw [hs] at hs'
          cases hs'
      | some s =>
        refine ⟨t.insert b.hash s, ?_, fun h s' hs' => ?_, fun m hm b' s' hmb hs' => ?_⟩
        · simp only [hs, recordState, StateDB.fork_eq]
        · rw [Table.get_insert] at hs'
          split at hs'
          · next he =>
            cases hs'
            exact .inr ⟨he ▸ hs, n, by simp, b, hb, he.symm⟩
          · exact hsub' h s' hs'
        · rw [Table.get_insert]
          split
          · next he =>
            rw [he, hs] at hs'
            exact hs'
          · next hne =>
            rcases List.mem_append.mp hm with hm | hm
            · exact hall m hm b' s' hmb hs'
            · rw [List.mem_singleton.mp hm, hb] at hmb
              cases hmb
              exact absurd rfl hne

/-- A store that was loaded from disk: it has the blocks and the snapshots of the history that the
database has, and no others. -/
structure Reloaded (g : Genesis) (z : Block) (zs : List Block) (persist : ChainPersist)
    (store : BlockStore) : Prop extends InMemory g z zs store where
  version : ∀ y ∈ z :: zs, store.getBlock y.hash = some (persist.db.version y)
  snapshot : ∀ y ∈ z :: zs, store.snapshots[y.hash]? = persist.getSnapshot y.hash
  only : ∀ (h : H256) s, store.snapshots[h]? = some s → h ∈ (z :: zs).map Block.hash

theorem OnDisk.loadGenesis (hd : OnDisk g z zs persist.db) (hh : History g (z :: zs) s) :
    ∃ x outcome store, persist.getBlockByHeight 0 = some x ∧ x.hash = g.block.hash
      ∧ (BlockStore.new g.consensus).insertGenesis x = (.ok outcome, store)
      ∧ Loading g persist.db g.block [] store := by
  obtain ⟨x, hx⟩ := hd.genesis
  have he := hd.entries _ hh.genesis_mem
  have hver := ChainDb.version_eq hx
  have hx' : x.VersionOf g.block := hver ▸ he.version_of
  have hval : x.validate = .ok () := by
    rcases he.2 with ⟨x', hget, -, hval⟩ | ⟨hnone, -⟩
    · cases hx.symm.trans hget
      exact hval
    · rw [hnone] at hx
      cases hx
  have hv : HeaderValid (BlockStore.new g.consensus) x.header := by
    rw [hx'.header_eq]
    exact g.headerValid
  have hf : (BlockStore.new g.consensus).getBlock x.hash = none := Std.ExtTreeMap.getElem?_empty
  obtain ⟨outcome, store, heq, hins⟩ := insertValidated_of_fresh (storeInv_new g.consensus) hf
  refine ⟨x, outcome, store, ?_, hx'.hash_eq, ?_, ?_⟩
  · rw [ChainPersist.getBlockByHeight, ← g.number, he.1, Option.bind_some, hx]
  · rw [insertGenesis_eq hv (by rw [hx'.header_eq, g.number]) hval, heq]
  · refine ⟨(storeInv_new _).inserted ⟨hv, hf⟩ hins, hins.consensus, ?_, fun y hy => ?_,
      fun h y hy => ?_, hins.snapshots⟩
    · rcases hins.cases with ⟨-, hhead, -⟩ | ⟨-, hhead, -⟩
      · rw [hhead, hx'.hash_eq]
      · rw [hins.newHead] at hhead
        cases hhead
    · rw [List.mem_singleton.mp hy, hver, ← hx'.hash_eq]
      exact hins.self
    · rcases hins.of_getBlock hy with ⟨rfl, -⟩ | hy
      · rw [hx'.hash_eq]
        exact List.mem_singleton_self _
      · rw [BlockStore.getBlock, BlockStore.new, Std.ExtTreeMap.getElem?_empty] at hy
        cases hy

theorem Loading.inMemory {db : ChainDb} (hL : Loading g db z zs store)
    (he : ∀ y ∈ z :: zs, db.Entry y) {t : Table H256 StateDB}
    (ht : ∀ y ys s, y :: ys <:+ z :: zs → t[y.hash]? = some s → History g (y :: ys) s) :
    InMemory g z zs { store with snapshots := t } where
  inv := hL.inv.of_sameHeaders ⟨fun _ => rfl, rfl, rfl, rfl, rfl⟩
  consensus := hL.consensus
  head := hL.head
  blocks y hy := ⟨_, hL.blocks y hy, (he y hy).version_of⟩
  snapshots := ht

/-- **Loading a database that holds a history succeeds, and the store then holds it.** -/
theorem OnDisk.loadInto (hd : OnDisk g z zs persist.db) (hh : History g (z :: zs) s)
    (hlen : (z :: zs).length < 2 ^ 64) :
    ∃ store, persist.loadInto (BlockStore.new g.consensus) g.block
        = .ok (some z.header.number, store) ∧ Reloaded g z zs persist store := by
  obtain ⟨h, head, hhead, hblock, hnum⟩ := hd.head
  obtain ⟨x, outcome, store₀, hzero, hhash, hgen, hL₀⟩ := hd.loadGenesis hh
  obtain ⟨store₁, hfold, hL⟩ := hL₀.foldlM_loadHeight hh hlen.le hd.entries z zs rfl
  obtain ⟨t, hsnaps, hsub, hall⟩ :=
    persist.foldl_loadSnapshot store₁ (heightsBetween 0 z.header.number)
  have hnone : ∀ k : H256, store₁.snapshots[k]? = none := by
    intro k
    rw [hL.snapshots, Std.ExtTreeMap.getElem?_empty]
  -- before the snapshots are loaded, lookups by height find the history
  have hm₁ : InMemory g z zs { store₁ with snapshots := ∅ } :=
    hL.inMemory hd.entries fun y ys s _ hs => by rw [Std.ExtTreeMap.getElem?_empty] at hs; cases hs
  have hcanon : ∀ y ∈ z :: zs, store₁.getBlockByNumber y.header.number
      = some (persist.db.version y) := by
    intro y hy
    exact (hm₁.getBlockByNumber_eq hh hlen hy).trans (hL.blocks y hy)
  have hget : ∀ (k : H256) s', t[k]? = some s' → persist.getSnapshot k = some s'
      ∧ k ∈ (z :: zs).map Block.hash := by
    intro k s' hs'
    rcases hsub k s' hs' with hold | ⟨hsnap, n, -, b, hb, rfl⟩
    · rw [hnone] at hold
      cases hold
    · refine ⟨hsnap, ?_⟩
      obtain ⟨k', -, hb'⟩ := Option.bind_eq_some_iff.mp hb
      rw [hL.inv.keyed k' b hb']
      exact hL.only k' b hb'
  have hmem : InMemory g z zs { store₁ with snapshots := t } := by
    refine hL.inMemory hd.entries fun y ys s' hsuf hs' => ?_
    obtain ⟨snap, hsnap, rfl⟩ := Option.map_eq_some_iff.mp (hget y.hash s' hs').1
    exact hd.snapshots y ys snap hsuf hsnap
  refine ⟨{ store₁ with snapshots := t }, ?_, hmem, hL.blocks, fun y hy => ?_,
    fun k s' hs' => (hget k s' hs').2⟩
  · unfold ChainPersist.loadInto
    simp only [hhead, hblock, hzero, hgen, hnum, hfold, hsnaps]
    rw [if_neg (not_not.mpr hhash)]
  · show t[y.hash]? = _
    cases hs : persist.getSnapshot y.hash with
    | none =>
      cases hty : t[y.hash]? with
      | none => rfl
      | some s' =>
        rw [(hget _ s' hty).1] at hs
        cases hs
    | some s' =>
      have hv := ((hd.entries y hy).version_of).hash_eq
      have := hall y.header.number
        (mem_heightsBetween.mpr ⟨UInt64.zero_le, hh.number_le z zs rfl y hy⟩)
        (persist.db.version y) s' (hcanon y hy) (by rw [hv]; exact hs)
      rwa [hv] at this

/-- **A node starts from the snapshot of the newest block.** -/
theorem OnDisk.runNode (hd : OnDisk g z zs persist.db) (hh : History g (z :: zs) s)
    (hlen : (z :: zs).length < 2 ^ 64) {snap : StateSnapshot}
    (hsnap : persist.db.snapshots[z.hash]? = some snap) :
    ∃ store, Node.runNode g persist = .ok ⟨⟨store, s, TransactionPool.new⟩, ∅, persist⟩
      ∧ Reloaded g z zs persist store := by
  obtain ⟨store, hload, hr⟩ := hd.loadInto hh hlen
  have hs : StateDB.fromSnapshot snap = s :=
    (hd.snapshots z zs snap List.suffix_rfl hsnap).unique hh
  have hstate : store.snapshots[z.hash]? = some s := by
    rw [hr.snapshot z List.mem_cons_self, ChainPersist.getSnapshot, hsnap, Option.map_some, hs]
  refine ⟨store, ?_, hr⟩
  unfold Node.runNode
  simp only [hload, hr.head, Option.bind_some, stateAt, hstate, Option.map_some, StateDB.fork_eq]
  rfl

end Loading

/-! ### Writing -/

section Writing

variable [Keccak] [Ed25519] [Wasmi] {g : Genesis} {z : Block} {zs : List Block} {store : BlockStore}
  {s : StateDB} {persist : ChainPersist} {block : Block}

/-- The writes for a block of the history, whose version in memory is `x`. -/
def ChainPersist.BodyWrite (persist : ChainPersist) (head : UInt64) (y x : Block) (w : ChainWrite) :
    Prop :=
  (persist.Keeps head y.header.number ∧ w = .block x)
    ∨ (¬ persist.Keeps head y.header.number ∧ (w = .header y.header ∨ w = .dropBlock y.hash))
    ∨ w = .height y.header.number y.hash

/-- **What `persist_canonical` writes** for a store that holds a history. -/
theorem InMemory.mem_canonicalWrites (hm : InMemory g z zs store) (hh : History g (z :: zs) s)
    (hlen : (z :: zs).length < 2 ^ 64) {w : ChainWrite} :
    w ∈ persist.canonicalWrites store block ↔ w = .block block ∨ w = .head z.hash
      ∨ ∃ y ∈ z :: zs, ∃ x, store.getBlock y.hash = some x ∧ x.VersionOf y
        ∧ (persist.BodyWrite z.header.number y x w ∨ w ∈ ChainPersist.snapshotWrites store x) := by
  obtain ⟨head, hhead, -, hv⟩ := hm.headBlock
  rw [ChainPersist.mem_canonicalWrites hhead, hv.hash_eq, hv.header_eq]
  refine or_congr_right (or_congr_right ⟨?_, ?_⟩)
  · rintro ⟨m, x, -, hx, hw⟩
    obtain ⟨k, hk, hget⟩ := Option.bind_eq_some_iff.mp hx
    obtain ⟨y, hy, rfl, rfl⟩ := (hm.byNumber_eq_some hh hlen).mp hk
    obtain ⟨x', hx', hv'⟩ := hm.blocks y hy
    cases hget.symm.trans hx'
    rw [ChainPersist.mem_blockWrites, hv.header_eq, hv'.header_eq, hv'.hash_eq] at hw
    exact ⟨y, hy, x, hget, hv', hw⟩
  · rintro ⟨y, hy, x, hget, hv', hw⟩
    refine ⟨y.header.number, x, hh.number_le z zs rfl y hy, ?_, ?_⟩
    · rw [hm.getBlockByNumber_eq hh hlen hy, hget]
    · rw [ChainPersist.mem_blockWrites, hv.header_eq, hv'.header_eq, hv'.hash_eq]
      exact hw

section Effects

variable (hm : InMemory g z zs store) (hh : History g (z :: zs) s)
  (hlen : (z :: zs).length < 2 ^ 64) {w : ChainWrite}
  (hw : w ∈ persist.canonicalWrites store block)

include hm hh hlen hw

/-! What a write of `persist_canonical` sets. -/

theorem InMemory.onHead_eq_some {r : Option H256} (hr : w.onHead = some r) :
    r = some z.hash ∧ w = .head z.hash := by
  rcases (hm.mem_canonicalWrites hh hlen).mp hw with rfl | rfl | ⟨y, -, x, -, -, hw | hw⟩
  · cases hr
  · cases hr
    exact ⟨rfl, rfl⟩
  · rcases hw with ⟨-, rfl⟩ | ⟨-, rfl | rfl⟩ | rfl <;> cases hr
  · rcases ChainPersist.mem_snapshotWrites hw with ⟨_, _, rfl⟩ | ⟨_, -, rfl⟩ <;> cases hr

theorem InMemory.onBlocks_eq_some {k : H256} {r : Option Block} (hr : w.onBlocks k = some r) :
    (k = block.hash ∧ r = some block)
      ∨ ∃ y ∈ z :: zs, ∃ x, store.getBlock y.hash = some x ∧ y.hash = k
        ∧ ((persist.Keeps z.header.number y.header.number ∧ r = some x)
          ∨ (¬ persist.Keeps z.header.number y.header.number ∧ r = none
            ∧ w = .dropBlock y.hash)) := by
  rcases (hm.mem_canonicalWrites hh hlen).mp hw with rfl | rfl | ⟨y, hy, x, hx, hv, hw | hw⟩
  · simp only [ChainWrite.onBlocks, Option.ite_none_right_eq_some, Option.some.injEq] at hr
    exact .inl ⟨hr.1, hr.2.symm⟩
  · cases hr
  · refine .inr ⟨y, hy, x, hx, ?_⟩
    rcases hw with ⟨hk, rfl⟩ | ⟨hk, rfl | rfl⟩ | rfl
    · simp only [ChainWrite.onBlocks, Option.ite_none_right_eq_some, Option.some.injEq] at hr
      exact ⟨by rw [hr.1, hv.hash_eq], .inl ⟨hk, hr.2.symm⟩⟩
    · cases hr
    · simp only [ChainWrite.onBlocks, Option.ite_none_right_eq_some, Option.some.injEq] at hr
      exact ⟨hr.1.symm, .inr ⟨hk, hr.2.symm, rfl⟩⟩
    · cases hr
  · rcases ChainPersist.mem_snapshotWrites hw with ⟨_, _, rfl⟩ | ⟨_, -, rfl⟩ <;> cases hr

theorem InMemory.onHeaders_eq_some {k : H256} {r : Option BlockHeader}
    (hr : w.onHeaders k = some r) : ∃ y ∈ z :: zs, y.hash = k ∧ r = some y.header := by
  rcases (hm.mem_canonicalWrites hh hlen).mp hw with rfl | rfl | ⟨y, hy, x, -, -, hw | hw⟩
  · cases hr
  · cases hr
  · rcases hw with ⟨-, rfl⟩ | ⟨-, rfl | rfl⟩ | rfl
    · cases hr
    · simp only [ChainWrite.onHeaders, Option.ite_none_right_eq_some, Option.some.injEq] at hr
      exact ⟨y, hy, hr.1.symm, hr.2.symm⟩
    · cases hr
    · cases hr
  · rcases ChainPersist.mem_snapshotWrites hw with ⟨_, _, rfl⟩ | ⟨_, -, rfl⟩ <;> cases hr

theorem InMemory.onHeights_eq_some {m : UInt64} {r : Option H256} (hr : w.onHeights m = some r) :
    ∃ y ∈ z :: zs, y.header.number = m ∧ r = some y.hash
      ∧ w = .height y.header.number y.hash := by
  rcases (hm.mem_canonicalWrites hh hlen).mp hw with rfl | rfl | ⟨y, hy, x, -, -, hw | hw⟩
  · cases hr
  · cases hr
  · rcases hw with ⟨-, rfl⟩ | ⟨-, rfl | rfl⟩ | rfl
    · cases hr
    · cases hr
    · cases hr
    · simp only [ChainWrite.onHeights, Option.ite_none_right_eq_some, Option.some.injEq] at hr
      exact ⟨y, hy, hr.1.symm, hr.2.symm, rfl⟩
  · rcases ChainPersist.mem_snapshotWrites hw with ⟨_, _, rfl⟩ | ⟨_, -, rfl⟩ <;> cases hr

theorem InMemory.onSnapshots_eq_some {k : H256} {r : Option StateSnapshot}
    (hr : w.onSnapshots k = some r) : ∃ y ∈ z :: zs, y.hash = k
      ∧ ∃ s', store.snapshots[k]? = some s' ∧ r = some s'.trieNodes.2.toSnapshot := by
  rcases (hm.mem_canonicalWrites hh hlen).mp hw with rfl | rfl | ⟨y, hy, x, -, hv, hw | hw⟩
  · cases hr
  · cases hr
  · rcases hw with ⟨-, rfl⟩ | ⟨-, rfl | rfl⟩ | rfl <;> cases hr
  · rcases ChainPersist.mem_snapshotWrites hw with ⟨_, _, rfl⟩ | ⟨s', hs', rfl⟩
    · cases hr
    · simp only [ChainWrite.onSnapshots, Option.ite_none_right_eq_some, Option.some.injEq] at hr
      obtain ⟨rfl, rfl⟩ := hr
      exact ⟨y, hy, hv.hash_eq.symm, s', hs', rfl⟩

end Effects

/-- The block that is persisted is the newest of the history, or not on it. -/
def Newest (z : Block) (zs : List Block) (store : BlockStore) (block : Block) : Prop :=
  ∀ y ∈ z :: zs, y.hash = block.hash → y = z ∧ store.getBlock z.hash = some block

/-- **The entry of a block after its writes**: its version in memory if the body is kept, else its
header. -/
theorem InMemory.entry (hm : InMemory g z zs store) (hh : History g (z :: zs) s)
    (hlen : (z :: zs).length < 2 ^ 64) (hkeep : 0 < persist.archiveKeep)
    (hnew : Newest z zs store block) {ws : List ChainWrite} (db : ChainDb)
    (hsub : ∀ w ∈ ws, w ∈ persist.canonicalWrites store block) {y x : Block} (hy : y ∈ z :: zs)
    (hx : store.getBlock y.hash = some x)
    (hval : persist.Keeps z.header.number y.header.number → x.validate = .ok ())
    (hbody : ∀ w, persist.BodyWrite z.header.number y x w → w ∈ ws) :
    (ws.foldl ChainDb.write db).Entry y
      ∧ (persist.Keeps z.header.number y.header.number →
        (ws.foldl ChainDb.write db).blocks[y.hash]? = some x)
      ∧ (¬ persist.Keeps z.header.number y.header.number →
        (ws.foldl ChainDb.write db).blocks[y.hash]? = none) := by
  obtain ⟨x', hx', hv⟩ := hm.blocks y hy
  cases hx.symm.trans hx'
  have hheight : (ws.foldl ChainDb.write db).heights[y.header.number]? = some y.hash := by
    refine (ChainWrite.observes_heights _).foldl_of_set db (fun w hw r hr => ?_)
      (hbody _ (.inr (.inr rfl))) (if_pos rfl)
    obtain ⟨y', hy', hnum, hr, -⟩ := hm.onHeights_eq_some hh hlen (hsub w hw) hr
    rw [hr, hh.eq_of_number_eq hlen.le hy' hy hnum]
  -- what is written under the hash of the block
  have heff : ∀ w ∈ ws, ∀ r, w.onBlocks y.hash = some r →
      (persist.Keeps z.header.number y.header.number ∧ r = some x)
        ∨ (¬ persist.Keeps z.header.number y.header.number ∧ r = none) := by
    intro w hw r hr
    rcases hm.onBlocks_eq_some hh hlen (hsub w hw) hr with ⟨heq, rfl⟩ | ⟨y', hy', x', hx', heq, hr⟩
    · obtain ⟨rfl, hz⟩ := hnew y hy heq
      cases hx.symm.trans hz
      exact .inl ⟨ChainPersist.keeps_self hkeep _, rfl⟩
    · cases hh.eq_of_hash_eq hy' hy heq
      cases hx.symm.trans hx'
      exact hr.imp_right fun hr => ⟨hr.1, hr.2.1⟩
  by_cases hk : persist.Keeps z.header.number y.header.number
  · have hblock : (ws.foldl ChainDb.write db).blocks[y.hash]? = some x := by
      refine (ChainWrite.observes_blocks _).foldl_of_set db (fun w hw r hr => ?_)
        (hbody _ (.inl ⟨hk, rfl⟩)) (if_pos hv.hash_eq.symm)
      exact (heff w hw r hr).elim And.right fun hr => absurd hk hr.1
    exact ⟨⟨hheight, .inl ⟨x, hblock, hv, hval hk⟩⟩, fun _ => hblock, fun hk' => absurd hk hk'⟩
  · have hblock : (ws.foldl ChainDb.write db).blocks[y.hash]? = none := by
      refine (ChainWrite.observes_blocks _).foldl_of_set db (fun w hw r hr => ?_)
        (hbody _ (.inr (.inl ⟨hk, .inr rfl⟩))) (if_pos rfl)
      exact (heff w hw r hr).elim (fun hr => absurd hr.1 hk) And.right
    refine ⟨⟨hheight, .inr ⟨hblock, ?_⟩⟩, fun hk' => absurd hk' hk, fun _ => hblock⟩
    refine (ChainWrite.observes_headers _).foldl_of_set db (fun w hw r hr => ?_)
      (hbody _ (.inr (.inl ⟨hk, .inl rfl⟩))) (if_pos rfl)
    obtain ⟨y', hy', heq, hr⟩ := hm.onHeaders_eq_some hh hlen (hsub w hw) hr
    rw [hr, hh.eq_of_hash_eq hy' hy heq]

/-- **The snapshots after the writes** are states of the history, if those that were there before
are. Nothing is asked of the newest block if its snapshot is written. -/
theorem InMemory.snapshots_of_writes (hm : InMemory g z zs store) (hh : History g (z :: zs) s)
    (hlen : (z :: zs).length < 2 ^ 64) (hg : g.state.RootsCurrent) {ws : List ChainWrite}
    {db : ChainDb} (hsub : ∀ w ∈ ws, w ∈ persist.canonicalWrites store block)
    {y : Block} {ys : List Block} (hsuf : y :: ys <:+ z :: zs)
    (hold : (∃ snap, ChainWrite.snapshot y.hash snap ∈ ws)
      ∨ ∀ snap, db.snapshots[y.hash]? = some snap →
        History g (y :: ys) (StateDB.fromSnapshot snap)) :
    ∀ snap, (ws.foldl ChainDb.write db).snapshots[y.hash]? = some snap →
      History g (y :: ys) (StateDB.fromSnapshot snap) := by
  refine (ChainWrite.observes_snapshots y.hash).foldl_induction
    (Q := fun r => ∀ snap, r = some snap → History g (y :: ys) (StateDB.fromSnapshot snap)) ws db
    (fun w hw r hr snap hsnap => ?_) (hold.imp_left ?_)
  · obtain ⟨-, -, -, s', hs', rfl⟩ := hm.onSnapshots_eq_some hh hlen (hsub w hw) hr
    cases hsnap
    have hhist := hm.snapshots y ys s' hsuf hs'
    rwa [hhist.fromSnapshot_trieNodes hg]
  · rintro ⟨snap, hmem⟩
    exact ⟨_, hmem, _, if_pos rfl⟩

theorem InMemory.head_of_writes (hm : InMemory g z zs store) (hh : History g (z :: zs) s)
    (hlen : (z :: zs).length < 2 ^ 64) {ws : List ChainWrite} {db : ChainDb}
    (hsub : ∀ w ∈ ws, w ∈ persist.canonicalWrites store block)
    (hhead : ChainWrite.head z.hash ∈ ws) : (ws.foldl ChainDb.write db).head = some z.hash :=
  ChainWrite.observes_head.foldl_of_set db
    (fun w hw _ hr => (hm.onHead_eq_some hh hlen (hsub w hw) hr).1) hhead rfl

/-- **The database after the writes holds the history.**  `ws` has the writes for the head and for
the blocks, and some of those for the snapshots. -/
theorem InMemory.onDisk (hm : InMemory g z zs store) (hh : History g (z :: zs) s)
    (hlen : (z :: zs).length < 2 ^ 64) (hg : g.state.RootsCurrent) (hkeep : 0 < persist.archiveKeep)
    (hnew : Newest z zs store block)
    (hval : ∀ y ∈ z :: zs, persist.Keeps z.header.number y.header.number →
      ∀ x, store.getBlock y.hash = some x → x.validate = .ok ())
    {ws : List ChainWrite} {db : ChainDb}
    (hsub : ∀ w ∈ ws, w ∈ persist.canonicalWrites store block)
    (hhead : ChainWrite.head z.hash ∈ ws)
    (hbody : ∀ y ∈ z :: zs, ∀ x, store.getBlock y.hash = some x →
      ∀ w, persist.BodyWrite z.header.number y x w → w ∈ ws)
    (hold : ∀ y ys snap, y :: ys <:+ zs → db.snapshots[y.hash]? = some snap →
      History g (y :: ys) (StateDB.fromSnapshot snap))
    (htip : (∃ snap, ChainWrite.snapshot z.hash snap ∈ ws)
      ∨ ∀ snap, db.snapshots[z.hash]? = some snap →
        History g (z :: zs) (StateDB.fromSnapshot snap)) :
    OnDisk g z zs (ws.foldl ChainDb.write db)
      ∧ ∀ y ∈ z :: zs, ∀ x, store.getBlock y.hash = some x →
        (persist.Keeps z.header.number y.header.number →
          (ws.foldl ChainDb.write db).blocks[y.hash]? = some x)
        ∧ (¬ persist.Keeps z.header.number y.header.number →
          (ws.foldl ChainDb.write db).blocks[y.hash]? = none) := by
  have hentry := fun y hy x hx => hm.entry hh hlen hkeep hnew db hsub hy hx
    (fun hk => hval y hy hk x hx) (hbody y hy x hx)
  refine ⟨⟨?_, fun y hy => ?_, ?_, fun y ys snap hsuf => ?_⟩, fun y hy x hx => (hentry y hy x hx).2⟩
  · obtain ⟨x, hx, hv⟩ := hm.blocks z List.mem_cons_self
    exact ⟨z.hash, x, hm.head_of_writes hh hlen hsub hhead,
      (hentry z List.mem_cons_self x hx).2.1 (ChainPersist.keeps_self hkeep _),
      by rw [hv.header_eq]⟩
  · obtain ⟨x, hx, -⟩ := hm.blocks y hy
    exact (hentry y hy x hx).1
  · obtain ⟨x, hx, -⟩ := hm.blocks g.block hh.genesis_mem
    exact ⟨x, (hentry g.block hh.genesis_mem x hx).2.1 (.inr (.inl g.number))⟩
  · refine hm.snapshots_of_writes hh hlen hg hsub hsuf ?_ snap
    rcases List.suffix_cons_iff.mp hsuf with heq | hsuf'
    · cases heq
      exact htip
    · exact .inr fun snap => hold y ys snap hsuf'

/-- **`persist_canonical`**: the database then holds the history, with the snapshot of the newest
block and the versions in memory of all blocks whose bodies are kept. -/
theorem InMemory.persistCanonical (hm : InMemory g z zs store) (hh : History g (z :: zs) s)
    (hlen : (z :: zs).length < 2 ^ 64) (hg : g.state.RootsCurrent) (hkeep : 0 < persist.archiveKeep)
    (hnew : Newest z zs store block) (hstate : store.snapshots[z.hash]? = some s)
    (hval : ∀ y ∈ z :: zs, persist.Keeps z.header.number y.header.number →
      ∀ x, store.getBlock y.hash = some x → x.validate = .ok ())
    (hold : ∀ y ys snap, y :: ys <:+ zs → persist.db.snapshots[y.hash]? = some snap →
      History g (y :: ys) (StateDB.fromSnapshot snap)) :
    OnDisk g z zs (persist.persistCanonical store block).db
      ∧ (persist.persistCanonical store block).db.head = some z.hash
      ∧ (persist.persistCanonical store block).getSnapshot z.hash = some s
      ∧ ∀ y ∈ z :: zs, ∀ x, store.getBlock y.hash = some x →
        persist.Keeps z.header.number y.header.number →
        (persist.persistCanonical store block).db.blocks[y.hash]? = some x := by
  have hmem : ∀ {w : ChainWrite}, w ∈ persist.canonicalWrites store block ↔ _ :=
    hm.mem_canonicalWrites hh hlen
  obtain ⟨x, hx, hv⟩ := hm.blocks z List.mem_cons_self
  have hsnap : ChainWrite.snapshot z.hash s.trieNodes.2.toSnapshot
      ∈ persist.canonicalWrites store block := by
    refine hmem.mpr (.inr (.inr ⟨z, List.mem_cons_self, x, hx, hv, .inr ?_⟩))
    rw [← hv.hash_eq] at hstate ⊢
    exact ChainPersist.snapshot_mem_snapshotWrites hstate
  have hget : (persist.persistCanonical store block).getSnapshot z.hash = some s := by
    have hset : ((persist.canonicalWrites store block).foldl ChainDb.write
        persist.db).snapshots[z.hash]? = some s.trieNodes.2.toSnapshot := by
      refine (ChainWrite.observes_snapshots z.hash).foldl_of_set persist.db
        (fun w hw r hr => ?_) hsnap
        (if_pos rfl)
      obtain ⟨-, -, -, s', hs', rfl⟩ := hm.onSnapshots_eq_some hh hlen hw hr
      cases hstate.symm.trans hs'
      rfl
    rw [ChainPersist.getSnapshot, ChainPersist.persistCanonical, hset, Option.map_some,
      hh.fromSnapshot_trieNodes hg]
  have hbody : ∀ y ∈ z :: zs, ∀ x, store.getBlock y.hash = some x →
      ∀ w, persist.BodyWrite z.header.number y x w → w ∈ persist.canonicalWrites store block := by
    intro y hy x hx w hw
    obtain ⟨x', hx', hv'⟩ := hm.blocks y hy
    cases hx.symm.trans hx'
    exact hmem.mpr (.inr (.inr ⟨y, hy, x, hx, hv', .inl hw⟩))
  have hhead : ChainWrite.head z.hash ∈ persist.canonicalWrites store block :=
    hmem.mpr (.inr (.inl rfl))
  obtain ⟨hdisk, hfull⟩ := hm.onDisk hh hlen hg hkeep hnew hval (fun w hw => hw) hhead hbody hold
    (.inl ⟨_, hsnap⟩)
  exact ⟨hdisk, hm.head_of_writes hh hlen (fun w hw => hw) hhead, hget,
    fun y hy x hx => (hfull y hy x hx).1⟩

end Writing

end Ivory
