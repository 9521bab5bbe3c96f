import Ivory.Base.Writes
import Ivory.Chain.Store

/-!
# The chain on disk

`ChainPersist` of the node binary: the canonical chain in a key-value database.
Keys start with a letter that says what they are for, so the database is one
table for each letter; values are kept decoded.  `persist_canonical` is a list
of writes in the order of the source, applied one after the other; `load_into`
rebuilds a `BlockStore` from what was written.

Reads and writes that fail in the database itself are not modelled.
-/

namespace Ivory

/-- What the database holds: the head, blocks and headers by hash, the canonical hash at each
height, snapshots by block hash, and trie nodes. -/
structure ChainDb where
  head : Option H256
  blocks : Table H256 Block
  headers : Table H256 BlockHeader
  heights : Table UInt64 H256
  snapshots : Table H256 StateSnapshot
  trieNodes : Table H256 (List UInt8)

/-- A database in which nothing was written. -/
def ChainDb.empty : ChainDb := ⟨none, ∅, ∅, ∅, ∅, ∅⟩

/-- One write. -/
inductive ChainWrite
  | head (hash : H256)
  | block (b : Block)
  | header (h : BlockHeader)
  | dropBlock (hash : H256)
  | height (number : UInt64) (hash : H256)
  | snapshot (hash : H256) (snap : StateSnapshot)
  | trieNode (hash : H256) (bytes : List UInt8)

/-- The chain on disk, with the policy it was opened with. -/
structure ChainPersist where
  db : ChainDb
  archive : Bool
  archiveKeep : UInt64

/-- Reasons why a database cannot be loaded. -/
inductive LoadError
  | headBlockMissing
  | genesisMissing
  | genesisMismatch (persisted expected : H256)
  | reloadGenesis (e : ChainError)
  | reloadBlock (number : UInt64) (e : ChainError)
  | heightMissing (number : UInt64)
  | prunedHeaderMissing (number : UInt64)
  | reloadHeader (number : UInt64) (e : ChainError)
deriving DecidableEq

/-- The heights from `first` to `last`, both included. -/
def heightsBetween (first last : UInt64) : List UInt64 :=
  (List.range' first.toNat (last.toNat + 1 - first.toNat)).map UInt64.ofNat

section

variable [Keccak]

/-- The database after one write. -/
def ChainDb.write (db : ChainDb) : ChainWrite → ChainDb
  | .head hash => { db with head := some hash }
  | .block b => { db with blocks := db.blocks.insert b.hash b }
  | .header h => { db with headers := db.headers.insert h.hash h }
  | .dropBlock hash => { db with blocks := db.blocks.erase hash }
  | .height number hash => { db with heights := db.heights.insert number hash }
  | .snapshot hash snap => { db with snapshots := db.snapshots.insert hash snap }
  | .trieNode hash bytes => { db with trieNodes := db.trieNodes.insert hash bytes }

/-! ### What a write sets -/

namespace ChainWrite

/-- The head that a write sets. -/
def onHead : ChainWrite → Option (Option H256)
  | .head hash => some (some hash)
  | _ => none

/-- What a write leaves under the hash of a block. -/
def onBlocks (h : H256) : ChainWrite → Option (Option Block)
  | .block b => if h = b.hash then some (some b) else none
  | .dropBlock hash => if h = hash then some none else none
  | _ => none

/-- What a write leaves under the hash of a header. -/
def onHeaders (h : H256) : ChainWrite → Option (Option BlockHeader)
  | .header hd => if h = hd.hash then some (some hd) else none
  | _ => none

/-- The hash that a write sets at a height. -/
def onHeights (m : UInt64) : ChainWrite → Option (Option H256)
  | .height number hash => if m = number then some (some hash) else none
  | _ => none

/-- The snapshot that a write sets. -/
def onSnapshots (h : H256) : ChainWrite → Option (Option StateSnapshot)
  | .snapshot hash snap => if h = hash then some (some snap) else none
  | _ => none

theorem observes_head : Observes ChainDb.write ChainDb.head onHead := by
  intro db w
  cases w <;> rfl

theorem observes_blocks (h : H256) :
    Observes ChainDb.write (fun db => db.blocks[h]?) (onBlocks h) := by
  intro db w
  cases w with
  | block b =>
    simp only [ChainDb.write, onBlocks, Table.get_insert]
    split <;> rfl
  | dropBlock hash =>
    simp only [ChainDb.write, onBlocks, Table.get_erase]
    split <;> rfl
  | _ => rfl

theorem observes_headers (h : H256) :
    Observes ChainDb.write (fun db => db.headers[h]?) (onHeaders h) := by
  intro db w
  cases w with
  | header hd =>
    simp only [ChainDb.write, onHeaders, Table.get_insert]
    split <;> rfl
  | _ => rfl

theorem observes_heights (m : UInt64) :
    Observes ChainDb.write (fun db => db.heights[m]?) (onHeights m) := by
  intro db w
  cases w with
  | height number hash =>
    simp only [ChainDb.write, onHeights, Table.get_insert]
    split <;> rfl
  | _ => rfl

theorem observes_snapshots (h : H256) :
    Observes ChainDb.write (fun db => db.snapshots[h]?) (onSnapshots h) := by
  intro db w
  cases w with
  | snapshot hash snap =>
    simp only [ChainDb.write, onSnapshots, Table.get_insert]
    split <;> rfl
  | _ => rfl

end ChainWrite

end

theorem mem_heightsBetween {first last m : UInt64} :
    m ∈ heightsBetween first last ↔ first ≤ m ∧ m ≤ last := by
  rw [heightsBetween, List.mem_map, UInt64.le_iff_toNat_le, UInt64.le_iff_toNat_le]
  constructor
  · rintro ⟨n, hn, rfl⟩
    rw [List.mem_range'_1] at hn
    have := last.toNat_lt
    rw [UInt64.toNat_ofNat', Nat.mod_eq_of_lt (by omega)]
    omega
  · intro h
    exact ⟨m.toNat, List.mem_range'_1.mpr (by omega), UInt64.ofNat_toNat⟩

theorem heightsBetween_cons {first last : UInt64} (hle : first ≤ last) :
    heightsBetween first last = first ::
      (List.range' (first.toNat + 1) (last.toNat - first.toNat)).map UInt64.ofNat := by
  rw [UInt64.le_iff_toNat_le] at hle
  have hlen : last.toNat + 1 - first.toNat = (last.toNat - first.toNat) + 1 := by omega
  rw [heightsBetween, hlen, List.range'_succ, List.map_cons, UInt64.ofNat_toNat]

theorem heightsBetween_succ {first last last' : UInt64} (h : last'.toNat = last.toNat + 1)
    (hle : first ≤ last') : heightsBetween first last' = heightsBetween first last ++ [last'] := by
  rw [UInt64.le_iff_toNat_le] at hle
  have hlen : last'.toNat + 1 - first.toNat = (last.toNat + 1 - first.toNat) + 1 := by omega
  have hlast : first.toNat + 1 * (last.toNat + 1 - first.toNat) = last'.toNat := by omega
  rw [heightsBetween, heightsBetween, hlen, List.range'_concat, List.map_append, hlast,
    List.map_singleton, UInt64.ofNat_toNat]

theorem heightsBetween_zero_eq (last : UInt64) :
    ∃ ms, heightsBetween 0 last = ms ++ [last] ∧ last ∉ ms := by
  refine ⟨(List.range' 0 last.toNat).map UInt64.ofNat, ?_, fun hmem => ?_⟩
  · rw [heightsBetween, UInt64.toNat_zero, Nat.sub_zero, List.range'_concat, List.map_append,
      List.map_singleton, Nat.zero_add, Nat.one_mul, UInt64.ofNat_toNat]
  · obtain ⟨i, hi, heq⟩ := List.mem_map.mp hmem
    rw [List.mem_range'_1] at hi
    have hlast := last.toNat_lt
    rw [← UInt64.toNat_inj, UInt64.toNat_ofNat', Nat.mod_eq_of_lt (by omega)] at heq
    omega

namespace ChainPersist

/-- `open_with`: at least one snapshot is kept. -/
def openWith (db : ChainDb) (archive : Bool) (archiveKeep : UInt64) : ChainPersist :=
  ⟨db, archive, max archiveKeep 1⟩

theorem archiveKeep_openWith (db : ChainDb) (archive : Bool) (archiveKeep : UInt64) :
    0 < (openWith db archive archiveKeep).archiveKeep := by
  show 0 < if archiveKeep ≤ 1 then (1 : UInt64) else archiveKeep
  split
  · decide
  · next h =>
    rw [UInt64.not_le] at h
    exact UInt64.lt_trans (by decide) h

/-- `get_block_by_height`. -/
def getBlockByHeight (persist : ChainPersist) (number : UInt64) : Option Block :=
  persist.db.heights[number]?.bind fun hash => persist.db.blocks[hash]?

/-- `get_snapshot`. -/
def getSnapshot (persist : ChainPersist) (hash : H256) : Option StateDB :=
  persist.db.snapshots[hash]?.map StateDB.fromSnapshot

section Writing

variable [Keccak]

/-- The writes for the canonical block at a height: the block if its body is kept, else its
header alone. -/
def blockWrites (persist : ChainPersist) (head : Block) (number : UInt64) (b : Block) :
    List ChainWrite :=
  (if persist.archive ∨ number = 0
      ∨ head.header.number.saturatingSub number < persist.archiveKeep then [.block b]
    else [.header b.header, .dropBlock b.hash]) ++ [.height number b.hash]

/-- `persist_trie_nodes`. -/
def trieWrites (nodes : Written) : List ChainWrite := nodes.map fun e => .trieNode e.1 e.2

/-- The writes for the snapshot of a canonical block, if there is one. -/
def snapshotWrites (store : BlockStore) (b : Block) : List ChainWrite :=
  match store.stateAt b.hash with
  | none => []
  | some state =>
    trieWrites state.trieNodes.1 ++ [.snapshot b.hash state.trieNodes.2.toSnapshot]

/-- The canonical blocks at the given heights, as `persist_canonical` visits them. -/
def canonicalAt (store : BlockStore) (ms : List UInt64) : List (UInt64 × Block) :=
  ms.filterMap fun n => (store.getBlockByNumber n).map fun b => (n, b)

/-- The writes of `persist_canonical`, in order. -/
def canonicalWrites (persist : ChainPersist) (store : BlockStore) (block : Block) :
    List ChainWrite :=
  .block block ::
    match store.headBlock with
    | none => []
    | some head =>
      let canonical := canonicalAt store (heightsBetween 0 head.header.number)
      .head head.hash :: (canonical.flatMap fun e => persist.blockWrites head e.1 e.2)
        ++ canonical.flatMap fun e => snapshotWrites store e.2

/-- `persist_canonical`. -/
def persistCanonical (persist : ChainPersist) (store : BlockStore) (block : Block) : ChainPersist :=
  { persist with db := (persist.canonicalWrites store block).foldl ChainDb.write persist.db }

/-- `persist_trie_nodes` on its own. -/
def persistTrieNodes (persist : ChainPersist) (nodes : Written) : ChainPersist :=
  { persist with db := (trieWrites nodes).foldl ChainDb.write persist.db }

/-! ### What is written -/

/-- The body of the block at a height is kept, below a head of the given height. -/
def Keeps (persist : ChainPersist) (head number : UInt64) : Prop :=
  persist.archive = true ∨ number = 0 ∨ head.saturatingSub number < persist.archiveKeep

/-- Two handles to a database with the same policy. -/
structure SamePolicy (persist persist' : ChainPersist) : Prop where
  archive : persist'.archive = persist.archive
  archiveKeep : persist'.archiveKeep = persist.archiveKeep

omit [Keccak] in
theorem SamePolicy.keeps_iff {persist persist' : ChainPersist} (h : SamePolicy persist persist')
    (head number : UInt64) : persist'.Keeps head number ↔ persist.Keeps head number := by
  rw [Keeps, Keeps, h.archive, h.archiveKeep]

theorem samePolicy_persist (persist : ChainPersist) (store : BlockStore) (block : Block)
    (nodes : Written) :
    SamePolicy persist ((persist.persistCanonical store block).persistTrieNodes nodes) := by
  unfold persistTrieNodes persistCanonical
  exact ⟨rfl, rfl⟩

omit [Keccak] in
theorem keeps_self {persist : ChainPersist} (hkeep : 0 < persist.archiveKeep) (n : UInt64) :
    persist.Keeps n n := by
  refine .inr (.inr ?_)
  rw [UInt64.lt_iff_toNat_lt, UInt64.toNat_saturatingSub, Nat.sub_self]
  exact UInt64.lt_iff_toNat_lt.mp hkeep

theorem mem_blockWrites {persist : ChainPersist} {head b : Block} {m : UInt64} {w : ChainWrite} :
    w ∈ persist.blockWrites head m b ↔ (persist.Keeps head.header.number m ∧ w = .block b)
      ∨ (¬ persist.Keeps head.header.number m ∧ (w = .header b.header ∨ w = .dropBlock b.hash))
      ∨ w = .height m b.hash := by
  unfold blockWrites
  split
  · next hk =>
    have hk : persist.Keeps head.header.number m := hk
    simp [hk]
  · next hk =>
    have hk : ¬ persist.Keeps head.header.number m := hk
    simp [hk, or_assoc]

theorem mem_snapshotWrites {store : BlockStore} {b : Block} {w : ChainWrite}
    (h : w ∈ snapshotWrites store b) : (∃ hash bytes, w = .trieNode hash bytes)
      ∨ ∃ s, store.snapshots[b.hash]? = some s ∧ w = .snapshot b.hash s.trieNodes.2.toSnapshot := by
  unfold snapshotWrites at h
  split at h
  · cases h
  · next state hstate =>
    rcases List.mem_append.mp h with h | h
    · obtain ⟨e, -, rfl⟩ := List.mem_map.mp h
      exact .inl ⟨e.1, e.2, rfl⟩
    · obtain ⟨s, hs, rfl⟩ := Option.map_eq_some_iff.mp hstate
      exact .inr ⟨s, hs, List.mem_singleton.mp h⟩

theorem snapshot_mem_snapshotWrites {store : BlockStore} {b : Block} {s : StateDB}
    (hs : store.snapshots[b.hash]? = some s) :
    .snapshot b.hash s.trieNodes.2.toSnapshot ∈ snapshotWrites store b := by
  rw [snapshotWrites, BlockStore.stateAt, hs]
  exact List.mem_append_right _ (List.mem_singleton_self _)

omit [Keccak] in
theorem mem_canonicalAt {store : BlockStore} {ms : List UInt64} {e : UInt64 × Block} :
    e ∈ canonicalAt store ms ↔ e.1 ∈ ms ∧ store.getBlockByNumber e.1 = some e.2 := by
  simp only [canonicalAt, List.mem_filterMap, Option.map_eq_some_iff]
  constructor
  · rintro ⟨m, hm, b, hb, rfl⟩
    exact ⟨hm, hb⟩
  · rintro ⟨hm, hb⟩
    exact ⟨e.1, hm, e.2, hb, rfl⟩

/-- The writes for a store with a head. -/
theorem canonicalWrites_eq {persist : ChainPersist} {store : BlockStore} {block head : Block}
    (hh : store.headBlock = some head) : persist.canonicalWrites store block
      = .block block :: .head head.hash
        :: (((canonicalAt store (heightsBetween 0 head.header.number)).flatMap fun e =>
            persist.blockWrites head e.1 e.2)
          ++ (canonicalAt store (heightsBetween 0 head.header.number)).flatMap fun e =>
            snapshotWrites store e.2) := by
  rw [canonicalWrites, hh]
  rfl

theorem mem_canonicalWrites {persist : ChainPersist} {store : BlockStore} {block head : Block}
    (hh : store.headBlock = some head) {w : ChainWrite} :
    w ∈ persist.canonicalWrites store block ↔ w = .block block ∨ w = .head head.hash
      ∨ ∃ m b, m ≤ head.header.number ∧ store.getBlockByNumber m = some b
        ∧ (w ∈ persist.blockWrites head m b ∨ w ∈ snapshotWrites store b) := by
  simp only [canonicalWrites_eq hh, List.mem_cons, List.mem_append, List.mem_flatMap,
    mem_canonicalAt, mem_heightsBetween]
  constructor
  · rintro (h | h | ⟨e, ⟨⟨-, hm⟩, hb⟩, hw⟩ | ⟨e, ⟨⟨-, hm⟩, hb⟩, hw⟩)
    · exact .inl h
    · exact .inr (.inl h)
    · exact .inr (.inr ⟨e.1, e.2, hm, hb, .inl hw⟩)
    · exact .inr (.inr ⟨e.1, e.2, hm, hb, .inr hw⟩)
  · rintro (h | h | ⟨m, b, hm, hb, hw | hw⟩)
    · exact .inl h
    · exact .inr (.inl h)
    · exact .inr (.inr (.inl ⟨(m, b), ⟨⟨UInt64.zero_le, hm⟩, hb⟩, hw⟩))
    · exact .inr (.inr (.inr ⟨(m, b), ⟨⟨UInt64.zero_le, hm⟩, hb⟩, hw⟩))

/-! ### The order of the writes -/

theorem header_mem_take {persist : ChainPersist} {store : BlockStore} {block : Block} {h : H256}
    {hd : BlockHeader}
    (hcanon : ∀ m b, store.getBlockByNumber m = some b → b.hash = h → b.header = hd) {k : ℕ}
    (hmem : ChainWrite.dropBlock h ∈ (persist.canonicalWrites store block).take k) :
    ChainWrite.header hd ∈ (persist.canonicalWrites store block).take k := by
  refine Precedes.mem_take ?_ hmem
  cases hhead : store.headBlock with
  | none =>
    rw [canonicalWrites, hhead]
    exact .of_notMem (by simp)
  | some head =>
    rw [canonicalWrites_eq hhead]
    refine .append (l := [ChainWrite.block block, ChainWrite.head head.hash])
      (.of_notMem (by simp)) (.append ?_ ?_)
    · refine .flatMap fun e he => ?_
      obtain ⟨-, hb⟩ := mem_canonicalAt.mp he
      unfold blockWrites
      refine .append ?_ (.of_notMem (by simp))
      split
      · exact .of_notMem (by simp)
      · by_cases hhash : e.2.hash = h
        · rw [hcanon e.1 e.2 hb hhash]
          exact .of_mem (l := [ChainWrite.header hd]) (by simp) (by simp)
        · exact .of_notMem (by simp [Ne.symm hhash])
    · refine .flatMap fun e _ => .of_notMem fun hmem => ?_
      rcases mem_snapshotWrites hmem with ⟨_, _, heq⟩ | ⟨_, -, heq⟩ <;> cases heq

theorem mem_take_of_height {persist : ChainPersist} {store : BlockStore} {block head : Block}
    (hh : store.headBlock = some head)
    (hhead : store.getBlockByNumber head.header.number = some head)
    {k : ℕ} (hmem : ChainWrite.height head.header.number head.hash
      ∈ (persist.canonicalWrites store block).take k) {w : ChainWrite}
    (hw : w = .head head.hash ∨ ∃ m b, m ≤ head.header.number ∧ store.getBlockByNumber m = some b
      ∧ w ∈ persist.blockWrites head m b) : w ∈ (persist.canonicalWrites store block).take k := by
  by_cases hself : w = .height head.header.number head.hash
  · rw [hself]
    exact hmem
  obtain ⟨ms, hms, hnot⟩ := heightsBetween_zero_eq head.header.number
  have hmems : ∀ m, m ≤ head.header.number ↔ m ∈ ms ∨ m = head.header.number := by
    intro m
    rw [← List.mem_singleton, ← List.mem_append, ← hms, mem_heightsBetween,
      and_iff_right UInt64.zero_le]
  obtain ⟨bodies, hlast, hbodies⟩ : ∃ bodies,
      persist.blockWrites head head.header.number head
        = bodies ++ [.height head.header.number head.hash]
      ∧ ChainWrite.height head.header.number head.hash ∉ bodies := by
    refine ⟨_, rfl, ?_⟩
    split <;> simp
  have hsplit : persist.canonicalWrites store block
      = (.block block :: .head head.hash
          :: (((canonicalAt store ms).flatMap fun e => persist.blockWrites head e.1 e.2) ++ bodies))
        ++ .height head.header.number head.hash
          :: (canonicalAt store (heightsBetween 0 head.header.number)).flatMap fun e =>
            snapshotWrites store e.2 := by
    rw [canonicalWrites_eq hh]
    simp [canonicalAt, hms, hhead, hlast]
  refine Precedes.mem_take ?_ hmem
  rw [hsplit]
  refine .of_mem ?_ ?_
  · rcases hw with rfl | ⟨m, b, hm, hb, hw⟩
    · simp
    · refine List.mem_cons_of_mem _ (List.mem_cons_of_mem _ (List.mem_append.mpr ?_))
      rcases (hmems m).mp hm with hm | rfl
      · exact .inl (List.mem_flatMap.mpr ⟨(m, b), mem_canonicalAt.mpr ⟨hm, hb⟩, hw⟩)
      · cases hhead.symm.trans hb
        rw [hlast, List.mem_append, List.mem_singleton] at hw
        exact .inr (hw.resolve_right hself)
  · simp only [List.mem_cons, reduceCtorEq, List.mem_append, false_or, hbodies, or_false]
    intro hmem
    obtain ⟨e, he, hw⟩ := List.mem_flatMap.mp hmem
    rcases mem_blockWrites.mp hw with ⟨-, hw⟩ | ⟨-, hw | hw⟩ | hw
    · cases hw
    · cases hw
    · cases hw
    · rw [(ChainWrite.height.inj hw).1] at hnot
      exact hnot (mem_canonicalAt.mp he).1

end Writing

section Loading

variable [Keccak] [Ed25519]

/-- One height of `load_into`: the block if its body is there, else its header. -/
def loadHeight (persist : ChainPersist) (store : BlockStore) (number : UInt64) :
    Except LoadError BlockStore :=
  match persist.getBlockByHeight number with
  | some block =>
    match store.insertBlock block with
    | (.error e, _) => .error (.reloadBlock number e)
    | (.ok _, store) => .ok store
  | none =>
    match persist.db.heights[number]? with
    | none => .error (.heightMissing number)
    | some hash =>
      match persist.db.headers[hash]? with
      | none => .error (.prunedHeaderMissing number)
      | some header =>
        match store.insertHeader header with
        | (.error e, _) => .error (.reloadHeader number e)
        | (.ok _, store) => .ok store

/-- Record the snapshot of the canonical block at a height, if it was written. -/
def loadSnapshot (persist : ChainPersist) (store : BlockStore) (number : UInt64) : BlockStore :=
  match store.getBlockByNumber number with
  | none => store
  | some block =>
    match persist.getSnapshot block.hash with
    | none => store
    | some snap => store.recordState block.hash snap

/-- `load_into`: the height of the head, or nothing if nothing was written, and the store. -/
def loadInto (persist : ChainPersist) (store : BlockStore) (expectedGenesis : Block) :
    Except LoadError (Option UInt64 × BlockStore) :=
  match persist.db.head with
  | none => .ok (none, store)
  | some headHash =>
    match persist.db.blocks[headHash]? with
    | none => .error .headBlockMissing
    | some head =>
      match persist.getBlockByHeight 0 with
      | none => .error .genesisMissing
      | some genesis =>
        if genesis.hash ≠ expectedGenesis.hash then
          .error (.genesisMismatch genesis.hash expectedGenesis.hash)
        else
          match store.insertGenesis genesis with
          | (.error e, _) => .error (.reloadGenesis e)
          | (.ok _, store) =>
            match (heightsBetween 1 head.header.number).foldlM persist.loadHeight store with
            | .error e => .error e
            | .ok store =>
              .ok (some head.header.number,
                (heightsBetween 0 head.header.number).foldl persist.loadSnapshot store)

end Loading

end ChainPersist

end Ivory
