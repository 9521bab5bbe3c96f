import Ivory.Base.Drawers
import Ivory.Chain.Replay
import Ivory.Network
import Ivory.Persist

/-!
# The chain on disk, as bytes

`persist.rs` of the node binary once more, down to the keys and values that RocksDB holds.  There is
one key space: a key is `head`, or a letter and the bytes of a hash or of a height (the highest byte
first).  A value is a hash or a `bincode` encoding; a snapshot lists its maps in the order in which
an iteration yields them.

Reading can fail where the typed database of `Persist.lean` has nothing that could fail: at a hash
of the wrong length, or at bytes that are no block, header or snapshot.

* `RawPersist.loadInto_agrees`: **after any history of writes, crashes and restarts, the bytes load
  exactly as the typed database does.**
-/

namespace Ivory

/-! ### Entries -/

/-- `H256::from_slice`. -/
def H256.fromSlice (bytes : List UInt8) : Option H256 :=
  if h : bytes.length = 32 then some ⟨bytes, h⟩ else none

@[simp] theorem H256.fromSlice_toList (hash : H256) : H256.fromSlice hash.toList = some hash :=
  dif_pos hash.size

/-- What an entry of the database is. -/
inductive Entry
  | head | height | block | header | snapshot | trieNode
deriving DecidableEq

namespace Entry

/-- What an entry is looked up by. -/
abbrev Key : Entry → Type
  | head => Unit
  | height => UInt64
  | block | header | snapshot | trieNode => H256

/-- What is read from an entry. -/
abbrev Value : Entry → Type
  | head | height => H256
  | block => Block
  | header => BlockHeader
  | snapshot => StateDB
  | trieNode => List UInt8

instance : (e : Entry) → DecidableEq e.Key
  | head => inferInstanceAs (DecidableEq Unit)
  | height => inferInstanceAs (DecidableEq UInt64)
  | block | header | snapshot | trieNode => inferInstanceAs (DecidableEq H256)

/-- Entries under a letter and a hash. -/
def byHash {α : Type} (tag : UInt8) (decode : List UInt8 → Option α) : Drawer H256 α where
  tag := tag
  width := 32
  body hash := hash.toList
  body_length hash := hash.size
  body_injective _ _ h := Arr.ext h
  decode := decode

/-- How an entry is kept: `head`, `height_key`, `block_key`, `header_key`, `snapshot_key` and the
key of a trie node, and how a value is read. -/
def drawer : (e : Entry) → Drawer e.Key e.Value
  | head =>
    { tag := 104
      width := 3
      body := fun _ => [101, 97, 100]
      body_length := fun _ => rfl
      body_injective := fun _ _ _ => rfl
      decode := H256.fromSlice }
  | height =>
    { tag := 104
      width := 8
      body := beBytes
      body_length := fun number => by simp [beBytes]
      body_injective := fun m n h => by
        have h' : leBytes 8 m.toNat = leBytes 8 n.toNat := List.reverse_injective h
        rw [← Codec.encode_word64, ← Codec.encode_word64] at h'
        exact Codec.word64.encode_injective h'
      decode := H256.fromSlice }
  | block => byHash 98 Block.codec.deserialize
  | header => byHash 72 BlockHeader.codec.deserialize
  | snapshot => byHash 115 fun bytes =>
      (SnapshotFile.codec.deserialize bytes).map fun file => StateDB.fromSnapshot file.toSnapshot
  | trieNode => byHash 116 some

theorem decode_snapshot (bytes : List UInt8) : snapshot.drawer.decode bytes
    = (SnapshotFile.codec.deserialize bytes).map fun file => StateDB.fromSnapshot file.toSnapshot :=
  rfl

/-- **Two entries never share a key.** -/
theorem tag_width_ne {e e' : Entry} (h : e ≠ e') :
    (e.drawer.tag, e.drawer.width) ≠ (e'.drawer.tag, e'.drawer.width) := by
  cases e <;> cases e' <;> first | exact absurd rfl h | (simp [drawer, byHash])

end Entry

/-- What RocksDB holds. -/
abbrev RawDb := Table (List UInt8) (List UInt8)

/-- One write. -/
inductive RawWrite
  | put (key value : List UInt8)
  | delete (key : List UInt8)

/-- The database after one write. -/
def RawDb.write (db : RawDb) : RawWrite → RawDb
  | .put key value => db.insert key value
  | .delete key => db.erase key

/-- `ChainPersist`, with the bytes. -/
structure RawPersist where
  db : RawDb
  archive : Bool
  archiveKeep : UInt64

/-- Reasons why a database cannot be loaded. -/
inductive RawLoadError
  | headHashLength
  | heightHashLength
  | decodeBlock
  | decodeHeader
  | decodeSnapshot
  | load (e : LoadError)
deriving DecidableEq

/-- The orders in which `to_snapshot` iterates the maps of a state. -/
structure SnapshotOrder where
  accounts : IterOrder (Address × Account)
  storage : IterOrder (Address × H256 × U256)
  code : IterOrder (Address × Bytes)

namespace StateDB

/-- The snapshot of a state as it is written. -/
def snapshotFile (s : StateDB) (order : SnapshotOrder) : SnapshotFile where
  accounts := .ofList (order.accounts.pick s.toSnapshot.accounts)
  storage := .ofList (order.storage.pick s.toSnapshot.storage)
  code := .ofList (order.code.pick s.toSnapshot.code)

/-- The maps of the state are no longer than a vector can be. -/
structure Fits (s : StateDB) : Prop where
  accounts : s.toSnapshot.accounts.length < 2 ^ 64
  storage : s.toSnapshot.storage.length < 2 ^ 64
  code : s.toSnapshot.code.length < 2 ^ 64

/-- **A state is read back from its snapshot**, in whatever order it was written. -/
theorem fromSnapshot_snapshotFile {s : StateDB} (h : s.Fits) (order : SnapshotOrder) :
    fromSnapshot (s.snapshotFile order).toSnapshot = s := by
  refine fromSnapshot_of_lists ⟨?_, ?_, ?_⟩
  · show (Vec.ofList _).toList.Perm _
    rw [Vec.toList_ofList (by rw [(order.accounts.perm _).length_eq]; exact h.accounts)]
    exact order.accounts.perm _
  · show (Vec.ofList _).toList.Perm _
    rw [Vec.toList_ofList (by rw [(order.storage.perm _).length_eq]; exact h.storage)]
    exact order.storage.perm _
  · show (Vec.ofList _).toList.Perm _
    rw [Vec.toList_ofList (by rw [(order.code.perm _).length_eq]; exact h.code)]
    exact order.code.perm _

end StateDB

namespace RawPersist

/-! ### Reading -/

/-- `get_trie_node`. -/
def getTrieNode (persist : RawPersist) (hash : H256) : Option (List UInt8) :=
  persist.db[Entry.trieNode.drawer.key hash]?

/-- `get_snapshot`. -/
def getSnapshot (persist : RawPersist) (hash : H256) : Except RawLoadError (Option StateDB) :=
  Entry.snapshot.drawer.get .decodeSnapshot persist.db hash

/-- `get_header`. -/
def getHeader (persist : RawPersist) (hash : H256) : Except RawLoadError (Option BlockHeader) :=
  Entry.header.drawer.get .decodeHeader persist.db hash

/-- `get_height_hash`. -/
def getHeightHash (persist : RawPersist) (number : UInt64) : Except RawLoadError (Option H256) :=
  Entry.height.drawer.get .heightHashLength persist.db number

/-- `get_block`. -/
def getBlock (persist : RawPersist) (hash : H256) : Except RawLoadError (Option Block) :=
  Entry.block.drawer.get .decodeBlock persist.db hash

/-- `get_block_by_height`. -/
def getBlockByHeight (persist : RawPersist) (number : UInt64) :
    Except RawLoadError (Option Block) := do
  match ← persist.getHeightHash number with
  | none => pure none
  | some hash => persist.getBlock hash

section Loading

variable [Keccak] [Ed25519]

/-- One height of `load_into`. -/
def loadHeight (persist : RawPersist) (store : BlockStore) (number : UInt64) :
    Except RawLoadError BlockStore := do
  match ← persist.getBlockByHeight number with
  | some block =>
    match store.insertBlock block with
    | (.error e, _) => throw (.load (.reloadBlock number e))
    | (.ok _, store) => pure store
  | none =>
    match ← persist.getHeightHash number with
    | none => throw (.load (.heightMissing number))
    | some hash =>
      match ← persist.getHeader hash with
      | none => throw (.load (.prunedHeaderMissing number))
      | some header =>
        match store.insertHeader header with
        | (.error e, _) => throw (.load (.reloadHeader number e))
        | (.ok _, store) => pure store

/-- Record the snapshot of the canonical block at a height, if it was written. -/
def loadSnapshot (persist : RawPersist) (store : BlockStore) (number : UInt64) :
    Except RawLoadError BlockStore := do
  match store.getBlockByNumber number with
  | none => pure store
  | some block =>
    match ← persist.getSnapshot block.hash with
    | none => pure store
    | some snap => pure (store.recordState block.hash snap)

/-- `load_into`. -/
def loadInto (persist : RawPersist) (store : BlockStore) (expectedGenesis : Block) :
    Except RawLoadError (Option UInt64 × BlockStore) := do
  match ← Entry.head.drawer.get .headHashLength persist.db () with
  | none => pure (none, store)
  | some headHash =>
    match ← persist.getBlock headHash with
    | none => throw (.load .headBlockMissing)
    | some head =>
      match ← persist.getBlockByHeight 0 with
      | none => throw (.load .genesisMissing)
      | some genesis =>
        if genesis.hash ≠ expectedGenesis.hash then
          throw (.load (.genesisMismatch genesis.hash expectedGenesis.hash))
        else
          match store.insertGenesis genesis with
          | (.error e, _) => throw (.load (.reloadGenesis e))
          | (.ok _, store) =>
            let store ← (heightsBetween 1 head.header.number).foldlM persist.loadHeight store
            let store ← (heightsBetween 0 head.header.number).foldlM persist.loadSnapshot store
            pure (some head.header.number, store)

end Loading

/-! ### Writing -/

section Writing

variable [Keccak]

/-- `put_block`. -/
def putBlock (b : Block) : RawWrite :=
  .put (Entry.block.drawer.key b.hash) (Block.codec.encode b)

/-- `put_header`. -/
def putHeader (h : BlockHeader) : RawWrite :=
  .put (Entry.header.drawer.key h.hash) (BlockHeader.codec.encode h)

/-- `put_height`. -/
def putHeight (number : UInt64) (hash : H256) : RawWrite :=
  .put (Entry.height.drawer.key number) hash.toList

/-- `persist_snapshot`. -/
def putSnapshot (hash : H256) (state : StateDB) (order : SnapshotOrder) : RawWrite :=
  .put (Entry.snapshot.drawer.key hash) (SnapshotFile.codec.encode (state.snapshotFile order))

/-- `persist_trie_nodes`. -/
def trieWrites (nodes : Written) : List RawWrite :=
  nodes.map fun e => .put (Entry.trieNode.drawer.key e.1) e.2

/-- The writes for the canonical block at a height. -/
def blockWrites (persist : RawPersist) (head : Block) (number : UInt64) (b : Block) :
    List RawWrite :=
  (if persist.archive ∨ number = 0
      ∨ head.header.number.saturatingSub number < persist.archiveKeep then [putBlock b]
    else [putHeader b.header, .delete (Entry.block.drawer.key b.hash)]) ++ [putHeight number b.hash]

/-- The writes for the snapshot of a canonical block, if there is one. -/
def snapshotWrites (store : BlockStore) (orders : H256 → SnapshotOrder) (b : Block) :
    List RawWrite :=
  match store.stateAt b.hash with
  | none => []
  | some state =>
    trieWrites state.trieNodes.1 ++ [putSnapshot b.hash state.trieNodes.2 (orders b.hash)]

/-- The writes of `persist_canonical`, in order. -/
def canonicalWrites (persist : RawPersist) (store : BlockStore) (orders : H256 → SnapshotOrder)
    (block : Block) : List RawWrite :=
  putBlock block ::
    match store.headBlock with
    | none => []
    | some head =>
      let canonical := ChainPersist.canonicalAt store (heightsBetween 0 head.header.number)
      .put (Entry.head.drawer.key ()) head.hash.toList
        :: (canonical.flatMap fun e => persist.blockWrites head e.1 e.2)
        ++ canonical.flatMap fun e => snapshotWrites store orders e.2

end Writing

end RawPersist

/-! ### The typed database in the bytes -/

/-- What the typed database holds under an entry. -/
def ChainDb.entry (db : ChainDb) : (e : Ivory.Entry) → e.Key → Option e.Value
  | .head, _ => db.head
  | .height, number => db.heights[number]?
  | .block, hash => db.blocks[hash]?
  | .header, hash => db.headers[hash]?
  | .snapshot, hash => db.snapshots[hash]?.map StateDB.fromSnapshot
  | .trieNode, hash => db.trieNodes[hash]?

/-- The bytes hold what the typed database holds, and nothing else. -/
def RawDb.Shows (raw : RawDb) (db : ChainDb) : Prop :=
  ∀ e : Entry, e.drawer.Shows raw (db.entry e)

namespace RawDb

variable {raw : RawDb} {db db' : ChainDb}

theorem shows_empty : RawDb.Shows ∅ ChainDb.empty := by
  intro e
  cases e
  case head => exact Drawer.shows_empty
  all_goals
    intro k
    simp [ChainDb.entry, ChainDb.empty]

theorem Shows.put (h : raw.Shows db) {e : Entry} {k : e.Key} {bytes : List UInt8} {a : e.Value}
    (hdec : e.drawer.decode bytes = some a)
    (hself : ∀ k', db'.entry e k' = if k' = k then some a else db.entry e k')
    (hother : ∀ e', e' ≠ e → db'.entry e' = db.entry e') :
    Shows (raw.insert (e.drawer.key k) bytes) db' := by
  intro e'
  by_cases he : e' = e
  · subst he
    exact (h e').insert hdec hself
  · rw [hother e' he]
    exact (h e').insert_other (Entry.tag_width_ne he) k bytes

theorem Shows.delete (h : raw.Shows db) {e : Entry} {k : e.Key}
    (hself : ∀ k', db'.entry e k' = if k' = k then none else db.entry e k')
    (hother : ∀ e', e' ≠ e → db'.entry e' = db.entry e') :
    Shows (raw.erase (e.drawer.key k)) db' := by
  intro e'
  by_cases he : e' = e
  · subst he
    exact (h e').erase hself
  · rw [hother e' he]
    exact (h e').erase_other (Entry.tag_width_ne he) k

end RawDb

/-- The bytes that are written for a typed write; a snapshot is written in some order. -/
inductive ChainWrite.Raw [Keccak] : ChainWrite → RawWrite → Prop
  | head (hash : H256) : Raw (.head hash) (.put (Entry.head.drawer.key ()) hash.toList)
  | block (b : Block) : Raw (.block b) (RawPersist.putBlock b)
  | header (h : BlockHeader) : Raw (.header h) (RawPersist.putHeader h)
  | dropBlock (hash : H256) : Raw (.dropBlock hash) (.delete (Entry.block.drawer.key hash))
  | height (number : UInt64) (hash : H256) :
    Raw (.height number hash) (RawPersist.putHeight number hash)
  | snapshot (hash : H256) {state : StateDB} (order : SnapshotOrder) (h : state.Fits) :
    Raw (.snapshot hash state.toSnapshot) (RawPersist.putSnapshot hash state order)
  | trieNode (hash : H256) (bytes : List UInt8) :
    Raw (.trieNode hash bytes) (.put (Entry.trieNode.drawer.key hash) bytes)

section Refinement

variable [Keccak] {raw : RawDb} {db : ChainDb}

/-- **A write of bytes is a typed write.** -/
theorem RawDb.Shows.write (h : raw.Shows db) {w : ChainWrite} {r : RawWrite} (hw : w.Raw r) :
    RawDb.Shows (raw.write r) (db.write w) := by
  have hother : ∀ {e' : Entry} {P : Prop}, e' ≠ e' → P := fun h => absurd rfl h
  cases hw with
  | head hash =>
    refine h.put (H256.fromSlice_toList hash) (fun _ => (if_pos rfl).symm) fun e' he => ?_
    cases e' <;> first | rfl | exact hother he
  | block b =>
    refine h.put (Block.codec.deserialize_encode b) (Table.get_insert _ _ · _) fun e' he => ?_
    cases e' <;> first | rfl | exact hother he
  | header hd =>
    refine h.put (BlockHeader.codec.deserialize_encode hd) (Table.get_insert _ _ · _)
      fun e' he => ?_
    cases e' <;> first | rfl | exact hother he
  | dropBlock hash =>
    refine h.delete (Table.get_erase _ _) fun e' he => ?_
    cases e' <;> first | rfl | exact hother he
  | height number hash =>
    refine h.put (H256.fromSlice_toList hash) (Table.get_insert _ _ · _) fun e' he => ?_
    cases e' <;> first | rfl | exact hother he
  | @snapshot hash state order hfits =>
    have hdec : Entry.snapshot.drawer.decode
        (SnapshotFile.codec.encode (state.snapshotFile order)) = some state := by
      rw [Entry.decode_snapshot, Codec.deserialize_encode, Option.map_some,
        StateDB.fromSnapshot_snapshotFile hfits]
    refine h.put hdec (fun k' => ?_) fun e' he => ?_
    · show ((db.snapshots.insert hash state.toSnapshot)[k']?).map StateDB.fromSnapshot = _
      rw [Table.get_insert]
      split
      · rw [Option.map_some, StateDB.fromSnapshot_toSnapshot]
      · rfl
    · cases e' <;> first | rfl | exact hother he
  | trieNode hash bytes =>
    refine h.put (a := bytes) rfl (Table.get_insert _ _ · _) fun e' he => ?_
    cases e' <;> first | rfl | exact hother he

/-- **So is a list of writes.** -/
theorem RawDb.Shows.foldl {ws : List ChainWrite} {rs : List RawWrite}
    (hws : List.Forall₂ ChainWrite.Raw ws rs) : ∀ {raw : RawDb} {db : ChainDb}, raw.Shows db →
      RawDb.Shows (rs.foldl RawDb.write raw) (ws.foldl ChainDb.write db) := by
  induction hws with
  | nil => intro raw db h; exact h
  | cons hw _ ih => intro raw db h; exact ih (h.write hw)

/-! ### The writes of `persist_canonical` -/

omit [Keccak] in
theorem forall₂_flatMap {α β γ : Type} {R : β → γ → Prop} {f : α → List β} {f' : α → List γ} :
    ∀ {l : List α}, (∀ a ∈ l, List.Forall₂ R (f a) (f' a)) →
      List.Forall₂ R (l.flatMap f) (l.flatMap f') := by
  intro l
  induction l with
  | nil => intro _; exact .nil
  | cons a l ih =>
    intro h
    rw [List.flatMap_cons, List.flatMap_cons]
    exact List.rel_append (h a List.mem_cons_self)
      (ih fun b hb => h b (List.mem_cons_of_mem _ hb))

theorem raw_trieWrites (nodes : Written) : List.Forall₂ ChainWrite.Raw
    (ChainPersist.trieWrites nodes) (RawPersist.trieWrites nodes) := by
  induction nodes with
  | nil => exact .nil
  | cons e nodes ih => exact .cons (.trieNode e.1 e.2) ih

/-- The states in the store are no larger than what can be written. -/
def BlockStore.Fits (store : BlockStore) : Prop :=
  ∀ hash s, store.stateAt hash = some s → s.trieNodes.2.Fits

theorem raw_canonicalWrites {persist : ChainPersist} {raw : RawPersist}
    (harchive : raw.archive = persist.archive) (hkeep : raw.archiveKeep = persist.archiveKeep)
    {store : BlockStore} (hfits : store.Fits) (orders : H256 → SnapshotOrder) (block : Block) :
    List.Forall₂ ChainWrite.Raw (persist.canonicalWrites store block)
      (raw.canonicalWrites store orders block) := by
  rw [ChainPersist.canonicalWrites, RawPersist.canonicalWrites]
  refine .cons (.block block) ?_
  cases store.headBlock with
  | none => exact .nil
  | some head =>
    refine .cons (.head _) (List.rel_append (forall₂_flatMap fun e _ => ?_)
      (forall₂_flatMap fun e _ => ?_))
    · rw [ChainPersist.blockWrites, RawPersist.blockWrites, harchive, hkeep]
      refine List.rel_append ?_ (.cons (.height _ _) .nil)
      split
      · exact .cons (.block _) .nil
      · exact .cons (.header _) (.cons (.dropBlock _) .nil)
    · rw [ChainPersist.snapshotWrites, RawPersist.snapshotWrites]
      cases hstate : store.stateAt e.2.hash with
      | none => exact .nil
      | some state =>
        exact List.rel_append (raw_trieWrites _)
          (.cons (.snapshot _ _ (hfits _ state hstate)) .nil)

end Refinement

/-! ### Histories of the database -/

/-- What happens to a database: the calls of the node, a call that ends after some of its writes
because the process does, and a restart. -/
inductive PersistOp
  | canonical (store : BlockStore) (block : Block) (orders : H256 → SnapshotOrder)
  | trieNodes (nodes : Written)
  | crash (store : BlockStore) (block : Block) (orders : H256 → SnapshotOrder) (writes : ℕ)
  | reopen (archive : Bool) (archiveKeep : UInt64)

section Histories

variable [Keccak]

/-- The states that are written are not too large. -/
def PersistOp.Fits : PersistOp → Prop
  | canonical store _ _ | crash store _ _ _ => store.Fits
  | trieNodes _ | reopen _ _ => True

/-- The typed database after an operation. -/
def ChainPersist.step (persist : ChainPersist) : PersistOp → ChainPersist
  | .canonical store block _ => persist.persistCanonical store block
  | .trieNodes nodes => persist.persistTrieNodes nodes
  | .crash store block _ writes => { persist with
      db := ((persist.canonicalWrites store block).take writes).foldl ChainDb.write persist.db }
  | .reopen archive archiveKeep => ChainPersist.openWith persist.db archive archiveKeep

namespace RawPersist

/-- `open_with`. -/
def openWith (db : RawDb) (archive : Bool) (archiveKeep : UInt64) : RawPersist :=
  ⟨db, archive, max archiveKeep 1⟩

/-- `persist_canonical`. -/
def persistCanonical (persist : RawPersist) (store : BlockStore) (orders : H256 → SnapshotOrder)
    (block : Block) : RawPersist :=
  { persist with
    db := (persist.canonicalWrites store orders block).foldl RawDb.write persist.db }

/-- `persist_trie_nodes`. -/
def persistTrieNodes (persist : RawPersist) (nodes : Written) : RawPersist :=
  { persist with db := (trieWrites nodes).foldl RawDb.write persist.db }

/-- The bytes after an operation. -/
def step (persist : RawPersist) : PersistOp → RawPersist
  | .canonical store block orders => persist.persistCanonical store orders block
  | .trieNodes nodes => persist.persistTrieNodes nodes
  | .crash store block orders writes => { persist with
      db := ((persist.canonicalWrites store orders block).take writes).foldl RawDb.write
        persist.db }
  | .reopen archive archiveKeep => openWith persist.db archive archiveKeep

/-- Two handles with the same policy, and bytes that show the typed database. -/
structure Shows (raw : RawPersist) (persist : ChainPersist) : Prop where
  archive : raw.archive = persist.archive
  archiveKeep : raw.archiveKeep = persist.archiveKeep
  db : raw.db.Shows persist.db

variable {raw : RawPersist} {persist : ChainPersist}

/-- **Every operation on the bytes is the operation on the typed database.** -/
theorem Shows.step (h : raw.Shows persist) {op : PersistOp} (hop : op.Fits) :
    (raw.step op).Shows (persist.step op) := by
  cases op with
  | canonical store block orders =>
    exact ⟨h.archive, h.archiveKeep,
      h.db.foldl (raw_canonicalWrites h.archive h.archiveKeep hop orders block)⟩
  | trieNodes nodes => exact ⟨h.archive, h.archiveKeep, h.db.foldl (raw_trieWrites nodes)⟩
  | crash store block orders writes =>
    exact ⟨h.archive, h.archiveKeep, h.db.foldl (List.forall₂_take writes
      (raw_canonicalWrites h.archive h.archiveKeep hop orders block))⟩
  | reopen archive archiveKeep => exact ⟨rfl, rfl, h.db⟩

theorem Shows.run : ∀ {ops : List PersistOp} {raw : RawPersist} {persist : ChainPersist},
    raw.Shows persist → (∀ op ∈ ops, op.Fits) →
      (ops.foldl RawPersist.step raw).Shows (ops.foldl ChainPersist.step persist) := by
  intro ops
  induction ops with
  | nil => intro raw persist h _; exact h
  | cons op ops ih =>
    intro raw persist h hops
    exact ih (h.step (hops op List.mem_cons_self)) fun o ho => hops o (List.mem_cons_of_mem _ ho)

/-! ### Loading -/

omit [Keccak] in
theorem Shows.getBlock (h : raw.Shows persist) (hash : H256) :
    raw.getBlock hash = .ok persist.db.blocks[hash]? := (h.db .block).get _ hash

omit [Keccak] in
theorem Shows.getHeightHash (h : raw.Shows persist) (number : UInt64) :
    raw.getHeightHash number = .ok persist.db.heights[number]? := (h.db .height).get _ number

omit [Keccak] in
theorem Shows.getHeader (h : raw.Shows persist) (hash : H256) :
    raw.getHeader hash = .ok persist.db.headers[hash]? := (h.db .header).get _ hash

omit [Keccak] in
theorem Shows.getSnapshot (h : raw.Shows persist) (hash : H256) :
    raw.getSnapshot hash = .ok (persist.getSnapshot hash) := (h.db .snapshot).get _ hash

omit [Keccak] in
theorem Shows.getTrieNode (h : raw.Shows persist) (hash : H256) :
    raw.getTrieNode hash = persist.db.trieNodes[hash]? := by
  have hk : raw.db[Entry.trieNode.drawer.key hash]?.map some
      = persist.db.trieNodes[hash]?.map some := h.db .trieNode hash
  exact Option.map_injective (Option.some_injective _) hk

omit [Keccak] in
theorem Shows.getBlockByHeight (h : raw.Shows persist) (number : UInt64) :
    raw.getBlockByHeight number = .ok (persist.getBlockByHeight number) := by
  rw [RawPersist.getBlockByHeight, h.getHeightHash, ChainPersist.getBlockByHeight]
  cases persist.db.heights[number]? with
  | none => rfl
  | some hash => exact h.getBlock hash

variable [Ed25519]

theorem Shows.loadHeight (h : raw.Shows persist) (store : BlockStore) (number : UInt64) :
    raw.loadHeight store number = (persist.loadHeight store number).mapError .load := by
  rw [RawPersist.loadHeight, ChainPersist.loadHeight, h.getBlockByHeight, h.getHeightHash]
  simp only [h.getHeader, bind, Except.bind]
  cases persist.getBlockByHeight number with
  | some block =>
    dsimp only
    rcases store.insertBlock block with ⟨e | o, store'⟩ <;> rfl
  | none =>
    dsimp only
    cases persist.db.heights[number]? with
    | none => rfl
    | some hash =>
      dsimp only
      cases persist.db.headers[hash]? with
      | none => rfl
      | some header =>
        dsimp only
        rcases store.insertHeader header with ⟨e | o, store'⟩ <;> rfl

theorem Shows.loadHeights (h : raw.Shows persist) : ∀ (ns : List UInt64) (store : BlockStore),
    ns.foldlM raw.loadHeight store = (ns.foldlM persist.loadHeight store).mapError .load := by
  intro ns
  induction ns with
  | nil => intro store; rfl
  | cons n ns ih =>
    intro store
    rw [List.foldlM_cons, List.foldlM_cons, h.loadHeight]
    cases persist.loadHeight store n with
    | error e => rfl
    | ok store' => exact ih store'

omit [Ed25519] in
theorem Shows.loadSnapshots (h : raw.Shows persist) : ∀ (ns : List UInt64) (store : BlockStore),
    ns.foldlM raw.loadSnapshot store = .ok (ns.foldl persist.loadSnapshot store) := by
  have hone : ∀ (store : BlockStore) n,
      raw.loadSnapshot store n = .ok (persist.loadSnapshot store n) := by
    intro store n
    rw [RawPersist.loadSnapshot, ChainPersist.loadSnapshot]
    simp only [h.getSnapshot, bind, Except.bind]
    cases store.getBlockByNumber n with
    | none => rfl
    | some block =>
      dsimp only
      cases persist.getSnapshot block.hash <;> rfl
  intro ns
  induction ns with
  | nil => intro store; rfl
  | cons n ns ih =>
    intro store
    rw [List.foldlM_cons, hone]
    exact ih _

theorem Shows.loadInto (h : raw.Shows persist) (store : BlockStore) (expectedGenesis : Block) :
    raw.loadInto store expectedGenesis
      = (persist.loadInto store expectedGenesis).mapError .load := by
  have hhead : Entry.head.drawer.get RawLoadError.headHashLength raw.db () = .ok persist.db.head :=
    (h.db .head).get _ ()
  rw [RawPersist.loadInto, hhead, ChainPersist.loadInto]
  simp only [h.getBlock, h.getBlockByHeight, h.loadHeights, h.loadSnapshots, bind, Except.bind]
  cases persist.db.head with
  | none => rfl
  | some headHash =>
    dsimp only
    cases persist.db.blocks[headHash]? with
    | none => rfl
    | some head =>
      dsimp only
      cases persist.getBlockByHeight 0 with
      | none => rfl
      | some genesis =>
        dsimp only
        split
        · rfl
        · rcases store.insertGenesis genesis with ⟨e | o, store'⟩
          · rfl
          · dsimp only
            cases (heightsBetween 1 head.header.number).foldlM persist.loadHeight store' <;> rfl

/-- **The bytes load as the typed database does.**  After any history of a database that was created
empty, with crashes in the middle of `persist_canonical` and restarts under any policy, `load_into`
gives the same store or the same error: no hash has the wrong length, and no block, header or
snapshot is unreadable or read as something else.  Trie nodes are read back as they were written. -/
theorem loadInto_agrees (ops : List PersistOp) (hfits : ∀ op ∈ ops, op.Fits) (archive : Bool)
    (archiveKeep : UInt64) (store : BlockStore) (genesis : Block) :
    (ops.foldl step (openWith ∅ archive archiveKeep)).loadInto store genesis
      = ((ops.foldl ChainPersist.step
          (ChainPersist.openWith ChainDb.empty archive archiveKeep)).loadInto store
            genesis).mapError .load
    ∧ ∀ hash, (ops.foldl step (openWith ∅ archive archiveKeep)).getTrieNode hash
      = (ops.foldl ChainPersist.step
          (ChainPersist.openWith ChainDb.empty archive archiveKeep)).db.trieNodes[hash]? := by
  have hstart : (openWith ∅ archive archiveKeep).Shows
      (ChainPersist.openWith ChainDb.empty archive archiveKeep) := ⟨rfl, rfl, RawDb.shows_empty⟩
  have hrun := hstart.run hfits
  exact ⟨hrun.loadInto store genesis, hrun.getTrieNode⟩

end RawPersist

end Histories

instance (s : StateDB) : Decidable s.Fits :=
  decidable_of_iff (s.toSnapshot.accounts.length < 2 ^ 64 ∧ s.toSnapshot.storage.length < 2 ^ 64
    ∧ s.toSnapshot.code.length < 2 ^ 64) ⟨fun h => ⟨h.1, h.2.1, h.2.2⟩,
      fun h => ⟨h.accounts, h.storage, h.code⟩⟩

theorem BlockStore.fits_of_forall [Keccak] {store : BlockStore}
    (h : ∀ e ∈ store.snapshots.toList, e.2.trieNodes.2.Fits) : store.Fits := by
  intro hash s hs
  rw [BlockStore.stateAt, Option.map_eq_some_iff] at hs
  obtain ⟨t, ht, rfl⟩ := hs
  exact h (hash, t) (Table.mem_toList.mpr ht)

namespace Devnet

/-- The store after a block with a transfer. -/
def storeA : BlockStore := ((genesis.start TransactionPool.new).importAndApply blockA).2.store

/-- The genesis is written, the next block without its snapshot, and the node starts again. -/
def diskHistory : List PersistOp :=
  [.canonical genesis.store genesisBlock fun _ => ⟨inOrder, inOrder, inOrder⟩,
    .crash storeA blockA (fun _ => ⟨lastFirst, lastFirst, lastFirst⟩) 7, .reopen false 1]

/-- The bytes of that history load up to the block. -/
theorem loadInto_agrees_diskHistory :
    ∃ store, (diskHistory.foldl RawPersist.step (RawPersist.openWith ∅ true 256)).loadInto
      (BlockStore.new consensus) genesisBlock = .ok (some 1, store) := by
  have heval : (∀ e ∈ genesis.store.snapshots.toList, e.2.trieNodes.2.Fits)
      ∧ (∀ e ∈ storeA.snapshots.toList, e.2.trieNodes.2.Fits)
      ∧ ((diskHistory.foldl ChainPersist.step
        (ChainPersist.openWith ChainDb.empty true 256)).loadInto
          (BlockStore.new consensus) genesisBlock).toOption.map Prod.fst = some (some 1) := by
    decide +kernel
  obtain ⟨hgen, hA, hload⟩ := heval
  have hfits : ∀ op ∈ diskHistory, op.Fits := by
    intro op hop
    simp only [diskHistory, List.mem_cons, List.not_mem_nil, or_false] at hop
    rcases hop with rfl | rfl | rfl
    · exact BlockStore.fits_of_forall hgen
    · exact BlockStore.fits_of_forall hA
    · trivial
  rw [(RawPersist.loadInto_agrees diskHistory hfits true 256 _ _).1]
  cases hres : (diskHistory.foldl ChainPersist.step
      (ChainPersist.openWith ChainDb.empty true 256)).loadInto (BlockStore.new consensus)
        genesisBlock with
  | error e =>
    rw [hres] at hload
    cases hload
  | ok r =>
    rw [hres] at hload
    obtain ⟨n, store⟩ := r
    cases hload
    exact ⟨store, rfl⟩

end Devnet

end Ivory
