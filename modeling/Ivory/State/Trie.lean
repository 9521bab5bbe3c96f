import Ivory.Base.Table
import Ivory.Core

/-!
# The Patricia trie

The hexary Patricia trie of `ivory-state`.  Keys are split into nibbles; a node
is stored under the hash of its encoding, and the root is the hash of the top
node.

The source builds a node recursively and pushes every node it stores onto an
output vector.  Here a call returns what it pushes, in the order of the pushes
(`Written`).  The recursion strips at least one nibble from every key, so a
fuel above the length of the longest key is enough; `patriciaNodes` passes
that.
-/

namespace Ivory

/-- A trie node, stored under `keccak256(bincode(node))`. -/
inductive TrieNode
  | empty
  | leaf (path value : Bytes)
  | extension (path : Bytes) (child : H256)
  | branch (children : Arr (Option H256) 16) (value : Option Bytes)
deriving DecidableEq

/-- The encoding of a node: a 32-bit variant index and the fields. -/
def TrieNode.codec : Codec TrieNode where
  encode
    | .empty => Codec.word32.encode 0
    | .leaf path value => Codec.word32.encode 1 ++ (bytesCodec.pair bytesCodec).encode (path, value)
    | .extension path child =>
      Codec.word32.encode 2 ++ (bytesCodec.pair (fixedCodec 32)).encode (path, child)
    | .branch children value =>
      Codec.word32.encode 3
        ++ (((fixedCodec 32).option.array 16).pair bytesCodec.option).encode (children, value)
  decode bytes := do
    let (tag, rest) ← Codec.word32.decode bytes
    if tag = 0 then some (.empty, rest)
    else if tag = 1 then
      ((bytesCodec.pair bytesCodec).decode rest).map fun p => (.leaf p.1.1 p.1.2, p.2)
    else if tag = 2 then
      ((bytesCodec.pair (fixedCodec 32)).decode rest).map fun p => (.extension p.1.1 p.1.2, p.2)
    else if tag = 3 then
      ((((fixedCodec 32).option.array 16).pair bytesCodec.option).decode rest).map fun p =>
        (.branch p.1.1 p.1.2, p.2)
    else none
  decode_encode := by
    intro node rest
    cases node with
    | empty => simp [Codec.decode_encode]
    | leaf path value =>
      simp only [List.append_assoc, Codec.decode_encode, Option.bind_eq_bind, Option.bind_some]
      rfl
    | extension path child =>
      simp only [List.append_assoc, Codec.decode_encode, Option.bind_eq_bind, Option.bind_some]
      rfl
    | branch children value =>
      simp only [List.append_assoc, Codec.decode_encode, Option.bind_eq_bind, Option.bind_some]
      rfl

/-! ### Keys -/

/-- A key in nibbles and its value. -/
abbrev Item := List UInt8 × Bytes

/-- `to_nibbles`. -/
def toNibbles (bytes : List UInt8) : List UInt8 :=
  bytes.flatMap fun b : UInt8 => [b >>> 4, b &&& 0x0f]

/-- The length of the common prefix of two keys. -/
def sharedLen : List UInt8 → List UInt8 → ℕ
  | a :: as, b :: bs => if a = b then sharedLen as bs + 1 else 0
  | _, _ => 0

/-- `common_prefix_len`. -/
def commonPrefixLen : List Item → ℕ
  | [] => 0
  | first :: rest => rest.foldl (fun n kv => min n (sharedLen first.1 kv.1)) first.1.length

/-- The items whose key starts with `i`, with that nibble removed. -/
def group (i : UInt8) (items : List Item) : List Item :=
  (items.filter fun kv => kv.1.head? = some i).map fun kv => (kv.1.tail, kv.2)

/-- All keys without their first `n` nibbles. -/
def strip (n : ℕ) (items : List Item) : List Item := items.map fun kv => (kv.1.drop n, kv.2)

/-- The value at the empty key, the last one if there are several. -/
def emptyKeyValue (items : List Item) : Option Bytes :=
  (items.reverse.find? fun kv => kv.1.isEmpty).map Prod.snd

/-! ### Building -/

/-- Stored nodes, `hash → bincode(node)`, in the order of storing. -/
abbrev Written := List (H256 × List UInt8)

section Build

variable [Keccak]

/-- `store_node`. -/
def storeNode (r : TrieNode × Written) : H256 × Written :=
  let bytes := TrieNode.codec.encode r.1
  (keccak256 bytes, r.2 ++ [(keccak256 bytes, bytes)])

/-- The child of a branch at nibble `i`, stored if any key goes there. -/
def branchChild (build : List Item → TrieNode × Written) (items : List Item) (i : ℕ) :
    Option H256 × Written :=
  let g := group (UInt8.ofNat i) items
  if g.isEmpty then (none, []) else (some (storeNode (build g)).1, (storeNode (build g)).2)

/-- `build_node_collected`. -/
def buildNodeCollected : ℕ → List Item → TrieNode × Written
  | 0, _ => (.empty, [])
  | _ + 1, [] => (.empty, [])
  | _ + 1, [item] => (.leaf (Vec.ofList item.1) item.2, [])
  | fuel + 1, first :: second :: rest =>
    let items := first :: second :: rest
    let n := commonPrefixLen items
    if n > 0 then
      let stored := storeNode (buildNodeCollected fuel (strip n items))
      (.extension (Vec.ofList (first.1.take n)) stored.1, stored.2)
    else
      let child := branchChild (buildNodeCollected fuel) items
      (.branch (Arr.ofFn 16 fun i => (child i).1) (emptyKeyValue items),
        (List.range 16).flatMap fun i => (child i).2)

/-- More fuel than the longest key has nibbles. -/
def fuelFor (items : List Item) : ℕ := (items.map fun kv => kv.1.length).foldr max 0 + 1

/-- `store_tree`. -/
def storeTree (items : List Item) : H256 × Written :=
  storeNode (buildNodeCollected (fuelFor items) items)

/-- `patricia_nodes`: the root and every stored node. -/
def patriciaNodes (pairs : List (List UInt8 × Bytes)) : H256 × Written :=
  if pairs.isEmpty then storeNode (.empty, [])
  else
    let map : Table (List UInt8) Bytes :=
      pairs.foldl (fun m kv => m.insert (toNibbles kv.1) kv.2) ∅
    storeTree map.toList

/-- `patricia_root`. -/
def patriciaRoot (pairs : List (List UInt8 × Bytes)) : H256 := (patriciaNodes pairs).1

/-- `empty_root`. -/
def emptyRoot : H256 := keccak256 (TrieNode.codec.encode .empty)

end Build

end Ivory
