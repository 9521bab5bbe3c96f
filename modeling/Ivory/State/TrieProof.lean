import Ivory.Devnet

/-!
# Proofs of the trie

A proof is the list of encoded nodes from the root down to where the walk of a
key ends.  `prove` collects them from the stored nodes, `verify` checks them
against a root.  Both walk the same way: `TrieNode.visit` is the `match` they
share.  An index or a slice out of bounds, where the source would panic, is
`none`; so is a walk of `prove` that runs out of fuel.

`Rooted` ties a hash to the items below it, `Finds` says what a key has among
them, and `Rooted.visit` is the one step: **a visit ends with what the items
say, or goes down to fewer nibbles and a rooted child that says the same.**

* `Trie.verify_sound`: **what `verify` accepts is the last value of the key.**
* `Trie.prove_complete`: **`prove` ends, and `verify` accepts what it gives.**
-/

namespace Ivory

/-! ### The walk of a key -/

/-- `l[n..]`. -/
def sliceFrom (l : List UInt8) (n : ℕ) : Option (List UInt8) :=
  if n ≤ l.length then some (l.drop n) else none

/-- What a node says to a walk: it ends with a value, or it goes down. -/
inductive Visit
  | done (value : Option Bytes)
  | down (rest : List UInt8) (child : H256)

/-- The `match` on a node, with the nibbles that are left. -/
def TrieNode.visit : TrieNode → List UInt8 → Option Visit
  | .empty, _ => some (.done none)
  | .leaf path value, rest => some (.done (if path.toList = rest then some value else none))
  | .extension path child, rest =>
    if path.toList.isPrefixOf rest then
      (sliceFrom rest path.toList.length).map fun rest => .down rest child
    else some (.done none)
  | .branch _ value, [] => some (.done value)
  | .branch children _, x :: rest =>
    match children.toList[x.toNat]? with
    | none => none
    | some none => some (.done none)
    | some (some h) => some (.down rest h)

/-- Errors of a proof walk. -/
inductive ProofError
  | invalidNode
  | hashMismatch
  | incomplete
deriving DecidableEq

/-- Root, encoded nodes from the root down, and the value at the key. -/
structure TrieProof where
  root : H256
  nodes : List (List UInt8)
  value : Option Bytes
deriving DecidableEq

namespace Trie

section Walks

variable [Keccak]

/-- The loop of `prove` over the stored nodes: the nodes it pushes, and the value. -/
def proveFrom (byHash : Table H256 (List UInt8)) :
    ℕ → List UInt8 → H256 → Option (List (List UInt8) × Option Bytes)
  | 0, _, _ => none
  | fuel + 1, rest, expected =>
    match byHash[expected]? with
    | none => some ([], none)
    | some enc =>
      match TrieNode.codec.deserialize enc with
      | none => some ([enc], none)
      | some node =>
        match node.visit rest with
        | none => none
        | some (.done value) => some ([enc], value)
        | some (.down rest child) =>
          (proveFrom byHash fuel rest child).map fun r => (enc :: r.1, r.2)

/-- `prove`. -/
def prove (fuel : ℕ) (pairs : List (List UInt8 × Bytes)) (key : List UInt8) : Option TrieProof :=
  let built := patriciaNodes pairs
  let byHash : Table H256 (List UInt8) := built.2.foldl (fun m e => m.insert e.1 e.2) ∅
  (proveFrom byHash fuel (toNibbles key) built.1).map fun r => ⟨built.1, r.1, r.2⟩

/-- The loop of `verify` over the nodes of the proof. -/
def verifyFrom : List UInt8 → H256 → List (List UInt8) → Option (Except ProofError (Option Bytes))
  | _, _, [] => some (.error .incomplete)
  | rest, expected, enc :: proof =>
    if keccak256 enc ≠ expected then some (.error .hashMismatch)
    else
      match TrieNode.codec.deserialize enc with
      | none => some (.error .invalidNode)
      | some node =>
        match node.visit rest with
        | none => none
        | some (.done value) => some (if proof.isEmpty then .ok value else .error .incomplete)
        | some (.down rest child) =>
          if proof.isEmpty then some (.error .incomplete) else verifyFrom rest child proof

/-- `verify`. -/
def verify (root : H256) (key : List UInt8) (proof : List (List UInt8)) :
    Option (Except ProofError (Option Bytes)) :=
  if proof.isEmpty then some (.error .incomplete) else verifyFrom (toNibbles key) root proof

end Walks

/-! ### No index is out of bounds -/

/-- Bytes that are nibbles. -/
def Nibbles (rest : List UInt8) : Prop := ∀ x ∈ rest, x.toNat < 16

theorem nibbles_toNibbles (key : List UInt8) : Nibbles (toNibbles key) :=
  fun _ hx => toNibbles_lt hx

theorem sliceFrom_of_isPrefixOf {path rest : List UInt8} (h : path.isPrefixOf rest = true) :
    ∃ tail, rest = path ++ tail ∧ sliceFrom rest path.length = some tail := by
  obtain ⟨tail, rfl⟩ := List.isPrefixOf_iff_prefix.mp h
  exact ⟨tail, rfl, by simp [sliceFrom]⟩

theorem visit_isSome (node : TrieNode) {rest : List UInt8} (hn : Nibbles rest) :
    ∃ r, node.visit rest = some r ∧ ∀ rest' child, r = .down rest' child → Nibbles rest' := by
  cases node with
  | empty => exact ⟨_, rfl, fun _ _ h => by cases h⟩
  | leaf path value => exact ⟨_, rfl, fun _ _ h => by cases h⟩
  | extension path child =>
    by_cases hp : path.toList.isPrefixOf rest = true
    · obtain ⟨tail, rfl, hslice⟩ := sliceFrom_of_isPrefixOf hp
      refine ⟨.down tail child, ?_, ?_⟩
      · rw [TrieNode.visit, if_pos hp, hslice, Option.map_some]
      · rintro rest' child' h
        cases h
        exact fun x hx => hn x (List.mem_append_right _ hx)
    · exact ⟨.done none, by rw [TrieNode.visit, if_neg hp], fun _ _ h => by cases h⟩
  | branch children value =>
    cases rest with
    | nil => exact ⟨_, rfl, fun _ _ h => by cases h⟩
    | cons x rest =>
      have hx : x.toNat < children.toList.length := by
        rw [children.size]
        exact hn x List.mem_cons_self
      rw [TrieNode.visit, List.getElem?_eq_getElem hx]
      cases children.toList[x.toNat] with
      | none => exact ⟨_, rfl, fun _ _ h => by cases h⟩
      | some h =>
        refine ⟨_, rfl, ?_⟩
        rintro rest' child' h
        cases h
        exact fun y hy => hn y (List.mem_cons_of_mem _ hy)

theorem proveFrom_succ {byHash : Table H256 (List UInt8)} {h : H256} {node : TrieNode}
    (hget : byHash[h]? = some (TrieNode.codec.encode node)) (fuel : ℕ) (rest : List UInt8) :
    proveFrom byHash (fuel + 1) rest h
      = match node.visit rest with
        | none => none
        | some (.done value) => some ([TrieNode.codec.encode node], value)
        | some (.down rest child) =>
          (proveFrom byHash fuel rest child).map fun r =>
            (TrieNode.codec.encode node :: r.1, r.2) := by
  rw [proveFrom, hget]
  simp only [TrieNode.codec.deserialize_encode]

section Proofs

variable [Keccak]

theorem verifyFrom_of_done {enc rest : List UInt8} {proof : List (List UInt8)} {node : TrieNode}
    {v : Option Bytes} (hd : TrieNode.codec.deserialize enc = some node)
    (hv : node.visit rest = some (.done v)) : verifyFrom rest (keccak256 enc) (enc :: proof)
      = some (if proof.isEmpty then .ok v else .error .incomplete) := by
  simp only [verifyFrom, ne_eq, not_true_eq_false, if_false, hd, hv]

theorem verifyFrom_of_down {enc rest rest' : List UInt8} {proof : List (List UInt8)}
    {node : TrieNode} {child : H256} (hd : TrieNode.codec.deserialize enc = some node)
    (hv : node.visit rest = some (.down rest' child)) :
    verifyFrom rest (keccak256 enc) (enc :: proof)
      = if proof.isEmpty then some (.error .incomplete) else verifyFrom rest' child proof := by
  simp only [verifyFrom, ne_eq, not_true_eq_false, if_false, hd, hv]

/-- **The walk of `verify` stays in bounds** on whatever bytes it is given. -/
theorem verifyFrom_isSome : ∀ (proof : List (List UInt8)) (rest : List UInt8) (expected : H256),
    Nibbles rest → ∃ r, verifyFrom rest expected proof = some r := by
  intro proof
  induction proof with
  | nil => intro rest expected _; exact ⟨_, rfl⟩
  | cons enc proof ih =>
    intro rest expected hn
    by_cases hh : keccak256 enc = expected
    · subst hh
      cases hd : TrieNode.codec.deserialize enc with
      | none => exact ⟨.error .invalidNode, by simp [verifyFrom, hd]⟩
      | some node =>
        obtain ⟨r, hr, hdown⟩ := visit_isSome node hn
        cases r with
        | done value => exact ⟨_, verifyFrom_of_done hd hr⟩
        | down rest' child =>
          rw [verifyFrom_of_down hd hr]
          split_ifs
          · exact ⟨_, rfl⟩
          · exact ih rest' child (hdown rest' child rfl)
    · exact ⟨.error .hashMismatch, by rw [verifyFrom, if_pos hh]⟩

end Proofs

/-! ### What a key has among the items -/

/-- The value of a key among the items. -/
def Finds (items : List Item) (rest : List UInt8) (v : Option Bytes) : Prop :=
  ∀ w, v = some w ↔ (rest, w) ∈ items

theorem Finds.none_of_forall {items : List Item} {rest : List UInt8}
    (h : ∀ w, (rest, w) ∉ items) : Finds items rest none :=
  fun w => ⟨fun hw => (by cases hw), fun hw => absurd hw (h w)⟩

theorem finds_leaf (item : Item) (rest : List UInt8) :
    Finds [item] rest (if item.1 = rest then some item.2 else none) := by
  intro w
  rw [List.mem_singleton, Prod.ext_iff]
  split_ifs with h
  · simp [h, eq_comm]
  · simp [Ne.symm h]

theorem finds_emptyKey {items : List Item} (hw : WellKeyed items) :
    Finds items [] (emptyKeyValue items) :=
  fun _ => ⟨emptyKeyValue_eq_some, emptyKeyValue_of_mem hw.nodup⟩

theorem finds_group {items : List Item} {x : UInt8} {rest : List UInt8} {v : Option Bytes}
    (h : Finds (group x items) rest v) : Finds items (x :: rest) v :=
  fun w => (h w).trans mem_group

theorem finds_strip {items : List Item} {n : ℕ} {path rest : List UInt8} {v : Option Bytes}
    (hp : ∀ kv ∈ items, kv.1.take n = path) (h : Finds (strip n items) rest v) :
    Finds items (path ++ rest) v := by
  intro w
  rw [h w, mem_strip]
  constructor
  · rintro ⟨⟨k, w⟩, hkv, rfl, rfl⟩
    rwa [← hp _ hkv, List.take_append_drop]
  · intro hmem
    refine ⟨_, hmem, ?_, rfl⟩
    have hsplit := List.take_append_drop n (path ++ rest)
    rw [show (path ++ rest).take n = path from hp _ hmem] at hsplit
    exact List.append_cancel_left hsplit

theorem finds_none_of_extension {items : List Item} {n : ℕ} {path rest : List UInt8}
    (hp : ∀ kv ∈ items, kv.1.take n = path) (h : ¬ path.isPrefixOf rest = true) :
    Finds items rest none := by
  refine Finds.none_of_forall fun w hmem => h ?_
  rw [List.isPrefixOf_iff_prefix, ← hp _ hmem]
  exact List.take_prefix n rest

theorem Finds.eq_lastValue {pairs : List (List UInt8 × Bytes)} {key : List UInt8}
    {v : Option Bytes} (h : Finds (trieItems pairs) (toNibbles key) v) :
    v = Table.lastValue pairs key := by
  refine Option.ext fun w => ?_
  rw [h w, mem_trieItems]
  constructor
  · rintro ⟨key', hl, hk⟩
    rwa [← toNibbles_injective hk]
  · exact fun hl => ⟨key, hl, rfl⟩

/-- Pairs of a program: no Rust vector has more than `isize::MAX` bytes. -/
abbrev Pairs := List ({ key : List UInt8 // key.length < 2 ^ 63 } × Bytes)

/-- The pairs as the trie takes them. -/
def Pairs.raw (pairs : Pairs) : List (List UInt8 × Bytes) := pairs.map fun kv => (kv.1.1, kv.2)

theorem Pairs.short (pairs : Pairs) : ∀ kv ∈ pairs.raw, kv.1.length < 2 ^ 63 := by
  intro kv hkv
  obtain ⟨p, -, rfl⟩ := List.mem_map.mp hkv
  exact p.1.2

/-! ### Stored tries -/

section Proofs

variable [Keccak]

/-- The hash of a trie with these items, all of whose nodes are stored. -/
def Rooted (stored : Written) (h : H256) (items : List Item) : Prop :=
  ∃ fuel, WellKeyed items ∧ Enough fuel items
    ∧ (storeNode (buildNodeCollected fuel items)).1 = h
    ∧ (storeNode (buildNodeCollected fuel items)).2 ⊆ stored

/-- **One step of a walk.**  The node of the hash is stored; a visit to it ends with what the
items say, or goes down to fewer nibbles and a rooted child that says the same. -/
theorem Rooted.visit {stored : Written} {h : H256} {items : List Item}
    (hr : Rooted stored h items) {rest : List UInt8} (hn : Nibbles rest) :
    ∃ node, (h, TrieNode.codec.encode node) ∈ stored ∧ keccak256 (TrieNode.codec.encode node) = h
      ∧ ((∃ v, node.visit rest = some (.done v) ∧ Finds items rest v)
        ∨ ∃ rest' child items', node.visit rest = some (.down rest' child)
          ∧ Rooted stored child items' ∧ rest'.length < rest.length ∧ Nibbles rest'
          ∧ ∀ v, Finds items' rest' v → Finds items rest v) := by
  obtain ⟨fuel, hw, he, rfl, hsub⟩ := hr
  refine ⟨(buildNodeCollected fuel items).1, hsub (List.mem_append_right _ List.mem_cons_self),
    rfl, ?_⟩
  have hbelow : (buildNodeCollected fuel items).2 ⊆ stored :=
    fun e he => hsub (List.mem_append_left _ he)
  cases hnode : (buildNodeCollected fuel items).1 with
  | empty =>
    rw [items_of_empty he hnode]
    exact .inl ⟨none, rfl, Finds.none_of_forall fun w hmem => by cases hmem⟩
  | leaf path value =>
    obtain ⟨item, rfl, rfl, rfl⟩ := items_of_leaf hnode
    refine .inl ⟨_, rfl, ?_⟩
    rw [Vec.toList_ofList (hw.short item List.mem_cons_self)]
    exact finds_leaf item rest
  | extension path child =>
    obtain ⟨fuel', n, rfl, hne, hpre, hen, hchild, hout⟩ := items_of_extension he hw hnode
    by_cases hp : path.toList.isPrefixOf rest = true
    · obtain ⟨tail, rfl, hslice⟩ := sliceFrom_of_isPrefixOf hp
      refine .inr ⟨tail, child, strip n items, ?_, ⟨fuel', hw.strip hpre, hen, hchild, ?_⟩, ?_,
        fun x hx => hn x (List.mem_append_right _ hx), fun v hv => finds_strip hpre hv⟩
      · rw [TrieNode.visit, if_pos hp, hslice, Option.map_some]
      · rwa [← hout]
      · rw [List.length_append]
        have := List.length_pos_iff.mpr hne
        omega
    · exact .inl ⟨none, by rw [TrieNode.visit, if_neg hp], finds_none_of_extension hpre hp⟩
  | branch children value =>
    obtain ⟨fuel', rfl, rfl, rfl, hout⟩ := items_of_branch hnode
    cases rest with
    | nil => exact .inl ⟨_, rfl, finds_emptyKey hw⟩
    | cons x rest =>
      have hx : x.toNat < 16 := hn x List.mem_cons_self
      have hofx : UInt8.ofNat x.toNat = x := UInt8.ofNat_toNat
      have hget : (Arr.ofFn 16 fun i =>
          (branchChild (buildNodeCollected fuel') items i).1).toList[x.toNat]?
          = some (branchChild (buildNodeCollected fuel') items x.toNat).1 := by
        simp [Arr.ofFn, hx]
      cases hc : (branchChild (buildNodeCollected fuel') items x.toNat).1 with
      | none =>
        refine .inl ⟨none, by rw [TrieNode.visit, hget, hc], Finds.none_of_forall fun w hmem => ?_⟩
        have hg : (rest, w) ∈ group (UInt8.ofNat x.toNat) items := by
          rw [hofx]
          exact mem_group.mpr hmem
        rw [branchChild_of_mem hg] at hc
        cases hc
      | some child =>
        obtain ⟨hroot, hbc⟩ := branchChild_eq_some hc
        rw [hofx] at hroot hbc
        refine .inr ⟨rest, child, group x items, by rw [TrieNode.visit, hget, hc],
          ⟨fuel', hw.group x, he.group x, hroot, ?_⟩, Nat.lt_succ_self _,
          fun y hy => hn y (List.mem_cons_of_mem _ hy), fun v hv => finds_group hv⟩
        intro e hmem
        refine hbelow ?_
        rw [hout, List.mem_flatMap]
        exact ⟨x.toNat, List.mem_range.mpr hx, by rw [hbc]; exact hmem⟩

theorem rooted_patriciaNodes {pairs : List (List UInt8 × Bytes)}
    (hshort : ∀ kv ∈ pairs, kv.1.length < 2 ^ 63) :
    Rooted (patriciaNodes pairs).2 (patriciaRoot pairs) (trieItems pairs) := by
  rw [patriciaRoot, patriciaNodes_eq]
  exact ⟨_, wellKeyed_trieItems hshort, enough_fuelFor _, rfl, fun _ h => h⟩

/-! ### Soundness -/

/-- **What the walk of `verify` accepts is what the items say**, whoever made the proof. -/
theorem verifyFrom_sound {S : Set (List UInt8)} {stored : Written} (hS : CollisionFree S)
    (hsub : encodings stored ⊆ S) : ∀ (proof : List (List UInt8)) (rest : List UInt8) (h : H256)
    (items : List Item) (v : Option Bytes), (∀ e ∈ proof, e ∈ S) → Rooted stored h items →
    Nibbles rest → verifyFrom rest h proof = some (.ok v) → Finds items rest v := by
  intro proof
  induction proof with
  | nil => intro rest h items v _ _ _ hv; cases hv
  | cons enc proof ih =>
    intro rest h items v hmem hr hn hv
    obtain ⟨node, hstored, hhash, hstep⟩ := hr.visit hn
    by_cases hh : keccak256 enc = h
    · -- the hash leaves only the stored encoding
      obtain rfl : enc = TrieNode.codec.encode node :=
        hS (hmem enc List.mem_cons_self) (hsub ⟨h, hstored⟩) (hh.trans hhash.symm)
      subst hh
      have hd := TrieNode.codec.deserialize_encode node
      rcases hstep with ⟨w, hvisit, hfinds⟩ | ⟨rest', child, items', hvisit, hr', -, hn', hback⟩
      · rw [verifyFrom_of_done hd hvisit] at hv
        split_ifs at hv
        · cases hv
          exact hfinds
        · cases hv
      · rw [verifyFrom_of_down hd hvisit] at hv
        split_ifs at hv
        · cases hv
        · exact hback v (ih rest' child items' v (fun e he => hmem e (List.mem_cons_of_mem _ he))
            hr' hn' hv)
    · rw [verifyFrom, if_pos hh] at hv
      cases hv

/-- **Soundness.**  Whatever bytes a proof consists of, `verify` stays in bounds, and what it
accepts against the root of the pairs is the last value given for the key. -/
theorem verify_sound (pairs : Pairs) (key : List UInt8) (proof : List (List UInt8))
    (hS : CollisionFree (encodings (patriciaNodes pairs.raw).2 ∪ { e | e ∈ proof })) :
    (∀ root, ∃ r, verify root key proof = some r)
    ∧ ∀ v, verify (patriciaRoot pairs.raw) key proof = some (.ok v) →
      v = Table.lastValue pairs.raw key := by
  constructor
  · intro root
    rw [verify]
    split_ifs
    · exact ⟨_, rfl⟩
    · exact verifyFrom_isSome proof _ root (nibbles_toNibbles key)
  · intro v hv
    rw [verify] at hv
    split_ifs at hv
    · cases hv
    · exact (verifyFrom_sound hS Set.subset_union_left proof _ _ _ v (fun e he => .inr he)
        (rooted_patriciaNodes pairs.short) (nibbles_toNibbles key) hv).eq_lastValue

end Proofs

end Trie

namespace Devnet

open Trie

/-- Four pairs: one key a part of another, one key given twice. -/
def triePairs : Pairs :=
  [(⟨[0x12], by simp⟩, Vec.ofList [1]), (⟨[0x12, 0x34], by simp⟩, Vec.ofList [2]),
    (⟨[0x45], by simp⟩, Vec.ofList [3]), (⟨[0x12], by simp⟩, Vec.ofList [4])]

/-- The nodes that `prove` gives for a key. -/
def trieNodesFor (key : List UInt8) : List (List UInt8) :=
  ((prove 8 triePairs.raw key).map TrieProof.nodes).getD []

theorem collisionFree_triePairs : CollisionFree
    (encodings (patriciaNodes triePairs.raw).2 ∪ { e | e ∈ trieNodesFor [0x12] }) := by
  have h : ∀ x ∈ (patriciaNodes triePairs.raw).2.map Prod.snd ++ trieNodesFor [0x12],
      ∀ y ∈ (patriciaNodes triePairs.raw).2.map Prod.snd ++ trieNodesFor [0x12],
      keccak256 x = keccak256 y → x = y := by decide +kernel
  refine CollisionFree.of_list h ?_
  rintro x (⟨k, hx⟩ | hx)
  · exact List.mem_append_left _ (List.mem_map_of_mem hx)
  · exact List.mem_append_right _ hx

/-- A proof of the key that is given twice verifies, to the value that is given last. -/
theorem verify_sound_triePairs :
    Trie.verify (patriciaRoot triePairs.raw) [0x12] (trieNodesFor [0x12])
      = some (.ok (some (Vec.ofList [4])))
    ∧ some (Vec.ofList [4]) = Table.lastValue triePairs.raw [0x12] := by
  have hv : Trie.verify (patriciaRoot triePairs.raw) [0x12] (trieNodesFor [0x12])
      = some (.ok (some (Vec.ofList [4]))) := by
    have h : (Trie.verify (patriciaRoot triePairs.raw) [0x12] (trieNodesFor [0x12])).bind
        Except.toOption = some (some (Vec.ofList [4])) := by decide +kernel
    obtain ⟨r, hr, hok⟩ := Option.bind_eq_some_iff.mp h
    cases r with
    | error e => cases hok
    | ok v =>
      cases hok
      exact hr
  exact ⟨hv, (verify_sound triePairs [0x12] _ collisionFree_triePairs).2 _ hv⟩

end Devnet

/-! ### Completeness -/

namespace Trie

section Proofs

variable [Keccak]

/-- **The walk of `prove` ends**, one step for each nibble at most, and the walk of `verify`
follows the nodes it pushes to the value it gives. -/
theorem proveFrom_complete {stored : Written} {byHash : Table H256 (List UInt8)}
    (hget : ∀ h e, (h, e) ∈ stored → byHash[h]? = some e) : ∀ (rest : List UInt8) (h : H256)
    (items : List Item), Rooted stored h items → Nibbles rest →
    ∃ nodes v, (∀ fuel > rest.length, proveFrom byHash fuel rest h = some (nodes, v))
      ∧ nodes ≠ [] ∧ verifyFrom rest h nodes = some (.ok v) ∧ Finds items rest v := by
  intro rest
  -- every step down leaves fewer nibbles
  induction hl : rest.length using Nat.strong_induction_on generalizing rest with
  | _ n ih =>
    subst hl
    intro h items hr hn
    obtain ⟨node, hstored, rfl, hstep⟩ := hr.visit hn
    have hd := TrieNode.codec.deserialize_encode node
    have hsucc := proveFrom_succ (hget _ _ hstored)
    have hfuel : ∀ fuel > rest.length, ∃ f, fuel = f + 1 ∧ rest.length ≤ f :=
      fun fuel hf => ⟨fuel - 1, by omega, by omega⟩
    rcases hstep with ⟨v, hvisit, hfinds⟩ | ⟨rest', child, items', hvisit, hr', hlt, hn', hback⟩
    · refine ⟨[TrieNode.codec.encode node], v, fun fuel hf => ?_, by simp, ?_, hfinds⟩
      · obtain ⟨f, rfl, -⟩ := hfuel fuel hf
        rw [hsucc, hvisit]
      · rw [verifyFrom_of_done hd hvisit]
        rfl
    · obtain ⟨nodes, v, hprove, hne, hverify, hfinds⟩ := ih _ hlt rest' rfl child items' hr' hn'
      refine ⟨TrieNode.codec.encode node :: nodes, v, fun fuel hf => ?_, by simp, ?_,
        hback v hfinds⟩
      · obtain ⟨f, rfl, hf'⟩ := hfuel fuel hf
        rw [hsucc, hvisit]
        simp only [hprove f (hlt.trans_le hf'), Option.map_some]
      · rw [verifyFrom_of_down hd hvisit, if_neg (by simpa using hne), hverify]

theorem hash_of_mem_buildNode : ∀ (fuel : ℕ) (items : List Item),
    ∀ e ∈ (buildNodeCollected fuel items).2, keccak256 e.2 = e.1 := by
  have hstore : ∀ r : TrieNode × Written, (∀ e ∈ r.2, keccak256 e.2 = e.1) →
      ∀ e ∈ (storeNode r).2, keccak256 e.2 = e.1 := by
    intro r hr e he
    rcases List.mem_append.mp he with he | he
    · exact hr e he
    · rw [List.mem_singleton.mp he]
  intro fuel
  induction fuel with
  | zero => intro items e he; cases he
  | succ fuel ih =>
    intro items e he
    match items with
    | [] => cases he
    | [item] => cases he
    | first :: second :: rest =>
      rw [buildNodeCollected] at he
      simp only at he
      split_ifs at he
      · exact hstore _ (ih _) e he
      · obtain ⟨i, -, hi⟩ := List.mem_flatMap.mp he
        simp only [branchChild] at hi
        split_ifs at hi
        · cases hi
        · exact hstore _ (ih _) e hi

theorem hash_of_mem_patriciaNodes {pairs : List (List UInt8 × Bytes)} :
    ∀ e ∈ (patriciaNodes pairs).2, keccak256 e.2 = e.1 := by
  intro e he
  rw [patriciaNodes_eq] at he
  rcases List.mem_append.mp he with he | he
  · exact hash_of_mem_buildNode _ _ e he
  · rw [List.mem_singleton.mp he]

theorem get_byHash {stored : Written} (hh : ∀ e ∈ stored, keccak256 e.2 = e.1)
    (hS : CollisionFree (encodings stored)) (h : H256) (e : List UInt8) (hmem : (h, e) ∈ stored) :
    (stored.foldl (fun m e => m.insert e.1 e.2) (∅ : Table H256 (List UInt8)))[h]? = some e := by
  have hlast : Table.lastValue stored h = some e :=
    Table.lastValue_of_unique hmem fun e' hmem' =>
      hS ⟨h, hmem'⟩ ⟨h, hmem⟩ ((hh _ hmem').trans (hh _ hmem).symm)
  rw [Table.get_foldl_insert_last, hlast, Option.some_or]

theorem exists_prove {pairs : List (List UInt8 × Bytes)}
    (hshort : ∀ kv ∈ pairs, kv.1.length < 2 ^ 63) (key : List UInt8)
    (hS : CollisionFree (encodings (patriciaNodes pairs).2)) :
    ∃ nodes, (∀ fuel > 2 * key.length,
        prove fuel pairs key = some ⟨patriciaRoot pairs, nodes, Table.lastValue pairs key⟩)
      ∧ verify (patriciaRoot pairs) key nodes = some (.ok (Table.lastValue pairs key)) := by
  obtain ⟨nodes, v, hprove, hne, hverify, hfinds⟩ :=
    proveFrom_complete (get_byHash hash_of_mem_patriciaNodes hS) _ _ _
      (rooted_patriciaNodes hshort) (nibbles_toNibbles key)
  cases hfinds.eq_lastValue
  refine ⟨nodes, fun fuel hf => ?_, ?_⟩
  · rw [← toNibbles_length] at hf
    rw [prove, ← patriciaRoot, hprove fuel hf, Option.map_some]
  · rw [verify, if_neg (by simpa using hne), hverify]

/-- **Completeness.**  The loop of `prove` ends for every list of pairs and every key, with the
root of the pairs, the last value given for the key, and nodes that `verify` accepts. -/
theorem prove_complete (pairs : Pairs) (key : List UInt8)
    (hS : CollisionFree (encodings (patriciaNodes pairs.raw).2)) :
    ∃ p : TrieProof, (∀ fuel > 2 * key.length, prove fuel pairs.raw key = some p)
      ∧ p.root = patriciaRoot pairs.raw ∧ p.value = Table.lastValue pairs.raw key
      ∧ verify p.root key p.nodes = some (.ok p.value) := by
  obtain ⟨nodes, hprove, hverify⟩ := exists_prove pairs.short key hS
  exact ⟨_, hprove, rfl, rfl, hverify⟩

end Proofs

end Trie

namespace Devnet

open Trie

/-- A key that ends inside the path of another one is proved absent. -/
theorem prove_complete_triePairs : ∃ p : TrieProof,
    prove 8 triePairs.raw [0x12, 0x35] = some p ∧ p.value = none
    ∧ Trie.verify p.root [0x12, 0x35] p.nodes = some (.ok none) := by
  obtain ⟨p, hprove, -, hvalue, hverify⟩ := prove_complete triePairs [0x12, 0x35]
    (collisionFree_triePairs.mono Set.subset_union_left)
  have hlast : Table.lastValue triePairs.raw [0x12, 0x35] = none := by decide
  rw [hlast] at hvalue
  exact ⟨p, hprove 8 (by decide), hvalue, hvalue ▸ hverify⟩

end Devnet

end Ivory
