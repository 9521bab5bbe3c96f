import Ivory.State.Commitment

/-!
# Storage roots as a cache

An account record holds the root of its slots, which live in another map.
`set_account` is handed a record with whatever root, `set_storage` may meet an
address without a record, and states are copied and read back from snapshots.
The root in the record is right after all of that.

* `StateDB.Reachable`: the states that the operations of `StateDB` reach from an empty one.
* `StateDB.Reachable.storage_current`: **storage roots are always current**, so
  `root_hash`, `trie_nodes` and `account_proof` write to the state and change nothing.
-/

namespace Ivory

namespace StateDB

/-- The slots of an address, as they are stored. -/
def slotsOf (s : StateDB) (a : Address) : List (H256 × U256) :=
  (s.storage.toList.filter fun e => e.1.1 = a).map fun e => (e.1.2, e.2)

/-- No stored slot is zero. -/
def SlotsNonzero (s : StateDB) : Prop :=
  ∀ (a : Address) (slot : H256) (v : U256), s.storage[(a, slot)]? = some v → v ≠ U256.zero

section

variable [Keccak]

/-- The root of a list of slots: zero if there are none. -/
def slotsRoot (slots : List (H256 × U256)) : H256 :=
  if slots.isEmpty then H256.zero
  else patriciaRoot (slots.map fun e => (e.1.toList, Vec.ofList e.2.toBeBytes.toList))

/-- The states that are reached from an empty one.  A snapshot lists the maps in any order. -/
inductive Reachable : StateDB → Prop
  | new : Reachable StateDB.new
  | setAccount {s : StateDB} (a : Address) (acc : Account) (h : Reachable s) :
      Reachable (s.setAccount a acc)
  | setStorage {s : StateDB} (a : Address) (slot : H256) (v : U256) (h : Reachable s) :
      Reachable (s.setStorage a slot v)
  | setCode {s : StateDB} (a : Address) (code : Bytes) (h : Reachable s) :
      Reachable (s.setCode a code)
  | fork {s : StateDB} (h : Reachable s) : Reachable s.fork
  | resetFrom {s snapshot : StateDB} (h : Reachable s) (h' : Reachable snapshot) :
      Reachable (s.resetFrom snapshot)
  | fromSnapshot {s : StateDB} {snap : StateSnapshot} (h : Reachable s) (hl : snap.Lists s) :
      Reachable (fromSnapshot snap)

/-! ### What the writes keep -/

theorem SlotsNonzero.setStorage {s : StateDB} (h : s.SlotsNonzero) (a : Address) (slot : H256)
    (v : U256) : (s.setStorage a slot v).SlotsNonzero := by
  intro b slot' w hw
  rw [StateDB.setStorage, storage_refreshStorageRoot] at hw
  split_ifs at hw with hv
  · rw [Table.get_erase] at hw
    split_ifs at hw
    exact h b slot' w hw
  · rw [Table.get_insert] at hw
    split_ifs at hw
    · cases hw
      exact fun hz => hv (U256.isZero_iff_eq.mpr hz)
    · exact h b slot' w hw

namespace Reachable

variable {s : StateDB}

/-- **Every operation keeps the roots current.** -/
theorem rootsCurrent (h : Reachable s) : s.RootsCurrent := by
  induction h with
  | new => exact rootsCurrent_new
  | setAccount a acc _ ih => exact ih.setAccount a acc
  | setStorage a slot v _ ih => exact ih.setStorage a slot v
  | setCode a code _ ih => exact ih.setCode a code
  | fork _ ih => exact ih
  | resetFrom _ _ _ ih => exact ih
  | fromSnapshot _ hl ih =>
    rw [fromSnapshot_of_lists hl]
    exact ih

theorem slotsNonzero (h : Reachable s) : s.SlotsNonzero := by
  induction h with
  | new =>
    intro a slot v hv
    rw [StateDB.new, Std.ExtTreeMap.getElem?_empty] at hv
    cases hv
  | setAccount a acc _ ih => exact ih
  | setStorage a slot v _ ih => exact ih.setStorage a slot v
  | setCode a code _ ih => exact ih
  | fork _ ih => exact ih
  | resetFrom _ _ _ ih => exact ih
  | fromSnapshot _ hl ih =>
    rw [fromSnapshot_of_lists hl]
    exact ih

end Reachable

/-! ### The root of all slots -/

/-- Without zero slots, the storage root is the root of all slots of the address. -/
theorem SlotsNonzero.computeStorageRoot_eq {s : StateDB} (h : s.SlotsNonzero) {a : Address}
    {slots : List (H256 × U256)} (hs : slots.Perm (s.slotsOf a)) :
    s.computeStorageRoot a = slotsRoot slots := by
  have hfilter : (s.storage.toList.filter fun e => e.1.1 = a)
      = s.storage.toList.filter fun e => e.1.1 = a ∧ ¬ e.2.isZero := by
    refine List.filter_congr fun e he => ?_
    have hne := h e.1.1 e.1.2 e.2 (Table.mem_toList.mp he)
    rw [decide_eq_decide, U256.isZero_iff_eq]
    exact (and_iff_left hne).symm
  have hpairs : (slots.map fun e => (e.1.toList, Vec.ofList e.2.toBeBytes.toList)).Perm
      (s.storagePairs a) := by
    refine (hs.map _).trans ?_
    rw [slotsOf, hfilter, List.map_map]
    exact storagePairs_of_perm (List.Perm.refl _) a
  rw [computeStorageRoot_of_perm hpairs, slotsRoot, List.isEmpty_map]

theorem RootsCurrent.exists_account {s : StateDB} (h : s.RootsCurrent)
    (hnz : s.SlotsNonzero) (hz : ∀ bytes, keccak256 bytes ≠ H256.zero) {a : Address}
    {slot : H256} {v : U256} (hv : s.storage[(a, slot)]? = some v) :
    ∃ acc, s.getAccount a = some acc := by
  have hget : s.getStorage a slot = v := by
    rw [getStorage, hv]
    rfl
  have hmem : (slot.toList, Vec.ofList v.toBeBytes.toList) ∈ s.storagePairs a :=
    mem_storagePairs.mpr ⟨slot, by rw [hget]; exact hnz a slot v hv, rfl, by rw [hget]⟩
  have hroot : s.computeStorageRoot a ≠ H256.zero := by
    have hne : ¬ (s.storagePairs a).isEmpty = true := by
      rw [List.isEmpty_iff]
      exact List.ne_nil_of_mem hmem
    obtain ⟨e, -, he⟩ := exists_encoding_patriciaRoot (s.storagePairs a)
    rw [computeStorageRoot, if_neg hne, ← he]
    exact hz e
  rw [← h a] at hroot
  cases hacc : s.getAccount a with
  | some acc => exact ⟨acc, rfl⟩
  | none =>
    rw [account, hacc] at hroot
    exact absurd rfl hroot

/-- What the records and the slots of a state say of each other. -/
structure StorageCurrent (s : StateDB) : Prop where
  nonzero : ∀ (a : Address) (slot : H256) (v : U256),
    s.storage[(a, slot)]? = some v → v ≠ U256.zero
  root : ∀ (a : Address) (acc : Account), s.getAccount a = some acc →
    ∀ slots : List (H256 × U256), slots.Perm (s.slotsOf a) → acc.storageRoot = slotsRoot slots
  owner : ∀ (a : Address) (slot : H256) (v : U256),
    s.storage[(a, slot)]? = some v → ∃ acc, s.getAccount a = some acc

/-- **Storage roots are always current.**  In every reachable state no stored slot is zero, each
record holds the root of exactly the slots of its address, and an address with a slot has a
record.  So there is nothing to sync, at whatever addresses and in whatever order, and the three
readers that sync first leave the state as it is. -/
theorem Reachable.storage_current {s : StateDB} (h : Reachable s)
    (hz : ∀ bytes, keccak256 bytes ≠ H256.zero) :
    s.StorageCurrent
    ∧ s.syncAllStorageRoots = s
    ∧ (∀ l : List Address, l.foldl refreshStorageRoot s = s)
    ∧ s.rootHash.2 = s
    ∧ (∀ o : MapOrders, (s.rootHashIn o).2 = s)
    ∧ s.trieNodes.2 = s
    ∧ ∀ (fuel : ℕ) (a : Address), (s.accountProof fuel a).2 = s := by
  have hcur := h.rootsCurrent
  have hnz := h.slotsNonzero
  have hfold := hcur.foldl_refreshStorageRoot
  have hsync : s.syncAllStorageRoots = s := hfold _
  refine ⟨⟨hnz, fun a acc hacc slots hs => ?_, fun a slot v hv => hcur.exists_account hnz hz hv⟩,
    hsync, hfold, hsync, fun o => ?_, hsync, fun _ _ => hsync⟩
  · rw [← hnz.computeStorageRoot_eq hs, ← hcur a, account, hacc]
    rfl
  · have hrefresh : refreshStorageRootIn o = refreshStorageRoot :=
      funext fun s => funext (s.refreshStorageRootIn_eq o)
    show (o.addresses.pick s.addresses).foldl (refreshStorageRootIn o) s = s
    rw [hrefresh]
    exact hfold _

end

end StateDB

namespace Devnet

/-- A hash that is never zero. -/
@[reducible] def neverZero : Keccak where
  digest bytes := ⟨1 :: leBytes 31 (digestNat bytes), by simp⟩

/-- A slot is written at an address without a record, and the record then overwritten with one
that has no root. -/
def slotted : StateDB :=
  @StateDB.setAccount neverZero (@StateDB.setStorage neverZero StateDB.new sink H256.zero U256.one)
    sink Account.new

theorem storage_current_slotted :
    slotted.storage[(sink, H256.zero)]? = some U256.one
    ∧ (slotted.account sink).storageRoot ≠ H256.zero
    ∧ @StateDB.StorageCurrent neverZero slotted
    ∧ (@StateDB.rootHash neverZero slotted).2 = slotted := by
  have heval : slotted.storage[(sink, H256.zero)]? = some U256.one
      ∧ (slotted.account sink).storageRoot ≠ H256.zero := by decide +kernel
  have hz : ∀ bytes, @keccak256 neverZero bytes ≠ H256.zero := by
    intro bytes h
    have hhead : some (1 : UInt8) = some 0 := congrArg (fun x : H256 => x.toList.head?) h
    cases hhead
  have hreach : @StateDB.Reachable neverZero slotted :=
    @StateDB.Reachable.setAccount neverZero _ _ _
      (@StateDB.Reachable.setStorage neverZero _ _ _ _ (@StateDB.Reachable.new neverZero))
  obtain ⟨hcur, -, -, hroot, -⟩ := @StateDB.Reachable.storage_current neverZero _ hreach hz
  exact ⟨heval.1, heval.2, hcur, hroot⟩

end Devnet

end Ivory
