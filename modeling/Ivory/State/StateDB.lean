import Ivory.State.TrieRoot

/-!
# The state database

Accounts, storage slots and code, as `ivory-state` keeps them.  A hash map is a
`Table`; a handle shared by several owners is a value that each operation
returns changed.

An account carries the root of its storage.  `set_account` and `set_storage`
recompute it, and `root_hash` recomputes all of them before it hashes the
accounts, so it writes to the state.  `RootsCurrent` says that there is nothing
to recompute; it is kept by every write, and under it `root_hash` leaves the
state alone (`rootHash_of_rootsCurrent`).

* `account_eq_of_root_eq`: **equal roots of two states give equal accounts.**
* `fromSnapshot_of_lists`: **a state is read back from its snapshot.**
-/

namespace Ivory

instance : Ord (Address × H256) := lexOrd

instance : Std.TransOrd (Address × H256) := Std.instTransOrdProd

/-- In-memory account, storage and code maps. -/
structure StateDB where
  accounts : Table Address Account
  storage : Table (Address × H256) U256
  code : Table Address Bytes

namespace StateDB

theorem ext {s s' : StateDB} (ha : s.accounts = s'.accounts) (hs : s.storage = s'.storage)
    (hc : s.code = s'.code) : s = s' := by
  cases s
  cases s'
  cases ha
  cases hs
  cases hc
  rfl

/-- `StateDB::new()`. -/
def new : StateDB := ⟨∅, ∅, ∅⟩

instance : Inhabited StateDB := ⟨new⟩

/-- `fork`: a deep copy. -/
def fork (s : StateDB) : StateDB := s

/-- `reset_from`: the handle's maps become a copy of the snapshot's. -/
def resetFrom (_ snapshot : StateDB) : StateDB :=
  ⟨snapshot.accounts, snapshot.storage, snapshot.code⟩

@[simp] theorem resetFrom_eq (s snapshot : StateDB) : s.resetFrom snapshot = snapshot := rfl

@[simp] theorem fork_eq (s : StateDB) : s.fork = s := rfl

/-- `get_account`. -/
def getAccount (s : StateDB) (addr : Address) : Option Account := s.accounts[addr]?

/-- `get_account(..).unwrap_or_default()`. -/
def account (s : StateDB) (addr : Address) : Account := (s.getAccount addr).getD Account.new

/-- `get_storage`: a missing slot is zero. -/
def getStorage (s : StateDB) (addr : Address) (slot : H256) : U256 :=
  s.storage[(addr, slot)]?.getD U256.zero

/-- `get_code`: empty if there is none. -/
def getCode (s : StateDB) (addr : Address) : List UInt8 :=
  (s.code[addr]?.map Vec.toList).getD []

/-- `set_code`. -/
def setCode (s : StateDB) (addr : Address) (code : Bytes) : StateDB :=
  { s with code := s.code.insert addr code }

/-- `storage_pairs`: the nonzero slots of an account, as trie pairs. -/
def storagePairs (s : StateDB) (addr : Address) : List (List UInt8 × Bytes) :=
  (s.storage.filter fun key val => key.1 = addr ∧ ¬ val.isZero).toList.map fun e =>
    (e.1.2.toList, Vec.ofList e.2.toBeBytes.toList)

/-- `account_pairs` without the sync: the accounts that are not empty. -/
def accountPairs (s : StateDB) : List (List UInt8 × Bytes) :=
  (s.accounts.toList.filter fun e => ¬ e.2.isEmpty).map fun e =>
    (e.1.toList, Vec.ofList (Account.codec.encode e.2))

theorem mem_accountPairs {s : StateDB} {k : List UInt8} {v : Bytes} :
    (k, v) ∈ s.accountPairs ↔ ∃ a acc, s.getAccount a = some acc ∧ acc ≠ Account.new
      ∧ a.toList = k ∧ Vec.ofList (Account.codec.encode acc) = v := by
  simp only [accountPairs, List.mem_map, List.mem_filter, Prod.mk.injEq, decide_eq_true_eq,
    Account.isEmpty_iff]
  constructor
  · rintro ⟨⟨a, acc⟩, ⟨hm, hne⟩, hk, hv⟩
    exact ⟨a, acc, Table.mem_toList.mp hm, hne, hk, hv⟩
  · rintro ⟨a, acc, hm, hne, hk, hv⟩
    exact ⟨(a, acc), ⟨Table.mem_toList.mpr hm, hne⟩, hk, hv⟩

theorem account_of_some {s : StateDB} {a : Address} {acc : Account}
    (h : s.getAccount a = some acc) : s.account a = acc := by
  rw [account, h]
  rfl

theorem getAccount_of_ne_new {s : StateDB} {a : Address} (h : s.account a ≠ Account.new) :
    s.getAccount a = some (s.account a) := by
  rw [account] at h ⊢
  cases hg : s.getAccount a with
  | none => rw [hg] at h; exact absurd rfl h
  | some acc => rfl

theorem nodup_accountPairs (s : StateDB) : (s.accountPairs.map Prod.fst).Nodup := by
  have hnd : ((s.accounts.toList.filter fun e => ¬ e.2.isEmpty).map Prod.fst).Nodup :=
    s.accounts.nodup_keys.sublist (List.filter_sublist.map _)
  have hmap := hnd.map (f := Arr.toList) (fun a b h => Arr.ext h)
  rw [accountPairs, List.map_map]
  rwa [List.map_map] at hmap

section Roots

variable [Keccak]

/-- `compute_storage_root`. -/
def computeStorageRoot (s : StateDB) (addr : Address) : H256 :=
  if (s.storagePairs addr).isEmpty then H256.zero else patriciaRoot (s.storagePairs addr)

/-- `set_account`: the storage root of the argument is ignored. -/
def setAccount (s : StateDB) (addr : Address) (account : Account) : StateDB :=
  { s with accounts :=
      s.accounts.insert addr { account with storageRoot := s.computeStorageRoot addr } }

/-- `refresh_storage_root`. -/
def refreshStorageRoot (s : StateDB) (addr : Address) : StateDB :=
  let root := s.computeStorageRoot addr
  match s.accounts[addr]? with
  | some acc => { s with accounts := s.accounts.insert addr { acc with storageRoot := root } }
  | none =>
    if root ≠ H256.zero then
      { s with accounts := s.accounts.insert addr { Account.new with storageRoot := root } }
    else s

/-- `set_storage`: writing zero deletes the slot. -/
def setStorage (s : StateDB) (addr : Address) (slot : H256) (value : U256) : StateDB :=
  let storage :=
    if value.isZero then s.storage.erase (addr, slot) else s.storage.insert (addr, slot) value
  refreshStorageRoot { s with storage := storage } addr

/-- The addresses that have an account or a slot. -/
def addresses (s : StateDB) : List Address :=
  (s.accounts.toList.map Prod.fst ++ s.storage.toList.map fun e => e.1.1).dedup

/-- `sync_all_storage_roots`. -/
def syncAllStorageRoots (s : StateDB) : StateDB :=
  s.addresses.foldl refreshStorageRoot s

/-- `root_hash`, and the state it leaves: storage roots are brought up to date first. -/
def rootHash (s : StateDB) : H256 × StateDB :=
  let s' := s.syncAllStorageRoots
  (patriciaRoot s'.accountPairs, s')

/-- `trie_nodes`, and the state it leaves. -/
def trieNodes (s : StateDB) : Written × StateDB :=
  let s' := s.syncAllStorageRoots
  ((patriciaNodes s'.accountPairs).2, s')

/-! ### Reading back a write -/

theorem computeStorageRoot_congr {s s' : StateDB} {addr : Address}
    (h : ∀ slot : H256, s.storage[(addr, slot)]? = s'.storage[(addr, slot)]?) :
    s.computeStorageRoot addr = s'.computeStorageRoot addr := by
  have hf : (s.storage.filter fun key val => key.1 = addr ∧ ¬ val.isZero)
      = s'.storage.filter fun key val => key.1 = addr ∧ ¬ val.isZero := by
    refine Table.ext fun key => ?_
    rw [Table.get_filter, Table.get_filter]
    obtain ⟨a, slot⟩ := key
    by_cases ha : a = addr
    · rw [ha, h slot]
    · have hno : ∀ o : Option U256, (o.filter fun val => a = addr ∧ ¬ val.isZero) = none := by
        intro o
        cases o <;> simp [ha]
      rw [hno, hno]
  rw [computeStorageRoot, computeStorageRoot, storagePairs, storagePairs, hf]

theorem getAccount_setAccount (s : StateDB) (a b : Address) (acc : Account) :
    (s.setAccount a acc).getAccount b
      = if b = a then some { acc with storageRoot := s.computeStorageRoot a }
        else s.getAccount b := Table.get_insert _ _ _ _

theorem account_setAccount (s : StateDB) (a b : Address) (acc : Account) :
    (s.setAccount a acc).account b
      = if b = a then { acc with storageRoot := s.computeStorageRoot a } else s.account b := by
  rw [account, getAccount_setAccount]
  split_ifs <;> rfl

theorem getAccount_refreshStorageRoot_of_ne (s : StateDB) {a b : Address} (h : b ≠ a) :
    (s.refreshStorageRoot a).getAccount b = s.getAccount b := by
  unfold refreshStorageRoot
  simp only
  split
  · exact Table.get_insert_of_ne _ _ h
  · split_ifs
    · exact Table.get_insert_of_ne _ _ h
    · rfl

theorem getAccount_refreshStorageRoot_of_some {s : StateDB} {b : Address} {acc : Account}
    (h : s.getAccount b = some acc) (a : Address) :
    ∃ acc', (s.refreshStorageRoot a).getAccount b = some acc' := by
  by_cases hb : b = a
  · subst hb
    rw [getAccount] at h
    unfold refreshStorageRoot
    simp only [h]
    exact ⟨_, Table.get_insert_self _ _ _⟩
  · exact ⟨acc, by rw [getAccount_refreshStorageRoot_of_ne s hb, h]⟩

theorem account_refreshStorageRoot_self (s : StateDB) (a : Address) :
    (s.refreshStorageRoot a).account a
      = { s.account a with storageRoot := s.computeStorageRoot a } := by
  unfold refreshStorageRoot
  simp only
  split
  · next acc h =>
    simp [account, getAccount, h]
  · next h =>
    split_ifs with hr
    · simp [account, getAccount, h]
    · rw [not_not] at hr
      simp [account, getAccount, h, hr, Account.new]

@[simp] theorem storage_refreshStorageRoot (s : StateDB) (a : Address) :
    (s.refreshStorageRoot a).storage = s.storage := by
  unfold refreshStorageRoot
  simp only
  split
  · rfl
  · split_ifs <;> rfl

theorem computeStorageRoot_refreshStorageRoot (s : StateDB) (a b : Address) :
    (s.refreshStorageRoot b).computeStorageRoot a = s.computeStorageRoot a :=
  computeStorageRoot_congr fun _ => by rw [storage_refreshStorageRoot]

@[simp] theorem code_refreshStorageRoot (s : StateDB) (a : Address) :
    (s.refreshStorageRoot a).code = s.code := by
  unfold refreshStorageRoot
  simp only
  split
  · rfl
  · split_ifs <;> rfl

theorem account_refreshStorageRoot_of_ne (s : StateDB) {a b : Address} (h : b ≠ a) :
    (s.refreshStorageRoot a).account b = s.account b := by
  rw [account, getAccount_refreshStorageRoot_of_ne s h, account]

theorem getAccount_setStorage_of_ne (s : StateDB) {a b : Address} (slot : H256) (v : U256)
    (h : b ≠ a) : (s.setStorage a slot v).getAccount b = s.getAccount b :=
  getAccount_refreshStorageRoot_of_ne _ h

theorem account_setStorage_self (s : StateDB) (a : Address) (slot : H256) (v : U256) :
    (s.setStorage a slot v).account a
      = { s.account a with storageRoot := (s.setStorage a slot v).computeStorageRoot a } := by
  unfold setStorage
  simp only
  rw [account_refreshStorageRoot_self, computeStorageRoot_refreshStorageRoot]
  rfl

theorem storage_setStorage_of_ne (s : StateDB) {a b : Address} (slot slot' : H256) (v : U256)
    (h : b ≠ a) : (s.setStorage a slot v).storage[(b, slot')]? = s.storage[(b, slot')]? := by
  have hne : (b, slot') ≠ (a, slot) := fun he => h (congrArg Prod.fst he)
  unfold setStorage
  simp only [storage_refreshStorageRoot]
  split_ifs
  · rw [Table.get_erase, if_neg hne]
  · rw [Table.get_insert_of_ne _ _ hne]

@[simp] theorem code_setStorage (s : StateDB) (a : Address) (slot : H256) (v : U256) :
    (s.setStorage a slot v).code = s.code := code_refreshStorageRoot _ _

/-! ### Storage roots that are up to date -/

/-- Every account carries the root of its slots; a missing account has none. -/
def RootsCurrent (s : StateDB) : Prop :=
  ∀ a, (s.account a).storageRoot = s.computeStorageRoot a

theorem rootsCurrent_new : RootsCurrent new := fun _ => rfl

theorem RootsCurrent.setAccount {s : StateDB} (h : s.RootsCurrent) (a : Address) (acc : Account) :
    (s.setAccount a acc).RootsCurrent := by
  intro b
  have hroot : (s.setAccount a acc).computeStorageRoot b = s.computeStorageRoot b :=
    computeStorageRoot_congr fun _ => rfl
  rw [hroot, account_setAccount]
  split_ifs with hb
  · rw [hb]
  · exact h b

theorem RootsCurrent.setCode {s : StateDB} (h : s.RootsCurrent) (a : Address) (code : Bytes) :
    (s.setCode a code).RootsCurrent := fun b => h b

theorem RootsCurrent.setStorage {s : StateDB} (h : s.RootsCurrent) (a : Address) (slot : H256)
    (v : U256) : (s.setStorage a slot v).RootsCurrent := by
  intro b
  by_cases hb : b = a
  · rw [hb, account_setStorage_self]
  · have hroot : (s.setStorage a slot v).computeStorageRoot b = s.computeStorageRoot b :=
      computeStorageRoot_congr fun slot' => storage_setStorage_of_ne s slot slot' v hb
    rw [hroot, account, getAccount_setStorage_of_ne s slot v hb]
    exact h b

theorem refreshStorageRoot_eq_self {s : StateDB} {a : Address}
    (h : (s.account a).storageRoot = s.computeStorageRoot a) : s.refreshStorageRoot a = s := by
  unfold refreshStorageRoot
  simp only
  split
  · next acc hacc =>
    have hroot : acc.storageRoot = s.computeStorageRoot a := by
      rw [← h, account, getAccount, hacc]
      rfl
    rw [← hroot]
    exact ext (Table.insert_eq_self hacc) rfl rfl
  · next hacc =>
    have hroot : s.computeStorageRoot a = H256.zero := by
      rw [← h, account, getAccount, hacc]
      rfl
    rw [if_neg (not_not.mpr hroot)]

/-- Up-to-date storage roots need no refresh, at whatever addresses and in whatever order. -/
theorem RootsCurrent.foldl_refreshStorageRoot {s : StateDB} (h : s.RootsCurrent)
    (l : List Address) : l.foldl refreshStorageRoot s = s := by
  induction l with
  | nil => rfl
  | cons a l ih => rw [List.foldl_cons, refreshStorageRoot_eq_self (h a), ih]

/-- **Up-to-date storage roots are left alone by `root_hash`.** -/
theorem rootHash_of_rootsCurrent {s : StateDB} (h : s.RootsCurrent) :
    s.rootHash = (patriciaRoot s.accountPairs, s) := by
  have hsync : s.syncAllStorageRoots = s := h.foldl_refreshStorageRoot _
  rw [rootHash, hsync]

theorem foldl_refreshStorageRoot : ∀ (l : List Address) (s : StateDB) (a : Address),
    (l.foldl refreshStorageRoot s).storage = s.storage
      ∧ (l.foldl refreshStorageRoot s).account a
        = if a ∈ l then { s.account a with storageRoot := s.computeStorageRoot a }
          else s.account a := by
  intro l
  induction l with
  | nil => intro s a; simp
  | cons b l ih =>
    intro s a
    obtain ⟨h₁, h₂⟩ := ih (s.refreshStorageRoot b) a
    rw [List.foldl_cons]
    refine ⟨by rw [h₁, storage_refreshStorageRoot], ?_⟩
    rw [h₂, computeStorageRoot_refreshStorageRoot]
    by_cases hb : a = b
    · rw [hb, account_refreshStorageRoot_self, if_pos List.mem_cons_self, ite_self]
    · rw [account_refreshStorageRoot_of_ne s hb]
      exact if_congr (by rw [List.mem_cons, or_iff_right hb]) rfl rfl

theorem account_of_notMem_addresses {s : StateDB} {a : Address} (ha : a ∉ s.addresses) :
    s.account a = { s.account a with storageRoot := s.computeStorageRoot a } := by
  rw [addresses, List.mem_dedup, List.mem_append, not_or] at ha
  have hacc : s.getAccount a = none := by
    cases h : s.getAccount a with
    | none => rfl
    | some acc => exact absurd (List.mem_map_of_mem (Table.mem_toList.mpr h)) ha.1
  have hslots : s.computeStorageRoot a = new.computeStorageRoot a := by
    refine computeStorageRoot_congr fun slot => ?_
    cases h : s.storage[(a, slot)]? with
    | none => exact Std.ExtTreeMap.getElem?_empty.symm
    | some v =>
      exact absurd (List.mem_map.mpr ⟨((a, slot), v), Table.mem_toList.mpr h, rfl⟩) ha.2
  rw [hslots, account, hacc]
  rfl

/-- **What a sync leaves**, in whatever order it visits the addresses. -/
theorem account_foldl_of_perm {s : StateDB} {l : List Address} (hl : l.Perm s.addresses)
    (a : Address) : (l.foldl refreshStorageRoot s).account a
      = { s.account a with storageRoot := s.computeStorageRoot a } := by
  rw [(foldl_refreshStorageRoot l s a).2]
  split_ifs with ha
  · rfl
  · exact account_of_notMem_addresses fun h => ha (hl.mem_iff.mpr h)

theorem account_rootHash (s : StateDB) (a : Address) :
    s.rootHash.2.account a = { s.account a with storageRoot := s.computeStorageRoot a } :=
  account_foldl_of_perm (List.Perm.refl _) a

theorem storage_rootHash (s : StateDB) : s.rootHash.2.storage = s.storage :=
  (foldl_refreshStorageRoot s.addresses s Address.zero).1

/-- **After `root_hash` every storage root is up to date.** -/
theorem rootsCurrent_rootHash (s : StateDB) : s.rootHash.2.RootsCurrent := by
  intro a
  rw [account_rootHash]
  exact computeStorageRoot_congr fun slot => by rw [storage_rootHash]

/-! ### Equal roots -/

theorem getAccount_of_root_eq {s s' : StateDB} {S : Set (List UInt8)} (hS : CollisionFree S)
    (hsub : encodings (patriciaNodes s.accountPairs).2 ⊆ S)
    (hsub' : encodings (patriciaNodes s'.accountPairs).2 ⊆ S)
    (h : patriciaRoot s.accountPairs = patriciaRoot s'.accountPairs) {a : Address} {acc : Account}
    (ha : s.getAccount a = some acc) (hne : acc ≠ Account.new) : s'.getAccount a = some acc := by
  have hshort : ∀ (t : StateDB), ∀ kv ∈ t.accountPairs, kv.1.length < 2 ^ 63 := by
    rintro t ⟨k, v⟩ hkv
    obtain ⟨b, -, -, -, rfl, -⟩ := mem_accountPairs.mp hkv
    show b.toList.length < 2 ^ 63
    rw [b.size]
    norm_num
  have hlen : ∀ acc : Account, (Account.codec.encode acc).length < 2 ^ 64 := by
    intro acc
    rw [Account.encode_length]
    norm_num
  have hmem := patriciaRoot_inj hS hsub hsub' s.nodup_accountPairs s'.nodup_accountPairs
    (hshort s) (hshort s') h _ (mem_accountPairs.mpr ⟨a, acc, ha, hne, rfl, rfl⟩)
  obtain ⟨b, acc', hb, -, hk, hv⟩ := mem_accountPairs.mp hmem
  have hacc := Account.codec.encode_injective (Vec.ofList_injOn (hlen acc') (hlen acc) hv)
  rwa [Arr.ext hk, hacc] at hb

/-- **Equal roots of two states give equal accounts**, a missing account being the empty one. -/
theorem account_eq_of_root_eq {s s' : StateDB} {S : Set (List UInt8)} (hS : CollisionFree S)
    (hsub : encodings (patriciaNodes s.accountPairs).2 ⊆ S)
    (hsub' : encodings (patriciaNodes s'.accountPairs).2 ⊆ S)
    (h : patriciaRoot s.accountPairs = patriciaRoot s'.accountPairs) (a : Address) :
    s.account a = s'.account a := by
  by_cases hs : s.account a = Account.new
  · by_cases hs' : s'.account a = Account.new
    · rw [hs, hs']
    · have hback := getAccount_of_root_eq hS hsub' hsub h.symm (getAccount_of_ne_new hs') hs'
      rw [account, hback]
      rfl
  · have hforth := getAccount_of_root_eq hS hsub hsub' h (getAccount_of_ne_new hs) hs
    exact (show s'.account a = s.account a by rw [account, hforth]; rfl).symm

end Roots

end StateDB

/-! ### Snapshots -/

/-- The maps of a state as lists, to be written to disk. -/
structure StateSnapshot where
  accounts : List (Address × Account)
  storage : List (Address × H256 × U256)
  code : List (Address × Bytes)

namespace StateDB

/-- `to_snapshot`. -/
def toSnapshot (s : StateDB) : StateSnapshot where
  accounts := s.accounts.toList
  storage := s.storage.toList.map fun e => (e.1.1, e.1.2, e.2)
  code := s.code.toList

/-- `from_snapshot`. -/
def fromSnapshot (snap : StateSnapshot) : StateDB where
  accounts := snap.accounts.foldl (fun m e => m.insert e.1 e.2) ∅
  storage := snap.storage.foldl (fun m e => m.insert (e.1, e.2.1) e.2.2) ∅
  code := snap.code.foldl (fun m e => m.insert e.1 e.2) ∅

end StateDB

/-- What `to_snapshot` gives when it iterates the maps in some order. -/
structure StateSnapshot.Lists (snap : StateSnapshot) (s : StateDB) : Prop where
  accounts : snap.accounts.Perm s.toSnapshot.accounts
  storage : snap.storage.Perm s.toSnapshot.storage
  code : snap.code.Perm s.toSnapshot.code

namespace StateDB

/-- **A state is read back from its snapshot**, in whatever order its maps were listed. -/
theorem fromSnapshot_of_lists {s : StateDB} {snap : StateSnapshot} (h : snap.Lists s) :
    fromSnapshot snap = s := by
  refine ext (Table.foldl_insert_of_perm h.accounts) ?_ (Table.foldl_insert_of_perm h.code)
  have hkeyed : (snap.storage.map fun e => ((e.1, e.2.1), e.2.2)).Perm s.storage.toList := by
    have hmap := h.storage.map fun e : Address × H256 × U256 => ((e.1, e.2.1), e.2.2)
    rwa [toSnapshot, List.map_map, List.map_id''] at hmap
    exact fun _ => rfl
  have hfold := Table.foldl_insert_of_perm hkeyed
  rwa [List.foldl_map] at hfold

@[simp] theorem fromSnapshot_toSnapshot (s : StateDB) : fromSnapshot s.toSnapshot = s :=
  fromSnapshot_of_lists ⟨List.Perm.refl _, List.Perm.refl _, List.Perm.refl _⟩

end StateDB

end Ivory
