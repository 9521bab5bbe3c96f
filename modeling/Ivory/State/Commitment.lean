import Ivory.State.Ledger
import Ivory.State.TrieProof

/-!
# What the state root commits to

The root of a state is the root of a trie of accounts, and each account that
has slots carries the root of a trie of them.  Two readings of that:

* `StateDB.rootHashIn_eq_iff`: **two states have the same root exactly when they
  agree on every nonce, balance, code hash and slot**, whatever order their maps
  are iterated in and whatever empty accounts or zero slots they hold.
* `StateDB.ethGetProof_chain`: **the proofs of `eth_getProof` verify** against
  the state root and the storage root they lead to.

An account without slots has the root `0x0`, not that of an empty trie.  Its
storage proofs are proofs against `empty_root`, and the chain ends at the
account (`Devnet.storage_proof_of_no_slots`).
-/

namespace Ivory

/-! ### Tries of the same pairs -/

theorem trieItems_of_perm {pairs pairs' : List (List UInt8 × Bytes)}
    (hnd : (pairs.map Prod.fst).Nodup) (h : pairs.Perm pairs') :
    trieItems pairs = trieItems pairs' := by
  have hnd' : (pairs'.map Prod.fst).Nodup := (h.map Prod.fst).nodup_iff.mp hnd
  refine congrArg Std.ExtTreeMap.toList (Table.ext fun k => Option.ext fun v => ?_)
  rw [← Table.mem_toList, ← Table.mem_toList]
  change (k, v) ∈ trieItems pairs ↔ (k, v) ∈ trieItems pairs'
  simp only [mem_trieItems_of_nodup hnd, mem_trieItems_of_nodup hnd', h.mem_iff]

section Tries

variable [Keccak]

/-- **The order of the pairs does not matter.** -/
theorem patriciaNodes_of_perm {pairs pairs' : List (List UInt8 × Bytes)}
    (hnd : (pairs.map Prod.fst).Nodup) (h : pairs.Perm pairs') :
    patriciaNodes pairs = patriciaNodes pairs' := by
  rw [patriciaNodes_eq, patriciaNodes_eq, trieItems_of_perm hnd h]

theorem exists_encoding_patriciaRoot (pairs : List (List UInt8 × Bytes)) :
    ∃ e ∈ encodings (patriciaNodes pairs).2, keccak256 e = patriciaRoot pairs := by
  rw [patriciaRoot, patriciaNodes_eq]
  exact ⟨_, ⟨_, List.mem_append_right _ List.mem_cons_self⟩, rfl⟩

end Tries

namespace StateDB

/-! ### Slots as pairs -/

theorem toBeBytes_injective : Function.Injective U256.toBeBytes := by
  intro x y h
  rw [← U256.fromBeBytes_toBeBytes x, h, U256.fromBeBytes_toBeBytes]

theorem mem_storagePairs {s : StateDB} {a : Address} {k : List UInt8} {v : Bytes} :
    (k, v) ∈ s.storagePairs a ↔ ∃ slot, s.getStorage a slot ≠ U256.zero
      ∧ slot.toList = k ∧ Vec.ofList (s.getStorage a slot).toBeBytes.toList = v := by
  have hget : ∀ (b : Address) (slot : H256) (val : U256),
      (s.storage.filter fun key val => key.1 = a ∧ ¬ val.isZero)[(b, slot)]? = some val ↔
        b = a ∧ s.getStorage a slot = val ∧ val ≠ U256.zero := by
    intro b slot val
    rw [Table.get_filter, Option.filter_eq_some_iff]
    simp only [decide_eq_true_eq, U256.isZero_iff_eq, getStorage]
    constructor
    · rintro ⟨hs, rfl, hne⟩
      exact ⟨rfl, by rw [hs]; rfl, hne⟩
    · rintro ⟨rfl, hs, hne⟩
      refine ⟨?_, rfl, hne⟩
      cases h : s.storage[(b, slot)]? with
      | none => rw [h] at hs; exact absurd hs.symm hne
      | some w => rw [h] at hs; rw [← hs]; rfl
  simp only [storagePairs, List.mem_map, Prod.mk.injEq]
  constructor
  · rintro ⟨⟨⟨b, slot⟩, val⟩, hm, hk, hv⟩
    obtain ⟨-, rfl, hne⟩ := (hget b slot val).mp (Table.mem_toList.mp hm)
    exact ⟨slot, hne, hk, hv⟩
  · rintro ⟨slot, hne, hk, hv⟩
    exact ⟨((a, slot), s.getStorage a slot),
      Table.mem_toList.mpr ((hget a slot _).mpr ⟨rfl, rfl, hne⟩), hk, hv⟩

theorem nodup_storagePairs (s : StateDB) (a : Address) :
    ((s.storagePairs a).map Prod.fst).Nodup := by
  rw [storagePairs, List.map_map]
  refine (List.nodup_map_iff_inj_on (Table.nodup_toList _)).mpr ?_
  rintro ⟨⟨b, slot⟩, v⟩ hv ⟨⟨b', slot'⟩, v'⟩ hv' hk
  have hslot : slot = slot' := Arr.ext hk
  have haddr : ∀ (b : Address) (slot : H256) (v : U256), ((b, slot), v) ∈
      (s.storage.filter fun key val => key.1 = a ∧ ¬ val.isZero).toList → b = a := by
    intro b slot v hm
    rw [Table.mem_toList, Table.get_filter, Option.filter_eq_some_iff, decide_eq_true_eq] at hm
    exact hm.2.1
  have hkey : (b, slot) = (b', slot') := by rw [haddr b slot v hv, haddr b' slot' v' hv', hslot]
  exact List.inj_on_of_nodup_map (Table.nodup_keys _) hv hv' hkey

theorem short_storagePairs (s : StateDB) (a : Address) :
    ∀ kv ∈ s.storagePairs a, kv.1.length < 2 ^ 63 := by
  rintro ⟨k, v⟩ hkv
  obtain ⟨slot, -, rfl, -⟩ := mem_storagePairs.mp hkv
  show slot.toList.length < 2 ^ 63
  rw [slot.size]
  norm_num

theorem mem_addresses_of_storagePairs {s : StateDB} {a : Address} (h : s.storagePairs a ≠ []) :
    a ∈ s.addresses := by
  obtain ⟨⟨k, v⟩, hkv⟩ := List.exists_mem_of_ne_nil _ h
  obtain ⟨slot, hne, -, -⟩ := mem_storagePairs.mp hkv
  rw [addresses, List.mem_dedup, List.mem_append]
  refine .inr (List.mem_map.mpr ?_)
  cases hs : s.storage[(a, slot)]? with
  | none => rw [getStorage, hs] at hne; exact absurd rfl hne
  | some v => exact ⟨((a, slot), v), Table.mem_toList.mpr hs, rfl⟩

theorem getStorage_eq_of_subset {s s' : StateDB} {a : Address}
    (h : ∀ kv ∈ s.storagePairs a, kv ∈ s'.storagePairs a) {slot : H256}
    (hne : s.getStorage a slot ≠ U256.zero) : s.getStorage a slot = s'.getStorage a slot := by
  have hlen : ∀ x : U256, x.toBeBytes.toList.length < 2 ^ 64 := by
    intro x
    rw [x.toBeBytes.size]
    norm_num
  obtain ⟨slot', -, hk, hv⟩ :=
    mem_storagePairs.mp (h _ (mem_storagePairs.mpr ⟨slot, hne, rfl, rfl⟩))
  cases Arr.ext hk
  exact (toBeBytes_injective (Arr.ext (Vec.ofList_injOn (hlen _) (hlen _) hv))).symm

theorem mem_accountPairs_iff {s : StateDB} {k : List UInt8} {v : Bytes} :
    (k, v) ∈ s.accountPairs ↔ ∃ a, s.account a ≠ Account.new
      ∧ a.toList = k ∧ Vec.ofList (Account.codec.encode (s.account a)) = v := by
  rw [mem_accountPairs]
  constructor
  · rintro ⟨a, acc, ha, hne, hk, hv⟩
    have hacc : s.account a = acc := by rw [account, ha]; rfl
    exact ⟨a, hacc ▸ hne, hk, hacc ▸ hv⟩
  · rintro ⟨a, hne, hk, hv⟩
    exact ⟨a, s.account a, getAccount_of_ne_new hne, hne, hk, hv⟩

/-! ### Every iteration order -/

/-- The orders in which the maps of a state are iterated: the addresses, the accounts, and the
slots each time the root of an account is computed. -/
structure MapOrders where
  addresses : IterOrder Address
  accounts : IterOrder (Address × Account)
  slots : Address → IterOrder ((Address × H256) × U256)

section Orders

variable [Keccak]

/-- `compute_storage_root`, the slots in some order. -/
def computeStorageRootIn (o : MapOrders) (s : StateDB) (addr : Address) : H256 :=
  let pairs := (((o.slots addr).pick s.storage.toList).filter fun e =>
    e.1.1 = addr ∧ ¬ e.2.isZero).map fun e => (e.1.2.toList, Vec.ofList e.2.toBeBytes.toList)
  if pairs.isEmpty then H256.zero else patriciaRoot pairs

/-- `refresh_storage_root`, the slots in some order. -/
def refreshStorageRootIn (o : MapOrders) (s : StateDB) (addr : Address) : StateDB :=
  let root := s.computeStorageRootIn o addr
  match s.accounts[addr]? with
  | some acc => { s with accounts := s.accounts.insert addr { acc with storageRoot := root } }
  | none =>
    if root ≠ H256.zero then
      { s with accounts := s.accounts.insert addr { Account.new with storageRoot := root } }
    else s

/-- `root_hash`, the maps in some order. -/
def rootHashIn (o : MapOrders) (s : StateDB) : H256 × StateDB :=
  let s' := (o.addresses.pick s.addresses).foldl (refreshStorageRootIn o) s
  let pairs := ((o.accounts.pick s'.accounts.toList).filter fun e => ¬ e.2.isEmpty).map fun e =>
    (e.1.toList, Vec.ofList (Account.codec.encode e.2))
  (patriciaRoot pairs, s')

omit [Keccak] in
theorem storagePairs_of_perm {s : StateDB} {l : List ((Address × H256) × U256)}
    (h : l.Perm s.storage.toList) (a : Address) :
    ((l.filter fun e => e.1.1 = a ∧ ¬ e.2.isZero).map fun e =>
      (e.1.2.toList, Vec.ofList e.2.toBeBytes.toList)).Perm (s.storagePairs a) := by
  refine List.Perm.map _ ((h.filter _).trans ?_)
  refine (List.perm_ext_iff_of_nodup ((Table.nodup_toList _).filter _)
    (Table.nodup_toList _)).mpr ?_
  rintro ⟨key, val⟩
  rw [List.mem_filter, Table.mem_toList, Table.mem_toList, Table.get_filter,
    Option.filter_eq_some_iff]

theorem computeStorageRoot_of_perm {s : StateDB} {a : Address}
    {pairs : List (List UInt8 × Bytes)} (h : pairs.Perm (s.storagePairs a)) :
    s.computeStorageRoot a = if pairs.isEmpty then H256.zero else patriciaRoot pairs := by
  have hnd := (h.map Prod.fst).nodup_iff.mpr (s.nodup_storagePairs a)
  rw [computeStorageRoot]
  simp only [List.isEmpty_iff_length_eq_zero, h.length_eq, patriciaRoot,
    patriciaNodes_of_perm hnd h]

theorem computeStorageRootIn_eq (o : MapOrders) (s : StateDB) (a : Address) :
    s.computeStorageRootIn o a = s.computeStorageRoot a :=
  (computeStorageRoot_of_perm (storagePairs_of_perm ((o.slots a).perm _) a)).symm

theorem refreshStorageRootIn_eq (o : MapOrders) (s : StateDB) (a : Address) :
    s.refreshStorageRootIn o a = s.refreshStorageRoot a := by
  rw [refreshStorageRootIn, refreshStorageRoot]
  cases s.accounts[a]? with
  | none => simp only [computeStorageRootIn_eq]
  | some acc => simp only [computeStorageRootIn_eq]

theorem patriciaNodes_accountPairs_congr {s s' : StateDB} (h : ∀ a, s.account a = s'.account a) :
    patriciaNodes s.accountPairs = patriciaNodes s'.accountPairs := by
  refine patriciaNodes_of_perm s.nodup_accountPairs ?_
  refine (List.perm_ext_iff_of_nodup s.nodup_accountPairs.of_map
    s'.nodup_accountPairs.of_map).mpr ?_
  rintro ⟨k, v⟩
  simp only [mem_accountPairs_iff, h]

/-- **The root does not depend on the order of iteration.** -/
theorem rootHashIn_eq (o : MapOrders) (s : StateDB) : (s.rootHashIn o).1 = s.rootHash.1 := by
  have hrefresh : refreshStorageRootIn o = refreshStorageRoot :=
    funext fun s => funext (s.refreshStorageRootIn_eq o)
  have hperm : ∀ s' : StateDB, (((o.accounts.pick s'.accounts.toList).filter fun e =>
      ¬ e.2.isEmpty).map fun e =>
        (e.1.toList, Vec.ofList (Account.codec.encode e.2))).Perm s'.accountPairs :=
    fun s' => ((o.accounts.perm _).filter _).map _
  have hnd := fun s' : StateDB => ((hperm s').map Prod.fst).nodup_iff.mpr s'.nodup_accountPairs
  have hcurrent : ∀ a, ((o.addresses.pick s.addresses).foldl refreshStorageRoot s).account a
      = s.rootHash.2.account a := by
    intro a
    rw [account_foldl_of_perm (o.addresses.perm _), account_rootHash]
  rw [rootHashIn, hrefresh]
  simp only [patriciaRoot, patriciaNodes_of_perm (hnd _) (hperm _),
    patriciaNodes_accountPairs_congr hcurrent]
  rfl

/-! ### Equal roots, equal contents -/

/-- What is hashed for the root: the nodes of the accounts and those of all slots. -/
def trieEncodings (s : StateDB) : Set (List UInt8) :=
  s.rootEncodings ∪ { e | ∃ a ∈ s.addresses, e ∈ encodings (patriciaNodes (s.storagePairs a)).2 }

theorem storagePairs_subset_of_root_eq {s s' : StateDB} {S : Set (List UInt8)}
    (hS : CollisionFree S) (hz : ∀ e ∈ S, keccak256 e ≠ H256.zero)
    (hsub : s.trieEncodings ⊆ S) (hsub' : s'.trieEncodings ⊆ S) {a : Address}
    (h : s.computeStorageRoot a = s'.computeStorageRoot a) :
    ∀ kv ∈ s.storagePairs a, kv ∈ s'.storagePairs a := by
  have hnodes : ∀ t : StateDB, t.trieEncodings ⊆ S → t.storagePairs a ≠ [] →
      encodings (patriciaNodes (t.storagePairs a)).2 ⊆ S :=
    fun t ht hne e he => ht (.inr ⟨a, mem_addresses_of_storagePairs hne, he⟩)
  intro kv hkv
  have hne : s.storagePairs a ≠ [] := List.ne_nil_of_mem hkv
  have hroot : s.computeStorageRoot a = patriciaRoot (s.storagePairs a) :=
    if_neg (by simpa using hne)
  by_cases hne' : s'.storagePairs a = []
  · -- a trie with pairs does not hash to zero
    obtain ⟨e, he, hek⟩ := exists_encoding_patriciaRoot (s.storagePairs a)
    have hzero : s'.computeStorageRoot a = H256.zero := if_pos (by simp [hne'])
    exact absurd (hek.trans (hroot.symm.trans (h.trans hzero))) (hz e (hnodes s hsub hne he))
  · have hroot' : s'.computeStorageRoot a = patriciaRoot (s'.storagePairs a) :=
      if_neg (by simpa using hne')
    exact patriciaRoot_inj hS (hnodes s hsub hne) (hnodes s' hsub' hne') (s.nodup_storagePairs a)
      (s'.nodup_storagePairs a) (s.short_storagePairs a) (s'.short_storagePairs a)
      (hroot.symm.trans (h.trans hroot')) kv hkv

theorem getStorage_eq_of_root_eq {s s' : StateDB} {S : Set (List UInt8)}
    (hS : CollisionFree S) (hz : ∀ e ∈ S, keccak256 e ≠ H256.zero)
    (hsub : s.trieEncodings ⊆ S) (hsub' : s'.trieEncodings ⊆ S) {a : Address}
    (h : s.computeStorageRoot a = s'.computeStorageRoot a) (slot : H256) :
    s.getStorage a slot = s'.getStorage a slot := by
  by_cases hne : s.getStorage a slot = U256.zero
  · by_cases hne' : s'.getStorage a slot = U256.zero
    · rw [hne, hne']
    · exact (getStorage_eq_of_subset
        (storagePairs_subset_of_root_eq hS hz hsub' hsub h.symm) hne').symm
  · exact getStorage_eq_of_subset (storagePairs_subset_of_root_eq hS hz hsub hsub' h) hne

theorem computeStorageRoot_of_getStorage_eq {s s' : StateDB} {a : Address}
    (h : ∀ slot, s.getStorage a slot = s'.getStorage a slot) :
    s.computeStorageRoot a = s'.computeStorageRoot a := by
  have hperm : (s.storagePairs a).Perm (s'.storagePairs a) := by
    refine (List.perm_ext_iff_of_nodup (s.nodup_storagePairs a).of_map
      (s'.nodup_storagePairs a).of_map).mpr ?_
    rintro ⟨k, v⟩
    simp only [mem_storagePairs, h]
  exact (computeStorageRoot_of_perm hperm).symm

/-- **The root commits to the state and to nothing else**: to the nonce, balance and code hash
of every address, a missing account being an empty one, and to every slot. -/
theorem rootHashIn_eq_iff (s s' : StateDB) (o o' : MapOrders)
    (hS : CollisionFree (s.trieEncodings ∪ s'.trieEncodings))
    (hz : ∀ e ∈ s.trieEncodings ∪ s'.trieEncodings, keccak256 e ≠ H256.zero) :
    (s.rootHashIn o).1 = (s'.rootHashIn o').1 ↔
      (∀ a, (s.account a).nonce = (s'.account a).nonce
        ∧ (s.account a).balance = (s'.account a).balance
        ∧ (s.account a).codeHash = (s'.account a).codeHash)
      ∧ ∀ a slot, s.getStorage a slot = s'.getStorage a slot := by
  rw [rootHashIn_eq, rootHashIn_eq]
  constructor
  · intro h
    have hacc : ∀ a, s.rootHash.2.account a = s'.rootHash.2.account a :=
      account_eq_of_root_eq hS (fun e he => .inl (.inl he)) (fun e he => .inr (.inl he)) h
    simp only [account_rootHash, Account.mk.injEq] at hacc
    exact ⟨fun a => ⟨(hacc a).1, (hacc a).2.1, (hacc a).2.2.1⟩, fun a slot =>
      getStorage_eq_of_root_eq hS hz Set.subset_union_left Set.subset_union_right (hacc a).2.2.2
        slot⟩
  · rintro ⟨hacc, hslots⟩
    have hcurrent : ∀ a, s.rootHash.2.account a = s'.rootHash.2.account a := by
      intro a
      simp only [account_rootHash, Account.mk.injEq]
      exact ⟨(hacc a).1, (hacc a).2.1, (hacc a).2.2, computeStorageRoot_of_getStorage_eq (hslots a)⟩
    show patriciaRoot s.rootHash.2.accountPairs = patriciaRoot s'.rootHash.2.accountPairs
    rw [patriciaRoot, patriciaRoot, patriciaNodes_accountPairs_congr hcurrent]

end Orders

end StateDB

namespace Devnet

/-- The state of the network with an empty account and a zero slot written into its maps. -/
def paddedState : StateDB :=
  { state with
    accounts := state.accounts.insert sink Account.new
    storage := state.storage.insert (user, H256.zero) U256.zero }

/-- Every map from its last entry to its first. -/
def reversed : StateDB.MapOrders where
  addresses := ⟨List.reverse, List.reverse_perm⟩
  accounts := ⟨List.reverse, List.reverse_perm⟩
  slots _ := ⟨List.reverse, List.reverse_perm⟩

/-- What is hashed for the root of a state, in a list. -/
def trieEncodingList (s : StateDB) : List (List UInt8) :=
  (patriciaNodes s.rootHash.2.accountPairs).2.map Prod.snd
    ++ s.addresses.flatMap fun a => (patriciaNodes (s.storagePairs a)).2.map Prod.snd

theorem mem_trieEncodingList {s : StateDB} : ∀ e ∈ s.trieEncodings, e ∈ trieEncodingList s := by
  rintro e (⟨h, he⟩ | ⟨a, ha, h, he⟩)
  · exact List.mem_append_left _ (List.mem_map_of_mem he)
  · exact List.mem_append_right _ (List.mem_flatMap.mpr ⟨a, ha, List.mem_map_of_mem he⟩)

/-- An empty account, a zero slot and the order of iteration leave the root as it is. -/
theorem rootHashIn_paddedState :
    (state.rootHashIn ⟨inOrder, inOrder, fun _ => inOrder⟩).1
      = (paddedState.rootHashIn reversed).1 := by
  have heval : (∀ x ∈ trieEncodingList state ++ trieEncodingList paddedState,
      ∀ y ∈ trieEncodingList state ++ trieEncodingList paddedState,
        keccak256 x = keccak256 y → x = y)
      ∧ (∀ x ∈ trieEncodingList state ++ trieEncodingList paddedState, keccak256 x ≠ H256.zero)
      ∧ state.account sink = Account.new ∧ state.storage[(user, H256.zero)]? = none := by
    decide +kernel
  obtain ⟨hfree, hzero, hsink, hslot⟩ := heval
  have hmem : ∀ e ∈ state.trieEncodings ∪ paddedState.trieEncodings,
      e ∈ trieEncodingList state ++ trieEncodingList paddedState := by
    rintro e (he | he)
    · exact List.mem_append_left _ (mem_trieEncodingList e he)
    · exact List.mem_append_right _ (mem_trieEncodingList e he)
  refine (StateDB.rootHashIn_eq_iff state paddedState _ _ (CollisionFree.of_list hfree hmem)
    fun e he => hzero e (hmem e he)).mpr ⟨fun a => ?_, fun a slot => ?_⟩
  · have hacc : paddedState.account a = state.account a := by
      by_cases ha : a = sink
      · rw [ha, hsink, StateDB.account, StateDB.getAccount, paddedState, Table.get_insert_self]
        rfl
      · rw [StateDB.account, StateDB.getAccount, paddedState, Table.get_insert_of_ne _ _ ha]
        rfl
    rw [hacc]
    exact ⟨rfl, rfl, rfl⟩
  · rw [StateDB.getStorage, StateDB.getStorage, paddedState, Table.get_insert]
    split_ifs with hk
    · rw [hk, hslot]
      rfl
    · rfl

end Devnet

/-! ### The proofs of `eth_getProof` -/

/-- The answer of `eth_getProof`: the account with its nodes, and each slot with its value and
its nodes. -/
structure ProofAnswer where
  account : Account
  accountProof : List (List UInt8)
  storageProof : List (H256 × U256 × List (List UInt8))

namespace StateDB

theorem short_accountPairs (s : StateDB) : ∀ kv ∈ s.accountPairs, kv.1.length < 2 ^ 63 := by
  rintro ⟨k, v⟩ hkv
  obtain ⟨a, -, rfl, -⟩ := mem_accountPairs_iff.mp hkv
  show a.toList.length < 2 ^ 63
  rw [a.size]
  norm_num

theorem lastValue_accountPairs (s : StateDB) (a : Address) :
    Table.lastValue s.accountPairs a.toList
      = if (s.account a).isEmpty then none
        else some (Vec.ofList (Account.codec.encode (s.account a))) := by
  refine Option.ext fun v => ?_
  rw [Table.lastValue_eq_some_iff s.nodup_accountPairs, mem_accountPairs_iff]
  split_ifs with he
  · rw [Account.isEmpty_iff] at he
    constructor
    · rintro ⟨b, hne, hb, -⟩
      exact absurd (Arr.ext hb ▸ he) hne
    · exact fun h => (by cases h)
  · rw [Account.isEmpty_iff] at he
    constructor
    · rintro ⟨b, -, hb, rfl⟩
      rw [Arr.ext hb]
    · exact fun h => ⟨a, he, rfl, Option.some.inj h⟩

theorem lastValue_storagePairs (s : StateDB) (a : Address) (slot : H256) :
    Table.lastValue (s.storagePairs a) slot.toList
      = if (s.getStorage a slot).isZero then none
        else some (Vec.ofList (s.getStorage a slot).toBeBytes.toList) := by
  refine Option.ext fun v => ?_
  rw [Table.lastValue_eq_some_iff (s.nodup_storagePairs a), mem_storagePairs]
  split_ifs with hz
  · rw [U256.isZero_iff_eq] at hz
    constructor
    · rintro ⟨slot', hne, hk, -⟩
      exact absurd (Arr.ext hk ▸ hz) hne
    · exact fun h => (by cases h)
  · rw [U256.isZero_iff_eq] at hz
    constructor
    · rintro ⟨slot', -, hk, rfl⟩
      rw [Arr.ext hk]
    · exact fun h => ⟨slot, hz, rfl, Option.some.inj h⟩

section Answers

variable [Keccak]

/-- `account_proof`, and the state it leaves. -/
def accountProof (fuel : ℕ) (s : StateDB) (addr : Address) : Option TrieProof × StateDB :=
  let s' := s.syncAllStorageRoots
  (Trie.prove fuel s'.accountPairs addr.toList, s')

/-- `storage_proof`. -/
def storageProof (fuel : ℕ) (s : StateDB) (addr : Address) (slot : H256) : Option TrieProof :=
  Trie.prove fuel (s.storagePairs addr) slot.toList

/-- The loop of `eth_get_proof` over the slots. -/
def slotProofs (fuel : ℕ) (s : StateDB) (addr : Address) :
    List H256 → Option (Except ProofError (List (H256 × U256 × List (List UInt8))))
  | [] => some (.ok [])
  | slot :: slots => do
    let p ← s.storageProof fuel addr slot
    match ← Trie.verify p.root slot.toList p.nodes with
    | .error e => some (.error e)
    | .ok _ =>
      let rest ← slotProofs fuel s addr slots
      some (rest.map fun answers => (slot, s.getStorage addr slot, p.nodes) :: answers)

/-- `eth_get_proof` on the state that was asked for; an error is the text of the reply. -/
def ethGetProof (fuel : ℕ) (s : StateDB) (addr : Address) (slots : List H256) :
    Option (Except ProofError ProofAnswer) := do
  let (proof, s) := s.accountProof fuel addr
  let p ← proof
  match ← Trie.verify p.root addr.toList p.nodes with
  | .error e => some (.error e)
  | .ok _ =>
    let acc := s.account addr
    let answers ← s.slotProofs fuel addr slots
    some (answers.map fun storageProof => ⟨acc, p.nodes, storageProof⟩)

theorem slotProofs_eq {s : StateDB} {addr : Address}
    (hS : CollisionFree (encodings (patriciaNodes (s.storagePairs addr)).2)) :
    ∀ slots : List H256, ∃ answers,
      (∀ fuel > 64, s.slotProofs fuel addr slots = some (.ok answers))
      ∧ answers.map Prod.fst = slots
      ∧ ∀ e ∈ answers, e.2.1 = s.getStorage addr e.1
        ∧ Trie.verify (patriciaRoot (s.storagePairs addr)) e.1.toList e.2.2
          = some (.ok (if (s.getStorage addr e.1).isZero then none
              else some (Vec.ofList (s.getStorage addr e.1).toBeBytes.toList))) := by
  intro slots
  induction slots with
  | nil => exact ⟨[], fun fuel _ => rfl, rfl, fun e he => by cases he⟩
  | cons slot slots ih =>
    obtain ⟨answers, hfuel, hslots, hall⟩ := ih
    obtain ⟨nodes, hprove, hverify⟩ :=
      Trie.exists_prove (s.short_storagePairs addr) slot.toList hS
    refine ⟨(slot, s.getStorage addr slot, nodes) :: answers, fun fuel hf => ?_,
      by rw [List.map_cons, hslots], ?_⟩
    · have hp := hprove fuel (by rw [slot.size]; omega)
      simp only [slotProofs, storageProof, hp, hverify, hfuel fuel hf, bind, Option.bind_some]
      rfl
    · intro e he
      rcases List.mem_cons.mp he with rfl | he
      · exact ⟨rfl, by rw [hverify, lastValue_storagePairs]⟩
      · exact hall e he

/-- **The chain of `eth_getProof`.**  It answers; its account nodes verify against the state root
to the account, or to nothing if the account is empty; and its slot nodes verify to the slots,
against the storage root of the account if it has slots at all.  If it has none, its storage
root is `0x0` and the nodes verify against the root of an empty trie. -/
theorem ethGetProof_chain (s : StateDB) (addr : Address) (slots : List H256)
    (hS : CollisionFree s.rootEncodings)
    (hS' : CollisionFree (encodings (patriciaNodes (s.storagePairs addr)).2)) :
    ∃ answer, (∀ fuel > 64, s.ethGetProof fuel addr slots = some (.ok answer))
      ∧ answer.account = s.rootHash.2.account addr
      ∧ Trie.verify s.rootHash.1 addr.toList answer.accountProof
        = some (.ok (if answer.account.isEmpty then none
            else some (Vec.ofList (Account.codec.encode answer.account))))
      ∧ answer.storageProof.map Prod.fst = slots
      ∧ ∀ e ∈ answer.storageProof, e.2.1 = s.getStorage addr e.1
        ∧ ((∃ slot, s.getStorage addr slot ≠ U256.zero) →
          Trie.verify answer.account.storageRoot e.1.toList e.2.2
            = some (.ok (if e.2.1.isZero then none
                else some (Vec.ofList e.2.1.toBeBytes.toList))))
        ∧ ((∀ slot, s.getStorage addr slot = U256.zero) →
          answer.account.storageRoot = H256.zero
          ∧ Trie.verify emptyRoot e.1.toList e.2.2 = some (.ok none)) := by
  have hslot : ∀ slot, s.rootHash.2.getStorage addr slot = s.getStorage addr slot :=
    fun slot => by rw [getStorage, storage_rootHash, getStorage]
  have hpairs : s.rootHash.2.storagePairs addr = s.storagePairs addr := by
    rw [storagePairs, storage_rootHash, storagePairs]
  have hroot : (s.rootHash.2.account addr).storageRoot = s.computeStorageRoot addr := by
    rw [account_rootHash]
  obtain ⟨nodes, hprove, hverify⟩ :=
    Trie.exists_prove (short_accountPairs s.rootHash.2) addr.toList hS
  obtain ⟨answers, hfuel, hslots, hall⟩ := slotProofs_eq (hpairs.symm ▸ hS') slots
  rw [lastValue_accountPairs] at hverify
  refine ⟨⟨s.rootHash.2.account addr, nodes, answers⟩, fun fuel hf => ?_, rfl, hverify, hslots,
    fun e he => ?_⟩
  · have hp : (s.accountProof fuel addr).1 = some ⟨_, nodes, _⟩ :=
      hprove fuel (by rw [addr.size]; omega)
    have hs : (s.accountProof fuel addr).2 = s.rootHash.2 := rfl
    simp only [ethGetProof, hp, hs, lastValue_accountPairs, hverify, hfuel fuel hf, bind,
      Option.bind_some]
    rfl
  · obtain ⟨hvalue, hv⟩ := hall e he
    rw [hslot] at hvalue hv
    rw [hpairs] at hv
    refine ⟨hvalue, fun hsome => ?_, fun hno => ?_⟩
    · obtain ⟨slot, hne⟩ := hsome
      have hmem : s.storagePairs addr ≠ [] :=
        List.ne_nil_of_mem (mem_storagePairs.mpr ⟨slot, hne, rfl, rfl⟩)
      rw [hroot, computeStorageRoot, if_neg (by simpa using hmem), hv, hvalue]
    · have hnil : s.storagePairs addr = [] := by
        refine List.eq_nil_iff_forall_not_mem.mpr fun kv hkv => ?_
        obtain ⟨slot, hne, -⟩ := mem_storagePairs.mp hkv
        exact hne (hno slot)
      rw [hnil, hno, if_pos (U256.isZero_iff_eq.mpr rfl)] at hv
      exact ⟨by rw [hroot, computeStorageRoot, hnil]; rfl, hv⟩

end Answers

end StateDB

namespace Devnet

/-- The state of the network with one slot of the user set. -/
def slotState : StateDB := state.setStorage user H256.zero U256.one

/-- The slot is proved down from the state root. -/
theorem ethGetProof_chain_slotState : ∃ answer nodes,
    slotState.ethGetProof 65 user [H256.zero] = some (.ok answer)
    ∧ answer.storageProof = [(H256.zero, U256.one, nodes)]
    ∧ Trie.verify answer.account.storageRoot H256.zero.toList nodes
      = some (.ok (some (Vec.ofList U256.one.toBeBytes.toList))) := by
  have heval : (∀ x ∈ trieEncodingList slotState, ∀ y ∈ trieEncodingList slotState,
      keccak256 x = keccak256 y → x = y)
      ∧ user ∈ slotState.addresses ∧ slotState.getStorage user H256.zero = U256.one := by
    decide +kernel
  obtain ⟨hfree, huser, hone⟩ := heval
  have hne : U256.one ≠ U256.zero := by decide
  obtain ⟨answer, hfuel, -, -, hslots, hall⟩ := StateDB.ethGetProof_chain slotState user
    [H256.zero] (CollisionFree.of_list hfree fun e he => mem_trieEncodingList e (.inl he))
    (CollisionFree.of_list hfree fun e he => mem_trieEncodingList e (.inr ⟨user, huser, he⟩))
  obtain ⟨⟨slot, value, nodes⟩, rest, hcons, rfl, hrest⟩ := List.map_eq_cons_iff.mp hslots
  cases List.map_eq_nil_iff.mp hrest
  obtain ⟨hvalue, hsome, -⟩ := hall (H256.zero, value, nodes)
    (by rw [hcons]; exact List.mem_cons_self)
  replace hvalue : value = U256.one := hvalue.trans hone
  subst hvalue
  have hv := hsome ⟨H256.zero, by rw [hone]; exact hne⟩
  exact ⟨answer, nodes, hfuel 65 (by decide), hcons, hv⟩

/-- **An account without slots**: the nodes of a slot do not verify against the storage root of
the account, which is zero. -/
theorem storage_proof_of_no_slots : ∃ p : TrieProof,
    state.rootHash.2.storageProof 65 user H256.zero = some p
    ∧ state.getStorage user H256.zero = U256.zero
    ∧ (state.rootHash.2.account user).storageRoot = H256.zero
    ∧ Trie.verify (state.rootHash.2.account user).storageRoot H256.zero.toList p.nodes
      = some (.error .hashMismatch) := by
  refine ⟨⟨emptyRoot, [TrieNode.codec.encode .empty], none⟩, ?_⟩
  decide +kernel

end Devnet

end Ivory
