import Ivory.Chain.Agreement

/-!
# The root binds the code

The state root is a hash over account records, and code lives in a map of its
own.  A record carries the hash of the code of its address, and a zero where
there is none.  Credits, refunds and storage writes carry the hash along; a creation
writes the hash and the code one after the other.

* `StateDB.CodeBound`: the records and the code map agree.
* `ChainOp.stateAt_run`: **what the execution of a block keeps, all snapshots have.**
* `ChainOp.code_bound`: **code is bound by the state root**, on every chain from a
  genesis without code.
-/

namespace Ivory

open BlockStore

namespace StateDB

/-- No code, and no code hash. -/
structure NoCode (s : StateDB) : Prop where
  code : ∀ a : Address, s.code[a]? = none
  codeHash : ∀ a, (s.account a).codeHash = H256.zero

theorem noCode_new : NoCode new := ⟨fun _ => Std.ExtTreeMap.getElem?_empty, fun _ => rfl⟩

variable [Keccak]

theorem NoCode.setAccount {s : StateDB} (h : s.NoCode) (a : Address) {acc : Account}
    (hacc : acc.codeHash = H256.zero) : (s.setAccount a acc).NoCode := by
  refine ⟨h.code, fun b => ?_⟩
  rw [account_setAccount]
  split_ifs
  · exact hacc
  · exact h.codeHash b

/-! ### Records and code -/

/-- Every code has a record with its hash, and every record with a hash has code of that hash. -/
structure CodeBound (s : StateDB) : Prop where
  entry : ∀ (a : Address) (code : Bytes), s.code[a]? = some code →
    ∃ acc, s.getAccount a = some acc ∧ acc.codeHash = keccak256 code.toList
  record : ∀ (a : Address) (acc : Account), s.getAccount a = some acc →
    acc.codeHash ≠ H256.zero →
      ∃ code : Bytes, s.code[a]? = some code ∧ acc.codeHash = keccak256 code.toList

theorem NoCode.codeBound {s : StateDB} (h : s.NoCode) : s.CodeBound where
  entry a code hc := by
    rw [h.code a] at hc
    cases hc
  record a acc hacc hne := by
    have hzero := h.codeHash a
    rw [account_of_some hacc] at hzero
    exact absurd hzero hne

namespace CodeBound

variable {s s' : StateDB}

/-- Writes that keep the code, all records and their code hashes keep the two in step; a record
that is new has no code hash then. -/
theorem of_codeHash (h : s.CodeBound) (hcode : s'.code = s.code)
    (hsome : ∀ a acc, s.getAccount a = some acc → ∃ acc', s'.getAccount a = some acc')
    (hhash : ∀ a, (s'.account a).codeHash = (s.account a).codeHash) : s'.CodeBound where
  entry a code hc := by
    rw [hcode] at hc
    obtain ⟨acc, hacc, heq⟩ := h.entry a code hc
    obtain ⟨acc', hacc'⟩ := hsome a acc hacc
    have hsame := hhash a
    rw [account_of_some hacc', account_of_some hacc] at hsame
    exact ⟨acc', hacc', hsame.trans heq⟩
  record a acc' hacc' hne := by
    have hsame := hhash a
    rw [account_of_some hacc'] at hsame
    cases hacc : s.getAccount a with
    | none =>
      rw [account, hacc] at hsame
      exact absurd hsame hne
    | some acc =>
      rw [account_of_some hacc] at hsame
      obtain ⟨code, hc, heq⟩ := h.record a acc hacc (hsame ▸ hne)
      exact ⟨code, hcode ▸ hc, hsame.trans heq⟩

theorem setAccount (h : s.CodeBound) {a : Address} {acc : Account}
    (hacc : acc.codeHash = (s.account a).codeHash) : (s.setAccount a acc).CodeBound := by
  refine h.of_codeHash rfl (fun b old hold => ?_) fun b => ?_
  · rw [getAccount_setAccount]
    split_ifs
    · exact ⟨_, rfl⟩
    · exact ⟨old, hold⟩
  · rw [account_setAccount]
    split_ifs with hb
    · rw [hb]
      exact hacc
    · rfl

theorem create (h : s.CodeBound) (a : Address) {acc : Account} {code : Bytes}
    (hacc : acc.codeHash = keccak256 code.toList) :
    ((s.setAccount a acc).setCode a code).CodeBound := by
  have hcode : ∀ b : Address, ((s.setAccount a acc).setCode a code).code[b]?
      = if b = a then some code else s.code[b]? := fun b => Table.get_insert _ _ _ _
  have hget : ∀ b, ((s.setAccount a acc).setCode a code).getAccount b
      = if b = a then some { acc with storageRoot := s.computeStorageRoot a }
        else s.getAccount b := fun b => getAccount_setAccount s a b acc
  refine ⟨fun b c hc => ?_, fun b x hx hne => ?_⟩
  · rw [hcode] at hc
    rw [hget]
    split_ifs at hc ⊢
    · cases hc
      exact ⟨_, rfl, hacc⟩
    · exact h.entry b c hc
  · rw [hget] at hx
    rw [hcode]
    split_ifs at hx ⊢
    · cases hx
      exact ⟨code, rfl, hacc⟩
    · exact h.record b x hx hne

theorem refreshStorageRoot (h : s.CodeBound) (a : Address) :
    (s.refreshStorageRoot a).CodeBound := by
  refine h.of_codeHash (code_refreshStorageRoot s a)
    (fun b acc hacc => getAccount_refreshStorageRoot_of_some hacc a) fun b => ?_
  by_cases hb : b = a
  · rw [hb, account_refreshStorageRoot_self]
  · rw [account_refreshStorageRoot_of_ne s hb]

theorem setStorage (h : s.CodeBound) (a : Address) (slot : H256) (v : U256) :
    (s.setStorage a slot v).CodeBound := by
  have hslots : ∀ slots, (⟨s.accounts, slots, s.code⟩ : StateDB).CodeBound :=
    fun _ => ⟨h.entry, h.record⟩
  unfold StateDB.setStorage
  exact (hslots _).refreshStorageRoot a

theorem rootHash (h : s.CodeBound) : s.rootHash.2.CodeBound :=
  List.foldlRecOn s.addresses StateDB.refreshStorageRoot (motive := CodeBound) h
    fun _ ht a _ => ht.refreshStorageRoot a

/-- **A transaction keeps code and records in step**, whether it succeeds or fails. -/
theorem executeTransaction [Wasmi] (h : s.CodeBound) (cfg : GasConfig) (ctx : ExecutionContext)
    (tx : Transaction) : (executeTransaction cfg s ctx tx).2.1.CodeBound :=
  executeTransaction_kept cfg ctx
    ⟨fun _ _ _ _ hacc ht => ht.setAccount hacc, fun _ _ _ hacc ht => ht.create _ hacc,
      fun callee _ _ slot v ht => ht.setStorage callee slot v⟩ h

end CodeBound

/-! ### Equal roots -/

/-- The code in a state. -/
def codes (s : StateDB) : Set (List UInt8) :=
  { e | ∃ (a : Address) (code : Bytes), s.code[a]? = some code ∧ e = code.toList }

theorem CodeBound.code_of_codeHash_eq {s s' : StateDB} (h : s.CodeBound) (h' : s'.CodeBound)
    {S : Set (List UInt8)} (hS : CollisionFree S) (hc : s.codes ⊆ S) (hc' : s'.codes ⊆ S)
    (hz : ∀ e ∈ s.codes, keccak256 e ≠ H256.zero) {a : Address}
    (ha : (s.account a).codeHash = (s'.account a).codeHash) {code : Bytes}
    (hcode : s.code[a]? = some code) : s'.code[a]? = some code := by
  obtain ⟨acc, hacc, heq⟩ := h.entry a code hcode
  rw [account_of_some hacc, heq] at ha
  have hne : s'.account a ≠ Account.new := by
    intro hnew
    rw [hnew] at ha
    exact hz _ ⟨a, code, hcode, rfl⟩ ha
  obtain ⟨code', hcode', heq'⟩ := h'.record a _ (getAccount_of_ne_new hne)
    (ha ▸ hz _ ⟨a, code, hcode, rfl⟩)
  have hlist : code'.toList = code.toList :=
    hS (hc' ⟨a, code', hcode', rfl⟩) (hc ⟨a, code, hcode, rfl⟩) (heq'.symm.trans ha.symm)
  rw [hcode', Vec.ext hlist]

/-- **States with the same root have the same code**, as long as no hash collides and no code
has the hash that stands for none. -/
theorem CodeBound.code_eq_of_rootHash_eq {s s' : StateDB} (h : s.CodeBound) (h' : s'.CodeBound)
    {S : Set (List UInt8)} (hS : CollisionFree S) (hsub : s.rootEncodings ∪ s.codes ⊆ S)
    (hsub' : s'.rootEncodings ∪ s'.codes ⊆ S)
    (hz : ∀ e ∈ s.codes ∪ s'.codes, keccak256 e ≠ H256.zero)
    (hroot : s.rootHash.1 = s'.rootHash.1) (a : Address) : s.code[a]? = s'.code[a]? := by
  obtain ⟨hr, hc⟩ := Set.union_subset_iff.mp hsub
  obtain ⟨hr', hc'⟩ := Set.union_subset_iff.mp hsub'
  have ha : (s.account a).codeHash = (s'.account a).codeHash := by
    have hacc := account_eq_of_root_eq hS hr hr' hroot a
    have hhash := congrArg Account.codeHash hacc
    rw [account_rootHash, account_rootHash] at hhash
    exact hhash
  refine Option.ext fun code => ⟨fun hcode => ?_, fun hcode => ?_⟩
  · exact h.code_of_codeHash_eq h' hS hc hc' (fun e he => hz e (.inl he)) ha hcode
  · exact h'.code_of_codeHash_eq h hS hc' hc (fun e he => hz e (.inr he)) ha.symm hcode

end StateDB

/-! ### Chains -/

namespace ChainOp

variable [Keccak] [Ed25519] [Wasmi]

/-- All snapshots of a store have `P`. -/
def SnapshotsHave (P : StateDB → Prop) (t : Tracked) : Prop :=
  StoreInv t.cs.store ∧ ∀ (h : H256) s, t.cs.store.snapshots[h]? = some s → P s

section Snapshots

variable {P : StateDB → Prop}
  (hP : ∀ s b outs post ctx, P s → executeBlock s b = .ok (outs, post, ctx) → P post.rootHash.2)

omit [Wasmi] in
theorem snapshotsHave_tracked {g : Genesis} (hg : P g.state) (pool : TransactionPool) :
    SnapshotsHave P (g.tracked pool) := by
  refine ⟨g.storeInv, fun h s hs => ?_⟩
  change g.store.snapshots[h]? = some s at hs
  rw [g.snapshots] at hs
  split_ifs at hs
  cases hs
  exact hg

include hP in
theorem SnapshotsHave.step {t : Tracked} (ht : SnapshotsHave P t) (op : ChainOp) :
    SnapshotsHave P (op.step t) := by
  obtain ⟨hi, hall⟩ := ht
  cases op with
  | importBlock b =>
    rw [ChainOp.step]
    rcases ChainState.importAndApply_cases hi b with
      ⟨e, he⟩ | ⟨pre, outs, post, ctx, outcome, store', cs', heq, ha⟩
    · rw [he]
      exact ⟨hi, hall⟩
    · rw [heq]
      refine ⟨ha.storeInv hi, fun h s hs => ?_⟩
      change cs'.store.snapshots[h]? = some s at hs
      rw [ha.snapshots, Table.get_insert] at hs
      split_ifs at hs
      · cases hs
        obtain ⟨pre', hpre, rfl⟩ := Option.map_eq_some_iff.mp ha.parent
        exact hP _ b outs post ctx (hall _ _ hpre) ha.executed
      · exact hall h s hs
  | pruneSnapshots =>
    have hp := pruned_pruneSnapshots hi
    exact ⟨hi.of_sameHeaders hp.same, fun h s hs => hall h s (hp.sub h s hs)⟩
  | pruneSnapshotsKeep keep =>
    have hp := pruned_pruneSnapshotsKeep hi keep
    exact ⟨hi.of_sameHeaders hp.same, fun h s hs => hall h s (hp.sub h s hs)⟩

include hP in
/-- **What the execution of a block keeps, all snapshots have**, if the genesis has it. -/
theorem stateAt_run {g : Genesis} (hg : P g.state) (pool : TransactionPool) (ops : List ChainOp)
    {h : H256} {s : StateDB} (hs : (run g pool ops).cs.store.stateAt h = some s) : P s := by
  have hrun : SnapshotsHave P (run g pool ops) :=
    List.foldlRecOn ops step (motive := SnapshotsHave P) (snapshotsHave_tracked hg pool)
      fun _ ht op _ => ht.step hP op
  obtain ⟨s₀, hs₀, rfl⟩ := Option.map_eq_some_iff.mp hs
  exact hrun.2 h s₀ hs₀

end Snapshots

theorem codeBound_run {g : Genesis} (hg : g.state.NoCode) (pool : TransactionPool)
    (ops : List ChainOp) {h : H256} {s : StateDB}
    (hs : (run g pool ops).cs.store.stateAt h = some s) : s.CodeBound := by
  refine stateAt_run (P := StateDB.CodeBound) (fun s b outs post ctx hb hexec => ?_) hg.codeBound
    pool ops hs
  exact (executeAll_kept (fun t ctx tx ht => ht.executeTransaction _ ctx tx) _ hb hexec).rootHash

/-- **Code is bound by the state root.**  In every snapshot of every run from a genesis without
code, an address with code has a record with exactly its hash, and a record with a code hash has
such code.  So two snapshots with the same root, of one run or of two, hold the same code at
every address. -/
theorem code_bound (g : Genesis) (hg : g.state.NoCode) (pool : TransactionPool)
    (ops : List ChainOp) (h : H256) (s : StateDB)
    (hs : (run g pool ops).cs.store.stateAt h = some s) :
    s.CodeBound
    ∧ ∀ (g' : Genesis) (pool' : TransactionPool) (ops' : List ChainOp) (h' : H256) (s' : StateDB),
      g'.state.NoCode → (run g' pool' ops').cs.store.stateAt h' = some s' →
      CollisionFree (s.rootEncodings ∪ s.codes ∪ (s'.rootEncodings ∪ s'.codes)) →
      (∀ e ∈ s.codes ∪ s'.codes, keccak256 e ≠ H256.zero) →
      s.rootHash.1 = s'.rootHash.1 → ∀ a : Address, s.code[a]? = s'.code[a]? := by
  have hb := codeBound_run hg pool ops hs
  refine ⟨hb, fun g' pool' ops' h' s' hg' hs' hS hz hroot a => ?_⟩
  have hb' := codeBound_run hg' pool' ops' hs'
  exact hb.code_eq_of_rootHash_eq hb' hS Set.subset_union_left Set.subset_union_right hz hroot a

end ChainOp

namespace Devnet

/-- The import of a block with the creation of a contract. -/
def createOps : List ChainOp := [.importBlock (produced [create])]

theorem noCode_state : state.NoCode := StateDB.noCode_new.setAccount user rfl

/-- The created contract has its code, and its record the hash of it. -/
theorem code_bound_create : ∃ s acc,
    (ChainOp.run genesis TransactionPool.new createOps).cs.store.stateAt
      (produced [create]).hash = some s
    ∧ s.getCode (Address.create user 0) = [42]
    ∧ s.getAccount (Address.create user 0) = some acc ∧ acc.codeHash = keccak256 [42] := by
  have heval : ((ChainOp.run genesis TransactionPool.new createOps).cs.store.stateAt
      (produced [create]).hash).map (fun s => s.code[Address.create user 0]?)
        = some (some (Vec.ofList [42])) := by decide +kernel
  obtain ⟨s, hs, hcode⟩ := Option.map_eq_some_iff.mp heval
  obtain ⟨hbound, -⟩ := ChainOp.code_bound genesis noCode_state TransactionPool.new createOps _ s hs
  obtain ⟨acc, hacc, hhash⟩ := hbound.entry _ _ hcode
  refine ⟨s, acc, hs, ?_, hacc, hhash⟩
  rw [StateDB.getCode, hcode]
  rfl

end Devnet

end Ivory
