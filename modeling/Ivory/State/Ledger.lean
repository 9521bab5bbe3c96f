import Ivory.State.StateDB

/-!
# Nonces and balances

What the ledger sees of a state: the nonce and the balance of every address, a
missing account having neither, and the sum of all balances.  Storage writes
touch none of them.

* `StateDB.totalBalance_update`: **a write that moves one balance moves the total by
  as much.**
-/

namespace Ivory.StateDB

/-- The nonce of an address. -/
def nonce (s : StateDB) (a : Address) : UInt64 := (s.account a).nonce

/-- The balance of an address, as a number. -/
def balance (s : StateDB) (a : Address) : ℕ := (s.account a).balance.toNat

/-- The sum of all balances. -/
def totalBalance (s : StateDB) : ℕ := Table.total (fun acc => acc.balance.toNat) s.accounts

theorem weight_eq_balance (s : StateDB) (a : Address) :
    Table.weight (fun acc : Account => acc.balance.toNat) s.accounts a = s.balance a := by
  rw [balance, account, getAccount, Table.weight]
  cases s.accounts[a]? with
  | none => rfl
  | some acc => rfl

/-- **A write that moves one balance moves the total by as much.** -/
theorem totalBalance_update {s s' : StateDB} {a : Address}
    (h : ∀ b, b ≠ a → s'.balance b = s.balance b) :
    s'.totalBalance + s.balance a = s.totalBalance + s'.balance a := by
  have hw : ∀ b, b ≠ a → Table.weight (fun acc : Account => acc.balance.toNat) s'.accounts b
      = Table.weight (fun acc : Account => acc.balance.toNat) s.accounts b := by
    intro b hb
    rw [weight_eq_balance, weight_eq_balance, h b hb]
  have ht := Table.total_update _ hw
  rwa [weight_eq_balance, weight_eq_balance] at ht

theorem totalBalance_congr {s s' : StateDB} (h : ∀ b, s'.balance b = s.balance b) :
    s'.totalBalance = s.totalBalance := by
  have hu := totalBalance_update (a := Address.zero) (fun b _ => h b)
  have := h Address.zero
  omega

theorem totalBalance_add {s s' : StateDB} {b : Address} {n : ℕ}
    (h : ∀ a, s'.balance a = s.balance a + if a = b then n else 0) :
    s'.totalBalance = s.totalBalance + n := by
  have hw : ∀ a, a ≠ b → s'.balance a = s.balance a := by
    intro a ha
    rw [h a, if_neg ha, Nat.add_zero]
  have hu := totalBalance_update hw
  have hb := h b
  rw [if_pos rfl] at hb
  omega

theorem balance_le_totalBalance (s : StateDB) (a : Address) : s.balance a ≤ s.totalBalance := by
  -- the state without the account
  have hget : ∀ b, StateDB.balance { s with accounts := s.accounts.erase a } b
      = if b = a then 0 else s.balance b := by
    intro b
    rw [balance, account, getAccount]
    simp only [Table.get_erase]
    split_ifs with hb
    · rfl
    · rfl
  have hother : ∀ b, b ≠ a →
      StateDB.balance { s with accounts := s.accounts.erase a } b = s.balance b := by
    intro b hb
    rw [hget, if_neg hb]
  have hu := totalBalance_update hother
  rw [hget, if_pos rfl] at hu
  omega

section Writes

variable [Keccak]

theorem nonce_setAccount (s : StateDB) (a b : Address) (acc : Account) :
    (s.setAccount a acc).nonce b = if b = a then acc.nonce else s.nonce b := by
  rw [nonce, account_setAccount]
  split_ifs <;> rfl

theorem balance_setAccount (s : StateDB) (a b : Address) (acc : Account) :
    (s.setAccount a acc).balance b = if b = a then acc.balance.toNat else s.balance b := by
  rw [balance, account_setAccount]
  split_ifs <;> rfl

theorem ledger_setStorage (s : StateDB) (a b : Address) (slot : H256) (v : U256) :
    (s.setStorage a slot v).nonce b = s.nonce b
      ∧ (s.setStorage a slot v).balance b = s.balance b := by
  by_cases hb : b = a
  · rw [hb, nonce, balance, account_setStorage_self]
    exact ⟨rfl, rfl⟩
  · rw [nonce, balance, account, getAccount_setStorage_of_ne s slot v hb]
    exact ⟨rfl, rfl⟩

theorem codeHash_setStorage (s : StateDB) (a b : Address) (slot : H256) (v : U256) :
    ((s.setStorage a slot v).account b).codeHash = (s.account b).codeHash := by
  by_cases hb : b = a
  · rw [hb, account_setStorage_self]
  · rw [account, getAccount_setStorage_of_ne s slot v hb]
    rfl

theorem setAccount_setAccount (s : StateDB) (a : Address) (acc acc' : Account) :
    (s.setAccount a acc).setAccount a acc' = s.setAccount a acc' := by
  have hroot : (s.setAccount a acc).computeStorageRoot a = s.computeStorageRoot a :=
    computeStorageRoot_congr fun _ => rfl
  refine ext (Table.ext fun b => ?_) rfl rfl
  show ((s.accounts.insert a _).insert a _)[b]? = (s.accounts.insert a _)[b]?
  rw [hroot, Table.get_insert, Table.get_insert, Table.get_insert]
  split_ifs <;> rfl

theorem ledger_rootHash (s : StateDB) (b : Address) :
    s.rootHash.2.nonce b = s.nonce b ∧ s.rootHash.2.balance b = s.balance b := by
  rw [nonce, balance, account_rootHash]
  exact ⟨rfl, rfl⟩

theorem totalBalance_rootHash (s : StateDB) : s.rootHash.2.totalBalance = s.totalBalance :=
  totalBalance_congr fun b => (s.ledger_rootHash b).2

/-- What is hashed when the state root is computed. -/
def rootEncodings (s : StateDB) : Set (List UInt8) :=
  encodings (patriciaNodes s.rootHash.2.accountPairs).2

/-- **States with the same root have the same nonces**, as long as no hash collides. -/
theorem nonce_eq_of_rootHash_eq {s s' : StateDB} {S : Set (List UInt8)} (hS : CollisionFree S)
    (hsub : s.rootEncodings ⊆ S) (hsub' : s'.rootEncodings ⊆ S)
    (h : s.rootHash.1 = s'.rootHash.1) (a : Address) : s.nonce a = s'.nonce a := by
  have hacc := account_eq_of_root_eq hS hsub hsub' h a
  rw [← (s.ledger_rootHash a).1, ← (s'.ledger_rootHash a).1, nonce, nonce, hacc]

end Writes

end Ivory.StateDB
