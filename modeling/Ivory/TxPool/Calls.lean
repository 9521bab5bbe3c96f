import Ivory.Base.Interleaving
import Ivory.Devnet

/-!
# Concurrent calls on the pool

RPC requests, gossip and imports call `add_transaction` and `remove` at the same
time.  The three maps of the pool are concurrent maps: one operation on one map is
atomic, a call is a row of them.  `PoolCall` says where a call is.

An admission reads the count and the nonce of its sender and writes both later.
Two calls for one sender can read the same values before either writes
(`Devnet.double_admission`).

* `PoolCall.leads_adding`, `PoolCall.leads_removing`: a call that is not disturbed is
  `addTransactionAt` or `remove`.
* `PoolCall.consistent_of_exclusive`: **if the calls for one sender come one after the other, and
  admissions that have seen room all find it, the pool is consistent when the calls are done.**
-/

namespace Ivory

open Interleaving

/-- The arguments of `add_transaction_at`. -/
structure AddRequest where
  tx : Transaction
  origin : TxOrigin
  addedAtMs : UInt64

/-- Where a call is, with what it has read. -/
inductive PoolCall
  | adding (r : AddRequest)
  | fresh (r : AddRequest)
  | roomy (r : AddRequest)
  | counted (r : AddRequest) (senderCount : UInt64)
  | admitted (r : AddRequest) (senderCount expected : UInt64)
  | queued (r : AddRequest) (senderCount expected : UInt64)
  | advanced (r : AddRequest) (senderCount : UInt64)
  | removing (hash : H256)
  | removed (entry : PendingTx)
  | emptied (entry : PendingTx)
  | added (result : Except TxPoolError H256)
  | returned (entry : Option PendingTx)

namespace PoolCall

section

variable [Keccak] [Ed25519]

/-- The next step of a call: one operation on one of the maps. -/
def act (pool : TransactionPool) : PoolCall → TransactionPool × PoolCall
  | adding r =>
    -- the gas and the signature are checked before the first look at a map
    if r.tx.gas < pool.config.minGas then
      (pool, added (.error (.gasLimitTooLow pool.config.minGas r.tx.gas)))
    else
      match recoverSender r.tx with
      | .error _ => (pool, added (.error .invalidSignature))
      | .ok _ =>
        if pool.pending[r.tx.hash]?.isSome then (pool, added (.error .alreadyKnown))
        else (pool, fresh r)
  | fresh r =>
    if pool.pending.size ≥ pool.config.maxPending.toNat then (pool, added (.error .poolFull))
    else (pool, roomy r)
  | roomy r =>
    if pool.senderCount r.tx.sender ≥ pool.config.maxPerSender then
      (pool, added (.error .senderLimitReached))
    else (pool, counted r (pool.senderCount r.tx.sender))
  | counted r senderCount =>
    let expected := pool.expectedNonce r.tx.sender
    if r.tx.nonce < expected then (pool, added (.error (.nonceTooLow expected r.tx.nonce)))
    else if r.tx.nonce > expected then (pool, added (.error (.nonceGap expected r.tx.nonce)))
    else (pool, admitted r senderCount expected)
  | admitted r senderCount expected =>
    ({ pool with
        pending := pool.pending.insert r.tx.hash ⟨r.tx.hash, r.tx, r.origin, r.addedAtMs⟩ },
      queued r senderCount expected)
  | queued r senderCount expected =>
    ({ pool with nextNonce := pool.nextNonce.insert r.tx.sender (expected.saturatingAdd 1) },
      advanced r senderCount)
  | advanced r senderCount =>
    ({ pool with perSender := pool.perSender.insert r.tx.sender (senderCount.saturatingAdd 1) },
      added (.ok r.tx.hash))
  | removing hash =>
    match pool.pending[hash]? with
    | none => (pool, returned none)
    | some entry => ({ pool with pending := pool.pending.erase hash }, removed entry)
  | removed entry =>
    match pool.perSender[entry.tx.sender]? with
    | none => (pool, returned (some entry))
    | some count =>
      let count := count.saturatingSub 1
      ({ pool with perSender := pool.perSender.insert entry.tx.sender count },
        if count = 0 then emptied entry else returned (some entry))
  | emptied entry =>
    ({ pool with perSender := pool.perSender.erase entry.tx.sender }, returned (some entry))
  | added result => (pool, added result)
  | returned entry => (pool, returned entry)

/-! ### A call on its own -/

/-- **An admission that is not disturbed is `add_transaction_at`.** -/
theorem leads_adding (pool : TransactionPool) (r : AddRequest) :
    Leads act (pool, adding r) ((pool.addTransactionAt r.tx r.origin r.addedAtMs).2,
      added (pool.addTransactionAt r.tx r.origin r.addedAtMs).1) := by
  unfold TransactionPool.addTransactionAt
  refine .step ?_
  simp only [act]
  split
  · exact .refl _
  cases recoverSender r.tx with
  | error e => exact .refl _
  | ok a =>
    simp only
    split
    · exact .refl _
    refine .step ?_
    simp only [act]
    split
    · exact .refl _
    refine .step ?_
    simp only [act]
    split
    · exact .refl _
    refine .step ?_
    simp only [act]
    split
    · exact .refl _
    split
    · exact .refl _
    exact .step (.step (.step (.refl _)))

/-- **A removal that is not disturbed is `remove`.** -/
theorem leads_removing (pool : TransactionPool) (hash : H256) :
    Leads act (pool, removing hash) (pool.remove hash, returned pool.pending[hash]?) := by
  unfold TransactionPool.remove
  refine .step ?_
  simp only [act]
  cases pool.pending[hash]? with
  | none => exact .refl _
  | some entry =>
    refine .step ?_
    simp only [act]
    cases pool.perSender[entry.tx.sender]? with
    | none => exact .refl _
    | some count =>
      simp only
      split
      next hzero =>
        -- the entry that was set to zero is erased
        have herase : (pool.perSender.insert entry.tx.sender (count.saturatingSub 1)).erase
            entry.tx.sender = pool.perSender.erase entry.tx.sender := by
          refine Table.ext fun a => ?_
          rw [Table.get_erase, Table.get_erase]
          split
          · rfl
          · next hne => rw [Table.get_insert_of_ne _ _ hne]
        refine .step ?_
        simp only [act, herase]
        exact .refl _
      next => exact .refl _

end

/-! ### What the calls hold -/

/-- The sender that a call works for, from its first look at a map to its return. -/
def sender : PoolCall → Option Address
  | fresh r => some r.tx.sender
  | roomy r => some r.tx.sender
  | counted r _ => some r.tx.sender
  | admitted r _ _ => some r.tx.sender
  | queued r _ _ => some r.tx.sender
  | advanced r _ => some r.tx.sender
  | removed entry => some entry.tx.sender
  | emptied entry => some entry.tx.sender
  | _ => none

/-- The hash that an admission has not found and will insert. -/
def awaited [Keccak] : PoolCall → Option H256
  | fresh r => some r.tx.hash
  | roomy r => some r.tx.hash
  | counted r _ => some r.tx.hash
  | admitted r _ _ => some r.tx.hash
  | _ => none

/-- The sender that a call starts to work for with its next step. -/
def enters (pool : TransactionPool) : PoolCall → Option Address
  | adding r => some r.tx.sender
  | removing hash => pool.pending[hash]?.map fun entry => entry.tx.sender
  | _ => none

/-- The hash that an admission starts to work for with its next step. -/
def entersHash [Keccak] : PoolCall → Option H256
  | adding r => some r.tx.hash
  | _ => none

/-- The call has inserted an entry and will raise the next nonce of the sender. -/
def raising : PoolCall → Option Address
  | queued r _ _ => some r.tx.sender
  | _ => none

/-- Whether the next step of the call looks at the size of the pool. -/
def looksForRoom : PoolCall → Bool
  | fresh _ => true
  | _ => false

/-- Whether an admission has seen room and not used it yet. -/
def reserved : PoolCall → ℕ
  | roomy _ => 1
  | counted _ _ => 1
  | admitted _ _ _ => 1
  | _ => 0

/-- Whether the entry of the sender is in and the count is not raised yet. -/
def uncounted (a : Address) : PoolCall → ℕ
  | queued r _ _ => if r.tx.sender = a then 1 else 0
  | advanced r _ => if r.tx.sender = a then 1 else 0
  | _ => 0

/-- Whether the entry of the sender is out and the count is not lowered yet. -/
def overcounted (a : Address) : PoolCall → ℕ
  | removed entry => if entry.tx.sender = a then 1 else 0
  | _ => 0

theorem uncounted_eq_zero {a : Address} {call : PoolCall} (h : call.sender ≠ some a) :
    uncounted a call = 0 := by
  have hne {b : Address} (hb : call.sender = some b) : b ≠ a := fun heq => h (heq ▸ hb)
  cases call with
  | queued r n e => exact if_neg (hne rfl)
  | advanced r n => exact if_neg (hne rfl)
  | _ => rfl

theorem overcounted_eq_zero {a : Address} {call : PoolCall} (h : call.sender ≠ some a) :
    overcounted a call = 0 := by
  have hne {b : Address} (hb : call.sender = some b) : b ≠ a := fun heq => h (heq ▸ hb)
  cases call with
  | removed entry => exact if_neg (hne rfl)
  | _ => rfl

/-- Whether the call may still raise a next nonce. -/
def mayRaise : PoolCall → ℕ
  | adding _ => 1
  | fresh _ => 1
  | roomy _ => 1
  | counted _ _ => 1
  | admitted _ _ _ => 1
  | queued _ _ _ => 1
  | _ => 0

/-- Whether the call has returned. -/
def isFinal : PoolCall → Bool
  | added _ => true
  | returned _ => true
  | _ => false

/-- What a call has read still holds. -/
def Sound [Keccak] (pool : TransactionPool) : PoolCall → Prop
  | fresh r => pool.pending[r.tx.hash]? = none
  | roomy r => pool.pending[r.tx.hash]? = none
  | counted r n => pool.pending[r.tx.hash]? = none ∧ n = pool.senderCount r.tx.sender
    ∧ n < pool.config.maxPerSender
  | admitted r n e => pool.pending[r.tx.hash]? = none ∧ n = pool.senderCount r.tx.sender
    ∧ n < pool.config.maxPerSender ∧ e = pool.expectedNonce r.tx.sender ∧ r.tx.nonce = e
  | queued r n e => n = pool.senderCount r.tx.sender ∧ n < pool.config.maxPerSender
    ∧ e = pool.expectedNonce r.tx.sender ∧ r.tx.nonce = e
  | advanced r n => n = pool.senderCount r.tx.sender ∧ n < pool.config.maxPerSender
  | emptied entry => pool.perSender[entry.tx.sender]? = some 0
  | _ => True

theorem Sound.congr [Keccak] {pool pool' : TransactionPool} {call : PoolCall}
    (hs : Sound pool call) (hconfig : pool'.config = pool.config)
    (hpending : ∀ h, call.awaited = some h → pool.pending[h]? = none → pool'.pending[h]? = none)
    (hcount : ∀ a, call.sender = some a → pool'.perSender[a]? = pool.perSender[a]?)
    (hnonce : ∀ a, call.sender = some a → pool'.nextNonce[a]? = pool.nextNonce[a]?) :
    Sound pool' call := by
  cases call with
  | fresh r => exact hpending _ rfl hs
  | roomy r => exact hpending _ rfl hs
  | counted r n =>
    obtain ⟨hp, hn, hlt⟩ := hs
    refine ⟨hpending _ rfl hp, ?_, by rw [hconfig]; exact hlt⟩
    rw [hn, TransactionPool.senderCount, TransactionPool.senderCount, hcount _ rfl]
  | admitted r n e =>
    obtain ⟨hp, hn, hlt, he, hnonce'⟩ := hs
    refine ⟨hpending _ rfl hp, ?_, by rw [hconfig]; exact hlt, ?_, hnonce'⟩
    · rw [hn, TransactionPool.senderCount, TransactionPool.senderCount, hcount _ rfl]
    · rw [he, TransactionPool.expectedNonce, TransactionPool.expectedNonce, hnonce _ rfl]
  | queued r n e =>
    obtain ⟨hn, hlt, he, hnonce'⟩ := hs
    refine ⟨?_, by rw [hconfig]; exact hlt, ?_, hnonce'⟩
    · rw [hn, TransactionPool.senderCount, TransactionPool.senderCount, hcount _ rfl]
    · rw [he, TransactionPool.expectedNonce, TransactionPool.expectedNonce, hnonce _ rfl]
  | advanced r n =>
    obtain ⟨hn, hlt⟩ := hs
    refine ⟨?_, by rw [hconfig]; exact hlt⟩
    rw [hn, TransactionPool.senderCount, TransactionPool.senderCount, hcount _ rfl]
  | emptied entry => exact (hcount _ rfl).trans hs
  | adding r => trivial
  | removing hash => trivial
  | removed entry => trivial
  | added result => trivial
  | returned entry => trivial

end PoolCall

namespace TransactionPool

/-- The number of pending transactions of a sender. -/
def pendingOf (pool : TransactionPool) (a : Address) : ℕ :=
  Table.total (fun entry : PendingTx => if entry.tx.sender = a then 1 else 0) pool.pending

/-- A sender has at most one pending transaction with a nonce. -/
def Unique (pool : TransactionPool) : Prop :=
  ∀ (h h' : H256) (e e' : PendingTx), pool.pending[h]? = some e → pool.pending[h']? = some e' →
    e.tx.sender = e'.tx.sender → e.tx.nonce = e'.tx.nonce → h = h'

theorem pendingOf_insert (pool : TransactionPool) {h : H256} (hnone : pool.pending[h]? = none)
    (entry : PendingTx) (a : Address) :
    ({ pool with pending := pool.pending.insert h entry } : TransactionPool).pendingOf a
      = pool.pendingOf a + if entry.tx.sender = a then 1 else 0 := by
  let f : PendingTx → ℕ := fun entry => if entry.tx.sender = a then 1 else 0
  have hrest : ∀ b, b ≠ h →
      Table.weight f (pool.pending.insert h entry) b = Table.weight f pool.pending b := by
    intro b hb
    simp only [Table.weight, Table.get_insert_of_ne _ _ hb]
  have hupdate := Table.total_update f hrest
  rw [Table.weight_of_none hnone, Table.weight_of_some (Table.get_insert_self _ _ _)] at hupdate
  exact hupdate

theorem pendingOf_erase (pool : TransactionPool) {h : H256} {entry : PendingTx}
    (hsome : pool.pending[h]? = some entry) (a : Address) :
    ({ pool with pending := pool.pending.erase h } : TransactionPool).pendingOf a
      + (if entry.tx.sender = a then 1 else 0) = pool.pendingOf a := by
  let f : PendingTx → ℕ := fun entry => if entry.tx.sender = a then 1 else 0
  have hrest : ∀ b, b ≠ h →
      Table.weight f (pool.pending.erase h) b = Table.weight f pool.pending b := by
    intro b hb
    simp only [Table.weight, Table.get_erase, if_neg hb]
  have hupdate := Table.total_update f hrest
  have hnone : (pool.pending.erase h)[h]? = none := by rw [Table.get_erase, if_pos rfl]
  rw [Table.weight_of_some hsome, Table.weight_of_none hnone] at hupdate
  exact hupdate

theorem senderCount_insert (pool : TransactionPool) (a b : Address) (n : UInt64) :
    ({ pool with perSender := pool.perSender.insert a n } : TransactionPool).senderCount b
      = if b = a then n else pool.senderCount b := by
  simp only [senderCount, Table.get_insert]
  split <;> rfl

end TransactionPool

namespace PoolCall

variable {ι : Type} [Fintype ι]

/-- **The invariant of all interleavings.**  Every sender has at most one call that works for it;
its count is off by what that call has still to write. -/
structure Inv [Keccak] (B : ℕ) (c : Interleaving ι TransactionPool PoolCall) : Prop where
  apart : c.Apart sender
  apartHash : c.Apart awaited
  sound : ∀ i, Sound c.shared (c.calls i)
  counts : ∀ a, c.shared.pendingOf a + c.weight (overcounted a)
    = (c.shared.senderCount a).toNat + c.weight (uncounted a)
  limit : ∀ a, c.shared.senderCount a ≤ c.shared.config.maxPerSender
  nonces : ∀ (h : H256) e, c.shared.pending[h]? = some e →
    e.tx.nonce < c.shared.expectedNonce e.tx.sender
      ∨ (e.tx.nonce = c.shared.expectedNonce e.tx.sender
        ∧ ∃ i, (c.calls i).raising = some e.tx.sender)
  unique : c.shared.Unique
  room : c.shared.pending.size + c.weight reserved ≤ c.shared.config.maxPending.toNat
  bound : ∀ a, (c.shared.expectedNonce a).toNat + c.weight mayRaise ≤ B

/-- The calls for one sender, and the admissions of one hash, come one after the other; an
admission that sees room finds it even if all the others that have seen room come first. -/
structure Exclusive [Keccak] (c : Interleaving ι TransactionPool PoolCall) (i : ι) : Prop where
  sender : ∀ a ∈ (c.calls i).enters c.shared, ∀ j, j ≠ i → (c.calls j).sender ≠ some a
  hash : ∀ h ∈ (c.calls i).entersHash, ∀ j, j ≠ i → (c.calls j).awaited ≠ some h
  room : (c.calls i).looksForRoom = true →
    c.shared.pending.size < c.shared.config.maxPending.toNat →
    c.shared.pending.size + c.weight reserved < c.shared.config.maxPending.toNat

/-! ### The checks -/

section

variable [Keccak] [Ed25519] (pool : TransactionPool) (r : AddRequest)

theorem act_adding : (act pool (adding r)).1 = pool ∧ ((act pool (adding r)).2.isFinal = true
    ∨ ((act pool (adding r)).2 = fresh r ∧ pool.pending[r.tx.hash]? = none)) := by
  simp only [act]
  split
  · exact ⟨rfl, .inl rfl⟩
  cases recoverSender r.tx with
  | error e => exact ⟨rfl, .inl rfl⟩
  | ok a =>
    simp only
    split
    · exact ⟨rfl, .inl rfl⟩
    next h => exact ⟨rfl, .inr ⟨rfl, by simpa using h⟩⟩

theorem act_fresh : (act pool (fresh r)).1 = pool ∧ ((act pool (fresh r)).2.isFinal = true
    ∨ ((act pool (fresh r)).2 = roomy r
      ∧ pool.pending.size < pool.config.maxPending.toNat)) := by
  simp only [act]
  split
  · exact ⟨rfl, .inl rfl⟩
  next h => exact ⟨rfl, .inr ⟨rfl, Nat.not_le.mp h⟩⟩

theorem act_roomy : (act pool (roomy r)).1 = pool ∧ ((act pool (roomy r)).2.isFinal = true
    ∨ ((act pool (roomy r)).2 = counted r (pool.senderCount r.tx.sender)
      ∧ pool.senderCount r.tx.sender < pool.config.maxPerSender)) := by
  simp only [act]
  split
  · exact ⟨rfl, .inl rfl⟩
  next h => exact ⟨rfl, .inr ⟨rfl, UInt64.not_le.mp h⟩⟩

theorem act_counted (n : UInt64) : (act pool (counted r n)).1 = pool
    ∧ ((act pool (counted r n)).2.isFinal = true
      ∨ ((act pool (counted r n)).2 = admitted r n (pool.expectedNonce r.tx.sender)
        ∧ r.tx.nonce = pool.expectedNonce r.tx.sender)) := by
  simp only [act]
  split
  · exact ⟨rfl, .inl rfl⟩
  next hlow =>
  split
  · exact ⟨rfl, .inl rfl⟩
  next hgap =>
  exact ⟨rfl, .inr ⟨rfl, UInt64.le_antisymm (UInt64.not_lt.mp hgap) (UInt64.not_lt.mp hlow)⟩⟩

end

namespace Inv

variable [Keccak] {B : ℕ} {c c' : Interleaving ι TransactionPool PoolCall} {i : ι}

theorem of_step (hinv : Inv B c) (hcalls : ∀ j, j ≠ i → c'.calls j = c.calls j)
    (hsender : ∀ a, (c'.calls i).sender = some a → ∀ j, j ≠ i → (c.calls j).sender ≠ some a)
    (hhash : ∀ h, (c'.calls i).awaited = some h → ∀ j, j ≠ i → (c.calls j).awaited ≠ some h)
    (hsound : Sound c'.shared (c'.calls i))
    (hothers : ∀ j, j ≠ i → Sound c'.shared (c.calls j))
    (hcounts : ∀ a, c'.shared.pendingOf a + c'.weight (overcounted a)
      = (c'.shared.senderCount a).toNat + c'.weight (uncounted a))
    (hlimit : ∀ a, c'.shared.senderCount a ≤ c'.shared.config.maxPerSender)
    (hnonces : ∀ (h : H256) e, c'.shared.pending[h]? = some e →
      e.tx.nonce < c'.shared.expectedNonce e.tx.sender
        ∨ (e.tx.nonce = c'.shared.expectedNonce e.tx.sender
          ∧ ((c'.calls i).raising = some e.tx.sender
            ∨ ∃ j, j ≠ i ∧ (c.calls j).raising = some e.tx.sender)))
    (hunique : c'.shared.Unique)
    (hroom : c'.shared.pending.size + c'.weight reserved ≤ c'.shared.config.maxPending.toNat)
    (hbound : ∀ a, (c'.shared.expectedNonce a).toNat + c'.weight mayRaise ≤ B) : Inv B c' where
  apart := hinv.apart.of_step hcalls hsender
  apartHash := hinv.apartHash.of_step hcalls hhash
  sound j := by
    by_cases hj : j = i
    · rw [hj]
      exact hsound
    · rw [hcalls j hj]
      exact hothers j hj
  counts := hcounts
  limit := hlimit
  nonces h e he := by
    rcases hnonces h e he with hlt | ⟨heq, hi | ⟨j, hj, hr⟩⟩
    · exact .inl hlt
    · exact .inr ⟨heq, i, hi⟩
    · exact .inr ⟨heq, j, by rw [hcalls j hj]; exact hr⟩
  unique := hunique
  room := hroom
  bound := hbound

theorem sender_ne (hinv : Inv B c) {a : Address} (hi : (c.calls i).sender = some a) (j : ι)
    (hj : j ≠ i) : (c.calls j).sender ≠ some a := hinv.apart i j a (Ne.symm hj) hi

theorem awaited_ne (hinv : Inv B c) {h : H256} (hi : (c.calls i).awaited = some h) (j : ι)
    (hj : j ≠ i) : (c.calls j).awaited ≠ some h := hinv.apartHash i j h (Ne.symm hj) hi

theorem nonces_cases (hinv : Inv B c) (i : ι) {h : H256} {e : PendingTx}
    (he : c.shared.pending[h]? = some e) : e.tx.nonce < c.shared.expectedNonce e.tx.sender
      ∨ (e.tx.nonce = c.shared.expectedNonce e.tx.sender
        ∧ ((c.calls i).raising = some e.tx.sender
          ∨ ∃ j, j ≠ i ∧ (c.calls j).raising = some e.tx.sender)) := by
  rcases hinv.nonces h e he with hlt | ⟨heq, j, hj⟩
  · exact .inl hlt
  · by_cases hji : j = i
    · exact .inr ⟨heq, .inl (hji ▸ hj)⟩
    · exact .inr ⟨heq, .inr ⟨j, hji, hj⟩⟩

theorem look [DecidableEq ι] (hinv : Inv B c) (hcalls : ∀ j, j ≠ i → c'.calls j = c.calls j)
    (hpool : c'.shared = c.shared)
    (hsender : ∀ a, (c'.calls i).sender = some a → ∀ j, j ≠ i → (c.calls j).sender ≠ some a)
    (hhash : ∀ h, (c'.calls i).awaited = some h → ∀ j, j ≠ i → (c.calls j).awaited ≠ some h)
    (hsound : Sound c.shared (c'.calls i)) (hraising : (c.calls i).raising = none)
    (huncounted : ∀ a, uncounted a (c'.calls i) = uncounted a (c.calls i))
    (hovercounted : ∀ a, overcounted a (c'.calls i) = overcounted a (c.calls i))
    (hroom : c.shared.pending.size + c'.weight reserved ≤ c.shared.config.maxPending.toNat)
    (hmay : mayRaise (c'.calls i) ≤ mayRaise (c.calls i)) : Inv B c' := by
  have hweight (w : PoolCall → ℕ) := weight_step w hcalls
  refine hinv.of_step hcalls hsender hhash (hpool ▸ hsound) (fun j _ => hpool ▸ hinv.sound j)
    (fun a => ?_) (hpool ▸ hinv.limit) (fun h e he => ?_) (hpool ▸ hinv.unique) (hpool ▸ hroom)
    (fun a => ?_)
  · have hc := hinv.counts a
    have hu := hweight (uncounted a)
    have ho := hweight (overcounted a)
    rw [huncounted] at hu
    rw [hovercounted] at ho
    rw [hpool]
    omega
  · rw [hpool] at he ⊢
    rcases hinv.nonces_cases i he with hlt | ⟨heq, hr | hr⟩
    · exact .inl hlt
    · rw [hraising] at hr
      cases hr
    · exact .inr ⟨heq, .inr hr⟩
  · have hb := hinv.bound a
    have hm := hweight mayRaise
    rw [hpool]
    omega

/-- The entry goes in.  Its nonce is the next one, and no pending transaction of the sender has it:
only a call that works for the sender could have put one there. -/
theorem enqueue [DecidableEq ι] {r : AddRequest} {n e : UInt64} (hinv : Inv B c)
    (hcalls : ∀ j, j ≠ i → c'.calls j = c.calls j) (hcall : c.calls i = admitted r n e)
    (hcall' : c'.calls i = queued r n e)
    (hpool : c'.shared = { c.shared with
      pending := c.shared.pending.insert r.tx.hash ⟨r.tx.hash, r.tx, r.origin, r.addedAtMs⟩ }) :
    Inv B c' := by
  have hs := hinv.sound i
  rw [hcall] at hs
  obtain ⟨hnone, hn, hlt, he, hnonce⟩ := hs
  have hsi : (c.calls i).sender = some r.tx.sender := by rw [hcall]; rfl
  have hwi : (c.calls i).awaited = some r.tx.hash := by rw [hcall]; rfl
  have hweight (w : PoolCall → ℕ) := weight_step w hcalls
  have hget (h : H256) : c'.shared.pending[h]?
      = if h = r.tx.hash then some ⟨r.tx.hash, r.tx, r.origin, r.addedAtMs⟩
        else c.shared.pending[h]? := by
    rw [hpool]
    exact Table.get_insert _ _ _ _
  have hraises (j : ι) (hj : (c.calls j).raising = some r.tx.sender) : False := by
    -- it would work for the same sender
    by_cases hji : j = i
    · rw [hji, hcall] at hj
      cases hj
    · refine hinv.sender_ne hsi j hji ?_
      cases hc : c.calls j <;> rw [hc] at hj <;> first | exact hj | cases hj
  have hold {h : H256} {e' : PendingTx} (he' : c.shared.pending[h]? = some e')
      (hsender : e'.tx.sender = r.tx.sender) : e'.tx.nonce ≠ r.tx.nonce := by
    rcases hinv.nonces h e' he' with hlt' | ⟨-, j, hj⟩
    · rw [hsender, ← he, ← hnonce] at hlt'
      exact UInt64.ne_of_lt hlt'
    · rw [hsender] at hj
      exact (hraises j hj).elim
  refine hinv.of_step hcalls ?_ ?_ ?_ (fun j hj => ?_) (fun a => ?_) ?_ (fun h e' he' => ?_)
    (fun h h' e₁ e₂ he₁ he₂ hsender hn' => ?_) ?_ (fun a => ?_)
  · rw [hcall']
    rintro _ ⟨⟩
    exact hinv.sender_ne hsi
  · rw [hcall']
    rintro _ ⟨⟩
  · rw [hcall', hpool]
    exact ⟨hn, hlt, he, hnonce⟩
  · refine (hinv.sound j).congr (by rw [hpool]) (fun h hh hp => ?_) (fun _ _ => by rw [hpool])
      fun _ _ => by rw [hpool]
    rw [hget, if_neg, hp]
    rintro rfl
    exact hinv.awaited_ne hwi j hj hh
  · have hc := hinv.counts a
    have hu := hweight (uncounted a)
    have ho := hweight (overcounted a)
    have hp : c'.shared.pendingOf a
        = c.shared.pendingOf a + if r.tx.sender = a then 1 else 0 := by
      rw [hpool]
      exact c.shared.pendingOf_insert hnone ⟨r.tx.hash, r.tx, r.origin, r.addedAtMs⟩ a
    have hsc : c'.shared.senderCount a = c.shared.senderCount a := by rw [hpool]; rfl
    rw [hcall, hcall'] at hu ho
    simp only [uncounted, overcounted] at hu ho
    rw [hp, hsc]
    omega
  · rw [hpool]
    exact hinv.limit
  · rw [hget] at he'
    split at he'
    · cases he'
      refine .inr ⟨?_, .inl (by rw [hcall']; rfl)⟩
      rw [hpool]
      exact hnonce.trans he
    · have hexp : c'.shared.expectedNonce = c.shared.expectedNonce := by rw [hpool]; rfl
      rw [hexp]
      rcases hinv.nonces_cases i he' with hlt' | ⟨heq, hr | hr⟩
      · exact .inl hlt'
      · rw [hcall] at hr
        cases hr
      · exact .inr ⟨heq, .inr hr⟩
  · rw [hget] at he₁ he₂
    split at he₁ <;> split at he₂
    next h₁ h₂ => rw [h₁, h₂]
    next h₁ h₂ =>
      cases he₁
      exact absurd hn'.symm (hold he₂ hsender.symm)
    next h₁ h₂ =>
      cases he₂
      exact absurd hn' (hold he₁ hsender)
    next h₁ h₂ => exact hinv.unique h h' e₁ e₂ he₁ he₂ hsender hn'
  · have hr := hweight reserved
    rw [hcall, hcall'] at hr
    have hroom := hinv.room
    have hsize : c'.shared.pending.size ≤ c.shared.pending.size + 1 := by
      rw [hpool]
      exact Std.ExtTreeMap.size_insert_le
    have hconfig : c'.shared.config = c.shared.config := by rw [hpool]
    simp only [reserved] at hr
    rw [hconfig]
    omega
  · have hm := hweight mayRaise
    rw [hcall, hcall'] at hm
    have hb := hinv.bound a
    have hexp : c'.shared.expectedNonce = c.shared.expectedNonce := by rw [hpool]; rfl
    simp only [mayRaise] at hm
    rw [hexp]
    omega

theorem advance [DecidableEq ι] {r : AddRequest} {n e : UInt64} (hinv : Inv B c) (hB : B < 2 ^ 64)
    (hcalls : ∀ j, j ≠ i → c'.calls j = c.calls j) (hcall : c.calls i = queued r n e)
    (hcall' : c'.calls i = advanced r n)
    (hpool : c'.shared = { c.shared with
      nextNonce := c.shared.nextNonce.insert r.tx.sender (e.saturatingAdd 1) }) : Inv B c' := by
  have hs := hinv.sound i
  rw [hcall] at hs
  obtain ⟨hn, hlt, he, hnonce⟩ := hs
  have hsi : (c.calls i).sender = some r.tx.sender := by rw [hcall]; rfl
  have hweight (w : PoolCall → ℕ) := weight_step w hcalls
  have hget (a : Address) : c'.shared.nextNonce[a]?
      = if a = r.tx.sender then some (e.saturatingAdd 1) else c.shared.nextNonce[a]? := by
    rw [hpool]
    exact Table.get_insert _ _ _ _
  have hexp (a : Address) : c'.shared.expectedNonce a
      = if a = r.tx.sender then e.saturatingAdd 1 else c.shared.expectedNonce a := by
    simp only [TransactionPool.expectedNonce, hget]
    split <;> rfl
  have hm := hweight mayRaise
  rw [hcall, hcall'] at hm
  simp only [mayRaise] at hm
  -- fewer than `2 ^ 64` admissions: no saturation
  have hsucc : (e.saturatingAdd 1).toNat = e.toNat + 1 := by
    have hb := hinv.bound r.tx.sender
    rw [← he] at hb
    rw [UInt64.toNat_saturatingAdd, UInt64.toNat_one]
    omega
  refine hinv.of_step hcalls ?_ ?_ ?_ (fun j hj => ?_) (fun a => ?_) ?_ (fun h e' he' => ?_) ?_ ?_
    (fun a => ?_)
  · rw [hcall']
    rintro _ ⟨⟩
    exact hinv.sender_ne hsi
  · rw [hcall']
    rintro _ ⟨⟩
  · rw [hcall', hpool]
    exact ⟨hn, hlt⟩
  · refine (hinv.sound j).congr (by rw [hpool]) (fun _ _ hp => by rw [hpool]; exact hp)
      (fun _ _ => by rw [hpool]) fun a ha => ?_
    rw [hget, if_neg]
    rintro rfl
    exact hinv.sender_ne hsi j hj ha
  · have hc := hinv.counts a
    have hu := hweight (uncounted a)
    have ho := hweight (overcounted a)
    rw [hcall, hcall'] at hu ho
    simp only [uncounted, overcounted] at hu ho
    rw [hpool]
    show c.shared.pendingOf a + _ = (c.shared.senderCount a).toNat + _
    omega
  · rw [hpool]
    exact hinv.limit
  · rw [hpool] at he'
    rw [hexp]
    by_cases hsender : e'.tx.sender = r.tx.sender
    · rw [if_pos hsender, UInt64.lt_iff_toNat_lt, hsucc]
      have hold := hinv.nonces_cases i he'
      rw [hsender, ← he] at hold
      rcases hold with hlt' | ⟨heq, -⟩
      · rw [UInt64.lt_iff_toNat_lt] at hlt'
        exact .inl (by omega)
      · rw [heq]
        exact .inl (Nat.lt_succ_self _)
    · rw [if_neg hsender]
      rcases hinv.nonces_cases i he' with hlt' | ⟨heq, hr | hr⟩
      · exact .inl hlt'
      · rw [hcall] at hr
        exact absurd (Option.some.inj hr).symm hsender
      · exact .inr ⟨heq, .inr hr⟩
  · rw [hpool]
    exact hinv.unique
  · have hr := hweight reserved
    rw [hcall, hcall'] at hr
    simp only [reserved] at hr
    have hroom := hinv.room
    rw [hpool]
    show c.shared.pending.size + _ ≤ c.shared.config.maxPending.toNat
    omega
  · rw [hexp]
    have hb := hinv.bound a
    split
    next ha =>
      rw [ha, ← he] at hb
      omega
    next => omega

theorem recount [DecidableEq ι] {a : Address} (hinv : Inv B c)
    (hcalls : ∀ j, j ≠ i → c'.calls j = c.calls j) (hsi : (c.calls i).sender = some a)
    (hsi' : ∀ b, (c'.calls i).sender = some b → b = a) (hwi' : (c'.calls i).awaited = none)
    (hraising : (c.calls i).raising = none) (hsound : Sound c'.shared (c'.calls i))
    {perSender : Table Address UInt64}
    (hpool : c'.shared = { c.shared with perSender := perSender })
    (hother : ∀ b, b ≠ a → perSender[b]? = c.shared.perSender[b]?)
    (huncounted : ∀ b, b ≠ a → uncounted b (c'.calls i) = uncounted b (c.calls i))
    (hovercounted : ∀ b, b ≠ a → overcounted b (c'.calls i) = overcounted b (c.calls i))
    (hcount : c.shared.pendingOf a + c'.weight (overcounted a)
      = (c'.shared.senderCount a).toNat + c'.weight (uncounted a))
    (hlimit : c'.shared.senderCount a ≤ c.shared.config.maxPerSender)
    (hreserved : reserved (c'.calls i) ≤ reserved (c.calls i))
    (hmay : mayRaise (c'.calls i) ≤ mayRaise (c.calls i)) : Inv B c' := by
  have hweight (w : PoolCall → ℕ) := weight_step w hcalls
  have hsc (b : Address) (hb : b ≠ a) : c'.shared.senderCount b = c.shared.senderCount b := by
    rw [hpool, TransactionPool.senderCount, TransactionPool.senderCount, hother b hb]
  refine hinv.of_step hcalls (fun b hb => ?_) ?_ hsound (fun j hj => ?_) (fun b => ?_) (fun b => ?_)
    (fun h e he => ?_) (by rw [hpool]; exact hinv.unique) ?_ (fun b => ?_)
  · rw [hsi' b hb]
    exact hinv.sender_ne hsi
  · rw [hwi']
    rintro _ ⟨⟩
  · refine (hinv.sound j).congr (by rw [hpool]) (fun _ _ hp => by rw [hpool]; exact hp)
      (fun b hb => ?_) fun _ _ => by rw [hpool]
    rw [hpool]
    refine hother b ?_
    rintro rfl
    exact hinv.sender_ne hsi j hj hb
  · have hp : c'.shared.pendingOf b = c.shared.pendingOf b := by rw [hpool]; rfl
    rw [hp]
    by_cases hb : b = a
    · rw [hb]
      exact hcount
    · have hc := hinv.counts b
      have hu := hweight (uncounted b)
      have ho := hweight (overcounted b)
      rw [huncounted b hb] at hu
      rw [hovercounted b hb] at ho
      rw [hsc b hb]
      omega
  · have hconfig : c'.shared.config = c.shared.config := by rw [hpool]
    rw [hconfig]
    by_cases hb : b = a
    · rw [hb]
      exact hlimit
    · rw [hsc b hb]
      exact hinv.limit b
  · rw [hpool] at he ⊢
    rcases hinv.nonces_cases i he with hlt | ⟨heq, hr | hr⟩
    · exact .inl hlt
    · rw [hraising] at hr
      cases hr
    · exact .inr ⟨heq, .inr hr⟩
  · have hr := hweight reserved
    have hroom := hinv.room
    rw [hpool]
    show c.shared.pending.size + _ ≤ c.shared.config.maxPending.toNat
    omega
  · have hm := hweight mayRaise
    have hb := hinv.bound b
    rw [hpool]
    show (c.shared.expectedNonce b).toNat + _ ≤ B
    omega

theorem count [DecidableEq ι] {r : AddRequest} {n : UInt64} (hinv : Inv B c)
    (hcalls : ∀ j, j ≠ i → c'.calls j = c.calls j) (hcall : c.calls i = advanced r n)
    (hcall' : c'.calls i = added (.ok r.tx.hash))
    (hpool : c'.shared = { c.shared with
      perSender := c.shared.perSender.insert r.tx.sender (n.saturatingAdd 1) }) : Inv B c' := by
  have hs := hinv.sound i
  rw [hcall] at hs
  obtain ⟨hn, hlt⟩ := hs
  rw [UInt64.lt_iff_toNat_lt] at hlt
  have hmax := c.shared.config.maxPerSender.toNat_lt
  have hsucc : (n.saturatingAdd 1).toNat = n.toNat + 1 := by
    rw [UInt64.toNat_saturatingAdd, UInt64.toNat_one]
    omega
  have hsc : c'.shared.senderCount r.tx.sender = n.saturatingAdd 1 := by
    rw [hpool, TransactionPool.senderCount_insert, if_pos rfl]
  refine hinv.recount hcalls (by rw [hcall]; rfl) ?_ (by rw [hcall']; rfl) (by rw [hcall]; rfl)
    (by rw [hcall']; trivial) hpool (fun b hb => Table.get_insert_of_ne _ _ hb) (fun b hb => ?_)
    (fun b _ => ?_) ?_ ?_ ?_ ?_
  · rw [hcall']
    rintro _ ⟨⟩
  · rw [hcall, hcall']
    exact (if_neg (Ne.symm hb)).symm
  · rw [hcall, hcall']
    rfl
  · have hc := hinv.counts r.tx.sender
    have hu := weight_step (uncounted r.tx.sender) hcalls
    have ho := weight_step (overcounted r.tx.sender) hcalls
    rw [hcall, hcall'] at hu ho
    simp only [uncounted, overcounted, if_true] at hu ho
    rw [hsc, hsucc]
    rw [← hn] at hc
    omega
  · rw [hsc, UInt64.le_iff_toNat_le, hsucc]
    exact hlt
  · rw [hcall, hcall']
    exact le_rfl
  · rw [hcall, hcall']
    exact le_rfl

theorem dequeue [DecidableEq ι] {hash : H256} {entry : PendingTx} (hinv : Inv B c)
    (hex : Exclusive c i) (hcalls : ∀ j, j ≠ i → c'.calls j = c.calls j)
    (hcall : c.calls i = removing hash) (hsome : c.shared.pending[hash]? = some entry)
    (hcall' : c'.calls i = removed entry)
    (hpool : c'.shared = { c.shared with pending := c.shared.pending.erase hash }) : Inv B c' := by
  have hweight (w : PoolCall → ℕ) := weight_step w hcalls
  have hget {h : H256} {e : PendingTx} (he : c'.shared.pending[h]? = some e) :
      c.shared.pending[h]? = some e := by
    rw [hpool, Table.get_erase] at he
    split at he
    · cases he
    · exact he
  refine hinv.of_step hcalls ?_ ?_ (by rw [hcall']; trivial) (fun j hj => ?_) (fun a => ?_)
    (by rw [hpool]; exact hinv.limit) (fun h e he => ?_)
    (fun h h' e e' he he' => hinv.unique h h' e e' (hget he) (hget he')) ?_ (fun a => ?_)
  · rw [hcall']
    rintro _ ⟨⟩
    refine hex.sender entry.tx.sender ?_
    rw [hcall, enters, hsome]
    rfl
  · rw [hcall']
    rintro _ ⟨⟩
  · refine (hinv.sound j).congr (by rw [hpool]) (fun h _ hp => ?_) (fun _ _ => by rw [hpool])
      fun _ _ => by rw [hpool]
    cases hc : c'.shared.pending[h]? with
    | none => rfl
    | some e =>
      rw [hget hc] at hp
      cases hp
  · have hc := hinv.counts a
    have hu := hweight (uncounted a)
    have ho := hweight (overcounted a)
    have hp : c'.shared.pendingOf a + (if entry.tx.sender = a then 1 else 0)
        = c.shared.pendingOf a := by
      rw [hpool]
      exact c.shared.pendingOf_erase hsome a
    have hsc : c'.shared.senderCount a = c.shared.senderCount a := by rw [hpool]; rfl
    rw [hcall, hcall'] at hu ho
    simp only [uncounted, overcounted] at hu ho
    rw [hsc]
    omega
  · have hexp : c'.shared.expectedNonce = c.shared.expectedNonce := by rw [hpool]; rfl
    rw [hexp]
    rcases hinv.nonces_cases i (hget he) with hlt | ⟨heq, hr | hr⟩
    · exact .inl hlt
    · rw [hcall] at hr
      cases hr
    · exact .inr ⟨heq, .inr hr⟩
  · have hr := hweight reserved
    rw [hcall, hcall'] at hr
    simp only [reserved] at hr
    have hroom := hinv.room
    have hsize : c'.shared.pending.size ≤ c.shared.pending.size :=
      Table.size_le fun h e he => ⟨e, hget he⟩
    have hconfig : c'.shared.config = c.shared.config := by rw [hpool]
    rw [hconfig]
    omega
  · have hm := hweight mayRaise
    rw [hcall, hcall'] at hm
    simp only [mayRaise] at hm
    have hb := hinv.bound a
    rw [hpool]
    show (c.shared.expectedNonce a).toNat + _ ≤ B
    omega

theorem senderCount_removed [DecidableEq ι] {entry : PendingTx} (hinv : Inv B c)
    (hcall : c.calls i = removed entry) :
    (c.shared.senderCount entry.tx.sender).toNat = c.shared.pendingOf entry.tx.sender + 1
      ∧ c.weight (uncounted entry.tx.sender) = 0
      ∧ c.weight (overcounted entry.tx.sender) = 1 := by
  have hsi : (c.calls i).sender = some entry.tx.sender := by rw [hcall]; rfl
  have hu : c.weight (uncounted entry.tx.sender) = 0 := by
    refine weight_eq_zero fun j => ?_
    by_cases hj : j = i
    · rw [hj, hcall]
      rfl
    · exact uncounted_eq_zero (hinv.sender_ne hsi j hj)
  have ho : c.weight (overcounted entry.tx.sender) = 1 := by
    rw [weight_eq_single i fun j hj => overcounted_eq_zero (hinv.sender_ne hsi j hj), hcall,
      overcounted, if_pos rfl]
  have hc := hinv.counts entry.tx.sender
  exact ⟨by omega, hu, ho⟩

theorem uncount [DecidableEq ι] {entry : PendingTx} {n : UInt64} (hinv : Inv B c)
    (hcalls : ∀ j, j ≠ i → c'.calls j = c.calls j) (hcall : c.calls i = removed entry)
    (hn : c.shared.perSender[entry.tx.sender]? = some n)
    (hcall' : c'.calls i
      = if n.saturatingSub 1 = 0 then emptied entry else returned (some entry))
    (hpool : c'.shared = { c.shared with
      perSender := c.shared.perSender.insert entry.tx.sender (n.saturatingSub 1) }) :
    Inv B c' := by
  obtain ⟨hcount, hu, ho⟩ := hinv.senderCount_removed hcall
  have hsc : c.shared.senderCount entry.tx.sender = n := by
    rw [TransactionPool.senderCount, hn]
    rfl
  have hsc' : c'.shared.senderCount entry.tx.sender = n.saturatingSub 1 := by
    rw [hpool, TransactionPool.senderCount_insert, if_pos rfl]
  have hpred : (n.saturatingSub 1).toNat = n.toNat - 1 := by
    rw [UInt64.toNat_saturatingSub, UInt64.toNat_one]
  have hlimit := hinv.limit entry.tx.sender
  rw [hsc] at hcount hlimit
  have hzero (w : PoolCall → ℕ) (he : w (emptied entry) = 0) (hr : w (returned (some entry)) = 0) :
      w (c'.calls i) = 0 := by
    rw [hcall']
    split
    · exact he
    · exact hr
  refine hinv.recount hcalls (by rw [hcall]; rfl) (fun b hb => ?_) ?_ (by rw [hcall]; rfl) ?_ hpool
    (fun b hb => Table.get_insert_of_ne _ _ hb) (fun b _ => ?_) (fun b hb => ?_) ?_ ?_ ?_ ?_
  · rw [hcall'] at hb
    split at hb
    · exact (Option.some.inj hb).symm
    · cases hb
  · rw [hcall']
    split <;> rfl
  · rw [hcall']
    split
    next hz =>
      show c'.shared.perSender[entry.tx.sender]? = some 0
      rw [hpool, ← hz]
      exact Table.get_insert_self _ _ _
    next => trivial
  · rw [hcall]
    exact hzero (uncounted b) rfl rfl
  · rw [hcall, hzero (overcounted b) rfl rfl]
    exact (if_neg (Ne.symm hb)).symm
  · have hu' := weight_step (uncounted entry.tx.sender) hcalls
    have ho' := weight_step (overcounted entry.tx.sender) hcalls
    rw [hcall, hzero (uncounted entry.tx.sender) rfl rfl] at hu'
    rw [hcall, hzero (overcounted entry.tx.sender) rfl rfl] at ho'
    simp only [uncounted, overcounted, if_true] at hu' ho'
    rw [hsc', hpred]
    omega
  · rw [UInt64.le_iff_toNat_le] at hlimit ⊢
    rw [hsc', hpred]
    omega
  · rw [hzero reserved rfl rfl]
    exact Nat.zero_le _
  · rw [hzero mayRaise rfl rfl]
    exact Nat.zero_le _

theorem drop [DecidableEq ι] {entry : PendingTx} (hinv : Inv B c)
    (hcalls : ∀ j, j ≠ i → c'.calls j = c.calls j) (hcall : c.calls i = emptied entry)
    (hcall' : c'.calls i = returned (some entry))
    (hpool : c'.shared = { c.shared with
      perSender := c.shared.perSender.erase entry.tx.sender }) : Inv B c' := by
  have hzero := hinv.sound i
  rw [hcall] at hzero
  have hsc : c.shared.senderCount entry.tx.sender = 0 := by
    rw [TransactionPool.senderCount]
    exact congrArg (·.getD 0) hzero
  have hsc' : c'.shared.senderCount entry.tx.sender = 0 := by
    rw [hpool, TransactionPool.senderCount, Table.get_erase, if_pos rfl]
    rfl
  refine hinv.recount hcalls (by rw [hcall]; rfl) ?_ (by rw [hcall']; rfl) (by rw [hcall]; rfl)
    (by rw [hcall']; trivial) hpool (fun b hb => ?_) (fun b _ => ?_) (fun b _ => ?_) ?_ ?_ ?_ ?_
  · rw [hcall']
    rintro _ ⟨⟩
  · rw [Table.get_erase, if_neg hb]
  · rw [hcall, hcall']
    rfl
  · rw [hcall, hcall']
    rfl
  · have hc := hinv.counts entry.tx.sender
    have hu := weight_step (uncounted entry.tx.sender) hcalls
    have ho := weight_step (overcounted entry.tx.sender) hcalls
    rw [hcall, hcall'] at hu ho
    simp only [uncounted, overcounted] at hu ho
    rw [hsc] at hc
    rw [hsc']
    omega
  · rw [hsc', ← hsc]
    exact hinv.limit _
  · rw [hcall, hcall']
    exact le_rfl
  · rw [hcall, hcall']
    exact le_rfl

theorem giveUp [DecidableEq ι] (hinv : Inv B c) (hcalls : ∀ j, j ≠ i → c'.calls j = c.calls j)
    (hpool : c'.shared = c.shared) (hfinal : (c'.calls i).isFinal = true)
    (hraising : (c.calls i).raising = none)
    (hcounted : ∀ a, uncounted a (c.calls i) = 0 ∧ overcounted a (c.calls i) = 0) :
    Inv B c' := by
  have hr := weight_step reserved hcalls
  have hroom := hinv.room
  cases hc : c'.calls i <;> rw [hc] at hfinal <;> cases hfinal
  all_goals
    refine hinv.look hcalls hpool ?_ ?_ (by rw [hc]; trivial) hraising
      (fun a => by rw [(hcounted a).1, hc]; rfl) (fun a => by rw [(hcounted a).2, hc]; rfl) ?_
      (by rw [hc]; exact Nat.zero_le _)
    · rw [hc]
      rintro _ ⟨⟩
    · rw [hc]
      rintro _ ⟨⟩
    · rw [hc] at hr
      simp only [reserved] at hr
      omega

theorem proceed [DecidableEq ι] {r : AddRequest} (hinv : Inv B c)
    (hcalls : ∀ j, j ≠ i → c'.calls j = c.calls j) (hpool : c'.shared = c.shared)
    (hsi : (c.calls i).sender = some r.tx.sender) (hwi : (c.calls i).awaited = some r.tx.hash)
    (hsi' : (c'.calls i).sender = some r.tx.sender) (hwi' : (c'.calls i).awaited = some r.tx.hash)
    (hsound : Sound c.shared (c'.calls i)) (hraising : (c.calls i).raising = none)
    (huncounted : ∀ a, uncounted a (c'.calls i) = uncounted a (c.calls i))
    (hovercounted : ∀ a, overcounted a (c'.calls i) = overcounted a (c.calls i))
    (hroom : c.shared.pending.size + c'.weight reserved ≤ c.shared.config.maxPending.toNat)
    (hmay : mayRaise (c'.calls i) ≤ mayRaise (c.calls i)) : Inv B c' := by
  refine hinv.look hcalls hpool (fun a ha => ?_) (fun h hh => ?_) hsound hraising huncounted
    hovercounted hroom hmay
  · cases hsi'.symm.trans ha
    exact hinv.sender_ne hsi
  · cases hwi'.symm.trans hh
    exact hinv.awaited_ne hwi

/-- **Every step of calls that keep out of each other's way keeps the invariant.** -/
theorem step [Ed25519] [DecidableEq ι] (hinv : Inv B c) (hB : B < 2 ^ 64) (hex : Exclusive c i) :
    Inv B (c.step act i) := by
  have hcalls : ∀ j, j ≠ i → (c.step act i).calls j = c.calls j :=
    fun j hj => step_calls_of_ne c hj
  have hself : (c.step act i).calls i = (act c.shared (c.calls i)).2 := step_calls_self c i
  have hpool : (c.step act i).shared = (act c.shared (c.calls i)).1 := rfl
  have hs := hinv.sound i
  generalize c.step act i = c' at hcalls hself hpool ⊢
  have hres := weight_step reserved hcalls
  have hroom := hinv.room
  cases hc : c.calls i with
  | adding r =>
    rw [hc] at hself hpool hres
    obtain ⟨hsame, hfinal | ⟨hnext, hnone⟩⟩ := act_adding c.shared r
    · exact hinv.giveUp hcalls (hpool.trans hsame) (hself ▸ hfinal) (by rw [hc]; rfl)
        fun a => by rw [hc]; exact ⟨rfl, rfl⟩
    · rw [hnext] at hself
      rw [hself] at hres
      simp only [reserved] at hres
      refine hinv.look hcalls (hpool.trans hsame) (fun a ha => ?_) (fun h hh => ?_)
        (by rw [hself]; exact hnone) (by rw [hc]; rfl) (fun a => by rw [hself, hc]; rfl)
        (fun a => by rw [hself, hc]; rfl) (by omega) (by rw [hself, hc]; exact le_rfl)
      · rw [hself] at ha
        exact hex.sender a (by rw [hc]; exact ha)
      · rw [hself] at hh
        exact hex.hash h (by rw [hc]; exact hh)
  | fresh r =>
    rw [hc] at hself hpool hres hs
    obtain ⟨hsame, hfinal | ⟨hnext, hlt⟩⟩ := act_fresh c.shared r
    · exact hinv.giveUp hcalls (hpool.trans hsame) (hself ▸ hfinal) (by rw [hc]; rfl)
        fun a => by rw [hc]; exact ⟨rfl, rfl⟩
    · rw [hnext] at hself
      rw [hself] at hres
      simp only [reserved] at hres
      have hfits := hex.room (by rw [hc]; rfl) hlt
      exact hinv.proceed hcalls (hpool.trans hsame) (by rw [hc]; rfl) (by rw [hc]; rfl)
        (by rw [hself]; rfl) (by rw [hself]; rfl) (by rw [hself]; exact hs) (by rw [hc]; rfl)
        (fun a => by rw [hself, hc]; rfl) (fun a => by rw [hself, hc]; rfl) (by omega)
        (by rw [hself, hc]; exact le_rfl)
  | roomy r =>
    rw [hc] at hself hpool hres hs
    obtain ⟨hsame, hfinal | ⟨hnext, hlt⟩⟩ := act_roomy c.shared r
    · exact hinv.giveUp hcalls (hpool.trans hsame) (hself ▸ hfinal) (by rw [hc]; rfl)
        fun a => by rw [hc]; exact ⟨rfl, rfl⟩
    · rw [hnext] at hself
      rw [hself] at hres
      simp only [reserved] at hres
      exact hinv.proceed hcalls (hpool.trans hsame) (by rw [hc]; rfl) (by rw [hc]; rfl)
        (by rw [hself]; rfl) (by rw [hself]; rfl) (by rw [hself]; exact ⟨hs, rfl, hlt⟩)
        (by rw [hc]; rfl) (fun a => by rw [hself, hc]; rfl) (fun a => by rw [hself, hc]; rfl)
        (by omega) (by rw [hself, hc]; exact le_rfl)
  | counted r n =>
    rw [hc] at hself hpool hres hs
    obtain ⟨hsame, hfinal | ⟨hnext, hnonce⟩⟩ := act_counted c.shared r n
    · exact hinv.giveUp hcalls (hpool.trans hsame) (hself ▸ hfinal) (by rw [hc]; rfl)
        fun a => by rw [hc]; exact ⟨rfl, rfl⟩
    · rw [hnext] at hself
      rw [hself] at hres
      simp only [reserved] at hres
      exact hinv.proceed hcalls (hpool.trans hsame) (by rw [hc]; rfl) (by rw [hc]; rfl)
        (by rw [hself]; rfl) (by rw [hself]; rfl)
        (by rw [hself]; exact ⟨hs.1, hs.2.1, hs.2.2, rfl, hnonce⟩)
        (by rw [hc]; rfl) (fun a => by rw [hself, hc]; rfl) (fun a => by rw [hself, hc]; rfl)
        (by omega) (by rw [hself, hc]; exact le_rfl)
  | admitted r n e =>
    rw [hc] at hself hpool
    exact hinv.enqueue hcalls hc hself hpool
  | queued r n e =>
    rw [hc] at hself hpool
    exact hinv.advance hB hcalls hc hself hpool
  | advanced r n =>
    rw [hc] at hself hpool
    exact hinv.count hcalls hc hself hpool
  | removing hash =>
    rw [hc] at hself hpool
    cases hp : c.shared.pending[hash]? with
    | none =>
      simp only [act, hp] at hself hpool
      exact hinv.giveUp hcalls hpool (by rw [hself]; rfl) (by rw [hc]; rfl)
        fun a => by rw [hc]; exact ⟨rfl, rfl⟩
    | some entry =>
      simp only [act, hp] at hself hpool
      exact hinv.dequeue hex hcalls hc hp hself hpool
  | removed entry =>
    rw [hc] at hself hpool
    cases hn : c.shared.perSender[entry.tx.sender]? with
    | none =>
      -- the removed entry is still counted
      obtain ⟨hcount, -⟩ := hinv.senderCount_removed hc
      rw [TransactionPool.senderCount, hn] at hcount
      simp at hcount
    | some n =>
      simp only [act, hn] at hself hpool
      exact hinv.uncount hcalls hc hn hself hpool
  | emptied entry =>
    rw [hc] at hself hpool
    exact hinv.drop hcalls hc hself hpool
  | added result =>
    rw [hc] at hself hpool
    exact hinv.giveUp hcalls hpool (by rw [hself]; rfl) (by rw [hc]; rfl) fun a => by
      rw [hc]
      exact ⟨rfl, rfl⟩
  | returned entry =>
    rw [hc] at hself hpool
    exact hinv.giveUp hcalls hpool (by rw [hself]; rfl) (by rw [hc]; rfl) fun a => by
      rw [hc]
      exact ⟨rfl, rfl⟩

end Inv

/-! ### Between calls -/

/-- The call that an operation makes. -/
def ofOp : PoolOp → PoolCall
  | .add tx origin addedAtMs => adding ⟨tx, origin, addedAtMs⟩
  | .remove hash => removing hash

theorem sender_ofOp (op : PoolOp) : (ofOp op).sender = none := by cases op <;> rfl

theorem mayRaise_ofOp_le (op : PoolOp) : mayRaise (ofOp op) ≤ 1 := by
  cases op with
  | add tx origin addedAtMs => exact le_rfl
  | remove hash => exact Nat.zero_le 1

theorem leads_ofOp [Keccak] [Ed25519] (pool : TransactionPool) (op : PoolOp) :
    ∃ last, last.isFinal = true ∧ Leads act (pool, ofOp op) (op.apply pool, last) := by
  cases op with
  | add tx origin addedAtMs => exact ⟨_, rfl, leads_adding pool ⟨tx, origin, addedAtMs⟩⟩
  | remove hash => exact ⟨_, rfl, leads_removing pool hash⟩

theorem sender_of_isFinal {call : PoolCall} (h : call.isFinal = true) : call.sender = none := by
  cases call <;> first | rfl | cases h

theorem idle_of_sender [Keccak] {call : PoolCall} (h : call.sender = none) :
    call.awaited = none ∧ call.raising = none ∧ reserved call = 0
      ∧ ∀ pool, Sound pool call := by
  cases call <;> first | exact ⟨rfl, rfl, rfl, fun _ => trivial⟩ | cases h

namespace Inv

variable [Keccak]

/-- Between calls the invariant is about the pool only: other calls may start. -/
theorem restart {κ : Type} [Fintype κ] {B B' : ℕ} {c : Interleaving ι TransactionPool PoolCall}
    {c' : Interleaving κ TransactionPool PoolCall} (hinv : Inv B c)
    (hidle : ∀ i, (c.calls i).sender = none) (hshared : c'.shared = c.shared)
    (hidle' : ∀ k, (c'.calls k).sender = none) (hB : B + c'.weight mayRaise ≤ B') : Inv B' c' where
  apart j k a _ hj := by
    rw [hidle' j] at hj
    cases hj
  apartHash j k h _ hj := by
    rw [(idle_of_sender (hidle' j)).1] at hj
    cases hj
  sound k := (idle_of_sender (hidle' k)).2.2.2 _
  counts a := by
    have hne {call : PoolCall} (h : call.sender = none) : call.sender ≠ some a := by simp [h]
    have hc := hinv.counts a
    rw [weight_eq_zero fun i => uncounted_eq_zero (hne (hidle i)),
      weight_eq_zero fun i => overcounted_eq_zero (hne (hidle i))] at hc
    rw [weight_eq_zero fun k => uncounted_eq_zero (hne (hidle' k)),
      weight_eq_zero fun k => overcounted_eq_zero (hne (hidle' k)), hshared]
    exact hc
  limit := hshared ▸ hinv.limit
  nonces h e he := by
    rw [hshared] at he ⊢
    rcases hinv.nonces h e he with hlt | ⟨-, i, hi⟩
    · exact .inl hlt
    · rw [(idle_of_sender (hidle i)).2.1] at hi
      cases hi
  unique := hshared ▸ hinv.unique
  room := by
    rw [weight_eq_zero fun k => (idle_of_sender (hidle' k)).2.2.1, hshared]
    exact le_trans (Nat.le_add_right _ _) hinv.room
  bound a := by
    have hb := hinv.bound a
    rw [hshared]
    omega

theorem withConfig (config : PoolConfig) :
    Inv 0 (⟨.withConfig config, fun _ => returned none⟩ :
      Interleaving Unit TransactionPool PoolCall) := by
  have hget (h : H256) : (TransactionPool.withConfig config).pending[h]? = none := by
    simp [TransactionPool.withConfig]
  have hcount (a : Address) : (TransactionPool.withConfig config).senderCount a = 0 := by
    simp [TransactionPool.withConfig, TransactionPool.senderCount]
  have hnonce (a : Address) : (TransactionPool.withConfig config).expectedNonce a = 0 := by
    simp [TransactionPool.withConfig, TransactionPool.expectedNonce]
  refine ⟨fun _ _ _ hij => absurd rfl hij, fun _ _ _ hij => absurd rfl hij, fun _ => trivial,
    fun a => ?_, fun a => ?_, fun h e he => ?_, fun h _ e _ he => ?_, ?_, fun a => ?_⟩
  · rw [weight_eq_zero fun _ => rfl, weight_eq_zero fun _ => rfl, hcount]
    rfl
  · rw [hcount, UInt64.le_iff_toNat_le]
    exact Nat.zero_le _
  · rw [hget] at he
    cases he
  · rw [hget] at he
    cases he
  · rw [weight_eq_zero fun _ => rfl]
    simp [TransactionPool.withConfig]
  · rw [weight_eq_zero fun _ => rfl, hnonce]
    rfl

end Inv

section

variable [Keccak]

theorem exclusive_unit (c : Interleaving Unit TransactionPool PoolCall) (i : Unit) :
    Exclusive c i where
  sender _ _ j hj := absurd (Subsingleton.elim j i) hj
  hash _ _ j hj := absurd (Subsingleton.elim j i) hj
  room hlooks hlt := by
    have hw : c.weight reserved = 0 := by
      refine weight_eq_zero fun j => ?_
      rw [Subsingleton.elim j i]
      cases hc : c.calls i <;> rw [hc] at hlooks <;> first | rfl | cases hlooks
    rw [hw]
    exact hlt

theorem inv_run [Ed25519] (config : PoolConfig) (ops : List PoolOp) (hlen : ops.length < 2 ^ 64) :
    ∃ last : PoolCall, last.sender = none ∧ Inv ops.length
      (⟨PoolOp.run config ops, fun _ => last⟩ : Interleaving Unit TransactionPool PoolCall) := by
  induction ops using List.reverseRecOn with
  | nil => exact ⟨_, rfl, .withConfig config⟩
  | append_singleton ops op ih =>
    rw [List.length_append, List.length_singleton] at hlen ⊢
    obtain ⟨last, hlast, hinv⟩ := ih (by omega)
    have hrun : PoolOp.run config (ops ++ [op]) = op.apply (PoolOp.run config ops) := by
      simp [PoolOp.run]
    -- the operation is a call that runs alone
    let c : Interleaving Unit TransactionPool PoolCall := ⟨PoolOp.run config ops, fun _ => ofOp op⟩
    have hweight : c.weight mayRaise ≤ 1 := by
      rw [weight_eq_single () fun _ hj => absurd rfl hj]
      exact mayRaise_ofOp_le op
    have hstart : Inv (ops.length + 1) c :=
      hinv.restart (fun _ => hlast) rfl (fun _ => sender_ofOp op) (by omega)
    obtain ⟨last', hfinal, hleads⟩ := leads_ofOp (PoolOp.run config ops) op
    obtain ⟨n, hn⟩ := run_of_leads (c := c) (i := ()) hleads
    have hinv' := (along_of_forall exclusive_unit (List.replicate n ()) c).invariant
      (fun c i h hex => h.step hlen hex) hstart
    rw [hn] at hinv'
    refine ⟨last', sender_of_isFinal hfinal, ?_⟩
    rw [hrun]
    have hcalls : (fun _ : Unit => last') = Function.update c.calls () last' :=
      funext fun _ => rfl
    rw [hcalls]
    exact hinv'

end

end PoolCall

/-- The maps of a pool agree, and its limits are kept. -/
structure TransactionPool.Consistent (pool : TransactionPool) : Prop where
  unique : pool.Unique
  counts : ∀ a, (pool.senderCount a).toNat = pool.pendingOf a
  maxPerSender : ∀ a, pool.pendingOf a ≤ pool.config.maxPerSender.toNat
  maxPending : pool.pending.size ≤ pool.config.maxPending.toNat

namespace PoolCall

variable [Keccak] [Ed25519]

/-- **Calls that keep out of each other's way leave a consistent pool.**  Any number of calls start
on a pool that any operations led to, and take their steps in any order in which the calls for one
sender come one after the other and admissions that have seen room all find it.  At any time no
sender has two pending transactions with one nonce, the pool is not over its size, and the counts
are right for every sender that no call works for; when all calls have returned the pool is
consistent. -/
theorem consistent_of_exclusive {ι : Type} [Fintype ι] [DecidableEq ι] (config : PoolConfig)
    (ops : List PoolOp) (calls : ι → PoolOp) (schedule : List ι)
    (hlen : ops.length + Fintype.card ι < 2 ^ 64)
    (start c : Interleaving ι TransactionPool PoolCall)
    (hstart : start = ⟨PoolOp.run config ops, fun i => ofOp (calls i)⟩)
    (hc : c = start.run act schedule) (hex : Along act Exclusive start schedule) :
    c.shared.Unique ∧ c.shared.pending.size ≤ c.shared.config.maxPending.toNat
      ∧ (∀ a, (∀ i, (c.calls i).sender ≠ some a) →
        (c.shared.senderCount a).toNat = c.shared.pendingOf a
          ∧ c.shared.pendingOf a ≤ c.shared.config.maxPerSender.toNat)
      ∧ ((∀ i, (c.calls i).isFinal = true) → c.shared.Consistent) := by
  obtain ⟨last, hlast, hrun⟩ := inv_run config ops (by omega)
  have hweight : start.weight mayRaise ≤ Fintype.card ι := by
    have hle := Finset.sum_le_card_nsmul Finset.univ (fun i => mayRaise (start.calls i)) 1
      fun i _ => by rw [hstart]; exact mayRaise_ofOp_le (calls i)
    simpa [weight] using hle
  have hinv₀ : Inv (ops.length + Fintype.card ι) start := by
    refine hrun.restart (fun _ => hlast) (by rw [hstart]) (fun i => ?_) (by omega)
    rw [hstart]
    exact sender_ofOp (calls i)
  have hinv : Inv (ops.length + Fintype.card ι) c := by
    rw [hc]
    exact hex.invariant (fun c i h hex => h.step hlen hex) hinv₀
  have hmax : c.shared.pending.size ≤ c.shared.config.maxPending.toNat :=
    le_trans (Nat.le_add_right _ _) hinv.room
  have hcounts (a : Address) (ha : ∀ i, (c.calls i).sender ≠ some a) :
      (c.shared.senderCount a).toNat = c.shared.pendingOf a
        ∧ c.shared.pendingOf a ≤ c.shared.config.maxPerSender.toNat := by
    have hcount := hinv.counts a
    have hlimit := hinv.limit a
    rw [weight_eq_zero fun i => uncounted_eq_zero (ha i),
      weight_eq_zero fun i => overcounted_eq_zero (ha i)] at hcount
    rw [UInt64.le_iff_toNat_le] at hlimit
    omega
  refine ⟨hinv.unique, hmax, hcounts, fun hdone => ?_⟩
  have hidle (a : Address) (i : ι) : (c.calls i).sender ≠ some a := by
    rw [sender_of_isFinal (hdone i)]
    exact Option.some_ne_none a |>.symm
  exact ⟨hinv.unique, fun a => (hcounts a (hidle a)).1, fun a => (hcounts a (hidle a)).2, hmax⟩

end PoolCall

namespace Devnet

open PoolCall

instance (c : Interleaving Bool TransactionPool PoolCall) (i : Bool) : Decidable (Exclusive c i) :=
  decidable_of_iff
    ((∀ a ∈ (c.calls i).enters c.shared, ∀ j, j ≠ i → (c.calls j).sender ≠ some a)
      ∧ (∀ h ∈ (c.calls i).entersHash, ∀ j, j ≠ i → (c.calls j).awaited ≠ some h)
      ∧ ((c.calls i).looksForRoom = true →
        c.shared.pending.size < c.shared.config.maxPending.toNat →
        c.shared.pending.size + c.weight reserved < c.shared.config.maxPending.toNat))
    ⟨fun h => ⟨h.1, h.2.1, h.2.2⟩, fun h => ⟨h.sender, h.hash, h.room⟩⟩

/-- Two admissions on an empty pool. -/
def twoAdds (tx tx' : Transaction) : Interleaving Bool TransactionPool PoolCall :=
  ⟨PoolOp.run PoolConfig.default [], fun a => ofOp (.add (if a then tx else tx') .local 0)⟩

/-- Both calls make their checks before one of them writes. -/
def checksFirst : List Bool :=
  [true, false, true, false, true, false, true, false, true, true, true, false, false, false]

/-- The first transfer of the validator. -/
def validatorTransfer : Transaction :=
  signedTx validatorKey (some sink) 0 U256.one 21000 U256.one Vec.empty

/-- Admissions for two senders do not meet. -/
theorem consistent_of_exclusive_twoAdds :
    ((twoAdds (transfer 0) validatorTransfer).run act checksFirst).shared.Consistent
      ∧ ((twoAdds (transfer 0) validatorTransfer).run act checksFirst).shared.pending.size = 2 := by
  have heval : Along act Exclusive (twoAdds (transfer 0) validatorTransfer) checksFirst
      ∧ (∀ a, (((twoAdds (transfer 0) validatorTransfer).run act checksFirst).calls a).isFinal)
      ∧ ((twoAdds (transfer 0) validatorTransfer).run act checksFirst).shared.pending.size = 2 := by
    decide +kernel
  obtain ⟨hex, hdone, hsize⟩ := heval
  exact ⟨(consistent_of_exclusive PoolConfig.default [] _ checksFirst (by decide) _ _ rfl rfl
    hex).2.2.2 hdone, hsize⟩

/-- A transfer of two units with the nonce of the first transfer. -/
def otherTransfer : Transaction :=
  signedTx userKey (some sink) 0 (U256.ofU64 2) 21000 U256.one Vec.empty

/-- **Two admissions with one nonce.**  Both calls return the hash of their transaction, both
transactions are pending, and the count of their sender is one. -/
theorem double_admission : ∃ (pool : TransactionPool) (e e' : PendingTx),
    pool = ((twoAdds (transfer 0) otherTransfer).run act checksFirst).shared
      ∧ (∀ a, (((twoAdds (transfer 0) otherTransfer).run act checksFirst).calls a).isFinal)
      ∧ pool.pending[(transfer 0).hash]? = some e ∧ pool.pending[otherTransfer.hash]? = some e'
      ∧ (transfer 0).hash ≠ otherTransfer.hash ∧ e.tx.sender = user ∧ e'.tx.sender = user
      ∧ e.tx.nonce = 0 ∧ e'.tx.nonce = 0
      ∧ pool.pendingOf user = 2 ∧ pool.senderCount user = 1 := by
  have heval : (∀ a, (((twoAdds (transfer 0) otherTransfer).run act checksFirst).calls a).isFinal)
      ∧ (((twoAdds (transfer 0) otherTransfer).run act checksFirst).shared.pending[
          (transfer 0).hash]?).map (fun e => (e.tx.sender, e.tx.nonce)) = some (user, 0)
      ∧ (((twoAdds (transfer 0) otherTransfer).run act checksFirst).shared.pending[
          otherTransfer.hash]?).map (fun e => (e.tx.sender, e.tx.nonce)) = some (user, 0)
      ∧ (transfer 0).hash ≠ otherTransfer.hash
      ∧ ((twoAdds (transfer 0) otherTransfer).run act checksFirst).shared.pendingOf user = 2
      ∧ ((twoAdds (transfer 0) otherTransfer).run act checksFirst).shared.senderCount user = 1 := by
    decide +kernel
  obtain ⟨hdone, he, he', hne, hpending, hcount⟩ := heval
  obtain ⟨e, hget, heq⟩ := Option.map_eq_some_iff.mp he
  obtain ⟨e', hget', heq'⟩ := Option.map_eq_some_iff.mp he'
  obtain ⟨hsender, hnonce⟩ := Prod.mk.inj heq
  obtain ⟨hsender', hnonce'⟩ := Prod.mk.inj heq'
  exact ⟨_, e, e', rfl, hdone, hget, hget', hne, hsender, hsender', hnonce, hnonce', hpending,
    hcount⟩

end Devnet

end Ivory
