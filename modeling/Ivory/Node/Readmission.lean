import Ivory.Chain.ProducerOrder
import Ivory.Node.Admission

/-!
# Transactions of a dropped branch

When the head moves to another branch, `apply_head_change` tries to admit the
transactions of the old branch again, and discards the errors.  Admission asks
for the next nonce of the pool, which earlier admissions have moved on.  A
transaction that is pending stays.  Another one comes back if the pool expects its
nonce, or a lower one and the transactions in between come back before it; otherwise
it is lost.

Pruning drops bodies from the store, and a transaction whose body is gone could
not be tried.  `Bodies.whole` says why that does not happen: a block whose body
was dropped is on every branch that the node can still switch to.

* `TransactionPool.holds_takeBack_iff`: **exactly what the loop admits.**
* `Bodies`, `Bodies.step`: **where two branches part, the bodies are there.**
* `Bodies.dropped_sublist`: **dropped transactions come in the order of the old branch.**
* `ChainEvent.returned_iff_run`: what this means for a head that moves, after any run.
-/

namespace Ivory

open BlockStore

/-! ### The loop over the old branch -/

/-- What admission asks of a transaction, whatever else is pending. -/
structure PoolConfig.Allows [Keccak] [Ed25519] (config : PoolConfig) (tx : Transaction) : Prop where
  gas : config.minGas ≤ tx.gas
  signed : recoverSender tx = .ok tx.sender

namespace TransactionPool

section

variable [Keccak] [Ed25519]

/-- Transactions are tried one after the other, and the errors discarded. -/
def takeBack (pool : TransactionPool) (txs : List Transaction) : TransactionPool :=
  txs.foldl (fun pool tx => (pool.addTransaction tx .local).2) pool

theorem foldl_eq_takeBack (pool : TransactionPool) (txs : List Transaction) (hashes : List H256) :
    txs.foldl (fun pool tx =>
      if tx.hash ∈ hashes then pool else (pool.addTransaction tx .local).2) pool
      = pool.takeBack (txs.filter fun tx => tx.hash ∉ hashes) := by
  rw [takeBack, List.foldl_filter]
  refine List.foldl_ext _ _ _ fun p tx _ => ?_
  by_cases hm : tx.hash ∈ hashes <;> simp [hm]

theorem pending_addTransactionAt {pool : TransactionPool} {h : H256} {e : PendingTx}
    (he : pool.pending[h]? = some e) (tx : Transaction) (origin : TxOrigin) (addedAtMs : UInt64) :
    (pool.addTransactionAt tx origin addedAtMs).2.pending[h]? = some e := by
  rcases pool.addTransactionAt_cases tx origin addedAtMs with ⟨ha, heq⟩ | ⟨-, _, heq⟩
  · rw [heq]
    refine (Table.get_insert_of_ne _ _ ?_).trans he
    rintro rfl
    rw [ha.fresh] at he
    cases he
  · rw [heq]
    exact he

theorem pending_takeBack_of_pending {pool : TransactionPool} {h : H256} {e : PendingTx}
    (he : pool.pending[h]? = some e) (txs : List Transaction) :
    (pool.takeBack txs).pending[h]? = some e :=
  List.foldlRecOn txs _ (motive := fun p : TransactionPool => p.pending[h]? = some e) he
    fun _ hp tx _ => pending_addTransactionAt hp tx .local 0

theorem pending_addTransactionAt_of_ne {pool : TransactionPool} {h : H256} {tx : Transaction}
    (hk : h ≠ tx.hash) (origin : TxOrigin) (addedAtMs : UInt64) :
    (pool.addTransactionAt tx origin addedAtMs).2.pending[h]? = pool.pending[h]? := by
  rcases pool.addTransactionAt_cases tx origin addedAtMs with ⟨-, heq⟩ | ⟨-, _, heq⟩
  · rw [heq]
    exact Table.get_insert_of_ne _ _ hk
  · rw [heq]

theorem pending_takeBack_of_ne {h : H256} : ∀ (txs : List Transaction) (pool : TransactionPool),
    (∀ tx ∈ txs, h ≠ tx.hash) → (pool.takeBack txs).pending[h]? = pool.pending[h]? := by
  intro txs
  induction txs with
  | nil => intro pool _; rfl
  | cons tx txs ih =>
    intro pool hne
    refine (ih (pool.addTransactionAt tx .local 0).2 fun x hx => hne x (.tail _ hx)).trans ?_
    exact pending_addTransactionAt_of_ne (hne tx List.mem_cons_self) .local 0

/-- The transaction is pending. -/
def Holds (pool : TransactionPool) (tx : Transaction) : Prop :=
  ∃ e, pool.pending[tx.hash]? = some e ∧ e.tx = tx

/-- The pool expects the nonce of a transaction or a lower one, and every nonce in between belongs
to one of the transactions `txs` that admission allows. -/
def LeadsTo (pool : TransactionPool) (txs : List Transaction) (tx : Transaction) : Prop :=
  pool.expectedNonce tx.sender ≤ tx.nonce
    ∧ ∀ n, pool.expectedNonce tx.sender ≤ n → n < tx.nonce →
      ∃ tx' ∈ txs, tx'.sender = tx.sender ∧ tx'.nonce = n ∧ pool.config.Allows tx'

/-- A transaction is tried among others: those of its sender come in the order of their nonces, and
the limits leave room for all that can be admitted. -/
structure Tried (pool : TransactionPool) (txs : List Transaction) (tx : Transaction) : Prop where
  mem : tx ∈ txs
  allowed : pool.config.Allows tx
  ordered : txs.Pairwise fun x y => x.sender = tx.sender → y.sender = tx.sender → x.nonce < y.nonce
  usable : ∀ x ∈ txs, x.Usable
  room : pool.pending.size + txs.length ≤ pool.config.maxPending.toNat
  senderRoom : (pool.senderCount tx.sender).toNat
    + (tx.nonce.toNat - (pool.expectedNonce tx.sender).toNat) < pool.config.maxPerSender.toNat
  fresh : ∀ x ∈ txs, x.sender = tx.sender → pool.expectedNonce tx.sender ≤ x.nonce →
    pool.pending[x.hash]? = none
  hashes : ∀ x ∈ txs, ∀ y ∈ txs, x.hash = y.hash → x = y
  entry : ∀ e, pool.pending[tx.hash]? = some e → e.tx = tx

namespace Tried

variable {pool : TransactionPool} {txs : List Transaction} {tx y : Transaction}

theorem tail (h : Tried pool (y :: txs) tx) (hne : y ≠ tx) : Tried pool txs tx where
  mem := List.mem_of_ne_of_mem (Ne.symm hne) h.mem
  allowed := h.allowed
  ordered := (List.pairwise_cons.mp h.ordered).2
  usable x hx := h.usable x (.tail _ hx)
  room := by
    have hroom := h.room
    rw [List.length_cons] at hroom
    omega
  senderRoom := h.senderRoom
  fresh x hx := h.fresh x (.tail _ hx)
  hashes x hx x' hx' := h.hashes x (.tail _ hx) x' (.tail _ hx')
  entry := h.entry

theorem hash_ne (h : Tried pool (y :: txs) tx) {x : Transaction} (hx : x ∈ txs)
    (hs : x.sender = tx.sender) : x.hash ≠ y.hash := by
  intro hk
  obtain rfl := h.hashes x (.tail _ hx) y List.mem_cons_self hk
  exact absurd ((List.pairwise_cons.mp h.ordered).1 x hx hs hs) (UInt64.lt_irrefl _)

theorem nonce_lt (h : Tried pool (y :: txs) tx) (hne : y ≠ tx) (hs : y.sender = tx.sender) :
    y.nonce < tx.nonce :=
  (List.pairwise_cons.mp h.ordered).1 tx (h.tail hne).mem hs rfl

theorem toNat_expectedNonce (h : Tried pool (y :: txs) tx) (ha : pool.Admissible y)
    (origin : TxOrigin) (addedAtMs : UInt64) (a : Address) :
    ((pool.enqueue y origin addedAtMs).expectedNonce a).toNat
      = (pool.expectedNonce a).toNat + if a = y.sender then 1 else 0 := by
  refine toNat_expectedNonce_enqueue ?_ origin addedAtMs a
  rw [← ha.nonce]
  exact h.usable y List.mem_cons_self

/-- **What the loop needs is kept when a transaction is admitted**: a place of the sender is taken,
and one nonce less is missing. -/
theorem enqueue (h : Tried pool (y :: txs) tx) (hne : y ≠ tx) (ha : pool.Admissible y)
    (origin : TxOrigin) (addedAtMs : UInt64) :
    Tried (pool.enqueue y origin addedAtMs) txs tx := by
  have ht := h.tail hne
  have hexp := h.toNat_expectedNonce ha origin addedAtMs tx.sender
  have hget : ∀ x ∈ txs, x.sender = tx.sender →
      (pool.enqueue y origin addedAtMs).pending[x.hash]? = pool.pending[x.hash]? :=
    fun x hx hs => Table.get_insert_of_ne _ _ (h.hash_ne hx hs)
  have hle := pool.expectedNonce_le_enqueue y origin addedAtMs tx.sender
  refine ⟨ht.mem, ht.allowed, ht.ordered, ht.usable, ?_, ?_, fun x hx hs hx' => ?_, ht.hashes,
    fun e he => ?_⟩
  · have hroom := h.room
    have hsize : (pool.enqueue y origin addedAtMs).pending.size ≤ pool.pending.size + 1 :=
      Std.ExtTreeMap.size_insert_le
    rw [List.length_cons] at hroom
    show _ ≤ pool.config.maxPending.toNat
    omega
  · have hroom := h.senderRoom
    show _ < pool.config.maxPerSender.toNat
    rw [hexp]
    have hcount : (pool.enqueue y origin addedAtMs).senderCount tx.sender
        = if tx.sender = y.sender then (pool.senderCount y.sender).saturatingAdd 1
          else pool.senderCount tx.sender := by
      rw [senderCount, TransactionPool.enqueue, Table.get_insert]
      split_ifs
      · rfl
      · rfl
    rw [hcount]
    by_cases hs : tx.sender = y.sender
    · have hlt := UInt64.lt_iff_toNat_lt.mp (h.nonce_lt hne hs.symm)
      rw [ha.nonce, ← hs] at hlt
      have hsat := UInt64.toNat_saturatingAdd (pool.senderCount y.sender) 1
      have hone : (1 : UInt64).toNat = 1 := rfl
      rw [if_pos hs, if_pos hs, ← hs] at *
      omega
    · rw [if_neg hs, if_neg hs]
      exact hroom
  · rw [hget x hx hs]
    exact ht.fresh x hx hs (UInt64.le_trans hle hx')
  · rw [hget tx ht.mem rfl] at he
    exact ht.entry e he

theorem nonce_ne (h : Tried pool (y :: txs) tx) (hs : y.sender = tx.sender)
    (hallowed : pool.config.Allows y) (hfresh : pool.pending[y.hash]? = none)
    (hna : ¬ pool.Admissible y) : y.nonce ≠ pool.expectedNonce tx.sender := by
  intro hn
  have hroom := h.room
  have hsender := h.senderRoom
  rw [List.length_cons] at hroom
  refine hna ⟨hallowed.gas, hallowed.signed, hfresh, by omega, ?_, by rw [hs, hn]⟩
  rw [hs, UInt64.lt_iff_toNat_lt]
  omega

/-- A transaction that is refused itself is not led to: those with lower nonces came before it. -/
theorem not_leadsTo (h : Tried pool (tx :: txs) tx)
    (hne : tx.nonce ≠ pool.expectedNonce tx.sender) : ¬ pool.LeadsTo (tx :: txs) tx := by
  rintro ⟨hle, hall⟩
  have hlt : pool.expectedNonce tx.sender < tx.nonce :=
    UInt64.lt_of_le_of_ne hle (Ne.symm hne)
  obtain ⟨x, hx, hs, hn, -⟩ := hall _ UInt64.le_rfl hlt
  rcases List.mem_cons.mp hx with rfl | hx
  · exact hne hn
  · have hafter := (List.pairwise_cons.mp h.ordered).1 x hx rfl hs
    rw [hn] at hafter
    exact absurd hle (UInt64.not_le.mpr hafter)

/-- **An admitted transaction fills the first gap.** -/
theorem leadsTo_enqueue (h : Tried pool (y :: txs) tx) (hne : y ≠ tx) (ha : pool.Admissible y)
    (origin : TxOrigin) (addedAtMs : UInt64) :
    (pool.enqueue y origin addedAtMs).LeadsTo txs tx ↔ pool.LeadsTo (y :: txs) tx := by
  have hexp := h.toNat_expectedNonce ha origin addedAtMs tx.sender
  have hconf : (pool.enqueue y origin addedAtMs).config = pool.config := rfl
  rw [LeadsTo, LeadsTo, hconf, UInt64.le_iff_toNat_le, UInt64.le_iff_toNat_le, hexp]
  by_cases hs : tx.sender = y.sender
  · have hlt := UInt64.lt_iff_toNat_lt.mp (h.nonce_lt hne hs.symm)
    have hny := ha.nonce
    rw [← hs] at hny
    rw [hny] at hlt
    rw [if_pos hs]
    constructor
    · rintro ⟨-, hall⟩
      refine ⟨hlt.le, fun n hn hn' => ?_⟩
      by_cases heq : n = pool.expectedNonce tx.sender
      · exact ⟨y, List.mem_cons_self, hs.symm, hny.trans heq.symm, ha.gas, ha.signed⟩
      · have hgt : (pool.expectedNonce tx.sender).toNat < n.toNat :=
          UInt64.lt_iff_toNat_lt.mp (UInt64.lt_of_le_of_ne hn (Ne.symm heq))
        obtain ⟨x, hx, hrest⟩ := hall n
          (by rw [UInt64.le_iff_toNat_le, hexp, if_pos hs]; exact hgt) hn'
        exact ⟨x, .tail _ hx, hrest⟩
    · rintro ⟨-, hall⟩
      refine ⟨hlt, fun n hn hn' => ?_⟩
      rw [UInt64.le_iff_toNat_le, hexp, if_pos hs] at hn
      obtain ⟨x, hx, hsx, hnx, hax⟩ := hall n (UInt64.le_iff_toNat_le.mpr (by omega)) hn'
      rcases List.mem_cons.mp hx with rfl | hx
      · rw [← hnx, hny] at hn
        omega
      · exact ⟨x, hx, hsx, hnx, hax⟩
  · have hexp' : (pool.enqueue y origin addedAtMs).expectedNonce tx.sender
        = pool.expectedNonce tx.sender := by rw [expectedNonce_enqueue, if_neg hs]
    rw [if_neg hs, hexp']
    refine and_congr Iff.rfl (forall_congr' fun n => imp_congr_right fun _ => imp_congr_right
      fun _ => ⟨?_, ?_⟩)
    · rintro ⟨x, hx, hrest⟩
      exact ⟨x, .tail _ hx, hrest⟩
    · rintro ⟨x, hx, hsx, hrest⟩
      refine ⟨x, List.mem_of_ne_of_mem ?_ hx, hsx, hrest⟩
      rintro rfl
      exact hs hsx.symm

/-- **A refused transaction fills no gap**: the gap before it is not filled by those that follow. -/
theorem leadsTo_tail (h : Tried pool (y :: txs) tx) (hne : y ≠ tx) (hna : ¬ pool.Admissible y) :
    pool.LeadsTo txs tx ↔ pool.LeadsTo (y :: txs) tx := by
  constructor
  · rintro ⟨hle, hall⟩
    refine ⟨hle, fun n hn hn' => ?_⟩
    obtain ⟨x, hx, hrest⟩ := hall n hn hn'
    exact ⟨x, .tail _ hx, hrest⟩
  · rintro ⟨hle, hall⟩
    refine ⟨hle, fun n hn hn' => ?_⟩
    obtain ⟨x, hx, hs, rfl, hallowed⟩ := hall n hn hn'
    rcases List.mem_cons.mp hx with rfl | hx
    · -- then the expected nonce would have to follow it
      exfalso
      have hgap := h.nonce_ne hs hallowed (h.fresh x List.mem_cons_self hs hn) hna
      have hlt : pool.expectedNonce tx.sender < x.nonce := UInt64.lt_of_le_of_ne hn (Ne.symm hgap)
      obtain ⟨z, hz, hsz, hnz, -⟩ := hall _ UInt64.le_rfl (UInt64.lt_trans hlt hn')
      rcases List.mem_cons.mp hz with rfl | hz
      · exact hgap hnz
      · have hafter := (List.pairwise_cons.mp h.ordered).1 z hz hs hsz
        rw [hnz] at hafter
        exact absurd hlt (UInt64.lt_asymm hafter)
    · exact ⟨x, hx, hs, rfl, hallowed⟩

end Tried

/-- **Exactly what is pending after the loop**: what was pending, and what the pool is led to by
the transactions tried. -/
theorem holds_takeBack_iff {tx : Transaction} : ∀ (txs : List Transaction) (pool : TransactionPool),
    Tried pool txs tx → ((pool.takeBack txs).Holds tx ↔ pool.Holds tx ∨ pool.LeadsTo txs tx) := by
  intro txs
  induction txs with
  | nil => intro pool h; exact absurd h.mem List.not_mem_nil
  | cons y txs ih =>
    intro pool h
    have hcons : pool.takeBack (y :: txs) = (pool.addTransactionAt y .local 0).2.takeBack txs := rfl
    rw [hcons]
    rcases pool.addTransactionAt_cases y .local 0 with ⟨ha, heq⟩ | ⟨hna, _, heq⟩
    · rw [heq]
      by_cases hy : y = tx
      · cases hy
        refine iff_of_true ⟨_, pending_takeBack_of_pending (Table.get_insert_self _ _ _) txs, rfl⟩
          (.inr ⟨ha.nonce ▸ UInt64.le_rfl, fun n hn hn' => ?_⟩)
        rw [← ha.nonce] at hn
        exact absurd hn (UInt64.not_le.mpr hn')
      · have hkey := h.hash_ne (h.tail hy).mem rfl
        have hholds : (pool.enqueue y .local 0).Holds tx ↔ pool.Holds tx := by
          rw [Holds, Holds, TransactionPool.enqueue, Table.get_insert_of_ne _ _ hkey]
        rw [ih _ (h.enqueue hy ha .local 0), hholds, h.leadsTo_enqueue hy ha]
    · rw [heq]
      by_cases hy : y = tx
      · cases hy
        cases hget : pool.pending[tx.hash]? with
        | some e =>
          exact iff_of_true ⟨e, pending_takeBack_of_pending hget txs, h.entry e hget⟩
            (.inl ⟨e, hget, h.entry e hget⟩)
        | none =>
          -- it is not tried again
          have hleft : ¬ (pool.takeBack txs).Holds tx := by
            rintro ⟨e, he, -⟩
            rw [pending_takeBack_of_ne txs pool, hget] at he
            · cases he
            · intro x hx hk
              obtain rfl := h.hashes tx List.mem_cons_self x (.tail _ hx) hk
              exact h.hash_ne hx rfl rfl
          refine iff_of_false hleft ?_
          rintro (⟨e, he, -⟩ | hlead)
          · rw [hget] at he
            cases he
          · exact h.not_leadsTo (h.nonce_ne rfl h.allowed hget hna) hlead
      · rw [ih pool (h.tail hy), h.leadsTo_tail hy hna]

end

end TransactionPool

/-! ### Bodies where branches part -/

namespace BlockStore

variable [Keccak] {store : BlockStore} {h : H256} {l : List H256}

/-- What stands on a path but not on that of a lower block is not lower than that. -/
theorem StoreInv.numberOf_le_of_notMem (hi : StoreInv store) (hl : store.IsPath h l) {j : H256}
    {l' : List H256} (hj : j ∈ l) (hl' : store.IsPath j l') {k : H256} (hk : k ∈ l) (hk' : k ∉ l') :
    store.numberOf j ≤ store.numberOf k := by
  obtain ⟨m, hm, hs⟩ := hl.of_mem k hk
  obtain ⟨m', hm', hs'⟩ := hl.of_mem j hj
  cases hl'.unique hm'
  rcases List.suffix_or_suffix_of_suffix hs hs' with hle | hle
  · exact absurd (hle.subset hm.mem_self) hk'
  · exact hi.numberOf_le hm j (hle.subset hl'.mem_self)

end BlockStore

/-- The bodies of the store against the imported blocks: there are no others, and a block on the
chain of one snapshot but not on that of another has its body. -/
structure Bodies (t : Tracked) : Prop where
  copies : Copies t.archive t.cs.store
  whole : ∀ (h h' : H256) s s', t.cs.store.snapshots[h]? = some s →
    t.cs.store.snapshots[h']? = some s' → ∀ l l', t.cs.store.IsPath h l → t.cs.store.IsPath h' l' →
    ∀ k ∈ l, k ∉ l' → t.cs.store.getBlock k = t.archive[k]?

theorem Bodies.prune {t : Tracked} (hb : Bodies t) {store' : BlockStore}
    (hp : Pruned t.cs.store store')
    (hcopies : Copies t.archive store')
    (hkeep : ∀ (h h' : H256) s s', store'.snapshots[h]? = some s → store'.snapshots[h']? = some s' →
      ∀ l l', t.cs.store.IsPath h l → t.cs.store.IsPath h' l' → ∀ k ∈ l, k ∉ l' →
      store'.getBlock k = t.cs.store.getBlock k) :
    Bodies ⟨{ t.cs with store := store' }, t.archive⟩ where
  copies := hcopies
  whole h h' s s' hs hs' l l' hl hl' k hk hk' := by
    have hl₁ : t.cs.store.IsPath h l := hp.same.isPath hl
    have hl₂ : t.cs.store.IsPath h' l' := hp.same.isPath hl'
    refine (hkeep h h' s s' hs hs' l l' hl₁ hl₂ k hk hk').trans ?_
    exact hb.whole h h' s s' (hp.sub h s hs) (hp.sub h' s' hs') l l' hl₁ hl₂ k hk hk'

theorem Tracked.mem_txsOf_chain {t : Tracked} {h : H256} {l : List H256}
    (hl : t.cs.store.IsPath h l) {tx : Transaction} : tx ∈ txsOf (t.chain h)
      ↔ ∃ k ∈ l, ∃ a, t.archive[k]? = some a ∧ tx ∈ a.transactions.toList := by
  rw [Tracked.chain_eq hl]
  exact mem_pathTxs

section Start

variable [Keccak] [Ed25519]

namespace Bodies

theorem start (g : Genesis) (pool : TransactionPool) : Bodies (g.tracked pool) where
  copies h b hb := by
    change g.store.getBlock h = some b at hb
    rw [g.getBlock] at hb
    split at hb
    · next he =>
      cases hb
      cases he
      exact ⟨g.block, Table.get_insert_self _ _ _, rfl, fun _ htx => htx⟩
    · cases hb
  whole h h' s s' hs hs' l l' hl hl' k hk hk' := by
    change g.store.snapshots[h]? = some s at hs
    change g.store.snapshots[h']? = some s' at hs'
    rw [g.snapshots] at hs hs'
    split at hs
    · next he =>
      split at hs'
      · next he' =>
        cases he
        cases he'
        cases hl.unique hl'
        exact absurd hk hk'
      · cases hs'
    · cases hs

end Bodies

end Start

section Chain

variable [Keccak] [Ed25519] [Wasmi] {g : Genesis} {t : Tracked}

namespace Bodies

section Accept

variable {b : Block} {pre post : StateDB} {outs : List ExecutionOutcome} {ctx : ExecutionContext}
  {outcome : InsertOutcome} {store' : BlockStore} {cs' : ChainState}

/-- After an accepted block the chain of every snapshot is that of an earlier one, with the block or
without it. -/
theorem exists_base (hr : ReplayInv g t) (ha : Accepted t.cs b pre outs post ctx outcome store' cs')
    {h : H256} {s : StateDB} {l : List H256} (hs : cs'.store.snapshots[h]? = some s)
    (hl : cs'.store.IsPath h l) : ∃ (h₁ : H256) (s₁ : StateDB) (l₁ : List H256),
      t.cs.store.snapshots[h₁]? = some s₁ ∧ t.cs.store.IsPath h₁ l₁
        ∧ (∀ k ∈ l, k = b.hash ∨ k ∈ l₁) ∧ ∀ k ∈ l₁, k ∈ l := by
  have hmono : ∀ {k l}, t.cs.store.IsPath k l → cs'.store.IsPath k l := fun hp =>
    ha.sameHeaders.symm.isPath (ha.inserted.isPath_mono ha.insertable.fresh hp)
  rw [ha.snapshots, Table.get_insert] at hs
  split at hs
  · next he =>
    cases he
    obtain ⟨h0, hpre⟩ := hr.parent_of_accepted ha
    obtain ⟨p, hp⟩ := hr.stored _ _ hpre
    obtain ⟨l₁, hl₁⟩ := hr.inv.path _ p hp
    have hself : cs'.store.getBlock b.hash = some b := by rw [ha.getBlock, if_pos rfl]
    cases hl.unique (.step hself (if_neg h0) (hmono hl₁))
    exact ⟨_, pre, l₁, hpre, hl₁, fun k hk => List.mem_cons.mp hk,
      fun k hk => List.mem_cons_of_mem _ hk⟩
  · obtain ⟨x, hx⟩ := hr.stored h s hs
    obtain ⟨l₁, hl₁⟩ := hr.inv.path h x hx
    cases hl.unique (hmono hl₁)
    exact ⟨h, s, l, hs, hl₁, fun k hk => .inr hk, fun k hk => hk⟩

/-- **An accepted block** comes with its body, and its chain is that of its parent. -/
theorem accept (hb : Bodies t) (hr : ReplayInv g t)
    (ha : Accepted t.cs b pre outs post ctx outcome store' cs') :
    Bodies ⟨cs', t.archive.insert b.hash b⟩ where
  copies h x hx := by
    change cs'.store.getBlock h = some x at hx
    show Copy (t.archive.insert b.hash b) h x
    rw [ha.getBlock] at hx
    split at hx
    · next he =>
      cases hx
      cases he
      exact ⟨b, Table.get_insert_self _ _ _, rfl, fun _ htx => htx⟩
    · next hne =>
      obtain ⟨a, ha', hrest⟩ := hb.copies h x hx
      exact ⟨a, (Table.get_insert_of_ne _ _ hne).trans ha', hrest⟩
  whole h h' s s' hs hs' l l' hl hl' k hk hk' := by
    show cs'.store.getBlock k = (t.archive.insert b.hash b)[k]?
    obtain ⟨h₁, s₁, l₁, hs₁, hl₁, hsub, -⟩ := exists_base hr ha hs hl
    obtain ⟨h₂, s₂, l₂, hs₂, hl₂, -, hsup⟩ := exists_base hr ha hs' hl'
    rw [ha.getBlock, Table.get_insert]
    split
    · rfl
    · next hne =>
      exact hb.whole h₁ h₂ s₁ s₂ hs₁ hs₂ l₁ l₂ hl₁ hl₂ k ((hsub k hk).resolve_left hne)
        fun hm => hk' (hsup k hm)

end Accept

/-- **One step.**  Of two kept snapshots both are canonical and from the cutoff on, and so is all
that stands on the chain of only one of them. -/
theorem step (hb : Bodies t) (hr : ReplayInv g t) (op : ChainOp) : Bodies (op.step t) := by
  cases op with
  | importBlock b =>
    rw [ChainOp.step]
    rcases ChainState.importAndApply_cases hr.inv b with
      ⟨e, he⟩ | ⟨pre, outs, post, ctx, outcome, store', cs', heq, ha⟩
    · rw [he]
      exact hb
    · rw [heq]
      exact hb.accept hr ha
  | pruneSnapshots =>
    exact hb.prune (pruned_pruneSnapshots hr.inv) hb.copies.pruneSnapshots
      fun _ _ _ _ _ _ _ _ _ _ k _ _ => getBlock_pruneSnapshots _ k
  | pruneSnapshotsKeep keep =>
    obtain ⟨h₀, hh, hs₀⟩ := hr.live
    obtain ⟨b₀, hb₀⟩ := hr.stored h₀ _ hs₀
    obtain ⟨l₀, hl₀⟩ := hr.inv.path h₀ b₀ hb₀
    have hget := getBlock_pruneSnapshotsKeep hr.inv hh hb₀ keep
    have hsnap := snapshots_pruneSnapshotsKeep hr.inv hh hb₀ hl₀ keep
    have hcanon : ∀ (h : H256) s, (t.cs.store.pruneSnapshotsKeep keep).snapshots[h]? = some s →
        h ∈ l₀ ∧ cutoff b₀.header.number keep ≤ t.cs.store.numberOf h := by
      intro h s hs
      rw [hsnap] at hs
      split at hs
      · assumption
      · cases hs
    refine hb.prune (pruned_pruneSnapshotsKeep hr.inv keep) (fun h x hx => ?_) ?_
    · rw [hget] at hx
      obtain ⟨y, hy, rfl⟩ := Option.map_eq_some_iff.mp hx
      obtain ⟨a, ha, hh, hsub⟩ := hb.copies h y hy
      split
      · exact ⟨a, ha, hh, fun tx htx => absurd htx List.not_mem_nil⟩
      · exact ⟨a, ha, hh, hsub⟩
    · intro h h' s s' hs hs' l l' hl hl' k hk hk'
      have hk₀ : k ∈ l₀ := by
        obtain ⟨m, hm, hsuf⟩ := hl₀.of_mem h (hcanon h s hs).1
        cases hl.unique hm
        exact hsuf.subset hk
      have hle := hr.inv.numberOf_le_of_notMem hl₀ (hcanon h' s' hs').1 hl' hk₀ hk'
      obtain ⟨_, hlk, -⟩ := hl.of_mem k hk
      obtain ⟨x, hx⟩ := hlk.get_isSome
      rw [numberOf_eq hx] at hle
      rw [hget, hx, Option.map_some,
        if_neg (UInt64.not_lt.mpr (UInt64.le_trans (hcanon h' s' hs').2 hle))]

end Bodies

/-! ### A head that moves -/

/-- The transactions of the canonical chain that the chain of a block does not have, as far as the
store has their bodies. -/
def ChainState.dropped (cs : ChainState) (b : Block) : List Transaction :=
  ((cs.store.head.map cs.store.txsOnPath).getD []).filter fun tx =>
    tx.hash ∉ (cs.store.txsOnPath b.header.parentHash ++ b.transactions.toList).map Transaction.hash

/-- The transactions on the two chains and those that are pending. -/
def reorgTxs (t t' : Tracked) (h h' : H256) : Set Transaction :=
  { tx | tx ∈ txsOf (t.chain h) ∨ tx ∈ txsOf (t'.chain h')
    ∨ ∃ (k : H256) (e : PendingTx), t.cs.pool.pending[k]? = some e ∧ e.tx = tx }

namespace Accepted

variable {cs cs' : ChainState} {b : Block} {pre post : StateDB} {outs : List ExecutionOutcome}
  {ctx : ExecutionContext} {outcome : InsertOutcome} {store' : BlockStore}

theorem txsOnPath_of_path (ha : Accepted cs b pre outs post ctx outcome store' cs') {h : H256}
    {l : List H256} (hl : cs.store.IsPath h l) : cs'.store.txsOnPath h = cs.store.txsOnPath h := by
  have hl' : cs'.store.IsPath h l :=
    ha.sameHeaders.symm.isPath (ha.inserted.isPath_mono ha.insertable.fresh hl)
  rw [txsOnPath, txsOnPath, chainFrom_eq hl, chainFrom_eq hl', List.flatMap_congr]
  intro k hk
  obtain ⟨_, hlk, -⟩ := hl.of_mem k (List.mem_reverse.mp hk)
  obtain ⟨x, hx⟩ := hlk.get_isSome
  have hne : k ≠ b.hash := by
    rintro rfl
    rw [ha.insertable.fresh] at hx
    cases hx
  rw [ha.getBlock, if_neg hne]

theorem txsOnPath_self (ha : Accepted cs b pre outs post ctx outcome store' cs') {l : List H256}
    (h0 : b.header.number ≠ 0) (hl : cs.store.IsPath b.header.parentHash l) :
    cs'.store.txsOnPath b.hash
      = cs.store.txsOnPath b.header.parentHash ++ b.transactions.toList := by
  have hl' : cs'.store.IsPath b.header.parentHash l :=
    ha.sameHeaders.symm.isPath (ha.inserted.isPath_mono ha.insertable.fresh hl)
  have hself : cs'.store.getBlock b.hash = some b := by rw [ha.getBlock, if_pos rfl]
  have hlb : cs'.store.IsPath b.hash (b.hash :: l) := .step hself (if_neg h0) hl'
  rw [← ha.txsOnPath_of_path hl, txsOnPath, txsOnPath, chainFrom_eq hlb, chainFrom_eq hl',
    List.reverse_cons, List.flatMap_append]
  simp [hself]

/-- **The pool after the head moved**: the dropped transactions are tried again, and those of the
new chain removed. -/
theorem pool_eq_takeBack (ha : Accepted cs b pre outs post ctx outcome store' cs')
    (hm : outcome.headChanged = true) {h : H256} (hh : cs.store.head = some h) {l l' : List H256}
    (hl : cs.store.IsPath h l) (h0 : b.header.number ≠ 0)
    (hl' : cs.store.IsPath b.header.parentHash l') :
    cs'.pool = (cs'.store.txsOnPath b.hash).foldl (fun pool tx => pool.remove tx.hash)
      (cs.pool.takeBack (cs.dropped b)) := by
  rw [ha.pool_of_moved hm hh, TransactionPool.foldl_eq_takeBack, ha.txsOnPath_of_path hl,
    ha.txsOnPath_self h0 hl', ChainState.dropped, hh]
  rfl

end Accepted

theorem ReplayInv.genesis_mem_path (hr : ReplayInv g t) {h : H256} {b : Block} {l : List H256}
    (hb : t.cs.store.getBlock h = some b) (hl : t.cs.store.IsPath h l) : g.block.hash ∈ l := by
  obtain ⟨bs, outs, s, hchain, -⟩ := hr.replayed h b hb
  have hhash := hr.map_hash_chain hb
  rw [hchain, chainFrom_eq hl, List.map_cons] at hhash
  exact List.mem_reverse.mp (hhash ▸ List.mem_cons_self)

theorem ReplayInv.archive_of_mem_chain (hr : ReplayInv g t) {h : H256} {l : List H256}
    (hl : t.cs.store.IsPath h l) {a : Block} (ha : a ∈ t.chain h) :
    a.hash ∈ l ∧ t.archive[a.hash]? = some a := by
  rw [Tracked.chain_eq hl] at ha
  obtain ⟨k, hk, hget⟩ := List.mem_filterMap.mp ha
  have hh := hr.archived k
  rw [hget, Option.map_some] at hh
  obtain ⟨x, hx, hxx⟩ := Option.map_eq_some_iff.mp hh.symm
  have hkey : a.hash = k := by
    rw [← hr.inv.keyed k x hx, Block.hash, Block.hash, hxx]
  rw [hkey]
  exact ⟨List.mem_reverse.mp hk, hget⟩

section Moved

variable {b : Block} {h : H256} {l l' : List H256}

/-- **Dropped transactions come in the order in which the old chain executed them.**  Where the
chains part the bodies are there, and below that nothing is dropped. -/
theorem Bodies.dropped_sublist (hb : Bodies t) (hr : ReplayInv g t)
    (hh : t.cs.store.head = some h) (hl : t.cs.store.IsPath h l) {pre : StateDB}
    (hpre : t.cs.store.snapshots[b.header.parentHash]? = some pre)
    (hl' : t.cs.store.IsPath b.header.parentHash l') :
    ∃ bs outs s, replay g.state bs = .ok (outs, s) ∧ (t.cs.dropped b).Sublist (txsOf bs) := by
  obtain ⟨h₀, hh₀, hs₀⟩ := hr.live
  cases hh.symm.trans hh₀
  obtain ⟨x, hx⟩ := hl.get_isSome
  obtain ⟨p, hp⟩ := hl'.get_isSome
  obtain ⟨bs, outs, s, hchain, hrep, -⟩ := hr.replayed h x hx
  refine ⟨bs, outs, s, hrep, ?_⟩
  have hhash := hr.map_hash_chain hx
  rw [hchain, List.map_cons] at hhash
  -- a block on both chains drops nothing
  have hshared : ∀ k ∈ l', (((t.cs.store.getBlock k).map fun a =>
      a.transactions.toList).getD []).filter (fun tx => decide (tx.hash ∉
        (t.cs.store.txsOnPath b.header.parentHash ++ b.transactions.toList).map Transaction.hash))
      = [] := by
    intro k hk
    rw [List.filter_eq_nil_iff]
    intro tx htx
    rw [decide_eq_true_eq, not_not, List.map_append]
    refine List.mem_append_left _ (List.mem_map_of_mem ((mem_txsOnPath hl').mpr ⟨k, hk, ?_⟩))
    cases hget : t.cs.store.getBlock k with
    | none =>
      rw [hget] at htx
      cases htx
    | some a =>
      rw [hget] at htx
      exact ⟨a, rfl, htx⟩
  have hpath : t.cs.store.txsOnPath h = (g.block.hash :: bs.map Block.hash).flatMap fun k =>
      ((t.cs.store.getBlock k).map fun a => a.transactions.toList).getD [] := by
    rw [txsOnPath, ← hhash]
  rw [ChainState.dropped, hh, Option.map_some, Option.getD_some, hpath, List.flatMap_cons,
    List.filter_append, hshared _ (hr.genesis_mem_path hp hl'), List.nil_append,
    List.filter_flatMap, List.flatMap_map, txsOf]
  refine List.Sublist.flatMap_right bs fun a ha => ?_
  by_cases hm : a.hash ∈ l'
  · rw [hshared _ hm]
    exact List.nil_sublist _
  · obtain ⟨hk, hget⟩ := hr.archive_of_mem_chain hl (hchain ▸ List.mem_cons_of_mem _ ha)
    rw [hb.whole h _ _ pre hs₀ hpre l l' hl hl' _ hk hm, hget]
    exact List.filter_sublist

/-- **A transaction that only the old chain has is dropped.**  Its body is there, since the two
chains part below it. -/
theorem Bodies.mem_dropped (hb : Bodies t) (hr : ReplayInv g t) (hh : t.cs.store.head = some h)
    (hl : t.cs.store.IsPath h l) {pre : StateDB}
    (hpre : t.cs.store.snapshots[b.header.parentHash]? = some pre)
    (hl' : t.cs.store.IsPath b.header.parentHash l') {S : Set Transaction}
    (hcf : CollisionFree (Transaction.codec.encode '' S)) {tx : Transaction} (htx : tx ∈ S)
    (hnewS : ∀ tx' ∈ txsOf (t.chain b.header.parentHash ++ [b]), tx' ∈ S)
    (hold : tx ∈ txsOf (t.chain h)) (hnew : tx ∉ txsOf (t.chain b.header.parentHash ++ [b])) :
    tx ∈ t.cs.dropped b := by
  have hsplit : ∀ tx', tx' ∈ txsOf (t.chain b.header.parentHash ++ [b])
      ↔ tx' ∈ txsOf (t.chain b.header.parentHash) ∨ tx' ∈ b.transactions.toList := by
    intro tx'
    simp [txsOf]
  obtain ⟨k, hk, a, ha, hta⟩ := (Tracked.mem_txsOf_chain hl).mp hold
  have hk' : k ∉ l' := fun hm => hnew ((hsplit tx).mpr
    (.inl ((Tracked.mem_txsOf_chain hl').mpr ⟨k, hm, a, ha, hta⟩)))
  obtain ⟨h₀, hh₀, hs₀⟩ := hr.live
  cases hh.symm.trans hh₀
  have hbody := (hb.whole h _ _ pre hs₀ hpre l l' hl hl' k hk hk').trans ha
  rw [ChainState.dropped, hh, Option.map_some, Option.getD_some, List.mem_filter,
    decide_eq_true_eq]
  refine ⟨(mem_txsOnPath hl).mpr ⟨k, hk, a, hbody, hta⟩, fun hm => hnew ?_⟩
  obtain ⟨tx', htx', hhash⟩ := List.mem_map.mp hm
  have hmem : tx' ∈ txsOf (t.chain b.header.parentHash ++ [b]) := by
    rw [hsplit]
    refine (List.mem_append.mp htx').imp_left fun htx' => ?_
    rw [Tracked.chain_eq hl']
    exact hb.copies.mem_pathTxs hl' htx'
  have heq : tx' = tx := Transaction.codec.encode_injective
    (hcf (Set.mem_image_of_mem _ (hnewS tx' hmem)) (Set.mem_image_of_mem _ htx) hhash)
  rwa [← heq]

omit [Ed25519] [Wasmi] in
theorem Bodies.mem_of_dropped (hb : Bodies t) (hh : t.cs.store.head = some h)
    (hl : t.cs.store.IsPath h l) {tx : Transaction} (htx : tx ∈ t.cs.dropped b) :
    tx ∈ txsOf (t.chain h) := by
  rw [ChainState.dropped, hh, Option.map_some, Option.getD_some, List.mem_filter] at htx
  rw [Tracked.chain_eq hl]
  exact hb.copies.mem_pathTxs hl htx.1

/-- **A dropped transaction is tried among all that are dropped.**  The old chain has executed them
in the order of their nonces, and the pool has only nonces below the expected one. -/
theorem Bodies.tried (hb : Bodies t) (hr : ReplayInv g t) (hf : t.cs.pool.Filed)
    (hbehind : t.cs.pool.Behind) (hh : t.cs.store.head = some h) (hl : t.cs.store.IsPath h l)
    {pre : StateDB} (hpre : t.cs.store.snapshots[b.header.parentHash]? = some pre)
    (hl' : t.cs.store.IsPath b.header.parentHash l') {S : Set Transaction}
    (hcf : CollisionFree (Transaction.codec.encode '' S))
    (hold : ∀ tx' ∈ txsOf (t.chain h), tx' ∈ S)
    (hpool : ∀ (k : H256) e, t.cs.pool.pending[k]? = some e → e.tx ∈ S) {tx : Transaction}
    (hmem : tx ∈ t.cs.dropped b) (hallowed : t.cs.pool.config.Allows tx)
    (hroom : t.cs.pool.pending.size + (t.cs.dropped b).length ≤ t.cs.pool.config.maxPending.toNat)
    (hsender : (t.cs.pool.senderCount tx.sender).toNat
      + (tx.nonce.toNat - (t.cs.pool.expectedNonce tx.sender).toNat)
        < t.cs.pool.config.maxPerSender.toNat) :
    t.cs.pool.Tried (t.cs.dropped b) tx := by
  have hdropped : ∀ tx' ∈ t.cs.dropped b, tx' ∈ S :=
    fun tx' htx' => hold tx' (hb.mem_of_dropped hh hl htx')
  have hpending : ∀ tx' ∈ t.cs.dropped b, ∀ e, t.cs.pool.pending[tx'.hash]? = some e → e.tx = tx' :=
    fun tx' htx' e he => Transaction.codec.encode_injective (hcf
      (Set.mem_image_of_mem _ (hpool _ e he)) (Set.mem_image_of_mem _ (hdropped tx' htx'))
      (hf _ e he).2)
  obtain ⟨bs, outs, s, hrep, hsub⟩ := hb.dropped_sublist hr hh hl hpre hl'
  have husable : ∀ tx' ∈ t.cs.dropped b, tx'.Usable := by
    intro tx' htx'
    obtain ⟨hup, hlen⟩ := replay_nonces tx'.sender hrep
    have hlt := hup.nonce_lt (hsub.subset htx') rfl
    have hfits := (s.nonce tx'.sender).toNat_lt
    rw [Transaction.Usable]
    omega
  exact
    { mem := hmem
      allowed := hallowed
      ordered := (replay_nonces tx.sender hrep).1.pairwise.sublist hsub
      usable := husable
      room := hroom
      senderRoom := hsender
      fresh := fun tx' htx' hs hle => by
        refine Option.eq_none_iff_forall_ne_some.mpr fun e he => ?_
        obtain rfl := hpending tx' htx' e he
        have hlt := hbehind.below _ e he (husable _ htx')
        rw [hs] at hlt
        exact absurd hle (UInt64.not_le.mpr hlt)
      hashes := fun tx₁ h₁ tx₂ h₂ hk => Transaction.codec.encode_injective
        (hcf (Set.mem_image_of_mem _ (hdropped tx₁ h₁))
          (Set.mem_image_of_mem _ (hdropped tx₂ h₂)) hk)
      entry := hpending tx hmem }

end Moved

/-- **A transaction of the old branch comes back if it was pending or the dropped transactions lead
to it, and only then.** -/
theorem Bodies.returned_iff (hb : Bodies t) (hr : ReplayInv g t) (hf : t.cs.pool.Filed)
    (hbehind : t.cs.pool.Behind) (b : Block) {t' : Tracked}
    (ht' : t' = (ChainOp.importBlock b).step t) {h h' : H256} (hh : t.cs.store.head = some h)
    (hh' : t'.cs.store.head = some h') (hmoved : h' ≠ h)
    (hcf : CollisionFree (Transaction.codec.encode '' reorgTxs t t' h h')) {tx : Transaction}
    (hold : tx ∈ txsOf (t.chain h)) (hnew : tx ∉ txsOf (t'.chain h'))
    (hallowed : t.cs.pool.config.Allows tx)
    (hroom : t.cs.pool.pending.size + (t.cs.dropped b).length ≤ t.cs.pool.config.maxPending.toNat)
    (hsender : (t.cs.pool.senderCount tx.sender).toNat
      + (tx.nonce.toNat - (t.cs.pool.expectedNonce tx.sender).toNat)
        < t.cs.pool.config.maxPerSender.toNat) :
    t'.cs.pool.Holds tx ↔ t.cs.pool.Holds tx ∨ t.cs.pool.LeadsTo (t.cs.dropped b) tx := by
  rw [ChainOp.step] at ht'
  rcases ChainState.importAndApply_cases hr.inv b with
    ⟨e, he⟩ | ⟨pre, outs, post, ctx, outcome, store', cs', heq, ha⟩
  · rw [he] at ht'
    cases ht'
    exact absurd (Option.some.inj (hh'.symm.trans hh)) hmoved
  rw [heq] at ht'
  cases ht'
  have hm : outcome.headChanged = true := by
    refine Bool.eq_true_of_not_eq_false fun hm => hmoved ?_
    exact Option.some.inj (hh'.symm.trans ((ha.stayed hm).1.trans hh))
  cases hh'.symm.trans (ha.live_of_moved hm).1
  obtain ⟨h0, hpre⟩ := hr.parent_of_accepted ha
  obtain ⟨x, hx, -⟩ := hr.inv.head_max h hh
  obtain ⟨p, hp⟩ := hr.stored _ _ hpre
  obtain ⟨l, hl⟩ := hr.inv.path h x hx
  obtain ⟨l', hl'⟩ := hr.inv.path _ p hp
  have hchain := hr.chain_self_of_accepted ha
  have hmem : tx ∈ t.cs.dropped b := by
    refine hb.mem_dropped hr hh hl hpre hl' hcf (.inl hold) (fun tx' htx' => ?_) hold ?_
    · rw [← hchain] at htx'
      exact .inr (.inl htx')
    · rw [← hchain]
      exact hnew
  have htried : t.cs.pool.Tried (t.cs.dropped b) tx :=
    hb.tried hr hf hbehind hh hl hpre hl' hcf (fun _ htx' => .inl htx')
      (fun _ e he => .inr (.inr ⟨_, e, he, rfl⟩)) hmem hallowed hroom hsender
  -- and it is not among the transactions of the new chain, which are removed
  have hkeep : cs'.pool.Holds tx ↔ (t.cs.pool.takeBack (t.cs.dropped b)).Holds tx := by
    rw [ChainState.dropped, List.mem_filter, decide_eq_true_eq, ← ha.txsOnPath_self h0 hl'] at hmem
    rw [TransactionPool.Holds, TransactionPool.Holds, ha.pool_eq_takeBack hm hh hl h0 hl',
      (TransactionPool.removed _ _).1, if_neg hmem.2]
  exact hkeep.trans (TransactionPool.holds_takeBack_iff _ _ htried)

end Chain

/-! ### Runs -/

/-- Steps of the chain and of the pool. -/
inductive ChainEvent
  | chain (op : ChainOp)
  | pool (op : PoolOp)

namespace ChainEvent

variable [Keccak] [Ed25519] [Wasmi]

/-- One step. -/
def step (t : Tracked) : ChainEvent → Tracked
  | chain op => op.step t
  | pool op => ⟨{ t.cs with pool := op.apply t.cs.pool }, t.archive⟩

/-- A run from a genesis and an empty pool. -/
def run (g : Genesis) (config : PoolConfig) (events : List ChainEvent) : Tracked :=
  events.foldl step (g.tracked (TransactionPool.withConfig config))

/-- No block of a run has the hash that a genesis names as its parent. -/
def NoZeroHash (g : Genesis) (events : List ChainEvent) : Prop :=
  g.block.hash ≠ H256.zero ∧ ∀ b, chain (.importBlock b) ∈ events → b.hash ≠ H256.zero

theorem pool_step {P : TransactionPool → Prop}
    (hadd : ∀ pool tx origin addedAtMs, P pool → P (pool.addTransactionAt tx origin addedAtMs).2)
    (hremove : ∀ pool hash, P pool → P (pool.remove hash)) {g : Genesis} {t : Tracked}
    (hr : ReplayInv g t) (hp : P t.cs.pool) (event : ChainEvent) : P (event.step t).cs.pool := by
  cases event with
  | pool op =>
    cases op with
    | add tx origin addedAtMs => exact hadd _ tx origin addedAtMs hp
    | remove hash => exact hremove _ hash hp
  | chain op =>
    cases op with
    | pruneSnapshots => exact hp
    | pruneSnapshotsKeep k => exact hp
    | importBlock b =>
      rw [step, ChainOp.step]
      rcases ChainState.importAndApply_cases hr.inv b with
        ⟨e, he⟩ | ⟨pre, outs, post, ctx, outcome, store', cs', heq, ha⟩
      · rw [he]
        exact hp
      rw [heq]
      show P cs'.pool
      cases hm : outcome.headChanged with
      | false =>
        rw [(ha.stayed hm).2.2.1]
        exact hp
      | true =>
        obtain ⟨h, hh, -⟩ := hr.live
        rw [ha.pool_of_moved hm hh]
        refine List.foldlRecOn _ _ (motive := P) ?_ fun pool hp tx _ => hremove pool tx.hash hp
        refine List.foldlRecOn _ _ (motive := P) hp fun pool hp tx _ => ?_
        split
        · exact hp
        · exact hadd pool tx .local 0 hp

theorem inv_run (g : Genesis) (config : PoolConfig) (events : List ChainEvent)
    (hz : NoZeroHash g events) : ReplayInv g (run g config events) ∧ Bodies (run g config events)
      ∧ (run g config events).cs.pool.Filed ∧ (run g config events).cs.pool.Behind := by
  refine List.foldlRecOn events step
    (motive := fun t => ReplayInv g t ∧ Bodies t ∧ t.cs.pool.Filed ∧ t.cs.pool.Behind)
    ⟨.start g _ hz.1, .start g _, .of_empty rfl, TransactionPool.behind_of_empty rfl⟩ ?_
  rintro t ⟨hr, hb, hf, hbehind⟩ event hmem
  refine ⟨?_, ?_, pool_step (fun _ tx origin ms hp => hp.addTransactionAt tx origin ms)
    (fun _ hash hp => hp.remove hash) hr hf event,
    pool_step (fun _ tx origin ms hp => hp.addTransactionAt tx origin ms)
      (fun _ hash hp => hp.remove hash) hr hbehind event⟩
  · cases event with
    | chain op => exact hr.step op fun b hb => hz.2 b (hb ▸ hmem)
    | pool op => exact ⟨hr.inv, hr.archived, hr.nonzero, hr.stored, hr.replayed, hr.live⟩
  · cases event with
    | chain op => exact hb.step hr op
    | pool op => exact ⟨hb.copies, hb.whole⟩

/-- **Exactly when a dropped transaction returns to the pool.**  After any run, a block moves the
head from `h` to `h'`.  A transaction that is on the chain of `h` but not on that of `h'`, signed by
its sender and within the limits of the pool, is pending afterwards if and only if it was pending
before, or the pool expects its nonce or a lower one and every nonce in between belongs to a dropped
transaction of the sender that admission allows. -/
theorem returned_iff_run (g : Genesis) (config : PoolConfig) (events : List ChainEvent)
    (hz : NoZeroHash g events) (t t' : Tracked) (ht : t = run g config events) (b : Block)
    (ht' : t' = (ChainOp.importBlock b).step t) (h h' : H256) (hh : t.cs.store.head = some h)
    (hh' : t'.cs.store.head = some h') (hmoved : h' ≠ h)
    (hcf : CollisionFree (Transaction.codec.encode '' reorgTxs t t' h h')) (tx : Transaction)
    (hold : tx ∈ txsOf (t.chain h)) (hnew : tx ∉ txsOf (t'.chain h'))
    (hallowed : t.cs.pool.config.Allows tx)
    (hroom : t.cs.pool.pending.size + (t.cs.dropped b).length ≤ t.cs.pool.config.maxPending.toNat)
    (hsender : (t.cs.pool.senderCount tx.sender).toNat
      + (tx.nonce.toNat - (t.cs.pool.expectedNonce tx.sender).toNat)
        < t.cs.pool.config.maxPerSender.toNat) :
    t'.cs.pool.Holds tx ↔ t.cs.pool.Holds tx ∨ t.cs.pool.LeadsTo (t.cs.dropped b) tx := by
  obtain ⟨hr, hb, hf, hbehind⟩ := inv_run g config events hz
  rw [← ht] at hr hb hf hbehind
  exact hb.returned_iff hr hf hbehind b ht' hh hh' hmoved hcf hold hnew hallowed hroom hsender

end ChainEvent

namespace Devnet

/-- An empty block on the genesis, with a smaller hash than the block with the transfer. -/
@[irreducible] def rival : Block := next state genesisBlock 1 []

/-- The pool admits the transfer, a block includes it, and the store is pruned. -/
def includedLocal : List ChainEvent :=
  [.pool (.add (transfer 0) .local 0), .chain (.importBlock blockA), .chain .pruneSnapshots]

/-- The transfer is on the chain of the first head and not on that of the second, it is the next one
of the user on that chain, and nothing stands in the way of its admission. -/
def Returnable (t t' : Tracked) : Prop :=
  t.cs.store.head = some blockA.hash ∧ t'.cs.store.head = some rival.hash
    ∧ transfer 0 ∈ txsOf (t.chain blockA.hash) ∧ transfer 0 ∉ txsOf (t'.chain rival.hash)
    ∧ (transfer 0).nonce = t'.cs.live.nonce (transfer 0).sender
    ∧ t.cs.pool.config.minGas ≤ (transfer 0).gas ∧ t.cs.pool.pending.toList = []
    ∧ t.cs.pool.pending.size + (t.cs.dropped rival).length ≤ t.cs.pool.config.maxPending.toNat
    ∧ t.cs.pool.senderCount (transfer 0).sender < t.cs.pool.config.maxPerSender

instance (t t' : Tracked) : Decidable (Returnable t t') :=
  inferInstanceAs (Decidable (_ ∧ _ ∧ _ ∧ _ ∧ _ ∧ _ ∧ _ ∧ _ ∧ _))

theorem recoverSender_transfer : recoverSender (transfer 0) = .ok (transfer 0).sender := by
  decide +kernel

/-- **A transaction is lost.**  The pool admitted it, so it expects the next nonce; when the block
that included it is replaced, the pool refuses it. -/
theorem transfer_lost :
    ∃ t t', t = ChainEvent.run genesis PoolConfig.default includedLocal
      ∧ t' = (ChainOp.importBlock rival).step t
      ∧ Returnable t t' ∧ recoverSender (transfer 0) = .ok (transfer 0).sender
      ∧ t'.cs.pool.pending.toList = [] := by
  have heval : Returnable (ChainEvent.run genesis PoolConfig.default includedLocal)
      ((ChainOp.importBlock rival).step (ChainEvent.run genesis PoolConfig.default includedLocal))
      ∧ ((ChainOp.importBlock rival).step
        (ChainEvent.run genesis PoolConfig.default includedLocal)).cs.pool.pending.toList = [] := by
    decide +kernel
  exact ⟨_, _, rfl, rfl, heval.1, recoverSender_transfer, heval.2⟩

/-- A peer includes two transfers, which the pool never saw. -/
def includedByPeer : List ChainEvent := [.chain (.importBlock blockTwo), .chain .pruneSnapshots]

theorem noZeroHash_includedByPeer : ChainEvent.NoZeroHash genesis includedByPeer := by
  have hne : genesisBlock.hash ≠ H256.zero ∧ blockTwo.hash ≠ H256.zero := by decide +kernel
  refine ⟨hne.1, fun b hb => ?_⟩
  simp only [includedByPeer, List.mem_cons, ChainEvent.chain.injEq, ChainOp.importBlock.injEq,
    reduceCtorEq, List.not_mem_nil, or_false] at hb
  rw [hb]
  exact hne.2

/-- The chain after that, with what it has archived. -/
@[irreducible] def peerChain : Tracked :=
  ChainEvent.run genesis PoolConfig.default includedByPeer

theorem evaluated_peerChain : peerChain.cs.store.head = some blockTwo.hash
    ∧ ((ChainOp.importBlock rival).step peerChain).cs.store.head = some rival.hash
    ∧ txsOf (peerChain.chain blockTwo.hash) = [transfer 0, transfer 1]
    ∧ txsOf (((ChainOp.importBlock rival).step peerChain).chain rival.hash) = []
    ∧ peerChain.cs.dropped rival = [transfer 0, transfer 1]
    ∧ peerChain.cs.pool.expectedNonce (transfer 1).sender = 0
    ∧ peerChain.cs.pool.senderCount (transfer 1).sender = 0
    ∧ peerChain.cs.pool.pending.toList = [] ∧ peerChain.cs.pool.pending.size = 0
    ∧ peerChain.cs.pool.config = PoolConfig.default := by decide +kernel

theorem evaluated_transfers : rival.hash ≠ blockTwo.hash ∧ (transfer 0).hash ≠ (transfer 1).hash
    ∧ (transfer 0).sender = (transfer 1).sender ∧ (transfer 0).nonce = 0 ∧ (transfer 1).nonce = 1
    ∧ recoverSender (transfer 0) = .ok (transfer 0).sender
    ∧ recoverSender (transfer 1) = .ok (transfer 1).sender
    ∧ PoolConfig.default.minGas ≤ (transfer 0).gas
    ∧ PoolConfig.default.minGas ≤ (transfer 1).gas := by decide +kernel

/-- Only the two transfers are hashed when their block is replaced. -/
theorem collisionFree_peerChain : CollisionFree (Transaction.codec.encode ''
    reorgTxs peerChain ((ChainOp.importBlock rival).step peerChain) blockTwo.hash rival.hash) := by
  obtain ⟨-, -, hold, hnew, -, -, -, hpending, -⟩ := evaluated_peerChain
  obtain ⟨-, hhash, -⟩ := evaluated_transfers
  have hall : ∀ tx ∈ reorgTxs peerChain ((ChainOp.importBlock rival).step peerChain) blockTwo.hash
      rival.hash, tx = transfer 0 ∨ tx = transfer 1 := by
    rintro tx (htx | htx | ⟨k, e, he, -⟩)
    · rw [hold] at htx
      simpa using htx
    · rw [hnew] at htx
      cases htx
    · have hm := Table.mem_toList.mpr he
      rw [hpending] at hm
      cases hm
  rintro _ ⟨tx, htx, rfl⟩ _ ⟨tx', htx', rfl⟩ heq
  rcases hall tx htx with rfl | rfl <;> rcases hall tx' htx' with rfl | rfl
  · rfl
  · exact absurd heq hhash
  · exact absurd heq.symm hhash
  · rfl

/-- The first transfer leads the pool to the second. -/
theorem leadsTo_peerChain :
    peerChain.cs.pool.LeadsTo (peerChain.cs.dropped rival) (transfer 1) := by
  obtain ⟨-, -, -, -, hdropped, hexp, -, -, -, hconf⟩ := evaluated_peerChain
  obtain ⟨-, -, hsender, hn₀, hn₁, hsigned, -, hgas, -⟩ := evaluated_transfers
  rw [TransactionPool.LeadsTo, hexp, hn₁]
  refine ⟨UInt64.zero_le, fun n _ hn => ⟨transfer 0, ?_, hsender, ?_, ?_⟩⟩
  · rw [hdropped]
    exact List.mem_cons_self
  · rw [hn₀, ← UInt64.toNat_inj]
    rw [UInt64.lt_iff_toNat_lt] at hn
    have hone : (1 : UInt64).toNat = 1 := rfl
    have hzero : (0 : UInt64).toNat = 0 := rfl
    omega
  · rw [hconf]
    exact ⟨hgas, hsigned⟩

/-- The second of two transfers that the pool never saw returns behind the first when their block is
replaced. -/
theorem returned_iff_run_rival : ∃ t t',
    t = ChainEvent.run genesis PoolConfig.default includedByPeer
    ∧ t' = (ChainOp.importBlock rival).step t ∧ t.cs.store.head = some blockTwo.hash
    ∧ t'.cs.store.head = some rival.hash ∧ t.cs.pool.expectedNonce (transfer 1).sender = 0
    ∧ t.cs.dropped rival = [transfer 0, transfer 1] ∧ t'.cs.pool.Holds (transfer 1) := by
  obtain ⟨hh, hh', hold, hnew, hdropped, hexp, hcount, -, hsize, hconf⟩ := evaluated_peerChain
  obtain ⟨hne, -, -, -, hn₁, -, hsigned, -, hgas⟩ := evaluated_transfers
  have hrun : peerChain = ChainEvent.run genesis PoolConfig.default includedByPeer := by
    rw [peerChain]
  refine ⟨peerChain, _, hrun, rfl, hh, hh', hexp, hdropped, (ChainEvent.returned_iff_run genesis
    PoolConfig.default includedByPeer noZeroHash_includedByPeer peerChain _ hrun rival rfl _ _ hh
    hh' hne collisionFree_peerChain (transfer 1) ?_ ?_ ?_ ?_ ?_).mpr (.inr leadsTo_peerChain)⟩
  · rw [hold]
    simp
  · rw [hnew]
    exact List.not_mem_nil
  · rw [hconf]
    exact ⟨hgas, hsigned⟩
  · rw [hsize, hdropped, hconf]
    decide
  · rw [hcount, hexp, hn₁, hconf]
    decide

end Devnet

end Ivory
