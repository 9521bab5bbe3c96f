import Ivory.Chain.Accounting
import Ivory.Node.Orphans

/-!
# The store against an archive

The store holds copies of the accepted blocks, some of them without their
bodies.  `A` is an archive of the accepted blocks as they came; what the store
holds is compared with it.  A state is `Counted` for a block if the nonce of every
account is the number of its transactions on the chain of that block.

* `Counted.nonce_lt`: the nonce of a transaction on the chain is used up.
* `ChainFits`: the blocks of the store are copies, and its snapshots and the live
  state are counted.
* `ChainFits.accepted`, `ChainFits.settle`: **an import and the pruning after it keep this.**
-/

namespace Ivory

open BlockStore
open Ancestry (Path)

/-! ### Copies and counts -/

/-- A copy of an archived block: the header, and no transaction that the block does not have. -/
def Copy (A : Table H256 Block) (h : H256) (b : Block) : Prop :=
  ∃ a, A[h]? = some a ∧ b.header = a.header
    ∧ ∀ tx ∈ b.transactions.toList, tx ∈ a.transactions.toList

/-- The hashes from an archived block down to height zero. -/
abbrev ArchivePath (A : Table H256 Block) (h : H256) (l : List H256) : Prop :=
  Path (fun k => A[k]?) Block.parent h l

/-- The transactions of the archived blocks on a path, in the order of the chain. -/
def pathTxs (A : Table H256 Block) (l : List H256) : List Transaction :=
  txsOf (l.reverse.filterMap fun k => A[k]?)

theorem mem_pathTxs {A : Table H256 Block} {l : List H256} {tx : Transaction} :
    tx ∈ pathTxs A l ↔ ∃ k ∈ l, ∃ a, A[k]? = some a ∧ tx ∈ a.transactions.toList := by
  simp only [pathTxs, txsOf, List.mem_flatMap, List.mem_filterMap, List.mem_reverse]
  constructor
  · rintro ⟨a, ⟨k, hk, ha⟩, htx⟩
    exact ⟨k, hk, a, ha, htx⟩
  · rintro ⟨k, hk, a, ha, htx⟩
    exact ⟨a, ⟨k, hk, ha⟩, htx⟩

theorem pathTxs_cons {A : Table H256 Block} {h : H256} {a : Block} (ha : A[h]? = some a)
    (l : List H256) : pathTxs A (h :: l) = pathTxs A l ++ a.transactions.toList := by
  rw [pathTxs, List.reverse_cons, List.filterMap_append, txsOf, List.flatMap_append]
  simp [ha, pathTxs, txsOf]

/-- The nonces of a state count the transactions of the chain. -/
def Counted (A : Table H256 Block) (h : H256) (s : StateDB) : Prop :=
  ∃ l, ArchivePath A h l ∧ ∀ a, CountsUp a (pathTxs A l) 0
    ∧ (s.nonce a).toNat = (sentBy a (pathTxs A l)).length

namespace Counted

variable {A : Table H256 Block} {h : H256} {s : StateDB}

theorem congr {s' : StateDB} (hc : Counted A h s) (heq : ∀ a, s'.nonce a = s.nonce a) :
    Counted A h s' := by
  obtain ⟨l, hl, hcount⟩ := hc
  exact ⟨l, hl, fun a => ⟨(hcount a).1, by rw [heq a]; exact (hcount a).2⟩⟩

/-- **The nonce of a transaction on the chain is used up.** -/
theorem nonce_lt (hc : Counted A h s) {l : List H256} (hl : ArchivePath A h l) {tx : Transaction}
    (htx : tx ∈ pathTxs A l) : tx.nonce < s.nonce tx.sender := by
  obtain ⟨l', hl', hcount⟩ := hc
  cases hl.unique hl'
  obtain ⟨hup, hlen⟩ := hcount tx.sender
  rw [UInt64.lt_iff_toNat_lt, hlen]
  exact (CountsUp.nonce_lt hup htx rfl).trans_eq (Nat.zero_add _)

theorem nonce_eq {s' : StateDB} (hc : Counted A h s) (hc' : Counted A h s') (a : Address) :
    s.nonce a = s'.nonce a := by
  obtain ⟨l, hl, hcount⟩ := hc
  obtain ⟨l', hl', hcount'⟩ := hc'
  cases hl.unique hl'
  rw [← UInt64.toNat_inj, (hcount a).2, (hcount' a).2]

theorem pathTxs_eq_nil (hc : Counted A h s) (hzero : ∀ a, s.nonce a = 0) {l : List H256}
    (hl : ArchivePath A h l) : pathTxs A l = [] := by
  refine List.eq_nil_iff_forall_not_mem.mpr fun tx htx => ?_
  have hlt := hc.nonce_lt hl htx
  rw [hzero] at hlt
  exact absurd hlt (by simp [UInt64.lt_iff_toNat_lt])

theorem nonce_eq_zero (hc : Counted A h s) {l : List H256} (hl : ArchivePath A h l)
    (hnil : pathTxs A l = []) (a : Address) : s.nonce a = 0 := by
  obtain ⟨l', hl', hcount⟩ := hc
  cases hl.unique hl'
  refine UInt64.toNat_inj.mp ?_
  rw [(hcount a).2, hnil]
  rfl

end Counted

theorem counted_of_nil {A : Table H256 Block} {h : H256} {l : List H256} {s : StateDB}
    (hl : ArchivePath A h l) (hnil : pathTxs A l = []) (hzero : ∀ a, s.nonce a = 0) :
    Counted A h s := by
  refine ⟨l, hl, fun a => ?_⟩
  rw [hnil, hzero a]
  exact ⟨rfl, rfl⟩

/-- **One more block on the chain.** -/
theorem Counted.step [Keccak] [Wasmi] {A : Table H256 Block} {b : Block} {pre post : StateDB}
    {outs : List ExecutionOutcome} {ctx : ExecutionContext}
    (hc : Counted A b.header.parentHash pre) (hA : A[b.hash]? = some b) (h0 : b.header.number ≠ 0)
    (hexec : executeBlock pre b = .ok (outs, post, ctx)) : Counted A b.hash post.rootHash.2 := by
  obtain ⟨l, hl, hcount⟩ := hc
  refine ⟨b.hash :: l, .step hA (if_neg h0) hl, fun a => ?_⟩
  obtain ⟨hup, hn⟩ := (executedAll_of_ok hexec).nonces a
  rw [(hcount a).2] at hup hn
  rw [pathTxs_cons hA]
  refine ⟨(hcount a).1.append (by rwa [Nat.zero_add]), ?_⟩
  rw [(post.ledger_rootHash a).1, hn, sentBy, sentBy, sentBy, List.filter_append,
    List.length_append]

/-! ### Stores that hold copies -/

theorem mem_txsOnPath {store : BlockStore} {h : H256} {l : List H256} (hl : store.IsPath h l)
    {tx : Transaction} : tx ∈ store.txsOnPath h
      ↔ ∃ k ∈ l, ∃ b, store.getBlock k = some b ∧ tx ∈ b.transactions.toList := by
  rw [txsOnPath, chainFrom_eq hl, List.mem_flatMap]
  constructor
  · rintro ⟨k, hk, htx⟩
    cases hb : store.getBlock k with
    | none =>
      rw [hb] at htx
      cases htx
    | some b =>
      rw [hb] at htx
      exact ⟨k, List.mem_reverse.mp hk, b, hb, htx⟩
  · rintro ⟨k, hk, b, hb, htx⟩
    exact ⟨k, List.mem_reverse.mpr hk, by rw [hb]; exact htx⟩

/-- Every stored block is a copy. -/
def Copies (A : Table H256 Block) (store : BlockStore) : Prop :=
  ∀ h b, store.getBlock h = some b → Copy A h b

namespace Copies

variable {A : Table H256 Block} {store : BlockStore}

theorem archivePath (hc : Copies A store) {h : H256} {l : List H256} (hl : store.IsPath h l) :
    ArchivePath A h l := by
  refine Path.mono (fun k v hv => ?_) hl
  obtain ⟨a, ha, hh, -⟩ := hc k v hv
  exact ⟨a, ha, by rw [Block.parent, Block.parent, hh]⟩

theorem mem_pathTxs (hc : Copies A store) {h : H256} {l : List H256} (hl : store.IsPath h l)
    {tx : Transaction} (htx : tx ∈ store.txsOnPath h) : tx ∈ pathTxs A l := by
  obtain ⟨k, hk, b, hb, htx⟩ := (mem_txsOnPath hl).mp htx
  obtain ⟨a, ha, -, hsub⟩ := hc k b hb
  exact Ivory.mem_pathTxs.mpr ⟨k, hk, a, ha, hsub tx htx⟩

theorem dropBodiesBelow (hc : Copies A store) (m : UInt64) (archive : Bool) :
    Copies A (store.dropBodiesBelow m archive) := by
  unfold BlockStore.dropBodiesBelow
  split
  · exact hc
  · intro h b' hb
    rw [getBlock, Table.get_map] at hb
    obtain ⟨b, hget, rfl⟩ := Option.map_eq_some_iff.mp hb
    obtain ⟨a, ha, hh, hsub⟩ := hc h b hget
    split
    · exact ⟨a, ha, hh, fun tx htx => absurd htx List.not_mem_nil⟩
    · exact ⟨a, ha, hh, hsub⟩

theorem pruneSnapshots (hc : Copies A store) : Copies A store.pruneSnapshots := by
  unfold BlockStore.pruneSnapshots
  split
  · exact hc
  · exact hc

theorem pruneStore [Keccak] (hc : Copies A store) (persist : ChainPersist) :
    Copies A (Node.pruneStore store persist) := by
  unfold Node.pruneStore
  split
  · exact hc.pruneSnapshots
  · unfold pruneSnapshotsKeep
    simp only
    split
    · exact hc.pruneSnapshots
    · exact hc.pruneSnapshots.dropBodiesBelow _ false

end Copies

/-- The snapshots of a store count the transactions of their chains. -/
def CountedSnapshots (A : Table H256 Block) (store : BlockStore) : Prop :=
  ∀ (h : H256) s, store.snapshots[h]? = some s → Counted A h s

theorem CountedSnapshots.recordState {A : Table H256 Block} {store : BlockStore}
    (hs : CountedSnapshots A store) {h : H256} {s : StateDB} (hc : Counted A h s) :
    CountedSnapshots A (store.recordState h s) := by
  intro k t ht
  change (store.snapshots.insert h s.fork)[k]? = some t at ht
  rw [Table.get_insert] at ht
  split at ht
  · next he =>
    cases ht
    rw [he]
    exact hc
  · exact hs k t ht

/-! ### Chain states -/

/-- The chain state fits the archive: the blocks are copies, the snapshots are counted, and the live
state is counted for the head. -/
structure ChainFits [Keccak] (A : Table H256 Block) (cs : ChainState) : Prop where
  inv : StoreInv cs.store
  copies : Copies A cs.store
  snapshots : CountedSnapshots A cs.store
  live : ∃ h, cs.store.head = some h ∧ Counted A h cs.live

namespace ChainFits

variable [Keccak] {A : Table H256 Block} {cs cs' : ChainState}

theorem exists_path (hf : ChainFits A cs) : ∃ h l, cs.store.head = some h ∧ cs.store.IsPath h l
    ∧ ArchivePath A h l ∧ Counted A h cs.live := by
  obtain ⟨h, hh, hc⟩ := hf.live
  obtain ⟨b, hb, -⟩ := hf.inv.head_max h hh
  obtain ⟨l, hl⟩ := hf.inv.path h b hb
  exact ⟨h, l, hh, hl, hf.copies.archivePath hl, hc⟩

theorem settle {n : Node} (hf : ChainFits A n.chain) (b : Block) :
    ChainFits A (n.settle b).chain := by
  have hp := Node.pruned_pruneStore hf.inv
    ((n.persist.persistCanonical n.chain.store b).persistTrieNodes n.chain.live.trieNodes.1)
  obtain ⟨h, hh, hc⟩ := hf.live
  refine ⟨hf.inv.of_sameHeaders hp.same, hf.copies.pruneStore _, fun k s hs => ?_, h, ?_, ?_⟩
  · exact hf.snapshots k s (hp.sub k s hs)
  · rw [← hh]
    exact hp.same.head
  · exact hc.congr fun a => (n.chain.live.ledger_rootHash a).1

variable [Ed25519] [Wasmi] {b : Block} {pre post : StateDB} {outs : List ExecutionOutcome}
  {ctx : ExecutionContext} {outcome : InsertOutcome} {store' : BlockStore}

theorem counted_post (hf : ChainFits A cs) (ha : Accepted cs b pre outs post ctx outcome store' cs')
    (hA : A[b.hash]? = some b) (hz : A[H256.zero]? = none) :
    Counted A b.hash post.rootHash.2 := by
  obtain ⟨s, hs, rfl⟩ := Option.map_eq_some_iff.mp ha.parent
  have hpre := hf.snapshots _ s hs
  refine Counted.step hpre hA (fun h0 => ?_) ha.executed
  -- a block of height zero names the zero hash as its parent, and nothing is archived there
  obtain ⟨l, hl, -⟩ := hpre
  obtain ⟨a, ha'⟩ := hl.get_isSome
  rw [ha.insertable.genesis h0, hz] at ha'
  cases ha'

/-- **An accepted block.** -/
theorem accepted (hf : ChainFits A cs) (ha : Accepted cs b pre outs post ctx outcome store' cs')
    (hA : A[b.hash]? = some b) (hz : A[H256.zero]? = none) : ChainFits A cs' := by
  have hpost := hf.counted_post ha hA hz
  refine ⟨ha.storeInv hf.inv, fun h x hx => ?_, fun h s hs => ?_, ?_⟩
  · rw [ha.getBlock] at hx
    split at hx
    · next he =>
      cases hx
      rw [he]
      exact ⟨b, hA, rfl, fun tx htx => htx⟩
    · exact hf.copies h x hx
  · rw [ha.snapshots, Table.get_insert] at hs
    split at hs
    · next he =>
      cases hs
      rw [he]
      exact hpost
    · exact hf.snapshots h s hs
  · cases hm : outcome.headChanged with
    | true =>
      obtain ⟨hhead, hlive⟩ := ha.live_of_moved hm
      exact ⟨b.hash, hhead, by rw [hlive]; exact hpost⟩
    | false =>
      obtain ⟨hhead, hlive, -⟩ := ha.stayed hm
      rw [hhead, hlive]
      exact hf.live

end ChainFits

end Ivory
