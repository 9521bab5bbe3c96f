import Ivory.Chain.Canonical
import Ivory.Devnet
import Ivory.Persist
import Ivory.Rpc

/-!
# The light client

`ivory-light follow` asks a full node for the headers from `--from` to `--to`,
recomputes the hash of each and checks that each stands on the one before it:
hash link, height, and a seal that is not empty.  The answers may be anything.

* `follow_eq_ok`: what a list that is followed satisfies, and nothing more.
* `follow_pinned`: the heights of such a list are consecutive, and **the hash of
  its last header determines the list**.
* `follow_getHeaderByNumber`: what a full node serves of its canonical chain is
  followed.
* `insertHeaders_followed_iff`: **what is followed is accepted by a full node exactly if
  miners, seals and the order of timestamps are right**.  The light client does not
  look at these: `Devnet.followed_unsealed`.
-/

namespace Ivory

/-- What stops `follow`. -/
inductive FollowError
  | belowFrom (stop start : UInt64)
  | call
  | decodeHeader (e : LightError)
  | headerHash (e : LightError)
  | genesisSeal
  | link (n : UInt64) (e : LightError)
  | firstNumber (number start : UInt64)
deriving DecidableEq

section Follow

variable [Keccak]

/-- `verify_header_link`. -/
def verifyHeaderLink (prev next : BlockHeader) : Except LightError Unit :=
  if next.parentHash ≠ prev.hash then .error .parentMismatch
  else if next.number ≠ prev.number.saturatingAdd 1 then .error .numberMismatch
  else if next.extraData.toList.isEmpty then .error .missingSeal
  else .ok ()

/-- One answer, decoded and compared with the hash that it reports. -/
def fetchHeader (rpc : UInt64 → Option Json) (n : UInt64) : Except FollowError BlockHeader :=
  match rpc n with
  | none => .error .call
  | some raw =>
    match headerFromRpc raw with
    | .error e => .error (.decodeHeader e)
    | .ok header =>
      match verifyRpcHash header raw with
      | .error e => .error (.headerHash e)
      | .ok () =>
        if n = 0 ∧ header.extraData.toList.isEmpty then .error .genesisSeal else .ok header

/-- The place of a header: on the one before it, the first at `--from`. -/
def checkPlace (start n : UInt64) (prev : Option BlockHeader) (header : BlockHeader) :
    Except FollowError Unit :=
  match prev with
  | some p =>
    match verifyHeaderLink p header with
    | .error e => .error (.link n e)
    | .ok () => .ok ()
  | none => if header.number ≠ start then .error (.firstNumber header.number start) else .ok ()

/-- The loop over the heights, and the headers it prints. -/
def followLoop (rpc : UInt64 → Option Json) (start : UInt64) :
    Option BlockHeader → List UInt64 → Except FollowError (List BlockHeader)
  | _, [] => .ok []
  | prev, n :: ns =>
    match fetchHeader rpc n with
    | .error e => .error e
    | .ok header =>
      match checkPlace start n prev header with
      | .error e => .error e
      | .ok () =>
        match followLoop rpc start (some header) ns with
        | .error e => .error e
        | .ok headers => .ok (header :: headers)

/-- `follow --from start --to stop`. -/
def follow (rpc : UInt64 → Option Json) (start stop : UInt64) :
    Except FollowError (List BlockHeader) :=
  if stop < start then .error (.belowFrom stop start)
  else followLoop rpc start none (heightsBetween start stop)

/-! ### What is followed -/

/-- The two headers are neighbours for the light client. -/
def Linked (prev next : BlockHeader) : Prop := verifyHeaderLink prev next = .ok ()

instance (prev next : BlockHeader) : Decidable (Linked prev next) :=
  inferInstanceAs (Decidable (_ = _))

theorem linked_iff {prev next : BlockHeader} : Linked prev next ↔
    next.parentHash = prev.hash ∧ next.number = prev.number.saturatingAdd 1
      ∧ next.extraData.toList ≠ [] := by
  rw [Linked, verifyHeaderLink]
  split_ifs with h₁ h₂ h₃ <;> simp_all

theorem Linked.number_ne_zero {prev next : BlockHeader} (h : Linked prev next) :
    next.number ≠ 0 := by
  intro h0
  have hnum := (linked_iff.mp h).2.1
  rw [h0, ← UInt64.toNat_inj, UInt64.toNat_saturatingAdd, UInt64.toNat_zero,
    UInt64.toNat_one] at hnum
  omega

theorem fetchHeader_eq_ok {rpc : UInt64 → Option Json} {n : UInt64} {header : BlockHeader} :
    fetchHeader rpc n = .ok header ↔ ∃ raw, rpc n = some raw ∧ headerFromRpc raw = .ok header
      ∧ reportedHash raw = .ok header.hash ∧ (n = 0 → header.extraData.toList ≠ []) := by
  rw [fetchHeader]
  cases hraw : rpc n with
  | none => simp
  | some raw =>
    simp only [Option.some.injEq, exists_eq_left']
    cases hdec : headerFromRpc raw with
    | error e => simp
    | ok header' =>
      simp only [Except.ok.injEq]
      cases hhash : verifyRpcHash header' raw with
      | error e =>
        simp only [reduceCtorEq, false_iff]
        rintro ⟨rfl, hr, -⟩
        rw [verifyRpcHash_eq_ok.mpr hr] at hhash
        cases hhash
      | ok u =>
        have hr := verifyRpcHash_eq_ok.mp hhash
        simp only
        split_ifs with hseal
        · simp only [false_iff]
          rintro ⟨rfl, -, hne⟩
          exact hne hseal.1 (List.isEmpty_iff.mp hseal.2)
        · rw [not_and, List.isEmpty_iff] at hseal
          simp only [Except.ok.injEq]
          constructor
          · rintro rfl
            exact ⟨rfl, hr, hseal⟩
          · rintro ⟨h, -⟩
            exact h

theorem followLoop_cons_eq_ok {rpc : UInt64 → Option Json} {start n : UInt64} {ns : List UInt64}
    {prev : Option BlockHeader} {hs : List BlockHeader} :
    followLoop rpc start prev (n :: ns) = .ok hs ↔ ∃ header headers, hs = header :: headers
      ∧ fetchHeader rpc n = .ok header ∧ checkPlace start n prev header = .ok ()
      ∧ followLoop rpc start (some header) ns = .ok headers := by
  rw [followLoop]
  cases hf : fetchHeader rpc n with
  | error e => simp
  | ok header =>
    simp only
    cases hp : checkPlace start n prev header with
    | error e => simp [hp]
    | ok u =>
      simp only
      cases hl : followLoop rpc start (some header) ns with
      | error e => simp [hl]
      | ok headers => simp [hp, hl, eq_comm]

theorem checkPlace_some_eq_ok {start n : UInt64} {p header : BlockHeader} :
    checkPlace start n (some p) header = .ok () ↔ Linked p header := by
  rw [checkPlace, Linked]
  cases verifyHeaderLink p header <;> simp

theorem checkPlace_none_eq_ok {start n : UInt64} {header : BlockHeader} :
    checkPlace start n none header = .ok () ↔ header.number = start := by
  rw [checkPlace]
  split_ifs with h <;> simp_all

theorem followLoop_some_eq_ok {rpc : UInt64 → Option Json} {start : UInt64} :
    ∀ {ns : List UInt64} {p : BlockHeader} {hs : List BlockHeader},
    followLoop rpc start (some p) ns = .ok hs ↔
      List.Forall₂ (fun n h => fetchHeader rpc n = .ok h) ns hs
        ∧ List.IsChain Linked (p :: hs) := by
  intro ns
  induction ns with
  | nil =>
    intro p hs
    rw [followLoop, List.forall₂_nil_left_iff, Except.ok.injEq, eq_comm]
    exact ⟨fun h => ⟨h, h ▸ List.isChain_singleton _⟩, fun h => h.1⟩
  | cons n ns ih =>
    intro p hs
    rw [followLoop_cons_eq_ok, List.forall₂_cons_left_iff]
    constructor
    · rintro ⟨header, headers, rfl, hf, hp, hl⟩
      obtain ⟨hall, hchain⟩ := ih.mp hl
      exact ⟨⟨header, headers, hf, hall, rfl⟩,
        List.isChain_cons_cons.mpr ⟨checkPlace_some_eq_ok.mp hp, hchain⟩⟩
    · rintro ⟨⟨header, headers, hf, hall, rfl⟩, hchain⟩
      obtain ⟨hlink, hchain⟩ := List.isChain_cons_cons.mp hchain
      exact ⟨header, headers, rfl, hf, checkPlace_some_eq_ok.mpr hlink, ih.mpr ⟨hall, hchain⟩⟩

/-- **What is followed**: the answers to the heights in order, the first at `--from`, each
linked to the one before it. -/
theorem follow_eq_ok {rpc : UInt64 → Option Json} {start stop : UInt64} {hs : List BlockHeader} :
    follow rpc start stop = .ok hs ↔ start ≤ stop
      ∧ List.Forall₂ (fun n h => fetchHeader rpc n = .ok h) (heightsBetween start stop) hs
      ∧ (∀ h ∈ hs.head?, h.number = start) ∧ List.IsChain Linked hs := by
  rw [follow]
  split_ifs with hlt
  · exact ⟨fun h => (by cases h), fun h => absurd h.1 (UInt64.not_le.mpr hlt)⟩
  · have hle := UInt64.not_lt.mp hlt
    rw [heightsBetween_cons hle, followLoop_cons_eq_ok, List.forall₂_cons_left_iff]
    constructor
    · rintro ⟨header, headers, rfl, hf, hp, hl⟩
      obtain ⟨hall, hchain⟩ := followLoop_some_eq_ok.mp hl
      refine ⟨hle, ⟨header, headers, hf, hall, rfl⟩, fun h hh => ?_, hchain⟩
      cases hh
      exact checkPlace_none_eq_ok.mp hp
    · rintro ⟨-, ⟨header, headers, hf, hall, rfl⟩, hfirst, hchain⟩
      exact ⟨header, headers, rfl, hf, checkPlace_none_eq_ok.mpr (hfirst header rfl),
        followLoop_some_eq_ok.mpr ⟨hall, hchain⟩⟩

theorem fetchHeader_headerToJson {rpc : UInt64 → Option Json} {n : UInt64} {b : Block}
    (h : rpc n = some (headerToJson b)) (hseal : b.header.extraData.toList ≠ []) :
    fetchHeader rpc n = .ok b.header :=
  fetchHeader_eq_ok.mpr ⟨_, h, headerFromRpc_headerToJson b,
    verifyRpcHash_eq_ok.mp (verifyRpcHash_headerToJson b), fun _ => hseal⟩

/-! ### The last hash -/

theorem numbers_of_linked : ∀ {hs : List BlockHeader} {p : BlockHeader},
    List.IsChain Linked (p :: hs) → p.number.toNat + hs.length < 2 ^ 64 →
    (p :: hs).map BlockHeader.number
      = (List.range' p.number.toNat (hs.length + 1)).map UInt64.ofNat := by
  intro hs
  induction hs with
  | nil => intro p _ _; simp
  | cons h hs ih =>
    intro p hchain hlt
    obtain ⟨hlink, hchain⟩ := List.isChain_cons_cons.mp hchain
    rw [List.length_cons] at hlt ⊢
    have hnum : h.number.toNat = p.number.toNat + 1 := by
      rw [(linked_iff.mp hlink).2.1, UInt64.toNat_saturatingAdd, UInt64.toNat_one]
      omega
    rw [List.map_cons, ih hchain (by omega), hnum, List.range'_succ (s := p.number.toNat),
      List.map_cons, UInt64.ofNat_toNat]

/-- Two chains of one length, the tips first: equal hashes of the tips make equal tips, these name
the same parent, and so on down. -/
theorem eq_of_linked {S : Set (List UInt8)} (hcf : CollisionFree S) :
    ∀ {r r' : List BlockHeader}, r.IsChain (fun a b => Linked b a) →
    r'.IsChain (fun a b => Linked b a) → r.length = r'.length →
    (∀ h ∈ r, BlockHeader.codec.encode h ∈ S) → (∀ h ∈ r', BlockHeader.codec.encode h ∈ S) →
    (∀ t ∈ r.head?, ∀ t' ∈ r'.head?, t.hash = t'.hash) → r = r' := by
  intro r
  induction r with
  | nil =>
    intro r' _ _ hlen _ _ _
    exact (List.length_eq_zero_iff.mp hlen.symm).symm
  | cons t r ih =>
    intro r' hr hr' hlen hS hS' htip
    cases r' with
    | nil => cases hlen
    | cons t' r' =>
      have ht : t = t' := BlockHeader.codec.encode_injective
        (hcf (hS t List.mem_cons_self) (hS' t' List.mem_cons_self) (htip t rfl t' rfl))
      subst ht
      obtain ⟨hlink, hr⟩ := List.isChain_cons.mp hr
      obtain ⟨hlink', hr'⟩ := List.isChain_cons.mp hr'
      rw [ih hr hr' (Nat.succ.inj hlen) (fun h hh => hS h (List.mem_cons_of_mem _ hh))
        (fun h hh => hS' h (List.mem_cons_of_mem _ hh)) fun p hp p' hp' => ?_]
      rw [← (linked_iff.mp (hlink p hp)).1, (linked_iff.mp (hlink' p' hp')).1]

theorem reported_getLast {rpc : UInt64 → Option Json} {start stop : UInt64}
    {hs : List BlockHeader} (h : follow rpc start stop = .ok hs) :
    ∃ t ∈ hs.getLast?, (rpc stop).map reportedHash = some (.ok t.hash) := by
  obtain ⟨hle, hall, -⟩ := follow_eq_ok.mp h
  have hlast : stop ∈ (heightsBetween start stop).getLast? := by
    rw [UInt64.le_iff_toNat_le] at hle
    rw [heightsBetween, List.getLast?_map, List.getLast?_range',
      if_neg (by omega : ¬ stop.toNat + 1 - start.toNat = 0), Option.map_some,
      show start.toNat + (stop.toNat + 1 - start.toNat) - 1 = stop.toNat by omega]
    exact congrArg some UInt64.ofNat_toNat
  have hrev := List.rel_reverse hall
  rw [← List.head?_reverse] at hlast ⊢
  generalize (heightsBetween start stop).reverse = ns at hrev hlast
  generalize hs.reverse = r at hrev
  cases hrev with
  | nil => cases hlast
  | cons hf _ =>
    cases hlast
    obtain ⟨raw, hraw, -, hr, -⟩ := fetchHeader_eq_ok.mp hf
    exact ⟨_, rfl, by rw [hraw, Option.map_some, hr]⟩

theorem numbers_of_followed {rpc : UInt64 → Option Json} {start stop : UInt64}
    {hs : List BlockHeader} (h : follow rpc start stop = .ok hs) :
    hs.map BlockHeader.number = heightsBetween start stop := by
  obtain ⟨hle, hall, hfirst, hchain⟩ := follow_eq_ok.mp h
  rw [heightsBetween_cons hle] at hall ⊢
  obtain ⟨first, rest, -, hrest, rfl⟩ := List.forall₂_cons_left_iff.mp hall
  have hnum : first.number = start := hfirst first rfl
  have hlen := hrest.length_eq
  rw [List.length_map, List.length_range'] at hlen
  rw [UInt64.le_iff_toNat_le] at hle
  have hstop := stop.toNat_lt
  rw [numbers_of_linked hchain (by rw [hnum]; omega), hnum, ← hlen, List.range'_succ,
    List.map_cons, UInt64.ofNat_toNat]

/-- **The last hash pins the chain.**  The headers of a list that is followed have the heights from
`--from` to `--to`.  Without collisions among the headers, a second list of the same length with
the same hash reported at its end is the same list, in every field. -/
theorem follow_pinned (rpc : UInt64 → Option Json) (start stop : UInt64) (hs : List BlockHeader)
    (h : follow rpc start stop = .ok hs) :
    hs.map BlockHeader.number = heightsBetween start stop
    ∧ ∀ (rpc' : UInt64 → Option Json) (start' stop' : UInt64) (hs' : List BlockHeader),
      follow rpc' start' stop' = .ok hs' → hs'.length = hs.length →
      CollisionFree (Set.range fun h : {h // h ∈ hs ++ hs'} => BlockHeader.codec.encode h) →
      (rpc stop).map reportedHash = (rpc' stop').map reportedHash → hs' = hs := by
  obtain ⟨-, -, -, hchain⟩ := follow_eq_ok.mp h
  refine ⟨numbers_of_followed h, fun rpc' start' stop' hs' h' hlen hcf hlast => ?_⟩
  obtain ⟨-, -, -, hchain'⟩ := follow_eq_ok.mp h'
  obtain ⟨t, ht, hrt⟩ := reported_getLast h
  obtain ⟨t', ht', hrt'⟩ := reported_getLast h'
  have htip : t'.hash = t.hash := by
    rw [hrt, hrt'] at hlast
    exact (Except.ok.inj (Option.some.inj hlast)).symm
  refine List.reverse_injective (eq_of_linked hcf (List.isChain_reverse.mpr hchain')
    (List.isChain_reverse.mpr hchain) (by simpa using hlen)
    (fun x hx => ⟨⟨x, List.mem_append_right _ (List.mem_reverse.mp hx)⟩, rfl⟩)
    (fun x hx => ⟨⟨x, List.mem_append_left _ (List.mem_reverse.mp hx)⟩, rfl⟩)
    fun a ha b hb => ?_)
  rw [List.head?_reverse] at ha hb
  cases ha.symm.trans ht'
  cases hb.symm.trans ht
  exact htip

end Follow

/-! ### Full nodes -/

section FullNode

variable [Keccak]

namespace BlockStore

/-- The header is stored under its own hash. -/
def HasHeader (store : BlockStore) (h : BlockHeader) : Prop :=
  (store.getBlock h.hash).map Block.header = some h

instance (store : BlockStore) (h : BlockHeader) : Decidable (store.HasHeader h) :=
  inferInstanceAs (Decidable (_ = _))

variable {store : BlockStore}

theorem hasHeader_iff {h : BlockHeader} :
    store.HasHeader h ↔ ∃ b, store.getBlock h.hash = some b ∧ b.header = h :=
  Option.map_eq_some_iff

variable [Ed25519]

/-- `insert_header` for one header after the other, up to the first that is refused. -/
def insertHeaders (store : BlockStore) : List BlockHeader → Except ChainError BlockStore
  | [] => .ok store
  | h :: hs =>
    match store.insertHeader h with
    | (.error e, _) => .error e
    | (.ok _, store') => insertHeaders store' hs

/-- What a full node asks of a header beyond the link to its parent: an authorised miner, enough
valid seals, and a timestamp that is not earlier.  `follow` checks none of these. -/
structure FullyChecked (c : PoAConsensus) (p h : BlockHeader) : Prop where
  miner : c.isValidator h.miner = true
  seals : c.verifyCryptoSeals h = .ok ()
  timestamp : p.timestamp ≤ h.timestamp

theorem fullyChecked_iff {c : PoAConsensus} {p h : BlockHeader} :
    FullyChecked c p h ↔ c.validateHeader h (some p) = .ok () := by
  rw [PoAConsensus.validateHeader_eq_ok]
  constructor
  · rintro ⟨hminer, hseals, hts⟩
    refine ⟨hminer, fun q hq => ?_, hseals⟩
    cases hq
    exact hts
  · rintro ⟨hminer, hts, hseals⟩
    exact ⟨hminer, hseals, hts p rfl⟩

/-- On a linked header whose parent is stored, `insert_header` refuses what is not fully checked. -/
theorem insertHeader_eq_error {p h : BlockHeader} (hlink : Linked p h) (hp : store.HasHeader p)
    {e : ConsensusError} (he : store.consensus.validateHeader h (some p) = .error e) :
    store.insertHeader h = (.error (.consensus e), store) := by
  obtain ⟨y, hy, rfl⟩ := hasHeader_iff.mp hp
  obtain ⟨hhash, hnum, -⟩ := linked_iff.mp hlink
  rw [insertHeader, if_neg hlink.number_ne_zero, hhash, hy]
  simp only [hnum, ne_eq, not_true_eq_false, if_false, he]

/-- **Headers are accepted in a row** exactly if each of them is fully checked. -/
theorem insertHeaders_isOk_iff {c : PoAConsensus} :
    ∀ {hs : List BlockHeader} {p : BlockHeader} {store : BlockStore}, StoreInv store →
    store.consensus = c → List.IsChain Linked (p :: hs) → store.HasHeader p →
    (∀ h ∈ hs, store.getBlock h.hash = none) → (hs.map BlockHeader.hash).Nodup →
    ((∃ store', store.insertHeaders hs = .ok store')
      ↔ List.IsChain (FullyChecked c) (p :: hs)) := by
  intro hs
  induction hs with
  | nil =>
    intro p store _ _ _ _ _ _
    exact ⟨fun _ => List.isChain_singleton _, fun _ => ⟨store, rfl⟩⟩
  | cons x hs ih =>
    intro p store hi hc hchain hp hfresh hnodup
    subst hc
    obtain ⟨hlink, hlinks⟩ := List.isChain_cons_cons.mp hchain
    obtain ⟨hx, hnodup'⟩ := List.nodup_cons.mp hnodup
    rw [List.isChain_cons_cons, fullyChecked_iff]
    cases hval : store.consensus.validateHeader x (some p) with
    | error e =>
      rw [insertHeaders, insertHeader_eq_error hlink hp hval]
      exact ⟨nofun, nofun⟩
    | ok u =>
      obtain ⟨hminer, hseals, hts⟩ := fullyChecked_iff.mpr hval
      obtain ⟨y, hy, rfl⟩ := hasHeader_iff.mp hp
      obtain ⟨hhash, hnum, -⟩ := linked_iff.mp hlink
      have hv : HeaderValid store x :=
        { miner := hminer
          seals := hseals
          genesis := fun h0 => absurd h0 hlink.number_ne_zero
          parent := fun _ => ⟨y, by rw [hhash, hy], hnum, hts⟩ }
      have hf : store.getBlock (Block.hash ⟨x, Vec.empty, Vec.empty⟩) = none :=
        hfresh x List.mem_cons_self
      obtain ⟨outcome, store₁, heq, hn⟩ := insertValidated_of_fresh hi hf
      -- the rest is as new to the store after this header
      have hfresh' : ∀ h ∈ hs, store₁.getBlock h.hash = none := by
        intro h hh
        have hne : h.hash ≠ Block.hash ⟨x, Vec.empty, Vec.empty⟩ := fun he =>
          hx (List.mem_map.mpr ⟨h, hh, he⟩)
        rw [hn.getBlock, if_neg hne]
        exact hfresh h (List.mem_cons_of_mem _ hh)
      have hrest := ih (hi.inserted ⟨hv, hf⟩ hn) hn.consensus hlinks
        (hasHeader_iff.mpr ⟨_, hn.self, rfl⟩) hfresh' hnodup'
      rw [insertHeaders, insertHeader_eq hv hlink.number_ne_zero, heq]
      exact hrest.trans ⟨fun h => ⟨rfl, h⟩, fun h => h.2⟩

end BlockStore

open BlockStore

/-- A followed list holds no hash twice, without a collision: its heights are distinct. -/
theorem nodup_hash_of_followed {rpc : UInt64 → Option Json} {start stop : UInt64}
    {hs : List BlockHeader} (h : follow rpc start stop = .ok hs)
    (hcf : CollisionFree (Set.range fun h : {h // h ∈ hs} => BlockHeader.codec.encode h)) :
    (hs.map BlockHeader.hash).Nodup := by
  have hnumbers : (hs.map BlockHeader.number).Nodup := by
    rw [numbers_of_followed h, heightsBetween]
    refine List.Nodup.map_on (fun m hm n hn heq => ?_) List.nodup_range'
    have hstop := stop.toNat_lt
    rw [List.mem_range'_1] at hm hn
    have hnat := congrArg UInt64.toNat heq
    rwa [UInt64.toNat_ofNat_of_lt' (show m < 2 ^ 64 by omega),
      UInt64.toNat_ofNat_of_lt' (show n < 2 ^ 64 by omega)] at hnat
  refine List.Nodup.map_on (fun x hx y hy heq => ?_) (List.Nodup.of_map _ hnumbers)
  exact BlockHeader.codec.encode_injective (hcf ⟨⟨x, hx⟩, rfl⟩ ⟨⟨y, hy⟩, rfl⟩ heq)

variable [Ed25519]

/-- **When a full node accepts what the light client follows.**  The store holds the first header of
the list and none of the others.  It accepts these one after the other with `insert_header` exactly
if each of them has an authorised miner, enough valid seals, and no earlier timestamp than the one
before it. -/
theorem insertHeaders_followed_iff (c : PoAConsensus) (ops : List StoreOp)
    (rpc : UInt64 → Option Json) (start stop : UInt64) (g : BlockHeader) (hs : List BlockHeader)
    (hfollow : follow rpc start stop = .ok (g :: hs))
    (hcf : CollisionFree (Set.range fun h : {h // h ∈ g :: hs} => BlockHeader.codec.encode h))
    (hgenesis : (StoreOp.run c ops).HasHeader g)
    (hfresh : ∀ h ∈ hs, (StoreOp.run c ops).getBlock h.hash = none) :
    (∃ store', (StoreOp.run c ops).insertHeaders hs = .ok store')
      ↔ List.IsChain (FullyChecked c) (g :: hs) := by
  obtain ⟨hi, hc⟩ := StoreOp.inv_run c ops
  obtain ⟨-, -, -, hchain⟩ := follow_eq_ok.mp hfollow
  exact insertHeaders_isOk_iff hi hc hchain hgenesis hfresh
    (List.nodup_cons.mp (nodup_hash_of_followed hfollow hcf)).2

/-! ### Following a full node -/

theorem PoAConsensus.extraData_ne_nil {c : PoAConsensus} {h : BlockHeader}
    (hv : c.verifyCryptoSeals h = .ok ()) : h.extraData.toList ≠ [] := by
  intro hnil
  simp [verifyCryptoSeals, verifySeal, c.required_ne_zero, sealCount, decodeSeals, hnil, Except.map,
    bind, Except.bind] at hv

namespace BlockStore

variable {store : BlockStore}

/-- One height up: the block there names the block below, and carries a seal. -/
theorem StoreInv.linked_above (hi : StoreInv store) (hsize : store.byHash.size < 2 ^ 64)
    (hseals : ∀ k b, store.getBlock k = some b →
      store.consensus.verifyCryptoSeals b.header = .ok ())
    {k : H256} {head : Block} (hh : store.head = some k) (hk : store.getBlock k = some head)
    {n n' : UInt64} {x : Block} (hx : store.getBlockByNumber n = some x)
    (hxn : x.header.number = n) (hn : n'.toNat = n.toNat + 1) (hle : n' ≤ head.header.number) :
    ∃ y, store.getBlockByNumber n' = some y ∧ store.HasHeader y.header ∧ y.header.number = n'
      ∧ Linked x.header y.header := by
  obtain ⟨l, hl⟩ := hi.path k head hk
  obtain ⟨y, hy, hyl, hyget, hyn⟩ := hi.entry hsize hh hk hl hle
  have h0 : y.header.number ≠ 0 := by
    rw [hyn]
    rintro rfl
    rw [UInt64.toNat_zero] at hn
    omega
  have hpred : y.header.number - 1 = n := by
    have h1 : (1 : UInt64) ≤ n' := by
      rw [UInt64.le_iff_toNat_le, hn, UInt64.toNat_one]
      omega
    rw [hyn, ← UInt64.toNat_inj, UInt64.toNat_sub_of_le _ _ h1, hn, UInt64.toNat_one,
      Nat.add_sub_cancel]
  obtain ⟨x', hx', hparent⟩ := hi.entry_below hsize hh hl hyl hyget h0
  rw [hpred, hx] at hx'
  cases hx'
  refine ⟨y, hy, hasHeader_iff.mpr ⟨y, hyget, rfl⟩, hyn, linked_iff.mpr ⟨hparent, ?_,
    PoAConsensus.extraData_ne_nil (hseals _ y hyget)⟩⟩
  have hlt := n'.toNat_lt
  rw [hyn, hxn, ← UInt64.toNat_inj, UInt64.toNat_saturatingAdd, hn, UInt64.toNat_one]
  omega

/-- From one block of the canonical chain on, every next height is served and linked. -/
theorem StoreInv.served_above (hi : StoreInv store) (hsize : store.byHash.size < 2 ^ 64)
    (hseals : ∀ k b, store.getBlock k = some b →
      store.consensus.verifyCryptoSeals b.header = .ok ())
    {k : H256} {head : Block} (hh : store.head = some k) (hk : store.getBlock k = some head) :
    ∀ (count : ℕ) {n : UInt64} {x : Block}, store.getBlockByNumber n = some x →
    x.header.number = n → n.toNat + count ≤ head.header.number.toNat →
    ∃ hs, List.Forall₂ (fun m h => fetchHeader store.getHeaderByNumber m = .ok h)
        ((List.range' (n.toNat + 1) count).map UInt64.ofNat) hs
      ∧ List.IsChain Linked (x.header :: hs) ∧ ∀ h ∈ hs, store.HasHeader h := by
  intro count
  induction count with
  | zero =>
    intro n x _ _ _
    exact ⟨[], .nil, List.isChain_singleton _, fun h hh => by cases hh⟩
  | succ count ih =>
    intro n x hx hxn hle
    have hhead := head.header.number.toNat_lt
    have hn : (UInt64.ofNat (n.toNat + 1)).toNat = n.toNat + 1 := by
      rw [UInt64.toNat_ofNat', Nat.mod_eq_of_lt (by omega)]
    obtain ⟨y, hy, hyhas, hyn, hlink⟩ := hi.linked_above hsize hseals hh hk hx hxn hn (by
      rw [UInt64.le_iff_toNat_le, hn]
      omega)
    obtain ⟨hs, hall, hchain, hhas⟩ := ih hy hyn (by omega)
    have hfetch : fetchHeader store.getHeaderByNumber (UInt64.ofNat (n.toNat + 1))
        = .ok y.header :=
      fetchHeader_headerToJson (by rw [getHeaderByNumber, hy]; rfl) (linked_iff.mp hlink).2.2
    rw [hn] at hall
    refine ⟨y.header :: hs, ?_, List.isChain_cons_cons.mpr ⟨hlink, hchain⟩, ?_⟩
    · rw [List.range'_succ, List.map_cons]
      exact .cons hfetch hall
    · intro h hh
      rcases List.mem_cons.mp hh with rfl | hh
      · exact hyhas
      · exact hhas h hh

end BlockStore

/-- **A full node can be followed** from any height to any height up to its head, and the headers
are stored by it. -/
theorem follow_getHeaderByNumber (c : PoAConsensus) (ops : List StoreOp)
    (hlt : ops.countP StoreOp.isInsertion < 2 ^ 64) {head : Block}
    (hh : (StoreOp.run c ops).headBlock = some head) {start stop : UInt64} (hle : start ≤ stop)
    (hstop : stop ≤ head.header.number) :
    ∃ hs, follow (StoreOp.run c ops).getHeaderByNumber start stop = .ok hs
      ∧ ∀ h ∈ hs, (StoreOp.run c ops).HasHeader h := by
  obtain ⟨hi, hc⟩ := StoreOp.inv_run c ops
  have hsize : (StoreOp.run c ops).byHash.size < 2 ^ 64 := by
    refine lt_of_le_of_lt (StoreOp.size_foldl_le ops (storeInv_new c)) ?_
    simpa [BlockStore.new] using hlt
  have hseals : ∀ k b, (StoreOp.run c ops).getBlock k = some b →
      (StoreOp.run c ops).consensus.verifyCryptoSeals b.header = .ok () := by
    rw [hc]
    exact StoreOp.seals_run c ops
  obtain ⟨k, hk, hget⟩ := Option.bind_eq_some_iff.mp hh
  obtain ⟨l, hl⟩ := hi.path k head hget
  have hnat := UInt64.le_iff_toNat_le.mp hle
  have hnat' := UInt64.le_iff_toNat_le.mp hstop
  obtain ⟨x, hx, -, hxget, hxn⟩ := hi.entry hsize hk hget hl
    (UInt64.le_iff_toNat_le.mpr (hnat.trans hnat'))
  obtain ⟨hs, hall, hchain, hhas⟩ := hi.served_above hsize hseals hk hget
    (stop.toNat - start.toNat) hx hxn (by omega)
  have hfetch : fetchHeader (StoreOp.run c ops).getHeaderByNumber start = .ok x.header :=
    fetchHeader_headerToJson (by rw [getHeaderByNumber, hx]; rfl)
      (PoAConsensus.extraData_ne_nil (hseals _ x hxget))
  refine ⟨x.header :: hs, follow_eq_ok.mpr ⟨hle, ?_, fun h hh => ?_, hchain⟩, fun h hh => ?_⟩
  · rw [heightsBetween_cons hle]
    exact .cons hfetch hall
  · cases hh
    exact hxn
  · rcases List.mem_cons.mp hh with rfl | hh
    · exact hasHeader_iff.mpr ⟨x, hxget, rfl⟩
    · exact hhas h hh

end FullNode

namespace Devnet

/-- The store after the genesis block. -/
def fullNodeOps : List StoreOp := [.insertGenesis genesisBlock]

/-- The headers of the small network are linked, and stored. -/
theorem linked_blockA : Linked genesisBlock.header blockA.header
    ∧ genesisBlock.header.extraData.toList ≠ []
    ∧ (StoreOp.run consensus storeOps).getBlockByNumber 0 = some genesisBlock
    ∧ (StoreOp.run consensus storeOps).getBlockByNumber 1 = some blockA
    ∧ (StoreOp.run consensus storeOps).HasHeader genesisBlock.header
    ∧ (StoreOp.run consensus storeOps).HasHeader blockA.header
    ∧ (StoreOp.run consensus fullNodeOps).HasHeader genesisBlock.header
    ∧ (StoreOp.run consensus fullNodeOps).getBlock blockA.header.hash = none := by
  decide +kernel

/-- A server that knows nothing but the two blocks. -/
def mirrorRpc (n : UInt64) : Option Json :=
  some (headerToJson (if n = 0 then genesisBlock else blockA))

/-- Whoever serves the two blocks is followed. -/
theorem follow_blockA {rpc : UInt64 → Option Json}
    (hzero : rpc 0 = some (headerToJson genesisBlock))
    (hone : rpc 1 = some (headerToJson blockA)) :
    follow rpc 0 1 = .ok [genesisBlock.header, blockA.header] := by
  obtain ⟨hlink, hseal, -⟩ := linked_blockA
  refine follow_eq_ok.mpr ⟨by decide, ?_, fun h hh => ?_, List.isChain_pair.mpr hlink⟩
  · rw [show heightsBetween 0 1 = [0, 1] by decide]
    exact .cons (fetchHeader_headerToJson hzero hseal)
      (.cons (fetchHeader_headerToJson hone (linked_iff.mp hlink).2.2) .nil)
  · cases hh
    exact sealed_genesisBlock.2.1

/-- The headers of the two blocks do not collide. -/
theorem collisionFree_blockA {S : Set (List UInt8)}
    (hS : ∀ e ∈ S, e = BlockHeader.codec.encode genesisBlock.header
      ∨ e = BlockHeader.codec.encode blockA.header) : CollisionFree S := by
  have hne : genesisBlock.header.hash ≠ blockA.header.hash := by decide +kernel
  refine CollisionFree.of_list (l := [BlockHeader.codec.encode genesisBlock.header,
    BlockHeader.codec.encode blockA.header]) (fun x hx y hy heq => ?_)
    (fun e he => by simp [hS e he])
  rcases List.mem_pair.mp hx with rfl | rfl <;> rcases List.mem_pair.mp hy with rfl | rfl
  · rfl
  · exact absurd heq hne
  · exact absurd heq.symm hne
  · rfl

/-- The two blocks are followed from a full node, their heights are zero and one, and a second
server that reports the same last hash is followed to the same headers. -/
theorem follow_pinned_blockA :
    follow (StoreOp.run consensus storeOps).getHeaderByNumber 0 1
      = .ok [genesisBlock.header, blockA.header]
    ∧ [genesisBlock.header.number, blockA.header.number] = heightsBetween 0 1
    ∧ ∃ hs', follow mirrorRpc 0 1 = .ok hs' ∧ hs' = [genesisBlock.header, blockA.header] := by
  obtain ⟨-, -, hzero, hone, -⟩ := linked_blockA
  have hserved : (StoreOp.run consensus storeOps).getHeaderByNumber 1
      = some (headerToJson blockA) := by
    rw [BlockStore.getHeaderByNumber, hone]
    rfl
  have hfollow : follow (StoreOp.run consensus storeOps).getHeaderByNumber 0 1
      = .ok [genesisBlock.header, blockA.header] :=
    follow_blockA (by rw [BlockStore.getHeaderByNumber, hzero]; rfl) hserved
  have hmirror : follow mirrorRpc 0 1 = .ok [genesisBlock.header, blockA.header] :=
    follow_blockA rfl rfl
  obtain ⟨hheights, hpinned⟩ := follow_pinned _ _ _ _ hfollow
  refine ⟨hfollow, hheights, _, hmirror, hpinned mirrorRpc 0 1 _ hmirror rfl ?_ ?_⟩
  · refine collisionFree_blockA ?_
    rintro e ⟨⟨h, hh⟩, rfl⟩
    simp only [List.cons_append, List.nil_append, List.mem_cons, List.not_mem_nil, or_false] at hh
    rcases hh with rfl | rfl | rfl | rfl
    · exact .inl rfl
    · exact .inr rfl
    · exact .inl rfl
    · exact .inr rfl
  · rw [hserved]
    rfl

/-- A full node that has only the genesis accepts the next header that is followed, which is fully
checked. -/
theorem insertHeaders_followed_iff_blockA :
    ∃ store', (StoreOp.run consensus fullNodeOps).insertHeaders [blockA.header] = .ok store' := by
  obtain ⟨-, -, -, -, -, -, hgenesis, hfresh⟩ := linked_blockA
  have hchecked : consensus.validateHeader blockA.header (some genesisBlock.header) = .ok () := by
    decide +kernel
  refine (insertHeaders_followed_iff consensus fullNodeOps mirrorRpc 0 1 genesisBlock.header
    [blockA.header] (follow_blockA rfl rfl) (collisionFree_blockA ?_) hgenesis ?_).mpr
    (List.isChain_pair.mpr (BlockStore.fullyChecked_iff.mpr hchecked))
  · rintro e ⟨⟨h, hh⟩, rfl⟩
    rcases List.mem_pair.mp hh with rfl | rfl
    · exact .inl rfl
    · exact .inr rfl
  · intro h hh
    rw [List.mem_singleton.mp hh]
    exact hfresh

/-- The header of a block with one byte in place of the seal. -/
def unsealed : BlockHeader := { blockA.header with extraData := Vec.ofList [1] }

/-- What a server answers that made up the header at height one. -/
def unsealedRpc (n : UInt64) : Option Json :=
  some (headerToJson (if n = 0 then genesisBlock else ⟨unsealed, Vec.empty, Vec.empty⟩))

/-- **A header without a valid seal is followed.**  The light client accepts any bytes in place of
the seal; a full node that has the same genesis refuses the header. -/
theorem followed_unsealed :
    follow unsealedRpc 0 1 = .ok [genesisBlock.header, unsealed]
    ∧ List.IsChain Linked [genesisBlock.header, unsealed]
    ∧ (StoreOp.run consensus fullNodeOps).HasHeader genesisBlock.header
    ∧ consensus.verifyCryptoSeals unsealed = .error .invalidSeal
    ∧ ((StoreOp.run consensus fullNodeOps).insertHeader unsealed).1
      = .error (.consensus .invalidSeal) := by
  have heval : Linked genesisBlock.header unsealed
      ∧ consensus.verifyCryptoSeals unsealed = .error .invalidSeal
      ∧ ((StoreOp.run consensus fullNodeOps).insertHeader unsealed).1
        = .error (.consensus .invalidSeal) := by decide +kernel
  obtain ⟨hlink, hseals, hrefused⟩ := heval
  obtain ⟨-, hseal, -, -, -, -, hgenesis, -⟩ := linked_blockA
  have hchain : List.IsChain Linked [genesisBlock.header, unsealed] := List.isChain_pair.mpr hlink
  refine ⟨follow_eq_ok.mpr ⟨by decide, ?_, fun h hh => ?_, hchain⟩, hchain, hgenesis, hseals,
    hrefused⟩
  · rw [show heightsBetween 0 1 = [0, 1] by decide]
    have hunsealed : fetchHeader unsealedRpc 1 = .ok unsealed :=
      fetchHeader_headerToJson (b := ⟨unsealed, Vec.empty, Vec.empty⟩) rfl (linked_iff.mp hlink).2.2
    exact .cons (fetchHeader_headerToJson rfl hseal) (.cons hunsealed .nil)
  · cases hh
    exact sealed_genesisBlock.2.1

end Devnet

end Ivory
