import Ivory.Devnet

/-!
# The seals of a header

`verify_crypto_seals` walks the seals of a header, looks up for each of them
the first validator whose key verifies it, and counts the distinct addresses.
This file says what the walk collects (`collectSeals_eq_ok`) and what that
count means:

* `PoAConsensus.seal_threshold`: **an accepted header has a quorum, and a
  header with a quorum is accepted** when no seal verifies under the keys of
  two addresses.
* `PoAConsensus.exists_resealed`: **from every accepted header another one is made
  without a key**, of the same seals.

The signed message leaves `extra_data` out and the block hash does not, and only
the set of the seals matters (`validateHeader_of_same_seals`), so a seal that is
written twice gives another accepted header with another hash
(`Devnet.doubled_seal`).
-/

namespace Ivory

/-! ### Seals as bytes -/

theorem flatMap_asChunks : ∀ (n : ℕ) (bytes : List UInt8), bytes.length = sealLen * n →
    (asChunks n bytes).flatMap Arr.toList = bytes := by
  intro n
  induction n with
  | zero =>
    intro bytes h
    rw [List.length_eq_zero_iff.mp h]
    rfl
  | succ n ih =>
    intro bytes h
    have hlen : sealLen ≤ bytes.length := by rw [h]; exact Nat.le_mul_of_pos_right _ (by omega)
    have hfirst : (Arr.ofFn 64 fun i => bytes.getD i 0).toList = bytes.take sealLen := by
      refine List.ext_getElem (by simpa [Arr.ofFn, sealLen] using hlen) fun i h₁ h₂ => ?_
      have hi : i < bytes.length := by
        rw [List.length_take] at h₂
        omega
      simp [Arr.ofFn, hi]
    rw [asChunks, List.flatMap_cons, hfirst, ih (bytes.drop sealLen) (by
      rw [List.length_drop, h, Nat.mul_succ, Nat.add_sub_cancel]), List.take_append_drop]

theorem asChunks_flatMap : ∀ seals : List Signature,
    asChunks seals.length (seals.flatMap Arr.toList) = seals := by
  intro seals
  induction seals with
  | nil => rfl
  | cons sig seals ih =>
    have hdrop : (sig.toList ++ seals.flatMap Arr.toList).drop sealLen = seals.flatMap Arr.toList :=
      List.drop_left' sig.size
    have hfirst : Arr.ofFn 64 (fun i => (sig.toList ++ seals.flatMap Arr.toList).getD i 0)
      = sig := by
      refine Arr.ext (List.ext_getElem (by simp [Arr.ofFn, sig.size]) fun i h₁ h₂ => ?_)
      simp [Arr.ofFn, List.getElem?_append_left h₂, h₂]
    rw [List.length_cons, List.flatMap_cons, asChunks, hdrop, ih, hfirst]

theorem length_flatMap_seals : ∀ seals : List Signature,
    (seals.flatMap Arr.toList).length = sealLen * seals.length := by
  intro seals
  induction seals with
  | nil => rfl
  | cons sig seals ih =>
    rw [List.flatMap_cons, List.length_append, sig.size, ih, List.length_cons, Nat.mul_succ,
      Nat.add_comm, sealLen]

/-- **What decodes is a non-empty concatenation of seals.** -/
theorem decodeSeals_eq_ok {extraData : Bytes} {seals : List Signature} :
    decodeSeals extraData = .ok seals ↔
      seals ≠ [] ∧ extraData.toList = seals.flatMap Arr.toList := by
  have hpos : 0 < sealLen := by decide
  simp only [decodeSeals]
  constructor
  · intro h
    split_ifs at h with hbad
    rw [not_or, not_not] at hbad
    obtain ⟨hne, hmod⟩ := hbad
    have hlen : extraData.toList.length = sealLen * (extraData.toList.length / sealLen) :=
      (Nat.mul_div_cancel' (Nat.dvd_of_mod_eq_zero hmod)).symm
    have hbytes := flatMap_asChunks _ _ hlen
    rw [Except.ok.injEq] at h
    rw [h] at hbytes
    refine ⟨?_, hbytes.symm⟩
    rintro rfl
    exact hne (by rw [← hbytes]; rfl)
  · rintro ⟨hne, hbytes⟩
    have hlen := length_flatMap_seals seals
    rw [← hbytes] at hlen
    have h0 : 0 < seals.length := List.length_pos_iff.mpr hne
    have hbad : ¬ (extraData.toList.isEmpty = true ∨ extraData.toList.length % sealLen ≠ 0) := by
      rw [not_or, not_not, List.isEmpty_iff_length_eq_zero, hlen]
      exact ⟨(Nat.mul_pos hpos h0).ne', Nat.mul_mod_right _ _⟩
    rw [if_neg hbad, hlen, Nat.mul_div_cancel_left _ hpos, hbytes, asChunks_flatMap]

namespace PoAConsensus

section Walk

variable [Ed25519] {c : PoAConsensus}

/-! ### The walk over the seals -/

/-- **What the walk collects**: every seal is matched, and the addresses are those that were
there before and those of the seals, each of them once. -/
theorem collectSeals_eq_ok {message : List UInt8} : ∀ {seals : List Signature}
    {unique addresses : List Address}, c.collectSeals message seals unique = .ok addresses →
    unique.Nodup →
    (∀ sig ∈ seals, ∃ a, c.matchSeal message sig = some a)
      ∧ addresses.Nodup
      ∧ addresses.length ≤ unique.length + seals.length
      ∧ ∀ a, a ∈ addresses ↔ a ∈ unique ∨ ∃ sig ∈ seals, c.matchSeal message sig = some a := by
  intro seals
  induction seals with
  | nil =>
    intro unique addresses h hnd
    cases h
    exact ⟨by simp, hnd, by simp, by simp⟩
  | cons sig seals ih =>
    intro unique addresses h hnd
    rw [collectSeals] at h
    cases hm : c.matchSeal message sig with
    | none => rw [hm] at h; cases h
    | some addr =>
      rw [hm] at h
      -- the accumulator stays without duplicates and gains at most this address
      have hstep : (if addr ∈ unique then unique else unique ++ [addr]).Nodup
          ∧ (if addr ∈ unique then unique else unique ++ [addr]).length ≤ unique.length + 1
          ∧ ∀ a, a ∈ (if addr ∈ unique then unique else unique ++ [addr]) ↔
            a ∈ unique ∨ a = addr := by
        by_cases hin : addr ∈ unique
        · rw [if_pos hin]
          refine ⟨hnd, by omega, fun a => ⟨.inl, ?_⟩⟩
          rintro (ha | rfl)
          · exact ha
          · exact hin
        · rw [if_neg hin]
          exact ⟨List.nodup_append_comm.mp (List.nodup_cons.mpr ⟨hin, hnd⟩), by simp, by simp⟩
      obtain ⟨hnd', hlen', hmem'⟩ := hstep
      obtain ⟨hall, hnodup, hlen, hmem⟩ := ih h hnd'
      refine ⟨?_, hnodup, by rw [List.length_cons]; omega, fun a => ?_⟩
      · rintro s hs
        rcases List.mem_cons.mp hs with rfl | hs
        · exact ⟨addr, hm⟩
        · exact hall s hs
      · have hsig : a = addr ↔ c.matchSeal message sig = some a := by
          rw [hm, Option.some.injEq, eq_comm]
        rw [hmem, hmem', or_assoc, hsig]
        simp only [List.mem_cons, exists_eq_or_imp]

theorem collectSeals_isOk {message : List UInt8} : ∀ {seals : List Signature},
    (∀ sig ∈ seals, ∃ a, c.matchSeal message sig = some a) → ∀ unique,
    ∃ addresses, c.collectSeals message seals unique = .ok addresses := by
  intro seals
  induction seals with
  | nil => intro _ unique; exact ⟨unique, rfl⟩
  | cons sig seals ih =>
    intro hall unique
    obtain ⟨a, ha⟩ := hall sig List.mem_cons_self
    rw [collectSeals, ha]
    exact ih (fun s hs => hall s (List.mem_cons_of_mem _ hs)) _

end Walk

end PoAConsensus

section

variable [Keccak] [Ed25519]

/-! ### Quorums -/

/-- A validator of the configuration whose key verifies the seal over the header. -/
def PoAConfig.Signs (config : PoAConfig) (header : BlockHeader) (sig : Signature)
    (v : Validator) : Prop :=
  v ∈ config.validators ∧ verify (sealHash header).toList sig v.publicKey = .ok ()

/-- Validators at distinct addresses, as many as are required, each with one of the seals. -/
structure PoAConfig.Quorum (config : PoAConfig) (header : BlockHeader) (seals : List Signature)
    (signers : List Validator) : Prop where
  distinct : (signers.map Validator.address).Nodup
  signed : ∀ v ∈ signers, ∃ sig ∈ seals, config.Signs header sig v
  enough : config.requiredSignatures.toNat ≤ signers.length

namespace PoAConsensus

variable {c : PoAConsensus}

theorem matchSeal_eq_some {header : BlockHeader} {sig : Signature} {a : Address}
    (h : c.matchSeal (sealHash header).toList sig = some a) :
    ∃ v, c.config.Signs header sig v ∧ v.address = a := by
  rw [matchSeal, Option.map_eq_some_iff] at h
  obtain ⟨v, hf, ha⟩ := h
  exact ⟨v, ⟨List.mem_of_find?_eq_some hf, by simpa using List.find?_some hf⟩, ha⟩

theorem exists_matchSeal {header : BlockHeader} {sig : Signature} {v : Validator}
    (h : c.config.Signs header sig v) :
    ∃ a, c.matchSeal (sealHash header).toList sig = some a := by
  have hsome : (c.config.validators.find? fun v =>
      verify (sealHash header).toList sig v.publicKey = .ok ()).isSome := by
    rw [List.find?_isSome]
    exact ⟨v, h.1, decide_eq_true h.2⟩
  obtain ⟨w, hf⟩ := Option.isSome_iff_exists.mp hsome
  exact ⟨w.address, by rw [matchSeal, hf]; rfl⟩

theorem verifyCryptoSeals_eq_ok {header : BlockHeader} :
    c.verifyCryptoSeals header = .ok () ↔ ∃ seals addresses,
      decodeSeals header.extraData = .ok seals
      ∧ c.config.requiredSignatures.toNat ≤ seals.length
      ∧ c.collectSeals (sealHash header).toList seals [] = .ok addresses
      ∧ c.config.requiredSignatures.toNat ≤ addresses.length := by
  have hverify : ∀ seals, decodeSeals header.extraData = .ok seals →
      (verifySeal header.extraData c.config.requiredSignatures = .ok () ↔
        c.config.requiredSignatures.toNat ≤ seals.length) := by
    intro seals hd
    simp only [verifySeal, if_neg c.required_ne_zero, sealCount, hd, Except.map]
    split_ifs with hlt
    · exact ⟨fun h => (by cases h), fun h => absurd hlt (Nat.not_lt.mpr h)⟩
    · exact ⟨fun _ => Nat.not_lt.mp hlt, fun _ => rfl⟩
  simp only [verifyCryptoSeals, bind, Except.bind]
  constructor
  · intro h
    split at h
    · cases h
    · next hv =>
      split at h
      · cases h
      · next seals hd =>
        split at h
        · cases h
        · next addresses hcol =>
          split_ifs at h with hlt
          exact ⟨seals, addresses, hd, (hverify seals hd).mp hv, hcol, Nat.not_lt.mp hlt⟩
  · rintro ⟨seals, addresses, hd, hlen, hcol, henough⟩
    simp only [(hverify seals hd).mpr hlen, hd, hcol, if_neg (Nat.not_lt.mpr henough)]

/-! ### The threshold -/

theorem exists_quorum {header : BlockHeader} {seals : List Signature} {addresses : List Address}
    (hcol : c.collectSeals (sealHash header).toList seals [] = .ok addresses)
    (henough : c.config.requiredSignatures.toNat ≤ addresses.length) :
    ∃ signers, c.config.Quorum header seals signers := by
  obtain ⟨-, hnd, -, hmem⟩ := collectSeals_eq_ok hcol List.nodup_nil
  have hsigner : ∀ a ∈ addresses, ∃ v : Validator,
      v.address = a ∧ ∃ sig ∈ seals, c.config.Signs header sig v := by
    intro a ha
    obtain ha | ⟨sig, hsig, hm⟩ := (hmem a).mp ha
    · cases ha
    · obtain ⟨v, hv, hva⟩ := matchSeal_eq_some hm
      exact ⟨v, hva, sig, hsig, hv⟩
  have : Nonempty Validator := ⟨c.config.validators.head c.validators_ne_nil⟩
  choose! signer haddr hsigned using hsigner
  have hmap : (addresses.map signer).map Validator.address = addresses := by
    rw [List.map_map]
    exact (List.map_congr_left haddr).trans (List.map_id _)
  refine ⟨addresses.map signer, ⟨hmap.symm ▸ hnd, ?_, by rwa [List.length_map]⟩⟩
  intro v hv
  obtain ⟨a, ha, rfl⟩ := List.mem_map.mp hv
  exact hsigned a ha

/-- **A quorum is counted in full** when no seal verifies under the keys of two addresses. -/
theorem le_length_of_quorum {header : BlockHeader} {seals : List Signature}
    {signers : List Validator} {addresses : List Address}
    (hq : c.config.Quorum header seals signers)
    (hone : ∀ sig ∈ seals, ∀ v w, c.config.Signs header sig v → c.config.Signs header sig w →
      v.address = w.address)
    (hcol : c.collectSeals (sealHash header).toList seals [] = .ok addresses) :
    c.config.requiredSignatures.toNat ≤ addresses.length := by
  obtain ⟨-, -, -, hmem⟩ := collectSeals_eq_ok hcol List.nodup_nil
  have hsub : signers.map Validator.address ⊆ addresses := by
    intro a ha
    obtain ⟨v, hv, rfl⟩ := List.mem_map.mp ha
    obtain ⟨sig, hsig, hs⟩ := hq.signed v hv
    obtain ⟨a, hm⟩ := exists_matchSeal hs
    obtain ⟨w, hw, rfl⟩ := matchSeal_eq_some hm
    rw [hone sig hsig v w hs hw]
    exact (hmem _).mpr (.inr ⟨sig, hsig, hm⟩)
  calc c.config.requiredSignatures.toNat ≤ (signers.map Validator.address).length := by
        rw [List.length_map]; exact hq.enough
    _ ≤ addresses.length := (List.subperm_of_subset hq.distinct hsub).length_le

/-- **Seal threshold.**  An accepted header carries a non-empty concatenation of seals of
validators, among them a quorum; and such a header is accepted, in whatever order the seals
stand, when no seal verifies under the keys of validators with different addresses. -/
theorem seal_threshold {config : PoAConfig} (hc : PoAConsensus.new config = .ok c)
    (header : BlockHeader) (parent : Option BlockHeader) :
    (c.validateHeader header parent = .ok () → ∃ seals signers,
      seals ≠ [] ∧ header.extraData.toList = seals.flatMap Arr.toList
      ∧ (∀ sig ∈ seals, ∃ v, config.Signs header sig v)
      ∧ config.Quorum header seals signers)
    ∧ (∀ seals signers,
      (∀ sig ∈ seals, ∀ v w, config.Signs header sig v → config.Signs header sig w →
        v.address = w.address) →
      c.isValidator header.miner = true →
      (∀ p ∈ parent, p.timestamp ≤ header.timestamp) →
      header.extraData.toList = seals.flatMap Arr.toList →
      (∀ sig ∈ seals, ∃ v, config.Signs header sig v) →
      config.Quorum header seals signers →
      c.validateHeader header parent = .ok ()) := by
  obtain rfl : c.config = config := by
    rw [PoAConsensus.new] at hc
    split_ifs at hc
    cases hc
    rfl
  constructor
  · intro h
    obtain ⟨seals, addresses, hd, -, hcol, henough⟩ :=
      verifyCryptoSeals_eq_ok.mp (validateHeader_eq_ok.mp h).2.2
    obtain ⟨hne, hbytes⟩ := decodeSeals_eq_ok.mp hd
    obtain ⟨signers, hq⟩ := exists_quorum hcol henough
    refine ⟨seals, signers, hne, hbytes, fun sig hsig => ?_, hq⟩
    obtain ⟨a, hm⟩ := (collectSeals_eq_ok hcol List.nodup_nil).1 sig hsig
    obtain ⟨v, hv, -⟩ := matchSeal_eq_some hm
    exact ⟨v, hv⟩
  · intro seals signers hone hminer hts hbytes hvalid hq
    obtain ⟨addresses, hcol⟩ := collectSeals_isOk (fun sig hsig =>
      (hvalid sig hsig).elim fun _ hv => exists_matchSeal hv) []
    have henough := le_length_of_quorum hq hone hcol
    have hlen := (collectSeals_eq_ok hcol List.nodup_nil).2.2.1
    rw [List.length_nil, Nat.zero_add] at hlen
    have hne : seals ≠ [] := by
      rintro rfl
      have h0 : c.config.requiredSignatures.toNat = 0 :=
        Nat.le_zero.mp (henough.trans (by simpa using hlen))
      exact c.required_ne_zero (UInt64.toNat_inj.mp h0)
    exact validateHeader_eq_ok.mpr ⟨hminer, hts, verifyCryptoSeals_eq_ok.mpr
      ⟨seals, addresses, decodeSeals_eq_ok.mpr ⟨hne, hbytes⟩, henough.trans hlen, hcol, henough⟩⟩

end PoAConsensus

end

namespace Devnet

/-- Two validators, both of which must seal. -/
def pairConfig : PoAConfig := ⟨[Validator.fromSecret validatorKey, Validator.fromSecret userKey], 2⟩

/-- The seals of the two validators over the header of the genesis block, the second one first. -/
def pairSeals : List Signature :=
  [userKey, validatorKey].map (signature (sealHash genesisBlock.header).toList)

/-- The header of the genesis block with both seals. -/
def pairHeader : BlockHeader :=
  { genesisBlock.header with extraData := Vec.ofList (pairSeals.flatMap Arr.toList) }

/-- With both seals the header is accepted, without a parent and in this order. -/
theorem seal_threshold_pairHeader : ∃ c, PoAConsensus.new pairConfig = .ok c
    ∧ c.validateHeader pairHeader none = .ok () := by
  obtain ⟨c, hc⟩ : ∃ c, PoAConsensus.new pairConfig = .ok c := ⟨_, rfl⟩
  have hminer : c.isValidator pairHeader.miner = true := by
    cases hc
    decide +kernel
  have heval : pairHeader.extraData.toList = pairSeals.flatMap Arr.toList
      ∧ (∀ sig ∈ pairSeals, ∀ v ∈ pairConfig.validators, ∀ w ∈ pairConfig.validators,
        verify (sealHash pairHeader).toList sig v.publicKey = .ok () →
        verify (sealHash pairHeader).toList sig w.publicKey = .ok () → v.address = w.address)
      ∧ (∀ sig ∈ pairSeals, ∃ v ∈ pairConfig.validators,
        verify (sealHash pairHeader).toList sig v.publicKey = .ok ())
      ∧ ∀ v ∈ pairConfig.validators, ∃ sig ∈ pairSeals,
        verify (sealHash pairHeader).toList sig v.publicKey = .ok () := by decide +kernel
  obtain ⟨hbytes, hone, hvalid, hsigned⟩ := heval
  have hquorum : pairConfig.Quorum pairHeader pairSeals pairConfig.validators :=
    ⟨by decide +kernel, fun v hv => (hsigned v hv).imp fun _ h => ⟨h.1, hv, h.2⟩, by decide⟩
  exact ⟨c, hc, (PoAConsensus.seal_threshold hc pairHeader none).2 pairSeals _
    (fun sig hsig v w hv hw => hone sig hsig v hv.1 w hw.1 hv.2 hw.2) hminer
    (fun p hp => by cases hp) hbytes hvalid hquorum⟩

end Devnet

/-! ### Headers made of the same seals -/

section

variable [Keccak] [Ed25519]

namespace PoAConsensus

variable {c : PoAConsensus}

/-- Acceptance looks at the set of the seals only, not at their order and number. -/
theorem validateHeader_of_same_seals {h : BlockHeader} {parent : Option BlockHeader}
    {seals seals' : List Signature} {extra : Bytes}
    (hacc : c.validateHeader h parent = .ok ())
    (hbytes : h.extraData.toList = seals.flatMap Arr.toList)
    (hextra : extra.toList = seals'.flatMap Arr.toList)
    (hsame : ∀ sig, sig ∈ seals' ↔ sig ∈ seals) :
    c.validateHeader { h with extraData := extra } parent = .ok () := by
  obtain ⟨hminer, hts, hverify⟩ := validateHeader_eq_ok.mp hacc
  obtain ⟨decoded, addresses, hd, -, hcol, henough⟩ := verifyCryptoSeals_eq_ok.mp hverify
  have hne : seals ≠ [] := by
    rintro rfl
    rw [decodeSeals_eq_ok, hbytes] at hd
    have hlen := length_flatMap_seals decoded
    rw [← hd.2] at hlen
    exact hd.1 (List.length_eq_zero_iff.mp (by simpa [sealLen] using hlen.symm))
  obtain rfl : seals = decoded :=
    Except.ok.inj ((decodeSeals_eq_ok.mpr ⟨hne, hbytes⟩).symm.trans hd)
  obtain ⟨sig, hsig⟩ := List.exists_mem_of_ne_nil _ hne
  have hne' : seals' ≠ [] := List.ne_nil_of_mem ((hsame sig).mpr hsig)
  obtain ⟨hall, hnd, -, hmem⟩ := collectSeals_eq_ok hcol List.nodup_nil
  obtain ⟨addresses', hcol'⟩ := collectSeals_isOk
    (fun sig hsig => hall sig ((hsame sig).mp hsig)) []
  obtain ⟨-, hnd', hle', hmem'⟩ := collectSeals_eq_ok hcol' List.nodup_nil
  -- the same addresses are counted
  have hperm : addresses'.Perm addresses := by
    rw [List.perm_ext_iff_of_nodup hnd' hnd]
    intro a
    rw [hmem', hmem]
    exact or_congr_right (exists_congr fun sig => and_congr_left fun _ => hsame sig)
  rw [← hperm.length_eq] at henough
  rw [List.length_nil, Nat.zero_add] at hle'
  exact validateHeader_eq_ok.mpr ⟨hminer, hts, verifyCryptoSeals_eq_ok.mpr
    ⟨seals', addresses', decodeSeals_eq_ok.mpr ⟨hne', hextra⟩, henough.trans hle', hcol',
      henough⟩⟩

omit [Keccak] [Ed25519] in
/-- Seals can always be written in another way that fits: the first one twice, or, where there is
no room for that, the first two exchanged or made one. -/
theorem exists_other_seals {seals : List Signature} (hne : seals ≠ [])
    (hfits : sealLen * seals.length < 2 ^ 64) :
    ∃ seals', seals' ≠ seals ∧ (∀ sig, sig ∈ seals' ↔ sig ∈ seals)
      ∧ sealLen * seals'.length < 2 ^ 64 := by
  by_cases hroom : sealLen * (seals.length + 1) < 2 ^ 64
  · obtain ⟨a, rest, rfl⟩ := List.exists_cons_of_ne_nil hne
    refine ⟨a :: a :: rest, fun heq => ?_, fun sig => by simp, hroom⟩
    have := congrArg List.length heq
    simp at this
  · match seals, hne with
    | [_], _ => exact absurd (show sealLen * 2 < 2 ^ 64 by decide) hroom
    | a :: b :: rest, _ =>
      by_cases hab : a = b
      · subst hab
        refine ⟨a :: rest, fun heq => ?_, fun sig => by simp, ?_⟩
        · have := congrArg List.length heq
          simp at this
        · refine lt_of_le_of_lt (Nat.mul_le_mul_left _ ?_) hfits
          simp
      · refine ⟨b :: a :: rest, fun heq => hab (List.cons.inj heq).1.symm, fun sig => ?_, hfits⟩
        simp only [List.mem_cons]
        exact or_left_comm

/-- **Every accepted header has another one made of its seals.**  It differs from the first in
`extra_data` only, which holds no seal but those of the first, it is accepted too, and without a
collision it has another hash. -/
theorem exists_resealed {h : BlockHeader} {parent : Option BlockHeader}
    (hacc : c.validateHeader h parent = .ok ()) :
    ∃ (h' : BlockHeader) (seals seals' : List Signature),
      { h' with extraData := h.extraData } = h
      ∧ h.extraData.toList = seals.flatMap Arr.toList
      ∧ h'.extraData.toList = seals'.flatMap Arr.toList
      ∧ (∀ sig ∈ seals', sig ∈ seals)
      ∧ c.validateHeader h' parent = .ok () ∧ h' ≠ h
      ∧ (CollisionFree {BlockHeader.codec.encode h, BlockHeader.codec.encode h'} →
        h'.hash ≠ h.hash) := by
  obtain ⟨seals, -, hd, -⟩ := verifyCryptoSeals_eq_ok.mp (validateHeader_eq_ok.mp hacc).2.2
  obtain ⟨hne, hbytes⟩ := decodeSeals_eq_ok.mp hd
  have hfits : sealLen * seals.length < 2 ^ 64 := by
    rw [← length_flatMap_seals, ← hbytes]
    exact h.extraData.size_lt
  obtain ⟨seals', hother, hsame, hfits'⟩ := exists_other_seals hne hfits
  rw [← length_flatMap_seals] at hfits'
  let extra : Bytes := ⟨seals'.flatMap Arr.toList, hfits'⟩
  have hacc' : c.validateHeader { h with extraData := extra } parent = .ok () :=
    validateHeader_of_same_seals hacc hbytes rfl hsame
  have hdiff : { h with extraData := extra } ≠ h := by
    intro heq
    have hextra : seals'.flatMap Arr.toList = h.extraData.toList :=
      congrArg (fun x : BlockHeader => x.extraData.toList) heq
    obtain ⟨sig, hsig⟩ := List.exists_mem_of_ne_nil _ hne
    have hne' : seals' ≠ [] := List.ne_nil_of_mem ((hsame sig).mpr hsig)
    have hd' := decodeSeals_eq_ok.mpr ⟨hne', hextra.symm⟩
    exact hother (Except.ok.inj (hd'.symm.trans hd))
  refine ⟨{ h with extraData := extra }, seals, seals', rfl, hbytes, rfl,
    fun sig hsig => (hsame sig).mp hsig, hacc', hdiff, fun hcf heq => hdiff ?_⟩
  exact BlockHeader.codec.encode_injective
    (hcf (Set.mem_insert_of_mem _ rfl) (Set.mem_insert _ _) heq)

end PoAConsensus

end

namespace Devnet

/-- From a published block anybody makes another header that is accepted. -/
theorem exists_resealed_blockA :
    ∃ h', { h' with extraData := blockA.header.extraData } = blockA.header
      ∧ consensus.validateHeader h' (some genesisBlock.header) = .ok () ∧ h' ≠ blockA.header := by
  have hacc : consensus.validateHeader blockA.header (some genesisBlock.header) = .ok () := by
    decide +kernel
  obtain ⟨h', -, -, hfields, -, -, -, hacc', hne, -⟩ := PoAConsensus.exists_resealed hacc
  exact ⟨h', hfields, hacc', hne⟩

/-- The header of a block with its seal written twice. -/
def doubled : BlockHeader :=
  { blockA.header with
    extraData := Vec.ofList (blockA.header.extraData.toList ++ blockA.header.extraData.toList) }

/-- **A seal written twice**: the header is accepted, is another one, and its hash is smaller,
so that at the same height it takes the head. -/
theorem doubled_seal : ∃ seals seals' : List Signature,
    consensus.validateHeader blockA.header (some genesisBlock.header) = .ok ()
    ∧ { doubled with extraData := blockA.header.extraData } = blockA.header
    ∧ blockA.header.extraData.toList = seals.flatMap Arr.toList
    ∧ doubled.extraData.toList = seals'.flatMap Arr.toList
    ∧ (∀ sig ∈ seals', sig ∈ seals)
    ∧ consensus.validateHeader doubled (some genesisBlock.header) = .ok ()
    ∧ doubled ≠ blockA.header ∧ doubled.hash < blockA.header.hash := by
  refine ⟨asChunks 1 blockA.header.extraData.toList, asChunks 2 doubled.extraData.toList, ?_⟩
  decide +kernel

end Devnet

end Ivory
