import Ivory.Crypto

/-!
# Proof of authority

A header is sealed by validators.  The seals, 64-byte signatures over the hash
of the header with empty `extra_data`, stand one after the other in
`extra_data`.

* `PoAConsensus.validateHeader_eq_ok`: what an accepted header satisfies.
* `PoAConsensus.sealHeader_isOk`, `PoAConsensus.verifyCryptoSeals_sealHeader`:
  **what a configured validator seals is accepted** when one seal is required.
-/

namespace Ivory

/-- Errors of header validation and sealing. -/
inductive ConsensusError
  | notValidator
  | insufficientSeals (expected got : ℕ)
  | invalidTimestamp
  | invalidSeal
  | emptyValidatorSet
deriving DecidableEq

/-! ### Seals -/

/-- `SEAL_LEN`. -/
def sealLen : ℕ := 64

/-- The first `n` chunks of 64 bytes. -/
def asChunks : ℕ → List UInt8 → List Signature
  | 0, _ => []
  | n + 1, bytes => Arr.ofFn 64 (fun i => bytes.getD i 0) :: asChunks n (bytes.drop sealLen)

/-- `encode_signatures`. -/
def encodeSignatures (seals : List Signature) : Except ConsensusError Bytes :=
  if seals.isEmpty then .error .invalidSeal
  else .ok (Vec.ofList (seals.flatMap Arr.toList))

/-- `decode_seals`. -/
def decodeSeals (extraData : Bytes) : Except ConsensusError (List Signature) :=
  let bytes := extraData.toList
  if bytes.isEmpty ∨ bytes.length % sealLen ≠ 0 then .error .invalidSeal
  else .ok (asChunks (bytes.length / sealLen) bytes)

/-- `seal_count`. -/
def sealCount (extraData : Bytes) : Except ConsensusError ℕ :=
  (decodeSeals extraData).map List.length

/-- `verify_seal`: enough seals, by length only. -/
def verifySeal (extraData : Bytes) (required : UInt64) : Except ConsensusError Unit :=
  if required = 0 then .error .invalidSeal
  else match sealCount extraData with
    | .error e => .error e
    | .ok got =>
      if got < required.toNat then .error (.insufficientSeals required.toNat got) else .ok ()

theorem decodeSeals_single {sig : Signature} {extra : Bytes}
    (h : encodeSignatures [sig] = .ok extra) : decodeSeals extra = .ok [sig] := by
  have hlen : (sig.toList).length < 2 ^ 64 := by rw [sig.size]; norm_num
  have hextra : extra.toList = sig.toList := by
    simp only [encodeSignatures, List.isEmpty_cons, Bool.false_eq_true, if_false,
      List.flatMap_cons, List.flatMap_nil, List.append_nil, Except.ok.injEq] at h
    rw [← h, Vec.toList_ofList hlen]
  have hne : sig.toList.isEmpty = false := by
    rw [List.isEmpty_eq_false_iff, ← List.length_pos_iff, sig.size]
    norm_num
  simp [decodeSeals, hextra, hne, sig.size, sealLen, asChunks]

/-! ### Validators -/

/-- An authorised miner with the key that checks its seals. -/
structure Validator where
  address : Address
  publicKey : PublicKey
deriving DecidableEq

/-- The validator set and the number of seals required. -/
structure PoAConfig where
  validators : List Validator
  requiredSignatures : UInt64
deriving DecidableEq

/-- The engine: a configuration that `PoAConsensus::new` accepted. -/
structure PoAConsensus where
  config : PoAConfig
  validators_ne_nil : config.validators ≠ []
  required_ne_zero : config.requiredSignatures ≠ 0
deriving DecidableEq

section

variable [Keccak] [Ed25519]

/-- `Validator::from_secret`. -/
def Validator.fromSecret (sk : SecretKey) : Validator :=
  ⟨addressFromPublicKey (publicKeyFromSecret sk), publicKeyFromSecret sk⟩

/-- `seal_hash`: the hash of the header with empty `extra_data`. -/
def sealHash (header : BlockHeader) : H256 :=
  BlockHeader.hash { header with extraData := Vec.empty }

namespace PoAConsensus

/-- `PoAConsensus::new`. -/
def new (config : PoAConfig) : Except ConsensusError PoAConsensus :=
  if h : config.validators = [] then .error .emptyValidatorSet
  else if h' : config.requiredSignatures = 0 then .error .invalidSeal
  else .ok ⟨config, h, h'⟩

/-- `is_validator`. -/
def isValidator (c : PoAConsensus) (addr : Address) : Bool :=
  c.config.validators.any (·.address == addr)

/-- The first validator whose key verifies the seal. -/
def matchSeal (c : PoAConsensus) (message : List UInt8) (sig : Signature) : Option Address :=
  (c.config.validators.find? (fun v => verify message sig v.publicKey = .ok ())).map
    Validator.address

/-- The loop over the seals, collecting distinct addresses. -/
def collectSeals (c : PoAConsensus) (message : List UInt8) :
    List Signature → List Address → Except ConsensusError (List Address)
  | [], unique => .ok unique
  | sig :: sigs, unique =>
    match c.matchSeal message sig with
    | none => .error .invalidSeal
    | some addr =>
      collectSeals c message sigs (if addr ∈ unique then unique else unique ++ [addr])

/-- `verify_crypto_seals`. -/
def verifyCryptoSeals (c : PoAConsensus) (header : BlockHeader) : Except ConsensusError Unit := do
  verifySeal header.extraData c.config.requiredSignatures
  let seals ← decodeSeals header.extraData
  let unique ← c.collectSeals (sealHash header).toList seals []
  if unique.length < c.config.requiredSignatures.toNat then
    .error (.insufficientSeals c.config.requiredSignatures.toNat unique.length)
  else .ok ()

/-- `validate_header`. -/
def validateHeader (c : PoAConsensus) (header : BlockHeader) (parent : Option BlockHeader) :
    Except ConsensusError Unit :=
  if ¬ c.isValidator header.miner then .error .notValidator
  else if parent.any (fun p => header.timestamp < p.timestamp) then .error .invalidTimestamp
  else c.verifyCryptoSeals header

/-- `seal_header`: the sealed header. -/
def sealHeader (c : PoAConsensus) (header : BlockHeader) (miner : Address) (secret : SecretKey) :
    Except ConsensusError BlockHeader :=
  if ¬ c.isValidator miner then .error .notValidator
  else if addressFromSecret secret ≠ miner then .error .notValidator
  else do
    let header := { header with miner := miner, extraData := Vec.empty }
    let sig := sign (sealHash header).toList secret
    let extraData ← encodeSignatures [sig]
    .ok { header with extraData := extraData }

theorem validateHeader_eq_ok {c : PoAConsensus} {header : BlockHeader}
    {parent : Option BlockHeader} : c.validateHeader header parent = .ok () ↔
      c.isValidator header.miner = true
        ∧ (∀ p ∈ parent, p.timestamp ≤ header.timestamp)
        ∧ c.verifyCryptoSeals header = .ok () := by
  rw [validateHeader]
  have hany : parent.any (fun p => header.timestamp < p.timestamp) = true ↔
      ¬ ∀ p ∈ parent, p.timestamp ≤ header.timestamp := by
    cases parent <;> simp [UInt64.not_le]
  by_cases h₁ : c.isValidator header.miner = true
  · by_cases h₂ : ∀ p ∈ parent, p.timestamp ≤ header.timestamp
    · rw [if_neg (by simp [h₁]), if_neg (fun h => hany.mp h h₂)]
      exact ⟨fun h => ⟨h₁, h₂, h⟩, fun h => h.2.2⟩
    · rw [if_neg (by simp [h₁]), if_pos (hany.mpr h₂)]
      exact ⟨fun h => (by cases h), fun h => absurd h.2.1 h₂⟩
  · rw [if_pos h₁]
    exact ⟨fun h => (by cases h), fun h => absurd h.1 h₁⟩

/-! ### A sealed header is accepted -/

/-- What sealing writes: the miner, and one signature over the rest. -/
theorem sealHeader_eq_ok {c : PoAConsensus} {header sealed : BlockHeader} {miner : Address}
    {sk : SecretKey} (h : c.sealHeader header miner sk = .ok sealed) :
    c.isValidator miner = true ∧ addressFromSecret sk = miner
      ∧ ∃ extra, sealed = { header with miner := miner, extraData := extra }
        ∧ encodeSignatures [sign (sealHash sealed).toList sk] = .ok extra := by
  rw [sealHeader] at h
  split_ifs at h with h₁ h₂
  refine ⟨h₁, not_not.mp h₂, ?_⟩
  simp only [bind, Except.bind] at h
  split at h
  · cases h
  · next extra he =>
    cases h
    exact ⟨extra, rfl, he⟩

theorem sealHeader_isOk {c : PoAConsensus} (header : BlockHeader) {sk : SecretKey}
    (hv : Validator.fromSecret sk ∈ c.config.validators) :
    ∃ sealed, c.sealHeader header (addressFromSecret sk) sk = .ok sealed := by
  have hval : c.isValidator (addressFromSecret sk) = true := by
    rw [isValidator, List.any_eq_true]
    exact ⟨_, hv, beq_self_eq_true _⟩
  rw [sealHeader, if_neg (by simp [hval]), if_neg (by simp)]
  exact ⟨_, rfl⟩

theorem matchSeal_isSome {c : PoAConsensus} (hr : Ed25519.RoundTrip) {sk : SecretKey}
    (hv : Validator.fromSecret sk ∈ c.config.validators) (message : List UInt8) :
    ∃ addr, c.matchSeal message (sign message sk) = some addr := by
  have hsome : (c.config.validators.find? fun v =>
      verify message (sign message sk) v.publicKey = .ok ()).isSome := by
    rw [List.find?_isSome]
    exact ⟨_, hv, decide_eq_true (verify_sign hr message sk)⟩
  obtain ⟨v, hf⟩ := Option.isSome_iff_exists.mp hsome
  exact ⟨v.address, by rw [matchSeal, hf]; rfl⟩

/-- **A seal of a configured validator is accepted** when one seal is required. -/
theorem verifyCryptoSeals_sealHeader {c : PoAConsensus} (hr : Ed25519.RoundTrip)
    {header sealed : BlockHeader} {miner : Address} {sk : SecretKey}
    (hv : Validator.fromSecret sk ∈ c.config.validators)
    (hreq : c.config.requiredSignatures = 1)
    (h : c.sealHeader header miner sk = .ok sealed) : c.verifyCryptoSeals sealed = .ok () := by
  obtain ⟨-, -, extra, rfl, hextra⟩ := sealHeader_eq_ok h
  obtain ⟨addr, haddr⟩ := matchSeal_isSome hr hv
    (sealHash { header with miner := miner, extraData := extra }).toList
  have hdec := decodeSeals_single hextra
  have hverify : verifySeal extra 1 = .ok () := by
    simp [verifySeal, sealCount, hdec, Except.map]
  simp [verifyCryptoSeals, hreq, hverify, hdec, collectSeals, haddr, bind, Except.bind]

end PoAConsensus

end

end Ivory
