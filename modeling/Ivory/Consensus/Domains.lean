import Ivory.Devnet

/-!
# What is signed

A validator signs two kinds of hashes with one key: the signed fields of a
transaction, and headers with empty `extra_data`.  Neither byte string carries a
tag.  A header takes 220 bytes and ends in the eight zero bytes of the empty
`extra_data`; a transaction takes 109 bytes, 20 more with a recipient, and its
data, and it ends in its nonce.

So the two can only meet at nonce zero and at one length of the data
(`Transaction.Overlaps`), and there they always meet: the fields of a header have
fixed widths and take any bytes.

* `Transaction.signing_domain_iff`: **no header has the bytes of a transaction exactly if
  the transaction does not overlap.**
* `Devnet.transaction_seals_header`: a transfer whose signature seals a header.
-/

namespace Ivory

/-- The bytes that `signing_hash` hashes. -/
def Transaction.signingPayload (t : Transaction) : List UInt8 :=
  UnsignedTransaction.codec.encode t.unsigned

/-- The bytes that `seal_hash` hashes. -/
def sealPayload (h : BlockHeader) : List UInt8 :=
  BlockHeader.codec.encode { h with extraData := Vec.empty }

/-- The first nonce, and as much data as a header has room for. -/
def Transaction.Overlaps (t : Transaction) : Prop :=
  t.nonce = 0 ∧ t.data.toList.length = if t.isCreate then 111 else 91

instance (t : Transaction) : Decidable t.Overlaps := inferInstanceAs (Decidable (_ ∧ _))

/-! ### Layouts -/

theorem encode_bytes_length (b : Bytes) : (bytesCodec.encode b).length = 8 + b.toList.length := by
  simp [bytesCodec, Codec.vec, Codec.encode_word64, Codec.byte]

theorem Transaction.signingPayload_eq (t : Transaction) : ∃ fields : List UInt8,
    t.signingPayload = fields ++ leBytes 8 t.nonce.toNat
      ∧ fields.length = (if t.isCreate then 101 else 121) + t.data.toList.length := by
  refine ⟨t.sender.toList ++ ((fixedCodec 20).option.encode t.recipient
    ++ (U256.codec.encode t.value ++ (bytesCodec.encode t.data ++ (U256.codec.encode t.gasPrice
      ++ leBytes 8 t.gas.toNat)))), ?_, ?_⟩
  · simp [signingPayload, unsigned, UnsignedTransaction.codec, fixedCodec, Codec.encode_word64]
  · cases hr : t.recipient with
    | none =>
      simp [isCreate, hr, Codec.option, U256.codec, encode_bytes_length, Arr.size]
      omega
    | some a =>
      simp [isCreate, hr, Codec.option, fixedCodec, U256.codec, encode_bytes_length, Arr.size]
      omega

theorem sealPayload_eq (h : BlockHeader) : ∃ fields : List UInt8,
    sealPayload h = fields ++ leBytes 8 0 ∧ fields.length = 212 := by
  refine ⟨leBytes 8 h.number.toNat ++ (h.parentHash.toList ++ (leBytes 8 h.timestamp.toNat
    ++ (h.miner.toList ++ (leBytes 8 h.gasLimit.toNat ++ (leBytes 8 h.gasUsed.toNat
      ++ (h.stateRoot.toList ++ (h.transactionsRoot.toList ++ (h.receiptsRoot.toList
        ++ U256.codec.encode h.difficulty)))))))), ?_, ?_⟩
  · simp [sealPayload, BlockHeader.codec, fixedCodec, bytesCodec, Codec.vec, Codec.encode_word64]
  · simp [U256.codec, Arr.size]

/-- Equal payloads: the lengths agree, and so do the last eight bytes. -/
theorem Transaction.overlaps_of_payload_eq {t : Transaction} {h : BlockHeader}
    (heq : t.signingPayload = sealPayload h) : t.Overlaps := by
  obtain ⟨fields, ht, hlen⟩ := t.signingPayload_eq
  obtain ⟨fields', hh, hlen'⟩ := sealPayload_eq h
  rw [ht, hh] at heq
  obtain ⟨hfields, hnonce⟩ := List.append_inj' heq (by simp)
  refine ⟨?_, ?_⟩
  · have hn : ofLeBytes (leBytes 8 t.nonce.toNat) = ofLeBytes (leBytes 8 0) := by rw [hnonce]
    have hlt : t.nonce.toNat < 256 ^ 8 := lt_of_lt_of_eq t.nonce.toNat_lt (by norm_num)
    rw [ofLeBytes_leBytes _ _ hlt, ofLeBytes_leBytes _ _ (by norm_num)] at hn
    exact UInt64.toNat_inj.mp hn
  · rw [hfields, hlen'] at hlen
    by_cases hc : t.isCreate = true
    · rw [if_pos hc] at hlen ⊢
      omega
    · rw [if_neg hc] at hlen ⊢
      omega

theorem exists_sealPayload {fields : List UInt8} (hlen : fields.length = 212) :
    ∃ h : BlockHeader, sealPayload h = fields ++ leBytes 8 0 := by
  have hword := Codec.full_word64
  have hhash : (fixedCodec 32).Full 32 := Codec.full_array_byte 32
  have haddress : (fixedCodec 20).Full 20 := Codec.full_array_byte 20
  have hamount : U256.codec.Full 32 :=
    (Codec.full_array_byte 32).map _ U256.toBeBytes_fromBeBytes
  obtain ⟨⟨number, parentHash, timestamp, miner, gasLimit, gasUsed, stateRoot, transactionsRoot,
    receiptsRoot, difficulty⟩, hp⟩ := hword.pair (hhash.pair (hword.pair (haddress.pair
      (hword.pair (hword.pair (hhash.pair (hhash.pair (hhash.pair hamount)))))))) fields hlen
  refine ⟨⟨number, parentHash, timestamp, miner, gasLimit, gasUsed, stateRoot, transactionsRoot,
    receiptsRoot, difficulty, Vec.empty⟩, ?_⟩
  rw [← hp]
  simp [sealPayload, BlockHeader.codec, bytesCodec, Codec.vec, Codec.encode_word64]

theorem Transaction.Overlaps.exists_header {t : Transaction} (h : t.Overlaps) :
    ∃ header, t.signingPayload = sealPayload header := by
  obtain ⟨fields, ht, hlen⟩ := t.signingPayload_eq
  obtain ⟨hnonce, hdata⟩ := h
  have h212 : fields.length = 212 := by
    rw [hlen, hdata]
    split <;> rfl
  obtain ⟨header, hheader⟩ := exists_sealPayload h212
  refine ⟨header, ?_⟩
  rw [ht, hheader, hnonce]
  rfl

/-! ### Separation -/

section

variable [Keccak] [Ed25519]

/-- **Which transactions are never signed as a header**: exactly those that do not have the first
nonce and data of one length.  For the others some header has the same hash.  Where the payloads
differ, the hashes do without a collision, and a signature that a key accepts for one message only
is not accepted for both. -/
theorem Transaction.signing_domain_iff (t : Transaction) :
    ((∀ h : BlockHeader, t.signingPayload ≠ sealPayload h) ↔ ¬ t.Overlaps)
    ∧ (t.Overlaps → ∃ h : BlockHeader, t.signingHash = sealHash h)
    ∧ ∀ h : BlockHeader, t.signingPayload ≠ sealPayload h →
      CollisionFree {t.signingPayload, sealPayload h} → t.signingHash ≠ sealHash h
      ∧ ∀ (sig : Signature) (pk : PublicKey),
        (∀ m m', verify m sig pk = .ok () → verify m' sig pk = .ok () → m = m') →
        ¬ (verify t.signingHash.toList sig pk = .ok ()
          ∧ verify (sealHash h).toList sig pk = .ok ()) := by
  refine ⟨⟨fun hall hov => ?_, fun hsep h heq => hsep (overlaps_of_payload_eq heq)⟩,
    fun hov => ?_, fun h hne hcf => ?_⟩
  · obtain ⟨header, heq⟩ := hov.exists_header
    exact hall header heq
  · obtain ⟨header, heq⟩ := hov.exists_header
    exact ⟨header, congrArg keccak256 heq⟩
  · have hhash : t.signingHash ≠ sealHash h := fun heq =>
      hne (hcf (Set.mem_insert _ _) (Set.mem_insert_of_mem _ rfl) heq)
    refine ⟨hhash, fun sig pk hone hboth => ?_⟩
    exact hhash (Arr.ext (hone _ _ hboth.1 hboth.2))

end

namespace Devnet

/-- A transfer of the validator whose value spells the address of the validator. -/
def lure : Transaction :=
  signedTx validatorKey (some (Arr.replicate 20 0)) 0
    (U256.fromBeBytes ⟨List.replicate 7 0 ++ validator.toList ++ List.replicate 5 0, by
      simp [Arr.size]⟩) 21000 U256.one (Vec.ofList (List.replicate 91 0))

/-- The bytes that the validator signed, read as a header, with the signature for a seal. -/
def lureHeader : BlockHeader :=
  { ((BlockHeader.codec.deserialize lure.signingPayload).getD genesisBlock.header) with
    extraData := Vec.ofList lure.signature.toList }

/-- **A transaction that seals a header.**  The validator signed a transfer; the signature makes a
header of the same bytes valid. -/
theorem transaction_seals_header : recoverSender lure = .ok validator
    ∧ lure.signingPayload = sealPayload lureHeader
    ∧ lureHeader.extraData.toList = lure.signature.toList
    ∧ consensus.validateHeader lureHeader none = .ok () := by
  decide +kernel

end Devnet

end Ivory
