import Ivory.Core

/-!
# Keys and signatures

`ivory-crypto` wraps an Ed25519 implementation that lives outside the
repository; `Ed25519` holds the four functions of it that are called.  The
only law anyone relies on is that a signature made with a secret key verifies
under its public key (`Ed25519.RoundTrip`).
-/

namespace Ivory

/-- The Ed25519 functions of the `ed25519_dalek` crate. -/
class Ed25519 where
  /-- The bytes of `SigningKey::from_bytes(sk).verifying_key()`. -/
  verifyingKey : SecretKey → PublicKey
  /-- `SigningKey::from_bytes(sk).sign(message)`. -/
  signMessage : List UInt8 → SecretKey → Signature
  /-- `VerifyingKey::from_bytes(pk).is_ok()`. -/
  validKey : PublicKey → Bool
  /-- `VerifyingKey::verify(message, signature).is_ok()`. -/
  verifies : List UInt8 → Signature → PublicKey → Bool

/-- Errors of key and signature checks. -/
inductive CryptoError
  | invalidSignature
  | invalidPublicKey
  | keyMismatch
deriving DecidableEq

section Signatures

variable [Ed25519]

/-- `public_key_from_secret`. -/
def publicKeyFromSecret (sk : SecretKey) : PublicKey := Ed25519.verifyingKey sk

/-- `sign`. -/
def sign (message : List UInt8) (sk : SecretKey) : Signature := Ed25519.signMessage message sk

/-- `verify`. -/
def verify (message : List UInt8) (signature : Signature) (pk : PublicKey) :
    Except CryptoError Unit :=
  if ¬ Ed25519.validKey pk then .error .invalidPublicKey
  else if ¬ Ed25519.verifies message signature pk then .error .invalidSignature
  else .ok ()

/-- Signing and verifying match: the documented behaviour of the crate. -/
structure Ed25519.RoundTrip : Prop where
  validKey_verifyingKey : ∀ sk, Ed25519.validKey (Ed25519.verifyingKey sk) = true
  verifies_signMessage : ∀ message sk,
    Ed25519.verifies message (Ed25519.signMessage message sk) (Ed25519.verifyingKey sk) = true

theorem verify_sign (hr : Ed25519.RoundTrip) (message : List UInt8) (sk : SecretKey) :
    verify message (sign message sk) (publicKeyFromSecret sk) = .ok () := by
  simp [verify, sign, publicKeyFromSecret, hr.validKey_verifyingKey, hr.verifies_signMessage]

end Signatures

section Senders

variable [Keccak] [Ed25519]

/-- `address_from_public_key`. -/
def addressFromPublicKey (pk : PublicKey) : Address := Address.fromH256 (keccak256 pk.toList)

/-- `address_from_secret`. -/
def addressFromSecret (sk : SecretKey) : Address := addressFromPublicKey (publicKeyFromSecret sk)

/-- `recover_sender`: the key belongs to the sender and signed the transaction. -/
def recoverSender (tx : Transaction) : Except CryptoError Address :=
  let addr := addressFromPublicKey tx.publicKey
  if addr ≠ tx.sender then .error .keyMismatch
  else match verify tx.signingHash.toList tx.signature tx.publicKey with
    | .error e => .error e
    | .ok () => .ok addr

/-- `sign_transaction`: key, sender and signature are written in this order. -/
def signTransaction (tx : Transaction) (sk : SecretKey) : Transaction :=
  let tx := { tx with publicKey := publicKeyFromSecret sk }
  let tx := { tx with sender := addressFromPublicKey tx.publicKey }
  { tx with signature := sign tx.signingHash.toList sk }

/-- `signed_tx`. -/
def signedTx (sk : SecretKey) (recipient : Option Address) (nonce : UInt64) (value : U256)
    (gas : UInt64) (gasPrice : U256) (data : Bytes) : Transaction :=
  signTransaction
    { sender := Address.zero, recipient, value, data, gasPrice, gas, nonce
      signature := Arr.replicate 64 0, publicKey := Arr.replicate 32 0 } sk

theorem recoverSender_eq_ok {tx : Transaction} {a : Address} (h : recoverSender tx = .ok a) :
    a = tx.sender ∧ addressFromPublicKey tx.publicKey = tx.sender
      ∧ verify tx.signingHash.toList tx.signature tx.publicKey = .ok () := by
  simp only [recoverSender] at h
  split_ifs at h with hk
  rw [not_not] at hk
  cases hv : verify tx.signingHash.toList tx.signature tx.publicKey with
  | error e => rw [hv] at h; cases h
  | ok u =>
    rw [hv] at h
    cases h
    exact ⟨hk, hk, rfl⟩

end Senders

end Ivory
