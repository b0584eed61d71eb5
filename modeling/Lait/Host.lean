import Lait.Bytes

/-!
# What the authority plane takes from outside the repository

Two third-party pieces decide what a signed record says: the cryptographic
primitives and the wire codec.  Neither is modelled; both are parameters, so
that a result about the plane holds for every choice of them, and a result that
needs more says what it needs.

* `Crypto` — BLAKE3 (`Hasher` over one concatenated input, and `derive_key`),
  and ed25519 (`SigningKey`, `VerifyingKey::from_bytes`,
  `Signature::from_slice`, `verify_strict`).
* `Postcard` — serde's derived encoding and decoding of one type.

`idealCrypto` and `tableCodec` are computable instances, for evaluation.

The idealised properties are predicates on the parameter, never part of it:
`Blake3Injective`, `DeriveKeyInjective` and `OnePayloadPerSignature`.
-/

namespace Lait

/-- The primitives of the `blake3` and `ed25519_dalek` crates. -/
class Crypto where
  /-- `Hasher::new().update(..)….finalize()` over the whole input. -/
  blake3 : Bytes → Bytes
  /-- `blake3::derive_key(context, input)`. -/
  deriveKey : Text → Bytes → Bytes
  /-- Whether `VerifyingKey::from_bytes` accepts the 32 key bytes. -/
  verifyingKey : Bytes → Bool
  /-- Whether `Signature::from_slice` accepts the bytes. -/
  signature : Bytes → Bool
  /-- `VerifyingKey::verify_strict`: key, payload, signature. -/
  verifyStrict : Bytes → Bytes → Bytes → Bool
  /-- `SigningKey::from_bytes(seed).verifying_key()`. -/
  publicKey : Bytes → Bytes
  /-- `SigningKey::from_bytes(seed).sign(payload)`. -/
  sign : Bytes → Bytes → Bytes

/-- BLAKE3 has no collisions. -/
def Blake3Injective [Crypto] : Prop := Function.Injective Crypto.blake3

/-- `derive_key` has no collisions within one context. -/
def DeriveKeyInjective [Crypto] : Prop :=
  ∀ context, Function.Injective (Crypto.deriveKey context)

/-- A signature verifies for at most one payload under a key. -/
def OnePayloadPerSignature [Crypto] : Prop :=
  ∀ key sig payload payload', Crypto.verifyStrict key payload sig = true →
    Crypto.verifyStrict key payload' sig = true → payload = payload'

/-- Ideal primitives, as a computable witness that the three properties can hold
together: hashing keeps its input, and the signature of a payload is the key
followed by the payload. -/
@[reducible] def idealCrypto : Crypto where
  blake3 input := input
  deriveKey _ input := input
  verifyingKey _ := true
  signature _ := true
  verifyStrict key payload sig := sig = key ++ payload
  publicKey seed := seed
  sign seed payload := seed ++ payload

theorem idealCrypto_blake3 : @Blake3Injective idealCrypto := Function.injective_id

theorem idealCrypto_onePayload : @OnePayloadPerSignature idealCrypto := by
  intro key sig payload payload' h h'
  have hsig : sig = key ++ payload := of_decide_eq_true h
  have hsig' : sig = key ++ payload' := of_decide_eq_true h'
  exact Bytes.append_right_inj.mp (hsig.symm.trans hsig')

/-! ## Codecs -/

/-- `postcard::to_stdvec` and `postcard::from_bytes` at one type. -/
class Postcard (α : Type) where
  toStdvec : α → Bytes
  fromBytes : Bytes → Option α

/-- A codec of the listed values alone, each written as its one-byte index: small
enough to evaluate. -/
@[reducible] def tableCodec {α : Type} [DecidableEq α] (table : List α) : Postcard α where
  toStdvec a := ⟨[UInt8.ofNat (table.idxOf a)]⟩
  fromBytes b :=
    match b.data with
    | [i] => table[i.toNat]?
    | _ => none

end Lait
