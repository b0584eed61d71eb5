import Lait.Replica.Record
import Lait.Replica.Fabric

/-!
# Protected artifacts

An artifact leaves the engine sealed: `epoch_id[16] ‖ nonce[12] ‖ ciphertext`,
under the Body key of its epoch.  A sealing draws its nonce from the operating
system, so the nonce is an argument here; everything else about it is
determined.

A **pack** carries the sealed artifacts of one descriptor, in signed order.
Decoding one checks every envelope against the descriptor's references, so a
decoded pack is exactly the closure its author signed.
-/

namespace Lait.Replica

def BODY_EPOCH_ID_LEN : ℕ := 16
def NONCE_LEN : ℕ := 12
/-- Epoch id, nonce and authentication tag. -/
def BODY_ENVELOPE_OVERHEAD : ℕ := 16 + 12 + 16
/-- The maximum protected Body envelope size. -/
def MAX_BODY_BYTES : ℕ := 64 * 1024 * 1024
/-- The maximum canonical plaintext size. -/
def MAX_PROTECTED_PLAINTEXT : ℕ := MAX_BODY_BYTES - BODY_ENVELOPE_OVERHEAD
def ARTIFACT_PACK_VERSION : UInt8 := 1

/-- The `chacha20poly1305` crate's cipher. -/
class Aead where
  /-- `encrypt`: key, nonce, plaintext. -/
  encrypt : Bytes → Bytes → Bytes → Bytes
  /-- `decrypt`: key, nonce, ciphertext. -/
  decrypt : Bytes → Bytes → Bytes → Option Bytes

/-- A Body key of one authorized epoch. -/
structure AuthorizedBodyKey where
  epoch : Bytes
  key : Bytes
  deriving DecidableEq

/-- The key seam the Replica consults. -/
structure BodyKeySource where
  /-- The key for new local material, if an authorized epoch is held. -/
  sealingKey : Option AuthorizedBodyKey
  /-- The key for material sealed under an epoch, if held. -/
  openingKey : Bytes → Option AuthorizedBodyKey

/-- The epoch id an envelope names. -/
def bodyEpochId (envelope : Bytes) : Option Bytes :=
  if envelope.length < BODY_EPOCH_ID_LEN then none
  else some ⟨envelope.data.take BODY_EPOCH_ID_LEN⟩

section Seal

variable [Aead] [Postcard Artifact]

/-- `seal_artifact` under a given nonce. -/
def sealArtifact (artifact : Artifact) (key : AuthorizedBodyKey) (nonce : Bytes) :
    Except Failure Bytes :=
  let plaintext := Postcard.toStdvec artifact
  if MAX_PROTECTED_PLAINTEXT < plaintext.length then .error .opLimit
  else .ok (Bytes.join [key.epoch, nonce, Aead.encrypt key.key nonce plaintext])

/-- `Artifact::decode_canonical`. -/
def decodeArtifact (bytes : Bytes) : Option Artifact :=
  match Postcard.fromBytes (α := Artifact) bytes with
  | some artifact => if Postcard.toStdvec artifact = bytes then some artifact else none
  | none => none

/-- `open_artifact`. -/
def openArtifact (key : AuthorizedBodyKey) (envelope : Bytes) : Option Artifact :=
  if MAX_BODY_BYTES < envelope.length then none
  else
    let blob := envelope.data.drop BODY_EPOCH_ID_LEN
    match bodyEpochId envelope with
    | none => none
    | some epoch =>
        if epoch ≠ key.epoch then none
        else if blob.length < NONCE_LEN then none
        else
          match Aead.decrypt key.key ⟨blob.take NONCE_LEN⟩ ⟨blob.drop NONCE_LEN⟩ with
          | some plaintext => decodeArtifact plaintext
          | none => none

end Seal

/-! ## Packs -/

/-- `encode_artifact_pack`. -/
def encodeArtifactPack (artifacts : List Bytes) : Except Failure Bytes := do
  if 65535 < artifacts.length then throw .quotaExceeded
  let header : Bytes := ⟨[ARTIFACT_PACK_VERSION]⟩ ++ Bytes.be16 artifacts.length
  artifacts.foldlM (fun (bytes : Bytes) artifact =>
    if MAX_BODY_BYTES < bytes.length + 8 + artifact.length then .error .quotaExceeded
    else .ok (Bytes.join [bytes, Bytes.be64 artifact.length, artifact])) header

/-- The number a big-endian byte string spells. -/
def beNat (bytes : List UInt8) : ℕ := bytes.foldl (fun n b => n * 256 + b.toNat) 0

/-- Read `count` length-prefixed envelopes, and what follows them. -/
def readEnvelopes : ℕ → List UInt8 → Except Failure (List Bytes × List UInt8)
  | 0, remaining => .ok ([], remaining)
  | count + 1, remaining => do
      if remaining.length < 8 then throw (.illegitimate .binding)
      let len := beNat (remaining.take 8)
      if MAX_BODY_BYTES < len then throw (.illegitimate .binding)
      let tail := remaining.drop 8
      if tail.length < len then throw (.illegitimate .binding)
      let (artifacts, remaining) ← readEnvelopes count (tail.drop len)
      return (⟨tail.take len⟩ :: artifacts, remaining)

section Decode

variable [Crypto]

/-- The reference an envelope answers to, if it has the shape of one. -/
def envelopeRef (envelope : Bytes) : Option ArtifactRef :=
  match bodyEpochId envelope with
  | none => none
  | some epoch =>
      if MAX_BODY_BYTES < envelope.length ∨ envelope.length < BODY_ENVELOPE_OVERHEAD then none
      else some ⟨objectContentHash envelope, envelope.length, epoch⟩

/-- Match each envelope to a distinct reference of the descriptor. -/
def matchEnvelopes (references : List ArtifactRef) :
    List Bytes → List (ArtifactRef × Bytes) → Except Failure (List (ArtifactRef × Bytes))
  | [], delivered => .ok delivered
  | envelope :: envelopes, delivered =>
      match envelopeRef envelope with
      | none => .error (.illegitimate .binding)
      | some reference =>
          if reference ∉ references ∨ reference ∈ delivered.map Prod.fst then
            .error (.illegitimate .binding)
          else matchEnvelopes references envelopes (delivered ++ [(reference, envelope)])

/-- `decode_artifact_pack_inner`. -/
def decodeArtifactPackInner (descriptor : Descriptor) (bytes : Bytes) (requireComplete : Bool) :
    Except Failure (List Bytes) := do
  if MAX_BODY_BYTES < bytes.length then throw (.illegitimate .binding)
  match bytes.data with
  | version :: hi :: lo :: remaining =>
      if version ≠ ARTIFACT_PACK_VERSION then throw (.illegitimate .binding)
      let count := hi.toNat * 256 + lo.toNat
      let expected := descriptor.artifactRefs.length
      if expected < count ∨ (requireComplete ∧ count ≠ expected) then
        throw (.illegitimate .binding)
      let (artifacts, remaining) ← readEnvelopes count remaining
      if ¬ remaining.isEmpty then throw (.illegitimate .binding)
      let delivered ← matchEnvelopes descriptor.artifactRefs artifacts []
      if requireComplete ∧ ¬ descriptor.artifactRefs.all (· ∈ delivered.map Prod.fst) then
        throw (.illegitimate .binding)
      return descriptor.artifactRefs.eraseDups.filterMap fun reference =>
        (delivered.find? fun entry => entry.1 = reference).map Prod.snd
  | _ => throw (.illegitimate .binding)

/-- `decode_artifact_pack`: the complete signed closure. -/
def decodeArtifactPack (descriptor : Descriptor) (bytes : Bytes) : Except Failure (List Bytes) :=
  decodeArtifactPackInner descriptor bytes true

/-- `decode_artifact_delivery_pack`: any part of the closure. -/
def decodeArtifactDeliveryPack (descriptor : Descriptor) (bytes : Bytes) :
    Except Failure (List Bytes) :=
  decodeArtifactPackInner descriptor bytes false

end Decode

end Lait.Replica
