import Lait.Ids
import Lait.Demand
import Lait.Replica.Causal

/-!
# Signed Body transactions

A `Transaction` is one author's signed write to one or more Bodies: for each of
them a `Descriptor` naming the Body, its schema binding, the chain position the
author wrote at and the material that results.

* `Transaction.signWith` — what an author builds.  It checks the actor and the
  space id and nothing else.
* `Transaction.verify` — what a receiver accepts: structure, bounds, the binding
  of the authorization receipt to the core, and the signature.
* `Transaction.verifyAuthorized` — `verify`, then the authority plane's own
  answer, an `AuthoritySource`.
-/

namespace Lait

namespace Bytes

/-- `str::strip_prefix`. -/
def stripPrefix (pre s : Text) : Option Text :=
  if pre.data.isPrefixOf s.data then some ⟨s.data.drop pre.length⟩ else none

/-- `u8::to_ascii_uppercase`. -/
def toAsciiUppercase (b : UInt8) : UInt8 := if 97 ≤ b && b ≤ 122 then b - 32 else b

end Bytes

/-- `ActorId::parse`: the prefix and 64 hexadecimal digits, either case. -/
def ActorId.parse (s : Text) : Option ActorId :=
  match Bytes.stripPrefix ActorId.PREFIX (Bytes.trim s) with
  | some rest =>
      if rest.length = 64 ∧ rest.data.all Bytes.isAsciiHexdigit then
        some (ActorId.PREFIX ++ ⟨rest.data.map Bytes.toAsciiLowercase⟩)
      else none
  | none => none

/-- The alphabet of a ULID. -/
def CROCKFORD : Bytes := Bytes.ofString "0123456789ABCDEFGHIJKLMNOPQRSTUV"

/-- `valid_ulid`. -/
def validUlid (s : Text) : Bool :=
  s.length = 26 && s.data.all fun b => CROCKFORD.data.contains (Bytes.toAsciiUppercase b)

/-- `SpaceId::parse`: `ws_` and a ULID. -/
def SpaceId.parse (s : Text) : Option SpaceId :=
  match Bytes.stripPrefix (Bytes.ofString "ws_") s with
  | some rest => if validUlid rest then some s else none
  | none => none

namespace Replica

/-- A reverse-domain World identifier. -/
abbrev WorldId := Text

/-- A Body's sixteen bytes. -/
abbrev BodyId := Bytes

abbrev SchemaId := Text
abbrev EncodingId := Text

/-- The address of a Body: its World and its id, ordered in that order. -/
structure BodyKey where
  world : WorldId
  body : BodyId
  deriving DecidableEq

/-- The derived order's key. -/
def BodyKey.pair (k : BodyKey) : Bytes ×ₗ Bytes := toLex (k.world, k.body)

theorem BodyKey.pair_injective : Function.Injective BodyKey.pair := by
  intro a b h
  obtain ⟨hworld, hbody⟩ := Prod.mk.inj (toLex.injective h)
  cases a
  cases b
  simp_all

instance : LinearOrder BodyKey := LinearOrder.lift' BodyKey.pair BodyKey.pair_injective

/-- The declared mutation-model tags. -/
def MUTATION_ATOMIC : ℕ := 1
def MUTATION_COLLABORATIVE : ℕ := 2
/-- A create-once atomic value whose Body id is derived from its bytes. -/
def MUTATION_IMMUTABLE_ATOMIC : ℕ := 3

/-- The two tags of a Body that holds one value. -/
def isAtomicModel (model : ℕ) : Bool :=
  model = MUTATION_ATOMIC || model = MUTATION_IMMUTABLE_ATOMIC

def BODY_TRANSACTION_DOMAIN : Bytes := Bytes.ofString "lait/body-transaction/3"
def CORE_DIGEST_CONTEXT : Text := Bytes.ofString "lait.body-transaction-core.v2"
def TRANSACTION_ID_CONTEXT : Text := Bytes.ofString "lait.body-transaction-id.v2"
def SIG_ALG_ED25519 : ℕ := 1
def MAX_DESCRIPTORS : ℕ := 4096
def MAX_TRANSACTION : ℕ := 1024 * 1024
def SPACE_ID_LEN : ℕ := 29

/-- The zero parent root, for a request authored against no manifest. -/
def NO_PARENT_ROOT : Bytes := ⟨List.replicate 32 0⟩

/-- What one transaction says about one Body. -/
structure Descriptor where
  world : WorldId
  body : BodyId
  schema : SchemaId
  schemaVersion : ℕ
  encoding : EncodingId
  mutationModel : ℕ
  /-- The chain position the author wrote at. -/
  baseFrontier : ReplicaFrontier
  /-- The chain position the write leaves. -/
  resultingFrontier : ReplicaFrontier
  material : Material
  deriving DecidableEq

namespace Descriptor

def key (d : Descriptor) : BodyKey := ⟨d.world, d.body⟩

def artifactRefs (d : Descriptor) : List ArtifactRef := d.material.artifactRefs

end Descriptor

/-- The signed content of a transaction. -/
structure Core where
  version : ℕ
  space : Bytes
  parentManifestRoot : Bytes
  replicaFrontier : ReplicaFrontier
  authorityFrontier : AuthorityFrontier
  actor : Text
  operation : Bytes
  signer : Bytes
  intentDigest : Bytes
  operationsDigest : Bytes
  demand : Bytes
  descriptors : List Descriptor
  deriving DecidableEq

structure Transaction where
  core : Core
  authorizationReceipt : Bytes
  signatureAlgorithm : ℕ
  signature : Bytes
  deriving DecidableEq

/-- The receipt fields `verify` binds to the core. -/
inductive ReceiptField
  | encoding
  | space
  | actor
  | device
  | authorityFrontier
  | parentManifest
  | intent
  | operations
  | demand
  | core
  deriving DecidableEq

/-- Why a transaction was refused. -/
inductive TransactionError
  | unsupportedVersion
  | unsupportedSignatureAlgorithm
  | nonCanonical
  | badSpaceId
  | badActorId
  | badDescriptorCount
  | unsortedOrDuplicate
  | badDemand
  | badMaterial
  | badMutationModel
  | badBodyFrontier
  | receiptUnbound (field : ReceiptField)
  | badSignature
  | authorityUnverified
  deriving DecidableEq

/-- Why the authority plane refused to authorize. -/
inductive Refusal
  | denied (reason : Text)
  | other (reason : Text)
  deriving DecidableEq

/-- A device's signing capability. -/
structure Signer where
  signerKey : Bytes
  signPreimage : Bytes → Bytes

/-- The authority plane, as a transaction is verified against it. -/
structure AuthoritySource where
  signerAuthorized : Bytes → AuthorityFrontier → Bool
  verifyTransaction : Transaction → Bool

/-- `u16` and `u32` length prefixes around a domain and a body. -/
def lengthFramed (domain body : Bytes) : Bytes :=
  Bytes.join [Bytes.be16 (min domain.length 65535), domain,
    Bytes.be32 (min body.length 4294967295), body]

/-- A space id as the signed records carry it: 29 bytes or nothing. -/
def spaceBytes (space : SpaceId) : Option Bytes :=
  if space.length = SPACE_ID_LEN then some space else none

/-- A space id read back from the bytes a signed record carries. -/
def parseSpace (bytes : Bytes) : Option SpaceId :=
  if Bytes.validUtf8 bytes.data then SpaceId.parse bytes else none

section Codec

variable [Crypto] [Postcard Core] [Postcard (Core × Bytes)] [Postcard Transaction]
  [Postcard Demand.AuthorizationReceipt]

def Core.digest (core : Core) : Bytes :=
  Crypto.deriveKey CORE_DIGEST_CONTEXT (Postcard.toStdvec core)

/-- `AuthorizationReceipt::decode`. -/
def decodeAuthorizationReceipt (bytes : Bytes) : Option Demand.AuthorizationReceipt :=
  match Postcard.fromBytes (α := Demand.AuthorizationReceipt) bytes with
  | some receipt =>
      if Postcard.toStdvec receipt ≠ bytes then none
      else if receipt.decision ≠ 1 then none
      else some receipt
  | none => none

/-- `mechanics::actor::verify_detached`. -/
def verifyDetached (publicKey preimage signature : Bytes) : Bool :=
  Crypto.verifyingKey publicKey && Crypto.verifyStrict publicKey preimage signature

/-- The inputs of a signing. -/
structure SignRequest where
  space : SpaceId
  parentManifestRoot : Bytes
  replicaFrontier : ReplicaFrontier
  authorityFrontier : AuthorityFrontier
  actor : Text
  operation : Bytes
  intentDigest : Bytes
  operationsDigest : Bytes
  demand : Bytes
  descriptors : List Descriptor

namespace Transaction

def encode (tx : Transaction) : Bytes := Postcard.toStdvec tx

/-- The full signed-envelope digest. -/
def id (tx : Transaction) : Bytes := Crypto.deriveKey TRANSACTION_ID_CONTEXT tx.encode

def preimage (core : Core) (receipt : Bytes) : Bytes :=
  lengthFramed BODY_TRANSACTION_DOMAIN (Postcard.toStdvec (core, receipt))

/-- Build and sign a transaction.  `authorize` turns the core into the canonical
bytes of an authorization receipt, or refuses. -/
def signWith (request : SignRequest) (signer : Signer)
    (authorize : Core → Except Refusal Bytes) : Except Refusal Transaction := do
  if (ActorId.parse request.actor).isNone then
    throw (.denied (Bytes.ofString "transaction actor is not a canonical ActorId"))
  let some space := spaceBytes request.space
    | throw (.denied (Bytes.ofString "space id is not valid bytes"))
  let core : Core :=
    { version := 3
      space
      parentManifestRoot := request.parentManifestRoot
      replicaFrontier := request.replicaFrontier
      authorityFrontier := request.authorityFrontier
      actor := request.actor
      operation := request.operation
      signer := signer.signerKey
      intentDigest := request.intentDigest
      operationsDigest := request.operationsDigest
      demand := request.demand
      descriptors := request.descriptors }
  let receipt ← authorize core
  return ⟨core, receipt, SIG_ALG_ED25519, signer.signPreimage (preimage core receipt)⟩

/-- `decode_canonical`. -/
def decodeCanonical (bytes : Bytes) : Option Transaction :=
  if MAX_TRANSACTION < bytes.length then none
  else
    match Postcard.fromBytes (α := Transaction) bytes with
    | some tx => if tx.encode ≠ bytes then none else some tx
    | none => none

/-- The per-descriptor checks of `verify`. -/
def verifyDescriptor (d : Descriptor) : Except TransactionError Unit := do
  if ¬ Demand.isOk d.material.validate then throw .badMaterial
  if ¬ (isAtomicModel d.mutationModel || d.mutationModel = MUTATION_COLLABORATIVE) then
    throw .badMutationModel
  if d.resultingFrontier.transactionCount ≠ saturatingAdd d.baseFrontier.transactionCount 1 then
    throw .badBodyFrontier
  if ¬ (d.artifactRefs.map fun r => (r.hash, r.len)).Nodup then throw .badMaterial

/-- The receipt's coordinates, each against the core's. -/
def verifyReceipt (core : Core) (space : SpaceId) (demandDigest : Bytes)
    (receipt : Demand.AuthorizationReceipt) : Except TransactionError Unit := do
  if receipt.space ≠ space then throw (.receiptUnbound .space)
  if receipt.actor ≠ core.actor then throw (.receiptUnbound .actor)
  if receipt.device ≠ core.signer then throw (.receiptUnbound .device)
  if receipt.authorityFrontier ≠ core.authorityFrontier then
    throw (.receiptUnbound .authorityFrontier)
  if receipt.parentManifestRoot ≠ core.parentManifestRoot then
    throw (.receiptUnbound .parentManifest)
  if receipt.intentDigest ≠ core.intentDigest then throw (.receiptUnbound .intent)
  if receipt.effectOperationsDigest ≠ core.operationsDigest then
    throw (.receiptUnbound .operations)
  if receipt.demandDigest ≠ demandDigest then throw (.receiptUnbound .demand)
  if receipt.bodyTransactionCoreDigest ≠ core.digest then throw (.receiptUnbound .core)

/-- Structural verification: shape, order, bounds, receipt binding, signature. -/
def verify (tx : Transaction) : Except TransactionError Unit := do
  let core := tx.core
  if MAX_TRANSACTION < tx.encode.length then throw .nonCanonical
  if core.version ≠ 3 then throw .unsupportedVersion
  if (ActorId.parse core.actor).isNone then throw .badActorId
  if tx.signatureAlgorithm ≠ SIG_ALG_ED25519 then throw .unsupportedSignatureAlgorithm
  let some space := parseSpace core.space | throw .badSpaceId
  if core.descriptors.isEmpty ∨ MAX_DESCRIPTORS < core.descriptors.length then
    throw .badDescriptorCount
  if ¬ (core.descriptors.map Descriptor.key).IsChain (· < ·) then throw .unsortedOrDuplicate
  core.descriptors.forM verifyDescriptor
  let .ok demand := Demand.AuthorizationDemand.decodeCanonical core.demand | throw .badDemand
  let some receipt := decodeAuthorizationReceipt tx.authorizationReceipt
    | throw (.receiptUnbound .encoding)
  let .ok demandDigest := demand.digest | throw .badDemand
  verifyReceipt core space demandDigest receipt
  if ¬ verifyDetached core.signer (preimage core tx.authorizationReceipt) tx.signature then
    throw .badSignature

/-- `verify`, and the signer's standing at the frontier the transaction names. -/
def verifyAuthorized (tx : Transaction) (authority : AuthoritySource) :
    Except TransactionError Unit := do
  tx.verify
  if ¬ authority.verifyTransaction tx then throw .authorityUnverified

end Transaction

/-- The manifest-entry digest of a descriptor. -/
def descriptorHash [Postcard Descriptor] (d : Descriptor) : Bytes :=
  Crypto.blake3 (Postcard.toStdvec d)

/-- The commitment to a transaction's signed bytes. -/
def txCommitment (bytes : Bytes) : Bytes := Crypto.blake3 bytes

end Codec

end Replica

end Lait
