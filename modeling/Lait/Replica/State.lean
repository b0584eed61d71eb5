import Lait.Replica.Store
import Lait.Replica.Protected

/-!
# The Replica

`Replica` is the state of one durable local materialization: the engine, the
record of every Body, what those records and the content catalog declare, the
catalogs and the store they are sealed in, and the flags that make it refuse.

An operation of the Replica is a function to the state it leaves and what it
answers; a failed one still leaves a state.  What it draws from outside, nonces,
seeds, worker results and the medium's answer, comes in an `Ambient`.

One field has no counterpart in the source: `signed` lists every manifest root
the Replica has asked its signer to sign, the newest first.
-/

namespace Lait

namespace Replica

/-- Every wire encoding the Replica reads or writes. -/
class Codecs where
  core : Postcard Core
  preimage : Postcard (Core × Bytes)
  transaction : Postcard Transaction
  authorizationReceipt : Postcard Demand.AuthorizationReceipt
  descriptor : Postcard Descriptor
  artifact : Postcard Artifact
  material : Postcard Material
  contentDescriptor : Postcard ContentDescriptor
  manifestEntry : Postcard ManifestEntry
  rootPreimage : Postcard (ℕ × RootPreimage)
  manifestRoot : Postcard ManifestRoot
  indexNode : Postcard IndexNode
  indexedBody : Postcard IndexedBody
  indexedReceipt : Postcard IndexedReceipt
  indexedGeneration : Postcard IndexedGeneration
  indexedOwnership : Postcard IndexedOwnership
  generationDelta : Postcard GenerationDelta

attribute [reducible, instance] Codecs.core Codecs.preimage Codecs.transaction Codecs.authorizationReceipt
  Codecs.descriptor Codecs.artifact Codecs.material Codecs.contentDescriptor Codecs.manifestEntry
  Codecs.rootPreimage Codecs.manifestRoot Codecs.indexNode Codecs.indexedBody
  Codecs.indexedReceipt Codecs.indexedGeneration Codecs.indexedOwnership Codecs.generationDelta

/-! ## Receipts -/

/-- The maximum application effect. -/
def MAX_EFFECT_BYTES : ℕ := 1024 * 1024
/-- The maximum encoded receipt. -/
def MAX_RECEIPT_OBJECT_BYTES : ℕ := 4 * 1024 * 1024

/-- The durable answer to one idempotent request. -/
structure RequestReceipt where
  version : ℕ
  space : SpaceId
  world : WorldId
  device : Text
  request : Bytes
  payloadHash : Bytes
  effect : Bytes
  bodies : List BodyKey
  frontier : ReplicaFrontier
  manifestRoot : Bytes
  implementationDigest : Bytes
  extractorSchemaDigest : Bytes
  transaction : Bytes
  deriving DecidableEq

/-- The encodings receipts add. -/
class ReceiptCodecs where
  receipt : Postcard RequestReceipt
  /-- The scope tuple: space, World, device, request. -/
  scope : Postcard (SpaceId × WorldId × Text × Bytes)

attribute [reducible, instance] ReceiptCodecs.receipt ReceiptCodecs.scope

/-- The idempotency scope of a request. -/
def scopeKey [ReceiptCodecs] (space : SpaceId) (world : WorldId) (device : Text)
    (request : Bytes) : Bytes :=
  Postcard.toStdvec (space, world, device, request)

/-- The catalog key of a receipt scope. -/
def receiptIndexKey [Crypto] (scope : Bytes) : Bytes :=
  Crypto.blake3 (Bytes.join [Bytes.ofString "lait/replica/receipt-scope/1", scope])

namespace RequestReceipt

variable [ReceiptCodecs]

def encode (receipt : RequestReceipt) : Bytes := Postcard.toStdvec receipt

/-- The scope a receipt answers. -/
def scopeKey (receipt : RequestReceipt) : Bytes :=
  Lait.Replica.scopeKey receipt.space receipt.world receipt.device receipt.request

/-- `decode_canonical`. -/
def decodeCanonical (bytes : Bytes) : Option RequestReceipt :=
  match Postcard.fromBytes (α := RequestReceipt) bytes with
  | some receipt =>
      if receipt.encode ≠ bytes then none
      else if receipt.version ≠ 2 then none
      else if MAX_EFFECT_BYTES < receipt.effect.length then none
      else some receipt
  | none => none

end RequestReceipt

/-- `validate_receipt_for_storage`: the bytes to store. -/
def validateReceiptForStorage [ReceiptCodecs] (receipt : RequestReceipt) :
    Except Failure Bytes := do
  let bytes := receipt.encode
  if receipt.version ≠ 2 then throw (.integrity .encoding)
  if MAX_EFFECT_BYTES < receipt.effect.length then throw .effectTooLarge
  if MAX_DESCRIPTORS < receipt.bodies.length ∨ MAX_RECEIPT_OBJECT_BYTES < bytes.length then
    throw .opLimit
  if receipt.bodies.any fun body => body.world ≠ receipt.world then
    throw (.illegitimate .binding)
  return bytes

/-- `validate_receipt_material`: a stored receipt read back for a scope. -/
def validateReceiptMaterial [ReceiptCodecs] (scope bytes : Bytes) :
    Except Failure RequestReceipt := do
  let some receipt := RequestReceipt.decodeCanonical bytes | throw (.integrity .encoding)
  if receipt.scopeKey ≠ scope ∨ MAX_DESCRIPTORS < receipt.bodies.length
      ∨ receipt.bodies.any (fun body => body.world ≠ receipt.world)
      ∨ MAX_RECEIPT_OBJECT_BYTES < bytes.length then
    throw (.integrity .encoding)
  return receipt

/-- The maximum receipts kept hot, and the bytes they may take. -/
def HOT_RECEIPT_CACHE : ℕ := 256
def HOT_RECEIPT_CACHE_BYTES : ℕ := 16 * 1024 * 1024

/-- The receipts kept hot, least recently used first in `order`. -/
structure ReceiptCache where
  entries : BTreeMap Bytes RequestReceipt
  order : List Bytes

/-- The allocator's view of a cache, which counts spare capacity. -/
class ReceiptMemory where
  retainedBytes : ReceiptCache → ℕ

namespace ReceiptCache

def empty : ReceiptCache := ⟨∅, []⟩

/-- Read a receipt, and make it the most recently used. -/
def get (cache : ReceiptCache) (scope : Bytes) : ReceiptCache × Option RequestReceipt :=
  match cache.entries[scope]? with
  | none => (cache, none)
  | some receipt => ({ cache with order := cache.order.erase scope ++ [scope] }, some receipt)

/-- Drop the least recently used receipts until the cache fits; `fuel` is the
length of the queue. -/
def evict [ReceiptMemory] : ℕ → ReceiptCache → ReceiptCache
  | 0, cache => cache
  | fuel + 1, cache =>
      if HOT_RECEIPT_CACHE < cache.order.length
          ∨ HOT_RECEIPT_CACHE_BYTES < ReceiptMemory.retainedBytes cache then
        match cache.order with
        | [] => cache
        | expired :: order => evict fuel ⟨cache.entries.erase expired, order⟩
      else cache

/-- Keep a receipt hot. -/
def insert [ReceiptMemory] (cache : ReceiptCache) (scope : Bytes) (receipt : RequestReceipt) :
    ReceiptCache :=
  let order := cache.order.erase scope ++ [scope]
  evict order.length ⟨cache.entries.insert scope receipt, order⟩

end ReceiptCache

/-! ## Attribution -/

/-- Whom a durable publication is signed for. -/
structure CommitContext where
  space : SpaceId
  signer : Signer
  authorityFrontier : AuthorityFrontier

/-- The schemas locally interpreted: encoding and mutation model by
`(world, schema, version)`. -/
abbrev SupportedSchemas := BTreeMap SourceKey (EncodingId × ℕ)

/-- `lookup`. -/
def SupportedSchemas.lookup (supported : SupportedSchemas) (world : WorldId) (schema : SchemaId)
    (version : ℕ) : Option (EncodingId × ℕ) :=
  supported[(toLex (world, toLex (schema, version)) : SourceKey)]?

/-! ## State -/

/-- One retained opaque head: transaction id, pack, signed transaction bytes. -/
abbrev RetainedHead := Bytes × Bytes × Bytes

/-- A detached checkpoint: the material it is anchored to, and what its worker
produces. -/
structure PreparedCheckpoint where
  base : Material
  result : Option (ArtifactRef × Bytes)

/-- What one operation draws from outside the Replica. -/
structure Ambient where
  /-- The sealing nonce drawn for a Body, if the entropy source answers. -/
  nonce : BodyKey → Option Bytes
  /-- The chain seed drawn for a local commit, if the entropy source answers. -/
  chainSeed : Option Bytes
  /-- Whether a Body's checkpoint worker has finished. -/
  ready : BodyKey → Bool
  /-- Whether the checkpoint executor has room for a Body, and the nonce its
  worker seals under. -/
  permit : BodyKey → Option Bytes
  /-- What the medium does with the durable commit. -/
  outcome : CommitOutcome

end Replica

open Replica in
/-- The durable local materialization, over a Body engine. -/
structure Replica [Loro] where
  fabric : Engine
  frontier : ReplicaFrontier
  durable : Option Store
  poisoned : Bool
  /-- A detached preparation could not be rolled back. -/
  rollbackPoisoned : Bool
  /-- One detached preparation is outstanding. -/
  preparedInFlight : Bool
  keys : Option BodyKeySource
  space : Option SpaceId
  supported : SupportedSchemas
  quota : QuotaConfig
  bodies : BTreeMap BodyKey BodyRecord
  /-- The receipts of a non-durable Replica. -/
  receipts : BTreeMap Bytes RequestReceipt
  /-- The cache every reader of this Replica shares. -/
  receiptCache : ReceiptCache
  receiptCount : ℕ
  receiptMaterialBytes : ℕ
  catalogs : Catalogs
  /-- Declared content references per Body. -/
  declaredContent : BTreeMap BodyKey (List Bytes)
  /-- Live declarations naming each content. -/
  declaredContentCounts : BTreeMap Bytes ℕ
  /-- The Worlds declaring each content, and how many of their Bodies do. -/
  declaredContentWorlds : BTreeMap Bytes (BTreeMap WorldId ℕ)
  /-- Content held for a Body still being assembled, and when the hold lapses. -/
  pendingContent : BTreeMap Bytes ℕ
  generationFootprint : GenerationFootprint
  manifestRootObject : Option Object
  /-- Opaque material, and all material of a non-durable Replica. -/
  rawMaterial : BTreeMap BodyKey (List RetainedHead)
  checkpointJobs : BTreeMap BodyKey PreparedCheckpoint
  /-- Every manifest root put to the signer, newest first. -/
  signed : List ManifestRoot

namespace Replica

/-- Domain separator for deriving an engine key from a Body key. -/
def BODY_KEY_DOMAIN : Bytes := Bytes.ofString "lait/fabric-key/1"

/-- `fabric_key`. -/
def fabricKey [Crypto] (key : BodyKey) : Bytes :=
  Crypto.blake3 (Bytes.join [BODY_KEY_DOMAIN, key.world, ⟨[0]⟩, key.body])

variable [Loro]

/-- A scratch Replica under a minted writer id: no store, no keys. -/
def new (writer : ℕ) : Replica where
  fabric := Engine.new writer
  frontier := ReplicaFrontier.EMPTY
  durable := none
  poisoned := false
  rollbackPoisoned := false
  preparedInFlight := false
  keys := none
  space := none
  supported := ∅
  quota := QuotaConfig.default
  bodies := ∅
  receipts := ∅
  receiptCache := ReceiptCache.empty
  receiptCount := 0
  receiptMaterialBytes := 0
  catalogs := Catalogs.empty
  declaredContent := ∅
  declaredContentCounts := ∅
  declaredContentWorlds := ∅
  pendingContent := ∅
  generationFootprint := GenerationFootprint.zero
  manifestRootObject := none
  rawMaterial := ∅
  checkpointJobs := ∅
  signed := []

/-- `manifest_root`: the published root's address, or the zero root. -/
def manifestRoot (self : Replica) : Bytes :=
  (self.manifestRootObject.map Object.hash).getD NO_PARENT_ROOT

/-- `current_manifest_root`. -/
def currentManifestRoot (self : Replica) : Bytes :=
  if self.manifestRoot = NO_PARENT_ROOT then self.frontier.root else self.manifestRoot

/-- Whether the mutation lane is free. -/
def mutationAvailable (self : Replica) : Except Failure Unit :=
  if self.poisoned ∨ self.rollbackPoisoned then .error .poisoned
  else if self.preparedInFlight then .error .mutationBusy
  else .ok ()

/-- A committed content descriptor. -/
def contentDescriptor [Crypto] (self : Replica) (content : Bytes) : Option ContentDescriptor :=
  if self.durable.isSome then self.catalogs.contentIndex[contentIndexKey content]? else none

/-- The content some live Body declares. -/
def reachableContent (self : Replica) : List Bytes :=
  (self.declaredContent.toList.filter fun entry => self.bodies.contains entry.1).flatMap Prod.snd

/-- The content this Replica must not collect at an instant. -/
def retainedContent (self : Replica) (now : ℕ) : List Bytes :=
  self.reachableContent ++
    (self.pendingContent.toList.filter fun entry => now < entry.2).map Prod.fst

/-- `usage`: material bytes and Body count.  A transaction several heads share
counts once. -/
def usage [ReceiptCodecs] (self : Replica) : ℕ × ℕ :=
  let heads := (BTreeMap.valuesOf self.bodies).flatMap BodyRecord.heads
  let txSeen := heads.foldl (fun (seen : BTreeMap Bytes ℕ) head =>
    if seen.contains head.tx then seen else seen.insert head.tx head.txLen) ∅
  let bytes := (heads.map BodyHead.artifactBytes).foldl saturatingAdd self.receiptMaterialBytes
  let bytes := (BTreeMap.valuesOf txSeen).foldl saturatingAdd bytes
  let receipts :=
    if self.durable.isNone then (BTreeMap.valuesOf self.receipts).map fun r => r.encode.length
    else []
  (receipts.foldl saturatingAdd bytes, self.bodies.size)

/-- `opaque_usage`: the retained bytes and Bodies of one unknown World. -/
def opaqueUsage (self : Replica) (world : WorldId) : ℕ × ℕ :=
  let held := self.bodies.toList.filter fun entry =>
    ¬ entry.2.interpreted && entry.1.world = world
  (saturatingSum (held.map fun entry => entry.2.protectedTotal), held.length)

/-! ## Declarations -/

/-- Drop one declaration of a content. -/
def releaseContent (world : WorldId) (self : Replica) (content : Bytes) : Replica :=
  let counts :=
    match self.declaredContentCounts[content]? with
    | some count =>
        if 1 < count then self.declaredContentCounts.insert content (count - 1)
        else self.declaredContentCounts.erase content
    | none => self.declaredContentCounts
  let worlds :=
    match self.declaredContentWorlds[content]? with
    | some worlds =>
        let worlds :=
          match worlds[world]? with
          | some declaring =>
              if 1 < declaring then worlds.insert world (declaring - 1) else worlds.erase world
          | none => worlds
        if worlds.isEmpty then self.declaredContentWorlds.erase content
        else self.declaredContentWorlds.insert content worlds
    | none => self.declaredContentWorlds
  { self with declaredContentCounts := counts, declaredContentWorlds := worlds }

/-- Add one declaration of a content. -/
def declareContentRef (world : WorldId) (self : Replica) (content : Bytes) : Replica :=
  let worlds := (self.declaredContentWorlds[content]?).getD ∅
  { self with
    declaredContentCounts := self.declaredContentCounts.insert content
      (saturatingAdd ((self.declaredContentCounts[content]?).getD 0) 1)
    declaredContentWorlds := self.declaredContentWorlds.insert content
      (worlds.insert world (saturatingAdd ((worlds[world]?).getD 0) 1)) }

/-- Drop everything a Body declares. -/
def withdrawDeclaredContent (self : Replica) (key : BodyKey) : Replica :=
  match self.declaredContent[key]? with
  | some prior =>
      prior.foldl (releaseContent key.world)
        { self with declaredContent := self.declaredContent.erase key }
  | none => self

/-- `replace_declared_content`. -/
def replaceDeclaredContent (self : Replica) (key : BodyKey) (refs : List Bytes) : Replica :=
  let self := self.withdrawDeclaredContent key
  if refs.isEmpty then self
  else
    let self := refs.foldl (declareContentRef key.world) self
    { self with declaredContent := self.declaredContent.insert key refs }

end Replica

end Lait
