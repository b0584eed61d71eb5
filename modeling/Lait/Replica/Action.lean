import Lait.Replica.Incorporate
import Lait.Replica.Receipts

/-!
# Local actions: prepare, then finalize

A local write runs in two steps.  `prepareAction` checks the request, applies its
operations to the engine **in place**, signs the transaction and previews the
root it will publish; nothing is durable yet, and the Replica refuses further
mutations until the preparation is settled.  `finalize` publishes it, provided
the Replica is still at the parent it was prepared against; `dropPrepared` undoes
it.

A request that carries no operations publishes its receipt alone.
-/

namespace Lait.Replica

/-- One staged Body operation. -/
inductive Op [Loro] [Algebra]
  | replaceAtomic (value : Bytes)
  | create
  | tombstone
  | edit (edit : Algebra.Edit)

/-- The encoding of staged operations. -/
class OpCodec [Loro] [Algebra] where
  op : Postcard (BodyKey × Op)

attribute [reducible, instance] OpCodec.op

variable [Crypto] [Loro] [Algebra] [Aead] [Codecs] [ReceiptCodecs] [ReceiptMemory] [OpCodec]

/-- The arguments of `prepare_action`. -/
structure ActionRequest where
  ctx : CommitContext
  actor : Text
  parentManifestRoot : Bytes
  demand : Bytes
  intentDigest : Bytes
  /-- The authority plane's receipt for a built core. -/
  authorize : Core → Except Refusal Bytes
  implementationDigest : Bytes
  extractorSchemaDigest : Bytes
  world : WorldId
  device : Text
  request : Bytes
  payloadHash : Bytes
  effect : Bytes
  bodies : List BodyKey
  ops : List (BodyKey × Op)
  bindings : List (BodyKey × BodyBinding)
  contentRefs : List (BodyKey × List Bytes)

namespace ActionRequest

/-- The idempotency scope of a request. -/
def scope (req : ActionRequest) : RequestScope :=
  ⟨req.ctx.space, req.world, req.device, req.request⟩

/-- The binding a request declares for a Body; the last one counts. -/
def binding (req : ActionRequest) (key : BodyKey) : Option BodyBinding :=
  (req.bindings.reverse.find? fun entry => entry.1 = key).map Prod.snd

/-- The Bodies a request touches. -/
def touched (req : ActionRequest) : List BodyKey :=
  ManifestEntry.canonical (req.ops.map Prod.fst)

/-- The receipt of a request at a frontier and a root. -/
def receipt (req : ActionRequest) (frontier : ReplicaFrontier) (manifestRoot transaction : Bytes) :
    RequestReceipt where
  version := 2
  space := req.ctx.space
  world := req.world
  device := req.device
  request := req.request
  payloadHash := req.payloadHash
  effect := req.effect
  bodies := req.bodies
  frontier := frontier
  manifestRoot := manifestRoot
  implementationDigest := req.implementationDigest
  extractorSchemaDigest := req.extractorSchemaDigest
  transaction := transaction

end ActionRequest

/-- `[0u8; 32]`. -/
def ZERO : Bytes := ⟨List.replicate 32 0⟩

/-- One Body's sealed pack and the material it belongs to. -/
structure SealedBody where
  key : BodyKey
  pack : Bytes
  material : Material

/-- A prepared mutation's data. -/
structure PreparedMutation where
  newRecords : BTreeMap BodyKey (Option BodyRecord)
  sealed' : List SealedBody
  transaction : Option Transaction
  receipt : RequestReceipt
  nextFrontier : ReplicaFrontier
  declared : BTreeMap BodyKey (List Bytes)
  candidateRoot : Bytes
  manifestSpace : SpaceId
  manifestAuthorityFrontier : AuthorityFrontier
  manifestSigner : Bytes

/-- What a preparation holds until it is settled. -/
inductive PreparedState
  | noop (receipt : RequestReceipt)
  | mutation (fabric : Engine.Prepared) (data : PreparedMutation)

/-- A preparation, and the parent it was made against. -/
structure PreparedAction where
  parentRoot : Bytes
  parentFrontier : ReplicaFrontier
  state : PreparedState

/-- What `prepare_action` answers. -/
inductive PreparedOutcome
  | replayed (receipt : RequestReceipt)
  | prepared (action : PreparedAction)

/-! ## Checks -/

/-- Every touched Body keeps its binding, and a new one declares one. -/
def checkBindings (self : Replica) (req : ActionRequest) : Except Failure Unit :=
  if req.touched.any fun key =>
      match self.bodies[key]?, req.binding key with
      | some record, some declared => record.binding ≠ declared
      | none, none => true
      | _, _ => false then
    .error .schemaMismatch
  else .ok ()

/-- The operations on immutable Bodies: one value each, at the address it hashes
to. -/
def checkImmutable (self : Replica) (req : ActionRequest) :
    List (BodyKey × Op) → BTreeMap BodyKey Bytes → Except Failure Unit
  | [], _ => .ok ()
  | (key, op) :: ops, values => do
      let binding ← okOr .schemaMismatch
        ((req.binding key).or ((self.bodies[key]?).map BodyRecord.binding))
      if binding.mutationModel ≠ MUTATION_IMMUTABLE_ATOMIC then checkImmutable self req ops values
      else
        match op with
        | .replaceAtomic value =>
            if ¬ immutableKeyMatches key binding value then throw .immutableConflict
            if (values[key]?).any (· ≠ value) then throw .immutableConflict
            -- An opaque record waits for its revalidation.
            if (self.bodies[key]?).any (¬ ·.interpreted) then throw .immutableConflict
            checkImmutable self req ops (values.insert key value)
        | _ => throw .immutableConflict

/-- The declarations of a request: bounded, and of committed content. -/
def checkContentRefs (self : Replica) :
    List (BodyKey × List Bytes) → BTreeMap BodyKey (List Bytes) →
    Except Failure (BTreeMap BodyKey (List Bytes))
  | [], declared => .ok declared
  | (key, refs) :: rest, declared => do
      if MAX_CONTENT_REFS_PER_BODY < refs.length then throw .quotaExceeded
      if refs.any fun content => (self.contentDescriptor content).isNone then
        throw (.illegitimate .binding)
      checkContentRefs self rest (declared.insert key (ManifestEntry.canonical refs))

/-! ## The engine -/

/-- `generation_artifact`: one stored artifact, opened. -/
def generationArtifact (self : Replica) (reference : ArtifactRef) : Except Failure Artifact := do
  let store ← okOr .poisoned self.durable
  let envelope ← okOr
    (.integrityCause .corruptMaterial (Bytes.ofString "read generation artifact"))
    (store.readObject (artifactObject reference))
  let epoch ← okOr (.integrity .corruptMaterial) (bodyEpochId envelope)
  if epoch ≠ reference.epoch then throw (.integrity .corruptMaterial)
  let key ← okOr (.integrity .missingMaterial) (self.keys.bind fun keys => keys.openingKey epoch)
  okOr (.integrity .corruptMaterial) (openArtifact key envelope)

/-- Import the artifacts of a material, refusing what is left pending. -/
def importMaterial (self : Replica) (key : BodyKey) :
    List ArtifactRef → Engine → Except Failure Engine
  | [], e => .ok e
  | reference :: references, e => do
      let artifact ← self.generationArtifact reference
      match e.importArtifact (fabricKey key) artifact with
      | (_, .error _) => throw (.integrity .corruptMaterial)
      | (e, .ok status) =>
          if status.pending then throw (.integrity .corruptMaterial)
          importMaterial self key references e

/-- `body_from_causal_material`. -/
def bodyFromCausalMaterial (self : Replica) (key : BodyKey) (material : Material) :
    Except Failure BodySnapshot := do
  let material ← validMaterial material
  let e ← self.importMaterial key material.artifactRefs (Engine.new 0)
  let .ok version := e.version (fabricKey key) | throw (.integrity .corruptMaterial)
  if version ≠ material.version then throw (.integrity .corruptMaterial)
  match e.bodySnapshot (fabricKey key) with
  | .error _ =>
      throw (.integrityCause .encoding
        (Bytes.ofString "project body from durable causal material"))
  | .ok none => throw (.integrity .missingMaterial)
  | .ok (some snapshot) => return snapshot

/-- Whether the engine can freeze an image of a Body. -/
def holdsImage (e : Engine) (key : Bytes) : Bool :=
  match e.bodySnapshot key with
  | .ok (some _) => true
  | _ => false

/-- The collaborative Bodies whose engine image is not their record's material. -/
def neededInflations (self : Replica) :
    List (BodyKey × Op) → BTreeMap BodyKey Material → Except Failure (BTreeMap BodyKey Material)
  | [], needed => .ok needed
  | (key, _) :: ops, needed =>
      match self.bodies[key]? with
      | none => neededInflations self ops needed
      | some record =>
          if ¬ record.interpreted ∨ record.binding.mutationModel ≠ MUTATION_COLLABORATIVE then
            neededInflations self ops needed
          else if self.durable.isNone ∧ holdsImage self.fabric (fabricKey key) then
            neededInflations self ops needed
          else
            match self.fabric.version (fabricKey key), record.causal with
            | .ok version, some material =>
                if material.version = version then neededInflations self ops needed
                else neededInflations self ops
                  (if needed.contains key then needed else needed.insert key material)
            | .error _, some material =>
                neededInflations self ops
                  (if needed.contains key then needed else needed.insert key material)
            | _, none => .error (.integrity .missingMaterial)

/-- Inflate cold Bodies from their stored material. -/
def inflateAll : List (BodyKey × Material) → Replica → Replica × Except Failure Unit
  | [], self => (self, .ok ())
  | (key, material) :: needed, self =>
      match self.bodyFromCausalMaterial key material with
      | .error failure => (self, .error failure)
      | .ok snapshot =>
          if snapshot.isAtomic ∨ snapshot.version ≠ .ok material.version then
            (self, .error (.integrity .corruptMaterial))
          else
            match self.fabric.importVerifiedSnapshot (fabricKey key) snapshot with
            | (fabric, .error _) => ({ self with fabric }, .error (.integrity .corruptMaterial))
            | (fabric, .ok status) =>
                if status.pending then
                  ({ self with fabric }, .error (.integrity .corruptMaterial))
                else inflateAll needed { self with fabric }

/-- `translate`: one operation as the engine takes it. -/
def translate (key : Bytes) : Op → Except Failure Engine.FabricOp
  | .replaceAtomic value => .ok (.putCanonical key value)
  | .create => .ok (.createBody key)
  | .tombstone => .ok (.remove key)
  | .edit edit =>
      if ¬ Algebra.validPath edit then .error .pathInvalid
      else if ¬ Algebra.withinLimits edit then .error .opLimit
      else .ok (.edit key edit)

/-- `prepare_ops`: inflate what is cold, then apply the operations in place. -/
def prepareOps (self : Replica) (ops : List (BodyKey × Op)) : Replica × Except Failure Engine.Prepared :=
  match self.neededInflations ops ∅ with
  | .error failure => (self, .error failure)
  | .ok needed =>
      match inflateAll needed.toList self with
      | (self, .error failure) => (self, .error failure)
      | (self, .ok ()) =>
          match ops.mapM fun entry => translate (fabricKey entry.1) entry.2 with
          | .error failure => (self, .error failure)
          | .ok fabricOps =>
              match self.fabric.prepare fabricOps with
              | (fabric, .ok prepared) => ({ self with fabric }, .ok prepared)
              | (fabric, .error .unsupported) => ({ self with fabric }, .error .unsupportedOp)
              | (fabric, .error .typeConflict) => ({ self with fabric }, .error .typeConflict)
              | (fabric, .error .invalid) => ({ self with fabric }, .error .invalidOp)
              | (fabric, .error .outcomeUnknown) =>
                  ({ self with fabric, poisoned := true }, .error .outcomeUnknown)

/-- Whether the engine holds a Body it can export: `export_body(key).is_some()`. -/
def exportsBody (e : Engine) (key : Bytes) : Bool :=
  match e.bodies[key]? with
  | none => false
  | some (.collab doc) => (Loro.exportSnapshot doc).isSome
  | some _ => true

/-! ## Assembling the transaction -/

/-- The record of a locally written Body, before its transaction is signed. -/
def writtenRecord (prior : Option BodyRecord) (binding : BodyBinding) (seed : Bytes) :
    BodyRecord where
  binding := binding
  chain := advanceChain ((prior.map BodyRecord.chain).getD ReplicaFrontier.EMPTY) seed
  heads := [{ tx := ZERO
              descriptorHash := ZERO
              txCommitment := ZERO
              artifacts := some []
              transaction := none
              artifactBytes := 0
              txLen := 0 }]
  interpreted := true
  causal := prior.bind BodyRecord.causal

/-- What assembling the records gathers. -/
structure Assembly where
  newRecords : BTreeMap BodyKey (Option BodyRecord)
  sealed' : List SealedBody
  newArtifacts : List Bytes

/-- Assemble one touched Body. -/
def assembleOne (self : Replica) (amb : Ambient) (req : ActionRequest) (seed : Bytes)
    (sealing : Bool) (acc : Assembly) (key : BodyKey) : Replica × Except Failure Assembly :=
  if ¬ exportsBody self.fabric (fabricKey key) then
    (self, .ok { acc with newRecords := acc.newRecords.insert key none })
  else
    let prior := self.bodies[key]?
    match (req.binding key).or (prior.map BodyRecord.binding) with
    | none => (self, .error .schemaMismatch)
    | some binding =>
        let record := writtenRecord prior binding seed
        if ¬ sealing then
          (self, .ok { acc with newRecords := acc.newRecords.insert key (some record) })
        else
          match self.nextCausalMaterial amb key record (prior.bind BodyRecord.causal)
              acc.newArtifacts with
          | (self, .error failure) => (self, .error failure)
          | (self, .ok (material, artifacts)) =>
              match encodeArtifactPack artifacts with
              | .error failure => (self, .error failure)
              | .ok pack =>
                  (self, .ok
                    { newRecords := acc.newRecords.insert key
                        (some { record with causal := some material })
                      sealed' := acc.sealed' ++ [⟨key, pack, material⟩]
                      newArtifacts := acc.newArtifacts ++ artifacts })

/-- Assemble every touched Body. -/
def assembleAll (amb : Ambient) (req : ActionRequest) (seed : Bytes) (sealing : Bool) :
    List BodyKey → Replica → Assembly → Replica × Except Failure Assembly
  | [], self, acc => (self, .ok acc)
  | key :: keys, self, acc =>
      match self.assembleOne amb req seed sealing acc key with
      | (self, .error failure) => (self, .error failure)
      | (self, .ok acc) => assembleAll amb req seed sealing keys self acc

/-- The descriptor of one sealed Body. -/
def sealedDescriptor (self : Replica) (assembly : Assembly) (body : SealedBody) :
    Except Failure Descriptor :=
  match assembly.newRecords[body.key]? with
  | some (some record) =>
      .ok
        { world := body.key.world
          body := body.key.body
          schema := record.binding.schema
          schemaVersion := record.binding.schemaVersion
          encoding := record.binding.encoding
          mutationModel := record.binding.mutationModel
          baseFrontier :=
            ((self.bodies[body.key]?).map BodyRecord.chain).getD ReplicaFrontier.EMPTY
          resultingFrontier := record.chain
          material := body.material }
  | _ => .error (.integrity .missingMaterial)

/-- `operations_digest`. -/
def operationsDigest (ops : List (BodyKey × Op)) : Bytes :=
  let items := Bytes.sort (ops.map Postcard.toStdvec)
  Crypto.blake3 (Bytes.join (Bytes.ofString "lait/operations-digest/1" ::
    Bytes.be64 items.length :: items.flatMap fun item => [Bytes.be64 item.length, item]))

/-- Sign the transaction of the sealed Bodies. -/
def signTransaction (self : Replica) (req : ActionRequest) (assembly : Assembly)
    (nextFrontier : ReplicaFrontier) : Except Failure Transaction := do
  let descriptors ← assembly.sealed'.mapM (self.sealedDescriptor assembly)
  match Transaction.signWith
      { space := req.ctx.space
        parentManifestRoot := req.parentManifestRoot
        replicaFrontier := nextFrontier
        authorityFrontier := req.ctx.authorityFrontier
        actor := req.actor
        operation := req.request
        intentDigest := req.intentDigest
        operationsDigest := operationsDigest req.ops
        demand := req.demand
        descriptors := descriptors.insertionSort fun d d' => d.key ≤ d'.key }
      req.ctx.signer req.authorize with
  | .error refusal => throw (.unauthorized refusal)
  | .ok tx =>
      if MAX_TRANSACTION < tx.encode.length then throw .opLimit
      return tx

/-- Set the transaction id of every assembled head. -/
def stampIds (txId : Bytes) (records : BTreeMap BodyKey (Option BodyRecord)) :
    BTreeMap BodyKey (Option BodyRecord) :=
  records.map fun _ record => record.map fun record =>
    { record with heads := record.heads.modifyHead fun head => { head with tx := txId } }

/-- Fill in one locally sealed Body's head. -/
def populateOne (tx : Transaction) (durable : Bool)
    (records : BTreeMap BodyKey (Option BodyRecord)) (body : SealedBody) :
    Except Failure (BTreeMap BodyKey (Option BodyRecord)) := do
  let descriptor ← okOr (.integrity .missingMaterial) (descriptorFor tx body.key)
  let _ ← decodeArtifactDeliveryPack descriptor body.pack
  match records[body.key]? with
  | some (some record) =>
      let _ ← record.head
      return records.insert body.key (some { record with
        heads := record.heads.modifyHead fun head =>
          { head with
            artifacts := none
            transaction := if durable then some (objectRef tx.encode) else none
            txCommitment := txCommitment tx.encode
            artifactBytes := saturatingSum (descriptor.artifactRefs.map ArtifactRef.len)
            txLen := tx.encode.length
            descriptorHash := descriptorHash descriptor } })
  | _ => throw (.integrity .missingMaterial)

/-- `populate_local_record_refs`. -/
def populateLocalRecordRefs (tx : Transaction) (durable : Bool) (bodies : List SealedBody)
    (records : BTreeMap BodyKey (Option BodyRecord)) :
    Except Failure (BTreeMap BodyKey (Option BodyRecord)) :=
  bodies.foldlM (populateOne tx durable) records

/-- The bytes held after the sealed Bodies replace their records. -/
def projectSealed (self : Replica) (records : BTreeMap BodyKey (Option BodyRecord))
    (projected : ℕ) (body : SealedBody) : Except Failure ℕ :=
  match records[body.key]? with
  | some (some record) =>
      let artifactLen := record.protectedTotal
      if self.quota.maxBodyBytes < artifactLen ∨ self.quota.maxBodyBytes < body.pack.length then
        .error .quotaExceeded
      else
        .ok (saturatingAdd projected artifactLen -
          ((self.bodies[body.key]?).map BodyRecord.protectedTotal).getD 0)
  | _ => .error (.integrity .missingMaterial)

/-- The quota check of an assembled action. -/
def checkActionQuota (self : Replica) (tx : Option Transaction) (bodies : List SealedBody)
    (records : BTreeMap BodyKey (Option BodyRecord)) (receiptLen : ℕ) : Except Failure Unit := do
  match tx with
  | none =>
      if self.quota.maxSpaceBytes < saturatingAdd self.usage.1 receiptLen then throw .quotaExceeded
  | some tx =>
      let projected ← bodies.foldlM (self.projectSealed records) self.usage.1
      if self.quota.maxSpaceBytes
          < saturatingAdd (saturatingAdd projected tx.encode.length) receiptLen then
        throw .quotaExceeded

/-- What one changed Body would change in the Body catalog. -/
def previewChange (self : Replica) (declared : BTreeMap BodyKey (List Bytes))
    (entry : BodyKey × Option BodyRecord) : Except Failure (Index.Change ManifestEntry) :=
  match entry.2 with
  | none => .ok (bodyIndexKey entry.1, none)
  | some record => do
      let advertised ← manifestEntry entry.1 record (self.declaredRefs declared entry.1)
      return (bodyIndexKey entry.1, some advertised)

/-- The Body catalog a set of changes would leave. -/
def previewBodies (self : Replica) (changed : BTreeMap BodyKey (Option BodyRecord))
    (declared : BTreeMap BodyKey (List Bytes)) : Except Failure (BTreeMap Bytes ManifestEntry) := do
  let changes ← changed.toList.mapM (self.previewChange declared)
  applyIndex self.catalogs.manifestBodies changes

/-- `preview_manifest_root`: the address of the root a commit would publish. -/
def previewManifestRoot (self : Replica) (ctx : CommitContext)
    (changed : BTreeMap BodyKey (Option BodyRecord)) (declared : BTreeMap BodyKey (List Bytes))
    (nextFrontier : ReplicaFrontier) : Replica × Except Failure Bytes :=
  if self.durable.isNone then (self, .ok nextFrontier.root)
  else
    match self.previewBodies changed declared with
    | .error failure => (self, .error failure)
    | .ok manifestBodies =>
        match signRoot ctx nextFrontier manifestBodies self.catalogs.contentIndex with
        | none => (self, .error (.illegitimate .binding))
        | some root =>
            ({ self with signed := root :: self.signed }, .ok (objectRef root.encode).hash)

/-- The transaction of an assembly, and its records stamped and filled in. -/
def assembleTransaction (self : Replica) (req : ActionRequest) (sealing : Bool)
    (assembly : Assembly) (nextFrontier : ReplicaFrontier) :
    Except Failure (Option Transaction × BTreeMap BodyKey (Option BodyRecord)) := do
  if ¬ sealing then return (none, assembly.newRecords)
  let tx ← self.signTransaction req assembly nextFrontier
  return (some tx, stampIds tx.id assembly.newRecords)

/-- The receipt, the filled-in records and the quota of an assembled action. -/
def completeAssembly (self : Replica) (req : ActionRequest) (assembly : Assembly)
    (tx : Option Transaction) (records : BTreeMap BodyKey (Option BodyRecord))
    (nextFrontier : ReplicaFrontier) :
    Except Failure (RequestReceipt × BTreeMap BodyKey (Option BodyRecord)) := do
  let receipt := req.receipt nextFrontier ZERO ((tx.map Transaction.id).getD ZERO)
  let receiptBytes ← validateReceiptForStorage receipt
  let records ← match tx with
    | some tx => populateLocalRecordRefs tx self.durable.isSome assembly.sealed' records
    | none => pure records
  self.checkActionQuota tx assembly.sealed' records receiptBytes.length
  return (receipt, records)

/-- Assemble a mutation the engine has already applied. -/
def assemble (self : Replica) (amb : Ambient) (req : ActionRequest) (sealing : Bool)
    (declared : BTreeMap BodyKey (List Bytes)) (fabric : Engine.Prepared) :
    Replica × Except Failure PreparedMutation :=
  let nextFrontier := advance self.frontier fabric.causal
  match amb.chainSeed with
  | none => (self, .error .randomness)
  | some seed =>
      match assembleAll amb req seed sealing req.touched self ⟨∅, [], []⟩ with
      | (self, .error failure) => (self, .error failure)
      | (self, .ok assembly) =>
          match self.assembleTransaction req sealing assembly nextFrontier with
          | .error failure => (self, .error failure)
          | .ok (tx, records) =>
              match self.completeAssembly req assembly tx records nextFrontier with
              | .error failure => (self, .error failure)
              | .ok (receipt, records) =>
                  match self.previewManifestRoot req.ctx records declared nextFrontier with
                  | (self, .error failure) => (self, .error failure)
                  | (self, .ok candidateRoot) =>
                      let receipt := { receipt with manifestRoot := candidateRoot }
                      match validateReceiptForStorage receipt with
                      | .error failure => (self, .error failure)
                      | .ok _ =>
                          (self, .ok
                            { newRecords := records
                              sealed' := assembly.sealed'
                              transaction := tx
                              receipt
                              nextFrontier
                              declared
                              candidateRoot
                              manifestSpace := req.ctx.space
                              manifestAuthorityFrontier := req.ctx.authorityFrontier
                              manifestSigner := req.ctx.signer.signerKey })

/-! ## Preparing -/

/-- Whether a Body the request creates is counted within the quota. -/
def checkBodyQuota (self : Replica) (req : ActionRequest) : Except Failure Unit :=
  if self.quota.maxSpaceBodies
      < saturatingAdd self.bodies.size (req.touched.filter (¬ self.bodies.contains ·)).length then
    .error .quotaExceeded
  else .ok ()

/-- Whether the action seals its material, which a durable one must. -/
def sealingOf (self : Replica) : Except Failure Bool :=
  match self.keys.bind BodyKeySource.sealingKey with
  | some _ => .ok true
  | none => if self.durable.isSome then .error .bodyKeyUnavailable else .ok false

/-- The checks that precede the engine: the declarations, and whether to seal. -/
def checkMutation (self : Replica) (req : ActionRequest) :
    Except Failure (BTreeMap BodyKey (List Bytes) × Bool) := do
  self.checkBindings req
  self.checkImmutable req req.ops ∅
  let declared ← self.checkContentRefs req.contentRefs ∅
  self.checkBodyQuota req
  let sealing ← self.sealingOf
  return (declared, sealing)

/-- Prepare a request without operations: its receipt alone. -/
def prepareNoop (self : Replica) (req : ActionRequest) : Except Failure PreparedState := do
  let receipt := req.receipt self.frontier req.parentManifestRoot ZERO
  let receiptBytes ← validateReceiptForStorage receipt
  if self.quota.maxSpaceBytes < saturatingAdd self.usage.1 receiptBytes.length then
    throw .quotaExceeded
  return .noop receipt

/-- Roll the engine back after a failed assembly.  A rollback that fails poisons. -/
def rollbackAfter (self : Replica) (fabric : Engine.Prepared) (failure : Failure) :
    Replica × Except Failure PreparedState :=
  match self.fabric.rollback fabric with
  | (fabric, .ok ()) => ({ self with fabric }, .error failure)
  | (fabric, .error _) => ({ self with fabric, poisoned := true }, .error .outcomeUnknown)

/-- Prepare a request with operations. -/
def prepareMutation (self : Replica) (amb : Ambient) (req : ActionRequest) :
    Replica × Except Failure PreparedState :=
  -- Space pinning: one store, one Space.
  match self.space with
  | some space =>
      if space ≠ req.ctx.space then (self, .error (.illegitimate .binding))
      else prepareInSpace self
  | none => prepareInSpace { self with space := some req.ctx.space }
where
  /-- The rest, once the Space is pinned. -/
  prepareInSpace (self : Replica) : Replica × Except Failure PreparedState :=
    match self.checkMutation req with
    | .error failure => (self, .error failure)
    | .ok (declared, sealing) =>
        match self.prepareOps req.ops with
        | (self, .error failure) => (self, .error failure)
        | (self, .ok fabric) =>
            match self.assemble amb req sealing declared fabric with
            | (self, .error failure) => self.rollbackAfter fabric failure
            | (self, .ok data) => (self, .ok (.mutation fabric data))

/-- The receipt check of a preparation: an absence proof, or a lookup. -/
def checkReceipt (self : Replica) (req : ActionRequest) (absence : Option ReceiptAbsence) :
    Replica × Except Failure (Option RequestReceipt) :=
  match absence with
  | some absence =>
      if self.absenceCurrent req.scope absence then (self, .ok none)
      else (self, .error .receiptCheckStale)
  | none => self.lookupAction req.scope req.payloadHash

/-- `prepare_action_inner`. -/
def prepareAction (self : Replica) (amb : Ambient) (req : ActionRequest)
    (absence : Option ReceiptAbsence) : Replica × Except Failure PreparedOutcome :=
  match self.mutationAvailable with
  | .error failure => (self, .error failure)
  | .ok () =>
      match self.checkReceipt req absence with
      | (self, .error failure) => (self, .error failure)
      | (self, .ok (some receipt)) => (self, .ok (.replayed receipt))
      | (self, .ok none) =>
          if MAX_EFFECT_BYTES < req.effect.length then (self, .error .effectTooLarge)
          else
            let parentRoot := self.currentManifestRoot
            let parentFrontier := self.frontier
            match (if req.ops.isEmpty then (self, self.prepareNoop req)
                else self.prepareMutation amb req) with
            | (self, .error failure) => (self, .error failure)
            | (self, .ok state) =>
                ({ self with preparedInFlight := true },
                  .ok (.prepared ⟨parentRoot, parentFrontier, state⟩))

/-! ## Finalizing -/

/-- Whether a local commit's transaction object is named by some head. -/
def transactionReferenced (tx : Transaction) (records : BTreeMap BodyKey (Option BodyRecord)) :
    Bool :=
  (BTreeMap.valuesOf records).any fun record =>
    record.any fun record =>
      record.heads.any fun head => head.transaction = some (objectRef tx.encode)

/-- The objects a local commit writes. -/
def actionObjects (tx : Transaction) (bodies : List SealedBody)
    (records : BTreeMap BodyKey (Option BodyRecord)) : Except Failure (List Bytes) := do
  let artifacts ← bodies.mapM fun body => do
    let descriptor ← okOr (.integrity .missingMaterial) (descriptorFor tx body.key)
    decodeArtifactDeliveryPack descriptor body.pack
  return (if transactionReferenced tx records then [tx.encode] else []) ++ artifacts.flatten

/-- The write of a prepared mutation. -/
def actionRequest (ctx : CommitContext) (data : PreparedMutation)
    (records : BTreeMap BodyKey (Option BodyRecord)) (newObjects : List Bytes) :
    PersistRequest where
  ctx := some ctx
  changed := records
  declared := data.declared
  descriptors := []
  receipt := some data.receipt
  newObjects := newObjects
  nextFrontier := data.nextFrontier

/-- `persist_transaction`: the records as they were committed. -/
def persistTransaction (self : Replica) (amb : Ambient) (ctx : CommitContext)
    (data : PreparedMutation) (tx : Transaction) :
    Replica × Except Failure (BTreeMap BodyKey (Option BodyRecord)) :=
  match populateLocalRecordRefs tx true data.sealed' data.newRecords with
  | .error failure => (self, .error failure)
  | .ok records =>
      match actionObjects tx data.sealed' records with
      | .error failure => (self, .error failure)
      | .ok newObjects =>
          match self.persist amb (actionRequest ctx data records newObjects) with
          | (self, .error failure) => (self, .error failure)
          | (self, .ok records) =>
              ({ self with receiptCache :=
                  self.receiptCache.insert data.receipt.scopeKey data.receipt }, .ok records)

/-- The write of a receipt alone. -/
def receiptRequest (self : Replica) (receipt : RequestReceipt) : PersistRequest where
  ctx := none
  changed := ∅
  declared := ∅
  descriptors := []
  receipt := some receipt
  newObjects := []
  nextFrontier := self.frontier

/-- `persist_receipt_only`. -/
def persistReceiptOnly (self : Replica) (amb : Ambient) (receipt : RequestReceipt) :
    Replica × Except Failure Unit :=
  match self.persist amb (self.receiptRequest receipt) with
  | (self, .error failure) => (self, .error failure)
  | (self, .ok _) =>
      ({ self with receiptCache := self.receiptCache.insert receipt.scopeKey receipt }, .ok ())

/-- Retain the material of a non-durable commit in memory. -/
def retainAction (tx : Transaction) :
    List SealedBody → Replica → Replica × Except Failure Unit
  | [], self => (self, .ok ())
  | body :: bodies, self =>
      match (do
          let descriptor ← okOr (.integrity .missingMaterial) (descriptorFor tx body.key)
          self.completeArtifactDelivery body.key descriptor body.pack) with
      | .error failure => (self, .error failure)
      | .ok pack =>
          retainAction tx bodies
            { self with rawMaterial := self.rawMaterial.insert body.key [(tx.id, pack, tx.encode)] }

/-- Install one committed record. -/
def installCommitted (self : Replica) (key : BodyKey) : Option BodyRecord → Replica
  | none =>
      { self with bodies := self.bodies.erase key, rawMaterial := self.rawMaterial.erase key }
  | some record =>
      { self with
        rawMaterial :=
          if self.durable.isSome then self.rawMaterial.erase key else self.rawMaterial
        bodies := self.bodies.insert key record }

/-- Install every committed record, and accept the engine's candidate. -/
def acceptCommitted (self : Replica) (amb : Ambient) (data : PreparedMutation)
    (records : BTreeMap BodyKey (Option BodyRecord)) : Replica :=
  let self := records.toList.foldl (fun self entry => installCommitted self entry.1 entry.2) self
  let self := { self with
    frontier := data.nextFrontier
    receipts :=
      if self.durable.isSome then self.receipts
      else self.receipts.insert data.receipt.scopeKey data.receipt
    fabric := self.fabric.finalize }
  self.settle amb ((records.toList.filter fun entry => entry.2.isSome).map Prod.fst)

/-- Publish a prepared mutation, durably or in memory. -/
def publishMutation (self : Replica) (amb : Ambient) (ctx : CommitContext) (fabric : Engine.Prepared)
    (data : PreparedMutation) :
    Replica × Except Failure (BTreeMap BodyKey (Option BodyRecord)) :=
  match data.transaction with
  | none => (self, .ok data.newRecords)
  | some tx =>
      if self.durable.isSome then
        match self.persistTransaction amb ctx data tx with
        | (self, .ok records) => (self, .ok records)
        | (self, .error failure) =>
            match self.fabric.rollback fabric with
            | (fabric, .ok ()) => ({ self with fabric }, .error failure)
            | (fabric, .error _) => ({ self with fabric, poisoned := true }, .error .outcomeUnknown)
      else
        match retainAction tx data.sealed' self with
        | (self, .error failure) => (self, .error failure)
        | (self, .ok ()) => (self, .ok data.newRecords)

/-- Finalize a prepared mutation. -/
def finalizeMutation (self : Replica) (amb : Ambient) (ctx : CommitContext) (fabric : Engine.Prepared)
    (data : PreparedMutation) : Replica × Except Failure RequestReceipt :=
  if ctx.space ≠ data.manifestSpace ∨ ctx.authorityFrontier ≠ data.manifestAuthorityFrontier
      ∨ ctx.signer.signerKey ≠ data.manifestSigner ∨ self.space.any (· ≠ ctx.space) then
    ({ self with fabric := (self.fabric.rollback fabric).1 }, .error (.illegitimate .binding))
  else
    let self := { self with space := some ctx.space }
    match self.publishMutation amb ctx fabric data with
    | (self, .error failure) => (self, .error failure)
    | (self, .ok records) =>
        let self := self.acceptCommitted amb data records
        if self.currentManifestRoot ≠ data.candidateRoot then
          ({ self with poisoned := true }, .error .outcomeUnknown)
        else (self, .ok data.receipt)

/-- `finalize_prepared_action`. -/
def finalizePrepared (self : Replica) (amb : Ambient) (ctx : CommitContext) :
    PreparedState → Replica × Except Failure RequestReceipt
  | .noop receipt =>
      if self.durable.isSome then
        match self.persistReceiptOnly amb receipt with
        | (self, .error failure) => (self, .error failure)
        | (self, .ok ()) => (self, .ok receipt)
      else ({ self with receipts := self.receipts.insert receipt.scopeKey receipt }, .ok receipt)
  | .mutation fabric data => self.finalizeMutation amb ctx fabric data

/-- Drop a preparation: undo it, and free the mutation lane. -/
def dropPrepared (self : Replica) (prepared : PreparedAction) : Replica :=
  let self :=
    match prepared.state with
    | .noop _ => self
    | .mutation fabric _ =>
        match self.fabric.rollback fabric with
        | (fabric, .ok ()) => { self with fabric }
        | (fabric, .error _) => { self with fabric, rollbackPoisoned := true }
  { self with preparedInFlight := false }

/-- `validate_parent`, for a preparation of this Replica. -/
def validateParent (self : Replica) (prepared : PreparedAction) : Except Failure Unit :=
  if self.rollbackPoisoned ∨ self.poisoned then .error .poisoned
  else if ¬ self.preparedInFlight then .error .mutationBusy
  else if self.currentManifestRoot ≠ prepared.parentRoot
      ∨ self.frontier ≠ prepared.parentFrontier then
    .error .parentManifestUnavailable
  else .ok ()

/-- `finalize`: a preparation whose parent is gone is dropped. -/
def finalize (self : Replica) (amb : Ambient) (ctx : CommitContext) (prepared : PreparedAction) :
    Replica × Except Failure RequestReceipt :=
  match self.validateParent prepared with
  | .error failure => (self.dropPrepared prepared, .error failure)
  | .ok () =>
      match self.finalizePrepared amb ctx prepared.state with
      | (self, result) => ({ self with preparedInFlight := false }, result)

/-- What `commit_action` answers. -/
inductive ActionOutcome
  | committed (receipt : RequestReceipt)
  | replayed (receipt : RequestReceipt)

/-- `commit_action`: prepare, then finalize at once. -/
def commitAction (self : Replica) (amb amb' : Ambient) (req : ActionRequest) :
    Replica × Except Failure ActionOutcome :=
  match self.prepareAction amb req none with
  | (self, .error failure) => (self, .error failure)
  | (self, .ok (.replayed receipt)) => (self, .ok (.replayed receipt))
  | (self, .ok (.prepared prepared)) =>
      match self.finalize amb' req.ctx prepared with
      | (self, .error failure) => (self, .error failure)
      | (self, .ok receipt) => (self, .ok (.committed receipt))

/-! ## Unattributed commits -/

/-- The mutation model of the image the engine exports for a Body. -/
def exportedModel (e : Engine) (key : Bytes) : Option ℕ :=
  match e.bodies[key]? with
  | none => none
  | some (.atomic _) => some MUTATION_ATOMIC
  | some (.collab doc) =>
      if (Loro.exportSnapshot doc).isSome then some MUTATION_COLLABORATIVE else none
  | some (.frozenCollab _) => some MUTATION_COLLABORATIVE

/-- The record an unattributed commit keeps of one written Body. -/
def unattributedRecord (prior : Option BodyRecord) (model : ℕ) (seed : Bytes) : BodyRecord where
  binding := (prior.map BodyRecord.binding).getD
    { schema := Bytes.ofString "unattributed"
      schemaVersion := 1
      encoding := Bytes.ofString "bytes"
      mutationModel := model }
  chain := advanceChain ((prior.map BodyRecord.chain).getD ReplicaFrontier.EMPTY) seed
  heads := [{ tx := seed ++ ⟨List.replicate 16 0⟩
              descriptorHash := ZERO
              txCommitment := ZERO
              artifacts := some []
              transaction := none
              artifactBytes := 0
              txLen := 0 }]
  interpreted := true
  causal := prior.bind BodyRecord.causal

/-- `update_records_unattributed`, for one touched Body. -/
def updateRecordUnattributed (seed : Bytes) (self : Replica) (key : BodyKey) : Replica :=
  match exportedModel self.fabric (fabricKey key) with
  | none => { self with bodies := self.bodies.erase key }
  | some model =>
      { self with
        bodies := self.bodies.insert key (unattributedRecord self.bodies[key]? model seed) }

/-- `commit`: operations without attribution, on a Replica without a store. -/
def commit (self : Replica) (amb : Ambient) (ops : List (BodyKey × Op)) :
    Replica × Except Failure ReplicaFrontier :=
  if self.durable.isSome then (self, .error (.illegitimate .binding))
  else
    match self.mutationAvailable with
    | .error failure => (self, .error failure)
    | .ok () =>
        match self.prepareOps ops with
        | (self, .error failure) => (self, .error failure)
        | (self, .ok prepared) =>
            let self := { self with fabric := self.fabric.finalize }
            match amb.chainSeed with
            | none => (self, .error .randomness)
            | some seed =>
                let self := (ManifestEntry.canonical (ops.map Prod.fst)).foldl
                  (updateRecordUnattributed seed) self
                let frontier := advance self.frontier prepared.causal
                ({ self with frontier }, .ok frontier)

end Lait.Replica
