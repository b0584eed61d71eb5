import Lait.Replica.State

/-!
# Classifying incoming material

`incorporate_units` decides what every head of a bundle means before anything
moves:

1. `checkUnits` — every transaction is legitimate and addresses one Space;
2. `resolveUnits` — every pack decodes to the signed closure of a descriptor, and
   the packs are put in the order they are classified in;
3. `classifyOne` — each head against the **staged** state of its Body: the
   committed record, overlaid with what this bundle has already planned;
4. `projectQuota` — the complete resulting state fits the quotas.

A head is interpreted when its schema is supported and every artifact opens, and
retained opaquely otherwise.  `applies`, `fastForward` and `interpretedChain` are
what an interpreted head does to the head set and the chain; `opaqueChain` is
what an opaque one does to the chain.
-/

namespace Lait.Replica

/-- The bound on the transactions of one incorporation. -/
def MAX_TRANSACTION_CHANGES : ℕ := 4096

/-- `saturating_add` on `u32`. -/
def saturatingAdd32 (a b : ℕ) : ℕ := min (a + b) 4294967295

/-- One transaction and the packs delivered for its Bodies. -/
abbrev IncorporationUnit := Transaction × List (BodyKey × Bytes)

/-- A validated bundle: its units, and what its manifest declares. -/
structure ContactBundle where
  units : List IncorporationUnit
  /-- Content per Body, for the Bodies the manifest declares any for. -/
  declaredContent : BTreeMap BodyKey (List Bytes)
  /-- The advertised heads of those Bodies. -/
  declarationHeads : BTreeMap BodyKey (List ManifestHead)
  /-- The descriptors of declared content the receiver did not hold. -/
  descriptors : List ContentDescriptor

/-- One signed transaction's part in an incorporation. -/
structure TransactionChange where
  operation : Bytes
  actor : ActorId
  device : Text
  bodies : List BodyKey
  deriving DecidableEq

/-- What one incorporation did. -/
structure ConvergenceOutcome where
  previous : ReplicaFrontier
  current : ReplicaFrontier
  accepted : ℕ
  unchanged : ℕ
  rejected : ℕ
  unsupportedRetained : ℕ
  bodies : List BodyKey
  changes : List TransactionChange
  deriving DecidableEq

/-- `ConvergenceOutcome::unchanged`. -/
def ConvergenceOutcome.unchangedAt (frontier : ReplicaFrontier) : ConvergenceOutcome where
  previous := frontier
  current := frontier
  accepted := 0
  unchanged := 0
  rejected := 0
  unsupportedRetained := 0
  bodies := []
  changes := []

/-! ## Immutable Bodies -/

def IMMUTABLE_BODY_ID_DOMAIN : Bytes := Bytes.ofString "lait/immutable-body-id/1"

/-- `immutable_body_id`: a create-once Body's id is derived from its value. -/
def immutableBodyId [Crypto] (world : WorldId) (schema : SchemaId) (schemaVersion : ℕ)
    (encoding : EncodingId) (value : Bytes) : BodyId :=
  let field := fun (bytes : Bytes) => Bytes.be64 bytes.length ++ bytes
  ⟨(Crypto.blake3 (Bytes.join [IMMUTABLE_BODY_ID_DOMAIN, field world, field schema,
    Bytes.be32 schemaVersion, field encoding, field value])).data.take 16⟩

/-- `immutable_key_matches`. -/
def immutableKeyMatches [Crypto] (key : BodyKey) (binding : BodyBinding) (value : Bytes) : Bool :=
  immutableBodyId key.world binding.schema binding.schemaVersion binding.encoding value = key.body

section Classify

variable [Crypto] [Loro] [Aead] [Codecs]

/-! ## Opening -/

/-- What opening a pack's envelopes finds. -/
inductive Opened
  | artifacts (artifacts : List Artifact)
  /-- An envelope whose epoch has no key here. -/
  | unavailable
  /-- An envelope its own epoch's key does not open. -/
  | invalid

/-- The key that opens an envelope, if it is held. -/
def openingFor (keys : Option BodyKeySource) (envelope : Bytes) : Option AuthorizedBodyKey := do
  let epoch ← bodyEpochId envelope
  let keys ← keys
  keys.openingKey epoch

/-- Open the envelopes of one pack, in order, as far as they open. -/
def openEnvelopes (keys : Option BodyKeySource) : List Bytes → Opened
  | [] => .artifacts []
  | envelope :: envelopes =>
      match openingFor keys envelope with
      | none => .unavailable
      | some key =>
          match openArtifact key envelope with
          | none => .invalid
          | some artifact =>
              match openEnvelopes keys envelopes with
              | .artifacts artifacts => .artifacts (artifact :: artifacts)
              | .unavailable => .unavailable
              | .invalid => .invalid

/-- Import artifacts in order, up to the first refusal; whether any was applied. -/
def importArtifacts (key : Bytes) : List Artifact → Engine → Engine × Except CausalInvalid Bool
  | [], e => (e, .ok false)
  | artifact :: artifacts, e =>
      match e.importArtifact key artifact with
      | (e, .error x) => (e, .error x)
      | (e, .ok status) =>
          match importArtifacts key artifacts e with
          | (e, .error x) => (e, .error x)
          | (e, .ok applied) => (e, .ok (status.applied || applied))

/-- A fresh engine holding just the given artifacts, and the position it reaches. -/
def proofEngine (key : BodyKey) (artifacts : List Artifact) : Except Failure (Engine × Version) :=
  match importArtifacts (fabricKey key) artifacts (Engine.new 0) with
  | (_, .error _) => .error .engine
  | (proof, .ok _) =>
      match proof.version (fabricKey key) with
      | .error _ => .error .engine
      | .ok version => .ok (proof, version)

/-- `validate_immutable_proof`. -/
def validateImmutableProof (key : BodyKey) (descriptor : Descriptor) (proof : Engine) :
    Except Failure Unit :=
  if descriptor.mutationModel ≠ MUTATION_IMMUTABLE_ATOMIC then .ok ()
  else
    match proof.read (fabricKey key) with
    | none => .error .immutableConflict
    | some value =>
        if immutableKeyMatches key descriptor.binding value then .ok ()
        else .error .immutableConflict

/-! ## Phase 1: legitimacy -/

/-- Every transaction is legitimate, and all of them address one Space, the
Replica's own when it has one. -/
def checkUnits (self : Replica) (authority : AuthoritySource) :
    List IncorporationUnit → Option SpaceId → Except Failure (Option SpaceId)
  | [], space => .ok space
  | (tx, _) :: units, space => do
      if ¬ Demand.isOk (tx.verifyAuthorized authority) then throw (.illegitimate .signature)
      let some addressed := parseSpace tx.core.space | throw (.illegitimate .binding)
      if space.any (· ≠ addressed) then throw (.illegitimate .binding)
      if self.space.any (· ≠ addressed) then throw (.illegitimate .binding)
      checkUnits self authority units (some addressed)

/-! ## Phase 2: packs -/

/-- One delivered pack, resolved to the descriptor it backs. -/
structure Resolved where
  unit : ℕ
  tx : Transaction
  descriptor : Descriptor
  pack : Bytes
  envelopes : List Bytes

/-- The descriptor of a transaction for a Body. -/
def descriptorFor (tx : Transaction) (key : BodyKey) : Option Descriptor :=
  tx.core.descriptors.find? fun d => d.key = key

/-- Resolve the packs of one unit. -/
def resolvePayloads (unit : ℕ) (tx : Transaction) :
    List (BodyKey × Bytes) → Except Failure (List Resolved)
  | [] => .ok []
  | (key, payload) :: payloads => do
      if MAX_BODY_BYTES < payload.length then throw (.illegitimate .binding)
      let some descriptor := descriptorFor tx key | throw (.illegitimate .binding)
      let envelopes ← decodeArtifactPack descriptor payload
      let rest ← resolvePayloads unit tx payloads
      return ⟨unit, tx, descriptor, payload, envelopes⟩ :: rest

/-- Resolve the packs of every unit, numbering the units. -/
def resolveAll : ℕ → List IncorporationUnit → Except Failure (List Resolved)
  | _, [] => .ok []
  | unit, (tx, payloads) :: units => do
      let here ← resolvePayloads unit tx payloads
      let rest ← resolveAll (unit + 1) units
      return here ++ rest

/-- Whether a head can be interpreted here, as the classification order asks. -/
def interpretable (self : Replica) (r : Resolved) : Bool :=
  (self.supported.lookup r.descriptor.key.world r.descriptor.schema
      r.descriptor.schemaVersion).isSome &&
    r.envelopes.all fun envelope => (openingFor self.keys envelope).isSome

/-- The classification order: by Body, the interpretable heads first, then by
transaction id. -/
def resolvedKey (self : Replica) (r : Resolved) : BodyKey ×ₗ ℕ ×ₗ Bytes :=
  toLex (r.descriptor.key, toLex (if self.interpretable r then 0 else 1, r.tx.id))

/-- The packs in classification order. -/
def resolveUnits (self : Replica) (units : List IncorporationUnit) :
    Except Failure (List Resolved) := do
  let resolved ← resolveAll 0 units
  return resolved.insertionSort fun r r' => self.resolvedKey r ≤ self.resolvedKey r'

/-! ## Phase 3: classification -/

/-- Whether an interpreted head changes its Body at all. -/
def applies (wasOpaque : Bool) (model : ℕ) (current : Option ReplicaFrontier)
    (base resulting : ReplicaFrontier) : Bool :=
  wasOpaque ||
    match current with
    | none => true
    | some chain =>
        if chain = resulting then false
        else if chain = base then true
        else if isAtomicModel model then chainOrder resulting chain = .gt
        else model = MUTATION_COLLABORATIVE

/-- Whether an interpreted head replaces the head set. -/
def fastForward (wasOpaque : Bool) (model : ℕ) (current : Option ReplicaFrontier)
    (base : ReplicaFrontier) : Bool :=
  wasOpaque ||
    match current with
    | none => true
    | some chain => chain = base || isAtomicModel model

/-- The chain an interpreted head leaves. -/
def interpretedChain (model : ℕ) (current : Option ReplicaFrontier)
    (resulting : ReplicaFrontier) : Option ReplicaFrontier :=
  if isAtomicModel model then some resulting
  else if model = MUTATION_COLLABORATIVE then
    match current with
    | none => some resulting
    | some chain => some (combineChains chain resulting)
  else none

/-- The chain an opaque head leaves. -/
def opaqueChain (model : ℕ) (current : Option ReplicaFrontier)
    (base resulting : ReplicaFrontier) : ReplicaFrontier :=
  match current with
  | none => resulting
  | some chain =>
      if model = MUTATION_COLLABORATIVE ∧ chain ≠ base then combineChains chain resulting
      else if isAtomicModel model ∧ chainOrder resulting chain = .lt then chain
      else resulting

/-- One change the bundle plans. -/
structure Planned where
  unit : ℕ
  tx : Transaction
  key : BodyKey
  pack : Bytes
  /-- The artifacts to interpret, or `none` for a head retained opaquely. -/
  artifacts : Option (List Artifact)
  material : Material
  record : BodyRecord
  /-- Whether the head joins the head set instead of replacing it. -/
  mergeAppend : Bool

/-- What classification has gathered. -/
structure Classified where
  planned : List Planned
  /-- The staged chain of a Body, and whether it is interpreted. -/
  overlay : BTreeMap BodyKey (ReplicaFrontier × Bool)
  rejected : ℕ
  unchanged : ℕ

namespace Classified

def start : Classified := ⟨[], ∅, 0, 0⟩

def reject (acc : Classified) : Classified :=
  { acc with rejected := saturatingAdd32 acc.rejected 1 }

def skip (acc : Classified) : Classified :=
  { acc with unchanged := saturatingAdd32 acc.unchanged 1 }

/-- Plan a change and stage its chain. -/
def plan (acc : Classified) (change : Planned) : Classified :=
  { acc with
    planned := acc.planned ++ [change]
    overlay := acc.overlay.insert change.key (change.record.chain, change.record.interpreted) }

/-- The staged chain of a Body. -/
def currentChain (acc : Classified) (self : Replica) (key : BodyKey) : Option ReplicaFrontier :=
  match acc.overlay[key]? with
  | some (chain, _) => some chain
  | none => (self.bodies[key]?).map BodyRecord.chain

/-- Whether the staged Body is held opaquely. -/
def wasOpaque (acc : Classified) (self : Replica) (key : BodyKey) : Bool :=
  match acc.overlay[key]? with
  | some (_, interpreted) => ¬ interpreted
  | none => (self.bodies[key]?).any fun record => ¬ record.interpreted

end Classified

/-- The head an incoming descriptor contributes. -/
def incomingHead (tx : Transaction) (descriptor : Descriptor) (explicit : Bool) : BodyHead where
  tx := tx.id
  descriptorHash := descriptorHash descriptor
  txCommitment := txCommitment tx.encode
  artifacts := if explicit then some descriptor.artifactRefs else none
  transaction := none
  artifactBytes := saturatingSum (descriptor.artifactRefs.map ArtifactRef.len)
  txLen := tx.encode.length

/-- A head to be interpreted, as a planned change. -/
def planInterpreted (r : Resolved) (model : ℕ) (artifacts : List Artifact)
    (chain : ReplicaFrontier) (fastForward : Bool) : Planned where
  unit := r.unit
  tx := r.tx
  key := r.descriptor.key
  pack := r.pack
  artifacts := some artifacts
  material := r.descriptor.material
  record :=
    { binding := { r.descriptor.binding with mutationModel := model }
      chain
      heads := [incomingHead r.tx r.descriptor ¬ fastForward]
      interpreted := true
      causal := if fastForward then some r.descriptor.material else none }
  mergeAppend := ¬ fastForward

/-- A head to be retained opaquely, as a planned change. -/
def planOpaque (r : Resolved) (current : Option ReplicaFrontier) : Planned where
  unit := r.unit
  tx := r.tx
  key := r.descriptor.key
  pack := r.pack
  artifacts := none
  material := r.descriptor.material
  record :=
    { binding := r.descriptor.binding
      chain := opaqueChain r.descriptor.mutationModel current r.descriptor.baseFrontier
        r.descriptor.resultingFrontier
      heads := [incomingHead r.tx r.descriptor current.isSome]
      interpreted := false
      causal := some r.descriptor.material }
  mergeAppend := current.isSome

/-- Classify a head whose every artifact opened. -/
def classifyOpened (self : Replica) (acc : Classified) (r : Resolved) (encoding : EncodingId)
    (model : ℕ) (artifacts : List Artifact) : Except Failure Classified := do
  let key := r.descriptor.key
  let current := acc.currentChain self key
  let wasOpaque := acc.wasOpaque self key
  if encoding ≠ r.descriptor.encoding then return acc.reject
  -- A head an interpreted record already carries is known material; one an
  -- opaque record carries is revalidated.
  if (self.bodies[key]?).any fun record =>
      record.interpreted && record.hasCommitment (txCommitment r.tx.encode) then
    return acc.skip
  if r.descriptor.mutationModel ≠ model then return acc.reject
  let (proof, version) ← proofEngine key artifacts
  if version ≠ r.descriptor.material.version then return acc.reject
  validateImmutableProof key r.descriptor proof
  if ¬ applies wasOpaque r.descriptor.mutationModel current r.descriptor.baseFrontier
      r.descriptor.resultingFrontier then
    return acc.skip
  let some chain :=
      interpretedChain r.descriptor.mutationModel current r.descriptor.resultingFrontier
    | throw (.illegitimate .encoding)
  return acc.plan (planInterpreted r model artifacts chain
    (fastForward wasOpaque r.descriptor.mutationModel current r.descriptor.baseFrontier))

/-- Classify a head that cannot be interpreted here. -/
def classifyOpaque (self : Replica) (acc : Classified) (r : Resolved) : Classified :=
  let key := r.descriptor.key
  -- "Known" is asked of the packs held in memory.
  if (self.rawMaterial[key]?).any fun entries => entries.any fun held => held.1 = r.tx.id then
    acc.skip
  else acc.plan (planOpaque r (acc.currentChain self key))

/-- Classify one head. -/
def classifyOne (self : Replica) (acc : Classified) (r : Resolved) : Except Failure Classified :=
  let key := r.descriptor.key
  if (self.bodies[key]?).any fun record => record.binding ≠ r.descriptor.binding then
    .ok acc.reject
  else
    match self.supported.lookup key.world r.descriptor.schema r.descriptor.schemaVersion with
    | none => .ok (self.classifyOpaque acc r)
    | some (encoding, model) =>
        match openEnvelopes self.keys r.envelopes with
        | .invalid => .ok acc.reject
        | .unavailable => .ok (self.classifyOpaque acc r)
        | .artifacts artifacts => self.classifyOpened acc r encoding model artifacts

/-- Classify every head in order. -/
def classifyAll (self : Replica) (acc : Classified) : List Resolved → Except Failure Classified
  | [] => .ok acc
  | r :: rs =>
      match self.classifyOne acc r with
      | .error failure => .error failure
      | .ok acc => classifyAll self acc rs

/-! ## Phase 4: quotas -/

/-- What the quota projection has gathered. -/
structure Projection where
  bytes : ℕ
  bodies : ℕ
  /-- Opaque bytes and Bodies gained, by World. -/
  opaqueDelta : BTreeMap WorldId (ℕ × ℕ)
  countedTx : List ℕ
  seenKeys : List BodyKey

/-- Project one planned change. -/
def projectOne (self : Replica) (p : Projection) (change : Planned) : Except Failure Projection :=
  let artifactLen := change.record.protectedTotal
  if self.quota.maxBodyBytes < artifactLen ∨ self.quota.maxBodyBytes < change.pack.length then
    .error .quotaExceeded
  else
    let old := self.bodies[change.key]?
    let first := change.key ∉ p.seenKeys
    let bytes := saturatingAdd p.bytes artifactLen
    let bytes :=
      match old with
      | some record =>
          if first ∧ ¬ change.mergeAppend then bytes - record.protectedTotal else bytes
      | none => bytes
    let bodies := if first ∧ old.isNone then saturatingAdd p.bodies 1 else p.bodies
    let bytes :=
      if change.unit ∈ p.countedTx then bytes else saturatingAdd bytes change.tx.encode.length
    let delta := (p.opaqueDelta[change.key.world]?).getD (0, 0)
    .ok
      { bytes
        bodies
        opaqueDelta :=
          if change.record.interpreted then p.opaqueDelta
          else p.opaqueDelta.insert change.key.world
            (saturatingAdd delta.1 artifactLen,
              if old.isNone ∧ first then saturatingAdd delta.2 1 else delta.2)
        countedTx := if change.unit ∈ p.countedTx then p.countedTx else change.unit :: p.countedTx
        seenKeys := if first then change.key :: p.seenKeys else p.seenKeys }

/-- Project every planned change. -/
def projectAll (self : Replica) : List Planned → Projection → Except Failure Projection
  | [], p => .ok p
  | change :: changes, p =>
      match self.projectOne p change with
      | .error failure => .error failure
      | .ok p => projectAll self changes p

variable [ReceiptCodecs]

/-- Whether the complete resulting state fits the quotas. -/
def projectQuota (self : Replica) (planned : List Planned) : Except Failure Unit := do
  let usage := self.usage
  let p ← self.projectAll planned ⟨usage.1, usage.2, ∅, [], []⟩
  if self.quota.maxSpaceBytes < p.bytes ∨ self.quota.maxSpaceBodies < p.bodies then
    throw .quotaExceeded
  if p.opaqueDelta.toList.any fun entry =>
      let held := self.opaqueUsage entry.1
      self.quota.maxUnknownWorldBytes < saturatingAdd held.1 entry.2.1 ||
        self.quota.maxUnknownWorldBodies < saturatingAdd held.2 entry.2.2 then
    throw .opaqueQuotaExceeded

end Classify

end Lait.Replica
