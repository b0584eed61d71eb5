import Lait.Replica.State

/-!
# The next causal material of a Body

When a Body's content moved, the Replica exports what moved from the engine,
seals it, and extends the Body's material: an atomic Body gets a fresh
checkpoint, a collaborative one a delta appended to its tail.  A tail that grows
long is replaced by a checkpoint a worker prepares off to the side
(`scheduleCheckpointIfHot`, `takeReadyCheckpoint`).

The delta is exported from the version the prior material ends at, so an engine
that does not hold that history cannot produce it.
-/

namespace Lait.Replica

variable [Crypto] [Loro] [Aead] [Codecs]

/-- Bytes of a pending object, or of a stored one. -/
def envelopeOf (self : Replica) (reference : ArtifactRef) (pendingObjects : List Bytes) :
    Except Failure Bytes :=
  match pendingObjects.find? fun bytes => objectContentHash bytes = reference.hash with
  | some bytes => .ok bytes
  | none =>
      match self.durable with
      | none => .error .poisoned
      | some store => okOr (.integrity .corruptMaterial) (store.readObject (artifactObject reference))

/-- The key a derived artifact is sealed under: the current sealing key, or the
epoch of the head just opened. -/
def artifactSealingKey (self : Replica) (record : BodyRecord) (pendingObjects : List Bytes) :
    Except Failure AuthorizedBodyKey := do
  let some keys := self.keys | throw .bodyKeyUnavailable
  match keys.sealingKey with
  | some key => return key
  | none =>
      let head ← record.head
      match record.artifacts head with
      | [] => throw (.integrity .missingMaterial)
      | reference :: _ =>
          let envelope ← self.envelopeOf reference pendingObjects
          let epoch ← okOr (.integrity .corruptMaterial) (bodyEpochId envelope)
          okOr .bodyKeyUnavailable (keys.openingKey epoch)

/-- The reference to a sealed envelope. -/
def sealedRef (key : AuthorizedBodyKey) (envelope : Bytes) : ArtifactRef :=
  ⟨objectContentHash envelope, envelope.length, key.epoch⟩

/-- `protected_artifact`. -/
def protectedArtifact (self : Replica) (nonce : Option Bytes) (artifact : Artifact)
    (record : BodyRecord) (pendingObjects : List Bytes) : Except Failure (ArtifactRef × Bytes) := do
  let key ← self.artifactSealingKey record pendingObjects
  let nonce ← okOr (.integrity .corruptMaterial) nonce
  let envelope ← sealArtifact artifact key nonce
  return (sealedRef key envelope, envelope)

/-- `validate`, as an integrity check. -/
def validMaterial (material : Material) : Except Failure Material :=
  match material.validate with
  | .ok () => .ok material
  | .error _ => .error (.integrity .corruptMaterial)

/-- The accounting size of a checkpoint and its tail. -/
def closureSize (checkpoint : ArtifactRef) (tail : List ArtifactRef) : ℕ :=
  min (saturatingAdd checkpoint.len ((tail.map ArtifactRef.len).sum % 2 ^ 64))
    MAX_MATERIAL_PLAINTEXT_BYTES

/-- A fresh checkpoint of the engine's content. -/
def checkpointMaterial (self : Replica) (amb : Ambient) (key : BodyKey) (record : BodyRecord)
    (prior : Option Material) (pendingObjects : List Bytes) :
    Except Failure (Material × List Bytes) := do
  let .ok artifact := self.fabric.exportCheckpoint (fabricKey key)
    | throw (.integrity .corruptMaterial)
  let (checkpoint, envelope) ←
    self.protectedArtifact (amb.nonce key) artifact record pendingObjects
  let material ← validMaterial
    { formatVersion := CAUSAL_FORMAT_VERSION
      checkpoint
      deltaTail := []
      historyRoot := prior.bind Material.historyRoot
      historyCount := (prior.map Material.historyCount).getD 0
      version := artifact.result.getD Version.empty
      plaintextSize := min artifact.bytes.length MAX_MATERIAL_PLAINTEXT_BYTES }
  return (material, [envelope])

/-- `take_ready_checkpoint`: a finished worker's result, if it still covers a
prefix of the material, and how much of the tail it covers. -/
def takeReadyCheckpoint (self : Replica) (amb : Ambient) (key : BodyKey) (prior : Material) :
    Replica × Option (ArtifactRef × Bytes × ℕ) :=
  match self.checkpointJobs[key]? with
  | none => (self, none)
  | some job =>
      if ¬ amb.ready key then (self, none)
      else
        let taken := { self with checkpointJobs := self.checkpointJobs.erase key }
        match job.result with
        | none => (taken, none)
        | some (reference, envelope) =>
            if prior.checkpoint ≠ job.base.checkpoint ∨
                ¬ job.base.deltaTail.isPrefixOf prior.deltaTail then (taken, none)
            else (taken, some (reference, envelope, job.base.deltaTail.length))

/-- The material with one more delta, replacing the covered prefix when a
checkpoint is ready. -/
def extendMaterial (prior : Material) (result : Version) (reference : ArtifactRef)
    (envelope : Bytes) (ready : Option (ArtifactRef × Bytes × ℕ)) :
    Except Failure (Material × List Bytes) :=
  match ready with
  | some (checkpoint, checkpointEnvelope, covered) => do
      let deltaTail := prior.deltaTail.drop covered ++ [reference]
      let material ← validMaterial
        { prior with
          formatVersion := CAUSAL_FORMAT_VERSION
          checkpoint
          deltaTail
          version := result
          plaintextSize := closureSize checkpoint deltaTail }
      return (material, [checkpointEnvelope, envelope])
  | none => do
      if ¬ CheckpointPolicy.default.admits (prior.deltaTail.length + 1)
          (saturatingAdd prior.tailBytes reference.len) then
        throw .checkpointBackpressure
      let deltaTail := prior.deltaTail ++ [reference]
      let material ← validMaterial
        { prior with
          deltaTail
          version := result
          plaintextSize := closureSize prior.checkpoint deltaTail }
      return (material, [envelope])

/-- The delta of a collaborative Body since its prior material, sealed. -/
def sealedDelta (self : Replica) (amb : Ambient) (key : BodyKey) (record : BodyRecord)
    (prior : Material) (pendingObjects : List Bytes) :
    Except Failure (Version × ArtifactRef × Bytes) := do
  let prior ← validMaterial prior
  let .ok artifact := self.fabric.exportDelta (fabricKey key) prior.version
    | throw (.integrity .corruptMaterial)
  let result ← okOr (.integrity .corruptMaterial) artifact.result
  let (reference, envelope) ←
    self.protectedArtifact (amb.nonce key) artifact record pendingObjects
  return (result, reference, envelope)

/-- `next_causal_material`: the next material and the envelopes it adds. -/
def nextCausalMaterial (self : Replica) (amb : Ambient) (key : BodyKey) (record : BodyRecord)
    (prior : Option Material) (pendingObjects : List Bytes) :
    Replica × Except Failure (Material × List Bytes) :=
  match prior with
  | none => (self, self.checkpointMaterial amb key record prior pendingObjects)
  | some material =>
      if record.binding.mutationModel ≠ MUTATION_COLLABORATIVE then
        (self, self.checkpointMaterial amb key record prior pendingObjects)
      else
        match self.sealedDelta amb key record material pendingObjects with
        | .error failure => (self, .error failure)
        | .ok (result, reference, envelope) =>
            let (self, ready) := self.takeReadyCheckpoint amb key material
            (self, extendMaterial material result reference envelope ready)

/-- `schedule_checkpoint_if_hot`: start a worker for a Body whose tail has grown,
when its one head's material is exactly the engine's content. -/
def scheduleCheckpointIfHot (self : Replica) (amb : Ambient) (key : BodyKey) : Replica :=
  match self.bodies[key]? with
  | none => self
  | some record =>
      match record.causal, amb.permit key with
      | some base, some nonce =>
          if record.binding.mutationModel = MUTATION_COLLABORATIVE
              ∧ record.heads.length = 1
              ∧ self.fabric.version (fabricKey key) = .ok base.version
              ∧ CheckpointPolicy.default.shouldPrepare base.deltaTail.length base.tailBytes
              ∧ ¬ self.checkpointJobs.contains key then
            match self.fabric.checkpointSeed (fabricKey key), self.artifactSealingKey record [] with
            | none, _ => self
            | some _, .error _ => self
            | some seed, .ok sealingKey =>
                let result :=
                  match seed with
                  | .error _ => none
                  | .ok artifact =>
                      match sealArtifact artifact sealingKey nonce with
                      | .error _ => none
                      | .ok envelope => some (sealedRef sealingKey envelope, envelope)
                { self with checkpointJobs := self.checkpointJobs.insert key ⟨base, result⟩ }
          else self
      | _, _ => self

/-- `release_durable_atomic_writer_image`: the engine need not keep a value the
store holds. -/
def releaseDurableAtomicWriterImage (self : Replica) (key : BodyKey) : Replica :=
  match self.durable, self.bodies[key]? with
  | some _, some record =>
      if record.interpreted ∧ isAtomicModel record.binding.mutationModel ∧ record.causal.isSome then
        { self with fabric := self.fabric.releaseAtomicImage (fabricKey key) }
      else self
  | _, _ => self

end Lait.Replica
