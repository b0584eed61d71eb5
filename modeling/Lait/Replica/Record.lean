import Lait.Replica.Manifest

/-!
# Body records

What the Replica keeps about one Body: its immutable schema binding, its chain
frontier, the **heads** whose union is its state, whether the engine interprets
it, and the causal material of the interpreted state.

A head names the artifacts its author signed.  The usual record has one head
whose signed artifacts are exactly the record's own material, and then the head
does not repeat them: `artifacts = none` means the record's closure.  The three
functions that move between the two forms are `promoteSingletonClosure`,
`compactSingletonClosure` and `replaceCausal`.
-/

namespace Lait.Replica

/-- Why incoming material is not legitimate. -/
inductive Invalid
  | signature
  | binding
  | encoding
  | index
  | space
  | incompleteMaterial
  | unbackedContent
  deriving DecidableEq

/-- What an integrity check found. -/
inductive Defect
  | store
  | encoding
  | index
  | missingMaterial
  | corruptMaterial
  deriving DecidableEq

/-- Why a Replica operation failed. -/
inductive Failure
  | unsupportedOp
  | pathInvalid
  | opLimit
  | checkpointBackpressure
  | typeConflict
  | invalidOp
  | schemaMismatch
  | immutableConflict
  | illegitimate (kind : Invalid)
  | unauthorized (refusal : Refusal)
  | parentManifestUnavailable
  | integrity (defect : Defect)
  | integrityCause (defect : Defect) (operation : Text)
  | engine
  | bodyKeyUnavailable
  | durability
  | outcomeUnknown
  | poisoned
  | requestIdConflict
  | receiptCheckStale
  | effectTooLarge
  | quotaExceeded
  | mutationBusy
  | opaqueQuotaExceeded
  | randomness
  deriving DecidableEq

/-- A stored object: its content address and length. -/
structure Object where
  hash : Bytes
  len : ℕ
  deriving DecidableEq

/-- The reference to the object the given bytes make. -/
def objectRef [Crypto] (bytes : Bytes) : Object := ⟨objectContentHash bytes, bytes.length⟩

/-- The object an artifact reference names. -/
def artifactObject (reference : ArtifactRef) : Object := ⟨reference.hash, reference.len⟩

/-- A Body's immutable schema binding. -/
structure BodyBinding where
  schema : SchemaId
  schemaVersion : ℕ
  encoding : EncodingId
  mutationModel : ℕ
  deriving DecidableEq

/-- The binding a descriptor carries. -/
def Descriptor.binding (d : Descriptor) : BodyBinding :=
  ⟨d.schema, d.schemaVersion, d.encoding, d.mutationModel⟩

/-- One head of a Body: an author-signed transaction and its artifacts. -/
structure BodyHead where
  /-- The id of this head's transaction. -/
  tx : Bytes
  descriptorHash : Bytes
  txCommitment : Bytes
  /-- The signed artifacts, or `none` for the record's own closure. -/
  artifacts : Option (List ArtifactRef)
  /-- The signed transaction record object (durable stores only). -/
  transaction : Option Object
  artifactBytes : ℕ
  txLen : ℕ
  deriving DecidableEq

/-- One Body's record in the Replica index. -/
structure BodyRecord where
  binding : BodyBinding
  chain : ReplicaFrontier
  heads : List BodyHead
  /-- Whether the local engine interprets the Body; otherwise it is opaque. -/
  interpreted : Bool
  causal : Option Material
  deriving DecidableEq

/-- Saturating sum of a list of lengths. -/
def saturatingSum (l : List ℕ) : ℕ := l.foldl saturatingAdd 0

namespace BodyRecord

/-- The primary head. -/
def head (record : BodyRecord) : Except Failure BodyHead :=
  match record.heads with
  | head :: _ => .ok head
  | [] => .error (.integrity .missingMaterial)

/-- The record's own closure, empty when it has no material. -/
def closure (record : BodyRecord) : List ArtifactRef :=
  match record.causal with
  | some material => material.artifactRefs
  | none => []

/-- The artifacts of one head. -/
def artifacts (record : BodyRecord) (head : BodyHead) : List ArtifactRef :=
  match head.artifacts with
  | some artifacts => artifacts
  | none => record.closure

/-- Write the closure of a single compact head out explicitly. -/
def promoteSingletonClosure (record : BodyRecord) : Except Failure BodyRecord :=
  match record.heads with
  | [head] =>
      match head.artifacts with
      | some _ => .ok record
      | none =>
          match record.causal with
          | some material =>
              .ok { record with heads := [{ head with artifacts := some material.artifactRefs }] }
          | none => .error (.integrity .missingMaterial)
  | _ => .ok record

/-- Drop the explicit closure of a single head that repeats the record's. -/
def compactSingletonClosure (record : BodyRecord) : BodyRecord :=
  match record.heads, record.causal with
  | [head], some material =>
      if head.artifacts = some material.artifactRefs then
        { record with heads := [{ head with artifacts := none }] }
      else record
  | _, _ => record

/-- Replace the record's material, freezing the signed closure first. -/
def replaceCausal (record : BodyRecord) (causal : Option Material) : Except Failure BodyRecord := do
  let record ← record.promoteSingletonClosure
  return { record with causal }.compactSingletonClosure

/-- Total protected artifact bytes across heads. -/
def protectedTotal (record : BodyRecord) : ℕ :=
  saturatingSum (record.heads.map BodyHead.artifactBytes)

/-- Whether some head carries this transaction commitment. -/
def hasCommitment (record : BodyRecord) (commitment : Bytes) : Bool :=
  record.heads.any fun head => head.txCommitment = commitment

end BodyRecord

/-- What a read snapshot stamps a Body with: the chain and the head set. -/
def recordStamp (record : BodyRecord) : Bytes :=
  Bytes.join (record.chain.root :: Bytes.be64 record.chain.transactionCount ::
    Bytes.sort (record.heads.map BodyHead.txCommitment))

/-- The advertised entry of a Body. -/
def manifestEntry (key : BodyKey) (record : BodyRecord) (contentRefs : List Bytes) :
    Except Failure ManifestEntry :=
  match ManifestEntry.declaring key
      (record.heads.map fun h => ⟨h.descriptorHash, h.txCommitment⟩) contentRefs with
  | .ok entry => .ok entry
  | .error _ => .error (.integrity .encoding)

/-! ## What rewriting a closure keeps -/

/-- A head apart from where its artifacts are. -/
def BodyHead.identity (head : BodyHead) : Bytes × Bytes × Bytes × Option Object :=
  (head.tx, head.descriptorHash, head.txCommitment, head.transaction)

/-- What a record says apart from the material that reconstructs it. -/
structure RecordShape where
  binding : BodyBinding
  chain : ReplicaFrontier
  heads : List (Bytes × Bytes × Bytes × Option Object)
  interpreted : Bool
  deriving DecidableEq

namespace BodyRecord

def shape (record : BodyRecord) : RecordShape :=
  ⟨record.binding, record.chain, record.heads.map BodyHead.identity, record.interpreted⟩

theorem promoteSingletonClosure_eq_ok {record record' : BodyRecord}
    (h : record.promoteSingletonClosure = .ok record') :
    record'.shape = record.shape ∧ record'.causal = record.causal := by
  unfold promoteSingletonClosure at h
  split at h
  case h_1 head hheads =>
    split at h
    · cases h
      exact ⟨rfl, rfl⟩
    · split at h
      · cases h
        refine ⟨?_, rfl⟩
        simp [shape, hheads, BodyHead.identity]
      · cases h
  case h_2 =>
    cases h
    exact ⟨rfl, rfl⟩

@[simp] theorem shape_compactSingletonClosure (record : BodyRecord) :
    record.compactSingletonClosure.shape = record.shape := by
  unfold compactSingletonClosure
  split
  case h_1 head material hheads hcausal =>
    split
    · simp [shape, hheads, BodyHead.identity]
    · rfl
  case h_2 => rfl

@[simp] theorem causal_compactSingletonClosure (record : BodyRecord) :
    record.compactSingletonClosure.causal = record.causal := by
  unfold compactSingletonClosure
  split
  · split <;> rfl
  · rfl

theorem replaceCausal_eq_ok {record record' : BodyRecord} {causal : Option Material}
    (h : record.replaceCausal causal = .ok record') :
    record'.shape = record.shape ∧ record'.causal = causal := by
  unfold replaceCausal at h
  cases hpromote : record.promoteSingletonClosure with
  | error failure =>
      rw [hpromote] at h
      cases h
  | ok promoted =>
      rw [hpromote] at h
      cases h
      refine ⟨?_, by rw [causal_compactSingletonClosure]⟩
      rw [shape_compactSingletonClosure, ← (promoteSingletonClosure_eq_ok hpromote).1]
      rfl

end BodyRecord

/-- A Body is advertised by its heads. -/
theorem manifestEntry_eq_of_heads (key : BodyKey) {record record' : BodyRecord}
    (h : record.shape.heads = record'.shape.heads) (contentRefs : List Bytes) :
    manifestEntry key record contentRefs = manifestEntry key record' contentRefs := by
  have hheads := congrArg (fun heads : List (Bytes × Bytes × Bytes × Option Object) =>
    heads.map fun head => (⟨head.2.1, head.2.2.1⟩ : ManifestHead)) h
  have hadvertised : (record.heads.map fun h => (⟨h.descriptorHash, h.txCommitment⟩ : ManifestHead))
      = record'.heads.map fun h => ⟨h.descriptorHash, h.txCommitment⟩ := by
    simpa [BodyRecord.shape, BodyHead.identity, Function.comp_def] using hheads
  unfold manifestEntry
  rw [hadvertised]

theorem manifestEntry_eq_of_shape (key : BodyKey) {record record' : BodyRecord}
    (h : record.shape = record'.shape) (contentRefs : List Bytes) :
    manifestEntry key record contentRefs = manifestEntry key record' contentRefs :=
  manifestEntry_eq_of_heads key (congrArg RecordShape.heads h) contentRefs

end Lait.Replica
