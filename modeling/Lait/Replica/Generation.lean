import Lait.Replica.Record

/-!
# Read generations

Every published manifest root leaves one immutable **generation delta**: the
Bodies that changed, and the root it was derived from.  The generation index
maps a root to its delta object and to a **footprint**, which prices a
reconstruction before any object is read.

A delta with no parent is a baseline: it archives every Body.
-/

namespace Lait.Replica

def MAX_GENERATION_SOURCES : ℕ := 4096
def MAX_GENERATION_RECONSTRUCTION_DEPTH : ℕ := 1048576
def GENERATION_DELTA_DECODE_MULTIPLIER : ℕ := 4
def GENERATION_DELTA_FIXED_TRANSIENT_BYTES : ℕ := 1024
def GENERATION_CHANGED_BODY_TRANSIENT_BYTES : ℕ := 1024
def GENERATION_DELTA_FORMAT_VERSION : ℕ := 3
def SNAPSHOT_BODY_FIXED_ESTIMATE : ℕ := 400

/-- The schema coordinate readable Bodies are counted by. -/
abbrev SourceKey := WorldId ×ₗ SchemaId ×ₗ ℕ

instance transOrdSourceKey : Std.TransOrd SourceKey := inferInstance

/-- The readable Bodies of one source, and their payload bytes. -/
structure SourceFootprint where
  bodyCount : ℕ
  payloadBytes : ℕ
  deriving DecidableEq

/-- Admission metadata for one exact generation. -/
structure GenerationFootprint where
  bodyCount : ℕ
  snapshotRetainedBytes : ℕ
  /-- Deltas from this root to its baseline. -/
  reconstructionDepth : ℕ
  /-- The lengths of the deltas in that chain. -/
  reconstructionDeltaBytes : ℕ
  /-- Peak bytes while the chain is decoded. -/
  reconstructionTransientBytes : ℕ
  sources : BTreeMap SourceKey SourceFootprint

/-- One Body of a generation delta. -/
structure ArchivedBody where
  key : BodyKey
  present : Bool
  interpreted : Bool
  binding : Option BodyBinding
  stamp : Bytes
  material : Option Material
  deriving DecidableEq

/-- What it takes to replay one generation from its parent. -/
structure GenerationDelta where
  formatVersion : ℕ
  root : Bytes
  parent : Option Bytes
  frontier : ReplicaFrontier
  changed : List ArchivedBody
  descriptors : List ContentDescriptor
  removedDescriptors : List Bytes
  deriving DecidableEq

/-- One entry of the generation index. -/
structure IndexedGeneration where
  root : Bytes
  object : Object
  footprint : GenerationFootprint

/-- The generation index. -/
abbrev GenerationIndex := BTreeMap Bytes IndexedGeneration

/-- The catalog key of a generation. -/
def generationIndexKey [Crypto] (root : Bytes) : Bytes :=
  Crypto.blake3 (Bytes.join [Bytes.ofString "lait/replica/read-generation/1", root])

/-- `ok_or`. -/
def okOr {α : Type} (failure : Failure) : Option α → Except Failure α
  | some a => .ok a
  | none => .error failure

theorem okOr_eq_ok {α : Type} {failure : Failure} {o : Option α} {a : α} :
    okOr failure o = .ok a ↔ o = some a := by
  cases o with
  | none => exact ⟨fun h => (nomatch h), fun h => (nomatch h)⟩
  | some b => rw [okOr, Except.ok.injEq, Option.some.injEq]

namespace GenerationFootprint

/-- `default()`. -/
def zero : GenerationFootprint := ⟨0, 0, 0, 0, 0, ∅⟩

/-- The bytes a snapshot keeps for one record. -/
def retainedEstimate [Postcard Material] (record : BodyRecord) : ℕ :=
  saturatingAdd (SNAPSHOT_BODY_FIXED_ESTIMATE + 32)
    (match record.causal with
      | some material => saturatingAdd (Postcard.toStdvec material).length 32
      | none => 32)

/-- The source a record is counted under. -/
def sourceKey (key : BodyKey) (record : BodyRecord) : SourceKey :=
  toLex (key.world, toLex (record.binding.schema, record.binding.schemaVersion))

/-- The readable-body total, which must not overflow. -/
def readableBodies (footprint : GenerationFootprint) : Except Failure ℕ :=
  (BTreeMap.valuesOf footprint.sources).foldlM (fun total source =>
    okOr (.integrity .encoding) (checkedAdd total source.bodyCount)) 0

def validate (footprint : GenerationFootprint) : Except Failure Unit := do
  let readable ← footprint.readableBodies
  if MAX_GENERATION_SOURCES < footprint.sources.size
      ∨ (BTreeMap.valuesOf footprint.sources).any (fun source => source.bodyCount = 0)
      ∨ footprint.bodyCount < readable
      ∨ ¬ (footprint.bodyCount = 0 ↔ footprint.snapshotRetainedBytes = 0)
      ∨ MAX_GENERATION_RECONSTRUCTION_DEPTH < footprint.reconstructionDepth
      ∨ ¬ (footprint.reconstructionDepth = 0 ↔
          footprint.reconstructionDeltaBytes = 0 ∧ footprint.reconstructionTransientBytes = 0)
      ∨ footprint.reconstructionTransientBytes < footprint.reconstructionDeltaBytes then
    throw (.integrity .encoding)

/-- Count a record in. -/
def addRecord [Postcard Material] (footprint : GenerationFootprint) (key : BodyKey)
    (record : BodyRecord) : Except Failure GenerationFootprint := do
  let bodyCount ← okOr .quotaExceeded (checkedAdd footprint.bodyCount 1)
  let snapshotRetainedBytes ←
    okOr .quotaExceeded (checkedAdd footprint.snapshotRetainedBytes (retainedEstimate record))
  let footprint := { footprint with bodyCount, snapshotRetainedBytes }
  if ¬ record.interpreted then return footprint
  let payload := (record.causal.map Material.plaintextSize).getD 0
  match footprint.sources[sourceKey key record]? with
  | some source =>
      let count ← okOr .quotaExceeded (checkedAdd source.bodyCount 1)
      let bytes ← okOr .quotaExceeded (checkedAdd source.payloadBytes payload)
      return { footprint with
        sources := footprint.sources.insert (sourceKey key record) ⟨count, bytes⟩ }
  | none =>
      if MAX_GENERATION_SOURCES ≤ footprint.sources.size then throw .quotaExceeded
      return { footprint with
        sources := footprint.sources.insert (sourceKey key record) ⟨1, payload⟩ }

/-- Count a record out. -/
def removeRecord [Postcard Material] (footprint : GenerationFootprint) (key : BodyKey)
    (record : BodyRecord) : Except Failure GenerationFootprint := do
  let bodyCount ← okOr (.integrity .index) (checkedSub footprint.bodyCount 1)
  let snapshotRetainedBytes ←
    okOr (.integrity .index) (checkedSub footprint.snapshotRetainedBytes (retainedEstimate record))
  let footprint := { footprint with bodyCount, snapshotRetainedBytes }
  if ¬ record.interpreted then return footprint
  let payload := (record.causal.map Material.plaintextSize).getD 0
  match footprint.sources[sourceKey key record]? with
  | some source =>
      let count ← okOr (.integrity .index) (checkedSub source.bodyCount 1)
      let bytes ← okOr (.integrity .index) (checkedSub source.payloadBytes payload)
      if count = 0 then
        return { footprint with sources := footprint.sources.erase (sourceKey key record) }
      return { footprint with
        sources := footprint.sources.insert (sourceKey key record) ⟨count, bytes⟩ }
  | none => throw (.integrity .index)

/-- Count one changed Body: its prior record out, its replacement in. -/
def replaceRecord [Postcard Material] (current : BTreeMap BodyKey BodyRecord)
    (footprint : GenerationFootprint) (change : BodyKey × Option BodyRecord) :
    Except Failure GenerationFootprint := do
  let footprint ← match current[change.1]? with
    | some prior => footprint.removeRecord change.1 prior
    | none => pure footprint
  match change.2 with
  | some replacement => footprint.addRecord change.1 replacement
  | none => pure footprint

/-- `after_changes`. -/
def afterChanges [Postcard Material] (footprint : GenerationFootprint)
    (current : BTreeMap BodyKey BodyRecord) (changed : BTreeMap BodyKey (Option BodyRecord)) :
    Except Failure GenerationFootprint := do
  let next ← changed.toList.foldlM (replaceRecord current) footprint
  next.validate
  return next

/-- Price one more delta on top of the parent's chain. -/
def recordGenerationDelta (footprint : GenerationFootprint) (parent : Option GenerationFootprint)
    (delta : GenerationDelta) (encodedLen : ℕ) : Except Failure GenerationFootprint := do
  let parentDepth := (parent.map reconstructionDepth).getD 0
  let parentBytes := (parent.map reconstructionDeltaBytes).getD 0
  let parentTransient := (parent.map reconstructionTransientBytes).getD 0
  if MAX_GENERATION_RECONSTRUCTION_DEPTH < parentDepth + 1 then throw .quotaExceeded
  let reconstructionDeltaBytes ← okOr .quotaExceeded (checkedAdd parentBytes encodedLen)
  let transient :=
    encodedLen * GENERATION_DELTA_DECODE_MULTIPLIER + GENERATION_DELTA_FIXED_TRANSIENT_BYTES +
      delta.changed.length * GENERATION_CHANGED_BODY_TRANSIENT_BYTES
  if U64_MAX < transient then throw .quotaExceeded
  let reconstructionTransientBytes ← okOr .quotaExceeded (checkedAdd parentTransient transient)
  let next := { footprint with
    reconstructionDepth := parentDepth + 1
    reconstructionDeltaBytes
    reconstructionTransientBytes }
  next.validate
  return next

end GenerationFootprint

/-- One Body as a delta archives it: its record after the commit, and the binding
it had when the commit removed it. -/
def archive (bodies : BTreeMap BodyKey BodyRecord) (changed : BTreeMap BodyKey (Option BodyRecord))
    (key : BodyKey) : ArchivedBody :=
  let next :=
    match changed[key]? with
    | some replacement => replacement
    | none => bodies[key]?
  { key
    present := next.isSome
    interpreted := (next.map BodyRecord.interpreted).getD false
    binding := (next.map BodyRecord.binding).or (bodies[key]?.map BodyRecord.binding)
    stamp := (next.map recordStamp).getD Bytes.empty
    material := next.bind BodyRecord.causal }

end Lait.Replica
