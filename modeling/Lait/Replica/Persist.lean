import Lait.Replica.Sealing

/-!
# The one durable write

`persist` is the single path by which Bodies, declarations, content and receipts
become durable.  It goes through stages, and can fail between any two of them:

1. `materializeAll` — seal the causal material of every Body whose state moved;
2. `afterChanges` — the footprint of the next read generation;
3. `stageAll` — per changed Body, the owners it gains and loses, its record and
   its advertised entry, and, **in place**, its declarations in memory;
4. `draftCatalogs` — the Body, manifest, content and receipt catalogs;
5. the signed root, then `sealGeneration` — the delta of the new generation;
6. `applyOwnershipChanges`, the journal commit, and only then the new state.

A failure at the journal poisons the Replica.  A failure before it does not, and
does not undo stage 3.
-/

namespace Lait.Replica

variable [Crypto] [Loro] [Aead] [Codecs] [ReceiptCodecs]

/-- What one durable write is asked to publish.  Without a context it stores a
receipt and signs nothing. -/
structure PersistRequest where
  ctx : Option CommitContext
  changed : BTreeMap BodyKey (Option BodyRecord)
  declared : BTreeMap BodyKey (List Bytes)
  descriptors : List ContentDescriptor
  receipt : Option RequestReceipt
  newObjects : List Bytes
  nextFrontier : ReplicaFrontier

/-! ## Stage 1: causal material -/

/-- Whether a changed record's interpreted state differs from the committed one. -/
def stateChanged (prior : Option BodyRecord) (record : BodyRecord) : Bool :=
  prior.map recordStamp ≠ some (recordStamp record) ||
    prior.any fun old => old.interpreted ≠ record.interpreted

/-- Whether a record already carries the material of the engine's content. -/
def materialPrepared (self : Replica) (key : BodyKey) (prior : Option BodyRecord)
    (record : BodyRecord) : Bool :=
  match record.causal with
  | none => false
  | some material =>
      Demand.isOk material.validate &&
        self.fabric.version (fabricKey key) = .ok material.version &&
        (record.binding.mutationModel = MUTATION_COLLABORATIVE ||
          prior.bind BodyRecord.causal ≠ some material)

/-- The changed records and the pending objects, as materializing leaves them. -/
abbrev Materialized := BTreeMap BodyKey (Option BodyRecord) × List Bytes

/-- Materialize one changed Body. -/
def materializeOne (self : Replica) (amb : Ambient) (acc : Materialized) (key : BodyKey) :
    Replica × Except Failure Materialized :=
  let (changed, newObjects) := acc
  let prior := self.bodies[key]?
  match changed[key]? with
  | some (some record) =>
      if ¬ record.interpreted ∨ ¬ stateChanged prior record ∨ materialPrepared self key prior record
      then (self, .ok acc)
      else
        match self.nextCausalMaterial amb key record (prior.bind BodyRecord.causal) newObjects with
        | (self, .error failure) => (self, .error failure)
        | (self, .ok (material, artifacts)) =>
            match record.replaceCausal (some material) with
            | .error failure => (self, .error failure)
            | .ok record => (self, .ok (changed.insert key (some record), newObjects ++ artifacts))
  | _ => (self, .ok acc)

/-- Materialize every changed Body, in key order. -/
def materializeAll (amb : Ambient) : List BodyKey → Replica → Materialized →
    Replica × Except Failure Materialized
  | [], self, acc => (self, .ok acc)
  | key :: keys, self, acc =>
      match self.materializeOne amb acc key with
      | (self, .error failure) => (self, .error failure)
      | (self, .ok acc) => materializeAll amb keys self acc

/-- `materializeAll` and the compaction of every changed record. -/
def materialize (self : Replica) (amb : Ambient) (request : PersistRequest) :
    Replica × Except Failure Materialized :=
  let compact := fun (changed : BTreeMap BodyKey (Option BodyRecord)) =>
    changed.map fun _ record => record.map BodyRecord.compactSingletonClosure
  if request.ctx.isNone then (self, .ok (compact request.changed, request.newObjects))
  else
    match materializeAll amb request.changed.keys self (request.changed, request.newObjects) with
    | (self, .error failure) => (self, .error failure)
    | (self, .ok (changed, newObjects)) => (self, .ok (compact changed, newObjects))

/-! ## Stage 3: the changed Bodies -/

/-- What staging the changed Bodies gathers. -/
structure Staging where
  ownership : OwnershipChanges
  bodyChanges : List (Index.Change IndexedBody)
  manifestChanges : List (Index.Change ManifestEntry)

/-- The objects an optional record names. -/
def ownedOf (record : Option BodyRecord) : Except Failure OwnedObjects :=
  match record with
  | some record => record.recordOwnedObjects
  | none => .ok ∅

/-- The declarations a Body is published with: the request's, or those in memory. -/
def declaredRefs (self : Replica) (declared : BTreeMap BodyKey (List Bytes)) (key : BodyKey) :
    List Bytes :=
  (declared[key]?).getD ((self.declaredContent[key]?).getD [])

/-- Stage one changed Body. -/
def stageEntry (self : Replica) (declared : BTreeMap BodyKey (List Bytes)) (staging : Staging)
    (key : BodyKey) (record : Option BodyRecord) : Except Failure Staging := do
  let prior ← ownedOf self.bodies[key]?
  let now ← ownedOf record
  let ownership ← adjustOwnership staging.ownership prior (-1)
  let ownership ← adjustOwnership ownership now 1
  let advertised ← match record with
    | none => pure none
    | some record => do
        let entry ← manifestEntry key record (self.declaredRefs declared key)
        pure (some entry)
  return { ownership
           bodyChanges := staging.bodyChanges ++
             [(bodyIndexKey key, record.map fun record => ⟨key, record⟩)]
           manifestChanges := staging.manifestChanges ++ [(bodyIndexKey key, advertised)] }

/-- Stage every changed Body in key order, moving its declarations in memory. -/
def stageAll (declared : BTreeMap BodyKey (List Bytes)) :
    List (BodyKey × Option BodyRecord) → Replica → Staging → Replica × Except Failure Staging
  | [], self, staging => (self, .ok staging)
  | (key, record) :: rest, self, staging =>
      match self.stageEntry declared staging key record with
      | .error failure => (self, .error failure)
      | .ok staging =>
          let refs := if record.isSome then self.declaredRefs declared key else []
          stageAll declared rest (self.replaceDeclaredContent key refs) staging

/-! ## Stage 4: the catalogs -/

/-- A catalog update, as an integrity check. -/
def applyIndex {ν : Type} [Postcard ν] (index : BTreeMap Bytes ν)
    (changes : List (Index.Change ν)) : Except Failure (BTreeMap Bytes ν) :=
  match Index.apply index changes with
  | .ok index => .ok index
  | .error _ => .error (.integrity .index)

/-- The catalog change of a content descriptor. -/
def contentChange (descriptor : ContentDescriptor) :
    Except Failure (Index.Change ContentDescriptor) :=
  if descriptor.valid then .ok (contentIndexKey descriptor.contentRef, some descriptor)
  else .error (.illegitimate .encoding)

/-- The catalogs and the receipt ledger before the root is signed. -/
structure Draft where
  bodyIndex : BTreeMap Bytes IndexedBody
  manifestBodies : BTreeMap Bytes ManifestEntry
  contentIndex : BTreeMap Bytes ContentDescriptor
  receiptIndex : BTreeMap Bytes IndexedReceipt
  receiptCount : ℕ
  receiptMaterialBytes : ℕ
  receiptObject : Option Object
  ownership : OwnershipChanges
  newObjects : List Bytes

/-- The receipt's part of a draft. -/
def draftReceipt (draft : Draft) (receipt : RequestReceipt) : Except Failure Draft := do
  let bytes ← validateReceiptForStorage receipt
  let receiptCount ← okOr .quotaExceeded (checkedAdd draft.receiptCount 1)
  let receiptMaterialBytes ←
    okOr .quotaExceeded (checkedAdd draft.receiptMaterialBytes bytes.length)
  let reference := objectRef bytes
  let owned ← insertOwned ∅ reference .deferredReceipt
  let ownership ← adjustOwnership draft.ownership owned 1
  let receiptIndex ← applyIndex draft.receiptIndex
    [(receiptIndexKey receipt.scopeKey, some ⟨receipt.scopeKey, reference⟩)]
  return { draft with
    receiptIndex
    receiptCount
    receiptMaterialBytes
    receiptObject := some reference
    ownership
    newObjects := draft.newObjects ++ [bytes] }

/-- The draft of the Body, manifest and content catalogs. -/
def draftBodies (self : Replica) (request : PersistRequest) (staging : Staging)
    (newObjects : List Bytes) : Except Failure Draft := do
  let contentChanges ← request.descriptors.mapM contentChange
  if self.durable.isNone then throw .poisoned
  let bodyIndex ← applyIndex self.catalogs.bodyIndex staging.bodyChanges
  let manifestBodies ← applyIndex self.catalogs.manifestBodies staging.manifestChanges
  let contentIndex ← applyIndex self.catalogs.contentIndex contentChanges
  return { bodyIndex
           manifestBodies
           contentIndex
           receiptIndex := self.catalogs.receiptIndex
           receiptCount := self.receiptCount
           receiptMaterialBytes := self.receiptMaterialBytes
           receiptObject := none
           ownership := staging.ownership
           newObjects }

/-- `persist`, from the content descriptors to the receipt catalog. -/
def draftCatalogs (self : Replica) (request : PersistRequest) (staging : Staging)
    (newObjects : List Bytes) : Except Failure Draft := do
  let draft ← self.draftBodies request staging newObjects
  match request.receipt with
  | none => return draft
  | some receipt => draftReceipt draft receipt

/-! ## Stage 5: root and generation -/

/-- The root a new generation derives from: the published one, once generations
are recorded. -/
def parentGeneration (self : Replica) : Option Bytes :=
  if self.catalogs.generationIndex.isEmpty then none
  else self.manifestRootObject.map Object.hash

/-- Sign a manifest root over two catalogs. -/
def signRoot (ctx : CommitContext) (frontier : ReplicaFrontier)
    (manifestBodies : BTreeMap Bytes ManifestEntry)
    (contentIndex : BTreeMap Bytes ContentDescriptor) : Option ManifestRoot :=
  ManifestRoot.signWith ctx.space frontier (Index.root manifestBodies) (Index.root contentIndex)
    ctx.authorityFrontier ctx.signer

/-- The new root gains an owner, the one it replaces loses it. -/
def rootOwnership (self : Replica) (changes : OwnershipChanges) (reference : Object) :
    Except Failure OwnershipChanges := do
  let next ← insertOwned ∅ reference .eager
  let changes ← adjustOwnership changes next 1
  match self.manifestRootObject with
  | some prior =>
      if prior.hash ≠ reference.hash then
        let owned ← insertOwned ∅ prior .eager
        adjustOwnership changes owned (-1)
      else return changes
  | none => return changes

/-- The objects a generation delta owns: itself and every archived closure. -/
def generationOwned (delta : GenerationDelta) (object : Object) : Except Failure OwnedObjects :=
  insertAllOwned ∅ ((object, .eager) :: delta.changed.flatMap fun archived =>
    match archived.material with
    | some material => material.artifactRefs.map ownedArtifact
    | none => [])

/-- What sealing a generation leaves. -/
structure SealedGeneration where
  ownership : OwnershipChanges
  index : GenerationIndex
  footprint : GenerationFootprint
  bytes : Bytes

/-- Own, price and index one generation delta; a refusal names the operation. -/
def sealGeneration (self : Replica) (operation : Text) (ownership : OwnershipChanges)
    (delta : GenerationDelta) (footprint : GenerationFootprint) :
    Except Failure SealedGeneration := do
  let bytes := Postcard.toStdvec delta
  let reference := objectRef bytes
  let owned ← generationOwned delta reference
  let ownership ← adjustOwnership ownership owned 1
  let footprint ← footprint.recordGenerationDelta
    (if self.parentGeneration.isSome then some self.generationFootprint else none) delta
    bytes.length
  match Index.apply self.catalogs.generationIndex
      [(generationIndexKey delta.root, some ⟨delta.root, reference, footprint⟩)] with
  | .error _ => throw (.integrityCause .index operation)
  | .ok index => return { ownership, index, footprint, bytes }

/-- The Bodies a delta archives: the changed ones, or all when it is a baseline. -/
def archiveKeys (self : Replica) (changed : BTreeMap BodyKey (Option BodyRecord)) :
    List BodyKey :=
  if self.catalogs.generationIndex.isEmpty then
    ManifestEntry.canonical (self.bodies.keys ++ changed.keys)
  else changed.keys

/-- The delta a commit leaves under its root. -/
def commitDelta (self : Replica) (request : PersistRequest)
    (changed : BTreeMap BodyKey (Option BodyRecord)) (root : Bytes) : GenerationDelta where
  formatVersion := GENERATION_DELTA_FORMAT_VERSION
  root := root
  parent := self.parentGeneration
  frontier := request.nextFrontier
  changed := (self.archiveKeys changed).map (archive self.bodies changed)
  descriptors := request.descriptors
  removedDescriptors := []

/-! ## Stage 6: the commit -/

/-- What a durable write is about to install. -/
structure Publication where
  draft : Draft
  manifestRootObject : Option Object
  generationIndex : GenerationIndex
  generationFootprint : GenerationFootprint
  ownership : OwnershipOutcome
  newObjects : List Bytes

/-- Objects required but read on demand: what the changed records and the new
receipt name. -/
def deferredHashes (changed : BTreeMap BodyKey (Option BodyRecord)) (receipt : Option Object) :
    List Bytes :=
  ((BTreeMap.valuesOf changed).filterMap id).flatMap (fun record =>
    ((record.heads.flatMap record.artifacts) ++ record.closure).map ArtifactRef.hash) ++
    (receipt.map Object.hash).toList

/-- The metadata record of a publication. -/
def publicationMeta (self : Replica) (frontier : ReplicaFrontier) (publication : Publication) :
    StoreMeta where
  space := self.space
  frontier := frontier
  quota := self.quota
  catalogs :=
    { bodyIndex := publication.draft.bodyIndex
      manifestBodies := publication.draft.manifestBodies
      contentIndex := publication.draft.contentIndex
      receiptIndex := publication.draft.receiptIndex
      generationIndex := publication.generationIndex
      ownershipIndex := publication.ownership.index }
  receiptCount := publication.draft.receiptCount
  receiptMaterialBytes := publication.draft.receiptMaterialBytes
  manifestRoot := publication.manifestRootObject

/-- Keep the first object of each address. -/
def dedupObjects (objects : List Bytes) : List Bytes :=
  objects.foldl (fun kept bytes =>
    if kept.any fun held => objectContentHash held = objectContentHash bytes then kept
    else kept ++ [bytes]) []

/-- The journal's part of a publication: what is written, and what stops being
required.  An object written by the commit is not also released by it. -/
def publicationDelta (self : Replica) (frontier : ReplicaFrontier)
    (changed : BTreeMap BodyKey (Option BodyRecord)) (publication : Publication) : CommitDelta :=
  let added := dedupObjects publication.newObjects
  let deferred := deferredHashes changed publication.draft.receiptObject
  { eagerAdded := added.filter fun bytes => objectContentHash bytes ∉ deferred
    eagerRemoved := publication.ownership.eagerRemoved.filter fun hash =>
      hash ∉ added.map objectContentHash
    deferredAdded := added.filter fun bytes => objectContentHash bytes ∈ deferred
    deferredRemoved := publication.ownership.deferredRemoved
    record := self.publicationMeta frontier publication }

/-- The state a publication installs. -/
def install (self : Replica) (publication : Publication) : Replica :=
  { self with
    catalogs :=
      { bodyIndex := publication.draft.bodyIndex
        manifestBodies := publication.draft.manifestBodies
        contentIndex := publication.draft.contentIndex
        receiptIndex := publication.draft.receiptIndex
        generationIndex := publication.generationIndex
        ownershipIndex := publication.ownership.index }
    receiptCount := publication.draft.receiptCount
    receiptMaterialBytes := publication.draft.receiptMaterialBytes
    generationFootprint := publication.generationFootprint
    manifestRootObject := publication.manifestRootObject }

/-- The journal commit of a delta: what is left of the Replica, and whether the
commit stands.  Any failure here poisons. -/
def commitStore (self : Replica) (delta : CommitDelta) (outcome : CommitOutcome) :
    Replica × Except Failure Unit :=
  match self.durable with
  | none => (self, .error .poisoned)
  | some store =>
      match store.commitClassified delta outcome with
      | (store, .ok ()) => ({ self with durable := some store }, .ok ())
      | (store, .error failure) =>
          ({ self with durable := some store, poisoned := true }, .error failure)

/-- The publication of a request that signs a root. -/
def publicationOf (self : Replica) (request : PersistRequest)
    (changed : BTreeMap BodyKey (Option BodyRecord)) (footprint : GenerationFootprint)
    (draft : Draft) (root : ManifestRoot) : Except Failure Publication := do
  let rootBytes := root.encode
  let reference := objectRef rootBytes
  let ownership ← self.rootOwnership draft.ownership reference
  let generation ← self.sealGeneration (Bytes.ofString "apply committed generation index")
    ownership (self.commitDelta request changed reference.hash) footprint
  let outcome ← applyOwnershipChanges self.catalogs.ownershipIndex generation.ownership
  return { draft
           manifestRootObject := some reference
           generationIndex := generation.index
           generationFootprint := generation.footprint
           ownership := outcome
           newObjects := draft.newObjects ++ [rootBytes, generation.bytes] }

/-- The publication of a request that only stores a receipt. -/
def receiptPublication (self : Replica) (draft : Draft) : Except Failure Publication := do
  let outcome ← applyOwnershipChanges self.catalogs.ownershipIndex draft.ownership
  return { draft
           manifestRootObject := self.manifestRootObject
           generationIndex := self.catalogs.generationIndex
           generationFootprint := self.generationFootprint
           ownership := outcome
           newObjects := draft.newObjects }

/-- Commit a publication and install it. -/
def commitPublication (self : Replica) (amb : Ambient) (frontier : ReplicaFrontier)
    (changed : BTreeMap BodyKey (Option BodyRecord)) (publication : Publication) :
    Replica × Except Failure Unit :=
  match self.commitStore (self.publicationDelta frontier changed publication) amb.outcome with
  | (self, .error failure) => (self, .error failure)
  | (self, .ok ()) => (self.install publication, .ok ())

/-- `persist`: the changed records as they were committed. -/
def persist (self : Replica) (amb : Ambient) (request : PersistRequest) :
    Replica × Except Failure (BTreeMap BodyKey (Option BodyRecord)) :=
  match self.materialize amb request with
  | (self, .error failure) => (self, .error failure)
  | (self, .ok (changed, newObjects)) =>
      match (if request.ctx.isSome then self.generationFootprint.afterChanges self.bodies changed
          else .ok self.generationFootprint) with
      | .error failure => (self, .error failure)
      | .ok footprint =>
          match stageAll request.declared changed.toList self ⟨∅, [], []⟩ with
          | (self, .error failure) => (self, .error failure)
          | (self, .ok staging) =>
              match self.draftCatalogs request staging newObjects with
              | .error failure => (self, .error failure)
              | .ok draft =>
                  match request.ctx with
                  | none =>
                      match self.receiptPublication draft with
                      | .error failure => (self, .error failure)
                      | .ok publication =>
                          match self.commitPublication amb request.nextFrontier changed publication with
                          | (self, .error failure) => (self, .error failure)
                          | (self, .ok ()) => (self, .ok changed)
                  | some ctx =>
                      match signRoot ctx request.nextFrontier draft.manifestBodies
                          draft.contentIndex with
                      | none => (self, .error (.illegitimate .binding))
                      | some root =>
                          let self := { self with signed := root :: self.signed }
                          match self.publicationOf request changed footprint draft root with
                          | .error failure => (self, .error failure)
                          | .ok publication =>
                              match self.commitPublication amb request.nextFrontier changed
                                  publication with
                              | (self, .error failure) => (self, .error failure)
                              | (self, .ok ()) => (self, .ok changed)

end Lait.Replica
