import Lait.Replica.Persist

/-!
# Content: committing, declaring, sweeping, advertising

Four operations move the content catalog or what is advertised of it.

* `commitContent` — descriptors become nameable.
* `declareContent` — Bodies name content.
* `sweepUnreferencedContentAt` — descriptors nothing keeps leave the catalog.
  It republishes under a shrunken catalog by itself, outside `persist`.
* `exportManifest` — sign what a Contact serves: every Body, and **only the
  content those Bodies reach**.  It changes nothing but the list of signed roots.

The first three move the published frontier by `advancePublished`.
-/

namespace Lait.Replica

section Commit

variable [Crypto] [Loro] [Aead] [Codecs] [ReceiptCodecs]

/-- The write of `commitContent`. -/
def contentRequest (self : Replica) (ctx : CommitContext) (descriptors : List ContentDescriptor) :
    PersistRequest where
  ctx := some ctx
  changed := ∅
  declared := ∅
  descriptors := descriptors
  receipt := none
  newObjects := []
  nextFrontier :=
    advancePublished self.frontier (Bytes.join (descriptors.map ContentDescriptor.contentRef))

/-- `commit_content`. -/
def commitContent (self : Replica) (amb : Ambient) (ctx : CommitContext)
    (descriptors : List ContentDescriptor) : Replica × Except Failure (List Bytes) :=
  match self.mutationAvailable with
  | .error failure => (self, .error failure)
  | .ok () =>
      let request := self.contentRequest ctx descriptors
      match self.persist amb request with
      | (self, .error failure) => (self, .error failure)
      | (self, .ok _) =>
          ({ self with frontier := request.nextFrontier },
            .ok (descriptors.map ContentDescriptor.contentRef))

/-- `hold_content`. -/
def holdContent (self : Replica) (content : Bytes) (until' : ℕ) : Replica :=
  { self with pendingContent := self.pendingContent.insert content until' }

/-- `release_content_hold`. -/
def releaseContentHold (self : Replica) (content : Bytes) : Replica :=
  { self with pendingContent := self.pendingContent.erase content }

/-- Check a World's declarations against the Bodies and descriptors held, and
canonicalize them. -/
def checkDeclarations (self : Replica) :
    List (BodyKey × List Bytes) → Except Failure (List (BodyKey × List Bytes × BodyRecord))
  | [] => .ok []
  | (key, refs) :: rest => do
      if MAX_CONTENT_REFS_PER_BODY < refs.length then throw (.illegitimate .binding)
      let record ← okOr (.illegitimate .binding) self.bodies[key]?
      if refs.any fun content => (self.contentDescriptor content).isNone then
        throw (.illegitimate .binding)
      let rest ← checkDeclarations self rest
      return (key, ManifestEntry.canonical refs, record) :: rest

/-- The causal bytes of declarations: each Body's key and what it names. -/
def declarationCausal (declared : BTreeMap BodyKey (List Bytes)) : Bytes :=
  Bytes.join (declared.toList.flatMap fun entry => bodyIndexKey entry.1 :: entry.2)

/-- The write of `declareContent`: the Bodies are republished as they are. -/
def declareRequest (self : Replica) (ctx : CommitContext)
    (checked : List (BodyKey × List Bytes × BodyRecord)) : PersistRequest :=
  let declared : BTreeMap BodyKey (List Bytes) :=
    checked.foldl (fun declared entry => declared.insert entry.1 entry.2.1) ∅
  { ctx := some ctx
    changed := checked.foldl (fun changed entry => changed.insert entry.1 (some entry.2.2)) ∅
    declared
    descriptors := []
    receipt := none
    newObjects := []
    nextFrontier := advancePublished self.frontier (declarationCausal declared) }

/-- `declare_content`. -/
def declareContent (self : Replica) (amb : Ambient) (ctx : CommitContext)
    (declarations : BTreeMap BodyKey (List Bytes)) : Replica × Except Failure Unit :=
  match self.mutationAvailable with
  | .error failure => (self, .error failure)
  | .ok () =>
      match self.checkDeclarations declarations.toList with
      | .error failure => (self, .error failure)
      | .ok checked =>
          let request := self.declareRequest ctx checked
          match self.persist amb request with
          | (self, .error failure) => (self, .error failure)
          | (self, .ok _) =>
              -- The Body each hold was waiting for has arrived.
              ({ self with
                  frontier := request.nextFrontier
                  pendingContent := (BTreeMap.valuesOf request.declared).flatten.foldl
                    (fun pending content => pending.erase content) self.pendingContent }, .ok ())

/-- `forget_declaration`: drop a Body's declaration in memory. -/
def forgetDeclaration (self : Replica) (key : BodyKey) : Replica :=
  self.replaceDeclaredContent key []

end Commit

/-! ## The sweep -/

section Sweep

variable [Crypto] [Loro] [Codecs] [ReceiptCodecs]

/-- The committed descriptors nothing keeps at an instant, in catalog order. -/
def unreferenced (self : Replica) (now : ℕ) : List ContentDescriptor :=
  let retained := self.retainedContent now
  (BTreeMap.valuesOf self.catalogs.contentIndex).filter fun d => d.contentRef ∉ retained

/-- The generation delta a sweep leaves under its root. -/
def sweepDelta (self : Replica) (frontier : ReplicaFrontier) (swept : List ContentDescriptor)
    (root : Bytes) : GenerationDelta where
  formatVersion := GENERATION_DELTA_FORMAT_VERSION
  root := root
  parent := self.parentGeneration
  frontier := frontier
  changed :=
    if self.catalogs.generationIndex.isEmpty then
      self.bodies.keys.map (archive self.bodies ∅)
    else []
  descriptors := []
  removedDescriptors := swept.map ContentDescriptor.contentRef

/-- What a sweep publishes under a signed root: the Body and receipt catalogs as
they are, over a smaller content catalog. -/
def sweepPublication (self : Replica) (frontier : ReplicaFrontier)
    (swept : List ContentDescriptor) (contentIndex : BTreeMap Bytes ContentDescriptor)
    (root : ManifestRoot) : Except Failure Publication := do
  let rootBytes := root.encode
  let reference := objectRef rootBytes
  let ownership ← self.rootOwnership ∅ reference
  let generation ← self.sealGeneration (Bytes.ofString "apply content-sweep generation index")
    ownership (self.sweepDelta frontier swept reference.hash) self.generationFootprint
  let outcome ← applyOwnershipChanges self.catalogs.ownershipIndex generation.ownership
  return {
    draft :=
      { bodyIndex := self.catalogs.bodyIndex
        manifestBodies := self.catalogs.manifestBodies
        contentIndex
        receiptIndex := self.catalogs.receiptIndex
        receiptCount := self.receiptCount
        receiptMaterialBytes := self.receiptMaterialBytes
        receiptObject := none
        ownership := generation.ownership
        newObjects := [] }
    manifestRootObject := some reference
    generationIndex := generation.index
    generationFootprint := generation.footprint
    ownership := outcome
    newObjects := [rootBytes, generation.bytes] }

/-- The journal's part of a sweep. -/
def sweepCommit (self : Replica) (frontier : ReplicaFrontier) (publication : Publication) :
    CommitDelta where
  eagerAdded := publication.newObjects
  eagerRemoved := publication.ownership.eagerRemoved
  deferredAdded := []
  deferredRemoved := publication.ownership.deferredRemoved
  record := self.publicationMeta frontier publication

/-- `sweep_unreferenced_content_at`: the content swept. -/
def sweepUnreferencedContentAt (self : Replica) (amb : Ambient) (ctx : CommitContext) (now : ℕ) :
    Replica × Except Failure (List Bytes) :=
  let self := { self with
    pendingContent := self.pendingContent.filter fun _ until' => decide (now < until') }
  if self.durable.isNone then (self, .error .poisoned)
  else
    let swept := self.unreferenced now
    if swept.isEmpty then (self, .ok [])
    else
      let refs := swept.map ContentDescriptor.contentRef
      match applyIndex self.catalogs.contentIndex
          (refs.map fun content => (contentIndexKey content, none)) with
      | .error failure => (self, .error failure)
      | .ok contentIndex =>
          let frontier := advancePublished self.frontier (Bytes.join refs)
          -- The root is signed here, not in `persist`.
          match signRoot ctx frontier self.catalogs.manifestBodies contentIndex with
          | none => (self, .error (.illegitimate .binding))
          | some root =>
              let self := { self with signed := root :: self.signed }
              match self.sweepPublication frontier swept contentIndex root with
              | .error failure => (self, .error failure)
              | .ok publication =>
                  match self.commitStore (self.sweepCommit frontier publication) amb.outcome with
                  | (self, .error failure) => (self, .error failure)
                  | (self, .ok ()) =>
                      ({ self.install publication with frontier }, .ok refs)

end Sweep

/-! ## Advertising -/

section Export

variable [Crypto] [Loro] [Codecs]

/-- `advertised_descriptors`: the committed descriptors some live Body declares. -/
def advertisedDescriptors (self : Replica) : List ContentDescriptor :=
  if self.durable.isNone then []
  else
    let reachable := self.reachableContent
    (BTreeMap.valuesOf self.catalogs.contentIndex).filter fun d => d.contentRef ∈ reachable

/-- The entry of every Body, under its catalog key. -/
def exportEntries (self : Replica) : Except Failure (List (Index.Change ManifestEntry)) :=
  self.bodies.toList.mapM fun entry => do
    let advertised ← manifestEntry entry.1 entry.2 ((self.declaredContent[entry.1]?).getD [])
    return (bodyIndexKey entry.1, some advertised)

/-- `build_index`: a fresh catalog, refused when a key repeats. -/
def exportIndex {ν : Type} [Postcard ν] (changes : List (Index.Change ν)) :
    Except Failure (BTreeMap Bytes ν) :=
  if ¬ (changes.map Prod.fst).Nodup then .error (.illegitimate .index)
  else
    match Index.apply ∅ changes with
    | .ok index => .ok index
    | .error _ => .error (.illegitimate .index)

/-- `build_content_index` over the advertised descriptors. -/
def exportContent (self : Replica) : Except Failure (BTreeMap Bytes ContentDescriptor) :=
  let advertised := self.advertisedDescriptors
  if advertised.all ContentDescriptor.valid then
    exportIndex (advertised.map fun d : ContentDescriptor =>
      (contentIndexKey d.contentRef, some d))
  else .error (.illegitimate .index)

/-- The two catalogs an advertisement is signed over. -/
def exportCatalogs (self : Replica) :
    Except Failure (BTreeMap Bytes ManifestEntry × BTreeMap Bytes ContentDescriptor) := do
  let entries ← self.exportEntries
  let bodies ← exportIndex entries
  let content ← self.exportContent
  return (bodies, content)

/-- `export_manifest`: the signed root a Contact serves. -/
def exportManifest (self : Replica) (ctx : CommitContext) : Replica × Except Failure Bytes :=
  match self.exportCatalogs with
  | .error failure => (self, .error failure)
  | .ok (bodies, content) =>
      match signRoot ctx self.frontier bodies content with
      | none => (self, .error (.illegitimate .binding))
      | some root => ({ self with signed := root :: self.signed }, .ok root.encode)

end Export

end Lait.Replica
