import Lait.Wire
import Lait.Replica.State

/-!
# Concrete encodings

One lawful instance of the codec parameters, in the shape the source's `serde`
derives give: a record is its fields in order, an enumeration its tag and then
its fields.  A digest has no fixed length here and carries its length in front.

Results about the Replica are proved for every choice of codecs; this one is for
evaluation, and shows that what those results assume of a codec can be had.
-/

namespace Lait.Replica

open Wire

namespace Encodings

/-! ### Artifacts -/

/-- A frontier: its root, and how many transactions lie behind it. -/
def frontier : Wire ReplicaFrontier :=
  iso (pair bytes nat) (fun f => (f.root, f.transactionCount)) (fun p => ⟨p.1, p.2⟩) fun _ => rfl

/-- An operation's identity; sequences are signed. -/
def opHead : Wire OpHead :=
  iso (pair nat int) (fun h => (h.writer, h.sequence)) (fun p => ⟨p.1, p.2⟩) fun _ => rfl

/-- A version: its heads, under the format of their list. -/
def version : Wire Version :=
  iso (pair nat (list opHead)) (fun v => (v.formatVersion, v.heads)) (fun p => ⟨p.1, p.2⟩)
    fun _ => rfl

/-- A reference to a sealed artifact: its address, its length, the epoch of its key. -/
def artifactRef : Wire ArtifactRef :=
  iso (pair bytes (pair nat bytes)) (fun r => (r.hash, r.len, r.epoch))
    (fun p => ⟨p.1, p.2.1, p.2.2⟩) fun _ => rfl

/-- The material of a Body, from the checkpoint on. -/
def material : Wire Material :=
  iso (pair nat (pair artifactRef (pair (list artifactRef)
      (pair (option bytes) (pair nat (pair version nat))))))
    (fun m => (m.formatVersion, m.checkpoint, m.deltaTail, m.historyRoot, m.historyCount,
      m.version, m.plaintextSize))
    (fun p => ⟨p.1, p.2.1, p.2.2.1, p.2.2.2.1, p.2.2.2.2.1, p.2.2.2.2.2.1, p.2.2.2.2.2.2⟩)
    fun _ => rfl

/-- An artifact, under the tag of its kind in the source's order. -/
def artifact : Wire Artifact :=
  iso (sum (pair nat (pair version (pair version bytes)))
      (sum (pair nat (pair version (pair version bytes)))
        (sum (pair nat (pair version bytes)) (pair nat bytes))))
    (fun
      | .delta formatVersion base result payload => .inl (formatVersion, base, result, payload)
      | .checkpoint formatVersion retention result payload =>
          .inr (.inl (formatVersion, retention, result, payload))
      | .archive formatVersion result payload => .inr (.inr (.inl (formatVersion, result, payload)))
      | .replace formatVersion payload => .inr (.inr (.inr (formatVersion, payload))))
    (fun
      | .inl p => .delta p.1 p.2.1 p.2.2.1 p.2.2.2
      | .inr (.inl p) => .checkpoint p.1 p.2.1 p.2.2.1 p.2.2.2
      | .inr (.inr (.inl p)) => .archive p.1 p.2.1 p.2.2
      | .inr (.inr (.inr p)) => .replace p.1 p.2)
    (fun a => by cases a <;> rfl)

/-! ### Transactions -/

/-- A Body, by its World. -/
def bodyKey : Wire BodyKey :=
  iso (pair bytes bytes) (fun k => (k.world, k.body)) (fun p => ⟨p.1, p.2⟩) fun _ => rfl

/-- What a transaction declares of one Body: its binding, the frontiers it moves between,
and its material. -/
def descriptor : Wire Descriptor :=
  iso (pair bytes (pair bytes (pair bytes (pair nat (pair bytes (pair nat
      (pair frontier (pair frontier material))))))))
    (fun d => (d.world, d.body, d.schema, d.schemaVersion, d.encoding, d.mutationModel,
      d.baseFrontier, d.resultingFrontier, d.material))
    (fun p => ⟨p.1, p.2.1, p.2.2.1, p.2.2.2.1, p.2.2.2.2.1, p.2.2.2.2.2.1, p.2.2.2.2.2.2.1,
      p.2.2.2.2.2.2.2.1, p.2.2.2.2.2.2.2.2⟩)
    fun _ => rfl

/-- What the author of a transaction signs. -/
def core : Wire Core :=
  iso (pair nat (pair bytes (pair bytes (pair frontier (pair bytes (pair bytes (pair bytes
      (pair bytes (pair bytes (pair bytes (pair bytes (list descriptor))))))))))))
    (fun c => (c.version, c.space, c.parentManifestRoot, c.replicaFrontier, c.authorityFrontier,
      c.actor, c.operation, c.signer, c.intentDigest, c.operationsDigest, c.demand,
      c.descriptors))
    (fun p => ⟨p.1, p.2.1, p.2.2.1, p.2.2.2.1, p.2.2.2.2.1, p.2.2.2.2.2.1, p.2.2.2.2.2.2.1,
      p.2.2.2.2.2.2.2.1, p.2.2.2.2.2.2.2.2.1, p.2.2.2.2.2.2.2.2.2.1, p.2.2.2.2.2.2.2.2.2.2.1,
      p.2.2.2.2.2.2.2.2.2.2.2⟩)
    fun _ => rfl

/-- The signed envelope, which the id of a transaction is the digest of. -/
def transaction : Wire Transaction :=
  iso (pair core (pair bytes (pair nat bytes)))
    (fun t => (t.core, t.authorizationReceipt, t.signatureAlgorithm, t.signature))
    (fun p => ⟨p.1, p.2.1, p.2.2.1, p.2.2.2⟩) fun _ => rfl

/-- What was authorized, and for whom; the decision is one byte. -/
def authorizationReceipt : Wire Demand.AuthorizationReceipt :=
  iso (pair bytes (pair bytes (pair bytes (pair bytes (pair bytes (pair bytes (pair bytes
      (pair bytes (pair bytes (pair bytes (pair bytes (pair bytes (pair bytes byte)))))))))))))
    (fun r => (r.space, r.world, r.actor, r.device, r.authorityFrontier,
      r.authorityCheckpointCommitment, r.policyEvidenceDigest, r.parentManifestRoot,
      r.implementationId, r.intentDigest, r.demandDigest, r.effectOperationsDigest,
      r.bodyTransactionCoreDigest, r.decision))
    (fun p => ⟨p.1, p.2.1, p.2.2.1, p.2.2.2.1, p.2.2.2.2.1, p.2.2.2.2.2.1, p.2.2.2.2.2.2.1,
      p.2.2.2.2.2.2.2.1, p.2.2.2.2.2.2.2.2.1, p.2.2.2.2.2.2.2.2.2.1, p.2.2.2.2.2.2.2.2.2.2.1,
      p.2.2.2.2.2.2.2.2.2.2.2.1, p.2.2.2.2.2.2.2.2.2.2.2.2.1, p.2.2.2.2.2.2.2.2.2.2.2.2.2⟩)
    fun _ => rfl

/-! ### The manifest -/

/-- The descriptor of a content, which its id is the hash of. -/
def contentDescriptor : Wire ContentDescriptor :=
  iso (pair nat (pair bytes (pair bytes (pair nat (pair nat (pair nat (pair bytes bytes)))))))
    (fun d => (d.formatVersion, d.space, d.contentNonce, d.plaintextLen, d.chunkPlaintextLen,
      d.chunkCount, d.ciphertextMerkleRoot, d.epoch))
    (fun p => ⟨p.1, p.2.1, p.2.2.1, p.2.2.2.1, p.2.2.2.2.1, p.2.2.2.2.2.1, p.2.2.2.2.2.2.1,
      p.2.2.2.2.2.2.2⟩)
    fun _ => rfl

/-- A head as the manifest publishes it. -/
def manifestHead : Wire ManifestHead :=
  iso (pair bytes bytes) (fun h => (h.descriptorHash, h.transactionCommitment))
    (fun p => ⟨p.1, p.2⟩) fun _ => rfl

/-- A Body in the manifest: its heads, and the content they declare. -/
def manifestEntry : Wire ManifestEntry :=
  iso (pair bodyKey (pair (list manifestHead) (list bytes)))
    (fun e => (e.key, e.heads, e.contentRefs)) (fun p => ⟨p.1, p.2.1, p.2.2⟩) fun _ => rfl

/-- The root of an index, with the number of its entries. -/
def childRef : Wire ChildRef :=
  iso (pair bytes nat) (fun r => (r.hash, r.count)) (fun p => ⟨p.1, p.2⟩) fun _ => rfl

/-- What a manifest root signs: the roots of both catalogs, and under what authority. -/
def rootPreimage : Wire RootPreimage :=
  iso (pair bytes (pair frontier (pair (option childRef) (pair nat (pair (option childRef)
      (pair nat (pair bytes bytes)))))))
    (fun r => (r.space, r.replicaFrontier, r.bodyIndexRoot, r.bodyCount, r.contentIndexRoot,
      r.contentCount, r.signer, r.authorityFrontier))
    (fun p => ⟨p.1, p.2.1, p.2.2.1, p.2.2.2.1, p.2.2.2.2.1, p.2.2.2.2.2.1, p.2.2.2.2.2.2.1,
      p.2.2.2.2.2.2.2⟩)
    fun _ => rfl

/-- A signed manifest root. -/
def manifestRoot : Wire ManifestRoot :=
  iso (pair nat (pair rootPreimage (pair nat bytes)))
    (fun r => (r.formatVersion, r.content, r.signatureAlgorithm, r.signature))
    (fun p => ⟨p.1, p.2.1, p.2.2.1, p.2.2.2⟩) fun _ => rfl

/-- A node of an index over opaque values, a leaf or a branch. -/
def indexNode : Wire IndexNode :=
  iso (sum (list (pair bytes bytes)) (list (option childRef)))
    (fun | .leaf entries => .inl entries | .branch children => .inr children)
    (fun | .inl entries => .leaf entries | .inr children => .branch children)
    (fun n => by cases n <;> rfl)

/-! ### The catalogs -/

/-- An object, by its address and length. -/
def object : Wire Object :=
  iso (pair bytes nat) (fun o => (o.hash, o.len)) (fun p => ⟨p.1, p.2⟩) fun _ => rfl

/-- The schema a Body is bound to for good. -/
def bodyBinding : Wire BodyBinding :=
  iso (pair bytes (pair nat (pair bytes nat)))
    (fun b => (b.schema, b.schemaVersion, b.encoding, b.mutationModel))
    (fun p => ⟨p.1, p.2.1, p.2.2.1, p.2.2.2⟩) fun _ => rfl

/-- A head as the Replica keeps it; its artifacts are left out where they are those of the
record. -/
def bodyHead : Wire BodyHead :=
  iso (pair bytes (pair bytes (pair bytes (pair (option (list artifactRef)) (pair (option object)
      (pair nat nat))))))
    (fun h => (h.tx, h.descriptorHash, h.txCommitment, h.artifacts, h.transaction,
      h.artifactBytes, h.txLen))
    (fun p => ⟨p.1, p.2.1, p.2.2.1, p.2.2.2.1, p.2.2.2.2.1, p.2.2.2.2.2.1, p.2.2.2.2.2.2⟩)
    fun _ => rfl

/-- The record of a Body, its primary head first. -/
def bodyRecord : Wire BodyRecord :=
  iso (pair bodyBinding (pair frontier (pair (list bodyHead) (pair bool (option material)))))
    (fun r => (r.binding, r.chain, r.heads, r.interpreted, r.causal))
    (fun p => ⟨p.1, p.2.1, p.2.2.1, p.2.2.2.1, p.2.2.2.2⟩) fun _ => rfl

/-- A record in the index; the index goes by a hash, so the key travels along. -/
def indexedBody : Wire IndexedBody :=
  iso (pair bodyKey bodyRecord) (fun i => (i.key, i.record)) (fun p => ⟨p.1, p.2⟩) fun _ => rfl

/-- A receipt in the index, by the scope it answers. -/
def indexedReceipt : Wire IndexedReceipt :=
  iso (pair bytes object) (fun i => (i.scope, i.object)) (fun p => ⟨p.1, p.2⟩) fun _ => rfl

/-! ### Generations -/

/-- A schema in the order the source sorts them: World, then schema, then version. -/
def sourceKey : Wire SourceKey :=
  iso (pair bytes (pair bytes nat))
    (fun k => ((ofLex k).1, (ofLex (ofLex k).2).1, (ofLex (ofLex k).2).2))
    (fun p => toLex (p.1, toLex (p.2.1, p.2.2))) fun _ => rfl

/-- What the Bodies of one schema take up. -/
def sourceFootprint : Wire SourceFootprint :=
  iso (pair nat nat) (fun s => (s.bodyCount, s.payloadBytes)) (fun p => ⟨p.1, p.2⟩) fun _ => rfl

/-- What a generation takes up, in all and schema by schema. -/
def footprint : Wire GenerationFootprint :=
  iso (pair nat (pair nat (pair nat (pair nat (pair nat (map sourceKey sourceFootprint))))))
    (fun f => (f.bodyCount, f.snapshotRetainedBytes, f.reconstructionDepth,
      f.reconstructionDeltaBytes, f.reconstructionTransientBytes, f.sources))
    (fun p => ⟨p.1, p.2.1, p.2.2.1, p.2.2.2.1, p.2.2.2.2.1, p.2.2.2.2.2⟩) fun _ => rfl

/-- A generation in the index, by the manifest root it was published under. -/
def indexedGeneration : Wire IndexedGeneration :=
  iso (pair bytes (pair object footprint)) (fun i => (i.root, i.object, i.footprint))
    (fun p => ⟨p.1, p.2.1, p.2.2⟩) fun _ => rfl

/-- Why an object is kept, under the tag of its class. -/
def ownedObjectClass : Wire OwnedObjectClass :=
  iso (sum unit (sum bytes unit))
    (fun
      | .eager => .inl ()
      | .deferredArtifact epoch => .inr (.inl epoch)
      | .deferredReceipt => .inr (.inr ()))
    (fun
      | .inl () => .eager
      | .inr (.inl epoch) => .deferredArtifact epoch
      | .inr (.inr ()) => .deferredReceipt)
    (fun c => by cases c <;> rfl)

/-- An object and how many own it. -/
def indexedOwnership : Wire IndexedOwnership :=
  iso (pair object (pair ownedObjectClass nat)) (fun i => (i.object, i.cls, i.owners))
    (fun p => ⟨p.1, p.2.1, p.2.2⟩) fun _ => rfl

/-- A Body as a generation left it. -/
def archivedBody : Wire ArchivedBody :=
  iso (pair bodyKey (pair bool (pair bool (pair (option bodyBinding) (pair bytes
      (option material))))))
    (fun a => (a.key, a.present, a.interpreted, a.binding, a.stamp, a.material))
    (fun p => ⟨p.1, p.2.1, p.2.2.1, p.2.2.2.1, p.2.2.2.2.1, p.2.2.2.2.2⟩) fun _ => rfl

/-- What a generation changed of its parent. -/
def generationDelta : Wire GenerationDelta :=
  iso (pair nat (pair bytes (pair (option bytes) (pair frontier (pair (list archivedBody)
      (pair (list contentDescriptor) (list bytes)))))))
    (fun d => (d.formatVersion, d.root, d.parent, d.frontier, d.changed, d.descriptors,
      d.removedDescriptors))
    (fun p => ⟨p.1, p.2.1, p.2.2.1, p.2.2.2.1, p.2.2.2.2.1, p.2.2.2.2.2.1, p.2.2.2.2.2.2⟩)
    fun _ => rfl

/-! ### Receipts -/

/-- The durable answer to a request. -/
def receipt : Wire RequestReceipt :=
  iso (pair nat (pair bytes (pair bytes (pair bytes (pair bytes (pair bytes (pair bytes
      (pair (list bodyKey) (pair frontier (pair bytes (pair bytes (pair bytes bytes))))))))))))
    (fun r => (r.version, r.space, r.world, r.device, r.request, r.payloadHash, r.effect,
      r.bodies, r.frontier, r.manifestRoot, r.implementationDigest, r.extractorSchemaDigest,
      r.transaction))
    (fun p => ⟨p.1, p.2.1, p.2.2.1, p.2.2.2.1, p.2.2.2.2.1, p.2.2.2.2.2.1, p.2.2.2.2.2.2.1,
      p.2.2.2.2.2.2.2.1, p.2.2.2.2.2.2.2.2.1, p.2.2.2.2.2.2.2.2.2.1, p.2.2.2.2.2.2.2.2.2.2.1,
      p.2.2.2.2.2.2.2.2.2.2.2.1, p.2.2.2.2.2.2.2.2.2.2.2.2⟩)
    fun _ => rfl

end Encodings

/-- Every wire encoding of the Replica. -/
@[reducible] def wireCodecs : Codecs where
  core := Encodings.core.postcard
  preimage := (pair Encodings.core bytes).postcard
  transaction := Encodings.transaction.postcard
  authorizationReceipt := Encodings.authorizationReceipt.postcard
  descriptor := Encodings.descriptor.postcard
  artifact := Encodings.artifact.postcard
  material := Encodings.material.postcard
  contentDescriptor := Encodings.contentDescriptor.postcard
  manifestEntry := Encodings.manifestEntry.postcard
  rootPreimage := (pair nat Encodings.rootPreimage).postcard
  manifestRoot := Encodings.manifestRoot.postcard
  indexNode := Encodings.indexNode.postcard
  indexedBody := Encodings.indexedBody.postcard
  indexedReceipt := Encodings.indexedReceipt.postcard
  indexedGeneration := Encodings.indexedGeneration.postcard
  indexedOwnership := Encodings.indexedOwnership.postcard
  generationDelta := Encodings.generationDelta.postcard

/-- The encodings receipts add. -/
@[reducible] def wireReceiptCodecs : ReceiptCodecs where
  receipt := Encodings.receipt.postcard
  scope := (pair bytes (pair bytes (pair bytes bytes))).postcard

end Lait.Replica
