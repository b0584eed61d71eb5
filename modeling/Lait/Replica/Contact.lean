import Lait.Replica.Content
import Lait.Replica.Incorporate

/-!
# Validating a Contact

A Contact serves one advertisement, the signed root with the catalogs it is
signed over, and whatever transactions and Bodies the peer lacks.
`validateContact` is what makes of it the only thing `incorporateBundle` accepts:

1. the staged records split into transactions and authority material, and the
   authority material is incorporated first, on its own;
2. the root verifies, and the catalogs are exactly the root's (`verifyIndex`);
3. every transaction verifies, and addresses the root's Space;
4. every delivered Body resolves to one descriptor, bound by an advertised entry
   (`resolveDelivery`);
5. every advertised head is held or delivered, and every declared content is
   advertised with its descriptor or held (`backedDescriptors`).

A node bag reaches the receiver by content address and is read under the root, so
it is modelled by the catalogs it spells; a refusal keeps its kind, not its text.
-/

namespace Lait.Replica

/-- What an advertisement is: the encoded root, and the catalogs it names. -/
structure Advertisement where
  manifestRootBytes : Bytes
  bodies : BTreeMap Bytes ManifestEntry
  content : BTreeMap Bytes ContentDescriptor

/-- What a Contact staged. -/
structure StagedContactMaterial where
  authorityRecords : List Bytes
  advertisement : Advertisement
  /-- Delivered packs: transaction id, Body, pack. -/
  bodies : List (Bytes × BodyKey × Bytes)

section Validate

variable [Crypto] [Loro] [Codecs]

/-! ## Roots -/

/-- `ManifestRoot::decode_canonical`. -/
def ManifestRoot.decodeCanonical (bytes : Bytes) : Option ManifestRoot :=
  match Postcard.fromBytes (α := ManifestRoot) bytes with
  | some root => if root.encode ≠ bytes then none else some root
  | none => none

/-- `ManifestRoot::verify`. -/
def ManifestRoot.verify (root : ManifestRoot) : Bool :=
  root.formatVersion = MANIFEST_FORMAT_VERSION && root.signatureAlgorithm = SIG_ALG_ED25519 &&
    (parseSpace root.content.space).isSome &&
    (root.content.bodyIndexRoot.map ChildRef.count).getD 0 = root.content.bodyCount &&
    (root.content.contentIndexRoot.map ChildRef.count).getD 0 = root.content.contentCount &&
    verifyDetached root.content.signer (ManifestRoot.preimage root.content) root.signature

/-- `ManifestRoot::verify_authorized`. -/
def ManifestRoot.verifyAuthorized (root : ManifestRoot) (authority : AuthoritySource) : Bool :=
  root.verify && authority.signerAuthorized root.content.signer root.content.authorityFrontier

/-- `ManifestRoot::verify_index`: the catalogs are the root's, and every entry
is valid and stands under the key it hashes to. -/
def ManifestRoot.verifyIndex (root : ManifestRoot) (ad : Advertisement) : Bool :=
  Index.root ad.bodies = root.content.bodyIndexRoot &&
    ad.bodies.toList.all (fun entry =>
      Demand.isOk entry.2.validate && bodyIndexKey entry.2.key = entry.1) &&
    Index.root ad.content = root.content.contentIndexRoot &&
    ad.content.toList.all fun entry =>
      entry.2.valid && entry.2.space = root.content.space &&
        contentIndexKey entry.2.contentRef = entry.1

/-! ## The staged records -/

/-- Split the staged records: each transaction once, with its bytes, and the
authority material. -/
def splitRecords : List Bytes → List (Transaction × Bytes) × List Bytes →
    Except Failure (List (Transaction × Bytes) × List Bytes)
  | [], acc => .ok acc
  | record :: records, (transactions, material) =>
      match Transaction.decodeCanonical record with
      | some tx =>
          match transactions.find? fun entry => entry.1.id = tx.id with
          | some (_, prior) =>
              if prior ≠ record then .error (.illegitimate .binding)
              else splitRecords records (transactions, material)
          | none => splitRecords records (transactions ++ [(tx, record)], material)
      | none => splitRecords records (transactions, material ++ [record])

/-- The advertised entries, by Body. -/
def advertisedEntries (ad : Advertisement) : BTreeMap BodyKey ManifestEntry :=
  (BTreeMap.valuesOf ad.bodies).foldl (fun entries entry => entries.insert entry.key entry) ∅

/-- One delivered pack, resolved: its transaction, its Body and the complete pack. -/
def resolveDelivery (self : Replica) (entries : BTreeMap BodyKey ManifestEntry)
    (transactions : List (Transaction × Bytes)) (delivery : Bytes × BodyKey × Bytes) :
    Except Failure (Bytes × Transaction × BodyKey × Bytes) := do
  let (txId, key, envelope) := delivery
  if MAX_BODY_BYTES < envelope.length then throw (.illegitimate .binding)
  let some (tx, bytes) := transactions.find? fun entry => entry.1.id = txId
    | throw (.illegitimate .binding)
  let some descriptor := descriptorFor tx key | throw (.illegitimate .binding)
  let complete ←
    match self.completeArtifactDelivery key descriptor envelope with
    | .ok complete => pure complete
    | .error _ => throw (.illegitimate .binding)
  let some entry := entries[key]? | throw (.illegitimate .binding)
  if ¬ entry.heads.any fun head => head.descriptorHash = descriptorHash descriptor
      && head.transactionCommitment = txCommitment bytes then
    throw (.illegitimate .binding)
  return (txId, tx, key, complete)

/-- The delivered packs, gathered by transaction in the order of their ids. -/
def gatherUnits (resolved : List (Bytes × Transaction × BodyKey × Bytes)) :
    List IncorporationUnit :=
  BTreeMap.valuesOf (resolved.foldl
    (fun (units : BTreeMap Bytes IncorporationUnit) (txId, tx, key, complete) =>
      let unit := (units[txId]?).getD (tx, [])
      units.insert txId (unit.1, unit.2 ++ [(key, complete)])) ∅)

/-- Rule 7: every advertised head is delivered, or held byte for byte. -/
def headsComplete (self : Replica) (entries : BTreeMap BodyKey ManifestEntry)
    (transactions : List (Transaction × Bytes)) (deliveries : List (Bytes × BodyKey × Bytes)) :
    Bool :=
  entries.toList.all fun (key, entry) => entry.heads.all fun head =>
    (deliveries.any fun delivery => delivery.2.1 = key &&
      (transactions.find? fun tx => tx.1.id = delivery.1).any fun tx =>
        txCommitment tx.2 = head.transactionCommitment) ||
    (self.bodies[key]?).any fun record => head ∈ localHeads record

/-! ## Content -/

/-- The content a manifest's entries declare, where they declare any. -/
def declaredOf (entries : BTreeMap BodyKey ManifestEntry) : BTreeMap BodyKey (List Bytes) :=
  (entries.filter fun _ entry => ¬ entry.contentRefs.isEmpty).map fun _ entry => entry.contentRefs

/-- The advertised heads of the Bodies that declare content. -/
def declarationHeadsOf (entries : BTreeMap BodyKey ManifestEntry) :
    BTreeMap BodyKey (List ManifestHead) :=
  (entries.filter fun _ entry => ¬ entry.contentRefs.isEmpty).map fun _ entry => entry.heads

/-- `advertised_content`: the advertised descriptors, by content. -/
def advertisedContent (ad : Advertisement) : BTreeMap Bytes ContentDescriptor :=
  (BTreeMap.valuesOf ad.content).foldl (fun catalog d => catalog.insert d.contentRef d) ∅

/-- Rule 8: the descriptors of declared content that this Replica lacks; a
content that is neither advertised nor held refuses the whole. -/
def backedDescriptors (self : Replica) (advertised : BTreeMap Bytes ContentDescriptor) :
    List Bytes → Except Failure (List ContentDescriptor)
  | [] => .ok []
  | content :: rest => do
      let held := (self.contentDescriptor content).isSome
      match advertised[content]? with
      | some descriptor =>
          let rest ← backedDescriptors self advertised rest
          return if held then rest else descriptor :: rest
      | none =>
          if ¬ held then throw (.illegitimate .unbackedContent)
          backedDescriptors self advertised rest

/-- `sort_by_key` and `dedup_by_key` on the content's id. -/
def byContent (descriptors : List ContentDescriptor) : List ContentDescriptor :=
  BTreeMap.valuesOf (descriptors.reverse.foldl
    (fun (kept : BTreeMap Bytes ContentDescriptor) d => kept.insert d.contentRef d) ∅)

/-! ## The operation -/

/-- `validate_contact`.  `incorporateAuthority` is mechanics' durable phase for
the authority material; its receipt is not read again. -/
def validateContact (self : Replica) (staged : StagedContactMaterial) (authority : AuthoritySource)
    (incorporateAuthority : List Bytes → Bool) : Except Failure ContactBundle := do
  let (transactions, material) ← splitRecords staged.authorityRecords ([], [])
  if ¬ incorporateAuthority material then throw (.illegitimate .binding)
  let ad := staged.advertisement
  if ad.manifestRootBytes.data.isEmpty then
    -- An unadmitted peer serves authority material alone.
    if ¬ ad.bodies.isEmpty ∨ ¬ ad.content.isEmpty ∨ ¬ staged.bodies.isEmpty
        ∨ ¬ transactions.isEmpty then
      throw (.illegitimate .binding)
    return ⟨[], ∅, ∅, []⟩
  let some root := ManifestRoot.decodeCanonical ad.manifestRootBytes
    | throw (.illegitimate .binding)
  if ¬ root.verifyAuthorized authority then throw (.illegitimate .binding)
  if ¬ root.verifyIndex ad then throw (.illegitimate .index)
  let entries := advertisedEntries ad
  if transactions.any fun (tx, _) => ¬ Demand.isOk (tx.verifyAuthorized authority)
      ∨ tx.core.space ≠ root.content.space then
    throw (.illegitimate .binding)
  let resolved ← staged.bodies.mapM (self.resolveDelivery entries transactions)
  if ¬ self.headsComplete entries transactions staged.bodies then
    throw (.illegitimate .incompleteMaterial)
  let descriptors ← self.backedDescriptors (advertisedContent ad)
    (BTreeMap.valuesOf (declaredOf entries)).flatten
  return { units := gatherUnits resolved
           declaredContent := declaredOf entries
           declarationHeads := declarationHeadsOf entries
           descriptors := byContent descriptors }

end Validate

end Lait.Replica
