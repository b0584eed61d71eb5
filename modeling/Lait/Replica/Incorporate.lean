import Lait.Replica.Classify
import Lait.Replica.Persist

/-!
# Incorporating remote material

`incorporateUnits` is the one path by which remote material becomes state.
Before the bundle itself is looked at, every Body retained opaquely is tried
again (`upgradeRetainedOpaque`): a key or a schema may have arrived since.  Then
the bundle is classified (`Lait.Replica.Classify`), and what it plans is carried
out:

5. `applyChanges` — import into the engine, keeping the changes that applied;
6. `foldAll` — fold the accepted changes into final head sets, where a
   fast-forward replaces a Body's heads and a concurrent head joins them;
7. `persistBundle` — one durable commit for the complete bundle, after which
   `installRecords` publishes the records.

The engine moves in phase 5 and the durable write of phase 7 can still refuse.
-/

namespace Lait.Replica

variable [Crypto] [Loro] [Aead] [Codecs] [ReceiptCodecs]

/-- What an incorporation draws from outside: for each Body it upgrades, and for
the bundle's own commit. -/
structure IncorporateAmbient where
  upgrade : BodyKey → Ambient
  publish : Ambient

/-! ## Declarations without Bodies -/

/-- A record's heads as the manifest advertises them, in the record's order. -/
def localHeads (record : BodyRecord) : List ManifestHead :=
  record.heads.map fun head => ⟨head.descriptorHash, head.txCommitment⟩

/-- The Bodies held at exactly the heads the bundle declares content for. -/
def declaredAtHeads (self : Replica) (bundle : ContactBundle) : List (BodyKey × BodyRecord) :=
  bundle.declaredContent.toList.filterMap fun entry =>
    match self.bodies[entry.1]? with
    | some record =>
        if bundle.declarationHeads[entry.1]? = some (localHeads record) then
          some (entry.1, record)
        else none
    | none => none

/-- `declarations_left_behind`: the Bodies whose declaration a bundle moves
without changing the Body. -/
def declarationsLeftBehind (self : Replica) (bundle : ContactBundle) :
    BTreeMap BodyKey (Option BodyRecord) :=
  let held := self.declaredAtHeads bundle
  let moved := held.filter fun entry =>
    self.declaredContent[entry.1]? ≠ bundle.declaredContent[entry.1]?
  let missing := bundle.descriptors.any fun d => (self.contentDescriptor d.contentRef).isNone
  let pending := if moved.isEmpty ∧ missing then held else moved
  pending.foldl (fun pending entry => pending.insert entry.1 (some entry.2)) ∅

/-- The causal bytes of an adoption: what is declared, per pending Body. -/
def adoptionCausal (bundle : ContactBundle) (pending : BTreeMap BodyKey (Option BodyRecord)) :
    Bytes :=
  Bytes.join (bundle.declaredContent.toList.flatMap fun entry =>
    if pending.contains entry.1 then bodyIndexKey entry.1 :: entry.2 else [])

/-- The write of an adoption: the pending Bodies are republished as they are. -/
def adoptRequest (self : Replica) (ctx : CommitContext) (bundle : ContactBundle)
    (pending : BTreeMap BodyKey (Option BodyRecord)) : PersistRequest where
  ctx := some ctx
  changed := pending
  declared := bundle.declaredContent
  descriptors := bundle.descriptors
  receipt := none
  newObjects := []
  nextFrontier := advancePublished self.frontier (adoptionCausal bundle pending)

/-- `adopt_declarations_only`. -/
def adoptDeclarationsOnly (self : Replica) (amb : Ambient) (ctx : CommitContext)
    (bundle : ContactBundle) : Replica × Except Failure Unit :=
  if self.durable.isNone then (self, .ok ())
  else
    let pending := self.declarationsLeftBehind bundle
    if pending.isEmpty then (self, .ok ())
    else
      let request := self.adoptRequest ctx bundle pending
      match self.persist amb request with
      | (self, .error failure) => (self, .error failure)
      | (self, .ok _) => ({ self with frontier := request.nextFrontier }, .ok ())

/-! ## Revalidating opaque Bodies -/

/-- One retained head of an opaque Body, read back from the store. -/
def retainedHead (store : Store) (key : BodyKey) (record : BodyRecord) (head : BodyHead) :
    Except Failure RetainedHead := do
  let object ← okOr (.integrity .missingMaterial) head.transaction
  let bytes ← okOr (.integrity .missingMaterial) (store.readObject object)
  let signed ← okOr (.integrity .encoding) (Transaction.decodeCanonical bytes)
  let descriptor ← okOr (.integrity .missingMaterial) (descriptorFor signed key)
  let envelopes ← (record.artifacts head).mapM fun reference =>
    okOr (.integrity .missingMaterial) (store.readObject (artifactObject reference))
  let pack ← encodeArtifactPack envelopes
  -- The signed descriptor and stored head must still name the same closure.
  if descriptorHash descriptor ≠ head.descriptorHash then throw (.integrity .corruptMaterial)
  return (head.tx, pack, bytes)

/-- The retained heads of an opaque Body: the packs in memory, or the store's. -/
def retained (self : Replica) (key : BodyKey) (record : BodyRecord) :
    Except Failure (Option (List RetainedHead)) :=
  match self.rawMaterial[key]?, self.durable with
  | some entries, _ => .ok (some entries)
  | none, none => .ok none
  | none, some store => (record.heads.mapM (retainedHead store key record)).map some

/-- One retained head, opened. -/
structure OpenedHead where
  tx : Bytes
  descriptor : Descriptor
  artifacts : List Artifact

/-- Open every retained head, or none when one of them cannot be interpreted. -/
def openRetained (self : Replica) (key : BodyKey) (model : ℕ) :
    List RetainedHead → Except Failure (Option (List OpenedHead))
  | [] => .ok (some [])
  | (txId, pack, bytes) :: rest => do
      let tx ← okOr (.illegitimate .encoding) (Transaction.decodeCanonical bytes)
      let descriptor ← okOr (.integrity .missingMaterial) (descriptorFor tx key)
      let envelopes ← decodeArtifactPack descriptor pack
      if descriptor.mutationModel ≠ model then return none
      match openEnvelopes self.keys envelopes with
      | .unavailable => return none
      | .invalid => throw (.illegitimate .incompleteMaterial)
      | .artifacts artifacts =>
          let (proof, version) ← proofEngine key artifacts
          if version ≠ descriptor.material.version then throw (.integrity .corruptMaterial)
          validateImmutableProof key descriptor proof
          let opened ← openRetained self key model rest
          return opened.map fun opened => ⟨txId, descriptor, artifacts⟩ :: opened

/-- The chain of an upgraded Body, from its heads in transaction order. -/
def retainedChain : List OpenedHead → Option ReplicaFrontier → Except Failure (Option ReplicaFrontier)
  | [], chain => .ok chain
  | head :: heads, none => retainedChain heads (some head.descriptor.resultingFrontier)
  | head :: heads, some current =>
      if isAtomicModel head.descriptor.mutationModel then
        retainedChain heads (some
          (if chainOrder head.descriptor.resultingFrontier current = .gt then
            head.descriptor.resultingFrontier
          else current))
      else if head.descriptor.mutationModel = MUTATION_COLLABORATIVE then
        retainedChain heads (some (combineChains current head.descriptor.resultingFrontier))
      else .error (.integrity .corruptMaterial)

/-- Import the opened heads; of an atomic Body, only the head its chain names.
Counts the heads that applied. -/
def importRetained (key : BodyKey) (chain : Option ReplicaFrontier) :
    List OpenedHead → Engine → Engine × Except Failure ℕ
  | [], e => (e, .ok 0)
  | head :: heads, e =>
      if isAtomicModel head.descriptor.mutationModel
          ∧ some head.descriptor.resultingFrontier ≠ chain then
        importRetained key chain heads e
      else
        match importArtifacts (fabricKey key) head.artifacts e with
        | (e, .error _) => (e, .error .engine)
        | (e, .ok applied) =>
            match importRetained key chain heads e with
            | (e, .error failure) => (e, .error failure)
            | (e, .ok accepted) => (e, .ok (accepted + if applied then 1 else 0))

/-- The record of an upgraded Body. -/
def upgradedRecord (record : BodyRecord) (chain : Option ReplicaFrontier)
    (opened : List OpenedHead) : Except Failure BodyRecord :=
  { record with interpreted := true, chain := chain.getD record.chain }.replaceCausal
    (match opened with
    | [head] => some head.descriptor.material
    | _ => none)

/-- The write of an upgrade, at the frontier already published. -/
def upgradeRequest (self : Replica) (ctx : CommitContext) (key : BodyKey)
    (upgraded : BodyRecord) : PersistRequest where
  ctx := some ctx
  changed := (∅ : BTreeMap BodyKey (Option BodyRecord)).insert key (some upgraded)
  declared := ∅
  descriptors := []
  receipt := none
  newObjects := []
  nextFrontier := self.frontier

/-- Publish an upgraded Body. -/
def publishUpgrade (self : Replica) (amb : Ambient) (ctx : CommitContext) (key : BodyKey)
    (upgraded : BodyRecord) : Replica × Except Failure Unit :=
  if self.durable.isNone then ({ self with bodies := self.bodies.insert key upgraded }, .ok ())
  else
    match self.persist amb (self.upgradeRequest ctx key upgraded) with
    | (self, .error failure) => (self, .error failure)
    | (self, .ok changed) =>
        match changed[key]? with
        | some (some upgraded) =>
            ({ self with
                bodies := self.bodies.insert key upgraded
                rawMaterial := self.rawMaterial.erase key }, .ok ())
        | _ => (self, .error (.integrity .missingMaterial))

/-- Try one opaque Body again: `none` when it stays opaque, and otherwise how
many heads the engine accepted. -/
def upgradeOne (self : Replica) (amb : Ambient) (ctx : CommitContext) (key : BodyKey) :
    Replica × Except Failure (Option ℕ) :=
  match self.bodies[key]? with
  | none => (self, .ok none)
  | some record =>
      if record.interpreted then (self, .ok none)
      else
        match self.retained key record with
        | .error failure => (self, .error failure)
        | .ok none => (self, .ok none)
        | .ok (some entries) =>
            match self.supported.lookup key.world record.binding.schema
                record.binding.schemaVersion with
            | none => (self, .ok none)
            | some (encoding, model) =>
                if encoding ≠ record.binding.encoding then (self, .ok none)
                else
                  match self.openRetained key model entries with
                  | .error failure => (self, .error failure)
                  | .ok none => (self, .ok none)
                  | .ok (some opened) =>
                      let opened := opened.insertionSort fun a b => a.tx ≤ b.tx
                      match retainedChain opened none with
                      | .error failure => (self, .error failure)
                      | .ok chain =>
                          match importRetained key chain opened self.fabric with
                          | (fabric, .error failure) => ({ self with fabric }, .error failure)
                          | (fabric, .ok accepted) =>
                              let self := { self with fabric }
                              match upgradedRecord record chain opened with
                              | .error failure => (self, .error failure)
                              | .ok upgraded =>
                                  match self.publishUpgrade amb ctx key upgraded with
                                  | (self, .error failure) => (self, .error failure)
                                  | (self, .ok ()) => (self, .ok (some accepted))

/-- Try every listed Body again: the upgraded keys, and the heads accepted. -/
def upgradeAll (amb : BodyKey → Ambient) (ctx : CommitContext) :
    List BodyKey → Replica → Replica × Except Failure (List BodyKey × ℕ)
  | [], self => (self, .ok ([], 0))
  | key :: keys, self =>
      match self.upgradeOne (amb key) ctx key with
      | (self, .error failure) => (self, .error failure)
      | (self, .ok here) =>
          match upgradeAll amb ctx keys self with
          | (self, .error failure) => (self, .error failure)
          | (self, .ok (upgraded, accepted)) =>
              match here with
              | none => (self, .ok (upgraded, accepted))
              | some applied => (self, .ok (key :: upgraded, saturatingAdd32 applied accepted))

/-- The Bodies `upgradeRetainedOpaque` revisits. -/
def opaqueKeys (self : Replica) : List BodyKey :=
  if self.durable.isSome then
    (self.bodies.toList.filter fun entry => ¬ entry.2.interpreted).map Prod.fst
  else self.rawMaterial.keys

/-- `upgrade_retained_opaque`. -/
def upgradeRetainedOpaque (self : Replica) (amb : BodyKey → Ambient) (ctx : CommitContext) :
    Replica × Except Failure (List BodyKey × ℕ) :=
  upgradeAll amb ctx self.opaqueKeys self

/-! ## Phase 5: the engine -/

/-- Import every artifact, past refusals: whether any applied, and any failed. -/
def importEvery (key : Bytes) : List Artifact → Engine → Engine × Bool × Bool
  | [], e => (e, false, false)
  | artifact :: artifacts, e =>
      match e.importArtifact key artifact with
      | (e, .error _) =>
          let (e, applied, _) := importEvery key artifacts e
          (e, applied, true)
      | (e, .ok status) =>
          let (e, applied, failed) := importEvery key artifacts e
          (e, status.applied || applied, failed)

/-- What engine application has gathered. -/
structure Applied where
  changed : List Planned
  /-- The causal bytes of each unit that contributed a change. -/
  unitCausal : BTreeMap ℕ Bytes
  accepted : ℕ
  unchanged : ℕ
  unsupportedRetained : ℕ

namespace Applied

/-- Record one change, and the causal bytes it adds to its unit. -/
def push (acc : Applied) (change : Planned) (causal : Bytes) : Applied :=
  { acc with
    changed := acc.changed ++ [change]
    unitCausal := acc.unitCausal.insert change.unit
      ((acc.unitCausal[change.unit]?).getD Bytes.empty ++ causal) }

end Applied

/-- The artifacts a planned change adds to its unit's causal bytes. -/
def changeCausal (change : Planned) : Except Failure Bytes := do
  let head ← change.record.head
  return Bytes.join ((change.record.artifacts head).map ArtifactRef.hash)

/-- Whether the engine's content covers a version. -/
def covers (self : Replica) (key : BodyKey) (version : Version) : Except Failure Bool :=
  match self.fabric.version (fabricKey key) with
  | .error _ => .error .engine
  | .ok current =>
      match self.fabric.relation (fabricKey key) current version with
      | .equal | .dominates => .ok true
      | _ => .ok false

/-- Interpret one planned change. -/
def applyInterpreted (self : Replica) (acc : Applied) (change : Planned)
    (artifacts : List Artifact) : Replica × Except Failure Applied :=
  let (fabric, applied, failed) := importEvery (fabricKey change.key) artifacts self.fabric
  let self := { self with fabric }
  if failed then ({ self with poisoned := true }, .error .engine)
  else
    match (if change.record.binding.mutationModel = MUTATION_COLLABORATIVE then
        self.covers change.key change.material.version
      else .ok true) with
    | .error failure => (self, .error failure)
    | .ok false => ({ self with poisoned := true }, .error .engine)
    | .ok true =>
        if ¬ applied then
          (self, .ok { acc with unchanged := saturatingAdd32 acc.unchanged 1 })
        else
          match changeCausal change with
          | .error failure => (self, .error failure)
          | .ok causal =>
              (self, .ok ({ acc with accepted := saturatingAdd32 acc.accepted 1 }.push
                change causal))

/-- Carry out one planned change in the engine. -/
def applyChange (self : Replica) (acc : Applied) (change : Planned) :
    Replica × Except Failure Applied :=
  match change.artifacts with
  | some artifacts => self.applyInterpreted acc change artifacts
  | none =>
      (self, .ok ({ acc with
        unsupportedRetained := saturatingAdd32 acc.unsupportedRetained 1 }.push change Bytes.empty))

/-- Carry out every planned change, in classification order. -/
def applyChanges : List Planned → Replica → Applied → Replica × Except Failure Applied
  | [], self, acc => (self, .ok acc)
  | change :: changes, self, acc =>
      match self.applyChange acc change with
      | (self, .error failure) => (self, .error failure)
      | (self, .ok acc) => applyChanges changes self acc

/-- The attribution of the units that contributed. -/
def transactionChanges (units : List IncorporationUnit) (applied : Applied) :
    Except Failure (List TransactionChange) :=
  applied.unitCausal.keys.foldlM (fun changes unit => do
    let (tx, _) ← okOr (.illegitimate .incompleteMaterial) units[unit]?
    let bodies := ManifestEntry.canonical
      ((applied.changed.filter fun change => change.unit = unit).map Planned.key)
    if bodies.isEmpty then return changes
    let actor ← okOr (.illegitimate .encoding) (ActorId.parse tx.core.actor)
    return changes ++ [⟨tx.core.operation, actor, Bytes.hexEncode tx.core.signer, bodies⟩]) []

/-- The frontier after the bundle: one advance for each contributing unit. -/
def bundleFrontier (units : List IncorporationUnit) (applied : Applied)
    (previous : ReplicaFrontier) : Except Failure ReplicaFrontier :=
  applied.unitCausal.toList.foldlM (fun frontier entry => do
    if ¬ applied.changed.any fun change => change.unit = entry.1 then return frontier
    let (tx, _) ← okOr (.illegitimate .incompleteMaterial) units[entry.1]?
    return advance frontier (tx.id ++ entry.2)) previous

/-! ## Phase 6: the head sets -/

/-- Join a head to a record. -/
def joinHead (existing staged : BodyRecord) (head : BodyHead) : Except Failure BodyRecord := do
  -- The singleton's implied closure is about to stop being the record's.
  let existing ← existing.promoteSingletonClosure
  return { existing with
    heads :=
      if existing.hasCommitment head.txCommitment then existing.heads
      else existing.heads ++ [head]
    chain := staged.chain
    interpreted := staged.interpreted }

/-- Fold one accepted change into the final records. -/
def foldOne (self : Replica) (final : BTreeMap BodyKey BodyRecord) (change : Planned) :
    Except Failure (BTreeMap BodyKey BodyRecord) := do
  let head ← change.record.head
  match final[change.key]? <|> self.bodies[change.key]?, change.mergeAppend with
  | some existing, true => do
      let folded ← joinHead existing change.record head
      return final.insert change.key folded
  | _, _ => return final.insert change.key change.record

/-- Fold every accepted change. -/
def foldAll (self : Replica) : List Planned → BTreeMap BodyKey BodyRecord →
    Except Failure (BTreeMap BodyKey BodyRecord)
  | [], final => .ok final
  | change :: changes, final =>
      match self.foldOne final change with
      | .error failure => .error failure
      | .ok final => foldAll self changes final

/-! ## Phase 7: the durable commit -/

/-- Give a staged head the objects the commit writes for it. -/
def stampHead (tx : Transaction) (descriptor : Descriptor) (head : BodyHead) : BodyHead :=
  { head with
    artifacts := some descriptor.artifactRefs
    transaction := some (objectRef tx.encode)
    txCommitment := txCommitment tx.encode
    artifactBytes := saturatingSum (descriptor.artifactRefs.map ArtifactRef.len)
    txLen := tx.encode.length }

/-- Apply a function to the first head of a transaction. -/
def updateHead (txId : Bytes) (f : BodyHead → BodyHead) : List BodyHead → List BodyHead
  | [] => []
  | head :: heads => if head.tx = txId then f head :: heads else head :: updateHead txId f heads

/-- Stamp the staged head of one accepted change. -/
def stampOne (records : BTreeMap BodyKey BodyRecord) (change : Planned) :
    Except Failure (BTreeMap BodyKey BodyRecord) := do
  let head ← change.record.head
  let descriptor ← okOr (.illegitimate .incompleteMaterial) (descriptorFor change.tx change.key)
  let _ ← decodeArtifactPack descriptor change.pack
  match records[change.key]? with
  | none => return records
  | some record =>
      return records.insert change.key
        { record with heads := updateHead head.tx (stampHead change.tx descriptor) record.heads }

/-- Stamp every staged head. -/
def stampAll : List Planned → BTreeMap BodyKey BodyRecord →
    Except Failure (BTreeMap BodyKey BodyRecord)
  | [], records => .ok records
  | change :: changes, records =>
      match stampOne records change with
      | .error failure => .error failure
      | .ok records => stampAll changes records

/-- The objects a bundle writes: its transactions, then its artifacts. -/
def bundleObjects (changed : List Planned) : Except Failure (List Bytes) := do
  let transactions := changed.foldl (fun (byUnit : BTreeMap ℕ Bytes) change =>
    if byUnit.contains change.unit then byUnit else byUnit.insert change.unit change.tx.encode) ∅
  let artifacts ← changed.mapM fun change => do
    let descriptor ← okOr (.illegitimate .incompleteMaterial) (descriptorFor change.tx change.key)
    decodeArtifactPack descriptor change.pack
  return BTreeMap.valuesOf transactions ++ artifacts.flatten

/-- The final records, as persisted. -/
def adoptPersisted (records : BTreeMap BodyKey BodyRecord)
    (changed : BTreeMap BodyKey (Option BodyRecord)) : BTreeMap BodyKey BodyRecord :=
  changed.toList.foldl (fun records entry =>
    match entry.2 with
    | some record => records.insert entry.1 record
    | none => records) records

/-- The write of a bundle. -/
def bundleRequest (ctx : CommitContext) (bundle : ContactBundle)
    (records : BTreeMap BodyKey BodyRecord) (newObjects : List Bytes)
    (nextFrontier : ReplicaFrontier) : PersistRequest where
  ctx := some ctx
  changed := records.map fun _ record => some record
  declared := bundle.declaredContent
  descriptors := bundle.descriptors
  receipt := none
  newObjects := newObjects
  nextFrontier := nextFrontier

/-- `persist_bundle`. -/
def persistBundle (self : Replica) (amb : Ambient) (ctx : CommitContext) (bundle : ContactBundle)
    (changed : List Planned) (final : BTreeMap BodyKey BodyRecord)
    (nextFrontier : ReplicaFrontier) :
    Replica × Except Failure (BTreeMap BodyKey BodyRecord) :=
  match stampAll changed final with
  | .error failure => (self, .error failure)
  | .ok records =>
      match bundleObjects changed with
      | .error failure => (self, .error failure)
      | .ok newObjects =>
          match self.persist amb (bundleRequest ctx bundle records newObjects nextFrontier) with
          | (self, .error failure) => (self, .error failure)
          | (self, .ok persisted) => (self, .ok (adoptPersisted records persisted))

/-- The packs kept in memory for a Body after a bundle: the held ones and the
staged ones, for the heads the record has. -/
def keptMaterial (held : List RetainedHead) (changed : List Planned) (key : BodyKey)
    (record : BodyRecord) : List RetainedHead :=
  let staged := changed.foldl (fun (entries : List RetainedHead) change =>
    match change.record.heads with
    | head :: _ =>
        if change.key = key ∧ ¬ entries.any fun entry => entry.1 = head.tx then
          entries ++ [(head.tx, change.pack, change.tx.encode)]
        else entries
    | [] => entries) held
  staged.filter fun entry => record.heads.any fun head => head.tx = entry.1

/-- Install one final record. -/
def installRecord (changed : List Planned) (self : Replica) (key : BodyKey)
    (record : BodyRecord) : Replica :=
  { self with
    checkpointJobs := self.checkpointJobs.erase key
    rawMaterial :=
      if ¬ record.interpreted ∨ self.durable.isNone then
        self.rawMaterial.insert key
          (keptMaterial ((self.rawMaterial[key]?).getD []) changed key record)
      else self.rawMaterial.erase key
    bodies := self.bodies.insert key record }

/-- Install every final record, in key order. -/
def installRecords (self : Replica) (changed : List Planned)
    (final : BTreeMap BodyKey BodyRecord) : Replica :=
  final.toList.foldl (fun self entry => installRecord changed self entry.1 entry.2) self

/-- After a commit: start a checkpoint worker where one is due, and let go of
atomic images the store holds. -/
def settle (self : Replica) (amb : Ambient) (keys : List BodyKey) : Replica :=
  keys.foldl (fun self key =>
    (self.scheduleCheckpointIfHot amb key).releaseDurableAtomicWriterImage key) self

/-! ## The operation -/

/-- Adopt the bundle's declarations and report. -/
def adoptAndReport (self : Replica) (amb : Ambient) (ctx : CommitContext) (bundle : ContactBundle)
    (outcome : ConvergenceOutcome) : Replica × Except Failure ConvergenceOutcome :=
  match self.adoptDeclarationsOnly amb ctx bundle with
  | (self, .error failure) => (self, .error failure)
  | (self, .ok ()) => (self, .ok outcome)

/-- Phases 6 and 7, for a bundle that changed something. -/
def publishChanges (self : Replica) (amb : Ambient) (ctx : CommitContext) (bundle : ContactBundle)
    (applied : Applied) (outcome : ConvergenceOutcome) :
    Replica × Except Failure ConvergenceOutcome :=
  match transactionChanges bundle.units applied with
  | .error failure => (self, .error failure)
  | .ok changes =>
      match bundleFrontier bundle.units applied outcome.previous with
      | .error failure => (self, .error failure)
      | .ok nextFrontier =>
          match self.foldAll applied.changed ∅ with
          | .error failure => (self, .error failure)
          | .ok final =>
              match (if self.durable.isSome then
                  self.persistBundle amb ctx bundle applied.changed final nextFrontier
                else (self, .ok final)) with
              | (self, .error failure) => (self, .error failure)
              | (self, .ok records) =>
                  let self := self.installRecords applied.changed records
                  let self := { self with frontier := nextFrontier }
                  (self.settle amb final.keys, .ok { outcome with
                    current := nextFrontier
                    bodies := ManifestEntry.canonical
                      (outcome.bodies ++ applied.changed.map Planned.key)
                    changes })

/-- Phases 1 to 4: the Space the bundle addresses, and what it plans. -/
def planUnits (self : Replica) (authority : AuthoritySource) (units : List IncorporationUnit) :
    Except Failure (Option SpaceId × Classified) := do
  let space ← self.checkUnits authority units none
  let resolved ← self.resolveUnits units
  let classified ← self.classifyAll Classified.start resolved
  if ¬ classified.planned.isEmpty then self.projectQuota classified.planned
  return (space, classified)

/-- Phases 5 to 7, for a bundle that plans something. -/
def applyPlan (self : Replica) (amb : Ambient) (ctx : CommitContext) (bundle : ContactBundle)
    (planned : List Planned) (outcome : ConvergenceOutcome) :
    Replica × Except Failure ConvergenceOutcome :=
  match applyChanges planned self ⟨[], ∅, outcome.accepted, outcome.unchanged, 0⟩ with
  | (self, .error failure) => (self, .error failure)
  | (self, .ok applied) =>
      let outcome := { outcome with
        accepted := applied.accepted
        unchanged := applied.unchanged
        unsupportedRetained := applied.unsupportedRetained }
      if applied.changed.isEmpty then self.adoptAndReport amb ctx bundle outcome
      else self.publishChanges amb ctx bundle applied outcome

/-- `incorporate_units`. -/
def incorporateUnits (self : Replica) (amb : IncorporateAmbient) (ctx : CommitContext)
    (bundle : ContactBundle) (authority : AuthoritySource) :
    Replica × Except Failure ConvergenceOutcome :=
  if self.poisoned then (self, .error .poisoned)
  else if MAX_TRANSACTION_CHANGES < bundle.units.length then (self, .error .quotaExceeded)
  else
    let outcome := ConvergenceOutcome.unchangedAt self.frontier
    match self.upgradeRetainedOpaque amb.upgrade ctx with
    | (self, .error failure) => (self, .error failure)
    | (self, .ok (upgraded, accepted)) =>
        let outcome := { outcome with accepted, bodies := upgraded }
        if bundle.units.isEmpty then self.adoptAndReport amb.publish ctx bundle outcome
        else
          match self.planUnits authority bundle.units with
          | .error failure => (self, .error failure)
          | .ok (space, classified) =>
              let outcome := { outcome with
                rejected := classified.rejected
                unchanged := classified.unchanged }
              if classified.planned.isEmpty then self.adoptAndReport amb.publish ctx bundle outcome
              else
                let self := { self with space := if self.space.isNone then space else self.space }
                self.applyPlan amb.publish ctx bundle classified.planned outcome

/-- `incorporate_bundle`. -/
def incorporateBundle (self : Replica) (amb : IncorporateAmbient) (ctx : CommitContext)
    (bundle : ContactBundle) (authority : AuthoritySource) :
    Replica × Except Failure ConvergenceOutcome :=
  match self.mutationAvailable with
  | .error failure => (self, .error failure)
  | .ok () => self.incorporateUnits amb ctx bundle authority

/-! ## Direct incorporation -/

/-- The artifacts of the packs in memory for a Body. -/
def heldArtifacts (self : Replica) (key : BodyKey) : List Bytes :=
  ((self.rawMaterial[key]?).getD []).flatMap fun entry =>
    match Transaction.decodeCanonical entry.2.2 with
    | none => []
    | some tx =>
        match descriptorFor tx key with
        | none => []
        | some descriptor =>
            match decodeArtifactPack descriptor entry.2.1 with
            | .ok artifacts => artifacts
            | .error _ => []

/-- Resolve the signed references: each delivered or held artifact once, and the
rest from the store. -/
def completeReferences (self : Replica) :
    List ArtifactRef → List Bytes → Except Failure (List Bytes)
  | [], _ => .ok []
  | reference :: references, available =>
      match available.find? fun bytes => objectRef bytes = artifactObject reference with
      | some artifact => do
          let rest ← completeReferences self references
            (available.filter fun bytes => objectRef bytes ≠ artifactObject reference)
          return artifact :: rest
      | none => do
          let store ← okOr (.illegitimate .binding) self.durable
          let artifact ← okOr (.illegitimate .binding) (store.readObject (artifactObject reference))
          let rest ← completeReferences self references available
          return artifact :: rest

/-- `complete_artifact_delivery`. -/
def completeArtifactDelivery (self : Replica) (key : BodyKey) (descriptor : Descriptor)
    (delivery : Bytes) : Except Failure Bytes := do
  let delivered ← decodeArtifactDeliveryPack descriptor delivery
  let complete ← self.completeReferences descriptor.artifactRefs
    (delivered ++ self.heldArtifacts key)
  let pack ← encodeArtifactPack complete
  let _ ← decodeArtifactPack descriptor pack
  return pack

/-- `incorporate`: one transaction, its deliveries completed first. -/
def incorporate (self : Replica) (amb : IncorporateAmbient) (ctx : CommitContext)
    (tx : Transaction) (payloads : List (BodyKey × Bytes)) (authority : AuthoritySource) :
    Replica × Except Failure ConvergenceOutcome :=
  match self.mutationAvailable with
  | .error failure => (self, .error failure)
  | .ok () =>
      match payloads.mapM fun entry => do
          let descriptor ←
            okOr (Failure.illegitimate .incompleteMaterial) (descriptorFor tx entry.1)
          let pack ← self.completeArtifactDelivery entry.1 descriptor entry.2
          return (entry.1, pack) with
      | .error failure => (self, .error failure)
      | .ok complete => self.incorporateUnits amb ctx ⟨[(tx, complete)], ∅, ∅, []⟩ authority

end Lait.Replica
