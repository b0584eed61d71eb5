import Lait.Ledger.Effect

/-!
# The authority ledger and its checkpoints

`Authority` is the ledger as one process holds it: the effects by hash, the indexes of
what the store keeps, a cache of checkpoints and the current frontier.

A checkpoint materializes the closure of a frontier.  `buildCheckpoint` replays it, or
continues the checkpoint cached for the current frontier where the strict-descendant rule
allows; `checkpointFor` takes one from the cache, or from the store, or builds and
persists it.

Where the source returns an error after it has begun to change the ledger, the changed
ledger is returned beside the error.
-/

namespace Lait.Ledger

open Ceremony (Object objectContentHash)

/-- The codecs of everything the ledger reads and writes. -/
class Codecs where
  actorOp : Postcard Actor.ActorOp
  aclOp : Postcard Acl.AclOp
  config : Postcard Config
  spaceOp : Postcard Space.SpaceOp
  effect : Postcard Effect
  sealedKey : Postcard SealedKeyRecord
  frontierBody : Postcard FrontierBody
  receipt : Postcard BatchReceipt
  checkpoint : Postcard CheckpointObject
  audit : Postcard CeremonyAuditRecord
  material : Postcard Ceremony.CeremonyMaterial

attribute [reducible, instance] Codecs.actorOp Codecs.aclOp Codecs.config Codecs.spaceOp Codecs.effect
  Codecs.sealedKey Codecs.frontierBody Codecs.receipt Codecs.checkpoint Codecs.audit
  Codecs.material

/-- A sealed key as it is held: the device as first spelled, the envelope, the object. -/
structure SealedEntry where
  device : DeviceId
  envelope : Bytes
  object : Object

/-- Bounded decoded-checkpoint cache size. -/
def CHECKPOINT_CACHE_MAX : ℕ := 64

variable [Crypto]

/-- The journaled authority ledger for one Space. -/
structure Authority where
  store : Journal LedgerMeta
  genesis : Genesis
  /-- Every held effect, by hash. -/
  effects : BTreeMap Text Effect
  effectRefs : BTreeMap Text (ℕ × Object)
  sealedKeys : BTreeMap SealedKeyRecord.Key SealedEntry
  /-- Durable checkpoints by frontier digest. -/
  checkpointRefs : BTreeMap Bytes Object
  /-- Decoded checkpoint cache. -/
  checkpointCache : BTreeMap Bytes CheckpointObject
  receipts : BTreeMap Bytes BatchReceipt
  receiptRefs : BTreeMap Bytes Object
  frontier : Bytes
  /-- The ceremony-material log. -/
  material : Ceremony.CeremonyLog
  /-- Compaction audit records, oldest first. -/
  ceremonyAudits : List (Bytes × Object)
  semantics : ℕ

/-- Read an object from the store. -/
def Journal.readObject {μ : Type} (journal : Journal μ) (object : Object) : Except Failure Bytes :=
  match journal.objects.read object with
  | some bytes => .ok bytes
  | none => .error (.journal .integrity)

namespace Authority

/-! ## Frontiers and closures -/

/-- The heads of one plane: what no effect of the plane names as a parent. -/
def planeHeads (ledger : Authority) (kind : ℕ) : List Text :=
  let plane := ledger.effects.toList.filter fun entry => entry.2.kind = kind
  let referenced := plane.flatMap fun entry => entry.2.parents
  (plane.map Prod.fst).filter fun h => h ∉ referenced

def currentFrontierBody (ledger : Authority) : FrontierBody where
  version := 1
  aclHeads := ledger.planeHeads 1
  actorHeads := ledger.planeHeads 0
  spaceAuthorityHeads := ledger.planeHeads 2

/-- The heads of a frontier must be held, each on its own plane. -/
def checkHead (ledger : Authority) (head : Text × ℕ) : Except Failure Unit :=
  match ledger.effects[head.1]? with
  | some effect => if effect.kind = head.2 then .ok () else .error .malformedFrontier
  | none => .error .missingHistory

/-- What a held effect names. -/
def parentsOf (ledger : Authority) (h : Text) : Option (List Text) :=
  ledger.effects[h]?.map Effect.parents

/-- Pop a node; skip it when it was collected before; otherwise collect it and
push what it names, provided all of that is held. -/
def worklist (next : Text → Option (List Text)) : ℕ → List Text → Finset Text →
    Option (Finset Text)
  | _, [], out => some out
  | 0, _ :: _, _ => none
  | fuel + 1, h :: stack, out =>
      if h ∈ out then worklist next fuel stack out
      else match next h with
        | none => none
        | some ps =>
            if ps.all fun p => (next p).isSome then
              worklist next fuel (ps.reverse ++ stack) (insert h out)
            else none

/-- The closure of a frontier: every effect hash reachable from its heads.  The loop pops
a head or a parent link at each turn, so their number is fuel enough. -/
def closureOf (ledger : Authority) (body : FrontierBody) : Except Failure (Finset Text) := do
  let heads := body.aclHeads.map (·, 1) ++ body.actorHeads.map (·, 0) ++
    body.spaceAuthorityHeads.map (·, 2)
  heads.forM ledger.checkHead
  let links := (ledger.effects.toList.map fun entry => entry.2.parents.length).sum
  match worklist ledger.parentsOf (heads.length + links) (heads.map Prod.fst).reverse ∅ with
  | some closure => return closure
  | none => throw .missingHistory

/-- The held effects of a set of hashes, in hash order. -/
def effectsOf (ledger : Authority) (hashes : Finset Text) : List Effect :=
  (hashes.sort (· ≤ ·)).filterMap fun h => ledger.effects[h]?

/-! ## Checkpoints -/

/-- Keep a checkpoint decoded; a full cache gives up its smallest key. -/
def cacheCheckpoint (ledger : Authority) (digest : Bytes) (cp : CheckpointObject) : Authority :=
  let kept :=
    if CHECKPOINT_CACHE_MAX ≤ ledger.checkpointCache.size then
      match ledger.checkpointCache.keys.head? with
      | some evict => ledger.checkpointCache.erase evict
      | none => ledger.checkpointCache
    else ledger.checkpointCache
  { ledger with checkpointCache := kept.insert digest cp }

/-- The complete index, and every object it names, each hash once in order. -/
def assembleMeta (ledger : Authority) : List Object × LedgerMeta :=
  let ceremony := ledger.material.ceremony.filterMap fun entry =>
    ledger.material.ceremonyRefs[entry.2.1]?.map fun ref => (entry.1, entry.2.1, ref.2)
  let keep := ledger.effectRefs.toList.map (fun entry => entry.2.2) ++
    ledger.sealedKeys.toList.map (fun entry => entry.2.object) ++
    ledger.checkpointRefs.toList.map Prod.snd ++ ledger.receiptRefs.toList.map Prod.snd ++
    ceremony.map (fun entry => entry.2.2) ++ ledger.ceremonyAudits.map Prod.snd
  ((keep.insertionSort fun a b => a.hash ≤ b.hash).destutter fun a b => a.hash ≠ b.hash,
    { version := 1
      genesis := ledger.genesis
      effects := ledger.effectRefs.toList
      sealedKeys := ledger.sealedKeys.toList.map fun entry =>
        (((ofLex entry.1).1, entry.2.device), entry.2.object)
      checkpoints := ledger.checkpointRefs.toList
      receipts := ledger.receiptRefs.toList
      frontier := ledger.frontier
      ceremony
      ceremonyNextSeq := ledger.material.ceremonyNextSeq
      ceremonyAudits := ledger.ceremonyAudits })

/-- New objects, each content once. -/
def dedupObjects (added : List Bytes) : List Bytes :=
  added.foldl (fun kept bytes =>
    if kept.any fun b => objectContentHash b = objectContentHash bytes then kept
    else kept ++ [bytes]) []

/-- One journal commit of the ledger as it is: what is new is written, and not carried. -/
def commitStore (ledger : Authority) (outcome : CommitOutcome) (added : List Bytes) :
    Journal LedgerMeta × Except JournalFailure Unit :=
  let (keep, record) := ledger.assembleMeta
  let arriving := added.map objectContentHash
  ledger.store.commitRequiredSet outcome
    { added := dedupObjects added
      required := keep.filter fun object => object.hash ∉ arriving
      record }

variable [Codecs]

/-- Continue the checkpoint of the current frontier, if it is cached, its space events are
the same, and the strict-descendant rule allows. -/
def tryContinue (ledger : Authority) (effective : Genesis) (spaceHashes : Finset Text)
    (actorEvents : List Actor.SignedEvent) (aclOps : List Acl.SignedOp) :
    Option Acl.ReplayCheckpoint := do
  let prior ← ledger.checkpointCache[frontierDigest ledger.genesis.spaceId ledger.frontier]?
  if prior.spaceEvents.toFinset ≠ spaceHashes then none
  else
    let (cp, _) ← Acl.replayContinue prior.replay prior.actorEvents.toFinset effective actorEvents
      aclOps
    return cp

/-- Replay the closure of a frontier into a checkpoint.  The terminal Space-authority
events of the closure seed the membership replay with their root. -/
def buildCheckpoint (ledger : Authority) (body : FrontierBody) (frontier : Bytes) :
    Except Failure CheckpointObject := do
  let closure ← ledger.closureOf body
  let held := ledger.effectsOf closure
  let aclOps := (held.filter fun effect => effect.kind = 1).map Effect.node
  let actorEvents := (held.filter fun effect => effect.kind = 0).map Effect.node
  let spaceEvents := (held.filter fun effect => effect.kind = 2).map Effect.node
  let spaceHashes := (spaceEvents.map SignedNode.hash).toFinset
  let root := Space.replay ledger.genesis ledger.genesis.spaceId spaceEvents
  let effective := { ledger.genesis with foundingActors := root.root }
  return {
    semantics := ledger.semantics
    frontier
    effectSet := closure.sort (· ≤ ·)
    actorEvents := (actorEvents.map SignedNode.hash).toFinset.sort (· ≤ ·)
    spaceEvents := spaceHashes.sort (· ≤ ·)
    replay := (ledger.tryContinue effective spaceHashes actorEvents aclOps).getD
      (Acl.replayCheckpointed effective actorEvents aclOps).1 }

/-- Index a checkpoint durably, unless its frontier has one. -/
def persistCheckpoint (ledger : Authority) (outcome : CommitOutcome) (cp : CheckpointObject) :
    Authority × Except Failure Unit :=
  let digest := frontierDigest ledger.genesis.spaceId cp.frontier
  if ledger.checkpointRefs.contains digest then (ledger, .ok ())
  else
    let bytes := Postcard.toStdvec cp
    let indexed := { ledger with
      checkpointRefs := ledger.checkpointRefs.insert digest (Objects.reference bytes) }
    match indexed.commitStore outcome [bytes] with
    | (store, .ok ()) => ({ indexed with store }, .ok ())
    | (store, .error e) =>
        ({ indexed with store, checkpointRefs := indexed.checkpointRefs.erase digest },
          .error (.journal e))

/-- The checkpoint that is indexed for a frontier, where it still decodes at the handle's
semantics. -/
def indexedCheckpoint (ledger : Authority) (frontier : Bytes) :
    Except Failure (Option CheckpointObject) :=
  match ledger.checkpointRefs[frontierDigest ledger.genesis.spaceId frontier]? with
  | none => .ok none
  | some object => do
      let bytes ← ledger.store.readObject object
      match (Postcard.fromBytes bytes : Option CheckpointObject) with
      | some cp =>
          if cp.semantics = ledger.semantics ∧ cp.frontier = frontier then return some cp
          else return none
      | none => return none

/-- Load or build, and durably journal, the checkpoint for a frontier. -/
def checkpointFor (ledger : Authority) (outcome : CommitOutcome) (frontier : Bytes) :
    Authority × Except Failure CheckpointObject :=
  match FrontierBody.decode frontier with
  | .error e => (ledger, .error e)
  | .ok body =>
      let digest := frontierDigest ledger.genesis.spaceId frontier
      match ledger.checkpointCache[digest]? with
      | some cp => (ledger, .ok cp)
      | none =>
          match ledger.indexedCheckpoint frontier with
          | .error e => (ledger, .error e)
          | .ok (some cp) => (ledger.cacheCheckpoint digest cp, .ok cp)
          | .ok none =>
              match ledger.buildCheckpoint body frontier with
              | .error e => (ledger, .error e)
              | .ok cp =>
                  match ledger.persistCheckpoint outcome cp with
                  | (persisted, .error e) => (persisted, .error e)
                  | (persisted, .ok ()) => (persisted.cacheCheckpoint digest cp, .ok cp)

end Authority

end Lait.Ledger
