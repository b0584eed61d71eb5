import Lait.Replica.Ownership
import Lait.Replica.Generation

/-!
# The journaled store

The journal below a Replica holds content-addressed objects, two sets of
**required** ones — eager objects are re-verified at open, deferred ones when
read — and one sealed metadata record per commit.  A commit either lands whole
or leaves the store as it was; what its medium does is the `CommitOutcome`.  When
the flush of a commit fails, the handle goes on seeing the store before it, and
only recovery decides.

`StoreMeta` is the Replica's own record in that metadata.  Its catalogs are
index roots in the source and the catalogs themselves here: an index's nodes are
objects, its root a function of its entries.  A store may still hold metadata of
two earlier generations.
-/

namespace Lait.Replica

/-- The Space material quotas. -/
structure QuotaConfig where
  maxBodyBytes : ℕ
  maxSpaceBytes : ℕ
  maxSpaceBodies : ℕ
  maxUnknownWorldBytes : ℕ
  maxUnknownWorldBodies : ℕ
  deriving DecidableEq

namespace QuotaConfig

def default : QuotaConfig where
  maxBodyBytes := 64 * 1024 * 1024
  maxSpaceBytes := 16 * 1024 * 1024 * 1024 * 1024
  maxSpaceBodies := 10000000
  maxUnknownWorldBytes := 1024 * 1024 * 1024
  maxUnknownWorldBodies := 25000

end QuotaConfig

/-- One Body's indexed entry; an index key is a hash, so the key travels. -/
structure IndexedBody where
  key : BodyKey
  record : BodyRecord
  deriving DecidableEq

/-- One receipt's indexed entry. -/
structure IndexedReceipt where
  scope : Bytes
  object : Object
  deriving DecidableEq

/-- The catalogs a Replica carries the roots of. -/
structure Catalogs where
  /-- `BodyKey` → the Body's record. -/
  bodyIndex : BTreeMap Bytes IndexedBody
  /-- The published Body catalog. -/
  manifestBodies : BTreeMap Bytes ManifestEntry
  /-- The published content catalog. -/
  contentIndex : BTreeMap Bytes ContentDescriptor
  /-- Idempotency scope → the receipt object that answers a replay. -/
  receiptIndex : BTreeMap Bytes IndexedReceipt
  /-- Manifest root → its generation delta. -/
  generationIndex : GenerationIndex
  /-- Object → its owners. -/
  ownershipIndex : OwnershipIndex

namespace Catalogs

def empty : Catalogs := ⟨∅, ∅, ∅, ∅, ∅, ∅⟩

end Catalogs

/-- The store's caller metadata, version 8. -/
structure StoreMeta where
  space : Option SpaceId
  frontier : ReplicaFrontier
  quota : QuotaConfig
  catalogs : Catalogs
  receiptCount : ℕ
  receiptMaterialBytes : ℕ
  manifestRoot : Option Object

/-- The generation-journal format, version 3: no receipt aggregates, no
ownership root. -/
structure PriorGenerationStoreMeta where
  space : Option SpaceId
  frontier : ReplicaFrontier
  quota : QuotaConfig
  bodyIndex : BTreeMap Bytes IndexedBody
  manifestBodies : BTreeMap Bytes ManifestEntry
  contentIndex : BTreeMap Bytes ContentDescriptor
  receiptIndex : BTreeMap Bytes IndexedReceipt
  generationIndex : GenerationIndex
  manifestRoot : Option Object

/-- The indexed-catalog format, version 2: version 3 without a generation root. -/
structure PriorIndexedStoreMeta where
  space : Option SpaceId
  frontier : ReplicaFrontier
  quota : QuotaConfig
  bodyIndex : BTreeMap Bytes IndexedBody
  manifestBodies : BTreeMap Bytes ManifestEntry
  contentIndex : BTreeMap Bytes ContentDescriptor
  receiptIndex : BTreeMap Bytes IndexedReceipt
  manifestRoot : Option Object

/-- The metadata as a store holds it, one constructor per readable version. -/
inductive StoredMeta
  | current (record : StoreMeta)
  | priorGeneration (record : PriorGenerationStoreMeta)
  | priorIndexed (record : PriorIndexedStoreMeta)

/-- The material of one commit. -/
structure CommitDelta where
  eagerAdded : List Bytes
  eagerRemoved : List Bytes
  deferredAdded : List Bytes
  deferredRemoved : List Bytes
  record : StoreMeta

/-- A journaled store, as its open handle sees it: the commits sealed so far.
Required objects are listed with their length. -/
structure Store where
  objects : BTreeMap Bytes Bytes
  eager : BTreeMap Bytes ℕ
  deferred : BTreeMap Bytes ℕ
  /-- The last sealed sequence, zero before the first commit. -/
  sequence : ℕ
  record : Option StoredMeta
  /-- A flush failed, and the writer refuses every later commit; the commit the
  medium holds all the same, if it does. -/
  unsettled : Option (Option CommitDelta)

/-- What the medium does with a commit. -/
inductive CommitOutcome
  /-- Sealed and flushed. -/
  | sealed
  /-- Failed before the seal: the store is as it was. -/
  | failed
  /-- The flush failed after the seal; recovery finds the commit, or does not. -/
  | unknown (landed : Bool)
  deriving DecidableEq

/-- What a collection meets. -/
structure Collecting where
  /-- The objects a reader pins, and those a leased deferred root requires. -/
  pinned : List Bytes
  /-- The indexes scrub clean and the next generation is written. -/
  built : Bool

namespace Store

def empty : Store := ⟨∅, ∅, ∅, 0, none, none⟩

/-- `collect_unreachable`: copy what is required or pinned into the next generation, unless
nothing was ever committed or the writer is closed. -/
def collectUnreachable (store : Store) (collecting : Collecting) : Store × Except Failure Unit :=
  if store.unsettled.isSome then (store, .error .durability)
  else if store.sequence = 0 then (store, .ok ())
  else if !collecting.built then (store, .error .durability)
  else
    ({ store with
        objects := store.objects.filter fun hash _ =>
          store.eager.contains hash || store.deferred.contains hash || hash ∈ collecting.pinned },
      .ok ())

variable [Crypto]

/-- `read`: an object's bytes. -/
def read (store : Store) (hash : Bytes) : Option Bytes := store.objects[hash]?

/-- `read_object`: an object's bytes, at the length named. -/
def readObject (store : Store) (object : Object) : Option Bytes :=
  match store.read object.hash with
  | some bytes => if bytes.length = object.len then some bytes else none
  | none => none

/-- Write objects. -/
def putAll (objects : BTreeMap Bytes Bytes) (added : List Bytes) : BTreeMap Bytes Bytes :=
  added.foldl (fun objects bytes => objects.insert (objectContentHash bytes) bytes) objects

/-- Require the added objects, after releasing the removed ones: a hash in both
lists stays required. -/
def require (required : BTreeMap Bytes ℕ) (removed : List Bytes) (added : List Bytes) :
    BTreeMap Bytes ℕ :=
  added.foldl (fun required bytes => required.insert (objectContentHash bytes) bytes.length)
    (removed.foldl (fun required hash => required.erase hash) required)

/-- The store a sealed commit leaves.  An object is in one class: adding it to
one takes it out of the other, and an object added as both is eager. -/
def sealCommit (store : Store) (delta : CommitDelta) : Store :=
  let eagerHashes := delta.eagerAdded.map objectContentHash
  let deferredAdded := delta.deferredAdded.filter fun bytes => objectContentHash bytes ∉ eagerHashes
  let deferredHashes := deferredAdded.map objectContentHash
  { objects := putAll (putAll store.objects delta.eagerAdded) delta.deferredAdded
    eager := require store.eager (delta.eagerRemoved ++ deferredHashes) delta.eagerAdded
    deferred := require store.deferred (delta.deferredRemoved ++ eagerHashes) deferredAdded
    sequence := store.sequence + 1
    record := some (.current delta.record)
    unsettled := none }

/-- `commit_classified`: the store it leaves, and what it answers. -/
def commitClassified (store : Store) (delta : CommitDelta) (outcome : CommitOutcome) :
    Store × Except Failure Unit :=
  if U64_MAX ≤ store.sequence then (store, .error .durability)
  else if store.unsettled.isSome then (store, .error .outcomeUnknown)
  else
    match outcome with
    | .sealed => (store.sealCommit delta, .ok ())
    | .failed => (store, .error .durability)
    | .unknown landed =>
        ({ store with unsettled := some (if landed then some delta else none) },
          .error .outcomeUnknown)

/-- A commit succeeds by being sealed. -/
theorem commitClassified_eq_ok {store store' : Store} {delta : CommitDelta}
    {outcome : CommitOutcome} (h : store.commitClassified delta outcome = (store', .ok ())) :
    store' = store.sealCommit delta ∧ store.unsettled = none := by
  unfold commitClassified at h
  split at h
  · cases h
  · split at h
    · cases h
    case isFalse hunsettled =>
      cases outcome with
      | sealed =>
          cases h
          exact ⟨rfl, by simpa using hunsettled⟩
      | failed => cases h
      | unknown landed => cases h

/-- A refused commit leaves what the handle sees as it was. -/
theorem commitClassified_eq_error {store store' : Store} {delta : CommitDelta}
    {outcome : CommitOutcome} {failure : Failure}
    (h : store.commitClassified delta outcome = (store', .error failure)) :
    ∃ unsettled, store' = { store with unsettled } := by
  unfold commitClassified at h
  split at h
  · cases h
    exact ⟨_, rfl⟩
  · split at h
    · cases h
      exact ⟨_, rfl⟩
    · cases outcome with
      | sealed => cases h
      | failed =>
          cases h
          exact ⟨_, rfl⟩
      | unknown landed =>
          cases h
          exact ⟨_, rfl⟩

end Store

end Lait.Replica
