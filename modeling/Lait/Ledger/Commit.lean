import Lait.Ledger.Authority

/-!
# Committing to the ledger

`commitBatch` takes effects and sealed keys in one journal commit.  It validates the
whole batch, then works on the ledger itself: the new effects are held before the
checkpoint of the resulting frontier is built, and every index is written before the
store is asked.  Where either fails, what was put in is taken out by key.

Ceremony material is appended and compacted by commits of its own.  `Reached` is the
ledgers that any run of these operations leads to, reopenings included.
-/

namespace Lait.Ledger

open Ceremony (Object objectContentHash)

/-- An effect found new: its hash, and its bytes as they came. -/
structure FreshEffect where
  hash : Text
  effect : Effect
  bytes : Bytes

/-- A sealed key found new, and its bytes as they came. -/
structure FreshKey where
  record : SealedKeyRecord
  bytes : Bytes

namespace Authority

variable [Crypto] [Codecs]

/-! ## Validating a batch -/

/-- Validate one effect record against the ledger and the records before it. -/
def admitEffect (ledger : Authority) (fresh : List FreshEffect) (record : Bytes) :
    Except Failure (List FreshEffect) := do
  let effect ← Effect.decode record
  if ¬ effect.verify ledger.genesis.spaceId then throw .invalidRecord
  if ledger.effects.contains effect.hash then return fresh
  else if fresh.any fun item => item.hash = effect.hash then return fresh
  else return fresh ++ [⟨effect.hash, effect, record⟩]

/-- Validate one sealed-key record: the first under a key stands. -/
def admitSealed (ledger : Authority) (fresh : List FreshKey) (bytes : Bytes) :
    Except Failure (List FreshKey) := do
  let record ← SealedKeyRecord.decode bytes
  if ledger.sealedKeys.contains record.key then return fresh
  else if fresh.any fun item => item.record.key = record.key then return fresh
  else return fresh ++ [⟨record, bytes⟩]

/-- Validate the complete batch. -/
def validate (ledger : Authority) (effectRecords sealedRecords : List Bytes) :
    Except Failure (List FreshEffect × List FreshKey) := do
  let newEffects ← effectRecords.foldlM ledger.admitEffect []
  let newSealed ← sealedRecords.foldlM ledger.admitSealed []
  return (newEffects, newSealed)

/-! ## Staging and unwinding -/

/-- Hold new effects. -/
def hold (ledger : Authority) (newEffects : List FreshEffect) : Authority :=
  { ledger with
    effects := newEffects.foldl (fun effects item => effects.insert item.hash item.effect)
      ledger.effects }

/-- Give them up again. -/
def release (ledger : Authority) (newEffects : List FreshEffect) : Authority :=
  { ledger with
    effects := newEffects.foldl (fun effects item => effects.erase item.hash) ledger.effects }

/-- What a batch is about to be committed as. -/
structure Batch where
  newEffects : List FreshEffect
  newSealed : List FreshKey
  checkpoint : CheckpointObject
  receipt : BatchReceipt

namespace Batch

/-- The objects of a batch, in the order they are written. -/
def objects (batch : Batch) : List Bytes :=
  batch.newEffects.map FreshEffect.bytes ++ batch.newSealed.map FreshKey.bytes ++
    [Postcard.toStdvec batch.checkpoint, Postcard.toStdvec batch.receipt]

/-- What the batch's checkpoint is looked up by. -/
def checkpointDigest (batch : Batch) : Bytes :=
  frontierDigest batch.receipt.space batch.receipt.resultingFrontier

end Batch

/-- Write the indexes of a batch whose effects are held. -/
def stage (ledger : Authority) (batch : Batch) : Authority :=
  { ledger with
    effectRefs := batch.newEffects.foldl (fun refs item =>
      refs.insert item.hash (item.effect.kind, Objects.reference item.bytes)) ledger.effectRefs
    sealedKeys := batch.newSealed.foldl (fun keys item =>
      keys.insert item.record.key
        ⟨item.record.device, item.record.envelope, Objects.reference item.bytes⟩) ledger.sealedKeys
    checkpointRefs := ledger.checkpointRefs.insert batch.checkpointDigest
      (Objects.reference (Postcard.toStdvec batch.checkpoint))
    receiptRefs := ledger.receiptRefs.insert batch.receipt.batchDigest
      (Objects.reference (Postcard.toStdvec batch.receipt))
    frontier := batch.receipt.resultingFrontier }

/-- Unwind a staged batch: what was put in is taken out, key by key. -/
def unwind (ledger : Authority) (batch : Batch) : Authority :=
  { ledger.release batch.newEffects with
    effectRefs := batch.newEffects.foldl (fun refs item => refs.erase item.hash) ledger.effectRefs
    sealedKeys := batch.newSealed.foldl (fun keys item => keys.erase item.record.key)
      ledger.sealedKeys
    checkpointRefs := ledger.checkpointRefs.erase batch.checkpointDigest
    receiptRefs := ledger.receiptRefs.erase batch.receipt.batchDigest
    frontier := batch.receipt.priorFrontier }

/-- Commit a batch whose effects are held. -/
def commitHeld (ledger : Authority) (outcome : CommitOutcome) (batch : Batch) :
    Authority × Except Failure BatchReceipt :=
  let staged := ledger.stage batch
  match staged.commitStore outcome batch.objects with
  | (store, .ok ()) =>
      let cached := { staged with store }.cacheCheckpoint batch.checkpointDigest batch.checkpoint
      ({ cached with
          receipts := cached.receipts.insert batch.receipt.batchDigest batch.receipt },
        .ok batch.receipt)
  | (store, .error e) => ({ staged with store }.unwind batch, .error (.journal e))

/-- `commit_batch`.  A batch that was committed before answers with its receipt. -/
def commitBatch (ledger : Authority) (outcome : CommitOutcome)
    (effectRecords sealedRecords : List Bytes) : Authority × Except Failure BatchReceipt :=
  let digest := batchDigest (effectRecords ++ sealedRecords)
  match ledger.receipts[digest]? with
  | some receipt => (ledger, .ok receipt)
  | none =>
      match ledger.validate effectRecords sealedRecords with
      | .error e => (ledger, .error e)
      | .ok (newEffects, newSealed) =>
          let held := ledger.hold newEffects
          let body := held.currentFrontierBody
          match held.buildCheckpoint body body.encode with
          | .error e => (held.release newEffects, .error e)
          | .ok checkpoint =>
              held.commitHeld outcome
                { newEffects
                  newSealed
                  checkpoint
                  receipt := ⟨ledger.genesis.spaceId, ledger.frontier, body.encode, digest⟩ }

/-! ## Creating and opening -/

/-- The ledger of a genesis alone. -/
def baseline (store : Journal LedgerMeta) (genesis : Genesis) : Authority where
  store
  genesis
  effects := ∅
  effectRefs := ∅
  sealedKeys := ∅
  checkpointRefs := ∅
  checkpointCache := ∅
  receipts := ∅
  receiptRefs := ∅
  frontier := ⟨[]⟩
  material := {}
  ceremonyAudits := []
  semantics := LEDGER_SEMANTICS_VERSION

/-- Create a fresh ledger on a store that holds none, and commit the empty batch. -/
def create (store : Journal LedgerMeta) (outcome : CommitOutcome) (genesis : Genesis) :
    Except Failure Authority :=
  if store.record.isSome then .error .corrupt
  else
    match (baseline store genesis).commitBatch outcome [] [] with
    | (ledger, .ok _) => .ok ledger
    | (_, .error e) => .error e

theorem create_eq_ok {store : Journal LedgerMeta} {outcome : CommitOutcome} {genesis : Genesis}
    {ledger : Authority} : create store outcome genesis = .ok ledger ↔ store.record = none ∧
      ∃ receipt, (baseline store genesis).commitBatch outcome [] [] = (ledger, .ok receipt) := by
  unfold create
  cases store.record with
  | some record => exact ⟨nofun, nofun⟩
  | none =>
      rw [if_neg (by simp)]
      split
      case h_1 born receipt heq =>
          rw [heq]
          exact ⟨fun h => ⟨rfl, receipt, by cases h; rfl⟩, fun ⟨_, _, h⟩ => by cases h; rfl⟩
      case h_2 born e heq =>
          rw [heq]
          exact ⟨nofun, fun ⟨_, _, h⟩ => by cases h⟩

/-- Anything but a store failure is damage, when it is met on opening. -/
def orCorrupt {α : Type} : Except Failure α → Except Failure α
  | .ok a => .ok a
  | .error _ => .error .corrupt

/-- A stored effect must be the one its index names, and verify again. -/
def readEffect (store : Journal LedgerMeta) (genesis : Genesis) (entry : Text × ℕ × Object) :
    Except Failure (Text × ℕ × Object × Effect) := do
  let bytes ← store.readObject entry.2.2
  let effect ← orCorrupt (Effect.decode bytes)
  if effect.hash ≠ entry.1 ∨ effect.kind ≠ entry.2.1 then throw .corrupt
  if ¬ effect.verify genesis.spaceId then throw .corrupt
  return (entry.1, entry.2.1, entry.2.2, effect)

/-- A stored sealed key must be the one its index names. -/
def readSealed (store : Journal LedgerMeta) (entry : (Bytes × DeviceId) × Object) :
    Except Failure (SealedKeyRecord.Key × SealedEntry) := do
  let bytes ← store.readObject entry.2
  let record ← orCorrupt (SealedKeyRecord.decode bytes)
  if record.epoch ≠ entry.1.1 ∨ ¬ record.device.same entry.1.2 then throw .corrupt
  return (toLex (entry.1.1, entry.1.2.fold), ⟨entry.1.2, record.envelope, entry.2⟩)

/-- A stored receipt must be the one its index names. -/
def readReceipt (store : Journal LedgerMeta) (entry : Bytes × Object) :
    Except Failure (Bytes × Object × BatchReceipt) := do
  let bytes ← store.readObject entry.2
  match (Postcard.fromBytes bytes : Option BatchReceipt) with
  | none => throw .corrupt
  | some receipt =>
      if receipt.batchDigest ≠ entry.1 then throw .corrupt
      return (entry.1, entry.2, receipt)

/-- A stored checkpoint is kept where it decodes at the semantics asked for. -/
def readCheckpoint (store : Journal LedgerMeta) (semantics : ℕ) (entry : Bytes × Object) :
    Except Failure (Option (Bytes × Object)) := do
  let bytes ← store.readObject entry.2
  match (Postcard.fromBytes bytes : Option CheckpointObject) with
  | some cp => return if cp.semantics = semantics then some entry else none
  | none => return none

/-- A stored ceremony record must be the one its index names, and verify again. -/
def readCeremony (store : Journal LedgerMeta) (genesis : Genesis) (entry : ℕ × Text × Object) :
    Except Failure (ℕ × Text × SignedNode × Object) := do
  let bytes ← store.readObject entry.2.2
  match Ceremony.CeremonyMaterial.decode bytes with
  | .error _ => throw .corrupt
  | .ok material =>
      if material.node.hash ≠ entry.2.1 then throw .corrupt
      if ¬ material.verify genesis.spaceId then throw .corrupt
      return (entry.1, entry.2.1, material.node, entry.2.2)

/-- A stored audit must commit to what it says was dropped. -/
def readAudit (store : Journal LedgerMeta) (genesis : Genesis) (entry : Bytes × Object) :
    Except Failure (Bytes × Object) := do
  let bytes ← store.readObject entry.2
  match (Postcard.fromBytes bytes : Option CeremonyAuditRecord) with
  | none => throw .corrupt
  | some audit =>
      if audit.commitment ≠ entry.1 ∨
          (CeremonyAuditRecord.build genesis.spaceId audit.dropped).commitment ≠ entry.1 then
        throw .corrupt
      return entry

/-- Read the ledger that a store's record indexes. -/
def readIndex (store : Journal LedgerMeta) (semantics : ℕ) : Except Failure Authority := do
  match store.record with
  | none => throw .corrupt
  | some record =>
      if record.version ≠ 1 then throw .corrupt
      let effects ← record.effects.mapM (readEffect store record.genesis)
      let sealedKeys ← record.sealedKeys.mapM (readSealed store)
      let receipts ← record.receipts.mapM (readReceipt store)
      let checkpoints ← record.checkpoints.mapM (readCheckpoint store semantics)
      let ceremony ← record.ceremony.mapM (readCeremony store record.genesis)
      if ceremony.any fun entry => record.ceremonyNextSeq ≤ entry.1 then throw .corrupt
      let ceremonyAudits ← record.ceremonyAudits.mapM (readAudit store record.genesis)
      return {
        store
        genesis := record.genesis
        effects := effects.foldl (fun m entry => m.insert entry.1 entry.2.2.2) ∅
        effectRefs := effects.foldl (fun m entry => m.insert entry.1 (entry.2.1, entry.2.2.1)) ∅
        sealedKeys := sealedKeys.foldl (fun m entry => m.insert entry.1 entry.2) ∅
        checkpointRefs := (checkpoints.filterMap id).foldl (fun m entry => m.insert entry.1 entry.2) ∅
        checkpointCache := ∅
        receipts := receipts.foldl (fun m entry => m.insert entry.1 entry.2.2) ∅
        receiptRefs := receipts.foldl (fun m entry => m.insert entry.1 entry.2.1) ∅
        frontier := record.frontier
        material :=
          { ceremony := (ceremony.map fun entry => (entry.1, entry.2.1, entry.2.2.1)).insertionSort
              fun a b => a.1 ≤ b.1
            ceremonyRefs := ceremony.foldl (fun m entry =>
              m.insert entry.2.1 (entry.1, entry.2.2.2)) ∅
            ceremonyNextSeq := record.ceremonyNextSeq }
        ceremonyAudits
        semantics }

/-- Open an existing ledger.  The current frontier must be materializable. -/
def openWith (store : Journal LedgerMeta) (outcome : CommitOutcome) (semantics : ℕ) :
    Except Failure Authority := do
  let ledger ← readIndex store semantics
  match ledger.checkpointFor outcome ledger.frontier with
  | (ledger, .ok _) => return ledger
  | (_, .error e) => throw e

/-! ## Ceremony material -/

/-- Append one ceremony batch. -/
def commitCeremonyBatch (ledger : Authority) (outcome : CommitOutcome) (records : List Bytes) :
    Authority × Except Failure ℕ :=
  match records.foldlM (ledger.material.admitRecord ledger.genesis.spaceId) [] with
  | .error _ => (ledger, .error .invalidRecord)
  | .ok fresh =>
      if fresh.isEmpty then (ledger, .ok ledger.material.ceremonyNextSeq)
      else
        let staged := { ledger with material := fresh.foldl Ceremony.CeremonyLog.stage ledger.material }
        match staged.commitStore outcome (fresh.map fun item => item.2.2) with
        | (store, .ok ()) => ({ staged with store }, .ok staged.material.ceremonyNextSeq)
        | (store, .error e) =>
            ({ staged with
                store
                material := staged.material.unwind fresh ledger.material.ceremonyNextSeq },
              .error (.journal e))

/-- Drop ceremony records, leaving an audit of their hashes in the same commit. -/
def compactCeremony (ledger : Authority) (outcome : CommitOutcome) (dropped : List Text) :
    Authority × Except Failure Bytes :=
  if dropped.any fun h => !ledger.material.ceremonyRefs.contains h then
    (ledger, .error .invalidRecord)
  else if dropped.isEmpty then (ledger, .error .invalidRecord)
  else
    let audit := CeremonyAuditRecord.build ledger.genesis.spaceId dropped
    let bytes : Bytes := Postcard.toStdvec audit
    let staged := { ledger with
      material := { ledger.material with
        ceremony := ledger.material.ceremony.filter fun entry => entry.2.1 ∉ dropped
        ceremonyRefs := dropped.foldl (fun refs h => refs.erase h) ledger.material.ceremonyRefs }
      ceremonyAudits := ledger.ceremonyAudits ++ [(audit.commitment, Objects.reference bytes)] }
    match staged.commitStore outcome [bytes] with
    | (store, .ok ()) => ({ staged with store }, .ok audit.commitment)
    | (store, .error e) => ({ ledger with store }, .error (.journal e))

/-- The ledgers that any run of operations leads to, whatever the store's medium does. -/
inductive Reached : Authority → Prop
  | create {store : Journal LedgerMeta} {outcome : CommitOutcome} {genesis : Genesis}
      {ledger : Authority} : create store outcome genesis = .ok ledger → Reached ledger
  | commitBatch {ledger : Authority} (outcome : CommitOutcome)
      (effectRecords sealedRecords : List Bytes) :
      Reached ledger → Reached (ledger.commitBatch outcome effectRecords sealedRecords).1
  | commitCeremonyBatch {ledger : Authority} (outcome : CommitOutcome) (records : List Bytes) :
      Reached ledger → Reached (ledger.commitCeremonyBatch outcome records).1
  | compactCeremony {ledger : Authority} (outcome : CommitOutcome) (dropped : List Text) :
      Reached ledger → Reached (ledger.compactCeremony outcome dropped).1
  | checkpointFor {ledger : Authority} (outcome : CommitOutcome) (frontier : Bytes) :
      Reached ledger → Reached (ledger.checkpointFor outcome frontier).1
  | reopen {ledger ledger' : Authority} (outcome : CommitOutcome) (semantics : ℕ) :
      Reached ledger → openWith ledger.store.recover outcome semantics = .ok ledger' →
      Reached ledger'

end Authority

end Lait.Ledger
