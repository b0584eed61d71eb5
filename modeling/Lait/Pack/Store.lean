import Lait.Pack.Record

/-!
# The pack store

One slot holds the live pack: a header, then records, appended and never
rewritten.  A commit appends its objects and a seal and flushes once; a
compaction copies what is live into the slot of the next generation, switches to
it, and leaves the old slot to a graveyard until no view is left that reads it.

A `PackView` is the state one seal published: a generation, its table, and the
sealed length.  A `World` is the store on its disk, with the views that are held.

Everything of the environment is input.  Which calls of the medium fail, and
where the fault injector strikes, the verdicts of the disk say; the salt of a new
slot is an argument.
-/

namespace Lait.Pack

open Stateful
open Ceremony (objectContentHash)

/-- A full-table seal at least this often bounds the recovery walk. -/
def CHECKPOINT_EVERY : ℕ := 64

/-! ## Slot names -/

/-- A number, in decimal. -/
def decimal (n : ℕ) : Text :=
  ⟨(if n = 0 then [0] else (Nat.digits 10 n).reverse).map fun d => UInt8.ofNat (48 + d)⟩

theorem decimal_injective : Function.Injective decimal := by
  refine Function.LeftInverse.injective
    (g := fun text => Nat.ofDigits 10 (text.data.map fun b => b.toNat - 48).reverse) fun n => ?_
  have hdigit : ∀ d < 10, (UInt8.ofNat (48 + d)).toNat - 48 = d := by
    intro d hd
    rw [UInt8.toNat_ofNat']
    omega
  unfold decimal
  by_cases hn : n = 0
  · rw [hn]
    rfl
  · have hmap : ((Nat.digits 10 n).reverse.map fun d => (UInt8.ofNat (48 + d)).toNat - 48) =
        (Nat.digits 10 n).reverse := by
      refine (List.map_congr_left fun d hd => ?_).trans (List.map_id _)
      exact hdigit d (Nat.digits_lt_base (by norm_num) (List.mem_reverse.mp hd))
    dsimp only
    rw [if_neg hn, List.map_map]
    show Nat.ofDigits 10 ((Nat.digits 10 n).reverse.map fun d =>
      (UInt8.ofNat (48 + d)).toNat - 48).reverse = n
    rw [hmap, List.reverse_reverse, Nat.ofDigits_digits]

/-- `slot_name`. -/
def slotName (family : Text) (generation : ℕ) : Text :=
  family ++ Bytes.ofString "-" ++ decimal generation

theorem slotName_injective (family : Text) : Function.Injective (slotName family) := by
  intro a b hab
  exact decimal_injective (Bytes.append_right_inj.mp hab)

/-! ## Views -/

/-- One slot life, as what reads it holds it. -/
structure Generation where
  name : Text
  deriving DecidableEq

/-- What one commit published. -/
structure Snapshot where
  generation : Generation
  table : Table
  /-- The slot length the seal covered; it bounds every range of the table. -/
  sealedLen : ℕ
  sequence : ℕ

/-- A read-only view of the pack at one seal. -/
structure PackView where
  snapshot : Snapshot

namespace PackView

variable [Crypto]

/-- `read_bounded`. -/
def readBounded (view : PackView) (disk : Disk) (hash : Bytes) (maxLen : ℕ) :
    Except Failure Bytes :=
  match view.snapshot.table[hash]? with
  | none => .error (.integrity .missingObject)
  | some (offset, len) =>
      if maxLen < len then .error (.integrity .corruptObject)
      else
        match disk.readAt view.snapshot.generation.name offset len with
        | .error kind => .error (.operation .read kind)
        | .ok bytes =>
            if objectContentHash ⟨bytes⟩ ≠ hash then .error (.integrity .corruptObject)
            else .ok ⟨bytes⟩

/-- `read`. -/
def read (view : PackView) (disk : Disk) (hash : Bytes) : Except Failure Bytes :=
  view.readBounded disk hash U64_MAX

end PackView

/-! ## The store -/

structure PackStore where
  writer : Writer
  /-- `prefix`: the slots are named `family-generation`. -/
  family : Text
  key : Bytes
  snapshot : Snapshot
  graveyard : List Generation
  generation : ℕ
  lastSeal : Option SealLink
  sealsSinceCheckpoint : ℕ
  provenance : Option Provenance
  manifest : Option Bytes
  poisoned : Bool

structure World where
  disk : Disk
  store : PackStore
  /-- The views that readers hold. -/
  held : List PackView

namespace World

/-- Change the store. -/
def update (change : PackStore → PackStore) (world : World) : World :=
  { world with store := change world.store }

end World

/-- A computation on the disk alone. -/
def onDisk {α : Type} (call : Stateful Disk Failure α) : Stateful World Failure α :=
  within World.disk (fun disk world => { world with disk }) id call

/-- `point`: the fault injector may fail the operation here. -/
def point : Stateful Disk Failure Unit := do
  match ← Disk.verdict with
  | .fails _ _ => throw (.operation .write .interrupted)
  | .done => pure ()

/-- `crash_requested`. -/
def crashRequested : Stateful Disk Failure Bool := do
  match ← Disk.verdict with
  | .fails _ _ => pure true
  | .done => pure false

namespace PackStore

variable [Crypto] [KeyedHash] [Postcard Seal]

/-- `view`. -/
def view (store : PackStore) : PackView := ⟨store.snapshot⟩

/-- `read`. -/
def read (store : PackStore) (hash : Bytes) : Stateful Disk Failure Bytes := do
  match ← Disk.verdict with
  | .fails kind _ => throw (.operation .read kind)
  | .done =>
      let disk ← get
      match store.view.read disk hash with
      | .ok bytes => pure bytes
      | .error failure => throw failure

/-! ### Commits -/

/-- `PackStore::append_record`. -/
def append (magic : List UInt8) (payload : Bytes) : Stateful World Failure ℕ := do
  let world ← get
  let (payloadAt, writer) ←
    onDisk (appendRecord world.store.writer world.store.key magic payload)
  modify (World.update fun store => { store with writer })
  pure payloadAt

/-- `append_seal`. -/
def appendSeal (pack : Seal) : Stateful World Failure SealLink := do
  let payload := Postcard.toStdvec pack
  let world ← get
  let recordOffset := world.store.writer.len
  let _ ← append SEAL_MAGIC payload
  pure ⟨recordOffset, recordCheck world.store.key SEAL_MAGIC recordOffset payload⟩

/-- Cut the writer's slot; `self.writer.truncate`. -/
def cut (newLen : ℕ) : Stateful World Failure Unit := do
  let world ← get
  let writer ← onDisk (ioErr .write (Disk.truncate world.store.writer newLen))
  modify (World.update fun store => { store with writer })

/-- Flush, and poison the writer where that fails: a retried flush proves nothing. -/
def flushOrPoison : Stateful World Failure Unit := do
  let world ← get
  tryCatch (onDisk (ioErr .sync (Disk.flush world.store.writer))) fun _ => do
    modify (World.update fun store => { store with poisoned := true })
    throw .outcomeUnknown

/-- One object of a commit, unless the table has it. -/
def addObject (acc : List TableEntry × Table) (bytes : Bytes) :
    Stateful World Failure (List TableEntry × Table) := do
  let hash := objectContentHash bytes
  if acc.2.contains hash then pure acc
  else
    let offset ← append OBJECT_MAGIC bytes
    pure (acc.1 ++ [⟨hash, offset, bytes.length⟩], acc.2.insert hash (offset, bytes.length))

/-- `try_commit`. -/
def tryCommit (objects : List Bytes) (manifest : Bytes) : Stateful World Failure ℕ := do
  onDisk point
  let world ← get
  let (added, table) ← objects.foldlM addObject ([], world.store.snapshot.table)
  match checkedAdd world.store.snapshot.sequence 1 with
  | none => throw (.integrity .counterOverflow)
  | some sequence =>
      let since := min (world.store.sealsSinceCheckpoint + 1) U64_MAX
      let due : Bool := CHECKPOINT_EVERY ≤ since
      onDisk point
      let link ← appendSeal {
        sequence
        generation := world.store.generation
        prev := world.store.lastSeal
        added
        checkpoint := if due then some (entries table) else none
        provenance := none
        manifest }
      onDisk point
      flushOrPoison
      -- The bytes are durable; only now may a snapshot name them.
      modify (World.update fun store => { store with
        snapshot := ⟨store.snapshot.generation, table, store.writer.len, sequence⟩
        lastSeal := some link
        sealsSinceCheckpoint := if due then 0 else since
        provenance := none
        manifest := some manifest })
      pure sequence

/-- What a failed commit leaves: its tail is cut off, or the writer is poisoned. -/
def undoTo {α : Type} (undo : ℕ) (failure : Failure) : Stateful World Failure α := do
  match failure with
  | .outcomeUnknown => throw .outcomeUnknown
  | _ =>
      tryCatch (cut undo) fun _ =>
        modify (World.update fun store => { store with poisoned := true })
      throw failure

/-- `commit`. -/
def commit (objects : List Bytes) (manifest : Bytes) : Stateful World Failure ℕ := do
  let world ← get
  failIf (world.store.poisoned = true) .outcomeUnknown
  tryCatch (tryCommit objects manifest) (undoTo world.store.writer.len)

/-- One object of a migration, read from its source. -/
def migrateObject (table : Table) (source : Except Failure Bytes) :
    Stateful World Failure Table := do
  match source with
  | .error failure => throw failure
  | .ok bytes =>
      let hash := objectContentHash bytes
      if table.contains hash then pure table
      else
        let offset ← append OBJECT_MAGIC bytes
        pure (table.insert hash (offset, bytes.length))

/-- `try_migrate`. -/
def tryMigrate (objects : List (Except Failure Bytes)) (manifest : Bytes)
    (provenance : Provenance) : Stateful World Failure ℕ := do
  onDisk point
  let table ← objects.foldlM migrateObject ∅
  match checkedAdd provenance.sourceCounter 1 with
  | none => throw (.integrity .counterOverflow)
  | some sequence =>
      let world ← get
      onDisk point
      let link ← appendSeal {
        sequence
        generation := world.store.generation
        prev := none
        added := []
        checkpoint := some (entries table)
        provenance := some provenance
        manifest }
      onDisk point
      flushOrPoison
      modify (World.update fun store => { store with
        snapshot := ⟨store.snapshot.generation, table, store.writer.len, sequence⟩
        lastSeal := some link
        sealsSinceCheckpoint := 0
        provenance := some provenance
        manifest := some manifest })
      pure sequence

/-- `migrate_commit`: the one commit a fresh pack may take from a migration. -/
def migrateCommit (objects : List (Except Failure Bytes)) (manifest : Bytes)
    (provenance : Provenance) : Stateful World Failure ℕ := do
  let world ← get
  failIf (world.store.poisoned = true) .outcomeUnknown
  failIf (world.store.lastSeal.isSome = true) corrupt
  tryCatch (tryMigrate objects manifest provenance) (undoTo HEADER_LEN)

/-! ### Compaction -/

/-- Copy one object into the successor, verified. -/
def copyObject (store : PackStore) (key : Bytes) (acc : Writer × Table) (hash : Bytes) :
    Stateful Disk Failure (Writer × Table) := do
  let bytes ← store.read hash
  let (offset, writer) ← appendRecord acc.1 key OBJECT_MAGIC bytes
  pure (writer, acc.2.insert hash (offset, bytes.length))

/-- What a built successor consists of. -/
structure Successor where
  writer : Writer
  key : Bytes
  len : ℕ
  table : Table
  link : SealLink

/-- `build_successor`. -/
def buildSuccessor (store : PackStore) (name : Text) (generation : ℕ) (live : Bytes → Bool)
    (salt : Option Salt) : Stateful Disk Failure Successor := do
  let (writer, key) ← initSlot name salt
  point
  let keep := store.snapshot.table.keys.filter live
  let (writer, table) ← keep.foldlM (copyObject store key) (writer, ∅)
  let payload := Postcard.toStdvec ({
    sequence := store.snapshot.sequence
    generation
    prev := none
    added := []
    checkpoint := some (entries table)
    provenance := none
    manifest := store.manifest.getD .empty } : Seal)
  point
  let recordOffset := writer.len
  let (_, writer) ← appendRecord writer key SEAL_MAGIC payload
  point
  ioErr .sync (Disk.flush writer)
  pure ⟨writer, key, writer.len, table,
    ⟨recordOffset, recordCheck key SEAL_MAGIC recordOffset payload⟩⟩

/-- The successor is authoritative; the old generation goes to the graveyard. -/
def switch (name : Text) (generation : ℕ) (successor : Successor) (store : PackStore) :
    PackStore :=
  { store with
    writer := successor.writer
    key := successor.key
    generation
    lastSeal := some successor.link
    sealsSinceCheckpoint := 0
    snapshot := ⟨⟨name⟩, successor.table, successor.len, store.snapshot.sequence⟩
    graveyard := store.graveyard ++ [store.snapshot.generation] }

/-- `Arc::strong_count` of a generation the graveyard holds: its own reference, and
one for each snapshot of it that is left. -/
def strongCount (world : World) (generation : Generation) : ℕ :=
  1 + (if world.store.snapshot.generation = generation then 1 else 0) +
    world.held.countP fun view => view.snapshot.generation = generation

/-- Remove one retired generation, unless something reads it. -/
def sweepGeneration (kept : List Generation) (generation : Generation) :
    Stateful World Failure (List Generation) := do
  let world ← get
  if 1 < strongCount world generation then pure (kept ++ [generation])
  else
    onDisk (ignore (Disk.removeSlot generation.name))
    pure kept

/-- `sweep_graveyard`. -/
def sweepGraveyard : Stateful World Failure Unit := do
  let world ← get
  let kept ← world.store.graveyard.foldlM sweepGeneration []
  modify (World.update fun store => { store with graveyard := kept })

/-- The successor takes over; what nothing reads any more is removed. -/
def succeed (name : Text) (generation : ℕ) (successor : Successor) :
    Stateful World Failure Unit := do
  modify (World.update (switch name generation successor))
  if ← onDisk crashRequested then pure () else sweepGraveyard

/-- A compaction that fails costs itself only: the pack is untouched and still
authoritative. -/
def abandon (name : Text) (failure : Failure) : Stateful World Failure Unit := do
  onDisk (ignore (Disk.removeSlot name))
  throw failure

/-- `compact`. -/
def compact (live : Bytes → Bool) (salt : Option Salt) : Stateful World Failure Unit := do
  let world ← get
  failIf (world.store.poisoned = true) .outcomeUnknown
  if world.store.lastSeal.isNone then pure ()
  else
    match checkedAdd world.store.generation 1 with
    | none => throw (.integrity .counterOverflow)
    | some generation =>
        let name := slotName world.store.family generation
        onDisk (ignore (Disk.removeSlot name))
        match ← attempt (onDisk (buildSuccessor world.store name generation live salt)) with
        | .error failure => abandon name failure
        | .ok successor => succeed name generation successor

end PackStore

/-! ## Runs -/

/-- What can be asked of a store, and of the views it gave out. -/
inductive Call
  | commit (objects : List Bytes) (manifest : Bytes)
  | migrateCommit (objects : List (Except Failure Bytes)) (manifest : Bytes)
      (provenance : Provenance)
  | compact (live : Bytes → Bool) (salt : Option Salt)
  | sweepGraveyard
  /-- Take a view. -/
  | view
  /-- Clone a view that is held. -/
  | clone (index : ℕ)
  /-- Drop a view. -/
  | release (index : ℕ)

section Step

variable [Crypto] [KeyedHash] [Postcard Seal]

/-- Make a call; what it answers, and the world it leaves. -/
def Call.perform (call : Call) (world : World) : World :=
  match call with
  | .commit objects manifest => (outcome (PackStore.commit objects manifest) world).2
  | .migrateCommit objects manifest provenance =>
      (outcome (PackStore.migrateCommit objects manifest provenance) world).2
  | .compact live salt => (outcome (PackStore.compact live salt) world).2
  | .sweepGraveyard => (outcome PackStore.sweepGraveyard world).2
  | .view => { world with held := world.held ++ [world.store.view] }
  | .clone index => { world with held := world.held ++ world.held[index]?.toList }
  | .release index => { world with held := world.held.eraseIdx index }

/-- One step of a run: a call, with whatever the medium does meanwhile. -/
inductive Step : World → World → Prop
  | perform (world : World) (call : Call) (verdicts : List Verdict) :
      Step world (call.perform { world with disk := { world.disk with verdicts } })

end Step

end Lait.Pack
