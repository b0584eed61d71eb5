import Lait.Pack.Open

/-!
# What a commit writes

The writer appends at the end of its slot and cuts back to where it began, so a
commit changes its slot at or above the length it began with and nothing else:
`Appending bound` says so of two worlds.  The rules of this module carry it
through the steps of a commit, of a migration and of a rollback, whichever of them
fail; the table that comes out names ranges below the writer's length.
-/

namespace Lait.Pack

open Stateful
open Ceremony (objectContentHash)

/-- The writer wrote at or above `bound` in its own slot; of the store only the
writer's length and its poison changed. -/
structure Appending (bound : ℕ) (world world' : World) : Prop where
  held : world'.held = world.held
  store : ∃ len poisoned, bound ≤ len ∧ world'.store =
    { world.store with writer := ⟨world.store.writer.name, len⟩, poisoned }
  disk : Disk.KeepsBelow world.store.writer.name bound world.disk world'.disk
  covers : world.disk.Covers world.store.writer → world'.disk.Covers world'.store.writer

namespace Appending

variable {bound : ℕ} {world world' world'' : World}

theorem refl (h : bound ≤ world.store.writer.len) : Appending bound world world where
  held := rfl
  store := ⟨world.store.writer.len, world.store.poisoned, h, rfl⟩
  disk := .refl _ _ _
  covers h := h

theorem trans (h : Appending bound world world') (h' : Appending bound world' world'') :
    Appending bound world world'' where
  held := h'.held.trans h.held
  store := by
    obtain ⟨len, poisoned, -, hstore⟩ := h.store
    obtain ⟨len', poisoned', hlen', hstore'⟩ := h'.store
    refine ⟨len', poisoned', hlen', ?_⟩
    rw [hstore', hstore]
  disk := by
    obtain ⟨len, poisoned, -, hstore⟩ := h.store
    have hdisk := h'.disk
    rw [hstore] at hdisk
    exact h.disk.trans hdisk
  covers hcovers := h'.covers (h.covers hcovers)

theorem ahead (h : Appending bound world world') : bound ≤ world'.store.writer.len := by
  obtain ⟨len, poisoned, hlen, hstore⟩ := h.store
  rw [hstore]
  exact hlen

theorem poison (h : Appending bound world world') (poisoned : Bool) :
    Appending bound world (world'.update fun store => { store with poisoned }) where
  held := h.held
  store := by
    obtain ⟨len, _, hlen, hstore⟩ := h.store
    refine ⟨len, poisoned, hlen, ?_⟩
    show { world'.store with poisoned } = _
    rw [hstore]
  disk := h.disk
  covers := h.covers

end Appending

namespace PackStore

variable {world : World} {bound : ℕ}

theorem ends_cut {newLen : ℕ} (hbound : bound ≤ world.store.writer.len) (hcut : bound ≤ newLen) :
    Ends (cut newLen) world (fun _ world' => Appending bound world world')
      (fun _ world' => Appending bound world world') := by
  unfold cut onDisk ioErr
  simp only [ends_bind, ends_get, ends_within, ends_mapError, ends_modify]
  refine Disk.ends_truncate (fun disk' _ hslots => ?_) (fun kind disk' hslots => ?_)
  · exact ⟨rfl, ⟨newLen, _, hcut, rfl⟩, .write_setLen hslots hcut, fun h => h.setLen hslots⟩
  · exact ⟨rfl, ⟨_, _, hbound, rfl⟩, .of_slots_eq hslots, .of_slots_eq hslots⟩

theorem ends_point (hbound : bound ≤ world.store.writer.len) :
    Ends (onDisk point) world
      (fun _ world' => Appending bound world world' ∧ world'.store = world.store)
      (fun _ world' => Appending bound world world') := by
  unfold onDisk point
  simp only [ends_within, ends_bind, Disk.ends_verdict]
  cases world.disk.verdicts.headD .done with
  | fails kind reached =>
      exact ⟨rfl, ⟨_, _, hbound, rfl⟩, .of_slots_eq rfl, .of_slots_eq rfl⟩
  | done => exact ⟨⟨rfl, ⟨_, _, hbound, rfl⟩, .of_slots_eq rfl, .of_slots_eq rfl⟩, trivial⟩

theorem ends_flushOrPoison (hbound : bound ≤ world.store.writer.len) :
    Ends flushOrPoison world
      (fun _ world' => Appending bound world world' ∧ world'.store = world.store)
      (fun _ world' => Appending bound world world') := by
  unfold flushOrPoison onDisk ioErr
  simp only [ends_bind, ends_get, ends_catch, ends_within, ends_mapError, ends_modify, ends_throw]
  refine Disk.ends_flush (fun disk' hslots => ?_) (fun kind disk' hslots => ?_)
  · exact ⟨⟨rfl, ⟨_, _, hbound, rfl⟩, .flushed hslots, fun h => h.flushed hslots⟩, trivial⟩
  · exact ⟨rfl, ⟨_, true, hbound, rfl⟩, .of_slots_eq hslots, .of_slots_eq hslots⟩

theorem ends_undoTo {α : Type} {done : α → World → Prop} {undo : ℕ} {failure : Failure}
    (hbound : bound ≤ world.store.writer.len) (hundo : bound ≤ undo) :
    Ends (undoTo undo failure : Stateful World Failure α) world done
      (fun _ world' => Appending bound world world') := by
  have hcut : ∀ failure : Failure, Ends (do
      tryCatch (cut undo) fun _ =>
        modify (World.update fun store => { store with poisoned := true })
      throw failure : Stateful World Failure α) world done
      (fun _ world' => Appending bound world world') := by
    intro failure
    simp only [ends_bind, ends_catch, ends_modify, ends_throw]
    exact (ends_cut hbound hundo).mono (fun _ _ h => h) fun _ _ h => h.poison true
  cases failure with
  | outcomeUnknown => exact .refl hbound
  | operation operation kind => exact hcut _
  | integrity defect => exact hcut _

end PackStore

/-! ## Tables -/

/-- Every range of a table ends at or below a length. -/
def Table.Below (table : Table) (len : ℕ) : Prop :=
  ∀ (hash : Bytes) (offset size : ℕ), table[hash]? = some (offset, size) → offset + size ≤ len

namespace Table.Below

variable {table : Table} {len len' : ℕ}

theorem empty (len : ℕ) : Table.Below ∅ len := by
  intro hash offset size h
  rw [BTreeMap.get_empty] at h
  cases h

theorem mono (h : table.Below len) (hlen : len ≤ len') : table.Below len' :=
  fun hash offset size hget => (h hash offset size hget).trans hlen

theorem insert (h : table.Below len) (hash : Bytes) {offset size : ℕ} (hrange : offset + size ≤ len) :
    Table.Below (table.insert hash (offset, size)) len := by
  intro hash' offset' size' hget
  rw [BTreeMap.get_insert] at hget
  split at hget
  case isTrue =>
      cases hget
      exact hrange
  case isFalse => exact h hash' offset' size' hget

end Table.Below

/-- What a commit that succeeds leaves: a snapshot as long as the writer, of a
table that ends there. -/
structure Published (bound : ℕ) (world world' : World) : Prop where
  held : world'.held = world.held
  store : ∃ len table sequence link since provenance manifest poisoned,
    bound ≤ len ∧ Table.Below table len ∧ world'.store =
      { world.store with
        writer := ⟨world.store.writer.name, len⟩
        snapshot := ⟨world.store.snapshot.generation, table, len, sequence⟩
        lastSeal := some link
        sealsSinceCheckpoint := since
        provenance
        manifest
        poisoned }
  disk : Disk.KeepsBelow world.store.writer.name bound world.disk world'.disk
  covers : world.disk.Covers world.store.writer → world'.disk.Covers world'.store.writer

/-- Publishing what the writer appended. -/
theorem Appending.publish {bound : ℕ} {world world' : World} (h : Appending bound world world')
    {table : Table} (htable : table.Below world'.store.writer.len) (sequence : ℕ) (link : SealLink)
    (since : ℕ) (provenance : Option Provenance) (manifest : Option Bytes) :
    Published bound world (world'.update fun store => { store with
      snapshot := ⟨store.snapshot.generation, table, store.writer.len, sequence⟩
      lastSeal := some link
      sealsSinceCheckpoint := since
      provenance
      manifest }) where
  held := h.held
  store := by
    obtain ⟨len, poisoned, hlen, hstore⟩ := h.store
    rw [hstore] at htable
    refine ⟨len, table, sequence, link, since, provenance, manifest, poisoned, hlen, htable, ?_⟩
    show { world'.store with
      snapshot := ⟨world'.store.snapshot.generation, table, world'.store.writer.len, sequence⟩
      lastSeal := some link
      sealsSinceCheckpoint := since
      provenance
      manifest } = _
    rw [hstore]
  disk := h.disk
  covers := h.covers

section Writing

variable [KeyedHash]

namespace PackStore

variable {world : World} {bound : ℕ}

theorem ends_append {magic : List UInt8} {payload : Bytes} (hmagic : magic.length = 4)
    (hbound : bound ≤ world.store.writer.len) :
    Ends (append magic payload) world
      (fun payloadAt world' => Appending bound world world' ∧
        world.store.writer.len ≤ world'.store.writer.len ∧
        payloadAt + payload.length ≤ world'.store.writer.len)
      (fun _ world' => Appending bound world world') := by
  unfold append onDisk
  simp only [ends_bind, ends_get, ends_within, ends_modify, ends_pure]
  refine (ends_appendRecord hmagic hbound).mono ?_ ?_
  · rintro ⟨payloadAt, writer⟩ disk' ⟨hkept, hname, hlen, hpayload, hcovers⟩
    refine ⟨⟨rfl, ⟨writer.len, world.store.poisoned, hbound.trans hlen, ?_⟩, hkept, hcovers⟩,
      hlen, hpayload⟩
    show { world.store with writer } = _
    rw [← hname]
  · rintro failure disk' ⟨hkept, hcovers⟩
    exact ⟨rfl, ⟨_, _, hbound, rfl⟩, hkept, hcovers⟩

section Seals

variable [Postcard Seal]

theorem ends_appendSeal {pack : Seal} (hbound : bound ≤ world.store.writer.len) :
    Ends (appendSeal pack) world
      (fun _ world' => Appending bound world world' ∧
        world.store.writer.len ≤ world'.store.writer.len)
      (fun _ world' => Appending bound world world') := by
  unfold appendSeal
  simp only [ends_bind, ends_get, ends_pure]
  exact (ends_append rfl hbound).mono (fun _ _ h => ⟨h.1, h.2.1⟩) fun _ _ h => h

/-! ## Commits -/

variable {start : World}

/-- The end of a commit: its seal, the flush, and what is done with them. -/
theorem ends_seal {α : Type} {pack : Seal} {next : SealLink → Stateful World Failure α}
    {done : α → World → Prop} {table : Table} (happending : Appending bound start world)
    (htable : table.Below world.store.writer.len)
    (hnext : ∀ link world', Appending bound start world' → table.Below world'.store.writer.len →
      Ends (next link) world' done (fun _ world' => Appending bound start world')) :
    Ends (do
        onDisk point
        let link ← appendSeal pack
        onDisk point
        flushOrPoison
        next link) world done (fun _ world' => Appending bound start world') := by
  simp only [ends_bind]
  refine (ends_point happending.ahead).mono ?_ fun _ _ h => happending.trans h
  rintro _ pointed ⟨hpointed, hstore⟩
  rw [← hstore] at htable
  have hpointed := happending.trans hpointed
  refine (ends_appendSeal hpointed.ahead).mono ?_ fun _ _ h => hpointed.trans h
  rintro link appended ⟨happended, hlen⟩
  have htable := htable.mono hlen
  have happended := hpointed.trans happended
  refine (ends_point happended.ahead).mono ?_ fun _ _ h => happended.trans h
  rintro _ pointed' ⟨hpointed', hstore'⟩
  rw [← hstore'] at htable
  have hpointed' := happended.trans hpointed'
  refine (ends_flushOrPoison hpointed'.ahead).mono ?_ fun _ _ h => hpointed'.trans h
  rintro _ flushed ⟨hflushed, hstore''⟩
  rw [← hstore''] at htable
  exact hnext link flushed (hpointed'.trans hflushed) htable

variable [Crypto]

omit [Postcard Seal] in
/-- One object of a commit. -/
theorem ends_addObject {acc : List TableEntry × Table} {bytes : Bytes}
    (happending : Appending bound start world) (htable : acc.2.Below world.store.writer.len) :
    Ends (addObject acc bytes) world
      (fun acc' world' => Appending bound start world' ∧ acc'.2.Below world'.store.writer.len)
      (fun _ world' => Appending bound start world') := by
  unfold addObject
  dsimp only
  refine ends_ite (fun _ => ⟨happending, htable⟩) fun _ => ?_
  simp only [ends_bind, ends_pure]
  refine (ends_append rfl happending.ahead).mono ?_ fun _ _ h => happending.trans h
  rintro payloadAt world' ⟨h, hlen, hpayload⟩
  exact ⟨happending.trans h, (htable.mono hlen).insert _ hpayload⟩

/-- A commit that fails before its rollback has only appended. -/
theorem ends_tryCommit {objects : List Bytes} {manifest : Bytes}
    (hbound : bound ≤ world.store.writer.len)
    (htable : world.store.snapshot.table.Below world.store.writer.len) :
    Ends (tryCommit objects manifest) world (fun _ world' => Published bound world world')
      (fun _ world' => Appending bound world world') := by
  unfold tryCommit
  simp only [ends_bind, ends_get]
  refine (ends_point hbound).mono ?_ fun _ _ h => h
  rintro _ pointed ⟨hpointed, hstore⟩
  have hobjects : Ends (objects.foldlM addObject ([], pointed.store.snapshot.table)) pointed
      (fun (acc : List TableEntry × Table) world' => Appending bound world world' ∧
        Table.Below acc.2 world'.store.writer.len)
      (fun _ world' => Appending bound world world') :=
    Ends.foldlM (fun (acc : List TableEntry × Table) world' => Appending bound world world' ∧
        Table.Below acc.2 world'.store.writer.len) ⟨hpointed, by rw [hstore]; exact htable⟩
      fun acc bytes world' _ h => ends_addObject h.1 h.2
  refine hobjects.mono ?_ fun _ _ h => h
  rintro ⟨added, table⟩ written ⟨hwritten, htable⟩
  cases checkedAdd pointed.store.snapshot.sequence 1 with
  | none => exact hwritten
  | some sequence =>
      refine ends_seal hwritten htable fun link world' h htable => ?_
      simp only [ends_bind, ends_modify, ends_pure]
      exact h.publish htable _ _ _ _ _

/-- **A commit publishes above where it began, or only touched what lies there.** -/
theorem ends_commit {objects : List Bytes} {manifest : Bytes}
    (hbound : bound ≤ world.store.writer.len)
    (htable : world.store.snapshot.table.Below world.store.writer.len) :
    Ends (commit objects manifest) world (fun _ world' => Published bound world world')
      (fun _ world' => Appending bound world world') := by
  unfold commit
  simp only [ends_bind, ends_get, ends_failIf, ends_catch]
  refine ⟨fun _ => .refl hbound, fun _ => ?_⟩
  refine (ends_tryCommit hbound htable).mono (fun _ _ h => h) fun failure world' h => ?_
  exact (ends_undoTo h.ahead hbound).mono (fun _ _ h => h) fun _ _ h' => h.trans h'

omit [Postcard Seal] in
/-- One object of a migration. -/
theorem ends_migrateObject {table : Table} {source : Except Failure Bytes}
    (happending : Appending bound start world) (htable : table.Below world.store.writer.len) :
    Ends (migrateObject table source) world
      (fun table' world' => Appending bound start world' ∧
        Table.Below table' world'.store.writer.len)
      (fun _ world' => Appending bound start world') := by
  unfold migrateObject
  cases source with
  | error failure => exact happending
  | ok bytes =>
      dsimp only
      refine ends_ite (fun _ => ⟨happending, htable⟩) fun _ => ?_
      simp only [ends_bind, ends_pure]
      refine (ends_append rfl happending.ahead).mono ?_ fun _ _ h => happending.trans h
      rintro payloadAt world' ⟨h, hlen, hpayload⟩
      exact ⟨happending.trans h, (htable.mono hlen).insert _ hpayload⟩

theorem ends_tryMigrate {objects : List (Except Failure Bytes)} {manifest : Bytes}
    {provenance : Provenance} (hbound : bound ≤ world.store.writer.len) :
    Ends (tryMigrate objects manifest provenance) world
      (fun _ world' => Published bound world world')
      (fun _ world' => Appending bound world world') := by
  unfold tryMigrate
  simp only [ends_bind]
  refine (ends_point hbound).mono ?_ fun _ _ h => h
  rintro _ pointed ⟨hpointed, -⟩
  have hobjects : Ends (objects.foldlM migrateObject ∅) pointed
      (fun table world' => Appending bound world world' ∧
        Table.Below table world'.store.writer.len)
      (fun _ world' => Appending bound world world') :=
    Ends.foldlM (fun table world' => Appending bound world world' ∧
        Table.Below table world'.store.writer.len) ⟨hpointed, .empty _⟩
      fun table source world' _ h => ends_migrateObject h.1 h.2
  refine hobjects.mono ?_ fun _ _ h => h
  rintro table written ⟨hwritten, htable⟩
  cases checkedAdd provenance.sourceCounter 1 with
  | none => exact hwritten
  | some sequence =>
      rw [ends_bind, ends_get]
      refine ends_seal hwritten htable fun link world' h htable => ?_
      simp only [ends_bind, ends_modify, ends_pure]
      exact h.publish htable _ _ _ _ _

/-- A migration cuts back to the header, which it may: nothing was sealed. -/
theorem ends_migrateCommit {objects : List (Except Failure Bytes)} {manifest : Bytes}
    {provenance : Provenance} (hbound : bound ≤ world.store.writer.len)
    (hunsealed : world.store.lastSeal = none → bound ≤ HEADER_LEN) :
    Ends (migrateCommit objects manifest provenance) world
      (fun _ world' => Published bound world world')
      (fun _ world' => Appending bound world world') := by
  unfold migrateCommit
  simp only [ends_bind, ends_get, ends_failIf, ends_catch]
  refine ⟨fun _ => .refl hbound, fun _ => ⟨fun _ => .refl hbound, fun hsealed => ?_⟩⟩
  have hheader := hunsealed (by simpa using hsealed)
  refine (ends_tryMigrate hbound).mono (fun _ _ h => h) fun failure world' h => ?_
  exact (ends_undoTo h.ahead hheader).mono (fun _ _ h => h) fun _ _ h' => h.trans h'

end Seals

end PackStore

end Writing

end Lait.Pack
