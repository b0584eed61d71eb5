import Lait.Pack.Writing

/-!
# Views are immutable

A view reads below its sealed length; the writer writes and cuts at or above the
sealed length of the snapshot it last published; a compaction writes another slot;
and a retired slot stays while a view reads it.

* `Guarded` — what a store and the views it gave out owe each other: every range
  of a view lies below its sealed length, every view's slot is the live one or in
  the graveyard, and the writer stands at or above what was published.
* `Step.guarded` — one call keeps that, and changes nothing below the sealed
  length of a view that is still held after it.
* `view_immutable` — so does a run, failed commits and compactions included.
-/

namespace Lait.Pack

open Stateful
open Ceremony (objectContentHash)

/-! ## What two disks share -/

/-- Every range a snapshot names lies below its sealed length. -/
def Snapshot.Addressable (snapshot : Snapshot) : Prop :=
  Table.Below snapshot.table snapshot.sealedLen

/-- A snapshot's slot is there, with every byte that the seal covered. -/
def Disk.Holds (disk : Disk) (snapshot : Snapshot) : Prop :=
  ∃ file, disk.slots[snapshot.generation.name]? = some file ∧
    snapshot.sealedLen ≤ file.bytes.length

/-- A snapshot's slot stays, and below the sealed length its bytes do. -/
def Snapshot.Kept (snapshot : Snapshot) (disk disk' : Disk) : Prop :=
  ∀ file, disk.slots[snapshot.generation.name]? = some file →
    snapshot.sealedLen ≤ file.bytes.length →
      ∃ file', disk'.slots[snapshot.generation.name]? = some file' ∧
        snapshot.sealedLen ≤ file'.bytes.length ∧
        file'.bytes.take snapshot.sealedLen = file.bytes.take snapshot.sealedLen

namespace Snapshot.Kept

variable {snapshot : Snapshot} {disk disk' disk'' : Disk}

theorem of_slot_eq
    (h : disk'.slots[snapshot.generation.name]? = disk.slots[snapshot.generation.name]?) :
    snapshot.Kept disk disk' :=
  fun file hfile hlen => ⟨file, h.trans hfile, hlen, rfl⟩

theorem refl (snapshot : Snapshot) (disk : Disk) : snapshot.Kept disk disk := of_slot_eq rfl

theorem trans (h : snapshot.Kept disk disk') (h' : snapshot.Kept disk' disk'') :
    snapshot.Kept disk disk'' := by
  intro file hfile hlen
  obtain ⟨file', hfile', hlen', htake'⟩ := h file hfile hlen
  obtain ⟨file'', hfile'', hlen'', htake''⟩ := h' file' hfile' hlen'
  exact ⟨file'', hfile'', hlen'', htake''.trans htake'⟩

theorem holds (h : snapshot.Kept disk disk') (hholds : disk.Holds snapshot) :
    disk'.Holds snapshot := by
  obtain ⟨file, hfile, hlen⟩ := hholds
  obtain ⟨file', hfile', hlen', -⟩ := h file hfile hlen
  exact ⟨file', hfile', hlen'⟩

/-- A change above the sealed length, or in another slot. -/
theorem of_keepsBelow {name : Text} {bound : ℕ} (h : Disk.KeepsBelow name bound disk disk')
    (hbound : snapshot.generation.name = name → snapshot.sealedLen ≤ bound) :
    snapshot.Kept disk disk' := by
  intro file hfile hlen
  by_cases hname : snapshot.generation.name = name
  · obtain ⟨file', hfile', hkept⟩ := h.below file (hname ▸ hfile)
    exact ⟨file', hname ▸ hfile', hkept _ (hbound hname) hlen⟩
  · exact of_slot_eq (h.elsewhere _ hname) file hfile hlen

/-- A change in another slot. -/
theorem of_onlyIn {name : Text} (h : Disk.OnlyIn name disk disk')
    (hname : snapshot.generation.name ≠ name) : snapshot.Kept disk disk' :=
  of_slot_eq (h _ hname)

end Snapshot.Kept

/-! ## The invariant -/

/-- The snapshots that something reads: the store's, and those of the held views. -/
def World.snapshots (world : World) : List Snapshot :=
  world.store.snapshot :: world.held.map PackView.snapshot

/-- What a store and the views it gave out owe each other. -/
structure Guarded (world : World) : Prop where
  named : world.store.snapshot.generation = ⟨slotName world.store.family world.store.generation⟩
  writing : world.store.writer.name = world.store.snapshot.generation.name
  ahead : world.store.snapshot.sealedLen ≤ world.store.writer.len
  covers : world.disk.Covers world.store.writer
  /-- A pack without a seal has published no more than its header. -/
  unsealed : world.store.lastSeal = none → world.store.snapshot.sealedLen ≤ HEADER_LEN
  retired : ∀ generation ∈ world.store.graveyard, ∃ n < world.store.generation,
    generation = ⟨slotName world.store.family n⟩
  addressable : ∀ snapshot ∈ world.snapshots, snapshot.Addressable
  present : ∀ snapshot ∈ world.snapshots, world.disk.Holds snapshot
  /-- A view reads the live slot, no further than its seal, or a retired one. -/
  placed : ∀ view ∈ world.held,
    (view.snapshot.generation = world.store.snapshot.generation ∧
      view.snapshot.sealedLen ≤ world.store.snapshot.sealedLen) ∨
    view.snapshot.generation ∈ world.store.graveyard

namespace Guarded

variable {world : World}

/-- No snapshot lies in the slot of a later generation. -/
theorem name_ne_slotName (h : Guarded world) {snapshot : Snapshot}
    (hsnapshot : snapshot ∈ world.snapshots) {n : ℕ} (hn : world.store.generation < n) :
    snapshot.generation.name ≠ slotName world.store.family n := by
  have hlive : world.store.snapshot.generation.name ≠ slotName world.store.family n := by
    rw [h.named]
    intro heq
    have := slotName_injective _ heq
    omega
  rcases List.mem_cons.mp hsnapshot with rfl | hheld
  · exact hlive
  · obtain ⟨view, hview, rfl⟩ := List.mem_map.mp hheld
    rcases h.placed view hview with ⟨hgeneration, -⟩ | hretired
    · rw [hgeneration]
      exact hlive
    · obtain ⟨m, hm, hgeneration⟩ := h.retired _ hretired
      rw [hgeneration]
      intro heq
      have := slotName_injective _ heq
      omega

/-- A retired generation is not the live one. -/
theorem ne_of_mem_graveyard (h : Guarded world) {generation : Generation}
    (hretired : generation ∈ world.store.graveyard) :
    generation.name ≠ world.store.snapshot.generation.name := by
  obtain ⟨n, hn, rfl⟩ := h.retired _ hretired
  rw [h.named]
  intro heq
  have := slotName_injective _ heq
  omega

/-- A change of the live slot at or above its seal keeps every snapshot. -/
theorem kept_of_keepsBelow (h : Guarded world) {disk' : Disk}
    (hdisk : Disk.KeepsBelow world.store.writer.name world.store.snapshot.sealedLen world.disk disk')
    {snapshot : Snapshot} (hsnapshot : snapshot ∈ world.snapshots) :
    snapshot.Kept world.disk disk' := by
  refine .of_keepsBelow hdisk fun hname => ?_
  rcases List.mem_cons.mp hsnapshot with rfl | hheld
  · exact le_rfl
  · obtain ⟨view, hview, rfl⟩ := List.mem_map.mp hheld
    rcases h.placed view hview with ⟨-, hlen⟩ | hretired
    · exact hlen
    · rw [h.writing] at hname
      exact absurd hname (h.ne_of_mem_graveyard hretired)

end Guarded

/-- A call keeps the invariant, the views, and what the views read. -/
structure Steady (world world' : World) : Prop where
  held : world'.held = world.held
  guarded : Guarded world'
  kept : ∀ view ∈ world.held, view.snapshot.Kept world.disk world'.disk

namespace Steady

variable {world world' world'' : World}

theorem trans (h : Steady world world') (h' : Steady world' world'') : Steady world world'' where
  held := h'.held.trans h.held
  guarded := h'.guarded
  kept view hview := (h.kept view hview).trans (h'.kept view (h.held ▸ hview))

/-- A call that only appended, and failed. -/
theorem of_appending (h : Guarded world)
    (happending : Appending world.store.snapshot.sealedLen world world') :
    Steady world world' := by
  obtain ⟨len, poisoned, hlen, hstore⟩ := happending.store
  have hcovers := happending.covers h.covers
  have hsnapshots : world'.snapshots = world.snapshots := by
    unfold World.snapshots
    rw [happending.held, hstore]
  rw [hstore] at hcovers
  refine ⟨happending.held, ?_, fun view hview => h.kept_of_keepsBelow happending.disk
    (List.mem_cons_of_mem _ (List.mem_map_of_mem hview))⟩
  constructor
  case named => rw [hstore]; exact h.named
  case writing => rw [hstore]; exact h.writing
  case ahead => rw [hstore]; exact hlen
  case covers => rw [hstore]; exact hcovers
  case unsealed => rw [hstore]; exact h.unsealed
  case retired => rw [hstore]; exact h.retired
  case addressable => rw [hsnapshots]; exact h.addressable
  case present =>
    rw [hsnapshots]
    exact fun snapshot hmem => (h.kept_of_keepsBelow happending.disk hmem).holds (h.present _ hmem)
  case placed => rw [happending.held, hstore]; exact h.placed

/-- A call that published. -/
theorem of_published (h : Guarded world)
    (hpublished : Published world.store.snapshot.sealedLen world world') :
    Steady world world' := by
  obtain ⟨len, table, sequence, link, since, provenance, manifest, poisoned, hlen, htable, hstore⟩ :=
    hpublished.store
  have hcovers := hpublished.covers h.covers
  rw [hstore] at hcovers
  have hkept : ∀ snapshot ∈ world.snapshots, snapshot.Kept world.disk world'.disk :=
    fun snapshot hmem => h.kept_of_keepsBelow hpublished.disk hmem
  refine ⟨hpublished.held, ?_, fun view hview => hkept _
    (List.mem_cons_of_mem _ (List.mem_map_of_mem hview))⟩
  constructor
  case named => rw [hstore]; exact h.named
  case writing => rw [hstore]; exact h.writing
  case ahead => rw [hstore]
  case covers => rw [hstore]; exact hcovers
  case unsealed => rw [hstore]; exact fun hnone => absurd hnone (by simp)
  case retired => rw [hstore]; exact h.retired
  case addressable =>
    unfold World.snapshots
    rw [hpublished.held, hstore]
    refine List.forall_mem_cons.mpr ⟨htable, fun snapshot hmem => ?_⟩
    exact h.addressable _ (List.mem_cons_of_mem _ hmem)
  case present =>
    unfold World.snapshots
    rw [hpublished.held, hstore]
    refine List.forall_mem_cons.mpr ⟨?_, fun snapshot hmem => ?_⟩
    · obtain ⟨file, hfile, hcover⟩ := hcovers
      exact ⟨file, h.writing ▸ hfile, hcover⟩
    · have hmem := List.mem_cons_of_mem world.store.snapshot hmem
      exact (hkept _ hmem).holds (h.present _ hmem)
  case placed =>
    rw [hpublished.held, hstore]
    intro view hview
    rcases h.placed view hview with ⟨hgeneration, hbelow⟩ | hretired
    · exact Or.inl ⟨hgeneration, hbelow.trans hlen⟩
    · exact Or.inr hretired

/-- A change of the disk alone that keeps what the snapshots read. -/
theorem of_kept (h : Guarded world) {disk' : Disk}
    (hkept : ∀ snapshot ∈ world.snapshots, snapshot.Kept world.disk disk')
    (hcovers : disk'.Covers world.store.writer) : Steady world { world with disk := disk' } where
  held := rfl
  guarded := { h with
    covers := hcovers
    present := fun snapshot hmem => (hkept snapshot hmem).holds (h.present snapshot hmem) }
  kept _ hview := hkept _ (List.mem_cons_of_mem _ (List.mem_map_of_mem hview))

theorem of_slots_eq (h : Guarded world) {disk' : Disk} (hslots : disk'.slots = world.disk.slots) :
    Steady world { world with disk := disk' } :=
  of_kept h (fun _ _ => .of_slot_eq (by rw [hslots])) (h.covers.of_slots_eq hslots)

/-- A change of a slot that no snapshot reads. -/
theorem of_onlyIn (h : Guarded world) {disk' : Disk} {name : Text}
    (hdisk : Disk.OnlyIn name world.disk disk')
    (hname : ∀ snapshot ∈ world.snapshots, snapshot.generation.name ≠ name) :
    Steady world { world with disk := disk' } := by
  refine of_kept h (fun snapshot hmem => .of_onlyIn hdisk (hname _ hmem)) ?_
  obtain ⟨file, hfile, hlen⟩ := h.covers
  refine ⟨file, ?_, hlen⟩
  rw [← hfile]
  refine hdisk _ ?_
  rw [h.writing]
  exact hname _ List.mem_cons_self

end Steady

/-! ## Compaction -/

namespace PackStore

section Successor

variable {disk : Disk}

/-- A point of the fault injector touches no slot. -/
theorem ends_point_disk : Ends point disk (fun _ disk' => disk'.slots = disk.slots)
    (fun _ disk' => disk'.slots = disk.slots) := by
  unfold point
  simp only [ends_bind, Disk.ends_verdict]
  cases disk.verdicts.headD .done with
  | fails kind reached => exact rfl
  | done => exact rfl

/-- Nor does its request to crash. -/
theorem ends_crashRequested :
    Ends crashRequested disk (fun _ disk' => disk'.slots = disk.slots) (fun _ _ => False) := by
  unfold crashRequested
  simp only [ends_bind, Disk.ends_verdict]
  cases disk.verdicts.headD .done with
  | fails kind reached => exact rfl
  | done => exact rfl

/-- Nor does a read. -/
theorem ends_read [Crypto] {store : PackStore} {hash : Bytes} :
    Ends (store.read hash) disk (fun _ disk' => disk'.slots = disk.slots)
      (fun _ disk' => disk'.slots = disk.slots) := by
  unfold read
  simp only [ends_bind, Disk.ends_verdict]
  cases disk.verdicts.headD .done with
  | fails kind reached => exact rfl
  | done =>
      simp only [ends_bind, ends_get]
      split
      · exact rfl
      · exact rfl

/-- A successor under construction: its slot alone changed, and its table names
ranges of it. -/
structure Building (name : Text) (disk : Disk) (writer : Writer) (table : Table)
    (disk' : Disk) : Prop where
  only : Disk.OnlyIn name disk disk'
  writing : writer.name = name
  covers : disk'.Covers writer
  below : table.Below writer.len

/-- A call that touches no slot. -/
theorem Building.of_slots_eq {name : Text} {writer : Writer} {table : Table} {disk' disk'' : Disk}
    (h : Building name disk writer table disk') (hslots : disk''.slots = disk'.slots) :
    Building name disk writer table disk'' :=
  ⟨h.only.trans (.of_slots_eq hslots), h.writing, h.covers.of_slots_eq hslots, h.below⟩

variable [KeyedHash]

/-- A record of the successor. -/
theorem Building.ends_appendRecord {name : Text} {writer : Writer} {table : Table} {disk' : Disk}
    (h : Building name disk writer table disk') {key : Bytes} {magic : List UInt8}
    {payload : Bytes} (hmagic : magic.length = 4) :
    Ends (appendRecord writer key magic payload) disk'
      (fun appended disk'' => Building name disk appended.2 table disk'' ∧
        appended.1 + payload.length ≤ appended.2.len)
      (fun _ disk'' => Disk.OnlyIn name disk disk'') := by
  obtain ⟨honly, rfl, hcovers, hbelow⟩ := h
  refine (Pack.ends_appendRecord hmagic le_rfl).mono ?_ ?_
  · rintro ⟨payloadAt, writer'⟩ disk'' ⟨hkept, hname, hlen, hpayload, hcovers'⟩
    exact ⟨⟨honly.trans hkept.elsewhere, hname, hcovers' hcovers, hbelow.mono hlen⟩, hpayload⟩
  · rintro failure disk'' ⟨hkept, -⟩
    exact honly.trans hkept.elsewhere

variable [Crypto]

theorem ends_copyObject {store : PackStore} {key : Bytes} {name : Text} {acc : Writer × Table}
    {hash : Bytes} {disk' : Disk} (h : Building name disk acc.1 acc.2 disk') :
    Ends (copyObject store key acc hash) disk'
      (fun acc' disk'' => Building name disk acc'.1 acc'.2 disk'')
      (fun _ disk'' => Disk.OnlyIn name disk disk'') := by
  unfold copyObject
  simp only [ends_bind, ends_pure]
  refine ends_read.mono ?_ fun _ _ hslots => h.only.trans (.of_slots_eq hslots)
  intro bytes read hslots
  refine ((h.of_slots_eq hslots).ends_appendRecord rfl).mono ?_ fun _ _ h => h
  rintro ⟨offset, writer⟩ disk'' ⟨hbuilding, hrange⟩
  exact ⟨hbuilding.only, hbuilding.writing, hbuilding.covers, hbuilding.below.insert _ hrange⟩

variable [Postcard Seal]

/-- **A successor is built in its own slot**, whether or not it is finished. -/
theorem ends_buildSuccessor {store : PackStore} {name : Text} {generation : ℕ}
    {live : Bytes → Bool} {salt : Option Salt} :
    Ends (buildSuccessor store name generation live salt) disk
      (fun successor disk' =>
        Building name disk successor.writer successor.table disk' ∧
          successor.len = successor.writer.len)
      (fun _ disk' => Disk.OnlyIn name disk disk') := by
  unfold buildSuccessor
  simp only [ends_bind]
  refine ends_initSlot.mono ?_ fun _ _ h => h
  rintro ⟨writer, key⟩ opened ⟨honly, hwriter, hcovers⟩
  dsimp only at hwriter
  subst hwriter
  have hopened : Building name disk ⟨name, HEADER_LEN⟩ ∅ opened :=
    ⟨honly, rfl, hcovers, .empty _⟩
  refine ends_point_disk.mono ?_ fun _ _ hslots => honly.trans (.of_slots_eq hslots)
  intro _ pointed hslots
  have hcopied : Ends ((store.snapshot.table.keys.filter live).foldlM (copyObject store key)
      (⟨name, HEADER_LEN⟩, ∅)) pointed
      (fun (acc : Writer × Table) disk' => Building name disk acc.1 acc.2 disk')
      (fun _ disk' => Disk.OnlyIn name disk disk') :=
    Ends.foldlM (fun (acc : Writer × Table) disk' => Building name disk acc.1 acc.2 disk')
      (hopened.of_slots_eq hslots) fun acc hash disk' _ h => ends_copyObject h
  refine hcopied.mono ?_ fun _ _ h => h
  rintro ⟨writer, table⟩ copied hcopied
  refine ends_point_disk.mono ?_ fun _ _ hslots => hcopied.only.trans (.of_slots_eq hslots)
  intro _ pointed' hslots'
  refine ((hcopied.of_slots_eq hslots').ends_appendRecord rfl).mono ?_ fun _ _ h => h
  rintro ⟨offset, writer'⟩ sealed' ⟨hsealed, -⟩
  refine ends_point_disk.mono ?_ fun _ _ hslots => hsealed.only.trans (.of_slots_eq hslots)
  intro _ pointed'' hslots''
  have hsealed := hsealed.of_slots_eq hslots''
  unfold ioErr
  simp only [ends_mapError, ends_pure]
  refine Disk.ends_flush (fun disk' hflush => ?_) fun kind disk' hslots => ?_
  · refine ⟨⟨hsealed.only.trans ?_, hsealed.writing, hsealed.covers.flushed hflush,
      hsealed.below⟩, trivial⟩
    rw [hsealed.writing] at hflush
    exact .flushed hflush
  · exact hsealed.only.trans (.of_slots_eq hslots)

end Successor

/-- The successor takes over, and the old generation is retired. -/
theorem steady_switch {world world' : World} {generation : ℕ}
    (hgeneration : generation = world.store.generation + 1) {successor : Successor}
    (hdisk : Steady world world') (hstore : world'.store = world.store)
    (hsuccessor : successor.len = successor.writer.len)
    (hwriting : successor.writer.name = slotName world.store.family generation)
    (hcovers : world'.disk.Covers successor.writer)
    (hbelow : successor.table.Below successor.writer.len) :
    Steady world (world'.update
      (switch (slotName world.store.family generation) generation successor)) := by
  have h' := hdisk.guarded
  refine hdisk.trans ⟨rfl, ?_, fun _ _ => .refl _ _⟩
  have hsnapshots : ∀ snapshot ∈ (world'.update
      (switch (slotName world.store.family generation) generation successor)).snapshots,
      snapshot = ⟨⟨slotName world.store.family generation⟩, successor.table, successor.len,
        world'.store.snapshot.sequence⟩ ∨ snapshot ∈ world'.snapshots := by
    intro snapshot hmem
    rcases List.mem_cons.mp hmem with rfl | hheld
    · exact Or.inl rfl
    · exact Or.inr (List.mem_cons_of_mem _ hheld)
  constructor
  case named =>
    show (⟨slotName world.store.family generation⟩ : Generation) =
      ⟨slotName world'.store.family generation⟩
    rw [hstore]
  case writing => exact hwriting
  case ahead => exact hsuccessor.le
  case covers => exact hcovers
  case unsealed => exact fun hnone => absurd hnone (by simp [World.update, switch])
  case retired =>
    show ∀ retired ∈ world'.store.graveyard ++ [world'.store.snapshot.generation],
      ∃ n < generation, retired = ⟨slotName world'.store.family n⟩
    intro retired hmem
    rw [hgeneration, ← hstore]
    rcases List.mem_append.mp hmem with hold | hnew
    · obtain ⟨n, hn, heq⟩ := h'.retired _ hold
      exact ⟨n, hn.trans (Nat.lt_succ_self _), heq⟩
    · rw [List.mem_singleton.mp hnew]
      exact ⟨_, Nat.lt_succ_self _, h'.named⟩
  case addressable =>
    intro snapshot hmem
    rcases hsnapshots snapshot hmem with rfl | hmem
    · exact hbelow.mono hsuccessor.ge
    · exact h'.addressable _ hmem
  case present =>
    intro snapshot hmem
    rcases hsnapshots snapshot hmem with rfl | hmem
    · obtain ⟨file, hfile, hlen⟩ := hcovers
      exact ⟨file, hwriting ▸ hfile, hsuccessor.le.trans hlen⟩
    · exact h'.present _ hmem
  case placed =>
    intro view hview
    show _ ∨ view.snapshot.generation ∈ world'.store.graveyard ++ [world'.store.snapshot.generation]
    rcases h'.placed view hview with ⟨hlive, -⟩ | hretired
    · exact Or.inr (List.mem_append_right _ (by rw [hlive]; exact List.mem_cons_self))
    · exact Or.inr (List.mem_append_left _ hretired)

/-- A sweep keeps exactly the generations that something reads, and their slots. -/
theorem ends_sweepGenerations {world : World} {generations kept : List Generation} :
    Ends (generations.foldlM sweepGeneration kept) world
      (fun kept' world' =>
        kept' = kept ++ generations.filter (fun generation => 1 < strongCount world generation) ∧
        world'.held = world.held ∧ world'.store = world.store ∧
        ∀ name, (∀ generation ∈ generations, strongCount world generation ≤ 1 →
          generation.name ≠ name) → world'.disk.slots[name]? = world.disk.slots[name]?)
      (fun _ _ => False) := by
  induction generations generalizing world kept with
  | nil => exact ⟨by simp, rfl, rfl, fun _ _ => rfl⟩
  | cons generation generations ih =>
      rw [List.foldlM_cons, ends_bind]
      unfold sweepGeneration
      simp only [ends_bind, ends_get]
      refine ends_ite (fun hpinned => ?_) fun hfree => ?_
      · rw [ends_pure]
        refine ih.mono ?_ fun _ _ h => h
        rintro kept' world' ⟨hkept, hheld, hstore, hslots⟩
        refine ⟨?_, hheld, hstore, fun name hname => hslots name fun other hother =>
          hname other (List.mem_cons_of_mem _ hother)⟩
        rw [hkept, List.filter_cons_of_pos (by simpa using hpinned), List.append_assoc,
          List.singleton_append]
      · have hrest : ∀ disk' : Disk, Disk.OnlyIn generation.name world.disk disk' →
            Ends (generations.foldlM sweepGeneration kept) { world with disk := disk' }
              (fun kept' world' =>
                kept' = kept ++ (generation :: generations).filter
                  (fun generation => 1 < strongCount world generation) ∧
                world'.held = world.held ∧ world'.store = world.store ∧
                ∀ name, (∀ other ∈ generation :: generations, strongCount world other ≤ 1 →
                  other.name ≠ name) → world'.disk.slots[name]? = world.disk.slots[name]?)
              (fun _ _ => False) := by
          intro disk' honly
          refine ih.mono ?_ fun _ _ h => h
          rintro kept' world' ⟨hkept, hheld, hstore, hslots⟩
          refine ⟨?_, hheld, hstore, fun name hname => ?_⟩
          · rw [hkept, List.filter_cons_of_neg (by simpa using hfree)]
            rfl
          · refine (hslots name fun other hother =>
              hname other (List.mem_cons_of_mem _ hother)).trans ?_
            exact honly name (hname generation List.mem_cons_self (not_lt.mp hfree)).symm
        unfold onDisk
        simp only [ends_bind, ends_within, ends_ignore, ends_pure]
        exact Disk.ends_removeSlot (fun disk' hslots => hrest disk' (.erase hslots))
          fun _ disk' hslots => hrest disk' (.of_slots_eq hslots)

/-- **A sweep removes no slot that a view reads.** -/
theorem ends_sweepGraveyard {world : World} (h : Guarded world) :
    Ends sweepGraveyard world (fun _ world' => Steady world world')
      (fun _ world' => Steady world world') := by
  unfold sweepGraveyard
  simp only [ends_bind, ends_get, ends_modify]
  refine ends_sweepGenerations.mono ?_ fun _ _ h => h.elim
  rintro kept ⟨disk', store', held'⟩ ⟨hkept, hheld, hstore, hslots⟩
  dsimp only at hheld hstore hslots
  subst hheld hstore
  rw [List.nil_append] at hkept
  -- What a snapshot reads is live, or retired and pinned.
  have hpinned : ∀ view ∈ world.held, view.snapshot.generation ∈ world.store.graveyard →
      view.snapshot.generation ∈ kept := by
    intro view hview hretired
    rw [hkept]
    refine List.mem_filter.mpr ⟨hretired, ?_⟩
    have hcount : 0 < world.held.countP fun other =>
        other.snapshot.generation = view.snapshot.generation :=
      List.countP_pos_iff.mpr ⟨view, hview, by simp⟩
    unfold strongCount
    exact decide_eq_true (by omega)
  have hsame : ∀ snapshot ∈ world.snapshots,
      disk'.slots[snapshot.generation.name]? = world.disk.slots[snapshot.generation.name]? := by
    intro snapshot hmem
    refine hslots _ fun generation hgeneration hfree hname => ?_
    have hlive : generation.name ≠ world.store.snapshot.generation.name :=
      h.ne_of_mem_graveyard hgeneration
    rcases List.mem_cons.mp hmem with rfl | hheldMem
    · exact hlive hname
    · obtain ⟨view, hview, rfl⟩ := List.mem_map.mp hheldMem
      rcases h.placed view hview with ⟨hplaced, -⟩ | hretired
      · rw [hplaced] at hname
        exact hlive hname
      · have heq : generation = view.snapshot.generation := by
          cases generation
          cases hview' : view.snapshot.generation
          rw [hview'] at hname
          exact congrArg Generation.mk hname
        have hmem' := hpinned view hview hretired
        rw [hkept, ← heq] at hmem'
        have := of_decide_eq_true (List.mem_filter.mp hmem').2
        omega
  have hkept' : ∀ snapshot ∈ world.snapshots, snapshot.Kept world.disk disk' :=
    fun snapshot hmem => .of_slot_eq (hsame snapshot hmem)
  refine ⟨rfl, ?_, fun view hview => hkept' _
    (List.mem_cons_of_mem _ (List.mem_map_of_mem hview))⟩
  constructor
  case named => exact h.named
  case writing => exact h.writing
  case ahead => exact h.ahead
  case covers =>
    obtain ⟨file, hfile, hlen⟩ := h.covers
    refine ⟨file, ?_, hlen⟩
    show disk'.slots[world.store.writer.name]? = some file
    rw [h.writing, hsame _ List.mem_cons_self, ← h.writing]
    exact hfile
  case unsealed => exact h.unsealed
  case retired =>
    show ∀ generation ∈ kept, _
    rw [hkept]
    exact fun generation hmem => h.retired _ (List.mem_filter.mp hmem).1
  case addressable => exact h.addressable
  case present => exact fun snapshot hmem => (hkept' _ hmem).holds (h.present _ hmem)
  case placed =>
    intro view hview
    rcases h.placed view hview with hlive | hretired
    · exact Or.inl hlive
    · exact Or.inr (hpinned view hview hretired)

/-- A successor that was built takes over. -/
theorem ends_succeed {world world' : World} {name : Text} {generation : ℕ} {successor : Successor}
    (h : Steady world (world'.update (switch name generation successor))) :
    Ends (succeed name generation successor) world' (fun _ world'' => Steady world world'')
      (fun _ world'' => Steady world world'') := by
  unfold succeed onDisk
  simp only [ends_bind, ends_modify, ends_within]
  refine ends_crashRequested.mono ?_ fun _ _ h => h.elim
  intro crash disk' hslots
  have hsteady := h.trans (.of_slots_eq h.guarded hslots)
  refine ends_ite (fun _ => hsteady) fun _ => ?_
  exact (ends_sweepGraveyard hsteady.guarded).mono (fun _ _ h => hsteady.trans h)
    fun _ _ h => hsteady.trans h

section Calls

variable [Crypto] [KeyedHash] [Postcard Seal]

/-- What a compaction does once the successor's slot is free. -/
def buildAndSwitch (store : PackStore) (name : Text) (generation : ℕ) (live : Bytes → Bool)
    (salt : Option Salt) : Stateful World Failure Unit := do
  match ← attempt (onDisk (buildSuccessor store name generation live salt)) with
  | .error failure => abandon name failure
  | .ok successor => succeed name generation successor

/-- **A compaction keeps what the views read**, whether it succeeds or fails. -/
theorem ends_compact {world : World} (h : Guarded world) {live : Bytes → Bool}
    {salt : Option Salt} :
    Ends (compact live salt) world (fun _ world' => Steady world world')
      (fun _ world' => Steady world world') := by
  have hrefl : Steady world world := .of_slots_eq h rfl
  unfold compact
  simp only [ends_bind, ends_get, ends_failIf]
  refine ⟨fun _ => hrefl, fun _ => ends_ite (fun _ => hrefl) fun _ => ?_⟩
  cases hgeneration : checkedAdd world.store.generation 1 with
  | none => exact hrefl
  | some generation =>
      obtain ⟨-, hgeneration⟩ := checkedAdd_eq_some.mp hgeneration
      -- The successor's slot is one that nothing reads.
      have hsteady : ∀ disk' : Disk,
          Disk.OnlyIn (slotName world.store.family generation) world.disk disk' →
            Steady world { world with disk := disk' } :=
        fun disk' honly => .of_onlyIn h honly fun snapshot hmem =>
          h.name_ne_slotName hmem (by omega)
      have hbuild : ∀ removed : Disk,
          Disk.OnlyIn (slotName world.store.family generation) world.disk removed →
            Ends (buildAndSwitch world.store (slotName world.store.family generation) generation
                live salt)
              { world with disk := removed } (fun _ world' => Steady world world')
              (fun _ world' => Steady world world') := by
        intro removed honly
        unfold buildAndSwitch onDisk
        simp only [ends_bind, ends_attempt, ends_within]
        refine ends_buildSuccessor.mono ?_ ?_
        · rintro successor built ⟨hbuilding, hlen⟩
          exact ends_succeed (steady_switch hgeneration.symm
            (hsteady built (honly.trans hbuilding.only)) rfl hlen hbuilding.writing
            hbuilding.covers hbuilding.below)
        · intro failure failed honly'
          have honly' := honly.trans honly'
          unfold abandon onDisk
          simp only [ends_bind, ends_within, ends_ignore, ends_throw]
          exact Disk.ends_removeSlot
            (fun disk' hslots => hsteady disk' (honly'.trans (.erase hslots)))
            fun _ disk' hslots => hsteady disk' (honly'.trans (.of_slots_eq hslots))
      dsimp only
      rw [ends_bind]
      unfold buildAndSwitch onDisk at hbuild
      unfold onDisk
      rw [ends_within, ends_ignore]
      exact Disk.ends_removeSlot (fun disk' hslots => hbuild disk' (.erase hslots))
        fun _ disk' hslots => hbuild disk' (.of_slots_eq hslots)

end Calls

end PackStore

/-! ## Runs -/

/-- A change of the views that are held, to views of what was read before. -/
theorem Guarded.of_held {world : World} (h : Guarded world) {held : List PackView}
    (hheld : ∀ view ∈ held, view.snapshot = world.store.snapshot ∨ view ∈ world.held) :
    Guarded { world with held } := by
  have hsnapshots : ∀ snapshot ∈ World.snapshots { world with held },
      snapshot ∈ world.snapshots := by
    intro snapshot hmem
    rcases List.mem_cons.mp hmem with rfl | hmem
    · exact List.mem_cons_self
    · obtain ⟨view, hview, rfl⟩ := List.mem_map.mp hmem
      rcases hheld view hview with heq | hview
      · rw [heq]
        exact List.mem_cons_self
      · exact List.mem_cons_of_mem _ (List.mem_map_of_mem hview)
  refine { h with
    addressable := fun snapshot hmem => h.addressable _ (hsnapshots _ hmem)
    present := fun snapshot hmem => h.present _ (hsnapshots _ hmem)
    placed := fun view hview => ?_ }
  rcases hheld view hview with heq | hview
  · exact Or.inl ⟨by rw [heq], by rw [heq]⟩
  · exact h.placed view hview

section Runs

variable [Crypto] [KeyedHash] [Postcard Seal]

/-- A world that a store of the family reaches from its opening.  A pack that is
recovered was left by a store before it, and is as such a store leaves it: its
table names ranges below its seal, and its slot bears the name of its generation. -/
inductive Reached (family : Text) : World → Prop
  | opened {disk disk' : Disk} {store : PackStore} {salt : Option Salt}
      (hopen : outcome (PackStore.open family salt) disk = (.ok store, disk'))
      (hrecovered : store.lastSeal ≠ none → store.snapshot.Addressable ∧
        store.snapshot.generation.name = slotName family store.generation) :
      Reached family ⟨disk', store, []⟩
  | step {world world' : World} : Reached family world → Step world world' → Reached family world'

/-- A run through which a view is held. -/
inductive Holding (view : PackView) : World → World → Prop
  | refl (world : World) : Holding view world world
  | step {world world' world'' : World} : Holding view world world' → Step world' world'' →
      view ∈ world''.held → Holding view world world''

/-- A store that has just been opened owes no view anything. -/
theorem guarded_of_open {family : Text} {disk disk' : Disk} {store : PackStore}
    {salt : Option Salt} (hopen : outcome (PackStore.open family salt) disk = (.ok store, disk'))
    (hrecovered : store.lastSeal ≠ none → store.snapshot.Addressable ∧
      store.snapshot.generation.name = slotName family store.generation) :
    Guarded ⟨disk', store, []⟩ := by
  have hopened : store.Opened family disk' := ends_open.of_ok hopen
  have hpromise : store.snapshot.Addressable ∧
      store.snapshot.generation.name = slotName family store.generation := by
    by_cases hfresh : store.lastSeal = none
    · obtain ⟨hname, hgeneration, htable, -⟩ := hopened.fresh hfresh
      refine ⟨?_, by rw [hname, hgeneration]⟩
      unfold Snapshot.Addressable
      rw [htable]
      exact .empty _
    · exact hrecovered hfresh
  obtain ⟨haddressable, hname⟩ := hpromise
  constructor
  case named =>
    show store.snapshot.generation = ⟨slotName store.family store.generation⟩
    rw [hopened.family_eq, ← hname]
  case writing => exact hopened.writing
  case ahead => exact hopened.ahead
  case covers => exact hopened.covers
  case unsealed => exact fun hnone => (hopened.fresh hnone).2.2.2.le
  case retired =>
    show ∀ generation ∈ store.graveyard, _
    rw [hopened.graveyard]
    exact fun _ hmem => absurd hmem List.not_mem_nil
  case addressable =>
    exact List.forall_mem_cons.mpr ⟨haddressable, fun _ hmem => absurd hmem List.not_mem_nil⟩
  case present =>
    refine List.forall_mem_cons.mpr ⟨?_, fun _ hmem => absurd hmem List.not_mem_nil⟩
    obtain ⟨file, hfile, hlen⟩ := hopened.covers
    exact ⟨file, hopened.writing ▸ hfile, hopened.ahead.trans hlen⟩
  case placed => exact fun _ hmem => absurd hmem List.not_mem_nil

/-- **One call keeps the invariant, and what every view held before it reads.** -/
theorem Step.guarded {world world' : World} (hstep : Step world world') (h : Guarded world) :
    Guarded world' ∧ ∀ view ∈ world.held, view.snapshot.Kept world.disk world'.disk := by
  obtain ⟨call, verdicts⟩ := hstep
  have harmed : Steady world { world with disk := { world.disk with verdicts } } :=
    .of_slots_eq h rfl
  have hguarded := harmed.guarded
  have hsteady : ∀ world', Steady { world with disk := { world.disk with verdicts } } world' →
      Guarded world' ∧ ∀ view ∈ world.held, view.snapshot.Kept world.disk world'.disk :=
    fun world' h => ⟨h.guarded, (harmed.trans h).kept⟩
  have hkept : ∀ view ∈ world.held,
      view.snapshot.Kept world.disk { world.disk with verdicts } := harmed.kept
  cases call with
  | commit objects manifest =>
      refine hsteady _ (Ends.of_both (fun world' => Steady _ world') ?_)
      exact (PackStore.ends_commit hguarded.ahead
        ((hguarded.addressable _ List.mem_cons_self).mono hguarded.ahead)).mono
        (fun _ _ => .of_published hguarded) fun _ _ => .of_appending hguarded
  | migrateCommit objects manifest provenance =>
      refine hsteady _ (Ends.of_both (fun world' => Steady _ world') ?_)
      exact (PackStore.ends_migrateCommit hguarded.ahead hguarded.unsealed).mono
        (fun _ _ => .of_published hguarded) fun _ _ => .of_appending hguarded
  | compact live salt =>
      exact hsteady _ (Ends.of_both (fun world' => Steady _ world')
        (PackStore.ends_compact hguarded))
  | sweepGraveyard =>
      exact hsteady _ (Ends.of_both (fun world' => Steady _ world')
        (PackStore.ends_sweepGraveyard hguarded))
  | view =>
      refine ⟨hguarded.of_held fun view hview => ?_, hkept⟩
      rcases List.mem_append.mp hview with hview | hview
      · exact Or.inr hview
      · rw [List.mem_singleton.mp hview]
        exact Or.inl rfl
  | clone index =>
      refine ⟨hguarded.of_held fun view hview => Or.inr ?_, hkept⟩
      rcases List.mem_append.mp hview with hview | hview
      · exact hview
      · exact List.mem_of_getElem? (Option.mem_toList.mp hview)
  | release index =>
      exact ⟨hguarded.of_held fun view hview => Or.inr (List.mem_of_mem_eraseIdx hview), hkept⟩

theorem Reached.guarded {family : Text} {world : World} (h : Reached family world) :
    Guarded world := by
  induction h with
  | opened hopen hrecovered => exact guarded_of_open hopen hrecovered
  | step _ hstep ih => exact (hstep.guarded ih).1

omit [KeyedHash] [Postcard Seal] in
/-- What a view's read answers depends on the bytes below its sealed length alone. -/
theorem PackView.readBounded_congr {view : PackView} {disk disk' : Disk}
    (haddressable : view.snapshot.Addressable) (hholds : disk.Holds view.snapshot)
    (hkept : view.snapshot.Kept disk disk') (hash : Bytes) (maxLen : ℕ) :
    view.readBounded disk' hash maxLen = view.readBounded disk hash maxLen := by
  obtain ⟨file, hfile, hlen⟩ := hholds
  obtain ⟨file', hfile', hlen', htake⟩ := hkept file hfile hlen
  unfold readBounded Disk.readAt
  cases hentry : view.snapshot.table[hash]? with
  | none => rfl
  | some range =>
      obtain ⟨offset, len⟩ := range
      have hread := readImage_congr htake hlen hlen' (haddressable hash offset len hentry)
      simp only [hfile, hfile', hread]

/-- **A view is immutable while it is held.**  Take a view at any point of a run and
hold it: whatever commits, migrations, compactions and sweeps do or fail to do, its
slot is there, none of the bytes its seal covered is cut off or overwritten, and so
every object reads the same; so does every record, the seal with its sequence and
manifest among them. -/
theorem view_immutable {family : Text} {world world' : World} {view : PackView}
    (hreached : Reached family world) (hview : view ∈ world.held)
    (hrun : Holding view world world') :
    (∀ (hash : Bytes) (offset len : ℕ), view.snapshot.table[hash]? = some (offset, len) →
      offset + len ≤ view.snapshot.sealedLen) ∧
    (∃ file file', world.disk.slots[view.snapshot.generation.name]? = some file ∧
      world'.disk.slots[view.snapshot.generation.name]? = some file' ∧
      view.snapshot.sealedLen ≤ file.bytes.length ∧
      view.snapshot.sealedLen ≤ file'.bytes.length ∧
      file'.bytes.take view.snapshot.sealedLen = file.bytes.take view.snapshot.sealedLen ∧
      ∀ key offset, readSeal file'.bytes key view.snapshot.sealedLen offset =
        readSeal file.bytes key view.snapshot.sealedLen offset) ∧
    (∀ hash maxLen,
      view.readBounded world'.disk hash maxLen = view.readBounded world.disk hash maxLen) := by
  have hguarded := hreached.guarded
  have hsnapshot : view.snapshot ∈ world.snapshots :=
    List.mem_cons_of_mem _ (List.mem_map_of_mem hview)
  have haddressable := hguarded.addressable _ hsnapshot
  have hholds := hguarded.present _ hsnapshot
  have hkept : view.snapshot.Kept world.disk world'.disk ∧ Guarded world' ∧ view ∈ world'.held := by
    induction hrun with
    | refl => exact ⟨.refl _ _, hguarded, hview⟩
    | step _ hstep hheld ih =>
        obtain ⟨hkept, hguarded', hview'⟩ := ih
        obtain ⟨hguarded'', hstepKept⟩ := hstep.guarded hguarded'
        exact ⟨hkept.trans (hstepKept view hview'), hguarded'', hheld⟩
  refine ⟨haddressable, ?_, fun hash maxLen =>
    PackView.readBounded_congr haddressable hholds hkept.1 hash maxLen⟩
  obtain ⟨file, hfile, hlen⟩ := hholds
  obtain ⟨file', hfile', hlen', htake⟩ := hkept.1 file hfile hlen
  refine ⟨file, file', hfile, hfile', hlen, hlen', htake, fun key offset => ?_⟩
  unfold readSeal
  rw [readRecord_congr key offset rfl htake hlen hlen']

end Runs

/-- A view of a pack that is compacted away while it is held: nothing is live, and the
view still reads its object. -/
theorem view_immutable_compacted :
    let _ := idealCrypto
    let _ : KeyedHash := ⟨fun _ bytes => bytes⟩
    let _ : Postcard Seal := tableCodec []
    ∃ (world world' : World) (view : PackView), Reached (Bytes.ofString "pack") world ∧
      view ∈ world.held ∧ Holding view world world' ∧ world'.store.generation = 1 ∧
      view.read world'.disk (objectContentHash ⟨[5]⟩) = .ok ⟨[5]⟩ := by
  intro _ _ _
  let salt : Salt := ⟨⟨List.replicate 16 7⟩, rfl⟩
  let opening := PackStore.open (Bytes.ofString "pack") (some salt)
  have hok : (outcome opening ⟨∅, []⟩).1.toOption.isSome = true := by decide +kernel
  let opened : World := ⟨(outcome opening ⟨∅, []⟩).2, (outcome opening ⟨∅, []⟩).1.toOption.get hok, []⟩
  let committed := Call.perform (.commit [⟨[5]⟩] .empty) opened
  let world := Call.perform .view committed
  let world' := Call.perform (.compact (fun _ => false) (some salt)) world
  have hfresh : opened.store.lastSeal = none := by decide +kernel +revert
  have hgeneration : world'.store.generation = 1 := by decide +kernel +revert
  have hread : committed.store.view.read world.disk (objectContentHash ⟨[5]⟩) = .ok ⟨[5]⟩ := by
    decide +kernel +revert
  have hopened : Reached (Bytes.ofString "pack") opened :=
    .opened (outcome_eq_ok hok) fun h => absurd hfresh h
  have hreached : Reached (Bytes.ofString "pack") world :=
    (hopened.step (.perform opened _ _)).step (.perform committed _ _)
  have hview : committed.store.view ∈ world.held := List.mem_append_right _ List.mem_cons_self
  have hheld : world'.held = world.held :=
    (Ends.of_both (fun world' => Steady world world')
      (PackStore.ends_compact hreached.guarded)).held
  have hrun : Holding committed.store.view world world' :=
    .step (.refl world) (.perform world _ _) (hheld ▸ hview)
  refine ⟨world, world', committed.store.view, hreached, hview, hrun, hgeneration, ?_⟩
  exact ((view_immutable hreached hview hrun).2.2 _ _).trans hread
end Lait.Pack
