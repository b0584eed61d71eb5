import Lait.Pack.Recover

/-!
# Opening a pack

Every slot of the family is recovered; the one whose seal covers the highest
sequence is elected, generation breaking the tie; the losers are removed and the
winner's unverified tail is cut off.  Where no slot holds a verified seal a fresh
pack begins at generation 0, unless the only history is one that cannot be
exposed.
-/

namespace Lait.Pack

open Stateful

section Open

variable [Crypto] [KeyedHash] [Postcard Seal]

/-! ## Opening -/

/-- Whether a name is of the family: its prefix, a hyphen, digits. -/
def inFamily (family name : Text) : Bool :=
  let stem := family.data ++ [45]
  stem.isPrefixOf name.data && (name.data.drop stem.length).all fun c => 48 ≤ c ∧ c ≤ 57

/-- `slot_family`. -/
def slotFamily (family : Text) : Stateful Disk Failure (List Text) := do
  let names ← ioErr .opening Disk.slotNames
  pure (names.filter (inFamily family))

/-- Open one slot and recover what it holds. -/
def openRecovered (name : Text) : Stateful Disk Failure RecoveredSlot := do
  let writer ← ioErr .opening (Disk.openSlot name)
  let disk ← get
  pure (recoverSlot name writer ((disk.slots[name]?).elim [] SlotFile.bytes))

/-- What an election compares: the sequence, and then the generation. -/
def RecoveredSlot.rank (slot : RecoveredSlot) : ℕ × ℕ :=
  match slot.state with
  | some state => (state.sequence, state.generation)
  | none => (0, 0)

/-- `sort_by_key`, which is stable. -/
def sortByRank (slots : List RecoveredSlot) : List RecoveredSlot :=
  slots.mergeSort fun a b => decide (a.rank.1 < b.rank.1) ||
    (decide (a.rank.1 = b.rank.1) && decide (a.rank.2 ≤ b.rank.2))

/-- The elected slot, and those that are retired. -/
def elect (recovered : List RecoveredSlot) : Option (RecoveredSlot × SlotState) × List RecoveredSlot :=
  let sorted := sortByRank recovered
  match sorted.getLast? with
  | none => (none, [])
  | some last =>
      match last.state with
      | some state => (some (last, state), sorted.dropLast)
      | none => (none, sorted)

/-- A fresh pack, at generation 0. -/
def openFresh (family : Text) (salt : Option Salt) : Stateful Disk Failure PackStore := do
  let name := slotName family 0
  let (writer, key) ← initSlot name salt
  pure {
    writer
    family
    key
    snapshot := ⟨⟨name⟩, ∅, writer.len, 0⟩
    graveyard := []
    generation := 0
    lastSeal := none
    sealsSinceCheckpoint := 0
    provenance := none
    manifest := none
    poisoned := false }

/-- Cut a verified slot off behind its last seal. -/
def cutTail (writer : Writer) (len : ℕ) : Stateful Disk Failure Writer :=
  if len < writer.len then do
    let writer ← ioErr .opening (Disk.truncate writer len)
    -- Without this flush the cut could reorder against the next appends.
    ioErr .sync (Disk.flush writer)
    pure writer
  else pure writer

/-- The elected slot, its unverified tail cut off. -/
def openElected (family : Text) (slot : RecoveredSlot) (state : SlotState) :
    Stateful Disk Failure PackStore := do
  let writer ← cutTail slot.writer state.len
  pure {
    writer
    family
    key := slot.key
    snapshot := ⟨⟨slot.name⟩, state.table, state.len, state.sequence⟩
    graveyard := []
    generation := state.generation
    lastSeal := some state.lastSeal
    sealsSinceCheckpoint := state.sealsSinceCheckpoint
    provenance := state.provenance
    manifest := some state.manifest
    poisoned := false }

/-- `PackStore::open`. -/
def PackStore.open (family : Text) (salt : Option Salt) : Stateful Disk Failure PackStore := do
  let names ← slotFamily family
  let recovered ← names.mapM openRecovered
  -- A torn first seal is acknowledged history that nothing can expose; erasing it
  -- is never this code's call.
  failIf (recovered.all (fun slot => slot.state.isNone) ∧ recovered.any RecoveredSlot.tornBirth)
    (.integrity .corruptObject)
  let (elected, losers) := elect recovered
  losers.forM fun loser => ignore (Disk.removeSlot loser.name)
  match elected with
  | none => openFresh family salt
  | some (slot, state) => openElected family slot state

/-! ## What opening leaves -/

/-- Files that were there are there, as they were. -/
def Disk.Grown (disk disk' : Disk) : Prop :=
  ∀ (name : Text) (file : SlotFile), disk.slots[name]? = some file → disk'.slots[name]? = some file

omit [Crypto] [KeyedHash] [Postcard Seal] in
theorem Disk.Grown.covers {disk disk' : Disk} (h : disk.Grown disk') {writer : Writer}
    (hcovers : disk.Covers writer) : disk'.Covers writer := by
  obtain ⟨file, hfile, hlen⟩ := hcovers
  exact ⟨file, h _ _ hfile, hlen⟩

/-- What a recovered slot is on a disk: its writer stands in it, and its state ends
below the writer. -/
structure RecoveredSlot.Stands (slot : RecoveredSlot) (disk : Disk) : Prop where
  writing : slot.writer.name = slot.name
  covers : disk.Covers slot.writer
  below : ∀ state, slot.state = some state → state.len ≤ slot.writer.len

theorem ends_openRecovered {disk : Disk} {name : Text} :
    Ends (openRecovered name) disk
      (fun slot disk' => disk.Grown disk' ∧ slot.name = name ∧ slot.Stands disk')
      (fun _ _ => True) := by
  unfold openRecovered ioErr
  simp only [ends_bind, ends_mapError, ends_get, ends_pure]
  refine Disk.ends_openSlot (fun disk' file hslots hfile => ?_) fun _ _ _ => trivial
  refine ⟨fun other kept hkept => ?_, recoverSlot_name _ _ _, ⟨?_, ?_, ?_⟩⟩
  · rw [hslots, Disk.get_created]
    split
    case isTrue hname => rw [← hname, hkept, Option.getD_some]
    case isFalse => exact hkept
  · rw [recoverSlot_name, recoverSlot_writer]
  · rw [recoverSlot_writer]
    exact ⟨file, hfile, le_rfl⟩
  · intro state hstate
    rw [recoverSlot_writer]
    exact len_of_recoverSlot hstate

/-- Every slot of the family stands on the disk that recovery leaves. -/
theorem ends_openAll {disk : Disk} {names : List Text} :
    Ends (names.mapM openRecovered) disk
      (fun slots disk' => disk.Grown disk' ∧ slots.map RecoveredSlot.name = names ∧
        ∀ slot ∈ slots, slot.Stands disk')
      (fun _ _ => True) := by
  induction names generalizing disk with
  | nil => exact ⟨fun _ _ h => h, rfl, fun _ h => absurd h List.not_mem_nil⟩
  | cons name names ih =>
      rw [List.mapM_cons]
      simp only [ends_bind, ends_pure]
      refine ends_openRecovered.mono ?_ fun _ _ h => h
      rintro slot opened ⟨hgrown, hname, hstands⟩
      refine ih.mono ?_ fun _ _ h => h
      rintro slots disk' ⟨hgrown', hnames, hall⟩
      refine ⟨fun other file h => hgrown' _ _ (hgrown _ _ h), by rw [List.map_cons, hname, hnames],
        List.forall_mem_cons.mpr ⟨⟨hstands.writing, ?_, hstands.below⟩, hall⟩⟩
      exact hgrown'.covers hstands.covers

omit [Crypto] [KeyedHash] [Postcard Seal] in
theorem sortByRank_perm (slots : List RecoveredSlot) : (sortByRank slots).Perm slots :=
  List.mergeSort_perm _ _

omit [Crypto] [KeyedHash] [Postcard Seal] in
/-- The elected slot is a recovered one, and no loser shares its name. -/
theorem elect_eq_some {recovered losers : List RecoveredSlot} {slot : RecoveredSlot}
    {state : SlotState} (hnodup : (recovered.map RecoveredSlot.name).Nodup)
    (h : elect recovered = (some (slot, state), losers)) :
    slot ∈ recovered ∧ slot.state = some state ∧ ∀ loser ∈ losers, loser.name ≠ slot.name := by
  unfold elect at h
  dsimp only at h
  split at h
  case h_1 => cases h
  case h_2 last hlast =>
      split at h
      case h_2 => cases h
      case h_1 hstate =>
          cases h
          have hsorted := (List.dropLast_append_getLast? _ hlast)
          have hperm := sortByRank_perm recovered
          have hmem : slot ∈ sortByRank recovered := by
            rw [← hsorted]
            exact List.mem_append_right _ List.mem_cons_self
          refine ⟨hperm.mem_iff.mp hmem, hstate, fun loser hloser hname => ?_⟩
          have hnodup' := (hperm.map RecoveredSlot.name).nodup_iff.mpr hnodup
          rw [← hsorted, List.map_append, List.nodup_append] at hnodup'
          exact hnodup'.2.2 _ (List.mem_map_of_mem hloser) _
            (List.mem_map_of_mem List.mem_cons_self) hname

omit [Crypto] [KeyedHash] [Postcard Seal] in
/-- Removing the losers leaves a slot of another name. -/
theorem ends_removeLosers {disk : Disk} {losers : List RecoveredSlot} {name : Text}
    (hlosers : ∀ loser ∈ losers, loser.name ≠ name) :
    Ends (losers.forM fun loser => ignore (Disk.removeSlot loser.name) :
        Stateful Disk Failure Unit) disk
      (fun _ disk' => disk'.slots[name]? = disk.slots[name]?) (fun _ _ => True) := by
  induction losers generalizing disk with
  | nil => exact rfl
  | cons loser losers ih =>
      obtain ⟨hloser, hlosers⟩ := List.forall_mem_cons.mp hlosers
      have hrest : ∀ disk' : Disk, disk'.slots[name]? = disk.slots[name]? →
          Ends (losers.forM fun loser => ignore (Disk.removeSlot loser.name) :
              Stateful Disk Failure Unit) disk'
            (fun _ disk'' => disk''.slots[name]? = disk.slots[name]?) (fun _ _ => True) :=
        fun disk' hslot => (ih hlosers).mono (fun _ _ h => h.trans hslot) fun _ _ h => h
      show Ends (ignore (Disk.removeSlot loser.name) >>= fun _ => losers.forM _) disk _ _
      rw [ends_bind, ends_ignore]
      refine Disk.ends_removeSlot (fun disk' hslots => hrest disk' ?_)
        fun _ disk' hslots => hrest disk' ?_
      · rw [hslots, BTreeMap.get_erase, if_neg hloser]
      · rw [hslots]

/-- What a store is when it has just been opened. -/
structure PackStore.Opened (family : Text) (store : PackStore) (disk : Disk) : Prop where
  family_eq : store.family = family
  graveyard : store.graveyard = []
  writing : store.writer.name = store.snapshot.generation.name
  covers : disk.Covers store.writer
  ahead : store.snapshot.sealedLen ≤ store.writer.len
  /-- A pack that holds no seal is fresh. -/
  fresh : store.lastSeal = none → store.snapshot.generation.name = slotName family 0 ∧
    store.generation = 0 ∧ store.snapshot.table = ∅ ∧ store.snapshot.sealedLen = HEADER_LEN

omit [KeyedHash] [Postcard Seal] in
theorem ends_openFresh {disk : Disk} {family : Text} {salt : Option Salt} :
    Ends (openFresh family salt) disk (fun store disk' => store.Opened family disk')
      (fun _ _ => True) := by
  unfold openFresh
  simp only [ends_bind, ends_pure]
  refine ends_initSlot.mono ?_ fun _ _ _ => trivial
  rintro ⟨writer, key⟩ disk' ⟨-, hwriter, hcovers⟩
  dsimp only at hwriter
  subst hwriter
  exact ⟨rfl, rfl, rfl, hcovers, le_rfl, fun _ => ⟨rfl, rfl, rfl, rfl⟩⟩

omit [Crypto] [KeyedHash] [Postcard Seal] in
theorem ends_cutTail {disk : Disk} {writer : Writer} {len : ℕ} (hlen : len ≤ writer.len)
    (hcovers : disk.Covers writer) :
    Ends (cutTail writer len) disk
      (fun cut disk' => cut = ⟨writer.name, len⟩ ∧ disk'.Covers cut) (fun _ _ => True) := by
  unfold cutTail ioErr
  refine ends_ite (fun _ => ?_) fun hle => ?_
  · simp only [ends_bind, ends_mapError, ends_pure]
    refine Disk.ends_truncate (fun disk' _ hcut => ?_) fun _ _ _ => trivial
    have hcovers := hcovers.setLen hcut
    exact Disk.ends_flush (fun disk'' hflush => ⟨rfl, hcovers.flushed hflush⟩) fun _ _ _ => trivial
  · obtain rfl : writer.len = len := by omega
    exact ⟨rfl, hcovers⟩

omit [Crypto] [KeyedHash] [Postcard Seal] in
theorem ends_openElected {disk : Disk} {family : Text} {slot : RecoveredSlot} {state : SlotState}
    (hstands : slot.Stands disk) (hstate : slot.state = some state) :
    Ends (openElected family slot state) disk (fun store disk' => store.Opened family disk')
      (fun _ _ => True) := by
  unfold openElected
  simp only [ends_bind, ends_pure]
  refine (ends_cutTail (hstands.below state hstate) hstands.covers).mono ?_ fun _ _ h => h
  rintro writer disk' ⟨rfl, hcovers⟩
  exact ⟨rfl, rfl, hstands.writing, hcovers, le_rfl, fun h => absurd h (by simp)⟩

/-- **A pack opens with its writer at or above its seal.** -/
theorem ends_open {disk : Disk} {family : Text} {salt : Option Salt} :
    Ends (PackStore.open family salt) disk (fun store disk' => store.Opened family disk')
      (fun _ _ => True) := by
  unfold PackStore.open slotFamily ioErr Disk.slotNames
  simp only [ends_bind, ends_mapError, ends_pure, Disk.ends_verdict]
  cases disk.verdicts.headD .done with
  | fails kind reached => trivial
  | done =>
      simp only [ends_bind, ends_get, ends_pure]
      refine ends_openAll.mono ?_ fun _ _ h => h
      rintro slots recovered ⟨-, hnames, hstands⟩
      rw [ends_failIf]
      refine ⟨fun _ => trivial, fun _ => ?_⟩
      have hnodup : (slots.map RecoveredSlot.name).Nodup := by
        rw [hnames]
        exact Std.ExtTreeMap.nodup_keys.filter _
      cases helect : elect slots with
      | mk elected losers =>
      cases elected with
      | none =>
          have hremove : Ends (losers.forM fun loser => ignore (Disk.removeSlot loser.name) :
              Stateful Disk Failure Unit) recovered (fun _ _ => True) (fun _ _ => True) := by
            unfold Ends
            split <;> trivial
          exact hremove.mono (fun _ _ _ => ends_openFresh) fun _ _ h => h
      | some elected =>
          obtain ⟨slot, state⟩ := elected
          obtain ⟨hmem, hstate, hlosers⟩ := elect_eq_some hnodup helect
          have hslot := hstands slot hmem
          refine (ends_removeLosers hlosers).mono ?_ fun _ _ h => h
          intro _ disk' hsame
          refine ends_openElected ⟨hslot.writing, ?_, hslot.below⟩ hstate
          obtain ⟨file, hfile, hlen⟩ := hslot.covers
          rw [hslot.writing] at hfile
          exact ⟨file, by rw [hslot.writing, hsame]; exact hfile, hlen⟩

end Open

end Lait.Pack
