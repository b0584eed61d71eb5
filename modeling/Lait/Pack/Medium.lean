import Lait.OrderedMap
import Lait.Stateful

/-!
# The medium under a pack

Named slots that append, read at an offset, flush and truncate: a directory with
a file for each slot.  A file is what its last flush made durable and the writes
the medium has taken since, so that a read sees the writes and a crash may not.

Every call of the medium can fail, and which do is not the store's to say: a
`Disk` carries the verdicts of the calls to come.  A write that fails may have put
some of its bytes down.

A writer tracks its slot's length itself and writes at that length, so what it
does to a slot stays above it: `KeepsBelow name bound` is what two disks have in
common when only slot `name` changed, at or above `bound`.
-/

namespace Lait.Pack

open Stateful

/-! ## Failures -/

inductive Operation
  /-- `Open`. -/
  | opening
  | read
  | write
  | sync
  | rename
  | remove
  | encode
  deriving DecidableEq

inductive IoKind
  | notFound
  | permissionDenied
  | interrupted
  | invalidData
  | other
  deriving DecidableEq

inductive Defect
  | missingObject
  | corruptObject
  | corruptManifest
  | corruptJournal
  | missingCounter
  | corruptIndex
  | unsupportedFormat
  | counterOverflow
  | diverged
  deriving DecidableEq

/-- Why a journal operation fails. -/
inductive Failure
  | operation (operation : Operation) (kind : IoKind)
  | integrity (defect : Defect)
  /-- A flush failed after the seal: the commit may or may not survive. -/
  | outcomeUnknown
  deriving DecidableEq

/-- `u64::MAX`. -/
def U64_MAX : ℕ := 18446744073709551615

/-- `u64::checked_add`. -/
def checkedAdd (a b : ℕ) : Option ℕ := if a + b ≤ U64_MAX then some (a + b) else none

theorem checkedAdd_eq_some {a b c : ℕ} : checkedAdd a b = some c ↔ a + b ≤ U64_MAX ∧ a + b = c := by
  unfold checkedAdd
  rw [Option.ite_none_right_eq_some, Option.some.injEq]

/-! ## Files -/

/-- The bytes of a file. -/
abbrev Image := List UInt8

/-- A change of a file the medium has taken. -/
inductive Write
  /-- `write_all_at`. -/
  | put (offset : ℕ) (content : List UInt8)
  /-- `set_len`. -/
  | setLen (len : ℕ)
  deriving DecidableEq

/-- A file as it reads after a write; what lies between its end and the write is
zeros. -/
def Write.apply : Write → Image → Image
  | put offset content, image =>
      (image ++ List.replicate (offset - image.length) 0).take offset ++ content ++
        image.drop (offset + content.length)
  | setLen len, image => image.take len ++ List.replicate (len - image.length) 0

/-- A slot's file: what the last flush made durable, and the writes since. -/
structure SlotFile where
  durable : Image
  pending : List Write
  deriving DecidableEq

namespace SlotFile

/-- What a read sees. -/
def bytes (file : SlotFile) : Image := file.pending.foldl (fun image write => write.apply image) file.durable

def write (file : SlotFile) (write : Write) : SlotFile :=
  { file with pending := file.pending ++ [write] }

/-- `sync_all`. -/
def flush (file : SlotFile) : SlotFile := ⟨file.bytes, []⟩

@[simp] theorem bytes_write (file : SlotFile) (write : Write) :
    (file.write write).bytes = write.apply file.bytes :=
  List.foldl_append

end SlotFile

/-- Below where it begins a write changes nothing. -/
theorem take_put {offset bound : ℕ} {content : List UInt8} {image : Image}
    (hoffset : bound ≤ offset) (hlen : bound ≤ image.length) :
    ((Write.put offset content).apply image).take bound = image.take bound := by
  have hpad : bound ≤ (image ++ List.replicate (offset - image.length) 0).length := by
    rw [List.length_append]
    omega
  show ((image ++ List.replicate (offset - image.length) 0).take offset ++ content ++
    image.drop (offset + content.length)).take bound = image.take bound
  rw [List.append_assoc, List.take_append_of_le_length (by rw [List.length_take]; omega),
    List.take_take, min_eq_left hoffset, List.take_append_of_le_length hlen]

theorem length_put {offset : ℕ} {content : List UInt8} {image : Image} :
    ((Write.put offset content).apply image).length =
      max image.length (offset + content.length) := by
  show ((image ++ List.replicate (offset - image.length) 0).take offset ++ content ++
    image.drop (offset + content.length)).length = _
  simp only [List.length_append, List.length_take, List.length_drop, List.length_replicate]
  omega

/-- Nor does a cut above. -/
theorem take_setLen {len bound : ℕ} {image : Image} (hlen : bound ≤ len)
    (himage : bound ≤ image.length) :
    ((Write.setLen len).apply image).take bound = image.take bound := by
  show (image.take len ++ List.replicate (len - image.length) 0).take bound = image.take bound
  rw [List.take_append_of_le_length (by rw [List.length_take]; omega), List.take_take,
    min_eq_left hlen]

theorem length_setLen {len : ℕ} {image : Image} :
    ((Write.setLen len).apply image).length = len := by
  show (image.take len ++ List.replicate (len - image.length) 0).length = len
  simp only [List.length_append, List.length_take, List.length_replicate]
  omega

/-- `read_exact_at`: past the end is an error, never a short read. -/
def readImage (image : Image) (offset len : ℕ) : Option (List UInt8) :=
  if offset + len ≤ image.length then some ((image.drop offset).take len) else none

theorem readImage_eq_some {image : Image} {offset len : ℕ} {bytes : List UInt8} :
    readImage image offset len = some bytes ↔
      offset + len ≤ image.length ∧ (image.drop offset).take len = bytes := by
  unfold readImage
  rw [Option.ite_none_right_eq_some, Option.some.injEq]

/-- Consecutive pieces of a file make one piece. -/
theorem take_drop_add (image : Image) (offset len len' : ℕ) :
    (image.drop offset).take (len + len') =
      (image.drop offset).take len ++ (image.drop (offset + len)).take len' := by
  rw [List.take_add, List.drop_drop]

/-- What lies below a bound that two files share reads the same in both. -/
theorem readImage_congr {image image' : Image} {bound offset len : ℕ}
    (htake : image'.take bound = image.take bound) (hlen : bound ≤ image.length)
    (hlen' : bound ≤ image'.length) (hrange : offset + len ≤ bound) :
    readImage image' offset len = readImage image offset len := by
  have hread : ∀ image : Image, (image.drop offset).take len =
      ((image.take bound).drop offset).take len := by
    intro image
    rw [List.drop_take, List.take_take, min_eq_left (by omega)]
  unfold readImage
  rw [if_pos (by omega), if_pos (by omega), hread image, hread image', htake]

/-! ## Calls -/

/-- What a call does.  A write that fails has put down its first `reached` bytes;
an open that fails has created the file if it reached that far. -/
inductive Verdict
  | done
  | fails (kind : IoKind) (reached : ℕ)
  deriving DecidableEq

structure Disk where
  slots : BTreeMap Text SlotFile
  /-- What the calls to come do; where nothing is said they succeed. -/
  verdicts : List Verdict

/-- An exclusive write half: its slot, and the length it tracks. -/
structure Writer where
  name : Text
  len : ℕ
  deriving DecidableEq

/-- `checked_name`: a slot name is one path component. -/
def checkedName (name : Text) : Bool :=
  !name.data.isEmpty && name.data.all fun c => c ≠ 47 ∧ c ≠ 92 ∧ c ≠ 46 ∧ c ≠ 0

/-- Change one file, where it is there. -/
def onFile (slots : BTreeMap Text SlotFile) (name : Text) (change : SlotFile → SlotFile) :
    BTreeMap Text SlotFile :=
  match slots[name]? with
  | some file => slots.insert name (change file)
  | none => slots

theorem get_onFile (slots : BTreeMap Text SlotFile) (name : Text) (change : SlotFile → SlotFile)
    (other : Text) :
    (onFile slots name change)[other]? =
      if other = name then (slots[name]?).map change else slots[other]? := by
  unfold onFile
  by_cases hname : other = name
  · rw [if_pos hname, hname]
    cases hfile : slots[name]? with
    | none => exact hfile
    | some file => rw [BTreeMap.get_insert, if_pos rfl]; rfl
  · rw [if_neg hname]
    cases hfile : slots[name]? with
    | none => rfl
    | some file => rw [BTreeMap.get_insert, if_neg (Ne.symm hname)]

namespace Disk

variable {ε : Type}

/-- Put a write to a slot's file. -/
def write (disk : Disk) (name : Text) (write : Write) : Disk :=
  { disk with slots := onFile disk.slots name fun file => file.write write }

/-- Flush a slot's file. -/
def flushed (disk : Disk) (name : Text) : Disk :=
  { disk with slots := onFile disk.slots name SlotFile.flush }

/-- The file of a name, created empty where it is not there. -/
def created (disk : Disk) (name : Text) : Disk :=
  { disk with slots := disk.slots.insert name ((disk.slots[name]?).getD ⟨[], []⟩) }

/-- What the next call does. -/
def verdict : Stateful Disk ε Verdict := do
  let disk ← get
  set { disk with verdicts := disk.verdicts.tail }
  pure (disk.verdicts.headD .done)

/-- `open_slot`. -/
def openSlot (name : Text) : Stateful Disk IoKind Writer := do
  failIf (checkedName name = false) .other
  match ← verdict with
  | .fails kind reached =>
      modify fun disk => if 0 < reached then disk.created name else disk
      throw kind
  | .done =>
      modify fun disk => disk.created name
      let disk ← get
      pure ⟨name, ((disk.slots[name]?).elim [] SlotFile.bytes).length⟩

/-- `remove_slot`: absence is success. -/
def removeSlot (name : Text) : Stateful Disk IoKind Unit := do
  failIf (checkedName name = false) .other
  match ← verdict with
  | .fails kind _ => throw kind
  | .done => modify fun disk => { disk with slots := disk.slots.erase name }

/-- `slot_names`. -/
def slotNames : Stateful Disk IoKind (List Text) := do
  match ← verdict with
  | .fails kind _ => throw kind
  | .done => do
      let disk ← get
      pure disk.slots.keys

/-- `SlotWriter::append`: at the tracked length, which moves past it. -/
def append (writer : Writer) (content : List UInt8) : Stateful Disk IoKind Writer := do
  match ← verdict with
  | .fails kind reached =>
      modify fun disk => disk.write writer.name (.put writer.len (content.take reached))
      throw kind
  | .done =>
      modify fun disk => disk.write writer.name (.put writer.len content)
      match checkedAdd writer.len content.length with
      | some len => pure { writer with len }
      | none => throw .other

/-- `SlotWriter::flush`. -/
def flush (writer : Writer) : Stateful Disk IoKind Unit := do
  match ← verdict with
  | .fails kind _ => throw kind
  | .done => modify fun disk => disk.flushed writer.name

/-- `SlotWriter::truncate`: it never grows a slot. -/
def truncate (writer : Writer) (newLen : ℕ) : Stateful Disk IoKind Writer := do
  failIf (writer.len < newLen) .other
  match ← verdict with
  | .fails kind _ => throw kind
  | .done =>
      modify fun disk => disk.write writer.name (.setLen newLen)
      pure { writer with len := newLen }

/-- `ReadAt::read_at`, where the call does not fail by itself. -/
def readAt (disk : Disk) (name : Text) (offset len : ℕ) : Except IoKind (List UInt8) :=
  match disk.slots[name]? with
  | none => .error .notFound
  | some file =>
      match readImage file.bytes offset len with
      | some bytes => .ok bytes
      | none => .error .other

/-! ## What a call leaves -/

variable {disk : Disk}

@[simp] theorem ends_verdict {done : Verdict → Disk → Prop} {failed : ε → Disk → Prop} :
    Ends (verdict : Stateful Disk ε Verdict) disk done failed ↔
      done (disk.verdicts.headD .done) { disk with verdicts := disk.verdicts.tail } :=
  Iff.rfl

theorem get_write (disk : Disk) (name : Text) (write : Write) (other : Text) :
    (disk.write name write).slots[other]? =
      if other = name then (disk.slots[name]?).map (·.write write) else disk.slots[other]? :=
  get_onFile _ _ _ _

theorem get_flushed (disk : Disk) (name other : Text) :
    (disk.flushed name).slots[other]? =
      if other = name then (disk.slots[name]?).map SlotFile.flush else disk.slots[other]? :=
  get_onFile _ _ _ _

theorem get_created (disk : Disk) (name other : Text) :
    (disk.created name).slots[other]? =
      if other = name then some ((disk.slots[name]?).getD ⟨[], []⟩) else disk.slots[other]? := by
  show (disk.slots.insert name _)[other]? = _
  rw [BTreeMap.get_insert]
  by_cases hname : other = name
  · rw [if_pos hname.symm, if_pos hname]
  · rw [if_neg (Ne.symm hname), if_neg hname]

section Calls

variable {done : Writer → Disk → Prop} {failed : IoKind → Disk → Prop}

/-- An append puts its bytes down whole, or a part of them and fails. -/
theorem ends_append {writer : Writer} {content : List UInt8}
    (hdone : ∀ disk', disk'.slots = (disk.write writer.name (.put writer.len content)).slots →
      writer.len + content.length ≤ U64_MAX →
      done ⟨writer.name, writer.len + content.length⟩ disk')
    (hfailed : ∀ kind reached disk',
      disk'.slots = (disk.write writer.name (.put writer.len (content.take reached))).slots →
      failed kind disk') :
    Ends (append writer content) disk done failed := by
  unfold append
  rw [ends_bind, ends_verdict]
  cases disk.verdicts.headD .done with
  | fails kind reached =>
      simp only [ends_bind, ends_modify, ends_throw]
      exact hfailed kind reached _ rfl
  | done =>
      simp only [ends_bind, ends_modify]
      cases hlen : checkedAdd writer.len content.length with
      | none =>
          refine hfailed .other content.length _ ?_
          rw [List.take_length]
          rfl
      | some len =>
          obtain ⟨hle, rfl⟩ := checkedAdd_eq_some.mp hlen
          exact hdone _ rfl hle

/-- A flush makes a file durable, or does nothing that can be told. -/
theorem ends_flush {writer : Writer} {done : Unit → Disk → Prop}
    (hdone : ∀ disk', disk'.slots = (disk.flushed writer.name).slots → done () disk')
    (hfailed : ∀ kind disk', disk'.slots = disk.slots → failed kind disk') :
    Ends (flush writer) disk done failed := by
  unfold flush
  rw [ends_bind, ends_verdict]
  cases disk.verdicts.headD .done with
  | fails kind reached => exact hfailed kind _ rfl
  | done =>
      simp only [ends_modify]
      exact hdone _ rfl

/-- A cut takes place, or nothing does. -/
theorem ends_truncate {writer : Writer} {newLen : ℕ}
    (hdone : ∀ disk', newLen ≤ writer.len →
      disk'.slots = (disk.write writer.name (.setLen newLen)).slots →
      done ⟨writer.name, newLen⟩ disk')
    (hfailed : ∀ kind disk', disk'.slots = disk.slots → failed kind disk') :
    Ends (truncate writer newLen) disk done failed := by
  unfold truncate
  rw [ends_bind, ends_failIf]
  refine ⟨fun _ => hfailed .other _ rfl, fun hlen => ?_⟩
  rw [ends_bind, ends_verdict]
  cases disk.verdicts.headD .done with
  | fails kind reached => exact hfailed kind _ rfl
  | done =>
      simp only [ends_bind, ends_modify, ends_pure]
      exact hdone _ (not_lt.mp hlen) rfl

/-- A removal takes place, or nothing does. -/
theorem ends_removeSlot {name : Text} {done : Unit → Disk → Prop}
    (hdone : ∀ disk', disk'.slots = disk.slots.erase name → done () disk')
    (hfailed : ∀ kind disk', disk'.slots = disk.slots → failed kind disk') :
    Ends (removeSlot name) disk done failed := by
  unfold removeSlot
  rw [ends_bind, ends_failIf]
  refine ⟨fun _ => hfailed .other _ rfl, fun _ => ?_⟩
  rw [ends_bind, ends_verdict]
  cases disk.verdicts.headD .done with
  | fails kind reached => exact hfailed kind _ rfl
  | done => exact hdone _ rfl

/-- An open finds the file or creates it, and its writer stands at the file's end. -/
theorem ends_openSlot {name : Text}
    (hdone : ∀ disk' file, disk'.slots = (disk.created name).slots →
      disk'.slots[name]? = some file → done ⟨name, file.bytes.length⟩ disk')
    (hfailed : ∀ kind disk',
      disk'.slots = disk.slots ∨ disk'.slots = (disk.created name).slots → failed kind disk') :
    Ends (openSlot name) disk done failed := by
  unfold openSlot
  rw [ends_bind, ends_failIf]
  refine ⟨fun _ => hfailed .other _ (Or.inl rfl), fun _ => ?_⟩
  rw [ends_bind, ends_verdict]
  cases disk.verdicts.headD .done with
  | fails kind reached =>
      simp only [ends_bind, ends_modify, ends_throw]
      split
      · exact hfailed kind _ (Or.inr rfl)
      · exact hfailed kind _ (Or.inl rfl)
  | done =>
      simp only [ends_bind, ends_modify, ends_get, ends_pure]
      have hget := get_created { disk with verdicts := disk.verdicts.tail } name name
      rw [if_pos rfl] at hget
      rw [hget]
      exact hdone _ _ rfl hget

end Calls

/-! ## What changes and what does not -/

/-- Only slot `name` changed. -/
def OnlyIn (name : Text) (disk disk' : Disk) : Prop :=
  ∀ other, other ≠ name → disk'.slots[other]? = disk.slots[other]?

namespace OnlyIn

variable {name : Text} {disk disk' disk'' : Disk}

theorem of_slots_eq (h : disk'.slots = disk.slots) : OnlyIn name disk disk' :=
  fun _ _ => by rw [h]

theorem refl (name : Text) (disk : Disk) : OnlyIn name disk disk := fun _ _ => rfl

theorem trans (h : OnlyIn name disk disk') (h' : OnlyIn name disk' disk'') :
    OnlyIn name disk disk'' :=
  fun other hne => (h' other hne).trans (h other hne)

theorem write {write : Write} (h : disk'.slots = (disk.write name write).slots) :
    OnlyIn name disk disk' :=
  fun other hne => by rw [h, get_write, if_neg hne]

theorem flushed (h : disk'.slots = (disk.flushed name).slots) : OnlyIn name disk disk' :=
  fun other hne => by rw [h, get_flushed, if_neg hne]

theorem created (h : disk'.slots = (disk.created name).slots) : OnlyIn name disk disk' :=
  fun other hne => by rw [h, get_created, if_neg hne]

theorem erase (h : disk'.slots = disk.slots.erase name) : OnlyIn name disk disk' :=
  fun other hne => by rw [h, BTreeMap.get_erase, if_neg (Ne.symm hne)]

end OnlyIn

/-- Only slot `name` changed, and nothing below `bound` in it. -/
structure KeepsBelow (name : Text) (bound : ℕ) (disk disk' : Disk) : Prop where
  elsewhere : OnlyIn name disk disk'
  below : ∀ file, disk.slots[name]? = some file → ∃ file', disk'.slots[name]? = some file' ∧
    ∀ cut ≤ bound, cut ≤ file.bytes.length →
      cut ≤ file'.bytes.length ∧ file'.bytes.take cut = file.bytes.take cut

namespace KeepsBelow

variable {name : Text} {bound : ℕ} {disk disk' disk'' : Disk}

theorem of_slots_eq (h : disk'.slots = disk.slots) : KeepsBelow name bound disk disk' where
  elsewhere _ _ := by rw [h]
  below file hfile := ⟨file, by rw [h]; exact hfile, fun _ _ hlen => ⟨hlen, rfl⟩⟩

theorem refl (name : Text) (bound : ℕ) (disk : Disk) : KeepsBelow name bound disk disk :=
  of_slots_eq rfl

theorem trans (h : KeepsBelow name bound disk disk') (h' : KeepsBelow name bound disk' disk'') :
    KeepsBelow name bound disk disk'' where
  elsewhere other hne := (h'.elsewhere other hne).trans (h.elsewhere other hne)
  below file hfile := by
    obtain ⟨file', hfile', hkept⟩ := h.below file hfile
    obtain ⟨file'', hfile'', hkept'⟩ := h'.below file' hfile'
    refine ⟨file'', hfile'', fun cut hcut hlen => ?_⟩
    obtain ⟨hlen', htake⟩ := hkept cut hcut hlen
    obtain ⟨hlen'', htake'⟩ := hkept' cut hcut hlen'
    exact ⟨hlen'', htake'.trans htake⟩

/-- A write at or above the bound. -/
theorem write_put {offset : ℕ} {content : List UInt8}
    (hslots : disk'.slots = (disk.write name (.put offset content)).slots)
    (hoffset : bound ≤ offset) : KeepsBelow name bound disk disk' where
  elsewhere other hne := by rw [hslots, get_write, if_neg hne]
  below file hfile := by
    refine ⟨file.write (.put offset content), ?_, fun cut hcut hlen => ?_⟩
    · rw [hslots, get_write, if_pos rfl, hfile]
      rfl
    · rw [SlotFile.bytes_write, length_put, take_put (hcut.trans hoffset) hlen]
      exact ⟨hlen.trans (le_max_left _ _), rfl⟩

/-- A cut at or above it. -/
theorem write_setLen {len : ℕ} (hslots : disk'.slots = (disk.write name (.setLen len)).slots)
    (hbound : bound ≤ len) : KeepsBelow name bound disk disk' where
  elsewhere other hne := by rw [hslots, get_write, if_neg hne]
  below file hfile := by
    refine ⟨file.write (.setLen len), ?_, fun cut hcut hlen => ?_⟩
    · rw [hslots, get_write, if_pos rfl, hfile]
      rfl
    · rw [SlotFile.bytes_write, length_setLen, take_setLen (hcut.trans hbound) hlen]
      exact ⟨hcut.trans hbound, rfl⟩

/-- A flush. -/
theorem flushed (hslots : disk'.slots = (disk.flushed name).slots) :
    KeepsBelow name bound disk disk' where
  elsewhere other hne := by rw [hslots, get_flushed, if_neg hne]
  below file hfile := by
    refine ⟨file.flush, ?_, fun _ _ hlen => ⟨hlen, rfl⟩⟩
    rw [hslots, get_flushed, if_pos rfl, hfile]
    rfl

end KeepsBelow

/-- The writer's slot is there, and at least as long as the writer says. -/
def Covers (disk : Disk) (writer : Writer) : Prop :=
  ∃ file, disk.slots[writer.name]? = some file ∧ writer.len ≤ file.bytes.length

namespace Covers

variable {disk disk' : Disk} {name : Text} {len : ℕ}

theorem of_slots_eq {writer : Writer} (hslots : disk'.slots = disk.slots)
    (h : disk.Covers writer) : disk'.Covers writer := by
  obtain ⟨file, hfile, hlen⟩ := h
  exact ⟨file, by rw [hslots]; exact hfile, hlen⟩

theorem put {offset len' : ℕ} {content : List UInt8} (h : disk.Covers ⟨name, len⟩)
    (hslots : disk'.slots = (disk.write name (.put offset content)).slots)
    (hlen : len' ≤ max len (offset + content.length)) : disk'.Covers ⟨name, len'⟩ := by
  obtain ⟨file, hfile, hcover⟩ := h
  refine ⟨file.write (.put offset content), ?_, ?_⟩
  · rw [hslots, get_write, if_pos rfl, hfile]
    rfl
  · rw [SlotFile.bytes_write, length_put]
    exact hlen.trans (max_le_max_right _ hcover)

theorem setLen {len' : ℕ} (h : disk.Covers ⟨name, len⟩)
    (hslots : disk'.slots = (disk.write name (.setLen len')).slots) :
    disk'.Covers ⟨name, len'⟩ := by
  obtain ⟨file, hfile, -⟩ := h
  refine ⟨file.write (.setLen len'), ?_, ?_⟩
  · rw [hslots, get_write, if_pos rfl, hfile]
    rfl
  · rw [SlotFile.bytes_write, length_setLen]

theorem flushed {writer : Writer} (h : disk.Covers writer)
    (hslots : disk'.slots = (disk.flushed writer.name).slots) : disk'.Covers writer := by
  obtain ⟨file, hfile, hlen⟩ := h
  refine ⟨file.flush, ?_, hlen⟩
  rw [hslots, get_flushed, if_pos rfl, hfile]
  rfl

end Covers

end Disk

end Lait.Pack
