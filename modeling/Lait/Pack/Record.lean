import Lait.Ceremony.MaterialLog
import Lait.Pack.Medium

/-!
# The bytes of a pack

A slot begins with a header that names it and carries the salt of this life of
it; behind the header stand OBJECT and SEAL records.  The check of a record is a
keyed hash of its place, its kind and its payload, under a key derived from the
salt.

`readRecord` is what recovery trusts.  What it answers depends on the bytes below
the end of the record alone (`readRecord_congr`), and it reads a payload exactly
where the bytes are those that `record` makes of it (`readRecord_eq_some`).
-/

namespace Lait.Pack

open Stateful
open Bytes (leBytes leValue length_leBytes leValue_leBytes leBytes_leValue)

/-- `Hasher::new_keyed(key)` of the `blake3` crate, over the whole input. -/
class KeyedHash where
  keyed : Bytes → Bytes → Bytes

def SLOT_MAGIC : List UInt8 := (Bytes.ofString "laitpak2").data

def SALT_LEN : ℕ := 16

/-- magic 8 | salt 16 | name length 2 | name, zero-padded. -/
def HEADER_LEN : ℕ := 64

def HEADER_NAME_CAPACITY : ℕ := 38

def OBJECT_MAGIC : List UInt8 := (Bytes.ofString "lpo1").data

def SEAL_MAGIC : List UInt8 := (Bytes.ofString "lps1").data

def CHECK_LEN : ℕ := 16

/-- magic 4 + length 4 + check 16. -/
def RECORD_OVERHEAD : ℕ := 24

def MAX_RECORD_BYTES : ℕ := 268435456

def RECORD_KEY_CONTEXT : Text := Bytes.ofString "lait/pack-record/1"

/-- `u32::MAX`. -/
def U32_MAX : ℕ := 4294967295

/-- What `getrandom` fills. -/
abbrev Salt := { salt : Bytes // salt.length = SALT_LEN }

/-- What the first seal of a migrated pack says of its source. -/
structure Provenance where
  sourceManifest : Bytes
  sourceCounter : ℕ
  deriving DecidableEq

/-- Where an object's payload lies. -/
structure TableEntry where
  hash : Bytes
  offset : ℕ
  len : ℕ
  deriving DecidableEq

structure SealLink where
  offset : ℕ
  check : List UInt8
  deriving DecidableEq

structure Seal where
  sequence : ℕ
  generation : ℕ
  prev : Option SealLink
  added : List TableEntry
  /-- The complete table, where recovery may stop walking back. -/
  checkpoint : Option (List TableEntry)
  provenance : Option Provenance
  manifest : Bytes
  deriving DecidableEq

abbrev Table := BTreeMap Bytes (ℕ × ℕ)

/-- `entries`. -/
def entries (table : Table) : List TableEntry :=
  table.toList.map fun entry => ⟨entry.1, entry.2.1, entry.2.2⟩

def corrupt : Failure := .integrity .corruptJournal

/-- `io_err`. -/
def ioErr {α : Type} (operation : Operation) (call : Stateful Disk IoKind α) :
    Stateful Disk Failure α :=
  mapError (.operation operation) call

/-! ## Records -/

section Records

variable [KeyedHash]

/-- `record_check`: it binds the record's offset as well as its bytes. -/
def recordCheck (key : Bytes) (magic : List UInt8) (offset : ℕ) (payload : Bytes) : List UInt8 :=
  let hash := KeyedHash.keyed key (Bytes.join [⟨leBytes 8 offset⟩, ⟨magic⟩,
    ⟨leBytes 4 (min payload.length U32_MAX)⟩, payload])
  if CHECK_LEN ≤ hash.length then hash.data.take CHECK_LEN else List.replicate CHECK_LEN 0

theorem length_recordCheck (key : Bytes) (magic : List UInt8) (offset : ℕ) (payload : Bytes) :
    (recordCheck key magic offset payload).length = CHECK_LEN := by
  unfold recordCheck
  dsimp only
  split
  case isTrue h =>
      rw [List.length_take]
      exact min_eq_left h
  case isFalse => exact List.length_replicate

/-- The bytes of one record. -/
def record (key : Bytes) (magic : List UInt8) (offset : ℕ) (payload : Bytes) : List UInt8 :=
  magic ++ leBytes 4 payload.length ++ payload.data ++ recordCheck key magic offset payload

theorem length_record {key : Bytes} {magic : List UInt8} (hmagic : magic.length = 4) (offset : ℕ)
    (payload : Bytes) :
    (record key magic offset payload).length = RECORD_OVERHEAD + payload.length := by
  unfold record
  rw [List.length_append, List.length_append, List.length_append, length_leBytes,
    length_recordCheck, hmagic]
  show 4 + 4 + payload.length + 16 = 24 + payload.length
  omega

/-- `append_record`; it answers where the payload begins. -/
def appendRecord (writer : Writer) (key : Bytes) (magic : List UInt8) (payload : Bytes) :
    Stateful Disk Failure (ℕ × Writer) := do
  failIf (U32_MAX < payload.length) corrupt
  failIf (MAX_RECORD_BYTES < payload.length) corrupt
  let offset := writer.len
  let writer ← ioErr .write (Disk.append writer (record key magic offset payload))
  match checkedAdd offset 8 with
  | some payloadAt => pure (payloadAt, writer)
  | none => throw corrupt

/-- A record goes to the end of its slot, with its payload inside. -/
theorem ends_appendRecord {disk : Disk} {writer : Writer} {key : Bytes} {magic : List UInt8}
    {payload : Bytes} {bound : ℕ} (hmagic : magic.length = 4) (hbound : bound ≤ writer.len) :
    Ends (appendRecord writer key magic payload) disk
      (fun appended disk' => Disk.KeepsBelow writer.name bound disk disk' ∧
        appended.2.name = writer.name ∧ writer.len ≤ appended.2.len ∧
        appended.1 + payload.length ≤ appended.2.len ∧
        (disk.Covers writer → disk'.Covers appended.2))
      (fun _ disk' => Disk.KeepsBelow writer.name bound disk disk' ∧
        (disk.Covers writer → disk'.Covers writer)) := by
  unfold appendRecord ioErr
  simp only [ends_bind, ends_failIf, ends_mapError]
  have hsame : Disk.KeepsBelow writer.name bound disk disk ∧
      (disk.Covers writer → disk.Covers writer) := ⟨.refl _ _ _, fun h => h⟩
  refine ⟨fun _ => hsame, fun _ => ⟨fun _ => hsame, fun _ => ?_⟩⟩
  refine Disk.ends_append (fun disk' hslots hlen => ?_) fun kind reached disk' hslots => ?_
  · have hkept := Disk.KeepsBelow.write_put hslots hbound
    cases hpayloadAt : checkedAdd writer.len 8 with
    | none => exact ⟨hkept, fun h => h.put hslots (le_max_left _ _)⟩
    | some payloadAt =>
        obtain ⟨-, rfl⟩ := checkedAdd_eq_some.mp hpayloadAt
        refine ⟨hkept, rfl, Nat.le_add_right _ _, ?_, fun h => h.put hslots (le_max_right _ _)⟩
        show writer.len + 8 + payload.length ≤ writer.len + (record _ _ _ _).length
        rw [length_record hmagic]
        show _ ≤ writer.len + (24 + payload.length)
        omega
  · exact ⟨.write_put hslots hbound, fun h => h.put hslots (le_max_left _ _)⟩

/-- `read_record`: the payload, and where the record ends. -/
def readRecord (image : Image) (key : Bytes) (slotLen offset : ℕ) (expect : List UInt8) :
    Option (Bytes × ℕ) := do
  let payloadAt ← checkedAdd offset 8
  guard (payloadAt ≤ slotLen)
  let head ← readImage image offset 8
  guard (head.take 4 = expect)
  let payloadLen := leValue (head.drop 4)
  guard (payloadLen ≤ MAX_RECORD_BYTES)
  let fixed ← checkedAdd offset RECORD_OVERHEAD
  let finish ← checkedAdd fixed payloadLen
  guard (finish ≤ slotLen)
  let payload ← readImage image payloadAt payloadLen
  let checkAt ← checkedAdd payloadAt payloadLen
  let check ← readImage image checkAt CHECK_LEN
  guard (recordCheck key expect offset ⟨payload⟩ = check)
  pure (⟨payload⟩, finish)

/-- **A record is read where its bytes stand**, and nowhere else. -/
theorem readRecord_eq_some {image : Image} {key : Bytes} {slotLen offset finish : ℕ}
    {expect : List UInt8} {payload : Bytes} (hexpect : expect.length = 4) :
    readRecord image key slotLen offset expect = some (payload, finish) ↔
      finish = offset + (RECORD_OVERHEAD + payload.length) ∧ finish ≤ U64_MAX ∧
      finish ≤ slotLen ∧ finish ≤ image.length ∧ payload.length ≤ MAX_RECORD_BYTES ∧
      (image.drop offset).take (RECORD_OVERHEAD + payload.length) =
        record key expect offset payload := by
  have hover : RECORD_OVERHEAD = 24 := rfl
  have hcheck : CHECK_LEN = 16 := rfl
  have hmax : MAX_RECORD_BYTES = 268435456 := rfl
  have hpieces : ∀ len, (image.drop offset).take (RECORD_OVERHEAD + len) =
      (image.drop offset).take 8 ++ (image.drop (offset + 8)).take len ++
        (image.drop (offset + 8 + len)).take CHECK_LEN := by
    intro len
    rw [← take_drop_add, Nat.add_assoc offset, ← take_drop_add]
    congr 1
    omega
  unfold readRecord
  simp only [Option.bind_eq_bind, Option.bind_eq_some_iff, Option.guard_eq_some', checkedAdd_eq_some,
    readImage_eq_some, Option.pure_def, Option.some.injEq, Prod.mk.injEq, exists_and_left,
    exists_const]
  constructor
  · rintro ⟨_, ⟨-, rfl⟩, -, head, ⟨hheadEnd, hhead⟩, hmagic, hpayloadLen, _, ⟨-, rfl⟩, _,
      ⟨hfinish, rfl⟩, hslot, bytes, ⟨-, hbytes⟩, _, ⟨-, rfl⟩, check, ⟨hend, hstored⟩, heq, rfl, rfl⟩
    -- The head is the magic and the length, so the three pieces are the record.
    have hheadLen : head.length = 8 := by
      rw [← hhead, List.length_take, List.length_drop]
      omega
    have hlen : bytes.length = leValue (head.drop 4) := by
      rw [← hbytes, List.length_take, List.length_drop]
      omega
    have hhead' : head = expect ++ leBytes 4 bytes.length := by
      have hdrop : (head.drop 4).length = 4 := by rw [List.length_drop, hheadLen]
      have hvalue := leBytes_leValue (head.drop 4)
      rw [hdrop, ← hlen] at hvalue
      rw [hvalue, ← hmagic, List.take_append_drop]
    have hlen' : (Bytes.mk bytes).length = leValue (head.drop 4) := hlen
    refine ⟨by rw [hlen']; omega, hfinish, hslot, by omega, by omega, ?_⟩
    rw [hpieces, hhead, hlen', hbytes, hstored, ← heq, hhead']
    rfl
  · rintro ⟨rfl, hfinish, hslot, himage, hpayloadLen, hrecord⟩
    have hdrop : ∀ len n, len + n ≤ image.length - offset →
        ((image.drop (offset + len)).take n).length = n := by
      intro len n h
      rw [List.length_take, List.length_drop]
      omega
    rw [hpieces] at hrecord
    obtain ⟨hfront, hstored⟩ := List.append_inj' hrecord (by
      rw [length_recordCheck]
      have h := hdrop (8 + payload.length) CHECK_LEN (by omega)
      rwa [← Nat.add_assoc] at h)
    obtain ⟨hhead, hbytes⟩ := List.append_inj' hfront (hdrop 8 payload.length (by omega))
    have hvalue : leValue (leBytes 4 payload.length) = payload.length :=
      leValue_leBytes (by omega)
    have hmagic : (expect ++ leBytes 4 payload.length).take 4 = expect := by
      rw [← hexpect, List.take_left]
    have htail : (expect ++ leBytes 4 payload.length).drop 4 = leBytes 4 payload.length := by
      rw [← hexpect, List.drop_left]
    refine ⟨_, ⟨by omega, rfl⟩, by omega, _, ⟨by omega, hhead⟩, hmagic, ?_⟩
    rw [htail, hvalue]
    exact ⟨hpayloadLen, _, ⟨by omega, rfl⟩, _, ⟨by omega, rfl⟩, by omega, _, ⟨by omega, hbytes⟩, _,
      ⟨by omega, rfl⟩, _, ⟨by omega, hstored⟩, rfl, rfl, by omega⟩

/-- What recovery reads below a bound depends on the bytes below it alone. -/
theorem readRecord_congr {image image' : Image} {bound : ℕ} (key : Bytes) (offset : ℕ)
    {expect : List UInt8} (hexpect : expect.length = 4)
    (htake : image'.take bound = image.take bound) (hlen : bound ≤ image.length)
    (hlen' : bound ≤ image'.length) :
    readRecord image' key bound offset expect = readRecord image key bound offset expect := by
  have hbytes : ∀ len, offset + len ≤ bound →
      (image'.drop offset).take len = (image.drop offset).take len := by
    intro len hrange
    have hread := readImage_congr htake hlen hlen' hrange
    unfold readImage at hread
    rw [if_pos (by omega), if_pos (by omega)] at hread
    exact Option.some.inj hread
  apply Option.ext
  rintro ⟨payload, finish⟩
  rw [readRecord_eq_some hexpect, readRecord_eq_some hexpect]
  constructor
  · rintro ⟨rfl, hmax, hslot, -, hpayload, hrecord⟩
    exact ⟨rfl, hmax, hslot, by omega, hpayload, by rw [← hbytes _ hslot, hrecord]⟩
  · rintro ⟨rfl, hmax, hslot, -, hpayload, hrecord⟩
    exact ⟨rfl, hmax, hslot, by omega, hpayload, by rw [hbytes _ hslot, hrecord]⟩

end Records

/-! ## Headers -/

/-- The bytes of a slot's header. -/
def header (name : Text) (salt : Salt) : List UInt8 :=
  SLOT_MAGIC ++ salt.1.data ++ leBytes 2 name.length ++ name.data ++
    List.replicate (HEADER_NAME_CAPACITY - name.length) 0

/-- Cut off whatever a slot held. -/
def clear (writer : Writer) : Stateful Disk Failure Writer :=
  if 0 < writer.len then ioErr .opening (Disk.truncate writer 0) else pure writer

/-- `init_slot`: the header is durable before a seal can claim anything. -/
def initSlot [Crypto] (name : Text) (salt : Option Salt) : Stateful Disk Failure (Writer × Bytes) := do
  let writer ← ioErr .opening (Disk.openSlot name)
  let writer ← clear writer
  failIf (HEADER_NAME_CAPACITY < name.length) corrupt
  match salt with
  | none => throw (.operation .write .other)
  | some salt =>
      let writer ← ioErr .write (Disk.append writer (header name salt))
      ioErr .sync (Disk.flush writer)
      pure (writer, Crypto.deriveKey RECORD_KEY_CONTEXT salt.1)

theorem length_header {name : Text} (hname : name.length ≤ HEADER_NAME_CAPACITY) (salt : Salt) :
    (header name salt).length = HEADER_LEN := by
  have hsalt : salt.1.data.length = 16 := salt.2
  have hcapacity : HEADER_NAME_CAPACITY = 38 := rfl
  have hdata : name.data.length = name.length := rfl
  unfold header
  simp only [List.length_append, length_leBytes, List.length_replicate, hsalt, hdata]
  show 8 + 16 + 2 + name.length + (HEADER_NAME_CAPACITY - name.length) = 64
  omega

theorem ends_clear {disk : Disk} {writer : Writer} (hcovers : disk.Covers writer) :
    Ends (clear writer) disk
      (fun cleared disk' => Disk.OnlyIn writer.name disk disk' ∧ cleared = ⟨writer.name, 0⟩ ∧
        disk'.Covers cleared)
      (fun _ disk' => Disk.OnlyIn writer.name disk disk') := by
  unfold clear ioErr
  refine ends_ite (fun _ => ?_) fun hlen => ?_
  · rw [ends_mapError]
    refine Disk.ends_truncate (fun disk' _ hcut => ?_) fun kind disk' hcut => .of_slots_eq hcut
    exact ⟨.write hcut, rfl, hcovers.setLen hcut⟩
  · obtain ⟨name, len⟩ := writer
    obtain rfl : len = 0 := by simpa using hlen
    exact ⟨.refl _ _, rfl, hcovers⟩

/-- A slot that is initialised holds its header, and the writer stands behind it. -/
theorem ends_initSlot [Crypto] {disk : Disk} {name : Text} {salt : Option Salt} :
    Ends (initSlot name salt) disk
      (fun opened disk' => Disk.OnlyIn name disk disk' ∧ opened.1 = ⟨name, HEADER_LEN⟩ ∧
        disk'.Covers opened.1)
      (fun _ disk' => Disk.OnlyIn name disk disk') := by
  unfold initSlot ioErr
  simp only [ends_bind, ends_mapError]
  refine Disk.ends_openSlot (fun opened file hslots hfile => ?_) fun kind disk' hslots => ?_
  · have honly := Disk.OnlyIn.created hslots
    have hcovers : opened.Covers ⟨name, file.bytes.length⟩ := ⟨file, hfile, le_rfl⟩
    have hempty := ends_clear hcovers
    refine hempty.mono ?_ fun _ _ h => honly.trans h
    rintro writer cleared ⟨hcleared, rfl, hcovers⟩
    have hcleared := honly.trans hcleared
    rw [ends_failIf]
    refine ⟨fun _ => hcleared, fun hname => ?_⟩
    cases salt with
    | none => exact hcleared
    | some salt =>
        have hlen := length_header (not_lt.mp hname) salt
        simp only [ends_bind, ends_mapError, ends_pure]
        refine Disk.ends_append (fun written hput _ => ?_) fun kind reached disk' hput => ?_
        · have hwritten : written.Covers ⟨name, 0 + (header name salt).length⟩ :=
            hcovers.put hput (le_max_right _ _)
          refine Disk.ends_flush (fun disk' hflush => ?_) fun kind disk' hflush => ?_
          · refine ⟨hcleared.trans ((Disk.OnlyIn.write hput).trans (.flushed hflush)), ?_,
              hwritten.flushed hflush⟩
            rw [hlen, Nat.zero_add]
          · exact hcleared.trans ((Disk.OnlyIn.write hput).trans (.of_slots_eq hflush))
        · exact hcleared.trans (.write hput)
  · rcases hslots with hslots | hslots
    · exact .of_slots_eq hslots
    · exact .created hslots

end Lait.Pack
