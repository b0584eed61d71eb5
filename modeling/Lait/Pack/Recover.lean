import Lait.Pack.Store

/-!
# Recovery

A seal is not a commit because it stands in a slot: between flushes the storage
stack persists blocks in any order, so a crash can keep a seal and lose what it
names.  Recovery looks for the newest seal from the end of a slot backwards, walks
its chain to a checkpoint or to the first seal, hashes every object the seal adds,
and steps back one seal where any of it fails.  Of several slots the one whose
seal covers the highest sequence wins, generation breaking the tie.

Recovery reads one file after another as it stands; its reads do not fail by
themselves.
-/

namespace Lait.Pack

open Stateful
open Ceremony (objectContentHash)
open Bytes (leValue)

/-- How far back the newest-seal scan reads per step. -/
@[irreducible] def SCAN_WINDOW : ℕ := 65536

/-- What recovery concludes about one slot. -/
structure SlotState where
  len : ℕ
  table : Table
  sequence : ℕ
  generation : ℕ
  lastSeal : SealLink
  sealsSinceCheckpoint : ℕ
  provenance : Option Provenance
  manifest : Bytes

structure RecoveredSlot where
  name : Text
  writer : Writer
  key : Bytes
  state : Option SlotState
  /-- A first seal was found whose checkpoint does not hold. -/
  tornBirth : Bool

/-- A slot, with what `recover_state` found in it. -/
def RecoveredSlot.holding (name : Text) (writer : Writer) (key : Bytes)
    (found : Option SlotState × Bool) : RecoveredSlot :=
  ⟨name, writer, key, found.1, found.2⟩

@[simp] theorem RecoveredSlot.holding_state (name : Text) (writer : Writer) (key : Bytes)
    (found : Option SlotState × Bool) : (holding name writer key found).state = found.1 := rfl

section Recover

variable [KeyedHash] [Postcard Seal]

/-! ## Seals -/

/-- `read_seal`: where it stands, what it says, where it ends. -/
def readSeal (image : Image) (key : Bytes) (len offset : ℕ) : Option (ℕ × Seal × ℕ) := do
  let (payload, finish) ← readRecord image key len offset SEAL_MAGIC
  let pack ← Postcard.fromBytes payload
  pure (offset, pack, finish)

theorem readSeal_eq_some {image : Image} {key : Bytes} {len offset offset' finish : ℕ}
    {pack : Seal} :
    readSeal image key len offset = some (offset', pack, finish) ↔ offset' = offset ∧
      ∃ payload, readRecord image key len offset SEAL_MAGIC = some (payload, finish) ∧
        Postcard.fromBytes payload = some pack := by
  unfold readSeal
  simp only [Option.bind_eq_bind, Option.bind_eq_some_iff, Option.pure_def, Option.some.injEq,
    Prod.exists, Prod.mk.injEq]
  constructor
  · rintro ⟨payload, finish', hrecord, pack', hpack, rfl, rfl, rfl⟩
    exact ⟨rfl, payload, hrecord, hpack⟩
  · rintro ⟨rfl, payload, hrecord, hpack⟩
    exact ⟨payload, finish, hrecord, pack, hpack, rfl, rfl, rfl⟩

/-- A seal ends within its slot. -/
theorem finish_of_readSeal {image : Image} {key : Bytes} {len offset offset' finish : ℕ}
    {pack : Seal} (h : readSeal image key len offset = some (offset', pack, finish)) :
    finish ≤ len := by
  obtain ⟨-, payload, hrecord, -⟩ := readSeal_eq_some.mp h
  exact ((readRecord_eq_some rfl).mp hrecord).2.2.1

/-- Scan one window for the last seal that ends its magic at `position` or before. -/
def scanWindow (image : Image) (key : Bytes) (len windowStart : ℕ) (bytes : List UInt8) :
    ℕ → Option (ℕ × Seal × ℕ)
  | 0 => none
  | position + 1 =>
      if position + 1 < SEAL_MAGIC.length then none
      else
        let start := position + 1 - SEAL_MAGIC.length
        let found :=
          if (bytes.drop start).take SEAL_MAGIC.length = SEAL_MAGIC then
            readSeal image key len (windowStart + start)
          else none
        match found with
        | some found => some found
        | none => scanWindow image key len windowStart bytes position

/-- Scan window after window, each overlapping the one above it by the width of a
magic less one.  A window begins below the one before, so `fuel` bounds them. -/
def scanWindows (image : Image) (key : Bytes) (len : ℕ) : ℕ → ℕ → Option (ℕ × Seal × ℕ)
  | 0, _ => none
  | fuel + 1, windowEnd => do
      let windowStart := max (windowEnd - SCAN_WINDOW) HEADER_LEN
      guard (windowStart ≤ windowEnd)
      let size := windowEnd - windowStart
      let bytes ← readImage image windowStart size
      match scanWindow image key len windowStart bytes size with
      | some found => pure found
      | none =>
          if windowStart = HEADER_LEN then none
          else scanWindows image key len fuel (windowStart + (SEAL_MAGIC.length - 1))

/-- `newest_seal`. -/
def newestSeal (image : Image) (key : Bytes) (len : ℕ) : Option (ℕ × Seal × ℕ) :=
  scanWindows image key len (len + 1) len

theorem exists_readSeal_of_scanWindow {image : Image} {key : Bytes} {len windowStart : ℕ}
    {bytes : List UInt8} {position : ℕ} {found : ℕ × Seal × ℕ}
    (h : scanWindow image key len windowStart bytes position = some found) :
    ∃ offset, readSeal image key len offset = some found := by
  induction position with
  | zero => cases h
  | succ position ih =>
      unfold scanWindow at h
      dsimp only at h
      split at h
      case isTrue => cases h
      case isFalse =>
          split at h
          case h_1 found' hfound =>
              cases h
              split at hfound
              case isTrue => exact ⟨_, hfound⟩
              case isFalse => cases hfound
          case h_2 => exact ih h

theorem scanWindows_succ (image : Image) (key : Bytes) (len fuel windowEnd : ℕ) :
    scanWindows image key len (fuel + 1) windowEnd = (do
      let windowStart := max (windowEnd - SCAN_WINDOW) HEADER_LEN
      guard (windowStart ≤ windowEnd)
      let bytes ← readImage image windowStart (windowEnd - windowStart)
      match scanWindow image key len windowStart bytes (windowEnd - windowStart) with
      | some found => pure found
      | none =>
          if windowStart = HEADER_LEN then none
          else scanWindows image key len fuel (windowStart + (SEAL_MAGIC.length - 1))) := by
  rw [scanWindows]

theorem exists_readSeal_of_scanWindows {image : Image} {key : Bytes} {len fuel windowEnd : ℕ}
    {found : ℕ × Seal × ℕ} (h : scanWindows image key len fuel windowEnd = some found) :
    ∃ offset, readSeal image key len offset = some found := by
  induction fuel generalizing windowEnd with
  | zero => cases h
  | succ fuel ih =>
      rw [scanWindows_succ] at h
      simp only [Option.bind_eq_bind, Option.bind_eq_some_iff] at h
      obtain ⟨_, -, bytes, -, h⟩ := h
      split at h
      case h_1 found' hfound =>
          cases h
          exact exists_readSeal_of_scanWindow hfound
      case h_2 =>
          split at h
          case isTrue => cases h
          case isFalse => exact ih h

/-! ## Chains -/

/-- The walk of `verify_chain`, back to a checkpoint or to the first seal: the base,
the deltas newest first, and whether a checkpoint ended it.  The sequence falls at
every step, so as much fuel as the sequence is enough. -/
def walkChain (image : Image) (key : Bytes) (len : ℕ) :
    ℕ → ℕ → Option SealLink → Option (List TableEntry) → List (List TableEntry) →
      Option (List TableEntry × List (List TableEntry) × Bool)
  | _, _, _, some base, deltas => some (base, deltas, true)
  | _, _, none, none, deltas => some ([], deltas, false)
  | 0, _, some _, none, _ => none
  | fuel + 1, sequence, some current, none, deltas => do
      let (_, prior, _) ← readSeal image key len current.offset
      let (payload, _) ← readRecord image key len current.offset SEAL_MAGIC
      guard (recordCheck key SEAL_MAGIC current.offset payload = current.check)
      guard (prior.sequence < sequence)
      walkChain image key len fuel prior.sequence prior.prev prior.checkpoint
        (deltas ++ [prior.added])

/-- Put entries into a table. -/
def applyEntries (table : Table) (entries : List TableEntry) : Table :=
  entries.foldl (fun table entry => table.insert entry.hash (entry.offset, entry.len)) table

/-- `verify_chain`: the table the chain describes, and the seals since its last
checkpoint. -/
def verifyChain (image : Image) (key : Bytes) (len : ℕ) (pack : Seal) : Option (Table × ℕ) := do
  let (base, deltas, fromCheckpoint) ←
    walkChain image key len pack.sequence pack.sequence pack.prev pack.checkpoint [pack.added]
  let table := deltas.reverse.foldl applyEntries (applyEntries ∅ base)
  pure (table, if fromCheckpoint then deltas.length - 1 else deltas.length)

variable [Crypto]

/-- `delta_holds`: every object named hashes to its address. -/
def deltaHolds (image : Image) (added : List TableEntry) : Bool :=
  added.all fun entry =>
    match readImage image entry.offset entry.len with
    | some bytes => objectContentHash ⟨bytes⟩ = entry.hash
    | none => false

/-- `birth_holds`: a first seal has no chain behind it, so its checkpoint is hashed. -/
def birthHolds (image : Image) (pack : Seal) : Bool :=
  pack.prev.isSome || match pack.checkpoint with
    | some entries => deltaHolds image entries
    | none => true

/-! ## Slots -/

/-- The loop of `recover_state`.  In a slot this code wrote every link points back,
so there are no more candidates than bytes, and `fuel` does not run out. -/
def recoverFrom (image : Image) (key : Bytes) (len : ℕ) :
    ℕ → Option (ℕ × Seal × ℕ) → Bool → Option SlotState × Bool
  | 0, _, tornBirth => (none, tornBirth)
  | _ + 1, none, tornBirth => (none, tornBirth)
  | fuel + 1, some (offset, pack, finish), tornBirth =>
      let prior := pack.prev.bind fun link => readSeal image key len link.offset
      match verifyChain image key len pack with
      | none => recoverFrom image key len fuel prior tornBirth
      | some (table, since) =>
          if deltaHolds image pack.added && birthHolds image pack then
            match readRecord image key len offset SEAL_MAGIC with
            | none => (none, tornBirth)
            | some (payload, _) =>
                (some {
                  len := finish
                  table
                  sequence := pack.sequence
                  generation := pack.generation
                  lastSeal := ⟨offset, recordCheck key SEAL_MAGIC offset payload⟩
                  sealsSinceCheckpoint := since
                  provenance := pack.provenance
                  manifest := pack.manifest }, tornBirth)
          else
            recoverFrom image key len fuel prior
              (tornBirth || (pack.prev.isNone && pack.checkpoint.isSome))

/-- The seal that recovery settles on ends within its slot. -/
theorem len_of_recoverFrom {image : Image} {key : Bytes} {len fuel : ℕ}
    {candidate : Option (ℕ × Seal × ℕ)} {tornBirth : Bool} {state : SlotState}
    (hcandidate : ∀ found, candidate = some found → ∃ offset,
      readSeal image key len offset = some found)
    (h : (recoverFrom image key len fuel candidate tornBirth).1 = some state) :
    state.len ≤ len := by
  induction fuel generalizing candidate tornBirth with
  | zero => cases h
  | succ fuel ih =>
      cases candidate with
      | none => cases h
      | some found =>
          obtain ⟨offset, pack, finish⟩ := found
          have hprior : ∀ found, (pack.prev.bind fun link =>
              readSeal image key len link.offset) = some found →
                ∃ offset, readSeal image key len offset = some found := by
            intro found hfound
            obtain ⟨link, -, hread⟩ := Option.bind_eq_some_iff.mp hfound
            exact ⟨link.offset, hread⟩
          unfold recoverFrom at h
          dsimp only at h
          split at h
          case h_1 => exact ih hprior h
          case h_2 =>
              split at h
              case isTrue =>
                  split at h
                  case h_1 => cases h
                  case h_2 =>
                      cases h
                      obtain ⟨at', hread⟩ := hcandidate _ rfl
                      exact finish_of_readSeal hread
              case isFalse => exact ih hprior h

/-- `recover_state`. -/
def recoverState (image : Image) (key : Bytes) (len : ℕ) : Option SlotState × Bool :=
  recoverFrom image key len (len + 1) (newestSeal image key len) false

theorem len_of_recoverState {image : Image} {key : Bytes} {len : ℕ} {state : SlotState}
    (h : (recoverState image key len).1 = some state) : state.len ≤ len := by
  unfold recoverState at h
  refine len_of_recoverFrom (fun found hfound => ?_) h
  exact exists_readSeal_of_scanWindows hfound

/-- The name a header carries. -/
def headerName (image : Image) : Option Text :=
  let rest := (image.take HEADER_LEN).drop (SLOT_MAGIC.length + SALT_LEN)
  let nameLen := leValue (rest.take 2)
  let name := rest.drop 2
  if nameLen ≤ name.length then some ⟨name.take nameLen⟩ else none

/-- The key of a slot, from the salt in its header. -/
def headerKey (image : Image) : Bytes :=
  Crypto.deriveKey RECORD_KEY_CONTEXT ⟨(image.drop SLOT_MAGIC.length).take SALT_LEN⟩

/-- `recover_slot`: short slots, foreign bytes and another slot's history hold no
commit. -/
def recoverSlot (name : Text) (writer : Writer) (image : Image) : RecoveredSlot :=
  if writer.len < HEADER_LEN ∨ image.take SLOT_MAGIC.length ≠ SLOT_MAGIC ∨
      headerName image ≠ some name then
    .holding name writer ⟨List.replicate 32 0⟩ (none, false)
  else .holding name writer (headerKey image) (recoverState image (headerKey image) writer.len)

@[simp] theorem recoverSlot_name (name : Text) (writer : Writer) (image : Image) :
    (recoverSlot name writer image).name = name := by
  unfold recoverSlot
  split <;> rfl

@[simp] theorem recoverSlot_writer (name : Text) (writer : Writer) (image : Image) :
    (recoverSlot name writer image).writer = writer := by
  unfold recoverSlot
  split <;> rfl

/-- What is recovered ends within the slot. -/
theorem len_of_recoverSlot {name : Text} {writer : Writer} {image : Image} {state : SlotState}
    (h : (recoverSlot name writer image).state = some state) : state.len ≤ writer.len := by
  unfold recoverSlot at h
  rw [apply_ite RecoveredSlot.state, RecoveredSlot.holding_state, RecoveredSlot.holding_state,
    Option.ite_none_left_eq_some] at h
  exact len_of_recoverState h.2

end Recover

end Lait.Pack
