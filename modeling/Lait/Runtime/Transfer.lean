import Lait.OrderedMap
import Lait.Runtime.ContentCursor

/-!
# Transfers

A registry keeps the transfers in flight under their operation, and the last of those that
are over.  `begin` refuses an operation that is in flight, and a transfer past the ceiling;
`advance` moves a transfer to a state, coalescing while only its byte count moves, and a
state that ends a transfer takes it out of the ones in flight.

What an `advance` ends is `ended`, and what it leaves is read off the two (`get_advance`,
`completed_advance`): an end is never coalesced, because what was last published of a
transfer in flight is not an end (`Catalog.Running`).

An `Instant` is in nanoseconds.  A watch channel is not modelled beyond the version it is sent.
-/

namespace Lait.Runtime.Transfer

/-- The ladder a transfer climbs, and the three ways off it. -/
inductive TransferState
  | queued
  | connecting
  | transferring (bytes : ℕ) (total : Option ℕ)
  | verifying
  | available
  | cancelled
  | failed
  | evicted
  deriving DecidableEq

namespace TransferState

/-- Whether the transfer is over, whichever way it went. -/
def isTerminal : TransferState → Bool
  | .available => true
  | .cancelled => true
  | .failed => true
  | .evicted => true
  | _ => false

/-- `std::mem::discriminant`. -/
def discriminant : TransferState → ℕ
  | .queued => 0
  | .connecting => 1
  | .transferring _ _ => 2
  | .verifying => 3
  | .available => 4
  | .cancelled => 5
  | .failed => 6
  | .evicted => 7

/-- Two states of one discriminant end a transfer alike. -/
theorem isTerminal_congr {state other : TransferState}
    (h : state.discriminant = other.discriminant) : state.isTerminal = other.isTerminal := by
  cases state <;> cases other <;> first | rfl | cases h

end TransferState

/-- One transfer, as a watcher sees it. -/
structure TransferProgress where
  operation : Bytes
  content : Bytes
  state : TransferState
  deriving DecidableEq

/-- Why a transfer could not be registered. -/
inductive Refusal
  | duplicateOperation
  | tooManyActive
  deriving DecidableEq

def MAX_ACTIVE : ℕ := 32

def MAX_COMPLETED : ℕ := 64

/-- Half a second. -/
def PROGRESS_TICK : ℕ := 500000000

structure Entry where
  progress : TransferProgress
  publishedAt : ℕ
  publishedState : TransferState
  deriving DecidableEq

structure Catalog where
  active : BTreeMap Bytes Entry
  completed : List TransferProgress
  version : ℕ

namespace Catalog

/-- A registry as it is made. -/
def new : Catalog where
  active := ∅
  completed := []
  version := 0

def bump (self : Catalog) : Catalog :=
  { self with version := min (self.version + 1) Cursor.U64_MAX }

/-- What is registered of a transfer that begins. -/
def registered (operation content : Bytes) (now : ℕ) : Entry where
  progress := { operation, content, state := .queued }
  publishedAt := now
  publishedState := .queued

/-- Register a transfer. -/
def begin (self : Catalog) (operation content : Bytes) (now : ℕ) : Except Refusal Catalog :=
  if self.active.contains operation then .error .duplicateOperation
  else if MAX_ACTIVE ≤ self.active.size then .error .tooManyActive
  else .ok (bump { self with active := self.active.insert operation (registered operation content now) })

/-- The bounded tail, with one more end. -/
def remember (completed : List TransferProgress) (finished : TransferProgress) :
    List TransferProgress :=
  (if MAX_COMPLETED ≤ completed.length then completed.tail else completed) ++ [finished]

/-- Whether an update is held back: only the byte count moved, and not long ago. -/
def coalesced (entry : Entry) (state : TransferState) (now : ℕ) : Bool :=
  state.discriminant = entry.publishedState.discriminant &&
    decide (now - entry.publishedAt < PROGRESS_TICK)

/-- Advance a transfer. -/
def advance (self : Catalog) (operation : Bytes) (state : TransferState) (now : ℕ) : Catalog :=
  match self.active[operation]? with
  | none => self
  | some entry =>
      let entry := { entry with progress := { entry.progress with state } }
      if coalesced entry state now then
        { self with active := self.active.insert operation entry }
      else if state.isTerminal then
        bump {
          self with
          active := self.active.erase operation
          completed := remember self.completed entry.progress }
      else
        let entry := { entry with publishedAt := now, publishedState := state }
        bump { self with active := self.active.insert operation entry }

/-- The operations that still hold staging and leases. -/
def liveOperations (self : Catalog) : List Bytes := self.active.keys

/-! ## What the two do -/

/-- The transfer an advance ends. -/
def ended (self : Catalog) (operation : Bytes) (state : TransferState) : Option TransferProgress :=
  if state.isTerminal then
    self.active[operation]?.map fun entry => { entry.progress with state }
  else none

/-- A catalog of transfers in flight: each is kept under its operation, and what was last
published of it is not an end. -/
structure Running (catalog : Catalog) : Prop where
  keyed : ∀ (operation : Bytes) (entry : Entry), catalog.active[operation]? = some entry →
    entry.progress.operation = operation
  published : ∀ (operation : Bytes) (entry : Entry), catalog.active[operation]? = some entry →
    entry.publishedState.isTerminal = false

variable {self after : Catalog} {operation other content : Bytes} {state : TransferState} {now : ℕ}

theorem mem_liveOperations :
    operation ∈ self.liveOperations ↔ self.active[operation]? ≠ none := by
  rw [liveOperations, BTreeMap.mem_keys_iff, Option.ne_none_iff_exists']

/-- What a transfer that begins found and leaves. -/
theorem begin_eq_ok (h : self.begin operation content now = .ok after) :
    self.active[operation]? = none ∧ self.active.size < MAX_ACTIVE ∧
      after.active = self.active.insert operation (registered operation content now) ∧
      after.completed = self.completed := by
  unfold begin at h
  split at h
  next => cases h
  next hnew =>
    split at h
    next => cases h
    next hroom =>
      cases h
      refine ⟨?_, not_le.mp hroom, rfl, rfl⟩
      rw [BTreeMap.contains_iff, ← Option.ne_none_iff_exists', not_not] at hnew
      exact hnew

/-- A transfer that begins is one more in flight. -/
theorem Running.begin (h : self.Running) (hbegin : self.begin operation content now = .ok after) :
    after.Running := by
  obtain ⟨-, -, hactive, -⟩ := begin_eq_ok hbegin
  constructor
  · intro other entry hget
    rw [hactive, BTreeMap.get_insert] at hget
    split at hget
    next heq =>
      cases hget
      exact heq
    next => exact h.keyed other entry hget
  · intro other entry hget
    rw [hactive, BTreeMap.get_insert] at hget
    split at hget
    next heq =>
      cases hget
      rfl
    next => exact h.published other entry hget

/-- An end is not coalesced. -/
theorem Running.coalesced_eq_false (h : self.Running) {entry : Entry}
    (hget : self.active[operation]? = some entry) (hterminal : state.isTerminal = true) (now : ℕ) :
    coalesced entry state now = false := by
  unfold coalesced
  rw [Bool.and_eq_false_iff]
  left
  rw [decide_eq_false_iff_not]
  intro hsame
  have hstate := TransferState.isTerminal_congr hsame
  rw [hterminal, h.published operation entry hget] at hstate
  cases hstate

/-- **What an advance does** to a transfer in flight: it ends it and takes it out, or it keeps it
in flight. -/
theorem Running.advance_cases (h : self.Running) (operation : Bytes) (state : TransferState)
    (now : ℕ) :
    (self.active[operation]? = none ∧ self.advance operation state now = self) ∨
      (∃ entry, self.active[operation]? = some entry ∧ state.isTerminal = true ∧
        (self.advance operation state now).active = self.active.erase operation ∧
        (self.advance operation state now).completed =
          remember self.completed { entry.progress with state }) ∨
      ∃ entry kept, self.active[operation]? = some entry ∧ state.isTerminal = false ∧
        (self.advance operation state now).active = self.active.insert operation kept ∧
        (self.advance operation state now).completed = self.completed ∧
        kept.progress.operation = entry.progress.operation ∧
        kept.publishedState.isTerminal = false := by
  unfold advance
  cases hget : self.active[operation]? with
  | none => exact Or.inl ⟨rfl, rfl⟩
  | some entry =>
      right
      dsimp only
      cases hterminal : state.isTerminal with
      | true =>
          left
          rw [if_neg]
          · exact ⟨entry, rfl, rfl, rfl, rfl⟩
          · intro hcoalesced
            have hfalse := h.coalesced_eq_false hget hterminal now
            cases hcoalesced.symm.trans hfalse
      | false =>
          right
          split
          next =>
            exact ⟨entry, _, rfl, rfl, rfl, rfl, rfl, h.published operation entry hget⟩
          next => exact ⟨entry, _, rfl, rfl, rfl, rfl, rfl, hterminal⟩

/-- An advance leaves the other transfers as they are. -/
theorem Running.advance_other (h : self.Running) (state : TransferState) (now : ℕ)
    (hne : other ≠ operation) :
    (self.advance operation state now).active[other]? = self.active[other]? := by
  rcases h.advance_cases operation state now with
    ⟨-, hsame⟩ | ⟨entry, -, -, hactive, -⟩ | ⟨entry, kept, -, -, hactive, -⟩
  · rw [hsame]
  · rw [hactive, BTreeMap.get_erase, if_neg hne.symm]
  · rw [hactive, BTreeMap.get_insert, if_neg hne.symm]

/-- A transfer is in flight after an advance if it was before, and did not end. -/
theorem Running.advance_same (h : self.Running) (operation : Bytes) (state : TransferState)
    (now : ℕ) :
    (self.advance operation state now).active[operation]? ≠ none ↔
      self.active[operation]? ≠ none ∧ state.isTerminal = false := by
  rcases h.advance_cases operation state now with
    ⟨hnone, hsame⟩ | ⟨entry, hget, hterminal, hactive, -⟩ |
      ⟨entry, kept, hget, hterminal, hactive, -⟩
  · rw [hsame, hnone]
    simp
  · rw [hactive, BTreeMap.get_erase, if_pos rfl, hget, hterminal]
    simp
  · rw [hactive, BTreeMap.get_insert, if_pos rfl, hget, hterminal]
    simp

/-- **An end is recorded** when a transfer is taken out of the ones in flight, and only then. -/
theorem Running.completed_advance (h : self.Running) (operation : Bytes) (state : TransferState)
    (now : ℕ) :
    (self.advance operation state now).completed =
      (self.ended operation state).elim self.completed (remember self.completed) := by
  unfold ended
  rcases h.advance_cases operation state now with
    ⟨hnone, hsame⟩ | ⟨entry, hget, hterminal, -, hcompleted⟩ |
      ⟨entry, kept, hget, hterminal, -, hcompleted, -⟩
  · rw [hsame, hnone, Option.map_none, ite_self]
    rfl
  · rw [hcompleted, if_pos hterminal, hget]
    rfl
  · rw [hcompleted, hterminal]
    rfl

/-- What an advance ends was in flight, and ends in the state advanced to. -/
theorem Running.ended_eq_some (h : self.Running) {finished : TransferProgress} :
    self.ended operation state = some finished →
      finished.operation = operation ∧ self.active[operation]? ≠ none ∧
        finished.state.isTerminal = true := by
  unfold ended
  split
  next hterminal =>
    intro hended
    obtain ⟨entry, hget, rfl⟩ := Option.map_eq_some_iff.mp hended
    exact ⟨h.keyed operation entry hget, hget ▸ Option.some_ne_none entry, hterminal⟩
  next =>
    intro hended
    cases hended

/-- An advance that ends nothing. -/
theorem ended_eq_none :
    self.ended operation state = none ↔
      self.active[operation]? = none ∨ state.isTerminal = false := by
  unfold ended
  cases state.isTerminal with
  | true => simp
  | false => simp

/-- An advance leaves the catalog one of transfers in flight. -/
theorem Running.advance (h : self.Running) (operation : Bytes) (state : TransferState) (now : ℕ) :
    (self.advance operation state now).Running := by
  rcases h.advance_cases operation state now with
    ⟨-, hsame⟩ | ⟨entry, -, -, hactive, -⟩ | ⟨entry, kept, hentry, -, hactive, -, hkeyed, hpublished⟩
  · rw [hsame]
    exact h
  · refine ⟨fun other found hget => ?_, fun other found hget => ?_⟩
    · rw [hactive, BTreeMap.get_erase] at hget
      split at hget
      next => cases hget
      next => exact h.keyed other found hget
    · rw [hactive, BTreeMap.get_erase] at hget
      split at hget
      next => cases hget
      next => exact h.published other found hget
  · refine ⟨fun other found hget => ?_, fun other found hget => ?_⟩
    · rw [hactive, BTreeMap.get_insert] at hget
      split at hget
      next heq =>
        cases hget
        rw [hkeyed, h.keyed operation entry hentry]
        exact heq
      next => exact h.keyed other found hget
    · rw [hactive, BTreeMap.get_insert] at hget
      split at hget
      next =>
        cases hget
        exact hpublished
      next => exact h.published other found hget

/-- An advance puts no transfer in flight. -/
theorem Running.size_advance_le (h : self.Running) (operation : Bytes) (state : TransferState)
    (now : ℕ) : (self.advance operation state now).active.size ≤ self.active.size := by
  rcases h.advance_cases operation state now with
    ⟨-, hsame⟩ | ⟨entry, -, -, hactive, -⟩ | ⟨entry, kept, hentry, -, hactive, -⟩
  · rw [hsame]
  · rw [hactive]
    exact Std.ExtTreeMap.size_erase_le
  · have hmem : operation ∈ self.active := by
      rw [Std.ExtTreeMap.mem_iff_isSome_getElem?, hentry]
      rfl
    rw [hactive, Std.ExtTreeMap.size_insert, if_pos (Std.ExtTreeMap.contains_iff_mem.mpr hmem)]

/-! ## The tail of the ends -/

/-- The ends that are remembered of all there were. -/
def tailOf (ends : List TransferProgress) : List TransferProgress :=
  ends.drop (ends.length - MAX_COMPLETED)

theorem length_tailOf_le (ends : List TransferProgress) : (tailOf ends).length ≤ MAX_COMPLETED := by
  rw [tailOf, List.length_drop]
  omega

/-- Remembering one more end. -/
theorem remember_tailOf (ends : List TransferProgress) (finished : TransferProgress) :
    remember (tailOf ends) finished = tailOf (ends ++ [finished]) := by
  unfold remember tailOf
  rw [List.length_append, List.length_singleton]
  by_cases hfull : MAX_COMPLETED ≤ ends.length
  · have hlength : (ends.drop (ends.length - MAX_COMPLETED)).length = MAX_COMPLETED := by
      rw [List.length_drop]
      omega
    rw [if_pos hlength.ge, List.tail_drop, List.drop_append_of_le_length (by
      have : 0 < MAX_COMPLETED := by decide
      omega)]
    have hnext : ends.length + 1 - MAX_COMPLETED = ends.length - MAX_COMPLETED + 1 := by omega
    rw [hnext]
  · have hlength : (ends.drop (ends.length - MAX_COMPLETED)).length = ends.length := by
      rw [List.length_drop]
      omega
    have hzero : ends.length - MAX_COMPLETED = 0 := by omega
    have hzero' : ends.length + 1 - MAX_COMPLETED = 0 := by omega
    rw [hlength, if_neg hfull, hzero, hzero', List.drop_zero, List.drop_zero]

end Catalog

end Lait.Runtime.Transfer
