import Lait.Schedule.Civil

/-!
# Recurring civil-time windows

A window is authored as a civil datetime in an explicit time zone, with a duration, a
recurrence and exceptions that cancel or move single occurrences.  `occurrencesBetween`
expands it over a range of wall-clock milliseconds, `evaluateAt` says whether it is active
at an instant and when that next changes.

A `u64` is a natural number; an addition the source checks fails from 2⁶⁴ on.
-/

namespace Lait.Schedule

open Lait (Text)

def MAX_WINDOW_DURATION_MS : ℕ := 366 * 24 * 60 * 60 * 1000

def MAX_EXCEPTIONS : ℕ := 256

def MAX_EXPANDED_OCCURRENCES : ℕ := 4096

def MAX_TIMEZONE_BYTES : ℕ := 128

def MAX_LOCAL_DATETIME_BYTES : ℕ := 40

inductive Recurrence
  | none
  | daily
  | weekly
  | monthly
  deriving DecidableEq

inductive OccurrenceException
  | cancel (occurrenceStartUnixMs : ℕ)
  | replace (occurrenceStartUnixMs : ℕ) (startLocal : Text) (durationMs : ℕ)

/-- The base occurrence an exception is about. -/
def OccurrenceException.occurrenceStartUnixMs : OccurrenceException → ℕ
  | .cancel occurrenceStartUnixMs => occurrenceStartUnixMs
  | .replace occurrenceStartUnixMs _ _ => occurrenceStartUnixMs

structure Window where
  /-- ISO-8601 civil datetime without an offset or zone annotation. -/
  startLocal : Text
  durationMs : ℕ
  recurrence : Recurrence
  /-- Inclusive limit on base occurrence starts. -/
  untilUnixMs : Option ℕ
  priority : ℤ
  enabled : Bool
  /-- IANA time-zone identifier. -/
  timezone : Text
  exceptions : List OccurrenceException

@[ext] structure Occurrence where
  /-- The base occurrence instant, which a replacement retains. -/
  scheduledStartUnixMs : ℕ
  startUnixMs : ℕ
  endUnixMs : ℕ
  priority : ℤ
  deriving DecidableEq

structure Invalid where
  message : Text
  deriving DecidableEq

def Invalid.new (message : String) : Invalid := ⟨Bytes.ofString message⟩

/-- The error of a call, under the schedule's own words. -/
def within {α : Type} (words : String) (result : Except Text α) : Except Invalid α :=
  result.mapError fun error => ⟨Bytes.ofString words ++ Bytes.ofString ": " ++ error⟩

theorem within_eq_ok {α : Type} {words : String} {result : Except Text α} {a : α} :
    within words result = .ok a ↔ result = .ok a := by
  cases result with
  | error e => simp [within, Except.mapError]
  | ok b => simp [within, Except.mapError]

/-- `u64::checked_add`, with the error of the caller. -/
def checkedAdd (message : String) (a b : ℕ) : Except Invalid ℕ :=
  if a + b < 2 ^ 64 then .ok (a + b) else .error (Invalid.new message)

theorem checkedAdd_eq_ok {message : String} {a b c : ℕ} (h : checkedAdd message a b = .ok c) :
    c = a + b := by
  unfold checkedAdd at h
  split at h
  case isTrue => exact (Except.ok.inj h).symm
  case isFalse => cases h

variable [Jiff]

/-! ## Reading what was authored -/

/-- `str::is_ascii`. -/
def isAscii (value : Text) : Bool := value.data.all (· < 128)

def timestampMs (value : Zoned Jiff.TimeZone) : Except Invalid ℕ :=
  let ms := value.timestamp.asMillisecond
  if 0 ≤ ms then .ok ms.toNat
  else .error (Invalid.new "schedule instants must be at or after the Unix epoch")

def parseLocalWithZone (value : Text) (zone : Jiff.TimeZone) :
    Except Invalid (Zoned Jiff.TimeZone) := do
  if value.length = 0 ∨ MAX_LOCAL_DATETIME_BYTES < value.length ∨ ¬ isAscii value then
    throw (Invalid.new "schedule local datetime is invalid")
  let localTime ← within "invalid schedule local datetime" (Jiff.parse value)
  within "resolve schedule local datetime" (Jiff.compatible zone localTime)

def parseLocal (value timezone : Text) : Except Invalid (Zoned Jiff.TimeZone) := do
  let zone ← within "unknown schedule timezone" (Jiff.getTimeZone timezone)
  parseLocalWithZone value zone

/-- `Window::start`: the first base occurrence, and the zone. -/
def Window.start (window : Window) : Except Invalid (Zoned Jiff.TimeZone × Jiff.TimeZone) := do
  if window.timezone.length = 0 ∨ MAX_TIMEZONE_BYTES < window.timezone.length ∨
      ¬ isAscii window.timezone then
    throw (Invalid.new "schedule timezone is invalid")
  let zone ← within "unknown schedule timezone" (Jiff.getTimeZone window.timezone)
  let start ← parseLocalWithZone window.startLocal zone
  let _ ← timestampMs start
  pure (start, zone)

/-! ## Base occurrences -/

/-- The span of a recurrence, as the number of its unit. -/
def Recurrence.span (recurrence : Recurrence) (index : ℤ) : Except Text Jiff.Span :=
  match recurrence with
  | .none => .ok Jiff.newSpan
  | .daily => Jiff.trySpan .days index
  | .weekly => Jiff.trySpan .weeks index
  | .monthly => Jiff.trySpan .months index

def occurrenceAt (start : Zoned Jiff.TimeZone) (recurrence : Recurrence) (index : ℕ) :
    Except Invalid (Option (Zoned Jiff.TimeZone)) := do
  if recurrence = .none ∧ 0 < index then
    pure none
  else
    if 2 ^ 63 ≤ index then
      throw (Invalid.new "schedule recurrence index is out of range")
    let span ← within "schedule recurrence is out of range" (recurrence.span index)
    let occurrence ← within "expand schedule recurrence" (Jiff.checkedAdd start span)
    pure (some occurrence)

/-- A place in the recurrence to begin the search at.  The differences of years and of months
are small numbers, whose arithmetic cannot overflow. -/
def approximateIndex (start : Zoned Jiff.TimeZone) (thresholdUnixMs : ℕ) (recurrence : Recurrence) :
    Except Invalid ℕ := do
  if recurrence = .none then
    pure 0
  else
    let startMs ← timestampMs start
    if thresholdUnixMs ≤ startMs then
      pure 0
    else
      if 2 ^ 63 ≤ thresholdUnixMs then
        throw (Invalid.new "schedule threshold is out of range")
      let timestamp ← within "schedule threshold is invalid"
        (Timestamp.fromMillisecond thresholdUnixMs)
      let threshold : Zoned Jiff.TimeZone := ⟨timestamp, start.timeZone⟩
      let approximate := match recurrence with
        | .none => 0
        | .daily => (thresholdUnixMs - startMs) / 86400000
        | .weekly => (thresholdUnixMs - startMs) / 604800000
        | .monthly =>
          let years := Jiff.year threshold.datetime - Jiff.year start.datetime
          let months := years * 12 + Jiff.month threshold.datetime - Jiff.month start.datetime
          (max months 0).toNat
      pure (approximate - 3)

/-- The loop of `is_base_occurrence`, with the tries it has left. -/
def isBaseOccurrenceFrom (start : Zoned Jiff.TimeZone) (recurrence : Recurrence)
    (candidateUnixMs first : ℕ) : ℕ → ℕ → Except Invalid Bool
  | 0, _ => .ok false
  | tries + 1, offset => do
    let index ← checkedAdd "schedule recurrence index overflowed" first offset
    match ← occurrenceAt start recurrence index with
    | none => pure false
    | some occurrence =>
      let occurrenceUnixMs ← timestampMs occurrence
      if occurrenceUnixMs = candidateUnixMs then pure true
      else if candidateUnixMs < occurrenceUnixMs then pure false
      else isBaseOccurrenceFrom start recurrence candidateUnixMs first tries (offset + 1)

def isBaseOccurrence (start : Zoned Jiff.TimeZone) (recurrence : Recurrence)
    (candidateUnixMs : ℕ) : Except Invalid Bool := do
  let first ← approximateIndex start candidateUnixMs recurrence
  isBaseOccurrenceFrom start recurrence candidateUnixMs first 8 0

/-! ## Validation -/

/-- The part of `validate` that looks at what an exception replaces an occurrence with. -/
def Window.validateReplacement (window : Window) : OccurrenceException → Except Invalid Unit
  | .cancel _ => pure ()
  | .replace _ startLocal durationMs => do
    if durationMs = 0 ∨ MAX_WINDOW_DURATION_MS < durationMs then
      throw (Invalid.new "replacement occurrence duration is out of bounds")
    let _ ← parseLocal startLocal window.timezone
    pure ()

/-- One exception of `validate`, after those whose identities were already seen. -/
def Window.validateException (window : Window) (start : Zoned Jiff.TimeZone)
    (identities : Finset ℕ) (exception : OccurrenceException) : Except Invalid (Finset ℕ) := do
  let identity := exception.occurrenceStartUnixMs
  if identity ∈ identities then
    throw (Invalid.new "schedule occurrence exception is duplicated")
  if window.untilUnixMs.any (· < identity) then
    throw (Invalid.new "schedule occurrence exception is after the recurrence limit")
  let isBase ← isBaseOccurrence start window.recurrence identity
  if isBase = false then
    throw (Invalid.new "schedule occurrence exception does not identify an occurrence")
  window.validateReplacement exception
  pure (insert identity identities)

def Window.validate (window : Window) : Except Invalid Unit := do
  let (start, _) ← window.start
  let startUnixMs ← timestampMs start
  if window.durationMs = 0 ∨ MAX_WINDOW_DURATION_MS < window.durationMs then
    throw (Invalid.new "schedule window duration is out of bounds")
  if MAX_EXCEPTIONS < window.exceptions.length then
    throw (Invalid.new "schedule window has too many exceptions")
  if window.untilUnixMs.any (· < startUnixMs) then
    throw (Invalid.new "schedule window ends before it starts")
  let _ ← window.exceptions.foldlM (window.validateException start) ∅
  pure ()

/-! ## Expansion -/

/-- The exception of an occurrence. -/
def Window.exception (window : Window) (scheduledStartUnixMs : ℕ) : Option OccurrenceException :=
  window.exceptions.find? fun exception =>
    exception.occurrenceStartUnixMs = scheduledStartUnixMs

def pushIfIntersecting (occurrences : List Occurrence)
    (scheduledStartUnixMs startUnixMs durationMs : ℕ) (priority : ℤ)
    (rangeStartUnixMs rangeEndUnixMs : ℕ) : Except Invalid (List Occurrence) := do
  let endUnixMs ← checkedAdd "schedule occurrence end overflowed" startUnixMs durationMs
  if startUnixMs < rangeEndUnixMs ∧ rangeStartUnixMs < endUnixMs then
    pure (occurrences ++ [⟨scheduledStartUnixMs, startUnixMs, endUnixMs, priority⟩])
  else
    pure occurrences

namespace Window

variable (window : Window) (rangeStartUnixMs rangeEndUnixMs : ℕ)

/-- An occurrence that an exception moved. -/
def pushReplacement (zone : Jiff.TimeZone) (occurrences : List Occurrence)
    (scheduledStartUnixMs : ℕ) (startLocal : Text) (durationMs : ℕ) :
    Except Invalid (List Occurrence) := do
  let replacement ← parseLocalWithZone startLocal zone
  let startUnixMs ← timestampMs replacement
  pushIfIntersecting occurrences scheduledStartUnixMs startUnixMs durationMs window.priority
    rangeStartUnixMs rangeEndUnixMs

/-- What the expansion makes of one base occurrence. -/
def pushScheduled (zone : Jiff.TimeZone) (occurrences : List Occurrence)
    (scheduledStartUnixMs : ℕ) : Except Invalid (List Occurrence) :=
  match window.exception scheduledStartUnixMs with
  | some (.replace _ startLocal durationMs) =>
    window.pushReplacement rangeStartUnixMs rangeEndUnixMs zone occurrences scheduledStartUnixMs
      startLocal durationMs
  | some (.cancel _) => pure occurrences
  | none =>
    pushIfIntersecting occurrences scheduledStartUnixMs scheduledStartUnixMs window.durationMs
      window.priority rangeStartUnixMs rangeEndUnixMs

/-- The loop of `occurrences_between` over the base occurrences, with the number it may still
expand. -/
def expandBase (start : Zoned Jiff.TimeZone) (zone : Jiff.TimeZone) :
    ℕ → ℕ → List Occurrence → Except Invalid (List Occurrence)
  | 0, _, _ => .error (Invalid.new "schedule expansion exceeds its bound")
  | left + 1, index, occurrences => do
    match ← occurrenceAt start window.recurrence index with
    | none => pure occurrences
    | some base =>
      let scheduledStart ← timestampMs base
      if window.untilUnixMs.any (· < scheduledStart) then
        pure occurrences
      else if rangeEndUnixMs ≤ scheduledStart then
        pure occurrences
      else
        let occurrences ← window.pushScheduled rangeStartUnixMs rangeEndUnixMs zone occurrences
          scheduledStart
        if window.recurrence = .none then
          pure occurrences
        else
          let index ← checkedAdd "schedule recurrence index overflowed" index 1
          expandBase start zone left index occurrences

/-- One exception of the second pass: a replacement that the first has not pushed. -/
def pushMoved (zone : Jiff.TimeZone) (occurrences : List Occurrence)
    (exception : OccurrenceException) : Except Invalid (List Occurrence) :=
  match exception with
  | .cancel _ => pure occurrences
  | .replace occurrenceStartUnixMs startLocal durationMs =>
    if occurrences.any fun occurrence =>
        occurrence.scheduledStartUnixMs = occurrenceStartUnixMs then
      pure occurrences
    else
      window.pushReplacement rangeStartUnixMs rangeEndUnixMs zone occurrences
        occurrenceStartUnixMs startLocal durationMs

end Window

/-- The key `occurrences_between` sorts by. -/
def Occurrence.sortKey (occurrence : Occurrence) : ℕ ×ₗ ℕ ×ₗ ℕ :=
  toLex (occurrence.startUnixMs,
    toLex (occurrence.endUnixMs, occurrence.scheduledStartUnixMs))

/-- `sort_by_key` and `dedup`, which removes the repetitions that stand next to each other. -/
def sortDedup (occurrences : List Occurrence) : List Occurrence :=
  (occurrences.insertionSort fun a b => a.sortKey ≤ b.sortKey).destutter (· ≠ ·)

def Window.occurrencesBetween (window : Window) (rangeStartUnixMs rangeEndUnixMs : ℕ) :
    Except Invalid (List Occurrence) := do
  window.validate
  if window.enabled = false ∨ rangeEndUnixMs ≤ rangeStartUnixMs then
    pure []
  else
    let (start, zone) ← window.start
    let threshold := rangeStartUnixMs - window.durationMs
    let firstIndex ← approximateIndex start threshold window.recurrence
    let occurrences ← window.expandBase rangeStartUnixMs rangeEndUnixMs start zone
      MAX_EXPANDED_OCCURRENCES firstIndex []
    let occurrences ← window.exceptions.foldlM
      (window.pushMoved rangeStartUnixMs rangeEndUnixMs zone) occurrences
    pure (sortDedup occurrences)

/-! ## Evaluation -/

/-- The longest duration an occurrence of the window can have. -/
def Window.longestDuration (window : Window) : ℕ :=
  (window.exceptions.filterMap fun
    | .replace _ _ durationMs => some durationMs
    | .cancel _ => none).foldl max window.durationMs

/-- The end of a replacement and one millisecond, where it is later than the end so far. -/
def extendRange (zone : Jiff.TimeZone) (rangeEnd : ℕ) :
    OccurrenceException → Except Invalid ℕ
  | .cancel _ => pure rangeEnd
  | .replace _ startLocal durationMs => do
    let replacement ← parseLocalWithZone startLocal zone
    let startUnixMs ← timestampMs replacement
    let value ← checkedAdd "schedule boundary range overflowed" startUnixMs durationMs
    let value ← checkedAdd "schedule boundary range overflowed" value 1
    pure (max rangeEnd value)

/-- How far `evaluate_at` looks ahead. -/
def Window.rangeEnd (window : Window) (nowUnixMs : ℕ) : Except Invalid ℕ := do
  if window.recurrence = .none then
    let (start, zone) ← window.start
    let startUnixMs ← timestampMs start
    let value ← checkedAdd "schedule boundary range overflowed" startUnixMs window.durationMs
    let value ← checkedAdd "schedule boundary range overflowed" value 1
    window.exceptions.foldlM (extendRange zone) value
  else
    checkedAdd "schedule boundary range overflowed" nowUnixMs MAX_WINDOW_DURATION_MS

/-- The earlier of a boundary and the next one known, if it is still to come. -/
def nextBoundary (nowUnixMs : ℕ) (next : Option ℕ) (boundary : ℕ) : Option ℕ :=
  if nowUnixMs < boundary then
    some (next.elim boundary fun current => min current boundary)
  else next

/-- One occurrence in the loop of `evaluate_at`. -/
def evaluateOccurrence (nowUnixMs : ℕ) (found : Bool × Option ℕ) (occurrence : Occurrence) :
    Bool × Option ℕ :=
  (found.1 || (occurrence.startUnixMs ≤ nowUnixMs && nowUnixMs < occurrence.endUnixMs),
    [occurrence.startUnixMs, occurrence.endUnixMs].foldl (nextBoundary nowUnixMs) found.2)

/-- `Window::evaluate_at`: whether the window is active, and when that can next change. -/
def Window.evaluateAt (window : Window) (nowUnixMs : ℕ) : Except Invalid (Bool × Option ℕ) := do
  window.validate
  if window.enabled = false then
    pure (false, none)
  else
    let rangeStart := nowUnixMs - window.longestDuration
    let rangeEnd ← window.rangeEnd nowUnixMs
    let occurrences ← window.occurrencesBetween rangeStart rangeEnd
    pure (occurrences.foldl (evaluateOccurrence nowUnixMs) (false, none))

end Lait.Schedule
