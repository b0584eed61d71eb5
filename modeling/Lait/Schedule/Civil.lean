import Lait.Bytes

/-!
# What the schedule takes from the calendar library

A schedule window is authored as a civil datetime and a zone name.  Parsing one, looking
the other up and adding days, weeks or months in civil time are the work of the `jiff`
crate.  None of it is modelled: `Jiff` lists the calls as parameters, so that a result
holds for every time-zone database.

What the results rely on is stated as predicates on the parameter:

* `Jiff.CivilTime` — a day or a week is that many hours on the civil time line, a month
  moves the month by one, and an instant and its civil reading differ by an offset.
* `Jiff.Monotone` — adding fewer units succeeds where adding more does, and comes no later.

Nothing is assumed about the length of a local day.  It need not lie between 23 and 25
hours: the dateline has been moved across inhabited islands, which skipped a day.  What
bounds the drift between civil time and elapsed time is the range of `Offset`, which is a
property of the type.
-/

namespace Lait.Schedule

open Lait (Text)

def NANOS_PER_SECOND : ℤ := 1000000000

def NANOS_PER_MILLISECOND : ℤ := 1000000

def NANOS_PER_DAY : ℤ := 86400000000000

/-- `tz::Offset`: how far a clock is ahead of UTC, at most 25:59:59 either way. -/
structure Offset where
  seconds : ℤ
  lower : -93599 ≤ seconds
  upper : seconds ≤ 93599

/-- The offset in nanoseconds. -/
def Offset.nanos (offset : Offset) : ℤ := offset.seconds * NANOS_PER_SECOND

/-- Whatever offsets a clock is set to, it drifts from elapsed time by less than 52 hours. -/
theorem Offset.drift (a b : Offset) :
    -187198000000000 ≤ a.nanos - b.nanos ∧ a.nanos - b.nanos ≤ 187198000000000 := by
  have ha := a.lower
  have ha' := a.upper
  have hb := b.lower
  have hb' := b.upper
  simp only [Offset.nanos, NANOS_PER_SECOND]
  omega

/-- `Timestamp::MIN`, in nanoseconds. -/
def TIMESTAMP_MIN : ℤ := -377705023201000000000

/-- `Timestamp::MAX`, in nanoseconds. -/
def TIMESTAMP_MAX : ℤ := 253402207200999999999

/-- `Timestamp`: an instant within the supported range. -/
@[ext] structure Timestamp where
  nanosecond : ℤ
  lower : TIMESTAMP_MIN ≤ nanosecond
  upper : nanosecond ≤ TIMESTAMP_MAX

/-- `Timestamp::as_millisecond`: the fraction of a millisecond is truncated. -/
def Timestamp.asMillisecond (t : Timestamp) : ℤ := t.nanosecond.tdiv NANOS_PER_MILLISECOND

/-- `Zoned`: an instant read in a time zone. -/
structure Zoned (TimeZone : Type) where
  timestamp : Timestamp
  timeZone : TimeZone

/-- The units a recurrence advances by. -/
inductive CalendarUnit
  | days
  | weeks
  | months
  deriving DecidableEq

/-- The calls of the `jiff` crate; an error is its text. -/
class Jiff where
  /-- `tz::TimeZone` -/
  TimeZone : Type
  /-- `civil::DateTime` -/
  DateTime : Type
  /-- `Span` -/
  Span : Type
  /-- `TimeZone::get` -/
  getTimeZone : Text → Except Text TimeZone
  /-- `str::parse::<civil::DateTime>` -/
  parse : Text → Except Text DateTime
  /-- `zone.to_ambiguous_zoned(local).compatible()` -/
  compatible : TimeZone → DateTime → Except Text (Zoned TimeZone)
  /-- `TimeZone::to_offset` -/
  toOffset : TimeZone → Timestamp → Offset
  /-- `Offset::to_datetime` -/
  toDateTime : Offset → Timestamp → DateTime
  /-- `DateTime::duration_since` 1970-01-01T00:00:00, in nanoseconds. -/
  sinceEpoch : DateTime → ℤ
  /-- `DateTime::year` -/
  year : DateTime → ℤ
  /-- `DateTime::month`, from 1. -/
  month : DateTime → ℤ
  /-- `Span::new` -/
  newSpan : Span
  /-- `Span::try_days`, `Span::try_weeks` and `Span::try_months` of a new span. -/
  trySpan : CalendarUnit → ℤ → Except Text Span
  /-- `Zoned::checked_add` -/
  checkedAdd : Zoned TimeZone → Span → Except Text (Zoned TimeZone)
  /-- What `Timestamp::from_millisecond` says of a number out of range. -/
  outOfRange : ℤ → Text

section Calls

variable [Jiff]

/-- `Timestamp::from_millisecond` -/
def Timestamp.fromMillisecond (ms : ℤ) : Except Text Timestamp :=
  if h : TIMESTAMP_MIN ≤ ms * NANOS_PER_MILLISECOND ∧ ms * NANOS_PER_MILLISECOND ≤ TIMESTAMP_MAX then
    .ok ⟨ms * NANOS_PER_MILLISECOND, h.1, h.2⟩
  else .error (Jiff.outOfRange ms)

/-- `Zoned::datetime`: the civil reading of the instant in its zone. -/
def Zoned.datetime (z : Zoned Jiff.TimeZone) : Jiff.DateTime :=
  Jiff.toDateTime (Jiff.toOffset z.timeZone z.timestamp) z.timestamp

/-- The months from year zero to the month of a civil datetime. -/
def monthIndex (d : Jiff.DateTime) : ℤ := Jiff.year d * 12 + Jiff.month d

/-- Adding so many units of the calendar. -/
def addUnits (unit : CalendarUnit) (z : Zoned Jiff.TimeZone) (n : ℤ) :
    Except Text (Zoned Jiff.TimeZone) := do
  Jiff.checkedAdd z (← Jiff.trySpan unit n)

/-! ## What is assumed of the library -/

/-- The civil time line: where adding days, weeks and months leads, up to the offset of the
place it leads to. -/
structure Jiff.CivilTime : Prop where
  /-- A civil reading is the instant and the offset. -/
  toDateTime : ∀ offset (t : Timestamp),
    Jiff.sinceEpoch (Jiff.toDateTime offset t) = t.nanosecond + offset.nanos
  /-- No units of the calendar are the empty span. -/
  trySpan_zero : ∀ unit, Jiff.trySpan unit 0 = .ok Jiff.newSpan
  /-- The empty span leads nowhere. -/
  newSpan : ∀ z : Zoned Jiff.TimeZone, Jiff.checkedAdd z Jiff.newSpan = .ok z
  /-- A day is 24 hours of civil time. -/
  days : ∀ z (n : ℕ) z', addUnits .days z n = .ok z' → ∃ offset : Offset,
    z'.timestamp.nanosecond + offset.nanos = Jiff.sinceEpoch z.datetime + n * NANOS_PER_DAY
  /-- A week is seven of them. -/
  weeks : ∀ z (n : ℕ) z', addUnits .weeks z n = .ok z' → ∃ offset : Offset,
    z'.timestamp.nanosecond + offset.nanos = Jiff.sinceEpoch z.datetime + n * (7 * NANOS_PER_DAY)
  /-- Adding months leads to a civil datetime in the month so many later. -/
  months : ∀ z (n : ℕ) z', addUnits .months z n = .ok z' → ∃ (offset : Offset) (d : Jiff.DateTime),
    z'.timestamp.nanosecond + offset.nanos = Jiff.sinceEpoch d ∧
      monthIndex d = monthIndex z.datetime + n
  /-- Between two months lie the months between them, of at least 28 days each. -/
  months_apart : ∀ (d d' : Jiff.DateTime) (k : ℕ), monthIndex d + (k + 1) ≤ monthIndex d' →
    Jiff.sinceEpoch d + k * (28 * NANOS_PER_DAY) ≤ Jiff.sinceEpoch d'

/-- Adding units in civil time is monotone in their number. -/
def Jiff.Monotone : Prop :=
  ∀ unit (z : Zoned Jiff.TimeZone) (m n : ℕ) z', m ≤ n → addUnits unit z n = .ok z' →
    ∃ z'', addUnits unit z m = .ok z'' ∧ z''.timestamp.nanosecond ≤ z'.timestamp.nanosecond

end Calls

/-! ## A calendar to evaluate with -/

/-- An instant so many nanoseconds after the epoch. -/
def instantAt (nanosecond : ℤ) : Except Text (Zoned Unit) :=
  if h : TIMESTAMP_MIN ≤ nanosecond ∧ nanosecond ≤ TIMESTAMP_MAX then
    .ok ⟨⟨nanosecond, h.1, h.2⟩, ()⟩
  else .error (Bytes.ofString "out of range")

/-- UTC, with a civil datetime as its nanoseconds after the epoch.  The parser knows the two
datetimes the samples are about, and the months have thirty days each, which the samples do
not use. -/
@[reducible] def utcCalendar : Jiff where
  TimeZone := Unit
  DateTime := ℤ
  Span := ℤ
  getTimeZone _ := .ok ()
  parse value :=
    if value = Bytes.ofString "2030-01-01T00:00:00" then .ok 1893456000000000000
    else if value = Bytes.ofString "2030-01-02T12:00:00" then .ok 1893585600000000000
    else .error (Bytes.ofString "not a datetime")
  compatible _ d := instantAt d
  toOffset _ _ := ⟨0, by decide, by decide⟩
  toDateTime offset t := t.nanosecond + offset.nanos
  sinceEpoch d := d
  year d := 1970 + d / 31104000000000000
  month d := d % 31104000000000000 / 2592000000000000 + 1
  newSpan := 0
  trySpan
    | .days, n => .ok (n * 86400000000000)
    | .weeks, n => .ok (n * 604800000000000)
    | .months, n => .ok (n * 2592000000000000)
  checkedAdd z span := instantAt (z.timestamp.nanosecond + span)
  outOfRange _ := Bytes.ofString "out of range"

theorem nanosecond_of_instantAt {n : ℤ} {z : Zoned Unit} (h : instantAt n = .ok z) :
    z.timestamp.nanosecond = n := by
  unfold instantAt at h
  split at h
  case isTrue => cases h; rfl
  case isFalse => cases h

/-- UTC reads an instant as it is. -/
theorem utcCalendar_datetime (z : Zoned Unit) :
    @Zoned.datetime utcCalendar z = z.timestamp.nanosecond := by
  show z.timestamp.nanosecond + 0 * NANOS_PER_SECOND = _
  rw [zero_mul, add_zero]

theorem utcCalendar_monthIndex (d : ℤ) : @monthIndex utcCalendar d =
    (1970 + d / 31104000000000000) * 12 + (d % 31104000000000000 / 2592000000000000 + 1) := rfl

theorem utcCalendar_civilTime : @Jiff.CivilTime utcCalendar := by
  refine @Jiff.CivilTime.mk utcCalendar (fun _ _ => rfl) ?_ ?_ ?_ ?_ ?_ ?_
  · intro unit
    cases unit <;> exact congrArg Except.ok (zero_mul _)
  · rintro ⟨⟨n, hlower, hupper⟩, ⟨⟩⟩
    show instantAt (n + 0) = _
    rw [add_zero, instantAt, dif_pos ⟨hlower, hupper⟩]
  · intro z n z' h
    refine ⟨⟨0, by decide, by decide⟩, ?_⟩
    rw [utcCalendar_datetime, nanosecond_of_instantAt h, Offset.nanos, zero_mul, add_zero]
    rfl
  · intro z n z' h
    refine ⟨⟨0, by decide, by decide⟩, ?_⟩
    rw [utcCalendar_datetime, nanosecond_of_instantAt h, Offset.nanos, zero_mul, add_zero]
    rfl
  · intro z n z' h
    refine ⟨⟨0, by decide, by decide⟩, z'.timestamp.nanosecond, ?_, ?_⟩
    · rw [Offset.nanos, zero_mul, add_zero]
      rfl
    · rw [utcCalendar_monthIndex, utcCalendar_datetime, utcCalendar_monthIndex,
        nanosecond_of_instantAt h]
      omega
  · intro (d : ℤ) (d' : ℤ) k h
    rw [utcCalendar_monthIndex, utcCalendar_monthIndex] at h
    show d + (k : ℤ) * (28 * 86400000000000) ≤ d'
    omega

theorem utcCalendar_monotone : @Jiff.Monotone utcCalendar := by
  intro unit z m n z' hle h
  obtain ⟨length, hlength, hspan⟩ : ∃ length : ℤ, 0 ≤ length ∧
      ∀ n : ℤ, utcCalendar.trySpan unit n = .ok (n * length) := by
    cases unit with
    | days => exact ⟨_, by decide, fun _ => rfl⟩
    | weeks => exact ⟨_, by decide, fun _ => rfl⟩
    | months => exact ⟨_, by decide, fun _ => rfl⟩
  have hadd : ∀ n : ℤ, @addUnits utcCalendar unit z n =
      instantAt (z.timestamp.nanosecond + n * length) := by
    intro n
    show (utcCalendar.trySpan unit n >>= fun span => utcCalendar.checkedAdd z span) = _
    rw [hspan]
    rfl
  rw [hadd] at h
  have hz' := nanosecond_of_instantAt h
  have hmul : (m : ℤ) * length ≤ n * length :=
    mul_le_mul_of_nonneg_right (by exact_mod_cast hle) hlength
  have hpos : 0 ≤ (m : ℤ) * length := mul_nonneg m.cast_nonneg hlength
  have hrange : TIMESTAMP_MIN ≤ z.timestamp.nanosecond + m * length ∧
      z.timestamp.nanosecond + m * length ≤ TIMESTAMP_MAX := by
    have hlower := z.timestamp.lower
    have hupper := z'.timestamp.upper
    omega
  refine ⟨_, (hadd m).trans (dif_pos hrange), ?_⟩
  show z.timestamp.nanosecond + m * length ≤ _
  omega

end Lait.Schedule
