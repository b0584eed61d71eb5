import Lait.Fallible
import Lait.Schedule.Window

/-!
# Where the search for a base occurrence begins

The base occurrences are a sequence of instants, `StartsAt`, that is monotone but not evenly
spaced: a clock change moves single starts, a clamped month day moves others, and a skipped
day makes two coincide.  `approximateIndex` guesses a place in the sequence from elapsed
milliseconds, or from the distance in months, and steps back three places.

Two facts make the guess good.  It is never late: what starts before the guessed place
starts before the threshold (`approximateIndex_before`).  And it is never far off: a base
occurrence is found within eight places of the guess for its own start
(`approximateIndex_near`).  Both hold because a civil reading and an instant differ by an
offset, so that two readings drift apart by less than 52 hours, which is less than three days.
-/

namespace Lait.Schedule

open Lait (Text bind_eq_ok guard_eq_ok)

/-! ## Milliseconds -/

/-- The truncated milliseconds of an instant lie within a millisecond of it. -/
theorem Timestamp.asMillisecond_near (t : Timestamp) :
    t.asMillisecond * NANOS_PER_MILLISECOND < t.nanosecond + NANOS_PER_MILLISECOND ∧
      t.nanosecond < t.asMillisecond * NANOS_PER_MILLISECOND + NANOS_PER_MILLISECOND ∧
      (0 ≤ t.nanosecond → t.asMillisecond * NANOS_PER_MILLISECOND ≤ t.nanosecond) := by
  simp only [asMillisecond, NANOS_PER_MILLISECOND]
  rcases le_or_gt 0 t.nanosecond with h | h
  · rw [Int.tdiv_eq_ediv_of_nonneg h]
    omega
  · have hneg : t.nanosecond.tdiv 1000000 = -(-t.nanosecond / 1000000) := by
      rw [← Int.tdiv_eq_ediv_of_nonneg (by omega), Int.neg_tdiv, neg_neg]
    omega

/-- A later instant has no fewer milliseconds. -/
theorem Timestamp.asMillisecond_mono {t t' : Timestamp} (h : t.nanosecond ≤ t'.nanosecond) :
    t.asMillisecond ≤ t'.asMillisecond :=
  Int.tdiv_le_tdiv (by decide) h

variable [Jiff]

theorem timestampMs_eq_ok {z : Zoned Jiff.TimeZone} {s : ℕ} :
    timestampMs z = .ok s ↔ z.timestamp.asMillisecond = s := by
  unfold timestampMs
  constructor
  · intro h
    dsimp only at h
    split at h
    case isTrue hsign =>
      cases h
      exact (Int.toNat_of_nonneg hsign).symm
    case isFalse => cases h
  · intro h
    rw [h]
    simp

/-- Milliseconds succeed for what is no earlier than an instant they succeed for. -/
theorem timestampMs_of_le {z z' : Zoned Jiff.TimeZone} {s : ℕ} (hz : timestampMs z = .ok s)
    (h : z.timestamp.nanosecond ≤ z'.timestamp.nanosecond) :
    ∃ s', timestampMs z' = .ok s' ∧ s ≤ s' := by
  have hmono := Timestamp.asMillisecond_mono h
  rw [timestampMs_eq_ok.mp hz] at hmono
  refine ⟨z'.timestamp.asMillisecond.toNat, ?_, by omega⟩
  rw [timestampMs_eq_ok]
  omega

/-- The milliseconds of an instant can be turned back into an instant. -/
theorem fromMillisecond_of_timestampMs {z : Zoned Jiff.TimeZone} {s : ℕ}
    (hz : timestampMs z = .ok s) : s < 2 ^ 63 ∧ ∃ t, Timestamp.fromMillisecond s = .ok t := by
  rw [timestampMs_eq_ok] at hz
  obtain ⟨hlower, -, hnonneg⟩ := z.timestamp.asMillisecond_near
  have hupper := z.timestamp.upper
  rw [hz] at hlower hnonneg
  have hrange : TIMESTAMP_MIN ≤ (s : ℤ) * NANOS_PER_MILLISECOND ∧
      (s : ℤ) * NANOS_PER_MILLISECOND ≤ TIMESTAMP_MAX := by
    simp only [NANOS_PER_MILLISECOND, TIMESTAMP_MIN, TIMESTAMP_MAX] at *
    omega
  refine ⟨?_, ⟨_, dif_pos hrange⟩⟩
  have := hrange.2
  simp only [NANOS_PER_MILLISECOND, TIMESTAMP_MAX] at this
  omega

/-- What `fromMillisecond` answers is the instant of so many milliseconds. -/
theorem nanosecond_fromMillisecond {ms : ℤ} {t : Timestamp}
    (h : Timestamp.fromMillisecond ms = .ok t) : t.nanosecond = ms * NANOS_PER_MILLISECOND := by
  unfold Timestamp.fromMillisecond at h
  split at h
  case isTrue => cases h; rfl
  case isFalse => cases h

/-! ## The sequence of base occurrences -/

/-- The base occurrence at an index starts at so many milliseconds. -/
def StartsAt (start : Zoned Jiff.TimeZone) (recurrence : Recurrence) (index s : ℕ) : Prop :=
  ∃ z, occurrenceAt start recurrence index = .ok (some z) ∧ timestampMs z = .ok s

/-- The unit a recurrence advances by, if it does. -/
def Recurrence.unit : Recurrence → Option CalendarUnit
  | .none => Option.none
  | .daily => some .days
  | .weekly => some .weeks
  | .monthly => some .months

omit [Jiff] in
theorem Recurrence.unit_eq_none {recurrence : Recurrence} (h : recurrence.unit = Option.none) :
    recurrence = .none := by
  cases recurrence with
  | none => rfl
  | daily | weekly | monthly => cases h

theorem occurrenceAt_none_iff {start : Zoned Jiff.TimeZone} {index : ℕ} {z : Zoned Jiff.TimeZone} :
    occurrenceAt start .none index = .ok (some z) ↔
      index = 0 ∧ Jiff.checkedAdd start Jiff.newSpan = .ok z := by
  rcases Nat.eq_zero_or_pos index with rfl | hpos
  · simp [occurrenceAt, Recurrence.span, bind_eq_ok, within_eq_ok, pure, Except.pure]
  · simp [occurrenceAt, hpos, hpos.ne', pure, Except.pure]

/-- An occurrence of a recurrence is the start and so many units of it. -/
theorem occurrenceAt_iff_of_unit {start : Zoned Jiff.TimeZone} {recurrence : Recurrence}
    {unit : CalendarUnit} (hunit : recurrence.unit = some unit) {index : ℕ}
    {z : Zoned Jiff.TimeZone} :
    occurrenceAt start recurrence index = .ok (some z) ↔
      index < 2 ^ 63 ∧ addUnits unit start index = .ok z := by
  have hspan : recurrence.span index = Jiff.trySpan unit index := by
    cases recurrence <;> cases hunit <;> rfl
  have hne : recurrence ≠ .none := by
    rintro rfl
    cases hunit
  rw [occurrenceAt, if_neg (fun h => hne h.1), guard_eq_ok, not_le, addUnits, bind_eq_ok,
    bind_eq_ok]
  simp only [within_eq_ok, hspan, bind_eq_ok, pure, Except.pure, Except.ok.injEq,
    Option.some.injEq, exists_eq_right]

/-- A recurrence never runs out of occurrences: looking one up fails instead. -/
theorem occurrenceAt_ne_none {start : Zoned Jiff.TimeZone} {recurrence : Recurrence} {index : ℕ}
    (h : occurrenceAt start recurrence index = .ok none) : recurrence = .none ∧ 0 < index := by
  unfold occurrenceAt at h
  split at h
  case isTrue hnone => exact hnone
  case isFalse =>
    rw [guard_eq_ok, bind_eq_ok] at h
    obtain ⟨-, span, -, h⟩ := h
    rw [bind_eq_ok] at h
    obtain ⟨z, -, h⟩ := h
    cases h

theorem StartsAt.unique {start : Zoned Jiff.TimeZone} {recurrence : Recurrence} {index s s' : ℕ}
    (h : StartsAt start recurrence index s) (h' : StartsAt start recurrence index s') :
    s = s' := by
  obtain ⟨z, hz, hs⟩ := h
  obtain ⟨z', hz', hs'⟩ := h'
  obtain rfl : z = z' := by
    rw [hz] at hz'
    exact Option.some.inj (Except.ok.inj hz')
  exact Except.ok.inj (hs.symm.trans hs')

/-- **The base occurrences are monotone**: up to one that exists they all exist, and none of
them starts later. -/
theorem StartsAt.of_le (civil : Jiff.CivilTime) (monotone : Jiff.Monotone)
    {start : Zoned Jiff.TimeZone} {recurrence : Recurrence} {s₀ m n s : ℕ}
    (hstart : timestampMs start = .ok s₀) (h : StartsAt start recurrence n s) (hle : m ≤ n) :
    ∃ s', StartsAt start recurrence m s' ∧ s' ≤ s := by
  obtain ⟨z, hz, hs⟩ := h
  cases hunit : recurrence.unit with
  | none =>
      obtain rfl := Recurrence.unit_eq_none hunit
      obtain ⟨rfl, -⟩ := occurrenceAt_none_iff.mp hz
      obtain rfl : m = 0 := Nat.le_zero.mp hle
      exact ⟨s, ⟨z, hz, hs⟩, le_rfl⟩
  | some unit =>
      obtain ⟨hn, hadd⟩ := (occurrenceAt_iff_of_unit hunit).mp hz
      obtain ⟨z', hadd', hz'⟩ := monotone unit start m n z hle hadd
      obtain ⟨z₀, hadd₀, hz₀⟩ := monotone unit start 0 m z' m.zero_le hadd'
      -- the first is the start itself, so that none of them lies before the epoch
      have hfirst : addUnits unit start (0 : ℕ) = .ok start := by
        rw [addUnits, Nat.cast_zero, civil.trySpan_zero]
        exact civil.newSpan start
      obtain rfl : start = z₀ := Except.ok.inj (hfirst.symm.trans hadd₀)
      obtain ⟨s', hs', -⟩ := timestampMs_of_le hstart hz₀
      obtain ⟨s'', hs'', hle'⟩ := timestampMs_of_le hs' hz'
      obtain rfl : s'' = s := Except.ok.inj (hs''.symm.trans hs)
      exact ⟨s', ⟨z', (occurrenceAt_iff_of_unit hunit).mpr ⟨by omega, hadd'⟩, hs'⟩, hle'⟩

/-- Later places in the recurrence do not start earlier. -/
theorem StartsAt.mono (civil : Jiff.CivilTime) (monotone : Jiff.Monotone)
    {start : Zoned Jiff.TimeZone} {recurrence : Recurrence} {s₀ m n s s' : ℕ}
    (hstart : timestampMs start = .ok s₀) (h : StartsAt start recurrence m s)
    (h' : StartsAt start recurrence n s') (hle : m ≤ n) : s ≤ s' := by
  obtain ⟨s'', hm, hs''⟩ := h'.of_le civil monotone hstart hle
  rw [h.unique hm]
  exact hs''

/-! ## The guess -/

/-- What `approximateIndex` computes, when the threshold lies after the start. -/
theorem approximateIndex_eq_ok {start : Zoned Jiff.TimeZone} {recurrence : Recurrence}
    (hrecurs : recurrence ≠ .none) {s₀ threshold first : ℕ} (hstart : timestampMs start = .ok s₀) :
    approximateIndex start threshold recurrence = .ok first ↔
      threshold ≤ s₀ ∧ first = 0 ∨
      s₀ < threshold ∧ threshold < 2 ^ 63 ∧ ∃ t, Timestamp.fromMillisecond threshold = .ok t ∧
        first = (match recurrence with
          | .none => 0
          | .daily => (threshold - s₀) / 86400000
          | .weekly => (threshold - s₀) / 604800000
          | .monthly => (monthIndex (Zoned.datetime ⟨t, start.timeZone⟩) -
              monthIndex start.datetime).toNat) - 3 := by
  rw [approximateIndex, if_neg hrecurs, bind_eq_ok]
  simp only [hstart, Except.ok.injEq, exists_eq_left']
  split
  case isTrue hle =>
    simp [hle, pure, Except.pure, eq_comm]
  case isFalse hlt =>
    rw [guard_eq_ok, bind_eq_ok]
    simp only [within_eq_ok, not_le, hlt, false_and, false_or, not_le.mp hlt, true_and]
    refine and_congr_right fun _ => exists_congr fun t => and_congr_right fun _ => ?_
    simp only [pure, Except.pure, Except.ok.injEq]
    cases recurrence with
    | none => exact absurd rfl hrecurs
    | daily => exact eq_comm
    | weekly => exact eq_comm
    | monthly =>
        simp only [monthIndex]
        omega

/-- The civil reading of an instant. -/
theorem sinceEpoch_datetime (civil : Jiff.CivilTime) (z : Zoned Jiff.TimeZone) :
    ∃ offset : Offset, Jiff.sinceEpoch z.datetime = z.timestamp.nanosecond + offset.nanos :=
  ⟨_, civil.toDateTime _ _⟩

/-- So many days after the start an occurrence starts that many times 24 hours later, but for
the drift. -/
theorem elapsed_of_daily (civil : Jiff.CivilTime) {start z : Zoned Jiff.TimeZone} {n : ℕ}
    (h : addUnits .days start n = .ok z) :
    z.timestamp.nanosecond ≤ start.timestamp.nanosecond + n * 86400000000000 + 187198000000000 ∧
      start.timestamp.nanosecond + n * 86400000000000 ≤
        z.timestamp.nanosecond + 187198000000000 := by
  obtain ⟨offset, hoffset⟩ := civil.days start n z h
  obtain ⟨offset₀, hstart⟩ := sinceEpoch_datetime civil start
  have hdrift := Offset.drift offset₀ offset
  rw [hstart, NANOS_PER_DAY] at hoffset
  omega

/-- And so many weeks after it that many times seven days later. -/
theorem elapsed_of_weekly (civil : Jiff.CivilTime) {start z : Zoned Jiff.TimeZone} {n : ℕ}
    (h : addUnits .weeks start n = .ok z) :
    z.timestamp.nanosecond ≤ start.timestamp.nanosecond + n * 604800000000000 + 187198000000000 ∧
      start.timestamp.nanosecond + n * 604800000000000 ≤
        z.timestamp.nanosecond + 187198000000000 := by
  obtain ⟨offset, hoffset⟩ := civil.weeks start n z h
  obtain ⟨offset₀, hstart⟩ := sinceEpoch_datetime civil start
  have hdrift := Offset.drift offset₀ offset
  rw [hstart, NANOS_PER_DAY] at hoffset
  omega

/-- An instant whose month is at least four after that of an occurrence comes later, and one
whose month is at least two before it comes earlier by weeks. -/
theorem elapsed_of_monthly (civil : Jiff.CivilTime) {start z : Zoned Jiff.TimeZone} {n : ℕ}
    (h : addUnits .months start n = .ok z) (z' : Zoned Jiff.TimeZone) (k : ℕ) :
    (monthIndex start.datetime + n + (k + 1) ≤ monthIndex z'.datetime →
      z.timestamp.nanosecond + k * 2419200000000000 ≤
        z'.timestamp.nanosecond + 187198000000000) ∧
    (monthIndex z'.datetime + (k + 1) ≤ monthIndex start.datetime + n →
      z'.timestamp.nanosecond + k * 2419200000000000 ≤
        z.timestamp.nanosecond + 187198000000000) := by
  obtain ⟨offset, d, hoffset, hmonth⟩ := civil.months start n z h
  obtain ⟨offset', hz'⟩ := sinceEpoch_datetime civil z'
  have hdrift := Offset.drift offset' offset
  rw [← hmonth]
  constructor
  · intro hle
    have := civil.months_apart d z'.datetime k hle
    rw [NANOS_PER_DAY] at this
    omega
  · intro hle
    have := civil.months_apart z'.datetime d k hle
    rw [NANOS_PER_DAY] at this
    omega

/-- **The guess is never late**: what starts before the guessed place starts before the
threshold. -/
theorem approximateIndex_before (civil : Jiff.CivilTime) {start : Zoned Jiff.TimeZone}
    {recurrence : Recurrence} {s₀ threshold first index s : ℕ}
    (hstart : timestampMs start = .ok s₀)
    (hfirst : approximateIndex start threshold recurrence = .ok first) (hlt : index < first)
    (h : StartsAt start recurrence index s) : s < threshold := by
  have hrecurs : recurrence ≠ .none := by
    rintro rfl
    cases hfirst
    exact absurd hlt (Nat.not_lt_zero _)
  obtain ⟨-, rfl⟩ | ⟨-, -, t, ht, rfl⟩ := (approximateIndex_eq_ok hrecurs hstart).mp hfirst
  · exact absurd hlt (Nat.not_lt_zero _)
  obtain ⟨z, hz, hs⟩ := h
  obtain ⟨hs_lower, -, -⟩ := z.timestamp.asMillisecond_near
  obtain ⟨-, hs₀_upper, -⟩ := start.timestamp.asMillisecond_near
  rw [timestampMs_eq_ok.mp hs] at hs_lower
  rw [timestampMs_eq_ok.mp hstart] at hs₀_upper
  simp only [NANOS_PER_MILLISECOND] at hs_lower hs₀_upper
  cases recurrence with
  | none => exact absurd rfl hrecurs
  | daily =>
      obtain ⟨-, hadd⟩ := (occurrenceAt_iff_of_unit rfl).mp hz
      have helapsed := elapsed_of_daily civil hadd
      simp only at hlt
      omega
  | weekly =>
      obtain ⟨-, hadd⟩ := (occurrenceAt_iff_of_unit rfl).mp hz
      have helapsed := elapsed_of_weekly civil hadd
      simp only at hlt
      omega
  | monthly =>
      obtain ⟨-, hadd⟩ := (occurrenceAt_iff_of_unit rfl).mp hz
      have helapsed := (elapsed_of_monthly civil hadd ⟨t, start.timeZone⟩ 3).1
      have hnanos := nanosecond_fromMillisecond ht
      simp only [NANOS_PER_MILLISECOND] at hlt hnanos helapsed
      have := helapsed (by push_cast; omega)
      omega

/-- **The guess is never far off**: a base occurrence lies within eight places of the guess for
its own start. -/
theorem approximateIndex_near (civil : Jiff.CivilTime) {start : Zoned Jiff.TimeZone}
    {recurrence : Recurrence} {s₀ index s : ℕ} (hstart : timestampMs start = .ok s₀)
    (h : StartsAt start recurrence index s) :
    ∃ first, approximateIndex start s recurrence = .ok first ∧ first ≤ index ∧
      index < first + 8 := by
  obtain ⟨z, hz, hs⟩ := h
  by_cases hrecurs : recurrence = .none
  · subst hrecurs
    obtain ⟨rfl, -⟩ := occurrenceAt_none_iff.mp hz
    exact ⟨0, rfl, le_rfl, by decide⟩
  obtain ⟨hrange, t, ht⟩ := fromMillisecond_of_timestampMs hs
  obtain ⟨hs_lower, hs_upper, -⟩ := z.timestamp.asMillisecond_near
  obtain ⟨hs₀_lower, hs₀_upper, -⟩ := start.timestamp.asMillisecond_near
  rw [timestampMs_eq_ok.mp hs] at hs_lower hs_upper
  rw [timestampMs_eq_ok.mp hstart] at hs₀_lower hs₀_upper
  simp only [NANOS_PER_MILLISECOND] at hs_lower hs_upper hs₀_lower hs₀_upper
  have hnanos := nanosecond_fromMillisecond ht
  simp only [NANOS_PER_MILLISECOND] at hnanos
  rcases le_or_gt s s₀ with hle | hlt
  · refine ⟨0, (approximateIndex_eq_ok hrecurs hstart).mpr (.inl ⟨hle, rfl⟩), index.zero_le, ?_⟩
    cases recurrence with
    | none => exact absurd rfl hrecurs
    | daily =>
        obtain ⟨-, hadd⟩ := (occurrenceAt_iff_of_unit rfl).mp hz
        have helapsed := elapsed_of_daily civil hadd
        omega
    | weekly =>
        obtain ⟨-, hadd⟩ := (occurrenceAt_iff_of_unit rfl).mp hz
        have helapsed := elapsed_of_weekly civil hadd
        omega
    | monthly =>
        obtain ⟨-, hadd⟩ := (occurrenceAt_iff_of_unit rfl).mp hz
        have helapsed := (elapsed_of_monthly civil hadd start 1).2
        by_contra hfar
        have := helapsed (by push_cast; omega)
        push_cast at this
        omega
  · refine ⟨_, (approximateIndex_eq_ok hrecurs hstart).mpr (.inr ⟨hlt, hrange, t, ht, rfl⟩), ?_⟩
    cases recurrence with
    | none => exact absurd rfl hrecurs
    | daily =>
        obtain ⟨-, hadd⟩ := (occurrenceAt_iff_of_unit rfl).mp hz
        have helapsed := elapsed_of_daily civil hadd
        simp only
        omega
    | weekly =>
        obtain ⟨-, hadd⟩ := (occurrenceAt_iff_of_unit rfl).mp hz
        have helapsed := elapsed_of_weekly civil hadd
        simp only
        omega
    | monthly =>
        obtain ⟨-, hadd⟩ := (occurrenceAt_iff_of_unit rfl).mp hz
        have hlate := (elapsed_of_monthly civil hadd ⟨t, start.timeZone⟩ 1).1
        have hearly := (elapsed_of_monthly civil hadd ⟨t, start.timeZone⟩ 1).2
        simp only [hnanos] at hlate hearly ⊢
        push_cast at hlate hearly
        constructor
        · by_contra hover
          have := hlate (by omega)
          omega
        · by_contra hfar
          have := hearly (by omega)
          omega

/-! ## Membership in the sequence -/

/-- The loop of `isBaseOccurrence` answers yes only at a base occurrence. -/
theorem startsAt_of_isBaseOccurrenceFrom {start : Zoned Jiff.TimeZone} {recurrence : Recurrence}
    {candidate first : ℕ} : ∀ {tries offset : ℕ},
    isBaseOccurrenceFrom start recurrence candidate first tries offset = .ok true →
      ∃ index, StartsAt start recurrence index candidate
  | 0, _, h => by cases h
  | tries + 1, offset, h => by
      rw [isBaseOccurrenceFrom, bind_eq_ok] at h
      obtain ⟨index, -, h⟩ := h
      rw [bind_eq_ok] at h
      obtain ⟨found, hfound, h⟩ := h
      cases found with
      | none => cases h
      | some z =>
          rw [bind_eq_ok] at h
          obtain ⟨s, hs, h⟩ := h
          split at h
          case isTrue heq => exact ⟨index, z, hfound, heq ▸ hs⟩
          case isFalse =>
            split at h
            case isTrue => cases h
            case isFalse => exact startsAt_of_isBaseOccurrenceFrom h

/-- And it answers yes at one within its tries. -/
theorem isBaseOccurrenceFrom_of_startsAt (civil : Jiff.CivilTime) (monotone : Jiff.Monotone)
    {start : Zoned Jiff.TimeZone} {recurrence : Recurrence} {s₀ candidate first index : ℕ}
    (hstart : timestampMs start = .ok s₀) (h : StartsAt start recurrence index candidate)
    (hindex : index < 2 ^ 63) : ∀ {tries offset : ℕ}, first + offset ≤ index →
      index < first + offset + tries →
      isBaseOccurrenceFrom start recurrence candidate first tries offset = .ok true
  | 0, _, hle, hlt => absurd hlt (by omega)
  | tries + 1, offset, hle, hlt => by
      obtain ⟨s, ⟨z, hz, hs⟩, hle_s⟩ := h.of_le civil monotone hstart hle
      have hadd : checkedAdd "schedule recurrence index overflowed" first offset =
          .ok (first + offset) := if_pos (by omega)
      rw [isBaseOccurrenceFrom, bind_eq_ok]
      refine ⟨_, hadd, bind_eq_ok.mpr ⟨_, hz, bind_eq_ok.mpr ⟨s, hs, ?_⟩⟩⟩
      rcases hle_s.eq_or_lt with rfl | hlt_s
      · rw [if_pos rfl]
        rfl
      · rw [if_neg hlt_s.ne, if_neg (by omega)]
        have hne : first + offset ≠ index := by
          rintro rfl
          exact hlt_s.ne (StartsAt.unique ⟨z, hz, hs⟩ h)
        exact isBaseOccurrenceFrom_of_startsAt civil monotone hstart h hindex (by omega) (by omega)

/-- **`isBaseOccurrence` decides membership in the sequence.** -/
theorem isBaseOccurrence_iff (civil : Jiff.CivilTime) (monotone : Jiff.Monotone)
    {start : Zoned Jiff.TimeZone} {recurrence : Recurrence} {s₀ candidate : ℕ}
    (hstart : timestampMs start = .ok s₀) :
    isBaseOccurrence start recurrence candidate = .ok true ↔
      ∃ index, StartsAt start recurrence index candidate := by
  rw [isBaseOccurrence, bind_eq_ok]
  constructor
  · rintro ⟨first, -, h⟩
    exact startsAt_of_isBaseOccurrenceFrom h
  · rintro ⟨index, h⟩
    obtain ⟨first, hfirst, hle, hlt⟩ := approximateIndex_near civil hstart h
    have hindex : index < 2 ^ 63 := by
      obtain ⟨z, hz, -⟩ := h
      cases hunit : recurrence.unit with
      | none =>
          obtain rfl := Recurrence.unit_eq_none hunit
          obtain ⟨rfl, -⟩ := occurrenceAt_none_iff.mp hz
          decide
      | some unit => exact ((occurrenceAt_iff_of_unit hunit).mp hz).1
    exact ⟨first, hfirst, isBaseOccurrenceFrom_of_startsAt civil monotone hstart h hindex
      (by omega) (by omega)⟩

end Lait.Schedule
