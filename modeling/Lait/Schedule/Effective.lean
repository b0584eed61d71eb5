import Lait.Schedule.Index

/-!
# The occurrences a window is about

`Window.Effective` says which occurrences a window has, with no range and no search: the
base starts that no exception names, and the replacements.  `validate_iff` says what a window
that passes `validate` is like; what the expansion needs of it is that an exception is the
only one of its base start (`Window.exception_eq_some_iff`), so that an effective occurrence is
known by the base start it keeps (`Window.effective_iff`).
-/

namespace Lait.Schedule

open Lait (Text bind_eq_ok guard_eq_ok check_eq_ok foldlM_cons_eq_ok)

variable [Jiff]

namespace Window

variable (window : Window)

/-- A base occurrence start: a civil-time multiple of the recurrence from the authored start,
no later than the limit. -/
def IsBaseStart (s : ℕ) : Prop :=
  (∃ start zone index, window.start = .ok (start, zone) ∧
    StartsAt start window.recurrence index s) ∧ ∀ limit ∈ window.untilUnixMs, s ≤ limit

/-- Where a replacement starts. -/
def ReplacementStart (startLocal : Text) (s : ℕ) : Prop :=
  ∃ replacement, parseLocal startLocal window.timezone = .ok replacement ∧
    timestampMs replacement = .ok s

/-- The effective occurrences: each base start without exception, for the duration of the
window, and each replacement at its own start, for its own duration. -/
inductive Effective : Occurrence → Prop
  | base {s : ℕ} (isBase : window.IsBaseStart s)
      (free : ∀ exception ∈ window.exceptions, exception.occurrenceStartUnixMs ≠ s) :
      Effective ⟨s, s, s + window.durationMs, window.priority⟩
  | replacement {s : ℕ} {startLocal : Text} {durationMs start : ℕ}
      (replaces : OccurrenceException.replace s startLocal durationMs ∈ window.exceptions)
      (starts : window.ReplacementStart startLocal start) :
      Effective ⟨s, start, start + durationMs, window.priority⟩

end Window

/-- An occurrence intersects the half-open range. -/
def Occurrence.Intersects (o : Occurrence) (rangeStart rangeEnd : ℕ) : Prop :=
  o.startUnixMs < rangeEnd ∧ rangeStart < o.endUnixMs

/-! ## What passes validation -/

omit [Jiff] in
theorem any_lt_eq_false_iff {limit : Option ℕ} {s : ℕ} :
    limit.any (· < s) = false ↔ ∀ u ∈ limit, s ≤ u := by
  cases limit with
  | none => simp
  | some u => simp

/-- What `validate` checks of an exception beside its not being a second one. -/
structure Window.Accepts (window : Window) (start : Zoned Jiff.TimeZone)
    (exception : OccurrenceException) : Prop where
  limit : ∀ u ∈ window.untilUnixMs, exception.occurrenceStartUnixMs ≤ u
  isBase : isBaseOccurrence start window.recurrence exception.occurrenceStartUnixMs = .ok true
  replacement : window.validateReplacement exception = .ok ()

theorem validateException_eq_ok {window : Window} {start : Zoned Jiff.TimeZone}
    {identities identities' : Finset ℕ} {exception : OccurrenceException} :
    window.validateException start identities exception = .ok identities' ↔
      exception.occurrenceStartUnixMs ∉ identities ∧ window.Accepts start exception ∧
        identities' = insert exception.occurrenceStartUnixMs identities := by
  rw [Window.validateException]
  simp only [guard_eq_ok, bind_eq_ok, Bool.not_eq_true, any_lt_eq_false_iff, pure, Except.pure,
    Except.ok.injEq, Bool.not_eq_false]
  constructor
  · rintro ⟨hfresh, hlimit, isBase, hisBase, rfl, ⟨⟩, hreplacement, rfl⟩
    exact ⟨hfresh, ⟨hlimit, hisBase, hreplacement⟩, rfl⟩
  · rintro ⟨hfresh, ⟨hlimit, hisBase, hreplacement⟩, rfl⟩
    exact ⟨hfresh, hlimit, true, hisBase, rfl, (), hreplacement, rfl⟩

/-- The exceptions pass when they are about different base occurrences and each is accepted. -/
theorem exists_foldlM_validateException {window : Window} {start : Zoned Jiff.TimeZone}
    {exceptions : List OccurrenceException} {identities : Finset ℕ} :
    (∃ identities', exceptions.foldlM (window.validateException start) identities =
        .ok identities') ↔
      (exceptions.map OccurrenceException.occurrenceStartUnixMs).Nodup ∧
        ∀ exception ∈ exceptions, exception.occurrenceStartUnixMs ∉ identities ∧
          window.Accepts start exception := by
  induction exceptions generalizing identities with
  | nil => simp [pure, Except.pure]
  | cons exception exceptions ih =>
      simp only [foldlM_cons_eq_ok, validateException_eq_ok]
      rw [List.map_cons, List.nodup_cons, List.forall_mem_cons]
      constructor
      · rintro ⟨identities', _, ⟨hfresh, haccepts, rfl⟩, hrest⟩
        obtain ⟨hnodup, hall⟩ := ih.mp ⟨identities', hrest⟩
        refine ⟨⟨?_, hnodup⟩, ⟨hfresh, haccepts⟩, ?_⟩
        · intro hmem
          obtain ⟨other, hother, heq⟩ := List.mem_map.mp hmem
          exact (hall other hother).1 (heq ▸ Finset.mem_insert_self _ _)
        · intro other hother
          exact ⟨fun hmem => (hall other hother).1 (Finset.mem_insert_of_mem hmem),
            (hall other hother).2⟩
      · rintro ⟨⟨hnotMem, hnodup⟩, ⟨hfresh, haccepts⟩, hall⟩
        have hrest : ∀ other ∈ exceptions, other.occurrenceStartUnixMs ∉
            insert exception.occurrenceStartUnixMs identities ∧ window.Accepts start other := by
          intro other hother
          refine ⟨fun hmem => ?_, (hall other hother).2⟩
          rcases Finset.mem_insert.mp hmem with heq | hmem
          · exact hnotMem (List.mem_map.mpr ⟨other, hother, heq⟩)
          · exact (hall other hother).1 hmem
        obtain ⟨identities', h⟩ := ih.mpr ⟨hnodup, hrest⟩
        exact ⟨identities', _, ⟨hfresh, haccepts, rfl⟩, h⟩

/-- What a window that passes `validate` is like, apart from its exceptions. -/
structure Window.Headed (window : Window) (start : Zoned Jiff.TimeZone) (zone : Jiff.TimeZone)
    (startUnixMs : ℕ) : Prop where
  reads : window.start = .ok (start, zone)
  startMs : timestampMs start = .ok startUnixMs
  duration : window.durationMs ≠ 0 ∧ window.durationMs ≤ MAX_WINDOW_DURATION_MS
  limit : ∀ u ∈ window.untilUnixMs, startUnixMs ≤ u

/-- **What passes validation**: a window with a start, a duration and a limit in bounds, whose
exceptions are not too many, name different base occurrences and are each accepted. -/
theorem validate_iff {window : Window} :
    window.validate = .ok () ↔ ∃ start zone s₀, window.Headed start zone s₀ ∧
      window.exceptions.length ≤ MAX_EXCEPTIONS ∧
      (window.exceptions.map OccurrenceException.occurrenceStartUnixMs).Nodup ∧
      ∀ exception ∈ window.exceptions, window.Accepts start exception := by
  rw [Window.validate, bind_eq_ok]
  simp only [Prod.exists, bind_eq_ok, guard_eq_ok, not_or, not_lt, Bool.not_eq_true,
    any_lt_eq_false_iff]
  constructor
  · rintro ⟨start, zone, hstart, s₀, hs₀, hduration, hlength, hlimit, identities, hall, -⟩
    obtain ⟨hnodup, hall⟩ := exists_foldlM_validateException.mp ⟨identities, hall⟩
    exact ⟨start, zone, s₀, ⟨hstart, hs₀, hduration, hlimit⟩, hlength, hnodup,
      fun exception hexception => (hall exception hexception).2⟩
  · rintro ⟨start, zone, s₀, ⟨hstart, hs₀, hduration, hlimit⟩, hlength, hnodup, hall⟩
    obtain ⟨identities, hfold⟩ := exists_foldlM_validateException.mpr ⟨hnodup,
      fun exception hexception => ⟨Finset.notMem_empty _, hall exception hexception⟩⟩
    exact ⟨start, zone, hstart, s₀, hs₀, hduration, hlength, hlimit, identities, hfold, rfl⟩

/-- A replacement that passes lasts for some time. -/
theorem Window.Accepts.duration_pos {window : Window} {start : Zoned Jiff.TimeZone} {s : ℕ}
    {startLocal : Text} {durationMs : ℕ}
    (h : window.Accepts start (.replace s startLocal durationMs)) :
    0 < durationMs ∧ durationMs ≤ MAX_WINDOW_DURATION_MS := by
  have hreplacement := h.replacement
  rw [Window.validateReplacement, guard_eq_ok, not_or, not_lt] at hreplacement
  exact ⟨Nat.pos_of_ne_zero hreplacement.1.1, hreplacement.1.2⟩

/-! ## Known by the base start -/

section Known

variable {window : Window}

omit [Jiff] in
/-- The exception that is found for a base start is about it. -/
theorem Window.occurrenceStartUnixMs_of_exception {s : ℕ} {exception : OccurrenceException}
    (h : window.exception s = some exception) :
    exception ∈ window.exceptions ∧ exception.occurrenceStartUnixMs = s := by
  have hfound := List.find?_some h
  exact ⟨List.mem_of_find?_eq_some h, of_decide_eq_true hfound⟩

omit [Jiff] in
/-- The exception of a base start is the only one. -/
theorem Window.exception_eq_some_iff
    (hnodup : (window.exceptions.map OccurrenceException.occurrenceStartUnixMs).Nodup) {s : ℕ}
    {exception : OccurrenceException} :
    window.exception s = some exception ↔
      exception ∈ window.exceptions ∧ exception.occurrenceStartUnixMs = s := by
  refine ⟨Window.occurrenceStartUnixMs_of_exception, ?_⟩
  rintro ⟨hmem, hs⟩
  have hfound : (window.exception s).isSome := by
    rw [Window.exception, List.find?_isSome]
    exact ⟨exception, hmem, decide_eq_true hs⟩
  obtain ⟨other, hother⟩ := Option.isSome_iff_exists.mp hfound
  obtain ⟨hmem', hs'⟩ := Window.occurrenceStartUnixMs_of_exception hother
  rw [hother, List.inj_on_of_nodup_map hnodup hmem' hmem (hs'.trans hs.symm)]

omit [Jiff] in
theorem Window.exception_eq_none_iff {s : ℕ} :
    window.exception s = none ↔
      ∀ exception ∈ window.exceptions, exception.occurrenceStartUnixMs ≠ s := by
  rw [Window.exception, List.find?_eq_none]
  simp only [decide_eq_true_eq, ne_eq]

/-- **An effective occurrence is known by its base start**, through the exception of it if there
is one. -/
theorem Window.effective_iff
    (hnodup : (window.exceptions.map OccurrenceException.occurrenceStartUnixMs).Nodup)
    {o : Occurrence} :
    window.Effective o ↔ match window.exception o.scheduledStartUnixMs with
      | none => window.IsBaseStart o.scheduledStartUnixMs ∧
          o = ⟨o.scheduledStartUnixMs, o.scheduledStartUnixMs,
            o.scheduledStartUnixMs + window.durationMs, window.priority⟩
      | some (.cancel _) => False
      | some (.replace _ startLocal durationMs) => ∃ start,
          window.ReplacementStart startLocal start ∧
            o = ⟨o.scheduledStartUnixMs, start, start + durationMs, window.priority⟩ := by
  constructor
  · intro h
    cases h with
    | @base s isBase free =>
        have hnone : window.exception s = none := Window.exception_eq_none_iff.mpr free
        dsimp only
        rw [hnone]
        exact ⟨isBase, rfl⟩
    | @replacement s startLocal durationMs start replaces starts =>
        have hsome : window.exception s = some (.replace s startLocal durationMs) :=
          (Window.exception_eq_some_iff hnodup).mpr ⟨replaces, rfl⟩
        dsimp only
        rw [hsome]
        exact ⟨start, starts, rfl⟩
  · intro h
    split at h
    case h_1 hnone =>
      obtain ⟨hbase, heq⟩ := h
      rw [heq]
      exact .base hbase (Window.exception_eq_none_iff.mp hnone)
    case h_2 => exact h.elim
    case h_3 s startLocal durationMs hsome =>
      obtain ⟨start, hstart, heq⟩ := h
      obtain ⟨hmem, hs⟩ := (Window.exception_eq_some_iff hnodup).mp hsome
      rw [heq, ← hs]
      exact .replacement hmem hstart

/-- Effective occurrences all have the priority of the window. -/
theorem Window.Effective.priority_eq {o : Occurrence} (h : window.Effective o) :
    o.priority = window.priority := by
  cases h <;> rfl

/-- In a window that passes `validate` they last for some time, and for no more than the longest
duration allowed. -/
theorem Window.Effective.duration (hvalid : window.validate = .ok ()) {o : Occurrence}
    (h : window.Effective o) :
    o.startUnixMs < o.endUnixMs ∧ o.endUnixMs ≤ o.startUnixMs + MAX_WINDOW_DURATION_MS := by
  obtain ⟨start, zone, s₀, headed, -, -, haccepts⟩ := validate_iff.mp hvalid
  cases h with
  | base =>
      have := headed.duration
      dsimp only
      omega
  | replacement replaces =>
      have := (haccepts _ replaces).duration_pos
      dsimp only
      omega

end Known

end Lait.Schedule
