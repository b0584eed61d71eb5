import Lait.Schedule.Expansion

/-!
# When a window next changes

`evaluateAt` expands the window over a range around the instant and looks for the least start
or end after it.  A window that does not recur is expanded up to the end of its last
occurrence.  One that recurs is expanded 366 days ahead, and this is where the answer can go
wrong: when nothing ends after the instant in that range, a window whose next occurrence starts
later is said to have no boundary at all, so that nothing wakes up for it.

`evaluateAt_exact_iff` says that this is the only way: whether the window is active is always
right, and so is the boundary, unless every occurrence that starts within 366 days is over and
another starts after them.
-/

namespace Lait.Schedule

open Lait (Text bind_eq_ok foldlM_cons_eq_ok foldlM_invariant)

/-! ## The least boundary -/

section Least

/-- The answer to when the next boundary comes: the least of those after the instant, or none
if none comes after it. -/
def IsNext (now : ℕ) (boundaries : Set ℕ) : Option ℕ → Prop
  | none => ∀ b ∈ boundaries, b ≤ now
  | some b => IsLeast {b ∈ boundaries | now < b} b

/-- A boundary more is taken into account. -/
theorem IsNext.nextBoundary {now b : ℕ} {boundaries : Set ℕ} {next : Option ℕ}
    (h : IsNext now boundaries next) :
    IsNext now (insert b boundaries) (nextBoundary now next b) := by
  rw [Schedule.nextBoundary]
  split
  case isTrue hlt =>
    cases next with
    | none =>
        refine ⟨⟨.inl rfl, hlt⟩, ?_⟩
        rintro b' ⟨rfl | hmem, hlt'⟩
        · exact le_rfl
        · exact absurd (h b' hmem) (not_le.mpr hlt')
    | some current =>
        obtain ⟨⟨hmem, hcurrent⟩, hleast⟩ := h
        show IsLeast {b' ∈ insert b boundaries | now < b'} (min current b)
        refine ⟨⟨?_, lt_min hcurrent hlt⟩, ?_⟩
        · rcases min_choice current b with hmin | hmin
          · exact .inr (hmin.symm ▸ hmem)
          · exact .inl hmin
        · rintro b' ⟨rfl | hmem', hlt'⟩
          · exact min_le_right _ _
          · exact (min_le_left _ _).trans (hleast ⟨hmem', hlt'⟩)
  case isFalse hle =>
    cases next with
    | none =>
        rintro b' (rfl | hmem)
        · exact not_lt.mp hle
        · exact h b' hmem
    | some current =>
        refine ⟨⟨.inr h.1.1, h.1.2⟩, ?_⟩
        rintro b' ⟨rfl | hmem', hlt'⟩
        · exact absurd hlt' hle
        · exact h.2 ⟨hmem', hlt'⟩

/-- The starts and ends of the occurrences of a list. -/
def boundariesOf (occurrences : List Occurrence) : Set ℕ :=
  {b | ∃ o ∈ occurrences, b = o.startUnixMs ∨ b = o.endUnixMs}

/-- **The loop of `evaluateAt`** finds out whether an occurrence contains the instant, and the
least boundary after it. -/
theorem foldl_evaluateOccurrence (now : ℕ) (occurrences : List Occurrence) :
    ∀ (found : Bool × Option ℕ) (boundaries : Set ℕ), IsNext now boundaries found.2 →
      ((occurrences.foldl (evaluateOccurrence now) found).1 = true ↔
        found.1 = true ∨ ∃ o ∈ occurrences, o.startUnixMs ≤ now ∧ now < o.endUnixMs) ∧
      IsNext now (boundariesOf occurrences ∪ boundaries)
        (occurrences.foldl (evaluateOccurrence now) found).2 := by
  induction occurrences with
  | nil =>
      intro found boundaries h
      have hempty : boundariesOf [] = ∅ := by
        simp [boundariesOf]
      rw [hempty, Set.empty_union]
      simpa using h
  | cons o occurrences ih =>
      intro found boundaries h
      have hstep : IsNext now (insert o.endUnixMs (insert o.startUnixMs boundaries))
          (evaluateOccurrence now found o).2 := h.nextBoundary.nextBoundary
      obtain ⟨hactive, hnext⟩ := ih _ _ hstep
      have hcons : boundariesOf (o :: occurrences) ∪ boundaries =
          boundariesOf occurrences ∪ insert o.endUnixMs (insert o.startUnixMs boundaries) := by
        ext b
        simp only [boundariesOf, Set.mem_union, Set.mem_ofPred_eq, List.exists_mem_cons_iff,
          Set.mem_insert_iff]
        grind
      rw [List.foldl_cons, hcons]
      refine ⟨hactive.trans ?_, hnext⟩
      rw [evaluateOccurrence, Bool.or_eq_true, Bool.and_eq_true, decide_eq_true_eq,
        decide_eq_true_eq, List.exists_mem_cons_iff, or_assoc]

end Least

variable [Jiff] {window : Window} {start : Zoned Jiff.TimeZone} {zone : Jiff.TimeZone} {s₀ : ℕ}
  {now : ℕ}

/-! ## What evaluation is to find out -/

/-- The starts and ends of the effective occurrences of a window. -/
def Window.boundaries (window : Window) : Set ℕ :=
  {b | ∃ o, window.Effective o ∧ (b = o.startUnixMs ∨ b = o.endUnixMs)}

/-- The evaluation of a window at an instant: whether an effective occurrence contains the
instant, and the least boundary after it. -/
structure Window.EvaluatesTo (window : Window) (now : ℕ) (result : Bool × Option ℕ) : Prop where
  active : result.1 = true ↔ ∃ o, window.Effective o ∧ o.startUnixMs ≤ now ∧ now < o.endUnixMs
  boundary : IsNext now window.boundaries result.2

/-- The range that `evaluateAt` looks ahead reaches the next boundary, if there is one: the
window does not recur, or an occurrence that starts within 366 days is not yet over, or none
starts after them. -/
def Window.HorizonReaches (window : Window) (now : ℕ) : Prop :=
  window.recurrence = .none ∨
    (∃ o, window.Effective o ∧ o.startUnixMs < now + MAX_WINDOW_DURATION_MS ∧
      now < o.endUnixMs) ∨
    ∀ o, window.Effective o → o.startUnixMs < now + MAX_WINDOW_DURATION_MS

/-! ## How far evaluation looks ahead -/

/-- The fold over the exceptions goes past the end of each replacement. -/
theorem foldlM_extendRange (headed : window.Headed start zone s₀)
    {exceptions : List OccurrenceException} {rangeEnd rangeEnd' : ℕ}
    (h : exceptions.foldlM (extendRange zone) rangeEnd = .ok rangeEnd') :
    rangeEnd ≤ rangeEnd' ∧ ∀ s startLocal durationMs a,
      OccurrenceException.replace s startLocal durationMs ∈ exceptions →
      window.ReplacementStart startLocal a → a + durationMs < rangeEnd' := by
  induction exceptions generalizing rangeEnd with
  | nil =>
      cases h
      exact ⟨le_rfl, fun _ _ _ _ h => nomatch h⟩
  | cons exception exceptions ih =>
      obtain ⟨extended, hextended, h⟩ := foldlM_cons_eq_ok.mp h
      obtain ⟨hle, hrest⟩ := ih h
      cases exception with
      | cancel s =>
          cases hextended
          refine ⟨hle, fun s' startLocal durationMs a hmem ha => ?_⟩
          rcases List.mem_cons.mp hmem with heq | hmem
          · cases heq
          · exact hrest s' startLocal durationMs a hmem ha
      | replace s startLocal durationMs =>
          obtain ⟨replacement, hreplacement, hextended⟩ := bind_eq_ok.mp hextended
          obtain ⟨a, ha, hextended⟩ := bind_eq_ok.mp hextended
          obtain ⟨ends, hends, hextended⟩ := bind_eq_ok.mp hextended
          obtain ⟨after, hafter, hextended⟩ := bind_eq_ok.mp hextended
          obtain rfl := checkedAdd_eq_ok hends
          obtain rfl := checkedAdd_eq_ok hafter
          cases hextended
          refine ⟨(le_max_left _ _).trans hle, fun s' startLocal' durationMs' a' hmem ha' => ?_⟩
          rcases List.mem_cons.mp hmem with heq | hmem
          · cases heq
            have hstarts : window.ReplacementStart startLocal a :=
              ⟨replacement, (headed.parseLocal_eq _).trans hreplacement, ha⟩
            rw [ha'.unique hstarts]
            exact Nat.lt_of_succ_le ((le_max_right _ _).trans hle)
          · exact hrest s' startLocal' durationMs' a' hmem ha'

/-- A window that does not recur is looked at until after its last occurrence. -/
theorem end_lt_rangeEnd (civil : Jiff.CivilTime) (headed : window.Headed start zone s₀)
    (hnone : window.recurrence = .none) {rangeEnd : ℕ} (h : window.rangeEnd now = .ok rangeEnd)
    {o : Occurrence} (ho : window.Effective o) : o.endUnixMs < rangeEnd := by
  rw [Window.rangeEnd, if_pos hnone, headed.reads] at h
  obtain ⟨⟨start', zone'⟩, hstart, h⟩ := bind_eq_ok.mp h
  cases hstart
  obtain ⟨startUnixMs, hstartMs, h⟩ := bind_eq_ok.mp h
  obtain rfl : s₀ = startUnixMs := Except.ok.inj (headed.startMs.symm.trans hstartMs)
  obtain ⟨ends, hends, h⟩ := bind_eq_ok.mp h
  obtain ⟨after, hafter, h⟩ := bind_eq_ok.mp h
  obtain rfl := checkedAdd_eq_ok hends
  obtain rfl := checkedAdd_eq_ok hafter
  obtain ⟨hle, hall⟩ := foldlM_extendRange headed h
  cases ho with
  | replacement replaces starts => exact hall _ _ _ _ replaces starts
  | @base s isBase free =>
      obtain ⟨⟨index, z, hz, hs⟩, -⟩ := headed.isBaseStart_iff.mp isBase
      rw [hnone, occurrenceAt_none_iff, civil.newSpan] at hz
      obtain rfl : start = z := Except.ok.inj hz.2
      obtain rfl : s₀ = s := Except.ok.inj (headed.startMs.symm.trans hs)
      exact hle

/-- What an expansion answers, also over an empty range. -/
theorem mem_occurrencesBetween (civil : Jiff.CivilTime) (monotone : Jiff.Monotone)
    (henabled : window.enabled = true) {lo hi : ℕ} {occurrences : List Occurrence}
    (h : window.occurrencesBetween lo hi = .ok occurrences) {o : Occurrence} :
    o ∈ occurrences ↔ lo < hi ∧ window.Effective o ∧ o.Intersects lo hi := by
  rcases lt_or_ge lo hi with hlt | hle
  · rw [(expansion_of_occurrencesBetween civil monotone henabled hlt h).mem_iff, and_iff_right hlt]
  · rw [Window.occurrencesBetween, bind_eq_ok] at h
    obtain ⟨⟨⟩, -, h⟩ := h
    rw [if_pos (.inr hle)] at h
    cases h
    exact ⟨fun h => absurd h List.not_mem_nil, fun h => absurd h.1 (not_lt.mpr hle)⟩

/-- **What evaluation finds**: effective occurrences, and among them all that are not over and
start within 366 days.  Of a window that does not recur it finds all that are not over. -/
theorem exists_occurrences (civil : Jiff.CivilTime) (monotone : Jiff.Monotone)
    (henabled : window.enabled = true) {result : Bool × Option ℕ}
    (h : window.evaluateAt now = .ok result) :
    window.validate = .ok () ∧ ∃ occurrences : List Occurrence,
      result = occurrences.foldl (evaluateOccurrence now) (false, none) ∧
      (∀ o ∈ occurrences, window.Effective o) ∧
      (window.recurrence = .none →
        ∀ o, window.Effective o → now < o.endUnixMs → o ∈ occurrences) ∧
      (window.recurrence ≠ .none → ∀ o, window.Effective o → now < o.endUnixMs →
        (o ∈ occurrences ↔ o.startUnixMs < now + MAX_WINDOW_DURATION_MS)) := by
  rw [Window.evaluateAt, bind_eq_ok] at h
  obtain ⟨⟨⟩, hvalid, h⟩ := h
  obtain ⟨start, zone, s₀, headed, -⟩ := validate_iff.mp hvalid
  rw [if_neg (by simp [henabled]), bind_eq_ok] at h
  obtain ⟨rangeEnd, hrangeEnd, h⟩ := h
  obtain ⟨occurrences, hoccurrences, h⟩ := bind_eq_ok.mp h
  cases h
  have hmem := fun o => @mem_occurrencesBetween _ window civil monotone henabled _ _ _
    hoccurrences o
  have hback : now - window.longestDuration ≤ now := Nat.sub_le _ _
  refine ⟨hvalid, occurrences, rfl, fun o ho => ((hmem o).mp ho).2.1, ?_, ?_⟩
  · intro hnone o heffective hnow
    have hend := end_lt_rangeEnd civil headed hnone hrangeEnd heffective
    have hlasts := (heffective.duration hvalid).1
    refine (hmem o).mpr ⟨?_, heffective, ?_, ?_⟩
    · omega
    · omega
    · omega
  · intro hrecurs o heffective hnow
    rw [Window.rangeEnd, if_neg hrecurs] at hrangeEnd
    obtain rfl := checkedAdd_eq_ok hrangeEnd
    have hahead : now < now + MAX_WINDOW_DURATION_MS := Nat.lt_add_of_pos_right (by decide)
    rw [hmem]
    refine ⟨fun h => h.2.2.1, fun hstart => ⟨by omega, heffective, hstart, by omega⟩⟩

/-! ## Exactness -/

/-- Every effective occurrence that contains the instant is found. -/
theorem mem_of_active {occurrences : List Occurrence}
    (hall : window.recurrence = .none →
      ∀ o, window.Effective o → now < o.endUnixMs → o ∈ occurrences)
    (hwithin : window.recurrence ≠ .none → ∀ o, window.Effective o → now < o.endUnixMs →
      (o ∈ occurrences ↔ o.startUnixMs < now + MAX_WINDOW_DURATION_MS))
    {o : Occurrence} (heffective : window.Effective o) (hstart : o.startUnixMs ≤ now)
    (hend : now < o.endUnixMs) : o ∈ occurrences := by
  by_cases hrecurs : window.recurrence = .none
  · exact hall hrecurs o heffective hend
  · rw [hwithin hrecurs o heffective hend]
    exact hstart.trans_lt (Nat.lt_add_of_pos_right (by decide))

/-- **The least boundary found is the next one** exactly when the range reaches it.  An
occurrence that is not over and starts within the range has its own start or end within it, so
that no start after the range comes before. -/
theorem isNext_boundaries_iff (hvalid : window.validate = .ok ()) {occurrences : List Occurrence}
    (hsound : ∀ o ∈ occurrences, window.Effective o)
    (hall : window.recurrence = .none →
      ∀ o, window.Effective o → now < o.endUnixMs → o ∈ occurrences)
    (hwithin : window.recurrence ≠ .none → ∀ o, window.Effective o → now < o.endUnixMs →
      (o ∈ occurrences ↔ o.startUnixMs < now + MAX_WINDOW_DURATION_MS))
    {next : Option ℕ} (hnext : IsNext now (boundariesOf occurrences) next) :
    IsNext now window.boundaries next ↔ window.HorizonReaches now := by
  have hnotOver : ∀ {o b}, window.Effective o → b = o.startUnixMs ∨ b = o.endUnixMs →
      now < b → now < o.endUnixMs := by
    intro o b heffective hb hlt
    have := (heffective.duration hvalid).1
    omega
  cases next with
  | none =>
      have hover : ∀ o ∈ occurrences, o.endUnixMs ≤ now :=
        fun o ho => hnext _ ⟨o, ho, .inr rfl⟩
      constructor
      · intro hnone
        refine .inr (.inr fun o heffective => ?_)
        have hstart : o.startUnixMs ≤ now := hnone _ ⟨o, heffective, .inl rfl⟩
        exact hstart.trans_lt (Nat.lt_add_of_pos_right (by decide))
      · rintro hreaches b ⟨o, heffective, hb⟩
        by_contra hlt
        have hend := hnotOver heffective hb (not_le.mp hlt)
        -- an occurrence that is not over was not found, so that it starts after the range
        have hmissed : o ∉ occurrences := fun ho => absurd (hover o ho) (not_le.mpr hend)
        rcases hreaches with hrecurs | hreaches
        · exact hmissed (hall hrecurs o heffective hend)
        by_cases hrecurs : window.recurrence = .none
        · exact hmissed (hall hrecurs o heffective hend)
        rcases hreaches with ⟨o', heffective', hstart', hend'⟩ | hreaches
        · have hfound := (hwithin hrecurs o' heffective' hend').mpr hstart'
          exact absurd (hover o' hfound) (not_le.mpr hend')
        · exact hmissed ((hwithin hrecurs o heffective hend).mpr (hreaches o heffective))
  | some b =>
      obtain ⟨⟨⟨o, ho, hb⟩, hlt⟩, hleast⟩ := hnext
      have heffective := hsound o ho
      have hend := hnotOver heffective hb hlt
      constructor
      · intro _
        by_cases hrecurs : window.recurrence = .none
        · exact .inl hrecurs
        · exact .inr (.inl ⟨o, heffective, (hwithin hrecurs o heffective hend).mp ho, hend⟩)
      · intro _
        refine ⟨⟨⟨o, heffective, hb⟩, hlt⟩, ?_⟩
        rintro b' ⟨⟨o', heffective', hb'⟩, hlt'⟩
        have hend' := hnotOver heffective' hb' hlt'
        by_cases hfound : o' ∈ occurrences
        · exact hleast ⟨⟨o', hfound, hb'⟩, hlt'⟩
        have hrecurs : window.recurrence ≠ .none :=
          fun hrecurs => hfound (hall hrecurs o' heffective' hend')
        have hafter : now + MAX_WINDOW_DURATION_MS ≤ o'.startUnixMs :=
          not_lt.mp fun hstart => hfound ((hwithin hrecurs o' heffective' hend').mpr hstart)
        have hstart := (hwithin hrecurs o heffective hend).mp ho
        have hlasts := heffective.duration hvalid
        have hlasts' := heffective'.duration hvalid
        -- the boundary of the occurrence found that comes after the instant
        have hmin : b ≤ now + MAX_WINDOW_DURATION_MS := by
          rcases le_or_gt o.startUnixMs now with hle | hgt
          · have := hleast ⟨⟨o, ho, .inr rfl⟩, hend⟩
            omega
          · have := hleast ⟨⟨o, ho, .inl rfl⟩, hgt⟩
            omega
        omega

/-- **Evaluation is exact up to its horizon.**  What `evaluateAt` answers for an enabled window
is whether the window is active and its next boundary exactly when the range it looks ahead
reaches that boundary. -/
theorem evaluateAt_exact_iff (civil : Jiff.CivilTime) (monotone : Jiff.Monotone)
    (window : Window) (henabled : window.enabled = true) (now : ℕ) (result : Bool × Option ℕ)
    (h : window.evaluateAt now = .ok result) :
    window.EvaluatesTo now result ↔ window.HorizonReaches now := by
  obtain ⟨hvalid, occurrences, rfl, hsound, hall, hwithin⟩ :=
    exists_occurrences civil monotone henabled h
  obtain ⟨hactive, hnext⟩ := foldl_evaluateOccurrence now occurrences (false, none) ∅
    (fun _ h => h.elim)
  rw [Set.union_empty] at hnext
  have hboundary := isNext_boundaries_iff hvalid hsound hall hwithin hnext
  refine ⟨fun hexact => hboundary.mp hexact.boundary, fun hreaches =>
    ⟨hactive.trans ⟨?_, ?_⟩, hboundary.mpr hreaches⟩⟩
  · rintro (hfalse | ⟨o, ho, hstart, hend⟩)
    · cases hfalse
    · exact ⟨o, hsound o ho, hstart, hend⟩
  · rintro ⟨o, heffective, hstart, hend⟩
    exact .inr ⟨o, mem_of_active hall hwithin heffective hstart hend, hstart, hend⟩

omit [Jiff] in
theorem sampleWindow_isBaseStart : @Window.IsBaseStart utcCalendar sampleWindow 1893456000000 :=
  ⟨⟨⟨⟨1893456000000000000, by decide, by decide⟩, ()⟩, (), 0, rfl, _, rfl, rfl⟩,
    fun _ h => by cases h⟩

omit [Jiff] in
/-- The sample window at its first midnight, when it has just become active: the occurrence that
starts then is not over, so that the answer is exact. -/
theorem evaluateAt_exact_iff_sample :
    @Window.evaluateAt utcCalendar sampleWindow 1893456000000 = .ok (true, some 1893459600000) ∧
      @Window.EvaluatesTo utcCalendar sampleWindow 1893456000000 (true, some 1893459600000) := by
  have hanswer : @Window.evaluateAt utcCalendar sampleWindow 1893456000000 =
      .ok (true, some 1893459600000) := by decide +kernel
  refine ⟨hanswer, (@evaluateAt_exact_iff utcCalendar utcCalendar_civilTime utcCalendar_monotone
    sampleWindow rfl 1893456000000 _ hanswer).mpr (.inr (.inl ⟨_, @Window.Effective.base utcCalendar
      _ _ sampleWindow_isBaseStart (by decide), ?_, ?_⟩))⟩
  · decide
  · decide

omit [Jiff] in
/-- Six years before its first midnight the sample window is said to have no boundary: it starts
after the range that was looked at. -/
theorem evaluateAt_misses_start :
    @Window.evaluateAt utcCalendar sampleWindow 1704067200000 = .ok (false, none) ∧
      ¬ @Window.EvaluatesTo utcCalendar sampleWindow 1704067200000 (false, none) := by
  refine ⟨by decide +kernel, fun hexact => ?_⟩
  have hstart := @Window.EvaluatesTo.boundary utcCalendar _ _ _ hexact 1893456000000
    ⟨_, @Window.Effective.base utcCalendar _ _ sampleWindow_isBaseStart (by decide), .inl rfl⟩
  exact absurd hstart (by decide)

end Lait.Schedule
