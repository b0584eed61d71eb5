import Lait.Schedule.Effective

/-!
# The expansion of a window is exact

`occurrencesBetween` runs over the base occurrences from a guessed place to the end of the
range, then over the exceptions, and sorts what it found.  Each pass is described by what
it adds: the loop adds the effective occurrences of the base starts it passes
(`mem_expandBase`), the second pass those of the exceptions (`mem_foldlM_pushMoved`).  Nothing
before the guessed place reaches into the range, and nothing after the place where the loop
stops does either, because the base occurrences are monotone.

Occurrences that coincide are no trouble.  A clock change can give two places of the recurrence
one instant; both yield the same occurrence, and `dedup` removes the repetition, which sorting
has put next to it.
-/

namespace Lait.Schedule

open Lait (Text bind_eq_ok guard_eq_ok foldlM_cons_eq_ok)

/-! ## Sorting and removing repetitions -/

section Sorted

/-- `dedup` removes repetitions only. -/
theorem mem_destutter_ne {α : Type*} [DecidableEq α] {a : α} {l : List α} :
    a ∈ l.destutter (· ≠ ·) ↔ a ∈ l := by
  have hcons : ∀ (l : List α) (b : α), a ∈ l.destutter' (· ≠ ·) b ↔ a ∈ b :: l := by
    intro l
    induction l with
    | nil => simp
    | cons c l ih =>
        intro b
        by_cases h : b = c
        · subst h
          simp [ih]
        · simp [h, ih]
  cases l with
  | nil => simp
  | cons b l => exact hcons l b

theorem mem_sortDedup {l : List Occurrence} {o : Occurrence} : o ∈ sortDedup l ↔ o ∈ l := by
  rw [sortDedup, mem_destutter_ne, List.mem_insertionSort]

/-- Occurrences of one priority are told apart by their keys. -/
theorem Occurrence.eq_of_sortKey {o o' : Occurrence} (hpriority : o.priority = o'.priority)
    (h : o.sortKey = o'.sortKey) : o = o' := by
  simp only [sortKey, EmbeddingLike.apply_eq_iff_eq, Prod.mk.injEq] at h
  exact Occurrence.ext h.2.2 h.1 h.2.1 hpriority

/-- **Occurrences of one priority come out in order, each once.** -/
theorem pairwise_sortDedup {l : List Occurrence} {priority : ℤ}
    (h : ∀ o ∈ l, o.priority = priority) :
    (sortDedup l).Pairwise fun o o' => o.sortKey < o'.sortKey := by
  have hsorted : (sortDedup l).IsChain fun o o' => o.sortKey ≤ o'.sortKey :=
    (List.Pairwise.sublist (List.destutter_sublist _ _)
      (List.pairwise_insertionSort (fun a b : Occurrence => a.sortKey ≤ b.sortKey) l)).isChain
  have hdistinct : (sortDedup l).IsChain (· ≠ ·) := List.isChain_destutter _ _
  have hpriority : ∀ o ∈ sortDedup l, o.priority = priority := fun o ho => h o (mem_sortDedup.mp ho)
  have hstrict : (sortDedup l).IsChain fun o o' => o.sortKey < o'.sortKey := by
    rw [List.isChain_iff_getElem] at hsorted hdistinct ⊢
    intro i hi
    refine lt_of_le_of_ne (hsorted i hi) fun heq => hdistinct i hi ?_
    refine Occurrence.eq_of_sortKey ?_ heq
    rw [hpriority _ (List.getElem_mem _), hpriority _ (List.getElem_mem _)]
  exact List.isChain_iff_pairwise.mp hstrict

end Sorted

variable [Jiff] {window : Window} {start : Zoned Jiff.TimeZone} {zone : Jiff.TimeZone} {s₀ : ℕ}
  {lo hi : ℕ}

/-! ## What a window that starts says about its parts -/

/-- Replacements are read in the zone of the window. -/
theorem Window.Headed.parseLocal_eq (headed : window.Headed start zone s₀) (value : Text) :
    parseLocal value window.timezone = parseLocalWithZone value zone := by
  have hstart := headed.reads
  rw [Window.start, guard_eq_ok] at hstart
  obtain ⟨-, hstart⟩ := hstart
  obtain ⟨zone', hzone, hstart⟩ := bind_eq_ok.mp hstart
  obtain ⟨start', -, hstart⟩ := bind_eq_ok.mp hstart
  obtain ⟨ms, -, hstart⟩ := bind_eq_ok.mp hstart
  cases hstart
  rw [parseLocal, hzone]
  rfl

/-- Base starts are those of the start that was read. -/
theorem Window.Headed.isBaseStart_iff (headed : window.Headed start zone s₀) {s : ℕ} :
    window.IsBaseStart s ↔
      (∃ index, StartsAt start window.recurrence index s) ∧ ∀ u ∈ window.untilUnixMs, s ≤ u := by
  refine and_congr_left fun _ => ⟨?_, ?_⟩
  · rintro ⟨start', zone', index, hstart, hindex⟩
    rw [headed.reads] at hstart
    cases hstart
    exact ⟨index, hindex⟩
  · rintro ⟨index, hindex⟩
    exact ⟨start, zone, index, headed.reads, hindex⟩

theorem Window.ReplacementStart.unique {startLocal : Text} {s s' : ℕ}
    (h : window.ReplacementStart startLocal s) (h' : window.ReplacementStart startLocal s') :
    s = s' := by
  obtain ⟨z, hz, hs⟩ := h
  obtain ⟨z', hz', hs'⟩ := h'
  obtain rfl : z = z' := Except.ok.inj (hz.symm.trans hz')
  exact Except.ok.inj (hs.symm.trans hs')

/-- There is one effective occurrence of a base start. -/
theorem Window.Effective.unique
    (hnodup : (window.exceptions.map OccurrenceException.occurrenceStartUnixMs).Nodup)
    {o o' : Occurrence} (h : window.Effective o) (h' : window.Effective o')
    (hs : o.scheduledStartUnixMs = o'.scheduledStartUnixMs) : o = o' := by
  rw [Window.effective_iff hnodup] at h h'
  rw [← hs] at h'
  split at h
  case h_1 hnone =>
    rw [hnone] at h'
    rw [h.2, h'.2]
  case h_2 => exact h.elim
  case h_3 hsome =>
    rw [hsome] at h'
    obtain ⟨a, ha, heq⟩ := h
    obtain ⟨a', ha', heq'⟩ := h'
    rw [heq, heq', ha.unique ha']

/-! ## What each step adds -/

omit [Jiff] in
theorem mem_pushIfIntersecting {occurrences occurrences' : List Occurrence}
    {s startUnixMs durationMs : ℕ} {priority : ℤ}
    (h : pushIfIntersecting occurrences s startUnixMs durationMs priority lo hi =
      .ok occurrences') {o : Occurrence} :
    o ∈ occurrences' ↔ o ∈ occurrences ∨
      o = ⟨s, startUnixMs, startUnixMs + durationMs, priority⟩ ∧ o.Intersects lo hi := by
  rw [pushIfIntersecting, bind_eq_ok] at h
  obtain ⟨endUnixMs, hend, h⟩ := h
  obtain rfl := checkedAdd_eq_ok hend
  split at h
  case isTrue hmeets =>
    cases h
    rw [List.mem_append, List.mem_singleton]
    refine or_congr_right ⟨?_, fun h => h.1⟩
    rintro rfl
    exact ⟨rfl, hmeets⟩
  case isFalse hmisses =>
    cases h
    refine ⟨.inl, ?_⟩
    rintro (h | ⟨rfl, hmeets⟩)
    · exact h
    · exact absurd hmeets hmisses

theorem mem_pushReplacement (headed : window.Headed start zone s₀)
    {occurrences occurrences' : List Occurrence} {s durationMs : ℕ} {startLocal : Text}
    (h : window.pushReplacement lo hi zone occurrences s startLocal durationMs = .ok occurrences')
    {o : Occurrence} :
    o ∈ occurrences' ↔ o ∈ occurrences ∨
      (∃ a, window.ReplacementStart startLocal a ∧ o = ⟨s, a, a + durationMs, window.priority⟩) ∧
        o.Intersects lo hi := by
  rw [Window.pushReplacement, bind_eq_ok] at h
  obtain ⟨replacement, hreplacement, h⟩ := h
  obtain ⟨a, ha, h⟩ := bind_eq_ok.mp h
  have hstarts : window.ReplacementStart startLocal a :=
    ⟨replacement, (headed.parseLocal_eq _).trans hreplacement, ha⟩
  rw [mem_pushIfIntersecting h]
  refine or_congr_right (and_congr_left fun _ => ⟨fun heq => ⟨a, hstarts, heq⟩, ?_⟩)
  rintro ⟨a', ha', heq⟩
  rw [heq, hstarts.unique ha']

/-- **A base start adds its effective occurrence**, if it has one and that intersects the
range. -/
theorem mem_pushScheduled (headed : window.Headed start zone s₀)
    (hnodup : (window.exceptions.map OccurrenceException.occurrenceStartUnixMs).Nodup)
    {occurrences occurrences' : List Occurrence} {s : ℕ} (hbase : window.IsBaseStart s)
    (h : window.pushScheduled lo hi zone occurrences s = .ok occurrences') {o : Occurrence} :
    o ∈ occurrences' ↔ o ∈ occurrences ∨
      (window.Effective o ∧ o.scheduledStartUnixMs = s) ∧ o.Intersects lo hi := by
  rw [Window.pushScheduled] at h
  split at h
  case h_1 _ startLocal durationMs hsome =>
    rw [mem_pushReplacement headed h]
    refine or_congr_right (and_congr_left fun _ => ?_)
    rw [Window.effective_iff hnodup]
    constructor
    · rintro ⟨a, ha, rfl⟩
      refine ⟨?_, rfl⟩
      dsimp only
      rw [hsome]
      exact ⟨a, ha, rfl⟩
    · rintro ⟨heffective, rfl⟩
      rw [hsome] at heffective
      exact heffective
  case h_2 hsome =>
    cases h
    refine ⟨.inl, ?_⟩
    rintro (h | ⟨⟨heffective, rfl⟩, -⟩)
    · exact h
    · rw [Window.effective_iff hnodup, hsome] at heffective
      exact heffective.elim
  case h_3 hnone =>
    rw [mem_pushIfIntersecting h]
    refine or_congr_right (and_congr_left fun _ => ?_)
    rw [Window.effective_iff hnodup]
    constructor
    · rintro rfl
      refine ⟨?_, rfl⟩
      dsimp only
      rw [hnone]
      exact ⟨hbase, rfl⟩
    · rintro ⟨heffective, rfl⟩
      rw [hnone] at heffective
      exact heffective.2

/-- **An exception of the second pass adds its effective occurrence**, unless that is there
already. -/
theorem mem_pushMoved (headed : window.Headed start zone s₀)
    (hnodup : (window.exceptions.map OccurrenceException.occurrenceStartUnixMs).Nodup)
    {occurrences occurrences' : List Occurrence} {exception : OccurrenceException}
    (hmem : exception ∈ window.exceptions)
    (hsound : ∀ o ∈ occurrences, window.Effective o)
    (h : window.pushMoved lo hi zone occurrences exception = .ok occurrences') {o : Occurrence} :
    o ∈ occurrences' ↔ o ∈ occurrences ∨
      (window.Effective o ∧ o.scheduledStartUnixMs = exception.occurrenceStartUnixMs) ∧
        o.Intersects lo hi := by
  have hsome := (Window.exception_eq_some_iff hnodup).mpr ⟨hmem, rfl⟩
  cases exception with
  | cancel s =>
      cases h
      refine ⟨.inl, ?_⟩
      rintro (h | ⟨⟨heffective, hs⟩, -⟩)
      · exact h
      · rw [Window.effective_iff hnodup, hs, hsome] at heffective
        exact heffective.elim
  | replace s startLocal durationMs =>
      rw [Window.pushMoved] at h
      split at h
      case isTrue hpushed =>
        cases h
        obtain ⟨o', ho', hs'⟩ := List.any_eq_true.mp hpushed
        refine ⟨.inl, ?_⟩
        rintro (h | ⟨⟨heffective, hs⟩, -⟩)
        · exact h
        · rw [heffective.unique hnodup (hsound o' ho') (hs.trans (of_decide_eq_true hs').symm)]
          exact ho'
      case isFalse =>
        rw [mem_pushReplacement headed h]
        refine or_congr_right (and_congr_left fun _ => ?_)
        rw [Window.effective_iff hnodup]
        constructor
        · rintro ⟨a, ha, rfl⟩
          refine ⟨?_, rfl⟩
          dsimp only
          rw [OccurrenceException.occurrenceStartUnixMs] at hsome
          rw [hsome]
          exact ⟨a, ha, rfl⟩
        · rintro ⟨heffective, hs⟩
          rw [hs, hsome] at heffective
          exact heffective

/-! ## What each pass adds -/

/-- **The loop adds the effective occurrences of the base starts from its place on** that
intersect the range.  It stops at a base start after the limit or the range, and those that
follow are no earlier. -/
theorem mem_expandBase (civil : Jiff.CivilTime) (monotone : Jiff.Monotone)
    (headed : window.Headed start zone s₀)
    (hnodup : (window.exceptions.map OccurrenceException.occurrenceStartUnixMs).Nodup) :
    ∀ {left index : ℕ} {occurrences occurrences' : List Occurrence},
      window.expandBase lo hi start zone left index occurrences = .ok occurrences' →
      ∀ {o : Occurrence}, o ∈ occurrences' ↔ o ∈ occurrences ∨
        ((∃ i, index ≤ i ∧ StartsAt start window.recurrence i o.scheduledStartUnixMs) ∧
          (∀ u ∈ window.untilUnixMs, o.scheduledStartUnixMs ≤ u) ∧
          o.scheduledStartUnixMs < hi ∧ window.Effective o) ∧ o.Intersects lo hi
  | 0, _, _, _, h, _ => by cases h
  | left + 1, index, occurrences, occurrences', h, o => by
      rw [Window.expandBase, bind_eq_ok] at h
      obtain ⟨found, hfound, h⟩ := h
      cases found with
      | none =>
          obtain ⟨hnone, hpos⟩ := occurrenceAt_ne_none hfound
          cases h
          refine ⟨.inl, ?_⟩
          rintro (h | ⟨⟨⟨i, hi, z, hz, -⟩, -⟩, -⟩)
          · exact h
          · rw [hnone] at hz
            obtain ⟨rfl, -⟩ := occurrenceAt_none_iff.mp hz
            omega
      | some z =>
          obtain ⟨s, hs, h⟩ := bind_eq_ok.mp h
          have hstarts : StartsAt start window.recurrence index s := ⟨z, hfound, hs⟩
          have hlater : ∀ {i s'}, index ≤ i → StartsAt start window.recurrence i s' → s ≤ s' :=
            fun hle h' => hstarts.mono civil monotone headed.startMs h' hle
          split at h
          case isTrue hlimit =>
            cases h
            refine ⟨.inl, ?_⟩
            rintro (h | ⟨⟨⟨i, hle, hi⟩, hu, -⟩, -⟩)
            · exact h
            · have hwithin := any_lt_eq_false_iff.mpr fun u humem =>
                (hlater hle hi).trans (hu u humem)
              rw [hwithin] at hlimit
              cases hlimit
          case isFalse hlimit =>
          rw [Bool.not_eq_true, any_lt_eq_false_iff] at hlimit
          split at h
          case isTrue hend =>
            cases h
            refine ⟨.inl, ?_⟩
            rintro (h | ⟨⟨⟨i, hle, hi⟩, -, hlt, -⟩, -⟩)
            · exact h
            · have hle := hlater hle hi
              omega
          case isFalse hend =>
          obtain ⟨pushed, hpushed, h⟩ := bind_eq_ok.mp h
          have hmem := @mem_pushScheduled _ window start zone s₀ lo hi headed hnodup _ _ s
            (headed.isBaseStart_iff.mpr ⟨⟨index, hstarts⟩, hlimit⟩) hpushed
          split at h
          case isTrue hnone =>
            -- without a recurrence the first place is the only one
            cases h
            rw [hmem]
            refine or_congr_right (and_congr_left fun _ => ⟨?_, ?_⟩)
            · rintro ⟨heffective, rfl⟩
              exact ⟨⟨index, le_rfl, hstarts⟩, hlimit, not_le.mp hend, heffective⟩
            · rintro ⟨⟨i, hle, hi⟩, -, -, heffective⟩
              refine ⟨heffective, ?_⟩
              rw [hnone] at hi hstarts
              obtain ⟨z', hz', -⟩ := id hi
              obtain ⟨rfl, -⟩ := occurrenceAt_none_iff.mp hz'
              obtain rfl : index = 0 := Nat.le_zero.mp hle
              exact hi.unique hstarts
          case isFalse hrecurs =>
            obtain ⟨next, hnext, h⟩ := bind_eq_ok.mp h
            obtain rfl := checkedAdd_eq_ok hnext
            rw [mem_expandBase civil monotone headed hnodup h, hmem, or_assoc]
            refine or_congr_right ?_
            rw [← or_and_right]
            refine and_congr_left fun _ => ⟨?_, ?_⟩
            · rintro (⟨heffective, rfl⟩ | ⟨⟨i, hle, hi⟩, hrest⟩)
              · exact ⟨⟨index, le_rfl, hstarts⟩, hlimit, not_le.mp hend, heffective⟩
              · exact ⟨⟨i, by omega, hi⟩, hrest⟩
            · rintro ⟨⟨i, hle, hi⟩, hrest⟩
              rcases hle.eq_or_lt with rfl | hlt
              · exact .inl ⟨hrest.2.2, hi.unique hstarts⟩
              · exact .inr ⟨⟨i, hlt, hi⟩, hrest⟩

/-- **The second pass adds the effective occurrences of the exceptions** that intersect the
range. -/
theorem mem_foldlM_pushMoved (headed : window.Headed start zone s₀)
    (hnodup : (window.exceptions.map OccurrenceException.occurrenceStartUnixMs).Nodup)
    {exceptions : List OccurrenceException} {occurrences occurrences' : List Occurrence}
    (hsubset : ∀ exception ∈ exceptions, exception ∈ window.exceptions)
    (hsound : ∀ o ∈ occurrences, window.Effective o)
    (h : exceptions.foldlM (window.pushMoved lo hi zone) occurrences = .ok occurrences')
    {o : Occurrence} :
    o ∈ occurrences' ↔ o ∈ occurrences ∨
      (window.Effective o ∧ ∃ exception ∈ exceptions,
        o.scheduledStartUnixMs = exception.occurrenceStartUnixMs) ∧ o.Intersects lo hi := by
  induction exceptions generalizing occurrences with
  | nil =>
      cases h
      simp
  | cons exception exceptions ih =>
      obtain ⟨pushed, hpushed, h⟩ := foldlM_cons_eq_ok.mp h
      obtain ⟨hhead, htail⟩ := List.forall_mem_cons.mp hsubset
      have hmem := fun o => @mem_pushMoved _ window start zone s₀ lo hi headed hnodup
        _ _ _ hhead hsound hpushed o
      have hsound' : ∀ o ∈ pushed, window.Effective o := by
        intro o ho
        rcases (hmem o).mp ho with ho | ⟨⟨heffective, -⟩, -⟩
        · exact hsound o ho
        · exact heffective
      rw [ih htail hsound' h, hmem, or_assoc]
      refine or_congr_right ?_
      rw [← or_and_right, ← and_or_left]
      refine and_congr_left fun _ => and_congr_right fun _ => ?_
      rw [List.exists_mem_cons_iff]

/-! ## The expansion -/

/-- A list is the expansion of a window over a range: the effective occurrences that intersect
it, each once, in order. -/
structure Window.Expansion (window : Window) (rangeStart rangeEnd : ℕ)
    (occurrences : List Occurrence) : Prop where
  mem_iff : ∀ o, o ∈ occurrences ↔ window.Effective o ∧ o.Intersects rangeStart rangeEnd
  nodup : occurrences.Nodup
  sorted : occurrences.Pairwise fun o o' => o.sortKey ≤ o'.sortKey

/-- **What `occurrencesBetween` returns is the expansion.** -/
theorem expansion_of_occurrencesBetween (civil : Jiff.CivilTime) (monotone : Jiff.Monotone)
    {occurrences : List Occurrence} (henabled : window.enabled = true) (hrange : lo < hi)
    (h : window.occurrencesBetween lo hi = .ok occurrences) :
    window.Expansion lo hi occurrences := by
  rw [Window.occurrencesBetween, bind_eq_ok] at h
  obtain ⟨⟨⟩, hvalid, h⟩ := h
  obtain ⟨start, zone, s₀, headed, -, hnodup, -⟩ := validate_iff.mp hvalid
  rw [if_neg (by simp [henabled, hrange]), bind_eq_ok] at h
  obtain ⟨⟨start', zone'⟩, hstart, h⟩ := h
  obtain ⟨rfl, rfl⟩ := Prod.mk.inj (Except.ok.inj (headed.reads.symm.trans hstart))
  obtain ⟨first, hfirst, h⟩ := bind_eq_ok.mp h
  obtain ⟨found, hfound, h⟩ := bind_eq_ok.mp h
  obtain ⟨moved, hmoved, h⟩ := bind_eq_ok.mp h
  cases h
  have hmem_found := fun o => @mem_expandBase _ window start zone s₀ lo hi civil monotone headed
    hnodup _ _ _ _ hfound o
  have hsound : ∀ o ∈ found, window.Effective o := by
    intro o ho
    rcases (hmem_found o).mp ho with ho | ⟨⟨-, -, -, heffective⟩, -⟩
    · cases ho
    · exact heffective
  have hmem : ∀ o, o ∈ moved ↔ window.Effective o ∧ o.Intersects lo hi := by
    intro o
    rw [mem_foldlM_pushMoved headed hnodup (fun _ => id) hsound hmoved, hmem_found]
    constructor
    · rintro ((h | ⟨⟨-, -, -, heffective⟩, hmeets⟩) | ⟨⟨heffective, -⟩, hmeets⟩)
      · cases h
      · exact ⟨heffective, hmeets⟩
      · exact ⟨heffective, hmeets⟩
    · rintro ⟨heffective, hmeets⟩
      cases id heffective with
      | replacement replaces =>
          exact .inr ⟨⟨heffective, _, replaces, rfl⟩, hmeets⟩
      | @base s hbase free =>
          obtain ⟨⟨index, hindex⟩, hlimit⟩ := headed.isBaseStart_iff.mp hbase
          -- what starts before the guessed place ends before the range
          have hle : first ≤ index := by
            by_contra hlt
            have hbefore := approximateIndex_before civil headed.startMs hfirst (not_le.mp hlt)
              hindex
            have hreaches : lo < s + window.durationMs := hmeets.2
            omega
          exact .inl (.inr ⟨⟨⟨index, hle, hindex⟩, hlimit, hmeets.1, heffective⟩, hmeets⟩)
  have hpriority : ∀ o ∈ moved, o.priority = window.priority :=
    fun o ho => ((hmem o).mp ho).1.priority_eq
  have hstrict := pairwise_sortDedup hpriority
  exact ⟨fun o => mem_sortDedup.trans (hmem o),
    hstrict.imp fun hlt heq => hlt.ne (congrArg Occurrence.sortKey heq), hstrict.imp le_of_lt⟩

/-! ## Composition and validation -/

omit [Jiff] in
/-- What intersects a range that is cut in two intersects one of the parts. -/
theorem Occurrence.intersects_iff {o : Occurrence} (hlasts : o.startUnixMs < o.endUnixMs)
    {a b c : ℕ} (hab : a < b) (hbc : b < c) :
    o.Intersects a c ↔ o.Intersects a b ∨ o.Intersects b c := by
  simp only [Intersects]
  omega

/-- A window with one exception more. -/
def Window.withException (window : Window) (exception : OccurrenceException) : Window :=
  { window with exceptions := window.exceptions ++ [exception] }

/-- What is asked of an exception does not depend on the other exceptions. -/
theorem accepts_withException {exception other : OccurrenceException} :
    (window.withException exception).Accepts start other ↔ window.Accepts start other := by
  constructor
  · rintro ⟨hlimit, hbase, hreplacement⟩
    refine ⟨hlimit, hbase, ?_⟩
    cases other with
    | cancel => rfl
    | replace => exact hreplacement
  · rintro ⟨hlimit, hbase, hreplacement⟩
    refine ⟨hlimit, hbase, ?_⟩
    cases other with
    | cancel => rfl
    | replace => exact hreplacement

/-- **A further exception is accepted exactly when it names a base start.** -/
theorem validate_withException (civil : Jiff.CivilTime) (monotone : Jiff.Monotone)
    (hvalid : window.validate = .ok ()) {exception : OccurrenceException}
    (hroom : window.exceptions.length < MAX_EXCEPTIONS)
    (hfresh : ∀ other ∈ window.exceptions,
      other.occurrenceStartUnixMs ≠ exception.occurrenceStartUnixMs)
    (hlimit : ∀ u ∈ window.untilUnixMs, exception.occurrenceStartUnixMs ≤ u)
    (hreplacement : window.validateReplacement exception = .ok ()) :
    (window.withException exception).validate = .ok () ↔
      window.IsBaseStart exception.occurrenceStartUnixMs := by
  obtain ⟨start, zone, s₀, headed, -, hnodup, haccepts⟩ := validate_iff.mp hvalid
  rw [headed.isBaseStart_iff, ← isBaseOccurrence_iff civil monotone headed.startMs, validate_iff]
  constructor
  · rintro ⟨start', zone', s₀', headed', -, -, haccepts'⟩
    obtain ⟨rfl, rfl⟩ := Prod.mk.inj (Except.ok.inj (headed.reads.symm.trans headed'.reads))
    have haccepted := haccepts' exception (List.mem_append_right _ List.mem_cons_self)
    exact ⟨haccepted.isBase, hlimit⟩
  · rintro ⟨hbase, -⟩
    refine ⟨start, zone, s₀, ⟨headed.reads, headed.startMs, headed.duration, headed.limit⟩,
      ?_, ?_, ?_⟩
    · rw [Window.withException, List.length_append]
      exact hroom
    · rw [Window.withException, List.map_append, List.nodup_append]
      refine ⟨hnodup, List.nodup_singleton _, ?_⟩
      rintro s hs s' hs' rfl
      obtain ⟨other, hother, heq⟩ := List.mem_map.mp hs
      exact hfresh other hother (heq.trans (List.mem_singleton.mp hs'))
    · intro other hother
      rw [accepts_withException]
      rcases List.mem_append.mp hother with hother | hother
      · exact haccepts other hother
      · obtain rfl := List.mem_singleton.mp hother
        exact ⟨hlimit, hbase, hreplacement⟩

/-- **Expansion is exact and composable.**  Over every range that it answers for, the expansion
of an enabled window has the effective occurrences that intersect the range, each once and in
order; the expansions over two adjacent ranges together have the occurrences of the expansion
over both; and an exception of a base occurrence, and of nothing else, is accepted. -/
theorem occurrencesBetween_exact (civil : Jiff.CivilTime) (monotone : Jiff.Monotone)
    (window : Window) :
    (window.enabled = true → ∀ a b occurrences, a < b →
      window.occurrencesBetween a b = .ok occurrences → window.Expansion a b occurrences) ∧
    (window.enabled = true → ∀ a b c left right whole, a < b → b < c →
      window.occurrencesBetween a b = .ok left → window.occurrencesBetween b c = .ok right →
      window.occurrencesBetween a c = .ok whole → ∀ o, o ∈ whole ↔ o ∈ left ∨ o ∈ right) ∧
    (window.validate = .ok () → ∀ exception : OccurrenceException,
      window.exceptions.length < MAX_EXCEPTIONS →
      (∀ other ∈ window.exceptions,
        other.occurrenceStartUnixMs ≠ exception.occurrenceStartUnixMs) →
      (∀ u ∈ window.untilUnixMs, exception.occurrenceStartUnixMs ≤ u) →
      window.validateReplacement exception = .ok () →
      ((window.withException exception).validate = .ok () ↔
        window.IsBaseStart exception.occurrenceStartUnixMs)) := by
  refine ⟨?_, ?_, ?_⟩
  · intro henabled a b occurrences hab h
    exact expansion_of_occurrencesBetween civil monotone henabled hab h
  · intro henabled a b c left right whole hab hbc hleft hright hwhole o
    have expandLeft := expansion_of_occurrencesBetween civil monotone henabled hab hleft
    have expandRight := expansion_of_occurrencesBetween civil monotone henabled hbc hright
    have expandWhole :=
      expansion_of_occurrencesBetween civil monotone henabled (hab.trans hbc) hwhole
    rw [expandWhole.mem_iff, expandLeft.mem_iff, expandRight.mem_iff, ← and_or_left]
    refine and_congr_right fun heffective => ?_
    obtain ⟨⟨⟩, hvalid, -⟩ := bind_eq_ok.mp hwhole
    exact Occurrence.intersects_iff (heffective.duration hvalid).1 hab hbc
  · intro hvalid exception hroom hfresh hlimit hreplacement
    exact validate_withException civil monotone hvalid hroom hfresh hlimit hreplacement

/-- One hour at midnight every day from 2030 on, but at noon and for half an hour on the second
day. -/
def sampleWindow : Window where
  startLocal := Bytes.ofString "2030-01-01T00:00:00"
  durationMs := 3600000
  recurrence := .daily
  untilUnixMs := none
  priority := 0
  enabled := true
  timezone := Bytes.ofString "UTC"
  exceptions := [.replace 1893542400000 (Bytes.ofString "2030-01-02T12:00:00") 1800000]

omit [Jiff] in
/-- Over the first two days, and over each of them. -/
theorem occurrencesBetween_exact_sample :
    @Window.Expansion utcCalendar sampleWindow 1893456000000 1893628800000
      [⟨1893456000000, 1893456000000, 1893459600000, 0⟩,
        ⟨1893542400000, 1893585600000, 1893587400000, 0⟩] ∧
    (∀ o : Occurrence, o ∈ [(⟨1893456000000, 1893456000000, 1893459600000, 0⟩ : Occurrence),
        ⟨1893542400000, 1893585600000, 1893587400000, 0⟩] ↔
      o ∈ [(⟨1893456000000, 1893456000000, 1893459600000, 0⟩ : Occurrence)] ∨
        o ∈ [(⟨1893542400000, 1893585600000, 1893587400000, 0⟩ : Occurrence)]) ∧
    (@Window.validate utcCalendar (sampleWindow.withException (.cancel 1893628800000)) = .ok () ↔
      @Window.IsBaseStart utcCalendar sampleWindow 1893628800000) := by
  obtain ⟨hexact, hcomposable, haccepts⟩ :=
    @occurrencesBetween_exact utcCalendar utcCalendar_civilTime utcCalendar_monotone sampleWindow
  refine ⟨hexact rfl _ _ _ (by decide) (by decide +kernel), ?_, ?_⟩
  · exact hcomposable rfl 1893456000000 1893542400000 1893628800000 _ _ _ (by decide) (by decide)
      (by decide +kernel) (by decide +kernel) (by decide +kernel)
  · exact haccepts (by decide +kernel) (.cancel 1893628800000) (by decide) (by decide)
      (fun _ h => nomatch h) (by decide +kernel)

end Lait.Schedule
