import Lait.Runtime.Budget

/-!
# Gates

The never-close ceiling of a gate is a bound of two strikes: at half the interval no two
arrivals in a row are refused (`Enthusiastic`), and any faster the admitted ones cannot
pay for the others (`Flooded`).  A close latches, and a byte gate charges both of its
paces or neither.
-/

namespace Lait.Runtime.Budget

open LeakyBucket

variable {last : ℕ}

/-! ## The never-close ceiling -/

namespace Gate

theorem check_of_closed {self : Gate} (hclosed : self.closed = true) (now : ℕ) :
    self.check last now = some (.close, self) := by
  rw [check, if_pos hclosed]

/-- **All that checking an open gate can do.** -/
theorem check_cases {self gate : Gate} {now : ℕ} {verdict : Verdict}
    (hopen : self.closed = false) (h : self.check last now = some (verdict, gate)) :
    self.pace.Conforms now 1 last ∧ verdict = .allow ∧
        gate = { self with pace := self.pace.charged now 1, strikes := self.strikes - 1 } ∨
      ¬ self.pace.Conforms now 1 last ∧ self.strikeLimit ≤ min (self.strikes + 1) U16_MAX ∧
        verdict = .close ∧
        gate = { self with strikes := min (self.strikes + 1) U16_MAX, closed := true } ∨
      ¬ self.pace.Conforms now 1 last ∧ min (self.strikes + 1) U16_MAX < self.strikeLimit ∧
        verdict = .drop ∧ gate = { self with strikes := min (self.strikes + 1) U16_MAX } := by
  rw [check, if_neg (by simp [hopen])] at h
  cases hanswer : self.pace.admitOne last now with
  | none =>
      rw [hanswer] at h
      cases h
  | some answer =>
      obtain ⟨admitted, pace⟩ := answer
      rw [hanswer] at h
      obtain ⟨-, ⟨rfl, hconforms, rfl⟩ | ⟨rfl, hrefuses, rfl⟩⟩ := Pace.admitCost_eq_some.mp hanswer
      · cases h
        exact Or.inl ⟨hconforms, rfl, rfl⟩
      · dsimp only at h
        split at h
        next hlimit =>
          cases h
          exact Or.inr (Or.inl ⟨hrefuses, hlimit, rfl, rfl⟩)
        next hlimit =>
          cases h
          exact Or.inr (Or.inr ⟨hrefuses, not_le.mp hlimit, rfl, rfl⟩)

/-- A check has an outcome while the clock reaches past its burst. -/
theorem check_isSome {self : Gate} {now : ℕ} (h : now + self.pace.burst ≤ last) :
    ∃ verdict gate, self.check last now = some (verdict, gate) := by
  unfold check
  split
  next => exact ⟨_, _, rfl⟩
  next =>
    cases hanswer : self.pace.admitOne last now with
    | none =>
        have hahead : checkedAdd last now self.pace.burst = none := by
          by_contra hsome
          obtain ⟨ahead, hahead⟩ := Option.ne_none_iff_exists'.mp hsome
          unfold Pace.admitOne Pace.admitCost at hanswer
          rw [hahead] at hanswer
          dsimp only at hanswer
          split at hanswer
          next => cases hanswer
          next => split at hanswer <;> cases hanswer
        rw [checkedAdd_eq_none] at hahead
        omega
    | some answer =>
        obtain ⟨admitted, pace⟩ := answer
        cases admitted with
        | true => exact ⟨_, _, rfl⟩
        | false =>
            dsimp only
            split <;> exact ⟨_, _, rfl⟩

/-- A call never changes the rates and the limit of a gate. -/
structure SameRates (before after : Gate) : Prop where
  interval : after.pace.interval = before.pace.interval
  burst : after.pace.burst = before.pace.burst
  strikeLimit : after.strikeLimit = before.strikeLimit

theorem SameRates.check {self gate : Gate} {now : ℕ} {verdict : Verdict}
    (h : self.check last now = some (verdict, gate)) : SameRates self gate := by
  cases hclosed : self.closed with
  | true =>
      rw [check_of_closed hclosed] at h
      cases h
      exact ⟨rfl, rfl, rfl⟩
  | false =>
      rcases check_cases hclosed h with ⟨-, -, rfl⟩ | ⟨-, -, -, rfl⟩ | ⟨-, -, -, rfl⟩ <;>
        exact ⟨rfl, rfl, rfl⟩

/-! ### At half the interval -/

/-- Where a gate stands after a check at a time when no two arrivals in a row are refused: the
last one was admitted and no strike is left, or it was refused and half an interval pays for
what keeps the next one out. -/
def Enthusiastic (self : Gate) (now : ℕ) : Prop :=
  self.closed = false ∧
    (self.strikes = 0 ∧ self.pace.next ≤ now + self.pace.burst + self.pace.interval ∨
      self.strikes = 1 ∧
        2 * self.pace.next ≤ 2 * (now + self.pace.burst) + self.pace.interval)

/-- An arrival half an interval after another finds a gate as the other did. -/
theorem Enthusiastic.check {self gate : Gate} {before now : ℕ} {verdict : Verdict}
    (hpos : 0 < self.pace.interval) (hinterval : self.pace.interval ≤ DURATION_MAX)
    (hlimit : 2 ≤ self.strikeLimit) (h : Enthusiastic self before) (hgap : self.pace.interval ≤ 2 * (now - before))
    (hfits : now + self.pace.burst + self.pace.interval ≤ last)
    (hcheck : self.check last now = some (verdict, gate)) :
    Enthusiastic gate now ∧ verdict ≠ .close := by
  obtain ⟨hopen, hstrikes⟩ := h
  have hcharge : self.pace.charge 1 = self.pace.interval := Pace.charge_one hinterval
  rcases check_cases hopen hcheck with ⟨⟨hnext, -⟩, rfl, rfl⟩ | ⟨hrefuses, hclose, rfl, rfl⟩ |
    ⟨hrefuses, -, rfl, rfl⟩
  · refine ⟨⟨hopen, Or.inl ⟨?_, ?_⟩⟩, by decide⟩
    · show self.strikes - 1 = 0
      omega
    · show max self.pace.next now + self.pace.charge 1 ≤ now + self.pace.burst + self.pace.interval
      omega
  · exfalso
    rw [Pace.Conforms, hcharge] at hrefuses
    omega
  · rw [Pace.Conforms, hcharge] at hrefuses
    refine ⟨⟨hopen, Or.inr ⟨?_, ?_⟩⟩, by decide⟩
    · show min (self.strikes + 1) U16_MAX = 1
      unfold U16_MAX
      omega
    · show 2 * self.pace.next ≤ 2 * (now + self.pace.burst) + self.pace.interval
      omega

/-- A run of checks, each half an interval after the one before, closes no gate. -/
theorem Enthusiastic.run {self gate : Gate} {before : ℕ} {times : List ℕ}
    {verdicts : List Verdict} (hpos : 0 < self.pace.interval)
    (hinterval : self.pace.interval ≤ DURATION_MAX) (hlimit : 2 ≤ self.strikeLimit)
    (h : Enthusiastic self before)
    (hgaps : (before :: times).IsChain fun t t' => self.pace.interval ≤ 2 * (t' - t))
    (hfits : ∀ now ∈ times, now + self.pace.burst + self.pace.interval ≤ last)
    (hrun : Machine.run (call last) self (times.map Call.check) = some (verdicts, gate)) :
    Verdict.close ∉ verdicts := by
  induction times generalizing self before verdicts with
  | nil =>
      cases hrun
      exact List.not_mem_nil
  | cons now times ih =>
      obtain ⟨verdict, next, rest, hstep, hrest, rfl⟩ := Machine.run_cons.mp hrun
      rw [List.isChain_cons_cons] at hgaps
      have hrates := SameRates.check hstep
      obtain ⟨hnext, hverdict⟩ :=
        h.check hpos hinterval hlimit hgaps.1 (hfits now List.mem_cons_self) hstep
      rw [List.mem_cons, not_or]
      refine ⟨Ne.symm hverdict, ih ?_ ?_ ?_ hnext ?_ ?_ hrest⟩
      · rwa [hrates.interval]
      · rwa [hrates.interval]
      · rwa [hrates.strikeLimit]
      · rw [hrates.interval]
        exact hgaps.2
      · rw [hrates.interval, hrates.burst]
        exact fun t ht => hfits t (List.mem_cons_of_mem _ ht)

/-- The first arrival is admitted. -/
theorem enthusiastic_first {created perSecond burst strikeLimit now : ℕ} {gate : Gate}
    {verdict : Verdict} (hcreated : created ≤ now)
    (hfits : now + (Pace.new created perSecond burst).burst +
      (Pace.new created perSecond burst).interval ≤ last)
    (hcheck : (new created perSecond burst strikeLimit).check last now = some (verdict, gate)) :
    Enthusiastic gate now ∧ verdict ≠ .close := by
  have hcharge := Pace.charge_one (Pace.interval_new_le created perSecond burst)
  have hconforms : (Pace.new created perSecond burst).Conforms now 1 last := by
    have hnext : (Pace.new created perSecond burst).next = created := rfl
    rw [Pace.Conforms, hcharge]
    omega
  rcases check_cases rfl hcheck with ⟨-, rfl, rfl⟩ | ⟨hrefuses, -⟩ | ⟨hrefuses, -⟩
  · refine ⟨⟨rfl, Or.inl ⟨rfl, ?_⟩⟩, by decide⟩
    show max created now + (Pace.new created perSecond burst).charge 1 ≤
      now + (Pace.new created perSecond burst).burst + (Pace.new created perSecond burst).interval
    rw [hcharge, max_eq_right hcreated]
    omega
  · exact absurd hconforms hrefuses
  · exact absurd hconforms hrefuses

/-- **Up to twice the permitted rate a gate never closes.** -/
theorem close_notMem_of_gaps {created perSecond burst strikeLimit : ℕ} {times : List ℕ}
    {verdicts : List Verdict} {gate : Gate} (hlimit : 2 ≤ strikeLimit)
    (hcreated : ∀ now ∈ times.head?, created ≤ now)
    (hgaps : times.IsChain fun t t' => (Pace.new created perSecond burst).interval ≤ 2 * (t' - t))
    (hfits : ∀ now ∈ times, now + (Pace.new created perSecond burst).burst +
      (Pace.new created perSecond burst).interval ≤ last)
    (hrun : Machine.run (call last) (new created perSecond burst strikeLimit)
      (times.map Call.check) = some (verdicts, gate)) : Verdict.close ∉ verdicts := by
  cases times with
  | nil =>
      cases hrun
      exact List.not_mem_nil
  | cons now times =>
      obtain ⟨verdict, next, rest, hstep, hrest, rfl⟩ := Machine.run_cons.mp hrun
      have hrates := SameRates.check hstep
      obtain ⟨hnext, hverdict⟩ :=
        enthusiastic_first (hcreated now rfl) (hfits now List.mem_cons_self) hstep
      rw [List.mem_cons, not_or]
      refine ⟨Ne.symm hverdict, hnext.run ?_ ?_ ?_ ?_ ?_ hrest⟩
      · rw [hrates.interval]
        exact Pace.interval_new_pos _ _ _
      · rw [hrates.interval]
        exact Pace.interval_new_le _ _ _
      · rw [hrates.strikeLimit]
        exact hlimit.trans (le_max_left _ _)
      · rw [hrates.interval]
        exact hgaps
      · rw [hrates.interval, hrates.burst]
        exact fun t ht => hfits t (List.mem_cons_of_mem _ ht)

/-! ### Faster than that -/

/-- Where a gate stands after so many checks spaced by a constant, all of them left open: what it
admitted has pushed the deadline out, within the burst of the last arrival, and every check is
a strike or was paid for by an admitted item. -/
structure Flooded (first spacing checks admitted : ℕ) (gate : Gate) : Prop where
  isOpen : gate.closed = false
  few : gate.strikes < gate.strikeLimit
  pushed : first + admitted * gate.pace.interval ≤ max gate.pace.next first
  within : admitted * gate.pace.interval ≤
    checks * spacing + gate.pace.burst + gate.pace.interval
  counted : checks ≤ gate.strikes + 2 * admitted

/-- The checks that a gate can be left open by are bounded. -/
theorem Flooded.checks_lt {first spacing checks admitted : ℕ} {self : Gate}
    (hspacing : 2 * spacing < self.pace.interval)
    (h : Flooded first spacing checks admitted self) :
    checks < self.strikeLimit * self.pace.interval +
      2 * (self.pace.burst + self.pace.interval) := by
  have hcounted : checks * self.pace.interval ≤
      self.strikes * self.pace.interval + 2 * (admitted * self.pace.interval) := by
    have hmul := Nat.mul_le_mul_right self.pace.interval h.counted
    rwa [Nat.add_mul, Nat.mul_assoc] at hmul
  have hfew : self.strikes * self.pace.interval < self.strikeLimit * self.pace.interval :=
    Nat.mul_lt_mul_of_pos_right h.few (by omega)
  have hspaced : checks * (2 * spacing + 1) ≤ checks * self.pace.interval :=
    Nat.mul_le_mul_left _ hspacing
  have hwithin := h.within
  rw [Nat.mul_add, Nat.mul_one, Nat.mul_left_comm] at hspaced
  omega

/-- **A check closes a flooded gate or floods it further.** -/
theorem Flooded.check {first spacing checks admitted : ℕ} {self gate : Gate} {verdict : Verdict}
    (hinterval : self.pace.interval ≤ DURATION_MAX) (hlimit : self.strikeLimit ≤ U16_MAX)
    (h : Flooded first spacing checks admitted self)
    (hcheck : self.check last (first + checks * spacing) = some (verdict, gate)) :
    verdict = .close ∨ ∃ admitted', Flooded first spacing (checks + 1) admitted' gate := by
  have hcharge : self.pace.charge 1 = self.pace.interval := Pace.charge_one hinterval
  have hrates := SameRates.check hcheck
  obtain ⟨hopen, hfew, hpushed, hwithin, hcounted⟩ := h
  rcases check_cases hopen hcheck with ⟨⟨hnext, -⟩, -, hgate⟩ | ⟨-, -, hclose, -⟩ |
    ⟨-, hdrop, -, hgate⟩
  · have hstrikes : gate.strikes = self.strikes - 1 := by rw [hgate]
    have hpace : gate.pace.next =
        max self.pace.next (first + checks * spacing) + self.pace.interval := by
      rw [hgate, ← hcharge]
      rfl
    refine Or.inr ⟨admitted + 1, ?_, ?_, ?_, ?_, ?_⟩
    · rw [hgate]
      exact hopen
    · rw [hstrikes, hrates.strikeLimit]
      omega
    · rw [hpace, hrates.interval, Nat.add_mul, Nat.one_mul]
      omega
    · rw [hrates.interval, hrates.burst, Nat.add_mul, Nat.one_mul, Nat.add_mul, Nat.one_mul]
      omega
    · rw [hstrikes]
      omega
  · exact Or.inl hclose
  · have hstrikes : gate.strikes = self.strikes + 1 := by
      rw [hgate]
      exact min_eq_left (hfew.trans_le hlimit)
    have hpace : gate.pace = self.pace := by rw [hgate]
    refine Or.inr ⟨admitted, ?_, ?_, ?_, ?_, ?_⟩
    · rw [hgate]
      exact hopen
    · rw [hgate]
      exact hdrop
    · rwa [hpace]
    · rw [hpace, Nat.add_mul, Nat.one_mul]
      omega
    · rw [hstrikes]
      omega

/-- So many checks, spaced by a constant. -/
def spacedChecks (first spacing : ℕ) (checks : ℕ) : List Call :=
  (List.range checks).map fun k => .check (first + k * spacing)

/-- A run of spaced checks has an outcome while the clock reaches past its burst: a check in it
closed the gate, or the gate is flooded. -/
theorem exists_run_flooded {created perSecond burst strikeLimit first spacing : ℕ}
    (hlimit : strikeLimit ≤ U16_MAX) (checks : ℕ)
    (hfits : first + checks * spacing + (Pace.new created perSecond burst).burst ≤ last) :
    ∃ verdicts gate, Machine.run (call last) (new created perSecond burst strikeLimit)
        (spacedChecks first spacing checks) = some (verdicts, gate) ∧
      SameRates (new created perSecond burst strikeLimit) gate ∧
      (.close ∈ verdicts ∨ ∃ admitted, Flooded first spacing checks admitted gate) := by
  induction checks with
  | zero =>
      refine ⟨[], _, rfl, ⟨rfl, rfl, rfl⟩, Or.inr ⟨0, rfl, ?_, ?_, ?_, ?_⟩⟩
      · exact lt_of_lt_of_le Nat.one_pos (le_max_right _ _)
      · rw [Nat.zero_mul]
        exact le_max_right _ _
      · rw [Nat.zero_mul]
        exact Nat.zero_le _
      · exact Nat.zero_le _
  | succ checks ih =>
      have hbefore : first + checks * spacing + (Pace.new created perSecond burst).burst ≤ last := by
        rw [Nat.add_mul, Nat.one_mul] at hfits
        omega
      obtain ⟨verdicts, gate, hrun, hrates, hended⟩ := ih hbefore
      have hbound : first + checks * spacing + gate.pace.burst ≤ last := by
        rw [hrates.burst]
        exact hbefore
      obtain ⟨verdict, next, hcheck⟩ := check_isSome hbound
      have hlater := SameRates.check hcheck
      refine ⟨verdicts ++ [verdict], next, ?_, ⟨?_, ?_, ?_⟩, ?_⟩
      · rw [spacedChecks, List.range_succ, List.map_append, Machine.run_append]
        exact ⟨gate, verdicts, [verdict], hrun,
          Machine.run_cons.mpr ⟨verdict, next, [], hcheck, rfl, rfl⟩, rfl⟩
      · rw [hlater.interval, hrates.interval]
      · rw [hlater.burst, hrates.burst]
      · rw [hlater.strikeLimit, hrates.strikeLimit]
      · rcases hended with hclose | ⟨admitted, hflooded⟩
        · exact Or.inl (List.mem_append_left _ hclose)
        · have hinterval : gate.pace.interval ≤ DURATION_MAX := by
            rw [hrates.interval]
            exact Pace.interval_new_le _ _ _
          have hlimit' : gate.strikeLimit ≤ U16_MAX := by
            rw [hrates.strikeLimit]
            exact max_le hlimit (by decide)
          rcases hflooded.check hinterval hlimit' hcheck with rfl | hmore
          · exact Or.inl (List.mem_append_right _ (List.mem_singleton_self _))
          · exact Or.inr hmore

/-- **Above twice the permitted rate a gate closes**, after a number of checks that depends only
on how it was made and how they are spaced. -/
theorem close_mem_of_spacing {created perSecond burst strikeLimit first spacing : ℕ}
    (hlimit : strikeLimit ≤ U16_MAX)
    (hspacing : 2 * spacing < (Pace.new created perSecond burst).interval) :
    ∃ checks, ∀ last,
      first + checks * spacing + (Pace.new created perSecond burst).burst ≤ last →
        ∃ verdicts gate, Machine.run (call last) (new created perSecond burst strikeLimit)
          (spacedChecks first spacing checks) = some (verdicts, gate) ∧ .close ∈ verdicts := by
  refine ⟨max strikeLimit 1 * (Pace.new created perSecond burst).interval +
    2 * ((Pace.new created perSecond burst).burst +
      (Pace.new created perSecond burst).interval), fun last hfits => ?_⟩
  obtain ⟨verdicts, gate, hrun, hrates, hclose | ⟨admitted, hflooded⟩⟩ :=
    exists_run_flooded hlimit _ hfits
  · exact ⟨verdicts, gate, hrun, hclose⟩
  · have hgate : 2 * spacing < gate.pace.interval := by
      rw [hrates.interval]
      exact hspacing
    have hlt := hflooded.checks_lt hgate
    rw [hrates.interval, hrates.burst, hrates.strikeLimit] at hlt
    exact absurd hlt (lt_irrefl _)

/-! ### A close latches -/

theorem call_of_closed {self gate : Gate} {call : Call} {verdict : Verdict}
    (hclosed : self.closed = true) (h : self.call last call = some (verdict, gate)) :
    gate.closed = true ∧ verdict = .close := by
  cases call with
  | check now =>
      rw [Gate.call, check_of_closed hclosed] at h
      cases h
      exact ⟨hclosed, rfl⟩
  | penalise count =>
      rw [Gate.call, penalise, if_pos hclosed] at h
      cases h
      exact ⟨hclosed, rfl⟩

theorem closed_of_close {self gate : Gate} {call : Call}
    (h : self.call last call = some (.close, gate)) : gate.closed = true := by
  cases hclosed : self.closed with
  | true => exact (call_of_closed hclosed h).1
  | false =>
      cases call with
      | check now =>
          rcases check_cases hclosed h with ⟨-, hverdict, -⟩ | ⟨-, -, -, rfl⟩ | ⟨-, -, hverdict, -⟩
          · cases hverdict
          · rfl
          · cases hverdict
      | penalise count =>
          rw [Gate.call, penalise, if_neg (by simp [hclosed])] at h
          split at h
          next => cases h
          next =>
            dsimp only at h
            split at h <;> cases h
            rfl

/-- **Once a gate has closed, every later call says so.** -/
theorem close_latches {self gate : Gate} {calls : List Call} {verdicts : List Verdict}
    (hrun : Machine.run (call last) self calls = some (verdicts, gate)) :
    verdicts.Pairwise fun earlier later => earlier = .close → later = .close :=
  Machine.pairwise_answers (P := fun gate : Gate => gate.closed = true)
    (fun _ _ _ _ hstep hclose => closed_of_close (hclose ▸ hstep))
    (fun _ _ _ _ hclosed hstep => call_of_closed hclosed hstep) hrun

end Gate

/-! ## Both paces or neither -/

theorem ByteGate.wouldAdmit_eq_true {self : ByteGate} {now cost : ℕ} :
    self.wouldAdmit last now cost = some true ↔
      self.messages.wouldAdmit last now 1 = some true ∧
        self.bytes.wouldAdmit last now cost = some true := by
  unfold ByteGate.wouldAdmit
  split
  next h => simp [h]
  next h => exact ⟨fun htrue => absurd htrue h, fun htrue => absurd htrue.1 h⟩

/-- **A check charges both paces or neither**, the bytes by the length of the message. -/
theorem ByteGate.check_both_or_neither {self gate : ByteGate} {now len : ℕ} {verdict : Verdict}
    (h : self.check last now len = some (verdict, gate)) :
    verdict = .allow ∧ gate.messages = self.messages.charged now 1 ∧
        gate.bytes = self.bytes.charged now (max (min len U32_MAX) 1) ∨
      verdict ≠ .allow ∧ gate.messages = self.messages ∧ gate.bytes = self.bytes := by
  unfold ByteGate.check at h
  split at h
  next =>
    cases h
    exact Or.inr ⟨by decide, rfl, rfl⟩
  next =>
    dsimp only at h
    split at h
    next => cases h
    next hprobe =>
      obtain ⟨hmessages, hbytes⟩ := ByteGate.wouldAdmit_eq_true.mp hprobe
      rw [Pace.wouldAdmit_eq_true] at hmessages hbytes
      -- What the probes allowed is what the two charges are then made on.
      have hanswer : self.messages.admitOne last now = some (true, self.messages.charged now 1) :=
        Pace.admitCost_eq_some.mpr ⟨hmessages.1, Or.inl ⟨rfl, hmessages.2, rfl⟩⟩
      have hcharge := Pace.admitCost_eq_some.mpr ⟨hbytes.1, Or.inl ⟨rfl, hbytes.2, rfl⟩⟩
      rw [hanswer, hcharge] at h
      cases h
      exact Or.inl ⟨rfl, rfl, rfl⟩
    next =>
      split at h <;> cases h
      · exact Or.inr ⟨by decide, rfl, rfl⟩
      · exact Or.inr ⟨by decide, rfl, rfl⟩

/-! ## The law of the gates -/

/-- What a pace made with a rate and a burst guarantees: few items in every closed interval of
time, and no refusal without a debt. -/
structure PaceLaw (created perSecond burst : ℕ) : Prop where
  few : ∀ last items answers pace,
    Machine.run (Pace.offer last) (Pace.new created perSecond burst) items =
      some (answers, pace) →
    ∀ a length, Pace.admittedIn items answers a length ≤
      max burst 1 + length / (Pace.new created perSecond burst).interval
  owed : ∀ last items answers pace pace' now cost,
    (created :: (items.map Prod.fst ++ [now])).Pairwise (· ≤ ·) →
    Machine.run (Pace.offer last) (Pace.new created perSecond burst) items =
      some (answers, pace) →
    pace.admitCost last now cost = some (false, pace') →
    now + unpaid ((Pace.new created perSecond burst).charges items answers) now +
      (Pace.new created perSecond burst).charge cost ≤ last →
    (max burst 1 - 1) * (Pace.new created perSecond burst).interval <
      unpaid ((Pace.new created perSecond burst).charges items answers) now

/-- What a gate guarantees: it never closes on arrivals half an interval apart, it closes on
arrivals spaced by any less, and it stays closed. -/
structure GateLaw (created perSecond burst strikeLimit : ℕ) : Prop where
  spared : ∀ last (times : List ℕ) verdicts gate,
    (∀ now ∈ times.head?, created ≤ now) →
    (times.IsChain fun t t' => (Pace.new created perSecond burst).interval ≤ 2 * (t' - t)) →
    (∀ now ∈ times, now + (Pace.new created perSecond burst).burst +
      (Pace.new created perSecond burst).interval ≤ last) →
    Machine.run (Gate.call last) (Gate.new created perSecond burst strikeLimit)
      (times.map .check) = some (verdicts, gate) →
    .close ∉ verdicts
  closes : ∀ first spacing,
    2 * spacing < (Pace.new created perSecond burst).interval →
    ∃ checks, ∀ last,
      first + checks * spacing + (Pace.new created perSecond burst).burst ≤ last →
        ∃ verdicts gate,
          Machine.run (Gate.call last) (Gate.new created perSecond burst strikeLimit)
            (Gate.spacedChecks first spacing checks) = some (verdicts, gate) ∧
          .close ∈ verdicts
  latches : ∀ last calls verdicts gate,
    Machine.run (Gate.call last) (Gate.new created perSecond burst strikeLimit) calls =
      some (verdicts, gate) →
    verdicts.Pairwise fun earlier later => earlier = .close → later = .close

/-- What a byte gate guarantees of every check. -/
def BothOrNeither (self : ByteGate) : Prop :=
  ∀ last now len verdict gate, self.check last now len = some (verdict, gate) →
    verdict = .allow ∧ gate.messages = self.messages.charged now 1 ∧
        gate.bytes = self.bytes.charged now (max (min len U32_MAX) 1) ∨
      verdict ≠ .allow ∧ gate.messages = self.messages ∧ gate.bytes = self.bytes

/-- **The law of paces and gates.** -/
theorem rate_gate_law (created perSecond burst strikeLimit : ℕ) (hlimit : 2 ≤ strikeLimit)
    (hmax : strikeLimit ≤ U16_MAX) :
    PaceLaw created perSecond burst ∧ GateLaw created perSecond burst strikeLimit ∧
      ∀ self : ByteGate, BothOrNeither self := by
  refine ⟨⟨fun _ _ _ _ => Pace.admittedIn_le, ?_⟩, ⟨?_, ?_, ?_⟩, ?_⟩
  · intro last items answers pace pace' now cost horder hrun hrefused hfits
    rw [Nat.mul_comm]
    exact Pace.burst_lt_unpaid_of_refused horder hrun hrefused hfits
  · exact fun _ _ _ _ => Gate.close_notMem_of_gaps hlimit
  · exact fun _ _ => Gate.close_mem_of_spacing hmax
  · exact fun _ _ _ _ => Gate.close_latches
  · exact fun _ _ _ _ _ _ => ByteGate.check_both_or_neither

/-- The law at ten a second, a burst of two and four strikes: of three items at once the third is
refused, and after six at once a gate is closed, also to one that would conform again. -/
theorem rate_gate_law_ten :
    (PaceLaw 0 10 2 ∧ GateLaw 0 10 2 4 ∧ ∀ self : ByteGate, BothOrNeither self) ∧
      (∃ pace, Machine.run (Pace.offer 1000000000000) (Pace.new 0 10 2) [(0, 1), (0, 1), (0, 1)] =
        some ([true, true, false], pace)) ∧
      ∃ gate, Machine.run (Gate.call 1000000000000) (Gate.new 0 10 2 4)
          ([0, 0, 0, 0, 0, 0, 300000000].map .check) =
        some ([.allow, .allow, .drop, .drop, .drop, .close, .close], gate) :=
  ⟨rate_gate_law 0 10 2 4 (by decide) (by decide), ⟨_, rfl⟩, ⟨_, rfl⟩⟩

end Lait.Runtime.Budget
