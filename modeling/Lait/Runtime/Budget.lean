import Lait.LeakyBucket
import Lait.Machine

/-!
# Paces

A pace is one deadline: the theoretical arrival time of the next conforming item.  An item
is admitted while that is no further ahead than the burst allows, and pushes it out by its
charge.  A gate counts a strike for every item refused, forgets one for every item
admitted, and closes for good at its limit.  A byte gate runs two paces over one stream
and charges both or neither.

Times are nanoseconds of one clock, and `last` is the latest the platform can represent.
Adding past it is refused by `checkedAdd`, and stops the program where the source uses
`+`; a step that stops has no outcome here.

What carries the laws of a pace is that it is a bucket of charges that time pays off
(`Meters`): the deadline is when all of them are paid.  `LeakyBucket` bounds how many were
taken on in an interval, and a refusal is read off what is unpaid.
-/

namespace Lait.Runtime.Budget

open LeakyBucket

/-- What a gate decided about one item. -/
inductive Verdict
  | allow
  | drop
  | close
  deriving DecidableEq

/-- `Duration::MAX`, in nanoseconds. -/
def DURATION_MAX : ℕ := 18446744073709551615 * 1000000000 + 999999999

/-- `u16::MAX`. -/
def U16_MAX : ℕ := 65535

/-- `u32::MAX`. -/
def U32_MAX : ℕ := 4294967295

/-- `Duration::saturating_mul`. -/
def saturatingMul (duration n : ℕ) : ℕ := min (duration * n) DURATION_MAX

/-! ## Paces -/

/-- A rate limiter as a single deadline. -/
structure Pace where
  /-- The theoretical arrival time of the next conforming item. -/
  next : ℕ
  interval : ℕ
  burst : ℕ
  deriving DecidableEq

/-- `perSecond` items sustained, `burst` items of head start. -/
def Pace.new (now perSecond burst : ℕ) : Pace :=
  let perSecond := max perSecond 1
  let interval := max (1000000000 / perSecond) 1
  { next := now, interval, burst := interval * (max burst 1 - 1) }

section Clock

variable (last : ℕ)

/-- `Instant::checked_add`. -/
def checkedAdd (instant duration : ℕ) : Option ℕ :=
  if instant + duration ≤ last then some (instant + duration) else none

namespace Pace

/-- Whether `cost` items' worth conforms, consuming its share if it does. -/
def admitCost (self : Pace) (now cost : ℕ) : Option (Bool × Pace) :=
  let charge := saturatingMul self.interval (max cost 1)
  match checkedAdd last now self.burst with
  | none => none
  | some ahead =>
      if ahead < max self.next now then some (false, self)
      else
        match checkedAdd last (max self.next now) charge with
        | none => some (false, self)
        | some next => some (true, { self with next })

/-- Whether one item conforms. -/
def admitOne (self : Pace) (now : ℕ) : Option (Bool × Pace) := self.admitCost last now 1

/-- Whether `cost` would conform, without consuming anything. -/
def wouldAdmit (self : Pace) (now cost : ℕ) : Option Bool :=
  let charge := saturatingMul self.interval (max cost 1)
  match checkedAdd last (max self.next now) charge with
  | none => some false
  | some _ => (checkedAdd last now self.burst).map fun ahead => max self.next now ≤ ahead

end Pace

/-! ## Gates -/

/-- A pace and the strikes that turn sustained abuse into a close. -/
structure Gate where
  pace : Pace
  strikes : ℕ
  strikeLimit : ℕ
  closed : Bool
  deriving DecidableEq

namespace Gate

def new (now perSecond burst strikeLimit : ℕ) : Gate where
  pace := Pace.new now perSecond burst
  strikes := 0
  strikeLimit := max strikeLimit 1
  closed := false

def check (self : Gate) (now : ℕ) : Option (Verdict × Gate) :=
  if self.closed then some (.close, self)
  else
    match self.pace.admitOne last now with
    | none => none
    | some (true, pace) => some (.allow, { self with pace, strikes := self.strikes - 1 })
    | some (false, pace) =>
        let strikes := min (self.strikes + 1) U16_MAX
        if self.strikeLimit ≤ strikes then
          some (.close, { self with pace, strikes, closed := true })
        else some (.drop, { self with pace, strikes })

/-- Charge strikes for something the pace cannot see. -/
def penalise (self : Gate) (count : ℕ) : Verdict × Gate :=
  if self.closed then (.close, self)
  else if count = 0 then (.allow, self)
  else
    let strikes := min (self.strikes + count) U16_MAX
    if self.strikeLimit ≤ strikes then (.close, { self with strikes, closed := true })
    else (.drop, { self with strikes })

/-- A call on a gate. -/
inductive Call
  | check (now : ℕ)
  | penalise (count : ℕ)

def call (self : Gate) : Call → Option (Verdict × Gate)
  | .check now => self.check last now
  | .penalise count => some (self.penalise count)

end Gate

/-- Two paces over the same stream: how many, and how large. -/
structure ByteGate where
  messages : Pace
  bytes : Pace
  strikes : ℕ
  strikeLimit : ℕ
  closed : Bool
  deriving DecidableEq

namespace ByteGate

def new (now messagesPerSecond messageBurst bytesPerSecond byteBurst strikeLimit : ℕ) :
    ByteGate where
  messages := Pace.new now messagesPerSecond messageBurst
  bytes := Pace.new now bytesPerSecond byteBurst
  strikes := 0
  strikeLimit := max strikeLimit 1
  closed := false

/-- Both paces are asked before either is charged. -/
def wouldAdmit (self : ByteGate) (now cost : ℕ) : Option Bool :=
  match self.messages.wouldAdmit last now 1 with
  | some true => self.bytes.wouldAdmit last now cost
  | answer => answer

def check (self : ByteGate) (now len : ℕ) : Option (Verdict × ByteGate) :=
  if self.closed then some (.close, self)
  else
    let cost := max (min len U32_MAX) 1
    match self.wouldAdmit last now cost with
    | none => none
    | some true =>
        match self.messages.admitOne last now, self.bytes.admitCost last now cost with
        | some (_, messages), some (_, bytes) =>
            some (.allow, { self with messages, bytes, strikes := self.strikes - 1 })
        | _, _ => none
    | some false =>
        let strikes := min (self.strikes + 1) U16_MAX
        if self.strikeLimit ≤ strikes then some (.close, { self with strikes, closed := true })
        else some (.drop, { self with strikes })

end ByteGate

end Clock

/-! ## What one step does -/

variable {last : ℕ}

theorem checkedAdd_eq_some {instant duration sum : ℕ} :
    checkedAdd last instant duration = some sum ↔
      instant + duration ≤ last ∧ sum = instant + duration := by
  unfold checkedAdd
  split
  next h => simp [h, eq_comm]
  next h => simp [h]

theorem checkedAdd_eq_none {instant duration : ℕ} :
    checkedAdd last instant duration = none ↔ last < instant + duration := by
  unfold checkedAdd
  split
  next h => simp [h]
  next h => simpa using h

namespace Pace

/-- What `cost` items are charged. -/
def charge (self : Pace) (cost : ℕ) : ℕ := saturatingMul self.interval (max cost 1)

/-- The pace with an item charged to it. -/
def charged (self : Pace) (now cost : ℕ) : Pace :=
  { self with next := max self.next now + self.charge cost }

/-- An item conforms, and the clock can represent when it is paid. -/
def Conforms (self : Pace) (now cost : ℕ) (last : ℕ) : Prop :=
  self.next ≤ now + self.burst ∧ max self.next now + self.charge cost ≤ last

/-- **All that offering an item can do**: charge it, or refuse it and change nothing. -/
theorem admitCost_eq_some {self pace : Pace} {now cost : ℕ} {admitted : Bool} :
    self.admitCost last now cost = some (admitted, pace) ↔
      now + self.burst ≤ last ∧
        (admitted = true ∧ self.Conforms now cost last ∧ pace = self.charged now cost ∨
          admitted = false ∧ ¬ self.Conforms now cost last ∧ pace = self) := by
  unfold admitCost
  dsimp only
  cases hahead : checkedAdd last now self.burst with
  | none =>
      rw [checkedAdd_eq_none] at hahead
      simp [hahead]
  | some ahead =>
      obtain ⟨hfits, rfl⟩ := checkedAdd_eq_some.mp hahead
      unfold Conforms
      by_cases hnext : self.next ≤ now + self.burst
      · have hahead : ¬ now + self.burst < max self.next now := by omega
        simp only [hahead, if_false]
        cases hsum : checkedAdd last (max self.next now)
            (saturatingMul self.interval (max cost 1)) with
        | none =>
            rw [checkedAdd_eq_none] at hsum
            simp [hfits, charge, hsum, eq_comm]
        | some next =>
            obtain ⟨hlast, rfl⟩ := checkedAdd_eq_some.mp hsum
            simp [hfits, hnext, charge, charged, hlast, eq_comm]
      · have hahead : now + self.burst < max self.next now := by omega
        simp [hahead, hnext, hfits, eq_comm]

/-- The probe asks what the charge asks. -/
theorem wouldAdmit_eq_true {self : Pace} {now cost : ℕ} :
    self.wouldAdmit last now cost = some true ↔
      now + self.burst ≤ last ∧ self.Conforms now cost last := by
  unfold wouldAdmit Conforms
  dsimp only
  cases hsum : checkedAdd last (max self.next now) (saturatingMul self.interval (max cost 1)) with
  | none =>
      rw [checkedAdd_eq_none] at hsum
      simp [charge, hsum]
  | some next =>
      obtain ⟨hlast, -⟩ := checkedAdd_eq_some.mp hsum
      cases hahead : checkedAdd last now self.burst with
      | none =>
          rw [checkedAdd_eq_none] at hahead
          simp [hahead]
      | some ahead =>
          obtain ⟨hfits, rfl⟩ := checkedAdd_eq_some.mp hahead
          simp [hfits, charge, hlast]

/-! ## A pace is a bucket of charges -/

/-- An item offered at a time. -/
def offer (last : ℕ) (self : Pace) (item : ℕ × ℕ) : Option (Bool × Pace) :=
  self.admitCost last item.1 item.2

/-- The items that were admitted. -/
def admitted (items : List (ℕ × ℕ)) (answers : List Bool) : List (ℕ × ℕ) :=
  ((items.zip answers).filter Prod.snd).map Prod.fst

/-- What the admitted items were charged, each at its time and the latest first. -/
def charges (self : Pace) (items : List (ℕ × ℕ)) (answers : List Bool) : List (ℕ × ℕ) :=
  ((admitted items answers).map fun item => (item.1, self.charge item.2)).reverse

/-- A pace keeps when some charges are paid, all of them taken on within its burst. -/
structure Meters (start : ℕ) (taken : List (ℕ × ℕ)) (pace : Pace) : Prop where
  next : pace.next = clears start taken
  paced : Paced start pace.interval pace.burst taken

theorem interval_new_pos (now perSecond burst : ℕ) : 0 < (Pace.new now perSecond burst).interval :=
  lt_of_lt_of_le Nat.one_pos (le_max_right _ _)

/-- An interval is at most a second, far from what a duration can be. -/
theorem interval_new_le (now perSecond burst : ℕ) :
    (Pace.new now perSecond burst).interval ≤ DURATION_MAX := by
  have hsecond : 1000000000 / max perSecond 1 ≤ 1000000000 := Nat.div_le_self _ _
  show max (1000000000 / max perSecond 1) 1 ≤ DURATION_MAX
  unfold DURATION_MAX
  omega

/-- Every charge is at least an interval. -/
theorem interval_le_charge {self : Pace} (h : self.interval ≤ DURATION_MAX) (cost : ℕ) :
    self.interval ≤ self.charge cost :=
  le_min (Nat.le_mul_of_pos_right _ (lt_of_lt_of_le Nat.one_pos (le_max_right _ _))) h

theorem charge_one {self : Pace} (h : self.interval ≤ DURATION_MAX) :
    self.charge 1 = self.interval := by
  rw [charge, saturatingMul, max_self, Nat.mul_one, min_eq_left h]

/-- Offering an item changes neither the interval nor the burst. -/
theorem admitCost_rates {self pace : Pace} {now cost : ℕ} {answer : Bool}
    (h : self.admitCost last now cost = some (answer, pace)) :
    pace.interval = self.interval ∧ pace.burst = self.burst := by
  obtain ⟨-, ⟨-, -, rfl⟩ | ⟨-, -, rfl⟩⟩ := admitCost_eq_some.mp h <;> exact ⟨rfl, rfl⟩

theorem charges_cons (self : Pace) (item : ℕ × ℕ) (items : List (ℕ × ℕ)) (answer : Bool)
    (answers : List Bool) :
    self.charges (item :: items) (answer :: answers) = self.charges items answers ++
      if answer = true then [(item.1, self.charge item.2)] else [] := by
  cases answer <;> simp [charges, admitted]

/-- **A run of a pace meters what it charges.** -/
theorem Meters.run {start : ℕ} {taken : List (ℕ × ℕ)} {self pace : Pace}
    {items : List (ℕ × ℕ)} {answers : List Bool} (hinterval : self.interval ≤ DURATION_MAX)
    (h : Meters start taken self)
    (hrun : Machine.run (offer last) self items = some (answers, pace)) :
    Meters start (self.charges items answers ++ taken) pace ∧
      pace.interval = self.interval ∧ pace.burst = self.burst := by
  induction items generalizing self taken answers with
  | nil =>
      cases hrun
      exact ⟨h, rfl, rfl⟩
  | cons item items ih =>
      obtain ⟨answer, next, rest, hstep, hrest, rfl⟩ := Machine.run_cons.mp hrun
      obtain ⟨hi, hb⟩ := admitCost_rates hstep
      have hcharges : next.charges items rest = self.charges items rest := by
        simp only [charges, charge, hi]
      rw [charges_cons, List.append_assoc]
      obtain ⟨-, ⟨rfl, ⟨hnext, -⟩, rfl⟩ | ⟨rfl, -, rfl⟩⟩ := admitCost_eq_some.mp hstep
      · -- An admitted item is one more charge, the latest.
        have hmeters : Meters start ((item.1, self.charge item.2) :: taken)
            (self.charged item.1 item.2) := by
          refine ⟨?_, .cons h.paced ?_ (interval_le_charge hinterval item.2)⟩
          · show max self.next item.1 + _ = _
            rw [h.next, clears]
          · rw [← h.next]
            exact hnext
        have hinterval' : (self.charged item.1 item.2).interval ≤ DURATION_MAX := hinterval
        have hlater := ih hinterval' hmeters hrest
        rw [hcharges] at hlater
        rw [if_pos rfl, List.singleton_append]
        exact hlater
      · rw [if_neg Bool.false_ne_true, List.nil_append]
        exact ih hinterval h hrest

theorem Meters.new (created perSecond burst : ℕ) :
    Meters created [] (Pace.new created perSecond burst) :=
  ⟨rfl, .nil⟩

/-- How many items a run admitted in a closed interval of time. -/
def admittedIn (items : List (ℕ × ℕ)) (answers : List Bool) (a length : ℕ) : ℕ :=
  (admitted items answers).countP fun item => a ≤ item.1 ∧ item.1 ≤ a + length

theorem countIn_charges (self : Pace) (items : List (ℕ × ℕ)) (answers : List Bool)
    (a length : ℕ) :
    countIn (self.charges items answers) a length = admittedIn items answers a length := by
  rw [countIn, charges, List.countP_reverse, List.countP_map]
  rfl

/-- **Few items in every interval.** -/
theorem admittedIn_le {created perSecond burst : ℕ} {items : List (ℕ × ℕ)} {answers : List Bool}
    {pace : Pace}
    (hrun : Machine.run (offer last) (Pace.new created perSecond burst) items =
      some (answers, pace)) (a length : ℕ) :
    admittedIn items answers a length ≤
      max burst 1 + length / (Pace.new created perSecond burst).interval := by
  obtain ⟨hmeters, hinterval, hburst⟩ :=
    (Meters.new created perSecond burst).run (interval_new_le _ _ _) hrun
  have hpaced := hmeters.paced
  rw [hinterval, hburst, List.append_nil] at hpaced
  rw [← countIn_charges (Pace.new created perSecond burst)]
  exact hpaced.countIn_le (le_max_right _ _) (interval_new_pos _ _ _) a length

theorem admitted_sublist (items : List (ℕ × ℕ)) (answers : List Bool) :
    (admitted items answers).Sublist items := by
  induction items generalizing answers with
  | nil => simp [admitted]
  | cons item items ih =>
      cases answers with
      | nil => simp [admitted]
      | cons answer answers =>
          cases answer with
          | false => exact (ih answers).cons item
          | true => exact (ih answers).cons_cons item

/-- The charges of a run stand in the order of its items. -/
theorem inOrder_charges {created now : ℕ} (self : Pace) {items : List (ℕ × ℕ)}
    (answers : List Bool)
    (horder : (created :: (items.map Prod.fst ++ [now])).Pairwise (· ≤ ·)) :
    InOrder created (self.charges items answers) now := by
  refine inOrder_reverse (horder.sublist (List.Sublist.cons_cons created ?_))
  rw [List.map_map]
  exact ((admitted_sublist items answers).map Prod.fst).append (List.Sublist.refl [now])

/-- **A refusal is owed.**  An item is refused only while more than the burst is unpaid of what
the earlier items were charged, if the clock can represent when it would be paid. -/
theorem burst_lt_unpaid_of_refused {created perSecond burst now cost : ℕ}
    {items : List (ℕ × ℕ)} {answers : List Bool} {pace pace' : Pace}
    (horder : (created :: (items.map Prod.fst ++ [now])).Pairwise (· ≤ ·))
    (hrun : Machine.run (offer last) (Pace.new created perSecond burst) items =
      some (answers, pace))
    (hrefused : pace.admitCost last now cost = some (false, pace'))
    (hfits : now + unpaid ((Pace.new created perSecond burst).charges items answers) now +
      (Pace.new created perSecond burst).charge cost ≤ last) :
    (Pace.new created perSecond burst).burst <
      unpaid ((Pace.new created perSecond burst).charges items answers) now := by
  obtain ⟨hmeters, hinterval, hburst⟩ :=
    (Meters.new created perSecond burst).run (interval_new_le _ _ _) hrun
  rw [List.append_nil] at hmeters
  rw [unpaid_eq (inOrder_charges _ answers horder), ← hmeters.next] at hfits ⊢
  obtain ⟨-, ⟨hfalse, -⟩ | ⟨-, hrefuses, -⟩⟩ := admitCost_eq_some.mp hrefused
  · cases hfalse
  · have hcharge : pace.charge cost = (Pace.new created perSecond burst).charge cost := by
      rw [charge, charge, hinterval]
    rw [Conforms, hburst, hcharge] at hrefuses
    omega

end Pace

end Lait.Runtime.Budget
