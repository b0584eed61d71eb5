import Lait.Machine
import Lait.Runtime.Transient

/-!
# Retirement

A retirement says that a session is finished with a scope up to a sequence.  The store keeps
one watermark for a key, the last one that came, and one slot for a key, whatever session it
is of.  So a later retirement can undo an earlier one (`retired_undone`), a retirement can take
a slot of another session along, and an item can be refused for being below another session's
sequence; and a watermark is written whether there is room for it or not.

`Sound` excludes the four, one step at a time.  Under it every retirement in its grace window is
covered by the watermark of its key (`Kept.marked`), and that is all the rest needs.
-/

namespace Lait.Runtime.Transient

/-- A retirement, as it came. -/
structure Retirement where
  key : SlotKey
  epoch : Bytes
  seq : ℕ
  at_ : ℕ
  deriving DecidableEq

/-- An item that was stored. -/
structure Storing where
  key : SlotKey
  epoch : Bytes
  seq : ℕ
  deriving DecidableEq

/-- A store with the clock, and a log of what it stored and of what was retired. -/
structure Logged where
  store : TransientStore
  clock : ℕ
  stored : List Storing
  retirements : List Retirement

/-- A call on the store. -/
inductive Call
  | admitItem (item : TransientItem) (admittedEpoch : Bytes) (now : ℕ)
  | retire (scope : Target) (kind : TransientKind) (connectionEpoch : Bytes) (seq now : ℕ)
  | sweep (now : ℕ)
  | forgetSession (connectionEpoch : Bytes)

inductive Answer
  | outcome (outcome : AdmitOutcome)
  | retired
  | dropped (slots : ℕ)
  deriving DecidableEq

namespace Logged

variable [Postcard Anchor]

/-- A store that has heard nothing. -/
def withCapacity (capacity : ℕ) : Logged where
  store := TransientStore.withCapacity capacity
  clock := 0
  stored := []
  retirements := []

/-- What the log says of an item that was offered. -/
def storing (outcome : AdmitOutcome) (item : TransientItem) : List Storing :=
  if outcome = .stored then [⟨item.slotKey, item.connectionEpoch, item.seq⟩] else []

/-- One call.  The clock does not go back. -/
def step (self : Logged) : Call → Option (Answer × Logged)
  | .admitItem item admittedEpoch now =>
      if now < self.clock then none
      else
        let (outcome, store) := self.store.admitItem item admittedEpoch now
        some (.outcome outcome, {
          self with store, clock := now, stored := self.stored ++ storing outcome item })
  | .retire scope kind connectionEpoch seq now =>
      if now < self.clock then none
      else
        some (.retired, {
          self with
          store := self.store.retire scope kind connectionEpoch seq now
          clock := now
          retirements := self.retirements ++ [⟨slotKey scope kind, connectionEpoch, seq, now⟩] })
  | .sweep now =>
      if now < self.clock then none
      else
        let (count, store) := self.store.sweep now
        some (.dropped count, { self with store, clock := now })
  | .forgetSession connectionEpoch =>
      let (count, store) := self.store.forgetSession connectionEpoch
      some (.dropped count, { self with store })

/-! ## The condition -/

/-- An item above everything its own session has stored or retired for its key. -/
def Newest (self : Logged) (item : TransientItem) : Prop :=
  (∀ storing ∈ self.stored, storing.key = item.slotKey → storing.epoch = item.connectionEpoch →
      storing.seq < item.seq) ∧
    ∀ retirement ∈ self.retirements, retirement.key = item.slotKey →
      retirement.epoch = item.connectionEpoch → retirement.seq < item.seq

/-- The condition on one call, in the state before it: an item that is the newest of its session
does not meet a slot of another session that is as high; a retirement does not meet a slot of
another session, takes over from a watermark in its window only of its own session and not above
it, and finds room for its watermark. -/
def Sound (self : Logged) : Call → Prop
  | .admitItem item admittedEpoch _ =>
      item.validate = .ok () → item.connectionEpoch = admittedEpoch → self.Newest item →
        ∀ slot : TransientSlot, self.store.slots[item.slotKey]? = some slot →
          slot.connectionEpoch ≠ item.connectionEpoch → slot.seq < item.seq
  | .retire scope kind connectionEpoch seq now =>
      (∀ slot : TransientSlot, self.store.slots[slotKey scope kind]? = some slot →
        slot.connectionEpoch = connectionEpoch) ∧
      (∀ mark : Watermark, self.store.retired[slotKey scope kind]? = some mark →
        now < mark.at_ + CARET_GRACE → mark.epoch = connectionEpoch ∧ mark.seq ≤ seq) ∧
      (self.store.retired[slotKey scope kind]? = none →
        self.store.retired.size < self.store.capacity)
  | .sweep _ => True
  | .forgetSession _ => True

/-! ## What is kept -/

/-- What a retirement covers of a session and a sequence. -/
def Retirement.Covers (retirement : Retirement) (key : SlotKey) (epoch : Bytes) (seq : ℕ) : Prop :=
  retirement.key = key ∧ retirement.epoch = epoch ∧ seq ≤ retirement.seq

/-- What is kept: a retirement in its window is covered by the watermark of its key, every
watermark and every slot is on the log, no slot is covered by a retirement but one that was
stored past its window, and both maps have room. -/
structure Kept (logged : Logged) : Prop where
  marked : ∀ retirement ∈ logged.retirements, logged.clock < retirement.at_ + CARET_GRACE →
    ∃ mark : Watermark, logged.store.retired[retirement.key]? = some mark ∧
      mark.epoch = retirement.epoch ∧ retirement.seq ≤ mark.seq ∧ retirement.at_ ≤ mark.at_
  onLog : ∀ (key : SlotKey) (mark : Watermark), logged.store.retired[key]? = some mark →
    ⟨key, mark.epoch, mark.seq, mark.at_⟩ ∈ logged.retirements
  past : ∀ retirement ∈ logged.retirements, retirement.at_ ≤ logged.clock
  stored : ∀ (key : SlotKey) (slot : TransientSlot), logged.store.slots[key]? = some slot →
    ⟨key, slot.connectionEpoch, slot.seq⟩ ∈ logged.stored
  uncovered : ∀ (key : SlotKey) (slot : TransientSlot), logged.store.slots[key]? = some slot →
    ∀ retirement ∈ logged.retirements,
      Retirement.Covers retirement key slot.connectionEpoch slot.seq →
        retirement.at_ + CARET_GRACE ≤ slot.arrivedAt
  slots_le : logged.store.slots.size ≤ logged.store.capacity
  retired_le : logged.store.retired.size ≤ logged.store.capacity

variable {self after : Logged} {call : Call} {answer : Answer} {item : TransientItem}
  {admittedEpoch : Bytes} {now : ℕ}

omit [Postcard Anchor] in
/-- A store that has heard nothing keeps all of it. -/
theorem kept_withCapacity (capacity : ℕ) : Kept (withCapacity capacity) where
  marked retirement h := absurd h List.not_mem_nil
  onLog key mark h := by cases (BTreeMap.get_empty key).symm.trans h
  past retirement h := absurd h List.not_mem_nil
  stored key slot h := by cases (BTreeMap.get_empty key).symm.trans h
  uncovered key slot h := by cases (BTreeMap.get_empty key).symm.trans h
  slots_le := by
    have hsize : (∅ : BTreeMap SlotKey TransientSlot).size = 0 := Std.ExtTreeMap.size_empty
    exact hsize.trans_le (Nat.zero_le _)
  retired_le := by
    have hsize : (∅ : BTreeMap SlotKey Watermark).size = 0 := Std.ExtTreeMap.size_empty
    exact hsize.trans_le (Nat.zero_le _)

end Logged

/-! ## What an offer does -/

namespace TransientStore

variable [Postcard Anchor] {self : TransientStore} {item : TransientItem} {admittedEpoch : Bytes}
  {now : ℕ}

/-- The ways an offer ends. -/
theorem admitItem_cases (self : TransientStore) (item : TransientItem) (admittedEpoch : Bytes)
    (now : ℕ) :
    (self.admitItem item admittedEpoch now).1 ≠ .stored ∧
        (self.admitItem item admittedEpoch now).2 = self ∨
      (self.admitItem item admittedEpoch now).1 = .stored ∧
        (self.admitItem item admittedEpoch now).2 =
          { self with slots := self.slots.insert item.slotKey (slotOf item now) } ∧
        (∀ mark : Watermark, self.retired[item.slotKey]? = some mark →
          mark.epoch = item.connectionEpoch → mark.seq < item.seq) ∧
        (self.slots[item.slotKey]? = none → self.slots.size < self.capacity) := by
  unfold admitItem
  cases hvalid : item.validate with
  | error invalid => exact Or.inl ⟨by simp, rfl⟩
  | ok =>
      dsimp only
      split
      next => exact Or.inl ⟨by simp, rfl⟩
      next =>
        split
        next => exact Or.inl ⟨by simp, rfl⟩
        next hcovers =>
          have hmark : ∀ mark : Watermark, self.retired[item.slotKey]? = some mark →
              mark.epoch = item.connectionEpoch → mark.seq < item.seq := by
            intro mark hget hepoch
            by_contra hle
            refine hcovers ?_
            rw [hget, Option.any_some, covers, Bool.and_eq_true, decide_eq_true_eq,
              decide_eq_true_eq]
            exact ⟨hepoch, not_lt.mp hle⟩
          unfold place
          cases hslot : self.slots[item.slotKey]? with
          | none =>
              dsimp only
              split
              next => exact Or.inl ⟨by simp, rfl⟩
              next hroom => exact Or.inr ⟨rfl, rfl, hmark, fun _ => not_le.mp hroom⟩
          | some existing =>
              dsimp only
              split
              next => exact Or.inl ⟨by simp, rfl⟩
              next =>
                refine Or.inr ⟨rfl, rfl, hmark, fun hnone => ?_⟩
                cases hnone

/-- An item that is valid, of the session, above every watermark of its session and above what
its slot holds is stored, or there is no room. -/
theorem admitItem_newest (hvalid : item.validate = .ok ())
    (hepoch : item.connectionEpoch = admittedEpoch)
    (hmark : ∀ mark : Watermark, self.retired[item.slotKey]? = some mark →
      mark.epoch = item.connectionEpoch → mark.seq < item.seq)
    (hslot : ∀ slot : TransientSlot, self.slots[item.slotKey]? = some slot → slot.seq < item.seq) :
    (self.admitItem item admittedEpoch now).1 = .stored ∨
      (self.admitItem item admittedEpoch now).1 = .evicted ∧ self.capacity ≤ self.slots.size ∧
        self.slots[item.slotKey]? = none := by
  have hopen : ¬ (self.retired[item.slotKey]?.any fun mark => covers mark item) = true := by
    intro hany
    cases hget : self.retired[item.slotKey]? with
    | none =>
        rw [hget] at hany
        cases hany
    | some mark =>
        rw [hget, Option.any_some, covers, Bool.and_eq_true, decide_eq_true_eq,
          decide_eq_true_eq] at hany
        exact absurd hany.2 (not_le.mpr (hmark mark hget hany.1))
  unfold admitItem
  rw [hvalid]
  dsimp only
  rw [if_neg (not_not.mpr hepoch), if_neg hopen]
  unfold place
  cases hget : self.slots[item.slotKey]? with
  | none =>
      dsimp only
      split
      next hfull => exact Or.inr ⟨rfl, hfull, rfl⟩
      next => exact Or.inl rfl
  | some existing =>
      dsimp only
      rw [if_neg (not_le.mpr (hslot existing hget))]
      exact Or.inl rfl

omit [Postcard Anchor] in
/-- A slot a retirement leaves was there, and is not one it lets go of. -/
theorem of_get_retire {scope : Target} {kind : TransientKind} {connectionEpoch : Bytes} {seq : ℕ}
    {key : SlotKey} {slot : TransientSlot}
    (h : (self.retire scope kind connectionEpoch seq now).slots[key]? = some slot) :
    self.slots[key]? = some slot ∧
      (key = slotKey scope kind → letsGo slot connectionEpoch seq = false) := by
  unfold retire at h
  dsimp only at h
  split at h
  next hall =>
    rw [BTreeMap.get_erase] at h
    split at h
    next => cases h
    next hne => exact ⟨h, fun heq => absurd heq.symm hne⟩
  next hkept =>
    refine ⟨h, fun heq => ?_⟩
    subst heq
    rw [h, Option.all_some, Bool.not_eq_true] at hkept
    exact hkept

omit [Postcard Anchor] in
/-- A slot a retirement takes away is the one of its key, and one it lets go of. -/
theorem of_get_retire_ne {scope : Target} {kind : TransientKind} {connectionEpoch : Bytes}
    {seq : ℕ} {key : SlotKey} {slot : TransientSlot} (hget : self.slots[key]? = some slot)
    (h : (self.retire scope kind connectionEpoch seq now).slots[key]? ≠ some slot) :
    key = slotKey scope kind ∧ letsGo slot connectionEpoch seq = true := by
  unfold retire at h
  dsimp only at h
  split at h
  next hall =>
    rw [BTreeMap.get_erase] at h
    split at h
    next heq =>
      subst heq
      rw [hget, Option.all_some] at hall
      exact ⟨rfl, hall⟩
    next => exact absurd hget h
  next => exact absurd hget h

omit [Postcard Anchor] in
/-- A slot a sweep leaves was there. -/
theorem of_get_sweep {key : SlotKey} {slot : TransientSlot}
    (h : (self.sweep now).2.slots[key]? = some slot) : self.slots[key]? = some slot := by
  unfold sweep at h
  dsimp only at h
  rw [BTreeMap.get_filter, Option.filter_eq_some_iff] at h
  exact h.1

omit [Postcard Anchor] in
/-- A watermark is swept exactly when its window is over. -/
theorem get_sweep_retired {key : SlotKey} {mark : Watermark} :
    (self.sweep now).2.retired[key]? = some mark ↔
      self.retired[key]? = some mark ∧ now < mark.at_ + CARET_GRACE := by
  have hgrace : 0 < CARET_GRACE := by decide
  unfold sweep
  dsimp only
  rw [BTreeMap.get_filter, Option.filter_eq_some_iff, decide_eq_true_eq]
  refine and_congr_right fun _ => ?_
  omega

omit [Postcard Anchor] in
/-- A slot that is left when a session is forgotten was there. -/
theorem of_get_forgetSession {connectionEpoch : Bytes} {key : SlotKey} {slot : TransientSlot}
    (h : (self.forgetSession connectionEpoch).2.slots[key]? = some slot) :
    self.slots[key]? = some slot := by
  unfold forgetSession at h
  dsimp only at h
  rw [BTreeMap.get_filter, Option.filter_eq_some_iff] at h
  exact h.1

end TransientStore

/-! ## What a step keeps -/

namespace Logged

open TransientStore

variable [Postcard Anchor] {self after : Logged} {call : Call} {answer : Answer}
  {item : TransientItem} {admittedEpoch connectionEpoch : Bytes} {scope : Target}
  {kind : TransientKind} {seq now : ℕ}

theorem step_admitItem :
    self.step (.admitItem item admittedEpoch now) = some (answer, after) ↔
      self.clock ≤ now ∧ answer = .outcome (self.store.admitItem item admittedEpoch now).1 ∧
        after = {
          self with
          store := (self.store.admitItem item admittedEpoch now).2
          clock := now
          stored := self.stored ++ storing (self.store.admitItem item admittedEpoch now).1 item } := by
  unfold step
  dsimp only
  split
  next hlt => simp [not_le.mpr hlt]
  next hle =>
    rw [Option.some_inj, Prod.mk_inj, eq_comm, @eq_comm _ _ after]
    exact (and_iff_right (not_lt.mp hle)).symm

theorem step_retire :
    self.step (.retire scope kind connectionEpoch seq now) = some (answer, after) ↔
      self.clock ≤ now ∧ answer = .retired ∧ after = {
        self with
        store := self.store.retire scope kind connectionEpoch seq now
        clock := now
        retirements := self.retirements ++ [⟨slotKey scope kind, connectionEpoch, seq, now⟩] } := by
  rw [step]
  split
  next hlt => simp [not_le.mpr hlt]
  next hle =>
    rw [Option.some_inj, Prod.mk_inj, eq_comm, @eq_comm _ _ after]
    exact (and_iff_right (not_lt.mp hle)).symm

theorem step_sweep :
    self.step (.sweep now) = some (answer, after) ↔
      self.clock ≤ now ∧ answer = .dropped (self.store.sweep now).1 ∧
        after = { self with store := (self.store.sweep now).2, clock := now } := by
  rw [step]
  split
  next hlt => simp [not_le.mpr hlt]
  next hle =>
    rw [Option.some_inj, Prod.mk_inj, eq_comm, @eq_comm _ _ after]
    exact (and_iff_right (not_lt.mp hle)).symm

/-- **No retirement in its window covers what is stored.** -/
theorem Kept.stored_uncovered (h : Kept self) (hclock : self.clock ≤ now)
    (hstored : (self.store.admitItem item admittedEpoch now).1 = .stored) :
    ∀ retirement ∈ self.retirements,
      Retirement.Covers retirement item.slotKey item.connectionEpoch item.seq →
        retirement.at_ + CARET_GRACE ≤ now := by
  rintro retirement hmem ⟨hkey, hepoch, hle⟩
  by_contra hlive
  rcases admitItem_cases self.store item admittedEpoch now with ⟨hnot, -⟩ | ⟨-, -, hmark, -⟩
  · exact hnot hstored
  · obtain ⟨mark, hget, hsame, hseq, -⟩ := h.marked retirement hmem (by omega)
    rw [hkey] at hget
    have hbelow := hmark mark hget (hsame.trans hepoch)
    omega

/-- An offer keeps it. -/
theorem Kept.admitItem (h : Kept self)
    (hstep : self.step (.admitItem item admittedEpoch now) = some (answer, after)) : Kept after := by
  obtain ⟨hclock, -, rfl⟩ := step_admitItem.mp hstep
  rcases admitItem_cases self.store item admittedEpoch now with
    ⟨hnot, hsame⟩ | ⟨hstored, hinsert, -, hroom⟩
  · rw [hsame, storing, if_neg hnot, List.append_nil]
    refine ⟨fun retirement hmem hlive => ?_, h.onLog, fun retirement hmem => ?_, h.stored,
      h.uncovered, h.slots_le, h.retired_le⟩
    · exact h.marked retirement hmem (hclock.trans_lt hlive)
    · exact (h.past retirement hmem).trans hclock
  · have huncovered := h.stored_uncovered hclock hstored
    rw [hinsert, storing, if_pos hstored]
    refine ⟨fun retirement hmem hlive => ?_, h.onLog, fun retirement hmem => ?_,
      fun key slot hslot => ?_, fun key slot hslot retirement hmem hcovers => ?_, ?_, h.retired_le⟩
    · exact h.marked retirement hmem (hclock.trans_lt hlive)
    · exact (h.past retirement hmem).trans hclock
    · rw [BTreeMap.get_insert] at hslot
      split at hslot
      next heq =>
        cases hslot
        subst heq
        exact List.mem_append_right _ List.mem_cons_self
      next => exact List.mem_append_left _ (h.stored key slot hslot)
    · rw [BTreeMap.get_insert] at hslot
      split at hslot
      next heq =>
        cases hslot
        subst heq
        exact huncovered retirement hmem hcovers
      next => exact h.uncovered key slot hslot retirement hmem hcovers
    · dsimp only
      rw [Std.ExtTreeMap.size_insert]
      split
      next => exact h.slots_le
      next habsent =>
        rw [BTreeMap.contains_iff, ← Option.ne_none_iff_exists', not_not] at habsent
        exact hroom habsent

/-- A retirement keeps it, if the watermark it takes over from is not above it. -/
theorem Kept.retire (h : Kept self)
    (hsound : self.Sound (.retire scope kind connectionEpoch seq now))
    (hstep : self.step (.retire scope kind connectionEpoch seq now) = some (answer, after)) :
    Kept after := by
  obtain ⟨-, hover, hroom⟩ := hsound
  obtain ⟨hclock, -, rfl⟩ := step_retire.mp hstep
  refine ⟨fun retirement hmem hlive => ?_, fun key mark hget => ?_, fun retirement hmem => ?_,
    fun key slot hslot => ?_, fun key slot hslot retirement hmem hcovers => ?_, ?_, ?_⟩
  · dsimp only [TransientStore.retire] at hlive ⊢
    rw [BTreeMap.get_insert]
    rcases List.mem_append.mp hmem with hmem | hmem
    · obtain ⟨mark, hget, hepoch, hseq, hat⟩ := h.marked retirement hmem (hclock.trans_lt hlive)
      split
      next heq =>
        -- the watermark of the earlier retirement is in its window too, so it is not above
        rw [← heq] at hget
        obtain ⟨hsame, hle⟩ := hover mark hget (by omega)
        exact ⟨_, rfl, hsame.symm.trans hepoch, hseq.trans hle, (h.past retirement hmem).trans hclock⟩
      next => exact ⟨mark, hget, hepoch, hseq, hat⟩
    · cases List.mem_singleton.mp hmem
      rw [if_pos rfl]
      exact ⟨_, rfl, rfl, le_rfl, le_rfl⟩
  · dsimp only [TransientStore.retire] at hget
    rw [BTreeMap.get_insert] at hget
    split at hget
    next heq =>
      cases hget
      subst heq
      exact List.mem_append_right _ List.mem_cons_self
    next => exact List.mem_append_left _ (h.onLog key mark hget)
  · rcases List.mem_append.mp hmem with hmem | hmem
    · exact (h.past retirement hmem).trans hclock
    · cases List.mem_singleton.mp hmem
      exact le_rfl
  · exact h.stored key slot (of_get_retire hslot).1
  · obtain ⟨hslot, hkept⟩ := of_get_retire hslot
    rcases List.mem_append.mp hmem with hmem | hmem
    · exact h.uncovered key slot hslot retirement hmem hcovers
    · -- what the retirement covers is what it lets go of
      cases List.mem_singleton.mp hmem
      obtain ⟨hkey, hepoch, hle⟩ := hcovers
      have hlets := hkept hkey.symm
      rw [letsGo, Bool.or_eq_false_iff] at hlets
      exact absurd hle (of_decide_eq_false hlets.2)
  · dsimp only [TransientStore.retire]
    split
    next => exact Std.ExtTreeMap.size_erase_le.trans h.slots_le
    next => exact h.slots_le
  · dsimp only [TransientStore.retire]
    rw [Std.ExtTreeMap.size_insert]
    split
    next => exact h.retired_le
    next habsent =>
      rw [BTreeMap.contains_iff, ← Option.ne_none_iff_exists', not_not] at habsent
      exact hroom habsent

/-- A sweep keeps it: a watermark it drops covers no retirement in its window. -/
theorem Kept.sweep (h : Kept self) (hstep : self.step (.sweep now) = some (answer, after)) :
    Kept after := by
  obtain ⟨hclock, -, rfl⟩ := step_sweep.mp hstep
  refine ⟨fun retirement hmem hlive => ?_, fun key mark hget => ?_, fun retirement hmem => ?_,
    fun key slot hslot => ?_, fun key slot hslot => ?_, ?_, ?_⟩
  · obtain ⟨mark, hget, hepoch, hseq, hat⟩ := h.marked retirement hmem (hclock.trans_lt hlive)
    dsimp only at hlive
    exact ⟨mark, get_sweep_retired.mpr ⟨hget, by omega⟩, hepoch, hseq, hat⟩
  · exact h.onLog key mark (get_sweep_retired.mp hget).1
  · exact (h.past retirement hmem).trans hclock
  · exact h.stored key slot (of_get_sweep hslot)
  · exact h.uncovered key slot (of_get_sweep hslot)
  · exact Std.ExtTreeMap.size_filter_le_size.trans h.slots_le
  · exact Std.ExtTreeMap.size_filter_le_size.trans h.retired_le

/-- Forgetting a session keeps it. -/
theorem Kept.forgetSession (h : Kept self)
    (hstep : self.step (.forgetSession connectionEpoch) = some (answer, after)) : Kept after := by
  cases hstep
  refine ⟨h.marked, h.onLog, h.past, fun key slot hslot => ?_, fun key slot hslot => ?_, ?_,
    h.retired_le⟩
  · exact h.stored key slot (of_get_forgetSession hslot)
  · exact h.uncovered key slot (of_get_forgetSession hslot)
  · exact Std.ExtTreeMap.size_filter_le_size.trans h.slots_le

/-- **One call keeps it.** -/
theorem Kept.step (h : Kept self) (hsound : self.Sound call)
    (hstep : self.step call = some (answer, after)) : Kept after := by
  cases call with
  | admitItem item admittedEpoch now => exact h.admitItem hstep
  | retire scope kind connectionEpoch seq now => exact h.retire hsound hstep
  | sweep now => exact h.sweep hstep
  | forgetSession connectionEpoch => exact h.forgetSession hstep

/-! ## The law -/

/-- What holds of retirements after some calls. -/
structure RetirementLaw (logged : Logged) : Prop where
  /-- Nothing a retirement covers is stored in its window. -/
  undone : ∀ item admittedEpoch now after,
    logged.step (.admitItem item admittedEpoch now) = some (.outcome .stored, after) →
      ∀ retirement ∈ logged.retirements,
        Retirement.Covers retirement item.slotKey item.connectionEpoch item.seq →
          retirement.at_ + CARET_GRACE ≤ now
  /-- A retirement removes slots of its session alone, and none above its sequence. -/
  removes : ∀ scope kind connectionEpoch seq now answer after,
    logged.Sound (.retire scope kind connectionEpoch seq now) →
      logged.step (.retire scope kind connectionEpoch seq now) = some (answer, after) →
        ∀ (key : SlotKey) (slot : TransientSlot), logged.store.slots[key]? = some slot →
          after.store.slots[key]? ≠ some slot →
            key = slotKey scope kind ∧ slot.connectionEpoch = connectionEpoch ∧ slot.seq ≤ seq
  /-- The newest item of its session is stored if there is room. -/
  refuses : ∀ item admittedEpoch now outcome after,
    logged.Sound (.admitItem item admittedEpoch now) → item.validate = .ok () →
      item.connectionEpoch = admittedEpoch → logged.Newest item →
        logged.step (.admitItem item admittedEpoch now) = some (.outcome outcome, after) →
          outcome = .stored ∨ outcome = .evicted ∧
            logged.store.capacity ≤ logged.store.slots.size ∧
              logged.store.slots[item.slotKey]? = none
  slots_le : logged.store.slots.size ≤ logged.store.capacity
  retired_le : logged.store.retired.size ≤ logged.store.capacity

theorem Kept.law (h : Kept self) : RetirementLaw self where
  undone item admittedEpoch now after hstep := by
    obtain ⟨hclock, hanswer, -⟩ := step_admitItem.mp hstep
    exact h.stored_uncovered hclock (Answer.outcome.inj hanswer).symm
  removes scope kind connectionEpoch seq now answer after hsound hstep key slot hslot hgone := by
    obtain ⟨-, -, rfl⟩ := step_retire.mp hstep
    obtain ⟨hkey, hlets⟩ := of_get_retire_ne hslot hgone
    subst hkey
    have hepoch := hsound.1 slot hslot
    rw [letsGo, Bool.or_eq_true, decide_eq_true_eq, decide_eq_true_eq] at hlets
    exact ⟨rfl, hepoch, hlets.resolve_left (not_not.mpr hepoch)⟩
  refuses item admittedEpoch now outcome after hsound hvalid hepoch hnewest hstep := by
    obtain ⟨-, hanswer, -⟩ := step_admitItem.mp hstep
    rw [Answer.outcome.inj hanswer]
    refine admitItem_newest hvalid hepoch (fun mark hget hsame => ?_) fun slot hslot => ?_
    · exact hnewest.2 _ (h.onLog item.slotKey mark hget) rfl hsame
    · by_cases hsame : slot.connectionEpoch = item.connectionEpoch
      · exact hnewest.1 _ (h.stored item.slotKey slot hslot) rfl hsame
      · exact hsound hvalid hepoch hnewest slot hslot hsame
  slots_le := h.slots_le
  retired_le := h.retired_le

/-- **Retirement is not undone**, in every run whose calls meet the condition. -/
theorem retirement_holds {capacity : ℕ} {calls : List Call} {answers : List Answer}
    (hsound : Machine.Along step Sound (withCapacity capacity) calls)
    (hrun : Machine.run step (withCapacity capacity) calls = some (answers, self)) :
    RetirementLaw self := by
  have hkept : Kept self :=
    Machine.invariant_along (fun before call answer after h hcall => h.step hcall)
      (kept_withCapacity capacity) hsound hrun
  exact hkept.law

/-- Somebody who is looking at an issue. -/
def looking (seq : ℕ) : TransientItem where
  connectionEpoch := ⟨[1]⟩
  seq := seq
  scope := .body (Bytes.ofString "a.b") ⟨[2]⟩
  payload := .presence

/-- Somebody who is done looking up to a sequence. -/
def doneLooking (seq now : ℕ) : Call := .retire (looking seq).scope .presence ⟨[1]⟩ seq now

omit [Postcard Anchor] in
/-- The law after a retirement and an item above it. -/
theorem retirement_holds_two :
    let _ : Postcard Anchor := tableCodec []
    ∃ answers logged, Machine.run step (withCapacity 4)
        [doneLooking 5 0, .admitItem (looking 6) ⟨[1]⟩ 1] = some (answers, logged) ∧
      RetirementLaw logged := by
  intro codec
  have hsome : (Machine.run step (withCapacity 4)
      [doneLooking 5 0, .admitItem (looking 6) ⟨[1]⟩ 1]).isSome = true := by decide +kernel
  obtain ⟨⟨answers, logged⟩, hrun⟩ := Option.isSome_iff_exists.mp hsome
  have hsound : Machine.Along step Sound (withCapacity 4)
      [doneLooking 5 0, .admitItem (looking 6) ⟨[1]⟩ 1] := by
    refine ⟨⟨fun slot hslot => ?_, fun mark hmark => ?_, fun _ => ?_⟩,
      fun answer after hstep => ⟨fun _ _ _ slot hslot => ?_, fun _ _ _ => trivial⟩⟩
    · cases (BTreeMap.get_empty _).symm.trans hslot
    · cases (BTreeMap.get_empty _).symm.trans hmark
    · have hsize : (∅ : BTreeMap SlotKey Watermark).size = 0 := Std.ExtTreeMap.size_empty
      exact hsize.trans_lt (by decide)
    · obtain ⟨-, -, rfl⟩ := step_retire.mp hstep
      cases (BTreeMap.get_empty _).symm.trans (of_get_retire hslot).1
  exact ⟨answers, logged, hrun, retirement_holds hsound hrun⟩

omit [Postcard Anchor] in
/-- A retirement of a lower sequence undoes one of a higher: an item the first covers is stored
in its window. -/
theorem retired_undone :
    let _ : Postcard Anchor := tableCodec []
    ∃ answers logged, Machine.run step (withCapacity 4) [doneLooking 5 0, doneLooking 3 1] =
        some (answers, logged) ∧
      (∃ after, logged.step (.admitItem (looking 4) ⟨[1]⟩ 2) = some (.outcome .stored, after)) ∧
      ¬ RetirementLaw logged := by
  intro codec
  have hboth : ((Machine.run step (withCapacity 4) [doneLooking 5 0, doneLooking 3 1]).map
      fun ran => (ran.2.retirements, (ran.2.step (.admitItem (looking 4) ⟨[1]⟩ 2)).map Prod.fst)) =
      some ([⟨(looking 4).slotKey, ⟨[1]⟩, 5, 0⟩, ⟨(looking 4).slotKey, ⟨[1]⟩, 3, 1⟩],
        some (.outcome .stored)) := by
    decide +kernel
  obtain ⟨⟨answers, logged⟩, hrun, hlogged⟩ := Option.map_eq_some_iff.mp hboth
  rw [Prod.mk_inj] at hlogged
  obtain ⟨hlog, hstored⟩ := hlogged
  obtain ⟨⟨answer, after⟩, hstep, hanswer⟩ := Option.map_eq_some_iff.mp hstored
  cases hanswer
  refine ⟨answers, logged, hrun, ⟨after, hstep⟩, fun hlaw => ?_⟩
  have hmem : ⟨(looking 4).slotKey, ⟨[1]⟩, 5, 0⟩ ∈ logged.retirements := by
    rw [hlog]
    exact List.mem_cons_self
  have hpast := hlaw.undone _ _ _ _ hstep _ hmem ⟨rfl, rfl, by decide⟩
  exact absurd hpast (by decide)

end Logged

end Lait.Runtime.Transient
