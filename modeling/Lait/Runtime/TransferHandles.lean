import Lait.Runtime.Transfer

/-!
# Handles of transfers

A `TransferHandle` ties a transfer to a value.  Ending one, by `succeed`, `finish` or by
dropping it, advances its transfer and then lets the cache go of everything held or staged
under its operation.  The registry takes its lock only for the advance, so the three parts of
an end are three steps (`Phase`), and other handles may do anything between them.

The registry refuses an operation that is in flight, which is less than one that has a
handle: an `advance` that ends a transfer leaves its handle, and the operation can then be
begun again (`two_handles`).  A `finish` in a state that is no end leaves its transfer in
flight without a handle.  `Sound` excludes the two; under it every transfer in flight has
the one handle of its operation (`Good`).
-/

namespace Lait.Runtime.Transfer

/-- How far the end of a handle is: not begun, or what is still to be done. -/
inductive Phase
  | armed
  | releasing
  | discarding
  deriving DecidableEq

/-- A handle that is not dropped.  The registry and the cache are those of the `Station`. -/
structure TransferHandle where
  operation : Bytes
  phase : Phase
  deriving DecidableEq

/-- A registry, the leases and staged parts of a cache by operation, and the handles given out.
`begun` and `ends` are a log: the operations whose begin was accepted, and the transfers that
ended. -/
structure Station where
  catalog : Catalog
  leases : Finset (Bytes × Bytes)
  staged : Finset (Bytes × ℕ)
  handles : BTreeMap ℕ TransferHandle
  issued : ℕ
  begun : List Bytes
  ends : List TransferProgress

/-- A call on a handle, or on the cache. -/
inductive Call
  | new (operation content : Bytes) (now : ℕ)
  | advance (handle : ℕ) (state : TransferState) (now : ℕ)
  /-- The first part of an end: `succeed`, `finish` or `drop`. -/
  | close (handle : ℕ) (state : TransferState) (now : ℕ)
  /-- `cache.release_operation`, and the leases it fails to remove. -/
  | release (handle : ℕ) (sticks : Bytes → Bool)
  /-- `cache.discard_staged`, and the parts it fails to remove. -/
  | discard (handle : ℕ) (sticks : ℕ → Bool)
  /-- `cache.hold_operation`. -/
  | hold (operation entry : Bytes)
  /-- `cache.append_staged`. -/
  | stage (operation : Bytes) (part : ℕ)

/-- The calls that end a handle. -/
def Call.ending : Call → Option ℕ
  | .close handle _ _ => some handle
  | .release handle _ => some handle
  | .discard handle _ => some handle
  | _ => none

/-- `succeed`. -/
def Call.succeed (handle now : ℕ) : Call := .close handle .available now

/-- `finish`. -/
def Call.finish (handle : ℕ) (state : TransferState) (now : ℕ) : Call := .close handle state now

/-- `drop`. -/
def Call.drop (handle now : ℕ) : Call := .close handle .failed now

inductive Answer
  | given (handle : Except Refusal ℕ)
  | done
  deriving DecidableEq

namespace Station

/-- A station that has not transferred anything. -/
def new : Station where
  catalog := Catalog.new
  leases := ∅
  staged := ∅
  handles := ∅
  issued := 0
  begun := []
  ends := []

/-- Advance a transfer, and log what ends. -/
def advance (self : Station) (operation : Bytes) (state : TransferState) (now : ℕ) : Station :=
  { self with
    catalog := self.catalog.advance operation state now
    ends := self.ends ++ (self.catalog.ended operation state).toList }

/-- A handle in a phase. -/
def handleIn (self : Station) (handle : ℕ) (phase : Phase) : Option TransferHandle :=
  self.handles[handle]?.filter fun given => given.phase = phase

/-- A handle goes to another phase. -/
def moveTo (self : Station) (handle : ℕ) (given : TransferHandle) (phase : Phase) : Station :=
  { self with handles := self.handles.insert handle { given with phase } }

/-- One call.  A handle that is being ended, or is not there, takes none. -/
def step (self : Station) : Call → Option (Answer × Station)
  | .new operation content now =>
      match self.catalog.begin operation content now with
      | .error refusal => some (.given (.error refusal), self)
      | .ok catalog =>
          some (.given (.ok self.issued), {
            self with
            catalog
            handles := self.handles.insert self.issued ⟨operation, .armed⟩
            issued := self.issued + 1
            begun := self.begun ++ [operation] })
  | .advance handle state now =>
      (self.handleIn handle .armed).map fun given =>
        (.done, self.advance given.operation state now)
  | .close handle state now =>
      (self.handleIn handle .armed).map fun given =>
        (.done, (self.advance given.operation state now).moveTo handle given .releasing)
  | .release handle sticks =>
      (self.handleIn handle .releasing).map fun given =>
        (.done, {
          self.moveTo handle given .discarding with
          leases := self.leases.filter fun lease => lease.1 ≠ given.operation ∨ sticks lease.2 })
  | .discard handle sticks =>
      (self.handleIn handle .discarding).map fun given =>
        (.done, {
          self with
          staged := self.staged.filter fun part => part.1 ≠ given.operation ∨ sticks part.2
          handles := self.handles.erase handle })
  | .hold operation entry => some (.done, { self with leases := insert (operation, entry) self.leases })
  | .stage operation part => some (.done, { self with staged := insert (operation, part) self.staged })

/-! ## What a step does -/

/-- The three ways a call on a handle finds it. -/
theorem handleIn_eq_some {self : Station} {handle : ℕ} {phase : Phase} {given : TransferHandle} :
    self.handleIn handle phase = some given ↔
      self.handles[handle]? = some given ∧ given.phase = phase := by
  rw [handleIn, Option.filter_eq_some_iff, decide_eq_true_eq]

/-- **What one call does.** -/
inductive Step (self : Station) : Call → Station → Prop
  | refused {operation content : Bytes} {now : ℕ} : Step self (.new operation content now) self
  | begun {operation content : Bytes} {now : ℕ} {catalog : Catalog}
      (hbegin : self.catalog.begin operation content now = .ok catalog) :
      Step self (.new operation content now) {
        self with
        catalog
        handles := self.handles.insert self.issued ⟨operation, .armed⟩
        issued := self.issued + 1
        begun := self.begun ++ [operation] }
  | advanced {handle : ℕ} {state : TransferState} {now : ℕ} {given : TransferHandle}
      (hgiven : self.handles[handle]? = some given) (harmed : given.phase = .armed) :
      Step self (.advance handle state now) (self.advance given.operation state now)
  | closed {handle : ℕ} {state : TransferState} {now : ℕ} {given : TransferHandle}
      (hgiven : self.handles[handle]? = some given) (harmed : given.phase = .armed) :
      Step self (.close handle state now)
        ((self.advance given.operation state now).moveTo handle given .releasing)
  | released {handle : ℕ} {sticks : Bytes → Bool} {given : TransferHandle}
      (hgiven : self.handles[handle]? = some given) (hphase : given.phase = .releasing) :
      Step self (.release handle sticks) {
        self.moveTo handle given .discarding with
        leases := self.leases.filter fun lease => lease.1 ≠ given.operation ∨ sticks lease.2 }
  | discarded {handle : ℕ} {sticks : ℕ → Bool} {given : TransferHandle}
      (hgiven : self.handles[handle]? = some given) (hphase : given.phase = .discarding) :
      Step self (.discard handle sticks) {
        self with
        staged := self.staged.filter fun part => part.1 ≠ given.operation ∨ sticks part.2
        handles := self.handles.erase handle }
  | held {operation entry : Bytes} :
      Step self (.hold operation entry)
        { self with leases := insert (operation, entry) self.leases }
  | staged {operation : Bytes} {part : ℕ} :
      Step self (.stage operation part)
        { self with staged := insert (operation, part) self.staged }

theorem step_spec {self after : Station} {call : Call} {answer : Answer}
    (h : self.step call = some (answer, after)) : Step self call after := by
  cases call with
  | new operation content now =>
      unfold step at h
      dsimp only at h
      cases hbegin : self.catalog.begin operation content now with
      | error refusal =>
          rw [hbegin] at h
          cases h
          exact Step.refused
      | ok catalog =>
          rw [hbegin] at h
          cases h
          exact Step.begun hbegin
  | advance handle state now =>
      obtain ⟨given, hgiven, heq⟩ := Option.map_eq_some_iff.mp h
      obtain ⟨hgiven, harmed⟩ := handleIn_eq_some.mp hgiven
      cases heq
      exact Step.advanced hgiven harmed
  | close handle state now =>
      obtain ⟨given, hgiven, heq⟩ := Option.map_eq_some_iff.mp h
      obtain ⟨hgiven, harmed⟩ := handleIn_eq_some.mp hgiven
      cases heq
      exact Step.closed hgiven harmed
  | release handle sticks =>
      obtain ⟨given, hgiven, heq⟩ := Option.map_eq_some_iff.mp h
      obtain ⟨hgiven, hphase⟩ := handleIn_eq_some.mp hgiven
      cases heq
      exact Step.released hgiven hphase
  | discard handle sticks =>
      obtain ⟨given, hgiven, heq⟩ := Option.map_eq_some_iff.mp h
      obtain ⟨hgiven, hphase⟩ := handleIn_eq_some.mp hgiven
      cases heq
      exact Step.discarded hgiven hphase
  | hold operation entry =>
      cases h
      exact Step.held
  | stage operation part =>
      cases h
      exact Step.staged

/-! ## What is kept -/

/-- The condition on one call, in the state before it: a transfer that begins has no handle left
of another of its operation, and a handle is closed in a state that is an end, or when its
transfer is over. -/
def Sound (self : Station) : Call → Prop
  | .new operation _ _ =>
      self.catalog.active[operation]? = none → self.catalog.active.size < MAX_ACTIVE →
        ∀ (handle : ℕ) (given : TransferHandle), self.handles[handle]? = some given →
          given.operation ≠ operation
  | .close handle state _ =>
      state.isTerminal = false → ∀ given : TransferHandle, self.handles[handle]? = some given →
        self.catalog.active[given.operation]? = none
  | _ => True

/-- Whether a transfer is in flight, as a number. -/
def inFlight (self : Station) (operation : Bytes) : ℕ :=
  if self.catalog.active[operation]? = none then 0 else 1

/-- Every transfer in flight has the handle of its operation, and the log is what was recorded. -/
structure Good (station : Station) : Prop where
  running : station.catalog.Running
  fresh : ∀ (handle : ℕ) (given : TransferHandle), station.handles[handle]? = some given →
    handle < station.issued
  apart : ∀ (handle other : ℕ) (given found : TransferHandle),
    station.handles[handle]? = some given → station.handles[other]? = some found →
      given.operation = found.operation → handle = other
  armed : ∀ operation : Bytes, station.catalog.active[operation]? ≠ none →
    ∃ (handle : ℕ) (given : TransferHandle), station.handles[handle]? = some given ∧
      given.operation = operation ∧ given.phase = .armed
  size_le : station.catalog.active.size ≤ MAX_ACTIVE
  completed : station.catalog.completed = Catalog.tailOf station.ends
  terminal : ∀ finished ∈ station.ends, finished.state.isTerminal = true
  count : ∀ operation : Bytes, station.begun.count operation =
    (station.ends.map TransferProgress.operation).count operation + station.inFlight operation

variable {self after : Station} {call : Call} {answer : Answer} {operation : Bytes}
  {state : TransferState} {now : ℕ}

/-- A new station. -/
theorem good_new : Good new where
  running := by
    refine ⟨fun operation entry h => ?_, fun operation entry h => ?_⟩
    · cases (BTreeMap.get_empty operation).symm.trans h
    · cases (BTreeMap.get_empty operation).symm.trans h
  fresh handle given h := by cases (BTreeMap.get_empty handle).symm.trans h
  apart handle other given found h := by cases (BTreeMap.get_empty handle).symm.trans h
  armed operation h := absurd (BTreeMap.get_empty operation) h
  size_le := by
    have hsize : (∅ : BTreeMap Bytes Entry).size = 0 := Std.ExtTreeMap.size_empty
    exact hsize.trans_le (Nat.zero_le _)
  completed := rfl
  terminal finished h := absurd h List.not_mem_nil
  count operation := by
    have hempty : inFlight new operation = 0 := if_pos (BTreeMap.get_empty operation)
    rw [hempty]
    rfl

/-- An advance keeps what the log says. -/
theorem Good.advance_log (h : Good self) (operation : Bytes) (state : TransferState) (now : ℕ) :
    (self.advance operation state now).catalog.completed =
        Catalog.tailOf (self.advance operation state now).ends ∧
      (∀ finished ∈ (self.advance operation state now).ends, finished.state.isTerminal = true) ∧
      ∀ other : Bytes, self.begun.count other =
        ((self.advance operation state now).ends.map TransferProgress.operation).count other +
          (self.advance operation state now).inFlight other := by
  have hcompleted := h.running.completed_advance operation state now
  have hsame := h.running.advance_same operation state now
  unfold advance inFlight
  dsimp only
  rw [hcompleted, h.completed]
  cases hended : self.catalog.ended operation state with
  | none =>
      rw [Option.toList_none, List.append_nil]
      refine ⟨rfl, h.terminal, fun other => ?_⟩
      rw [h.count other, inFlight]
      congr 2
      by_cases hother : other = operation
      · subst hother
        rw [eq_iff_iff, ← not_iff_not]
        rcases Catalog.ended_eq_none.mp hended with hnone | hopen
        · exact ⟨fun hne => absurd hnone hne, fun hne => (hsame.mp hne).1⟩
        · exact ⟨fun hne => hsame.mpr ⟨hne, hopen⟩, fun hne => (hsame.mp hne).1⟩
      · rw [h.running.advance_other state now hother]
  | some finished =>
      obtain ⟨hoperation, hactive, hterminal⟩ := h.running.ended_eq_some hended
      rw [Option.toList_some]
      refine ⟨Catalog.remember_tailOf self.ends finished, ?_, fun other => ?_⟩
      · intro ended hmem
        rcases List.mem_append.mp hmem with hmem | hmem
        · exact h.terminal ended hmem
        · cases List.mem_singleton.mp hmem
          exact hterminal
      · rw [h.count other, inFlight, List.map_append, List.count_append, List.map_singleton,
          List.count_singleton, hoperation]
        by_cases hother : other = operation
        · subst hother
          have hover : (self.catalog.advance other state now).active[other]? = none := by
            by_contra hne
            have hopen := (hsame.mp hne).2
            unfold Catalog.ended at hended
            rw [hopen] at hended
            cases hended
          rw [if_neg hactive, if_pos hover, if_pos BEq.rfl]
        · have hne : ¬(operation == other) = true := fun heq => hother (eq_of_beq heq).symm
          rw [h.running.advance_other state now hother, if_neg hne, Nat.add_zero]

/-- An advance leaves a station good. -/
theorem Good.advance (h : Good self) (operation : Bytes) (state : TransferState) (now : ℕ) :
    Good (self.advance operation state now) where
  running := h.running.advance operation state now
  fresh := h.fresh
  apart := h.apart
  armed other hother := by
    apply h.armed other
    by_cases heq : other = operation
    · subst heq
      exact ((h.running.advance_same other state now).mp hother).1
    · rw [← h.running.advance_other state now heq]
      exact hother
  size_le := (h.running.size_advance_le operation state now).trans h.size_le
  completed := (h.advance_log operation state now).1
  terminal := (h.advance_log operation state now).2.1
  count := (h.advance_log operation state now).2.2

/-- A handle may go to another phase when its transfer is over. -/
theorem Good.moveTo (h : Good self) {handle : ℕ} {given : TransferHandle} {phase : Phase}
    (hgiven : self.handles[handle]? = some given)
    (hover : given.phase = .armed → self.catalog.active[given.operation]? = none) :
    Good (self.moveTo handle given phase) where
  running := h.running
  fresh other found hfound := by
    rw [Station.moveTo, BTreeMap.get_insert] at hfound
    split at hfound
    next heq => exact heq ▸ h.fresh handle given hgiven
    next => exact h.fresh other found hfound
  apart one other found found' hfound hfound' hsame := by
    rw [Station.moveTo, BTreeMap.get_insert] at hfound hfound'
    split at hfound
    next heq =>
      cases hfound
      subst heq
      split at hfound'
      next heq' => exact heq'
      next => exact h.apart handle other given found' hgiven hfound' hsame
    next =>
      split at hfound'
      next heq' =>
        cases hfound'
        subst heq'
        exact h.apart one handle found given hfound hgiven hsame
      next => exact h.apart one other found found' hfound hfound' hsame
  armed operation hactive := by
    obtain ⟨one, found, hfound, hoperation, harmed⟩ := h.armed operation hactive
    refine ⟨one, found, ?_, hoperation, harmed⟩
    rw [Station.moveTo, BTreeMap.get_insert, if_neg]
    · exact hfound
    · -- the handle that moves is not the one that is armed for this operation
      rintro rfl
      cases hgiven.symm.trans hfound
      subst hoperation
      exact hactive (hover harmed)
  size_le := h.size_le
  completed := h.completed
  terminal := h.terminal
  count := h.count

/-- A transfer that begins has the new handle. -/
theorem Good.begin (h : Good self) {content : Bytes} {catalog : Catalog}
    (hbegin : self.catalog.begin operation content now = .ok catalog)
    (halone : ∀ (handle : ℕ) (given : TransferHandle), self.handles[handle]? = some given →
      given.operation ≠ operation) :
    Good {
      self with
      catalog
      handles := self.handles.insert self.issued ⟨operation, .armed⟩
      issued := self.issued + 1
      begun := self.begun ++ [operation] } := by
  obtain ⟨hnone, hroom, hactive, hcompleted⟩ := Catalog.begin_eq_ok hbegin
  refine ⟨h.running.begin hbegin, ?_, ?_, ?_, ?_, ?_, h.terminal, ?_⟩
  · intro handle given hgiven
    rw [BTreeMap.get_insert] at hgiven
    split at hgiven
    next heq => exact heq ▸ Nat.lt_succ_self _
    next => exact (h.fresh handle given hgiven).trans (Nat.lt_succ_self _)
  · intro one other found found' hfound hfound' hsame
    rw [BTreeMap.get_insert] at hfound hfound'
    split at hfound
    next heq =>
      cases hfound
      subst heq
      split at hfound'
      next heq' => exact heq'
      next => exact absurd hsame.symm (halone other found' hfound')
    next =>
      split at hfound'
      next heq' =>
        cases hfound'
        exact absurd hsame (halone one found hfound)
      next => exact h.apart one other found found' hfound hfound' hsame
  · intro other hother
    dsimp only at hother
    rw [hactive, BTreeMap.get_insert] at hother
    split at hother
    next heq =>
      refine ⟨self.issued, ⟨operation, .armed⟩, ?_, heq, rfl⟩
      rw [BTreeMap.get_insert, if_pos rfl]
    next =>
      obtain ⟨handle, given, hgiven, hoperation, harmed⟩ := h.armed other hother
      refine ⟨handle, given, ?_, hoperation, harmed⟩
      rw [BTreeMap.get_insert, if_neg (h.fresh handle given hgiven).ne']
      exact hgiven
  · dsimp only
    rw [hactive]
    exact Std.ExtTreeMap.size_insert_le.trans hroom
  · exact hcompleted.trans h.completed
  · intro other
    have hcount := h.count other
    unfold inFlight at hcount ⊢
    dsimp only
    rw [List.count_append, hcount, hactive, BTreeMap.get_insert, List.count_singleton, Nat.add_assoc]
    congr 1
    by_cases heq : operation = other
    · subst heq
      rw [if_pos hnone, if_pos BEq.rfl, if_pos rfl, if_neg (Option.some_ne_none _)]
    · have hne : ¬(operation == other) = true := fun hbeq => heq (eq_of_beq hbeq)
      rw [if_neg hne, if_neg heq]
      rfl

/-- A handle whose end is over is let go. -/
theorem Good.discard (h : Good self) {handle : ℕ} {given : TransferHandle}
    (hgiven : self.handles[handle]? = some given) (hphase : given.phase = .discarding)
    (staged : Finset (Bytes × ℕ)) :
    Good { self with staged, handles := self.handles.erase handle } := by
  refine ⟨h.running, ?_, ?_, ?_, h.size_le, h.completed, h.terminal, h.count⟩
  · intro other found hfound
    rw [BTreeMap.get_erase] at hfound
    split at hfound
    next => cases hfound
    next => exact h.fresh other found hfound
  · intro one other found found' hfound hfound' hsame
    rw [BTreeMap.get_erase] at hfound hfound'
    split at hfound
    next => cases hfound
    next =>
      split at hfound'
      next => cases hfound'
      next => exact h.apart one other found found' hfound hfound' hsame
  · intro operation hactive
    obtain ⟨one, found, hfound, hoperation, harmed⟩ := h.armed operation hactive
    refine ⟨one, found, ?_, hoperation, harmed⟩
    rw [BTreeMap.get_erase, if_neg]
    · exact hfound
    · rintro rfl
      cases hgiven.symm.trans hfound
      cases hphase.symm.trans harmed

/-- **One call keeps a station good.** -/
theorem Good.step (h : Good self) (hsound : self.Sound call)
    (hstep : self.step call = some (answer, after)) : Good after := by
  cases step_spec hstep with
  | refused => exact h
  | begun hbegin =>
      obtain ⟨hnone, hroom, -, -⟩ := Catalog.begin_eq_ok hbegin
      exact h.begin hbegin (hsound hnone hroom)
  | advanced hgiven harmed => exact h.advance _ _ _
  | @closed handle state now given hgiven harmed =>
      refine (h.advance given.operation state now).moveTo hgiven fun _ => ?_
      by_contra hactive
      obtain ⟨hbefore, hopen⟩ := (h.running.advance_same given.operation state now).mp hactive
      exact hbefore (hsound hopen given hgiven)
  | released hgiven hphase =>
      have hmoved : Good (self.moveTo _ _ .discarding) := h.moveTo hgiven fun harmed => by
        cases hphase.symm.trans harmed
      exact ⟨hmoved.running, hmoved.fresh, hmoved.apart, hmoved.armed, hmoved.size_le,
        hmoved.completed, hmoved.terminal, hmoved.count⟩
  | discarded hgiven hphase => exact h.discard hgiven hphase _
  | held =>
      exact ⟨h.running, h.fresh, h.apart, h.armed, h.size_le, h.completed, h.terminal, h.count⟩
  | staged =>
      exact ⟨h.running, h.fresh, h.apart, h.armed, h.size_le, h.completed, h.terminal, h.count⟩

/-! ## The law -/

/-- What a call leaves of a handle and of everything under its operation. -/
structure Spared (before after : Station) (handle : ℕ) (given : TransferHandle) : Prop where
  handle : after.handles[handle]? = some given
  active : after.catalog.active[given.operation]? = before.catalog.active[given.operation]?
  leases : ∀ entry, (given.operation, entry) ∈ after.leases ↔ (given.operation, entry) ∈ before.leases
  staged : ∀ part, (given.operation, part) ∈ after.staged ↔ (given.operation, part) ∈ before.staged

/-- **The end of a handle spares the others.** -/
theorem Good.spared (h : Good self) {handle other : ℕ} {found : TransferHandle}
    (hending : call.ending = some handle) (hstep : self.step call = some (answer, after))
    (hother : self.handles[other]? = some found) (hne : other ≠ handle) :
    Spared self after other found := by
  -- the operation of another handle is another operation
  have hapart : ∀ given : TransferHandle, self.handles[handle]? = some given →
      found.operation ≠ given.operation := by
    intro given hgiven hsame
    exact hne (h.apart other handle found given hother hgiven hsame)
  cases step_spec hstep with
  | refused => cases hending
  | begun hbegin => cases hending
  | advanced hgiven harmed => cases hending
  | closed hgiven harmed =>
      cases hending
      refine ⟨?_, h.running.advance_other _ _ (hapart _ hgiven), fun _ => Iff.rfl, fun _ => Iff.rfl⟩
      rw [Station.moveTo, BTreeMap.get_insert, if_neg hne.symm]
      exact hother
  | released hgiven hphase =>
      cases hending
      refine ⟨?_, rfl, fun entry => ?_, fun _ => Iff.rfl⟩
      · rw [Station.moveTo, BTreeMap.get_insert, if_neg hne.symm]
        exact hother
      · rw [Finset.mem_filter, and_iff_left (Or.inl (hapart _ hgiven))]
  | discarded hgiven hphase =>
      cases hending
      refine ⟨?_, rfl, fun _ => Iff.rfl, fun part => ?_⟩
      · rw [BTreeMap.get_erase, if_neg hne.symm]
        exact hother
      · rw [Finset.mem_filter, and_iff_left (Or.inl (hapart _ hgiven))]
  | held => cases hending
  | staged => cases hending

/-- What holds of transfers and their handles after some calls. -/
structure HandleLaw (station : Station) : Prop where
  /-- One handle for an operation. -/
  single : ∀ (handle other : ℕ) (given found : TransferHandle),
    station.handles[handle]? = some given → station.handles[other]? = some found →
      given.operation = found.operation → handle = other
  /-- The end of a handle spares what the others have. -/
  spares : ∀ call answer after handle, call.ending = some handle →
    station.step call = some (answer, after) → ∀ (other : ℕ) (found : TransferHandle),
      station.handles[other]? = some found → other ≠ handle → Spared station after other found
  /-- An operation without a handle that is still to be ended is not in flight. -/
  ended : ∀ operation : Bytes, (∀ (handle : ℕ) (given : TransferHandle),
      station.handles[handle]? = some given → given.phase = .armed → given.operation ≠ operation) →
    station.catalog.active[operation]? = none ∧ operation ∉ station.catalog.liveOperations
  active_le : station.catalog.active.size ≤ MAX_ACTIVE
  completed_le : station.catalog.completed.length ≤ MAX_COMPLETED
  /-- What is remembered is the last of all ends, and an operation ended as often as it was begun,
  but for the transfer in flight. -/
  recorded : station.catalog.completed = Catalog.tailOf station.ends ∧
    (∀ finished ∈ station.ends, finished.state.isTerminal = true) ∧
    ∀ operation : Bytes, station.begun.count operation =
      (station.ends.map TransferProgress.operation).count operation + station.inFlight operation

theorem Good.law (h : Good self) : HandleLaw self where
  single := h.apart
  spares _ _ _ _ hending hstep _ _ hother hne := h.spared hending hstep hother hne
  ended operation hover := by
    have hnone : self.catalog.active[operation]? = none := by
      by_contra hactive
      obtain ⟨handle, given, hgiven, hoperation, harmed⟩ := h.armed operation hactive
      exact hover handle given hgiven harmed hoperation
    exact ⟨hnone, fun hlive => Catalog.mem_liveOperations.mp hlive hnone⟩
  active_le := h.size_le
  completed_le := h.completed ▸ Catalog.length_tailOf_le self.ends
  recorded := ⟨h.completed, h.terminal, h.count⟩

/-- **One handle for an operation**, in every run that begins no operation a handle is left of,
and closes no handle of a transfer in flight in a state that is no end. -/
theorem one_handle {calls : List Call} {answers : List Answer}
    (hsound : Machine.Along step Sound new calls)
    (hrun : Machine.run step new calls = some (answers, self)) : HandleLaw self := by
  have hgood : Good self :=
    Machine.invariant_along (fun before call answer after h hcall => h.step hcall) good_new hsound
      hrun
  exact hgood.law

/-- A check that is enough for a call to be sound. -/
def soundly (self : Station) : Call → Bool
  | .new operation _ _ => self.handles.toList.all fun entry => entry.2.operation ≠ operation
  | .close _ state _ => state.isTerminal
  | _ => true

theorem sound_of_soundly (self : Station) (call : Call) (h : self.soundly call = true) :
    self.Sound call := by
  cases call with
  | new operation content now =>
      intro _ _ handle given hgiven
      have hmem := List.all_eq_true.mp h (handle, given) (BTreeMap.mem_toList_iff.mpr hgiven)
      simpa using hmem
  | close handle state now =>
      intro hopen
      cases hopen.symm.trans h
  | _ => trivial

/-- Two transfers side by side: the first ends and its operation is begun again, and the second
is dropped. -/
def sideBySide : List Call :=
  [.new ⟨[7]⟩ ⟨[1]⟩ 0, .hold ⟨[7]⟩ ⟨[2]⟩, .new ⟨[8]⟩ ⟨[3]⟩ 1, .hold ⟨[8]⟩ ⟨[4]⟩, .stage ⟨[8]⟩ 0,
    .succeed 0 2, .release 0 fun _ => false, .discard 0 fun _ => false, .new ⟨[7]⟩ ⟨[1]⟩ 3,
    .drop 1 4, .release 1 fun _ => false]

/-- The law after them. -/
theorem one_handle_again :
    ∃ answers station, Machine.run step new sideBySide = some (answers, station) ∧
      station.begun = [⟨[7]⟩, ⟨[8]⟩, ⟨[7]⟩] ∧
      station.ends.map TransferProgress.operation = [⟨[7]⟩, ⟨[8]⟩] ∧
      HandleLaw station := by
  have hlogs : ((Machine.run step new sideBySide).map fun ran =>
      (ran.2.begun, ran.2.ends.map TransferProgress.operation)) =
      some ([⟨[7]⟩, ⟨[8]⟩, ⟨[7]⟩], [⟨[7]⟩, ⟨[8]⟩]) := by
    decide +kernel
  obtain ⟨⟨answers, station⟩, hrun, hstation⟩ := Option.map_eq_some_iff.mp hlogs
  obtain ⟨hbegun, hends⟩ := Prod.mk.inj hstation
  have hsound : Machine.Along step Sound new sideBySide :=
    Machine.along_of_checked sound_of_soundly (by decide +kernel)
  exact ⟨answers, station, hrun, hbegun, hends, one_handle hsound hrun⟩

/-- A transfer that is over before its handle is ended, and begun again. -/
def begunAgain : List Call :=
  [.new ⟨[7]⟩ ⟨[1]⟩ 0, .advance 0 .available 1, .new ⟨[7]⟩ ⟨[1]⟩ 2]

/-- An advance that ends a transfer leaves its handle: the operation is begun again, has two
handles, and dropping the first fails the transfer of the second. -/
theorem two_handles :
    ∃ answers station, Machine.run step new begunAgain = some (answers, station) ∧
      station.handles[(0 : ℕ)]? = some ⟨⟨[7]⟩, .armed⟩ ∧
      station.handles[(1 : ℕ)]? = some ⟨⟨[7]⟩, .armed⟩ ∧
      (∃ answer after, station.step (.drop 0 3) = some (answer, after) ∧
        station.catalog.active[(⟨[7]⟩ : Bytes)]? ≠ none ∧
          after.catalog.active[(⟨[7]⟩ : Bytes)]? = none) ∧
      ¬ HandleLaw station := by
  have hboth : ((Machine.run step new begunAgain).map fun ran =>
      (ran.2.handles[(0 : ℕ)]?, ran.2.handles[(1 : ℕ)]?,
        ran.2.catalog.active[(⟨[7]⟩ : Bytes)]?.isSome,
        (ran.2.step (.drop 0 3)).map fun dropped =>
          dropped.2.catalog.active[(⟨[7]⟩ : Bytes)]?.isNone)) =
      some (some ⟨⟨[7]⟩, .armed⟩, some ⟨⟨[7]⟩, .armed⟩, true, some true) := by
    decide +kernel
  obtain ⟨⟨answers, station⟩, hrun, hstation⟩ := Option.map_eq_some_iff.mp hboth
  simp only [Prod.mk.injEq] at hstation
  obtain ⟨hfirst, hsecond, hactive, hdropped⟩ := hstation
  obtain ⟨⟨answer, after⟩, hstep, hafter⟩ := Option.map_eq_some_iff.mp hdropped
  refine ⟨answers, station, hrun, hfirst, hsecond, ⟨answer, after, hstep, ?_, ?_⟩, fun hlaw => ?_⟩
  · exact Option.isSome_iff_ne_none.mp hactive
  · exact Option.isNone_iff_eq_none.mp hafter
  · exact Nat.zero_ne_one (hlaw.single 0 1 _ _ hfirst hsecond rfl)

end Station

end Lait.Runtime.Transfer
