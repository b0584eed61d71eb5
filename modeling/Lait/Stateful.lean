import Mathlib

/-!
# Computations that change a state and can fail

A failed computation leaves the state as it was when it failed, not as it was
when it began.  `Ends m s done failed` says where `m` ends when it begins in `s`:
in a result and a state that satisfy `done`, or in a failure and a state that
satisfy `failed`.

* `ends_bind`, `ends_pure`, `ends_throw`, `ends_get`, `ends_modify` and
  `ends_catch` carry `Ends` through a program, one for each way to build one.
* `Ends.mono` weakens both ends.
* `Ends.foldlM` is the loop rule: what each step keeps, the loop keeps.
* `Within` runs a computation on a part of a larger state.
-/

namespace Lait

/-- A computation over a state; a failure keeps the state it happened in. -/
abbrev Stateful (σ ε α : Type) := ExceptT ε (StateM σ) α

namespace Stateful

variable {σ τ ε ε' α β γ : Type}

/-- How a computation ends, and in which state. -/
def outcome (m : Stateful σ ε α) (s : σ) : Except ε α × σ := (ExceptT.run m).run s

/-- Where a computation ends when it begins in `s`. -/
def Ends (m : Stateful σ ε α) (s : σ) (done : α → σ → Prop) (failed : ε → σ → Prop) : Prop :=
  match outcome m s with
  | (.ok a, s') => done a s'
  | (.error e, s') => failed e s'

theorem Ends.of_ok {m : Stateful σ ε α} {s s' : σ} {a : α} {done : α → σ → Prop}
    {failed : ε → σ → Prop} (h : Ends m s done failed) (hrun : outcome m s = (.ok a, s')) :
    done a s' := by
  unfold Ends at h
  rwa [hrun] at h

theorem Ends.of_error {m : Stateful σ ε α} {s s' : σ} {e : ε} {done : α → σ → Prop}
    {failed : ε → σ → Prop} (h : Ends m s done failed) (hrun : outcome m s = (.error e, s')) :
    failed e s' := by
  unfold Ends at h
  rwa [hrun] at h

/-- What holds at either end holds in the state the computation leaves. -/
theorem Ends.of_both {m : Stateful σ ε α} {s : σ} (kept : σ → Prop)
    (h : Ends m s (fun _ => kept) (fun _ => kept)) : kept (outcome m s).2 := by
  cases hrun : outcome m s with
  | mk result s' =>
      cases result with
      | ok a => exact h.of_ok hrun
      | error e => exact h.of_error hrun

/-- Both ends may be weakened. -/
theorem Ends.mono {m : Stateful σ ε α} {s : σ} {done done' : α → σ → Prop}
    {failed failed' : ε → σ → Prop} (h : Ends m s done failed)
    (hdone : ∀ a s', done a s' → done' a s') (hfailed : ∀ e s', failed e s' → failed' e s') :
    Ends m s done' failed' := by
  unfold Ends at h ⊢
  split at h
  case h_1 => exact hdone _ _ h
  case h_2 => exact hfailed _ _ h

/-- A run that succeeds, with what it answers. -/
theorem outcome_eq_ok {m : Stateful σ ε α} {s : σ}
    (h : (outcome m s).1.toOption.isSome = true) :
    outcome m s = (.ok ((outcome m s).1.toOption.get h), (outcome m s).2) := by
  revert h
  cases outcome m s with
  | mk result s' =>
      cases result with
      | ok a => exact fun _ => rfl
      | error e => exact fun h => absurd h (by simp [Except.toOption])

/-! ## One rule for each way to build a program -/

section Rules

variable {s : σ} {done : α → σ → Prop} {failed : ε → σ → Prop}

@[simp] theorem ends_pure {a : α} : Ends (pure a : Stateful σ ε α) s done failed ↔ done a s :=
  Iff.rfl

@[simp] theorem ends_throw {e : ε} : Ends (throw e : Stateful σ ε α) s done failed ↔ failed e s :=
  Iff.rfl

/-- One computation, and then the next where the first succeeds. -/
@[simp] theorem ends_bind {m : Stateful σ ε β} {f : β → Stateful σ ε α} :
    Ends (m >>= f) s done failed ↔ Ends m s (fun b s' => Ends (f b) s' done failed) failed := by
  have hbind : outcome (m >>= f) s =
      match outcome m s with
      | (.ok b, s') => outcome (f b) s'
      | (.error e, s') => (.error e, s') := by
    show outcome (ExceptT.bind m f) s = _
    unfold outcome ExceptT.bind
    show StateT.run (ExceptT.run m >>= ExceptT.bindCont f) s = _
    rw [StateT.run_bind]
    cases hrun : StateT.run (ExceptT.run m) s with
    | mk result s' =>
        cases result with
        | ok b => rfl
        | error e => rfl
  unfold Ends
  rw [hbind]
  cases outcome m s with
  | mk result s' =>
      cases result with
      | ok b => rfl
      | error e => rfl

@[simp] theorem ends_map {m : Stateful σ ε β} {f : β → α} :
    Ends (f <$> m) s done failed ↔ Ends m s (fun b s' => done (f b) s') failed := by
  rw [map_eq_pure_bind, ends_bind]
  rfl

@[simp] theorem ends_get {done : σ → σ → Prop} :
    Ends (get : Stateful σ ε σ) s done failed ↔ done s s :=
  Iff.rfl

@[simp] theorem ends_modify {f : σ → σ} {done : PUnit → σ → Prop} :
    Ends (modify f : Stateful σ ε PUnit) s done failed ↔ done ⟨⟩ (f s) :=
  Iff.rfl

/-- What follows a computation whose failure is handled. -/
def caught (handler : ε → Stateful σ ε α) : Except ε α → StateM σ (Except ε α)
  | .ok a => pure (.ok a)
  | .error e => ExceptT.run (handler e)

/-- How a computation ends once its failure was handled. -/
def handled (handler : ε → Stateful σ ε α) : Except ε α × σ → Except ε α × σ
  | (.ok a, s') => (.ok a, s')
  | (.error e, s') => outcome (handler e) s'

/-- A failure is handed to its handler, in the state it happened in. -/
@[simp] theorem ends_catch {m : Stateful σ ε α} {handler : ε → Stateful σ ε α} :
    Ends (tryCatch m handler) s done failed ↔
      Ends m s done (fun e s' => Ends (handler e) s' done failed) := by
  have hcatch : outcome (tryCatch m handler) s = handled handler (outcome m s) := by
    have hbind : ExceptT.run (tryCatch m handler) = ExceptT.run m >>= caught handler := rfl
    unfold handled outcome
    rw [hbind, StateT.run_bind]
    cases hrun : StateT.run (ExceptT.run m) s with
    | mk result s' =>
        cases result with
        | ok a => rfl
        | error e => rfl
  unfold Ends
  rw [hcatch]
  cases outcome m s with
  | mk result s' =>
      cases result with
      | ok a => rfl
      | error e => rfl

/-- Fail where a condition holds. -/
def failIf (c : Prop) [Decidable c] (e : ε) : Stateful σ ε Unit := if c then throw e else pure ()

@[simp] theorem ends_failIf {c : Prop} [Decidable c] {e : ε} {done : Unit → σ → Prop} :
    Ends (failIf c e) s done failed ↔ (c → failed e s) ∧ (¬ c → done () s) := by
  unfold failIf
  split
  case isTrue h => simp [h]
  case isFalse h => simp [h]

/-- Make a call whose failure is of no account. -/
def ignore (m : Stateful σ ε Unit) : Stateful σ ε' Unit :=
  ExceptT.mk fun s => (.ok (), (outcome m s).2)

@[simp] theorem ends_ignore {m : Stateful σ ε' Unit} {done : Unit → σ → Prop} :
    Ends (ignore m : Stateful σ ε Unit) s done failed ↔
      Ends m s done (fun _ s' => done () s') := by
  have hrun : outcome (ignore m : Stateful σ ε Unit) s = (.ok (), (outcome m s).2) := rfl
  unfold Ends
  rw [hrun]
  cases outcome m s with
  | mk result s' =>
      cases result with
      | ok a => rfl
      | error e => rfl

/-- Make a call, and go on with how it ended. -/
def attempt (m : Stateful σ ε α) : Stateful σ ε (Except ε α) :=
  tryCatch (Except.ok <$> m) fun e => pure (.error e)

@[simp] theorem ends_attempt {m : Stateful σ ε α} {done : Except ε α → σ → Prop} :
    Ends (attempt m) s done failed ↔
      Ends m s (fun a s' => done (.ok a) s') (fun e s' => done (.error e) s') := by
  unfold attempt
  rw [ends_catch, ends_map]
  rfl

/-- A check of the program, by cases. -/
theorem ends_ite {c : Prop} [Decidable c] {m m' : Stateful σ ε α}
    (hthen : c → Ends m s done failed) (helse : ¬ c → Ends m' s done failed) :
    Ends (if c then m else m') s done failed := by
  split
  case isTrue h => exact hthen h
  case isFalse h => exact helse h

end Rules

/-- **What each step keeps, the loop keeps.**  `kept` is the invariant of the loop
before a step, `failed` what a failing step leaves. -/
theorem Ends.foldlM {f : β → α → Stateful σ ε β} (kept : β → σ → Prop) {failed : ε → σ → Prop}
    {l : List α} {b : β} {s : σ} (hstart : kept b s)
    (hstep : ∀ b a s, a ∈ l → kept b s → Ends (f b a) s kept failed) :
    Ends (l.foldlM f b) s kept failed := by
  induction l generalizing b s with
  | nil => exact hstart
  | cons a l ih =>
      rw [List.foldlM_cons, ends_bind]
      refine (hstep b a s List.mem_cons_self hstart).mono ?_ fun _ _ h => h
      intro b' s' hkept
      exact ih hkept fun b a s ha => hstep b a s (List.mem_cons_of_mem _ ha)

/-! ## A part of a larger state -/

/-- Run a computation on a part of the state, and translate its failure. -/
def within (part : τ → σ) (put : σ → τ → τ) (fail : ε → ε') (m : Stateful σ ε α) :
    Stateful τ ε' α :=
  ExceptT.mk fun t =>
    match outcome m (part t) with
    | (.ok a, s) => (.ok a, put s t)
    | (.error e, s) => (.error (fail e), put s t)

@[simp] theorem ends_within {part : τ → σ} {put : σ → τ → τ} {fail : ε → ε'} {m : Stateful σ ε α}
    {t : τ} {done : α → τ → Prop} {failed : ε' → τ → Prop} :
    Ends (within part put fail m) t done failed ↔
      Ends m (part t) (fun a s => done a (put s t)) (fun e s => failed (fail e) (put s t)) := by
  have hrun : outcome (within part put fail m) t =
      match outcome m (part t) with
      | (.ok a, s) => (.ok a, put s t)
      | (.error e, s) => (.error (fail e), put s t) := rfl
  unfold Ends
  rw [hrun]
  cases outcome m (part t) with
  | mk result s =>
      cases result with
      | ok a => rfl
      | error e => rfl

/-- Translate a failure. -/
def mapError (fail : ε → ε') (m : Stateful σ ε α) : Stateful σ ε' α :=
  within id (fun s _ => s) fail m

@[simp] theorem ends_mapError {fail : ε → ε'} {m : Stateful σ ε α} {s : σ} {done : α → σ → Prop}
    {failed : ε' → σ → Prop} :
    Ends (mapError fail m) s done failed ↔ Ends m s done (fun e s' => failed (fail e) s') :=
  ends_within

end Stateful

end Lait
