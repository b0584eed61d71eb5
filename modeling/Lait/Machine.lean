import Mathlib

/-!
# Runs of a machine

A machine takes an input, answers, and is left in a state, or it stops without an
answer.  `run` feeds it inputs one after the other.  What every step keeps holds after
every run (`invariant`), and a run over two lists of inputs is one run after the other
(`run_append`), so that what holds of the last step of every run holds of every step.
-/

namespace Lait.Machine

variable {σ ι ω : Type*} {step : σ → ι → Option (ω × σ)}

/-- The answers to some inputs and the state left behind, if no step stops. -/
def run (step : σ → ι → Option (ω × σ)) : σ → List ι → Option (List ω × σ)
  | s, [] => some ([], s)
  | s, i :: inputs =>
      (step s i).bind fun answered =>
        (run step answered.2 inputs).map fun rest => (answered.1 :: rest.1, rest.2)

/-- A run is its first step and the run after it. -/
theorem run_cons {s s' : σ} {i : ι} {inputs : List ι} {answers : List ω} :
    run step s (i :: inputs) = some (answers, s') ↔
      ∃ answer t rest, step s i = some (answer, t) ∧ run step t inputs = some (rest, s') ∧
        answers = answer :: rest := by
  simp only [run, Option.bind_eq_some_iff, Option.map_eq_some_iff, Prod.exists, Prod.mk.injEq]
  constructor
  · rintro ⟨answer, t, hstep, rest, s'', hrun, rfl, rfl⟩
    exact ⟨answer, t, rest, hstep, hrun, rfl⟩
  · rintro ⟨answer, t, rest, hstep, hrun, rfl⟩
    exact ⟨answer, t, hstep, rest, s', hrun, rfl, rfl⟩

/-- A run over two lists is one run after the other. -/
theorem run_append {s s' : σ} {inputs inputs' : List ι} {answers : List ω} :
    run step s (inputs ++ inputs') = some (answers, s') ↔
      ∃ t before after, run step s inputs = some (before, t) ∧
        run step t inputs' = some (after, s') ∧ answers = before ++ after := by
  induction inputs generalizing s answers with
  | nil =>
      constructor
      · exact fun h => ⟨s, [], answers, rfl, h, rfl⟩
      · rintro ⟨t, before, after, hbefore, hafter, rfl⟩
        cases hbefore
        exact hafter
  | cons i inputs ih =>
      rw [List.cons_append, run_cons]
      constructor
      · rintro ⟨answer, t, rest, hstep, hrun, rfl⟩
        obtain ⟨u, before, after, hbefore, hafter, rfl⟩ := ih.mp hrun
        exact ⟨u, answer :: before, after, run_cons.mpr ⟨answer, t, before, hstep, hbefore, rfl⟩,
          hafter, rfl⟩
      · rintro ⟨u, before, after, hbefore, hafter, rfl⟩
        obtain ⟨answer, t, rest, hstep, hrest, rfl⟩ := run_cons.mp hbefore
        exact ⟨answer, t, rest ++ after, hstep, ih.mpr ⟨u, rest, after, hrest, hafter, rfl⟩, rfl⟩

/-- **What every step keeps, a run keeps.** -/
theorem invariant {P : σ → Prop} {inputs : List ι} {s s' : σ} {answers : List ω}
    (hstep : ∀ s, ∀ i ∈ inputs, ∀ answer s', P s → step s i = some (answer, s') → P s')
    (hs : P s) (h : run step s inputs = some (answers, s')) : P s' := by
  induction inputs generalizing s answers with
  | nil =>
      cases h
      exact hs
  | cons i inputs ih =>
      obtain ⟨answer, t, rest, hone, hrun, rfl⟩ := run_cons.mp h
      exact ih (fun s j hj => hstep s j (List.mem_cons_of_mem _ hj))
        (hstep s i List.mem_cons_self answer t hs hone) hrun

/-- What holds of every step of a run: of the state before it and of its input. -/
def Along (step : σ → ι → Option (ω × σ)) (Q : σ → ι → Prop) : σ → List ι → Prop
  | _, [] => True
  | s, i :: inputs => Q s i ∧ ∀ answer t, step s i = some (answer, t) → Along step Q t inputs

/-- **What every step of a kind keeps, a run of such steps keeps.** -/
theorem invariant_along {P : σ → Prop} {Q : σ → ι → Prop} {inputs : List ι} {s s' : σ}
    {answers : List ω}
    (hstep : ∀ s i answer s', P s → Q s i → step s i = some (answer, s') → P s') (hs : P s)
    (halong : Along step Q s inputs) (h : run step s inputs = some (answers, s')) : P s' := by
  induction inputs generalizing s answers with
  | nil =>
      cases h
      exact hs
  | cons i inputs ih =>
      obtain ⟨answer, t, rest, hone, hrun, rfl⟩ := run_cons.mp h
      exact ih (hstep s i answer t hs halong.1 hone) (halong.2 answer t hone) hrun

/-- Whether every step of a run passes a check, and the run goes on to its end. -/
def checked (step : σ → ι → Option (ω × σ)) (check : σ → ι → Bool) : σ → List ι → Bool
  | _, [] => true
  | s, i :: inputs => check s i && (step s i).any fun answered => checked step check answered.2 inputs

/-- A run whose steps all pass a check is one along which what the check decides holds. -/
theorem along_of_checked {Q : σ → ι → Prop} {check : σ → ι → Bool}
    (hcheck : ∀ s i, check s i = true → Q s i) {inputs : List ι} {s : σ}
    (h : checked step check s inputs = true) : Along step Q s inputs := by
  induction inputs generalizing s with
  | nil => trivial
  | cons i inputs ih =>
      obtain ⟨hone, hrest⟩ := Bool.and_eq_true_iff.mp h
      refine ⟨hcheck s i hone, fun answer t hstep => ih ?_⟩
      rw [hstep] at hrest
      exact hrest

/-- Two things hold of every step when each does. -/
theorem along_and {Q R : σ → ι → Prop} {inputs : List ι} {s : σ} :
    Along step (fun s i => Q s i ∧ R s i) s inputs ↔ Along step Q s inputs ∧ Along step R s inputs := by
  induction inputs generalizing s with
  | nil => exact ⟨fun _ => ⟨trivial, trivial⟩, fun _ => trivial⟩
  | cons i inputs ih =>
      constructor
      · rintro ⟨⟨hq, hr⟩, hrest⟩
        exact ⟨⟨hq, fun answer t hone => (ih.mp (hrest answer t hone)).1⟩,
          ⟨hr, fun answer t hone => (ih.mp (hrest answer t hone)).2⟩⟩
      · rintro ⟨⟨hq, hqs⟩, ⟨hr, hrs⟩⟩
        exact ⟨⟨hq, hr⟩, fun answer t hone => ih.mpr ⟨hqs answer t hone, hrs answer t hone⟩⟩

/-- What every step answers, while its inputs lead through states of a kind, a run answers. -/
theorem forall_mem_answers {P : σ → Prop} {Q : ω → Prop} {inputs : List ι} {s s' : σ}
    {answers : List ω}
    (hstep : ∀ s, ∀ i ∈ inputs, ∀ answer s', P s → step s i = some (answer, s') → P s' ∧ Q answer)
    (hs : P s) (h : run step s inputs = some (answers, s')) : ∀ answer ∈ answers, Q answer := by
  induction inputs generalizing s answers with
  | nil =>
      cases h
      exact fun _ hmem => absurd hmem List.not_mem_nil
  | cons i inputs ih =>
      obtain ⟨answer, t, rest, hone, hrun, rfl⟩ := run_cons.mp h
      obtain ⟨ht, hanswer⟩ := hstep s i List.mem_cons_self answer t hs hone
      refine List.forall_mem_cons.mpr ⟨hanswer, ?_⟩
      exact ih (fun s j hj => hstep s j (List.mem_cons_of_mem _ hj)) ht hrun

/-- **An answer that latches.**  If an answer of a kind leaves a state from which every answer
is of that kind and such a state again, then after one answer of the kind there is no other. -/
theorem pairwise_answers {P : σ → Prop} {Q : ω → Prop}
    (henter : ∀ s i answer s', step s i = some (answer, s') → Q answer → P s')
    (hstay : ∀ s i answer s', P s → step s i = some (answer, s') → P s' ∧ Q answer)
    {inputs : List ι} {s s' : σ} {answers : List ω} (h : run step s inputs = some (answers, s')) :
    answers.Pairwise fun earlier later => Q earlier → Q later := by
  induction inputs generalizing s answers with
  | nil =>
      cases h
      exact List.Pairwise.nil
  | cons i inputs ih =>
      obtain ⟨answer, t, rest, hone, hrun, rfl⟩ := run_cons.mp h
      refine List.pairwise_cons.mpr ⟨fun later hlater hanswer => ?_, ih hrun⟩
      exact forall_mem_answers (fun s j _ => hstay s j) (henter s i answer t hone hanswer) hrun
        later hlater

end Lait.Machine
