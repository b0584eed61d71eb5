import Mathlib.Data.List.Induction
import Mathlib.Tactic.Common

/-!
# What a question reads

An `Inquiry` answers a question about a state and says which facts about the state it reads
on the way: a conjunction reads its second half only where the first half holds, and a
disjunction only where it does not.  Two states in which an inquiry reads the same facts,
with the same values, give it the same answer, and less will do: the facts it reads in both
of them (`determined`).  Each way of putting inquiries together carries the law along.

The second half is about a fact over a run.  A step settles a fact when the value it leaves
does not depend on the state before, and a fact every step of the run either settles or
leaves alone has the value of the last step that settled it (`settled`).  Steps can be taken
out of the run without a trace if each of them leaves the value as it was, or is followed by
one that stays and settles it (`settled_filter_of_removable`).
-/

namespace Lait

/-! ## Inquiries -/

/-- A question about a state, and the facts that are read to answer it. -/
structure Inquiry {σ Φ : Type} (holds : Φ → σ → Bool) where
  answer : σ → Prop
  reads : σ → Φ → Prop
  determined : ∀ s t, (∀ φ, reads s φ → reads t φ → holds φ s = holds φ t) →
    (answer s ↔ answer t)

namespace Inquiry

variable {σ Φ : Type} {holds : Φ → σ → Bool}

/-- What needs no reading. -/
def const (p : Prop) : Inquiry holds where
  answer _ := p
  reads _ _ := False
  determined _ _ _ := Iff.rfl

/-- One fact. -/
def of (φ : Φ) : Inquiry holds where
  answer s := holds φ s = true
  reads _ ψ := ψ = φ
  determined s t h := by rw [h φ rfl rfl]

def not (p : Inquiry holds) : Inquiry holds where
  answer s := ¬ p.answer s
  reads := p.reads
  determined s t h := not_congr (p.determined s t h)

/-- Both, the second only where the first holds. -/
def and (p q : Inquiry holds) : Inquiry holds where
  answer s := p.answer s ∧ q.answer s
  reads s φ := p.reads s φ ∨ p.answer s ∧ q.reads s φ
  determined s t h := by
    have hp : p.answer s ↔ p.answer t :=
      p.determined s t fun φ hs ht => h φ (Or.inl hs) (Or.inl ht)
    constructor
    · rintro ⟨hps, hqs⟩
      have hpt := hp.mp hps
      exact ⟨hpt, (q.determined s t fun φ hs ht =>
        h φ (Or.inr ⟨hps, hs⟩) (Or.inr ⟨hpt, ht⟩)).mp hqs⟩
    · rintro ⟨hpt, hqt⟩
      have hps := hp.mpr hpt
      exact ⟨hps, (q.determined s t fun φ hs ht =>
        h φ (Or.inr ⟨hps, hs⟩) (Or.inr ⟨hpt, ht⟩)).mpr hqt⟩

/-- Either, the second only where the first does not hold. -/
def or (p q : Inquiry holds) : Inquiry holds where
  answer s := p.answer s ∨ q.answer s
  reads s φ := p.reads s φ ∨ ¬ p.answer s ∧ q.reads s φ
  determined s t h := by
    have hp : p.answer s ↔ p.answer t :=
      p.determined s t fun φ hs ht => h φ (Or.inl hs) (Or.inl ht)
    by_cases hps : p.answer s
    · exact ⟨fun _ => Or.inl (hp.mp hps), fun _ => Or.inl hps⟩
    · have hpt := fun ht => hps (hp.mpr ht)
      have hq := q.determined s t fun φ hs ht => h φ (Or.inr ⟨hps, hs⟩) (Or.inr ⟨hpt, ht⟩)
      exact ⟨fun hor => Or.inr (hq.mp (hor.resolve_left hps)),
        fun hor => Or.inr (hq.mpr (hor.resolve_left hpt))⟩

/-- One of a family, each of them asked. -/
def any {ι : Type} (p : ι → Inquiry holds) : Inquiry holds where
  answer s := ∃ i, (p i).answer s
  reads s φ := ∃ i, (p i).reads s φ
  determined s t h := exists_congr fun i =>
    (p i).determined s t fun φ hs ht => h φ ⟨i, hs⟩ ⟨i, ht⟩

end Inquiry

/-! ## Facts over a run -/

section Settled

variable {α : Type} (settle : α → Option Bool)

/-- The value of a fact after some steps. -/
def settled (value : Bool) (steps : List α) : Bool :=
  steps.foldl (fun value step => (settle step).getD value) value

/-- The steps that do not stay can go: where one of them changes the fact, a later one that stays
settles it. -/
def Removable (stays : α → Bool) (value : Bool) (steps : List α) : Prop :=
  ∀ before step later, steps = before ++ step :: later → stays step = false →
    settled settle value (before ++ [step]) ≠ settled settle value before →
      ∃ step' ∈ later, stays step' = true ∧ (settle step').isSome = true

variable {settle} {value : Bool} {steps : List α}

theorem settled_concat (steps : List α) (step : α) :
    settled settle value (steps ++ [step]) = (settle step).getD (settled settle value steps) :=
  List.foldl_append

/-- Only the steps that settle the fact count. -/
theorem settled_filter_isSome :
    settled settle value (steps.filter fun step => (settle step).isSome) =
      settled settle value steps := by
  induction steps using List.reverseRecOn with
  | nil => rfl
  | append_singleton steps step ih =>
      rw [List.filter_append, settled_concat, ← ih]
      cases hsettle : settle step with
      | none => simp [hsettle]
      | some b => simp [hsettle, settled_concat]

/-- Runs with the same settling steps, in the same order, leave the same value. -/
theorem settled_congr {steps' : List α}
    (h : (steps.filter fun step => (settle step).isSome) =
      steps'.filter fun step => (settle step).isSome) :
    settled settle value steps = settled settle value steps' := by
  rw [← settled_filter_isSome, h, settled_filter_isSome]

/-- Steps that do not settle a fact can go. -/
theorem removable_of_silent {stays : α → Bool}
    (h : ∀ step ∈ steps, stays step = false → settle step = none) :
    Removable settle stays value steps := by
  rintro before step later rfl hgoes hchanges
  refine absurd ?_ hchanges
  rw [settled_concat, h step (by simp) hgoes, Option.getD_none]

/-- **Removable steps can be taken out.** -/
theorem settled_filter_of_removable {stays : α → Bool}
    (h : Removable settle stays value steps) :
    settled settle value (steps.filter stays) = settled settle value steps := by
  induction steps using List.reverseRecOn with
  | nil => rfl
  | append_singleton steps last ih =>
      rw [List.filter_append, settled_concat]
      have hinit : settle last = none ∨ stays last = false →
          Removable settle stays value steps := by
        rintro hlast before step later rfl hgoes hchanges
        obtain ⟨step', hmem, hstays, hsettles⟩ := h before step (later ++ [last]) (by simp) hgoes
          hchanges
        refine ⟨step', ?_, hstays, hsettles⟩
        rcases List.mem_append.mp hmem with hmem | hmem
        · exact hmem
        · obtain rfl := List.mem_singleton.mp hmem
          rcases hlast with hnone | hgone
          · rw [hnone] at hsettles
            cases hsettles
          · cases hgone.symm.trans hstays
      cases hstays : stays last with
      | true =>
          rw [List.filter_cons_of_pos hstays, List.filter_nil, settled_concat]
          cases hsettle : settle last with
          | none => exact ih (hinit (Or.inl hsettle))
          | some b => rfl
      | false =>
          rw [List.filter_cons_of_neg (by simp [hstays]), List.filter_nil, List.append_nil,
            ih (hinit (Or.inr hstays)), ← settled_concat]
          by_contra hne
          obtain ⟨step', hmem, -⟩ := h steps last [] rfl hstays (Ne.symm hne)
          cases hmem

end Settled

end Lait
