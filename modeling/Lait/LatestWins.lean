import Mathlib

/-!
# The later of two

A register that keeps the later of two values, by a rank that need not tell all values
apart, and a value that may be missing.  Of two values of one rank the first is kept, so
the order of merging shows where two different values have one rank, and nowhere else.

A `Merges` is one way to merge: an order, a grouping, and every repetition.  What it
comes to is one of the merged values, of the highest rank (`eval_mem`, `rank_le_eval`).
Two ways to merge the same values agree for sure when no two of the values are tied
(`eval_eq_of_untied`), and all ways agree exactly when the values of the highest rank
are one value (`eval_map_eq_iff`).
-/

namespace Lait.LatestWins

variable {α β γ : Type*}

/-! ## Two values -/

/-- A missing value ranks below every value. -/
def rankOption (rank : α → β) : Option α → WithBot β := Option.map rank

@[simp] theorem rankOption_none (rank : α → β) : rankOption rank none = ⊥ := rfl

@[simp] theorem rankOption_some (rank : α → β) (a : α) : rankOption rank (some a) = rank a := rfl

/-- Values of one rank are equal. -/
def Untied (rank : α → β) (values : Set α) : Prop :=
  ∀ a ∈ values, ∀ b ∈ values, rank a = rank b → a = b

/-- A missing value ties with nothing but itself. -/
theorem untied_option_iff {rank : α → β} {values : Set (Option α)} :
    Untied (rankOption rank) values ↔ Untied rank {a | some a ∈ values} := by
  constructor
  · intro h a ha b hb hrank
    exact Option.some.inj (h _ ha _ hb (congrArg WithBot.some hrank))
  · intro h a ha b hb hrank
    cases a with
    | none =>
        cases b with
        | none => rfl
        | some b => exact absurd hrank.symm WithBot.coe_ne_bot
    | some a =>
        cases b with
        | none => exact absurd hrank WithBot.coe_ne_bot
        | some b => exact congrArg some (h a ha b hb (WithBot.coe_injective hrank))

section Later

variable [LinearOrder β]

/-- The one of higher rank, and the first of two of one rank. -/
def later (rank : α → β) (left right : α) : α := if rank left < rank right then right else left

variable {rank : α → β}

theorem later_eq_or (rank : α → β) (a b : α) : later rank a b = a ∨ later rank a b = b := by
  unfold later
  split
  · exact Or.inr rfl
  · exact Or.inl rfl

theorem rank_later (rank : α → β) (a b : α) : rank (later rank a b) = max (rank a) (rank b) := by
  unfold later
  split
  next hlt => rw [max_eq_right hlt.le]
  next hle => rw [max_eq_left (not_lt.mp hle)]

@[simp] theorem later_self (rank : α → β) (a : α) : later rank a a = a := by
  rw [later, ite_self]

/-- The first of the highest of three, however they are grouped. -/
theorem later_assoc (rank : α → β) (a b c : α) :
    later rank (later rank a b) c = later rank a (later rank b c) := by
  unfold later
  rcases lt_or_ge (rank a) (rank b) with hab | hab
  · rcases lt_or_ge (rank b) (rank c) with hbc | hbc
    · rw [if_pos hab, if_pos hbc, if_pos (hab.trans hbc)]
    · rw [if_pos hab, if_neg (not_lt.mpr hbc), if_pos hab]
  · rcases lt_or_ge (rank b) (rank c) with hbc | hbc
    · rw [if_neg (not_lt.mpr hab), if_pos hbc]
    · rw [if_neg (not_lt.mpr hab), if_neg (not_lt.mpr hbc), if_neg (not_lt.mpr hab),
        if_neg (not_lt.mpr (hbc.trans hab))]

/-- **The order of two values shows exactly when they are different and tied.** -/
theorem later_comm_iff {a b : α} :
    later rank a b = later rank b a ↔ (rank a = rank b → a = b) := by
  unfold later
  rcases lt_trichotomy (rank a) (rank b) with hlt | heq | hgt
  · simp [hlt, hlt.not_gt, hlt.ne]
  · simp [heq]
  · simp [hgt, hgt.not_gt, hgt.ne']

/-- Keeping the one that is there is keeping the later. -/
theorem merge_later (rank : α → β) (a b : Option α) :
    Option.merge (later rank) a b = later (rankOption rank) a b := by
  cases a with
  | none => cases b <;> simp [later, Option.merge]
  | some a =>
      cases b with
      | none => simp [later, Option.merge]
      | some b =>
          simp only [Option.merge, later, rankOption_some, WithBot.coe_lt_coe]
          split <;> rfl

end Later

/-! ## Every way to merge -/

/-- A way to merge values: their order, their grouping and how often each is taken. -/
inductive Merges (α : Type*)
  | one (value : α)
  | both (left right : Merges α)

namespace Merges

/-- What a way to merge comes to. -/
def eval (merge : α → α → α) : Merges α → α
  | one value => value
  | both left right => merge (left.eval merge) (right.eval merge)

/-- The values merged, each as often as it is taken. -/
def values : Merges α → List α
  | one value => [value]
  | both left right => left.values ++ right.values

def map (f : α → γ) : Merges α → Merges γ
  | one value => one (f value)
  | both left right => both (left.map f) (right.map f)

@[simp] theorem values_map (f : α → γ) (t : Merges α) : (t.map f).values = t.values.map f := by
  induction t with
  | one value => rfl
  | both left right ihl ihr => rw [map, values, ihl, ihr, values, List.map_append]

/-- What is read off a merged value is merged from what is read off the values. -/
theorem eval_map {f : α → γ} {merge : α → α → α} {merge' : γ → γ → γ}
    (h : ∀ a b, f (merge a b) = merge' (f a) (f b)) (t : Merges α) :
    f (t.eval merge) = (t.map f).eval merge' := by
  induction t with
  | one value => rfl
  | both left right ihl ihr => rw [eval, h, ihl, ihr, map, eval]

/-- Values can be merged in the order in which they stand. -/
theorem exists_values_eq (a : α) (l : List α) : ∃ t : Merges α, t.values = a :: l := by
  induction l generalizing a with
  | nil => exact ⟨one a, rfl⟩
  | cons b l ih =>
      obtain ⟨t, ht⟩ := ih b
      exact ⟨both (one a) t, by rw [values, ht]; rfl⟩

variable [LinearOrder β] {rank : α → β}

/-- A merged value is one of the values. -/
theorem eval_mem (rank : α → β) (t : Merges α) : t.eval (later rank) ∈ t.values := by
  induction t with
  | one value => exact List.mem_singleton_self value
  | both left right ihl ihr =>
      rw [eval, values, List.mem_append]
      rcases later_eq_or rank (left.eval (later rank)) (right.eval (later rank)) with h | h
      · exact Or.inl (by rw [h]; exact ihl)
      · exact Or.inr (by rw [h]; exact ihr)

/-- It is of the highest rank. -/
theorem rank_le_eval {t : Merges α} {a : α} (ha : a ∈ t.values) :
    rank a ≤ rank (t.eval (later rank)) := by
  induction t with
  | one value => rw [List.mem_singleton.mp ha, eval]
  | both left right ihl ihr =>
      rw [eval, rank_later rank]
      rcases List.mem_append.mp ha with ha | ha
      · exact (ihl ha).trans (le_max_left _ _)
      · exact (ihr ha).trans (le_max_right _ _)

/-- A value that comes first and that no other outranks is the merged one. -/
theorem eval_both_one {t : Merges α} {a : α} (h : ∀ b ∈ t.values, rank b ≤ rank a) :
    (both (one a) t).eval (later rank) = a := by
  rw [eval, eval, later, if_neg (not_lt.mpr (h _ (eval_mem rank t)))]

/-- Two ways to merge the same values come to values of one rank. -/
theorem rank_eval_eq {t t' : Merges α} (h : ∀ a, a ∈ t.values ↔ a ∈ t'.values) :
    rank (t.eval (later rank)) = rank (t'.eval (later rank)) :=
  le_antisymm (rank_le_eval ((h _).mp (eval_mem rank t)))
    (rank_le_eval ((h _).mpr (eval_mem rank t')))

/-- **Untied values merge to one value**, in every order, grouping and repetition. -/
theorem eval_eq_of_untied {S : Set α} (huntied : Untied rank S) {t t' : Merges α}
    (hS : ∀ a ∈ t.values, a ∈ S) (h : ∀ a, a ∈ t.values ↔ a ∈ t'.values) :
    t.eval (later rank) = t'.eval (later rank) :=
  huntied _ (hS _ (eval_mem rank t)) _ (hS _ ((h _).mpr (eval_mem rank t'))) (rank_eval_eq h)

/-- **What is read off some values merges to one value in all ways exactly when the readings
of the highest rank are one.** -/
theorem eval_map_eq_iff {read : γ → α} {S : List γ} :
    (∀ t t' : Merges γ, (∀ c, c ∈ t.values ↔ c ∈ S) → (∀ c, c ∈ t'.values ↔ c ∈ S) →
      (t.map read).eval (later rank) = (t'.map read).eval (later rank)) ↔
      Untied rank {a | a ∈ S.map read ∧ ∀ b ∈ S.map read, rank b ≤ rank a} := by
  constructor
  · intro h a ⟨ha, htop⟩ b ⟨hb, htop'⟩ _
    -- Each of the two comes first in a way to merge all the values.
    have hfirst : ∀ x ∈ S.map read, (∀ y ∈ S.map read, rank y ≤ rank x) →
        ∃ t : Merges γ, (∀ c, c ∈ t.values ↔ c ∈ S) ∧ (t.map read).eval (later rank) = x := by
      intro x hx hxtop
      obtain ⟨c, hc, rfl⟩ := List.mem_map.mp hx
      obtain ⟨first, rest, rfl⟩ := List.exists_cons_of_ne_nil (List.ne_nil_of_mem hc)
      obtain ⟨t, ht⟩ := exists_values_eq first rest
      refine ⟨both (one c) t, fun d => ?_, eval_both_one fun y hy => hxtop y ?_⟩
      · rw [values, values, List.mem_append, List.mem_singleton, ht]
        exact or_iff_right_of_imp fun hd => hd ▸ hc
      · rwa [values_map, ht] at hy
    obtain ⟨t, ht, hevala⟩ := hfirst a ha htop
    obtain ⟨t', ht', hevalb⟩ := hfirst b hb htop'
    rw [← hevala, ← hevalb]
    exact h t t' ht ht'
  · intro huntied t t' ht ht'
    have hmap : ∀ t : Merges γ, (∀ c, c ∈ t.values ↔ c ∈ S) →
        ∀ a, a ∈ (t.map read).values ↔ a ∈ S.map read := by
      intro t ht a
      simp only [values_map, List.mem_map, ht]
    have htop : ∀ t : Merges γ, (∀ c, c ∈ t.values ↔ c ∈ S) → (t.map read).eval (later rank) ∈
        {a | a ∈ S.map read ∧ ∀ b ∈ S.map read, rank b ≤ rank a} :=
      fun t ht => ⟨(hmap t ht _).mp (eval_mem rank _),
        fun b hb => rank_le_eval ((hmap t ht b).mpr hb)⟩
    exact huntied _ (htop t ht) _ (htop t' ht')
      (rank_eval_eq fun a => (hmap t ht a).trans (hmap t' ht' a).symm)

end Merges

end Lait.LatestWins
