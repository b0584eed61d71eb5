import Mathlib

/-!
# Monotone threshold formulas

A formula over leaves whose every gate asks for so many of its members.

A gate is shared by a polynomial one degree below its threshold: the constant term is
what the gate stands for, and a member gets the value at its own point.  Members enough
to satisfy the gate fix the constant term (`eq_zero_of_gateValue`), and fewer leave it
free: for any constant term there are coefficients under which all of them get nothing
(`exists_gateValue_eq_zero`).
-/

namespace Lait

/-- A formula over leaves. -/
inductive ThresholdTree (α : Type)
  | leaf (a : α)
  | threshold (k : ℕ) (members : List (ThresholdTree α))

namespace ThresholdTree

variable {α : Type}

mutual

/-- Whether the leaves present satisfy the formula. -/
def satisfied (present : α → Bool) : ThresholdTree α → Bool
  | leaf a => present a
  | threshold k members => k ≤ countSatisfied present members

/-- How many of the members are satisfied. -/
def countSatisfied (present : α → Bool) : List (ThresholdTree α) → ℕ
  | [] => 0
  | member :: members =>
      (if satisfied present member then 1 else 0) + countSatisfied present members

end

mutual

/-- The leaves, in order. -/
def leaves : ThresholdTree α → List α
  | leaf a => [a]
  | threshold _ members => leavesOf members

/-- The leaves of several formulas, in order. -/
def leavesOf : List (ThresholdTree α) → List α
  | [] => []
  | member :: members => leaves member ++ leavesOf members

end

mutual

/-- Every gate meets a condition on its threshold and the number of its members. -/
def Gates (P : ℕ → ℕ → Prop) : ThresholdTree α → Prop
  | leaf _ => True
  | threshold k members => P k members.length ∧ GatesOf P members

/-- Every gate of several formulas does. -/
def GatesOf (P : ℕ → ℕ → Prop) : List (ThresholdTree α) → Prop
  | [] => True
  | member :: members => Gates P member ∧ GatesOf P members

end

mutual

/-- How many coefficients the gates need beside their constant terms. -/
def freedom : ThresholdTree α → ℕ
  | leaf _ => 0
  | threshold k members => (k - 1) + freedomOf members

/-- Those of several formulas. -/
def freedomOf : List (ThresholdTree α) → ℕ
  | [] => 0
  | member :: members => freedom member + freedomOf members

end

theorem gatesOf_iff {P : ℕ → ℕ → Prop} {l : List (ThresholdTree α)} :
    GatesOf P l ↔ ∀ t ∈ l, Gates P t := by
  induction l with
  | nil => simp [GatesOf]
  | cons t l ih => rw [GatesOf, List.forall_mem_cons, ih]

theorem leavesOf_eq_flatMap (l : List (ThresholdTree α)) : leavesOf l = l.flatMap leaves := by
  induction l with
  | nil => rfl
  | cons t l ih => rw [leavesOf, ih, List.flatMap_cons]

theorem countSatisfied_eq_countP {present : α → Bool} (l : List (ThresholdTree α)) :
    countSatisfied present l = l.countP (satisfied present) := by
  induction l with
  | nil => rfl
  | cons t l ih => rw [countSatisfied, ih, List.countP_cons, add_comm]

mutual

/-- How many gates lie above the deepest leaf. -/
def height : ThresholdTree α → ℕ
  | leaf _ => 0
  | threshold _ members => heightOf members

/-- How many lie above the deepest leaf of the members, with the gate they are under. -/
def heightOf : List (ThresholdTree α) → ℕ
  | [] => 0
  | member :: members => max (height member + 1) (heightOf members)

end

theorem heightOf_le_iff {l : List (ThresholdTree α)} {n : ℕ} :
    heightOf l ≤ n ↔ ∀ t ∈ l, t.height + 1 ≤ n := by
  induction l with
  | nil => simp [heightOf]
  | cons t l ih => rw [heightOf, max_le_iff, ih, List.forall_mem_cons]

mutual

/-- A formula whose gates have members has a leaf. -/
theorem leaves_pos {t : ThresholdTree α} (h : t.Gates fun _ n => 0 < n) : 0 < t.leaves.length := by
  cases t with
  | leaf a => exact Nat.one_pos
  | threshold k members => exact lt_of_lt_of_le h.1 (length_le_leavesOf h.2)

/-- Such formulas have a leaf each. -/
theorem length_le_leavesOf {l : List (ThresholdTree α)} (h : GatesOf (fun _ n => 0 < n) l) :
    l.length ≤ (leavesOf l).length := by
  cases l with
  | nil => exact le_refl _
  | cons t l =>
      have hhead := leaves_pos h.1
      have htail := length_le_leavesOf h.2
      rw [leavesOf, List.length_append, List.length_cons]
      omega

end

mutual

/-- Where no gate asks for more members than it has, the coefficients are fewer than the
leaves. -/
theorem freedom_lt_leaves {t : ThresholdTree α} (h : t.Gates fun k n => 0 < n ∧ k ≤ n) :
    t.freedom < t.leaves.length := by
  cases t with
  | leaf a => exact Nat.one_pos
  | threshold k members =>
      have hmembers := freedomOf_add_le_leavesOf h.2
      have hgate := h.1
      rw [freedom, leaves]
      omega

theorem freedomOf_add_le_leavesOf {l : List (ThresholdTree α)}
    (h : GatesOf (fun k n => 0 < n ∧ k ≤ n) l) :
    freedomOf l + l.length ≤ (leavesOf l).length := by
  cases l with
  | nil => exact le_refl _
  | cons t l =>
      have hhead := freedom_lt_leaves h.1
      have htail := freedomOf_add_le_leavesOf h.2
      rw [freedomOf, leavesOf, List.length_append, List.length_cons]
      omega

end

mutual

/-- A condition on the gates may be weakened. -/
theorem Gates.mono {P Q : ℕ → ℕ → Prop} (hmono : ∀ k n, P k n → Q k n) {t : ThresholdTree α}
    (h : t.Gates P) : t.Gates Q := by
  cases t with
  | leaf a => trivial
  | threshold k members => exact ⟨hmono _ _ h.1, GatesOf.mono hmono h.2⟩

theorem GatesOf.mono {P Q : ℕ → ℕ → Prop} (hmono : ∀ k n, P k n → Q k n)
    {l : List (ThresholdTree α)} (h : GatesOf P l) : GatesOf Q l := by
  cases l with
  | nil => trivial
  | cons t l => exact ⟨Gates.mono hmono h.1, GatesOf.mono hmono h.2⟩

end

mutual

/-- Two conditions on the gates are one. -/
theorem Gates.and {P Q : ℕ → ℕ → Prop} {t : ThresholdTree α} (hP : t.Gates P) (hQ : t.Gates Q) :
    t.Gates fun k n => P k n ∧ Q k n := by
  cases t with
  | leaf a => trivial
  | threshold k members => exact ⟨⟨hP.1, hQ.1⟩, GatesOf.and hP.2 hQ.2⟩

theorem GatesOf.and {P Q : ℕ → ℕ → Prop} {l : List (ThresholdTree α)} (hP : GatesOf P l)
    (hQ : GatesOf Q l) : GatesOf (fun k n => P k n ∧ Q k n) l := by
  cases l with
  | nil => trivial
  | cons t l => exact ⟨Gates.and hP.1 hQ.1, GatesOf.and hP.2 hQ.2⟩

end

mutual

/-- Formulas can be told apart. -/
def decEq [DecidableEq α] : (s t : ThresholdTree α) → Decidable (s = t)
  | leaf a, leaf b => decidable_of_iff (a = b) (by simp)
  | leaf _, threshold _ _ => isFalse (by simp)
  | threshold _ _, leaf _ => isFalse (by simp)
  | threshold k l, threshold k' l' =>
      have := decEqList l l'
      decidable_of_iff (k = k' ∧ l = l') (by simp)

/-- So can lists of them. -/
def decEqList [DecidableEq α] : (l l' : List (ThresholdTree α)) → Decidable (l = l')
  | [], [] => isTrue rfl
  | [], _ :: _ => isFalse (by simp)
  | _ :: _, [] => isFalse (by simp)
  | s :: l, t :: l' =>
      have := decEq s t
      have := decEqList l l'
      decidable_of_iff (s = t ∧ l = l') (by simp)

end

instance [DecidableEq α] : DecidableEq (ThresholdTree α) := decEq

/-- The indices of the satisfied members. -/
def satisfiedIndices (present : α → Bool) (members : List (ThresholdTree α)) : Finset ℕ :=
  (Finset.range members.length).filter fun j => members[j]?.any (satisfied present) = true

theorem mem_satisfiedIndices {present : α → Bool} {members : List (ThresholdTree α)} {i : ℕ} :
    i ∈ satisfiedIndices present members ↔
      ∃ member, members[i]? = some member ∧ member.satisfied present = true := by
  rw [satisfiedIndices, Finset.mem_filter, Finset.mem_range]
  constructor
  · rintro ⟨hi, hany⟩
    rw [List.getElem?_eq_getElem hi] at hany ⊢
    exact ⟨_, rfl, hany⟩
  · rintro ⟨member, hmember, hsat⟩
    rw [hmember]
    exact ⟨(List.getElem?_eq_some_iff.mp hmember).1, hsat⟩

/-- They are as many as are counted. -/
theorem card_satisfiedIndices (present : α → Bool) (members : List (ThresholdTree α)) :
    (satisfiedIndices present members).card = countSatisfied present members := by
  rw [satisfiedIndices, ← Nat.count_eq_card_filter_range]
  induction members with
  | nil => rfl
  | cons member members ih =>
      rw [List.length_cons, Nat.count_succ', countSatisfied, ← ih, add_comm]
      rfl

/-! ## The polynomial of a gate -/

section Gate

open Polynomial

variable {F : Type} [Field F]

/-- The value at a point, given the constant term and the further coefficients. -/
def gateValue (a : F) (c : ℕ → F) (n : ℕ) (z : F) : F :=
  a + ∑ t ∈ Finset.range n, z ^ (t + 1) * c t

/-- **Enough points fix the constant term.** -/
theorem eq_zero_of_gateValue {a : F} {c : ℕ → F} {n : ℕ} {points : Finset F}
    (hcard : n < points.card) (h : ∀ z ∈ points, gateValue a c n z = 0) : a = 0 := by
  let p : F[X] := C a + ∑ t ∈ Finset.range n, C (c t) * X ^ (t + 1)
  have heval : ∀ z, p.eval z = gateValue a c n z := by
    intro z
    simp only [p, eval_add, eval_C, eval_finsetSum, eval_mul, eval_pow, eval_X, gateValue]
    congr 1
    exact Finset.sum_congr rfl fun t _ => mul_comm _ _
  have hdegree : p.degree < points.card := by
    have hle : p.natDegree ≤ n := by
      refine natDegree_add_le_of_degree_le (by simp) (natDegree_sum_le_of_forall_le _ _ ?_)
      intro t ht
      refine (natDegree_C_mul_X_pow_le _ _).trans ?_
      exact Nat.succ_le_of_lt (Finset.mem_range.mp ht)
    refine lt_of_le_of_lt degree_le_natDegree ?_
    exact_mod_cast lt_of_le_of_lt hle hcard
  have hzero : p = 0 := eq_zero_of_degree_lt_of_eval_finset_eq_zero points hdegree fun z hz => by
    rw [heval, h z hz]
  have hconstant : p.eval 0 = a := by
    rw [heval, gateValue, Finset.sum_eq_zero fun t _ => by rw [zero_pow (Nat.succ_ne_zero t),
      zero_mul], add_zero]
  rw [← hconstant, hzero, eval_zero]

/-- **Fewer points leave it free.** -/
theorem exists_gateValue_eq_zero {n : ℕ} {points : Finset F} (hcard : points.card ≤ n)
    (hnonzero : (0 : F) ∉ points) (a : F) : ∃ c, ∀ z ∈ points, gateValue a c n z = 0 := by
  let p : F[X] := C a * ∏ z ∈ points, (1 - C z⁻¹ * X)
  have hdegree : p.natDegree < n + 1 := by
    have hfactor : ∀ z ∈ points, (1 - C z⁻¹ * X : F[X]).natDegree ≤ 1 := by
      intro z _
      compute_degree
    have hprod : (∏ z ∈ points, (1 - C z⁻¹ * X : F[X])).natDegree ≤ ∑ _z ∈ points, 1 :=
      (natDegree_prod_le _ _).trans (Finset.sum_le_sum hfactor)
    rw [Finset.sum_const, smul_eq_mul, mul_one] at hprod
    have hmul : p.natDegree ≤ 0 + _ := natDegree_mul_le_of_le (le_of_eq (natDegree_C a)) hprod
    omega
  have hconstant : p.coeff 0 = a := by
    have hone : ∀ z ∈ points, (1 - C z⁻¹ * X : F[X]).eval 0 = 1 := fun z _ => by simp
    rw [coeff_zero_eq_eval_zero, eval_mul, eval_C, eval_prod, Finset.prod_eq_one hone, mul_one]
  refine ⟨fun t => p.coeff (t + 1), fun z hz => ?_⟩
  have heval : p.eval z = 0 := by
    have hz0 : z ≠ 0 := fun hzero => hnonzero (hzero ▸ hz)
    rw [eval_mul, eval_prod, Finset.prod_eq_zero hz (by simp [hz0]), mul_zero]
  rw [eval_eq_sum_range' hdegree, Finset.sum_range_succ', pow_zero, mul_one, hconstant] at heval
  rw [gateValue, ← heval, add_comm a]
  congr 1
  exact Finset.sum_congr rfl fun t _ => mul_comm _ _

end Gate

end ThresholdTree

end Lait
