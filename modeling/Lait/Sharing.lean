import Mathlib

/-!
# Shamir sharing, Feldman commitments and redistribution

A secret is shared by a polynomial whose constant term it is: a participant's
share is the value at the participant's node, and the values at enough nodes
give the secret back by interpolation at zero.

`evalAt` evaluates a list of coefficients from any module over the field, by the
loop that accumulates `x ^ l • c_l`.  At the field itself it evaluates the
polynomial; at a group it evaluates **committed** coefficients, and a linear map
takes the one to the other (`evalAt_map`).

`lagrangeAtZero` is the recombination weight of one node among a list of nodes.
The weights of a list of distinct nodes recover every polynomial of smaller
degree at zero (`sum_weight_eval`).

A share is **redistributed** by sharing it anew: each holder deals a fresh
polynomial with its share as constant term, and a receiver weighs what it was
dealt.  What the receivers then hold is a sharing of the same secret, under the
new degree (`redistributed_eval_zero`, `degree_redistributed_lt`).
-/

namespace Lait.Sharing

open Polynomial

/-! ## Evaluation -/

section Evaluation

variable {F M M' : Type*} [Field F] [AddCommGroup M] [Module F M] [AddCommGroup M'] [Module F M']

/-- One coefficient: what is accumulated, and the next power. -/
def evalStep (x : F) (acc : M × F) (c : M) : M × F := (acc.1 + acc.2 • c, acc.2 * x)

/-- Evaluate coefficients, the constant one first. -/
def evalAt (cs : List M) (x : F) : M := (cs.foldl (evalStep x) (0, 1)).1

theorem foldl_evalStep (cs : List M) (x : F) (acc : M) (pow : F) :
    (cs.foldl (evalStep x) (acc, pow)).1 = acc + pow • evalAt cs x := by
  induction cs generalizing acc pow with
  | nil => simp [evalAt]
  | cons c cs ih =>
      show (cs.foldl (evalStep x) (acc + pow • c, pow * x)).1
        = acc + pow • (cs.foldl (evalStep x) (0 + (1 : F) • c, 1 * x)).1
      rw [ih, ih, zero_add, one_smul, one_mul, smul_add, smul_smul, add_assoc]

@[simp] theorem evalAt_nil (x : F) : evalAt ([] : List M) x = 0 := rfl

@[simp] theorem evalAt_cons (c : M) (cs : List M) (x : F) :
    evalAt (c :: cs) x = c + x • evalAt cs x := by
  show (cs.foldl (evalStep x) (0 + (1 : F) • c, 1 * x)).1 = _
  rw [foldl_evalStep, zero_add, one_smul, one_mul]

/-- A linear map takes an evaluation to that of the mapped coefficients. -/
theorem evalAt_map (f : M →ₗ[F] M') (cs : List M) (x : F) :
    evalAt (cs.map f) x = f (evalAt cs x) := by
  induction cs with
  | nil => simp
  | cons c cs ih => simp [ih]

/-- The polynomial of a list of coefficients. -/
noncomputable def toPoly : List F → F[X]
  | [] => 0
  | c :: cs => C c + X * toPoly cs

theorem eval_toPoly (cs : List F) (x : F) : (toPoly cs).eval x = evalAt cs x := by
  induction cs with
  | nil => simp [toPoly]
  | cons c cs ih => simp [toPoly, ih]

theorem degree_toPoly_lt (cs : List F) : (toPoly cs).degree < cs.length := by
  rw [degree_lt_iff_coeff_zero]
  induction cs with
  | nil => simp [toPoly]
  | cons c cs ih =>
      intro l hl
      obtain ⟨l, rfl⟩ : ∃ l', l = l' + 1 := ⟨l - 1, by simp at hl; omega⟩
      rw [toPoly, coeff_add, coeff_C_succ, coeff_X_mul, zero_add]
      exact ih l (by simpa using hl)

end Evaluation

/-! ## Recombination -/

section Recombination

variable {F ι : Type*} [Field F] [DecidableEq ι]

/-- One node's part of a weight: its own numerator and denominator. -/
def lagrangeStep (v : ι → F) (i : ι) (acc : F × F) (m : ι) : F × F :=
  if m = i then acc else (acc.1 * v m, acc.2 * (v m - v i))

/-- The Lagrange coefficient of one node at zero, unless two nodes coincide. -/
def lagrangeAtZero [DecidableEq F] (v : ι → F) (i : ι) (q : List ι) : Option F :=
  let parts := q.foldl (lagrangeStep v i) (1, 1)
  if parts.2 = 0 then none else some (parts.1 * parts.2⁻¹)

/-- The recombination weight of a node. -/
noncomputable def weight (v : ι → F) (q : List ι) (i : ι) : F :=
  (Lagrange.basis q.toFinset v i).eval 0

theorem foldl_lagrangeStep (v : ι → F) (i : ι) (q : List ι) (num den : F) :
    q.foldl (lagrangeStep v i) (num, den)
      = (num * ((q.filter (· ≠ i)).map v).prod,
          den * ((q.filter (· ≠ i)).map fun m => v m - v i).prod) := by
  induction q generalizing num den with
  | nil => simp
  | cons m q ih =>
      rw [List.foldl_cons]
      by_cases hm : m = i
      · rw [lagrangeStep, if_pos hm, ih]
        simp [hm]
      · rw [lagrangeStep, if_neg hm, ih]
        simp [hm, mul_assoc]

/-- Over distinct nodes the loop finds the weight. -/
theorem lagrangeAtZero_eq [DecidableEq F] {v : ι → F} {q : List ι} (hnodup : q.Nodup)
    (hinj : Set.InjOn v {i | i ∈ q}) {i : ι} (hi : i ∈ q) :
    lagrangeAtZero v i q = some (weight v q i) := by
  have hden : ((q.filter (· ≠ i)).map fun m => v m - v i).prod ≠ 0 := by
    refine List.prod_ne_zero fun hzero => ?_
    obtain ⟨m, hm, hsub⟩ := List.mem_map.mp hzero
    obtain ⟨hmq, hmi⟩ := List.mem_filter.mp hm
    exact (of_decide_eq_true hmi) (hinj hmq hi (sub_eq_zero.mp hsub))
  have herase : q.toFinset.erase i = (q.filter (· ≠ i)).toFinset := by
    ext m
    simp [and_comm]
  have hweight : weight v q i
      = ((q.filter (· ≠ i)).map fun m => v m * (v m - v i)⁻¹).prod := by
    unfold weight Lagrange.basis
    rw [eval_prod, herase, List.prod_toFinset _ (hnodup.filter _)]
    congr 1
    refine List.map_congr_left fun m _ => ?_
    rw [Lagrange.basisDivisor]
    simp only [eval_mul, eval_C, eval_sub, eval_X, zero_sub]
    rw [← neg_sub (v m) (v i), inv_neg]
    ring
  unfold lagrangeAtZero
  rw [foldl_lagrangeStep]
  dsimp only
  rw [one_mul, one_mul, if_neg hden, hweight, List.prod_map_mul, List.prod_inv, List.map_map]
  rfl

/-- The weights recover a polynomial of smaller degree at zero. -/
theorem sum_weight_eval {v : ι → F} {q : List ι} (hnodup : q.Nodup)
    (hinj : Set.InjOn v {i | i ∈ q}) {p : F[X]} (hdegree : p.degree < q.length) :
    (q.map fun i => weight v q i * p.eval (v i)).sum = p.eval 0 := by
  have hset : Set.InjOn v q.toFinset := by
    intro a ha b hb
    exact hinj (by simpa using ha) (by simpa using hb)
  have hcard : p.degree < q.toFinset.card := by rwa [List.toFinset_card_of_nodup hnodup]
  calc (q.map fun i => weight v q i * p.eval (v i)).sum
      = ∑ i ∈ q.toFinset, weight v q i * p.eval (v i) := (List.sum_toFinset _ hnodup).symm
    _ = (Lagrange.interpolate q.toFinset v fun i => p.eval (v i)).eval 0 := by
        rw [Lagrange.interpolate_apply, eval_finsetSum]
        refine Finset.sum_congr rfl fun i _ => ?_
        rw [eval_mul, eval_C, mul_comm]
        rfl
    _ = p.eval 0 := by rw [← Lagrange.eq_interpolate hset hcard]

end Recombination

/-! ## Redistribution -/

section Redistribution

variable {F ι : Type*} [Field F] [DecidableEq ι]

/-- What the receivers share: the dealt polynomials, weighed. -/
noncomputable def redistributed (v : ι → F) (q : List ι) (dealt : ι → List F) : F[X] :=
  (q.map fun i => C (weight v q i) * toPoly (dealt i)).sum

theorem eval_redistributed (v : ι → F) (q : List ι) (dealt : ι → List F) (x : F) :
    (redistributed v q dealt).eval x = (q.map fun i => weight v q i * evalAt (dealt i) x).sum := by
  unfold redistributed
  rw [eval_listSum, List.map_map]
  congr 1
  refine List.map_congr_left fun i _ => ?_
  simp [eval_toPoly]

theorem degree_redistributed_lt (v : ι → F) (q : List ι) {dealt : ι → List F} {k : ℕ}
    (hlength : ∀ i ∈ q, (dealt i).length = k) : (redistributed v q dealt).degree < k := by
  unfold redistributed
  rw [degree_lt_iff_coeff_zero]
  intro l hl
  rw [← lcoeff_apply, map_list_sum, List.map_map]
  refine List.sum_eq_zero ?_
  intro c hc
  obtain ⟨i, hi, rfl⟩ := List.mem_map.mp hc
  have hdegree := degree_toPoly_lt (dealt i)
  rw [hlength i hi, degree_lt_iff_coeff_zero] at hdegree
  simp [hdegree l hl]

/-- **The secret is kept.**  Holders whose shares determine a polynomial redistribute
its constant term. -/
theorem redistributed_eval_zero {v : ι → F} {q : List ι} (hnodup : q.Nodup)
    (hinj : Set.InjOn v {i | i ∈ q}) {p : F[X]} (hdegree : p.degree < q.length)
    {dealt : ι → List F} (hdealt : ∀ i ∈ q, evalAt (dealt i) (0 : F) = p.eval (v i)) :
    (redistributed v q dealt).eval 0 = p.eval 0 := by
  rw [eval_redistributed, ← sum_weight_eval hnodup hinj hdegree]
  congr 1
  exact List.map_congr_left fun i hi => by rw [hdealt i hi]

end Redistribution

end Lait.Sharing
