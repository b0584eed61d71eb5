import Lait.Policy.Compile

/-!
# The compiled structure is the policy

A set of leaves of a policy is qualified when it satisfies the expanded tree.  The rows
built for the tree say the same in terms of assignments of the columns (`Shares`): an
assignment at which the rows of a qualified set vanish gives nothing to the node's own
row, and for an unqualified set any assignment of the columns before can be continued to
one at which the rows of the set vanish.  A gate passes both on to its members by the
polynomial it shares its row with.

Solving for the target is decided in the same terms (`solveRowCombination_spec`): it
succeeds with a combination that is the target at every assignment, or there is an
assignment at which the rows vanish and the target does not.  So a set reconstructs
exactly when it is qualified, and a witness that verifies names a qualified set.
-/

namespace Lait.Policy.Compile

open RowReduction

/-! ## Solving -/

section Solve

variable {F : Type} [Field F]

/-- The value of a combination of rows. -/
def combined (terms : List (List F × F)) (x : ℕ → F) : F :=
  (terms.map fun term => term.2 * dot term.1 x).sum

theorem combined_zip {rows : List (List F)} {lambda : List F}
    (hlength : lambda.length = rows.length) (x : ℕ → F) :
    combined (rows.zip lambda) x =
      ∑ i ∈ Finset.range rows.length, lambda.getD i 0 * dot (rows.getD i []) x := by
  induction rows generalizing lambda with
  | nil => simp [combined]
  | cons row rows ih =>
      cases lambda with
      | nil => cases hlength
      | cons a lambda =>
          have htail := ih (Nat.succ.inj hlength)
          rw [combined] at htail ⊢
          rw [List.zip_cons_cons, List.map_cons, List.sum_cons, htail, List.length_cons,
            Finset.sum_range_succ']
          simp [add_comm]

/-- Rows that all vanish combine to nothing. -/
theorem combined_eq_zero {terms : List (List F × F)} {x : ℕ → F}
    (h : ∀ term ∈ terms, dot term.1 x = 0) : combined terms x = 0 := by
  refine List.sum_eq_zero fun value hvalue => ?_
  obtain ⟨term, hterm, rfl⟩ := List.mem_map.mp hvalue
  rw [h term hterm, mul_zero]

/-- Terms without a coefficient may be left out. -/
theorem combined_filter [DecidableEq F] (terms : List (List F × F)) (x : ℕ → F) :
    combined (terms.filter fun term => term.2 ≠ 0) x = combined terms x := by
  induction terms with
  | nil => rfl
  | cons term terms ih =>
      rw [combined] at ih ⊢
      rw [List.filter_cons]
      split
      next => rw [List.map_cons, List.sum_cons, ih, combined, combined, List.map_cons, List.sum_cons]
      next hzero =>
        have hcoefficient : term.2 = 0 := by simpa using hzero
        rw [ih, combined, combined, List.map_cons, List.sum_cons, hcoefficient, zero_mul, zero_add]

theorem length_readOff (rows : List (List F)) (m : ℕ) (pivots : List ℕ) (i : ℕ)
    (lambda : List F) : (readOff rows m pivots i lambda).length = lambda.length := by
  induction pivots generalizing i lambda with
  | nil => rfl
  | cons pc pivots ih => rw [readOff, ih, List.length_set]

/-- A column without a pivot keeps its coefficient. -/
theorem getD_readOff_of_notMem {rows : List (List F)} {m : ℕ} {pivots : List ℕ} {i c : ℕ}
    {lambda : List F} (hc : c ∉ pivots) :
    (readOff rows m pivots i lambda).getD c 0 = lambda.getD c 0 := by
  induction pivots generalizing i lambda with
  | nil => rfl
  | cons pc pivots ih =>
      rw [List.mem_cons, not_or] at hc
      rw [readOff, ih hc.2, List.getD_eq_getElem?_getD, List.getElem?_set_ne (Ne.symm hc.1),
        List.getD_eq_getElem?_getD]

/-- A pivot's column has the last entry of the pivot's row. -/
theorem getD_readOff {rows : List (List F)} {m : ℕ} {pivots : List ℕ} (hnodup : pivots.Nodup)
    {i j c : ℕ} (hc : pivots[j]? = some c) {lambda : List F} (hlt : c < lambda.length) :
    (readOff rows m pivots i lambda).getD c 0 = (rows.getD (i + j) []).getD m 0 := by
  induction pivots generalizing i j lambda with
  | nil => cases hc
  | cons pc pivots ih =>
      rw [List.nodup_cons] at hnodup
      rw [readOff]
      cases j with
      | zero =>
          obtain rfl := Option.some.inj hc
          rw [getD_readOff_of_notMem hnodup.1, List.getD_eq_getElem?_getD,
            List.getElem?_set_self hlt]
          rfl
      | succ j =>
          rw [ih hnodup.2 hc (by rwa [List.length_set]), show i + 1 + j = i + (j + 1) by omega]

/-- An equation, at an assignment of the columns of the rows. -/
theorem mem_equations {rows : List (List F)} {target : List F} {row : List F} :
    row ∈ equations rows target ↔
      ∃ c < target.length, row = (rows ++ [target]).map fun r => r.getD c 0 := by
  rw [equations, List.mem_map]
  constructor
  · rintro ⟨c, hc, rfl⟩
    exact ⟨c, List.mem_range.mp hc, by simp⟩
  · rintro ⟨c, hc, rfl⟩
    exact ⟨c, List.mem_range.mpr hc, by simp⟩

variable [DecidableEq F]

/-- Being the values of the rows and the target at one assignment is kept by combinations. -/
theorem closed_values (all : List (List F)) :
    Closed fun row : List F => ∃ x, row = all.map fun r => dot r x where
  normalize col row h := by
    obtain ⟨x, hx⟩ := h
    show ∃ x, row.map (· * (row.getD col 0)⁻¹) = all.map fun r => dot r x
    generalize (row.getD col 0)⁻¹ = a
    refine ⟨fun c => a * x c, ?_⟩
    rw [hx, List.map_map]
    refine List.map_congr_left fun r _ => ?_
    rw [Function.comp_apply, dot_mul, mul_comm]
  clear col pivot row hpivot hrow := by
    obtain ⟨y, hy⟩ := hpivot
    obtain ⟨x, hx⟩ := hrow
    rw [clear]
    split
    next => exact ⟨x, hx⟩
    next =>
      generalize row.getD col 0 = a
      refine ⟨fun c => x c - a * y c, ?_⟩
      rw [hx, hy, List.zipWith_map, List.zipWith_self]
      refine List.map_congr_left fun r _ => ?_
      rw [dot_sub_mul]

/-- The rows solved, in the shape that reduction leaves them in. -/
theorem reduced_equations (rows : List (List F)) (target : List F) :
    Reduced (rows.length + 1) rows.length
      ((⟨equations rows target, []⟩ : Elimination F).run (List.range rows.length)) := by
  have hwidth : ∀ row ∈ equations rows target, row.length = rows.length + 1 := by
    intro row hrow
    obtain ⟨c, -, rfl⟩ := mem_equations.mp hrow
    simp
  have hrun := (Reduced.start hwidth).run rows.length
  rw [Nat.zero_add, ← List.range_eq_range'] at hrun
  exact hrun

/-- An equation without coefficients that is not one of nothing has no solution: the rows
vanish at an assignment at which the target does not. -/
theorem exists_dot_ne_zero {rows : List (List F)} {target : List F} {row : List F}
    (hrow : row ∈ ((⟨equations rows target, []⟩ : Elimination F).run
      (List.range rows.length)).rows)
    (hzero : ∀ a ∈ row.take rows.length, a = 0) (hlast : row.getD rows.length 0 ≠ 0) :
    ∃ x, (∀ r ∈ rows, dot r x = 0) ∧ dot target x ≠ 0 := by
  have hstart : ∀ row ∈ equations rows target,
      ∃ x, row = (rows ++ [target]).map fun r => dot r x := by
    intro row hrow
    obtain ⟨c, -, rfl⟩ := mem_equations.mp hrow
    refine ⟨Pi.single c 1, List.map_congr_left fun r _ => ?_⟩
    rw [dot_single]
  obtain ⟨x, rfl⟩ := forall_mem_run (closed_values _) hstart _ row hrow
  have htake : ((rows ++ [target]).map fun r => dot r x).take rows.length =
      rows.map fun r => dot r x := by
    rw [List.map_append, List.take_append_of_le_length (by simp), List.take_of_length_le (by simp)]
  rw [htake] at hzero
  refine ⟨x, fun r hr => hzero _ (List.mem_map_of_mem hr), ?_⟩
  simpa [List.getD_eq_getElem?_getD] using hlast

omit [DecidableEq F] in
/-- The coefficients read off solve every equation of the rows, when none is without
coefficients and not one of nothing. -/
theorem dot_readOff {m : ℕ} {e : Elimination F} (hreduced : Reduced (m + 1) m e)
    (hconsistent : ∀ row ∈ e.rows, (∀ a ∈ row.take m, a = 0) → row.getD m 0 = 0) {row : List F}
    (hrow : row ∈ e.rows) :
    ∑ c ∈ Finset.range m, row.getD c 0 *
      (readOff e.rows m e.pivots 0 (List.replicate m 0)).getD c 0 = row.getD m 0 := by
  obtain ⟨i, hi, rfl⟩ := List.getElem_of_mem hrow
  rw [← List.getD_eq_getElem _ [] hi]
  have hoff : ∀ c, c ∉ e.pivots →
      (readOff e.rows m e.pivots 0 (List.replicate m 0)).getD c 0 = 0 := by
    intro c hc
    rw [getD_readOff_of_notMem hc, List.getD_eq_getElem?_getD, List.getElem?_replicate]
    split
    · rfl
    · rfl
  rcases lt_or_ge i e.pivots.length with hlt | hge
  · -- Only the row's own pivot counts.
    have hpivot := List.getElem?_eq_getElem hlt
    have hbound := hreduced.pivot_lt _ (List.mem_of_getElem? hpivot)
    rw [Finset.sum_eq_single (e.pivots[i])]
    · rw [hreduced.unit i _ hpivot i hi, if_pos rfl, one_mul,
        getD_readOff hreduced.nodup hpivot (by simpa using hbound), Nat.zero_add]
    · intro c _ hc
      by_cases hmem : c ∈ e.pivots
      · obtain ⟨j, hj, rfl⟩ := List.getElem_of_mem hmem
        have hij : i ≠ j := by
          rintro rfl
          exact hc rfl
        rw [hreduced.unit j _ (List.getElem?_eq_getElem hj) i hi, if_neg hij, zero_mul]
      · rw [hoff c hmem, mul_zero]
    · exact fun hnot => absurd (Finset.mem_range.mpr hbound) hnot
  · have hzero : ∀ c < m, (e.rows.getD i []).getD c 0 = 0 := fun c hc =>
      hreduced.below c hc i hge hi
    rw [Finset.sum_eq_zero fun c hc => by rw [hzero c (Finset.mem_range.mp hc), zero_mul]]
    refine (hconsistent _ (by rwa [List.getD_eq_getElem _ _ hi]) fun a ha => ?_).symm
    obtain ⟨c, hc, rfl⟩ := List.getElem_of_mem ha
    rw [List.length_take, lt_min_iff] at hc
    rw [List.getElem_take, ← List.getD_eq_getElem _ 0]
    exact hzero c hc.1

/-- What solves the reduced equations combines the rows to the target. -/
theorem combined_readOff {rows : List (List F)} {target : List F}
    (hrows : ∀ row ∈ rows, row.length = target.length) {lambda : List F}
    (hlength : lambda.length = rows.length)
    (hsolves : ∀ row ∈ ((⟨equations rows target, []⟩ : Elimination F).run
        (List.range rows.length)).rows,
      ∑ c ∈ Finset.range rows.length, row.getD c 0 * lambda.getD c 0 = row.getD rows.length 0)
    (x : ℕ → F) : combined (rows.zip lambda) x = dot target x := by
  have hreduced := reduced_equations rows target
  -- The coefficients, with minus one for the target, make the reduced equations vanish, and
  -- so the equations themselves.
  have hvalue : ∀ row : List F, row.length = rows.length + 1 →
      dot row (fun c => (lambda ++ [-1]).getD c 0) =
        ∑ c ∈ Finset.range rows.length, row.getD c 0 * lambda.getD c 0 -
          row.getD rows.length 0 := by
    intro row hrow
    rw [dot, hrow, Finset.sum_range_succ, sub_eq_add_neg]
    congr 1
    · refine Finset.sum_congr rfl fun c hc => ?_
      rw [Finset.mem_range, ← hlength] at hc
      rw [List.getD_append _ _ _ _ hc]
    · rw [← hlength, List.getD_append_right _ _ _ _ (le_refl _), Nat.sub_self]
      simp
  have hwidth : ∀ row ∈ equations rows target, row.length = rows.length + 1 := by
    intro row hrow
    obtain ⟨c, -, rfl⟩ := mem_equations.mp hrow
    simp
  have hvanish : ∀ row ∈ equations rows target,
      dot row (fun c => (lambda ++ [-1]).getD c 0) = 0 := by
    refine dot_eq_zero_of_run ⟨equations rows target, []⟩ (List.range rows.length) hwidth
      fun row hrow => ?_
    rw [hvalue row (hreduced.width_eq row hrow), hsolves row hrow, sub_self]
  have hcolumn : ∀ c < target.length,
      ∑ i ∈ Finset.range rows.length, lambda.getD i 0 * (rows.getD i []).getD c 0 =
        target.getD c 0 := by
    intro c hc
    have hone := hvanish _ (mem_equations.mpr ⟨c, hc, rfl⟩)
    rw [hvalue _ (by simp), sub_eq_zero] at hone
    have hlast : ((rows ++ [target]).map fun r => r.getD c 0).getD rows.length 0 =
        target.getD c 0 := by
      simp [List.getD_eq_getElem?_getD]
    rw [hlast] at hone
    rw [← hone]
    refine Finset.sum_congr rfl fun i hi => ?_
    rw [Finset.mem_range] at hi
    have hentry : ((rows ++ [target]).map fun r => r.getD c 0).getD i 0 =
        (rows.getD i []).getD c 0 := by
      simp [List.getD_eq_getElem?_getD, hi, List.getElem?_append_left]
    rw [hentry, mul_comm]
  rw [combined_zip hlength, dot]
  calc ∑ i ∈ Finset.range rows.length, lambda.getD i 0 * dot (rows.getD i []) x
      = ∑ i ∈ Finset.range rows.length, ∑ c ∈ Finset.range target.length,
          lambda.getD i 0 * (rows.getD i []).getD c 0 * x c := by
        refine Finset.sum_congr rfl fun i hi => ?_
        rw [Finset.mem_range] at hi
        rw [dot, List.getD_eq_getElem _ _ hi, hrows _ (List.getElem_mem hi), Finset.mul_sum]
        exact Finset.sum_congr rfl fun c _ => (mul_assoc _ _ _).symm
    _ = ∑ c ∈ Finset.range target.length, target.getD c 0 * x c := by
        rw [Finset.sum_comm]
        refine Finset.sum_congr rfl fun c hc => ?_
        rw [← Finset.sum_mul, hcolumn c (Finset.mem_range.mp hc)]

/-- **Solving decides.**  Either the coefficients combine the rows to the target at every
assignment, or the rows vanish at one at which the target does not. -/
theorem solveRowCombination_spec {rows : List (List F)} {target : List F}
    (hrows : ∀ row ∈ rows, row.length = target.length) :
    (∃ lambda, solveRowCombination rows target = some lambda ∧ lambda.length = rows.length ∧
      ∀ x, combined (rows.zip lambda) x = dot target x) ∨
    (solveRowCombination rows target = none ∧
      ∃ x, (∀ row ∈ rows, dot row x = 0) ∧ dot target x ≠ 0) := by
  rw [solveRowCombination]
  dsimp only
  by_cases hm : rows.length = 0
  · rw [if_pos hm]
    obtain rfl := List.length_eq_zero_iff.mp hm
    by_cases htarget : target.all (fun t => t = 0) = true
    · rw [if_pos htarget]
      refine Or.inl ⟨[], rfl, rfl, fun x => (Finset.sum_eq_zero fun c hc => ?_).symm⟩
      have hone := List.all_eq_true.mp htarget _ (List.getElem_mem (Finset.mem_range.mp hc))
      rw [List.getD_eq_getElem _ _ (Finset.mem_range.mp hc), of_decide_eq_true hone, zero_mul]
    · rw [if_neg htarget]
      rw [List.all_eq_true] at htarget
      push Not at htarget
      obtain ⟨t, ht, hne⟩ := htarget
      obtain ⟨c, hc, rfl⟩ := List.getElem_of_mem ht
      refine Or.inr ⟨rfl, Pi.single c 1, fun row hrow => absurd hrow List.not_mem_nil, ?_⟩
      rw [dot_single, List.getD_eq_getElem _ _ hc]
      simpa using hne
  · rw [if_neg hm]
    split
    next hany =>
      obtain ⟨row, hrow, hbad⟩ := List.any_eq_true.mp hany
      rw [Bool.and_eq_true, List.all_eq_true] at hbad
      refine Or.inr ⟨rfl, exists_dot_ne_zero hrow (fun a ha => ?_) (of_decide_eq_true hbad.2)⟩
      exact of_decide_eq_true (hbad.1 a ha)
    next hany =>
      have hlength := length_readOff ((⟨equations rows target, []⟩ : Elimination F).run
        (List.range rows.length)).rows rows.length ((⟨equations rows target, []⟩ :
        Elimination F).run (List.range rows.length)).pivots 0 (List.replicate rows.length 0)
      rw [List.length_replicate] at hlength
      refine Or.inl ⟨_, rfl, hlength, combined_readOff hrows hlength fun row hrow => ?_⟩
      refine dot_readOff (reduced_equations rows target) (fun row hrow hzero => ?_) hrow
      by_contra hlast
      refine hany (List.any_eq_true.mpr ⟨row, hrow, ?_⟩)
      rw [Bool.and_eq_true, List.all_eq_true]
      exact ⟨fun a ha => decide_eq_true (hzero a ha), decide_eq_true hlast⟩

/-! ## The span of the rows -/

/-- A row of a given width as a vector. -/
def rowVector {F : Type} [Field F] (d : ℕ) (row : List F) : Fin d → F := fun c => row.getD c 0

omit [DecidableEq F] in
/-- The value of a row at an assignment, as a vector. -/
theorem dot_eq_sum_rowVector {d : ℕ} {row : List F} (hlength : row.length = d) (x : ℕ → F) :
    dot row x = ∑ c : Fin d, rowVector d row c * x c := by
  rw [dot, hlength, Finset.sum_range]
  rfl

omit [DecidableEq F] in
/-- Where the rows vanish, their span does. -/
theorem sum_eq_zero_of_mem_span {d : ℕ} {rows : List (List F)} {x : ℕ → F}
    (hrows : ∀ row ∈ rows, row.length = d) (hzero : ∀ row ∈ rows, dot row x = 0) {v : Fin d → F}
    (hv : v ∈ Submodule.span F (rowVector d '' {row | row ∈ rows})) :
    ∑ c : Fin d, v c * x c = 0 := by
  induction hv using Submodule.span_induction with
  | mem v hmem =>
      obtain ⟨row, hrow, rfl⟩ := hmem
      rw [← dot_eq_sum_rowVector (hrows row hrow), hzero row hrow]
  | zero => simp
  | add v w _ _ ihv ihw =>
      simp only [Pi.add_apply, add_mul, Finset.sum_add_distrib, ihv, ihw, add_zero]
  | smul a v _ ihv =>
      simp only [Pi.smul_apply, smul_eq_mul, mul_assoc, ← Finset.mul_sum, ihv, mul_zero]

/-- **Elimination decides the span of the rows**, and what it returns combines the rows to the
target. -/
theorem solveRowCombination_exact {d : ℕ} {rows : List (List F)} {target : List F}
    (hrows : ∀ row ∈ rows, row.length = d) (htarget : target.length = d) :
    ((∃ lambda, solveRowCombination rows target = some lambda) ↔
      rowVector d target ∈ Submodule.span F (rowVector d '' {row | row ∈ rows})) ∧
    ∀ lambda, solveRowCombination rows target = some lambda →
      lambda.length = rows.length ∧
      ∑ i ∈ Finset.range rows.length, lambda.getD i 0 • rowVector d (rows.getD i []) =
        rowVector d target := by
  have hlengths : ∀ row ∈ rows, row.length = target.length := by
    intro row hrow
    rw [hrows row hrow, htarget]
  have hspec := solveRowCombination_spec hlengths
  have hcombines : ∀ lambda, solveRowCombination rows target = some lambda →
      lambda.length = rows.length ∧
      ∑ i ∈ Finset.range rows.length, lambda.getD i 0 • rowVector d (rows.getD i []) =
        rowVector d target := by
    intro lambda hsome
    rcases hspec with ⟨lambda', hsome', hlength, hvalues⟩ | ⟨hnone, -⟩
    · obtain rfl := Option.some.inj (hsome'.symm.trans hsome)
      refine ⟨hlength, funext fun c => ?_⟩
      -- The combination at the unit assignment of a column is its entry there.
      have hentry := hvalues (Pi.single c.val 1)
      simp only [combined_zip hlength, dot_single] at hentry
      simpa [Finset.sum_apply, rowVector] using hentry
    · rw [hnone] at hsome
      cases hsome
  refine ⟨⟨fun ⟨lambda, hsome⟩ => ?_, fun hspan => ?_⟩, hcombines⟩
  · rw [← (hcombines lambda hsome).2]
    refine Submodule.sum_mem _ fun i hi => Submodule.smul_mem _ _ (Submodule.subset_span ?_)
    rw [Finset.mem_range] at hi
    rw [List.getD_eq_getElem _ _ hi]
    exact ⟨_, List.getElem_mem hi, rfl⟩
  · rcases hspec with ⟨lambda, hsome, -⟩ | ⟨-, x, hzero, hne⟩
    · exact ⟨lambda, hsome⟩
    · rw [dot_eq_sum_rowVector htarget, sum_eq_zero_of_mem_span hrows hzero hspan] at hne
      exact absurd rfl hne

/-- Two rows that span a third one. -/
theorem solveRowCombination_exact_two :
    ((∃ lambda, solveRowCombination [[1, 1], [1, -1]] [(1 : ℚ), 0] = some lambda) ↔
      rowVector 2 [(1 : ℚ), 0] ∈
        Submodule.span ℚ (rowVector 2 '' {row | row ∈ [[1, 1], [(1 : ℚ), -1]]})) ∧
    ∀ lambda, solveRowCombination [[1, 1], [1, -1]] [(1 : ℚ), 0] = some lambda →
      lambda.length = [[1, 1], [(1 : ℚ), -1]].length ∧
      ∑ i ∈ Finset.range [[1, 1], [(1 : ℚ), -1]].length,
        lambda.getD i 0 • rowVector 2 ([[1, 1], [(1 : ℚ), -1]].getD i []) =
          rowVector 2 [(1 : ℚ), 0] :=
  solveRowCombination_exact (by simp) rfl

end Solve

/-! ## The rows of a node -/

section Shares

variable {F : Type} [Field F]

/-- The rows built for a node, in terms of assignments of the columns. -/
structure Shares (node : ExpandedPolicy) (row : List F) (cols : ℕ)
    (added : List (Holder × List F)) : Prop where
  leaves_eq : added.map Prod.fst = node.leaves
  length_le : ∀ e ∈ added, e.2.length ≤ cols + node.freedom
  /-- A qualified set fixes what the node stands for. -/
  determines : ∀ present x, node.satisfied present = true →
    (∀ e ∈ added, present e.1 = true → dot e.2 x = 0) → dot row x = 0
  /-- An unqualified one leaves it open. -/
  hides : ∀ present x, (node.satisfied present = true → dot row x = 0) →
    ∃ y, (∀ c, c < cols ∨ cols + node.freedom ≤ c → y c = x c) ∧
      ∀ e ∈ added, present e.1 = true → dot e.2 y = 0

/-- The rows built for the members of a gate, from an index on. -/
structure SharesOf (members : List ExpandedPolicy) (j : ℕ) (row : List F) (new cols : ℕ)
    (added : List (Holder × List F)) : Prop where
  leaves_eq : added.map Prod.fst = ThresholdTree.leavesOf members
  length_le : ∀ e ∈ added, e.2.length ≤ cols + ThresholdTree.freedomOf members
  determines : ∀ present x, (∀ e ∈ added, present e.1 = true → dot e.2 x = 0) →
    ∀ i member, members[i]? = some member → member.satisfied present = true →
      dot (memberRow row new (j + i)) x = 0
  hides : ∀ present x, (∀ i member, members[i]? = some member →
      member.satisfied present = true → dot (memberRow row new (j + i)) x = 0) →
    ∃ y, (∀ c, c < cols ∨ cols + ThresholdTree.freedomOf members ≤ c → y c = x c) ∧
      ∀ e ∈ added, present e.1 = true → dot e.2 y = 0

theorem length_powers (point : F) (n : ℕ) (power : F) : (powers point n power).length = n := by
  induction n generalizing power with
  | zero => rfl
  | succ n ih => rw [powers, List.length_cons, ih]

theorem length_resize {row : List F} {n : ℕ} (h : row.length ≤ n) :
    (resize row n).length = n := by
  rw [resize, List.length_append, List.length_take, List.length_replicate]
  omega

/-- Padding a row changes none of its values. -/
theorem dot_resize {row : List F} {n : ℕ} (h : row.length ≤ n) (x : ℕ → F) :
    dot (resize row n) x = dot row x := by
  rw [resize, List.take_of_length_le h, dot_append, dot_replicate_zero, add_zero]

theorem dot_powers (point : F) (n : ℕ) (power : F) (x : ℕ → F) :
    dot (powers point n power) x = ∑ t ∈ Finset.range n, power * point ^ t * x t := by
  induction n generalizing power x with
  | zero => rfl
  | succ n ih =>
      have hcons : powers point (n + 1) power = [power] ++ powers point n (power * point) := rfl
      rw [hcons, dot_append, ih, Finset.sum_range_succ', add_comm]
      congr 1
      · refine Finset.sum_congr rfl fun t _ => ?_
        rw [List.length_singleton, add_comm 1 t, pow_succ]
        ring
      · simp [dot]

/-- The row of a member is worth the value of the gate's polynomial at the member's point. -/
theorem dot_memberRow (row : List F) (new j : ℕ) (x : ℕ → F) :
    dot (memberRow row new j) x =
      ThresholdTree.gateValue (dot row x) (fun t => x (row.length + t)) new ((j + 1 : ℕ) : F) := by
  rw [memberRow, dot_append, dot_powers, ThresholdTree.gateValue]
  congr 1
  refine Finset.sum_congr rfl fun t _ => ?_
  rw [pow_succ]
  ring

/-- The first member's rows and the rows of the others. -/
theorem SharesOf.cons {member : ExpandedPolicy} {members : List ExpandedPolicy} {j new cols : ℕ}
    {row : List F} (hrow : row.length + new ≤ cols) {first rest : List (Holder × List F)}
    (hfirst : Shares member (memberRow row new j) cols first)
    (hrest : SharesOf members (j + 1) row new (cols + member.freedom) rest) :
    SharesOf (member :: members) j row new cols (first ++ rest) where
  leaves_eq := by
    rw [List.map_append, hfirst.leaves_eq, hrest.leaves_eq, ThresholdTree.leavesOf]
  length_le e he := by
    rw [ThresholdTree.freedomOf]
    rcases List.mem_append.mp he with he | he
    · have hone := hfirst.length_le e he
      omega
    · have hone := hrest.length_le e he
      omega
  determines present x h i member' hi hsat := by
    cases i with
    | zero =>
        obtain rfl := Option.some.inj hi
        exact hfirst.determines present x hsat fun e he => h e (List.mem_append_left _ he)
    | succ i =>
        rw [show j + (i + 1) = j + 1 + i by omega]
        exact hrest.determines present x (fun e he => h e (List.mem_append_right _ he)) i member'
          hi hsat
  hides present x h := by
    obtain ⟨y, hy, hvanish⟩ := hfirst.hides present x fun hsat => h 0 member rfl hsat
    -- The columns of the first member are no columns of the rows of the others' members.
    have hlength : ∀ i, (memberRow row new i).length ≤ cols := by
      intro i
      rw [memberRow, List.length_append, length_powers]
      exact hrow
    obtain ⟨z, hz, hvanish'⟩ := hrest.hides present y fun i member' hi hsat => by
      have hone := h (i + 1) member' hi hsat
      rw [show j + (i + 1) = j + 1 + i by omega] at hone
      rw [← hone]
      exact dot_congr fun c hc => hy c (Or.inl (lt_of_lt_of_le hc (hlength _)))
    refine ⟨z, fun c hc => ?_, fun e he hpresent => ?_⟩
    · rw [ThresholdTree.freedomOf] at hc
      rw [hz c (by omega), hy c (by omega)]
    · rcases List.mem_append.mp he with he | he
      · rw [← hvanish e he hpresent]
        exact dot_congr fun c hc => hz c (Or.inl (lt_of_lt_of_le hc (hfirst.length_le e he)))
      · exact hvanish' e he hpresent

variable {p : ℕ}

/-- The points of the members of a gate are as many as the members, and none is zero. -/
theorem points_injective [CharP F p] {n : ℕ} (hn : n < p) :
    Set.InjOn (fun i : ℕ => ((i + 1 : ℕ) : F)) (Finset.range n) := by
  intro i hi j hj h
  rw [Finset.coe_range, Set.mem_Iio] at hi hj
  have hsucc := CharP.natCast_injOn_Iio F p (Set.mem_Iio.mpr (show i + 1 < p by omega))
    (Set.mem_Iio.mpr (show j + 1 < p by omega)) h
  omega

theorem point_ne_zero [CharP F p] {n i : ℕ} (hn : n < p) (hi : i < n) : ((i + 1 : ℕ) : F) ≠ 0 := by
  intro h
  rw [CharP.cast_eq_zero_iff F p] at h
  have hle := Nat.le_of_dvd (Nat.succ_pos i) h
  omega

/-- **A gate passes on what its members do.** -/
theorem Shares.threshold [CharP F p] {k : ℕ} {members : List ExpandedPolicy} (hk : 1 ≤ k)
    (hn : members.length < p) {row : List F} {cols : ℕ} (hrow : row.length ≤ cols)
    {added : List (Holder × List F)}
    (h : SharesOf members 0 (resize row cols) (k - 1) (cols + (k - 1)) added) :
    Shares (.threshold k members) row cols added := by
  classical
  have hfreedom : (ThresholdTree.threshold k members).freedom =
      (k - 1) + ThresholdTree.freedomOf members := rfl
  have hsatisfied : ∀ present, (ThresholdTree.threshold k members).satisfied present = true ↔
      k ≤ ThresholdTree.countSatisfied present members := fun present => by
    rw [ThresholdTree.satisfied, decide_eq_true_eq]
  -- The points of the satisfied members.
  let points := fun present => (ThresholdTree.satisfiedIndices present members).image
    fun i : ℕ => ((i + 1 : ℕ) : F)
  have hsub : ∀ present, ThresholdTree.satisfiedIndices present members ⊆
      Finset.range members.length := fun present => Finset.filter_subset _ _
  have hcard : ∀ present, (points present).card =
      ThresholdTree.countSatisfied present members := fun present => by
    rw [← ThresholdTree.card_satisfiedIndices]
    exact Finset.card_image_of_injOn ((points_injective hn).mono (by exact_mod_cast hsub present))
  refine ⟨h.leaves_eq, fun e he => ?_, fun present x hsat hvanish => ?_, fun present x hsat => ?_⟩
  · have hone := h.length_le e he
    rw [hfreedom]
    omega
  · rw [← dot_resize hrow x]
    refine ThresholdTree.eq_zero_of_gateValue (c := fun t => x ((resize row cols).length + t))
      (show k - 1 < (points present).card from ?_) fun z hz => ?_
    · have hcount := (hsatisfied present).mp hsat
      rw [hcard]
      omega
    · obtain ⟨i, hi, rfl⟩ := Finset.mem_image.mp hz
      obtain ⟨member, hmember, hone⟩ := ThresholdTree.mem_satisfiedIndices.mp hi
      have hzero := h.determines present x hvanish i member hmember hone
      rw [Nat.zero_add, dot_memberRow] at hzero
      exact hzero
  · -- Coefficients under which the satisfied members get nothing.
    obtain ⟨c, hc⟩ : ∃ c, ∀ z ∈ points present,
        ThresholdTree.gateValue (dot row x) c (k - 1) z = 0 := by
      by_cases hqualified : (ThresholdTree.threshold k members).satisfied present = true
      · refine ⟨fun _ => 0, fun z _ => ?_⟩
        rw [hsat hqualified, ThresholdTree.gateValue]
        simp
      · refine ThresholdTree.exists_gateValue_eq_zero ?_ (fun hzero => ?_) _
        · rw [hsatisfied] at hqualified
          rw [hcard]
          omega
        · obtain ⟨i, hi, hpoint⟩ := Finset.mem_image.mp hzero
          exact point_ne_zero hn (Finset.mem_range.mp (hsub present hi)) hpoint
    let y : ℕ → F := fun col => if cols ≤ col ∧ col < cols + (k - 1) then c (col - cols) else x col
    have hlength := length_resize hrow
    have hvalue : dot (resize row cols) y = dot row x := by
      rw [← dot_resize hrow x]
      refine dot_congr fun col hcol => if_neg ?_
      omega
    obtain ⟨z, hz, hvanish⟩ := h.hides present y fun i member hmember hone => by
      have hi := ThresholdTree.mem_satisfiedIndices.mpr ⟨member, hmember, hone⟩
      rw [Nat.zero_add, dot_memberRow, hvalue, ← hc _ (Finset.mem_image_of_mem _ hi)]
      refine congrArg (dot row x + ·) (Finset.sum_congr rfl fun t ht => ?_)
      rw [Finset.mem_range] at ht
      have hcoefficient : y ((resize row cols).length + t) = c t := by
        rw [hlength]
        show (if _ then c (cols + t - cols) else _) = _
        rw [if_pos (by omega), Nat.add_sub_cancel_left]
      exact congrArg (_ * ·) hcoefficient
    refine ⟨z, fun col hcol => ?_, hvanish⟩
    rw [hfreedom] at hcol
    rw [hz col (by omega)]
    exact if_neg (by omega)

mutual

/-- **The rows built for a node** determine what it stands for on the qualified sets, and hide
it on the others. -/
theorem build_shares [CharP F p] {node : ExpandedPolicy}
    (hnode : node.Gates fun k n => 1 ≤ k ∧ n < p)
    (row : List F) (cols : ℕ) (hrow : row.length ≤ cols) (out : List (Holder × List F)) :
    ∃ added, build node row (cols, out) = (cols + node.freedom, out ++ added) ∧
      Shares node row cols added := by
  cases node with
  | leaf id =>
      refine ⟨[(id, row)], rfl, rfl, ?_, ?_, ?_⟩
      · intro e he
        rw [List.mem_singleton.mp he]
        exact hrow
      · exact fun present x hsat hvanish => hvanish _ (List.mem_singleton_self _) hsat
      · intro present x hsat
        refine ⟨x, fun _ _ => rfl, fun e he hpresent => ?_⟩
        rw [List.mem_singleton.mp he] at hpresent ⊢
        exact hsat hpresent
  | threshold k members =>
      have hlength := length_resize hrow
      obtain ⟨added, hbuilt, hshares⟩ := buildMembers_shares (j := 0) hnode.2 (resize row cols)
        (k - 1) (cols + (k - 1)) (by omega) out
      refine ⟨added, ?_, Shares.threshold hnode.1.1 hnode.1.2 hrow hshares⟩
      rw [build, hbuilt, ThresholdTree.freedom, Nat.add_assoc]

theorem buildMembers_shares [CharP F p] {members : List ExpandedPolicy} {j : ℕ}
    (hmembers : ThresholdTree.GatesOf (fun k n => 1 ≤ k ∧ n < p) members) (row : List F)
    (new cols : ℕ) (hrow : row.length + new ≤ cols) (out : List (Holder × List F)) :
    ∃ added, buildMembers members j row new (cols, out) =
        (cols + ThresholdTree.freedomOf members, out ++ added) ∧
      SharesOf members j row new cols added := by
  cases members with
  | nil =>
      refine ⟨[], by rw [buildMembers, List.append_nil]; rfl, rfl, ?_, ?_, ?_⟩
      · exact fun e he => absurd he List.not_mem_nil
      · exact fun present x _ i member hi => by cases hi
      · exact fun present x _ => ⟨x, fun _ _ => rfl, fun e he => absurd he List.not_mem_nil⟩
  | cons member members =>
      obtain ⟨first, hfirst, hsharesFirst⟩ := build_shares hmembers.1
        (memberRow row new j) cols
        (by rw [memberRow, List.length_append, length_powers]; exact hrow) out
      obtain ⟨rest, hrest, hsharesRest⟩ := buildMembers_shares (j := j + 1) hmembers.2
        row new (cols + member.freedom) (by omega) (out ++ first)
      refine ⟨first ++ rest, ?_, SharesOf.cons hrow hsharesFirst hsharesRest⟩
      rw [buildMembers, hfirst, hrest, ThresholdTree.freedomOf, Nat.add_assoc, List.append_assoc]

end

end Shares

end Lait.Policy.Compile
