import Mathlib

/-!
# Row reduction

Gauss-Jordan elimination on a list of rows, column after column, with the first row
that can serve as the pivot.  A column without one is passed over, and the run ends
early when every row has a pivot.

Two facts carry every use of a reduced list of rows.  `Reduced` is its shape: the
columns of the pivots are unit columns, and the rows without a pivot vanish at every
column passed.  And a turn only replaces rows by combinations of rows that give them
back: what is closed under combinations and holds of the rows holds of the reduced ones
(`forall_mem_run`), and an assignment at which the reduced rows vanish is one at which
the rows did (`dot_eq_zero_of_run`).
-/

namespace Lait.RowReduction

variable {F : Type} [Field F]

/-! ## Rows at an assignment -/

/-- The value of a row at an assignment of its columns. -/
def dot (row : List F) (x : ℕ → F) : F := ∑ c ∈ Finset.range row.length, row.getD c 0 * x c

/-- Columns past the end of a row add nothing. -/
theorem dot_eq_sum {row : List F} {n : ℕ} (hn : row.length ≤ n) (x : ℕ → F) :
    dot row x = ∑ c ∈ Finset.range n, row.getD c 0 * x c := by
  refine Finset.sum_subset (fun c hc => ?_) fun c _ hc => ?_
  · rw [Finset.mem_range] at hc ⊢
    omega
  · rw [Finset.mem_range, not_lt] at hc
    rw [List.getD_eq_default _ _ hc, zero_mul]

/-- Only the columns of a row count. -/
theorem dot_congr {row : List F} {x y : ℕ → F} (h : ∀ c < row.length, x c = y c) :
    dot row x = dot row y := by
  refine Finset.sum_congr rfl fun c hc => ?_
  rw [h c (Finset.mem_range.mp hc)]

theorem dot_append (row row' : List F) (x : ℕ → F) :
    dot (row ++ row') x = dot row x + dot row' fun c => x (row.length + c) := by
  rw [dot, List.length_append, Finset.sum_range_add]
  congr 1
  · refine Finset.sum_congr rfl fun c hc => ?_
    rw [List.getD_append _ _ _ _ (Finset.mem_range.mp hc)]
  · refine Finset.sum_congr rfl fun c _ => ?_
    rw [List.getD_append_right _ _ _ _ (Nat.le_add_right _ _), Nat.add_sub_cancel_left]

theorem dot_replicate_zero (n : ℕ) (x : ℕ → F) : dot (List.replicate n 0) x = 0 := by
  refine Finset.sum_eq_zero fun c hc => ?_
  rw [List.length_replicate, Finset.mem_range] at hc
  rw [List.getD_replicate (0 : F) hc, zero_mul]

/-- The value at a unit assignment is the entry. -/
theorem dot_single (row : List F) (c : ℕ) : dot row (Pi.single c 1) = row.getD c 0 := by
  rw [dot_eq_sum (Nat.le_add_right _ (c + 1)), Finset.sum_eq_single c]
  · rw [Pi.single_eq_same, mul_one]
  · intro b _ hb
    rw [Pi.single_eq_of_ne hb, mul_zero]
  · intro hc
    rw [Finset.mem_range] at hc
    omega

/-- Rows of one length that agree at every assignment are equal. -/
theorem eq_of_dot {row row' : List F} (hlength : row.length = row'.length)
    (h : ∀ x, dot row x = dot row' x) : row = row' := by
  refine List.ext_getElem hlength fun c hc hc' => ?_
  have hentry := h (Pi.single c 1)
  rw [dot_single, dot_single, List.getD_eq_getElem _ _ hc, List.getD_eq_getElem _ _ hc'] at hentry
  exact hentry

/-- Values are linear in the assignment. -/
theorem dot_sub_mul (row : List F) (a : F) (x y : ℕ → F) :
    dot row (fun c => x c - a * y c) = dot row x - a * dot row y := by
  rw [dot, dot, dot, Finset.mul_sum, ← Finset.sum_sub_distrib]
  refine Finset.sum_congr rfl fun c _ => ?_
  ring

theorem dot_mul (row : List F) (a : F) (x : ℕ → F) :
    dot row (fun c => a * x c) = a * dot row x := by
  rw [dot, dot, Finset.mul_sum]
  refine Finset.sum_congr rfl fun c _ => ?_
  ring

/-! ## One pivot -/

/-- A row, divided by its entry at a column. -/
def normalize (col : ℕ) (row : List F) : List F := row.map (· * (row.getD col 0)⁻¹)

section Clear

variable [DecidableEq F]

/-- A row, less the multiple of the pivot row that makes it vanish at the pivot's column. -/
def clear (col : ℕ) (pivot row : List F) : List F :=
  if row.getD col 0 = 0 then row
  else List.zipWith (fun cell pv => cell - row.getD col 0 * pv) row pivot

/-- Two rows change places. -/
def swap (rows : List (List F)) (i j : ℕ) : List (List F) :=
  (rows.set i (rows.getD j [])).set j (rows.getD i [])

/-- Bring a row to a place, normalize it there, and clear its column in the others. -/
def eliminateAt (rows : List (List F)) (r p col : ℕ) : List (List F) :=
  let rows := swap rows r p
  let pivot := normalize col (rows.getD r [])
  (rows.set r pivot).mapIdx fun i row => if i = r then row else clear col pivot row

end Clear

theorem getD_normalize (col : ℕ) (row : List F) (c : ℕ) :
    (normalize col row).getD c 0 = row.getD c 0 * (row.getD col 0)⁻¹ := by
  rcases lt_or_ge c row.length with hc | hc
  · rw [normalize, List.getD_eq_getElem _ _ (by simpa using hc), List.getElem_map,
      List.getD_eq_getElem row 0 hc]
  · rw [normalize, List.getD_eq_default _ _ (by simpa using hc), List.getD_eq_default row 0 hc,
      zero_mul]

theorem dot_normalize (col : ℕ) (row : List F) (x : ℕ → F) :
    dot (normalize col row) x = (row.getD col 0)⁻¹ * dot row x := by
  rw [dot, dot, normalize, List.length_map, Finset.mul_sum]
  refine Finset.sum_congr rfl fun c _ => ?_
  rw [← normalize, getD_normalize]
  ring

variable [DecidableEq F]

theorem length_clear {col : ℕ} {pivot row : List F} (hlength : row.length = pivot.length) :
    (clear col pivot row).length = row.length := by
  unfold clear
  split
  · rfl
  · rw [List.length_zipWith, ← hlength, min_self]

theorem getD_clear {col : ℕ} {pivot row : List F} (hlength : row.length = pivot.length) (c : ℕ) :
    (clear col pivot row).getD c 0 = row.getD c 0 - row.getD col 0 * pivot.getD c 0 := by
  unfold clear
  split
  next hzero => rw [hzero, zero_mul, sub_zero]
  next =>
    rcases lt_or_ge c row.length with hc | hc
    · rw [List.getD_eq_getElem _ 0 (by simpa [← hlength] using hc), List.getElem_zipWith,
        List.getD_eq_getElem (n := c) row 0 hc, List.getD_eq_getElem pivot 0 (hlength ▸ hc)]
    · rw [List.getD_eq_default _ 0 (by simpa [← hlength] using hc),
        List.getD_eq_default (n := c) row 0 hc, List.getD_eq_default pivot 0 (hlength ▸ hc),
        mul_zero, sub_zero]

theorem dot_clear {col : ℕ} {pivot row : List F} (hlength : row.length = pivot.length)
    (x : ℕ → F) :
    dot (clear col pivot row) x = dot row x - row.getD col 0 * dot pivot x := by
  rw [dot, length_clear hlength, dot, dot_eq_sum (le_of_eq hlength.symm) x, Finset.mul_sum,
    ← Finset.sum_sub_distrib]
  refine Finset.sum_congr rfl fun c _ => ?_
  rw [getD_clear hlength]
  ring

/-- The rows after a pivot, one by one. -/
theorem getD_eliminateAt {rows : List (List F)} {r p col i : ℕ} (hr : r < rows.length)
    (hp : p < rows.length) (hi : i < rows.length) :
    (eliminateAt rows r p col).getD i [] =
      if i = r then normalize col (rows.getD p [])
      else clear col (normalize col (rows.getD p [])) (rows.getD (if i = p then r else i) []) := by
  have hswap : ∀ k < rows.length, (swap rows r p).getD k [] =
      rows.getD (if k = p then r else if k = r then p else k) [] := by
    intro k hk
    rw [swap, List.getD_eq_getElem?_getD, List.getElem?_set, List.getElem?_set]
    simp only [List.length_set]
    by_cases hkp : k = p
    · simp [hkp, hp]
    · by_cases hkr : k = r
      · simp [hkr, hr, Ne.symm (hkr ▸ hkp)]
        split
        · omega
        · rfl
      · simp [Ne.symm hkp, Ne.symm hkr, hkp, hkr]
  have hpivot : (swap rows r p).getD r [] = rows.getD p [] := by
    rw [hswap r hr]
    by_cases hrp : r = p
    · rw [if_pos hrp, hrp]
    · rw [if_neg hrp, if_pos rfl]
  rw [eliminateAt, hpivot, List.getD_eq_getElem?_getD, List.getElem?_mapIdx, List.getElem?_set]
  have hlength : (swap rows r p).length = rows.length := by
    rw [swap, List.length_set, List.length_set]
  by_cases hir : i = r
  · simp [hir, hlength, hr]
  · have hrow : (swap rows r p)[i]? = some (rows.getD (if i = p then r else i) []) := by
      have hone := hswap i hi
      rw [if_neg hir] at hone
      rw [← hone, List.getD_eq_getElem _ _ (hlength ▸ hi), List.getElem?_eq_getElem]
    rw [if_neg (Ne.symm hir), if_neg hir, hrow]
    simp [hir]

theorem length_eliminateAt (rows : List (List F)) (r p col : ℕ) :
    (eliminateAt rows r p col).length = rows.length := by
  rw [eliminateAt, List.length_mapIdx, List.length_set, swap, List.length_set, List.length_set]

omit [Field F] [DecidableEq F] in
/-- The members of a list, by index. -/
theorem forall_mem_iff_getD {rows : List (List F)} {P : List F → Prop} :
    (∀ row ∈ rows, P row) ↔ ∀ i < rows.length, P (rows.getD i []) := by
  constructor
  · intro h i hi
    rw [List.getD_eq_getElem _ _ hi]
    exact h _ (List.getElem_mem hi)
  · intro h row hrow
    obtain ⟨i, hi, rfl⟩ := List.getElem_of_mem hrow
    rw [← List.getD_eq_getElem _ [] hi]
    exact h i hi

/-- A property of rows that combinations keep. -/
structure Closed (P : List F → Prop) : Prop where
  normalize : ∀ col row, P row → P (normalize col row)
  clear : ∀ col pivot row, P pivot → P row → P (clear col pivot row)

/-- **What combinations keep, a pivot keeps.** -/
theorem forall_mem_eliminateAt {P : List F → Prop} (hclosed : Closed P) {rows : List (List F)}
    {r p col : ℕ} (hr : r < rows.length) (hp : p < rows.length) (h : ∀ row ∈ rows, P row) :
    ∀ row ∈ eliminateAt rows r p col, P row := by
  rw [forall_mem_iff_getD] at h ⊢
  intro i hi
  rw [length_eliminateAt] at hi
  rw [getD_eliminateAt hr hp hi]
  have hpivot := hclosed.normalize col _ (h p hp)
  split
  · exact hpivot
  · refine hclosed.clear col _ _ hpivot ?_
    split
    · exact h r hr
    · exact h i hi

/-- **An assignment at which the rows vanish after a pivot** is one at which they did. -/
theorem dot_eq_zero_of_eliminateAt {rows : List (List F)} {r p col n : ℕ} (hr : r < rows.length)
    (hp : p < rows.length) (hwidth : ∀ row ∈ rows, row.length = n)
    (hentry : (rows.getD p []).getD col 0 ≠ 0) {x : ℕ → F}
    (h : ∀ row ∈ eliminateAt rows r p col, dot row x = 0) : ∀ row ∈ rows, dot row x = 0 := by
  rw [forall_mem_iff_getD] at h hwidth ⊢
  rw [length_eliminateAt] at h
  have hpivot : dot (rows.getD p []) x = 0 := by
    have hone := h r hr
    rw [getD_eliminateAt hr hp hr, if_pos rfl, dot_normalize] at hone
    exact (mul_eq_zero.mp hone).resolve_left (inv_ne_zero hentry)
  have hcleared : ∀ k < rows.length,
      dot (clear col (normalize col (rows.getD p [])) (rows.getD k [])) x = 0 →
        dot (rows.getD k []) x = 0 := by
    intro k hk hzero
    rw [dot_clear (by rw [normalize, List.length_map, hwidth k hk, hwidth p hp]), dot_normalize,
      hpivot, mul_zero, mul_zero, sub_zero] at hzero
    exact hzero
  intro k hk
  by_cases hkp : k = p
  · rw [hkp]
    exact hpivot
  · by_cases hkr : k = r
    · -- The row that stood at the pivot's place went where the pivot came from.
      have hone := h p hp
      rw [getD_eliminateAt hr hp hp, if_neg (by omega), if_pos rfl] at hone
      rw [hkr]
      exact hcleared r hr hone
    · have hone := h k hk
      rw [getD_eliminateAt hr hp hk, if_neg hkr, if_neg hkp] at hone
      exact hcleared k hk hone

/-! ## The run -/

/-- Rows on the way to reduced ones, with the columns of the pivots: the pivot of a column
stands in the row of its index. -/
structure Elimination (F : Type) where
  rows : List (List F)
  pivots : List ℕ

/-- The first row without a pivot that has an entry in a column. -/
def findPivot (rows : List (List F)) (r col : ℕ) : Option ℕ :=
  (List.range' r (rows.length - r)).find? fun i => (rows.getD i []).getD col 0 ≠ 0

/-- One column. -/
def Elimination.turn (e : Elimination F) (col : ℕ) : Elimination F :=
  match findPivot e.rows e.pivots.length col with
  | none => e
  | some p => ⟨eliminateAt e.rows e.pivots.length p col, e.pivots ++ [col]⟩

/-- Column after column, until every row has a pivot. -/
def Elimination.run (e : Elimination F) : List ℕ → Elimination F
  | [] => e
  | col :: cols =>
      if (e.turn col).pivots.length = (e.turn col).rows.length then e.turn col
      else (e.turn col).run cols

/-- Where the pivot is found. -/
theorem findPivot_eq_some {rows : List (List F)} {r col p : ℕ} (h : findPivot rows r col = some p) :
    r ≤ p ∧ p < rows.length ∧ (rows.getD p []).getD col 0 ≠ 0 := by
  have hmem := List.mem_of_find?_eq_some h
  have hentry := List.find?_some h
  rw [List.mem_range'_1] at hmem
  refine ⟨hmem.1, by omega, ?_⟩
  simpa using hentry

/-- Where none is found. -/
theorem findPivot_eq_none {rows : List (List F)} {r col : ℕ} (h : findPivot rows r col = none)
    {i : ℕ} (hr : r ≤ i) (hi : i < rows.length) : (rows.getD i []).getD col 0 = 0 := by
  have hone := List.find?_eq_none.mp h i (List.mem_range'_1.mpr (by omega))
  simpa using hone

/-- What every turn of a run keeps, the run keeps. -/
theorem Elimination.run_invariant {P : Elimination F → Prop} {cols : List ℕ}
    (hturn : ∀ e, ∀ col ∈ cols, P e → P (e.turn col)) {e : Elimination F} (h : P e) :
    P (e.run cols) := by
  induction cols generalizing e with
  | nil => exact h
  | cons col cols ih =>
      rw [Elimination.run]
      have hone := hturn e col List.mem_cons_self h
      split
      · exact hone
      · exact ih (fun e c hc => hturn e c (List.mem_cons_of_mem _ hc)) hone

/-- The rows of a reduced list: the columns of the pivots are unit columns, and rows without a
pivot vanish at the columns passed. -/
structure Reduced (width passed : ℕ) (e : Elimination F) : Prop where
  width_eq : ∀ row ∈ e.rows, row.length = width
  rank_le : e.pivots.length ≤ e.rows.length
  pivot_lt : ∀ c ∈ e.pivots, c < passed
  nodup : e.pivots.Nodup
  unit : ∀ j c, e.pivots[j]? = some c → ∀ i < e.rows.length,
    (e.rows.getD i []).getD c 0 = if i = j then 1 else 0
  below : ∀ c < passed, ∀ i, e.pivots.length ≤ i → i < e.rows.length →
    (e.rows.getD i []).getD c 0 = 0

/-- Rows of one width are reduced before the first column. -/
theorem Reduced.start {rows : List (List F)} {width : ℕ} (h : ∀ row ∈ rows, row.length = width) :
    Reduced width 0 ⟨rows, []⟩ where
  width_eq := h
  rank_le := Nat.zero_le _
  pivot_lt c hc := by cases hc
  nodup := List.nodup_nil
  unit j c hc := by cases hc
  below c hc := by omega

/-- The width is kept by combinations. -/
theorem closed_length (width : ℕ) : Closed fun row : List F => row.length = width where
  normalize col row h := by rw [RowReduction.normalize, List.length_map, h]
  clear col pivot row hpivot hrow := by rw [length_clear (hrow.trans hpivot.symm), hrow]

/-- **A turn reduces one more column.** -/
theorem Reduced.turn {width k : ℕ} {e : Elimination F} (h : Reduced width k e) :
    Reduced width (k + 1) (e.turn k) := by
  unfold Elimination.turn
  split
  next hnone =>
    refine ⟨h.width_eq, h.rank_le, fun c hc => Nat.lt_succ_of_lt (h.pivot_lt c hc), h.nodup,
      h.unit, fun c hc i hrank hi => ?_⟩
    rcases Nat.lt_succ_iff_lt_or_eq.mp hc with hc | rfl
    · exact h.below c hc i hrank hi
    · exact findPivot_eq_none hnone hrank hi
  next p hsome =>
    obtain ⟨hrp, hp, hentry⟩ := findPivot_eq_some hsome
    have hr : e.pivots.length < e.rows.length := lt_of_le_of_lt hrp hp
    have hwidth := forall_mem_iff_getD.mp h.width_eq
    have hlength : ∀ i < e.rows.length,
        (e.rows.getD i []).length = (normalize k (e.rows.getD p [])).length := by
      intro i hi
      rw [normalize, List.length_map, hwidth i hi, hwidth p hp]
    -- A column at which the rows from the pivot's place on vanish stays as it was.
    have hpassed : ∀ c, (∀ i, e.pivots.length ≤ i → i < e.rows.length →
        (e.rows.getD i []).getD c 0 = 0) → ∀ i < e.rows.length,
        ((eliminateAt e.rows e.pivots.length p k).getD i []).getD c 0 =
          (e.rows.getD i []).getD c 0 := by
      intro c hzero i hi
      rw [getD_eliminateAt hr hp hi]
      split
      next hir => rw [getD_normalize, hzero p hrp hp, zero_mul, hir, hzero _ le_rfl hr]
      next hir =>
        split
        next hip =>
          rw [getD_clear (hlength _ hr), getD_normalize, hzero p hrp hp, zero_mul, mul_zero,
            sub_zero, hzero _ le_rfl hr, hip, hzero p hrp hp]
        next => rw [getD_clear (hlength i hi), getD_normalize, hzero p hrp hp, zero_mul, mul_zero,
          sub_zero]
    have hcolumn : ∀ i < e.rows.length,
        ((eliminateAt e.rows e.pivots.length p k).getD i []).getD k 0 =
          if i = e.pivots.length then 1 else 0 := by
      intro i hi
      rw [getD_eliminateAt hr hp hi]
      split
      next => rw [getD_normalize, mul_inv_cancel₀ hentry]
      next =>
        split
        next => rw [getD_clear (hlength _ hr), getD_normalize, mul_inv_cancel₀ hentry, mul_one,
          sub_self]
        next => rw [getD_clear (hlength i hi), getD_normalize, mul_inv_cancel₀ hentry, mul_one,
          sub_self]
    have hbelow : ∀ c < k, ∀ i < e.rows.length,
        ((eliminateAt e.rows e.pivots.length p k).getD i []).getD c 0 =
          (e.rows.getD i []).getD c 0 :=
      fun c hc => hpassed c fun i hrank hi => h.below c hc i hrank hi
    refine ⟨forall_mem_eliminateAt (closed_length width) hr hp h.width_eq, ?_, ?_, ?_, ?_, ?_⟩
    · rw [List.length_append, List.length_singleton, length_eliminateAt]
      omega
    · intro c hc
      rcases List.mem_append.mp hc with hc | hc
      · exact Nat.lt_succ_of_lt (h.pivot_lt c hc)
      · rw [List.mem_singleton.mp hc]
        exact Nat.lt_succ_self k
    · refine List.Nodup.append h.nodup (List.nodup_singleton k) fun c hc hk => ?_
      rw [List.mem_singleton.mp hk] at hc
      exact lt_irrefl k (h.pivot_lt k hc)
    · intro j c hj i hi
      rw [length_eliminateAt] at hi
      rcases lt_or_ge j e.pivots.length with hlt | hge
      · rw [List.getElem?_append_left hlt] at hj
        rw [hbelow c (h.pivot_lt c (List.mem_of_getElem? hj)) i hi]
        exact h.unit j c hj i hi
      · rw [List.getElem?_append_right hge, List.getElem?_singleton] at hj
        split at hj
        next hj' =>
          obtain rfl := Option.some.inj hj
          rw [hcolumn i hi, show j = e.pivots.length by omega]
        next => cases hj
    · intro c hc i hrank hi
      rw [length_eliminateAt] at hi
      rw [List.length_append, List.length_singleton] at hrank
      rcases Nat.lt_succ_iff_lt_or_eq.mp hc with hc | rfl
      · rw [hbelow c hc i hi, h.below c hc i (by omega) hi]
      · rw [hcolumn i hi, if_neg (by omega)]

/-- When every row has its pivot, no further column counts. -/
theorem Reduced.full {width k : ℕ} {e : Elimination F} (h : Reduced width k e)
    (hfull : e.pivots.length = e.rows.length) {k' : ℕ} (hk : k ≤ k') : Reduced width k' e where
  width_eq := h.width_eq
  rank_le := h.rank_le
  pivot_lt c hc := lt_of_lt_of_le (h.pivot_lt c hc) hk
  nodup := h.nodup
  unit := h.unit
  below c _ i hrank hi := by omega

/-- **A run reduces its columns.** -/
theorem Reduced.run {width k : ℕ} {e : Elimination F} (h : Reduced width k e) (n : ℕ) :
    Reduced width (k + n) (e.run (List.range' k n)) := by
  induction n generalizing k e with
  | zero => exact h
  | succ n ih =>
      rw [List.range'_succ, Elimination.run]
      split
      next hfull => exact h.turn.full hfull (by omega)
      next =>
        rw [show k + (n + 1) = k + 1 + n by omega]
        exact ih h.turn

/-- What combinations keep, a run keeps. -/
theorem forall_mem_run {P : List F → Prop} (hclosed : Closed P) {e : Elimination F}
    (h : ∀ row ∈ e.rows, P row) (cols : List ℕ) : ∀ row ∈ (e.run cols).rows, P row := by
  refine Elimination.run_invariant (P := fun e => ∀ row ∈ e.rows, P row)
    (fun e col _ h => ?_) h
  unfold Elimination.turn
  split
  next => exact h
  next p hsome =>
    obtain ⟨hrp, hp, -⟩ := findPivot_eq_some hsome
    exact forall_mem_eliminateAt hclosed (lt_of_le_of_lt hrp hp) hp h

/-- An assignment at which the rows vanish after a run is one at which they did. -/
theorem dot_eq_zero_of_run (e : Elimination F) (cols : List ℕ) {width : ℕ} {x : ℕ → F}
    (hwidth : ∀ row ∈ e.rows, row.length = width)
    (h : ∀ row ∈ (e.run cols).rows, dot row x = 0) : ∀ row ∈ e.rows, dot row x = 0 := by
  refine (Elimination.run_invariant
    (P := fun e' => (∀ row ∈ e'.rows, row.length = width) ∧
      ((∀ row ∈ e'.rows, dot row x = 0) → ∀ row ∈ e.rows, dot row x = 0))
    (fun e' col _ h' => ?_) ⟨hwidth, id⟩).2 h
  unfold Elimination.turn
  split
  next => exact h'
  next p hsome =>
    obtain ⟨hrp, hp, hentry⟩ := findPivot_eq_some hsome
    have hr := lt_of_le_of_lt hrp hp
    refine ⟨forall_mem_eliminateAt (closed_length width) hr hp h'.1, fun hzero => h'.2 ?_⟩
    exact dot_eq_zero_of_eliminateAt hr hp h'.1 hentry hzero

end Lait.RowReduction
