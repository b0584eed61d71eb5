import Lait.Policy.AccessStructure

/-!
# Who reconstructs

What is left between the rows built for a policy and the sets that reconstruct from the
compiled artifact: the artifact of an expansion passes validation, and its rows are the
ones built, padded to one width.

`Implements` is all that reconstruction and verification need of a validated structure
for them to be decided by a formula: an assignment at which the rows of a qualified set
vanish gives nothing to the target, and for an unqualified set there is one that gives
it something.
-/

namespace Lait.Policy.Compile

open RowReduction

namespace StructurallyValidatedCompiledPolicy

section Arithmetic

variable {p : ℕ} {v : StructurallyValidatedCompiledPolicy p}

theorem length_scalarRow {i : ℕ} (hi : i < v.inner.leaves.length) :
    (v.scalarRow i).length = v.inner.matrix.cols := by
  have hrows := v.consistent.2.1
  rw [scalarRow, scalars, List.length_map, List.getD_eq_getElem _ _ (hrows.symm ▸ hi)]
  exact v.consistent.2.2.2 _ (List.getElem_mem _)

theorem length_targetScalars : v.targetScalars.length = v.inner.matrix.cols := by
  rw [targetScalars, scalars, List.length_map]
  exact v.consistent.2.2.1

/-- The index of a leaf is where it stands. -/
theorem indexOf_eq_some_iff {leaf : Holder} {i : ℕ} :
    v.indexOf leaf = some i ↔ v.inner.leaves[i]? = some leaf := by
  rw [indexOf, List.idxOf?_eq_some_iff, List.getElem?_eq_some_iff]
  constructor
  · rintro ⟨hi, hleaf, -⟩
    exact ⟨hi, hleaf⟩
  · rintro ⟨hi, hleaf⟩
    refine ⟨hi, hleaf, fun j hj hsame => ?_⟩
    have hboth := hsame.trans hleaf.symm
    have heq := v.nodup.getElem_inj_iff.mp hboth
    omega

theorem mem_indicesOf {subset : List Holder} {i : ℕ} :
    i ∈ v.indicesOf subset ↔ ∃ leaf ∈ subset, v.inner.leaves[i]? = some leaf := by
  rw [indicesOf, Finset.mem_sort, List.mem_toFinset, List.mem_filterMap]
  exact exists_congr fun leaf => and_congr_right fun _ => indexOf_eq_some_iff

theorem lt_of_mem_indicesOf {subset : List Holder} {i : ℕ} (hi : i ∈ v.indicesOf subset) :
    i < v.inner.leaves.length := by
  obtain ⟨leaf, -, hleaf⟩ := mem_indicesOf.mp hi
  exact (List.getElem?_eq_some_iff.mp hleaf).1

theorem length_addTerm {acc : List (ZMod p)} (hacc : acc.length = v.inner.matrix.cols) {i : ℕ}
    (hi : i < v.inner.leaves.length) (c : ZMod p) :
    (v.addTerm acc i c).length = v.inner.matrix.cols := by
  rw [addTerm, List.length_zipWith, length_scalarRow hi, hacc, min_self]

/-- Adding a term adds its multiple of the row. -/
theorem dot_addTerm [Fact p.Prime] {acc : List (ZMod p)} (hacc : acc.length = v.inner.matrix.cols)
    {i : ℕ} (hi : i < v.inner.leaves.length) (c : ZMod p) (x : ℕ → ZMod p) :
    dot (v.addTerm acc i c) x = dot acc x + c * dot (v.scalarRow i) x := by
  rw [dot, length_addTerm hacc hi, dot, hacc, dot, length_scalarRow hi, Finset.mul_sum,
    ← Finset.sum_add_distrib]
  refine Finset.sum_congr rfl fun col hcol => ?_
  rw [Finset.mem_range] at hcol
  have hentry : (v.addTerm acc i c).getD col 0 =
      acc.getD col 0 + c * (v.scalarRow i).getD col 0 := by
    have hlt : col < (v.addTerm acc i c).length := (length_addTerm hacc hi c).symm ▸ hcol
    have hlt' : col < (v.scalarRow i).length := (length_scalarRow hi).symm ▸ hcol
    rw [List.getD_eq_getElem _ _ hlt, List.getD_eq_getElem _ _ (hacc.symm ▸ hcol),
      List.getD_eq_getElem _ _ hlt']
    exact List.getElem_zipWith
  rw [hentry]
  ring

/-- All terms of a combination. -/
def addTerms (v : StructurallyValidatedCompiledPolicy p) (acc : List (ZMod p))
    (terms : List (ℕ × ZMod p)) : List (ZMod p) :=
  terms.foldl (fun acc term => v.addTerm acc term.1 term.2) acc

theorem addTerms_spec [Fact p.Prime] {terms : List (ℕ × ZMod p)}
    (hterms : ∀ term ∈ terms, term.1 < v.inner.leaves.length) {acc : List (ZMod p)}
    (hacc : acc.length = v.inner.matrix.cols) :
    (v.addTerms acc terms).length = v.inner.matrix.cols ∧ ∀ x, dot (v.addTerms acc terms) x =
      dot acc x + combined (terms.map fun term => (v.scalarRow term.1, term.2)) x := by
  induction terms generalizing acc with
  | nil =>
      refine ⟨hacc, fun x => ?_⟩
      rw [combined, List.map_nil, List.map_nil, List.sum_nil, add_zero]
      rfl
  | cons term terms ih =>
      rw [List.forall_mem_cons] at hterms
      obtain ⟨hlength, hdot⟩ := ih hterms.2 (length_addTerm hacc hterms.1 term.2)
      refine ⟨hlength, fun x => ?_⟩
      have hrest := hdot x
      rw [combined] at hrest ⊢
      rw [List.map_cons, List.map_cons, List.sum_cons, ← add_assoc,
        ← dot_addTerm hacc hterms.1 term.2 x, ← hrest]
      rfl

/-- What verification adds up, term by term. -/
theorem exists_terms_of_combine {l : List (Holder × Fe)} {prev : Option ℕ}
    {acc total : List (ZMod p)} (h : v.combine l prev acc = some total) :
    ∃ terms : List (ℕ × ZMod p), total = v.addTerms acc terms ∧
      ∀ term ∈ terms, ∃ entry ∈ l, v.inner.leaves[term.1]? = some entry.1 := by
  induction l generalizing prev acc with
  | nil =>
      cases h
      exact ⟨[], rfl, fun term hterm => absurd hterm List.not_mem_nil⟩
  | cons entry l ih =>
      obtain ⟨leaf, coeff⟩ := entry
      rw [combine] at h
      split at h
      next => cases h
      next i hi =>
        split at h
        next => cases h
        next =>
          split at h
          next => cases h
          next c hc =>
            split at h
            next => cases h
            next =>
              obtain ⟨terms, htotal, hterms⟩ := ih h
              refine ⟨(i, c) :: terms, htotal, List.forall_mem_cons.mpr ⟨?_, fun term ht => ?_⟩⟩
              · exact ⟨_, List.mem_cons_self, indexOf_eq_some_iff.mp hi⟩
              · obtain ⟨entry, hentry, hleaf⟩ := hterms term ht
                exact ⟨entry, List.mem_cons_of_mem _ hentry, hleaf⟩

/-- Terms in row order, none zero, are added up. -/
theorem combine_terms [Fact p.Prime] (hp : p ≤ 256 ^ 32) {terms : List (ℕ × ZMod p)}
    (hsorted : (terms.map Prod.fst).Pairwise (· < ·))
    (hterms : ∀ term ∈ terms, term.1 < v.inner.leaves.length ∧ term.2 ≠ 0) {prev : Option ℕ}
    (hprev : ∀ before, prev = some before → ∀ term ∈ terms, before < term.1)
    (acc : List (ZMod p)) :
    v.combine (terms.map fun term =>
        (v.inner.leaves.getD term.1 Bytes.empty, Fe.fromScalar term.2)) prev acc =
      some (v.addTerms acc terms) := by
  induction terms generalizing prev acc with
  | nil => rfl
  | cons term terms ih =>
      rw [List.map_cons, List.pairwise_cons] at hsorted
      rw [List.forall_mem_cons] at hterms
      have hindex : v.indexOf (v.inner.leaves.getD term.1 Bytes.empty) = some term.1 := by
        rw [indexOf_eq_some_iff, List.getD_eq_getElem _ _ hterms.1.1,
          List.getElem?_eq_getElem hterms.1.1]
      have horder : ¬ (prev.any fun before => term.1 ≤ before) = true := by
        cases prev with
        | none => exact Bool.false_ne_true
        | some before =>
            have hlt := hprev before rfl term List.mem_cons_self
            simpa using hlt
      rw [List.map_cons, combine, hindex]
      dsimp only
      rw [if_neg horder, Fe.asScalar_fromScalar hp]
      dsimp only
      rw [if_neg hterms.1.2]
      refine ih hsorted.2 hterms.2 (fun before hbefore other hother => ?_) _
      obtain rfl := Option.some.inj hbefore
      exact hsorted.1 _ (List.mem_map_of_mem hother)

end Arithmetic

/-! ## Structures that implement a formula -/

section Implements

variable {p : ℕ} [Fact p.Prime]

/-- The rows of a qualified set determine the target, and those of an unqualified one do not. -/
structure Implements (v : StructurallyValidatedCompiledPolicy p) (tree : ExpandedPolicy) :
    Prop where
  determines : ∀ present x, tree.satisfied present = true →
    (∀ i leaf, v.inner.leaves[i]? = some leaf → present leaf = true →
      dot (v.scalarRow i) x = 0) → dot v.targetScalars x = 0
  hides : ∀ present, ¬ tree.satisfied present = true →
    ∃ x, (∀ i leaf, v.inner.leaves[i]? = some leaf → present leaf = true →
      dot (v.scalarRow i) x = 0) ∧ dot v.targetScalars x ≠ 0

variable {v : StructurallyValidatedCompiledPolicy p} {tree : ExpandedPolicy}

omit [Fact p.Prime] in
/-- Solving for the target is posed over rows of its length. -/
theorem length_of_mem_scalarRows {subset : List Holder} {row : List (ZMod p)}
    (hrow : row ∈ v.scalarRows (v.indicesOf subset)) : row.length = v.targetScalars.length := by
  obtain ⟨i, hi, rfl⟩ := List.mem_map.mp hrow
  rw [length_scalarRow (lt_of_mem_indicesOf hi), length_targetScalars]

variable [Crypto] [Postcard CompiledPolicy]

/-- **A set reconstructs exactly when it is qualified.** -/
theorem Implements.isSome_reconstruct_iff (h : v.Implements tree) (subset : List Holder) :
    (v.reconstruct subset).isSome = true ↔
      tree.satisfied (fun leaf => leaf ∈ subset) = true := by
  have hspec := solveRowCombination_spec fun row (hrow : row ∈ v.scalarRows (v.indicesOf subset)) =>
    length_of_mem_scalarRows hrow
  rw [reconstruct, Option.isSome_map]
  constructor
  · intro hsome
    by_contra hunqualified
    obtain ⟨x, hvanish, htarget⟩ := h.hides _ hunqualified
    rcases hspec with ⟨lambda, -, -, hcombined⟩ | ⟨hnone, -⟩
    · refine htarget ?_
      rw [← hcombined x]
      refine combined_eq_zero fun term hterm => ?_
      obtain ⟨i, hi, hrow⟩ := List.mem_map.mp (List.of_mem_zip hterm).1
      obtain ⟨leaf, hleaf, hat⟩ := mem_indicesOf.mp hi
      rw [← hrow]
      exact hvanish i leaf hat (decide_eq_true hleaf)
    · rw [hnone] at hsome
      cases hsome
  · intro hqualified
    rcases hspec with ⟨lambda, hsome, -, -⟩ | ⟨-, x, hvanish, htarget⟩
    · rw [hsome]
      rfl
    · refine absurd (h.determines _ x hqualified fun i leaf hat hleaf => ?_) htarget
      refine hvanish _ (List.mem_map_of_mem (mem_indicesOf.mpr ⟨leaf, ?_, hat⟩))
      exact of_decide_eq_true hleaf

/-- **A witness that verifies names a qualified set.** -/
theorem Implements.satisfied_of_verifyWitness (h : v.Implements tree)
    {w : ReconstructionWitness} (hverify : v.verifyWitness w = true) :
    tree.satisfied (fun leaf => leaf ∈ w.leaves) = true := by
  rw [verifyWitness] at hverify
  split at hverify
  next => cases hverify
  next =>
    split at hverify
    next => cases hverify
    next total htotal =>
      have hequal : total = v.targetScalars := of_decide_eq_true hverify
      obtain ⟨terms, rfl, hterms⟩ := exists_terms_of_combine htotal
      by_contra hunqualified
      obtain ⟨x, hvanish, htarget⟩ := h.hides _ hunqualified
      have hbound : ∀ term ∈ terms, term.1 < v.inner.leaves.length := by
        intro term hterm
        obtain ⟨entry, -, hat⟩ := hterms term hterm
        exact (List.getElem?_eq_some_iff.mp hat).1
      refine htarget ?_
      rw [← hequal, (addTerms_spec hbound (by simp)).2 x, dot_replicate_zero, zero_add]
      refine combined_eq_zero fun row hrow => ?_
      obtain ⟨term, hterm, rfl⟩ := List.mem_map.mp hrow
      obtain ⟨entry, hentry, hat⟩ := hterms term hterm
      exact hvanish _ _ hat (decide_eq_true (List.of_mem_zip hentry).1)

/-- **What reconstructs verifies**, and uses no other leaves. -/
theorem verifyWitness_reconstruct (hp : p ≤ 256 ^ 32) {subset : List Holder}
    {w : ReconstructionWitness} (h : v.reconstruct subset = some w) :
    v.verifyWitness w = true ∧ ∀ leaf ∈ w.leaves, leaf ∈ subset := by
  rw [reconstruct] at h
  obtain ⟨lambda, hsolve, rfl⟩ := Option.map_eq_some_iff.mp h
  rcases solveRowCombination_spec fun row (hrow : row ∈ v.scalarRows (v.indicesOf subset)) =>
    length_of_mem_scalarRows hrow with ⟨lambda', hsome, hlength, hcombined⟩ | ⟨hnone, -⟩
  · obtain rfl : lambda' = lambda := Option.some.inj (hsome.symm.trans hsolve)
    rw [scalarRows, List.length_map] at hlength
    have hused : ∀ term ∈ ((v.indicesOf subset).zip lambda').filter fun term => term.2 ≠ 0,
        term.1 ∈ v.indicesOf subset ∧ term.2 ≠ 0 := by
      intro term hterm
      obtain ⟨hzip, hne⟩ := List.mem_filter.mp hterm
      exact ⟨(List.of_mem_zip hzip).1, of_decide_eq_true hne⟩
    have hbound : ∀ term ∈ ((v.indicesOf subset).zip lambda').filter fun term => term.2 ≠ 0,
        term.1 < v.inner.leaves.length := fun term hterm =>
      lt_of_mem_indicesOf (hused term hterm).1
    have hsorted : ((((v.indicesOf subset).zip lambda').filter fun term => term.2 ≠ 0).map
        Prod.fst).Pairwise (· < ·) := by
      have hall : (v.indicesOf subset).Pairwise (· < ·) :=
        List.sortedLT_iff_pairwise.mp (Finset.sortedLT_sort _)
      refine hall.sublist ((List.filter_sublist.map Prod.fst).trans ?_)
      rw [List.map_fst_zip (le_of_eq hlength.symm)]
    refine ⟨?_, fun leaf hleaf => ?_⟩
    · rw [verifyWitness, if_neg (by simp)]
      dsimp only
      rw [List.zip_map', combine_terms hp hsorted (fun term hterm =>
        ⟨hbound term hterm, (hused term hterm).2⟩) (fun before hbefore => by cases hbefore)]
      refine decide_eq_true (eq_of_dot ?_ fun x => ?_)
      · rw [(addTerms_spec hbound (by simp)).1, length_targetScalars]
      · have hterms : ((((v.indicesOf subset).zip lambda').filter fun term => term.2 ≠ 0).map
            fun term => (v.scalarRow term.1, term.2)) =
            ((v.scalarRows (v.indicesOf subset)).zip lambda').filter fun term => term.2 ≠ 0 := by
          rw [scalarRows, List.zip_map_left, List.filter_map]
          rfl
        rw [(addTerms_spec hbound (by simp)).2 x, dot_replicate_zero, zero_add, hterms,
          combined_filter, hcombined x]
    · obtain ⟨term, hterm, rfl⟩ := List.mem_map.mp hleaf
      obtain ⟨leaf, hmem, hat⟩ := mem_indicesOf.mp (hused term hterm).1
      rw [List.getD_eq_getElem?_getD, hat]
      exact hmem
  · rw [hsolve] at hnone
    cases hnone

end Implements

end StructurallyValidatedCompiledPolicy

/-! ## The compiler -/

section Compiler

variable {p : ℕ} [Fact p.Prime]

/-- The rows of an expansion, as they are built. -/
theorem exists_shares {tree : ExpandedPolicy} (hnormal : tree.Gates Normal)
    (hgates : tree.Gates fun _ n => n < p) :
    ∃ added, build (F := ZMod p) tree [1] (1, []) = (1 + tree.freedom, added) ∧
      Shares tree [1] 1 added := by
  have hboth := (ThresholdTree.Gates.and hnormal hgates).mono
    (Q := fun k n => 1 ≤ k ∧ n < p) fun k n h => ⟨h.1.2.1, h.2⟩
  obtain ⟨added, hbuilt, hshares⟩ := build_shares hboth [(1 : ZMod p)] 1 (le_refl 1) []
  exact ⟨added, hbuilt, hshares⟩

/-- **An expansion compiles.** -/
theorem exists_compile [Crypto] [Postcard PolicyTree] (hp : p ≤ 256 ^ 32)
    (hblake : Blake3Injective) {policy : CanonicalPolicy}
    {resolve : Principal → Option PrincipalDescriptor} {expansion : Expansion}
    (hexpand : expand policy resolve = .ok expansion)
    (hgates : expansion.tree.Gates fun _ n => n < p) :
    ∃ v, compile p expansion = .ok v ∧ v.inner = assemble p expansion := by
  have hexpands := expand_expands hexpand
  obtain ⟨added, hbuilt, hshares⟩ := exists_shares hexpands.normal hgates
  have hleaves : (assemble p expansion).leaves = expansion.tree.leaves := by
    rw [assemble, hbuilt]
    exact hshares.leaves_eq
  have hcount : added.length = expansion.tree.leaves.length := by
    rw [← hshares.leaves_eq, List.length_map]
  have hfreedom : expansion.tree.freedom < expansion.tree.leaves.length :=
    ThresholdTree.freedom_lt_leaves (hexpands.normal.mono fun k n h =>
      ⟨lt_of_lt_of_le Nat.two_pos h.1, h.2.2⟩)
  have hlimit : expansion.tree.leaves.length ≤ 512 := by
    rw [← hexpands.leaves_eq, List.length_map]
    exact hexpands.bounded
  have hscalar : ∀ s : ZMod p, (Fe.asScalar p (Fe.fromScalar s)).isSome = true := fun s => by
    rw [Fe.asScalar_fromScalar hp]
    rfl
  have hconsistent : (assemble p expansion).Consistent := by
    rw [assemble, hbuilt]
    refine ⟨by simp, by simp, by simp, fun row hrow => ?_⟩
    obtain ⟨built, hbuiltRow, rfl⟩ := List.mem_map.mp hrow
    rw [List.length_map]
    exact length_resize (hshares.length_le built hbuiltRow)
  have hbounded : (assemble p expansion).Bounded := by
    rw [assemble, hbuilt]
    have hrows : (added.map fun row => (resize row.2 (1 + expansion.tree.freedom)).map
        Fe.fromScalar).length ≤ 512 := by
      rw [List.length_map]
      omega
    exact ⟨hrows, show 1 + expansion.tree.freedom ≤ 512 by omega,
      Nat.mul_le_mul hrows (show 1 + expansion.tree.freedom ≤ 512 by omega)⟩
  have hcanonical : (assemble p expansion).Canonical p := by
    intro f hf
    rw [assemble, hbuilt] at hf
    rcases List.mem_append.mp hf with hf | hf
    · obtain ⟨row, hrow, hf⟩ := List.mem_flatten.mp hf
      obtain ⟨built, -, rfl⟩ := List.mem_map.mp hrow
      obtain ⟨s, -, rfl⟩ := List.mem_map.mp hf
      exact hscalar s
    · rcases List.mem_or_eq_of_mem_set hf with hf | rfl
      · rw [List.eq_of_mem_replicate hf]
        exact hscalar 0
      · exact hscalar 1
  have htargets : (assemble p expansion).Targets p := by
    rw [assemble, hbuilt]
    dsimp only
    rw [CompiledPolicy.Targets, Nat.add_comm, List.replicate_succ, List.set_cons_zero]
    exact ⟨rfl, fun f hf => List.eq_of_mem_replicate hf⟩
  have hnodup : (assemble p expansion).leaves.Nodup := by
    rw [hleaves]
    exact nodup_leaves hblake hexpand
  have hversion : (assemble p expansion).version = COMPILER_VERSION := rfl
  refine ⟨⟨assemble p expansion, hversion, hconsistent, hbounded, hcanonical, htargets, hnodup⟩,
    ?_, rfl⟩
  rw [compile, CompiledPolicy.validateStructure, dif_pos hversion, dif_pos hconsistent,
    dif_pos hbounded, dif_pos hcanonical, dif_pos htargets, dif_pos hnodup]

namespace StructurallyValidatedCompiledPolicy

theorem scalars_map_fromScalar (hp : p ≤ 256 ^ 32) (row : List (ZMod p)) :
    scalars (row.map Fe.fromScalar) = row := by
  rw [scalars, List.map_map]
  refine List.map_id'' (fun s => ?_) row
  rw [Function.comp_apply, Fe.asScalar_fromScalar hp, Option.getD_some]

/-- **What the compiler answers implements the expanded tree.** -/
theorem implements_of_inner_eq (hp : p ≤ 256 ^ 32) {v : StructurallyValidatedCompiledPolicy p}
    {expansion : Expansion} (hnormal : expansion.tree.Gates Normal)
    (hgates : expansion.tree.Gates fun _ n => n < p) (hinner : v.inner = assemble p expansion) :
    v.Implements expansion.tree := by
  obtain ⟨added, hbuilt, hshares⟩ := exists_shares hnormal hgates
  have htarget : ∀ x, dot v.targetScalars x = x 0 := by
    intro x
    have hrow : v.targetScalars = (List.replicate (1 + expansion.tree.freedom) 0).set 0 1 := by
      rw [targetScalars, hinner, assemble, hbuilt]
      dsimp only
      rw [← List.map_replicate, ← List.map_set, scalars_map_fromScalar hp]
    rw [hrow, Nat.add_comm, List.replicate_succ, List.set_cons_zero]
    have happend : (1 : ZMod p) :: List.replicate expansion.tree.freedom 0 =
        [1] ++ List.replicate expansion.tree.freedom 0 := rfl
    rw [happend, dot_append, dot_replicate_zero, add_zero]
    simp [dot]
  have hunit : ∀ x, dot [(1 : ZMod p)] x = x 0 := fun x => by simp [dot]
  have hleaves : ∀ i : ℕ, v.inner.leaves[i]? = (added[i]?).map Prod.fst := by
    intro i
    rw [hinner, assemble, hbuilt]
    exact List.getElem?_map
  -- The row of a leaf, up to padding, is the one built for it.
  have hrow : ∀ (i : ℕ) (e : Holder × List (ZMod p)), added[i]? = some e →
      ∀ x, dot (v.scalarRow i) x = dot e.2 x := by
    intro i e he x
    have hscalarRow : v.scalarRow i = resize e.2 (1 + expansion.tree.freedom) := by
      rw [scalarRow, hinner, assemble, hbuilt]
      dsimp only
      rw [List.getD_eq_getElem?_getD, List.getElem?_map, he]
      exact scalars_map_fromScalar hp _
    rw [hscalarRow, dot_resize (hshares.length_le _ (List.mem_of_getElem? he))]
  refine ⟨fun present x hsat hvanish => ?_, fun present hunsat => ?_⟩
  · rw [htarget, ← hunit x]
    refine hshares.determines present x hsat fun e he hpresent => ?_
    obtain ⟨i, hi⟩ := List.mem_iff_getElem?.mp he
    rw [← hrow i e hi]
    exact hvanish i e.1 (by rw [hleaves, hi]; rfl) hpresent
  · obtain ⟨y, hy, hvanish⟩ := hshares.hides present (Pi.single 0 1) fun hsat => absurd hsat hunsat
    refine ⟨y, fun i leaf hat hpresent => ?_, ?_⟩
    · rw [hleaves, Option.map_eq_some_iff] at hat
      obtain ⟨e, hi, rfl⟩ := hat
      rw [hrow i e hi]
      exact hvanish e (List.mem_of_getElem? hi) hpresent
    · rw [htarget, hy 0 (Or.inl Nat.one_pos), Pi.single_eq_same]
      exact one_ne_zero

end StructurallyValidatedCompiledPolicy

/-- **The policy compiler implements the policy.**  Every expansion compiles; a set reconstructs
exactly when it satisfies the expanded tree, with a witness that verifies and uses only leaves of
the set; and a witness that verifies names leaves that satisfy the tree. -/
theorem compile_implements_policy [Crypto] [Postcard PolicyTree] [Postcard CompiledPolicy]
    (hp : p ≤ 256 ^ 32) (hblake : Blake3Injective) {policy : CanonicalPolicy}
    {resolve : Principal → Option PrincipalDescriptor} {expansion : Expansion}
    (hexpand : expand policy resolve = .ok expansion)
    (hgates : expansion.tree.Gates fun _ n => n < p) :
    ∃ v, compile p expansion = .ok v ∧
      (∀ subset, (v.reconstruct subset).isSome = true ↔
        expansion.tree.satisfied (fun leaf => leaf ∈ subset) = true) ∧
      (∀ subset w, v.reconstruct subset = some w →
        v.verifyWitness w = true ∧ ∀ leaf ∈ w.leaves, leaf ∈ subset) ∧
      ∀ w, v.verifyWitness w = true →
        expansion.tree.satisfied (fun leaf => leaf ∈ w.leaves) = true := by
  obtain ⟨v, hcompile, hinner⟩ := exists_compile hp hblake hexpand hgates
  have himplements := StructurallyValidatedCompiledPolicy.implements_of_inner_eq hp
    (expand_expands hexpand).normal hgates hinner
  refine ⟨v, hcompile, himplements.isSome_reconstruct_iff, fun subset w hw => ?_, fun w hw => ?_⟩
  · exact StructurallyValidatedCompiledPolicy.verifyWitness_reconstruct hp hw
  · exact himplements.satisfied_of_verifyWitness hw

end Compiler

/-! ## A policy of two -/

namespace Sample

/-- Both of two principals. -/
def both : CanonicalPolicy where
  tree := .threshold 2 [.leaf ⟨[1]⟩, .leaf ⟨[2]⟩]
  normal := by
    refine ⟨?_, trivial, trivial, trivial⟩
    unfold Normal
    decide

/-- Every principal is one device. -/
def direct (principal : Principal) : Option PrincipalDescriptor :=
  some ⟨principal, .direct ⟨principal⟩⟩

@[reducible] def treeCodec : Postcard PolicyTree := tableCodec [both.tree]

/-- Serializations of compiled policies are only compared. -/
@[reducible] def compiledCodec : Postcard CompiledPolicy := tableCodec []

/-- The two leaves of the policy. -/
def expanded : Expansion :=
  let _ := idealCrypto
  let _ := treeCodec
  { id := both.id
    tree := .threshold 2 [.leaf (leafId [0] ⟨[1]⟩ ⟨⟨[1]⟩⟩), .leaf (leafId [1] ⟨[2]⟩ ⟨⟨[2]⟩⟩)]
    leaves := [⟨leafId [0] ⟨[1]⟩ ⟨⟨[1]⟩⟩, ⟨[1]⟩, ⟨⟨[1]⟩⟩, [0]⟩,
      ⟨leafId [1] ⟨[2]⟩ ⟨⟨[2]⟩⟩, ⟨[2]⟩, ⟨⟨[2]⟩⟩, [1]⟩] }

end Sample

/-- A policy of two compiles to a structure that implements it. -/
theorem both_compile :
    let _ := idealCrypto
    let _ := Sample.treeCodec
    let _ := Sample.compiledCodec
    let _ : Fact (Nat.Prime 65537) := ⟨by norm_num⟩
    expand Sample.both Sample.direct = .ok Sample.expanded ∧
    ∃ v, compile 65537 Sample.expanded = .ok v ∧
      (∀ subset, (v.reconstruct subset).isSome = true ↔
        Sample.expanded.tree.satisfied (fun leaf => leaf ∈ subset) = true) ∧
      (∀ subset w, v.reconstruct subset = some w →
        v.verifyWitness w = true ∧ ∀ leaf ∈ w.leaves, leaf ∈ subset) ∧
      ∀ w, v.verifyWitness w = true →
        Sample.expanded.tree.satisfied (fun leaf => leaf ∈ w.leaves) = true := by
  intro _ _ _ _
  have hexpand : expand Sample.both Sample.direct = .ok Sample.expanded := rfl
  refine ⟨hexpand, compile_implements_policy (by norm_num) idealCrypto_blake3 hexpand ?_⟩
  exact ⟨by decide, trivial, trivial, trivial⟩

end Lait.Policy.Compile
