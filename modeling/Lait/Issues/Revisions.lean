import Lait.Bytes
import Lait.Graph.ParentGraph

/-!
# Revisions of a document, and which of them governs

A Spec and a Baseline are sets of revisions, each naming its predecessors.  The control in
force is read off that history: among the revisions that issue or withdraw, the ones no
later such revision descends from, and an answer only where that is a single one.  Both
kinds of document run the same code, so it is written here once over what they share: an
id with a list of predecessors, and a state.

* `descends` is the search backwards along predecessors.  `descends_iff` says it finds
  exactly the ancestors in the `history` of the held revisions, so the controls the source
  keeps are the maximal ones and the answer is a function of a set (`answer_maximalControls_law`).
* Drafts filed on top are not controls, and they leave the ancestors of what was held
  before alone: the held revisions are closed under predecessors in the larger history.
* `ordered` places revisions pass by pass.  A pass either places something or is the last,
  which is why the passes end whatever the store holds.  A revision that no cycle leads to
  is always placed by a pass, behind its predecessors (`predecessors_before`).
-/

namespace Lait.Issues.Revisions

open Lait (Text)

/-- Where a revision stands in its lifecycle. -/
inductive State where
  | draft
  | review
  | issued
  | withdrawn
  deriving DecidableEq, Repr

/-- What is read off a set of revisions: the control in force, or the ones that compete. -/
inductive Issued (T : Type*) where
  | none
  | one (revision : T)
  | conflict (controls : List T)
  deriving DecidableEq, Repr

/-- Two answers that differ at most in the order competing controls are listed in. -/
inductive Issued.Agrees {T : Type*} : Issued T → Issued T → Prop where
  | none : Agrees .none .none
  | one (revision : T) : Agrees (.one revision) (.one revision)
  | conflict {controls controls' : List T} (h : controls.Perm controls') :
      Agrees (.conflict controls) (.conflict controls')

section Generic

variable {T : Type*} (parts : T → Text × List Text) (state : T → State)

/-! ## The model -/

/-- The predecessors the first revision of an id names. -/
def predecessorsOf (revisions : List T) (id : Text) : List Text :=
  match revisions.find? fun revision => (parts revision).1 = id with
  | some revision => (parts revision).2
  | none => []

/-- The held revisions by id, each naming its predecessors. -/
def history (revisions : List T) : ParentGraph Text where
  nodes := (revisions.map fun revision => (parts revision).1).toFinset
  parents := predecessorsOf parts revisions

variable {parts} in
theorem parents_eq {revisions : List T} {id : Text} {revision : T}
    (h : revisions.find? (fun revision => (parts revision).1 = id) = some revision) :
    (history parts revisions).parents id = (parts revision).2 := by
  simp [history, predecessorsOf, h]

variable {parts} in
theorem mem_nodes {revisions : List T} {id : Text} :
    id ∈ (history parts revisions).nodes ↔ ∃ revision ∈ revisions, (parts revision).1 = id := by
  simp [history]

variable {parts} in
theorem mem_nodes_of_find {revisions : List T} {id : Text} {revision : T}
    (h : revisions.find? (fun revision => (parts revision).1 = id) = some revision) :
    id ∈ (history parts revisions).nodes :=
  mem_nodes.mpr ⟨revision, List.mem_of_find?_eq_some h, by simpa using List.find?_some h⟩

variable {parts} in
theorem not_mem_nodes_of_find {revisions : List T} {id : Text}
    (h : revisions.find? (fun revision => (parts revision).1 = id) = none) :
    id ∉ (history parts revisions).nodes := by
  rw [mem_nodes]
  rintro ⟨revision, hmem, hid⟩
  exact absurd (List.find?_eq_none.mp h revision hmem) (by simp [hid])

/-- The search of `descends`, top of the stack first. -/
def search (revisions : List T) (ancestor : Text) (stack : List Text) (seen : Finset Text) :
    Bool :=
  match stack with
  | [] => false
  | current :: stack =>
      if current ∈ seen then search revisions ancestor stack seen
      else
        match _h : revisions.find? fun revision => (parts revision).1 = current with
        | none => search revisions ancestor stack (insert current seen)
        | some revision =>
            if ancestor ∈ (parts revision).2 then true
            else search revisions ancestor ((parts revision).2.reverse ++ stack)
              (insert current seen)
termination_by (history parts revisions).pending stack seen
decreasing_by
  · simp [ParentGraph.pending]
  · -- An id that is not held has no predecessors left to push.
    have hnodes : (history parts revisions).nodes \ insert current seen
        = (history parts revisions).nodes \ seen := by
      rw [Finset.sdiff_insert, Finset.erase_eq_of_notMem]
      exact fun hmem => not_mem_nodes_of_find ‹_› (Finset.mem_sdiff.mp hmem).1
    simp [ParentGraph.pending, hnodes]
  · rename_i hnew _
    have hpush := (history parts revisions).pending_push stack (mem_nodes_of_find ‹_›) hnew
    rw [parents_eq ‹_›] at hpush
    omega

/-- Whether a revision is reached from another along predecessors. -/
def descends (revisions : List T) (descendant ancestor : Text) : Bool :=
  search parts revisions ancestor [descendant] ∅

/-- Whether a revision issues or withdraws. -/
def isControl (revision : T) : Bool :=
  state revision = .issued || state revision = .withdrawn

/-- The answer a list of controls gives. -/
def answer : List T → Issued T
  | [] => .none
  | [one] =>
      match state one with
      | .issued => .one one
      | .withdrawn => .none
      | _ => .conflict [one]
  | controls => .conflict controls

/-- The controls no other control descends from. -/
def maximalControls (revisions : List T) : List T :=
  let controls := revisions.filter (isControl state)
  controls.filter fun candidate =>
    !controls.any fun other =>
      (parts other).1 ≠ (parts candidate).1 &&
        descends parts revisions (parts other).1 (parts candidate).1

/-- The revision of an id. -/
def revision (revisions : List T) (id : Text) : Option T :=
  revisions.find? fun revision => (parts revision).1 = id

/-- The control in force.  Where the heads are recorded, so is the issued set, and an empty
one is an answer; otherwise it is read off the history. -/
def issuedAmong (explicitHeads explicitIssued : List Text) (revisions : List T) : Issued T :=
  if explicitHeads ≠ [] then answer state (explicitIssued.filterMap (revision parts revisions))
  else answer state (maximalControls parts state revisions)

/-- What one pass of `ordered` has placed, and what it puts off. -/
structure Sweep (T : Type*) where
  placed : Finset Text
  out : List T
  deferred : List T

/-- One revision of a pass: placed once every predecessor is placed or not held. -/
def place (known : Finset Text) (sweep : Sweep T) (item : T) : Sweep T :=
  if (parts item).2.all fun predecessor => predecessor ∉ known || predecessor ∈ sweep.placed then
    { sweep with placed := insert (parts item).1 sweep.placed, out := sweep.out ++ [item] }
  else { sweep with deferred := sweep.deferred ++ [item] }

variable {parts} in
/-- What a pass does with one revision. -/
theorem place_cases (known : Finset Text) (sweep : Sweep T) (item : T) :
    ((∀ p ∈ (parts item).2, p ∈ known → p ∈ sweep.placed) ∧
        place parts known sweep item =
          ⟨insert (parts item).1 sweep.placed, sweep.out ++ [item], sweep.deferred⟩) ∨
      ((∃ p ∈ (parts item).2, p ∈ known ∧ p ∉ sweep.placed) ∧
        place parts known sweep item =
          ⟨sweep.placed, sweep.out, sweep.deferred ++ [item]⟩) := by
  unfold place
  split
  case isTrue hready =>
      refine Or.inl ⟨fun p hp hknown => ?_, rfl⟩
      simpa [hknown] using List.all_eq_true.mp hready p hp
  case isFalse hready =>
      refine Or.inr ⟨?_, rfl⟩
      simpa using hready

/-- One pass over what is pending. -/
def sweepOver (known : Finset Text) (placed : Finset Text) (out pending : List T) : Sweep T :=
  pending.foldl (place parts known) ⟨placed, out, []⟩

variable {parts} in
/-- A pass only adds to what was out, and every revision of it is placed or put off. -/
theorem foldl_place_perm {known : Finset Text} (pending : List T) (sweep : Sweep T) :
    sweep.out <+: (pending.foldl (place parts known) sweep).out ∧
      ((pending.foldl (place parts known) sweep).out ++
        (pending.foldl (place parts known) sweep).deferred).Perm
        (sweep.out ++ sweep.deferred ++ pending) := by
  induction pending generalizing sweep with
  | nil => exact ⟨List.prefix_rfl, by simp⟩
  | cons item pending ih =>
      obtain ⟨hout, hperm⟩ := ih (place parts known sweep item)
      rw [List.foldl_cons]
      rcases @place_cases _ parts known sweep item with ⟨-, heq⟩ | ⟨-, heq⟩
      · rw [heq] at hout hperm ⊢
        refine ⟨(List.prefix_append _ _).trans hout, hperm.trans ?_⟩
        simp only [List.append_assoc]
        exact (@List.perm_middle _ item sweep.deferred pending).symm.append_left sweep.out
      · rw [heq] at hout hperm ⊢
        exact ⟨hout, hperm.trans (by simp)⟩

/-- Passes over what is pending, until nothing is or a pass places nothing. -/
def passes (known : Finset Text) (pending : List T) (placed : Finset Text) (out : List T) :
    List T :=
  if pending = [] then out
  else
    let sweep := sweepOver parts known placed out pending
    if sweep.out.length = out.length then sweep.out ++ sweep.deferred
    else passes known sweep.deferred sweep.placed sweep.out
termination_by pending.length
decreasing_by
  rename_i hmoved
  obtain ⟨hout, hperm⟩ := @foldl_place_perm _ parts known pending
    ⟨placed, out, []⟩
  have hle := hout.length_le
  have hlen := hperm.length_eq
  simp only [List.append_nil, List.length_append] at hle hlen
  dsimp only [sweep, sweepOver] at hmoved ⊢
  omega

/-- Every revision, predecessors before successors, ties by id. -/
def ordered (items : List T) : List T :=
  passes parts (items.map fun item => (parts item).1).toFinset
    (items.mergeSort fun a b => (parts a).1 ≤ (parts b).1) ∅ []

/-! ## Ancestry and the search for it -/

section Ancestry

variable {parts} {revisions : List T}

/-- A revision the search finds is behind something that was on the stack. -/
theorem search_sound {ancestor : Text} {stack : List Text} {seen : Finset Text}
    (h : search parts revisions ancestor stack seen = true) :
    ∃ s ∈ stack, ∃ c, c ∈ (history parts revisions).nodes ∧
      Relation.ReflTransGen (history parts revisions).Edge c s ∧
      ancestor ∈ (history parts revisions).parents c := by
  fun_induction search parts revisions ancestor stack seen with
  | case1 => cases h
  | case2 seen current stack hseen ih =>
      obtain ⟨s, hs, hreach⟩ := ih h
      exact ⟨s, List.mem_cons_of_mem _ hs, hreach⟩
  | case3 seen current stack hseen hfind ih =>
      obtain ⟨s, hs, hreach⟩ := ih h
      exact ⟨s, List.mem_cons_of_mem _ hs, hreach⟩
  | case4 seen current stack hseen revision hfind hmem =>
      refine ⟨current, List.mem_cons_self, current, mem_nodes_of_find hfind, .refl, ?_⟩
      exact (parents_eq hfind).symm ▸ hmem
  | case5 seen current stack hseen revision hfind hmem ih =>
      obtain ⟨s, hs, c, hc, hreach, hparent⟩ := ih h
      rcases List.mem_append.mp hs with hs | hs
      · -- The step into the predecessor is one more link below it.
        have hs' : s ∈ (history parts revisions).parents current :=
          (parents_eq hfind).symm ▸ List.mem_reverse.mp hs
        have hheld : s ∈ (history parts revisions).nodes := by
          rcases Relation.ReflTransGen.cases_tail hreach with rfl | ⟨_, _, hlast⟩
          · exact hc
          · exact hlast.2.1
        exact ⟨current, List.mem_cons_self, c, hc,
          hreach.tail ⟨hheld, mem_nodes_of_find hfind, hs'⟩, hparent⟩
      · exact ⟨s, List.mem_cons_of_mem _ hs, c, hc, hreach, hparent⟩

variable (parts) in
/-- What the search keeps: the held revisions it has seen do not name the one looked for, and
what they do name is seen or waits. -/
def Searched (revisions : List T) (ancestor : Text) (stack : List Text) (seen : Finset Text) :
    Prop :=
  ∀ id ∈ seen, id ∈ (history parts revisions).nodes →
    ancestor ∉ (history parts revisions).parents id ∧
      ∀ p, (history parts revisions).Edge p id → p ∈ seen ∨ p ∈ stack

/-- A step of the search loses nothing it has seen or that waits. -/
theorem seen_or_waits {x current : Text} {stack stack' : List Text} {seen seen' : Finset Text}
    (hseen : seen ⊆ seen') (hcurrent : current ∈ seen') (hstack : stack ⊆ stack')
    (h : x ∈ seen ∨ x ∈ current :: stack) : x ∈ seen' ∨ x ∈ stack' := by
  rcases h with h | h
  · exact Or.inl (hseen h)
  · rcases List.mem_cons.mp h with rfl | h
    · exact Or.inl hcurrent
    · exact Or.inr (hstack h)

/-- Nothing behind what was seen or waited names a revision the search misses. -/
theorem search_complete {ancestor : Text} {stack : List Text} {seen : Finset Text}
    (hinv : Searched parts revisions ancestor stack seen)
    (h : search parts revisions ancestor stack seen = false) {c s : Text}
    (hs : s ∈ seen ∨ s ∈ stack) (hheld : s ∈ (history parts revisions).nodes)
    (hreach : Relation.ReflTransGen (history parts revisions).Edge c s) :
    ancestor ∉ (history parts revisions).parents c := by
  fun_induction search parts revisions ancestor stack seen with
  | case1 seen =>
      replace hs : s ∈ seen := by simpa using hs
      have hc : c ∈ seen ∧ c ∈ (history parts revisions).nodes := by
        induction hreach using Relation.ReflTransGen.head_induction_on with
        | refl => exact ⟨hs, hheld⟩
        | head hedge _ ih => exact ⟨by simpa using (hinv _ ih.1 ih.2).2 _ hedge, hedge.1⟩
      exact (hinv c hc.1 hc.2).1
  | case2 seen current stack hseen ih =>
      have hkeep : ∀ x, x ∈ seen ∨ x ∈ current :: stack → x ∈ seen ∨ x ∈ stack := fun x =>
        seen_or_waits Finset.Subset.rfl hseen (List.Subset.refl _)
      exact ih (fun id hid hnode => ⟨(hinv id hid hnode).1, fun p hp =>
        hkeep p ((hinv id hid hnode).2 p hp)⟩) h (hkeep s hs)
  | case3 seen current stack hseen hfind ih =>
      have hkeep : ∀ x, x ∈ seen ∨ x ∈ current :: stack → x ∈ insert current seen ∨ x ∈ stack :=
        fun x => seen_or_waits (Finset.subset_insert _ _) (Finset.mem_insert_self _ _)
          (List.Subset.refl _)
      refine ih (fun id hid hnode => ?_) h (hkeep s hs)
      rcases Finset.mem_insert.mp hid with rfl | hid
      · exact absurd hnode (not_mem_nodes_of_find hfind)
      · exact ⟨(hinv id hid hnode).1, fun p hp => hkeep p ((hinv id hid hnode).2 p hp)⟩
  | case4 => cases h
  | case5 seen current stack hseen revision hfind hmem ih =>
      have hkeep : ∀ x, x ∈ seen ∨ x ∈ current :: stack →
          x ∈ insert current seen ∨ x ∈ (parts revision).2.reverse ++ stack := fun x =>
        seen_or_waits (Finset.subset_insert _ _) (Finset.mem_insert_self _ _)
          (List.subset_append_right _ _)
      refine ih (fun id hid hnode => ?_) h (hkeep s hs)
      rcases Finset.mem_insert.mp hid with rfl | hid
      · refine ⟨(parents_eq hfind).symm ▸ hmem, fun p hp => Or.inr ?_⟩
        exact List.mem_append_left _ (List.mem_reverse.mpr (parents_eq hfind ▸ hp.2.2))
      · exact ⟨(hinv id hid hnode).1, fun p hp => hkeep p ((hinv id hid hnode).2 p hp)⟩

/-- **The search decides ancestry** between held revisions. -/
theorem descends_iff {descendant ancestor : Text}
    (hdescendant : descendant ∈ (history parts revisions).nodes)
    (hancestor : ancestor ∈ (history parts revisions).nodes) :
    descends parts revisions descendant ancestor = true ↔
      (history parts revisions).Ancestor ancestor descendant := by
  constructor
  · intro h
    obtain ⟨s, hs, c, hc, hreach, hparent⟩ := search_sound h
    obtain rfl := List.mem_singleton.mp hs
    exact Relation.TransGen.head' ⟨hancestor, hc, hparent⟩ hreach
  · intro h
    obtain ⟨c, hfirst, hreach⟩ := Relation.TransGen.head'_iff.mp h
    by_contra hmiss
    exact search_complete (by simp [Searched]) (Bool.not_eq_true _ ▸ hmiss)
      (Or.inr (List.mem_singleton_self _)) hdescendant hreach hfirst.2.2

end Ancestry

/-! ## The controls in force -/

/-- A control no other control descends from. -/
def IsMaximal (revisions : List T) (control : T) : Prop :=
  control ∈ revisions ∧ isControl state control = true ∧
    ∀ other ∈ revisions, isControl state other = true →
      ¬ (history parts revisions).Ancestor (parts control).1 (parts other).1

/-- The only maximal control. -/
def IsSole (revisions : List T) (control : T) : Prop :=
  ∀ other, IsMaximal parts state revisions other ↔ other = control

/-- The ids of a set of revisions differ, so each stands for one revision. -/
def DistinctIds (revisions : List T) : Prop :=
  (revisions.map fun revision => (parts revision).1).Nodup

/-- No control is its own ancestor; all a list of them needs of acyclicity. -/
def ControlsApart (parts : T → Text × List Text) (state : T → State) (revisions : List T) : Prop :=
  ∀ control ∈ revisions, isControl state control = true →
    ¬ (history parts revisions).Ancestor (parts control).1 (parts control).1

section Controls

variable {parts state} {revisions : List T}

theorem DistinctIds.nodup (h : DistinctIds parts revisions) : revisions.Nodup :=
  List.Nodup.of_map _ h

/-- **The controls the source keeps are the maximal ones.** -/
theorem mem_maximalControls (hself : ControlsApart parts state revisions) {control : T} :
    control ∈ maximalControls parts state revisions ↔
      IsMaximal parts state revisions control := by
  have hheld : ∀ other ∈ revisions, (parts other).1 ∈ (history parts revisions).nodes :=
    fun other hother => mem_nodes.mpr ⟨other, hother, rfl⟩
  simp only [maximalControls, List.mem_filter, Bool.not_eq_true', List.any_eq_false,
    Bool.and_eq_true, decide_eq_true_eq, not_and, and_imp, IsMaximal, and_assoc]
  refine and_congr_right fun hcontrol => and_congr_right fun hcon => ?_
  refine forall_congr' fun other => forall_congr' fun hother => forall_congr' fun _ => ?_
  rw [descends_iff (hheld _ hother) (hheld _ hcontrol)]
  refine ⟨fun h hancestor => h (fun hid => ?_) hancestor, fun h _ => h⟩
  rw [hid] at hancestor
  exact hself control hcontrol hcon hancestor

theorem nodup_maximalControls (hids : DistinctIds parts revisions) :
    (maximalControls parts state revisions).Nodup :=
  (hids.nodup.filter _).filter _

/-- The list of maximal controls is a singleton where there is only one. -/
theorem maximalControls_eq_singleton (hids : DistinctIds parts revisions)
    (hacyc : (history parts revisions).Acyclic) {control : T} :
    maximalControls parts state revisions = [control] ↔
      IsSole parts state revisions control := by
  rw [← List.perm_singleton, List.perm_ext_iff_of_nodup (nodup_maximalControls hids)
    (List.nodup_singleton control)]
  simp only [mem_maximalControls fun _ _ _ => hacyc _, List.mem_singleton, IsSole]

theorem isControl_iff {revision : T} :
    isControl state revision = true ↔ state revision = .issued ∨ state revision = .withdrawn := by
  simp [isControl]

/-- What a list of controls answers. -/
theorem answer_cases {controls : List T} (hcontrols : ∀ c ∈ controls, isControl state c = true) :
    (controls = [] ∧ answer state controls = .none) ∨
      (∃ c, controls = [c] ∧ state c = .issued ∧ answer state controls = .one c) ∨
      (∃ c, controls = [c] ∧ state c = .withdrawn ∧ answer state controls = .none) ∨
      (2 ≤ controls.length ∧ answer state controls = .conflict controls) := by
  match controls, hcontrols with
  | [], _ => exact Or.inl ⟨rfl, rfl⟩
  | [c], hcontrols =>
      rcases isControl_iff.mp (hcontrols c List.mem_cons_self) with hstate | hstate
      · exact Or.inr (Or.inl ⟨c, rfl, hstate, by simp [answer, hstate]⟩)
      · exact Or.inr (Or.inr (Or.inl ⟨c, rfl, hstate, by simp [answer, hstate]⟩))
  | _ :: _ :: _, _ => exact Or.inr (Or.inr (Or.inr ⟨by simp, rfl⟩))

theorem answer_agrees {controls controls' : List T} (h : controls.Perm controls') :
    (answer state controls).Agrees (answer state controls') := by
  match controls, h with
  | [], h =>
      obtain rfl := List.nil_perm.mp h
      exact .none
  | [c], h =>
      obtain rfl := List.singleton_perm.mp h
      simp only [answer]
      split
      · exact .one c
      · exact .none
      · exact .conflict .rfl
  | a :: b :: rest, h =>
      match controls', h with
      | [], h => exact absurd h.length_eq (by simp)
      | [_], h => exact absurd h.length_eq (by simp)
      | _ :: _ :: _, h => exact .conflict h

/-- With distinct ids a revision is what its id finds. -/
theorem DistinctIds.find_eq (hids : DistinctIds parts revisions) {revision : T}
    (hmem : revision ∈ revisions) :
    revisions.find? (fun r => (parts r).1 = (parts revision).1) = some revision := by
  obtain ⟨found, hfound⟩ := Option.isSome_iff_exists.mp
    (List.find?_isSome (p := fun r => (parts r).1 = (parts revision).1).mpr
      ⟨revision, hmem, by simp⟩)
  rw [hfound, List.inj_on_of_nodup_map hids (List.mem_of_find?_eq_some hfound) hmem
    (by simpa using List.find?_some hfound)]

/-- With distinct ids the history does not depend on the order listed. -/
theorem history_perm {listed : List T} (hids : DistinctIds parts revisions)
    (hperm : listed.Perm revisions) : history parts listed = history parts revisions := by
  have hids' : DistinctIds parts listed := (hperm.map _).nodup_iff.mpr hids
  have hsame : ∀ id, listed.find? (fun r => (parts r).1 = id) =
      revisions.find? (fun r => (parts r).1 = id) := fun id => by
    by_cases hheld : ∃ r ∈ revisions, (parts r).1 = id
    · obtain ⟨r, hr, rfl⟩ := hheld
      rw [hids.find_eq hr, hids'.find_eq (hperm.mem_iff.mpr hr)]
    · push Not at hheld
      rw [List.find?_eq_none.mpr fun r hr => by simpa using hheld r (hperm.mem_iff.mp hr),
        List.find?_eq_none.mpr fun r hr => by simpa using hheld r hr]
  unfold history
  congr 1
  · exact List.toFinset_eq_of_perm _ _ (hperm.map _)
  · funext id
    simp only [predecessorsOf, hsame]

theorem isMaximal_perm {listed : List T} (hids : DistinctIds parts revisions)
    (hperm : listed.Perm revisions) (control : T) :
    IsMaximal parts state listed control ↔ IsMaximal parts state revisions control := by
  simp only [IsMaximal, history_perm hids hperm, hperm.mem_iff]

/-- Every control is behind a maximal one. -/
theorem exists_isMaximal (hacyc : (history parts revisions).Acyclic) {control : T}
    (hmem : control ∈ revisions) (hcontrol : isControl state control = true) :
    ∃ c, IsMaximal parts state revisions c := by
  let later : Set Text :=
    fun id => ∃ c ∈ revisions, isControl state c = true ∧ (parts c).1 = id
  have hwf : WellFounded (Function.swap (history parts revisions).Ancestor) :=
    Subrelation.wf (fun h => Relation.transGen_swap.mpr h) hacyc.wellFounded_swap.transGen
  obtain ⟨_, ⟨c, hc, hcon, rfl⟩, hmin⟩ := hwf.has_min later ⟨_, control, hmem, hcontrol, rfl⟩
  exact ⟨c, hc, hcon, fun other hother hotherControl hancestor =>
    hmin _ ⟨other, hother, hotherControl, rfl⟩ hancestor⟩

variable (parts state) in
/-- What is filed on top of a set of revisions: nothing that issues or withdraws, and nothing
a held revision names. -/
structure DraftsOnTop (revisions drafts : List T) : Prop where
  draft : ∀ draft ∈ drafts, isControl state draft = false
  unnamed : ∀ draft ∈ drafts, ∀ revision ∈ revisions, (parts draft).1 ∉ (parts revision).2

/-- Drafts on top change no ancestor of what was held before. -/
theorem DraftsOnTop.ancestor_iff {drafts : List T}
    (htop : DraftsOnTop parts state revisions drafts) {a : Text}
    {revision : T} (hrevision : revision ∈ revisions) :
    (history parts (revisions ++ drafts)).Ancestor a (parts revision).1 ↔
      (history parts revisions).Ancestor a (parts revision).1 := by
  have hparents : ∀ id ∈ (history parts revisions).nodes,
      (history parts (revisions ++ drafts)).parents id = (history parts revisions).parents id := by
    intro id hid
    obtain ⟨r, hr, hrid⟩ := mem_nodes.mp hid
    obtain ⟨r', hr'⟩ := Option.isSome_iff_exists.mp
      (List.find?_isSome (p := fun revision => (parts revision).1 = id).mpr
        ⟨r, hr, by simpa using hrid⟩)
    rw [parents_eq hr', parents_eq]
    rw [List.find?_append, hr', Option.some_or]
  have hclosed : (history parts (revisions ++ drafts)).ParentClosed
      (history parts revisions).nodes := by
    intro id hid p hedge
    obtain ⟨r, hr, hrid⟩ := mem_nodes.mp hedge.1
    rcases List.mem_append.mp hr with hr | hr
    · exact mem_nodes.mpr ⟨r, hr, hrid⟩
    · -- A draft is not among the predecessors of what was held.
      have hnamed := hparents id hid ▸ hedge.2.2
      simp only [history, predecessorsOf] at hnamed
      split at hnamed
      case h_1 named hfind =>
          exact absurd (hrid ▸ hnamed) (htop.unnamed r hr named (List.mem_of_find?_eq_some hfind))
      case h_2 => cases hnamed
  have hnodes : ((history parts (revisions ++ drafts)).restrict
      (history parts revisions).nodes).nodes = (history parts revisions).nodes := by
    ext id
    rw [ParentGraph.mem_restrict_nodes]
    refine ⟨fun h => h.2, fun h => ⟨?_, h⟩⟩
    obtain ⟨r, hr, hrid⟩ := mem_nodes.mp h
    exact mem_nodes.mpr ⟨r, List.mem_append_left _ hr, hrid⟩
  rw [← hclosed.ancestor_restrict_iff (mem_nodes.mpr ⟨revision, hrevision, rfl⟩)]
  refine ParentGraph.ancestor_congr hnodes fun id hid p => ?_
  rw [ParentGraph.restrict_parents, hparents id (hnodes ▸ hid)]

/-- Drafts on top change no maximal control. -/
theorem DraftsOnTop.isMaximal_iff {drafts : List T}
    (htop : DraftsOnTop parts state revisions drafts) (control : T) :
    IsMaximal parts state (revisions ++ drafts) control ↔
      IsMaximal parts state revisions control := by
  have hmem : ∀ r, isControl state r = true → (r ∈ revisions ++ drafts ↔ r ∈ revisions) := by
    intro r hr
    refine ⟨fun h => (List.mem_append.mp h).resolve_right fun hdraft => ?_,
      List.mem_append_left _⟩
    rw [htop.draft r hdraft] at hr
    cases hr
  constructor
  · rintro ⟨hheld, hcontrol, hmax⟩
    refine ⟨(hmem control hcontrol).mp hheld, hcontrol, fun other hother hcon hancestor => ?_⟩
    exact hmax other (List.mem_append_left _ hother) hcon
      ((htop.ancestor_iff hother).mpr hancestor)
  · rintro ⟨hheld, hcontrol, hmax⟩
    refine ⟨List.mem_append_left _ hheld, hcontrol, fun other hother hcon hancestor => ?_⟩
    have hother' := (hmem other hcon).mp hother
    exact hmax other hother' hcon ((htop.ancestor_iff hother').mp hancestor)

/-- Two listings with the same maximal controls answer alike. -/
theorem answer_maximalControls_agrees {listed : List T} (hids : DistinctIds parts revisions)
    (hids' : DistinctIds parts listed) (hself : ControlsApart parts state revisions)
    (hself' : ControlsApart parts state listed)
    (hsame : ∀ c, IsMaximal parts state listed c ↔ IsMaximal parts state revisions c) :
    (answer state (maximalControls parts state listed)).Agrees
      (answer state (maximalControls parts state revisions)) := by
  refine answer_agrees ((List.perm_ext_iff_of_nodup (nodup_maximalControls hids')
    (nodup_maximalControls hids)).mpr fun c => ?_)
  rw [mem_maximalControls hself', mem_maximalControls hself, hsame]

theorem ControlsApart.perm {listed : List T} (h : ControlsApart parts state revisions)
    (hids : DistinctIds parts revisions) (hperm : listed.Perm revisions) :
    ControlsApart parts state listed := by
  intro control hmem hcontrol
  rw [history_perm hids hperm]
  exact h control (hperm.mem_iff.mp hmem) hcontrol

theorem ControlsApart.onTop {drafts : List T} (h : ControlsApart parts state revisions)
    (htop : DraftsOnTop parts state revisions drafts) :
    ControlsApart parts state (revisions ++ drafts) := by
  intro control hmem hcontrol
  have hheld : control ∈ revisions :=
    (List.mem_append.mp hmem).resolve_right fun hdraft => by
      rw [htop.draft control hdraft] at hcontrol
      cases hcontrol
  rw [htop.ancestor_iff hheld]
  exact h control hheld hcontrol

/-- What the control in force is, for a document whose heads are not recorded: the one maximal
control if it issues, nothing if it withdraws or there is no control, and otherwise the
maximal controls themselves; whatever the order listed, and whatever drafts lie on top. -/
structure IssuedLaw (parts : T → Text × List Text) (state : T → State)
    (issued : List T → Issued T) (revisions : List T) : Prop where
  one : ∀ control, issued revisions = .one control ↔
    IsSole parts state revisions control ∧ state control = .issued
  none : issued revisions = .none ↔
    (∀ control ∈ revisions, isControl state control = false) ∨
      ∃ control, IsSole parts state revisions control ∧ state control = .withdrawn
  conflict : ∀ controls, issued revisions = .conflict controls →
    2 ≤ controls.length ∧ controls.Nodup ∧
      ∀ control, control ∈ controls ↔ IsMaximal parts state revisions control
  reordered : ∀ listed, listed.Perm revisions → (issued listed).Agrees (issued revisions)
  onTop : ∀ drafts listed, DraftsOnTop parts state revisions drafts →
    DistinctIds parts (revisions ++ drafts) → listed.Perm (revisions ++ drafts) →
      (issued listed).Agrees (issued revisions)

/-- The answer read off the history keeps the law. -/
theorem answer_maximalControls_law (hids : DistinctIds parts revisions)
    (hacyc : (history parts revisions).Acyclic) :
    IssuedLaw parts state (fun revisions => answer state (maximalControls parts state revisions))
      revisions := by
  have hself : ControlsApart parts state revisions := fun _ _ _ => hacyc _
  have hcases := @answer_cases _ state (maximalControls parts state revisions) fun c hc =>
      ((mem_maximalControls hself).mp hc).2.1
  have hempty : maximalControls parts state revisions = [] ↔
      ∀ control ∈ revisions, isControl state control = false := by
    constructor
    · intro h control hmem
      by_contra hcontrol
      obtain ⟨c, hc⟩ := exists_isMaximal hacyc hmem (Bool.not_eq_false _ ▸ hcontrol)
      have hlist := (mem_maximalControls hself).mpr hc
      rw [h] at hlist
      cases hlist
    · intro h
      refine List.eq_nil_iff_forall_not_mem.mpr fun c hc => ?_
      have hmax := (mem_maximalControls hself).mp hc
      exact absurd hmax.2.1 (by rw [h c hmax.1]; decide)
  have hsole : ∀ {c}, maximalControls parts state revisions = [c] ↔
      IsSole parts state revisions c := maximalControls_eq_singleton hids hacyc
  refine ⟨fun control => ⟨fun h => ?_, ?_⟩, ⟨fun h => ?_, ?_⟩, fun controls h => ?_,
    fun listed hperm => ?_, fun drafts listed htop hids' hperm => ?_⟩
  · rcases hcases with ⟨-, heq⟩ | ⟨c, hlist, hstate, heq⟩ | ⟨c, -, -, heq⟩ | ⟨-, heq⟩
    all_goals rw [heq] at h; cases h
    exact ⟨hsole.mp hlist, hstate⟩
  · rintro ⟨honly, hstate⟩
    simp [hsole.mpr honly, answer, hstate]
  · rcases hcases with ⟨hlist, -⟩ | ⟨c, -, -, heq⟩ | ⟨c, hlist, hstate, -⟩ | ⟨-, heq⟩
    · exact Or.inl (hempty.mp hlist)
    · rw [heq] at h
      cases h
    · exact Or.inr ⟨c, hsole.mp hlist, hstate⟩
    · rw [heq] at h
      cases h
  · rintro (hnone | ⟨c, honly, hstate⟩)
    · simp [hempty.mpr hnone, answer]
    · simp [hsole.mpr honly, answer, hstate]
  · rcases hcases with ⟨-, heq⟩ | ⟨c, -, -, heq⟩ | ⟨c, -, -, heq⟩ | ⟨hlen, heq⟩
    all_goals rw [heq] at h; cases h
    exact ⟨hlen, nodup_maximalControls hids, fun c => mem_maximalControls hself⟩
  · exact answer_maximalControls_agrees hids ((hperm.map _).nodup_iff.mpr hids) hself
      (hself.perm hids hperm) (isMaximal_perm hids hperm)
  · refine answer_maximalControls_agrees hids ((hperm.map _).nodup_iff.mpr hids') hself
      ((hself.onTop htop).perm hids' hperm) fun c => ?_
    rw [isMaximal_perm hids' hperm, htop.isMaximal_iff]

end Controls

/-! ## The order revisions are shown in -/

section Order

variable {parts} {known placed : Finset Text} {out pending items : List T}

/-- Every known predecessor of an item of the list stands before it. -/
def Behind (parts : T → Text × List Text) (known : Finset Text) (out : List T) : Prop :=
  ∀ before item after, out = before ++ item :: after →
    ∀ p ∈ (parts item).2, p ∈ known → ∃ earlier ∈ before, (parts earlier).1 = p

theorem behind_nil : Behind parts known ([] : List T) := by
  intro before item after h
  simp at h

theorem Behind.concat {item : T} (h : Behind parts known out)
    (hitem : ∀ p ∈ (parts item).2, p ∈ known → ∃ earlier ∈ out, (parts earlier).1 = p) :
    Behind parts known (out ++ [item]) := by
  intro before item' after heq
  rcases List.eq_nil_or_concat' after with rfl | ⟨after, last, rfl⟩
  · obtain ⟨rfl, hlast⟩ := List.append_inj' heq rfl
    obtain rfl := List.singleton_inj.mp hlast
    exact hitem
  · rw [← List.cons_append, ← List.append_assoc] at heq
    exact h before item' after (List.append_inj' heq rfl).1

variable (parts) in
/-- What a pass has put out: its ids are the placed ones, each behind its predecessors. -/
structure Sweep.Sound (known : Finset Text) (sweep : Sweep T) : Prop where
  ids : ∀ id, id ∈ sweep.placed ↔ ∃ item ∈ sweep.out, (parts item).1 = id
  behind : Behind parts known sweep.out

theorem Sweep.Sound.place {sweep : Sweep T} (h : sweep.Sound parts known) (item : T) :
    (Revisions.place parts known sweep item).Sound parts known := by
  rcases @place_cases _ parts known sweep item with ⟨hready, heq⟩ | ⟨-, heq⟩
  · rw [heq]
    refine ⟨fun id => ?_, h.behind.concat fun p hp hknown => (h.ids p).mp (hready p hp hknown)⟩
    simp only [Finset.mem_insert, h.ids, List.mem_append, List.mem_singleton]
    constructor
    · rintro (rfl | ⟨earlier, hmem, hid⟩)
      · exact ⟨item, Or.inr rfl, rfl⟩
      · exact ⟨earlier, Or.inl hmem, hid⟩
    · rintro ⟨earlier, hmem | rfl, hid⟩
      · exact Or.inr ⟨earlier, hmem, hid⟩
      · exact Or.inl hid.symm
  · rw [heq]
    exact ⟨h.ids, h.behind⟩

theorem Sweep.Sound.foldl {sweep : Sweep T} (h : sweep.Sound parts known)
    (pending : List T) :
    (pending.foldl (Revisions.place parts known) sweep).Sound parts known := by
  induction pending generalizing sweep with
  | nil => exact h
  | cons item pending ih => exact ih (h.place item)

/-- What a pass puts off waited for a predecessor that was not placed before the pass. -/
theorem foldl_place_deferred (sweep : Sweep T) (pending : List T) :
    ∀ item ∈ (pending.foldl (place parts known) sweep).deferred,
      item ∈ sweep.deferred ∨ ∃ p ∈ (parts item).2, p ∈ known ∧ p ∉ sweep.placed := by
  induction pending generalizing sweep with
  | nil => exact fun item hitem => Or.inl hitem
  | cons first pending ih =>
      intro item hitem
      rcases @place_cases _ parts known sweep first with ⟨-, heq⟩ | ⟨hwaits, heq⟩
      · rw [List.foldl_cons, heq] at hitem
        rcases ih _ item hitem with h | ⟨p, hp, hknown, hnot⟩
        · exact Or.inl h
        · exact Or.inr ⟨p, hp, hknown, fun hplaced => hnot (Finset.mem_insert_of_mem hplaced)⟩
      · rw [List.foldl_cons, heq] at hitem
        rcases ih _ item hitem with h | h
        · rcases List.mem_append.mp h with h | h
          · exact Or.inl h
          · obtain rfl := List.mem_singleton.mp h
            exact Or.inr hwaits
        · exact Or.inr h

/-- What the passes put out: all that was out and pending, and up to a rest the passes got
stuck on, each behind its predecessors.  Whoever is in the rest waits for another of it. -/
theorem passes_spec (hsound : Sweep.Sound parts known ⟨placed, out, []⟩)
    (hknown : ∀ id ∈ known, ∃ item ∈ out ++ pending, (parts item).1 = id) :
    (passes parts known pending placed out).Perm (out ++ pending) ∧
      ∃ done rest, passes parts known pending placed out = done ++ rest ∧
        Behind parts known done ∧
        ∀ item ∈ rest, ∃ p ∈ (parts item).2, p ∈ known ∧ ∃ other ∈ rest, (parts other).1 = p := by
  fun_induction passes parts known pending placed out with
  | case1 placed out => exact ⟨by simp, out, [], by simp, hsound.behind, by simp⟩
  | case2 pending placed out hpending sweep hstuck =>
      obtain ⟨hout, hperm⟩ := @foldl_place_perm _ parts known pending
        ⟨placed, out, []⟩
      have heq : sweep.out = out := (hout.eq_of_length hstuck.symm).symm
      have hperm' : (sweep.out ++ sweep.deferred).Perm (out ++ pending) := by
        rw [List.append_nil] at hperm
        exact hperm
      refine ⟨hperm', sweep.out, sweep.deferred, rfl, heq ▸ hsound.behind, fun item hitem => ?_⟩
      have hdeferred := @foldl_place_deferred _ parts known
        ⟨placed, out, []⟩ pending item hitem
      obtain ⟨p, hp, hpknown, hnot⟩ := hdeferred.resolve_left (by simp)
      refine ⟨p, hp, hpknown, ?_⟩
      obtain ⟨other, hother, hid⟩ := hknown p hpknown
      rcases List.mem_append.mp (hperm'.mem_iff.mpr hother) with hmem | hmem
      · exact absurd ((hsound.ids p).mpr ⟨other, heq ▸ hmem, hid⟩) hnot
      · exact ⟨other, hmem, hid⟩
  | case3 pending placed out hpending sweep hmoved ih =>
      obtain ⟨-, hperm⟩ := @foldl_place_perm _ parts known pending
        ⟨placed, out, []⟩
      have hperm' : (sweep.out ++ sweep.deferred).Perm (out ++ pending) := by
        rw [List.append_nil] at hperm
        exact hperm
      have hsweep := hsound.foldl pending
      obtain ⟨hall, hrest⟩ := ih ⟨hsweep.ids, hsweep.behind⟩ fun id hid => by
        obtain ⟨item, hitem, hitemId⟩ := hknown id hid
        exact ⟨item, hperm'.mem_iff.mpr hitem, hitemId⟩
      exact ⟨hall.trans hperm', hrest⟩

theorem mem_known {id : Text} : id ∈ (items.map fun item => (parts item).1).toFinset ↔
    ∃ item ∈ items, (parts item).1 = id := by
  simp

/-- The start of the passes. -/
theorem ordered_spec (items : List T) :
    (ordered parts items).Perm items ∧
      ∃ done rest, ordered parts items = done ++ rest ∧
        Behind parts (items.map fun item => (parts item).1).toFinset done ∧
        ∀ item ∈ rest, ∃ p ∈ (parts item).2, ∃ other ∈ rest, (parts other).1 = p := by
  have hsorted := List.mergeSort_perm items fun a b => (parts a).1 ≤ (parts b).1
  obtain ⟨hperm, done, rest, heq, hbehind, hrest⟩ := @passes_spec _ parts
    (items.map fun item => (parts item).1).toFinset ∅ []
    (items.mergeSort fun a b => (parts a).1 ≤ (parts b).1)
    ⟨by simp, behind_nil⟩ fun id hid => by
      obtain ⟨item, hitem, hitemId⟩ := mem_known.mp hid
      exact ⟨item, by simpa using hitem, hitemId⟩
  refine ⟨hperm.trans (by simpa using hsorted), done, rest, heq, hbehind, fun item hitem => ?_⟩
  obtain ⟨p, hp, -, hother⟩ := hrest item hitem
  exact ⟨p, hp, hother⟩

theorem pairwise_sorted (l : List T) :
    (l.mergeSort fun a b => (parts a).1 ≤ (parts b).1).Pairwise
      fun a b => (parts a).1 ≤ (parts b).1 := by
  have h := @List.pairwise_mergeSort _ (fun a b : T => decide ((parts a).1 ≤ (parts b).1))
    (fun a b c hab hbc => by simpa using (of_decide_eq_true hab).trans (of_decide_eq_true hbc))
    (fun a b => by simpa using le_total (parts a).1 (parts b).1) l
  exact h.imp fun h => of_decide_eq_true h

/-- The order does not depend on the listing: ids decide every tie. -/
theorem ordered_perm {listed : List T} (hids : DistinctIds parts items)
    (hperm : listed.Perm items) : ordered parts listed = ordered parts items := by
  have hknown : (listed.map fun item => (parts item).1).toFinset =
      (items.map fun item => (parts item).1).toFinset :=
    List.toFinset_eq_of_perm _ _ (hperm.map _)
  have hlists : (listed.mergeSort fun a b => (parts a).1 ≤ (parts b).1) =
      items.mergeSort fun a b => (parts a).1 ≤ (parts b).1 := by
    refine List.Perm.eq_of_pairwise (fun a b ha hb hab hba => ?_) (pairwise_sorted listed)
      (pairwise_sorted items)
      (((List.mergeSort_perm _ _).trans hperm).trans (List.mergeSort_perm _ _).symm)
    exact List.inj_on_of_nodup_map hids
      (hperm.mem_iff.mp (List.mem_mergeSort.mp ha)) (List.mem_mergeSort.mp hb)
      (le_antisymm hab hba)
  unfold ordered
  rw [hknown, hlists]

/-- **Predecessors come first** in an acyclic set. -/
theorem predecessors_before (hids : DistinctIds parts items)
    (hacyc : (history parts items).Acyclic) :
    Behind parts (items.map fun item => (parts item).1).toFinset (ordered parts items) := by
  obtain ⟨hperm, done, rest, heq, hbehind, hrest⟩ := @ordered_spec _ parts items
  suffices hnil : rest = [] by
    rw [heq, hnil, List.append_nil]
    exact hbehind
  by_contra hne
  obtain ⟨first, hfirst⟩ := List.exists_mem_of_ne_nil rest hne
  have hheld : ∀ item ∈ rest, item ∈ items := fun item hitem =>
    hperm.mem_iff.mp (heq ▸ List.mem_append_right done hitem)
  -- The earliest of the rest waits for an earlier one.
  let waiting : Set Text := fun id => ∃ item ∈ rest, (parts item).1 = id
  obtain ⟨_, ⟨item, hitem, rfl⟩, hmin⟩ := hacyc.wellFounded.has_min waiting ⟨_, first, hfirst, rfl⟩
  obtain ⟨p, hp, other, hother, rfl⟩ := hrest item hitem
  refine hmin _ ⟨other, hother, rfl⟩ ⟨mem_nodes.mpr ⟨other, hheld _ hother, rfl⟩,
    mem_nodes.mpr ⟨item, hheld _ hitem, rfl⟩, ?_⟩
  rw [parents_eq (hids.find_eq (hheld _ hitem))]
  exact hp

end Order

end Generic

/-! ## Specs and Baselines -/

/-- The content of a Spec revision. -/
structure Body where
  state : State
  deriving DecidableEq

/-- One revision of a Spec. -/
structure Revision where
  revision : Text
  predecessors : List Text
  body : Body
  deriving DecidableEq

/-- The parsed state of a Spec. -/
structure Spec where
  revisions : List Revision
  explicitHeads : List Text
  explicitIssued : List Text

/-- The content of a Baseline revision. -/
structure BaselineBody where
  state : State
  deriving DecidableEq

/-- One revision of a Baseline. -/
structure BaselineRevision where
  revision : Text
  predecessors : List Text
  body : BaselineBody
  deriving DecidableEq

/-- The parsed state of a Baseline. -/
structure Baseline where
  revisions : List BaselineRevision
  explicitHeads : List Text
  explicitIssued : List Text

/-- The id and the predecessors of a Spec revision. -/
def Revision.parts (revision : Revision) : Text × List Text :=
  (revision.revision, revision.predecessors)

/-- The id and the predecessors of a Baseline revision. -/
def BaselineRevision.parts (revision : BaselineRevision) : Text × List Text :=
  (revision.revision, revision.predecessors)

/-- The control in force of a Spec. -/
def Spec.issued (spec : Spec) : Issued Revision :=
  issuedAmong Revision.parts (fun revision => revision.body.state) spec.explicitHeads
    spec.explicitIssued spec.revisions

/-- The control in force of a Baseline. -/
def Baseline.issued (baseline : Baseline) : Issued BaselineRevision :=
  issuedAmong BaselineRevision.parts (fun revision => revision.body.state)
    baseline.explicitHeads baseline.explicitIssued baseline.revisions

/-- **The control in force, and the order of a history.**  For every acyclic set of revisions
of a Spec or a Baseline whose heads are not recorded, the answer is the one maximal control
if it issues and nothing if it withdraws or there is none, and otherwise the maximal
controls; it depends neither on the listing nor on drafts filed on top.  The order shown is
a permutation of any list at all, the same for every listing of a set, and in an acyclic
set no revision stands before a predecessor that is held. -/
theorem issued_and_ordered :
    (∀ spec : Spec, spec.explicitHeads = [] → DistinctIds Revision.parts spec.revisions →
      (history Revision.parts spec.revisions).Acyclic →
      IssuedLaw Revision.parts (fun revision => revision.body.state)
        (fun revisions => Spec.issued { spec with revisions := revisions }) spec.revisions) ∧
    (∀ baseline : Baseline, baseline.explicitHeads = [] →
      DistinctIds BaselineRevision.parts baseline.revisions →
      (history BaselineRevision.parts baseline.revisions).Acyclic →
      IssuedLaw BaselineRevision.parts (fun revision => revision.body.state)
        (fun revisions => Baseline.issued { baseline with revisions := revisions })
        baseline.revisions) ∧
    ∀ (T : Type) (parts : T → Text × List Text) (items : List T),
      (ordered parts items).Perm items ∧
      (DistinctIds parts items →
        (∀ listed, listed.Perm items → ordered parts listed = ordered parts items) ∧
        ((history parts items).Acyclic →
          Behind parts (items.map fun item => (parts item).1).toFinset
            (ordered parts items))) := by
  refine ⟨fun spec hheads hids hacyc => ?_, fun baseline hheads hids hacyc => ?_,
    fun T parts items => ⟨(ordered_spec items).1, fun hids =>
      ⟨fun listed hperm => ordered_perm hids hperm, predecessors_before hids⟩⟩⟩
  · simpa [Spec.issued, issuedAmong, hheads] using answer_maximalControls_law hids hacyc
  · simpa [Baseline.issued, issuedAmong, hheads] using answer_maximalControls_law hids hacyc

/-- An issued revision with a draft on top of it. -/
def sampleSpec : Spec :=
  ⟨[⟨Bytes.ofString "a", [], ⟨.issued⟩⟩, ⟨Bytes.ofString "ab", [Bytes.ofString "a"], ⟨.draft⟩⟩],
    [], []⟩

/-- Two issued revisions side by side, and a draft on both. -/
def sampleBaseline : Baseline :=
  ⟨[⟨Bytes.ofString "abc", [Bytes.ofString "ac", Bytes.ofString "ab"], ⟨.draft⟩⟩,
    ⟨Bytes.ofString "ac", [Bytes.ofString "a"], ⟨.issued⟩⟩,
    ⟨Bytes.ofString "ab", [Bytes.ofString "a"], ⟨.issued⟩⟩,
    ⟨Bytes.ofString "a", [], ⟨.issued⟩⟩], [], []⟩

/-- A withdrawal on its own. -/
def withdrawnSpec : Spec := ⟨[⟨Bytes.ofString "a", [], ⟨.withdrawn⟩⟩], [], []⟩

/-- Predecessors with shorter ids make no cycle. -/
theorem acyclic_of_length {T : Type*} {parts : T → Text × List Text} {revisions : List T}
    (h : ∀ revision ∈ revisions, ∀ p ∈ (parts revision).2, p.length < (parts revision).1.length) :
    (history parts revisions).Acyclic := by
  refine ParentGraph.acyclic_of_rank Bytes.length fun p id hedge => ?_
  have hnamed := hedge.2.2
  simp only [history, predecessorsOf] at hnamed
  split at hnamed
  case h_1 revision hfind =>
      have hid : (parts revision).1 = id := by simpa using List.find?_some hfind
      exact hid ▸ h revision (List.mem_of_find?_eq_some hfind) p hnamed
  case h_2 => cases hnamed

/-- A Spec with one control in force, a Baseline with two that compete, and the order of its
branches. -/
theorem issued_and_ordered_sample :
    (sampleSpec.issued = .one ⟨Bytes.ofString "a", [], ⟨.issued⟩⟩ ∧
      IssuedLaw Revision.parts (fun revision => revision.body.state)
        (fun revisions => Spec.issued { sampleSpec with revisions := revisions })
        sampleSpec.revisions) ∧
    (sampleBaseline.issued = .conflict
        [⟨Bytes.ofString "ac", [Bytes.ofString "a"], ⟨.issued⟩⟩,
          ⟨Bytes.ofString "ab", [Bytes.ofString "a"], ⟨.issued⟩⟩] ∧
      IssuedLaw BaselineRevision.parts (fun revision => revision.body.state)
        (fun revisions => Baseline.issued { sampleBaseline with revisions := revisions })
        sampleBaseline.revisions) ∧
    (ordered BaselineRevision.parts sampleBaseline.revisions).Perm sampleBaseline.revisions ∧
      (∀ listed, listed.Perm sampleBaseline.revisions →
        ordered BaselineRevision.parts listed =
          ordered BaselineRevision.parts sampleBaseline.revisions) ∧
      Behind BaselineRevision.parts
        (sampleBaseline.revisions.map fun revision => revision.parts.1).toFinset
        (ordered BaselineRevision.parts sampleBaseline.revisions) := by
  obtain ⟨hspec, hbaseline, hordered⟩ := issued_and_ordered
  have hids : DistinctIds BaselineRevision.parts sampleBaseline.revisions := by
    unfold DistinctIds
    decide +kernel
  have hacyc : (history BaselineRevision.parts sampleBaseline.revisions).Acyclic :=
    acyclic_of_length (by decide +kernel)
  obtain ⟨hperm, horder⟩ := hordered _ BaselineRevision.parts sampleBaseline.revisions
  obtain ⟨hlisted, hbehind⟩ := horder hids
  refine ⟨⟨by decide +kernel, hspec sampleSpec rfl (by unfold DistinctIds; decide +kernel)
    (acyclic_of_length (by decide +kernel))⟩, ⟨by decide +kernel,
    hbaseline sampleBaseline rfl hids hacyc⟩, hperm, hlisted, hbehind hacyc⟩

/-- A withdrawal is a control, and the only maximal one, and yet nothing is in force. -/
theorem withdrawn_control_not_issued :
    ¬ ∀ spec : Spec, spec.explicitHeads = [] → DistinctIds Revision.parts spec.revisions →
      (history Revision.parts spec.revisions).Acyclic → ∀ control,
        spec.issued = .one control ↔
          IsSole Revision.parts (fun revision => revision.body.state) spec.revisions control := by
  intro h
  have hacyc : (history Revision.parts withdrawnSpec.revisions).Acyclic :=
    acyclic_of_length (by decide +kernel)
  have hids : DistinctIds Revision.parts withdrawnSpec.revisions := by
    unfold DistinctIds
    decide +kernel
  have hnone : withdrawnSpec.issued = .none := by decide +kernel
  have honly := (h withdrawnSpec rfl hids hacyc ⟨Bytes.ofString "a", [], ⟨.withdrawn⟩⟩).mpr
    ((maximalControls_eq_singleton hids hacyc).mp (by decide +kernel))
  rw [hnone] at honly
  cases honly

end Lait.Issues.Revisions
