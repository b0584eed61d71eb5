import Lait.Policy.Ownership
import Lait.Wire

/-!
# Canonical policies

What canonicalization does to an ownership rule.  The rule is read in its own four kinds
of node (`OwnershipPolicy.satisfied`), the canonical policy as a threshold formula, and
the two agree for every set of principals (`satisfied_of_normalize`).

A gate is settled in three steps, and each keeps the meaning.  A child is inlined only
under a gate of its own kind, where its threshold adds nothing: all of its members are
among all of the gate's, any of them is any of the gate's.  Sorting permutes.  A gate
left with one member asks for that member, as no gate asks for none.  The thresholds of
a gate that asks for all move with the count of its members, which is cut to 16 bits;
as no step changes the number of leaves, the bound on the leaves of the result bounds
every gate below it (`length_leaves_closeGate`), so no count is cut.

A canonical policy is one of its own reductions: its members already ascend, so sorting
leaves them, and no gate of it is deeper than the policy it came from
(`normalize_reflect`).
-/

namespace Lait.Policy

/-! ## What a rule asks -/

namespace OwnershipPolicy

mutual

/-- Whether the principals present satisfy the rule. -/
def satisfied (present : Principal → Bool) : OwnershipPolicy → Bool
  | key principal => present principal
  | threshold k members => k ≤ countSatisfied present members
  | allOf members => countSatisfied present members = members.length
  | anyOf members => 0 < countSatisfied present members

/-- How many of the members are satisfied. -/
def countSatisfied (present : Principal → Bool) : List OwnershipPolicy → ℕ
  | [] => 0
  | member :: members =>
      (if satisfied present member then 1 else 0) + countSatisfied present members

end

theorem countSatisfied_eq_countP {present : Principal → Bool} (l : List OwnershipPolicy) :
    countSatisfied present l = l.countP (satisfied present) := by
  induction l with
  | nil => rfl
  | cons policy l ih => rw [countSatisfied, ih, List.countP_cons, add_comm]

end OwnershipPolicy

/-- The node a gate is written as. -/
def Gate.policy : Gate → List OwnershipPolicy → OwnershipPolicy
  | all, members => .allOf members
  | any, members => .anyOf members
  | fixed k, members => .threshold k members

/-- A node asks for as many of its members as its gate does. -/
theorem Gate.satisfied_policy {gate : Gate} {present : Principal → Bool}
    {members : List OwnershipPolicy} :
    (gate.policy members).satisfied present =
      decide (gate.effective members.length ≤ members.countP (OwnershipPolicy.satisfied present)) := by
  have hcount : OwnershipPolicy.countSatisfied present members =
      members.countP (OwnershipPolicy.satisfied present) :=
    OwnershipPolicy.countSatisfied_eq_countP members
  cases gate with
  | all =>
      rw [policy, OwnershipPolicy.satisfied, hcount, effective, decide_eq_decide]
      exact ⟨fun h => h.ge, fun h => le_antisymm List.countP_le_length h⟩
  | any =>
      rw [policy, OwnershipPolicy.satisfied, hcount, effective, decide_eq_decide]
      exact Iff.rfl
  | fixed k => rw [policy, OwnershipPolicy.satisfied, hcount, effective]

mutual

/-- A canonical policy as it would be written. -/
def reflect : PolicyTree → OwnershipPolicy
  | .leaf principal => .key principal
  | .threshold k members => .threshold k (reflectAll members)

/-- Several of them. -/
def reflectAll : List PolicyTree → List OwnershipPolicy
  | [] => []
  | member :: members => reflect member :: reflectAll members

end

theorem reflectAll_eq_map (l : List PolicyTree) : reflectAll l = l.map reflect := by
  induction l with
  | nil => rfl
  | cons t l ih => rw [reflectAll, ih, List.map_cons]

/-! ## Inlining -/

/-- What a child contributes to the members of a gate. -/
def inlined (sameGate : PolicyTree → Bool) : PolicyTree → List PolicyTree
  | .leaf a => [.leaf a]
  | .threshold k inner => if sameGate (.threshold k inner) then inner else [.threshold k inner]

/-- What it contributes under a gate of each kind. -/
def Gate.inlined : Gate → PolicyTree → List PolicyTree
  | all => Policy.inlined isAllGate
  | any => Policy.inlined isAnyGate
  | fixed _ => fun member => [member]

theorem Gate.flatten_eq_flatMap (gate : Gate) (members : List PolicyTree) :
    gate.flatten members = members.flatMap gate.inlined := by
  have hinto : ∀ sameGate, flattenInto sameGate members =
      members.flatMap (Policy.inlined sameGate) := by
    intro sameGate
    unfold flattenInto
    congr 1
    funext member
    cases member <;> rfl
  cases gate with
  | all => exact hinto isAllGate
  | any => exact hinto isAnyGate
  | fixed k => exact (List.flatMap_singleton' members).symm

/-- A child contributes itself, unless it is a gate of the same kind, which contributes its
members. -/
theorem Gate.inlined_cases {gate : Gate} {motive : PolicyTree → List PolicyTree → Prop}
    (one : ∀ member, motive member [member])
    (inner : ∀ k members, gate = .all ∧ k = members.length ∨ gate = .any ∧ k = 1 →
      motive (.threshold k members) members)
    (member : PolicyTree) : motive member (gate.inlined member) := by
  cases member with
  | leaf a => cases gate <;> exact one _
  | threshold k members =>
      cases gate with
      | all =>
          show motive _ (if decide (k = members.length) = true then members else _)
          split
          next h => exact inner k members (.inl ⟨rfl, of_decide_eq_true h⟩)
          next => exact one _
      | any =>
          show motive _ (if decide (k = 1) = true then members else _)
          split
          next h => exact inner k members (.inr ⟨rfl, of_decide_eq_true h⟩)
          next => exact one _
      | fixed k' => exact one _

/-- Inlining moves no leaf. -/
theorem Gate.leavesOf_flatten (gate : Gate) (members : List PolicyTree) :
    ThresholdTree.leavesOf (gate.flatten members) = ThresholdTree.leavesOf members := by
  have hone : ∀ member, (gate.inlined member).flatMap ThresholdTree.leaves = member.leaves :=
    gate.inlined_cases
      (motive := fun member l => l.flatMap ThresholdTree.leaves = member.leaves)
      (fun member => List.flatMap_singleton _ _)
      fun k inner _ => (ThresholdTree.leavesOf_eq_flatMap inner).symm
  rw [gate.flatten_eq_flatMap, ThresholdTree.leavesOf_eq_flatMap, List.flatMap_assoc,
    ThresholdTree.leavesOf_eq_flatMap]
  simp only [hone]

/-- All of a list are counted when as many as it has are. -/
theorem length_le_countP {α : Type} {p : α → Bool} {l : List α} :
    l.length ≤ l.countP p ↔ ∀ a ∈ l, p a :=
  List.countP_le_length.ge_iff_eq.trans List.countP_eq_length

/-- A gate asks the same of its members before inlining and after. -/
theorem Gate.effective_flatten {gate : Gate} {present : Principal → Bool}
    {members : List PolicyTree} :
    gate.effective (gate.flatten members).length ≤ (gate.flatten members).countP (·.satisfied present)
      ↔ gate.effective members.length ≤ members.countP (·.satisfied present) := by
  cases gate with
  | fixed k => exact Iff.rfl
  | all =>
      have hone : ∀ member, (∀ t ∈ Gate.all.inlined member, t.satisfied present) ↔
          member.satisfied present :=
        inlined_cases
          (motive := fun member l => (∀ t ∈ l, t.satisfied present) ↔ member.satisfied present)
          (fun member => List.forall_mem_singleton) fun k inner hkind => by
            obtain ⟨-, rfl⟩ | ⟨habsurd, -⟩ := hkind
            · rw [ThresholdTree.satisfied, ThresholdTree.countSatisfied_eq_countP,
                decide_eq_true_iff, length_le_countP]
            · cases habsurd
      simp only [effective, length_le_countP, flatten_eq_flatMap, List.forall_mem_flatMap, hone]
  | any =>
      have hone : ∀ member, (∃ t ∈ Gate.any.inlined member, t.satisfied present) ↔
          member.satisfied present :=
        inlined_cases
          (motive := fun member l => (∃ t ∈ l, t.satisfied present) ↔ member.satisfied present)
          (fun member => by simp) fun k inner hkind => by
            obtain ⟨habsurd, -⟩ | ⟨-, rfl⟩ := hkind
            · cases habsurd
            · rw [ThresholdTree.satisfied, ThresholdTree.countSatisfied_eq_countP,
                decide_eq_true_iff, Nat.one_le_iff_ne_zero, ← Nat.pos_iff_ne_zero,
                List.countP_pos_iff]
      have hsome : ∀ l : List PolicyTree, 1 ≤ l.countP (·.satisfied present) ↔
          ∃ t ∈ l, t.satisfied present := fun l => List.countP_pos_iff
      simp only [effective, hsome, flatten_eq_flatMap, List.mem_flatMap]
      constructor
      · rintro ⟨t, ⟨member, hmember, ht⟩, hsat⟩
        exact ⟨member, hmember, (hone member).mp ⟨t, ht, hsat⟩⟩
      · rintro ⟨member, hmember, hsat⟩
        obtain ⟨t, ht, hsat⟩ := (hone member).mpr hsat
        exact ⟨t, ⟨member, hmember, ht⟩, hsat⟩

section Encoded

variable [Postcard PolicyTree]

mutual

/-- The members of every gate ascend in their encodings. -/
def Ascending : PolicyTree → Prop
  | .leaf _ => True
  | .threshold _ members =>
      (members.Pairwise fun a b => Postcard.toStdvec a < Postcard.toStdvec b) ∧
        AscendingOf members

/-- Those of the gates of several policies do. -/
def AscendingOf : List PolicyTree → Prop
  | [] => True
  | member :: members => Ascending member ∧ AscendingOf members

end

theorem ascendingOf_iff {l : List PolicyTree} : AscendingOf l ↔ ∀ t ∈ l, Ascending t := by
  induction l with
  | nil => simp [AscendingOf]
  | cons t l ih => rw [AscendingOf, List.forall_mem_cons, ih]

/-! ## Normalization by its nodes -/

theorem normalizeMembers_eq_mapM (members : List OwnershipPolicy) (depth : ℕ) :
    normalizeMembers members depth = members.mapM fun member => normalize member depth := by
  induction members with
  | nil =>
      unfold normalizeMembers
      rfl
  | cons member members ih =>
      unfold normalizeMembers
      rw [List.mapM_cons, ih]

theorem normalize_key_eq_ok {principal : Principal} {depth : ℕ} {t : PolicyTree} :
    normalize (.key principal) depth = .ok t ↔ depth ≤ MAX_DEPTH ∧ t = .leaf principal := by
  unfold normalize
  split
  next h => simp [not_le.mpr h]
  next h => simp [not_lt.mp h, eq_comm]

theorem normalize_policy_eq_ok (gate : Gate) {members : List OwnershipPolicy} {depth : ℕ}
    {t : PolicyTree} :
    normalize (gate.policy members) depth = .ok t ↔
      depth ≤ MAX_DEPTH ∧ members ≠ [] ∧ gate ≠ .fixed 0 ∧
        ∃ reduced, members.mapM (fun member => normalize member (depth + 1)) = .ok reduced ∧
          closeGate gate reduced = .ok t := by
  have hgate : normalize (gate.policy members) depth =
      if MAX_DEPTH < depth then .error .tooDeep else normalizeGate gate members depth := by
    cases gate <;> rw [Gate.policy, normalize]
  rw [hgate]
  split
  next h => simp [not_le.mpr h]
  next h =>
    unfold normalizeGate
    rw [normalizeMembers_eq_mapM]
    split
    next hnil => simp [List.isEmpty_iff.mp hnil]
    next hne =>
      split
      next hzero => simp [hzero]
      next hzero =>
        rw [bind_eq_ok]
        simp [not_lt.mp h, hzero, List.isEmpty_iff.not.mp hne]

mutual

/-- **What holds of keys and of closed gates holds of every normalized policy.** -/
theorem normalize_induction {motive : OwnershipPolicy → ℕ → PolicyTree → Prop}
    (key : ∀ principal depth, depth ≤ MAX_DEPTH → motive (.key principal) depth (.leaf principal))
    (gate : ∀ (gate : Gate) members depth reduced t, depth ≤ MAX_DEPTH → gate ≠ .fixed 0 →
      members ≠ [] →
      List.Forall₂ (fun member r => normalize member (depth + 1) = .ok r ∧
        motive member (depth + 1) r) members reduced →
      closeGate gate reduced = .ok t → motive (gate.policy members) depth t)
    (policy : OwnershipPolicy) {depth : ℕ} {t : PolicyTree} (h : normalize policy depth = .ok t) :
    motive policy depth t := by
  cases policy with
  | key principal =>
      obtain ⟨hdepth, rfl⟩ := normalize_key_eq_ok.mp h
      exact key principal depth hdepth
  | threshold k members =>
      obtain ⟨hdepth, hne, hgate, reduced, hreduced, hclose⟩ :=
        (normalize_policy_eq_ok (.fixed k)).mp h
      exact gate (.fixed k) members depth reduced t hdepth hgate hne
        (normalizeAll_induction key gate members hreduced) hclose
  | allOf members =>
      obtain ⟨hdepth, hne, hgate, reduced, hreduced, hclose⟩ :=
        (normalize_policy_eq_ok .all).mp h
      exact gate .all members depth reduced t hdepth hgate hne
        (normalizeAll_induction key gate members hreduced) hclose
  | anyOf members =>
      obtain ⟨hdepth, hne, hgate, reduced, hreduced, hclose⟩ :=
        (normalize_policy_eq_ok .any).mp h
      exact gate .any members depth reduced t hdepth hgate hne
        (normalizeAll_induction key gate members hreduced) hclose

theorem normalizeAll_induction {motive : OwnershipPolicy → ℕ → PolicyTree → Prop}
    (key : ∀ principal depth, depth ≤ MAX_DEPTH → motive (.key principal) depth (.leaf principal))
    (gate : ∀ (gate : Gate) members depth reduced t, depth ≤ MAX_DEPTH → gate ≠ .fixed 0 →
      members ≠ [] →
      List.Forall₂ (fun member r => normalize member (depth + 1) = .ok r ∧
        motive member (depth + 1) r) members reduced →
      closeGate gate reduced = .ok t → motive (gate.policy members) depth t)
    (members : List OwnershipPolicy) {depth : ℕ} {reduced : List PolicyTree}
    (h : members.mapM (fun member => normalize member depth) = .ok reduced) :
    List.Forall₂ (fun member r => normalize member depth = .ok r ∧ motive member depth r)
      members reduced := by
  cases members with
  | nil =>
      cases h
      exact .nil
  | cons member members =>
      rw [List.mapM_cons] at h
      obtain ⟨first, hfirst, h⟩ := bind_eq_ok.mp h
      obtain ⟨rest, hrest, h⟩ := bind_eq_ok.mp h
      cases h
      exact .cons ⟨hfirst, normalize_induction key gate member hfirst⟩
        (normalizeAll_induction key gate members hrest)

end

/-! ## Closing a gate -/

/-- The members of a gate in the order of their encodings. -/
def inOrder (members : List PolicyTree) : List PolicyTree :=
  members.insertionSort fun a b => Postcard.toStdvec a ≤ Postcard.toStdvec b

instance : Std.Total fun a b : PolicyTree => Postcard.toStdvec a ≤ Postcard.toStdvec b :=
  ⟨fun _ _ => le_total _ _⟩

instance : IsTrans PolicyTree fun a b => Postcard.toStdvec a ≤ Postcard.toStdvec b :=
  ⟨fun _ _ _ => le_trans⟩

theorem perm_inOrder (l : List PolicyTree) : (inOrder l).Perm l := List.perm_insertionSort _ l

theorem pairwise_inOrder (l : List PolicyTree) :
    (inOrder l).Pairwise fun a b => Postcard.toStdvec a ≤ Postcard.toStdvec b :=
  List.pairwise_insertionSort _ l

theorem inOrder_eq_self {l : List PolicyTree}
    (h : l.Pairwise fun a b => Postcard.toStdvec a < Postcard.toStdvec b) : inOrder l = l :=
  List.Pairwise.insertionSort_eq (h.imp le_of_lt)

/-- A gate over settled members.  Over a single one it is that member. -/
def gateOver (k : ℕ) : List PolicyTree → PolicyTree
  | [member] => member
  | members => .threshold k members

section RoundTrips

variable (hwire : Postcard.RoundTrips PolicyTree)

include hwire

theorem pairwise_lt_inOrder {l : List PolicyTree} (h : l.Nodup) :
    (inOrder l).Pairwise fun a b => Postcard.toStdvec a < Postcard.toStdvec b := by
  have hnodup : (inOrder l).Pairwise (· ≠ ·) := (perm_inOrder l).nodup_iff.mpr h
  exact ((pairwise_inOrder l).and hnodup).imp fun hboth =>
    lt_of_le_of_ne hboth.1 fun heq => hboth.2 (hwire.injective heq)

/-- In a sorted list equal members are neighbours. -/
theorem nodup_of_isChain {l : List PolicyTree}
    (hsorted : l.Pairwise fun a b => Postcard.toStdvec a ≤ Postcard.toStdvec b)
    (hchain : l.IsChain (· ≠ ·)) : l.Nodup := by
  induction l with
  | nil => exact .nil
  | cons a l ih =>
      rw [List.pairwise_cons] at hsorted
      refine List.nodup_cons.mpr ⟨fun hmem => ?_, ih hsorted.2 hchain.tail⟩
      cases l with
      | nil => exact absurd hmem List.not_mem_nil
      | cons b l =>
          rw [List.isChain_cons_cons] at hchain
          have hle := hsorted.1 b List.mem_cons_self
          rcases List.mem_cons.mp hmem with heq | hmem
          · exact hchain.1 heq
          · have hge := (List.pairwise_cons.mp hsorted.2).1 a hmem
            exact hchain.1 (hwire.injective (le_antisymm hle hge))

/-- Sorting leaves equal members side by side, so none is dropped when none repeats. -/
theorem length_destutter_inOrder (l : List PolicyTree) :
    ((inOrder l).destutter (· ≠ ·)).length = (inOrder l).length ↔ l.Nodup := by
  rw [← (perm_inOrder l).nodup_iff]
  constructor
  · intro hlength
    refine nodup_of_isChain hwire (pairwise_inOrder l) ?_
    rw [← List.destutter_eq_self_iff]
    exact (List.destutter_sublist _ _).eq_of_length hlength
  · intro hnodup
    rw [List.destutter_of_isChain _ _ (List.Pairwise.isChain hnodup)]

theorem inOrder_congr {l l' : List PolicyTree} (h : l.Perm l') : inOrder l = inOrder l' :=
  List.Perm.eq_of_pairwise (fun _ _ _ _ hle hge => hwire.injective (le_antisymm hle hge))
    (pairwise_inOrder l) (pairwise_inOrder l')
    ((perm_inOrder l).trans (h.trans (perm_inOrder l').symm))

/-- What a gate settles to: its members may not repeat, and must be as many as it asks. -/
theorem closeGate_eq_ok_iff {gate : Gate} {members : List PolicyTree} {t : PolicyTree} :
    closeGate gate members = .ok t ↔
      (gate.flatten members).Nodup ∧
      gate.effective ((gate.flatten members).length % 65536) ≤
        (gate.flatten members).length % 65536 ∧
      t = gateOver (gate.effective ((gate.flatten members).length % 65536))
        (inOrder (gate.flatten members)) := by
  have hdestutter := length_destutter_inOrder hwire (gate.flatten members)
  have hlength : (inOrder (gate.flatten members)).length = (gate.flatten members).length :=
    (perm_inOrder _).length_eq
  unfold closeGate
  rw [← inOrder]
  dsimp only
  split
  next hne => simp [hdestutter.not.mp hne]
  next heq =>
    have hnodup := hdestutter.mp (not_not.mp heq)
    have hdistinct : (inOrder (gate.flatten members)).destutter (· ≠ ·) =
        inOrder (gate.flatten members) :=
      (List.destutter_sublist _ _).eq_of_length (not_not.mp heq)
    rw [hdistinct, hlength]
    split
    next hlt => simp [not_le.mpr hlt]
    next hle =>
      simp only [hnodup, not_lt.mp hle, true_and]
      generalize inOrder (gate.flatten members) = sorted
      split
      next member => rw [gateOver, Except.ok.injEq, eq_comm]
      next hmany => rw [gateOver, Except.ok.injEq, eq_comm]; exact hmany

/-- Closing a gate moves no leaf. -/
theorem length_leaves_closeGate {gate : Gate} {members : List PolicyTree} {t : PolicyTree}
    (h : closeGate gate members = .ok t) :
    t.leaves.length = (ThresholdTree.leavesOf members).length := by
  obtain ⟨-, -, rfl⟩ := (closeGate_eq_ok_iff hwire).mp h
  have hover : ∀ k l, (gateOver k l).leaves.length = (ThresholdTree.leavesOf l).length := by
    intro k l
    unfold gateOver
    split
    next member => simp [ThresholdTree.leavesOf]
    next => rfl
  have hperm := (perm_inOrder (gate.flatten members)).flatMap_right ThresholdTree.leaves
  rw [hover, ThresholdTree.leavesOf_eq_flatMap, hperm.length_eq,
    ← ThresholdTree.leavesOf_eq_flatMap, gate.leavesOf_flatten]

/-- **A closed gate is satisfied when its members satisfy the gate.** -/
theorem satisfied_closeGate {gate : Gate} (hgate : gate ≠ .fixed 0) {members : List PolicyTree}
    (hsmall : (gate.flatten members).length < 65536) {t : PolicyTree}
    (h : closeGate gate members = .ok t) (present : Principal → Bool) :
    t.satisfied present =
      decide (gate.effective members.length ≤ members.countP (·.satisfied present)) := by
  obtain ⟨-, hle, rfl⟩ := (closeGate_eq_ok_iff hwire).mp h
  rw [Nat.mod_eq_of_lt hsmall] at hle ⊢
  have hperm := perm_inOrder (gate.flatten members)
  have hover : ∀ k l, (l.length = 1 → k = 1) → (gateOver k l).satisfied present =
      decide (k ≤ l.countP (·.satisfied present)) := by
    intro k l hone
    unfold gateOver
    split
    next member =>
      rw [hone rfl, List.countP_singleton]
      cases member.satisfied present <;> rfl
    next => rw [ThresholdTree.satisfied, ThresholdTree.countSatisfied_eq_countP]
  rw [hover, hperm.countP_eq, decide_eq_decide]
  · exact Gate.effective_flatten
  · -- Over a single member no gate asks for two, and none asks for none.
    intro hone
    rw [hperm.length_eq] at hone
    rw [hone] at hle ⊢
    cases gate with
    | all => rfl
    | any => rfl
    | fixed k =>
        have hpos : k ≠ 0 := fun hzero => hgate (hzero ▸ rfl)
        exact le_antisymm hle (Nat.one_le_iff_ne_zero.mpr hpos)

/-- The members of a closed gate ascend, and so do theirs. -/
theorem ascending_closeGate {gate : Gate} {members : List PolicyTree}
    (hmembers : ∀ t ∈ members, Ascending t) {t : PolicyTree}
    (h : closeGate gate members = .ok t) : Ascending t := by
  obtain ⟨hnodup, -, rfl⟩ := (closeGate_eq_ok_iff hwire).mp h
  have hflat : ∀ t ∈ gate.flatten members, Ascending t := by
    rw [gate.flatten_eq_flatMap]
    refine List.forall_mem_flatMap.mpr fun member hmember => ?_
    exact gate.inlined_cases
      (motive := fun member l => Ascending member → ∀ t ∈ l, Ascending t)
      (fun member h => List.forall_mem_singleton.mpr h)
      (fun k inner _ h => ascendingOf_iff.mp h.2) member (hmembers member hmember)
  have hsorted : ∀ t ∈ inOrder (gate.flatten members), Ascending t :=
    fun t ht => hflat t ((perm_inOrder _).mem_iff.mp ht)
  unfold gateOver
  split
  next member heq => exact hsorted member (heq ▸ List.mem_singleton_self _)
  next => exact ⟨pairwise_lt_inOrder hwire hnodup, ascendingOf_iff.mpr hsorted⟩

/-- A closed gate is at most one deeper than its members. -/
theorem height_closeGate {gate : Gate} {members : List PolicyTree} {n : ℕ}
    (hmembers : ∀ t ∈ members, t.height + 1 ≤ n) {t : PolicyTree}
    (h : closeGate gate members = .ok t) : t.height ≤ n := by
  obtain ⟨-, -, rfl⟩ := (closeGate_eq_ok_iff hwire).mp h
  have hflat : ∀ t ∈ gate.flatten members, t.height + 1 ≤ n := by
    rw [gate.flatten_eq_flatMap]
    refine List.forall_mem_flatMap.mpr fun member hmember => ?_
    exact gate.inlined_cases
      (motive := fun member l => member.height + 1 ≤ n → ∀ t ∈ l, t.height + 1 ≤ n)
      (fun member h => List.forall_mem_singleton.mpr h)
      (fun k inner _ h => ThresholdTree.heightOf_le_iff.mp ((Nat.le_succ _).trans h))
      member (hmembers member hmember)
  have hsorted : ∀ t ∈ inOrder (gate.flatten members), t.height + 1 ≤ n :=
    fun t ht => hflat t ((perm_inOrder _).mem_iff.mp ht)
  unfold gateOver
  split
  next member heq => exact (Nat.le_succ _).trans (hsorted member (heq ▸ List.mem_singleton_self _))
  next => exact ThresholdTree.heightOf_le_iff.mpr hsorted

/-! ## Normalized policies -/

section Pairing

variable {α β : Type} {R : α → β → Prop} {l : List α} {l' : List β}

omit [Postcard PolicyTree] hwire in
theorem countP_eq_of_forall₂ (h : List.Forall₂ R l l') {p : α → Bool} {q : β → Bool}
    (hR : ∀ a b, b ∈ l' → R a b → p a = q b) : l.countP p = l'.countP q := by
  induction h with
  | nil => rfl
  | cons hab _ ih =>
      rw [List.countP_cons, List.countP_cons, hR _ _ List.mem_cons_self hab,
        ih fun a b hb => hR a b (List.mem_cons_of_mem _ hb)]

end Pairing

theorem ascending_of_normalize {policy : OwnershipPolicy} {depth : ℕ} {t : PolicyTree}
    (h : normalize policy depth = .ok t) : Ascending t :=
  normalize_induction (motive := fun _ _ t => Ascending t) (fun _ _ _ => trivial)
    (fun gate members depth reduced t _ _ _ hreduced hclose => by
      refine ascending_closeGate hwire (fun r hr => ?_) hclose
      obtain ⟨-, -, -, hasc⟩ := exists_of_mem_right hreduced hr
      exact hasc) policy h

theorem height_of_normalize {policy : OwnershipPolicy} {depth : ℕ} {t : PolicyTree}
    (h : normalize policy depth = .ok t) : t.height + depth ≤ MAX_DEPTH :=
  normalize_induction (motive := fun _ depth t => t.height + depth ≤ MAX_DEPTH)
    (fun _ depth hdepth => (Nat.zero_add depth).symm ▸ hdepth)
    (fun gate members depth reduced t hdepth _ _ hreduced hclose => by
      have hheight : t.height ≤ MAX_DEPTH - depth := by
        refine height_closeGate hwire (fun r hr => ?_) hclose
        obtain ⟨-, -, -, hr⟩ := exists_of_mem_right hreduced hr
        omega
      omega) policy h

omit [Postcard PolicyTree] hwire in
/-- What members inline to has leaves, and no others than they have. -/
theorem length_flatten_le_leavesOf {gate : Gate} {members : List PolicyTree}
    (hgates : ∀ t ∈ members, t.Gates Loose) :
    (gate.flatten members).length ≤ (ThresholdTree.leavesOf members).length := by
  rw [← gate.leavesOf_flatten]
  refine ThresholdTree.length_le_leavesOf (ThresholdTree.gatesOf_iff.mpr fun t ht => ?_)
  exact (gates_flatten hgates t ht).mono fun _ _ hloose => lt_of_lt_of_le Nat.two_pos hloose.1

omit [Postcard PolicyTree] hwire in
/-- A member has no more leaves than the members together. -/
theorem leaves_le_leavesOf {members : List PolicyTree} {t : PolicyTree} (ht : t ∈ members) :
    t.leaves.length ≤ (ThresholdTree.leavesOf members).length := by
  rw [ThresholdTree.leavesOf_eq_flatMap]
  exact ((List.sublist_flatten_of_mem (List.mem_map_of_mem ht)).length_le :)

/-- **A normalized policy asks what the rule asks.** -/
theorem satisfied_of_normalize {policy : OwnershipPolicy} {depth : ℕ} {t : PolicyTree}
    (h : normalize policy depth = .ok t) (hleaves : t.leaves.length < 65536)
    (present : Principal → Bool) : policy.satisfied present = t.satisfied present :=
  normalize_induction
    (motive := fun policy _ t => t.leaves.length < 65536 →
      policy.satisfied present = t.satisfied present)
    (fun _ _ _ _ => by rw [OwnershipPolicy.satisfied, ThresholdTree.satisfied])
    (fun gate members depth reduced t _ hgate _ hreduced hclose hleaves => by
      have hgates : ∀ r ∈ reduced, r.Gates Loose := fun r hr => by
        obtain ⟨member, -, hmember, -⟩ := exists_of_mem_right hreduced hr
        exact gates_of_normalize member _ hmember
      have hsmall : (gate.flatten reduced).length < 65536 := by
        have hflat : (gate.flatten reduced).length ≤ _ := length_flatten_le_leavesOf hgates
        rw [length_leaves_closeGate hwire hclose] at hleaves
        omega
      rw [Gate.satisfied_policy, satisfied_closeGate hwire hgate hsmall hclose,
        hreduced.length_eq]
      congr 2
      refine countP_eq_of_forall₂ hreduced fun member r hr hmember => ?_
      have hle := leaves_le_leavesOf hr
      rw [← length_leaves_closeGate hwire hclose] at hle
      exact hmember.2 (hle.trans_lt hleaves)) policy h hleaves

end RoundTrips

/-! ## Reducing a canonical policy again -/

mutual

/-- **A policy in normal form normalizes to itself.** -/
theorem normalize_reflect (hwire : Postcard.RoundTrips PolicyTree) {t : PolicyTree}
    (hgates : t.Gates fun k n => Normal k n ∧ n < 65536)
    (hascending : Ascending t) {depth : ℕ} (hdepth : t.height + depth ≤ MAX_DEPTH) :
    normalize (reflect t) depth = .ok t := by
  cases t with
  | leaf principal =>
      exact normalize_key_eq_ok.mpr ⟨(Nat.le_add_left _ _).trans hdepth, rfl⟩
  | threshold k members =>
      obtain ⟨⟨htwo, hone, hle⟩, hsmall⟩ := hgates.1
      have hheight : ∀ t ∈ members, t.height + (depth + 1) ≤ MAX_DEPTH := fun t ht => by
        have hone := ThresholdTree.heightOf_le_iff.mp le_rfl t ht
        rw [ThresholdTree.height] at hdepth
        omega
      have hmembers := normalize_reflectAll hwire hgates.2 hascending.2 hheight
      have hne : members ≠ [] := fun hnil => by simp [hnil] at htwo
      rw [reflect]
      refine (normalize_policy_eq_ok (.fixed k)).mpr
        ⟨(Nat.le_add_left _ _).trans hdepth, ?_, ?_, members, hmembers, ?_⟩
      · rw [reflectAll_eq_map]
        exact fun hnil => hne (List.map_eq_nil_iff.mp hnil)
      · rintro hzero
        cases hzero
        exact absurd hone (by decide)
      · have hnodup : members.Nodup := hascending.1.imp fun hlt heq => hlt.ne (by rw [heq])
        refine (closeGate_eq_ok_iff hwire).mpr ⟨hnodup, ?_, ?_⟩
        · show k ≤ members.length % 65536
          rwa [Nat.mod_eq_of_lt hsmall]
        · show _ = gateOver k (inOrder members)
          rw [inOrder_eq_self hascending.1]
          unfold gateOver
          split
          next member => exact absurd htwo (by rw [List.length_singleton]; decide)
          next => rfl

theorem normalize_reflectAll (hwire : Postcard.RoundTrips PolicyTree) {l : List PolicyTree}
    (hgates : ThresholdTree.GatesOf (fun k n => Normal k n ∧ n < 65536) l)
    (hascending : AscendingOf l) {depth : ℕ} (hdepth : ∀ t ∈ l, t.height + depth ≤ MAX_DEPTH) :
    (reflectAll l).mapM (fun member => normalize member depth) = .ok l := by
  cases l with
  | nil => rfl
  | cons t l =>
      rw [List.forall_mem_cons] at hdepth
      rw [reflectAll, List.mapM_cons, normalize_reflect hwire hgates.1 hascending.1 hdepth.1,
        normalize_reflectAll hwire hgates.2 hascending.2 hdepth.2]
      rfl

end

theorem OwnershipPolicy.canonicalize_eq_ok_iff {policy : OwnershipPolicy}
    {canonical : CanonicalPolicy} :
    policy.canonicalize = .ok canonical ↔ normalize policy 0 = .ok canonical.tree ∧
      canonical.tree.leaves.length ≤ MAX_LEAVES ∧
      (Postcard.toStdvec canonical.tree).length ≤ MAX_ENCODED_BYTES := by
  unfold OwnershipPolicy.canonicalize
  split
  next e herror => simp [herror]
  next t ht =>
    have htree : normalize policy 0 = .ok canonical.tree ↔ t = canonical.tree := by
      rw [ht, Except.ok.injEq]
    rw [htree]
    split
    next hleaves =>
      constructor
      · intro h
        cases h
      · rintro ⟨rfl, h, -⟩
        exact absurd h (not_le.mpr hleaves)
    next hleaves =>
      split
      next hsize =>
        constructor
        · intro h
          cases h
        · rintro ⟨rfl, -, h⟩
          exact absurd h (not_le.mpr hsize)
      next hsize =>
        obtain ⟨tree, hnormal⟩ := canonical
        rw [Except.ok.injEq, CanonicalPolicy.mk.injEq]
        constructor
        · rintro rfl
          exact ⟨rfl, not_lt.mp hleaves, not_lt.mp hsize⟩
        · exact And.left

end Encoded

/-! ## The encoding -/

mutual

/-- Write a policy: a tag, and a key or a threshold over a list. -/
def putPolicy : PolicyTree → List UInt8
  | .leaf principal => 0 :: Wire.bytes.put principal
  | .threshold k members =>
      1 :: (Wire.nat.put k ++ (Wire.nat.put members.length ++ putPolicies members))

/-- Write the members of a gate, one after another. -/
def putPolicies : List PolicyTree → List UInt8
  | [] => []
  | member :: members => putPolicy member ++ putPolicies members

end

/-- Read so many values. -/
def getPolicies (get : List UInt8 → Option (PolicyTree × List UInt8)) :
    ℕ → List UInt8 → Option (List PolicyTree × List UInt8)
  | 0, s => some ([], s)
  | count + 1, s => do
      let (first, s) ← get s
      let (rest, s) ← getPolicies get count s
      return (first :: rest, s)

/-- Read a policy; `fuel` bounds its depth. -/
def getPolicy : ℕ → List UInt8 → Option (PolicyTree × List UInt8)
  | _ + 1, 0 :: s => do
      let (principal, s) ← Wire.bytes.get s
      return (.leaf principal, s)
  | fuel + 1, 1 :: s => do
      let (k, s) ← Wire.nat.get s
      let (count, s) ← Wire.nat.get s
      let (members, s) ← getPolicies (getPolicy fuel) count s
      return (.threshold k members, s)
  | _, _ => none

mutual

theorem getPolicy_putPolicy {t : PolicyTree} {fuel : ℕ} (hfuel : (putPolicy t).length ≤ fuel)
    (rest : List UInt8) : getPolicy fuel (putPolicy t ++ rest) = some (t, rest) := by
  cases t with
  | leaf principal =>
      rw [putPolicy, List.length_cons] at hfuel
      cases fuel with
      | zero => omega
      | succ fuel =>
          rw [putPolicy, List.cons_append, getPolicy, Wire.get_put]
          rfl
  | threshold k members =>
      rw [putPolicy, List.length_cons, List.length_append, List.length_append] at hfuel
      cases fuel with
      | zero => omega
      | succ fuel =>
          have hmembers : getPolicies (getPolicy fuel) members.length
              (putPolicies members ++ rest) = some (members, rest) :=
            getPolicies_putPolicies (by omega) rest
          simp only [putPolicy, List.cons_append, List.append_assoc, getPolicy, Wire.get_put,
            Option.bind_eq_bind, Option.bind_some, hmembers]
          rfl

theorem getPolicies_putPolicies {l : List PolicyTree} {fuel : ℕ}
    (hfuel : (putPolicies l).length ≤ fuel) (rest : List UInt8) :
    getPolicies (getPolicy fuel) l.length (putPolicies l ++ rest) = some (l, rest) := by
  cases l with
  | nil => rfl
  | cons t l =>
      rw [putPolicies, List.length_append] at hfuel
      have hfirst : ∀ rest, getPolicy fuel (putPolicy t ++ rest) = some (t, rest) :=
        getPolicy_putPolicy (by omega)
      have hrest : getPolicies (getPolicy fuel) l.length (putPolicies l ++ rest) =
          some (l, rest) := getPolicies_putPolicies (by omega) rest
      simp only [putPolicies, List.append_assoc, List.length_cons, getPolicies, hfirst,
        Option.bind_eq_bind, Option.bind_some, hrest]
      rfl

end

/-- The wire of canonical policies. -/
def policyWire : Wire PolicyTree where
  put := putPolicy
  get s := getPolicy s.length s
  get_put t rest := getPolicy_putPolicy (by rw [List.length_append]; omega) rest

/-! ## Canonicalization -/

/-- **Canonicalization preserves the rule.**  Where a policy is accepted, the canonical one
is satisfied by the same principals, is in normal form, and canonicalizes to itself. -/
theorem canonicalize_preserves [Postcard PolicyTree] (hwire : Postcard.RoundTrips PolicyTree)
    {policy : OwnershipPolicy} {canonical : CanonicalPolicy}
    (h : policy.canonicalize = .ok canonical) :
    (∀ present, policy.satisfied present = canonical.tree.satisfied present) ∧
      (canonical.tree.Gates Normal ∧ Ascending canonical.tree) ∧
      (reflect canonical.tree).canonicalize = .ok canonical := by
  obtain ⟨hnormalize, hleaves, hsize⟩ := OwnershipPolicy.canonicalize_eq_ok_iff.mp h
  have hfew : canonical.tree.leaves.length < 65536 := by
    unfold MAX_LEAVES at hleaves
    omega
  have hascending := ascending_of_normalize hwire hnormalize
  have hgates : canonical.tree.Gates fun k n => Normal k n ∧ n < 65536 := by
    have hsmall := gates_small (gates_of_normalize _ _ hnormalize) (Nat.le_sub_one_of_lt hfew)
    exact (canonical.normal.and hsmall).mono fun k n hboth =>
      ⟨hboth.1, lt_of_le_of_lt hboth.2 (by decide)⟩
  refine ⟨satisfied_of_normalize hwire hnormalize hfew, ⟨canonical.normal, hascending⟩, ?_⟩
  refine OwnershipPolicy.canonicalize_eq_ok_iff.mpr ⟨?_, hleaves, hsize⟩
  exact normalize_reflect hwire hgates hascending (height_of_normalize hwire hnormalize)

/-- A rule whose first member asks for all of its own is reduced to one gate over three keys. -/
theorem canonicalize_preserves_nested :
    let _ : Postcard PolicyTree := policyWire.postcard
    let policy := OwnershipPolicy.allOf [.allOf [.key ⟨[99]⟩, .key ⟨[98]⟩], .key ⟨[97]⟩]
    ∃ canonical : CanonicalPolicy, policy.canonicalize = .ok canonical ∧
      canonical.tree = .threshold 3 [.leaf ⟨[97]⟩, .leaf ⟨[98]⟩, .leaf ⟨[99]⟩] ∧
      (∀ present, policy.satisfied present = canonical.tree.satisfied present) ∧
        (canonical.tree.Gates Normal ∧ Ascending canonical.tree) ∧
        (reflect canonical.tree).canonicalize = .ok canonical := by
  intro _ policy
  have hinner : normalize (.allOf [.key ⟨[99]⟩, .key ⟨[98]⟩]) 1 =
      .ok (.threshold 2 [.leaf ⟨[98]⟩, .leaf ⟨[99]⟩]) :=
    (normalize_policy_eq_ok .all).mpr ⟨by decide, by simp, by decide, _,
      mapM_eq_ok_iff.mpr (.cons (normalize_key_eq_ok.mpr ⟨by decide, rfl⟩)
        (.cons (normalize_key_eq_ok.mpr ⟨by decide, rfl⟩) .nil)), rfl⟩
  have houter : normalize policy 0 =
      .ok (.threshold 3 [.leaf ⟨[97]⟩, .leaf ⟨[98]⟩, .leaf ⟨[99]⟩]) :=
    (normalize_policy_eq_ok .all).mpr ⟨by decide, by simp, by decide, _,
      mapM_eq_ok_iff.mpr (.cons hinner
        (.cons (normalize_key_eq_ok.mpr ⟨by decide, rfl⟩) .nil)), rfl⟩
  let canonical : CanonicalPolicy :=
    ⟨.threshold 3 [.leaf ⟨[97]⟩, .leaf ⟨[98]⟩, .leaf ⟨[99]⟩],
      ⟨by decide, by decide, by decide⟩, trivial, trivial, trivial, trivial⟩
  have hok : policy.canonicalize = .ok canonical :=
    OwnershipPolicy.canonicalize_eq_ok_iff.mpr ⟨houter, by decide, by decide⟩
  exact ⟨canonical, hok, rfl, canonicalize_preserves policyWire.postcard_roundTrip hok⟩

end Lait.Policy
