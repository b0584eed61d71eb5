import Mathlib

/-!
# Expressions of all and any

An expression over leaves, nested in nodes of two kinds, says the same in whatever
order the children of a node stand and wherever a node stands directly inside one of
its own kind.  `Equivalent` is the least equivalence that forgets just that.

An evaluation that dissolves nested nodes of one kind and then combines the values of
the children in no order is a `fold`; it has a bound on the depth, which counts levels
of the dissolved expression.  `fold_congr` says that it cannot tell equivalent
expressions apart.  `Fits` is the shape such an evaluation may ask for: so many levels,
so many children, no two of them equivalent.
-/

namespace Lait

/-- An expression over leaves. -/
inductive AllAny (α : Type)
  | leaf (a : α)
  | node (isAll : Bool) (children : List (AllAny α))

namespace AllAny

variable {α β γ : Type}

/-! ## Dissolving -/

mutual

/-- What a child of a node of the kind given is dissolved into. -/
def flattenNode (isAll : Bool) : AllAny α → List (AllAny α)
  | leaf a => [leaf a]
  | node kind children => if kind = isAll then flatten isAll children else [node kind children]

/-- The children of a node of the kind given, once those of its own kind are dissolved. -/
def flatten (isAll : Bool) : List (AllAny α) → List (AllAny α)
  | [] => []
  | child :: children => flattenNode isAll child ++ flatten isAll children

end

theorem flatten_eq_flatMap (isAll : Bool) (children : List (AllAny α)) :
    flatten isAll children = children.flatMap (flattenNode isAll) := by
  induction children with
  | nil => rfl
  | cons child children ih => rw [flatten, ih, List.flatMap_cons]

theorem flatten_append (isAll : Bool) (l l' : List (AllAny α)) :
    flatten isAll (l ++ l') = flatten isAll l ++ flatten isAll l' := by
  simp only [flatten_eq_flatMap, List.flatMap_append]

@[simp] theorem flattenNode_same (isAll : Bool) (children : List (AllAny α)) :
    flattenNode isAll (node isAll children) = flatten isAll children := by
  rw [flattenNode, if_pos rfl]

theorem flattenNode_other {isAll kind : Bool} (h : kind ≠ isAll) (children : List (AllAny α)) :
    flattenNode isAll (node kind children) = [node kind children] := by
  rw [flattenNode, if_neg h]

/-- No child of a dissolved node is of its kind. -/
def Dissolved (isAll : Bool) : AllAny α → Prop
  | leaf _ => True
  | node kind _ => kind ≠ isAll

mutual

theorem dissolved_of_mem_flattenNode {isAll : Bool} {t : AllAny α} :
    ∀ s ∈ flattenNode isAll t, Dissolved isAll s := by
  cases t with
  | leaf a =>
      intro s hs
      rw [flattenNode, List.mem_singleton] at hs
      rw [hs]
      trivial
  | node kind children =>
      intro s hs
      rw [flattenNode] at hs
      split at hs
      case isTrue => exact dissolved_of_mem_flatten s hs
      case isFalse hkind =>
        rw [List.mem_singleton.mp hs]
        exact hkind

theorem dissolved_of_mem_flatten {isAll : Bool} {children : List (AllAny α)} :
    ∀ s ∈ flatten isAll children, Dissolved isAll s := by
  cases children with
  | nil => exact fun s hs => absurd hs List.not_mem_nil
  | cons child children =>
      intro s hs
      rw [flatten] at hs
      rcases List.mem_append.mp hs with hs | hs
      · exact dissolved_of_mem_flattenNode s hs
      · exact dissolved_of_mem_flatten s hs

end

/-! ## Equivalence -/

/-- Equal up to the order of children and to nesting of one kind. -/
inductive Equivalent : AllAny α → AllAny α → Prop
  | refl (t : AllAny α) : Equivalent t t
  | symm {t t' : AllAny α} : Equivalent t t' → Equivalent t' t
  | trans {t t' t'' : AllAny α} : Equivalent t t' → Equivalent t' t'' → Equivalent t t''
  /-- Children may stand in any order. -/
  | reorder {kind : Bool} {l l' : List (AllAny α)} : l.Perm l' →
      Equivalent (node kind l) (node kind l')
  /-- A node may give way to its children inside one of its own kind. -/
  | dissolve {kind : Bool} {before inner after : List (AllAny α)} :
      Equivalent (node kind (before ++ node kind inner :: after))
        (node kind (before ++ inner ++ after))
  /-- A child may be replaced by an equivalent one. -/
  | inside {kind : Bool} {before after : List (AllAny α)} {t t' : AllAny α} : Equivalent t t' →
      Equivalent (node kind (before ++ t :: after)) (node kind (before ++ t' :: after))

/-- All children may be replaced at once. -/
theorem Equivalent.children {kind : Bool} {l l' : List (AllAny α)}
    (h : List.Forall₂ Equivalent l l') : Equivalent (node kind l) (node kind l') := by
  have hbehind : ∀ before, Equivalent (node kind (before ++ l)) (node kind (before ++ l')) := by
    induction h with
    | nil => exact fun before => .refl _
    | @cons t t' l l' hhead _ ih =>
        intro before
        have hrest := ih (before ++ [t'])
        rw [List.append_assoc, List.append_assoc] at hrest
        exact (Equivalent.inside hhead).trans hrest
  exact hbehind []

mutual

/-- A child may give way to what it is dissolved into. -/
theorem Equivalent.flattenNode (kind : Bool) (t : AllAny α) (before after : List (AllAny α)) :
    Equivalent (node kind (before ++ t :: after))
      (node kind (before ++ AllAny.flattenNode kind t ++ after)) := by
  cases t with
  | leaf a =>
      rw [AllAny.flattenNode, List.append_assoc]
      exact .refl _
  | node kind' inner =>
      rw [AllAny.flattenNode]
      split
      case isTrue hkind =>
        subst hkind
        exact Equivalent.dissolve.trans (Equivalent.flatten _ inner before after)
      case isFalse =>
        rw [List.append_assoc]
        exact .refl _

/-- A node is equivalent to the dissolved one. -/
theorem Equivalent.flatten (kind : Bool) (l before after : List (AllAny α)) :
    Equivalent (node kind (before ++ l ++ after))
      (node kind (before ++ AllAny.flatten kind l ++ after)) := by
  cases l with
  | nil => exact .refl _
  | cons t l =>
      have hhead := Equivalent.flattenNode kind t before (l ++ after)
      have htail := Equivalent.flatten kind l (before ++ AllAny.flattenNode kind t) after
      rw [AllAny.flatten]
      simp only [List.append_assoc, List.cons_append] at hhead htail ⊢
      exact hhead.trans htail

end

/-- A node is equivalent to the one over its dissolved children. -/
theorem Equivalent.dissolved (kind : Bool) (l : List (AllAny α)) :
    Equivalent (node kind l) (node kind (AllAny.flatten kind l)) := by
  have h := Equivalent.flatten kind l [] []
  simpa using h

/-! ## Leaves -/

mutual

/-- The number of leaves. -/
def leafCount : AllAny α → ℕ
  | leaf _ => 1
  | node _ children => leafCounts children

def leafCounts : List (AllAny α) → ℕ
  | [] => 0
  | child :: children => leafCount child + leafCounts children

end

theorem leafCounts_eq_sum (l : List (AllAny α)) : leafCounts l = (l.map leafCount).sum := by
  induction l with
  | nil => rfl
  | cons t l ih => rw [leafCounts, ih, List.map_cons, List.sum_cons]

theorem leafCounts_append (l l' : List (AllAny α)) :
    leafCounts (l ++ l') = leafCounts l + leafCounts l' := by
  simp only [leafCounts_eq_sum, List.map_append, List.sum_append]

mutual

theorem leafCounts_flattenNode (isAll : Bool) (t : AllAny α) :
    leafCounts (flattenNode isAll t) = leafCount t := by
  cases t with
  | leaf a => rfl
  | node kind children =>
      rw [flattenNode]
      split
      case isTrue => exact leafCounts_flatten isAll children
      case isFalse => rfl

/-- Dissolving keeps every leaf. -/
theorem leafCounts_flatten (isAll : Bool) (l : List (AllAny α)) :
    leafCounts (flatten isAll l) = leafCounts l := by
  cases l with
  | nil => rfl
  | cons t l =>
      rw [flatten, leafCounts_append, leafCounts_flattenNode isAll t, leafCounts_flatten isAll l,
        leafCounts]

end

/-- A dissolved child has no more leaves than its node. -/
theorem leafCount_le_of_mem_flatten {isAll : Bool} {l : List (AllAny α)} {t : AllAny α}
    (ht : t ∈ flatten isAll l) : t.leafCount ≤ leafCounts l := by
  rw [← leafCounts_flatten isAll, leafCounts_eq_sum]
  exact List.single_le_sum (fun _ _ => Nat.zero_le _) _ (List.mem_map_of_mem ht)

/-- Equivalent expressions have the same number of leaves. -/
theorem Equivalent.leafCount_eq {t t' : AllAny α} (h : Equivalent t t') :
    t.leafCount = t'.leafCount := by
  induction h with
  | refl t => rfl
  | symm _ ih => exact ih.symm
  | trans _ _ ih ih' => exact ih.trans ih'
  | reorder hperm =>
      simp only [leafCount, leafCounts_eq_sum]
      exact (hperm.map _).sum_eq
  | dissolve =>
      simp only [leafCount, leafCounts_append, leafCounts]
      omega
  | inside _ ih =>
      simp only [leafCount, leafCounts_append, leafCounts, ih]

mutual

/-- A property of every leaf. -/
def AllLeaves (p : α → Prop) : AllAny α → Prop
  | leaf a => p a
  | node _ children => AllLeavesOf p children

def AllLeavesOf (p : α → Prop) : List (AllAny α) → Prop
  | [] => True
  | child :: children => AllLeaves p child ∧ AllLeavesOf p children

end

theorem allLeavesOf_iff {p : α → Prop} {l : List (AllAny α)} :
    AllLeavesOf p l ↔ ∀ t ∈ l, AllLeaves p t := by
  induction l with
  | nil => simp [AllLeavesOf]
  | cons t l ih => rw [AllLeavesOf, ih, List.forall_mem_cons]

mutual

theorem allLeavesOf_flattenNode {p : α → Prop} {isAll : Bool} {t : AllAny α} :
    AllLeavesOf p (flattenNode isAll t) ↔ AllLeaves p t := by
  cases t with
  | leaf a => simp [flattenNode, AllLeavesOf]
  | node kind children =>
      rw [flattenNode]
      split
      case isTrue => exact allLeavesOf_flatten
      case isFalse => simp [AllLeavesOf]

theorem allLeavesOf_flatten {p : α → Prop} {isAll : Bool} {l : List (AllAny α)} :
    AllLeavesOf p (flatten isAll l) ↔ AllLeavesOf p l := by
  cases l with
  | nil => rfl
  | cons t l =>
      have hhead : AllLeavesOf p (flattenNode isAll t) ↔ AllLeaves p t := allLeavesOf_flattenNode
      have htail : AllLeavesOf p (flatten isAll l) ↔ AllLeavesOf p l := allLeavesOf_flatten
      simp only [allLeavesOf_iff] at hhead htail ⊢
      simp only [flatten, List.forall_mem_append, List.forall_mem_cons, hhead, htail]

end

mutual

/-- Two properties of every leaf give a third one. -/
theorem AllLeaves.combine {p q r : α → Prop} (h : ∀ a, p a → q a → r a) {t : AllAny α}
    (hp : AllLeaves p t) (hq : AllLeaves q t) : AllLeaves r t := by
  cases t with
  | leaf a => exact h a hp hq
  | node kind l => exact AllLeavesOf.combine h hp hq

theorem AllLeavesOf.combine {p q r : α → Prop} (h : ∀ a, p a → q a → r a) {l : List (AllAny α)}
    (hp : AllLeavesOf p l) (hq : AllLeavesOf q l) : AllLeavesOf r l := by
  cases l with
  | nil => trivial
  | cons t l =>
      exact ⟨AllLeaves.combine h hp.1 hq.1, AllLeavesOf.combine h hp.2 hq.2⟩

end

/-! ## Evaluations -/

section Fold

variable (leafValue : α → Option β) (combine : Bool → List β → Option β)

/-- Evaluate a dissolved expression of so many levels: a leaf has a value or none, the
values of the children of a node are combined. -/
def fold : ℕ → AllAny α → Option β
  | 0, _ => none
  | _ + 1, leaf a => leafValue a
  | depth + 1, node kind children =>
      ((flatten kind children).mapM (fold depth)).bind (combine kind)

/-- The values of the elements of a list, in no order. -/
def frame (f : γ → Option β) (l : List γ) : Option (Multiset β) := (l.mapM f).map (↑)

variable {leafValue combine}

/-- Every element has a value, in place. -/
theorem mapM_eq_some_iff {f : γ → Option β} {l : List γ} {bs : List β} :
    l.mapM f = some bs ↔ List.Forall₂ (fun a b => f a = some b) l bs := by
  induction l generalizing bs with
  | nil => simp [pure, eq_comm]
  | cons a l ih =>
      rw [List.mapM_cons, List.forall₂_cons_left_iff]
      constructor
      · intro h
        obtain ⟨b, hb, hrest⟩ := Option.bind_eq_some_iff.mp h
        obtain ⟨rest, hbs, hpure⟩ := Option.bind_eq_some_iff.mp hrest
        cases hpure
        exact ⟨b, rest, hb, ih.mp hbs, rfl⟩
      · rintro ⟨b, rest, hb, hbs, rfl⟩
        exact Option.bind_eq_some_iff.mpr ⟨b, hb,
          Option.bind_eq_some_iff.mpr ⟨rest, ih.mpr hbs, rfl⟩⟩

theorem exists_of_mapM_eq_some {f : γ → Option β} {l : List γ} {bs : List β} (h : l.mapM f = some bs)
    {b : β} (hb : b ∈ bs) : ∃ a ∈ l, f a = some b := by
  have hall := mapM_eq_some_iff.mp h
  induction hall with
  | nil => exact absurd hb List.not_mem_nil
  | @cons a b' l bs hhead htail ih =>
      rcases List.mem_cons.mp hb with rfl | hb
      · exact ⟨a, List.mem_cons_self, hhead⟩
      · obtain ⟨a', ha', hvalue⟩ := ih (mapM_eq_some_iff.mpr htail) hb
        exact ⟨a', List.mem_cons_of_mem _ ha', hvalue⟩

/-- The values of a list are those of its beginning and those of its end. -/
theorem mapM_append_eq_some {f : γ → Option β} {l l' : List γ} {bs : List β} :
    (l ++ l').mapM f = some bs ↔
      ∃ before after, l.mapM f = some before ∧ l'.mapM f = some after ∧ bs = before ++ after := by
  rw [List.mapM_append]
  constructor
  · intro h
    obtain ⟨before, hbefore, hrest⟩ := Option.bind_eq_some_iff.mp h
    obtain ⟨after, hafter, hpure⟩ := Option.bind_eq_some_iff.mp hrest
    exact ⟨before, after, hbefore, hafter, (Option.some.inj hpure).symm⟩
  · rintro ⟨before, after, hbefore, hafter, rfl⟩
    exact Option.bind_eq_some_iff.mpr
      ⟨before, hbefore, Option.bind_eq_some_iff.mpr ⟨after, hafter, rfl⟩⟩

/-- A list has values when each element has one. -/
theorem exists_mapM_eq_some {f : γ → Option β} {l : List γ} (h : ∀ a ∈ l, ∃ b, f a = some b) :
    ∃ bs, l.mapM f = some bs := by
  induction l with
  | nil => exact ⟨[], rfl⟩
  | cons a l ih =>
      obtain ⟨b, hb⟩ := h a List.mem_cons_self
      obtain ⟨bs, hbs⟩ := ih fun a ha => h a (List.mem_cons_of_mem _ ha)
      exact ⟨b :: bs, mapM_eq_some_iff.mpr (.cons hb (mapM_eq_some_iff.mp hbs))⟩

theorem frame_append (f : γ → Option β) (l l' : List γ) :
    frame f (l ++ l') = (frame f l).bind fun s => (frame f l').map (s + ·) := by
  unfold frame
  rw [List.mapM_append]
  cases l.mapM f with
  | none => rfl
  | some bs =>
      cases l'.mapM f with
      | none => rfl
      | some bs' => simp [pure, bind]

theorem frame_cons (f : γ → Option β) (a : γ) (l : List γ) :
    frame f (a :: l) = (f a).bind fun b => (frame f l).map (b ::ₘ ·) := by
  unfold frame
  rw [List.mapM_cons]
  cases f a with
  | none => rfl
  | some b =>
      cases l.mapM f with
      | none => rfl
      | some bs => simp [pure, bind]

theorem frame_perm {f : γ → Option β} {l l' : List γ} (h : l.Perm l') : frame f l = frame f l' := by
  induction h with
  | nil => rfl
  | cons a _ ih => rw [frame_cons, frame_cons, ih]
  | swap a b l =>
      simp only [frame_cons]
      cases f a with
      | none => cases f b <;> rfl
      | some x =>
          cases f b with
          | none => rfl
          | some y =>
              cases frame f l with
              | none => rfl
              | some s => simp [Multiset.cons_swap]
  | trans _ _ ih ih' => exact ih.trans ih'

/-- Values in no order determine what an unordered combination makes of them. -/
theorem bind_combine_of_frame (hperm : ∀ kind l l', l.Perm l' → combine kind l = combine kind l')
    {f : AllAny α → Option β} {kind : Bool} {l l' : List (AllAny α)} (h : frame f l = frame f l') :
    (l.mapM f).bind (combine kind) = (l'.mapM f).bind (combine kind) := by
  unfold frame at h
  cases hl : l.mapM f with
  | none =>
      rw [hl] at h
      cases hl' : l'.mapM f with
      | none => rfl
      | some bs' => simp [hl'] at h
  | some bs =>
      rw [hl] at h
      cases hl' : l'.mapM f with
      | none => simp [hl'] at h
      | some bs' =>
          rw [hl'] at h
          simp only [Option.map_some, Option.some.injEq, Multiset.coe_eq_coe] at h
          exact hperm kind bs bs' h

/-- **An evaluation cannot tell equivalent expressions apart**, when the combination does
not depend on the order: neither on their own nor as children of a node. -/
theorem fold_congr (hperm : ∀ kind l l', l.Perm l' → combine kind l = combine kind l')
    {t t' : AllAny α} (h : Equivalent t t') (depth : ℕ) :
    fold leafValue combine depth t = fold leafValue combine depth t' ∧
      ∀ kind, frame (fold leafValue combine depth) (flattenNode kind t) =
        frame (fold leafValue combine depth) (flattenNode kind t') := by
  -- two nodes agree as soon as the values of their dissolved children do
  have hnode : ∀ {kind : Bool} {l l' : List (AllAny α)},
      (∀ depth, frame (fold leafValue combine depth) (flatten kind l) =
        frame (fold leafValue combine depth) (flatten kind l')) → ∀ depth,
      fold leafValue combine depth (node kind l) = fold leafValue combine depth (node kind l') ∧
        ∀ kind', frame (fold leafValue combine depth) (flattenNode kind' (node kind l)) =
          frame (fold leafValue combine depth) (flattenNode kind' (node kind l')) := by
    intro kind l l' hframe depth
    have hvalue : fold leafValue combine depth (node kind l) =
        fold leafValue combine depth (node kind l') := by
      cases depth with
      | zero => rfl
      | succ depth => exact bind_combine_of_frame hperm (hframe depth)
    refine ⟨hvalue, fun kind' => ?_⟩
    by_cases hkind : kind = kind'
    · subst hkind
      rw [flattenNode_same, flattenNode_same]
      exact hframe depth
    · rw [flattenNode_other hkind, flattenNode_other hkind, frame_cons, frame_cons, hvalue]
  induction h generalizing depth with
  | refl t => exact ⟨rfl, fun _ => rfl⟩
  | symm _ ih => exact ⟨(ih depth).1.symm, fun kind => ((ih depth).2 kind).symm⟩
  | trans _ _ ih ih' =>
      exact ⟨(ih depth).1.trans (ih' depth).1,
        fun kind => ((ih depth).2 kind).trans ((ih' depth).2 kind)⟩
  | reorder hl =>
      refine hnode (fun depth => frame_perm ?_) depth
      rw [flatten_eq_flatMap, flatten_eq_flatMap]
      exact hl.flatMap_right _
  | dissolve =>
      refine hnode (fun depth => ?_) depth
      simp only [flatten_append, flatten, flattenNode_same, List.append_assoc]
  | inside _ ih =>
      refine hnode (fun depth => ?_) depth
      simp only [flatten_append, flatten, frame_append, (ih depth).2]

/-- More levels than needed change nothing. -/
theorem fold_succ {depth : ℕ} {t : AllAny α} {b : β} (h : fold leafValue combine depth t = some b) :
    fold leafValue combine (depth + 1) t = some b := by
  induction depth generalizing t b with
  | zero => cases h
  | succ depth ih =>
      cases t with
      | leaf a => exact h
      | node kind l =>
          obtain ⟨bs, hbs, hcombine⟩ := Option.bind_eq_some_iff.mp h
          have hmore : (flatten kind l).mapM (fold leafValue combine (depth + 1)) = some bs :=
            mapM_eq_some_iff.mpr ((mapM_eq_some_iff.mp hbs).imp fun _ _ => ih)
          exact Option.bind_eq_some_iff.mpr ⟨bs, hmore, hcombine⟩

theorem fold_mono {depth depth' : ℕ} (hle : depth ≤ depth') {t : AllAny α} {b : β}
    (h : fold leafValue combine depth t = some b) : fold leafValue combine depth' t = some b := by
  induction hle with
  | refl => exact h
  | step _ ih => exact fold_succ ih

/-- A part of the values is an evaluation of its own, when it is one of leaves and nodes. -/
theorem fold_map {leafPart : α → Option γ} {combinePart : Bool → List γ → Option γ} {part : β → γ}
    (hleaf : ∀ a, (leafValue a).map part = leafPart a)
    (hcombine : ∀ kind bs, (combine kind bs).map part = combinePart kind (bs.map part))
    (depth : ℕ) (t : AllAny α) :
    (fold leafValue combine depth t).map part = fold leafPart combinePart depth t := by
  induction depth generalizing t with
  | zero => rfl
  | succ depth ih =>
      cases t with
      | leaf a => exact hleaf a
      | node kind l =>
          have hvalues : ∀ ts : List (AllAny α), ts.mapM (fold leafPart combinePart depth) =
              (ts.mapM (fold leafValue combine depth)).map (List.map part) := by
            intro ts
            induction ts with
            | nil => rfl
            | cons t ts ihts =>
                rw [List.mapM_cons, List.mapM_cons, ihts, ← ih t]
                cases fold leafValue combine depth t with
                | none => rfl
                | some b => cases ts.mapM (fold leafValue combine depth) <;> rfl
          rw [fold, fold, hvalues, Option.map_bind, Option.bind_map]
          exact congrArg _ (funext (hcombine kind))

end Fold

/-! ## Formulas -/

mutual

/-- What an expression says of a set of leaves: all of the children of a node, or any. -/
def Holds (p : α → Prop) : AllAny α → Prop
  | leaf a => p a
  | node true children => HoldAll p children
  | node false children => HoldsAny p children

def HoldAll (p : α → Prop) : List (AllAny α) → Prop
  | [] => True
  | child :: children => Holds p child ∧ HoldAll p children

def HoldsAny (p : α → Prop) : List (AllAny α) → Prop
  | [] => False
  | child :: children => Holds p child ∨ HoldsAny p children

end

theorem holdAll_iff {p : α → Prop} {l : List (AllAny α)} : HoldAll p l ↔ ∀ t ∈ l, Holds p t := by
  induction l with
  | nil => simp [HoldAll]
  | cons t l ih => rw [HoldAll, ih, List.forall_mem_cons]

theorem holdsAny_iff {p : α → Prop} {l : List (AllAny α)} : HoldsAny p l ↔ ∃ t ∈ l, Holds p t := by
  induction l with
  | nil => simp [HoldsAny]
  | cons t l ih => rw [HoldsAny, ih, List.exists_mem_cons_iff]

/-- Equivalent expressions say the same. -/
theorem Equivalent.holds_iff {p : α → Prop} {t t' : AllAny α} (h : Equivalent t t') :
    Holds p t ↔ Holds p t' := by
  induction h with
  | refl t => exact Iff.rfl
  | symm _ ih => exact ih.symm
  | trans _ _ ih ih' => exact ih.trans ih'
  | @reorder kind l l' hperm =>
      cases kind with
      | true => simp only [Holds, holdAll_iff, hperm.mem_iff]
      | false => simp only [Holds, holdsAny_iff, hperm.mem_iff]
  | @dissolve kind before inner after =>
      cases kind with
      | true =>
          simp only [Holds, holdAll_iff, List.forall_mem_append, List.forall_mem_cons, and_assoc]
      | false =>
          simp only [Holds, holdsAny_iff, List.mem_append, List.mem_cons, or_and_right, exists_or,
            exists_eq_left, or_assoc]
  | @inside kind before after t t' _ ih =>
      cases kind with
      | true => simp only [Holds, holdAll_iff, List.forall_mem_append, List.forall_mem_cons, ih]
      | false =>
          simp only [Holds, holdsAny_iff, List.mem_append, List.mem_cons, or_and_right, exists_or,
            exists_eq_left, ih]

mutual

/-- An expression of any that holds has something left once it is dissolved. -/
theorem flattenNode_ne_nil {p : α → Prop} {t : AllAny α} (h : Holds p t) :
    flattenNode false t ≠ [] := by
  cases t with
  | leaf a => exact List.cons_ne_nil _ _
  | node kind l =>
      cases kind with
      | true => exact List.cons_ne_nil _ _
      | false =>
          rw [flattenNode_same]
          exact flatten_ne_nil h

theorem flatten_ne_nil {p : α → Prop} {l : List (AllAny α)} (h : HoldsAny p l) :
    flatten false l ≠ [] := by
  cases l with
  | nil => exact absurd h id
  | cons t l =>
      rw [flatten, ne_eq, List.append_eq_nil_iff]
      rintro ⟨hhead, htail⟩
      rcases h with h | h
      · exact flattenNode_ne_nil h hhead
      · exact flatten_ne_nil h htail

end

/-! ## Shape -/

mutual

/-- No node of the kind stands directly inside another one. -/
def Unnested (kind : Bool) : AllAny α → Prop
  | leaf _ => True
  | node outer children => (outer = kind → ∀ t ∈ children, Dissolved kind t) ∧
      UnnestedOf kind children

def UnnestedOf (kind : Bool) : List (AllAny α) → Prop
  | [] => True
  | child :: children => Unnested kind child ∧ UnnestedOf kind children

end

theorem unnestedOf_iff {kind : Bool} {l : List (AllAny α)} :
    UnnestedOf kind l ↔ ∀ t ∈ l, Unnested kind t := by
  induction l with
  | nil => simp [UnnestedOf]
  | cons t l ih => rw [UnnestedOf, ih, List.forall_mem_cons]

/-- Where no child is of the kind, dissolving leaves the children as they are. -/
theorem flatten_of_dissolved {kind : Bool} {l : List (AllAny α)} (h : ∀ t ∈ l, Dissolved kind t) :
    flatten kind l = l := by
  induction l with
  | nil => rfl
  | cons t l ih =>
      have hhead : flattenNode kind t = [t] := by
        have hkind := h t List.mem_cons_self
        cases t with
        | leaf a => rfl
        | node outer children => exact flattenNode_other hkind children
      rw [flatten, hhead, ih fun s hs => h s (List.mem_cons_of_mem _ hs)]
      rfl

mutual

theorem unnested_of_mem_flattenNode {kind isAll : Bool} {t : AllAny α} (h : Unnested kind t) :
    ∀ s ∈ flattenNode isAll t, Unnested kind s := by
  cases t with
  | leaf a =>
      intro s hs
      rw [flattenNode, List.mem_singleton] at hs
      rwa [hs]
  | node outer children =>
      intro s hs
      rw [flattenNode] at hs
      split at hs
      case isTrue => exact unnested_of_mem_flatten h.2 s hs
      case isFalse =>
          rw [List.mem_singleton] at hs
          rwa [hs]

/-- What dissolving leaves is no more nested. -/
theorem unnested_of_mem_flatten {kind isAll : Bool} {l : List (AllAny α)} (h : UnnestedOf kind l) :
    ∀ s ∈ flatten isAll l, Unnested kind s := by
  cases l with
  | nil => exact fun s hs => absurd hs List.not_mem_nil
  | cons t l =>
      intro s hs
      rw [flatten] at hs
      rcases List.mem_append.mp hs with hs | hs
      · exact unnested_of_mem_flattenNode h.1 s hs
      · exact unnested_of_mem_flatten h.2 s hs

end

/-- So many levels, at most `width` children on each node once it is dissolved and at
least one, and no two of them equivalent. -/
def Fits (width : ℕ) : ℕ → AllAny α → Prop
  | 0, _ => False
  | _ + 1, leaf _ => True
  | depth + 1, node kind l =>
      flatten kind l ≠ [] ∧ (flatten kind l).length ≤ width ∧
        (flatten kind l).Pairwise (fun t t' => ¬ Equivalent t t') ∧
        ∀ t ∈ flatten kind l, Fits width depth t

section Weight

variable (leafWeight : α → ℕ) (header link : ℕ)

mutual

/-- The weight of a dissolved expression: that of its leaves, a header for each node and
a link to each child. -/
def weight : AllAny α → ℕ
  | leaf a => leafWeight a
  | node kind l => header + weightsIn kind l

/-- What a child adds to the node it stands in. -/
def weightIn (outer : Bool) : AllAny α → ℕ
  | leaf a => link + leafWeight a
  | node kind l => if kind = outer then weightsIn outer l else link + (header + weightsIn kind l)

def weightsIn (outer : Bool) : List (AllAny α) → ℕ
  | [] => 0
  | t :: l => weightIn outer t + weightsIn outer l

end

variable {leafWeight header link}

mutual

theorem weightIn_eq_sum (outer : Bool) (t : AllAny α) :
    weightIn leafWeight header link outer t =
      ((flattenNode outer t).map fun t => link + weight leafWeight header link t).sum := by
  cases t with
  | leaf a => simp [weightIn, flattenNode, weight]
  | node kind l =>
      rw [weightIn, flattenNode]
      split
      case isTrue => exact weightsIn_eq_sum outer l
      case isFalse => simp [weight]

/-- A node weighs what its dissolved children weigh. -/
theorem weightsIn_eq_sum (outer : Bool) (l : List (AllAny α)) :
    weightsIn leafWeight header link outer l =
      ((flatten outer l).map fun t => link + weight leafWeight header link t).sum := by
  cases l with
  | nil => rfl
  | cons t l =>
      rw [weightsIn, flatten, List.map_append, List.sum_append, weightIn_eq_sum outer t,
        weightsIn_eq_sum outer l]

end

/-- A dissolved child weighs less than its node. -/
theorem weight_le_of_mem_flatten {kind : Bool} {l : List (AllAny α)} {t : AllAny α}
    (ht : t ∈ flatten kind l) :
    weight leafWeight header link t ≤ weight leafWeight header link (node kind l) := by
  have hlink : link + weight leafWeight header link t ≤ weightsIn leafWeight header link kind l := by
    rw [weightsIn_eq_sum]
    exact List.single_le_sum (fun _ _ => Nat.zero_le _) _ (List.mem_map_of_mem ht)
  rw [weight.eq_2]
  omega

end Weight

/-! ## Other leaves -/

section Map

variable (f : α → β)

mutual

/-- The same expression over other leaves. -/
def map : AllAny α → AllAny β
  | leaf a => leaf (f a)
  | node kind l => node kind (maps l)

def maps : List (AllAny α) → List (AllAny β)
  | [] => []
  | t :: l => map t :: maps l

end

theorem maps_eq_map (l : List (AllAny α)) : maps f l = l.map (map f) := by
  induction l with
  | nil => rfl
  | cons t l ih => rw [maps, ih, List.map_cons]

theorem maps_append (l l' : List (AllAny α)) : maps f (l ++ l') = maps f l ++ maps f l' := by
  simp only [maps_eq_map, List.map_append]

mutual

theorem flattenNode_map (isAll : Bool) (t : AllAny α) :
    flattenNode isAll (map f t) = maps f (flattenNode isAll t) := by
  cases t with
  | leaf a => rfl
  | node kind l =>
      rw [map, flattenNode, flattenNode]
      split
      case isTrue => exact flatten_maps isAll l
      case isFalse => rfl

theorem flatten_maps (isAll : Bool) (l : List (AllAny α)) :
    flatten isAll (maps f l) = maps f (flatten isAll l) := by
  cases l with
  | nil => rfl
  | cons t l =>
      rw [maps, flatten, flatten, maps_append, flattenNode_map isAll t, flatten_maps isAll l]

end

variable {f}

theorem Equivalent.map {t t' : AllAny α} (h : Equivalent t t') :
    Equivalent (AllAny.map f t) (AllAny.map f t') := by
  induction h with
  | refl t => exact .refl _
  | symm _ ih => exact ih.symm
  | trans _ _ ih ih' => exact ih.trans ih'
  | reorder hperm =>
      simp only [AllAny.map, maps_eq_map]
      exact .reorder (hperm.map _)
  | dissolve =>
      simp only [AllAny.map, maps_append, maps]
      exact .dissolve
  | inside _ ih =>
      simp only [AllAny.map, maps_append, maps]
      exact .inside ih

mutual

theorem map_map_of_leftInverse {g : β → α} (hg : Function.LeftInverse g f) (t : AllAny α) :
    map g (map f t) = t := by
  cases t with
  | leaf a => rw [map, map, hg a]
  | node kind l => rw [map, map, maps_maps_of_leftInverse hg l]

theorem maps_maps_of_leftInverse {g : β → α} (hg : Function.LeftInverse g f) (l : List (AllAny α)) :
    maps g (maps f l) = l := by
  cases l with
  | nil => rfl
  | cons t l => rw [maps, maps, map_map_of_leftInverse hg t, maps_maps_of_leftInverse hg l]

end

/-- Leaves that can be told apart keep inequivalent expressions apart. -/
theorem equivalent_map_iff {g : β → α} (hg : Function.LeftInverse g f) {t t' : AllAny α} :
    Equivalent (map f t) (map f t') ↔ Equivalent t t' := by
  refine ⟨fun h => ?_, Equivalent.map⟩
  have hback := h.map (f := g)
  rwa [map_map_of_leftInverse hg, map_map_of_leftInverse hg] at hback

/-- The shape does not depend on the leaves, as long as they can be told apart. -/
theorem fits_map_iff {g : β → α} (hg : Function.LeftInverse g f) {width depth : ℕ} {t : AllAny α} :
    Fits width depth (map f t) ↔ Fits width depth t := by
  induction depth generalizing t with
  | zero => rfl
  | succ depth ih =>
      cases t with
      | leaf a => rfl
      | node kind l =>
          rw [map, Fits, Fits, flatten_maps, maps_eq_map, List.length_map, List.forall_mem_map,
            List.pairwise_map, Ne, List.map_eq_nil_iff]
          simp only [equivalent_map_iff hg, ih]

mutual

theorem leafCount_map (t : AllAny α) : leafCount (map f t) = leafCount t := by
  cases t with
  | leaf a => rfl
  | node kind l => exact leafCounts_maps l

theorem leafCounts_maps (l : List (AllAny α)) : leafCounts (maps f l) = leafCounts l := by
  cases l with
  | nil => rfl
  | cons t l => rw [maps, leafCounts, leafCounts, leafCount_map t, leafCounts_maps l]

end

section Weights

variable {leafWeight : β → ℕ} {header link : ℕ}

mutual

theorem weight_map (t : AllAny α) :
    weight leafWeight header link (map f t) = weight (leafWeight ∘ f) header link t := by
  cases t with
  | leaf a => rfl
  | node kind l => rw [map, weight, weight, weightsIn_maps kind l]

theorem weightIn_map (outer : Bool) (t : AllAny α) :
    weightIn leafWeight header link outer (map f t) =
      weightIn (leafWeight ∘ f) header link outer t := by
  cases t with
  | leaf a => rfl
  | node kind l =>
      rw [map, weightIn, weightIn, weightsIn_maps outer l, weightsIn_maps kind l]

theorem weightsIn_maps (outer : Bool) (l : List (AllAny α)) :
    weightsIn leafWeight header link outer (maps f l) =
      weightsIn (leafWeight ∘ f) header link outer l := by
  cases l with
  | nil => rfl
  | cons t l => rw [maps, weightsIn, weightsIn, weightIn_map outer t, weightsIn_maps outer l]

end

end Weights

mutual

theorem allLeaves_map {p : β → Prop} (t : AllAny α) :
    AllLeaves p (map f t) ↔ AllLeaves (p ∘ f) t := by
  cases t with
  | leaf a => rfl
  | node kind l => exact allLeavesOf_maps l

theorem allLeavesOf_maps {p : β → Prop} (l : List (AllAny α)) :
    AllLeavesOf p (maps f l) ↔ AllLeavesOf (p ∘ f) l := by
  cases l with
  | nil => rfl
  | cons t l => rw [maps, AllLeavesOf, AllLeavesOf, allLeaves_map t, allLeavesOf_maps l]

end

end Map

end AllAny

end Lait
