import Lait.Issues.Geometry.Compile

/-!
# The containment forest

The parent column holds the containment relation, since a second parent is refused, and
following it from any node ends at a root, since a parent that comes again is refused.  A
path without repetition is shorter than there are nodes, so the fuel never runs out: of the
check, whose path would be too long, or of the climb, which takes fewer steps.  So the root
of a node is the one node without a container that the node lies below.
-/

namespace Lait.Issues.Geometry

open Lait (Text Crypto)
open Lait.Graph

variable {count : ℕ} {edges : List (Edge count)} {parent : Fin count → Option (Fin count)}
  {dictionary : Fin count → Text}

theorem adopt_eq_ok {first second : Fin count → Option (Fin count)} {edge : Edge count}
    (h : adopt dictionary first edge = .ok second) (a b : Fin count) :
    second b = some a ↔ first b = some a ∨ ⟨a, .contains, b⟩ = edge := by
  obtain ⟨p, kind, c⟩ := edge
  rw [adopt] at h
  split at h
  case isTrue hkind =>
      obtain rfl : kind = .contains := hkind
      split at h
      case isTrue => cases h
      case isFalse hnone =>
          obtain rfl := Except.ok.inj h
          have hnone : first c = none := Option.not_isSome_iff_eq_none.mp hnone
          by_cases hb : b = c
          · subst hb
            simp [hnone, eq_comm]
          · simp [hb]
  case isFalse hkind =>
      obtain rfl := Except.ok.inj h
      have hkind : kind ≠ .contains := hkind
      simp [hkind.symm]

/-- The parent column holds the containment relation. -/
theorem parents_iff (h : parents edges dictionary = .ok parent) (a b : Fin count) :
    parent b = some a ↔ ⟨a, .contains, b⟩ ∈ edges := by
  have hfold : ∀ (edges : List (Edge count)) (first last : Fin count → Option (Fin count)),
      edges.foldlM (adopt dictionary) first = .ok last →
        (last b = some a ↔ first b = some a ∨ ⟨a, .contains, b⟩ ∈ edges) := by
    intro edges
    induction edges with
    | nil =>
        intro first last h
        obtain rfl := Except.ok.inj h
        simp
    | cons edge edges ih =>
        intro first last h
        rw [List.foldlM_cons] at h
        obtain ⟨second, hadopt, hrest⟩ := bind_eq_ok.mp h
        rw [ih second last hrest, adopt_eq_ok hadopt, List.mem_cons, or_assoc]
  simpa using hfold edges _ _ h

/-- Below a parent. -/
def Below (parent : Fin count → Option (Fin count)) (p c : Fin count) : Prop := parent c = some p

/-- A path of parents that does not repeat ends at a root in fewer steps than there are
nodes. -/
theorem traceParents_spec {fuel : ℕ} {path : List (Fin count)} {cursor : Fin count}
    (hnodup : path.Nodup) (hfuel : path.length + fuel = count + 1)
    (h : traceParents parent dictionary fuel path cursor = .ok ()) :
    ∃ n root, Walk (Below parent) n root cursor ∧ parent root = none ∧
      n + path.length < count := by
  have hshort : ∀ nodes : List (Fin count), nodes.Nodup → nodes.length ≤ count := fun nodes h =>
    h.length_le_card.trans (Fintype.card_fin count).le
  fun_induction traceParents parent dictionary fuel path cursor with
  | case1 path cursor =>
      have := hshort path hnodup
      omega
  | case2 => cases h
  | case3 fuel path cursor hfresh hnone =>
      have hlen := hshort (path ++ [cursor])
        (hnodup.append (List.nodup_singleton cursor) (by simpa using hfresh))
      rw [List.length_append, List.length_singleton] at hlen
      exact ⟨0, cursor, .refl cursor, hnone, by omega⟩
  | case4 fuel path cursor hfresh next hnext ih =>
      obtain ⟨n, root, walk, hroot, hlt⟩ := ih
        (hnodup.append (List.nodup_singleton cursor) (by simpa using hfresh))
        (by rw [List.length_append, List.length_singleton]; omega) h
      rw [List.length_append, List.length_singleton] at hlt
      exact ⟨n + 1, root, walk.tail hnext, hroot, by omega⟩

/-- Climbing takes a walk down from a root back to it. -/
theorem climb_root {n fuel depth : ℕ} {root node : Fin count}
    (walk : Walk (Below parent) n root node)
    (hroot : parent root = none) (hfuel : n ≤ fuel) :
    (climb parent fuel depth node).2 = root := by
  induction fuel generalizing n node depth with
  | zero =>
      obtain rfl : n = 0 := Nat.le_zero.mp hfuel
      cases walk
      rfl
  | succ fuel ih =>
      rw [climb]
      cases walk with
      | refl => rw [hroot]
      | tail walk edge =>
          rw [show parent node = some _ from edge]
          exact ih walk (by omega)

/-- A node lies below one root only. -/
theorem Below.root_unique {n m : ℕ} {root other node : Fin count}
    (walk : Walk (Below parent) n root node) (hroot : parent root = none)
    (walk' : Walk (Below parent) m other node) (hother : parent other = none) : root = other := by
  induction n generalizing m node with
  | zero =>
      cases walk
      cases walk' with
      | refl => rfl
      | tail _ edge => exact absurd (hroot.symm.trans edge) (by simp)
  | succ n ih =>
      cases walk with
      | tail walk edge =>
          cases walk' with
          | refl => exact absurd (hother.symm.trans edge) (by simp)
          | tail walk' edge' =>
              obtain rfl := Option.some.inj (Eq.trans (Eq.symm edge) edge')
              exact ih walk walk'

/-- **The root of a node** is the node without a container that it lies below. -/
theorem hierarchyRoot_eq_iff (h : validateParentCycles parent dictionary = .ok ())
    {node root : Fin count} :
    hierarchyRoot parent node = root ↔
      parent root = none ∧ Relation.ReflTransGen (Below parent) root node := by
  have htrace : traceParents parent dictionary (count + 1) [] node = .ok () :=
    forM_eq_ok_iff.mp h node (List.mem_finRange node)
  obtain ⟨n, top, walk, htop, hlt⟩ := traceParents_spec List.nodup_nil (Nat.zero_add _) htrace
  have hclimb : hierarchyRoot parent node = top :=
    climb_root walk htop (by rw [List.length_nil] at hlt; omega)
  rw [hclimb]
  constructor
  · rintro rfl
    exact ⟨htop, walk.reflTransGen⟩
  · rintro ⟨hroot, hreach⟩
    obtain ⟨m, walk'⟩ := exists_walk_of_reflTransGen hreach
    exact Below.root_unique walk htop walk' hroot

end Lait.Issues.Geometry
