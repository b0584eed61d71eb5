import Mathlib

/-!
# Merkle trees, level by level

A list of leaves is hashed to a root by pairing neighbours, over and over, until one
value is left; the last leaf of a level of odd length is promoted as it is.  A
verifier that holds one leaf climbs the same levels with two counters, its own index
and the index of the last leaf, and is handed the values beside its way.

What the verifier carries is left open, because the two verifiers of a log carry
different things: an inclusion carries one hash, an extension two.  A climb is
therefore run on any state, and the two rules `climb_siblings` and `climb_backwards`
move a property of the state up and down the levels.  The first says what a climb
along the true siblings reaches; the second what an accepted climb along *any* path
started from, and it is there that the injectivity of the node hash is spent, once
for each level.
-/

namespace Lait.Merkle

variable {H σ : Type*}

/-! ## Levels -/

section Levels

variable (node : H → H → H)

/-- The level above: neighbours are paired, a last leaf without one is promoted. -/
def pairUp : List H → List H
  | a :: b :: l => node a b :: pairUp l
  | [a] => [a]
  | [] => []

@[simp] theorem length_pairUp (l : List H) : (pairUp node l).length = (l.length + 1) / 2 := by
  fun_induction pairUp node l with
  | case1 a b l ih =>
      simp only [List.length_cons, ih]
      omega
  | case2 a => simp
  | case3 => simp

/-- The one value left when there is nothing more to pair. -/
def rise : List H → Option H
  | [] => none
  | [a] => some a
  | a :: b :: l => rise (pairUp node (a :: b :: l))
termination_by l => l.length
decreasing_by
  simp only [length_pairUp, List.length_cons]
  omega

/-- The leaf beside an index: the other half of its pair. -/
def beside (i : ℕ) (l : List H) : Option H := if i % 2 = 1 then l[i - 1]? else l[i + 1]?

/-- The values beside the way up from an index. -/
def siblings (i : ℕ) (l : List H) : List H :=
  if l.length ≤ 1 then [] else (beside i l).toList ++ siblings (i / 2) (pairUp node l)
termination_by l.length
decreasing_by
  rw [length_pairUp]
  omega

/-- Pairing respects a cut at an even place. -/
theorem pairUp_append {l : List H} (hl : l.length % 2 = 0) (l' : List H) :
    pairUp node (l ++ l') = pairUp node l ++ pairUp node l' := by
  fun_induction pairUp node l with
  | case1 a b l ih =>
      have heven : l.length % 2 = 0 := by
        simp only [List.length_cons] at hl
        omega
      rw [List.cons_append, List.cons_append, pairUp, ih heven, List.cons_append]
  | case2 a => simp at hl
  | case3 => rfl

/-- The beginning of a level lies under the beginning of the one above. -/
theorem pairUp_take {l : List H} {m : ℕ} (hm : m % 2 = 0) (hle : m ≤ l.length) :
    pairUp node (l.take m) = (pairUp node l).take (m / 2) := by
  have hlen : (l.take m).length = m := List.length_take_of_le hle
  have hcut : pairUp node l = pairUp node (l.take m) ++ pairUp node (l.drop m) := by
    rw [← pairUp_append node (by omega), List.take_append_drop]
  have hhalf : (pairUp node (l.take m)).length = m / 2 := by
    rw [length_pairUp]
    omega
  rw [hcut, List.take_append_of_le_length hhalf.ge, List.take_of_length_le hhalf.le]

/-- A pair stands above its two halves. -/
theorem getElem?_pairUp_pair {l : List H} {j : ℕ} {a b : H} (ha : l[2 * j]? = some a)
    (hb : l[2 * j + 1]? = some b) : (pairUp node l)[j]? = some (node a b) := by
  fun_induction pairUp node l generalizing j with
  | case1 x y l ih =>
      cases j with
      | zero => simp_all
      | succ j =>
          rw [List.getElem?_cons_succ]
          exact ih (by simpa [Nat.mul_add] using ha) (by simpa [Nat.mul_add] using hb)
  | case2 x => simp at hb
  | case3 => simp at ha

/-- A promoted leaf stands above itself. -/
theorem getElem?_pairUp_last {l : List H} {j : ℕ} (hlen : l.length = 2 * j + 1) :
    (pairUp node l)[j]? = l[2 * j]? := by
  fun_induction pairUp node l generalizing j with
  | case1 x y l ih =>
      cases j with
      | zero => simp at hlen
      | succ j =>
          rw [List.getElem?_cons_succ, ih (by simp only [List.length_cons] at hlen; omega)]
          simp [Nat.mul_add]
  | case2 x =>
      have hj : j = 0 := by
        simp only [List.length_singleton] at hlen
        omega
      subst hj
      rfl
  | case3 => simp at hlen

/-- A level determines the one below, once its length is known. -/
theorem pairUp_injective (hnode : Function.Injective2 node) {l l' : List H}
    (hlen : l.length = l'.length) (h : pairUp node l = pairUp node l') : l = l' := by
  fun_induction pairUp node l generalizing l' with
  | case1 a b l ih =>
      rcases l' with _ | ⟨a', _ | ⟨b', l'⟩⟩
      · simp at hlen
      · simp at hlen
      · obtain ⟨hhead, htail⟩ := List.cons.inj h
        obtain ⟨rfl, rfl⟩ := hnode hhead
        rw [ih (by simpa using hlen) htail]
  | case2 a =>
      rcases l' with _ | ⟨a', _ | ⟨b', l'⟩⟩
      · simp at hlen
      · simpa [pairUp] using h
      · simp at hlen
  | case3 => exact (List.length_eq_zero_iff.mp hlen.symm).symm

@[simp] theorem rise_singleton (a : H) : rise node [a] = some a := by rw [rise]

/-- A level rises to what the one above it rises to. -/
theorem rise_pairUp (l : List H) : rise node (pairUp node l) = rise node l := by
  rcases l with _ | ⟨a, _ | ⟨b, l⟩⟩
  · rfl
  · rfl
  · conv_rhs => rw [rise]

theorem siblings_of_length_le {l : List H} (h : l.length ≤ 1) (i : ℕ) : siblings node i l = [] := by
  rw [siblings, if_pos h]

theorem siblings_of_lt_length {l : List H} (h : 1 < l.length) (i : ℕ) :
    siblings node i l = (beside i l).toList ++ siblings node (i / 2) (pairUp node l) := by
  rw [siblings, if_neg (by omega)]

/-- One level of the way up, also where it is the last. -/
theorem siblings_step {l : List H} {i : ℕ} (hi : i < l.length) :
    siblings node i l = (beside i l).toList ++ siblings node (i / 2) (pairUp node l) := by
  by_cases hlong : 1 < l.length
  · exact siblings_of_lt_length node hlong i
  · obtain ⟨a, rfl⟩ : ∃ a, l = [a] := List.length_eq_one_iff.mp (by omega)
    obtain rfl : i = 0 := by simpa using hi
    rw [siblings_of_length_le node (by simp), siblings_of_length_le node (by simp [pairUp])]
    rfl

/-- **Induction over the levels**: a property of lists that comes down from the level
above holds of every list. -/
theorem level_induction {P : List H → Prop} (short : ∀ l, l.length ≤ 1 → P l)
    (down : ∀ l, 1 < l.length → P (pairUp node l) → P l) (l : List H) : P l := by
  induction hn : l.length using Nat.strong_induction_on generalizing l with
  | _ n ih =>
      by_cases hshort : l.length ≤ 1
      · exact short l hshort
      · refine down l (by omega) (ih (pairUp node l).length ?_ _ rfl)
        rw [length_pairUp]
        omega

/-- Lists of one length that rise to one value are equal. -/
theorem rise_injective (hnode : Function.Injective2 node) {l l' : List H}
    (hlen : l.length = l'.length) (h : rise node l = rise node l') : l = l' := by
  induction l using level_induction node generalizing l' with
  | short l hshort =>
      rcases l with _ | ⟨a, _ | ⟨b, l⟩⟩
      · exact (List.length_eq_zero_iff.mp hlen.symm).symm
      · obtain ⟨a', rfl⟩ := List.length_eq_one_iff.mp hlen.symm
        simpa using h
      · simp at hshort
  | down l hlong ih =>
      refine pairUp_injective node hnode hlen (ih ?_ ?_)
      · rw [length_pairUp, length_pairUp, hlen]
      · rw [rise_pairUp, rise_pairUp, h]

/-- A way up passes at most one value on each level. -/
theorem length_siblings_le {d : ℕ} (i : ℕ) {l : List H} (h : l.length ≤ 2 ^ d) :
    (siblings node i l).length ≤ d := by
  induction d generalizing i l with
  | zero =>
      rw [siblings_of_length_le node (by simpa using h)]
      exact Nat.zero_le _
  | succ d ih =>
      by_cases hshort : l.length ≤ 1
      · rw [siblings_of_length_le node hshort]
        exact Nat.zero_le _
      · have habove : (siblings node (i / 2) (pairUp node l)).length ≤ d := by
          refine ih _ ?_
          rw [length_pairUp]
          rw [pow_succ] at h
          omega
        have hone : (beside i l).toList.length ≤ 1 := by cases beside i l <;> simp
        rw [siblings_of_lt_length node (by omega), List.length_append]
        omega

end Levels

/-! ## Climbing -/

/-- A climb from index `i` on a level whose last index is `s`, along a path: a value
on the left of an odd index, one on the right of an even index that is not the last,
none beside an even last index. -/
def climb (left right : H → σ → σ) (i s : ℕ) (r : σ) (path : List H) : Option σ :=
  if s = 0 then
    match path with
    | [] => some r
    | _ :: _ => none
  else if i % 2 = 0 ∧ i = s then climb left right (i / 2) (s / 2) r path
  else
    match path with
    | [] => none
    | p :: path => climb left right (i / 2) (s / 2) (if i % 2 = 1 then left p r else right p r) path
termination_by s

section Climb

variable {left right : H → σ → σ} {i s : ℕ} {r : σ} {p : H} {path : List H}

@[simp] theorem climb_top : climb left right i 0 r [] = some r := by rw [climb.eq_def, if_pos rfl]

theorem climb_top_eq_some {r' : σ} :
    climb left right i 0 r path = some r' ↔ path = [] ∧ r' = r := by
  rw [climb.eq_def, if_pos rfl]
  cases path with
  | nil => simp [eq_comm]
  | cons p path => simp

/-- A last index without a neighbour goes up as it is. -/
theorem climb_promoted (hs : s ≠ 0) (hi : i % 2 = 0) (his : i = s) :
    climb left right i s r path = climb left right (i / 2) (s / 2) r path := by
  rw [climb.eq_def, if_neg hs, if_pos ⟨hi, his⟩]

/-- An odd index takes the value on its left. -/
theorem climb_left (hs : s ≠ 0) (hi : i % 2 = 1) :
    climb left right i s r (p :: path) = climb left right (i / 2) (s / 2) (left p r) path := by
  rw [climb.eq_def, if_neg hs, if_neg fun h => by omega]
  simp only [hi, if_true]

/-- An even index that is not the last takes the value on its right. -/
theorem climb_right (hs : s ≠ 0) (hi : i % 2 = 0) (his : i ≠ s) :
    climb left right i s r (p :: path) = climb left right (i / 2) (s / 2) (right p r) path := by
  rw [climb.eq_def, if_neg hs, if_neg fun h => his h.2]
  simp only [hi, if_neg (by decide : ¬ 0 = 1)]

/-- A path that ends below the top reaches nothing. -/
theorem climb_nil (hs : s ≠ 0) (hi : ¬ (i % 2 = 0 ∧ i = s)) :
    climb left right i s r [] = none := by
  rw [climb.eq_def, if_neg hs, if_neg hi]

end Climb

/-! ## The two rules -/

section Rules

variable {node : H → H → H} {left right : H → σ → σ}

/-- **A climb along the true siblings** takes a property of the state from the level
it starts on to the top, when each of the three steps takes it one level up. -/
theorem climb_siblings (node : H → H → H) (left right : H → σ → σ) (P : ℕ → List H → σ → Prop)
    (hleft : ∀ j l r a, l[2 * j]? = some a → 2 * j + 1 < l.length →
      P (2 * j + 1) l r → P j (pairUp node l) (left a r))
    (hright : ∀ j l r a, l[2 * j + 1]? = some a → P (2 * j) l r →
      P j (pairUp node l) (right a r))
    (hup : ∀ j l r, l.length = 2 * j + 1 → P (2 * j) l r → P j (pairUp node l) r)
    {i : ℕ} {l : List H} {r : σ} (hi : i < l.length) (hP : P i l r) :
    ∃ a r', rise node l = some a ∧
      climb left right i (l.length - 1) r (siblings node i l) = some r' ∧ P 0 [a] r' := by
  induction l using level_induction node generalizing i r with
  | short l hshort =>
      obtain ⟨a, rfl⟩ : ∃ a, l = [a] := List.length_eq_one_iff.mp (by omega)
      obtain rfl : i = 0 := by simpa using hi
      refine ⟨a, r, rise_singleton node a, ?_, hP⟩
      rw [siblings_of_length_le node hshort]
      exact climb_top
  | down l hlong ih =>
      have hs : l.length - 1 ≠ 0 := by omega
      have habove : i / 2 < (pairUp node l).length := by
        rw [length_pairUp]
        omega
      have hlast : (l.length - 1) / 2 = (pairUp node l).length - 1 := by
        rw [length_pairUp]
        omega
      rw [siblings_of_lt_length node hlong, ← rise_pairUp, beside]
      rcases Nat.even_or_odd' i with ⟨j, rfl | rfl⟩
      · have hj : 2 * j / 2 = j := by omega
        rw [hj] at habove ⊢
        rw [if_neg (by omega)]
        by_cases hlen : l.length = 2 * j + 1
        · -- the last leaf has nothing beside it
          rw [List.getElem?_eq_none (by omega), climb_promoted hs (by omega) (by omega), hj, hlast]
          exact ih habove (hup j l r hlen hP)
        · have hnext : 2 * j + 1 < l.length := by omega
          rw [List.getElem?_eq_getElem hnext]
          show ∃ a r', _ ∧ climb _ _ _ _ _ (_ :: _) = some r' ∧ _
          rw [climb_right hs (by omega) (by omega), hj, hlast]
          exact ih habove (hright j l r _ (List.getElem?_eq_getElem hnext) hP)
      · have hj : (2 * j + 1) / 2 = j := by omega
        have hbefore : 2 * j < l.length := by omega
        rw [hj] at habove ⊢
        rw [if_pos (by omega), Nat.add_sub_cancel, List.getElem?_eq_getElem hbefore]
        show ∃ a r', _ ∧ climb _ _ _ _ _ (_ :: _) = some r' ∧ _
        rw [climb_left hs (by omega), hj, hlast]
        exact ih habove (hleft j l r _ (List.getElem?_eq_getElem hbefore) hi hP)

/-- **An accepted climb, backwards**: what holds at the top held where the climb
started, along whatever path it went, when each of the three steps takes it one level
down. -/
theorem climb_backwards (node : H → H → H) (left right : H → σ → σ) (P : ℕ → List H → σ → Prop)
    (hleft : ∀ j l r a, 2 * j + 1 < l.length → P j (pairUp node l) (left a r) → P (2 * j + 1) l r)
    (hright : ∀ j l r a, 2 * j + 1 < l.length → P j (pairUp node l) (right a r) → P (2 * j) l r)
    (hup : ∀ j l r, l.length = 2 * j + 1 → P j (pairUp node l) r → P (2 * j) l r)
    {i : ℕ} {l : List H} {r r' : σ} {path : List H} (hi : i < l.length)
    (hclimb : climb left right i (l.length - 1) r path = some r')
    (htop : ∀ a, rise node l = some a → P 0 [a] r') : P i l r := by
  induction l using level_induction node generalizing i r path with
  | short l hshort =>
      obtain ⟨a, rfl⟩ : ∃ a, l = [a] := List.length_eq_one_iff.mp (by omega)
      obtain rfl : i = 0 := by simpa using hi
      obtain ⟨-, rfl⟩ := climb_top_eq_some.mp hclimb
      exact htop a (rise_singleton node a)
  | down l hlong ih =>
      have hs : l.length - 1 ≠ 0 := by omega
      have habove : i / 2 < (pairUp node l).length := by
        rw [length_pairUp]
        omega
      have hlast : (l.length - 1) / 2 = (pairUp node l).length - 1 := by
        rw [length_pairUp]
        omega
      rw [← rise_pairUp] at htop
      rcases Nat.even_or_odd' i with ⟨j, rfl | rfl⟩
      · have hj : 2 * j / 2 = j := by omega
        rw [hj] at habove
        by_cases hlen : l.length = 2 * j + 1
        · rw [climb_promoted hs (by omega) (by omega), hj, hlast] at hclimb
          exact hup j l r hlen (ih habove hclimb htop)
        · cases path with
          | nil =>
              rw [climb_nil hs fun h => by omega] at hclimb
              cases hclimb
          | cons a path =>
              rw [climb_right hs (by omega) (by omega), hj, hlast] at hclimb
              exact hright j l r a (by omega) (ih habove hclimb htop)
      · have hj : (2 * j + 1) / 2 = j := by omega
        rw [hj] at habove
        cases path with
        | nil =>
            rw [climb_nil hs fun h => by omega] at hclimb
            cases hclimb
        | cons a path =>
            rw [climb_left hs (by omega), hj, hlast] at hclimb
            exact hleft j l r a hi (ih habove hclimb htop)

end Rules

end Lait.Merkle
