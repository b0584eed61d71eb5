import Lait.Fallible
import Lait.Chronicle.Tree

/-!
# An entry proves its place

The prover's recursion over splits and the verifier's walk over levels meet on the
levels.  Splitting and pairing commute once there are three leaves, because the split
is then at an even place (`pairUp_leftOf`, `pairUp_rightOf`); so a root is the root of
the level above (`subtreeRoot_pairUp`), and a split's path is the path by levels
(`auditPath_eq_siblings`).  The verifier skips the levels on which its leaf is promoted
in one inner loop, which is what climbing them one at a time amounts to
(`walkPath_eq_ok_iff`).
-/

namespace Lait.Chronicle

open Merkle

variable {H : Type}

/-! ## Splits and levels -/

section Halves

variable (node : H → H → H) {leaves : List H}

theorem pairUp_leftOf (h : 3 ≤ leaves.length) :
    pairUp node (leftOf leaves) = leftOf (pairUp node leaves) := by
  have hhalf := splitPoint_half h
  have hlt := splitPoint_lt (show 2 ≤ leaves.length by omega)
  rw [leftOf, leftOf, pairUp_take node (by omega) hlt.le, length_pairUp, hhalf,
    Nat.mul_div_cancel_left _ two_pos]

theorem pairUp_rightOf (h : 3 ≤ leaves.length) :
    pairUp node (rightOf leaves) = rightOf (pairUp node leaves) := by
  have hhalf := splitPoint_half h
  have heven : (leftOf leaves).length % 2 = 0 := by
    rw [length_leftOf (by omega)]
    omega
  have hcut : pairUp node leaves = pairUp node (leftOf leaves) ++ pairUp node (rightOf leaves) := by
    rw [← pairUp_append node heven, leftOf_append_rightOf]
  rw [pairUp_leftOf node h] at hcut
  exact List.append_cancel_left (hcut.symm.trans leftOf_append_rightOf.symm)

end Halves

variable [Digests H] {leaves : List H}

@[simp] theorem subtreeRoot_singleton (leaf : H) : subtreeRoot [leaf] = leaf := by
  rw [subtreeRoot]

theorem subtreeRoot_split (h : 2 ≤ leaves.length) :
    subtreeRoot leaves = nodeHash (subtreeRoot (leftOf leaves)) (subtreeRoot (rightOf leaves)) := by
  rcases leaves with _ | ⟨a, _ | ⟨b, rest⟩⟩
  · simp at h
  · simp at h
  · rw [subtreeRoot]

/-- **The root of a level** is the root of the level above it. -/
theorem subtreeRoot_pairUp (leaves : List H) :
    subtreeRoot (pairUp nodeHash leaves) = subtreeRoot leaves := by
  induction hn : leaves.length using Nat.strong_induction_on generalizing leaves with
  | _ n ih =>
      subst hn
      by_cases hthree : 3 ≤ leaves.length
      · have habove : 2 ≤ (pairUp nodeHash leaves).length := by
          rw [length_pairUp]
          omega
        rw [subtreeRoot_split habove, ← pairUp_leftOf nodeHash hthree,
          ← pairUp_rightOf nodeHash hthree, ih _ (length_leftOf_lt (by omega)) _ rfl,
          ih _ (length_rightOf_lt (by omega)) _ rfl, ← subtreeRoot_split (by omega)]
      · -- below three leaves the split is the pair
        rcases leaves with _ | ⟨a, _ | ⟨b, _ | ⟨c, rest⟩⟩⟩
        · rfl
        · rfl
        · rw [subtreeRoot_split (show 2 ≤ [a, b].length by simp)]
          show subtreeRoot [nodeHash a b] = nodeHash (subtreeRoot [a]) (subtreeRoot [b])
          simp only [subtreeRoot_singleton]
        · simp at hthree

/-- The recursion over splits computes the root of the levels. -/
theorem rise_eq_subtreeRoot (h : 0 < leaves.length) :
    rise nodeHash leaves = some (subtreeRoot leaves) := by
  induction leaves using level_induction (nodeHash : H → H → H) with
  | short leaves hshort =>
      obtain ⟨leaf, rfl⟩ : ∃ leaf, leaves = [leaf] := List.length_eq_one_iff.mp (by omega)
      rw [rise_singleton, subtreeRoot_singleton]
  | down leaves hlong ih =>
      have habove : 0 < (pairUp nodeHash leaves).length := by
        rw [length_pairUp]
        omega
      rw [← rise_pairUp, ih habove, subtreeRoot_pairUp]

/-- Leaf lists of one length under one root are equal. -/
theorem subtreeRoot_injective (hnode : Function.Injective2 (nodeHash (H := H)))
    {leaves leaves' : List H} (hlen : leaves.length = leaves'.length)
    (h : subtreeRoot leaves = subtreeRoot leaves') : leaves = leaves' := by
  by_cases hpos : 0 < leaves.length
  · refine rise_injective nodeHash hnode hlen ?_
    rw [rise_eq_subtreeRoot hpos, rise_eq_subtreeRoot (hlen ▸ hpos), h]
  · rw [List.length_eq_zero_iff.mp (show leaves.length = 0 by omega),
      List.length_eq_zero_iff.mp (show leaves'.length = 0 by omega)]

/-! ## The path by splits and by levels -/

/-- In the left half, the way up is the half's own and then the right half's root. -/
theorem siblings_leftOf {i : ℕ} (h : 2 ≤ leaves.length) (hi : i < (leftOf leaves).length) :
    siblings nodeHash i leaves =
      siblings nodeHash i (leftOf leaves) ++ [subtreeRoot (rightOf leaves)] := by
  induction leaves using level_induction (nodeHash : H → H → H) generalizing i with
  | short leaves hshort => omega
  | down leaves hlong ih =>
      have hall := hi.trans (length_leftOf_lt h)
      by_cases hthree : 3 ≤ leaves.length
      · have hhalf := splitPoint_half hthree
        have hlen := length_leftOf h
        have habove : i / 2 < (leftOf (pairUp nodeHash leaves)).length := by
          rw [← pairUp_leftOf nodeHash hthree, length_pairUp]
          omega
        have hbeside : beside i (leftOf leaves) = beside i leaves := by
          unfold beside leftOf
          split
          · rw [List.getElem?_take_of_lt (by omega)]
          · rw [List.getElem?_take_of_lt (by omega)]
        rw [siblings_step nodeHash hall, siblings_step nodeHash hi, hbeside,
          ih (by rw [length_pairUp]; omega) habove, ← pairUp_leftOf nodeHash hthree,
          ← pairUp_rightOf nodeHash hthree, subtreeRoot_pairUp, List.append_assoc]
      · obtain ⟨a, b, rfl⟩ := List.length_eq_two.mp (show leaves.length = 2 by omega)
        obtain rfl : i = 0 := by
          rw [length_leftOf h] at hi
          simpa [splitPoint_eq] using hi
        show siblings nodeHash 0 [a, b] = siblings nodeHash 0 [a] ++ [subtreeRoot [b]]
        rw [siblings_step nodeHash hall, siblings_of_length_le nodeHash (by simp [pairUp]),
          siblings_of_length_le nodeHash (by simp), subtreeRoot_singleton]
        rfl

/-- In the right half, it is the half's own and then the left half's root. -/
theorem siblings_rightOf {i : ℕ} (h : 2 ≤ leaves.length) (hi : i < leaves.length)
    (hleft : (leftOf leaves).length ≤ i) :
    siblings nodeHash i leaves =
      siblings nodeHash (i - (leftOf leaves).length) (rightOf leaves) ++
        [subtreeRoot (leftOf leaves)] := by
  induction leaves using level_induction (nodeHash : H → H → H) generalizing i with
  | short leaves hshort => omega
  | down leaves hlong ih =>
      have hlen := length_leftOf h
      have hright : (rightOf leaves).length = leaves.length - splitPoint leaves.length :=
        length_rightOf
      by_cases hthree : 3 ≤ leaves.length
      · have hhalf := splitPoint_half hthree
        have hpaired : (leftOf (pairUp nodeHash leaves)).length = (leftOf leaves).length / 2 := by
          rw [← pairUp_leftOf nodeHash hthree, length_pairUp]
          omega
        have hbeside : beside (i - (leftOf leaves).length) (rightOf leaves) = beside i leaves := by
          unfold beside rightOf
          rw [List.getElem?_drop, List.getElem?_drop, hlen]
          split
          case isTrue hodd =>
            rw [if_pos (by omega)]
            congr 1
            omega
          case isFalse heven =>
            rw [if_neg (by omega)]
            congr 1
            omega
        have habove : i / 2 < (pairUp nodeHash leaves).length := by
          rw [length_pairUp]
          omega
        have hplace : (i - (leftOf leaves).length) / 2 = i / 2 - (leftOf leaves).length / 2 := by
          omega
        rw [siblings_step nodeHash hi, siblings_step nodeHash (i := i - (leftOf leaves).length)
            (by omega), hbeside, hplace, ih (by rw [length_pairUp]; omega) habove (by omega),
          hpaired, ← pairUp_leftOf nodeHash hthree, ← pairUp_rightOf nodeHash hthree,
          subtreeRoot_pairUp, List.append_assoc]
      · obtain ⟨a, b, rfl⟩ := List.length_eq_two.mp (show leaves.length = 2 by omega)
        obtain rfl : i = 1 := by
          have hone : splitPoint [a, b].length = 1 := by simp [splitPoint_eq]
          simp only [List.length_cons, List.length_nil] at hi
          omega
        show siblings nodeHash 1 [a, b] = siblings nodeHash 0 [b] ++ [subtreeRoot [a]]
        rw [siblings_step nodeHash hi, siblings_of_length_le nodeHash (by simp [pairUp]),
          siblings_of_length_le nodeHash (by simp), subtreeRoot_singleton]
        rfl

theorem auditPath_left {i : ℕ} (h : 2 ≤ leaves.length) (hin : i < (leftOf leaves).length) :
    auditPath i leaves = auditPath i (leftOf leaves) ++ [subtreeRoot (rightOf leaves)] := by
  rw [auditPath, if_neg (by omega), if_pos hin]

theorem auditPath_right {i : ℕ} (h : 2 ≤ leaves.length) (hout : (leftOf leaves).length ≤ i) :
    auditPath i leaves =
      auditPath (i - (leftOf leaves).length) (rightOf leaves) ++ [subtreeRoot (leftOf leaves)] := by
  rw [auditPath, if_neg (by omega), if_neg (by omega)]

/-- **The inclusion path** of an index is its way up the levels. -/
theorem auditPath_eq_siblings {i : ℕ} (hi : i < leaves.length) :
    auditPath i leaves = siblings nodeHash i leaves := by
  induction hn : leaves.length using Nat.strong_induction_on generalizing leaves i with
  | _ n ih =>
      subst hn
      by_cases htwo : 2 ≤ leaves.length
      · by_cases hin : i < (leftOf leaves).length
        · rw [auditPath_left htwo hin, siblings_leftOf htwo hin,
            ih _ (length_leftOf_lt htwo) hin rfl]
        · have hlen := length_leftOf htwo
          have hplace : i - (leftOf leaves).length < (rightOf leaves).length := by
            rw [length_rightOf]
            omega
          rw [auditPath_right htwo (by omega), siblings_rightOf htwo hi (by omega),
            ih _ (length_rightOf_lt htwo) hplace rfl]
      · rw [auditPath, if_pos (by omega), siblings_of_length_le nodeHash (by omega)]

/-- An inclusion path of a chronicle within its bound is within the bound of a proof. -/
theorem length_auditPath_le {i : ℕ} (hi : i < leaves.length)
    (hbound : leaves.length ≤ MAX_CHRONICLE_ENTRIES) :
    (auditPath i leaves).length ≤ MAX_PROOF_HASHES := by
  have hdepth : (siblings nodeHash i leaves).length ≤ 20 := length_siblings_le nodeHash i hbound
  rw [auditPath_eq_siblings hi]
  exact hdepth.trans (by decide)

/-! ## The verifiers' loop -/

section Walk

omit [Digests H]

variable {σ : Type} {left right : H → σ → σ} {tooLong : String}

/-- A path that ends below the top reaches nothing, however many levels are left. -/
theorem climb_nil_of_ne {i s : ℕ} {r : σ} (hs : s ≠ 0) : climb left right i s r [] = none := by
  induction s using Nat.strong_induction_on generalizing i with
  | _ s ih =>
      by_cases hlast : i % 2 = 0 ∧ i = s
      · rw [climb_promoted hs hlast.1 hlast.2]
        exact ih (s / 2) (by omega) (by omega)
      · exact climb_nil hs hlast

/-- The inner loop goes up while the last index is even, and ends at an odd one. -/
theorem climb_pastZeros (left right : H → σ → σ) {s : ℕ} (hs : s ≠ 0) (r : σ) (path : List H) :
    ∃ o, pastZeros s s = (o, o) ∧ o % 2 = 1 ∧
      climb left right s s r path = climb left right o o r path := by
  induction s using Nat.strong_induction_on with
  | _ s ih =>
      rw [pastZeros]
      split
      case isTrue heven =>
        rw [climb_promoted hs heven.1 rfl]
        exact ih (s / 2) (by omega) (by omega)
      case isFalse hodd => exact ⟨s, rfl, by omega, rfl⟩

/-- **The verifiers' loop is a climb**: it ends above the last level with what the
climb ends with. -/
theorem walkPath_eq_ok_iff {i s : ℕ} {r r' : σ} {path : List H} (his : i ≤ s) :
    walkPath tooLong left right i s r path = .ok (0, r') ↔
      climb left right i s r path = some r' := by
  induction path generalizing i s r with
  | nil =>
      by_cases hs : s = 0
      · subst hs
        rw [climb_top_eq_some]
        simp [walkPath, eq_comm]
      · rw [climb_nil_of_ne hs]
        simp [walkPath, hs]
  | cons part path ih =>
      by_cases hs : s = 0
      · subst hs
        rw [climb_top_eq_some]
        simp [walkPath]
      · rw [walkPath, if_neg hs]
        by_cases hodd : i % 2 = 1
        · rw [if_pos (Or.inl hodd), climb_left hs hodd, if_neg (by omega)]
          exact ih (by omega)
        · by_cases hlast : i = s
          · subst hlast
            obtain ⟨o, hpast, ho, hclimb⟩ := climb_pastZeros left right hs r (part :: path)
            rw [if_pos (Or.inr rfl), if_pos (by omega), hpast, hclimb, climb_left (by omega) ho]
            exact ih le_rfl
          · rw [if_neg (by omega), climb_right hs (by omega) hlast]
            exact ih (by omega)

end Walk

/-! ## Inclusion -/

section Inclusion

variable [DecidableEq H]

/-- An inclusion is accepted when its path is in bounds and its climb ends at the root. -/
theorem verifyInclusion_eq_ok_iff {leaf root : H} {i size : ℕ} {path : List H} :
    verifyInclusion leaf i size root path = .ok () ↔
      path.length ≤ MAX_PROOF_HASHES ∧ i < size ∧
        climb nodeHash (fun part running => nodeHash running part) i (size - 1) leaf path
          = some root := by
  unfold verifyInclusion
  rw [guard_eq_ok, guard_eq_ok, bind_eq_ok, Nat.not_lt, Nat.not_le]
  constructor
  · rintro ⟨hbound, hi, ⟨snode, running⟩, hwalk, hend⟩
    refine ⟨hbound, hi, ?_⟩
    dsimp only at hend
    split at hend
    case isTrue htop =>
      obtain ⟨rfl, rfl⟩ := htop
      exact (walkPath_eq_ok_iff (by omega)).mp hwalk
    case isFalse => cases hend
  · rintro ⟨hbound, hi, hclimb⟩
    refine ⟨hbound, hi, (0, root), (walkPath_eq_ok_iff (by omega)).mpr hclimb, ?_⟩
    rw [if_pos ⟨rfl, rfl⟩]
    rfl

/-- The path the prover finds is accepted. -/
theorem verifyInclusion_auditPath {i : ℕ} {leaf : H} (hi : leaves[i]? = some leaf)
    (hbound : leaves.length ≤ MAX_CHRONICLE_ENTRIES) :
    verifyInclusion leaf i leaves.length (subtreeRoot leaves) (auditPath i leaves) = .ok () := by
  have hlt : i < leaves.length := (List.getElem?_eq_some_iff.mp hi).1
  refine verifyInclusion_eq_ok_iff.mpr ⟨length_auditPath_le hlt hbound, hlt, ?_⟩
  -- the running hash is the node above the leaf, on every level
  obtain ⟨top, r, hrise, hclimb, hr⟩ := climb_siblings nodeHash
    nodeHash (fun part running => nodeHash running part)
    (fun i l r => l[i]? = some r)
    (fun j l r a ha _ hr => getElem?_pairUp_pair nodeHash ha hr)
    (fun j l r a ha hr => getElem?_pairUp_pair nodeHash hr ha)
    (fun j l r hlen hr => (getElem?_pairUp_last nodeHash hlen).trans hr) hlt hi
  rw [rise_eq_subtreeRoot (by omega)] at hrise
  obtain rfl : subtreeRoot leaves = top := Option.some.inj hrise
  obtain rfl : subtreeRoot leaves = r := by simpa using hr
  rw [auditPath_eq_siblings hlt]
  exact hclimb

omit [DecidableEq H] in
/-- A pair of a level, read off the node above it. -/
theorem halves_of_pairUp (hnode : Function.Injective2 (nodeHash (H := H))) {j : ℕ} {l : List H}
    {a b : H} (hj : 2 * j + 1 < l.length) (h : (pairUp nodeHash l)[j]? = some (nodeHash a b)) :
    l[2 * j]? = some a ∧ l[2 * j + 1]? = some b := by
  obtain ⟨x, hleft⟩ : ∃ x, l[2 * j]? = some x := ⟨_, List.getElem?_eq_getElem (by omega)⟩
  obtain ⟨y, hright⟩ : ∃ y, l[2 * j + 1]? = some y := ⟨_, List.getElem?_eq_getElem hj⟩
  rw [getElem?_pairUp_pair nodeHash hleft hright, Option.some.injEq] at h
  obtain ⟨ha, hb⟩ := hnode h
  rw [hleft, hright, ha, hb]
  exact ⟨rfl, rfl⟩

/-- What an accepted path leads up from is the leaf at its index. -/
theorem verifyInclusion_sound (hnode : Function.Injective2 (nodeHash (H := H))) {i : ℕ} {leaf : H}
    {path : List H} (h : verifyInclusion leaf i leaves.length (subtreeRoot leaves) path = .ok ()) :
    leaves[i]? = some leaf := by
  obtain ⟨-, hi, hclimb⟩ := verifyInclusion_eq_ok_iff.mp h
  refine climb_backwards nodeHash _ _ (fun i l r => l[i]? = some r) ?_ ?_ ?_ hi hclimb ?_
  · intro j l r a hj hr
    exact (halves_of_pairUp hnode hj hr).2
  · intro j l r a hj hr
    exact (halves_of_pairUp hnode hj hr).1
  · intro j l r hlen hr
    exact (getElem?_pairUp_last nodeHash hlen).symm.trans hr
  · intro top hrise
    rw [rise_eq_subtreeRoot (by omega)] at hrise
    simpa using hrise.symm

/-- **Inclusion is complete and sound.**  Every entry of a chronicle proves its place
with the path the chronicle serves; and whatever path is accepted for a leaf and an
index, under the root of any leaf list of the stated size, the leaf is the one there. -/
theorem inclusion_complete_and_sound :
    (∀ (log : Chronicle H) (i : ℕ) (leaf : H), log.leaves[i]? = some leaf →
      ∃ path, log.inclusion i = .ok path ∧
        verifyInclusion leaf i log.size log.root path = .ok ()) ∧
    (Function.Injective2 (nodeHash (H := H)) →
      ∀ (leaves : List H) (i : ℕ) (leaf : H) (path : List H),
        verifyInclusion leaf i leaves.length (subtreeRoot leaves) path = .ok () →
          leaves[i]? = some leaf) := by
  refine ⟨fun log i leaf hleaf => ?_, fun hnode leaves i leaf path h => ?_⟩
  · have hlt : i < log.leaves.length := (List.getElem?_eq_some_iff.mp hleaf).1
    refine ⟨auditPath i log.leaves, ?_, verifyInclusion_auditPath hleaf log.bounded⟩
    rw [Chronicle.inclusion, if_neg (by omega)]
  · exact verifyInclusion_sound hnode h

/-- The second entry of two proves its place with the first, and is the only leaf that
does. -/
theorem second_of_two_included :
    let _ := plainDigests
    ∃ log : Chronicle Bytes, log.leaves = [⟨[1]⟩, ⟨[2]⟩] ∧
      (∃ path, log.inclusion 1 = .ok path ∧
        verifyInclusion ⟨[2]⟩ 1 log.size log.root path = .ok ()) ∧
      verifyInclusion (H := Bytes) ⟨[2]⟩ 1 2 (subtreeRoot [⟨[1]⟩, ⟨[2]⟩]) [⟨[1]⟩] = .ok () ∧
      [(⟨[1]⟩ : Bytes), ⟨[2]⟩][1]? = some ⟨[2]⟩ := by
  intro _
  let log : Chronicle Bytes := ⟨[⟨[1]⟩, ⟨[2]⟩], by decide⟩
  have hroot : subtreeRoot [(⟨[1]⟩ : Bytes), ⟨[2]⟩] = nodeHash ⟨[1]⟩ ⟨[2]⟩ := by
    rw [subtreeRoot_split (by decide)]
    show nodeHash (subtreeRoot [(⟨[1]⟩ : Bytes)]) (subtreeRoot [⟨[2]⟩]) = _
    rw [subtreeRoot_singleton, subtreeRoot_singleton]
  have haccepted : verifyInclusion (H := Bytes) ⟨[2]⟩ 1 2 (subtreeRoot [⟨[1]⟩, ⟨[2]⟩]) [⟨[1]⟩]
      = .ok () := by
    rw [hroot]
    decide
  exact ⟨log, rfl, inclusion_complete_and_sound.1 log 1 ⟨[2]⟩ rfl, haccepted,
    inclusion_complete_and_sound.2 plainDigests_nodeHash [⟨[1]⟩, ⟨[2]⟩] 1 ⟨[2]⟩ [⟨[1]⟩] haccepted⟩

end Inclusion

end Lait.Chronicle
