import Lait.Chronicle.Inclusion

/-!
# A newer head extends an older one

A consistency path drives two running hashes at once, one towards the older root and
one towards the newer.  It starts at the last full subtree of the older tree: the
verifier shifts its counters past the trailing ones of `first_size - 1`, which is to
climb as many levels as the older tree is even on.  On those levels the older tree is
the beginning of the newer one exactly when it is on the level above
(`subproof_even`, `pastOnes_levels`), so nothing has to be proved for them.

From there on the older tree ends at the index the climb goes through.  A hash from
the left is in both trees and goes into both running hashes; a hash from the right is
only in the newer.  The invariant of the climb is that both trees agree before the
index and that the running hashes stand at it.

The seed is not read from the path when the older tree is one full subtree, that is
when its size is a power of two: then it is the older root itself.
-/

namespace Lait.Chronicle

open Merkle

variable {H : Type} [Digests H] {leaves : List H}

/-! ## The prover, on the levels -/

theorem subproof_all (whole : Bool) :
    subproof leaves.length leaves whole = if whole then [] else [subtreeRoot leaves] := by
  rw [subproof, if_pos rfl]

theorem subproof_left {m : ℕ} {whole : Bool} (h : 2 ≤ leaves.length) (hall : m ≠ leaves.length)
    (hin : m ≤ (leftOf leaves).length) :
    subproof m leaves whole =
      subproof m (leftOf leaves) whole ++ [subtreeRoot (rightOf leaves)] := by
  rw [subproof, if_neg hall, if_neg (by omega), if_pos hin]

theorem subproof_right {m : ℕ} {whole : Bool} (h : 2 ≤ leaves.length) (hall : m ≠ leaves.length)
    (hout : (leftOf leaves).length < m) :
    subproof m leaves whole =
      subproof (m - (leftOf leaves).length) (rightOf leaves) false ++
        [subtreeRoot (leftOf leaves)] := by
  rw [subproof, if_neg hall, if_neg (by omega), if_neg (by omega)]

/-- Where the older tree is even, the path is the one of the level above. -/
theorem subproof_even {m : ℕ} (whole : Bool) (heven : m % 2 = 0) (hpos : 0 < m)
    (hle : m ≤ leaves.length) :
    subproof m leaves whole = subproof (m / 2) (pairUp nodeHash leaves) whole := by
  induction hn : leaves.length using Nat.strong_induction_on generalizing leaves m whole with
  | _ n ih =>
      subst hn
      have hup := length_pairUp nodeHash leaves
      by_cases hall : m = leaves.length
      · have hall' : m / 2 = (pairUp nodeHash leaves).length := by omega
        rw [hall', subproof_all, hall, subproof_all, subtreeRoot_pairUp]
      · have htwo : 2 ≤ leaves.length := by omega
        have hthree : 3 ≤ leaves.length := by omega
        have hhalf := splitPoint_half hthree
        have hlen := length_leftOf htwo
        have hright : (rightOf leaves).length = leaves.length - splitPoint leaves.length :=
          length_rightOf
        have hpaired : (leftOf (pairUp nodeHash leaves)).length = (leftOf leaves).length / 2 := by
          rw [← pairUp_leftOf nodeHash hthree, length_pairUp]
          omega
        by_cases hin : m ≤ (leftOf leaves).length
        · rw [subproof_left htwo hall hin, subproof_left (m := m / 2) (by omega) (by omega) (by omega),
            ← pairUp_leftOf nodeHash hthree, ← pairUp_rightOf nodeHash hthree, subtreeRoot_pairUp,
            ih _ (length_leftOf_lt htwo) whole heven hpos hin rfl]
        · have hrest : (m - (leftOf leaves).length) / 2 = m / 2 - (leftOf leaves).length / 2 := by
            omega
          rw [subproof_right htwo hall (by omega),
            subproof_right (m := m / 2) (by omega) (by omega) (by omega), hpaired, ← pairUp_leftOf nodeHash hthree, ← pairUp_rightOf nodeHash hthree,
            subtreeRoot_pairUp, ← hrest,
            ih _ (length_rightOf_lt htwo) false (by omega) (by omega) (by omega) rfl]

/-- Where it is odd, its last leaf comes first, unless it is the older root itself, and
then that leaf's way up. -/
theorem subproof_odd {m : ℕ} (whole : Bool) (hodd : m % 2 = 1)
    (hlt : m < leaves.length ∨ m = 1 ∧ leaves.length = 1) :
    subproof m leaves whole =
      (if whole ∧ m = 1 then [] else leaves[m - 1]?.toList) ++ auditPath (m - 1) leaves := by
  induction hn : leaves.length using Nat.strong_induction_on generalizing leaves m whole with
  | _ n ih =>
      subst hn
      by_cases hone : leaves.length = 1
      · obtain ⟨leaf, rfl⟩ := List.length_eq_one_iff.mp hone
        obtain rfl : m = [leaf].length := by
          simp only [List.length_singleton] at hlt ⊢
          omega
        have hnone : auditPath ([leaf].length - 1) [leaf] = [] := by
          rw [auditPath, if_pos (by simp)]
        rw [subproof_all, hnone]
        cases whole <;> simp
      · have htwo : 2 ≤ leaves.length := by omega
        have hall : m ≠ leaves.length := by omega
        have hlen := length_leftOf htwo
        have hpos := splitPoint_pos leaves.length
        have hright : (rightOf leaves).length = leaves.length - splitPoint leaves.length :=
          length_rightOf
        -- the split is at an even place, or at the first of two leaves
        have hsplit : splitPoint leaves.length % 2 = 0 ∨
            splitPoint leaves.length = 1 ∧ leaves.length = 2 := by
          by_cases hthree : 3 ≤ leaves.length
          · have hhalf := splitPoint_half hthree
            omega
          · have hlt' := splitPoint_lt htwo
            omega
        by_cases hin : m ≤ (leftOf leaves).length
        · have hleaf : (leftOf leaves)[m - 1]? = leaves[m - 1]? :=
            List.getElem?_take_of_lt (by omega)
          rw [subproof_left htwo hall hin, auditPath_left htwo (by omega),
            ih _ (length_leftOf_lt htwo) whole hodd (by omega) rfl, hleaf, List.append_assoc]
        · have hleaf : (rightOf leaves)[m - (leftOf leaves).length - 1]? = leaves[m - 1]? := by
            rw [rightOf, List.getElem?_drop]
            congr 1
            omega
          have hplace : m - (leftOf leaves).length - 1 = m - 1 - (leftOf leaves).length := by omega
          rw [subproof_right htwo hall (by omega), auditPath_right htwo (by omega),
            ih _ (length_rightOf_lt htwo) false (by omega) (by omega) rfl, if_neg (by simp), hleaf,
            if_neg fun h => absurd h.2 (by omega), hplace, List.append_assoc]

/-! ## The trailing ones -/

theorem pastOnes_le {f s : ℕ} (h : f ≤ s) : (pastOnes f s).1 ≤ (pastOnes f s).2 := by
  induction f using Nat.strong_induction_on generalizing s with
  | _ f ih =>
      rw [pastOnes]
      split
      case isTrue hodd => exact ih (f / 2) (by omega) (by omega)
      case isFalse => exact h

theorem pastOnes_snd_le (f s : ℕ) : (pastOnes f s).2 ≤ s := by
  induction f using Nat.strong_induction_on generalizing s with
  | _ f ih =>
      rw [pastOnes]
      split
      case isTrue hodd => exact (ih (f / 2) (by omega) (s / 2)).trans (Nat.div_le_self s 2)
      case isFalse => exact le_rfl

theorem isPowerOfTwo_odd {m : ℕ} (hodd : m % 2 = 1) : isPowerOfTwo m = decide (m = 1) := by
  unfold isPowerOfTwo
  by_cases hone : m = 1
  · subst hone
    decide
  · have hlog : Nat.log2 m = Nat.log2 (m / 2) + 1 := by
      rw [Nat.log2_eq_log_two, Nat.log2_eq_log_two, Nat.log_of_one_lt_of_le one_lt_two (by omega)]
    rw [hlog, pow_succ, decide_eq_decide]
    omega

theorem isPowerOfTwo_half {m : ℕ} (heven : m % 2 = 0) (hpos : 0 < m) :
    isPowerOfTwo m = isPowerOfTwo (m / 2) := by
  have hlog : Nat.log2 m = Nat.log2 (m / 2) + 1 := by
    rw [Nat.log2_eq_log_two, Nat.log2_eq_log_two, Nat.log_of_one_lt_of_le one_lt_two (by omega)]
  unfold isPowerOfTwo
  rw [hlog, pow_succ, decide_eq_decide]
  omega

/-- **Past the trailing ones** both trees are seen on a level where the older one is
odd, and the older is a beginning of the newer if it is one there. -/
theorem pastOnes_levels (hnode : Function.Injective2 (nodeHash (H := H))) {older newer : List H}
    (hpos : 0 < older.length) (hle : older.length ≤ newer.length) :
    ∃ older' newer', older'.length = (pastOnes (older.length - 1) (newer.length - 1)).1 + 1 ∧
      newer'.length = (pastOnes (older.length - 1) (newer.length - 1)).2 + 1 ∧
      rise nodeHash older' = rise nodeHash older ∧ rise nodeHash newer' = rise nodeHash newer ∧
      (older' = newer'.take older'.length → older = newer.take older.length) := by
  induction hm : older.length using Nat.strong_induction_on generalizing older newer with
  | _ m ih =>
      subst hm
      rw [pastOnes]
      split
      case isFalse heven =>
        refine ⟨older, newer, by omega, by omega, rfl, rfl, fun h => h⟩
      case isTrue hodd =>
        have holder : (older.length - 1) / 2 = (pairUp nodeHash older).length - 1 := by
          rw [length_pairUp]
          omega
        have hnewer : (newer.length - 1) / 2 = (pairUp nodeHash newer).length - 1 := by
          rw [length_pairUp]
          omega
        have hlen := length_pairUp nodeHash older
        have hlen' := length_pairUp nodeHash newer
        obtain ⟨older', newer', hl, hl', hrise, hrise', hdown⟩ := ih (pairUp nodeHash older).length
          (by omega) (show 0 < (pairUp nodeHash older).length by omega)
          (show (pairUp nodeHash older).length ≤ (pairUp nodeHash newer).length by omega) rfl
        rw [holder, hnewer]
        refine ⟨older', newer', hl, hl', hrise.trans (rise_pairUp nodeHash older),
          hrise'.trans (rise_pairUp nodeHash newer), fun h => ?_⟩
        refine pairUp_injective nodeHash hnode (List.length_take_of_le hle).symm ?_
        rw [pairUp_take nodeHash (by omega) hle, hdown h, hlen]
        congr 1
        omega

/-- **The path past the trailing ones** is a leaf of that level and its way up; the
leaf is the older root where the older tree is a full one. -/
theorem pastOnes_subproof {m : ℕ} (hpos : 0 < m) (hlt : m < leaves.length) :
    ∃ level seed, level.length = (pastOnes (m - 1) (leaves.length - 1)).2 + 1 ∧
      level[(pastOnes (m - 1) (leaves.length - 1)).1]? = some seed ∧
      rise nodeHash level = rise nodeHash leaves ∧
      rise nodeHash (level.take ((pastOnes (m - 1) (leaves.length - 1)).1 + 1)) =
        rise nodeHash (leaves.take m) ∧
      (if isPowerOfTwo m then [subtreeRoot (leaves.take m)] else []) ++ subproof m leaves true =
        seed :: siblings nodeHash (pastOnes (m - 1) (leaves.length - 1)).1 level := by
  induction m using Nat.strong_induction_on generalizing leaves with
  | _ m ih =>
      rw [pastOnes]
      split
      case isFalse hodd =>
        obtain ⟨seed, hseed⟩ : ∃ seed, leaves[m - 1]? = some seed :=
          ⟨_, List.getElem?_eq_getElem (by omega)⟩
        refine ⟨leaves, seed, by omega, hseed, rfl, ?_, ?_⟩
        · rw [Nat.sub_add_cancel hpos]
        · rw [subproof_odd true (by omega) (Or.inl hlt), isPowerOfTwo_odd (by omega), hseed,
            auditPath_eq_siblings (by omega)]
          by_cases hone : m = 1
          · subst hone
            have htake : leaves.take 1 = [seed] := by
              rw [List.take_one, List.head?_eq_getElem?]
              exact congrArg Option.toList hseed
            simp [htake]
          · simp [hone]
      case isTrue heven =>
        have hlen := length_pairUp nodeHash leaves
        have hm' : (m - 1) / 2 = m / 2 - 1 := by omega
        have hn' : (leaves.length - 1) / 2 = (pairUp nodeHash leaves).length - 1 := by omega
        obtain ⟨level, seed, hlevel, hseed, hrise, holder, hpath⟩ := ih (m / 2) (by omega)
          (by omega) (show m / 2 < (pairUp nodeHash leaves).length by omega)
        have htake := pairUp_take nodeHash (l := leaves) (m := m) (by omega) hlt.le
        rw [hm', hn']
        refine ⟨level, seed, hlevel, hseed, hrise.trans (rise_pairUp nodeHash leaves), ?_, ?_⟩
        · rw [holder, ← htake, rise_pairUp]
        · rw [← hpath, isPowerOfTwo_half (by omega) hpos, subproof_even true (by omega) hpos hlt.le,
            ← subtreeRoot_pairUp (leaves.take m), htake]

/-! ## The two running hashes -/

/-- A hash from the left is in both trees. -/
def fromLeft (part : H) (running : H × H) : H × H :=
  (nodeHash part running.1, nodeHash part running.2)

/-- A hash from the right is in the newer tree only. -/
def fromRight (part : H) (running : H × H) : H × H := (running.1, nodeHash running.2 part)

section Verifier

variable [DecidableEq H] {m n : ℕ} {firstRoot secondRoot : H} {proof : List H}

/-- Between heads of one size, an empty path between equal roots is accepted. -/
theorem verifyConsistency_same_eq_ok_iff (hpos : 0 < n) :
    verifyConsistency n firstRoot n secondRoot proof = .ok () ↔
      firstRoot = secondRoot ∧ proof = [] := by
  unfold verifyConsistency
  rw [guard_eq_ok, guard_eq_ok, if_pos rfl]
  constructor
  · rintro ⟨-, -, hend⟩
    split at hend
    case isTrue heq => exact heq
    case isFalse => cases hend
  · rintro ⟨rfl, rfl⟩
    exact ⟨by simp, by omega, by rw [if_pos ⟨rfl, rfl⟩]; rfl⟩

/-- Between heads of two sizes, a path is accepted when it is in bounds and the climb
from its seed ends at both roots. -/
theorem verifyConsistency_eq_ok_iff (hpos : 0 < m) (hlt : m < n) :
    verifyConsistency m firstRoot n secondRoot proof = .ok () ↔
      proof.length ≤ MAX_PROOF_HASHES ∧ ∃ seed parts,
        (if isPowerOfTwo m then [firstRoot] else []) ++ proof = seed :: parts ∧
        climb fromLeft fromRight (pastOnes (m - 1) (n - 1)).1 (pastOnes (m - 1) (n - 1)).2
          (seed, seed) parts = some (firstRoot, secondRoot) := by
  have hle := pastOnes_le (show m - 1 ≤ n - 1 by omega)
  unfold verifyConsistency
  rw [guard_eq_ok, guard_eq_ok, if_neg (by omega), Nat.not_lt]
  constructor
  · rintro ⟨hbound, -, hrest⟩
    refine ⟨hbound, ?_⟩
    split at hrest
    case h_1 => cases hrest
    case h_2 seed parts hpath =>
      obtain ⟨⟨snode, running⟩, hwalk, hend⟩ := bind_eq_ok.mp hrest
      dsimp only at hend
      split at hend
      case isTrue htop =>
        obtain ⟨rfl, rfl, rfl⟩ := htop
        exact ⟨seed, parts, hpath, (walkPath_eq_ok_iff hle).mp hwalk⟩
      case isFalse => cases hend
  · rintro ⟨hbound, seed, parts, hpath, hclimb⟩
    refine ⟨hbound, by omega, ?_⟩
    rw [hpath]
    refine bind_eq_ok.mpr ⟨(0, firstRoot, secondRoot), (walkPath_eq_ok_iff hle).mpr hclimb, ?_⟩
    rw [if_pos ⟨rfl, rfl, rfl⟩]
    rfl

end Verifier

omit [Digests H] in
/-- Two lists that agree before an index and at it agree up to it. -/
theorem take_succ_congr {l l' : List H} {i : ℕ} (h : l.take i = l'.take i) (hi : l[i]? = l'[i]?) :
    l.take (i + 1) = l'.take (i + 1) := by
  rw [List.take_add_one, List.take_add_one, h, hi]

/-! ## Completeness -/

/-- The older tree, where a climb stands: it agrees with the newer one before the
index and ends there. -/
structure Ends (root : Option H) (i : ℕ) (l : List H) (running : H × H) (older : List H) : Prop where
  length : older.length = i + 1
  before : older.take i = l.take i
  last : older[i]? = some running.1
  root : rise nodeHash older = root

/-- The older tree one level up, after a pair. -/
theorem Ends.pair {root : Option H} {j : ℕ} {l older : List H} {running : H × H} {part : H}
    (h : Ends root (2 * j + 1) l running older) (hpart : l[2 * j]? = some part)
    (hlen : 2 * j + 1 < l.length) (newer : H) :
    Ends root j (pairUp nodeHash l) (nodeHash part running.1, newer) (pairUp nodeHash older) where
  length := by
    rw [length_pairUp, h.length]
    omega
  before := by
    have hcut : older.take (2 * j) = l.take (2 * j) := by
      have := congrArg (List.take (2 * j)) h.before
      rwa [List.take_take, List.take_take, Nat.min_eq_left (by omega)] at this
    have hup := congrArg (pairUp nodeHash) hcut
    rwa [pairUp_take nodeHash (by omega) (by rw [h.length]; omega),
      pairUp_take nodeHash (by omega) (by omega), Nat.mul_div_cancel_left _ two_pos] at hup
  last := by
    have hpart' : older[2 * j]? = some part := by
      rw [← List.getElem?_take_of_lt (show 2 * j < 2 * j + 1 by omega), h.before,
        List.getElem?_take_of_lt (by omega), hpart]
    exact getElem?_pairUp_pair nodeHash hpart' h.last
  root := (rise_pairUp nodeHash older).trans h.root

/-- The older tree one level up, where its last leaf is promoted. -/
theorem Ends.promoted {root : Option H} {j : ℕ} {l older : List H} {running : H × H}
    (h : Ends root (2 * j) l running older) (hlen : 2 * j < l.length) (newer : H) :
    Ends root j (pairUp nodeHash l) (running.1, newer) (pairUp nodeHash older) where
  length := by
    rw [length_pairUp, h.length]
    omega
  before := by
    have hup := congrArg (pairUp nodeHash) h.before
    rwa [pairUp_take nodeHash (by omega) (by rw [h.length]; omega),
      pairUp_take nodeHash (by omega) (by omega), Nat.mul_div_cancel_left _ two_pos] at hup
  last := (getElem?_pairUp_last nodeHash h.length).trans h.last
  root := (rise_pairUp nodeHash older).trans h.root

/-- The climb along an index's true siblings ends at the roots of the two trees, when
it starts at the leaf there. -/
theorem climb_both_roots {level : List H} {i : ℕ} {seed firstRoot secondRoot : H}
    (hseed : level[i]? = some seed) (hfirst : rise nodeHash (level.take (i + 1)) = some firstRoot)
    (hsecond : rise nodeHash level = some secondRoot) :
    climb fromLeft fromRight i (level.length - 1) (seed, seed) (siblings nodeHash i level) =
      some (firstRoot, secondRoot) := by
  have hi : i < level.length := (List.getElem?_eq_some_iff.mp hseed).1
  have hends : Ends (some firstRoot) i level (seed, seed) (level.take (i + 1)) :=
    { length := List.length_take_of_le hi
      before := by rw [List.take_take, Nat.min_eq_left (by omega)]
      last := by rw [List.getElem?_take_of_lt (by omega), hseed]
      root := hfirst }
  obtain ⟨top, running, hrise, hclimb, htop, older, holder⟩ := climb_siblings nodeHash
    fromLeft fromRight
    (fun i l running => l[i]? = some running.2 ∧ ∃ older, Ends (some firstRoot) i l running older)
    (fun j l running part hpart hlen h =>
      ⟨getElem?_pairUp_pair nodeHash hpart h.1, _, h.2.choose_spec.pair hpart hlen _⟩)
    (fun j l running part hpart h =>
      ⟨getElem?_pairUp_pair nodeHash h.1 hpart, _, h.2.choose_spec.promoted
        (List.getElem?_eq_some_iff.mp h.1).1 _⟩)
    (fun j l running hlen h =>
      ⟨(getElem?_pairUp_last nodeHash hlen).trans h.1, _, h.2.choose_spec.promoted (by omega) _⟩)
    hi ⟨hseed, _, hends⟩
  have hlast : running.1 = firstRoot := by
    obtain ⟨leaf, rfl⟩ := List.length_eq_one_iff.mp holder.length
    have hleaf := holder.last
    have hroot := holder.root
    simp only [rise_singleton, List.getElem?_cons_zero, Option.some.injEq] at hleaf hroot
    exact hleaf.symm.trans hroot
  have hnewer : running.2 = secondRoot := by
    rw [hrise] at hsecond
    simp only [List.getElem?_cons_zero, Option.some.injEq] at htop hsecond
    exact htop.symm.trans hsecond
  rw [hclimb, ← hlast, ← hnewer]

/-! ## Soundness -/

/-- The beginning of a level, read off the beginning of the one above. -/
theorem take_eq_of_pairUp (hnode : Function.Injective2 (nodeHash (H := H))) {j : ℕ}
    {l older : List H} (hl : 2 * j ≤ l.length) (holder : 2 * j ≤ older.length)
    (h : (pairUp nodeHash older).take j = (pairUp nodeHash l).take j) :
    older.take (2 * j) = l.take (2 * j) := by
  refine pairUp_injective nodeHash hnode ?_ ?_
  · rw [List.length_take_of_le hl, List.length_take_of_le holder]
  · rw [pairUp_take nodeHash (by omega) hl, pairUp_take nodeHash (by omega) holder,
      Nat.mul_div_cancel_left _ two_pos, h]

/-- An accepted climb stood at a leaf of both trees, which agree before it. -/
theorem climb_both_roots_sound (hnode : Function.Injective2 (nodeHash (H := H)))
    {older newer parts : List H} {i : ℕ} {seed firstRoot secondRoot : H}
    (hi : i < newer.length) (hlen : older.length = i + 1)
    (hfirst : rise nodeHash older = some firstRoot) (hsecond : rise nodeHash newer = some secondRoot)
    (h : climb fromLeft fromRight i (newer.length - 1) (seed, seed) parts =
      some (firstRoot, secondRoot)) : older = newer.take older.length := by
  have hstart := climb_backwards nodeHash _ _ (fun i l running => l[i]? = some running.2 ∧
    ∀ older, older.length = i + 1 → rise nodeHash older = some firstRoot →
      older.take i = l.take i ∧ older[i]? = some running.1) ?_ ?_ ?_ hi h ?_
  · obtain ⟨hnewer, hbelow⟩ := hstart
    obtain ⟨hbefore, hlast⟩ := hbelow older hlen hfirst
    have htake := take_succ_congr hbefore (hlast.trans hnewer.symm)
    rw [hlen, ← htake, List.take_of_length_le hlen.le]
  · intro j l running part hj hup
    obtain ⟨hnewer, hbelow⟩ := hup
    obtain ⟨hpart, hlast⟩ := halves_of_pairUp hnode hj hnewer
    refine ⟨hlast, fun older hlen hroot => ?_⟩
    obtain ⟨hbefore, hlast'⟩ := hbelow (pairUp nodeHash older)
      (by rw [length_pairUp]; omega) ((rise_pairUp nodeHash older).trans hroot)
    obtain ⟨hpart', hend⟩ := halves_of_pairUp hnode (by omega) hlast'
    refine ⟨take_succ_congr (take_eq_of_pairUp hnode (by omega) (by omega) hbefore) ?_, hend⟩
    rw [hpart, hpart']
  · intro j l running part hj hup
    obtain ⟨hnewer, hbelow⟩ := hup
    refine ⟨(halves_of_pairUp hnode hj hnewer).1, fun older hlen hroot => ?_⟩
    obtain ⟨hbefore, hlast⟩ := hbelow (pairUp nodeHash older)
      (by rw [length_pairUp]; omega) ((rise_pairUp nodeHash older).trans hroot)
    rw [getElem?_pairUp_last nodeHash hlen] at hlast
    exact ⟨take_eq_of_pairUp hnode (by omega) (by omega) hbefore, hlast⟩
  · intro j l running hl hup
    obtain ⟨hnewer, hbelow⟩ := hup
    refine ⟨(getElem?_pairUp_last nodeHash hl).symm.trans hnewer, fun older hlen hroot => ?_⟩
    obtain ⟨hbefore, hlast⟩ := hbelow (pairUp nodeHash older)
      (by rw [length_pairUp]; omega) ((rise_pairUp nodeHash older).trans hroot)
    rw [getElem?_pairUp_last nodeHash hlen] at hlast
    exact ⟨take_eq_of_pairUp hnode (by omega) (by omega) hbefore, hlast⟩
  · intro top hrise
    refine ⟨by rw [hrise] at hsecond; simpa using hsecond, fun older hlen hroot => ⟨rfl, ?_⟩⟩
    obtain ⟨leaf, rfl⟩ := List.length_eq_one_iff.mp hlen
    simpa using hroot

/-! ## Consistency -/

section Consistency

variable [DecidableEq H]

/-- The path the prover finds is accepted, in a log of up to `2 ^ 63` leaves. -/
theorem verifyConsistency_subproof {m : ℕ} (hpos : 0 < m) (hlt : m < leaves.length)
    (hbound : leaves.length ≤ 2 ^ 63) :
    verifyConsistency m (subtreeRoot (leaves.take m)) leaves.length (subtreeRoot leaves)
      (subproof m leaves true) = .ok () := by
  obtain ⟨level, seed, hlevel, hseed, hrise, hrise', hpath⟩ := pastOnes_subproof hpos hlt
  refine (verifyConsistency_eq_ok_iff hpos hlt).mpr ⟨?_, seed, _, hpath, ?_⟩
  · have hsnd := pastOnes_snd_le (m - 1) (leaves.length - 1)
    have hshort := length_siblings_le nodeHash (d := 63)
      (pastOnes (m - 1) (leaves.length - 1)).1 (show level.length ≤ 2 ^ 63 by omega)
    have hlength := congrArg List.length hpath
    rw [List.length_append, List.length_cons] at hlength
    unfold MAX_PROOF_HASHES
    omega
  · have htake : 0 < (leaves.take m).length := by
      rw [List.length_take_of_le hlt.le]
      exact hpos
    have hclimb := climb_both_roots hseed (hrise'.trans (rise_eq_subtreeRoot htake))
      (hrise.trans (rise_eq_subtreeRoot (by omega)))
    rwa [hlevel, Nat.add_sub_cancel] at hclimb

/-- An accepted path leads from a beginning of the leaves. -/
theorem verifyConsistency_sound (hnode : Function.Injective2 (nodeHash (H := H)))
    {older newer proof : List H} (hpos : 0 < older.length) (hle : older.length ≤ newer.length)
    (h : verifyConsistency older.length (subtreeRoot older) newer.length (subtreeRoot newer) proof
      = .ok ()) : older = newer.take older.length := by
  by_cases hall : older.length = newer.length
  · rw [hall] at h
    obtain ⟨hroot, -⟩ := (verifyConsistency_same_eq_ok_iff (by omega)).mp h
    rw [hall, List.take_length]
    exact subtreeRoot_injective hnode hall hroot
  · obtain ⟨-, seed, parts, -, hclimb⟩ := (verifyConsistency_eq_ok_iff hpos (by omega)).mp h
    obtain ⟨older', newer', hlen, hlen', hrise, hrise', hdown⟩ := pastOnes_levels hnode hpos hle
    have hle' := pastOnes_le (show older.length - 1 ≤ newer.length - 1 by omega)
    have hlast : (pastOnes (older.length - 1) (newer.length - 1)).2 = newer'.length - 1 := by omega
    rw [hlast] at hclimb
    exact hdown (climb_both_roots_sound hnode (by omega) hlen
      (hrise.trans (rise_eq_subtreeRoot hpos)) (hrise'.trans (rise_eq_subtreeRoot (by omega)))
      hclimb)

/-- **Consistency is complete and sound.**  A chronicle proves with the path it serves
that it extends each of its own beginnings; and whatever path is accepted between the
roots of two leaf lists of the stated sizes, the older list is a beginning of the
newer. -/
theorem consistency_complete_and_sound :
    (∀ (log : Chronicle H) (m : ℕ), 1 ≤ m → m ≤ log.size →
      ∃ proof, log.consistency m = .ok proof ∧
        verifyConsistency m (subtreeRoot (log.leaves.take m)) log.size log.root proof = .ok ()) ∧
    (Function.Injective2 (nodeHash (H := H)) →
      ∀ older newer proof : List H, 1 ≤ older.length → older.length ≤ newer.length →
        verifyConsistency older.length (subtreeRoot older) newer.length (subtreeRoot newer) proof
          = .ok () →
        older = newer.take older.length) := by
  refine ⟨fun log m hpos hle => ?_, fun hnode older newer proof hpos hle h => ?_⟩
  · have hsize : log.size = log.leaves.length := rfl
    have hbound := log.bounded
    unfold MAX_CHRONICLE_ENTRIES at hbound
    unfold Chronicle.consistency
    rw [if_neg (by omega)]
    by_cases hall : m = log.leaves.length
    · refine ⟨[], if_pos hall, ?_⟩
      rw [hall, List.take_length]
      exact (verifyConsistency_same_eq_ok_iff (by omega)).mpr ⟨rfl, rfl⟩
    · exact ⟨_, if_neg hall, verifyConsistency_subproof hpos (by omega) (by omega)⟩
  · exact verifyConsistency_sound hnode hpos hle h

/-- A log of three entries extends its first two, and the accepted path says that it is
their log. -/
theorem three_extend_two :
    let _ := plainDigests
    ∃ log : Chronicle Bytes, log.leaves = [⟨[1]⟩, ⟨[2]⟩, ⟨[3]⟩] ∧
      (∃ proof, log.consistency 2 = .ok proof ∧
        verifyConsistency 2 (subtreeRoot (log.leaves.take 2)) log.size log.root proof = .ok ()) ∧
      verifyConsistency (H := Bytes) 2 (subtreeRoot [⟨[1]⟩, ⟨[2]⟩]) 3
        (subtreeRoot [⟨[1]⟩, ⟨[2]⟩, ⟨[3]⟩]) [⟨[3]⟩] = .ok () ∧
      [(⟨[1]⟩ : Bytes), ⟨[2]⟩] = [⟨[1]⟩, ⟨[2]⟩, ⟨[3]⟩].take 2 := by
  intro _
  let log : Chronicle Bytes := ⟨[⟨[1]⟩, ⟨[2]⟩, ⟨[3]⟩], by decide⟩
  have htwo : subtreeRoot [(⟨[1]⟩ : Bytes), ⟨[2]⟩] = nodeHash ⟨[1]⟩ ⟨[2]⟩ := by
    rw [subtreeRoot_split (by decide)]
    show nodeHash (subtreeRoot [(⟨[1]⟩ : Bytes)]) (subtreeRoot [⟨[2]⟩]) = _
    rw [subtreeRoot_singleton, subtreeRoot_singleton]
  have hthree : subtreeRoot [(⟨[1]⟩ : Bytes), ⟨[2]⟩, ⟨[3]⟩] =
      nodeHash (nodeHash ⟨[1]⟩ ⟨[2]⟩) ⟨[3]⟩ := by
    rw [subtreeRoot_split (by decide)]
    show nodeHash (subtreeRoot [(⟨[1]⟩ : Bytes), ⟨[2]⟩]) (subtreeRoot [⟨[3]⟩]) = _
    rw [subtreeRoot_singleton, htwo]
  have haccepted : verifyConsistency (H := Bytes) 2 (subtreeRoot [⟨[1]⟩, ⟨[2]⟩]) 3
      (subtreeRoot [⟨[1]⟩, ⟨[2]⟩, ⟨[3]⟩]) [⟨[3]⟩] = .ok () := by
    rw [htwo, hthree, verifyConsistency_eq_ok_iff (by omega) (by omega)]
    refine ⟨by decide, nodeHash ⟨[1]⟩ ⟨[2]⟩, [⟨[3]⟩], by decide, ?_⟩
    have hpast : pastOnes (2 - 1) (3 - 1) = (0, 1) := by
      rw [pastOnes, if_pos (by decide), pastOnes, if_neg (by decide)]
    rw [hpast, climb_right (by decide) (by decide) (by decide)]
    exact climb_top
  exact ⟨log, rfl, consistency_complete_and_sound.1 log 2 (by decide) (by decide), haccepted,
    consistency_complete_and_sound.2 plainDigests_nodeHash [⟨[1]⟩, ⟨[2]⟩] [⟨[1]⟩, ⟨[2]⟩, ⟨[3]⟩]
      [⟨[3]⟩] (by decide) (by decide) haccepted⟩

end Consistency

end Lait.Chronicle
