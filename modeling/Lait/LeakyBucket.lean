import Mathlib

/-!
# Charges that time pays off

Charges are taken on at times, and each unit of time that passes pays one unit of what is
owed.  `unpaid` says so as it stands; `clears` is the moment from which nothing is owed,
which is all a limiter has to keep (`unpaid_eq`).

A limiter that takes on a charge of at least a unit only while no more than a tolerance is
unpaid has taken on a bounded number of them in every interval of time
(`Paced.countIn_le`).
-/

namespace Lait.LeakyBucket

/-- What is unpaid of some charges, each with its time and the latest first. -/
def unpaid : List (ℕ × ℕ) → ℕ → ℕ
  | [], _ => 0
  | (time, charge) :: earlier, now => unpaid earlier time + charge - (now - time)

/-- The moment from which nothing is owed. -/
def clears (start : ℕ) : List (ℕ × ℕ) → ℕ
  | [] => start
  | (time, charge) :: earlier => max (clears start earlier) time + charge

/-- The charges were taken on one after the other, between a start and a time. -/
def InOrder (start : ℕ) : List (ℕ × ℕ) → ℕ → Prop
  | [], now => start ≤ now
  | (time, _) :: earlier, now => InOrder start earlier time ∧ time ≤ now

variable {start unit tolerance now : ℕ} {charges : List (ℕ × ℕ)}

/-- Charges taken on in the order of their times stand in order, the latest first. -/
theorem inOrder_reverse (h : (start :: (charges.map Prod.fst ++ [now])).Pairwise (· ≤ ·)) :
    InOrder start charges.reverse now := by
  induction charges using List.reverseRecOn generalizing now with
  | nil => exact (List.pairwise_cons.mp h).1 now (by simp)
  | append_singleton earlier charge ih =>
      rw [List.map_append, List.map_singleton] at h
      rw [List.reverse_append, List.reverse_singleton, List.singleton_append]
      refine ⟨ih (h.sublist ?_), ?_⟩
      · exact (List.sublist_append_left _ _).cons_cons start
      · have hlast := (List.pairwise_append.mp (List.pairwise_cons.mp h).2).2.2
        exact hlast charge.1 (by simp) now (by simp)

/-- **What is unpaid is the time until all is paid.** -/
theorem unpaid_eq (h : InOrder start charges now) :
    unpaid charges now = clears start charges - now := by
  induction charges generalizing now with
  | nil =>
      have hstart : start ≤ now := h
      rw [unpaid, clears, Nat.sub_eq_zero_of_le hstart]
  | cons first earlier ih =>
      obtain ⟨time, charge⟩ := first
      obtain ⟨hearlier, htime⟩ := h
      rw [unpaid, clears, ih hearlier]
      rcases le_total (clears start earlier) time with hle | hle
      · rw [max_eq_right hle]
        omega
      · rw [max_eq_left hle]
        omega

/-- Every charge is at least a unit, and was taken on while no more than a tolerance was
unpaid. -/
inductive Paced (start unit tolerance : ℕ) : List (ℕ × ℕ) → Prop
  | nil : Paced start unit tolerance []
  | cons {time charge : ℕ} {earlier : List (ℕ × ℕ)} :
      Paced start unit tolerance earlier → clears start earlier ≤ time + tolerance →
        unit ≤ charge → Paced start unit tolerance ((time, charge) :: earlier)

/-- How many charges were taken on in a closed interval of time. -/
def countIn (charges : List (ℕ × ℕ)) (a length : ℕ) : ℕ :=
  charges.countP fun charge => a ≤ charge.1 ∧ charge.1 ≤ a + length

/-- A charge in the interval pushes the clearing moment out by a unit, and the last of them
was taken on no later than a tolerance before it. -/
theorem Paced.clears_and_count (h : Paced start unit tolerance charges) (a length : ℕ) :
    (countIn charges a length = 0 ∨ a + countIn charges a length * unit ≤ clears start charges) ∧
      countIn charges a length * unit ≤ tolerance + length + unit := by
  induction h with
  | nil => simp [countIn]
  | @cons time charge earlier _ htolerance hunit ih =>
      obtain ⟨hclears, hcount⟩ := ih
      have hlater : clears start earlier + unit ≤ clears start ((time, charge) :: earlier) :=
        Nat.add_le_add (le_max_left _ _) hunit
      have htime : time + unit ≤ clears start ((time, charge) :: earlier) :=
        Nat.add_le_add (le_max_right _ _) hunit
      by_cases hin : a ≤ time ∧ time ≤ a + length
      · have hsucc : countIn ((time, charge) :: earlier) a length = countIn earlier a length + 1 := by
          rw [countIn, List.countP_cons_of_pos (by simpa using hin), countIn]
        rw [hsucc, Nat.add_mul, Nat.one_mul]
        rcases hclears with hzero | hclears
        · rw [hzero]
          omega
        · omega
      · have hsame : countIn ((time, charge) :: earlier) a length = countIn earlier a length := by
          rw [countIn, List.countP_cons_of_neg (by simpa using hin), countIn]
        rw [hsame]
        omega

/-- **A paced limiter takes on few charges in an interval.** -/
theorem Paced.countIn_le {burst : ℕ} (h : Paced start unit (unit * (burst - 1)) charges)
    (hburst : 1 ≤ burst) (hunit : 0 < unit) (a length : ℕ) :
    countIn charges a length ≤ burst + length / unit := by
  obtain ⟨-, hcount⟩ := h.clears_and_count a length
  have hwhole : unit * (burst - 1) + length + unit = burst * unit + length := by
    obtain ⟨n, rfl⟩ := Nat.exists_eq_add_of_le hburst
    rw [Nat.add_sub_cancel_left]
    ring
  rw [hwhole, ← Nat.le_div_iff_mul_le hunit, Nat.mul_comm, Nat.mul_add_div hunit] at hcount
  exact hcount

end Lait.LeakyBucket
