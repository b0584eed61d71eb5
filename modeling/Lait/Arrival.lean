import Mathlib

/-!
# Orders of arrival

A log is read in the order its entries arrived, and a reader that stops at the
first entry with an answer is asked what another order would have said.
`findSome?_perm_iff` is the answer: every order gives the same exactly when no
two entries have different answers.

`retainFirst` is the usual way such a reader keeps a log small: of the entries
that pass, the first of every key.  What stands under a key is then the first
passing entry with it (`find?_retainFirst`), and a question that only one key can
answer is answered by that entry (`findSome?_retainFirst`).
-/

namespace Lait.Arrival

variable {α β κ : Type}

/-! ## The first answer -/

/-- Entries without different answers give the same first answer in every order. -/
theorem findSome?_perm {f : α → Option β} {l l' : List α} (hperm : l.Perm l')
    (hone : ∀ a ∈ l, ∀ b ∈ l, ∀ x y, f a = some x → f b = some y → x = y) :
    l.findSome? f = l'.findSome? f := by
  cases h : l.findSome? f with
  | none =>
      rw [List.findSome?_eq_none_iff] at h
      rw [eq_comm, List.findSome?_eq_none_iff]
      exact fun a ha => h a (hperm.mem_iff.mpr ha)
  | some x =>
      obtain ⟨a, ha, hx⟩ := List.exists_of_findSome?_eq_some h
      cases h' : l'.findSome? f with
      | none =>
          rw [List.findSome?_eq_none_iff] at h'
          rw [h' a (hperm.mem_iff.mp ha)] at hx
          cases hx
      | some y =>
          obtain ⟨b, hb, hy⟩ := List.exists_of_findSome?_eq_some h'
          rw [hone a ha b (hperm.mem_iff.mpr hb) x y hx hy]

/-- An entry with an answer can arrive first. -/
theorem exists_perm_findSome? {f : α → Option β} {l : List α} {a : α} {x : β} (ha : a ∈ l)
    (hx : f a = some x) : ∃ l', l.Perm l' ∧ l'.findSome? f = some x := by
  classical
  refine ⟨a :: l.erase a, List.perm_cons_erase ha, ?_⟩
  rw [List.findSome?_cons, hx]

/-- **Every order gives the same first answer exactly when no two entries have
different ones.** -/
theorem findSome?_perm_iff {f : α → Option β} {l : List α} :
    (∀ l', l.Perm l' → l'.findSome? f = l.findSome? f) ↔
      ∀ a ∈ l, ∀ b ∈ l, ∀ x y, f a = some x → f b = some y → x = y := by
  constructor
  · intro h a ha b hb x y hx hy
    obtain ⟨l₁, hperm₁, hl₁⟩ := exists_perm_findSome? ha hx
    obtain ⟨l₂, hperm₂, hl₂⟩ := exists_perm_findSome? hb hy
    have heq : some x = some y := by rw [← hl₁, ← hl₂, h l₁ hperm₁, h l₂ hperm₂]
    exact Option.some.inj heq
  · intro hone l' hperm
    exact (findSome?_perm hperm hone).symm

/-! ## The last answer -/

/-- The answer of the last entry that has one. -/
def lastAnswer (f : α → Option β) (l : List α) : Option β := l.reverse.findSome? f

theorem lastAnswer_concat (f : α → Option β) (l : List α) (a : α) :
    lastAnswer f (l ++ [a]) = (f a).or (lastAnswer f l) := by
  unfold lastAnswer
  rw [List.reverse_append, List.reverse_singleton, List.singleton_append, List.findSome?_cons]
  cases f a <;> rfl

/-! ## Keeping the first of every key -/

section Retain

variable [DecidableEq κ]

/-- Of the entries that pass, the first of every key; `seen` holds the keys kept
before. -/
def retainFirst (keep : α → Bool) (key : α → Option κ) : Finset κ → List α → List α
  | _, [] => []
  | seen, a :: l =>
      match key a with
      | none => retainFirst keep key seen l
      | some k =>
          if keep a ∧ k ∉ seen then a :: retainFirst keep key (insert k seen) l
          else retainFirst keep key seen l

/-- What is kept was there, and passes. -/
theorem mem_of_mem_retainFirst {keep : α → Bool} {key : α → Option κ} {seen : Finset κ}
    {l : List α} {a : α} (h : a ∈ retainFirst keep key seen l) : a ∈ l ∧ keep a = true := by
  induction l generalizing seen with
  | nil => cases h
  | cons b l ih =>
      rw [retainFirst] at h
      split at h
      case h_1 => exact (ih h).imp_left (List.mem_cons_of_mem b)
      case h_2 k hk =>
        split at h
        case isTrue hkeep =>
          rcases List.mem_cons.mp h with rfl | h
          · exact ⟨List.mem_cons_self, hkeep.1⟩
          · exact (ih h).imp_left (List.mem_cons_of_mem b)
        case isFalse => exact (ih h).imp_left (List.mem_cons_of_mem b)

/-- An entry that passes, of a given key. -/
def passes (keep : α → Bool) (key : α → Option κ) (k : κ) (a : α) : Bool :=
  keep a && key a = some k

theorem passes_eq_true {keep : α → Bool} {key : α → Option κ} {k : κ} {a : α} :
    passes keep key k a = true ↔ keep a = true ∧ key a = some k := by
  simp [passes]

/-- A question only one key can answer is answered by the entry kept for it. -/
theorem findSome?_retainFirst {keep : α → Bool} {key : α → Option κ} {f : α → Option β} {k : κ}
    (hkey : ∀ a x, f a = some x → key a = some k) (seen : Finset κ) (l : List α) :
    (retainFirst keep key seen l).findSome? f
      = if k ∈ seen then none else (l.find? (passes keep key k)).bind f := by
  have hnone : ∀ a, key a ≠ some k → f a = none := by
    intro a ha
    cases hf : f a with
    | none => rfl
    | some x => exact absurd (hkey a x hf) ha
  induction l generalizing seen with
  | nil => simp [retainFirst]
  | cons a l ih =>
      rw [retainFirst, List.find?_cons]
      split
      case h_1 hk =>
        have hpass : passes keep key k a = false := by simp [passes, hk]
        rw [ih, hpass]
      case h_2 k' hk =>
        split
        case isTrue hkeep =>
          obtain ⟨hkeep, hseen⟩ := hkeep
          rw [List.findSome?_cons, ih]
          by_cases hkk : k' = k
          · -- The entry is kept for the key asked about; nothing later is.
            subst hkk
            have hpass : passes keep key k' a = true := passes_eq_true.mpr ⟨hkeep, hk⟩
            rw [hpass, if_neg hseen, if_pos (Finset.mem_insert_self _ _)]
            show _ = f a
            cases f a <;> rfl
          · have hne : key a ≠ some k := by simpa [hk] using hkk
            have hpass : passes keep key k a = false := by simp [passes, hne]
            rw [hnone a hne, hpass]
            simp only [Finset.mem_insert, Ne.symm hkk, false_or]
        case isFalse hkeep =>
          rw [ih]
          by_cases hkk : k' = k
          · subst hkk
            by_cases hseen : k' ∈ seen
            · rw [if_pos hseen, if_pos hseen]
            · have hpass : passes keep key k' a = false := by
                simp only [hseen, not_false_iff, and_true, Bool.not_eq_true] at hkeep
                simp [passes, hkeep]
              rw [hpass]
          · have hne : key a ≠ some k := by simpa [hk] using hkk
            have hpass : passes keep key k a = false := by simp [passes, hne]
            rw [hpass]

/-- **What is kept for a key is the first entry that passes with it.** -/
theorem find?_retainFirst (keep : α → Bool) (key : α → Option κ) (k : κ) (l : List α) :
    (retainFirst keep key ∅ l).find? (fun a => key a = some k) = l.find? (passes keep key k) := by
  rw [← List.findSome?_guard, findSome?_retainFirst (k := k), if_neg (Finset.notMem_empty _)]
  · cases h : l.find? (passes keep key k) with
    | none => rfl
    | some a =>
        have hpass := List.find?_some h
        simp [Option.guard, (passes_eq_true.mp hpass).2]
  · intro a x hx
    rw [Option.guard_eq_some_iff] at hx
    simpa using hx.2

end Retain

end Lait.Arrival
