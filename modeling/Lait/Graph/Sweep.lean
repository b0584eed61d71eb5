import Mathlib

/-!
# Breadth-first sweeps

Nodes wait in a queue; one that was not seen before is visited, and its unseen neighbours
join the end of the queue.  The sweep ends because every visit uses up a node and what it
pushes is paid for by that node's neighbours.  It visits what the queue leads to through
unseen nodes (`mem_breadthFirst_iff` for a sweep that has seen nothing).
-/

namespace Lait.Graph

variable {α : Type*} [DecidableEq α]

/-- The waiting nodes, and the neighbours of those that may still be visited. -/
def backlog {α : Type*} [DecidableEq α] [Fintype α] (next : α → List α) (queue : List α)
    (seen : Finset α) : ℕ :=
  queue.length + ∑ v ∈ Finset.univ \ seen, (next v).length

/-- A sweep from a queue: the nodes seen, and the nodes visited in order. -/
def breadthFirst {α : Type*} [DecidableEq α] [Fintype α] (next : α → List α) :
    List α → Finset α → List α → Finset α × List α
  | [], seen, visited => (seen, visited)
  | node :: queue, seen, visited =>
      if node ∈ seen then breadthFirst next queue seen visited
      else
        breadthFirst next (queue ++ (next node).filter fun v => v ∉ insert node seen)
          (insert node seen) (visited ++ [node])
termination_by queue seen => backlog next queue seen
decreasing_by
  · simp [backlog]
  · rename_i hnew
    have hsum := Finset.add_sum_erase (Finset.univ \ seen) (fun v => (next v).length)
      (Finset.mem_sdiff.mpr ⟨Finset.mem_univ node, hnew⟩)
    have hfilter := List.length_filter_le (fun v => decide (v ∉ insert node seen)) (next node)
    simp only [backlog, Finset.sdiff_insert, List.length_append, List.length_cons]
    omega

variable [Fintype α] {next : α → List α}

/-- What a sweep sees is what it had seen and what the queue leads to. -/
theorem breadthFirst_sound {queue visited : List α} {seen : Finset α} {v : α}
    (hv : v ∈ (breadthFirst next queue seen visited).1) :
    v ∈ seen ∨ ∃ s ∈ queue, Relation.ReflTransGen (fun a b => b ∈ next a) s v := by
  fun_induction breadthFirst next queue seen visited with
  | case1 => exact Or.inl hv
  | case2 node queue seen visited hseen ih =>
      rcases ih hv with hv | ⟨s, hs, hreach⟩
      · exact Or.inl hv
      · exact Or.inr ⟨s, List.mem_cons_of_mem _ hs, hreach⟩
  | case3 node queue seen visited hnew ih =>
      rcases ih hv with hv | ⟨s, hs, hreach⟩
      · rcases Finset.mem_insert.mp hv with rfl | hv
        · exact Or.inr ⟨v, List.mem_cons_self, .refl⟩
        · exact Or.inl hv
      · rcases List.mem_append.mp hs with hs | hs
        · exact Or.inr ⟨s, List.mem_cons_of_mem _ hs, hreach⟩
        · exact Or.inr ⟨node, List.mem_cons_self, .head (List.mem_of_mem_filter hs) hreach⟩

/-- A sweep sees its queue, and the neighbours of what it sees. -/
theorem breadthFirst_complete {queue visited : List α} {seen : Finset α}
    (hinv : ∀ a ∈ seen, ∀ b ∈ next a, b ∈ seen ∨ b ∈ queue) :
    seen ⊆ (breadthFirst next queue seen visited).1 ∧
      (∀ s ∈ queue, s ∈ (breadthFirst next queue seen visited).1) ∧
      ∀ a ∈ (breadthFirst next queue seen visited).1, ∀ b ∈ next a,
        b ∈ (breadthFirst next queue seen visited).1 := by
  fun_induction breadthFirst next queue seen visited with
  | case1 seen visited =>
      exact ⟨subset_rfl, by simp, fun a ha b hb => (hinv a ha b hb).resolve_right (by simp)⟩
  | case2 node queue seen visited hseen ih =>
      obtain ⟨hgrown, hqueue, hclosed⟩ := ih fun a ha b hb => by
        rcases hinv a ha b hb with hb | hb
        · exact Or.inl hb
        · rcases List.mem_cons.mp hb with rfl | hb
          · exact Or.inl hseen
          · exact Or.inr hb
      exact ⟨hgrown, List.forall_mem_cons.mpr ⟨hgrown hseen, hqueue⟩, hclosed⟩
  | case3 node queue seen visited hnew ih =>
      obtain ⟨hgrown, hqueue, hclosed⟩ := ih fun a ha b hb => by
        by_cases hold : b ∈ insert node seen
        · exact Or.inl hold
        · refine Or.inr (List.mem_append.mpr ?_)
          rcases Finset.mem_insert.mp ha with rfl | ha
          · exact Or.inr (List.mem_filter.mpr ⟨hb, by simpa using hold⟩)
          · rcases hinv a ha b hb with hb | hb
            · exact absurd (Finset.mem_insert_of_mem hb) hold
            · rcases List.mem_cons.mp hb with rfl | hb
              · exact absurd (Finset.mem_insert_self _ _) hold
              · exact Or.inl hb
      refine ⟨(Finset.subset_insert _ _).trans hgrown, fun s hs => ?_, hclosed⟩
      rcases List.mem_cons.mp hs with rfl | hs
      · exact hgrown (Finset.mem_insert_self _ _)
      · exact hqueue s (List.mem_append_left _ hs)

/-- **A fresh sweep sees exactly what its queue leads to.** -/
theorem mem_breadthFirst_iff {queue visited : List α} {v : α} :
    v ∈ (breadthFirst next queue ∅ visited).1 ↔
      ∃ s ∈ queue, Relation.ReflTransGen (fun a b => b ∈ next a) s v := by
  constructor
  · exact fun hv => (breadthFirst_sound hv).resolve_left (Finset.notMem_empty v)
  · rintro ⟨s, hs, hreach⟩
    obtain ⟨-, hqueue, hclosed⟩ := @breadthFirst_complete _ _ _ next queue visited ∅
      (by simp)
    induction hreach with
    | refl => exact hqueue s hs
    | tail _ edge ih => exact hclosed _ ih _ edge

end Lait.Graph
