import Lait.Graph.ParentGraph

/-!
# Smallest-first topological orders

Kahn's algorithm with a sorted ready set is deterministic: at every step it
emits the smallest node whose present parents have all been emitted.
`KahnRun G done l` says that exactly `l` is emitted once `done` has been, and
nothing about how an implementation keeps its in-degrees.

Everything a replay needs from the order is a fact about this relation:

* `KahnRun.unique` — the order depends on the node set alone;
* `KahnRun.parents_before` — a node comes after its present parents;
* `KahnRun.complete` — on an acyclic graph no node is left over;
* `KahnRun.filter_closed` — restricted to a parent-closed subset, the order is
  that subset's own order;
* `KahnRun.append` — when every node of a second part descends from every node
  of a parent-closed first part, the order is the two orders in a row.
-/

namespace ParentGraph

variable {α : Type*} [LinearOrder α]

/-- `h` is present, not yet emitted, and all its present parents are. -/
def Ready (G : ParentGraph α) (done : Finset α) (h : α) : Prop :=
  h ∈ G.nodes ∧ h ∉ done ∧ ∀ p ∈ G.parents h, p ∈ G.nodes → p ∈ done

/-- `l` is what smallest-first Kahn emits after `done`. -/
inductive KahnRun (G : ParentGraph α) : Finset α → List α → Prop
  | stuck {done} : (∀ h, ¬ G.Ready done h) → KahnRun G done []
  | emit {done h l} : G.Ready done h → (∀ k, G.Ready done k → h ≤ k) →
      KahnRun G (insert h done) l → KahnRun G done (h :: l)

namespace KahnRun

variable {G : ParentGraph α} {done : Finset α} {l : List α}

/-- Two runs from the same state emit the same list. -/
theorem unique {l' : List α} (hl : KahnRun G done l) (hl' : KahnRun G done l') :
    l = l' := by
  induction hl generalizing l' with
  | stuck hnone =>
      cases hl' with
      | stuck => rfl
      | emit hready => exact absurd hready (hnone _)
  | emit hready hmin _ ih =>
      cases hl' with
      | stuck hnone => exact absurd hready (hnone _)
      | emit hready' hmin' hrest' =>
          obtain rfl := le_antisymm (hmin _ hready') (hmin' _ hready)
          rw [ih hrest']

/-- Emitted nodes are present and were not emitted before. -/
theorem mem (hl : KahnRun G done l) {h : α} (hh : h ∈ l) : h ∈ G.nodes ∧ h ∉ done := by
  induction hl with
  | stuck => simp at hh
  | emit hready _ _ ih =>
      rcases List.mem_cons.mp hh with rfl | hh
      · exact ⟨hready.1, hready.2.1⟩
      · obtain ⟨hnode, hnot⟩ := ih hh
        exact ⟨hnode, fun hd => hnot (Finset.mem_insert_of_mem hd)⟩

theorem nodup (hl : KahnRun G done l) : l.Nodup := by
  induction hl with
  | stuck => exact List.nodup_nil
  | emit _ _ hrest ih =>
      exact List.nodup_cons.mpr
        ⟨fun hmem => (hrest.mem hmem).2 (Finset.mem_insert_self _ _), ih⟩

/-- **The order respects the links**: whatever stands before a node in the
list, together with what was emitted earlier, holds its present parents. -/
theorem parents_before {l₁ l₂ : List α} {h p : α} (hl : KahnRun G done l)
    (hsplit : l = l₁ ++ h :: l₂) (hp : p ∈ G.parents h) (hpn : p ∈ G.nodes) :
    p ∈ done ∨ p ∈ l₁ := by
  induction hl generalizing l₁ with
  | stuck => simp at hsplit
  | emit hready _ _ ih =>
      cases l₁ with
      | nil =>
          obtain ⟨rfl, rfl⟩ := List.cons.inj hsplit
          exact Or.inl (hready.2.2 p hp hpn)
      | cons k l₁ =>
          obtain ⟨rfl, rfl⟩ := List.cons.inj hsplit
          rcases ih rfl with hdone | hl₁
          · rcases Finset.mem_insert.mp hdone with rfl | hdone
            · exact Or.inr List.mem_cons_self
            · exact Or.inl hdone
          · exact Or.inr (List.mem_cons_of_mem _ hl₁)

/-- An emitted node comes after all its ancestors. -/
theorem ancestors_before {l₁ l₂ : List α} {h a : α} (hl : KahnRun G ∅ l)
    (hsplit : l = l₁ ++ h :: l₂) (ha : G.Ancestor a h) : a ∈ l₁ := by
  induction ha using Relation.TransGen.head_induction_on with
  | single he =>
      exact (hl.parents_before hsplit he.2.2 he.1).resolve_left (Finset.notMem_empty _)
  | head he _ ih =>
      obtain ⟨m₁, m₂, rfl⟩ := List.append_of_mem ih
      rw [List.append_assoc, List.cons_append] at hsplit
      have hm := (hl.parents_before hsplit he.2.2 he.1).resolve_left (Finset.notMem_empty _)
      exact List.mem_append_left _ hm

/-- No node is emitted before one of its ancestors. -/
theorem pairwise (hl : KahnRun G ∅ l) : l.Pairwise fun h k => ¬ G.Ancestor k h := by
  rw [List.pairwise_iff_forall_sublist]
  intro h k hsub hanc
  obtain ⟨l₁, l₂, rfl, hh, hk⟩ := List.cons_sublist_iff.mp hsub
  obtain ⟨m₁, m₂, rfl⟩ := List.append_of_mem hh
  have hsplit : (m₁ ++ h :: m₂) ++ l₂ = m₁ ++ h :: (m₂ ++ l₂) := by
    rw [List.append_assoc, List.cons_append]
  have hbefore : k ∈ m₁ := hl.ancestors_before hsplit hanc
  exact List.disjoint_of_nodup_append hl.nodup (List.mem_append_left _ hbefore)
    (List.singleton_sublist.mp hk)

/-- **On an acyclic graph nothing is left over.** -/
theorem complete (hl : KahnRun G done l) (hacyc : G.Acyclic) {h : α}
    (hh : h ∈ G.nodes) : h ∈ done ∨ h ∈ l := by
  induction hl with
  | @stuck done hnone =>
      refine Or.inl ?_
      induction h using hacyc.wellFounded.induction with
      | _ h ih =>
      by_contra hnot
      exact hnone h ⟨hh, hnot, fun p hp hpn => ih p ⟨hpn, hh, hp⟩ hpn⟩
  | emit _ _ _ ih =>
      rcases ih with hdone | hmem
      · rcases Finset.mem_insert.mp hdone with rfl | hdone
        · exact Or.inr List.mem_cons_self
        · exact Or.inl hdone
      · exact Or.inr (List.mem_cons_of_mem _ hmem)

/-- Only the emitted nodes *of the graph* matter to a run. -/
theorem congr_done {done' : Finset α} (hl : KahnRun G done l)
    (hsame : ∀ h ∈ G.nodes, h ∈ done ↔ h ∈ done') : KahnRun G done' l := by
  have hready : ∀ {d d' : Finset α}, (∀ h ∈ G.nodes, h ∈ d ↔ h ∈ d') →
      ∀ {h}, G.Ready d h → G.Ready d' h := by
    intro d d' hd h hr
    exact ⟨hr.1, fun hh => hr.2.1 ((hd h hr.1).mpr hh),
      fun p hp hpn => (hd p hpn).mp (hr.2.2 p hp hpn)⟩
  induction hl generalizing done' with
  | stuck hnone =>
      exact .stuck fun h hr => hnone h (hready (fun k hk => (hsame k hk).symm) hr)
  | emit hr hmin _ ih =>
      refine .emit (hready hsame hr)
        (fun k hk => hmin k (hready (fun j hj => (hsame j hj).symm) hk)) (ih ?_)
      intro k hk
      simp [hsame k hk]

/-- A run depends on the nodes and on what the present ones name. -/
theorem congr_graph {H : ParentGraph α} (hl : KahnRun G done l) (hnodes : G.nodes = H.nodes)
    (hparents : ∀ h ∈ G.nodes, ∀ p, p ∈ G.parents h ↔ p ∈ H.parents h) :
    KahnRun H done l := by
  have hready : ∀ {d : Finset α} {h : α}, G.Ready d h ↔ H.Ready d h := by
    intro d h
    rw [Ready, Ready, ← hnodes]
    refine and_congr_right fun hh => and_congr_right fun _ => forall_congr' fun p => ?_
    rw [hparents h hh]
  induction hl with
  | stuck hnone => exact .stuck fun h hr => hnone h (hready.mpr hr)
  | emit hr hmin _ ih => exact .emit (hready.mp hr) (fun k hk => hmin k (hready.mpr hk)) ih

/-! ## Parent-closed parts -/

/-- A parent-closed subset reads its own order off the whole one. -/
theorem filter_closed {A : Finset α} (hA : G.ParentClosed A) (hl : KahnRun G done l) :
    KahnRun (G.restrict A) done (l.filter (· ∈ A)) := by
  have hup : ∀ {d : Finset α} {k : α}, (G.restrict A).Ready d k → G.Ready d k := by
    intro d k hk
    obtain ⟨hkn, hkA⟩ := mem_restrict_nodes.mp hk.1
    exact ⟨hkn, hk.2.1, fun p hp hpn => hk.2.2 p hp
      (mem_restrict_nodes.mpr ⟨hpn, hA k hkA p ⟨hpn, hkn, hp⟩⟩)⟩
  induction hl with
  | stuck hnone => exact .stuck fun k hk => hnone k (hup hk)
  | @emit done h l hready hmin _ ih =>
      by_cases hhA : h ∈ A
      · rw [List.filter_cons_of_pos (by simpa using hhA)]
        refine .emit ⟨mem_restrict_nodes.mpr ⟨hready.1, hhA⟩, hready.2.1, ?_⟩
          (fun k hk => hmin k (hup hk)) ih
        exact fun p hp hpn => hready.2.2 p hp (mem_restrict_nodes.mp hpn).1
      · rw [List.filter_cons_of_neg (by simpa using hhA)]
        refine ih.congr_done fun k hk => ?_
        have hne : k ≠ h := fun hkh => hhA (hkh ▸ (mem_restrict_nodes.mp hk).2)
        simp [hne]

/-- The second half of `append`: once all of `P` is out, what remains runs as
if `P` had never been there. -/
private theorem after_prefix {P : Finset α} {l : List α}
    (hl : KahnRun (G.restrict (G.nodes \ P)) done l) : KahnRun G (P ∪ done) l := by
  have hiff : ∀ {d : Finset α} {k : α},
      G.Ready (P ∪ d) k ↔ (G.restrict (G.nodes \ P)).Ready d k := by
    intro d k
    simp only [Ready, mem_restrict_nodes, Finset.mem_sdiff, Finset.mem_union,
      restrict_parents, not_or]
    constructor
    · rintro ⟨hk, ⟨hkP, hkd⟩, hpar⟩
      exact ⟨⟨hk, hk, hkP⟩, hkd, fun p hp hpn => (hpar p hp hpn.1).resolve_left hpn.2.2⟩
    · rintro ⟨⟨hk, -, hkP⟩, hkd, hpar⟩
      refine ⟨hk, ⟨hkP, hkd⟩, fun p hp hpn => ?_⟩
      by_cases hpP : p ∈ P
      · exact Or.inl hpP
      · exact Or.inr (hpar p hp ⟨hpn, hpn, hpP⟩)
  induction hl with
  | stuck hnone => exact .stuck fun k hk => hnone k (hiff.mp hk)
  | emit hready hmin _ ih =>
      rw [Finset.union_insert] at ih
      exact .emit (hiff.mpr hready) (fun k hk => hmin k (hiff.mp hk)) ih

/-- **Domination.**  If `P` is parent-closed and everything outside it descends
from all of it, then the whole order is `P`'s order followed by the rest's: no
outside node is ready before the last of `P` is out. -/
theorem append {P : Finset α} {l₁ l₂ : List α}
    (hP : G.ParentClosed P)
    (hdom : ∀ s ∈ G.nodes, s ∉ P → ∀ p ∈ P, G.Ancestor p s)
    (h₁ : KahnRun (G.restrict P) ∅ l₁) (hall : ∀ p ∈ P, p ∈ l₁)
    (h₂ : KahnRun (G.restrict (G.nodes \ P)) ∅ l₂) : KahnRun G ∅ (l₁ ++ l₂) := by
  -- The induction is over `P`'s own run; `d` is what it has emitted so far.
  suffices hgen : ∀ {d : Finset α} {l : List α}, KahnRun (G.restrict P) d l →
      d ⊆ P → G.ParentClosed d → (∀ p ∈ P, p ∈ d ∨ p ∈ l) →
      KahnRun G d (l ++ l₂) by
    refine hgen h₁ (Finset.empty_subset _) (fun h hh => absurd hh (Finset.notMem_empty _)) ?_
    exact fun p hp => Or.inr (hall p hp)
  intro d l hl
  induction hl with
  | @stuck d hnone =>
      intro hd _ hcover
      have hdP : d = P := Finset.Subset.antisymm hd fun p hp =>
        (hcover p hp).resolve_right (by simp)
      have := after_prefix h₂
      rwa [Finset.union_empty, ← hdP] at this
  | @emit d h l hready hmin hrest ih =>
      intro hd hclosed hcover
      obtain ⟨hhn, hhP⟩ := mem_restrict_nodes.mp hready.1
      have hpar : ∀ p, G.Edge p h → p ∈ d := fun p he =>
        hready.2.2 p he.2.2 (mem_restrict_nodes.mpr ⟨he.1, hP h hhP p he⟩)
      -- An outside node that is ready has its parents in `d`, hence all of `P`.
      have houtside : ∀ k, G.Ready d k → k ∈ P := by
        intro k hk
        by_contra hkP
        obtain ⟨q, hhq, hqk⟩ := Relation.TransGen.tail'_iff.mp (hdom k hk.1 hkP h hhP)
        have hqd : q ∈ d := hk.2.2 q hqk.2.2 hqk.1
        refine hready.2.1 ?_
        rcases Relation.reflTransGen_iff_eq_or_transGen.mp hhq with rfl | hhq
        · exact hqd
        · exact hclosed.ancestor_mem hqd hhq
      refine .emit ⟨hhn, hready.2.1, fun p hp hpn => hpar p ⟨hpn, hhn, hp⟩⟩ ?_ (ih ?_ ?_ ?_)
      · intro k hk
        exact hmin k ⟨mem_restrict_nodes.mpr ⟨hk.1, houtside k hk⟩, hk.2.1,
          fun p hp hpn => hk.2.2 p hp (mem_restrict_nodes.mp hpn).1⟩
      · exact Finset.insert_subset hhP hd
      · intro k hk p he
        rcases Finset.mem_insert.mp hk with rfl | hk
        · exact Finset.mem_insert_of_mem (hpar p he)
        · exact Finset.mem_insert_of_mem (hclosed k hk p he)
      · intro p hp
        rcases hcover p hp with hpd | hpl
        · exact Or.inl (Finset.mem_insert_of_mem hpd)
        · rcases List.mem_cons.mp hpl with rfl | hpl
          · exact Or.inl (Finset.mem_insert_self _ _)
          · exact Or.inr hpl

end KahnRun

end ParentGraph
