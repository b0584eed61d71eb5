import Mathlib

/-!
# Finite parent graphs

A hash-linked log is a finite set of nodes in which every node *names* its
parents.  A named parent need not be held, so the edges that matter are the
ones between two present nodes.  This file develops that object on its own: it
names nothing of any particular log.

* `ParentGraph` — the nodes, and the list of parents each one names.
* `Edge` / `Ancestor` — one present link, and its transitive closure.
* `Acyclic` — nobody is their own ancestor.  On a finite graph this is
  well-foundedness in both directions, and both are used: the upward one finds
  a source above every node, the downward one finds a head below it.
* `restrict` — the graph on a subset of the nodes; on a subset closed under
  parents it has the same ancestors.
* `visit` — the depth-first search that computes ancestor sets.  Its fuel is
  the total number of links still to be pushed, so `mem_ancestors` is an exact
  statement and not a partial-correctness one.
-/

/-- A finite graph given by its nodes and the parents each of them names. -/
structure ParentGraph (α : Type*) where
  nodes : Finset α
  parents : α → List α

namespace ParentGraph

variable {α : Type*}

/-- `p` is a present parent of the present node `h`. -/
def Edge (G : ParentGraph α) (p h : α) : Prop :=
  p ∈ G.nodes ∧ h ∈ G.nodes ∧ p ∈ G.parents h

/-- `p` is reachable from `h` by at least one present parent link. -/
def Ancestor (G : ParentGraph α) : α → α → Prop := Relation.TransGen G.Edge

/-- No node is its own ancestor. -/
def Acyclic (G : ParentGraph α) : Prop := ∀ h, ¬ G.Ancestor h h

/-- A node no present node names as a parent. -/
def IsHead (G : ParentGraph α) (h : α) : Prop :=
  h ∈ G.nodes ∧ ∀ k ∈ G.nodes, h ∉ G.parents k

/-- A set of nodes that holds every present parent of its members. -/
def ParentClosed (G : ParentGraph α) (A : Finset α) : Prop :=
  ∀ h ∈ A, ∀ p, G.Edge p h → p ∈ A

theorem Ancestor.trans {G : ParentGraph α} {a b c : α} (hab : G.Ancestor a b)
    (hbc : G.Ancestor b c) : G.Ancestor a c :=
  Relation.TransGen.trans hab hbc

theorem Edge.ancestor {G : ParentGraph α} {p h : α} (he : G.Edge p h) :
    G.Ancestor p h :=
  Relation.TransGen.single he

theorem Ancestor.mem_left {G : ParentGraph α} {a b : α} (hab : G.Ancestor a b) :
    a ∈ G.nodes := by
  obtain ⟨c, hac, -⟩ := Relation.TransGen.head'_iff.mp hab
  exact hac.1

theorem Ancestor.mem_right {G : ParentGraph α} {a b : α} (hab : G.Ancestor a b) :
    b ∈ G.nodes := by
  obtain ⟨c, -, hcb⟩ := Relation.TransGen.tail'_iff.mp hab
  exact hcb.2.1

/-- A parent-closed set holds the ancestors of its members. -/
theorem ParentClosed.ancestor_mem {G : ParentGraph α} {A : Finset α}
    (hA : G.ParentClosed A) {a h : α} (hh : h ∈ A) (ha : G.Ancestor a h) : a ∈ A := by
  induction ha using Relation.TransGen.head_induction_on with
  | single he => exact hA _ hh _ he
  | head he _ ih => exact hA _ ih _ he

/-- More nodes and the same parents give more ancestors. -/
theorem Ancestor.mono {G H : ParentGraph α} (hnodes : G.nodes ⊆ H.nodes)
    (hparents : ∀ h ∈ G.nodes, ∀ p ∈ G.parents h, p ∈ H.parents h) {a h : α}
    (ha : G.Ancestor a h) : H.Ancestor a h := by
  have hedge : G.Edge ≤ H.Edge := fun _ _ he =>
    ⟨hnodes he.1, hnodes he.2.1, hparents _ he.2.1 _ he.2.2⟩
  exact Relation.TransGen.mono hedge a h ha

/-- Ancestors depend on the nodes and on what the present ones name. -/
theorem ancestor_congr {G H : ParentGraph α} (hnodes : G.nodes = H.nodes)
    (hparents : ∀ h ∈ G.nodes, ∀ p, p ∈ G.parents h ↔ p ∈ H.parents h) {a h : α} :
    G.Ancestor a h ↔ H.Ancestor a h :=
  ⟨fun ha => ha.mono hnodes.subset fun k hk p hp => (hparents k hk p).mp hp,
    fun ha => ha.mono hnodes.superset fun k hk p hp => (hparents k (hnodes ▸ hk) p).mpr hp⟩

/-! ## Well-foundedness of a finite acyclic graph

The measure is the size of the ancestor (or descendant) set: along an edge it
grows, because the edge's own end joins it and acyclicity keeps it out of the
smaller set. -/

open Classical in
theorem Acyclic.wellFounded {G : ParentGraph α} (hacyc : G.Acyclic) :
    WellFounded G.Edge := by
  refine Subrelation.wf (r := InvImage (· < ·)
    fun h => (G.nodes.filter fun a => G.Ancestor a h).card) ?_ (InvImage.wf _ Nat.lt_wfRel.wf)
  intro p h he
  refine Finset.card_lt_card (Finset.ssubset_iff_of_subset ?_ |>.mpr ⟨p, ?_, ?_⟩)
  · intro a ha
    rw [Finset.mem_filter] at ha ⊢
    exact ⟨ha.1, ha.2.trans he.ancestor⟩
  · exact Finset.mem_filter.mpr ⟨he.1, he.ancestor⟩
  · exact fun hp => hacyc p (Finset.mem_filter.mp hp).2

open Classical in
theorem Acyclic.wellFounded_swap {G : ParentGraph α} (hacyc : G.Acyclic) :
    WellFounded (Function.swap G.Edge) := by
  refine Subrelation.wf (r := InvImage (· < ·)
    fun h => (G.nodes.filter fun a => G.Ancestor h a).card) ?_ (InvImage.wf _ Nat.lt_wfRel.wf)
  intro h p he
  have he' : G.Edge p h := he
  refine Finset.card_lt_card (Finset.ssubset_iff_of_subset ?_ |>.mpr ⟨h, ?_, ?_⟩)
  · intro a ha
    rw [Finset.mem_filter] at ha ⊢
    exact ⟨ha.1, he'.ancestor.trans ha.2⟩
  · exact Finset.mem_filter.mpr ⟨he'.2.1, he'.ancestor⟩
  · exact fun hh => hacyc h (Finset.mem_filter.mp hh).2

/-- A rank that grows along every edge leaves no room for a cycle. -/
theorem acyclic_of_rank {G : ParentGraph α} (rank : α → ℕ)
    (h : ∀ p c, G.Edge p c → rank p < rank c) : G.Acyclic := by
  intro c hc
  have hlt : ∀ {a b}, G.Ancestor a b → rank a < rank b := by
    intro a b hab
    induction hab with
    | single he => exact h _ _ he
    | tail _ he ih => exact ih.trans (h _ _ he)
  exact (hlt hc).false

/-- Below every node of an acyclic graph there is a head. -/
theorem Acyclic.exists_head {G : ParentGraph α} (hacyc : G.Acyclic) {h : α}
    (hh : h ∈ G.nodes) : ∃ k, G.IsHead k ∧ (h = k ∨ G.Ancestor h k) := by
  induction h using hacyc.wellFounded_swap.induction with
  | _ h ih =>
  by_cases hhead : ∀ k ∈ G.nodes, h ∉ G.parents k
  · exact ⟨h, ⟨hh, hhead⟩, Or.inl rfl⟩
  · push Not at hhead
    obtain ⟨c, hc, hhc⟩ := hhead
    have he : G.Edge h c := ⟨hh, hc, hhc⟩
    obtain ⟨k, hk, hck⟩ := ih c he hc
    refine ⟨k, hk, Or.inr ?_⟩
    rcases hck with rfl | hck
    · exact he.ancestor
    · exact he.ancestor.trans hck

/-- Above every node of an acyclic graph there is a node without present
parents. -/
theorem Acyclic.exists_source {G : ParentGraph α} (hacyc : G.Acyclic) {h : α}
    (hh : h ∈ G.nodes) :
    ∃ s ∈ G.nodes, (∀ p ∈ G.parents s, p ∉ G.nodes) ∧ (s = h ∨ G.Ancestor s h) := by
  induction h using hacyc.wellFounded.induction with
  | _ h ih =>
  by_cases hsrc : ∀ p ∈ G.parents h, p ∉ G.nodes
  · exact ⟨h, hh, hsrc, Or.inl rfl⟩
  · push Not at hsrc
    obtain ⟨p, hp, hpn⟩ := hsrc
    have he : G.Edge p h := ⟨hpn, hh, hp⟩
    obtain ⟨s, hs, hsrc', hsp⟩ := ih p he hpn
    refine ⟨s, hs, hsrc', Or.inr ?_⟩
    rcases hsp with rfl | hsp
    · exact he.ancestor
    · exact hsp.trans he.ancestor

/-! ## Restriction to a subset of the nodes -/

section Restrict

variable [DecidableEq α]

/-- The graph on the nodes that lie in `A`. -/
def restrict (G : ParentGraph α) (A : Finset α) : ParentGraph α where
  nodes := G.nodes ∩ A
  parents := G.parents

@[simp] theorem mem_restrict_nodes {G : ParentGraph α} {A : Finset α} {h : α} :
    h ∈ (G.restrict A).nodes ↔ h ∈ G.nodes ∧ h ∈ A := Finset.mem_inter

@[simp] theorem restrict_parents (G : ParentGraph α) (A : Finset α) :
    (G.restrict A).parents = G.parents := rfl

theorem Ancestor.of_restrict {G : ParentGraph α} {A : Finset α} {a h : α}
    (ha : (G.restrict A).Ancestor a h) : G.Ancestor a h :=
  Ancestor.mono (G := G.restrict A) Finset.inter_subset_left (fun _ _ _ hp => hp) ha

/-- Inside a parent-closed set, restricting changes no ancestor. -/
theorem ParentClosed.ancestor_restrict_iff {G : ParentGraph α} {A : Finset α}
    (hA : G.ParentClosed A) {a h : α} (hh : h ∈ A) :
    (G.restrict A).Ancestor a h ↔ G.Ancestor a h := by
  refine ⟨Ancestor.of_restrict, fun ha => ?_⟩
  induction ha using Relation.TransGen.head_induction_on with
  | single he =>
      exact Edge.ancestor ⟨mem_restrict_nodes.mpr ⟨he.1, hA _ hh _ he⟩,
        mem_restrict_nodes.mpr ⟨he.2.1, hh⟩, he.2.2⟩
  | head he hc ih =>
      have hcA := hA.ancestor_mem hh hc
      exact Ancestor.trans (Edge.ancestor ⟨mem_restrict_nodes.mpr ⟨he.1, hA _ hcA _ he⟩,
        mem_restrict_nodes.mpr ⟨he.2.1, hcA⟩, he.2.2⟩) ih

end Restrict

/-! ## Computing ancestor sets

`visit` is the worklist search: the head of the list is the top of the stack,
so a pushed parent list arrives reversed. -/

section Visit

variable [DecidableEq α]

/-- Pop a name; if it is present and new, record it and push its parents. -/
def visit (G : ParentGraph α) : ℕ → List α → Finset α → Finset α
  | 0, _, anc => anc
  | _ + 1, [], anc => anc
  | fuel + 1, p :: stack, anc =>
      if p ∈ G.nodes ∧ p ∉ anc then
        visit G fuel ((G.parents p).reverse ++ stack) (insert p anc)
      else visit G fuel stack anc

/-- The links not yet pushed, plus the names waiting on the stack: every step
of `visit` brings this down by exactly one. -/
def pending (G : ParentGraph α) (stack : List α) (anc : Finset α) : ℕ :=
  stack.length + ∑ p ∈ G.nodes \ anc, (G.parents p).length

/-- The ancestor set of a node, by a search from its parents. -/
def ancestors (G : ParentGraph α) (h : α) : Finset α :=
  G.visit (G.pending (G.parents h) ∅) (G.parents h).reverse ∅

theorem pending_push (G : ParentGraph α) {p : α} (stack : List α) {anc : Finset α}
    (hp : p ∈ G.nodes) (hnew : p ∉ anc) :
    G.pending ((G.parents p).reverse ++ stack) (insert p anc) + 1
      = G.pending (p :: stack) anc := by
  have hmem : p ∈ G.nodes \ anc := Finset.mem_sdiff.mpr ⟨hp, hnew⟩
  have hsplit := Finset.add_sum_erase (G.nodes \ anc) (fun q => (G.parents q).length) hmem
  have herase : (G.nodes \ anc).erase p = G.nodes \ insert p anc := by
    ext q; simp; tauto
  rw [herase] at hsplit
  simp only [pending, List.length_append, List.length_reverse, List.length_cons]
  omega

/-- The search only ever records present ancestors-or-selves of what was on
the stack. -/
theorem mem_visit_sound (G : ParentGraph α) :
    ∀ (fuel : ℕ) (stack : List α) (anc : Finset α) {a : α},
      a ∈ G.visit fuel stack anc →
        a ∈ anc ∨ ∃ s ∈ stack, s ∈ G.nodes ∧ Relation.ReflTransGen G.Edge a s := by
  intro fuel
  induction fuel with
  | zero => intro stack anc a ha; exact Or.inl ha
  | succ fuel ih =>
      intro stack anc a ha
      cases stack with
      | nil => exact Or.inl ha
      | cons p stack =>
          rw [visit] at ha
          split at ha
          next hnew =>
            rcases ih _ _ ha with hanc | ⟨s, hs, hsn, has⟩
            · rcases Finset.mem_insert.mp hanc with rfl | hanc
              · exact Or.inr ⟨a, List.mem_cons_self, hnew.1, .refl⟩
              · exact Or.inl hanc
            · rcases List.mem_append.mp hs with hs | hs
              · exact Or.inr ⟨p, List.mem_cons_self, hnew.1,
                  has.tail ⟨hsn, hnew.1, List.mem_reverse.mp hs⟩⟩
              · exact Or.inr ⟨s, List.mem_cons_of_mem _ hs, hsn, has⟩
          next =>
            rcases ih _ _ ha with hanc | ⟨s, hs, hsn, has⟩
            · exact Or.inl hanc
            · exact Or.inr ⟨s, List.mem_cons_of_mem _ hs, hsn, has⟩

/-- With enough fuel the search ends in a parent-closed set that holds what it
had recorded and every present name on the stack.  The invariant is that a
recorded node's present parents are recorded or still waiting. -/
theorem visit_complete (G : ParentGraph α) :
    ∀ (fuel : ℕ) (stack : List α) (anc : Finset α),
      G.pending stack anc ≤ fuel →
      (∀ h ∈ anc, ∀ p, G.Edge p h → p ∈ anc ∨ p ∈ stack) →
        anc ⊆ G.visit fuel stack anc ∧
        (∀ s ∈ stack, s ∈ G.nodes → s ∈ G.visit fuel stack anc) ∧
        G.ParentClosed (G.visit fuel stack anc) := by
  intro fuel
  induction fuel with
  | zero =>
      intro stack anc hfuel hinv
      obtain rfl : stack = [] := List.length_eq_zero_iff.mp (by
        simp only [pending] at hfuel; omega)
      exact ⟨subset_rfl, by simp, fun h hh p he => (hinv h hh p he).resolve_right (by simp)⟩
  | succ fuel ih =>
      intro stack anc hfuel hinv
      cases stack with
      | nil =>
          exact ⟨subset_rfl, by simp,
            fun h hh p he => (hinv h hh p he).resolve_right (by simp)⟩
      | cons q stack =>
          rw [visit]
          split
          next hnew =>
            have hstep := G.pending_push stack hnew.1 hnew.2
            obtain ⟨hanc, hstack, hclosed⟩ := ih ((G.parents q).reverse ++ stack)
              (insert q anc) (by omega) (by
                intro h hh p he
                rcases Finset.mem_insert.mp hh with rfl | hh
                · exact Or.inr (List.mem_append_left _ (List.mem_reverse.mpr he.2.2))
                · rcases hinv h hh p he with hp | hp
                  · exact Or.inl (Finset.mem_insert_of_mem hp)
                  · rcases List.mem_cons.mp hp with rfl | hp
                    · exact Or.inl (Finset.mem_insert_self _ _)
                    · exact Or.inr (List.mem_append_right _ hp))
            refine ⟨(Finset.subset_insert _ _).trans hanc, fun s hs hsn => ?_, hclosed⟩
            rcases List.mem_cons.mp hs with rfl | hs
            · exact hanc (Finset.mem_insert_self _ _)
            · exact hstack s (List.mem_append_right _ hs) hsn
          next hold =>
            have hq : q ∈ G.nodes → q ∈ anc := fun hqn => by
              by_contra hqa
              exact hold ⟨hqn, hqa⟩
            obtain ⟨hanc, hstack, hclosed⟩ := ih stack anc
              (by simp only [pending, List.length_cons] at hfuel ⊢; omega) (by
                intro h hh p he
                rcases hinv h hh p he with hp | hp
                · exact Or.inl hp
                · rcases List.mem_cons.mp hp with rfl | hp
                  · exact Or.inl (hq he.1)
                  · exact Or.inr hp)
            refine ⟨hanc, fun s hs hsn => ?_, hclosed⟩
            rcases List.mem_cons.mp hs with rfl | hs
            · exact hanc (hq hsn)
            · exact hstack s hs hsn

/-- **The search computes exactly the ancestors.** -/
theorem mem_ancestors {G : ParentGraph α} {a h : α} (hh : h ∈ G.nodes) :
    a ∈ G.ancestors h ↔ G.Ancestor a h := by
  constructor
  · intro ha
    rcases G.mem_visit_sound _ _ _ ha with hempty | ⟨s, hs, hsn, has⟩
    · simp at hempty
    · exact Relation.TransGen.tail' has ⟨hsn, hh, List.mem_reverse.mp hs⟩
  · intro ha
    obtain ⟨-, hstack, hclosed⟩ := G.visit_complete (G.pending (G.parents h) ∅)
      (G.parents h).reverse ∅ (by simp [pending]) (by simp)
    obtain ⟨p, hap, hph⟩ := Relation.TransGen.tail'_iff.mp ha
    have hp : p ∈ G.ancestors h := hstack p (List.mem_reverse.mpr hph.2.2) hph.1
    induction hap using Relation.ReflTransGen.head_induction_on with
    | refl => exact hp
    | head he hcp ih =>
        exact hclosed _ (ih (Relation.TransGen.tail' hcp hph)) _ he

end Visit

end ParentGraph
