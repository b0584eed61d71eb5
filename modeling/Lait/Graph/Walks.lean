import Mathlib

/-!
# Walks, cycles and longest walks

A relation is read as the edges of a directed graph.  What the layering and loop
algorithms compute is stated here without any algorithm.

* `Walk r k a b` — `k` edges lead from `a` to `b`.
* `CycleReaches r a` — a cycle, self-loops included, leads to `a`.  Where none does on a
  finite type, walks into `a` have a longest one.
* `Mutual r a b` — each is reached from the other.
* `LongestInto` and `LongestFrom` — the length of a longest walk into or out of a node.
-/

namespace Lait.Graph

variable {α : Type*} {r : α → α → Prop}

/-- `k` edges lead from the first node to the second. -/
inductive Walk (r : α → α → Prop) : ℕ → α → α → Prop
  | refl (a : α) : Walk r 0 a a
  | tail {k : ℕ} {a b c : α} (walk : Walk r k a b) (edge : r b c) : Walk r (k + 1) a c

/-- The node lies on a cycle; an edge to itself is one. -/
def OnCycle (r : α → α → Prop) (a : α) : Prop := Relation.TransGen r a a

/-- A cycle leads to the node. -/
def CycleReaches (r : α → α → Prop) (a : α) : Prop :=
  ∃ c, OnCycle r c ∧ Relation.ReflTransGen r c a

/-- Each of two nodes is reached from the other. -/
def Mutual (r : α → α → Prop) (a b : α) : Prop :=
  Relation.ReflTransGen r a b ∧ Relation.ReflTransGen r b a

/-- `k` is the length of a longest walk into the node. -/
def LongestInto (r : α → α → Prop) (k : ℕ) (b : α) : Prop :=
  (∃ a, Walk r k a b) ∧ ∀ j a, Walk r j a b → j ≤ k

/-- `k` is the length of a longest walk out of the node. -/
def LongestFrom (r : α → α → Prop) (k : ℕ) (a : α) : Prop :=
  (∃ b, Walk r k a b) ∧ ∀ j b, Walk r j a b → j ≤ k

namespace Walk

variable {j k : ℕ} {a b c : α}

theorem trans (hab : Walk r j a b) (hbc : Walk r k b c) : Walk r (j + k) a c := by
  induction hbc with
  | refl => exact hab
  | tail _ edge ih => exact (ih hab).tail edge

theorem head (edge : r a b) (walk : Walk r k b c) : Walk r (k + 1) a c := by
  have h := ((Walk.refl a).tail edge).trans walk
  rwa [Nat.zero_add, Nat.add_comm] at h

theorem reflTransGen (walk : Walk r k a b) : Relation.ReflTransGen r a b := by
  induction walk with
  | refl => exact .refl
  | tail _ edge ih => exact ih.tail edge

theorem transGen (walk : Walk r (k + 1) a b) : Relation.TransGen r a b := by
  cases walk with
  | tail walk edge => exact Relation.TransGen.tail' walk.reflTransGen edge

theorem mono {s : α → α → Prop} (h : ∀ a b, r a b → s a b) (walk : Walk r k a b) :
    Walk s k a b := by
  induction walk with
  | refl => exact .refl _
  | tail _ edge ih => exact ih.tail (h _ _ edge)

/-- A walk of positive length has a first edge. -/
theorem exists_head (walk : Walk r (k + 1) a c) : ∃ b, r a b ∧ Walk r k b c := by
  induction k generalizing c with
  | zero =>
      cases walk with
      | tail walk edge =>
          cases walk
          exact ⟨c, edge, .refl c⟩
  | succ k ih =>
      cases walk with
      | tail walk edge =>
          obtain ⟨b, hfirst, hrest⟩ := ih walk
          exact ⟨b, hfirst, hrest.tail edge⟩

end Walk

theorem exists_walk_of_reflTransGen {a b : α} (h : Relation.ReflTransGen r a b) :
    ∃ k, Walk r k a b := by
  induction h with
  | refl => exact ⟨0, .refl a⟩
  | tail _ edge ih =>
      obtain ⟨k, walk⟩ := ih
      exact ⟨k + 1, walk.tail edge⟩

theorem exists_walk_of_transGen {a b : α} (h : Relation.TransGen r a b) :
    ∃ k, Walk r (k + 1) a b := by
  obtain ⟨c, hac, edge⟩ := Relation.TransGen.tail'_iff.mp h
  obtain ⟨k, walk⟩ := exists_walk_of_reflTransGen hac
  exact ⟨k, walk.tail edge⟩

theorem LongestInto.unique {j k : ℕ} {b : α} (hj : LongestInto r j b) (hk : LongestInto r k b) :
    j = k := by
  obtain ⟨⟨a, ha⟩, hmax⟩ := hj
  obtain ⟨⟨a', ha'⟩, hmax'⟩ := hk
  exact le_antisymm (hmax' j a ha) (hmax k a' ha')

/-! ## Cycles -/

theorem OnCycle.cycleReaches {a : α} (h : OnCycle r a) : CycleReaches r a := ⟨a, h, .refl⟩

theorem CycleReaches.mono {a b : α} (h : CycleReaches r a) (hab : Relation.ReflTransGen r a b) :
    CycleReaches r b := by
  obtain ⟨c, hc, hca⟩ := h
  exact ⟨c, hc, hca.trans hab⟩

/-- Whoever leads to a node no cycle leads to is led to by none either. -/
theorem not_cycleReaches_of_edge {a b : α} (h : ¬ CycleReaches r b) (edge : r a b) :
    ¬ CycleReaches r a :=
  fun ha => h (ha.mono (.single edge))

/-- A node on a cycle shares it with whoever it is mutually reached from. -/
theorem OnCycle.of_mutual {a b : α} (h : OnCycle r a) (hab : Mutual r a b) : OnCycle r b :=
  (Relation.TransGen.trans_right hab.2 h).trans_left hab.1

theorem Mutual.symm {a b : α} (h : Mutual r a b) : Mutual r b a := ⟨h.2, h.1⟩

theorem Mutual.refl (a : α) : Mutual r a a := ⟨.refl, .refl⟩

theorem Mutual.trans {a b c : α} (hab : Mutual r a b) (hbc : Mutual r b c) : Mutual r a c :=
  ⟨hab.1.trans hbc.1, hbc.2.trans hab.2⟩

/-- Two different nodes that reach each other lie on a cycle. -/
theorem Mutual.onCycle {a b : α} (h : Mutual r a b) (hne : a ≠ b) : OnCycle r a := by
  rcases Relation.reflTransGen_iff_eq_or_transGen.mp h.1 with heq | hab
  · exact absurd heq.symm hne
  · exact hab.trans_left h.2

/-- On a finite type, a set in which every node has a predecessor of the set is led to by
cycles: following predecessors back must repeat. -/
theorem cycleReaches_of_predecessors [Finite α] {s : Set α}
    (hs : ∀ b ∈ s, ∃ a ∈ s, r a b) {b : α} (hb : b ∈ s) : CycleReaches r b := by
  by_contra hnone
  -- Above `b` there is no cycle, so there the strict ancestor relation is well-founded.
  let above : α → α → Prop := fun x y => Relation.TransGen r x y ∧ Relation.ReflTransGen r y b
  have hirrefl : Std.Irrefl above := ⟨fun x h => hnone ⟨x, h.1, h.2⟩⟩
  have htrans : IsTrans α above := ⟨fun x y z hxy hyz => ⟨hxy.1.trans hyz.1, hyz.2⟩⟩
  have hwf : WellFounded above := Finite.wellFounded_of_trans_of_irrefl above
  obtain ⟨m, ⟨hm, hmb⟩, hmin⟩ := hwf.has_min {x | x ∈ s ∧ Relation.ReflTransGen r x b}
    ⟨b, hb, .refl⟩
  obtain ⟨a, ha, edge⟩ := hs m hm
  exact hmin a ⟨ha, .head edge hmb⟩ ⟨.single edge, hmb⟩

/-- A rank that grows along every edge into a set closed under predecessors keeps cycles away
from the set. -/
theorem not_cycleReaches_of_rank {s : Set α} {rank : α → ℕ}
    (hclosed : ∀ a b, b ∈ s → r a b → a ∈ s) (hrank : ∀ a b, b ∈ s → r a b → rank a < rank b)
    {b : α} (hb : b ∈ s) : ¬ CycleReaches r b := by
  rintro ⟨c, hcycle, hreach⟩
  have hc : c ∈ s := by
    clear hcycle
    induction hreach using Relation.ReflTransGen.head_induction_on with
    | refl => exact hb
    | head edge _ ih => exact hclosed _ _ ih edge
  have hgrow : ∀ {x}, Relation.TransGen r x c → x ∈ s ∧ rank x < rank c := by
    intro x hx
    induction hx using Relation.TransGen.head_induction_on with
    | single edge => exact ⟨hclosed _ _ hc edge, hrank _ _ hc edge⟩
    | head edge _ ih => exact ⟨hclosed _ _ ih.1 edge, (hrank _ _ ih.1 edge).trans ih.2⟩
  exact (hgrow hcycle).2.false

/-- Along a walk into such a set the rank grows by the length of the walk. -/
theorem Walk.rank_add_le {s : Set α} {rank : α → ℕ} (hclosed : ∀ a b, b ∈ s → r a b → a ∈ s)
    (hrank : ∀ a b, b ∈ s → r a b → rank a < rank b) {k : ℕ} {a b : α} (walk : Walk r k a b)
    (hb : b ∈ s) : a ∈ s ∧ rank a + k ≤ rank b := by
  induction walk with
  | refl => exact ⟨hb, le_rfl⟩
  | tail _ edge ih =>
      have hstep := hrank _ _ hb edge
      obtain ⟨ha, hle⟩ := ih (hclosed _ _ hb edge)
      exact ⟨ha, by omega⟩

/-- **Bridged edges may go.**  Where a rank grows along the edges into a set, the edges into it
that a longer walk bridges can be dropped at once, and what reaches what stays as it was. -/
theorem reflTransGen_of_bridged {keep : α → α → Prop} {s : Set α} {rank : α → ℕ}
    (hclosed : ∀ a b, b ∈ s → r a b → a ∈ s) (hrank : ∀ a b, b ∈ s → r a b → rank a < rank b)
    (hkeep : ∀ a b, r a b → keep a b ∨ b ∈ s ∧ ∃ k, Walk r (k + 2) a b) {a b : α}
    (h : Relation.ReflTransGen r a b) : Relation.ReflTransGen keep a b := by
  -- On the rank bridged: both parts of a longer walk bridge less.
  have hinside : ∀ n k a b, b ∈ s → Walk r k a b → rank b = rank a + n →
      Relation.ReflTransGen keep a b := by
    intro n
    induction n using Nat.strong_induction_on with
    | _ n ih =>
      have hlong : ∀ k a b, b ∈ s → Walk r (k + 2) a b → rank b = rank a + n →
          Relation.ReflTransGen keep a b := by
        intro k a b hb walk hn
        obtain ⟨x, edge, rest⟩ := walk.exists_head
        obtain ⟨hx, hxb⟩ := rest.rank_add_le hclosed hrank hb
        have hax := hrank a x hx edge
        have hfirst := ih (rank x - rank a) (by omega) 1 a x hx ((Walk.refl a).tail edge) (by omega)
        exact hfirst.trans (ih (rank b - rank x) (by omega) (k + 1) x b hb rest (by omega))
      intro k a b hb walk hn
      match k, walk with
      | 0, .refl _ => exact .refl
      | 1, walk =>
          obtain ⟨x, edge, rest⟩ := walk.exists_head
          cases rest
          rcases hkeep a b edge with hab | ⟨-, j, longer⟩
          · exact .single hab
          · exact hlong j a b hb longer hn
      | k + 2, walk => exact hlong k a b hb walk hn
  induction h with
  | refl => exact .refl
  | @tail b c _ edge ih =>
      rcases hkeep b c edge with hbc | ⟨hc, j, longer⟩
      · exact ih.tail hbc
      · obtain ⟨-, hle⟩ := longer.rank_add_le hclosed hrank hc
        exact ih.trans (hinside (rank c - rank b) (j + 2) b c hc longer (by omega))

/-! ## Longest walks out of a node -/

/-- The largest of a list above a start. -/
theorem foldl_max_spec (values : List ℕ) (start : ℕ) :
    start ≤ values.foldl max start ∧ (∀ v ∈ values, v ≤ values.foldl max start) ∧
      (values.foldl max start = start ∨ values.foldl max start ∈ values) := by
  induction values generalizing start with
  | nil => simp
  | cons value values ih =>
      obtain ⟨hstart, hall, hmem⟩ := ih (max start value)
      rw [List.foldl_cons]
      refine ⟨(le_max_left _ _).trans hstart, fun v hv => ?_, ?_⟩
      · rcases List.mem_cons.mp hv with rfl | hv
        · exact (le_max_right _ _).trans hstart
        · exact hall v hv
      · rcases hmem with heq | hmem
        · rcases max_choice start value with hmax | hmax
          · exact Or.inl (heq.trans hmax)
          · exact Or.inr (List.mem_cons.mpr (Or.inl (heq.trans hmax)))
        · exact Or.inr (List.mem_cons_of_mem _ hmem)

/-- Longest walks out of the successors give the longest out of the node. -/
theorem longestFrom_of_successors {a : α} {length : α → ℕ} {successors : List α}
    (hmem : ∀ b, b ∈ successors ↔ r a b) (h : ∀ b, r a b → LongestFrom r (length b) b) :
    LongestFrom r ((successors.map fun b => length b + 1).foldl max 0) a := by
  obtain ⟨-, hall, hmax⟩ := foldl_max_spec (successors.map fun b => length b + 1) 0
  constructor
  · rcases hmax with hzero | hmax
    · rw [hzero]
      exact ⟨a, .refl a⟩
    · obtain ⟨b, hb, hlength⟩ := List.mem_map.mp hmax
      obtain ⟨⟨c, walk⟩, -⟩ := h b ((hmem b).mp hb)
      rw [← hlength]
      exact ⟨c, walk.head ((hmem b).mp hb)⟩
  · intro j c walk
    cases j with
    | zero => exact Nat.zero_le _
    | succ j =>
        obtain ⟨b, edge, rest⟩ := walk.exists_head
        have hj := (h b edge).2 j c rest
        have hb := hall _ (List.mem_map.mpr ⟨b, (hmem b).mpr edge, rfl⟩)
        omega

/-- Walks of bounded length have a longest one. -/
theorem exists_longestFrom {a : α} {bound : ℕ} (h : ∀ k b, Walk r k a b → k ≤ bound) :
    ∃ k, LongestFrom r k a := by
  have hfinite : {k | ∃ b, Walk r k a b}.Finite :=
    (Set.finite_Iic bound).subset fun k ⟨b, walk⟩ => h k b walk
  obtain ⟨k, hk, hmax⟩ := Set.exists_max_image _ id hfinite ⟨0, a, .refl a⟩
  exact ⟨k, hk, fun j b walk => hmax j ⟨b, walk⟩⟩

/-! ## Steps clear of cycles -/

/-- A step to a node no cycle leads to. -/
def ClearStep (r : α → α → Prop) (a b : α) : Prop := r a b ∧ ¬ CycleReaches r b

/-- A step out of a node no cycle leads to. -/
def FromClear (r : α → α → Prop) (a b : α) : Prop := r a b ∧ ¬ CycleReaches r a

theorem ClearStep.fromClear {a b : α} (h : ClearStep r a b) : FromClear r a b :=
  ⟨h.1, not_cycleReaches_of_edge h.2 h.1⟩

theorem Walk.clearStep {k : ℕ} {a b : α} (walk : Walk (FromClear r) k a b)
    (hb : ¬ CycleReaches r b) : Walk (ClearStep r) k a b := by
  induction walk with
  | refl => exact .refl _
  | tail _ edge ih => exact (ih edge.2).tail ⟨edge.1, hb⟩

/-- A walk of such steps stays clear of cycles up to its last node. -/
theorem Walk.exists_last {k : ℕ} {a b : α} (walk : Walk (FromClear r) (k + 1) a b) :
    ∃ c, Walk (ClearStep r) k a c ∧ ¬ CycleReaches r c ∧ r c b := by
  cases walk with
  | tail walk edge => exact ⟨_, walk.clearStep edge.2, edge.2, edge.1⟩

theorem Walk.clear {k : ℕ} {a b : α} (walk : Walk (ClearStep r) k a b)
    (ha : ¬ CycleReaches r a) : ¬ CycleReaches r b := by
  cases walk with
  | refl => exact ha
  | tail _ edge => exact edge.2

/-- The longest walk out of a clear node is at most one step longer than the longest that stays
clear, and no longer exactly if no longest clear walk can be left. -/
theorem LongestFrom.fromClear {j k : ℕ} {a : α} (ha : ¬ CycleReaches r a)
    (hj : LongestFrom (ClearStep r) j a) (hk : LongestFrom (FromClear r) k a) :
    j ≤ k ∧ k ≤ j + 1 ∧
      (k = j ↔ ∀ b c, Walk (ClearStep r) j a b → r b c → ¬ CycleReaches r c) := by
  obtain ⟨⟨b, hb⟩, hjmax⟩ := hj
  obtain ⟨⟨d, hd⟩, hkmax⟩ := hk
  have hle : j ≤ k := hkmax j b (hb.mono fun _ _ => ClearStep.fromClear)
  have hle' : k ≤ j + 1 := by
    cases k with
    | zero => exact Nat.zero_le _
    | succ k =>
        obtain ⟨c, walk, -, -⟩ := hd.exists_last
        have := hjmax k c walk
        omega
  refine ⟨hle, hle', ?_⟩
  constructor
  · rintro rfl b c walk edge hc
    have := hkmax _ c ((walk.mono fun _ _ => ClearStep.fromClear).tail ⟨edge, walk.clear ha⟩)
    omega
  · intro hall
    by_contra hne
    obtain rfl : k = j + 1 := by omega
    obtain ⟨c, walk, hc, edge⟩ := hd.exists_last
    have := hjmax _ d (walk.tail ⟨edge, hall c d walk edge⟩)
    omega

/-! ## Relations read through names -/

section Named

variable {β : Type*} {f : β → α}

/-- What a relation says of named nodes. -/
def Through (r : α → α → Prop) (f : β → α) (a b : β) : Prop := r (f a) (f b)

/-- Only named nodes are related. -/
def Names (r : α → α → Prop) (f : β → α) : Prop :=
  Function.Injective f ∧ ∀ a b, r a b → a ∈ Set.range f ∧ b ∈ Set.range f

theorem Names.walk_iff (h : Names r f) {k : ℕ} {a b : β} :
    Walk (Through r f) k a b ↔ Walk r k (f a) (f b) := by
  constructor
  · intro walk
    induction walk with
    | refl => exact .refl _
    | tail _ edge ih => exact ih.tail edge
  · intro walk
    generalize ha : f a = x at walk
    generalize hb : f b = y at walk
    induction walk generalizing b with
    | refl =>
        obtain rfl := h.1 (ha.trans hb.symm)
        exact .refl _
    | tail _ edge ih =>
        obtain ⟨c, rfl⟩ := (h.2 _ _ edge).1
        subst hb
        exact (ih ha rfl).tail edge

theorem Names.reflTransGen_iff (h : Names r f) {a b : β} :
    Relation.ReflTransGen (Through r f) a b ↔ Relation.ReflTransGen r (f a) (f b) := by
  constructor
  · intro hab
    obtain ⟨k, walk⟩ := exists_walk_of_reflTransGen hab
    exact (h.walk_iff.mp walk).reflTransGen
  · intro hab
    obtain ⟨k, walk⟩ := exists_walk_of_reflTransGen hab
    exact (h.walk_iff.mpr walk).reflTransGen

/-- What a named node leads to is named. -/
theorem Names.exists_of_reach (h : Names r f) {a : β} {x : α}
    (hreach : Relation.ReflTransGen r (f a) x) : ∃ b, f b = x := by
  rcases Relation.ReflTransGen.cases_tail hreach with heq | ⟨y, -, edge⟩
  · exact ⟨a, heq.symm⟩
  · exact (h.2 _ _ edge).2

theorem Names.onCycle_iff (h : Names r f) {a : β} :
    OnCycle (Through r f) a ↔ OnCycle r (f a) := by
  constructor
  · intro hcycle
    obtain ⟨k, walk⟩ := exists_walk_of_transGen hcycle
    exact (h.walk_iff.mp walk).transGen
  · intro hcycle
    obtain ⟨k, walk⟩ := exists_walk_of_transGen hcycle
    exact (h.walk_iff.mpr walk).transGen

theorem Names.cycleReaches_iff (h : Names r f) {a : β} :
    CycleReaches (Through r f) a ↔ CycleReaches r (f a) := by
  constructor
  · rintro ⟨c, hcycle, hreach⟩
    exact ⟨f c, h.onCycle_iff.mp hcycle, h.reflTransGen_iff.mp hreach⟩
  · rintro ⟨c, hcycle, hreach⟩
    obtain ⟨d, edge, -⟩ := Relation.TransGen.head'_iff.mp hcycle
    obtain ⟨c, rfl⟩ := (h.2 _ _ edge).1
    exact ⟨c, h.onCycle_iff.mpr hcycle, h.reflTransGen_iff.mpr hreach⟩

theorem Names.longestInto_iff (h : Names r f) {k : ℕ} {b : β} :
    LongestInto (Through r f) k b ↔ LongestInto r k (f b) := by
  have hstart : ∀ j x, Walk r j x (f b) → ∃ a, f a = x := by
    intro j x walk
    cases j with
    | zero =>
        cases walk
        exact ⟨b, rfl⟩
    | succ j =>
        obtain ⟨y, edge, -⟩ := walk.exists_head
        exact (h.2 _ _ edge).1
  constructor
  · rintro ⟨⟨a, walk⟩, hmax⟩
    refine ⟨⟨f a, h.walk_iff.mp walk⟩, fun j x hx => ?_⟩
    obtain ⟨a, rfl⟩ := hstart j x hx
    exact hmax j a (h.walk_iff.mpr hx)
  · rintro ⟨⟨x, walk⟩, hmax⟩
    obtain ⟨a, rfl⟩ := hstart k x walk
    exact ⟨⟨a, h.walk_iff.mpr walk⟩, fun j a ha => hmax j (f a) (h.walk_iff.mp ha)⟩

theorem Names.longestFrom_iff (h : Names r f) {k : ℕ} {a : β} :
    LongestFrom (Through r f) k a ↔ LongestFrom r k (f a) := by
  have hend : ∀ j x, Walk r j (f a) x → ∃ b, f b = x := by
    intro j x walk
    cases walk with
    | refl => exact ⟨a, rfl⟩
    | tail _ edge => exact (h.2 _ _ edge).2
  constructor
  · rintro ⟨⟨b, walk⟩, hmax⟩
    refine ⟨⟨f b, h.walk_iff.mp walk⟩, fun j x hx => ?_⟩
    obtain ⟨b, rfl⟩ := hend j x hx
    exact hmax j b (h.walk_iff.mpr hx)
  · rintro ⟨⟨x, walk⟩, hmax⟩
    obtain ⟨b, rfl⟩ := hend k x walk
    exact ⟨⟨b, h.walk_iff.mpr walk⟩, fun j b hb => hmax j (f b) (h.walk_iff.mp hb)⟩

theorem Names.through_clearStep (h : Names r f) :
    ClearStep (Through r f) = Through (ClearStep r) f := by
  funext a b
  rw [ClearStep, h.cycleReaches_iff]
  rfl

theorem Names.clearStep (h : Names r f) : Names (ClearStep r) f :=
  ⟨h.1, fun a b hab => h.2 a b hab.1⟩

end Named

end Lait.Graph
