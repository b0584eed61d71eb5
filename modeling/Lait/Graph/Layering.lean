import Lait.Graph.Walks

/-!
# Draining a graph layer by layer

Nodes without predecessors are ready.  The least ready node is taken, each of its
successors is put at least one layer deeper and loses one pending predecessor, and one
that has none left becomes ready.  The layers are machine words, so a step deeper stops at
a cap.

The argument is one invariant of the state, `Drain.Sound`.  Its counts say how many
predecessors of a node are still undrained, so the drained nodes are closed under
predecessors and the layers grow along their edges: no cycle leads to them.  When nothing
is ready every undrained node has an undrained predecessor, and following those back finds
a cycle.  For a drained node the layer is at least one more than each predecessor's and is
attained by one of them, which makes it the length of a longest walk into the node; the
layers of drained nodes stay below their number, so the cap is never met.

An undrained node may carry a layer too, left there by drained predecessors.
-/

namespace Lait.Graph

variable {α : Type*} [LinearOrder α]

/-- The state of a drain. -/
structure Drain (α : Type*) where
  indegree : α → ℕ
  layer : α → Option ℕ
  drained : Finset α
  ready : Finset α

namespace Drain

/-- The layer of a node as the loop reads it. -/
def depth (s : Drain α) (v : α) : ℕ := (s.layer v).getD 0

/-- One successor of a node drained at a layer. -/
def release (cap at_ : ℕ) (s : Drain α) (dependent : α) : Drain α :=
  { s with
    layer := Function.update s.layer dependent
      (some (max (s.depth dependent) (min (at_ + 1) cap)))
    indegree := Function.update s.indegree dependent (s.indegree dependent - 1)
    ready := if s.indegree dependent - 1 = 0 then insert dependent s.ready else s.ready }

/-- A node leaves the ready set for good. -/
def settle (s : Drain α) (node : α) : Drain α :=
  { s with
    layer := Function.update s.layer node (some (s.depth node))
    drained := insert node s.drained
    ready := s.ready.erase node }

/-- The least ready node and its successors. -/
def pop (cap : ℕ) (succ : α → List α) (s : Drain α) (node : α) : Drain α :=
  (succ node).foldl (release cap (s.depth node)) (s.settle node)

/-- Nodes are taken until none is ready. -/
def run (cap : ℕ) (succ : α → List α) : ℕ → Drain α → Drain α
  | 0, s => s
  | fuel + 1, s =>
      if h : s.ready.Nonempty then run cap succ fuel (s.pop cap succ (s.ready.min' h)) else s

variable [Fintype α]

/-- The state before anything is drained. -/
def start (indegree : α → ℕ) : Drain α where
  indegree := indegree
  layer := fun _ => none
  drained := ∅
  ready := Finset.univ.filter fun v => indegree v = 0

/-- The whole drain: every turn drains one more node. -/
def drain (cap : ℕ) (succ : α → List α) (indegree : α → ℕ) : Drain α :=
  run cap succ (Fintype.card α) (start indegree)

/-! ## One turn -/

variable {cap : ℕ} {succ : α → List α} {s : Drain α}

omit [Fintype α] in
/-- What releasing a list of successors does to each node. -/
theorem foldl_release {at_ : ℕ} {dependents : List α} (hnodup : dependents.Nodup) (s : Drain α) :
    (dependents.foldl (release cap at_) s).drained = s.drained ∧ ∀ v,
      (dependents.foldl (release cap at_) s).layer v =
          (if v ∈ dependents then some (max (s.depth v) (min (at_ + 1) cap)) else s.layer v) ∧
        (dependents.foldl (release cap at_) s).indegree v =
          (if v ∈ dependents then s.indegree v - 1 else s.indegree v) ∧
        (v ∈ (dependents.foldl (release cap at_) s).ready ↔
          v ∈ s.ready ∨ v ∈ dependents ∧ s.indegree v - 1 = 0) := by
  induction dependents generalizing s with
  | nil => simp
  | cons first dependents ih =>
      obtain ⟨hfirst, hnodup⟩ := List.nodup_cons.mp hnodup
      obtain ⟨hdrained, hnodes⟩ := ih hnodup (release cap at_ s first)
      refine ⟨hdrained, fun v => ?_⟩
      obtain ⟨hlayer, hindegree, hready⟩ := hnodes v
      rw [List.foldl_cons]
      by_cases hv : v = first
      · subst hv
        rw [if_neg hfirst] at hlayer hindegree
        refine ⟨hlayer.trans ?_, hindegree.trans ?_, hready.trans ?_⟩
        · simp [release]
        · simp [release]
        · unfold release
          split <;> simp [*]
      · refine ⟨hlayer.trans ?_, hindegree.trans ?_, hready.trans ?_⟩
        · simp [release, depth, hv]
        · simp [release, hv]
        · unfold release
          split <;> simp [hv]

/-- What a drain keeps: the counts are those of undrained predecessors, and the layers are
one more than the deepest drained predecessor's. -/
structure Sound (succ : α → List α) (s : Drain α) : Prop where
  indegree_eq : ∀ v, s.indegree v = (Finset.univ.filter fun u => u ∉ s.drained ∧ v ∈ succ u).card
  ready_iff : ∀ v, v ∈ s.ready ↔ v ∉ s.drained ∧ s.indegree v = 0
  closed : ∀ u v, v ∈ s.drained → v ∈ succ u → u ∈ s.drained
  deeper : ∀ u v, u ∈ s.drained → v ∈ succ u → s.depth u + 1 ≤ s.depth v
  attained : ∀ v, s.depth v = 0 ∨ ∃ u ∈ s.drained, v ∈ succ u ∧ s.depth v = s.depth u + 1
  isSome_iff : ∀ v, (s.layer v).isSome ↔ v ∈ s.drained ∨ ∃ u ∈ s.drained, v ∈ succ u
  small : ∀ v ∈ s.drained, s.depth v < s.drained.card

/-- The counts a drain starts from. -/
def Counts (succ : α → List α) (indegree : α → ℕ) : Prop :=
  ∀ v, indegree v = (Finset.univ.filter fun u => v ∈ succ u).card

theorem Sound.start {indegree : α → ℕ} (h : Counts succ indegree) :
    Sound succ (Drain.start indegree) where
  indegree_eq v := by simpa [Drain.start] using h v
  ready_iff v := by simp [Drain.start]
  closed := by simp [Drain.start]
  deeper := by simp [Drain.start]
  attained v := Or.inl (by simp [Drain.start, depth])
  isSome_iff v := by simp [Drain.start]
  small := by simp [Drain.start]

/-- No predecessor of a ready node is undrained. -/
theorem Sound.mem_drained_of_ready (h : s.Sound succ) {node u : α} (hnode : node ∈ s.ready)
    (hu : node ∈ succ u) : u ∈ s.drained := by
  by_contra hundrained
  have hzero := ((h.ready_iff node).mp hnode).2
  rw [h.indegree_eq, Finset.card_eq_zero, Finset.filter_eq_empty_iff] at hzero
  exact hzero (Finset.mem_univ u) ⟨hundrained, hu⟩

/-- The layer of a ready node is below the number of drained ones. -/
theorem Sound.depth_le (h : s.Sound succ) (v : α) : s.depth v ≤ s.drained.card := by
  rcases h.attained v with hzero | ⟨u, hu, -, heq⟩
  · omega
  · have := h.small u hu
    omega

/-- The fields of a state after a turn. -/
theorem Sound.pop_eq (h : s.Sound succ) (hnodup : ∀ v, (succ v).Nodup)
    (hcap : Fintype.card α ≤ cap) {node : α} (hnode : node ∈ s.ready) :
    (s.pop cap succ node).drained = insert node s.drained ∧ ∀ v,
      (s.pop cap succ node).layer v =
          (if v ∈ succ node then some (max (s.depth v) (s.depth node + 1))
            else if v = node then some (s.depth node) else s.layer v) ∧
        (s.pop cap succ node).indegree v =
          (if v ∈ succ node then s.indegree v - 1 else s.indegree v) ∧
        (v ∈ (s.pop cap succ node).ready ↔
          v ≠ node ∧ v ∈ s.ready ∨ v ∈ succ node ∧ s.indegree v - 1 = 0) := by
  obtain ⟨hdrained, hnodes⟩ := @foldl_release _ _ cap (s.depth node) _ (hnodup node)
    (s.settle node)
  refine ⟨hdrained, fun v => ?_⟩
  obtain ⟨hlayer, hindegree, hready⟩ := hnodes v
  have hself : node ∉ succ node := fun hloop =>
    ((h.ready_iff node).mp hnode).1 (h.mem_drained_of_ready hnode hloop)
  have hroom : s.depth node + 1 ≤ cap := by
    have hle := h.depth_le node
    have hlt : s.drained.card < Fintype.card α :=
      Finset.card_lt_univ_of_notMem ((h.ready_iff node).mp hnode).1
    omega
  refine ⟨hlayer.trans ?_, hindegree, hready.trans (by simp [settle])⟩
  rw [min_eq_left hroom]
  by_cases hv : v = node
  · subst hv
    simp [settle, hself]
  · simp [settle, depth, hv]

/-- The layers after a turn, as the loop reads them. -/
theorem Sound.depth_pop (h : s.Sound succ) (hnodup : ∀ v, (succ v).Nodup)
    (hcap : Fintype.card α ≤ cap) {node : α} (hnode : node ∈ s.ready) (v : α) :
    (s.pop cap succ node).depth v =
      if v ∈ succ node then max (s.depth v) (s.depth node + 1) else s.depth v := by
  rw [depth, ((h.pop_eq hnodup hcap hnode).2 v).1]
  split
  · rfl
  · split
    case isTrue heq => simp [heq]
    case isFalse => rfl

/-- **A turn keeps the state sound.** -/
theorem Sound.pop (h : s.Sound succ) (hnodup : ∀ v, (succ v).Nodup)
    (hcap : Fintype.card α ≤ cap) {node : α} (hnode : node ∈ s.ready) :
    (s.pop cap succ node).Sound succ := by
  obtain ⟨hdrained, hnodes⟩ := h.pop_eq hnodup hcap hnode
  have hdepth := h.depth_pop hnodup hcap hnode
  have hnew : node ∉ s.drained := ((h.ready_iff node).mp hnode).1
  have hself : node ∉ succ node := fun hloop => hnew (h.mem_drained_of_ready hnode hloop)
  -- A successor of the node was held back by it.
  have hheld : ∀ v ∈ succ node, v ∉ s.drained ∧ 0 < s.indegree v := by
    intro v hv
    refine ⟨fun hdone => hnew (h.closed node v hdone hv), ?_⟩
    rw [h.indegree_eq, Finset.card_pos]
    exact ⟨node, Finset.mem_filter.mpr ⟨Finset.mem_univ node, hnew, hv⟩⟩
  refine ⟨fun v => ?_, fun v => ?_, fun u v hv hu => ?_, fun u v hu hv => ?_, fun v => ?_,
    fun v => ?_, fun v hv => ?_⟩
  · rw [(hnodes v).2.1, h.indegree_eq, hdrained]
    by_cases hv : v ∈ succ node
    · have herase : (Finset.univ.filter fun u => u ∉ insert node s.drained ∧ v ∈ succ u) =
          (Finset.univ.filter fun u => u ∉ s.drained ∧ v ∈ succ u).erase node := by
        ext u
        simp only [Finset.mem_filter, Finset.mem_univ, true_and, Finset.mem_insert,
          Finset.mem_erase, not_or, and_assoc]
      rw [if_pos hv, herase, Finset.card_erase_of_mem
        (Finset.mem_filter.mpr ⟨Finset.mem_univ node, hnew, hv⟩)]
    · rw [if_neg hv]
      congr 1
      ext u
      simp only [Finset.mem_filter, Finset.mem_univ, true_and, Finset.mem_insert, not_or]
      constructor
      · rintro ⟨hu, huv⟩
        exact ⟨⟨fun heq => hv (heq ▸ huv), hu⟩, huv⟩
      · rintro ⟨⟨-, hu⟩, huv⟩
        exact ⟨hu, huv⟩
  · rw [(hnodes v).2.2, (hnodes v).2.1, hdrained, Finset.mem_insert, not_or, h.ready_iff]
    by_cases hv : v ∈ succ node
    · have hne : v ≠ node := fun heq => hself (heq ▸ hv)
      obtain ⟨hundrained, hpos⟩ := hheld v hv
      simp [hv, hne, hundrained, hpos.ne']
    · simp [hv, and_assoc]
  · rw [hdrained] at hv ⊢
    rcases Finset.mem_insert.mp hv with rfl | hv
    · exact Finset.mem_insert_of_mem (h.mem_drained_of_ready hnode hu)
    · exact Finset.mem_insert_of_mem (h.closed u v hv hu)
  · rw [hdrained, Finset.mem_insert] at hu
    -- Drained nodes and the one being drained keep their layers.
    have hu' : u ∉ succ node := by
      rcases hu with rfl | hu
      · exact hself
      · exact fun hmem => (hheld u hmem).1 hu
    rw [hdepth u, hdepth v, if_neg hu']
    rcases hu with rfl | hu
    · rw [if_pos hv]
      exact le_max_right _ _
    · have hle := h.deeper u v hu hv
      split
      · exact hle.trans (le_max_left _ _)
      · exact hle
  · rw [hdepth v, hdrained]
    have hkeep : ∀ u ∈ s.drained, (s.pop cap succ node).depth u = s.depth u := fun u hu => by
      rw [hdepth u, if_neg fun hmem => (hheld u hmem).1 hu]
    have hnodeDepth : (s.pop cap succ node).depth node = s.depth node := by
      rw [hdepth node, if_neg hself]
    have hold : s.depth v = 0 ∨ ∃ u ∈ insert node s.drained, v ∈ succ u ∧
        s.depth v = (s.pop cap succ node).depth u + 1 := by
      rcases h.attained v with hzero | ⟨u, hu, huv, heq⟩
      · exact Or.inl hzero
      · exact Or.inr ⟨u, Finset.mem_insert_of_mem hu, huv, by rw [hkeep u hu, heq]⟩
    split
    case isTrue hv =>
        rcases le_total (s.depth v) (s.depth node + 1) with hle | hle
        · rw [max_eq_right hle]
          exact Or.inr ⟨node, Finset.mem_insert_self _ _, hv, by rw [hnodeDepth]⟩
        · rw [max_eq_left hle]
          exact hold
    case isFalse => exact hold
  · rw [(hnodes v).1, hdrained]
    split
    case isTrue hv =>
        simp only [Option.isSome_some, true_iff]
        exact Or.inr ⟨node, Finset.mem_insert_self _ _, hv⟩
    case isFalse hv =>
        split
        case isTrue heq => simp [heq]
        case isFalse hne => simp [h.isSome_iff, hne, hv]
  · rw [hdrained] at hv ⊢
    rw [Finset.card_insert_of_notMem hnew, hdepth v]
    rcases Finset.mem_insert.mp hv with rfl | hv
    · rw [if_neg hself]
      have := h.depth_le v
      omega
    · rw [if_neg fun hmem => (hheld v hmem).1 hv]
      have := h.small v hv
      omega

/-- **The whole drain is sound and leaves nothing ready.** -/
theorem Sound.run (hnodup : ∀ v, (succ v).Nodup) (hcap : Fintype.card α ≤ cap) {fuel : ℕ}
    (h : s.Sound succ) (hfuel : (Finset.univ \ s.drained).card ≤ fuel) :
    (Drain.run cap succ fuel s).Sound succ ∧ (Drain.run cap succ fuel s).ready = ∅ := by
  induction fuel generalizing s with
  | zero =>
      refine ⟨h, Finset.eq_empty_iff_forall_notMem.mpr fun v hv => ?_⟩
      have hv' : v ∈ Finset.univ \ s.drained :=
        Finset.mem_sdiff.mpr ⟨Finset.mem_univ v, ((h.ready_iff v).mp hv).1⟩
      rw [Finset.card_eq_zero.mp (Nat.le_zero.mp hfuel)] at hv'
      cases hv'
  | succ fuel ih =>
      rw [Drain.run]
      split
      case isTrue hready =>
          have hnode := s.ready.min'_mem hready
          refine ih (h.pop hnodup hcap hnode) ?_
          rw [(h.pop_eq hnodup hcap hnode).1, Finset.sdiff_insert, Finset.card_erase_of_mem
            (Finset.mem_sdiff.mpr ⟨Finset.mem_univ _, ((h.ready_iff _).mp hnode).1⟩)]
          omega
      case isFalse hready => exact ⟨h, Finset.not_nonempty_iff_eq_empty.mp hready⟩

/-! ## The whole drain -/

section Result

variable {indegree : α → ℕ}

theorem drain_sound (hnodup : ∀ v, (succ v).Nodup) (hcap : Fintype.card α ≤ cap)
    (hcounts : Counts succ indegree) :
    (drain cap succ indegree).Sound succ ∧ (drain cap succ indegree).ready = ∅ :=
  (Sound.start hcounts).run hnodup hcap (by simp [Drain.start])

/-- **The drained nodes are those no cycle leads to.** -/
theorem mem_drained_iff (hnodup : ∀ v, (succ v).Nodup) (hcap : Fintype.card α ≤ cap)
    (hcounts : Counts succ indegree) {v : α} :
    v ∈ (drain cap succ indegree).drained ↔ ¬ CycleReaches (fun a b => b ∈ succ a) v := by
  obtain ⟨hsound, hready⟩ := drain_sound hnodup hcap hcounts
  constructor
  · exact @not_cycleReaches_of_rank _ _ {v | v ∈ (drain cap succ indegree).drained}
      (drain cap succ indegree).depth
      (fun a b hb hab => hsound.closed a b hb hab)
      (fun a b hb hab => hsound.deeper a b (hsound.closed a b hb hab) hab) v
  · intro hnone
    by_contra hv
    refine hnone (cycleReaches_of_predecessors (s := {v | v ∉ (drain cap succ indegree).drained})
      (fun b hb => ?_) hv)
    -- An undrained node is not ready, so one of its predecessors is undrained.
    by_contra hpreds
    push Not at hpreds
    have hb' : b ∈ (drain cap succ indegree).ready := by
      refine (hsound.ready_iff b).mpr ⟨hb, ?_⟩
      rw [hsound.indegree_eq, Finset.card_eq_zero, Finset.filter_eq_empty_iff]
      exact fun u _ hu => hpreds u hu.1 hu.2
    rw [hready] at hb'
    cases hb'

/-- **The layer of a drained node is the length of a longest walk into it.** -/
theorem layer_drained (hnodup : ∀ v, (succ v).Nodup) (hcap : Fintype.card α ≤ cap)
    (hcounts : Counts succ indegree) {v : α} (hv : v ∈ (drain cap succ indegree).drained) :
    ∃ k, (drain cap succ indegree).layer v = some k ∧ k < Fintype.card α ∧
      LongestInto (fun a b => b ∈ succ a) k v := by
  obtain ⟨hsound, -⟩ := drain_sound hnodup hcap hcounts
  obtain ⟨k, hk⟩ := Option.isSome_iff_exists.mp ((hsound.isSome_iff v).mpr (Or.inl hv))
  have hdepth : (drain cap succ indegree).depth v = k := by rw [depth, hk, Option.getD_some]
  refine ⟨k, hk, ?_, ?_, fun j a walk => ?_⟩
  · have hlt := hsound.small v hv
    have hle := Finset.card_le_univ (drain cap succ indegree).drained
    omega
  · clear hk
    induction k generalizing v with
    | zero => exact ⟨v, .refl v⟩
    | succ k ih =>
        rcases hsound.attained v with hzero | ⟨u, hu, huv, heq⟩
        · omega
        · obtain ⟨a, walk⟩ := ih hu (by omega)
          exact ⟨a, walk.tail huv⟩
  · have hgrow : a ∈ (drain cap succ indegree).drained ∧
        (drain cap succ indegree).depth a + j ≤ (drain cap succ indegree).depth v := by
      clear hk hdepth
      induction walk with
      | refl => exact ⟨hv, le_rfl⟩
      | tail _ edge ih =>
          have hb := hsound.closed _ _ hv edge
          obtain ⟨ha, hle⟩ := ih hb
          have := hsound.deeper _ _ hb edge
          exact ⟨ha, by omega⟩
    omega

/-- What is left on an undrained node: nothing, unless a drained node precedes it. -/
theorem layer_undrained (hnodup : ∀ v, (succ v).Nodup) (hcap : Fintype.card α ≤ cap)
    (hcounts : Counts succ indegree) {v : α} (hv : v ∉ (drain cap succ indegree).drained) :
    (drain cap succ indegree).layer v = none ↔
      ∀ u ∈ (drain cap succ indegree).drained, v ∉ succ u := by
  obtain ⟨hsound, -⟩ := drain_sound hnodup hcap hcounts
  rw [← Option.not_isSome_iff_eq_none, hsound.isSome_iff]
  push Not
  exact ⟨fun h => h.2, fun h => ⟨hv, h⟩⟩

/-- **When the layers as the drain leaves them are right** for undrained nodes too: where no
drained node precedes one. -/
theorem layers_exact_iff (hnodup : ∀ v, (succ v).Nodup) (hcap : Fintype.card α ≤ cap)
    (hcounts : Counts succ indegree) :
    ((∀ v k, (drain cap succ indegree).layer v = some k ↔
        ¬ CycleReaches (fun a b => b ∈ succ a) v ∧ LongestInto (fun a b => b ∈ succ a) k v) ∧
      ∀ v, (drain cap succ indegree).layer v = none ↔ CycleReaches (fun a b => b ∈ succ a) v) ↔
      ∀ a b, b ∈ succ a → CycleReaches (fun a b => b ∈ succ a) b →
        CycleReaches (fun a b => b ∈ succ a) a := by
  have hdrained := fun v => mem_drained_iff hnodup hcap hcounts (v := v)
  constructor
  · rintro ⟨-, hnone⟩ a b edge hb
    by_contra ha
    exact (layer_undrained hnodup hcap hcounts (mt (hdrained b).mp (not_not.mpr hb))).mp
      ((hnone b).mpr hb) a ((hdrained a).mpr ha) edge
  · intro h
    have hundrained : ∀ v, CycleReaches (fun a b => b ∈ succ a) v →
        (drain cap succ indegree).layer v = none := by
      intro v hv
      refine (layer_undrained hnodup hcap hcounts (mt (hdrained v).mp (not_not.mpr hv))).mpr ?_
      exact fun u hu edge => (hdrained u).mp hu (h u v edge hv)
    have hlayer : ∀ v, ¬ CycleReaches (fun a b => b ∈ succ a) v →
        ∃ k, (drain cap succ indegree).layer v = some k ∧
          LongestInto (fun a b => b ∈ succ a) k v := by
      intro v hv
      obtain ⟨k, hk, -, hlongest⟩ := layer_drained hnodup hcap hcounts ((hdrained v).mpr hv)
      exact ⟨k, hk, hlongest⟩
    refine ⟨fun v k => ⟨fun hk => ?_, fun ⟨hv, hlongest⟩ => ?_⟩, fun v => ⟨fun hk => ?_,
      hundrained v⟩⟩
    · by_cases hv : CycleReaches (fun a b => b ∈ succ a) v
      · rw [hundrained v hv] at hk
        cases hk
      · obtain ⟨j, hj, hlongest⟩ := hlayer v hv
        obtain rfl := Option.some.inj (hj.symm.trans hk)
        exact ⟨hv, hlongest⟩
    · obtain ⟨j, hj, hlongest'⟩ := hlayer v hv
      rw [hj, hlongest'.unique hlongest]
    · by_contra hv
      obtain ⟨j, hj, -⟩ := hlayer v hv
      rw [hj] at hk
      cases hk

end Result

end Drain

end Lait.Graph
