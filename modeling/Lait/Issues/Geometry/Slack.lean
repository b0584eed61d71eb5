import Lait.Issues.Geometry.Implied

/-!
# Slack

The slack of a node is how far the deepest layer lies behind the longest chain through it.
The onward part of that chain is computed deepest layer first, so the nodes a node blocks
have theirs by then, unless they have no layer at all: those still read as zero, and a step
to one of them is counted.  So what is computed is the longest walk whose nodes but the last
have layers (`longestFrom_onwardLengths`).

That is one step too many exactly where a longest chain of layered nodes can be left towards
a cycle.  A node on a deepest chain is unharmed, as the subtraction stops at zero; every
other such node is given one layer of slack too few.
-/

namespace Lait.Issues.Geometry

open Lait (Text Crypto)
open Lait.Graph

/-! ## The onward lengths -/

section Onward

variable {count : ℕ} {edges : List (Edge count)}

theorem mem_placed {layer : Fin count → Option ℕ} {node : Fin count} :
    node ∈ placed layer ↔ (layer node).isSome := by
  simp [placed, List.mem_insertionSort]

theorem nodup_placed (layer : Fin count → Option ℕ) : (placed layer).Nodup :=
  (List.perm_insertionSort _ _).nodup_iff.mpr ((List.nodup_finRange count).filter _)

theorem pairwise_placed (layer : Fin count → Option ℕ) :
    (placed layer).Pairwise fun a b => (layer b).getD 0 ≤ (layer a).getD 0 := by
  have : Std.Total fun a b : Fin count => (layer b).getD 0 ≤ (layer a).getD 0 :=
    ⟨fun a b => le_total _ _⟩
  have : IsTrans (Fin count) fun a b => (layer b).getD 0 ≤ (layer a).getD 0 :=
    ⟨fun a b c hab hbc => hbc.trans hab⟩
  exact List.pairwise_insertionSort _ _

/-- A walk out of layered nodes has at most as many steps as there are nodes. -/
theorem fromClear_length_le (hcount : count ≤ U32_MAX) {k : ℕ} {a b : Fin count}
    (walk : Walk (FromClear fun a b => b ∈ blocks edges a) k a b) : k ≤ count := by
  cases k with
  | zero => exact Nat.zero_le _
  | succ k =>
      obtain ⟨c, hwalk, hc, -⟩ := walk.exists_last
      obtain ⟨j, hj, hlt, -⟩ := exists_layer hcount hc
      obtain ⟨i, -, hle⟩ := exists_layer_add_le hcount (hwalk.mono fun _ _ h => h.1) hj
      omega

/-- The onward lengths of the nodes that come first, and of those not reached yet. -/
theorem foldl_place (hcount : count ≤ U32_MAX)
    {layer : Fin count → Option ℕ}
    (hlayer : layer = (dependencyLayers (blockedBy edges) (blocks edges)).layer)
    (first rest : List (Fin count)) (h : placed layer = first ++ rest) :
    (∀ node ∈ first, LongestFrom (FromClear fun a b => b ∈ blocks edges a)
      (first.foldl (place (blocks edges)) (fun _ => 0) node) node) ∧
      ∀ node, node ∉ first → first.foldl (place (blocks edges)) (fun _ => 0) node = 0 := by
  induction first using List.reverseRecOn generalizing rest with
  | nil => exact ⟨fun _ h => absurd h List.not_mem_nil, fun _ _ => rfl⟩
  | append_singleton first node ih =>
      obtain ⟨hdone, hzero⟩ := ih ([node] ++ rest) (by rw [h, List.append_assoc])
      rw [List.foldl_append, List.foldl_cons, List.foldl_nil]
      generalize first.foldl (place (blocks edges)) (fun _ => 0) = onward at hdone hzero
      have hnode : node ∉ first := by
        have hnodup := nodup_placed layer
        rw [h] at hnodup
        exact fun hmem => (List.nodup_append.mp (List.nodup_append.mp hnodup).1).2.2 node hmem node
          (List.mem_singleton_self node) rfl
      have hclear : ¬ CycleReaches (fun a b => b ∈ blocks edges a) node := by
        rw [← isSome_layer_iff hcount, ← hlayer, ← mem_placed, h]
        simp
      -- A layered successor lies deeper and comes before; one without a layer reads as zero.
      have hnext : ∀ next, FromClear (fun a b => b ∈ blocks edges a) node next →
          LongestFrom (FromClear fun a b => b ∈ blocks edges a) (onward next) next := by
        rintro next ⟨edge, -⟩
        by_cases hreach : CycleReaches (fun a b => b ∈ blocks edges a) next
        · have hout : next ∉ placed layer := by
            rw [mem_placed, hlayer, isSome_layer_iff hcount, not_not]
            exact hreach
          rw [h] at hout
          rw [hzero next fun hmem => hout (by simp [hmem])]
          refine ⟨⟨next, .refl next⟩, fun j b walk => ?_⟩
          cases j with
          | zero => exact le_rfl
          | succ j =>
              obtain ⟨c, step, -⟩ := walk.exists_head
              exact absurd hreach step.2
        · obtain ⟨j, hj, -⟩ := exists_layer hcount hreach
          obtain ⟨i, hi, hle⟩ := exists_layer_add_le hcount ((Walk.refl node).tail edge) hj
          rw [← hlayer] at hi hj
          have hmem : next ∈ placed layer := mem_placed.mpr (by rw [hj, Option.isSome_some])
          have hsorted := pairwise_placed layer
          rw [h] at hmem hsorted
          rcases List.mem_append.mp hmem with hmem | hmem
          · rcases List.mem_append.mp hmem with hmem | hmem
            · exact hdone next hmem
            · obtain rfl := List.mem_singleton.mp hmem
              rw [hi] at hj
              obtain rfl := Option.some.inj hj
              omega
          · have := (List.pairwise_append.mp hsorted).2.2 node (by simp) next hmem
            rw [hi, hj, Option.getD_some, Option.getD_some] at this
            omega
      have hplace : place (blocks edges) onward node node =
          ((blocks edges node).map fun next => onward next + 1).foldl max 0 := by
        rw [place, Function.update_self]
        congr 1
        refine List.map_congr_left fun next hmem => min_eq_left ?_
        obtain ⟨⟨b, walk⟩, -⟩ := hnext next ⟨hmem, hclear⟩
        exact (fromClear_length_le hcount (walk.head ⟨hmem, hclear⟩)).trans hcount
      constructor
      · intro other hmem
        rcases List.mem_append.mp hmem with hmem | hmem
        · rw [place, Function.update_of_ne (fun heq : other = node => hnode (heq ▸ hmem))]
          exact hdone other hmem
        · obtain rfl := List.mem_singleton.mp hmem
          rw [hplace]
          exact longestFrom_of_successors (fun b => ⟨fun hb => ⟨hb, hclear⟩, fun hb => hb.1⟩) hnext
      · intro other hother
        rw [List.mem_append, List.mem_singleton, not_or] at hother
        rw [place, Function.update_of_ne hother.2]
        exact hzero other hother.1

/-- **What the onward lengths are**: a longest walk whose nodes but the last have layers. -/
theorem longestFrom_onwardLengths (hcount : count ≤ U32_MAX) {node : Fin count}
    (hnone : ¬ CycleReaches (fun a b => b ∈ blocks edges a) node) :
    LongestFrom (FromClear fun a b => b ∈ blocks edges a)
      (onwardLengths (blocks edges) (dependencyLayers (blockedBy edges) (blocks edges)).layer node)
      node :=
  (foldl_place hcount rfl _ [] (List.append_nil _).symm).1 node
    (mem_placed.mpr ((isSome_layer_iff hcount).mpr hnone))

end Onward

/-! ## What slack should be -/

/-- The deepest of the layers there are. -/
def Deepest {count : ℕ} (layer : Fin count → Option ℕ) (deepest : ℕ) : Prop :=
  IsGreatest {k | ∃ node, layer node = some k} deepest

/-- Slack is exact: a layer and the longest walk on through layered nodes stay within the
deepest layer and leave the slack, and some layered node has none. -/
structure SlackLaw {count : ℕ} (r : Fin count → Fin count → Prop)
    (layer slack : Fin count → Option ℕ) : Prop where
  exact : ∀ node at_ onward deepest, layer node = some at_ →
    LongestFrom (ClearStep r) onward node → Deepest layer deepest →
      at_ + onward ≤ deepest ∧ slack node = some (deepest - (at_ + onward))
  longest : ∀ node, (layer node).isSome →
    (∃ onward, LongestFrom (ClearStep r) onward node) ∧ ∃ deepest, Deepest layer deepest
  critical : (∃ node, (layer node).isSome) → ∃ node, slack node = some 0

section Law

variable {count : ℕ} {edges : List (Edge count)}

theorem deepest_maxLayer {layer : Fin count → Option ℕ} {node : Fin count} {k : ℕ}
    (h : layer node = some k) : Deepest layer (maxLayer layer) := by
  have hmem : ∀ j, j ∈ (List.finRange count).filterMap layer ↔ ∃ node, layer node = some j := by
    simp [List.mem_filterMap]
  obtain ⟨-, hall, hmax⟩ := foldl_max_spec ((List.finRange count).filterMap layer) 0
  refine ⟨?_, fun j hj => hall j ((hmem j).mpr hj)⟩
  rcases hmax with hzero | hmax
  · have := hall k ((hmem k).mpr ⟨node, h⟩)
    refine ⟨node, ?_⟩
    rw [h, maxLayer, hzero, Option.some_inj]
    omega
  · exact (hmem _).mp hmax

/-- A node with a layer is one no cycle leads to. -/
theorem clear_of_layer (hcount : count ≤ U32_MAX) {node : Fin count} {k : ℕ}
    (h : (dependencyLayers (blockedBy edges) (blocks edges)).layer node = some k) :
    ¬ CycleReaches (fun a b => b ∈ blocks edges a) node := ((layer_eq_some_iff hcount).mp h).1

/-- A chain of layered nodes ends within the deepest layer. -/
theorem add_le_deepest (hcount : count ≤ U32_MAX) {node : Fin count} {at_ onward deepest : ℕ}
    (hat : (dependencyLayers (blockedBy edges) (blocks edges)).layer node = some at_)
    (honward : LongestFrom (ClearStep fun a b => b ∈ blocks edges a) onward node)
    (hdeepest : Deepest (dependencyLayers (blockedBy edges) (blocks edges)).layer deepest) :
    at_ + onward ≤ deepest := by
  obtain ⟨⟨last, walk⟩, -⟩ := honward
  obtain ⟨j, hj, -⟩ := exists_layer hcount (walk.clear (clear_of_layer hcount hat))
  obtain ⟨i, hi, hle⟩ := exists_layer_add_le hcount (walk.mono fun _ _ h => h.1) hj
  obtain rfl := Option.some.inj (hat.symm.trans hi)
  exact hle.trans (hdeepest.2 ⟨last, hj⟩)

/-- **Where the subtraction saturates.**  The layer of a node and its onward length pass the
deepest layer where a longest chain of layered nodes through it ends there and can be left
towards a cycle. -/
theorem maxLayer_lt_iff (hcount : count ≤ U32_MAX) {node : Fin count} {at_ onward deepest : ℕ}
    (hat : (dependencyLayers (blockedBy edges) (blocks edges)).layer node = some at_)
    (honward : LongestFrom (ClearStep fun a b => b ∈ blocks edges a) onward node)
    (hdeepest : Deepest (dependencyLayers (blockedBy edges) (blocks edges)).layer deepest) :
    deepest < at_ +
        onwardLengths (blocks edges) (dependencyLayers (blockedBy edges) (blocks edges)).layer node ↔
      at_ + onward = deepest ∧ ∃ last next,
        Walk (ClearStep fun a b => b ∈ blocks edges a) onward node last ∧
          next ∈ blocks edges last ∧ CycleReaches (fun a b => b ∈ blocks edges a) next := by
  have hbound := add_le_deepest hcount hat honward hdeepest
  obtain ⟨hle, hstep, hiff⟩ := honward.fromClear (clear_of_layer hcount hat)
    (longestFrom_onwardLengths hcount (clear_of_layer hcount hat))
  have hleft : (∃ last next, Walk (ClearStep fun a b => b ∈ blocks edges a) onward node last ∧
      next ∈ blocks edges last ∧ CycleReaches (fun a b => b ∈ blocks edges a) next) ↔
      onwardLengths (blocks edges) (dependencyLayers (blockedBy edges) (blocks edges)).layer node ≠
        onward := by
    rw [Ne, hiff]
    push Not
    rfl
  rw [hleft]
  omega

/-- **When slack is exact**: where no longest chain of layered nodes beside the deepest ones can
be left towards a cycle. -/
theorem slackLaw_iff (hcount : count ≤ U32_MAX) (edges : List (Edge count))
    {r : Fin count → Fin count → Prop} (hr : r = fun a b => b ∈ blocks edges a) :
    SlackLaw r (dependencyLayers (blockedBy edges) (blocks edges)).layer
        (slack (blocks edges) (dependencyLayers (blockedBy edges) (blocks edges)).layer) ↔
      ∀ node at_ onward deepest,
        (dependencyLayers (blockedBy edges) (blocks edges)).layer node = some at_ →
        LongestFrom (ClearStep r) onward node →
        Deepest (dependencyLayers (blockedBy edges) (blocks edges)).layer deepest →
          at_ + onward = deepest ∨
            ∀ last next, Walk (ClearStep r) onward node last → r last next →
              ¬ CycleReaches r next := by
  subst hr
  generalize hlayer : (dependencyLayers (blockedBy edges) (blocks edges)).layer = layer
  have hclear : ∀ node k, layer node = some k →
      ¬ CycleReaches (fun a b => b ∈ blocks edges a) node := fun node k h =>
    clear_of_layer hcount (hlayer ▸ h)
  have hwithin : ∀ node at_ onward deepest, layer node = some at_ →
      LongestFrom (ClearStep fun a b => b ∈ blocks edges a) onward node → Deepest layer deepest →
      at_ + onward ≤ deepest := by
    subst hlayer
    exact fun node at_ onward deepest => add_le_deepest hcount
  -- The slack computed, without saturation of the sum.
  have hslack : ∀ node at_ onward deepest, layer node = some at_ →
      LongestFrom (ClearStep fun a b => b ∈ blocks edges a) onward node → Deepest layer deepest →
      slack (blocks edges) layer node =
        some (deepest - (at_ + onwardLengths (blocks edges) layer node)) := by
    intro node at_ onward deepest hat honward hdeepest
    have hlongest := @longestFrom_onwardLengths _ edges hcount node (hclear node at_ hat)
    rw [hlayer] at hlongest
    have hstep := (honward.fromClear (hclear node at_ hat) hlongest).2.1
    have hle := hwithin node at_ onward deepest hat honward hdeepest
    obtain ⟨deep, hdeep⟩ := hdeepest.1
    have hlt := layer_lt hcount (hlayer ▸ hdeep)
    rw [slack, hat, Option.map_some, saturatingAdd32, min_eq_left (by omega),
      (deepest_maxLayer hat).unique hdeepest]
  have hlongest : ∀ node, (layer node).isSome →
      ∃ onward, LongestFrom (ClearStep fun a b => b ∈ blocks edges a) onward node :=
    fun node _ => @exists_longestFrom _ _ node count fun k b walk =>
      fromClear_length_le hcount (walk.mono fun _ _ => ClearStep.fromClear)
  constructor
  · intro h node at_ onward deepest hat honward hdeepest
    have hspec := @longestFrom_onwardLengths _ edges hcount node (hclear node at_ hat)
    rw [hlayer] at hspec
    obtain ⟨hle, hstep, hiff⟩ := honward.fromClear (hclear node at_ hat) hspec
    obtain ⟨hbound, hexact⟩ := h.exact node at_ onward deepest hat honward hdeepest
    rw [hslack node at_ onward deepest hat honward hdeepest, Option.some_inj] at hexact
    by_cases hend : at_ + onward = deepest
    · exact Or.inl hend
    · exact Or.inr (hiff.mp (by omega))
  · intro h
    refine ⟨fun node at_ onward deepest hat honward hdeepest => ?_, fun node hsome => ?_, ?_⟩
    · have hspec := @longestFrom_onwardLengths _ edges hcount node (hclear node at_ hat)
      rw [hlayer] at hspec
      obtain ⟨hle, hstep, hiff⟩ := honward.fromClear (hclear node at_ hat) hspec
      have hbound := hwithin node at_ onward deepest hat honward hdeepest
      refine ⟨hbound, ?_⟩
      rw [hslack node at_ onward deepest hat honward hdeepest, Option.some_inj]
      rcases h node at_ onward deepest hat honward hdeepest with hend | hstay
      · omega
      · rw [hiff.mpr hstay]
    · obtain ⟨k, hk⟩ := Option.isSome_iff_exists.mp hsome
      exact ⟨hlongest node hsome, _, deepest_maxLayer hk⟩
    · rintro ⟨node, hsome⟩
      obtain ⟨k, hk⟩ := Option.isSome_iff_exists.mp hsome
      have hdeepest := deepest_maxLayer hk
      obtain ⟨deep, hdeep⟩ := hdeepest.1
      obtain ⟨onward, honward⟩ := hlongest deep (by rw [hdeep, Option.isSome_some])
      refine ⟨deep, ?_⟩
      rw [hslack deep _ onward _ hdeep honward hdeepest, Option.some_inj]
      omega

end Law

/-! ## The slack of a readable geometry -/

/-- The layer the facts give a selected issue no cycle leads to. -/
def LayerAmong (request : GeometryRequest) (facts : GeometryFacts) (id : Text) (k : ℕ) : Prop :=
  Selected request facts id ∧ ¬ CycleReaches (BlocksAmong request facts) id ∧
    LongestInto (BlocksAmong request facts) k id

/-- Some longest chain of layered issues from this one can be left by an edge towards a
cycle. -/
def LeftTowardsCycle (request : GeometryRequest) (facts : GeometryFacts) (id : Text)
    (onward : ℕ) : Prop :=
  ∃ last next, Walk (ClearStep (BlocksAmong request facts)) onward id last ∧
    BlocksAmong request facts last next ∧ CycleReaches (BlocksAmong request facts) next

section Readable

variable [Crypto] {request : GeometryRequest} {facts : GeometryFacts} {store : CompactGeometry}

/-- The layers of a readable geometry are those the facts give. -/
theorem Ready.layer_iff (h : Ready request facts store) (node : Fin store.count) (k : ℕ) :
    store.nodes.layer node = some k ↔ LayerAmong request facts (store.name node) k := by
  rw [LayerAmong, ← h.names.cycleReaches_iff, ← h.names.longestInto_iff, ← h.blocksIn_eq]
  have hselected := h.selected node
  obtain ⟨prepared, parent, missing, dictionary, project, roots, hassembly, rfl, hname⟩ :=
    h.exists_assembly
  have hrelation : BlocksIn facts (assembled prepared parent missing dictionary project roots) =
      fun a b : Fin prepared.count => b ∈ blocks prepared.edges a := by
    funext a b
    exact propext (hassembly.blocksIn_iff hname a b)
  rw [hrelation]
  exact (layer_eq_some_iff hassembly.faithful.count_le).trans
    ⟨fun hlayer => ⟨hselected, hlayer⟩, And.right⟩

/-- The blocking column holds the blocking relation. -/
theorem Ready.mem_blocks (h : Ready request facts store) (a b : Fin store.count) :
    b ∈ store.nodes.blocks a ↔ BlocksIn facts store a b := by
  obtain ⟨prepared, parent, missing, dictionary, project, roots, hassembly, rfl, hname⟩ :=
    h.exists_assembly
  exact (hassembly.blocksIn_iff hname a b).symm

/-- A node without a layer is one a cycle leads to. -/
theorem Ready.layer_eq_none_iff (h : Ready request facts store) (node : Fin store.count) :
    store.nodes.layer node = none ↔ CycleReaches (BlocksIn facts store) node := by
  obtain ⟨prepared, parent, missing, dictionary, project, roots, hassembly, rfl, hname⟩ :=
    h.exists_assembly
  have hrelation : BlocksIn facts (assembled prepared parent missing dictionary project roots) =
      fun a b : Fin prepared.count => b ∈ blocks prepared.edges a := by
    funext a b
    exact propext (hassembly.blocksIn_iff hname a b)
  rw [hrelation]
  exact Geometry.layer_eq_none_iff hassembly.faithful.count_le

/-- **When slack is exact.**  The slack of every node of a readable geometry is what is left
of the deepest layer behind its layer and the longest blocking path on through layered
nodes, if and only if no longest such path from an issue short of the deepest layer can be
left by an edge to an issue a cycle leads to. -/
theorem slack_exact_iff (request : GeometryRequest) (facts : GeometryFacts)
    (store : CompactGeometry) (h : Ready request facts store) :
    SlackLaw (BlocksIn facts store) store.nodes.layer store.nodes.slack ↔
      ∀ id at_ onward deepest, LayerAmong request facts id at_ →
        LongestFrom (ClearStep (BlocksAmong request facts)) onward id →
        IsGreatest {k | ∃ other, LayerAmong request facts other k} deepest →
          at_ + onward = deepest ∨ ¬ LeftTowardsCycle request facts id onward := by
  have hnames := h.names
  have hclear := hnames.clearStep
  have hdeepest : ∀ deepest, IsGreatest {k | ∃ other, LayerAmong request facts other k} deepest ↔
      Deepest store.nodes.layer deepest := by
    intro deepest
    have hset : {k | ∃ other, LayerAmong request facts other k} =
        {k | ∃ node, store.nodes.layer node = some k} := by
      ext k
      constructor
      · rintro ⟨other, hother⟩
        obtain ⟨node, rfl⟩ := h.exists_node hother.1
        exact ⟨node, (h.layer_iff node k).mpr hother⟩
      · rintro ⟨node, hnode⟩
        exact ⟨store.name node, (h.layer_iff node k).mp hnode⟩
    rw [hset, Deepest]
  have hleft : ∀ (node : Fin store.count) onward,
      ¬ LeftTowardsCycle request facts (store.name node) onward ↔
        ∀ last next, Walk (ClearStep (BlocksIn facts store)) onward node last →
          BlocksIn facts store last next → ¬ CycleReaches (BlocksIn facts store) next := by
    intro node onward
    rw [h.blocksIn_eq, hnames.through_clearStep]
    constructor
    · intro hnot last next walk edge hreach
      exact hnot ⟨store.name last, store.name next, hclear.walk_iff.mp walk, edge,
        hnames.cycleReaches_iff.mp hreach⟩
    · rintro hall ⟨last, next, walk, edge, hreach⟩
      obtain ⟨⟨last, rfl⟩, ⟨next, rfl⟩⟩ := hnames.2 _ _ edge
      exact hall last next (hclear.walk_iff.mpr walk) edge (hnames.cycleReaches_iff.mpr hreach)
  have hcondition : (∀ id at_ onward deepest, LayerAmong request facts id at_ →
      LongestFrom (ClearStep (BlocksAmong request facts)) onward id →
      IsGreatest {k | ∃ other, LayerAmong request facts other k} deepest →
        at_ + onward = deepest ∨ ¬ LeftTowardsCycle request facts id onward) ↔
      ∀ (node : Fin store.count) at_ onward deepest, store.nodes.layer node = some at_ →
        LongestFrom (ClearStep (BlocksIn facts store)) onward node →
        Deepest store.nodes.layer deepest →
          at_ + onward = deepest ∨
            ∀ last next, Walk (ClearStep (BlocksIn facts store)) onward node last →
              BlocksIn facts store last next → ¬ CycleReaches (BlocksIn facts store) next := by
    constructor
    · intro hall node at_ onward deepest hat honward hdeep
      rw [← hleft]
      rw [h.blocksIn_eq, hnames.through_clearStep] at honward
      exact hall _ at_ onward deepest ((h.layer_iff node at_).mp hat)
        (hclear.longestFrom_iff.mp honward) ((hdeepest deepest).mpr hdeep)
    · intro hall id at_ onward deepest hat honward hdeep
      obtain ⟨node, rfl⟩ := h.exists_node hat.1
      rw [hleft]
      refine hall node at_ onward deepest ((h.layer_iff node at_).mpr hat) ?_
        ((hdeepest deepest).mp hdeep)
      rw [h.blocksIn_eq, hnames.through_clearStep]
      exact hclear.longestFrom_iff.mpr honward
  rw [hcondition]
  obtain ⟨prepared, parent, missing, dictionary, project, roots, hassembly, rfl, hname⟩ :=
    h.exists_assembly
  refine slackLaw_iff hassembly.faithful.count_le prepared.edges ?_
  funext a b
  exact propext (hassembly.blocksIn_iff hname a b)

end Readable

/-- A chain of three beside an issue that blocks nothing that could be late. -/
theorem slack_exact_iff_sample :
    letI := idealCrypto
    ∃ store, Ready sampleRequest (sampleFacts ["a", "b", "c", "d"]
        [("a", "blocks", "b"), ("b", "blocks", "c"), ("a", "blocks", "d")]) store ∧
      (List.finRange store.count).map store.nodes.slack = [some 0, some 0, some 0, some 1] ∧
      (SlackLaw (BlocksIn (sampleFacts ["a", "b", "c", "d"]
          [("a", "blocks", "b"), ("b", "blocks", "c"), ("a", "blocks", "d")]) store)
          store.nodes.layer store.nodes.slack ↔
        ∀ id at_ onward deepest,
          LayerAmong sampleRequest (sampleFacts ["a", "b", "c", "d"]
            [("a", "blocks", "b"), ("b", "blocks", "c"), ("a", "blocks", "d")]) id at_ →
          LongestFrom (ClearStep (BlocksAmong sampleRequest (sampleFacts ["a", "b", "c", "d"]
            [("a", "blocks", "b"), ("b", "blocks", "c"), ("a", "blocks", "d")]))) onward id →
          IsGreatest {k | ∃ other, LayerAmong sampleRequest (sampleFacts ["a", "b", "c", "d"]
            [("a", "blocks", "b"), ("b", "blocks", "c"), ("a", "blocks", "d")]) other k} deepest →
            at_ + onward = deepest ∨ ¬ LeftTowardsCycle sampleRequest
              (sampleFacts ["a", "b", "c", "d"]
                [("a", "blocks", "b"), ("b", "blocks", "c"), ("a", "blocks", "d")]) id onward) := by
  let := idealCrypto
  have hmap : (materialize sampleRequest (sampleFacts ["a", "b", "c", "d"]
      [("a", "blocks", "b"), ("b", "blocks", "c"), ("a", "blocks", "d")])).store.map
        (fun store => (List.finRange store.count).map store.nodes.slack) =
          some [some 0, some 0, some 0, some 1] := by
    decide +kernel
  obtain ⟨store, hready, hslack⟩ := exists_ready hmap
  exact ⟨store, hready, hslack, slack_exact_iff _ _ store hready⟩

/-- An issue that only blocks one of a loop has no layered path on, yet loses a layer of slack
for it. -/
theorem slack_before_loop :
    letI := idealCrypto
    ∃ store, Ready sampleRequest (sampleFacts ["a", "b", "c", "x", "y"] [("a", "blocks", "b"),
        ("b", "blocks", "c"), ("c", "blocks", "b"), ("x", "blocks", "y")]) store ∧
      ¬ SlackLaw (BlocksIn (sampleFacts ["a", "b", "c", "x", "y"] [("a", "blocks", "b"),
        ("b", "blocks", "c"), ("c", "blocks", "b"), ("x", "blocks", "y")]) store)
        store.nodes.layer store.nodes.slack := by
  let := idealCrypto
  have hmap : (materialize sampleRequest (sampleFacts ["a", "b", "c", "x", "y"]
      [("a", "blocks", "b"), ("b", "blocks", "c"), ("c", "blocks", "b"), ("x", "blocks", "y")])
      ).store.map (fun store => decide (∃ node, store.nodes.layer node = some 0 ∧
        store.nodes.slack node = some 0 ∧
        (∀ next ∈ store.nodes.blocks node, store.nodes.layer next = none) ∧
        (∃ deep, store.nodes.layer deep = some 1) ∧
        ∀ other, (store.nodes.layer other).getD 0 ≤ 1)) = some true := by
    decide +kernel
  obtain ⟨store, hready, hdecide⟩ := exists_ready hmap
  obtain ⟨node, hlayer, hslack, hnext, hdeep, hall⟩ := of_decide_eq_true hdecide
  refine ⟨store, hready, fun hlaw => ?_⟩
  have hdeepest : Deepest store.nodes.layer 1 := by
    refine ⟨hdeep, ?_⟩
    rintro k ⟨other, hother⟩
    simpa [hother] using hall other
  have hlongest : LongestFrom (ClearStep (BlocksIn (sampleFacts ["a", "b", "c", "x", "y"]
      [("a", "blocks", "b"), ("b", "blocks", "c"), ("c", "blocks", "b"), ("x", "blocks", "y")])
      store)) 0 node := by
    refine ⟨⟨node, .refl node⟩, fun j last walk => ?_⟩
    cases j with
    | zero => exact le_rfl
    | succ j =>
        obtain ⟨next, ⟨edge, hclear⟩, -⟩ := walk.exists_head
        exact absurd ((hready.layer_eq_none_iff next).mp
          (hnext next ((hready.mem_blocks node next).mpr edge))) hclear
  have hexact := (hlaw.exact node 0 0 1 hlayer hlongest hdeepest).2
  rw [hslack] at hexact
  cases hexact

end Lait.Issues.Geometry
