import Lait.Issues.Geometry.Layers

/-!
# Implied edges

A blocking edge is redundant when a longer blocking path joins its ends.  The search for one
starts beside the edge, prunes by layer and finds a path exactly if there is one
(`implied_iff`): every node on such a path but the last has a layer below the last one's,
so none is pruned.

The flags are kept by endpoints and every edge row looks its own up, so a row of another
kind is flagged as well where it joins the ends of a redundant blocking edge.  The flags
are right exactly where no such row exists.  Deleting the flagged rows never changes what
blocks what: between two layers a redundant edge is replaced by edges that bridge fewer
layers, and an edge that bridges one layer is not redundant.
-/

namespace Lait.Issues.Geometry

open Lait (Text Crypto)
open Lait.Graph

/-! ## The search -/

section Search

variable {count : ℕ} {next : Fin count → List (Fin count)} {layer : Fin count → Option ℕ}
  {target : Fin count} {arrival : ℕ}

/-- What the search does not look behind. -/
def Pruned (layer : Fin count → Option ℕ) (arrival : ℕ) (node : Fin count) : Prop :=
  (layer node).all (fun at_ => arrival ≤ at_) = true

theorem searchLonger_sound {fuel : ℕ} {stack : List (Fin count)} {seen : Finset (Fin count)}
    (h : searchLonger next layer target arrival fuel stack seen = true) :
    ∃ s ∈ stack, Relation.ReflTransGen (fun a b => b ∈ next a) s target := by
  fun_induction searchLonger next layer target arrival fuel stack seen with
  | case1 => cases h
  | case2 => cases h
  | case3 fuel stack seen => exact ⟨target, List.mem_cons_self, .refl⟩
  | case4 fuel node stack seen hne hpruned ih =>
      obtain ⟨s, hs, hreach⟩ := ih h
      exact ⟨s, List.mem_cons_of_mem _ hs, hreach⟩
  | case5 fuel node stack seen hne hpruned marked ih =>
      obtain ⟨s, hs, hreach⟩ := ih h
      obtain ⟨fresh, -, hfresh, hstack, -, -⟩ := foldl_mark (next node) (seen, stack)
      rw [show marked.2 = fresh ++ stack from hstack] at hs
      rcases List.mem_append.mp hs with hs | hs
      · exact ⟨node, List.mem_cons_self, .head (hfresh s hs).1 hreach⟩
      · exact ⟨s, List.mem_cons_of_mem _ hs, hreach⟩

/-- A search that finds nothing has seen a set that leads to the target only through what it
does not look behind. -/
theorem searchLonger_complete {fuel : ℕ} {stack : List (Fin count)} {seen : Finset (Fin count)}
    (hfuel : (Finset.univ \ seen).card + stack.length + 1 ≤ fuel)
    (hstack : ∀ v ∈ stack, v ∈ seen)
    (hdone : ∀ v ∈ seen, v ∈ stack ∨
      v ≠ target ∧ (Pruned layer arrival v ∨ ∀ w ∈ next v, w ∈ seen))
    (h : searchLonger next layer target arrival fuel stack seen = false) :
    ∃ all : Finset (Fin count), seen ⊆ all ∧ ∀ v ∈ all,
      v ≠ target ∧ (Pruned layer arrival v ∨ ∀ w ∈ next v, w ∈ all) := by
  fun_induction searchLonger next layer target arrival fuel stack seen with
  | case1 stack seen => omega
  | case2 fuel seen =>
      exact ⟨seen, subset_rfl, fun v hv => (hdone v hv).resolve_left (by simp)⟩
  | case3 => cases h
  | case4 fuel node stack seen hne hpruned ih =>
      refine ih (by rw [List.length_cons] at hfuel; omega)
        (fun v hv => hstack v (List.mem_cons_of_mem _ hv)) (fun v hv => ?_) h
      rcases hdone v hv with hmem | hrest
      · rcases List.mem_cons.mp hmem with rfl | hmem
        · exact Or.inr ⟨hne, Or.inl hpruned⟩
        · exact Or.inl hmem
      · exact Or.inr hrest
  | case5 fuel node stack seen hne hpruned marked ih =>
      obtain ⟨fresh, hnodup, hfresh, hmarked, hseen, hall⟩ := foldl_mark (next node) (seen, stack)
      replace hmarked : marked.2 = fresh ++ stack := hmarked
      replace hseen : ∀ v, v ∈ marked.1 ↔ v ∈ seen ∨ v ∈ fresh := hseen
      have hgrown : seen ⊆ marked.1 := fun v hv => (hseen v).mpr (Or.inl hv)
      have hcard : (Finset.univ \ marked.1).card + fresh.length = (Finset.univ \ seen).card := by
        have hunion : marked.1 = seen ∪ fresh.toFinset := by
          ext v
          rw [hseen, Finset.mem_union, List.mem_toFinset]
        have hsub : fresh.toFinset ⊆ Finset.univ \ seen := fun v hv =>
          Finset.mem_sdiff.mpr ⟨Finset.mem_univ v, (hfresh v (List.mem_toFinset.mp hv)).2⟩
        have hsum := Finset.card_sdiff_add_card_eq_card hsub
        rwa [List.toFinset_card_of_nodup hnodup, Finset.sdiff_sdiff_left',
          ← Finset.sdiff_union_distrib, ← hunion] at hsum
      have hstack' : ∀ v ∈ marked.2, v ∈ marked.1 := by
        intro v hv
        rw [hmarked] at hv
        rcases List.mem_append.mp hv with hv | hv
        · exact (hseen v).mpr (Or.inr hv)
        · exact hgrown (hstack v (List.mem_cons_of_mem _ hv))
      have hdone' : ∀ v ∈ marked.1, v ∈ marked.2 ∨
          v ≠ target ∧ (Pruned layer arrival v ∨ ∀ w ∈ next v, w ∈ marked.1) := by
        intro v hv
        rcases (hseen v).mp hv with hv | hv
        · rcases hdone v hv with hmem | ⟨hvne, hrest⟩
          · rcases List.mem_cons.mp hmem with rfl | hmem
            · exact Or.inr ⟨hne, Or.inr fun w hw => hall w hw⟩
            · exact Or.inl (hmarked ▸ List.mem_append_right _ hmem)
          · exact Or.inr ⟨hvne, hrest.imp_right fun hnext w hw => hgrown (hnext w hw)⟩
        · exact Or.inl (hmarked ▸ List.mem_append_left _ hv)
      have hfuel' : (Finset.univ \ marked.1).card + marked.2.length + 1 ≤ fuel := by
        rw [hmarked, List.length_append]
        rw [List.length_cons] at hfuel
        omega
      obtain ⟨all, hsub, hclosed⟩ := ih hfuel' hstack' hdone' h
      exact ⟨all, hgrown.trans hsub, hclosed⟩

end Search

/-! ## The flag of a blocking edge -/

section Flags

variable {count : ℕ} {edges : List (Edge count)}

/-- Along a walk to a node no cycle leads to, the layers grow by its length. -/
theorem exists_layer_add_le (hcount : count ≤ U32_MAX) {a b : Fin count} {k j : ℕ}
    (walk : Walk (fun a b => b ∈ blocks edges a) k a b)
    (hb : (dependencyLayers (blockedBy edges) (blocks edges)).layer b = some j) :
    ∃ i, (dependencyLayers (blockedBy edges) (blocks edges)).layer a = some i ∧ i + k ≤ j := by
  obtain ⟨hnone, hlongest⟩ := (layer_eq_some_iff hcount).mp hb
  have ha : ¬ CycleReaches (fun a b => b ∈ blocks edges a) a :=
    fun h => hnone (h.mono walk.reflTransGen)
  obtain ⟨i, hi, -, ⟨s, hs⟩, -⟩ := exists_layer hcount ha
  exact ⟨i, hi, hlongest.2 _ s (hs.trans walk)⟩

/-- **The search is right.**  A blocking edge is found redundant exactly if its ends have
layers and a longer blocking path joins them. -/
theorem implied_iff (hcount : count ≤ U32_MAX) {a b : Fin count} (edge : b ∈ blocks edges a) :
    impliedByLongerPath (blocks edges) (dependencyLayers (blockedBy edges) (blocks edges)).layer
        a b = true ↔
      ¬ CycleReaches (fun a b => b ∈ blocks edges a) b ∧
        ∃ k, Walk (fun a b => b ∈ blocks edges a) (k + 2) a b := by
  constructor
  · intro h
    rw [impliedByLongerPath] at h
    split at h
    case h_1 => cases h
    case h_2 arrival harrival =>
        split at h
        case isTrue => cases h
        case isFalse =>
            obtain ⟨s, hs, hreach⟩ := searchLonger_sound h
            have hs := List.mem_filter.mp (List.mem_reverse.mp hs)
            refine ⟨((layer_eq_some_iff hcount).mp harrival).1, ?_⟩
            rcases Relation.reflTransGen_iff_eq_or_transGen.mp hreach with heq | htrans
            · exact absurd heq.symm (of_decide_eq_true hs.2)
            · obtain ⟨k, walk⟩ := exists_walk_of_transGen htrans
              exact ⟨k, Walk.head hs.1 walk⟩
  · rintro ⟨hnone, k, walk⟩
    obtain ⟨arrival, harrival, -⟩ := exists_layer hcount hnone
    obtain ⟨depart, hdepart, hle⟩ := exists_layer_add_le hcount walk harrival
    rw [impliedByLongerPath]
    simp only [harrival, hdepart, Option.getD_some]
    have hgap : ¬ arrival ≤ saturatingAdd32 depart 1 := by
      have : saturatingAdd32 depart 1 ≤ depart + 1 := min_le_left _ _
      omega
    rw [if_neg hgap]
    by_contra hfound
    rw [Bool.not_eq_true] at hfound
    have hnodup : ((blocks edges a).filter fun next => next ≠ b).Nodup :=
      (nodup_blocks edges a).filter _
    have hfuel : (Finset.univ \ ((blocks edges a).filter fun next => next ≠ b).toFinset).card +
        ((blocks edges a).filter fun next => next ≠ b).reverse.length + 1 ≤ count + 1 := by
      rw [List.length_reverse, ← List.toFinset_card_of_nodup hnodup,
        Finset.card_sdiff_add_card_eq_card (Finset.subset_univ _), Finset.card_univ,
        Fintype.card_fin]
    obtain ⟨all, hfirst, hclosed⟩ := searchLonger_complete hfuel
      (fun v hv => List.mem_toFinset.mpr (List.mem_reverse.mp hv))
      (fun v hv => Or.inl (List.mem_reverse.mpr (List.mem_toFinset.mp hv))) hfound
    -- Every node of the longer path behind its first is in the set, up to the target itself.
    have hnever : ∀ m v, Walk (fun a b => b ∈ blocks edges a) m v b → v ∉ all := by
      intro m
      induction m with
      | zero =>
          intro v rest hv
          cases rest
          exact (hclosed b hv).1 rfl
      | succ m ih =>
          intro v rest hv
          obtain ⟨w, hvw, hrest⟩ := rest.exists_head
          obtain ⟨at_, hat, hbelow⟩ := exists_layer_add_le hcount rest harrival
          rcases (hclosed v hv).2 with hpruned | hnext
          · rw [Pruned, hat, Option.all_some, decide_eq_true_eq] at hpruned
            omega
          · exact ih w hrest (hnext w hvw)
    obtain ⟨x, hax, rest⟩ := walk.exists_head
    refine hnever _ x rest (hfirst ?_)
    rw [List.mem_toFinset, List.mem_filter, decide_eq_true_eq]
    refine ⟨hax, ?_⟩
    rintro rfl
    exact hnone (OnCycle.cycleReaches rest.transGen)

theorem mem_impliedPairs {layer : Fin count → Option ℕ} {a b : Fin count} :
    (a, b) ∈ impliedPairs (blocks edges) layer edges ↔
      b ∈ blocks edges a ∧ impliedByLongerPath (blocks edges) layer a b = true := by
  simp only [impliedPairs, List.mem_map, List.mem_filter, decide_eq_true_eq, mem_blocks,
    Prod.mk.injEq]
  constructor
  · rintro ⟨⟨_, _, _⟩, ⟨hmem, rfl, himplied⟩, rfl, rfl⟩
    exact ⟨hmem, himplied⟩
  · rintro ⟨hmem, himplied⟩
    exact ⟨_, ⟨hmem, rfl, himplied⟩, rfl, rfl⟩

end Flags

/-! ## What the flags say -/

section Rows

variable {count : ℕ}

/-- What blocks what once the flagged rows are deleted. -/
def KeptRow (rows : List (EdgeRow count)) (a b : Fin count) : Prop := ⟨a, .blocks, b, false⟩ ∈ rows

/-- The rows are the relations, a row is flagged exactly if it is a blocking edge whose ends
have layers and are joined by a longer blocking path, and the flagged rows can be deleted. -/
structure ImpliedLaw (related : RelationKind → Fin count → Fin count → Prop)
    (layer : Fin count → Option ℕ) (rows : List (EdgeRow count)) : Prop where
  rows_iff : ∀ a kind b, (∃ implied, ⟨a, kind, b, implied⟩ ∈ rows) ↔ related kind a b
  flag_iff : ∀ row ∈ rows, row.implied = true ↔
    row.relation = .blocks ∧ (layer row.fromNode).isSome ∧ (layer row.toNode).isSome ∧
      ∃ k, 2 ≤ k ∧ Walk (related .blocks) k row.fromNode row.toNode
  reach_iff : ∀ a b, Relation.ReflTransGen (KeptRow rows) a b ↔
    Relation.ReflTransGen (related .blocks) a b

/-- The rows of the edges. -/
def edgeRows (edges : List (Edge count)) (implied : List (Fin count × Fin count)) :
    List (EdgeRow count) :=
  edges.map fun edge =>
    ⟨edge.fromNode, edge.relation, edge.toNode, (edge.fromNode, edge.toNode) ∈ implied⟩

theorem mem_edgeRows {edges : List (Edge count)} {implied : List (Fin count × Fin count)}
    {row : EdgeRow count} :
    row ∈ edgeRows edges implied ↔ ⟨row.fromNode, row.relation, row.toNode⟩ ∈ edges ∧
      (row.implied = true ↔ (row.fromNode, row.toNode) ∈ implied) := by
  obtain ⟨a, kind, b, flag⟩ := row
  simp only [edgeRows, List.mem_map, EdgeRow.mk.injEq]
  constructor
  · rintro ⟨⟨_, _, _⟩, hmem, rfl, rfl, rfl, rfl⟩
    exact ⟨hmem, decide_eq_true_iff⟩
  · rintro ⟨hmem, hflag⟩
    exact ⟨_, hmem, rfl, rfl, rfl, (Bool.eq_iff_iff.mpr (hflag.trans decide_eq_true_iff.symm)).symm⟩

theorem isSome_layer_iff (hcount : count ≤ U32_MAX) {edges : List (Edge count)}
    {node : Fin count} :
    ((dependencyLayers (blockedBy edges) (blocks edges)).layer node).isSome ↔
      ¬ CycleReaches (fun a b => b ∈ blocks edges a) node := by
  rw [← layer_eq_none_iff hcount, Option.isSome_iff_ne_none]

/-- **When the flags are right**: no edge of another kind joins the ends of a redundant
blocking edge. -/
theorem impliedLaw_iff (hcount : count ≤ U32_MAX) (edges : List (Edge count))
    {related : RelationKind → Fin count → Fin count → Prop}
    (hrelated : related = fun kind a b => ⟨a, kind, b⟩ ∈ edges) :
    ImpliedLaw related (dependencyLayers (blockedBy edges) (blocks edges)).layer
        (edgeRows edges (impliedPairs (blocks edges)
          (dependencyLayers (blockedBy edges) (blocks edges)).layer edges)) ↔
      ∀ kind a b, kind ≠ .blocks → related .blocks a b → ¬ CycleReaches (related .blocks) b →
        (∃ k, 2 ≤ k ∧ Walk (related .blocks) k a b) → ¬ related kind a b := by
  subst hrelated
  have hrelation : (fun a b : Fin count => b ∈ blocks edges a) =
      fun a b => ⟨a, .blocks, b⟩ ∈ edges := by
    funext a b
    exact propext mem_blocks
  have hlong : ∀ a b : Fin count, (∃ k, 2 ≤ k ∧ Walk (fun a b => ⟨a, .blocks, b⟩ ∈ edges) k a b) ↔
      ∃ k, Walk (fun a b => ⟨a, .blocks, b⟩ ∈ edges) (k + 2) a b := by
    intro a b
    constructor
    · rintro ⟨k, hk, walk⟩
      exact ⟨k - 2, by rwa [Nat.sub_add_cancel hk]⟩
    · rintro ⟨k, walk⟩
      exact ⟨k + 2, by omega, walk⟩
  -- A row is flagged by its ends alone.
  have hflag : ∀ row ∈ edgeRows edges (impliedPairs (blocks edges)
      (dependencyLayers (blockedBy edges) (blocks edges)).layer edges), row.implied = true ↔
        ⟨row.fromNode, .blocks, row.toNode⟩ ∈ edges ∧
          ¬ CycleReaches (fun a b => ⟨a, .blocks, b⟩ ∈ edges) row.toNode ∧
          ∃ k, 2 ≤ k ∧ Walk (fun a b => ⟨a, .blocks, b⟩ ∈ edges) k row.fromNode row.toNode := by
    intro row hrow
    rw [(mem_edgeRows.mp hrow).2, mem_impliedPairs, mem_blocks, hlong]
    refine and_congr_right fun hedge => ?_
    rw [implied_iff hcount (mem_blocks.mpr hedge), hrelation]
  have hlayered : ∀ node : Fin count,
      ((dependencyLayers (blockedBy edges) (blocks edges)).layer node).isSome ↔
        ¬ CycleReaches (fun a b => ⟨a, .blocks, b⟩ ∈ edges) node := by
    intro node
    rw [isSome_layer_iff hcount, hrelation]
  constructor
  · intro h kind a b hkind hedge hnone hwalk hmem
    obtain ⟨implied, hrow⟩ := (h.rows_iff a kind b).mpr hmem
    exact hkind ((h.flag_iff _ hrow).mp ((hflag _ hrow).mpr ⟨hedge, hnone, hwalk⟩)).1
  · intro h
    refine ⟨fun a kind b => ?_, fun row hrow => ?_, fun a b => ?_⟩
    · constructor
      · rintro ⟨implied, hrow⟩
        exact (mem_edgeRows.mp hrow).1
      · intro hmem
        exact ⟨decide ((a, b) ∈ impliedPairs (blocks edges)
          (dependencyLayers (blockedBy edges) (blocks edges)).layer edges),
          mem_edgeRows.mpr ⟨hmem, by simp⟩⟩
    · rw [hflag row hrow, hlayered, hlayered]
      have hmem := (mem_edgeRows.mp hrow).1
      constructor
      · rintro ⟨hedge, hnone, hwalk⟩
        refine ⟨?_, not_cycleReaches_of_edge hnone hedge, hnone, hwalk⟩
        by_contra hkind
        exact h row.relation _ _ hkind hedge hnone hwalk hmem
      · rintro ⟨hkind, -, hnone, hwalk⟩
        exact ⟨hkind ▸ hmem, hnone, hwalk⟩
    · constructor
      · exact Relation.ReflTransGen.mono (fun a b hkept => (mem_edgeRows.mp hkept).1) a b
      · refine @reflTransGen_of_bridged _ _ (KeptRow _)
          {node | ¬ CycleReaches (fun a b => ⟨a, .blocks, b⟩ ∈ edges) node}
          (fun node => ((dependencyLayers (blockedBy edges) (blocks edges)).layer node).getD 0)
          (fun a b hb edge => ?_) (fun a b hb edge => ?_) (fun a b edge => ?_) a b
        · rw [Set.mem_ofPred_eq] at hb ⊢
          exact not_cycleReaches_of_edge hb edge
        · have hnone : ¬ CycleReaches (fun a b => b ∈ blocks edges a) b := by rwa [hrelation]
          obtain ⟨j, hj, -⟩ := exists_layer hcount hnone
          obtain ⟨i, hi, hle⟩ := exists_layer_add_le hcount
            ((Walk.refl a).tail (mem_blocks.mpr edge)) hj
          simp only [hi, hj, Option.getD_some]
          omega
        · by_cases hrow : (a, b) ∈ impliedPairs (blocks edges)
              (dependencyLayers (blockedBy edges) (blocks edges)).layer edges
          · obtain ⟨-, hfound⟩ := mem_impliedPairs.mp hrow
            rw [implied_iff hcount (mem_blocks.mpr edge), hrelation] at hfound
            exact Or.inr hfound
          · exact Or.inl (mem_edgeRows.mpr ⟨edge, by simpa using hrow⟩)

end Rows

/-! ## The flags of a readable geometry -/

/-- The blocking relation of the facts among the selected issues. -/
def BlocksAmong (request : GeometryRequest) (facts : GeometryFacts) (a b : Text) : Prop :=
  Selected request facts a ∧ Selected request facts b ∧ Related facts .blocks a b

/-- A blocking edge away from cycles whose ends a longer blocking path joins. -/
def Redundant (request : GeometryRequest) (facts : GeometryFacts) (a b : Text) : Prop :=
  BlocksAmong request facts a b ∧ ¬ CycleReaches (BlocksAmong request facts) b ∧
    ∃ k, 2 ≤ k ∧ Walk (BlocksAmong request facts) k a b

section Readable

variable [Crypto] {request : GeometryRequest} {facts : GeometryFacts} {store : CompactGeometry}

/-- Every selected issue has a node. -/
theorem Ready.exists_node (h : Ready request facts store) {id : Text}
    (hid : Selected request facts id) : ∃ node, store.name node = id := by
  obtain ⟨prepared, parent, missing, dictionary, project, roots, hassembly, rfl, hname⟩ :=
    h.exists_assembly
  obtain ⟨node, hnode⟩ := (hassembly.faithful.exists_iff id).mpr
    ((selected_canonicalized id).mpr hid)
  exact ⟨node, (hname node).trans hnode⟩

/-- Every node names a selected issue. -/
theorem Ready.selected (h : Ready request facts store) (node : Fin store.count) :
    Selected request facts (store.name node) := by
  obtain ⟨prepared, parent, missing, dictionary, project, roots, hassembly, rfl, hname⟩ :=
    h.exists_assembly
  rw [hname node]
  exact (selected_canonicalized _).mp ((hassembly.faithful.exists_iff _).mp ⟨node, rfl⟩)

/-- The nodes of a readable geometry name the issues the blocking relation is among. -/
theorem Ready.names (h : Ready request facts store) :
    Names (BlocksAmong request facts) store.name := by
  refine ⟨fun a b hab => ?_, fun a b hab => ⟨h.exists_node hab.1, h.exists_node hab.2.1⟩⟩
  obtain ⟨prepared, parent, missing, dictionary, project, roots, hassembly, rfl, hname⟩ :=
    h.exists_assembly
  exact hassembly.faithful.injective ((hname a).symm.trans (hab.trans (hname b)))

/-- Between nodes, that relation is the blocking relation of the facts. -/
theorem Ready.blocksIn_eq (h : Ready request facts store) :
    BlocksIn facts store = Through (BlocksAmong request facts) store.name := by
  funext a b
  exact propext ⟨fun hab => ⟨h.selected a, h.selected b, hab⟩, fun hab => hab.2.2⟩

/-- **When the implied flags are right.**  The flags of a readable geometry mark exactly the
redundant blocking edges, and those can be deleted, if and only if no two selected issues
are joined both by a redundant blocking edge and, the same way, by an edge of another kind. -/
theorem implied_exact_iff (request : GeometryRequest) (facts : GeometryFacts)
    (store : CompactGeometry) (h : Ready request facts store) :
    ImpliedLaw (fun kind a b => Related facts kind (store.name a) (store.name b))
        store.nodes.layer store.edges ↔
      ∀ kind a b, kind ≠ .blocks → Redundant request facts a b → ¬ Related facts kind a b := by
  have hnames := h.names
  have hthrough := h.blocksIn_eq
  have hnode : ∀ a b, Redundant request facts (store.name a) (store.name b) ↔
      BlocksIn facts store a b ∧ ¬ CycleReaches (BlocksIn facts store) b ∧
        ∃ k, 2 ≤ k ∧ Walk (BlocksIn facts store) k a b := by
    intro a b
    rw [Redundant, hthrough, hnames.cycleReaches_iff]
    simp only [hnames.walk_iff]
    exact Iff.rfl
  have hcondition : (∀ kind a b, kind ≠ RelationKind.blocks → Redundant request facts a b →
      ¬ Related facts kind a b) ↔ ∀ kind (a b : Fin store.count), kind ≠ .blocks →
        BlocksIn facts store a b → ¬ CycleReaches (BlocksIn facts store) b →
        (∃ k, 2 ≤ k ∧ Walk (BlocksIn facts store) k a b) →
        ¬ Related facts kind (store.name a) (store.name b) := by
    constructor
    · intro hall kind a b hkind hedge hnone hwalk
      exact hall kind _ _ hkind ((hnode a b).mpr ⟨hedge, hnone, hwalk⟩)
    · intro hall kind x y hkind hredundant
      obtain ⟨⟨a, rfl⟩, ⟨b, rfl⟩⟩ := hnames.2 _ _ hredundant.1
      obtain ⟨hedge, hnone, hwalk⟩ := (hnode a b).mp hredundant
      exact hall kind a b hkind hedge hnone hwalk
  rw [hcondition]
  obtain ⟨prepared, parent, missing, dictionary, project, roots, hassembly, rfl, hname⟩ :=
    h.exists_assembly
  have hrelated : (fun kind (a b : Fin prepared.count) => Related facts kind
      ((assembled prepared parent missing dictionary project roots).name a)
      ((assembled prepared parent missing dictionary project roots).name b)) =
        fun kind a b => (⟨a, kind, b⟩ : Edge prepared.count) ∈ prepared.edges := by
    funext kind a b
    rw [hname a, hname b]
    exact propext (hassembly.faithful.mem_edges a kind b).symm
  exact impliedLaw_iff hassembly.faithful.count_le prepared.edges hrelated

end Readable

/-- Three issues in a row with the edge that skips one, which joins nothing else. -/
theorem implied_exact_iff_sample :
    letI := idealCrypto
    ∃ store, Ready sampleRequest (sampleFacts ["a", "b", "c"]
        [("a", "blocks", "b"), ("b", "blocks", "c"), ("a", "blocks", "c")]) store ∧
      store.edges.map EdgeRow.implied = [false, true, false] ∧
      (ImpliedLaw (fun kind a b => Related (sampleFacts ["a", "b", "c"]
          [("a", "blocks", "b"), ("b", "blocks", "c"), ("a", "blocks", "c")]) kind
          (store.name a) (store.name b)) store.nodes.layer store.edges ↔
        ∀ kind a b, kind ≠ .blocks → Redundant sampleRequest (sampleFacts ["a", "b", "c"]
            [("a", "blocks", "b"), ("b", "blocks", "c"), ("a", "blocks", "c")]) a b →
          ¬ Related (sampleFacts ["a", "b", "c"]
            [("a", "blocks", "b"), ("b", "blocks", "c"), ("a", "blocks", "c")]) kind a b) := by
  let := idealCrypto
  have hmap : (materialize sampleRequest (sampleFacts ["a", "b", "c"]
      [("a", "blocks", "b"), ("b", "blocks", "c"), ("a", "blocks", "c")])).store.map
        (fun store => store.edges.map EdgeRow.implied) = some [false, true, false] := by
    decide +kernel
  obtain ⟨store, hready, hflags⟩ := exists_ready hmap
  exact ⟨store, hready, hflags, implied_exact_iff _ _ store hready⟩

/-- Where the ends of the skipping edge are also marked as duplicates, the row that says so is
flagged too. -/
theorem duplicates_row_implied :
    letI := idealCrypto
    ∃ store, Ready sampleRequest (sampleFacts ["a", "b", "c"] [("a", "blocks", "b"),
        ("b", "blocks", "c"), ("a", "blocks", "c"), ("a", "duplicates", "c")]) store ∧
      ∃ row ∈ store.edges, row.relation = .duplicates ∧ row.implied = true ∧
        ¬ ∀ row ∈ store.edges, row.implied = true ↔ row.relation = .blocks ∧
          (store.nodes.layer row.fromNode).isSome ∧ (store.nodes.layer row.toNode).isSome ∧
          ∃ k, 2 ≤ k ∧ Walk (BlocksIn (sampleFacts ["a", "b", "c"] [("a", "blocks", "b"),
            ("b", "blocks", "c"), ("a", "blocks", "c"), ("a", "duplicates", "c")]) store) k
            row.fromNode row.toNode := by
  let := idealCrypto
  have hmap : (materialize sampleRequest (sampleFacts ["a", "b", "c"] [("a", "blocks", "b"),
      ("b", "blocks", "c"), ("a", "blocks", "c"), ("a", "duplicates", "c")])).store.map
        (fun store => store.edges.any fun row => row.relation = .duplicates ∧
          row.implied = true) = some true := by
    decide +kernel
  obtain ⟨store, hready, hany⟩ := exists_ready hmap
  obtain ⟨row, hrow, hboth⟩ := List.any_eq_true.mp hany
  obtain ⟨hkind, hflag⟩ := of_decide_eq_true hboth
  refine ⟨store, hready, row, hrow, hkind, hflag, fun hall => ?_⟩
  have hblocks := ((hall row hrow).mp hflag).1
  rw [hkind] at hblocks
  cases hblocks

end Lait.Issues.Geometry
