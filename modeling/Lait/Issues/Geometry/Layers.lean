import Lait.Issues.Geometry.Compile

/-!
# Layers, loops and closure are exact

A readable geometry numbers the selected issues, and its blocking relation is the one of
the facts (`BlocksIn`).  The layer of a node is then the length of a longest blocking path
into it, absent exactly where a cycle leads to it; the reported loops are the strongly
connected components with a cycle; and the closure kinds follow from both.

The two adjacency columns are the successors and the predecessors of one relation, which
is all the drain needs to know of its counts.  The undrained nodes are those a cycle leads
to, so they are closed under successors and their components are the components of the
whole graph.
-/

namespace Lait.Issues.Geometry

open Lait (Text Crypto)
open Lait.Graph

/-! ## The adjacency columns -/

section Adjacency

variable {count : ℕ} {edges : List (Edge count)}

theorem mem_blocks {a b : Fin count} : b ∈ blocks edges a ↔ ⟨a, .blocks, b⟩ ∈ edges := by
  simp only [blocks, mem_sortDedup, List.mem_map, List.mem_filter, decide_eq_true_eq]
  constructor
  · rintro ⟨⟨_, _, _⟩, ⟨hmem, rfl, rfl⟩, rfl⟩
    exact hmem
  · exact fun hmem => ⟨_, ⟨hmem, rfl, rfl⟩, rfl⟩

theorem mem_blockedBy {a b : Fin count} : a ∈ blockedBy edges b ↔ ⟨a, .blocks, b⟩ ∈ edges := by
  simp only [blockedBy, mem_sortDedup, List.mem_map, List.mem_filter, decide_eq_true_eq]
  constructor
  · rintro ⟨⟨_, _, _⟩, ⟨hmem, rfl, rfl⟩, rfl⟩
    exact hmem
  · exact fun hmem => ⟨_, ⟨hmem, rfl, rfl⟩, rfl⟩

theorem nodup_blocks (edges : List (Edge count)) (node : Fin count) :
    (blocks edges node).Nodup := nodup_sortDedup _

theorem nodup_blockedBy (edges : List (Edge count)) (node : Fin count) :
    (blockedBy edges node).Nodup := nodup_sortDedup _

/-- The predecessors counted in one column are those of the other. -/
theorem counts_blockedBy (edges : List (Edge count)) :
    Drain.Counts (blocks edges) fun node => (blockedBy edges node).length := by
  intro node
  dsimp only
  rw [← List.toFinset_card_of_nodup (nodup_blockedBy edges node)]
  congr 1
  ext other
  rw [List.mem_toFinset, mem_blockedBy, Finset.mem_filter, mem_blocks]
  simp

end Adjacency

/-! ## What the layering returns -/

section Layers

variable {count : ℕ} {edges : List (Edge count)}

/-- The drained nodes of the blocking relation. -/
theorem mem_drained (hcount : count ≤ U32_MAX) {node : Fin count} :
    node ∈ (Drain.drain U32_MAX (blocks edges)
        fun node => (blockedBy edges node).length).drained ↔
      ¬ CycleReaches (fun a b => b ∈ blocks edges a) node :=
  Drain.mem_drained_iff (nodup_blocks edges) (by simpa using hcount) (counts_blockedBy edges)

/-- The layer a drained node leaves with. -/
theorem exists_layer (hcount : count ≤ U32_MAX) {node : Fin count}
    (hnone : ¬ CycleReaches (fun a b => b ∈ blocks edges a) node) :
    ∃ k, (dependencyLayers (blockedBy edges) (blocks edges)).layer node = some k ∧ k < count ∧
      LongestInto (fun a b => b ∈ blocks edges a) k node := by
  obtain ⟨k, hk, hlt, hlongest⟩ := Drain.layer_drained (nodup_blocks edges)
    (show Fintype.card (Fin count) ≤ U32_MAX by simpa using hcount) (counts_blockedBy edges) ((mem_drained hcount).mpr hnone)
  refine ⟨k, ?_, by simpa using hlt, hlongest⟩
  simp only [dependencyLayers]
  rw [if_pos ((mem_drained hcount).mpr hnone), hk]

/-- **The layer of a node** is the length of a longest walk into it, where no cycle leads. -/
theorem layer_eq_some_iff (hcount : count ≤ U32_MAX) {node : Fin count} {k : ℕ} :
    (dependencyLayers (blockedBy edges) (blocks edges)).layer node = some k ↔
      ¬ CycleReaches (fun a b => b ∈ blocks edges a) node ∧
        LongestInto (fun a b => b ∈ blocks edges a) k node := by
  constructor
  · intro h
    have hnone : ¬ CycleReaches (fun a b => b ∈ blocks edges a) node := by
      simp only [dependencyLayers] at h
      exact (mem_drained hcount).mp (Option.ite_none_right_eq_some.mp h).1
    obtain ⟨j, hj, -, hlongest⟩ := exists_layer hcount hnone
    obtain rfl := Option.some.inj (hj.symm.trans h)
    exact ⟨hnone, hlongest⟩
  · rintro ⟨hnone, hlongest⟩
    obtain ⟨j, hj, -, hlongest'⟩ := exists_layer hcount hnone
    rw [hj, hlongest'.unique hlongest]

theorem layer_eq_none_iff (hcount : count ≤ U32_MAX) {node : Fin count} :
    (dependencyLayers (blockedBy edges) (blocks edges)).layer node = none ↔
      CycleReaches (fun a b => b ∈ blocks edges a) node := by
  constructor
  · intro h
    by_contra hnone
    obtain ⟨j, hj, -⟩ := exists_layer hcount hnone
    rw [hj] at h
    cases h
  · intro h
    by_contra hsome
    obtain ⟨k, hk⟩ := Option.ne_none_iff_exists'.mp hsome
    exact ((layer_eq_some_iff hcount).mp hk).1 h

theorem layer_lt (hcount : count ≤ U32_MAX) {node : Fin count} {k : ℕ}
    (h : (dependencyLayers (blockedBy edges) (blocks edges)).layer node = some k) : k < count := by
  obtain ⟨j, hj, hlt, -⟩ := exists_layer hcount ((layer_eq_some_iff hcount).mp h).1
  obtain rfl := Option.some.inj (hj.symm.trans h)
  exact hlt

/-- **The loops are the components with a cycle.** -/
theorem areLoops_loops (hcount : count ≤ U32_MAX) :
    AreLoops (fun a b => b ∈ blocks edges a)
      (dependencyLayers (blockedBy edges) (blocks edges)).loops :=
  areLoops_stronglyConnected (fun v => List.mem_finRange v) fun v => by
    rw [decide_eq_true_eq, mem_drained hcount, not_not]

theorem cyclic_iff (hcount : count ≤ U32_MAX) {node : Fin count} :
    (dependencyLayers (blockedBy edges) (blocks edges)).cyclic node = true ↔
      OnCycle (fun a b => b ∈ blocks edges a) node := by
  have hloops : AreLoops _ (dependencyLayers (blockedBy edges) (blocks edges)).loops :=
    areLoops_loops hcount
  have hcyclic : (dependencyLayers (blockedBy edges) (blocks edges)).cyclic node = true ↔
      ∃ nodes ∈ (dependencyLayers (blockedBy edges) (blocks edges)).loops, node ∈ nodes := by
    simp only [dependencyLayers, List.any_eq_true, decide_eq_true_eq]
  rw [hcyclic]
  constructor
  · rintro ⟨nodes, hmem, hin⟩
    obtain ⟨-, -, x, hx, hmembers⟩ := hloops.whole nodes hmem
    exact hx.of_mutual ((hmembers node).mp hin)
  · exact hloops.all node

theorem stalled_iff (hcount : count ≤ U32_MAX) {node : Fin count} :
    (dependencyLayers (blockedBy edges) (blocks edges)).stalled node = true ↔
      CycleReaches (fun a b => b ∈ blocks edges a) node ∧
        ¬ OnCycle (fun a b => b ∈ blocks edges a) node := by
  rw [← cyclic_iff hcount, Bool.not_eq_true, ← not_not (a := CycleReaches _ node),
    ← mem_drained hcount]
  simp [dependencyLayers]

end Layers

/-! ## Closure counts -/

section Closure

variable {count : ℕ}

/-- The count of a kind. -/
def GeometryClosure.tally (closure : GeometryClosure) : ClosureKind → ℕ
  | .closed => closure.closed
  | .ready => closure.ready
  | .blocked => closure.blocked
  | .cycle => closure.cyclic
  | .stalled => closure.stalled

theorem GeometryClosure.tally_count (closure : GeometryClosure) (kind wanted : ClosureKind) :
    (closure.count kind).tally wanted =
      if kind = wanted then saturatingAdd32 (closure.tally wanted) 1 else closure.tally wanted := by
  cases kind <;> cases wanted <;> rfl

theorem GeometryClosure.total_count (closure : GeometryClosure) (kind : ClosureKind) :
    (closure.count kind).total = closure.total := by
  cases kind <;> rfl

/-- Counting a list of nodes adds as many as are of a kind, below the largest word. -/
theorem foldl_count (kind : Fin count → ClosureKind) (nodes : List (Fin count))
    (closure : GeometryClosure)
    (hroom : ∀ wanted, closure.tally wanted + nodes.length ≤ U32_MAX) :
    (nodes.foldl (fun closure node => closure.count (kind node)) closure).total = closure.total ∧
      ∀ wanted, (nodes.foldl (fun closure node => closure.count (kind node)) closure).tally wanted =
        closure.tally wanted + nodes.countP fun node => kind node = wanted := by
  induction nodes generalizing closure with
  | nil => exact ⟨rfl, fun _ => rfl⟩
  | cons node nodes ih =>
      simp only [List.length_cons] at hroom
      have hstep : ∀ wanted, (closure.count (kind node)).tally wanted =
          closure.tally wanted + if kind node = wanted then 1 else 0 := by
        intro wanted
        rw [GeometryClosure.tally_count]
        split
        · exact min_eq_left (by have := hroom wanted; omega)
        · rfl
      obtain ⟨htotal, htally⟩ := ih (closure.count (kind node)) fun wanted => by
        have := hroom wanted
        rw [hstep]
        split <;> omega
      refine ⟨htotal.trans (closure.total_count _), fun wanted => ?_⟩
      rw [List.foldl_cons, htally, hstep, List.countP_cons]
      simp only [decide_eq_true_eq]
      omega

/-- **The counts of a closure** are those of its kinds, and add up to the nodes. -/
theorem closureOf_spec (hcount : count ≤ U32_MAX) (kind : Fin count → ClosureKind) :
    (closureOf kind).total = count ∧
      (∀ wanted, (closureOf kind).tally wanted =
        (Finset.univ.filter fun node => kind node = wanted).card) ∧
      (closureOf kind).closed + (closureOf kind).ready + (closureOf kind).blocked +
        (closureOf kind).cyclic + (closureOf kind).stalled = count := by
  have hzero : ∀ wanted, (⟨count, 0, 0, 0, 0, 0⟩ : GeometryClosure).tally wanted = 0 := by
    intro wanted
    cases wanted <;> rfl
  obtain ⟨htotal, htally⟩ := foldl_count kind (List.finRange count) ⟨count, 0, 0, 0, 0, 0⟩
    fun wanted => by rw [hzero, List.length_finRange]; omega
  have hcard : ∀ wanted, (closureOf kind).tally wanted =
      (Finset.univ.filter fun node => kind node = wanted).card := by
    intro wanted
    rw [closureOf, htally, hzero, Nat.zero_add, List.countP_eq_length_filter,
      ← List.toFinset_card_of_nodup ((List.nodup_finRange count).filter _)]
    congr 1
    ext node
    simp
  refine ⟨htotal, hcard, ?_⟩
  have hpartition : (Finset.univ : Finset (Fin count)).card =
      ∑ wanted ∈ {ClosureKind.closed, .ready, .blocked, .cycle, .stalled},
        (Finset.univ.filter fun node => kind node = wanted).card :=
    Finset.card_eq_sum_card_fiberwise fun node _ => by cases kind node <;> simp
  rw [Finset.card_univ, Fintype.card_fin] at hpartition
  have hsum : ∑ wanted ∈ {ClosureKind.closed, .ready, .blocked, .cycle, .stalled},
      (closureOf kind).tally wanted = count := by
    exact (Finset.sum_congr rfl fun wanted _ => hcard wanted).trans hpartition.symm
  simpa [GeometryClosure.tally, add_assoc] using hsum

end Closure

/-! ## Readable geometries and the facts -/

/-- The id of a node. -/
def CompactGeometry.name (store : CompactGeometry) (node : Fin store.count) : Text :=
  (store.dictionary[node.val]?).getD ⟨[]⟩

/-- The blocking relation of the facts between nodes. -/
def BlocksIn (facts : GeometryFacts) (store : CompactGeometry) (a b : Fin store.count) : Prop :=
  Related facts .blocks (store.name a) (store.name b)

/-- The facts say an issue is closed. -/
def ClosedIn (facts : GeometryFacts) (id : Text) : Prop :=
  ∃ issue ∈ facts.issues, issue.id = id ∧ issue.closed = true

/-- The loops a geometry reports. -/
def CompactGeometry.loops (store : CompactGeometry) : List (List (Fin store.count)) :=
  (store.residuals.filter fun residual => residual.kind = .dependencyCycle).map
    CompactResidual.locus

section Readable

variable [Crypto] {request : GeometryRequest} {facts : GeometryFacts} {store : CompactGeometry}

omit [Crypto] in
theorem selected_canonicalized (id : Text) :
    Selected request.canonicalized facts id ↔ Selected request facts id := by
  have hproject : ∀ a, InProject request.canonicalized facts a ↔ InProject request facts a :=
    fun _ => Iff.rfl
  have hjoined : Joined request.canonicalized facts = Joined request facts := rfl
  have hempty : sortDedup request.roots = [] ↔ request.roots = [] := by
    rw [List.eq_nil_iff_forall_not_mem, List.eq_nil_iff_forall_not_mem]
    simp only [mem_sortDedup]
  rw [Selected, Selected, hproject, hjoined]
  simp only [GeometryRequest.canonicalized, hempty, mem_sortDedup]
  exact Iff.rfl

/-- What a readable geometry is assembled from. -/
structure Assembly (request : GeometryRequest) (facts : GeometryFacts) (prepared : Prepared)
    (parent : Fin prepared.count → Option (Fin prepared.count)) : Prop where
  faithful : prepared.Faithful request.canonicalized facts
  parents_eq : parents prepared.edges prepared.dictionary = .ok parent
  validated : validateParentCycles parent prepared.dictionary = .ok ()

/-- **A readable geometry is the assembly of prepared facts**, and names their nodes. -/
theorem Ready.exists_assembly (h : Ready request facts store) :
    ∃ prepared parent missing dictionary project roots,
      Assembly request facts prepared parent ∧
      store = assembled prepared parent missing dictionary project roots ∧
      ∀ node : Fin prepared.count,
        (assembled prepared parent missing dictionary project roots).name node =
          prepared.dictionary node := by
  obtain ⟨prepared, hprepare, hcompile⟩ := h.compiled
  obtain ⟨parent, hparent, hcompile⟩ := bind_eq_ok.mp hcompile
  obtain ⟨⟨⟩, hvalid, hcompile⟩ := bind_eq_ok.mp hcompile
  obtain ⟨project, -, hcompile⟩ := bind_eq_ok.mp hcompile
  obtain ⟨roots, -, hcompile⟩ := bind_eq_ok.mp hcompile
  refine ⟨prepared, parent, _, _, project, roots, ⟨prepare_faithful hprepare, hparent, hvalid⟩,
    (Except.ok.inj hcompile).symm, fun node => ?_⟩
  -- Missing roots and the project come behind the names of the nodes.
  have hname : ∀ rest : List Text,
      ((List.ofFn prepared.dictionary ++ rest)[node.val]?).getD ⟨[]⟩ = prepared.dictionary node := by
    intro rest
    rw [List.getElem?_append_left (by simp), List.getElem?_eq_getElem (by simp)]
    simp
  unfold CompactGeometry.name
  dsimp only [assembled]
  split
  · exact hname _
  · rw [List.append_assoc]
    exact hname _

omit [Crypto] in
/-- A residual of a node is not a cycle. -/
theorem nodeResiduals_kind {count : ℕ} {closed : Fin count → Bool} {due : Fin count → Option ℤ}
    {blockedBy undirected blocks children : Fin count → List (Fin count)}
    {dictionary : Fin count → Text} {roots : List Text} {component : Fin count → ℕ}
    {layer : Fin count → Option ℕ} {kind : Fin count → ClosureKind} {node : Fin count}
    {residual : CompactResidual count}
    (h : residual ∈ nodeResiduals closed due blockedBy dictionary roots undirected blocks children
      component layer kind node) : residual.kind ≠ .dependencyCycle := by
  simp only [nodeResiduals, List.mem_append, List.mem_ite_nil_right, List.mem_singleton] at h
  rcases h with ((⟨-, rfl⟩ | ⟨-, rfl⟩) | ⟨-, rfl⟩) | ⟨-, rfl⟩ <;> simp

omit [Crypto] in
/-- The reported loops are those of the layering. -/
theorem assembled_loops (prepared : Prepared)
    (parent : Fin prepared.count → Option (Fin prepared.count)) (missing dictionary : List Text)
    (project : ℕ) (roots : List ℕ) :
    (assembled prepared parent missing dictionary project roots).loops =
      (dependencyLayers (blockedBy prepared.edges) (blocks prepared.edges)).loops := by
  unfold CompactGeometry.loops
  dsimp only [assembled]
  rw [List.append_assoc, List.filter_append, List.filter_eq_nil_iff.mpr fun residual hmem => by
    obtain ⟨node, -, hmem⟩ := List.mem_flatMap.mp hmem
    simpa using nodeResiduals_kind hmem]
  simp [List.filter_append, List.filter_map, Function.comp_def]

omit [Crypto] in
/-- The blocking relation of the facts is the one compiled. -/
theorem Assembly.blocks_iff {prepared : Prepared}
    {parent : Fin prepared.count → Option (Fin prepared.count)}
    (h : Assembly request facts prepared parent) (a b : Fin prepared.count) :
    b ∈ blocks prepared.edges a ↔
      Related facts .blocks (prepared.dictionary a) (prepared.dictionary b) :=
  mem_blocks.trans (h.faithful.mem_edges a .blocks b)

omit [Crypto] in
/-- The blocking relation between nodes is the one compiled. -/
theorem Assembly.blocksIn_iff {prepared : Prepared}
    {parent : Fin prepared.count → Option (Fin prepared.count)}
    (h : Assembly request facts prepared parent) {missing dictionary : List Text} {project : ℕ}
    {roots : List ℕ}
    (hname : ∀ node : Fin prepared.count,
      (assembled prepared parent missing dictionary project roots).name node =
        prepared.dictionary node) (a b : Fin prepared.count) :
    BlocksIn facts (assembled prepared parent missing dictionary project roots) a b ↔
      b ∈ blocks prepared.edges a := by
  rw [h.blocks_iff a b, ← hname a, ← hname b]
  exact Iff.rfl

omit [Crypto] in
/-- A node is closed where the facts say so. -/
theorem Assembly.closedIn_iff {prepared : Prepared}
    {parent : Fin prepared.count → Option (Fin prepared.count)}
    (h : Assembly request facts prepared parent) {missing dictionary : List Text} {project : ℕ}
    {roots : List ℕ}
    (hname : ∀ node : Fin prepared.count,
      (assembled prepared parent missing dictionary project roots).name node =
        prepared.dictionary node) (node : Fin prepared.count) :
    ClosedIn facts ((assembled prepared parent missing dictionary project roots).name node) ↔
      prepared.closed node = true := by
  rw [hname node]
  obtain ⟨issue, hmem, hid, hissue, -⟩ := h.faithful.issue node
  constructor
  · rintro ⟨other, hother, hid', htrue⟩
    rw [← hissue, ← List.inj_on_of_nodup_map h.faithful.distinct hother hmem (hid'.trans hid.symm)]
    exact htrue
  · exact fun htrue => ⟨issue, hmem, hid, hissue.trans htrue⟩

/-- What columns say of a blocking relation between nodes, some of them closed: layers are lengths
of longest walks, the loops are the components with a cycle, and each node is counted under
its kind. -/
structure LayeringLaw {count : ℕ} (r : Fin count → Fin count → Prop) (done : Fin count → Prop)
    (layer : Fin count → Option ℕ) (loops : List (List (Fin count)))
    (kind : Fin count → ClosureKind) (closure : GeometryClosure) : Prop where
  layer_iff : ∀ node k, layer node = some k ↔ ¬ CycleReaches r node ∧ LongestInto r k node
  loops_iff : AreLoops r loops
  closed_iff : ∀ node, kind node = .closed ↔ done node
  cycle_iff : ∀ node, ¬ done node → (kind node = .cycle ↔ OnCycle r node)
  stalled_iff : ∀ node, ¬ done node →
    (kind node = .stalled ↔ CycleReaches r node ∧ ¬ OnCycle r node)
  ready_iff : ∀ node, ¬ done node →
    (kind node = .ready ↔ ¬ CycleReaches r node ∧ ∀ other, r other node → done other)
  blocked_iff : ∀ node, ¬ done node →
    (kind node = .blocked ↔ ¬ CycleReaches r node ∧ ∃ other, r other node ∧ ¬ done other)
  counts : ∀ wanted, closure.tally wanted =
    (Finset.univ.filter fun node => kind node = wanted).card
  total : closure.total = count ∧ closure.closed + closure.ready + closure.blocked +
    closure.cyclic + closure.stalled = closure.total

omit [Crypto] in
/-- The kinds of the nodes. -/
theorem closureKind_cases {count : ℕ} (hcount : count ≤ U32_MAX) {edges : List (Edge count)}
    {closed : Fin count → Bool} (node : Fin count) (hopen : ¬ closed node = true) :
    let r := fun a b => b ∈ blocks edges a
    let kind := closureKind closed (blockedBy edges)
      (dependencyLayers (blockedBy edges) (blocks edges)) node
    (OnCycle r node ∧ kind = .cycle) ∨
      (CycleReaches r node ∧ ¬ OnCycle r node ∧ kind = .stalled) ∨
      (¬ CycleReaches r node ∧ (∀ other, r other node → closed other = true) ∧ kind = .ready) ∨
      (¬ CycleReaches r node ∧ (∃ other, r other node ∧ ¬ closed other = true) ∧
        kind = .blocked) := by
  intro r kind
  have hblockers : openBlockers closed (blockedBy edges) node = [] ↔
      ∀ other, r other node → closed other = true := by
    rw [openBlockers, List.filter_eq_nil_iff]
    simp only [mem_blockedBy, Bool.not_eq_true', Bool.not_eq_false, r, mem_blocks]
  by_cases hcycle : OnCycle r node
  · refine Or.inl ⟨hcycle, ?_⟩
    simp only [kind, closureKind, hopen, (cyclic_iff hcount).mpr hcycle, if_false, if_true,
      Bool.false_eq_true]
  · have hcycle' : (dependencyLayers (blockedBy edges) (blocks edges)).cyclic node = false :=
      Bool.not_eq_true _ ▸ fun h => hcycle ((cyclic_iff hcount).mp h)
    by_cases hreach : CycleReaches r node
    · refine Or.inr (Or.inl ⟨hreach, hcycle, ?_⟩)
      simp only [kind, closureKind, hopen, hcycle', (stalled_iff hcount).mpr ⟨hreach, hcycle⟩,
        if_false, if_true, Bool.false_eq_true]
    · have hstalled : (dependencyLayers (blockedBy edges) (blocks edges)).stalled node = false :=
        Bool.not_eq_true _ ▸ fun h => hreach ((stalled_iff hcount).mp h).1
      refine Or.inr (Or.inr ?_)
      by_cases hready : ∀ other, r other node → closed other = true
      · refine Or.inl ⟨hreach, hready, ?_⟩
        simp only [kind, closureKind, hopen, hcycle', hstalled, hblockers.mpr hready, if_false,
          if_true, Bool.false_eq_true]
      · refine Or.inr ⟨hreach, by push Not at hready; exact hready, ?_⟩
        simp only [kind, closureKind, hopen, hcycle', hstalled, mt hblockers.mp hready, if_false,
          Bool.false_eq_true]

omit [Crypto] in
/-- **The compiled columns keep the layering law.** -/
theorem layeringLaw {count : ℕ} (hcount : count ≤ U32_MAX) (edges : List (Edge count))
    (closed : Fin count → Bool) :
    LayeringLaw (fun a b => b ∈ blocks edges a) (fun node => closed node = true)
      (dependencyLayers (blockedBy edges) (blocks edges)).layer
      (dependencyLayers (blockedBy edges) (blocks edges)).loops
      (closureKind closed (blockedBy edges) (dependencyLayers (blockedBy edges) (blocks edges)))
      (closureOf (closureKind closed (blockedBy edges)
        (dependencyLayers (blockedBy edges) (blocks edges)))) := by
  obtain ⟨htotal, htally, hsum⟩ := closureOf_spec hcount
    (closureKind closed (blockedBy edges) (dependencyLayers (blockedBy edges) (blocks edges)))
  have hcases := @closureKind_cases count hcount edges closed
  refine ⟨fun node k => layer_eq_some_iff hcount, areLoops_loops hcount, fun node => ?_,
    fun node hopen => ?_, fun node hopen => ?_, fun node hopen => ?_, fun node hopen => ?_,
    htally, htotal, hsum.trans htotal.symm⟩
  · by_cases hdone : closed node = true
    · simp [closureKind, hdone]
    · rcases hcases node hdone with ⟨-, hkind⟩ | ⟨-, -, hkind⟩ | ⟨-, -, hkind⟩ | ⟨-, -, hkind⟩
      all_goals rw [hkind]; simp [hdone]
  -- The four cases exclude one another, so a kind is given exactly in its case.
  all_goals
    rcases hcases node hopen with ⟨hcycle, hkind⟩ | ⟨hreach, hcycle, hkind⟩ |
      ⟨hreach, hready, hkind⟩ | ⟨hreach, ⟨other, hother, hblocked⟩, hkind⟩
    all_goals rw [hkind]
  case refine_2.inl => simp [hcycle]
  case refine_2.inr.inl => simp [hcycle]
  case refine_2.inr.inr.inl =>
      simp only [reduceCtorEq, false_iff]
      exact fun hcycle => hreach hcycle.cycleReaches
  case refine_2.inr.inr.inr =>
      simp only [reduceCtorEq, false_iff]
      exact fun hcycle => hreach hcycle.cycleReaches
  case refine_3.inl => simp [hcycle]
  case refine_3.inr.inl => simp [hcycle, hreach]
  case refine_3.inr.inr.inl => simp [hreach]
  case refine_3.inr.inr.inr => simp [hreach]
  case refine_4.inl => simp [hcycle.cycleReaches]
  case refine_4.inr.inl => simp [hreach]
  case refine_4.inr.inr.inl => simpa [hreach] using hready
  case refine_4.inr.inr.inr =>
      simp only [reduceCtorEq, false_iff, not_and]
      exact fun _ hall => hblocked (hall other hother)
  case refine_5.inl => simp [hcycle.cycleReaches]
  case refine_5.inr.inl => simp [hreach]
  case refine_5.inr.inr.inl =>
      simp only [reduceCtorEq, false_iff, not_and]
      exact fun _ ⟨_, hedge, hnot⟩ => hnot (hready _ hedge)
  case refine_5.inr.inr.inr =>
      simp only [true_iff]
      exact ⟨hreach, other, hother, hblocked⟩

/-- **Dependency layering is exact.**  For all facts that materialize to a readable geometry,
the nodes are the selected issues, one each, and over the blocking relation of the facts
between them the layers, the loops, the closure kinds and their counts are what the
relation says. -/
theorem dependencyLayers_exact (request : GeometryRequest) (facts : GeometryFacts)
    (store : CompactGeometry) (h : Ready request facts store) :
    (∀ id, (∃ node, store.name node = id) ↔ Selected request facts id) ∧
      Function.Injective store.name ∧
      LayeringLaw (BlocksIn facts store) (fun node => ClosedIn facts (store.name node))
        store.nodes.layer store.loops store.nodes.closure store.closure := by
  obtain ⟨prepared, parent, missing, dictionary, project, roots, hassembly, rfl, hname⟩ :=
    h.exists_assembly
  have hfaithful := hassembly.faithful
  have hrelation : BlocksIn facts (assembled prepared parent missing dictionary project roots) =
      fun a b : Fin prepared.count => b ∈ blocks prepared.edges a := by
    funext a b
    exact propext (hassembly.blocksIn_iff hname a b)
  have hdone : (fun node => ClosedIn facts
      ((assembled prepared parent missing dictionary project roots).name node)) =
        fun node : Fin prepared.count => prepared.closed node = true := by
    funext node
    exact propext (hassembly.closedIn_iff hname node)
  refine ⟨fun id => ?_, fun a b hab => ?_, ?_⟩
  · rw [← selected_canonicalized, ← hfaithful.exists_iff id]
    exact exists_congr fun node : Fin prepared.count => by rw [hname node]
  · exact hfaithful.injective ((hname a).symm.trans (hab.trans (hname b)))
  · rw [hrelation, hdone, assembled_loops]
    exact layeringLaw hfaithful.count_le prepared.edges prepared.closed

end Readable

/-- A tail into a loop, and an edge out of it. -/
theorem dependencyLayers_exact_sample :
    letI := idealCrypto
    ∃ store, Ready sampleRequest (sampleFacts ["a", "b", "c", "d"]
        [("a", "blocks", "b"), ("b", "blocks", "c"), ("c", "blocks", "b"), ("c", "blocks", "d")])
        store ∧
      (List.finRange store.count).map store.nodes.layer = [some 0, none, none, none] ∧
      LayeringLaw (BlocksIn (sampleFacts ["a", "b", "c", "d"]
        [("a", "blocks", "b"), ("b", "blocks", "c"), ("c", "blocks", "b"), ("c", "blocks", "d")])
        store) (fun node => ClosedIn (sampleFacts ["a", "b", "c", "d"]
        [("a", "blocks", "b"), ("b", "blocks", "c"), ("c", "blocks", "b"), ("c", "blocks", "d")])
        (store.name node)) store.nodes.layer store.loops store.nodes.closure store.closure := by
  let := idealCrypto
  have hmap : (materialize sampleRequest (sampleFacts ["a", "b", "c", "d"]
      [("a", "blocks", "b"), ("b", "blocks", "c"), ("c", "blocks", "b"), ("c", "blocks", "d")])
      ).store.map (fun store => (List.finRange store.count).map store.nodes.layer) =
        some [some 0, none, none, none] := by decide +kernel
  obtain ⟨store, hready, hlayers⟩ := exists_ready hmap
  exact ⟨store, hready, hlayers, (dependencyLayers_exact _ _ store hready).2.2⟩

end Lait.Issues.Geometry
