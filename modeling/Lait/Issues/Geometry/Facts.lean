import Lait.Bytes
import Lait.Fallible
import Lait.Graph.Sweep

/-!
# Geometry facts and the selection of a request

A geometry request names a project and some roots; the facts are the issues and the named
relations between them.  `prepare` checks the facts, selects the issues of the project
that the roots are connected with (all of them when there are no roots), numbers the
selected issues by id and turns the relations between them into numbered edges, sorted and
without repetition.

Issues are addressed by position in the facts before the selection, `Fin issues.length`,
and by number after it, so that every index is in range by its type.
-/

namespace Lait.Issues.Geometry

open Lait (Text)
open Lait.Graph

def U32_MAX : ℕ := 4294967295

def U64_MAX : ℕ := 18446744073709551615

/-- `u32::saturating_add`. -/
def saturatingAdd32 (a b : ℕ) : ℕ := min (a + b) U32_MAX

/-- `u64::saturating_add`. -/
def saturatingAdd (a b : ℕ) : ℕ := min (a + b) U64_MAX

/-- `u64::saturating_mul`. -/
def saturatingMul (a b : ℕ) : ℕ := min (a * b) U64_MAX

/-- `sort_unstable` and `dedup`. -/
def sortDedup {α : Type*} [LinearOrder α] (values : List α) : List α :=
  (values.insertionSort (· ≤ ·)).dedup

@[simp] theorem mem_sortDedup {α : Type*} [LinearOrder α] {values : List α} {v : α} :
    v ∈ sortDedup values ↔ v ∈ values := by
  rw [sortDedup, List.mem_dedup, List.mem_insertionSort]

theorem nodup_sortDedup {α : Type*} [LinearOrder α] (values : List α) : (sortDedup values).Nodup :=
  List.nodup_dedup _

/-! ## Facts and requests -/

/-- The publication an artifact is pinned to. -/
abbrev WorldPublicationId := Bytes

/-- What the corpus says about one issue. -/
structure GeometryIssueFact where
  id : Text
  project : Text
  closed : Bool
  due : Option ℤ

/-- A named relation between two issues. -/
structure GeometryRelationFact where
  fromId : Text
  relation : Text
  toId : Text

/-- The facts of one publication. -/
structure GeometryFacts where
  source : WorldPublicationId
  issues : List GeometryIssueFact
  relations : List GeometryRelationFact

/-- What a compilation may cost. -/
structure GeometryBudget where
  nodeVisits : ℕ
  edgeVisits : ℕ
  reachabilityVisits : ℕ
  workingBytes : ℕ
  deriving DecidableEq

/-- What a compilation is expected to cost. -/
structure GeometryEstimate where
  selectedNodes : ℕ
  selectedEdges : ℕ
  reductionCandidates : ℕ
  nodeVisits : ℕ
  edgeVisits : ℕ
  reachabilityVisits : ℕ
  workingBytes : ℕ
  deriving DecidableEq

/-- The estimate of nothing. -/
def GeometryEstimate.zero : GeometryEstimate := ⟨0, 0, 0, 0, 0, 0, 0⟩

/-- Whether a budget admits an estimate. -/
def GeometryBudget.contains (budget : GeometryBudget) (estimate : GeometryEstimate) : Bool :=
  decide (estimate.nodeVisits ≤ budget.nodeVisits) &&
    decide (estimate.edgeVisits ≤ budget.edgeVisits) &&
    decide (estimate.reachabilityVisits ≤ budget.reachabilityVisits) &&
    decide (estimate.workingBytes ≤ budget.workingBytes)

/-- A request for the geometry of a project. -/
structure GeometryRequest where
  source : WorldPublicationId
  project : Text
  roots : List Text
  budget : GeometryBudget

/-- The request with its roots sorted and without repetition. -/
def GeometryRequest.canonicalized (request : GeometryRequest) : GeometryRequest :=
  { request with roots := sortDedup request.roots }

/-- Why there is no geometry. -/
inductive UnavailableReason where
  | sourceMismatch (requested actual : WorldPublicationId)
  | budgetExceeded (budget : GeometryBudget) (estimate : GeometryEstimate)
  | duplicateIssue (id : Text)
  | danglingRelation (fromId relation toId : Text)
  | multipleParents (id : Text)
  | containmentCycle (ids : List Text)
  | tooManyNodes
  | executorSaturated (workers queuedBuilds : ℕ)
  | sourceUnavailable
  | sourceCorrupt
  | buildFailed
  | retentionExceeded (requiredBytes retainedBytes : ℕ)
  | memoryCapacity (requiredBytes : ℕ)
  deriving DecidableEq

/-- The kinds of relation the geometry tells apart. -/
inductive RelationKind where
  | blocks
  | duplicates
  | contains
  | association
  deriving DecidableEq, Repr

namespace RelationKind

/-- Every other name is an association. -/
def parse (value : Text) : RelationKind :=
  if value = Bytes.ofString "blocks" then .blocks
  else if value = Bytes.ofString "duplicates" then .duplicates
  else if value = Bytes.ofString "contains" then .contains
  else .association

/-- The place of a kind among the edges of a node. -/
def order : RelationKind → ℕ
  | blocks => 0
  | duplicates => 1
  | contains => 2
  | association => 3

end RelationKind

/-- One edge of the selected graph. -/
structure Edge (count : ℕ) where
  fromNode : Fin count
  relation : RelationKind
  toNode : Fin count
  deriving DecidableEq

/-- The order of the edges: by origin, kind and destination. -/
def Edge.precedes {count : ℕ} (a b : Edge count) : Bool :=
  decide (a.fromNode < b.fromNode) || decide (a.fromNode = b.fromNode) &&
    (decide (a.relation.order < b.relation.order) ||
      decide (a.relation.order = b.relation.order) && decide (a.toNode ≤ b.toNode))

/-- The selected issues by number, with their edges. -/
structure Prepared where
  count : ℕ
  dictionary : Fin count → Text
  closed : Fin count → Bool
  due : Fin count → Option ℤ
  edges : List (Edge count)
  roots : List Text
  estimate : GeometryEstimate

/-! ## Preparation -/

section Prepare

variable (request : GeometryRequest) (facts : GeometryFacts)

/-- A position in the list of issues. -/
abbrev Position := Fin facts.issues.length

/-- The issue at a position. -/
def issueAt (position : Position facts) : GeometryIssueFact := facts.issues.get position

/-- The ids are taken in one after another, and none may come twice. -/
def indexIssues : List GeometryIssueFact → List Text → Except UnavailableReason Unit
  | [], _ => .ok ()
  | issue :: issues, known =>
      if issue.id ∈ known then .error (.duplicateIssue issue.id)
      else indexIssues issues (issue.id :: known)

/-- The position of an id. -/
def byName (id : Text) : Option (Position facts) :=
  facts.issues.findFinIdx? fun issue => issue.id = id

/-- Whether an issue is of the requested project. -/
def candidate (position : Position facts) : Bool :=
  decide ((issueAt facts position).project = request.project)

/-- One relation between positions, if both its ends are candidates. -/
def rawEdge (relation : GeometryRelationFact) :
    Except UnavailableReason (Option (Position facts × RelationKind × Position facts)) :=
  match byName facts relation.fromId, byName facts relation.toId with
  | some source, some target =>
      .ok (if candidate request facts source && candidate request facts target then
        some (source, RelationKind.parse relation.relation, target) else none)
  | _, _ => .error (.danglingRelation relation.fromId relation.relation relation.toId)

/-- The positions joined to one by a relation, either way. -/
def adjacency (rawEdges : List (Position facts × RelationKind × Position facts))
    (position : Position facts) : List (Position facts) :=
  sortDedup (rawEdges.flatMap fun edge =>
    (if edge.1 = position then [edge.2.2] else []) ++
      if edge.2.2 = position then [edge.1] else [])

/-- The candidates among the requested roots. -/
def rootPositions : List (Position facts) :=
  request.roots.filterMap fun root =>
    (byName facts root).filter fun position => candidate request facts position

/-- Whether an issue is selected. -/
def selected (rawEdges : List (Position facts × RelationKind × Position facts))
    (position : Position facts) : Bool :=
  if request.roots = [] then candidate request facts position
  else
    decide (position ∈ (breadthFirst
      (fun index => (adjacency facts rawEdges index).filter (candidate request facts))
      (rootPositions request facts) ∅ []).1)

/-- The selected positions by id. -/
def selectedOld (rawEdges : List (Position facts × RelationKind × Position facts)) :
    List (Position facts) :=
  ((List.finRange facts.issues.length).filter (selected request facts rawEdges)).insertionSort
    fun left right => (issueAt facts left).id ≤ (issueAt facts right).id

/-- The raw edges between selected issues, numbered, in order and without repetition. -/
def numberedEdges (positions : List (Position facts))
    (rawEdges : List (Position facts × RelationKind × Position facts)) :
    List (Edge positions.length) :=
  ((rawEdges.filterMap fun edge => do
    let source ← positions.finIdxOf? edge.1
    let target ← positions.finIdxOf? edge.2.2
    return (⟨source, edge.2.1, target⟩ : Edge positions.length)).insertionSort
      fun a b => a.precedes b).dedup

/-- How many blocking edges start at nodes with more than one. -/
def reductionCandidates {count : ℕ} (edges : List (Edge count)) : ℕ :=
  (edges.filter fun edge => edge.relation = .blocks ∧
    1 < (edges.filter fun other => other.relation = .blocks ∧
      other.fromNode = edge.fromNode).length).length

/-- The cost expected of the selected graph. -/
def estimateOf {count : ℕ} (edges : List (Edge count)) : GeometryEstimate :=
  let reductions := reductionCandidates edges
  let rootCount := request.roots.length
  let rootBytes := request.roots.foldl (fun total root => saturatingAdd total root.length) 0
  { selectedNodes := count
    selectedEdges := edges.length
    reductionCandidates := reductions
    nodeVisits := saturatingAdd (saturatingAdd (saturatingMul facts.issues.length 2) rootCount)
      (saturatingMul count 16)
    edgeVisits := saturatingAdd facts.relations.length (saturatingMul edges.length 20)
    reachabilityVisits := saturatingMul reductions (saturatingAdd count edges.length)
    workingBytes := saturatingAdd (saturatingAdd (saturatingAdd (saturatingAdd (saturatingAdd
      (saturatingMul facts.issues.length 64) (saturatingMul facts.relations.length 32))
      (saturatingMul count 192)) (saturatingMul edges.length 48)) rootBytes)
      (saturatingMul rootCount 32) }

/-- The facts checked, and the requested part of them numbered. -/
def prepare : Except UnavailableReason Prepared :=
  if request.source ≠ facts.source then
    .error (.sourceMismatch request.source facts.source)
  else if U32_MAX < facts.issues.length then .error .tooManyNodes
  else do
    indexIssues facts.issues []
    let raw ← facts.relations.mapM (rawEdge request facts)
    let rawEdges := raw.filterMap id
    let positions := selectedOld request facts rawEdges
    let edges := numberedEdges facts positions rawEdges
    return {
      count := positions.length
      dictionary := fun node => (issueAt facts (positions.get node)).id
      closed := fun node => (issueAt facts (positions.get node)).closed
      due := fun node => (issueAt facts (positions.get node)).due
      edges := edges
      roots := request.roots
      estimate := estimateOf request facts edges }

end Prepare

/-! ## What preparation keeps of the facts -/

section Faithful

variable {request : GeometryRequest} {facts : GeometryFacts}

/-- An id of an issue of the requested project. -/
def InProject (request : GeometryRequest) (facts : GeometryFacts) (id : Text) : Prop :=
  ∃ issue ∈ facts.issues, issue.id = id ∧ issue.project = request.project

/-- Two issues of the project with a relation between them, either way. -/
def Joined (request : GeometryRequest) (facts : GeometryFacts) (a b : Text) : Prop :=
  InProject request facts a ∧ InProject request facts b ∧ ∃ relation ∈ facts.relations,
    relation.fromId = a ∧ relation.toId = b ∨ relation.fromId = b ∧ relation.toId = a

/-- The issues of the project, or those of them the roots are connected with. -/
def Selected (request : GeometryRequest) (facts : GeometryFacts) (id : Text) : Prop :=
  InProject request facts id ∧ (request.roots = [] ∨ ∃ root ∈ request.roots,
    InProject request facts root ∧ Relation.ReflTransGen (Joined request facts) root id)

/-- A relation of a kind between two ids. -/
def Related (facts : GeometryFacts) (kind : RelationKind) (a b : Text) : Prop :=
  ∃ relation ∈ facts.relations, relation.fromId = a ∧ relation.toId = b ∧
    RelationKind.parse relation.relation = kind

theorem indexIssues_eq_ok_iff {issues : List GeometryIssueFact} {known : List Text} :
    indexIssues issues known = .ok () ↔
      (issues.map GeometryIssueFact.id).Nodup ∧ ∀ issue ∈ issues, issue.id ∉ known := by
  induction issues generalizing known with
  | nil => simp [indexIssues]
  | cons issue issues ih =>
      rw [indexIssues]
      split
      case isTrue h => simp [h]
      case isFalse h =>
          rw [ih, List.map_cons, List.nodup_cons, List.forall_mem_cons, List.mem_map]
          constructor
          · rintro ⟨hnodup, hknown⟩
            refine ⟨⟨fun ⟨other, hother, hid⟩ => hknown other hother ?_, hnodup⟩, h,
              fun other hother hmem => hknown other hother (List.mem_cons_of_mem _ hmem)⟩
            simp [hid]
          · rintro ⟨⟨hnew, hnodup⟩, -, hknown⟩
            refine ⟨hnodup, fun other hother hmem => ?_⟩
            rcases List.mem_cons.mp hmem with hid | hmem
            · exact hnew ⟨other, hother, hid⟩
            · exact hknown other hother hmem

/-- The ids of the issues differ. -/
def DistinctIds (facts : GeometryFacts) : Prop := (facts.issues.map GeometryIssueFact.id).Nodup

theorem DistinctIds.inj (hids : DistinctIds facts) {p q : Position facts}
    (h : (issueAt facts p).id = (issueAt facts q).id) : p = q := by
  have hget := List.inj_on_of_nodup_map hids (List.get_mem _ p) (List.get_mem _ q) h
  exact (List.nodup_iff_injective_get.mp (List.Nodup.of_map _ hids)) hget

theorem byName_eq_some_iff (hids : DistinctIds facts) {id : Text} {p : Position facts} :
    byName facts id = some p ↔ (issueAt facts p).id = id := by
  rw [byName, List.findFinIdx?_eq_some_iff]
  simp only [decide_eq_true_eq]
  refine ⟨fun h => h.1, fun h => ⟨h, fun q hq hid => ?_⟩⟩
  exact hq.ne (hids.inj (hid.trans h.symm))

theorem inProject_iff {p : Position facts} (hids : DistinctIds facts) :
    InProject request facts (issueAt facts p).id ↔ candidate request facts p = true := by
  rw [candidate, decide_eq_true_eq]
  constructor
  · rintro ⟨issue, hmem, hid, hproject⟩
    have hissue : issue = issueAt facts p :=
      List.inj_on_of_nodup_map hids hmem (List.get_mem _ p) hid
    rw [← hproject, hissue]
  · exact fun h => ⟨_, List.get_mem _ p, rfl, h⟩

theorem InProject.exists_position {id : Text} (h : InProject request facts id) :
    ∃ p : Position facts, (issueAt facts p).id = id := by
  obtain ⟨issue, hmem, hid, -⟩ := h
  obtain ⟨p, rfl⟩ := List.get_of_mem hmem
  exact ⟨p, hid⟩

/-- The raw edges are the relations between candidates. -/
theorem mem_rawEdges (hids : DistinctIds facts)
    {raw : List (Option (Position facts × RelationKind × Position facts))}
    (h : facts.relations.mapM (rawEdge request facts) = .ok raw) {p q : Position facts}
    {kind : RelationKind} :
    (p, kind, q) ∈ raw.filterMap id ↔
      candidate request facts p = true ∧ candidate request facts q = true ∧
        Related facts kind (issueAt facts p).id (issueAt facts q).id := by
  have hraw : ∀ relation, rawEdge request facts relation = .ok (some (p, kind, q)) ↔
      (candidate request facts p = true ∧ candidate request facts q = true) ∧
        relation.fromId = (issueAt facts p).id ∧ relation.toId = (issueAt facts q).id ∧
          RelationKind.parse relation.relation = kind := by
    intro relation
    rw [rawEdge]
    split
    case h_1 source target hsource htarget =>
        rw [byName_eq_some_iff hids] at hsource htarget
        rw [← hsource, ← htarget, Except.ok.injEq, Option.ite_none_right_eq_some,
          Option.some.injEq, Prod.mk.injEq, Prod.mk.injEq, Bool.and_eq_true]
        constructor
        · rintro ⟨hcandidates, rfl, rfl, rfl⟩
          exact ⟨hcandidates, rfl, rfl, rfl⟩
        · rintro ⟨hcandidates, hp, hq, rfl⟩
          obtain rfl := hids.inj hp
          obtain rfl := hids.inj hq
          exact ⟨hcandidates, rfl, rfl, rfl⟩
    case h_2 hnone =>
        refine ⟨fun h => (nomatch h), fun h => ?_⟩
        exact (hnone p q ((byName_eq_some_iff hids).mpr h.2.1.symm)
          ((byName_eq_some_iff hids).mpr h.2.2.1.symm)).elim
  rw [List.mem_filterMap]
  constructor
  · rintro ⟨edge, hmem, heq⟩
    obtain rfl : edge = some (p, kind, q) := heq
    obtain ⟨relation, hrelation, hok⟩ := exists_of_mem_mapM h hmem
    obtain ⟨⟨hp, hq⟩, hrest⟩ := (hraw relation).mp hok
    exact ⟨hp, hq, relation, hrelation, hrest⟩
  · rintro ⟨hp, hq, relation, hrelation, hrest⟩
    obtain ⟨edge, hmem, hok⟩ := exists_mapM_of_mem h hrelation
    rw [(hraw relation).mpr ⟨⟨hp, hq⟩, hrest⟩] at hok
    exact ⟨edge, hmem, (Except.ok.inj hok).symm⟩

section Selection

variable {rawEdges : List (Position facts × RelationKind × Position facts)}

theorem mem_adjacency {p q : Position facts} :
    q ∈ adjacency facts rawEdges p ↔ ∃ kind, (p, kind, q) ∈ rawEdges ∨ (q, kind, p) ∈ rawEdges := by
  simp only [adjacency, mem_sortDedup, List.mem_flatMap, List.mem_append, List.mem_ite_nil_right,
    List.mem_singleton]
  constructor
  · rintro ⟨⟨a, kind, b⟩, hmem, ⟨rfl, rfl⟩ | ⟨rfl, rfl⟩⟩
    · exact ⟨kind, Or.inl hmem⟩
    · exact ⟨kind, Or.inr hmem⟩
  · rintro ⟨kind, hmem | hmem⟩
    · exact ⟨_, hmem, Or.inl ⟨rfl, rfl⟩⟩
    · exact ⟨_, hmem, Or.inr ⟨rfl, rfl⟩⟩

/-- **The sweep selects what the roots are connected with.** -/
theorem selected_iff (hids : DistinctIds facts)
    (hraw : ∀ p kind q, (p, kind, q) ∈ rawEdges ↔
      candidate request facts p = true ∧ candidate request facts q = true ∧
        Related facts kind (issueAt facts p).id (issueAt facts q).id) (p : Position facts) :
    selected request facts rawEdges p = true ↔ Selected request facts (issueAt facts p).id := by
  have hjoined : ∀ a b : Position facts,
      b ∈ (adjacency facts rawEdges a).filter (candidate request facts) ↔
        Joined request facts (issueAt facts a).id (issueAt facts b).id := by
    intro a b
    rw [List.mem_filter, mem_adjacency, Joined, inProject_iff hids, inProject_iff hids]
    simp only [hraw, Related]
    constructor
    · rintro ⟨⟨kind, ⟨ha, hb, relation, hmem, hfrom, hto, -⟩ |
        ⟨hb, ha, relation, hmem, hfrom, hto, -⟩⟩, -⟩
      · exact ⟨ha, hb, relation, hmem, Or.inl ⟨hfrom, hto⟩⟩
      · exact ⟨ha, hb, relation, hmem, Or.inr ⟨hfrom, hto⟩⟩
    · rintro ⟨ha, hb, relation, hmem, ⟨hfrom, hto⟩ | ⟨hfrom, hto⟩⟩
      · exact ⟨⟨_, Or.inl ⟨ha, hb, relation, hmem, hfrom, hto, rfl⟩⟩, hb⟩
      · exact ⟨⟨_, Or.inr ⟨hb, ha, relation, hmem, hfrom, hto, rfl⟩⟩, hb⟩
  have hreach : ∀ a b : Position facts,
      Relation.ReflTransGen
          (fun a b => b ∈ (adjacency facts rawEdges a).filter (candidate request facts)) a b ↔
        Relation.ReflTransGen (Joined request facts) (issueAt facts a).id (issueAt facts b).id := by
    intro a b
    constructor
    · exact fun h => h.lift _ fun x y hxy => (hjoined x y).mp hxy
    · intro h
      obtain ⟨id, hid⟩ : ∃ id, id = (issueAt facts b).id := ⟨_, rfl⟩
      rw [← hid] at h
      induction h generalizing b with
      | refl => rw [hids.inj hid]
      | tail _ edge ih =>
          obtain ⟨c, hc⟩ := edge.1.exists_position
          subst hid
          rw [← hc] at edge
          exact (ih c hc.symm).tail ((hjoined c b).mpr edge)
  have hroot : ∀ q, q ∈ rootPositions request facts ↔
      ∃ root ∈ request.roots, InProject request facts root ∧ (issueAt facts q).id = root := by
    intro q
    simp only [rootPositions, List.mem_filterMap, Option.filter_eq_some_iff]
    refine exists_congr fun root => and_congr_right fun _ => ?_
    constructor
    · rintro ⟨hname, hcandidate⟩
      have hid := (byName_eq_some_iff hids).mp hname
      exact ⟨hid ▸ (inProject_iff hids).mpr hcandidate, hid⟩
    · rintro ⟨hproject, hid⟩
      exact ⟨(byName_eq_some_iff hids).mpr hid, (inProject_iff hids).mp (hid ▸ hproject)⟩
  rw [selected, Selected, inProject_iff hids]
  split
  case isTrue hempty => simp [hempty]
  case isFalse hempty =>
      rw [decide_eq_true_eq, mem_breadthFirst_iff]
      simp only [hempty, false_or]
      constructor
      · rintro ⟨s, hs, hsp⟩
        obtain ⟨root, hmem, hproject, hid⟩ := (hroot s).mp hs
        refine ⟨?_, root, hmem, hproject, hid ▸ (hreach s p).mp hsp⟩
        rcases Relation.ReflTransGen.cases_tail hsp with rfl | ⟨_, -, edge⟩
        · exact (inProject_iff hids).mp (hid ▸ hproject)
        · exact List.of_mem_filter edge
      · rintro ⟨-, root, hmem, hproject, hpath⟩
        obtain ⟨s, hid⟩ := hproject.exists_position
        exact ⟨s, (hroot s).mpr ⟨root, hmem, hproject, hid⟩, (hreach s p).mpr (hid ▸ hpath)⟩

theorem mem_selectedOld {p : Position facts} :
    p ∈ selectedOld request facts rawEdges ↔ selected request facts rawEdges p = true := by
  simp [selectedOld]

theorem nodup_selectedOld : (selectedOld request facts rawEdges).Nodup :=
  (List.perm_insertionSort _ _).nodup_iff.mpr ((List.nodup_finRange _).filter _)

theorem pairwise_selectedOld : (selectedOld request facts rawEdges).Pairwise
    fun left right => (issueAt facts left).id ≤ (issueAt facts right).id := by
  have htotal : Std.Total fun left right : Position facts =>
      (issueAt facts left).id ≤ (issueAt facts right).id := ⟨fun a b => le_total _ _⟩
  have htrans : IsTrans (Position facts) fun left right =>
      (issueAt facts left).id ≤ (issueAt facts right).id := ⟨fun a b c hab hbc => hab.trans hbc⟩
  exact List.pairwise_insertionSort _ _

/-- A numbered edge stands for a raw edge between the issues numbered. -/
theorem mem_numberedEdges {positions : List (Position facts)} (hnodup : positions.Nodup)
    {edge : Edge positions.length} :
    edge ∈ numberedEdges facts positions rawEdges ↔
      (positions.get edge.fromNode, edge.relation, positions.get edge.toNode) ∈ rawEdges := by
  have hindex : ∀ (p : Position facts) (i : Fin positions.length),
      positions.finIdxOf? p = some i ↔ positions.get i = p := by
    intro p i
    rw [List.finIdxOf?_eq_some_iff]
    refine ⟨fun h => h.1, fun h => ⟨h, fun j hj hget => ?_⟩⟩
    exact hj.ne ((List.nodup_iff_injective_get.mp hnodup) (hget.trans h.symm))
  rw [numberedEdges, List.mem_dedup, List.mem_insertionSort, List.mem_filterMap]
  constructor
  · rintro ⟨⟨p, kind, q⟩, hmem, hsome⟩
    simp only [Option.bind_eq_bind, Option.bind_eq_some_iff, Option.pure_def] at hsome
    obtain ⟨i, hi, j, hj, heq⟩ := hsome
    obtain rfl := Option.some.inj heq
    rw [hindex] at hi hj
    rw [hi, hj]
    exact hmem
  · intro hmem
    refine ⟨_, hmem, ?_⟩
    simp only [(hindex _ edge.fromNode).mpr rfl, (hindex _ edge.toNode).mpr rfl]
    rfl

end Selection

/-- What a preparation that succeeds promises: the numbered issues are the selected ones, by
id, and the edges are the relations between them, each once. -/
structure Prepared.Faithful (request : GeometryRequest) (facts : GeometryFacts)
    (prepared : Prepared) : Prop where
  distinct : DistinctIds facts
  count_le : prepared.count ≤ U32_MAX
  injective : Function.Injective prepared.dictionary
  ascending : ∀ i j, i ≤ j → prepared.dictionary i ≤ prepared.dictionary j
  exists_iff : ∀ id, (∃ i, prepared.dictionary i = id) ↔ Selected request facts id
  issue : ∀ i, ∃ issue ∈ facts.issues, issue.id = prepared.dictionary i ∧
    issue.closed = prepared.closed i ∧ issue.due = prepared.due i
  nodup : prepared.edges.Nodup
  mem_edges : ∀ i kind j, (⟨i, kind, j⟩ : Edge prepared.count) ∈ prepared.edges ↔
    Related facts kind (prepared.dictionary i) (prepared.dictionary j)

/-- **A preparation that succeeds is faithful to the facts.** -/
theorem prepare_faithful {prepared : Prepared} (h : prepare request facts = .ok prepared) :
    prepared.Faithful request facts := by
  rw [prepare] at h
  split at h
  case isTrue => cases h
  case isFalse =>
      split at h
      case isTrue => cases h
      case isFalse hcount =>
          obtain ⟨⟨⟩, hindex, h⟩ := bind_eq_ok.mp h
          obtain ⟨raw, hraw, h⟩ := bind_eq_ok.mp h
          obtain rfl := Except.ok.inj h
          have hids : DistinctIds facts := (indexIssues_eq_ok_iff.mp hindex).1
          have hedges := fun p kind q => @mem_rawEdges request facts hids raw hraw p q kind
          have hnodup := @nodup_selectedOld request facts (raw.filterMap id)
          have hselected := selected_iff hids hedges
          refine ⟨hids, ?_, fun i j hij => ?_, fun i j hij => ?_, fun id => ?_, fun i => ?_,
            List.nodup_dedup _, fun i kind j => ?_⟩
          · have hlen : (selectedOld request facts (raw.filterMap id)).length ≤
                facts.issues.length := by
              rw [selectedOld, List.length_insertionSort]
              exact (List.length_filter_le _ _).trans (List.length_finRange).le
            exact hlen.trans (Nat.not_lt.mp hcount)
          · exact (List.nodup_iff_injective_get.mp hnodup) (hids.inj hij)
          · rcases hij.lt_or_eq with hlt | rfl
            · exact List.pairwise_iff_get.mp (@pairwise_selectedOld request facts (raw.filterMap id))
                i j hlt
            · exact le_rfl
          · constructor
            · rintro ⟨i, rfl⟩
              exact (hselected _).mp (mem_selectedOld.mp (List.get_mem _ i))
            · intro hid
              obtain ⟨p, rfl⟩ := hid.1.exists_position
              obtain ⟨i, hi⟩ := List.get_of_mem (mem_selectedOld.mpr ((hselected p).mpr hid))
              exact ⟨i, by rw [← hi]⟩
          · exact ⟨_, List.get_mem _ _, rfl, rfl, rfl⟩
          · have hcandidate : ∀ k, candidate request facts
                ((selectedOld request facts (raw.filterMap id)).get k) = true := fun k =>
              (inProject_iff hids).mp
                ((hselected _).mp (mem_selectedOld.mp (List.get_mem _ k))).1
            rw [mem_numberedEdges hnodup, hedges]
            exact ⟨fun h => h.2.2, fun h => ⟨hcandidate i, hcandidate j, h⟩⟩

end Faithful

end Lait.Issues.Geometry
