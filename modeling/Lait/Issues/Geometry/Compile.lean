import Lait.Host
import Lait.Issues.Geometry.Facts
import Lait.Graph.Layering
import Lait.Graph.Components

/-!
# Compiling a geometry

The selected graph is compiled into columns: the layers of the blocking relation and what is
left of it in loops, the containment forest, its regions and their own layers, closure
kinds, slack, and the residual loci.  Then `materialize` wraps the columns, or the reason
there are none, into an artifact.

Spans into shared arrays are written as the lists they delimit.  Loops over parents carry
one more turn of fuel than there are nodes; `traceParents` is what makes that enough.
-/

namespace Lait.Issues.Geometry

open Lait (Text Crypto)
open Lait.Graph

/-! ## Adjacency -/

section Adjacency

variable {count : ℕ} (edges : List (Edge count))

/-- The nodes a node blocks. -/
def blocks (node : Fin count) : List (Fin count) :=
  sortDedup ((edges.filter fun edge => edge.relation = .blocks ∧ edge.fromNode = node).map
    Edge.toNode)

/-- The nodes a node is blocked by. -/
def blockedBy (node : Fin count) : List (Fin count) :=
  sortDedup ((edges.filter fun edge => edge.relation = .blocks ∧ edge.toNode = node).map
    Edge.fromNode)

/-- The nodes an edge of any kind joins to a node. -/
def undirected (node : Fin count) : List (Fin count) :=
  sortDedup (edges.flatMap fun edge =>
    (if edge.fromNode = node then [edge.toNode] else []) ++
      if edge.toNode = node then [edge.fromNode] else [])

/-- One edge of the containment forest; a second parent is refused. -/
def adopt (dictionary : Fin count → Text) (parent : Fin count → Option (Fin count))
    (edge : Edge count) : Except UnavailableReason (Fin count → Option (Fin count)) :=
  if edge.relation = .contains then
    if (parent edge.toNode).isSome then .error (.multipleParents (dictionary edge.toNode))
    else .ok (Function.update parent edge.toNode (some edge.fromNode))
  else .ok parent

/-- The parent of every node. -/
def parents (dictionary : Fin count → Text) :
    Except UnavailableReason (Fin count → Option (Fin count)) :=
  edges.foldlM (adopt dictionary) fun _ => none

end Adjacency

/-! ## The containment forest -/

section Forest

variable {count : ℕ} (parent : Fin count → Option (Fin count))

/-- Parents are followed from a node until there is none or one comes again. -/
def traceParents (dictionary : Fin count → Text) :
    ℕ → List (Fin count) → Fin count → Except UnavailableReason Unit
  | 0, _, _ => .ok ()
  | fuel + 1, path, cursor =>
      if cursor ∈ path then
        .error (.containmentCycle ((path.drop (path.idxOf cursor)).map dictionary))
      else
        match parent cursor with
        | none => .ok ()
        | some next => traceParents dictionary fuel (path ++ [cursor]) next

/-- No node contains itself, however far up. -/
def validateParentCycles (dictionary : Fin count → Text) : Except UnavailableReason Unit :=
  (List.finRange count).forM fun start => traceParents parent dictionary (count + 1) [] start

/-- The depth and the root reached by following parents. -/
def climb : ℕ → ℕ → Fin count → ℕ × Fin count
  | 0, depth, cursor => (depth, cursor)
  | fuel + 1, depth, cursor =>
      match parent cursor with
      | none => (depth, cursor)
      | some next => climb fuel (saturatingAdd32 depth 1) next

/-- How far below its root a node is. -/
def hierarchyDepth (node : Fin count) : ℕ := (climb parent count 0 node).1

/-- The root a node is below. -/
def hierarchyRoot (node : Fin count) : Fin count := (climb parent count 0 node).2

/-- The nodes a node contains. -/
def children (node : Fin count) : List (Fin count) :=
  (List.finRange count).filter fun child => parent child = some node

end Forest

/-! ## Components -/

/-- The connected components, each sorted, in the order of their least members. -/
def components {count : ℕ} (adjacency : Fin count → List (Fin count)) :
    List (List (Fin count)) :=
  ((List.finRange count).foldl
    (fun state start =>
      if start ∈ state.1 then state
      else
        let swept := breadthFirst adjacency [start] state.1 []
        (swept.1, state.2 ++ [swept.2.insertionSort (· ≤ ·)]))
    ((∅, []) : Finset (Fin count) × List (List (Fin count)))).2

/-- The number of the component a node is in. -/
def componentOf {count : ℕ} (componentSets : List (List (Fin count))) (node : Fin count) : ℕ :=
  componentSets.findIdx fun members => node ∈ members

/-! ## Layers of the blocking relation -/

/-- What `dependency_layers` returns. -/
structure DependencyLayers (count : ℕ) where
  layer : Fin count → Option ℕ
  loops : List (List (Fin count))
  cyclic : Fin count → Bool
  stalled : Fin count → Bool

/-- The layers of the nodes that drain; the loops among the others, and what hangs off them. -/
def dependencyLayers {count : ℕ} (blockedBy blocks : Fin count → List (Fin count)) :
    DependencyLayers count :=
  let drained := Drain.drain U32_MAX blocks fun node => (blockedBy node).length
  let active := fun node => decide (node ∉ drained.drained)
  let loops := (stronglyConnected (List.finRange count) blocks active).filter (isLoop blocks)
  let cyclic := fun node => loops.any fun component => node ∈ component
  { layer := fun node => if node ∈ drained.drained then drained.layer node else none
    loops := loops
    cyclic := cyclic
    stalled := fun node => active node && !cyclic node }

section Slack

variable {count : ℕ} (blocks : Fin count → List (Fin count)) (layer : Fin count → Option ℕ)

/-- The deepest layer. -/
def maxLayer : ℕ := ((List.finRange count).filterMap layer).foldl max 0

/-- The nodes with a layer, deepest first. -/
def placed : List (Fin count) :=
  ((List.finRange count).filter fun node => (layer node).isSome).insertionSort fun a b =>
    (layer b).getD 0 ≤ (layer a).getD 0

/-- The onward length of one node, from those of the nodes it blocks. -/
def place (onward : Fin count → ℕ) (node : Fin count) : Fin count → ℕ :=
  Function.update onward node
    (((blocks node).map fun next => saturatingAdd32 (onward next) 1).foldl max 0)

/-- The onward lengths, computed deepest layer first. -/
def onwardLengths : Fin count → ℕ := (placed layer).foldl (place blocks) fun _ => 0

/-- How many layers a node may slip without moving the deepest one. -/
def slack (node : Fin count) : Option ℕ :=
  (layer node).map fun at_ =>
    maxLayer layer - saturatingAdd32 at_ (onwardLengths blocks layer node)

end Slack

/-! ## Regions -/

section Regions

variable {count : ℕ} (hierarchyRoot : Fin count → Fin count)
  (blocks : Fin count → List (Fin count))

/-- The containment trees with more than one member, by root. -/
def regionSets : List (List (Fin count)) :=
  (List.finRange count).filterMap fun root =>
    let members := (List.finRange count).filter fun node => hierarchyRoot node = root
    if 1 < members.length then some members else none

/-- The region a node is in. -/
def regionOf (sets : List (List (Fin count))) (node : Fin count) : Option (Fin sets.length) :=
  sets.findFinIdx? fun members => node ∈ members

/-- The regions each region precedes, and how many precede it. -/
structure RegionLinks (regions : ℕ) where
  onward : Fin regions → Finset (Fin regions)
  indegree : Fin regions → ℕ

/-- One blocking edge between regions. -/
def linkRegions {regions : ℕ} (region : Fin count → Option (Fin regions))
    (links : RegionLinks regions) (edge : Fin count × Fin count) : RegionLinks regions :=
  match region edge.1, region edge.2 with
  | some source, some destination =>
      if source ≠ destination ∧ destination ∉ links.onward source then
        { onward := Function.update links.onward source
            (insert destination (links.onward source))
          indegree := Function.update links.indegree destination
            (saturatingAdd (links.indegree destination) 1) }
      else links
  | _, _ => links

/-- The region graph. -/
def regionLinks (sets : List (List (Fin count))) : RegionLinks sets.length :=
  ((List.finRange count).flatMap fun source =>
    (blocks source).map fun target => (source, target)).foldl
      (linkRegions (regionOf sets)) ⟨fun _ => ∅, fun _ => 0⟩

/-- The regions a region precedes, in order. -/
def regionSuccessors {regions : ℕ} (links : RegionLinks regions) (region : Fin regions) :
    List (Fin regions) :=
  (List.finRange regions).filter fun next => next ∈ links.onward region

/-- The layers of the regions, as the drain of the region graph leaves them. -/
def regionLayers (sets : List (List (Fin count))) : Fin sets.length → Option ℕ :=
  let links := regionLinks blocks sets
  (Drain.drain U32_MAX (regionSuccessors links) links.indegree).layer

end Regions

/-! ## Implied edges -/

section Implied

variable {count : ℕ} (blocks : Fin count → List (Fin count)) (layer : Fin count → Option ℕ)

/-- The search behind `implied_by_longer_path`, top of the stack first.  A node is pushed at
most once, so one turn for every node is enough. -/
def searchLonger (target : Fin count) (arrival : ℕ) :
    ℕ → List (Fin count) → Finset (Fin count) → Bool
  | 0, _, _ => false
  | _ + 1, [], _ => false
  | fuel + 1, node :: stack, seen =>
      if node = target then true
      else if (layer node).all fun at_ => arrival ≤ at_ then
        searchLonger target arrival fuel stack seen
      else
        let marked := (blocks node).foldl mark (seen, stack)
        searchLonger target arrival fuel marked.2 marked.1

/-- Whether a path other than the edge itself leads from one node to another. -/
def impliedByLongerPath (source target : Fin count) : Bool :=
  match layer target with
  | none => false
  | some arrival =>
      if arrival ≤ saturatingAdd32 ((layer source).getD 0) 1 then false
      else
        let first := (blocks source).filter fun next => next ≠ target
        searchLonger blocks layer target arrival (count + 1) first.reverse first.toFinset

/-- The endpoints of the blocking edges a longer path implies. -/
def impliedPairs (edges : List (Edge count)) : List (Fin count × Fin count) :=
  (edges.filter fun edge => edge.relation = .blocks ∧
    impliedByLongerPath blocks layer edge.fromNode edge.toNode = true).map
      fun edge => (edge.fromNode, edge.toNode)

end Implied

/-! ## Closure and residuals -/

/-- How a node stands to being done. -/
inductive ClosureKind where
  | closed
  | ready
  | blocked
  | cycle
  | stalled
  deriving DecidableEq, Repr

/-- How many nodes stand how. -/
structure GeometryClosure where
  total : ℕ
  closed : ℕ
  ready : ℕ
  blocked : ℕ
  cyclic : ℕ
  stalled : ℕ
  deriving DecidableEq, Repr

/-- One more node of a kind. -/
def GeometryClosure.count (closure : GeometryClosure) : ClosureKind → GeometryClosure
  | .closed => { closure with closed := saturatingAdd32 closure.closed 1 }
  | .ready => { closure with ready := saturatingAdd32 closure.ready 1 }
  | .blocked => { closure with blocked := saturatingAdd32 closure.blocked 1 }
  | .cycle => { closure with cyclic := saturatingAdd32 closure.cyclic 1 }
  | .stalled => { closure with stalled := saturatingAdd32 closure.stalled 1 }

/-- Where a geometry says something is left to do. -/
inductive ResidualKind where
  | rootMissing
  | dependencyCycle
  | blockedFrontier
  | dueOrderConflict
  | unattached
  | closureFrontier
  deriving DecidableEq, Repr

/-- One residual: where it is, what it requires, and the place of a missing root's id in the
dictionary. -/
structure CompactResidual (count : ℕ) where
  kind : ResidualKind
  missing : Option ℕ
  component : Option ℕ
  layer : Option ℕ
  locus : List (Fin count)
  requires : List (Fin count)

section Closure

variable {count : ℕ} (closed : Fin count → Bool) (due : Fin count → Option ℤ)
  (blockedBy : Fin count → List (Fin count))

/-- The open nodes a node is blocked by. -/
def openBlockers (node : Fin count) : List (Fin count) :=
  (blockedBy node).filter fun blocker => !closed blocker

/-- How a node stands to being done. -/
def closureKind (layers : DependencyLayers count) (node : Fin count) : ClosureKind :=
  if closed node then .closed
  else if layers.cyclic node then .cycle
  else if layers.stalled node then .stalled
  else if openBlockers closed blockedBy node = [] then .ready
  else .blocked

/-- The counts over all nodes. -/
def closureOf (kind : Fin count → ClosureKind) : GeometryClosure :=
  (List.finRange count).foldl (fun closure node => closure.count (kind node))
    ⟨count, 0, 0, 0, 0, 0⟩

/-- The blockers due no earlier than a node. -/
def dueConflicts (node : Fin count) : List (Fin count) :=
  match due node with
  | none => []
  | some at_ => (blockedBy node).filter fun blocker => (due blocker).any fun other => at_ ≤ other

/-- The residuals of one node. -/
def nodeResiduals (dictionary : Fin count → Text) (roots : List Text)
    (undirected blocks children : Fin count → List (Fin count))
    (component : Fin count → ℕ) (layer : Fin count → Option ℕ) (kind : Fin count → ClosureKind)
    (node : Fin count) : List (CompactResidual count) :=
  let residual := fun (residualKind : ResidualKind) (requires : List (Fin count)) =>
    (⟨residualKind, none, some (component node), layer node, [node], requires⟩ :
      CompactResidual count)
  (if kind node = .blocked then
      [residual .blockedFrontier (openBlockers closed blockedBy node)] else []) ++
    (if dueConflicts due blockedBy node ≠ [] then
      [residual .dueOrderConflict (dueConflicts due blockedBy node)] else []) ++
    (if undirected node = [] ∧ dictionary node ∉ roots ∧ 1 < count then
      [residual .unattached []] else []) ++
    (if closed node = false ∧ blocks node = [] ∧ children node = [] then
      [residual .closureFrontier []] else [])

end Closure

/-! ## The compact geometry -/

/-- The columns of the nodes. -/
structure NodeColumns (count : ℕ) where
  component : Fin count → ℕ
  layer : Fin count → Option ℕ
  ordinal : Fin count → ℕ
  hierarchyDepth : Fin count → ℕ
  region : Fin count → Option ℕ
  parent : Fin count → Option (Fin count)
  closure : Fin count → ClosureKind
  slack : Fin count → Option ℕ
  children : Fin count → List (Fin count)
  blockedBy : Fin count → List (Fin count)
  blocks : Fin count → List (Fin count)

/-- One row of the edge columns. -/
structure EdgeRow (count : ℕ) where
  fromNode : Fin count
  relation : RelationKind
  toNode : Fin count
  implied : Bool
  deriving DecidableEq

/-- One connected component. -/
structure CompactComponent (count : ℕ) where
  members : List (Fin count)
  roots : List (Fin count)
  terminals : List (Fin count)
  loops : ℕ

/-- One region. -/
structure CompactRegion (count : ℕ) where
  root : Option (Fin count)
  members : List (Fin count)
  layer : Option ℕ
  ordinal : ℕ

/-- A compiled geometry. -/
structure CompactGeometry where
  count : ℕ
  project : ℕ
  roots : List ℕ
  dictionary : List Text
  nodes : NodeColumns count
  edges : List (EdgeRow count)
  components : List (CompactComponent count)
  regions : List (CompactRegion count)
  residuals : List (CompactResidual count)
  closure : GeometryClosure
  retainedBytes : ℕ

/-- Places within a layer, handed out in the order of a list. -/
def ordinals {ι : Type*} [DecidableEq ι] (layer : ι → Option ℕ) (order : List ι) : ι → ℕ :=
  (order.foldl
    (fun (state : (Option ℕ → ℕ) × (ι → ℕ)) index =>
      (Function.update state.1 (layer index) (saturatingAdd32 (state.1 (layer index)) 1),
        Function.update state.2 index (state.1 (layer index))))
    (fun _ => 0, fun _ => 0)).2

/-- The order places are handed out in: by layer, absent first, by depth, and by number. -/
def ordinalOrder {count : ℕ} (layer : Fin count → Option ℕ) (depth : Fin count → ℕ) :
    List (Fin count) :=
  (List.finRange count).insertionSort fun a b =>
    let rank := fun node => ((layer node).map (· + 1)).getD 0
    rank a < rank b ∨ rank a = rank b ∧ (depth a < depth b ∨ depth a = depth b ∧ a ≤ b)

/-- The requested roots that no selected issue has, in order and each once. -/
def missingRoots (dictionary roots : List Text) : List Text :=
  roots.foldl
    (fun missing root => if root ∈ dictionary ++ missing then missing else missing ++ [root]) []

/-- The place of a value, which the dictionary holds. -/
def dictionaryIndex (dictionary : List Text) (value : Text) : Except UnavailableReason ℕ :=
  match dictionary.idxOf? value with
  | some index => .ok index
  | none => .error .tooManyNodes

/-- The bytes an artifact is charged for. -/
def retainedBytesOf (dictionary : List Text)
    (roots count edges adjacency componentMembers regionMembers residualMembers : ℕ) : ℕ :=
  let stringBytes := dictionary.foldl (fun total value => saturatingAdd total value.length) 0
  saturatingAdd (saturatingAdd (saturatingAdd (saturatingAdd (saturatingAdd (saturatingAdd
    (saturatingAdd stringBytes (saturatingMul (saturatingAdd roots 1) 4))
    (saturatingMul count 80)) (saturatingMul edges 16)) (saturatingMul adjacency 4))
    (saturatingMul componentMembers 4)) (saturatingMul regionMembers 4))
    (saturatingMul residualMembers 4)

/-- The columns of a prepared graph with its containment forest, under a dictionary and with
the places the requested project and roots have in it. -/
def assembled (prepared : Prepared) (parent : Fin prepared.count → Option (Fin prepared.count))
    (missing dictionary : List Text) (project : ℕ) (roots : List ℕ) : CompactGeometry :=
  let blocks := blocks prepared.edges
  let blockedBy := blockedBy prepared.edges
  let undirected := undirected prepared.edges
  let componentSets := components undirected
  let component := componentOf componentSets
  let layers := dependencyLayers blockedBy blocks
  let children := children parent
  let root := hierarchyRoot parent
  let sets := regionSets root
  let regionLayers := regionLayers blocks sets
  let kind := closureKind prepared.closed blockedBy layers
  let implied := impliedPairs blocks layers.layer prepared.edges
  let loopsOf := fun index : ℕ => (layers.loops.filter fun nodes =>
    nodes.head?.any fun node => component node = index).length
  let componentRows := componentSets.zipIdx.map fun (members, index) =>
    (⟨members,
      members.filter fun node => (blockedBy node).all fun other => other ∉ members,
      members.filter fun node => (blocks node).all fun other => other ∉ members,
      loopsOf index⟩ : CompactComponent prepared.count)
  let regionOrdinals := ordinals regionLayers (List.finRange sets.length)
  let regionRows := (List.finRange sets.length).map fun region =>
    (⟨(sets.get region).head?.map root, sets.get region, regionLayers region,
      regionOrdinals region⟩ : CompactRegion prepared.count)
  let residuals := (List.finRange prepared.count).flatMap (nodeResiduals prepared.closed
      prepared.due blockedBy prepared.dictionary prepared.roots undirected blocks children
      component layers.layer kind) ++
    layers.loops.map (fun nodes =>
      ⟨.dependencyCycle, none, nodes.head?.map component, none, nodes, nodes⟩) ++
    missing.map fun root => ⟨.rootMissing, dictionary.idxOf? root, none, none, [], []⟩
  { count := prepared.count
    project := project
    roots := roots
    dictionary := dictionary
    nodes := {
      component := component
      layer := layers.layer
      ordinal := ordinals layers.layer (ordinalOrder layers.layer (hierarchyDepth parent))
      hierarchyDepth := hierarchyDepth parent
      region := fun node => (regionOf sets node).map Fin.val
      parent := parent
      closure := kind
      slack := slack blocks layers.layer
      children := children
      blockedBy := blockedBy
      blocks := blocks }
    edges := prepared.edges.map fun edge =>
      ⟨edge.fromNode, edge.relation, edge.toNode, (edge.fromNode, edge.toNode) ∈ implied⟩
    components := componentRows
    regions := regionRows
    residuals := residuals
    closure := closureOf kind
    retainedBytes := retainedBytesOf dictionary roots.length prepared.count
      prepared.edges.length
      (((List.finRange prepared.count).map fun node =>
        (children node).length + (blockedBy node).length + (blocks node).length).sum)
      ((componentRows.map fun row =>
        row.members.length + row.roots.length + row.terminals.length).sum)
      ((regionRows.map fun row => row.members.length).sum)
      ((residuals.map fun row => row.locus.length + row.requires.length).sum) }

/-- The columns of a prepared graph, or the first thing that keeps it from having any. -/
def compileCompact (request : GeometryRequest) (prepared : Prepared) :
    Except UnavailableReason CompactGeometry := do
  let parent ← parents prepared.edges prepared.dictionary
  validateParentCycles parent prepared.dictionary
  let names := List.ofFn prepared.dictionary
  let missing := missingRoots names prepared.roots
  let listed := names ++ missing
  let dictionary := if request.project ∈ listed then listed else listed ++ [request.project]
  let project ← dictionaryIndex dictionary request.project
  let roots ← request.roots.mapM (dictionaryIndex dictionary)
  return assembled prepared parent missing dictionary project roots

/-! ## Artifacts -/

/-- What an artifact answers for: the publication, the schema and the selection. -/
structure GeometryArtifactKey where
  source : WorldPublicationId
  projectionSchema : Bytes
  selection : Bytes
  deriving DecidableEq

/-- Whether an artifact can be read. -/
inductive GeometryReadiness where
  | pending
  | ready
  | unavailable (reason : UnavailableReason)
  deriving DecidableEq

/-- An immutable artifact. -/
structure GeometryArtifact where
  key : GeometryArtifactKey
  source : WorldPublicationId
  estimate : GeometryEstimate
  readiness : GeometryReadiness
  store : Option CompactGeometry

section Artifact

variable [Crypto]

/-- Bytes behind their length. -/
def pushBytes (bytes : Bytes) : Bytes := Bytes.be64 bytes.length ++ bytes

/-- The digest of a project and its roots.  The source panics where the two fill no vector; no
such name fits in memory. -/
def selectionFingerprint (project : Text) (roots : List Text) : Bytes :=
  Crypto.deriveKey (Bytes.ofString "lait.issues.geometry-selection.v3")
    ((sortDedup roots).foldl (fun material root => material ++ pushBytes root)
      (pushBytes project ++ Bytes.be64 (sortDedup roots).length))

/-- The digest of the schema artifacts are compiled to. -/
def currentSchema : Bytes :=
  Crypto.deriveKey (Bytes.ofString "lait.issues.geometry-projection.v3") (Bytes.ofString
    "compact:u32;dictionary:one;nodes:columns;edges:columns;membership:csr;reads:paged")

/-- The key of the artifact a request asks for. -/
def GeometryRequest.key (request : GeometryRequest) : GeometryArtifactKey :=
  ⟨request.source, currentSchema, selectionFingerprint request.project request.roots⟩

/-- An artifact that says why there is none. -/
def GeometryArtifact.unavailable (request : GeometryRequest) (estimate : GeometryEstimate)
    (reason : UnavailableReason) : GeometryArtifact :=
  ⟨request.key, request.source, estimate, .unavailable reason, none⟩

/-- The bytes an artifact retains. -/
def GeometryArtifact.retainedBytes (artifact : GeometryArtifact) : ℕ :=
  (artifact.store.map CompactGeometry.retainedBytes).getD 0

/-- The artifact of a request over the facts. -/
def materialize (request : GeometryRequest) (facts : GeometryFacts) : GeometryArtifact :=
  let request := request.canonicalized
  if request.source ≠ facts.source then
    .unavailable request .zero (.sourceMismatch request.source facts.source)
  else
    match prepare request facts with
    | .error reason => .unavailable request .zero reason
    | .ok prepared =>
        if request.budget.contains prepared.estimate then
          match compileCompact request prepared with
          | .ok store => ⟨request.key, request.source, prepared.estimate, .ready, some store⟩
          | .error reason => .unavailable request prepared.estimate reason
        else .unavailable request prepared.estimate
          (.budgetExceeded request.budget prepared.estimate)

/-- A request and facts that materialize to a readable artifact with these columns. -/
def Ready (request : GeometryRequest) (facts : GeometryFacts) (store : CompactGeometry) : Prop :=
  (materialize request facts).readiness = .ready ∧ (materialize request facts).store = some store

/-- What a readable artifact was compiled from. -/
theorem Ready.compiled {request : GeometryRequest} {facts : GeometryFacts}
    {store : CompactGeometry} (h : Ready request facts store) :
    ∃ prepared, prepare request.canonicalized facts = .ok prepared ∧
      compileCompact request.canonicalized prepared = .ok store := by
  obtain ⟨-, hstore⟩ := h
  simp only [materialize] at hstore
  split at hstore
  case isTrue => cases hstore
  case isFalse =>
      split at hstore
      case h_1 => cases hstore
      case h_2 prepared hprepare =>
          split at hstore
          case isFalse => cases hstore
          case isTrue =>
              split at hstore
              case h_2 => cases hstore
              case h_1 compiled hcompile =>
                  obtain rfl := Option.some.inj hstore
                  exact ⟨prepared, hprepare, hcompile⟩

/-- What is computed from the columns of an artifact is computed from readable ones. -/
theorem exists_ready {request : GeometryRequest} {facts : GeometryFacts} {α : Type*}
    {f : CompactGeometry → α} {x : α} (h : (materialize request facts).store.map f = some x) :
    ∃ store, Ready request facts store ∧ f store = x := by
  obtain ⟨store, hstore, hx⟩ := Option.map_eq_some_iff.mp h
  refine ⟨store, ⟨?_, hstore⟩, hx⟩
  simp only [materialize] at hstore ⊢
  split at hstore
  case isTrue => cases hstore
  case isFalse hsource =>
      rw [if_neg hsource]
      split at hstore
      case h_1 => cases hstore
      case h_2 prepared hprepare =>
          split at hstore
          case isFalse => cases hstore
          case isTrue hbudget =>
              simp only [if_pos hbudget]
              split at hstore
              case h_2 => cases hstore
              case h_1 => rfl

end Artifact

/-! ## A small project -/

/-- An open issue of a project, named by a letter. -/
def sampleIssue (name : String) : GeometryIssueFact :=
  ⟨Bytes.ofString name, Bytes.ofString "project", false, none⟩

/-- A relation between two issues. -/
def sampleRelation (fromName relation toName : String) : GeometryRelationFact :=
  ⟨Bytes.ofString fromName, Bytes.ofString relation, Bytes.ofString toName⟩

/-- Issues and relations of one publication. -/
def sampleFacts (names : List String) (relations : List (String × String × String)) :
    GeometryFacts :=
  ⟨Bytes.ofString "world", names.map sampleIssue,
    relations.map fun (fromName, relation, toName) => sampleRelation fromName relation toName⟩

/-- All of the project, under the default budget. -/
def sampleRequest : GeometryRequest :=
  ⟨Bytes.ofString "world", Bytes.ofString "project", [], ⟨2000000, 8000000, 50000000, 536870912⟩⟩

end Lait.Issues.Geometry
