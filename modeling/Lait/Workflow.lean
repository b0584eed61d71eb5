import Lait.DemandCodec

/-!
# Workflow revisions

A project's workflow is a table of states and transitions.  A transition carries a
**demand template**, a demand over placeholders for the Space and for the project; it
may be taken by whoever satisfies the demand the template resolves to, and that demand
goes to the authority plane as its canonical bytes.

`WorkflowBody.validate` is what a revision has to pass to be built or read.  Its check
of a template (`DemandTemplate.validate`) looks at each node as it is written, while
the encoder looks at the dissolved demand and at its bytes.  So a validated template may
resolve to a demand that has no bytes; `Encodable` is what is missing.
-/

namespace Lait

namespace Workflow

open Demand AllAny AuthorizationDemand

def MAX_PROJECT_ID : ℕ := 64
def MAX_STATES : ℕ := 512
def MAX_TRANSITIONS : ℕ := 4096
def MAX_WORKFLOW_NAME_BYTES : ℕ := 256
def MAX_STATE_NAME_BYTES : ℕ := 256

/-- `contract::MAX_NAME_BYTES`. -/
def MAX_CONTRACT_NAME_BYTES : ℕ := 4 * 1024

/-- `contract::MAX_PRESENTATION_TOKEN_BYTES`. -/
def MAX_PRESENTATION_TOKEN_BYTES : ℕ := 256

/-- `contract::valid_name`. -/
def validDisplayName (value : Text) : Bool :=
  (Bytes.trim value).length ≠ 0 && value.length ≤ MAX_CONTRACT_NAME_BYTES

/-! ## The World -/

/-- One label of a World id. -/
def validLabel (label : List UInt8) : Bool :=
  !label.isEmpty && label.head? ≠ some 45 && label.getLast? ≠ some 45 &&
    label.all fun b => (97 ≤ b && b ≤ 122) || (48 ≤ b && b ≤ 57) || b = 45

/-- `WorldId::parse`: reverse-domain form. -/
def parseWorldId (s : Text) : Option Text :=
  if s.length < 3 ∨ 63 < s.length then none
  else
    let labels := s.data.splitOn 46
    if labels.length < 2 then none
    else if labels.all validLabel then some s
    else none

/-- What is put together from pieces has no bytes but theirs and the separator's. -/
theorem mem_intercalate {x b : UInt8} {pieces : List (List UInt8)}
    (h : b ∈ [x].intercalate pieces) : b = x ∨ ∃ piece ∈ pieces, b ∈ piece := by
  induction pieces with
  | nil => cases h
  | cons piece pieces ih =>
      cases pieces with
      | nil =>
          rw [List.intercalate_singleton] at h
          exact Or.inr ⟨piece, List.mem_cons_self, h⟩
      | cons next pieces =>
          rw [List.intercalate_cons_cons] at h
          rcases List.mem_append.mp h with h | h
          · rcases List.mem_append.mp h with h | h
            · exact Or.inr ⟨piece, List.mem_cons_self, h⟩
            · exact Or.inl (List.mem_singleton.mp h)
          · rcases ih h with h | ⟨piece', hpiece, h⟩
            · exact Or.inl h
            · exact Or.inr ⟨piece', List.mem_cons_of_mem _ hpiece, h⟩

/-- A World id is a name of the authority plane. -/
theorem validName_of_parseWorldId {s w : Text} (h : parseWorldId s = some w) :
    w = s ∧ validName s = true := by
  unfold parseWorldId at h
  split at h
  case isTrue => cases h
  case isFalse hlen =>
    dsimp only at h
    split at h
    case isTrue => cases h
    case isFalse =>
      split at h
      case isFalse => cases h
      case isTrue hlabels =>
        cases h
        refine ⟨rfl, ?_⟩
        have hbytes : ∀ b ∈ s.data, ((97 ≤ b && b ≤ 122) || (48 ≤ b && b ≤ 57) || b = 46 ||
            b = 95 || b = 45) = true := by
          intro b hb
          have hsplit : [46].intercalate (s.data.splitOn 46) = s.data := List.intercalate_splitOn 46
          rw [← hsplit] at hb
          rcases mem_intercalate hb with rfl | ⟨label, hlabel, hb⟩
          · decide
          · have hvalid := List.all_eq_true.mp hlabels label hlabel
            unfold validLabel at hvalid
            rw [Bool.and_eq_true] at hvalid
            have hchar : ∀ b : UInt8, ((97 ≤ b && b ≤ 122) || (48 ≤ b && b ≤ 57) || b = 45) = true →
                ((97 ≤ b && b ≤ 122) || (48 ≤ b && b ≤ 57) || b = 46 || b = 95 || b = 45) = true := by
              decide +kernel
            exact hchar b (List.all_eq_true.mp hvalid.2 b hb)
        unfold validName MAX_NAME_BYTES
        rw [Bool.and_eq_true, Bool.and_eq_true, decide_eq_true_eq, decide_eq_true_eq]
        exact ⟨⟨by omega, by omega⟩, List.all_eq_true.mpr hbytes⟩

/-! ## Templates -/

/-- A bounded resource placeholder: the Space, or the issue's project. -/
inductive ResourceTemplate
  | space
  | project
  deriving DecidableEq

/-- The bounded demand template a transition stores. -/
inductive DemandTemplate
  | require (capability : Text) (resource : ResourceTemplate)
  | all (children : List DemandTemplate)
  | any (children : List DemandTemplate)

/-- `Resource::segments`. -/
def resourceSegments (world : Text) (segments : List Text) : Except Invalid Resource := do
  let resource : Resource := ⟨world, segments⟩
  resource.validate
  return resource

namespace DemandTemplate

mutual

/-- Resolve against the Space and a concrete project id, in the World served.  `none`
is the panic of `expect("validated project resource")`. -/
def resolve (world projectId : Text) : DemandTemplate → Option AuthorizationDemand
  | require capability resource =>
      match resource with
      | .space => some (.require ⟨world, capability⟩ (Resource.root world))
      | .project =>
          match resourceSegments world [projectId] with
          | .ok res => some (.require ⟨world, capability⟩ res)
          | .error _ => none
  | all children => (resolveEach world projectId children).map .all
  | any children => (resolveEach world projectId children).map .any

def resolveEach (world projectId : Text) : List DemandTemplate → Option (List AuthorizationDemand)
  | [] => some []
  | child :: children =>
      match resolve world projectId child with
      | none => none
      | some demand => (resolveEach world projectId children).map (demand :: ·)

end

mutual

/-- Structural validation: capability grammar, non-empty composites, bounded depth. -/
def validate : DemandTemplate → ℕ → Bool
  | require capability _, depth => if 8 < depth then false else validName capability
  | all children, depth =>
      if 8 < depth then false
      else !children.isEmpty && children.length ≤ 32 && validateEach children (depth + 1)
  | any children, depth =>
      if 8 < depth then false
      else !children.isEmpty && children.length ≤ 32 && validateEach children (depth + 1)

def validateEach : List DemandTemplate → ℕ → Bool
  | [], _ => true
  | child :: children, depth => validate child depth && validateEach children depth

end

end DemandTemplate

/-! ## Bodies -/

/-- A workflow state. -/
structure WorkflowState where
  stateId : Text
  name : Text
  category : Text
  color : Text

/-- A workflow transition. -/
structure WorkflowTransition where
  transitionId : Text
  sourceStateIds : List Text
  destinationStateId : Text
  demandTemplate : DemandTemplate

/-- The complete canonical workflow body. -/
structure WorkflowBody where
  projectId : Text
  name : Text
  states : List WorkflowState
  transitions : List WorkflowTransition
  tombstone : Bool

/-- `windows(2).all(|w| w[0] < w[1])`. -/
def ascending : List Text → Bool
  | a :: b :: rest => a < b && ascending (b :: rest)
  | _ => true

/-- The grammar of state and transition ids: 1 to 64 bytes of `[a-z0-9._-]`. -/
def validId (s : Text) : Bool :=
  s.length ≠ 0 && s.length ≤ 64 &&
    s.data.all fun b => (97 ≤ b && b ≤ 122) || (48 ≤ b && b ≤ 57) || b = 46 || b = 95 || b = 45

/-- A text in backticks between two others. -/
def quoting (before s after : Text) : Text := before ++ ⟨[96]⟩ ++ s ++ ⟨[96]⟩ ++ after

def WorkflowState.validate (s : WorkflowState) : Except Text Unit :=
  if ¬ validId s.stateId ∨ ¬ validDisplayName s.name ∨ MAX_STATE_NAME_BYTES < s.name.length ∨
      MAX_PRESENTATION_TOKEN_BYTES < s.color.length ∨
      ¬ (s.category = Bytes.ofString "backlog" ∨ s.category = Bytes.ofString "active" ∨
        s.category = Bytes.ofString "done") then
    .error (quoting (Bytes.ofString "unknown state category ") s.category Bytes.empty)
  else .ok ()

/-- A search among the state ids, which are sorted, finds those there are. -/
def WorkflowTransition.validate (stateIds : List Text) (t : WorkflowTransition) :
    Except Text Unit := do
  if ¬ validId t.transitionId then
    throw (quoting (Bytes.ofString "invalid transition id ") t.transitionId Bytes.empty)
  if t.sourceStateIds.isEmpty ∨ ¬ ascending t.sourceStateIds then
    throw (Bytes.ofString "transition sources must be sorted, unique, non-empty")
  t.sourceStateIds.forM fun s =>
    if ¬ stateIds.contains s then
      .error (quoting (Bytes.ofString "transition source ") s (Bytes.ofString " names no state"))
    else .ok ()
  if ¬ stateIds.contains t.destinationStateId then
    throw (quoting (Bytes.ofString "transition destination ") t.destinationStateId
      (Bytes.ofString " names no state"))
  if ¬ t.demandTemplate.validate 0 then
    throw (quoting (Bytes.ofString "transition ") t.transitionId
      (Bytes.ofString " carries an invalid demand template"))

/-- Structural validation. -/
def WorkflowBody.validate (body : WorkflowBody) : Except Text Unit := do
  if body.projectId.length = 0 ∨ MAX_PROJECT_ID < body.projectId.length then
    throw (Bytes.ofString "invalid project id")
  if ¬ validDisplayName body.name ∨ MAX_WORKFLOW_NAME_BYTES < body.name.length then
    throw (Bytes.ofString "invalid workflow name")
  if body.states.isEmpty ∨ MAX_STATES < body.states.length then
    throw (Bytes.ofString "a workflow needs at least one state")
  if ¬ ascending (body.states.map WorkflowState.stateId) then
    throw (Bytes.ofString "states must be sorted by unique state_id")
  body.states.forM WorkflowState.validate
  if MAX_TRANSITIONS < body.transitions.length then
    throw (Bytes.ofString "workflow has too many transitions")
  if ¬ ascending (body.transitions.map WorkflowTransition.transitionId) then
    throw (Bytes.ofString "transitions must be sorted by unique transition_id")
  body.transitions.forM (WorkflowTransition.validate (body.states.map WorkflowState.stateId))

/-! ## What a template resolves to -/

/-- A project id within the bounds of a workflow body. -/
structure AcceptedProjectId (projectId : Text) : Prop where
  nonempty : projectId.length ≠ 0
  short : projectId.length ≤ MAX_PROJECT_ID
  utf8 : Bytes.validUtf8 projectId.data = true

namespace DemandTemplate

mutual

/-- The expression a template is. -/
def tree : DemandTemplate → AllAny (Text × ResourceTemplate)
  | require capability resource => .leaf (capability, resource)
  | all children => .node true (trees children)
  | any children => .node false (trees children)

def trees : List DemandTemplate → List (AllAny (Text × ResourceTemplate))
  | [] => []
  | child :: children => tree child :: trees children

end

/-- What a placeholder stands for. -/
def resolveLeaf (world projectId : Text) (leaf : Text × ResourceTemplate) : Requirement :=
  (⟨world, leaf.1⟩, match leaf.2 with
    | .space => Resource.root world
    | .project => ⟨world, [projectId]⟩)

/-- The leaf a requirement was resolved from. -/
def templateLeaf (requirement : Requirement) : Text × ResourceTemplate :=
  (requirement.1.name, if requirement.2.segments = [] then .space else .project)

theorem templateLeaf_resolveLeaf (world projectId : Text) :
    Function.LeftInverse templateLeaf (resolveLeaf world projectId) := by
  rintro ⟨capability, resource⟩
  cases resource <;> rfl

section Resolve

variable {world projectId : Text}

mutual

/-- Resolving replaces the leaves. -/
theorem tree_resolve {t : DemandTemplate} {d : AuthorizationDemand}
    (h : t.resolve world projectId = some d) :
    d.tree = t.tree.map (resolveLeaf world projectId) := by
  cases t with
  | require capability resource =>
      cases resource with
      | space =>
          cases h
          rfl
      | project =>
          rw [resolve] at h
          split at h
          case h_1 res hres =>
            obtain ⟨⟨⟩, -, hpure⟩ := bind_eq_ok.mp hres
            cases hpure
            cases h
            rfl
          case h_2 => cases h
  | all children =>
      rw [resolve] at h
      obtain ⟨ds, hds, rfl⟩ := Option.map_eq_some_iff.mp h
      rw [AuthorizationDemand.tree, tree, AllAny.map, trees_resolveEach hds]
  | any children =>
      rw [resolve] at h
      obtain ⟨ds, hds, rfl⟩ := Option.map_eq_some_iff.mp h
      rw [AuthorizationDemand.tree, tree, AllAny.map, trees_resolveEach hds]

theorem trees_resolveEach {l : List DemandTemplate} {ds : List AuthorizationDemand}
    (h : resolveEach world projectId l = some ds) :
    AuthorizationDemand.trees ds = maps (resolveLeaf world projectId) (trees l) := by
  cases l with
  | nil =>
      cases h
      rfl
  | cons t l =>
      rw [resolveEach] at h
      split at h
      case h_1 => cases h
      case h_2 d hd =>
        obtain ⟨rest, hrest, rfl⟩ := Option.map_eq_some_iff.mp h
        rw [AuthorizationDemand.trees, trees, maps, tree_resolve hd, trees_resolveEach hrest]

end

/-- The project placeholder resolves when the project id is a resource segment. -/
theorem resourceSegments_eq_ok_iff (hworld : validName world = true)
    (hproject : AcceptedProjectId projectId) :
    (∃ res, resourceSegments world [projectId] = .ok res) ↔ projectId ≠ wildcard := by
  have hshort := hproject.short
  unfold MAX_PROJECT_ID at hshort
  constructor
  · rintro ⟨res, hres⟩ hwild
    obtain ⟨⟨⟩, hvalid, -⟩ := bind_eq_ok.mp hres
    have hsegment := (Resource.validate_eq_ok_iff.mp hvalid).2.2.1 projectId (by simp)
    rw [Resource.validateSegment, hwild] at hsegment
    revert hsegment
    decide
  · intro hwild
    refine ⟨⟨world, [projectId]⟩, bind_eq_ok.mpr ⟨(), ?_, rfl⟩⟩
    refine Resource.validate_eq_ok_iff.mpr ⟨hworld, by simp [MAX_RESOURCE_SEGMENTS], ?_, ?_⟩
    · intro s hs
      rw [List.mem_singleton.mp hs, Resource.validateSegment, if_neg, if_neg hwild]
      rintro (hzero | hlong)
      · exact hproject.nonempty hzero
      · unfold MAX_SEGMENT_BYTES at hlong
        omega
    · have hsum : ([projectId].map Bytes.length).sum = projectId.length := by simp
      dsimp only
      rw [hsum]
      unfold MAX_RESOURCE_BYTES
      omega

mutual

/-- Resolving does not panic exactly when no placeholder stands for a project that is no
resource segment. -/
theorem exists_resolve_iff (hworld : validName world = true)
    (hproject : AcceptedProjectId projectId) (t : DemandTemplate) :
    (∃ d, t.resolve world projectId = some d) ↔
      t.tree.AllLeaves fun leaf => leaf.2 = .project → projectId ≠ wildcard := by
  cases t with
  | require capability resource =>
      cases resource with
      | space =>
          constructor
          · intro _ h
            cases h
          · exact fun _ => ⟨_, rfl⟩
      | project =>
          have hsegments := resourceSegments_eq_ok_iff hworld hproject
          constructor
          · rintro ⟨d, hd⟩ -
            rw [resolve] at hd
            split at hd
            case h_1 res hres => exact hsegments.mp ⟨res, hres⟩
            case h_2 => cases hd
          · intro h
            obtain ⟨res, hres⟩ := hsegments.mpr (h rfl)
            exact ⟨.require ⟨world, capability⟩ res, by rw [resolve, hres]⟩
  | all children =>
      rw [resolve, tree, AllLeaves, ← exists_resolveEach_iff hworld hproject children]
      simp
  | any children =>
      rw [resolve, tree, AllLeaves, ← exists_resolveEach_iff hworld hproject children]
      simp

theorem exists_resolveEach_iff (hworld : validName world = true)
    (hproject : AcceptedProjectId projectId) (l : List DemandTemplate) :
    (∃ ds, resolveEach world projectId l = some ds) ↔
      AllLeavesOf (fun leaf => leaf.2 = .project → projectId ≠ wildcard) (trees l) := by
  cases l with
  | nil => exact ⟨fun _ => trivial, fun _ => ⟨[], rfl⟩⟩
  | cons t l =>
      rw [trees, AllLeavesOf, ← exists_resolve_iff hworld hproject t,
        ← exists_resolveEach_iff hworld hproject l, resolveEach]
      cases ht : t.resolve world projectId with
      | none => simp
      | some d => simp

end

mutual

/-- The capabilities of a validated template are names. -/
theorem validName_of_validate {t : DemandTemplate} {depth : ℕ} (h : t.validate depth = true) :
    t.tree.AllLeaves fun leaf => validName leaf.1 = true := by
  cases t with
  | require capability resource =>
      rw [validate] at h
      split at h
      case isTrue => cases h
      case isFalse => exact h
  | all children =>
      rw [validate] at h
      split at h
      case isTrue => cases h
      case isFalse =>
        rw [Bool.and_eq_true] at h
        exact validNames_of_validateEach h.2
  | any children =>
      rw [validate] at h
      split at h
      case isTrue => cases h
      case isFalse =>
        rw [Bool.and_eq_true] at h
        exact validNames_of_validateEach h.2

theorem validNames_of_validateEach {l : List DemandTemplate} {depth : ℕ}
    (h : validateEach l depth = true) :
    AllLeavesOf (fun leaf => validName leaf.1 = true) (trees l) := by
  cases l with
  | nil => trivial
  | cons t l =>
      rw [validateEach, Bool.and_eq_true] at h
      exact ⟨validName_of_validate h.1, validNames_of_validateEach h.2⟩

end

/-- The number of bytes a requirement takes once it is resolved. -/
def leafSize (world projectId : Text) (leaf : Text × ResourceTemplate) : ℕ :=
  match leaf.2 with
  | .space => 6 + world.length + leaf.1.length
  | .project => 8 + world.length + leaf.1.length + projectId.length

/-- The template has a demand and the demand has bytes: with nesting of one kind
dissolved, there are at most eight levels, at most thirty-two children on a node and no
two that say the same, at most 128 requirements and at most 16 KiB; and the project is
not the wildcard, unless the template does not ask for it. -/
structure Encodable (world projectId : Text) (t : DemandTemplate) : Prop where
  levels : t.tree.Fits MAX_CHILDREN MAX_DEMAND_DEPTH
  leaves : t.tree.leafCount ≤ MAX_REQUIRE_LEAVES
  bytes : weight (leafSize world projectId) 3 4 t.tree ≤ MAX_DEMAND_BYTES
  project : t.tree.AllLeaves fun leaf => leaf.2 = .project → projectId ≠ wildcard

theorem requirementSize_resolveLeaf (world projectId : Text) :
    requirementSize ∘ resolveLeaf world projectId = leafSize world projectId := by
  funext leaf
  obtain ⟨capability, resource⟩ := leaf
  cases resource with
  | space => simp [requirementSize, resolveLeaf, leafSize, Resource.root]
  | project =>
      simp only [requirementSize, resolveLeaf, leafSize, Function.comp_apply, List.map_cons,
        List.map_nil, List.sum_cons, List.sum_nil]
      omega

theorem utf8Segments_resolveLeaf (hproject : AcceptedProjectId projectId)
    (leaf : Text × ResourceTemplate) : Utf8Segments (resolveLeaf world projectId leaf) := by
  obtain ⟨capability, resource⟩ := leaf
  intro s hs
  cases resource with
  | space => exact absurd hs List.not_mem_nil
  | project =>
      rw [List.mem_singleton.mp hs]
      exact hproject.utf8

/-- A valid capability resolves to a valid requirement where the project is a segment. -/
theorem validRequirement_resolveLeaf (hworld : validName world = true)
    (hproject : AcceptedProjectId projectId) {leaf : Text × ResourceTemplate}
    (hname : validName leaf.1 = true) (h : leaf.2 = .project → projectId ≠ wildcard) :
    ValidRequirement (resolveLeaf world projectId leaf) := by
  obtain ⟨capability, resource⟩ := leaf
  have hcapability : PolicyCapability.validate ⟨world, capability⟩ = .ok () :=
    PolicyCapability.validate_eq_ok_iff.mpr ⟨hworld, hname⟩
  cases resource with
  | space =>
      refine ⟨hcapability, Resource.validate_eq_ok_iff.mpr ⟨hworld, ?_, ?_, ?_⟩, rfl⟩
      · exact Nat.zero_le _
      · exact fun s hs => absurd hs List.not_mem_nil
      · exact Nat.zero_le _
  | project =>
      obtain ⟨res, hres⟩ := (resourceSegments_eq_ok_iff hworld hproject).mpr (h rfl)
      obtain ⟨⟨⟩, hvalid, -⟩ := bind_eq_ok.mp hres
      exact ⟨hcapability, hvalid, rfl⟩

/-- **A transition of a valid template** can be asked for in the bytes of its demand
exactly when the template is encodable. -/
theorem exists_encodeCanonical_resolve_iff (hworld : validName world = true)
    (hproject : AcceptedProjectId projectId) {t : DemandTemplate} (hvalid : t.validate 0 = true) :
    (∃ d b d', t.resolve world projectId = some d ∧ d.encodeCanonical = .ok b ∧
        decodeCanonical b = .ok d') ↔ t.Encodable world projectId := by
  have hinverse := templateLeaf_resolveLeaf world projectId
  have hnames := validName_of_validate hvalid
  have hutf8 : (t.tree.map (resolveLeaf world projectId)).AllLeaves Utf8Segments :=
    (allLeaves_map _).mpr (hnames.combine (fun leaf _ _ => utf8Segments_resolveLeaf hproject leaf)
      hnames)
  constructor
  · rintro ⟨d, b, -, hd, hb, -⟩
    have htree := tree_resolve hd
    have hdemand : d.Utf8 := by
      rw [Utf8, htree]
      exact hutf8
    obtain ⟨-, hfits, hcount, hsize⟩ := (exists_encodeCanonical_iff hdemand).mp ⟨b, hb⟩
    rw [htree, fits_map_iff hinverse] at hfits
    rw [htree, leafCount_map] at hcount
    rw [htree, treeSize, weight_map, requirementSize_resolveLeaf] at hsize
    exact ⟨hfits, hcount, hsize, (exists_resolve_iff hworld hproject t).mp ⟨d, hd⟩⟩
  · intro h
    obtain ⟨d, hd⟩ := (exists_resolve_iff hworld hproject t).mpr h.project
    have htree := tree_resolve hd
    have hdemand : d.Utf8 := by
      rw [Utf8, htree]
      exact hutf8
    have hrequirements : d.tree.AllLeaves ValidRequirement := by
      rw [htree]
      exact (allLeaves_map _).mpr (hnames.combine
        (fun leaf hname h => validRequirement_resolveLeaf hworld hproject hname h) h.project)
    obtain ⟨b, hb⟩ := (exists_encodeCanonical_iff hdemand).mpr ⟨hrequirements, by
      rw [htree, fits_map_iff hinverse]
      exact h.levels, by
      rw [htree, leafCount_map]
      exact h.leaves, by
      rw [htree, treeSize, weight_map, requirementSize_resolveLeaf]
      exact h.bytes⟩
    obtain ⟨d', hd', -, -⟩ := decodeCanonical_of_encodeCanonical hdemand hb
    exact ⟨d, b, d', hd, hb, hd'⟩

end Resolve

end DemandTemplate

/-! ## Transitions of a valid workflow -/

/-- Every template of a valid body is valid. -/
theorem validate_demandTemplate {body : WorkflowBody} (hbody : body.validate = .ok ())
    {t : WorkflowTransition} (ht : t ∈ body.transitions) : t.demandTemplate.validate 0 = true := by
  unfold WorkflowBody.validate at hbody
  obtain ⟨-, hbody⟩ := guard_eq_ok.mp hbody
  obtain ⟨-, hbody⟩ := guard_eq_ok.mp hbody
  obtain ⟨-, hbody⟩ := guard_eq_ok.mp hbody
  obtain ⟨-, hbody⟩ := guard_eq_ok.mp hbody
  obtain ⟨-, -, hbody⟩ := bind_eq_ok.mp hbody
  obtain ⟨-, hbody⟩ := guard_eq_ok.mp hbody
  obtain ⟨-, hbody⟩ := guard_eq_ok.mp hbody
  dsimp only at hbody
  have hone := forM_eq_ok_iff.mp hbody t ht
  unfold WorkflowTransition.validate at hone
  obtain ⟨-, hone⟩ := guard_eq_ok.mp hone
  obtain ⟨-, hone⟩ := guard_eq_ok.mp hone
  obtain ⟨-, -, hone⟩ := bind_eq_ok.mp hone
  obtain ⟨-, hone⟩ := guard_eq_ok.mp hone
  exact Decidable.not_not.mp (check_eq_ok.mp hone)

/-- **A transition of a valid workflow** resolves, for a project of the World, to a demand
whose bytes the authority plane reads, exactly when its template is encodable there. -/
theorem valid_transition_takeable_iff {world projectId : Text} {body : WorkflowBody}
    {t : WorkflowTransition} (hworld : parseWorldId world = some world)
    (hbody : body.validate = .ok ()) (ht : t ∈ body.transitions)
    (hproject : AcceptedProjectId projectId) :
    (∃ d b d', t.demandTemplate.resolve world projectId = some d ∧ d.encodeCanonical = .ok b ∧
        decodeCanonical b = .ok d') ↔ t.demandTemplate.Encodable world projectId :=
  DemandTemplate.exists_encodeCanonical_resolve_iff (validName_of_parseWorldId hworld).2 hproject
    (validate_demandTemplate hbody ht)

/-- The World the product declares. -/
def DECLARED_WORLD : Text := Bytes.ofString "com.lait.issues"

/-- One state, and one transition from it to itself. -/
def oneTransition (projectId : Text) (template : DemandTemplate) : WorkflowBody where
  projectId
  name := Bytes.ofString "w"
  states := [⟨Bytes.ofString "open", Bytes.ofString "Open", Bytes.ofString "active", Bytes.empty⟩]
  transitions :=
    [⟨Bytes.ofString "again", [Bytes.ofString "open"], Bytes.ofString "open", template⟩]
  tombstone := false

/-- A project id as they are minted. -/
def sampleProject : Text := Bytes.ofString "prj_00000000000000000000000000"

/-- To be a contributor, at the Space. -/
def contributor : DemandTemplate := .require (Bytes.ofString "space.contributor") .space

/-- A workflow that asks for the same twice is valid, and its transition has no demand
that encodes. -/
theorem valid_workflow_bricks_transition :
    ∃ t ∈ (oneTransition sampleProject (.all [contributor, contributor])).transitions,
      parseWorldId DECLARED_WORLD = some DECLARED_WORLD ∧
      (oneTransition sampleProject (.all [contributor, contributor])).validate = .ok () ∧
      AcceptedProjectId sampleProject ∧
      ¬ ∃ d b d', t.demandTemplate.resolve DECLARED_WORLD sampleProject = some d ∧
        d.encodeCanonical = .ok b ∧ decodeCanonical b = .ok d' := by
  refine ⟨_, List.mem_singleton_self _, by decide, by decide, ⟨by decide, by decide, by decide⟩, ?_⟩
  rintro ⟨d, b, -, hd, hb, -⟩
  have htree := DemandTemplate.tree_resolve hd
  obtain ⟨hbytes, -, -⟩ := encodeCanonical_eq_ok_iff.mp hb
  have hnone : encodeTree MAX_DEMAND_DEPTH d.tree = none := by
    rw [htree]
    decide
  rw [hnone] at hbytes
  cases hbytes

/-- A transition that asks to be a contributor may be taken. -/
theorem contributor_takes_transition :
    ∃ d b d', contributor.resolve DECLARED_WORLD sampleProject = some d ∧
      d.encodeCanonical = .ok b ∧ decodeCanonical b = .ok d' := by
  have hiff := valid_transition_takeable_iff
    (show parseWorldId DECLARED_WORLD = some DECLARED_WORLD by decide)
    (show (oneTransition sampleProject contributor).validate = .ok () by decide)
    (List.mem_singleton_self _)
    (show AcceptedProjectId sampleProject from ⟨by decide, by decide, by decide⟩)
  refine hiff.mpr ⟨?_, by decide, by decide, ?_⟩
  · exact trivial
  · exact fun _ => by decide

end Workflow

end Lait
