import Lait.OrderedMap
import Lait.Issues.Geometry.Compile

/-!
# The artifact registry

Artifacts are shared by key.  A poll answers from what is retained, from a terminal refusal,
or with pending while the key is being built; otherwise it marks the key and its source and
elects a build.  The build is handed to the executor, which may refuse it; a worker later
retains what came of it and, in a second locked section, clears the marks.

Every function here is one locked section of the source.  What a worker finds and whether
the memory authority keeps its reservation are told from outside, and so is the order in
which the sections of different builds come (`Step`).
-/

namespace Lait.Issues.Geometry

open Lait (Text BTreeMap Crypto)

/-! ## Keys and artifacts -/

/-- The derived order: the source first. -/
def GeometryArtifactKey.fields (key : GeometryArtifactKey) : Bytes ×ₗ Bytes ×ₗ Bytes :=
  toLex (key.source, toLex (key.projectionSchema, key.selection))

theorem GeometryArtifactKey.fields_injective : Function.Injective GeometryArtifactKey.fields := by
  rintro ⟨source, schema, selection⟩ ⟨source', schema', selection'⟩ h
  obtain ⟨hsource, hrest⟩ := Prod.mk.inj (toLex.injective h)
  obtain ⟨hschema, hselection⟩ := Prod.mk.inj (toLex.injective hrest)
  subst hsource hschema hselection
  rfl

instance : LinearOrder GeometryArtifactKey :=
  LinearOrder.lift' GeometryArtifactKey.fields GeometryArtifactKey.fields_injective

/-- The budget workers compile under. -/
def GeometryBudget.standard : GeometryBudget := ⟨2000000, 8000000, 50000000, 512 * 1024 * 1024⟩

/-- The artifact with a reason in place of its columns. -/
def GeometryArtifact.refused (artifact : GeometryArtifact) (reason : UnavailableReason) :
    GeometryArtifact :=
  { artifact with readiness := .unavailable reason, store := none }

section Keys

variable [Crypto]

/-- The artifact of a build that is not done. -/
def GeometryArtifact.pending (request : GeometryRequest) (estimate : GeometryEstimate) :
    GeometryArtifact :=
  ⟨request.canonicalized.key, request.source, estimate, .pending, none⟩

/-- An artifact, or its refusal under the budget of the caller. -/
def admitBudget (request : GeometryRequest) (artifact : GeometryArtifact) : GeometryArtifact :=
  if request.budget.contains artifact.estimate then artifact
  else .unavailable request artifact.estimate (.budgetExceeded request.budget artifact.estimate)

omit [Crypto] in
theorem sortDedup_idem {α : Type*} [LinearOrder α] (values : List α) :
    sortDedup (sortDedup values) = sortDedup values := by
  have hsorted : (sortDedup values).Pairwise (· ≤ ·) :=
    (List.pairwise_insertionSort (· ≤ ·) values).sublist (List.dedup_sublist _)
  rw [sortDedup, hsorted.insertionSort_eq, List.dedup_eq_self.mpr (nodup_sortDedup values)]

theorem canonicalized_key (request : GeometryRequest) : request.canonicalized.key = request.key := by
  simp only [GeometryRequest.key, GeometryRequest.canonicalized, selectionFingerprint,
    sortDedup_idem]

/-- An artifact answers for the request it was materialized for. -/
theorem materialize_key (request : GeometryRequest) (facts : GeometryFacts) :
    (materialize request facts).key = request.key := by
  rw [← canonicalized_key request, materialize]
  split
  · rfl
  · split
    · rfl
    · split
      · split <;> rfl
      · rfl

end Keys

/-! ## The state -/

/-- A retained artifact or a terminal refusal. -/
structure CachedGeometry where
  artifact : GeometryArtifact
  retainedBytes : ℕ
  lastUsed : ℕ

/-- What a registry may hold. -/
structure GeometryCacheLimits where
  entries : ℕ
  retainedBytes : ℕ
  workers : ℕ
  queuedBuilds : ℕ

def MAX_TERMINAL_GEOMETRY_RESULTS : ℕ := 64

/-- What the lock guards. -/
structure GeometryRegistryState where
  artifacts : BTreeMap GeometryArtifactKey CachedGeometry
  terminal : BTreeMap GeometryArtifactKey CachedGeometry
  building : Finset GeometryArtifactKey
  activeSources : Finset WorldPublicationId
  retainedBytes : ℕ
  clock : ℕ

namespace GeometryRegistryState

/-- The state of a new registry. -/
def empty : GeometryRegistryState := ⟨∅, ∅, ∅, ∅, 0, 0⟩

/-- One more use. -/
def tick (state : GeometryRegistryState) : GeometryRegistryState :=
  { state with clock := saturatingAdd state.clock 1 }

/-- A retained artifact is used. -/
def touch (state : GeometryRegistryState) (key : GeometryArtifactKey) (cached : CachedGeometry) :
    GeometryRegistryState :=
  { state with artifacts := state.artifacts.insert key { cached with lastUsed := state.clock } }

/-- A refusal is used. -/
def touchTerminal (state : GeometryRegistryState) (key : GeometryArtifactKey)
    (cached : CachedGeometry) : GeometryRegistryState :=
  { state with terminal := state.terminal.insert key { cached with lastUsed := state.clock } }

/-- What is held for a key, without electing a build. -/
def get (state : GeometryRegistryState) (key : GeometryArtifactKey) :
    Option GeometryArtifact × GeometryRegistryState :=
  match state.tick.artifacts[key]? with
  | some cached => (some cached.artifact, state.tick.touch key cached)
  | none =>
      match state.tick.terminal[key]? with
      | some cached => (some cached.artifact, state.tick.touchTerminal key cached)
      | none => (none, state.tick)

/-- The key used longest ago. -/
def leastUsed (held : BTreeMap GeometryArtifactKey CachedGeometry) : Option GeometryArtifactKey :=
  (held.toList.argmin fun entry => entry.2.lastUsed).map Prod.fst

/-- One artifact is given up. -/
def giveUp (state : GeometryRegistryState) (victim : GeometryArtifactKey) :
    GeometryRegistryState :=
  match state.artifacts[victim]? with
  | some evicted =>
      { state with
        artifacts := state.artifacts.erase victim
        retainedBytes := state.retainedBytes - evicted.retainedBytes }
  | none => state

/-- Artifacts are given up until the limits hold.  There are as many turns as artifacts. -/
def evict (limits : GeometryCacheLimits) : ℕ → GeometryRegistryState → GeometryRegistryState
  | 0, state => state
  | fuel + 1, state =>
      if limits.entries < state.artifacts.size ∨ limits.retainedBytes < state.retainedBytes then
        match leastUsed state.artifacts with
        | some victim => evict limits fuel (state.giveUp victim)
        | none => state
      else state

/-- Refusals are dropped until there are few enough. -/
def boundTerminal : ℕ → GeometryRegistryState → GeometryRegistryState
  | 0, state => state
  | fuel + 1, state =>
      if MAX_TERMINAL_GEOMETRY_RESULTS < state.terminal.size then
        match leastUsed state.terminal with
        | some victim =>
            boundTerminal fuel { state with terminal := state.terminal.erase victim }
        | none => state
      else state

/-- A refusal is kept for polls to come. -/
def refuse (state : GeometryRegistryState) (key : GeometryArtifactKey)
    (artifact : GeometryArtifact) : GeometryRegistryState :=
  let state := { state with terminal := state.terminal.insert key ⟨artifact, 0, state.clock⟩ }
  boundTerminal state.terminal.size state

/-- An artifact is kept, and others are given up for it. -/
def keep (limits : GeometryCacheLimits) (state : GeometryRegistryState)
    (key : GeometryArtifactKey) (artifact : GeometryArtifact) : GeometryRegistryState :=
  let state := { state with
    retainedBytes := saturatingAdd state.retainedBytes artifact.retainedBytes
    artifacts := state.artifacts.insert key ⟨artifact, artifact.retainedBytes, state.clock⟩ }
  evict limits state.artifacts.size state

/-- What came of a build is retained or its refusal is; `memory` is the verdict on its
reservation, where it has one. -/
def retainShared (limits : GeometryCacheLimits) (state : GeometryRegistryState)
    (artifact : GeometryArtifact) (memory : Option Bool) : GeometryRegistryState :=
  let state := state.tick
  match artifact.readiness with
  | .unavailable _ => state.refuse artifact.key artifact
  | readiness =>
      if readiness = .ready ∧
          (limits.entries = 0 ∨ limits.retainedBytes < artifact.retainedBytes) then
        state.refuse artifact.key
          (artifact.refused (.retentionExceeded artifact.retainedBytes limits.retainedBytes))
      else if memory = some false then
        state.refuse artifact.key (artifact.refused (.memoryCapacity artifact.retainedBytes))
      else state.keep limits artifact.key artifact

section Poll

variable [Crypto]

/-- A build is elected. -/
def mark (state : GeometryRegistryState) (request : GeometryRequest) : GeometryRegistryState :=
  { state with
    building := insert request.key state.building
    activeSources := insert request.source state.activeSources }

/-- The first locked section of a poll: an answer, or nothing when a build is elected. -/
def poll (limits : GeometryCacheLimits) (state : GeometryRegistryState)
    (request : GeometryRequest) (pendingEstimate : GeometryEstimate) :
    Option GeometryArtifact × GeometryRegistryState :=
  let request := request.canonicalized
  let key := request.key
  let state := state.tick
  match state.artifacts[key]? with
  | some cached => (some (admitBudget request cached.artifact), state.touch key cached)
  | none =>
      match state.terminal[key]? with
      | some cached => (some cached.artifact, state.touchTerminal key cached)
      | none =>
          if key ∈ state.building then (some (.pending request pendingEstimate), state)
          else if request.source ∈ state.activeSources then
            (some (.unavailable request pendingEstimate
              (.executorSaturated (max limits.workers 1) limits.queuedBuilds)), state)
          else
            (none, state.mark request)

/-- A build is over. -/
def clear (state : GeometryRegistryState) (request : GeometryRequest) : GeometryRegistryState :=
  { state with
    building := state.building.erase request.key
    activeSources := state.activeSources.erase request.source }

end Poll

end GeometryRegistryState

/-! ## Builds -/

/-- How far a build has come. -/
inductive BuildPhase where
  | reserved
  | queued
  | retained
  deriving DecidableEq

/-- A build in flight: what is compiled, the estimate its poll came with, and whether it holds
a reservation of memory. -/
structure Build where
  request : GeometryRequest
  pendingEstimate : GeometryEstimate
  reservation : Bool
  phase : BuildPhase

/-- The request a worker compiles for a poll. -/
def GeometryRequest.worker (request : GeometryRequest) : GeometryRequest :=
  { request.canonicalized with budget := .standard }

/-- What a worker finds. -/
inductive Outcome where
  | facts (facts : GeometryFacts)
  | refused (reason : UnavailableReason)
  | panicked

section Steps

variable [Crypto]

/-- The artifact a worker makes of what it finds. -/
def Build.artifact (build : Build) : Outcome → GeometryArtifact
  | .facts facts => materialize build.request facts
  | .refused reason => .unavailable build.request build.pendingEstimate reason
  | .panicked => .unavailable build.request build.pendingEstimate .buildFailed

/-- A registry with its builds in flight. -/
structure GeometryRegistry where
  state : GeometryRegistryState
  builds : List Build

/-- A new registry. -/
def GeometryRegistry.new : GeometryRegistry := ⟨.empty, []⟩

/-- What can happen to a registry. -/
inductive Event where
  | get (key : GeometryArtifactKey)
  | poll (request : GeometryRequest) (pendingEstimate : GeometryEstimate) (reservation : Bool)
  | queue (build : Build)
  | refuse (build : Build)
  | retain (build : Build) (outcome : Outcome) (kept : Bool)
  | clear (build : Build)

/-- One locked section, or one job handed to the executor. -/
inductive Step (limits : GeometryCacheLimits) :
    GeometryRegistry → Event → GeometryRegistry → Prop
  | get (registry : GeometryRegistry) (key : GeometryArtifactKey) :
      Step limits registry (.get key) { registry with state := (registry.state.get key).2 }
  | answer (registry : GeometryRegistry) {request : GeometryRequest}
      {pendingEstimate : GeometryEstimate} (reservation : Bool) {artifact : GeometryArtifact}
      (h : (registry.state.poll limits request pendingEstimate).1 = some artifact) :
      Step limits registry (.poll request pendingEstimate reservation)
        { registry with state := (registry.state.poll limits request pendingEstimate).2 }
  | elect (registry : GeometryRegistry) {request : GeometryRequest}
      {pendingEstimate : GeometryEstimate} (reservation : Bool)
      (h : (registry.state.poll limits request pendingEstimate).1 = none) :
      Step limits registry (.poll request pendingEstimate reservation)
        { state := (registry.state.poll limits request pendingEstimate).2
          builds := ⟨request.worker, pendingEstimate, reservation, .reserved⟩ :: registry.builds }
  | queue (state : GeometryRegistryState) {before after : List Build} {build : Build}
      (h : build.phase = .reserved) :
      Step limits ⟨state, before ++ build :: after⟩ (.queue build)
        ⟨state, before ++ { build with phase := .queued } :: after⟩
  | refuse (state : GeometryRegistryState) {before after : List Build} {build : Build}
      (h : build.phase = .reserved) :
      Step limits ⟨state, before ++ build :: after⟩ (.refuse build)
        ⟨state.clear build.request, before ++ after⟩
  | retain (state : GeometryRegistryState) {before after : List Build} {build : Build}
      (outcome : Outcome) (kept : Bool) (h : build.phase = .queued) :
      Step limits ⟨state, before ++ build :: after⟩ (.retain build outcome kept)
        ⟨state.retainShared limits (build.artifact outcome)
          (if build.reservation then some kept else none),
          before ++ { build with phase := .retained } :: after⟩
  | clear (state : GeometryRegistryState) {before after : List Build} {build : Build}
      (h : build.phase = .retained) :
      Step limits ⟨state, before ++ build :: after⟩ (.clear build)
        ⟨state.clear build.request, before ++ after⟩

/-- The registries reached from a new one through steps of a kind. -/
inductive Reachable (limits : GeometryCacheLimits) (allowed : GeometryRegistry → Event → Prop) :
    GeometryRegistry → Prop
  | new : Reachable limits allowed .new
  | step {registry registry' : GeometryRegistry} {event : Event}
      (h : Reachable limits allowed registry) (hallowed : allowed registry event)
      (hstep : Step limits registry event registry') : Reachable limits allowed registry'

end Steps

end Lait.Issues.Geometry
