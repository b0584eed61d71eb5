import Lait.Acl.Law

/-!
# The two replay paths

`replayCheckpointed` replays a whole op set: index the verified ops, walk them in
topological order judging each against the standing so far, and materialize what
was authorized.  `replayContinue` extends a checkpoint by the ops it does not
hold, on condition that every one of them comes causally after all of it.

Both walk with the same verdict, `verdictAt`, and materialize with the same
second pass.  `replayCheckpointed_judged` is the bridge to the transition system
of pass 1: whatever a replay authorized is a `JudgedRun` that ends in the pass-1
state the checkpoint records.
-/

namespace Lait

namespace Acl

/-- The complete materialization plus the provenance a continuation resumes
from. -/
@[ext] structure ReplayCheckpoint where
  state : AclState
  verdicts : List (Text × Bool)
  heads : List Text
  admins : Finset ActorId
  humans : Finset ActorId
  agentsNow : BTreeMap ActorId ActorId
  epochGens : BTreeMap Text ℕ
  policy : PolicyPass

/-- The maximal ops of a node set, in hash order. -/
def headsOf (nodes : Nodes) : List Text :=
  let referenced := nodes.toList.flatMap fun entry =>
    entry.2.parents.filter fun p => nodes.contains p
  Bytes.sort (nodes.keys.filter fun h => h ∉ referenced)

/-- What is fixed while pass 1 walks: the space and its founders, the actor
events, the indexed ops and their ancestors. -/
structure Walk where
  genesis : Genesis
  events : List Actor.SignedEvent
  nodes : Nodes
  ancestors : Ancestors

/-- An audit row.  An op that does not decode is shown as unknown. -/
def auditEntry (h : Text) (so : SignedOp) (op : Option AclOp) (ok : Bool) : AuditEntry where
  hash := h
  author := so.author
  by_ := op.map AclOp.by_
  kind := (op.map fun o => o.action.kindLabel).getD (Bytes.ofString "unknown")
  subject := op.bind fun o => o.action.actor
  grants := op.bind fun o => o.action.auditGrants
  authorized := ok

/-- The hashes with a favourable verdict. -/
def honoured (verdicts : List (Text × Bool)) : List Text :=
  (verdicts.filter Prod.snd).map Prod.fst

theorem honoured_append (v v' : List (Text × Bool)) :
    honoured (v ++ v') = honoured v ++ honoured v' := by
  simp [honoured]

theorem honoured_cons (h : Text) (ok : Bool) (v : List (Text × Bool)) :
    honoured ((h, ok) :: v) = (if ok then [h] else []) ++ honoured v := by
  cases ok <;> simp [honoured]

/-- The order of a complete walk lists present nodes. -/
theorem Walk.present_of_mem_order {walk : Walk} {h : Text} (hh : h ∈ topoOrder walk.nodes) :
    ∃ so, walk.nodes[h]? = some so :=
  Nodes.mem_graph.mp (mem_topoOrder.mp hh)

section Replay

variable [Crypto] [Postcard Actor.ActorOp] [Postcard AclOp]

namespace Walk

/-- The decoded op under a hash. -/
def decoded (walk : Walk) (h : Text) : Option AclOp := walk.nodes.opOf h

/-- Whether the signing device speaks for the claimed actor at the declared
frontier.  The source memoises this by the sorted frontier. -/
def deviceSpeaksFor (walk : Walk) (device : DeviceId) (actor : ActorId) (asof : List Text) :
    Bool :=
  (Actor.replayAt walk.genesis.spaceId walk.events asof).isDeviceOf actor device

/-- The verdict on the op under `h` at standing `s`. -/
def verdictAt (walk : Walk) (s : PassOne) (h : Text) : Bool :=
  match walk.nodes[h]?, walk.decoded h with
  | some so, some op =>
      walk.deviceSpeaksFor so.author op.by_ op.actorAsof &&
        judgeOp op h walk.genesis.founders s walk.ancestors
  | _, _ => false

/-- Apply the op under `h` if its verdict is favourable. -/
def advance (walk : Walk) (s : PassOne) (h : Text) : PassOne :=
  if walk.verdictAt s h then
    match walk.decoded h with
    | some op => applyAuthorized op h s
    | none => s
  else s

end Walk

/-- The accumulators of the complete replay's loop. -/
structure ReplayLoop where
  standing : PassOne
  authorized : List Text
  audit : List AuditEntry

/-- One turn of the complete replay's loop. -/
def ReplayLoop.step (walk : Walk) (acc : ReplayLoop) (h : Text) : ReplayLoop :=
  match walk.nodes[h]? with
  | none => acc
  | some so =>
      let ok := walk.verdictAt acc.standing h
      { standing := walk.advance acc.standing h
        authorized := if ok then acc.authorized ++ [h] else acc.authorized
        audit := acc.audit ++ [auditEntry h so (walk.decoded h) ok] }

/-- The walk of a complete replay. -/
def Walk.complete (genesis : Genesis) (events : List Actor.SignedEvent) (ops : List SignedOp) :
    Walk :=
  let nodes := indexVerified ACL_DOMAIN genesis.spaceId ops
  { genesis, events, nodes, ancestors := computeAncestors nodes }

def replayCheckpointed (genesis : Genesis) (events : List Actor.SignedEvent)
    (ops : List SignedOp) : ReplayCheckpoint × List AuditEntry :=
  let walk := Walk.complete genesis events ops
  let acc := (topoOrder walk.nodes).foldl (ReplayLoop.step walk)
    ⟨PassOne.init genesis.founders, [], []⟩
  ({ state := materializeAuthorized genesis walk.decoded walk.ancestors acc.authorized
     verdicts := acc.audit.map fun e => (e.hash, e.authorized)
     heads := headsOf walk.nodes
     admins := acc.standing.admins
     humans := acc.standing.humans
     agentsNow := acc.standing.agentsNow
     epochGens := acc.standing.epochGens
     policy := acc.standing.policy }, acc.audit)

/-- The materialized state alone. -/
def replay (genesis : Genesis) (events : List Actor.SignedEvent) (ops : List SignedOp) :
    AclState :=
  (replayCheckpointed genesis events ops).1.state

/-! ## The strict-descendant continuation -/

/-- The accumulators of the continuation's loop. -/
structure ContinueLoop where
  standing : PassOne
  authorized : List Text
  verdicts : List (Text × Bool)

/-- One turn of the continuation's loop. -/
def ContinueLoop.step (walk : Walk) (acc : ContinueLoop) (h : Text) : ContinueLoop :=
  let ok := walk.verdictAt acc.standing h
  { standing := walk.advance acc.standing h
    authorized := if ok then acc.authorized ++ [h] else acc.authorized
    verdicts := acc.verdicts ++ [(h, ok)] }

/-- The standing a checkpoint resumes from.  The admission flag is read back out
of the materialized state. -/
def ReplayCheckpoint.standing (cp : ReplayCheckpoint) : PassOne where
  admins := cp.admins
  humans := cp.humans
  agentsNow := cp.agentsNow
  epochGens := cp.epochGens
  policy := cp.policy
  memberAdmission := cp.state.readMemberAdmission

/-- The split of a continuation's input: checkpointed ops are taken on trust,
the others must verify.  All nodes first, then the suffix. -/
def splitSuffix (spaceId : SpaceId) (prior : Text → Bool) (ops : List SignedOp) :
    Nodes × Nodes :=
  ops.foldl (fun acc so =>
    if prior so.hash then (acc.1.insert so.hash so, acc.2)
    else if so.verifySig ACL_DOMAIN spaceId then
      (acc.1.insert so.hash so, acc.2.insert so.hash so)
    else acc) (∅, ∅)

/-- The domination test on one suffix op: if it reaches outside the suffix, or
is a root, it names all prior heads; and all its parents are present. -/
def dominated (prior : Text → Bool) (heads : List Text) (nodes suffix : Nodes)
    (so : SignedOp) : Bool :=
  let reachesOut := so.parents.any fun p => !suffix.contains p || prior p
  (!(reachesOut || so.parents.isEmpty) || heads.all fun h => h ∈ so.parents) &&
    so.parents.all fun p => nodes.contains p

def replayContinue (prior : ReplayCheckpoint) (priorActorEventHashes : Finset Text)
    (genesis : Genesis) (events : List Actor.SignedEvent) (ops : List SignedOp) :
    Option (ReplayCheckpoint × List AuditEntry) :=
  if (events.map SignedNode.hash).toFinset ≠ priorActorEventHashes then none
  else
    let priorSet := fun h => (prior.verdicts.map Prod.fst).contains h
    let (nodes, suffix) := splitSuffix genesis.spaceId priorSet ops
    if nodes.size ≠ prior.verdicts.length + suffix.size then none
    else if ¬ (BTreeMap.valuesOf suffix).all (dominated priorSet prior.heads nodes suffix) then none
    else
      let walk : Walk := { genesis, events, nodes, ancestors := computeAncestors nodes }
      let acc := (topoOrder suffix).foldl (ContinueLoop.step walk)
        ⟨prior.standing, (prior.verdicts.filter Prod.snd).map Prod.fst, prior.verdicts⟩
      some ({ state := materializeAuthorized genesis walk.decoded walk.ancestors acc.authorized
              verdicts := acc.verdicts
              heads := headsOf nodes
              admins := acc.standing.admins
              humans := acc.standing.humans
              agentsNow := acc.standing.agentsNow
              epochGens := acc.standing.epochGens
              policy := acc.standing.policy },
        acc.verdicts.filterMap fun v =>
          nodes[v.1]?.map fun so => auditEntry v.1 so (walk.decoded v.1) v.2)

/-! ## The loops in closed form

Both loops keep a standing, a list of verdicts and what is read off the
verdicts.  `verdictsFrom` and `standingFrom` are the first two on their own; the
rest is `honoured` and `auditOf`. -/

/-- The verdicts a walk gives a list of hashes, starting at standing `s`. -/
def Walk.verdictsFrom (walk : Walk) : PassOne → List Text → List (Text × Bool)
  | _, [] => []
  | s, h :: l => (h, walk.verdictAt s h) :: walk.verdictsFrom (walk.advance s h) l

/-- The standing after a list of hashes. -/
def Walk.standingFrom (walk : Walk) (s : PassOne) (l : List Text) : PassOne :=
  l.foldl walk.advance s

/-- The audit rows of a list of verdicts. -/
def Walk.auditOf (walk : Walk) (verdicts : List (Text × Bool)) : List AuditEntry :=
  verdicts.filterMap fun v =>
    walk.nodes[v.1]?.map fun so => auditEntry v.1 so (walk.decoded v.1) v.2

namespace Walk

variable {walk : Walk}

theorem verdictsFrom_append (s : PassOne) (l₁ l₂ : List Text) :
    walk.verdictsFrom s (l₁ ++ l₂) =
      walk.verdictsFrom s l₁ ++ walk.verdictsFrom (walk.standingFrom s l₁) l₂ := by
  induction l₁ generalizing s with
  | nil => rfl
  | cons h l₁ ih =>
      rw [List.cons_append, verdictsFrom, ih]
      rfl

theorem verdictsFrom_concat (s : PassOne) (l : List Text) (h : Text) :
    walk.verdictsFrom s (l ++ [h]) =
      walk.verdictsFrom s l ++ [(h, walk.verdictAt (walk.standingFrom s l) h)] := by
  rw [verdictsFrom_append]
  rfl

theorem standingFrom_append (s : PassOne) (l₁ l₂ : List Text) :
    walk.standingFrom s (l₁ ++ l₂) = walk.standingFrom (walk.standingFrom s l₁) l₂ :=
  List.foldl_append

theorem map_fst_verdictsFrom (s : PassOne) (l : List Text) :
    (walk.verdictsFrom s l).map Prod.fst = l := by
  induction l generalizing s with
  | nil => rfl
  | cons h l ih => rw [verdictsFrom, List.map_cons, ih]

/-- Judged at the same standing, an op fares alike in two walks that hold it and
its ancestors alike. -/
theorem verdictAt_congr {walk' : Walk} (hgenesis : walk.genesis = walk'.genesis)
    (hevents : walk.events = walk'.events) {h : Text} (hsame : walk.nodes.SameAt walk'.nodes h)
    (hhas : ∀ a, walk.ancestors.has h a = walk'.ancestors.has h a) (s : PassOne) :
    walk.verdictAt s h = walk'.verdictAt s h := by
  have hdecoded : walk.decoded h = walk'.decoded h := hsame.opOf_eq
  have hceiling : s.genCeiling walk.ancestors h = s.genCeiling walk'.ancestors h := by
    simp only [PassOne.genCeiling, hhas]
  have hspeaks : ∀ device actor asof,
      walk.deviceSpeaksFor device actor asof = walk'.deviceSpeaksFor device actor asof := by
    intro device actor asof
    rw [deviceSpeaksFor, deviceSpeaksFor, hgenesis, hevents]
  have hjudge : ∀ op, judgeOp op h walk.genesis.founders s walk.ancestors =
      judgeOp op h walk'.genesis.founders s walk'.ancestors := by
    intro op
    rw [hgenesis]
    unfold judgeOp
    rw [hceiling]
  rw [Nodes.SameAt] at hsame
  rw [verdictAt, verdictAt, hdecoded]
  cases hn : walk.nodes[h]? <;> cases hn' : walk'.nodes[h]? <;> simp only [hn, hn',
    Option.map_some, Option.map_none, Option.some.injEq, reduceCtorEq] at hsame ⊢
  cases walk'.decoded h with
  | none => rfl
  | some op => simp only [hspeaks, hjudge, SignedNode.author_of_content hsame]

end Walk

/-- The complete replay's loop. -/
theorem foldl_replayLoop {walk : Walk} (l : List Text) (acc : ReplayLoop)
    (hl : ∀ h ∈ l, ∃ so, walk.nodes[h]? = some so) :
    l.foldl (ReplayLoop.step walk) acc =
      { standing := walk.standingFrom acc.standing l
        authorized := acc.authorized ++ honoured (walk.verdictsFrom acc.standing l)
        audit := acc.audit ++ walk.auditOf (walk.verdictsFrom acc.standing l) } := by
  induction l generalizing acc with
  | nil => simp [Walk.standingFrom, Walk.verdictsFrom, honoured, Walk.auditOf]
  | cons h l ih =>
      obtain ⟨so, hso⟩ := hl h List.mem_cons_self
      rw [List.foldl_cons, ih _ fun k hk => hl k (List.mem_cons_of_mem _ hk)]
      simp only [ReplayLoop.step, hso, Walk.verdictsFrom, honoured_cons, Walk.auditOf,
        List.filterMap_cons, Option.map_some, List.append_assoc, List.singleton_append,
        ReplayLoop.mk.injEq]
      refine ⟨rfl, ?_, trivial⟩
      split <;> simp

/-- The continuation's loop. -/
theorem foldl_continueLoop {walk : Walk} (l : List Text) (acc : ContinueLoop) :
    l.foldl (ContinueLoop.step walk) acc =
      { standing := walk.standingFrom acc.standing l
        authorized := acc.authorized ++ honoured (walk.verdictsFrom acc.standing l)
        verdicts := acc.verdicts ++ walk.verdictsFrom acc.standing l } := by
  induction l generalizing acc with
  | nil => simp [Walk.standingFrom, Walk.verdictsFrom, honoured]
  | cons h l ih =>
      rw [List.foldl_cons, ih]
      simp only [ContinueLoop.step, Walk.verdictsFrom, honoured_cons, List.append_assoc,
        List.singleton_append, ContinueLoop.mk.injEq]
      refine ⟨rfl, ?_, trivial⟩
      split <;> simp

/-- The checkpoint of a walk that ended at a standing with some verdicts. -/
def Walk.checkpoint (walk : Walk) (standing : PassOne) (verdicts : List (Text × Bool)) :
    ReplayCheckpoint where
  state := materializeAuthorized walk.genesis walk.decoded walk.ancestors (honoured verdicts)
  verdicts := verdicts
  heads := headsOf walk.nodes
  admins := standing.admins
  humans := standing.humans
  agentsNow := standing.agentsNow
  epochGens := standing.epochGens
  policy := standing.policy

omit [Crypto] [Postcard Actor.ActorOp] in
/-- The hashes an audit shows are the verdicts it was made from. -/
theorem Walk.map_auditOf {walk : Walk} {verdicts : List (Text × Bool)}
    (hl : ∀ v ∈ verdicts, ∃ so, walk.nodes[v.1]? = some so) :
    (walk.auditOf verdicts).map (fun e => (e.hash, e.authorized)) = verdicts := by
  induction verdicts with
  | nil => rfl
  | cons v verdicts ih =>
      obtain ⟨so, hso⟩ := hl v List.mem_cons_self
      have htail := ih fun w hw => hl w (List.mem_cons_of_mem _ hw)
      rw [Walk.auditOf] at htail ⊢
      rw [List.filterMap_cons, hso, Option.map_some, List.map_cons, htail]
      rfl

/-- **The complete replay in closed form.** -/
theorem replayCheckpointed_eq (genesis : Genesis) (events : List Actor.SignedEvent)
    (ops : List SignedOp) :
    let walk := Walk.complete genesis events ops
    let start := PassOne.init genesis.founders
    let verdicts := walk.verdictsFrom start (topoOrder walk.nodes)
    replayCheckpointed genesis events ops =
      (walk.checkpoint (walk.standingFrom start (topoOrder walk.nodes)) verdicts,
        walk.auditOf verdicts) := by
  intro walk start verdicts
  have hpresent : ∀ v ∈ verdicts, ∃ so, walk.nodes[v.1]? = some so := fun v hv =>
    Walk.present_of_mem_order (Walk.map_fst_verdictsFrom start (topoOrder walk.nodes) ▸
      List.mem_map_of_mem hv)
  have hloop := foldl_replayLoop (topoOrder walk.nodes) ⟨start, [], []⟩
    fun _ hh => Walk.present_of_mem_order hh
  simp only [List.nil_append] at hloop
  have hverdicts : (walk.auditOf (walk.verdictsFrom start (topoOrder walk.nodes))).map
      (fun e => (e.hash, e.authorized)) = verdicts := Walk.map_auditOf hpresent
  simp only [replayCheckpointed]
  rw [hloop]
  simp only [hverdicts]
  rfl

/-! ## A replay as its authorized ops -/

/-- The ops a complete replay authorizes, in order. -/
def authorizedOps (genesis : Genesis) (events : List Actor.SignedEvent) (ops : List SignedOp) :
    Authorized :=
  resolve (Walk.complete genesis events ops).decoded
    (honoured (replayCheckpointed genesis events ops).1.verdicts)

/-- The verified ops. -/
def opNodes (genesis : Genesis) (ops : List SignedOp) : Nodes :=
  indexVerified ACL_DOMAIN genesis.spaceId ops

/-- The ancestor relation of the verified ops. -/
def opAncestors (genesis : Genesis) (ops : List SignedOp) : Ancestors :=
  computeAncestors (opNodes genesis ops)

/-- The standing after the last op. -/
def finalStanding (genesis : Genesis) (events : List Actor.SignedEvent) (ops : List SignedOp) :
    PassOne :=
  let walk := Walk.complete genesis events ops
  walk.standingFrom (PassOne.init genesis.founders) (topoOrder walk.nodes)

theorem replay_eq (genesis : Genesis) (events : List Actor.SignedEvent) (ops : List SignedOp) :
    replay genesis events ops =
      materializeAuthorized genesis (Walk.complete genesis events ops).decoded
        (opAncestors genesis ops) (honoured (replayCheckpointed genesis events ops).1.verdicts) := by
  simp only [replay, replayCheckpointed_eq]
  rfl

theorem functional_authorizedOps (genesis : Genesis) (events : List Actor.SignedEvent)
    (ops : List SignedOp) : Functional (authorizedOps genesis events ops) :=
  functional_resolve _ _

theorem map_fst_verdicts (genesis : Genesis) (events : List Actor.SignedEvent)
    (ops : List SignedOp) :
    (replayCheckpointed genesis events ops).1.verdicts.map Prod.fst =
      topoOrder (opNodes genesis ops) := by
  simp only [replayCheckpointed_eq]
  exact Walk.map_fst_verdictsFrom _ _

/-- An authorized op is a verified one that decodes, with a favourable verdict. -/
theorem mem_authorizedOps {genesis : Genesis} {events : List Actor.SignedEvent}
    {ops : List SignedOp} {h : Text} {op : AclOp} :
    (h, op) ∈ authorizedOps genesis events ops ↔
      (h, true) ∈ (replayCheckpointed genesis events ops).1.verdicts ∧
        (opNodes genesis ops).opOf h = some op := by
  rw [authorizedOps, mem_resolve, honoured]
  simp only [List.mem_map, List.mem_filter]
  constructor
  · rintro ⟨⟨⟨k, ok⟩, ⟨hmem, rfl⟩, rfl⟩, hop⟩
    exact ⟨hmem, hop⟩
  · rintro ⟨hmem, hop⟩
    exact ⟨⟨(h, true), ⟨hmem, rfl⟩, rfl⟩, hop⟩

theorem present_of_mem_authorizedOps {genesis : Genesis} {events : List Actor.SignedEvent}
    {ops : List SignedOp} {e : Text × AclOp} (he : e ∈ authorizedOps genesis events ops) :
    e.1 ∈ (opNodes genesis ops).graph.nodes := by
  have hmem := List.mem_map_of_mem (f := Prod.fst) (mem_authorizedOps.mp he).1
  rw [map_fst_verdicts] at hmem
  exact mem_topoOrder.mp hmem

/-- **The authorized ops stand in causal order**, one to a hash. -/
theorem causallyOrdered_authorizedOps {genesis : Genesis} (events : List Actor.SignedEvent)
    {ops : List SignedOp} (hacyc : (opNodes genesis ops).graph.Acyclic) :
    CausallyOrdered (opAncestors genesis ops) (authorizedOps genesis events ops) := by
  have hsub : (honoured (replayCheckpointed genesis events ops).1.verdicts).Sublist
      (topoOrder (opNodes genesis ops)) := by
    rw [← map_fst_verdicts genesis events ops, honoured]
    exact List.filter_sublist.map _
  have horder := ((nodup_topoOrder _).and (pairwise_topoOrder hacyc)).sublist hsub
  refine horder.filterMap _ fun h k hhk e he e' he' => ?_
  simp only [Option.map_eq_some_iff] at he he'
  obtain ⟨op, -, rfl⟩ := he
  obtain ⟨op', -, rfl⟩ := he'
  refine ⟨hhk.1, ?_⟩
  rw [← Bool.not_eq_true, opAncestors, has_computeAncestors]
  exact hhk.2

section Law

variable {genesis : Genesis} {events : List Actor.SignedEvent} {ops : List SignedOp}
  {a s : ActorId} {f : RekeyFence}

/-- The members of a replay are the actors who stand, and so does their sponsor. -/
theorem isMember_replay :
    (replay genesis events ops).isMember a = true ↔
      Stands genesis.founders (opAncestors genesis ops) (authorizedOps genesis events ops) a ∧
        ∀ s, SponsoredBy (authorizedOps genesis events ops) a s →
          Stands genesis.founders (opAncestors genesis ops) (authorizedOps genesis events ops) s := by
  rw [replay_eq]
  exact isMember_materialize

/-- The agents of a replay. -/
theorem agents_replay :
    (replay genesis events ops).agents[a]? = some s ↔
      Stands genesis.founders (opAncestors genesis ops) (authorizedOps genesis events ops) a ∧
        SponsoredBy (authorizedOps genesis events ops) a s ∧
          Stands genesis.founders (opAncestors genesis ops) (authorizedOps genesis events ops) s := by
  rw [replay_eq]
  exact agents_materialize

/-- The rekey fences of a replay: owed, and descended by no epoch in force. -/
theorem mem_rekeyFences_replay :
    f ∈ (replay genesis events ops).rekeyFences ↔
      f ∈ owedFences (opAncestors genesis ops) (authorizedOps genesis events ops) ∧
        ¬ ∃ m, InForce (authorizedOps genesis events ops) m ∧
          (opAncestors genesis ops).has m f.fence = true := by
  have hdischarged : discharged (opAncestors genesis ops) (materials genesis.foundingActors
      (authorizedOps genesis events ops)).epochs f = true ↔ _ := discharged_iff
  rw [replay_eq, ← hdischarged, Bool.not_eq_true]
  exact mem_rekeyFences

end Law

/-- A walk's honoured verdicts are a run of pass 1. -/
theorem Walk.judgedRun (walk : Walk) (l : List Text) :
    let start := PassOne.init walk.genesis.founders
    JudgedRun walk.genesis.founders walk.ancestors
      (resolve walk.decoded (honoured (walk.verdictsFrom start l))) (walk.standingFrom start l) := by
  intro start
  induction l using List.reverseRecOn with
  | nil => exact .start
  | append_singleton l h ih =>
      rw [verdictsFrom_append, standingFrom_append, honoured_append]
      set s := walk.standingFrom start l
      have hlast : honoured (walk.verdictsFrom s [h]) = if walk.verdictAt s h then [h] else [] := by
        rw [verdictsFrom, honoured_cons, verdictsFrom]
        simp [honoured]
      have hstanding : walk.standingFrom s [h] = walk.advance s h := rfl
      rw [hlast, hstanding, advance]
      cases hok : walk.verdictAt s h with
      | false => simpa using ih
      | true =>
          simp only [verdictAt] at hok
          split at hok
          next so op hso hop =>
            have hsplit : resolve walk.decoded (honoured (walk.verdictsFrom start l) ++ [h]) =
                resolve walk.decoded (honoured (walk.verdictsFrom start l)) ++ [(h, op)] := by
              simp [resolve, hop]
            simp only [if_true, hop]
            rw [hsplit]
            exact .step ih (Bool.and_eq_true_iff.mp hok).2
          next => cases hok

/-- **Pass 1 of a complete replay is a judged run.** -/
theorem replayCheckpointed_judged (genesis : Genesis) (events : List Actor.SignedEvent)
    (ops : List SignedOp) :
    JudgedRun genesis.founders (opAncestors genesis ops) (authorizedOps genesis events ops)
      (finalStanding genesis events ops) := by
  have hrun := (Walk.complete genesis events ops).judgedRun
    (topoOrder (Walk.complete genesis events ops).nodes)
  simp only [authorizedOps, replayCheckpointed_eq]
  exact hrun

end Replay

/-! ## A space to evaluate in

Concrete runs use the ideal primitives and three single-device actors, the first
two of them founders.  A run lists its ops; the codec is the table of them. -/

namespace Demo

def seed (n : UInt8) : Bytes := ⟨List.replicate 32 n⟩

def space : SpaceId := ⟨[119]⟩

/-- The inception of actor `n`. -/
def inceptOp (n : UInt8) : Actor.ActorOp :=
  letI := idealCrypto
  Actor.inceptSingleOp (seed n) space ⟨[n]⟩ ⟨[n]⟩ none

@[reducible] def actorCodec : Postcard Actor.ActorOp :=
  tableCodec [inceptOp 0, inceptOp 1, inceptOp 2]

def incept (n : UInt8) : Actor.SignedEvent × ActorId :=
  letI := idealCrypto
  letI := actorCodec
  Actor.inceptSingle (seed n) space ⟨[n]⟩ ⟨[n]⟩ none

def events : List Actor.SignedEvent := [(incept 0).1, (incept 1).1, (incept 2).1]

/-- The actor of seed `n`. -/
def actor (n : UInt8) : ActorId := (incept n).2

def genesis : Genesis := ⟨space, [actor 0, actor 1], ⟨[]⟩, ⟨[]⟩⟩

/-- An op actor `n` authors at its own inception. -/
def op (n : UInt8) (action : AclAction) (nonce : Option Bytes) : AclOp :=
  letI := idealCrypto
  ⟨action, actor n, [(incept n).1.hash], nonce⟩

/-- The signed form of the `i`th op of a table, authored by actor `n`. -/
def sign (n i : UInt8) (parents : List Text) : SignedOp :=
  letI := idealCrypto
  signNode ACL_DOMAIN (seed n) ⟨[i]⟩ parents space

/-- The address of an op. -/
def hash (so : SignedOp) : Text :=
  letI := idealCrypto
  so.hash

/-- Replay signed ops whose contents are listed in `table`. -/
def checkpoint (table : List AclOp) (ops : List SignedOp) : ReplayCheckpoint :=
  letI := idealCrypto
  letI := actorCodec
  letI := tableCodec table
  (replayCheckpointed genesis events ops).1

end Demo

end Acl

end Lait
