import Lait.Sigdag

/-!
# The actor plane

An actor is a self-managed set of device keys behind the content address of its
inception event.  `replay` folds the signed key-events of a space into a
`Directory`; `replayAt` does the same over the causal past of a frontier, and is
how the other planes decide whether a device spoke for an actor when it signed.

`replayInner` follows the source step by step:

* `incepts` — the valid inceptions: DAG roots of this space whose author is one
  of the devices and whose bindings all carry their device's consent;
* `validRecovers` — the commitment chain of each actor, walked in topological
  order;
* `strikes` — recovery supremacy: device events concurrent with a valid recovery
  of their actor are dropped;
* `applyEvent` — the topological pass that evolves device sets;
* `evictRevoked` — a revocation that no re-add has seen wins.

A device is compared by the case fold of its spelling, so the model keeps a set
of devices as the set of folds; no function here reads a spelling back out of
one.
-/

namespace Lait

namespace Actor

/-- The signing domain for actor key-events. -/
def ACTOR_DOMAIN : Bytes := Bytes.ofString "lait/actor/1"

/-- The signing domain for device-consent bindings. -/
def CONSENT_DOMAIN : Bytes := Bytes.ofString "lait/devbind/1"

/-- Cap on the frontier a claim may embed. -/
def MAX_ACTOR_ASOF : ℕ := 16

/-- A signed actor key-event. -/
abbrev SignedEvent := SignedNode

/-- A device key, a nonce, and the device's consent to the binding. -/
structure DeviceBinding where
  device : DeviceId
  nonce : Bytes
  consent : Bytes
  deriving DecidableEq

/-- An actor key-event. -/
inductive ActorOp
  | incept (space : Text) (nonce : Bytes) (devices : List DeviceBinding)
      (recoveryCommit : Option Bytes)
  | addDevice (actor : ActorId) (binding : DeviceBinding)
  | revokeDevice (actor : ActorId) (device : DeviceId)
  | recover (actor : ActorId) (devices : List DeviceBinding) (nextCommit : Option Bytes)
  deriving DecidableEq

/-- The actor an event belongs to; `none` for an inception, which defines one. -/
def ActorOp.actor : ActorOp → Option ActorId
  | incept .. => none
  | addDevice actor _ => some actor
  | revokeDevice actor _ => some actor
  | recover actor _ _ => some actor

/-- The context a device's consent signature covers. -/
inductive ConsentCtx
  | incept (inceptNonce : Bytes) (devices : List DeviceId) (recoveryCommit : Option Bytes)
  | member (actor : ActorId)

section Consent

variable [Crypto]

def consentPayload (space : Text) (device : DeviceId) (bindingNonce : Bytes)
    (ctx : ConsentCtx) : Bytes :=
  Crypto.blake3 (Bytes.join ([CONSENT_DOMAIN, space, device.asStr, bindingNonce] ++
    match ctx with
    | .incept inceptNonce devices recoveryCommit =>
        [Bytes.ofString "incept", inceptNonce] ++ Bytes.sort (devices.map DeviceId.asStr) ++
          match recoveryCommit with
          | some c => [Bytes.ofString "rc", c]
          | none => [Bytes.ofString "norc"]
    | .member actor => [Bytes.ofString "member", actor]))

/-- Verify a binding's consent signature under `ctx`. -/
def consentVerify (space : Text) (binding : DeviceBinding) (ctx : ConsentCtx) : Bool :=
  match Bytes.hex32 binding.device.asStr with
  | none => false
  | some pk =>
      Crypto.verifyingKey pk && Crypto.signature binding.consent &&
        Crypto.verifyStrict pk (consentPayload space binding.device binding.nonce ctx)
          binding.consent

/-- Produce a device's consent for a binding. -/
def consentSign (deviceSeed : Bytes) (space : Text) (bindingNonce : Bytes) (ctx : ConsentCtx) :
    DeviceBinding :=
  let device := DeviceId.fromKeyBytes (Crypto.publicKey deviceSeed)
  { device
    nonce := bindingNonce
    consent := Crypto.sign deviceSeed (consentPayload space device bindingNonce ctx) }

/-- The inception of a single-device actor. -/
def inceptSingleOp (deviceSeed : Bytes) (space : SpaceId) (nonce bindingNonce : Bytes)
    (recoveryCommit : Option Bytes) : ActorOp :=
  let device := DeviceId.fromKeyBytes (Crypto.publicKey deviceSeed)
  .incept space nonce
    [consentSign deviceSeed space bindingNonce (.incept nonce [device] recoveryCommit)]
    recoveryCommit

/-- The hash of an ed25519 public key. -/
def recoveryCommitment (recoveryPub : DeviceId) : Option Bytes :=
  (Bytes.hex32 recoveryPub.asStr).map Crypto.blake3

/-- Incept a single-device actor: the signed inception and the actor it
establishes. -/
def inceptSingle [Postcard ActorOp] (deviceSeed : Bytes) (space : SpaceId)
    (nonce bindingNonce : Bytes) (recoveryCommit : Option Bytes) : SignedEvent × ActorId :=
  let op := inceptSingleOp deviceSeed space nonce bindingNonce recoveryCommit
  let ev := signNode ACTOR_DOMAIN deviceSeed (Postcard.toStdvec op) [] space
  (ev, ActorId.fromInceptHash ev.hash)

end Consent

/-- The materialized state of one actor. -/
structure ActorState where
  devices : Finset Text
  recoveryCommit : Option Bytes
  recovered : Bool
  deriving DecidableEq

/-- The folds of the devices a list of bindings names. -/
def bindingDevices (devices : List DeviceBinding) : Finset Text :=
  (devices.map fun b => b.device.fold).toFinset

/-- Every validly incepted actor and its device set. -/
structure Directory where
  actors : BTreeMap ActorId ActorState

namespace Directory

def state (directory : Directory) (actor : ActorId) : Option ActorState :=
  directory.actors[actor]?

def «exists» (directory : Directory) (actor : ActorId) : Bool :=
  directory.actors.contains actor

/-- Whether `device` currently speaks for `actor`. -/
def isDeviceOf (directory : Directory) (actor : ActorId) (device : DeviceId) : Bool :=
  directory.actors[actor]?.any fun s => device.fold ∈ s.devices

end Directory

/-! ## Replay -/

/-- What the closures of `replay_inner` capture. -/
structure Log where
  ws : Text
  nodes : Nodes
  ancestors : Ancestors
  order : List Text
  incepts : BTreeMap ActorId Text

/-- The frontier events that are held, and their ancestors. -/
def frontierClosure (nodes : Nodes) (frontier : List Text) : Finset Text :=
  let ancestors := computeAncestors nodes
  frontier.foldl (fun keep f =>
    if nodes.contains f then insert f keep ∪ ancestors[f]?.getD ∅ else keep) ∅

/-- The closure holds the present frontier events and their ancestors. -/
theorem mem_frontierClosure {nodes : Nodes} {frontier : List Text} {h : Text} :
    h ∈ frontierClosure nodes frontier ↔
      ∃ f ∈ frontier, nodes.contains f = true ∧ (h = f ∨ nodes.graph.Ancestor h f) := by
  rw [frontierClosure]
  induction frontier using List.reverseRecOn with
  | nil => simp
  | append_singleton frontier f ih =>
      have hanc : ∀ a, a ∈ (computeAncestors nodes)[f]?.getD ∅ ↔ nodes.graph.Ancestor a f := by
        intro a
        rw [← has_computeAncestors, Ancestors.has]
        cases (computeAncestors nodes)[f]? <;> simp
      rw [List.foldl_append, List.foldl_cons, List.foldl_nil]
      simp only [List.mem_append, List.mem_singleton, or_and_right, exists_or, exists_eq_left]
      split
      next hf =>
        rw [Finset.mem_union, Finset.mem_insert, ih, hanc]
        simp only [hf, true_and]
        rw [or_assoc, or_left_comm]
      next hf => simp only [ih, hf, Bool.false_eq_true, false_and, or_false]

section Replay

variable [Crypto] [Postcard ActorOp]

/-- Whether a node is a valid inception of `ws`. -/
def validIncept (ws : Text) (node : SignedNode) : ActorOp → Bool
  | .incept space nonce devices recoveryCommit =>
      let keys := devices.map DeviceBinding.device
      space = ws && node.parents.isEmpty && keys.any (·.same node.author) &&
        devices.all fun b => consentVerify ws b (.incept nonce keys recoveryCommit)
  | _ => false

/-- The valid inceptions, by the actor each one defines. -/
def inceptsOf (ws : Text) (nodes : Nodes) : BTreeMap ActorId Text :=
  nodes.toList.foldl (fun incepts entry =>
    match (Postcard.fromBytes entry.2.op : Option ActorOp) with
    | some op =>
        if validIncept ws entry.2 op then
          incepts.insert (ActorId.fromInceptHash entry.1) entry.1
        else incepts
    | none => incepts) ∅

/-- Index the held events, cut to the frontier's closure when there is one. -/
def Log.build (spaceId : SpaceId) (events : List SignedEvent) (frontier : Option (List Text)) :
    Log :=
  let nodes := indexVerified ACTOR_DOMAIN spaceId events
  let nodes := match frontier with
    | some front =>
        let keep := frontierClosure nodes front
        nodes.filter fun h _ => h ∈ keep
    | none => nodes
  { ws := spaceId, nodes, ancestors := computeAncestors nodes, order := topoOrder nodes,
    incepts := inceptsOf spaceId nodes }

namespace Log

/-- Whether `h` is `actor`'s inception or descends from it. -/
def belongsTo (log : Log) (h : Text) (actor : ActorId) : Bool :=
  match log.incepts[actor]? with
  | some inceptH => inceptH = h || log.ancestors.has h inceptH
  | none => false

/-- The recovery commitment each inception installs. -/
def inceptCommits (log : Log) : BTreeMap ActorId (Option Bytes) :=
  log.incepts.toList.foldl (fun commits entry =>
    match (log.nodes.opOf entry.2 : Option ActorOp) with
    | some (.incept _ _ _ recoveryCommit) => commits.insert entry.1 recoveryCommit
    | _ => commits) ∅

/-- Whether the recovery `h` is commitment-valid against the standing
commitments. -/
def recoverValid (log : Log) (commits : BTreeMap ActorId (Option Bytes)) (h : Text)
    (actor : ActorId) (devices : List DeviceBinding) : Bool :=
  match log.nodes[h]?, log.incepts[actor]?, commits[actor]? with
  | some node, some inceptH, some (some commit) =>
      log.ancestors.has h inceptH && recoveryCommitment node.author = some commit &&
        devices.all fun b => consentVerify log.ws b (.member actor)
  | _, _, _ => false

/-- The commitment-valid recoveries, in topological order. -/
def validRecovers (log : Log) (strikes : Finset Text) : List (Text × ActorId) :=
  (log.order.foldl (fun acc h =>
    if h ∈ strikes then acc
    else match (log.nodes.opOf h : Option ActorOp) with
      | some (.recover actor devices nextCommit) =>
          if log.recoverValid acc.1 h actor devices then
            (acc.1.insert actor nextCommit, acc.2 ++ [(h, actor)])
          else acc
      | _ => acc) (log.inceptCommits, [])).2

/-- Whether the recovery `rh` of `actor` strikes `h`: a device event of the same
actor, concurrent with the recovery, and not the inception. -/
def struckBy (log : Log) (rh : Text) (actor : ActorId) (h : Text) : Bool :=
  h ≠ rh &&
    match (log.nodes.opOf h : Option ActorOp) with
    | none => false
    | some (.recover ..) => false
    | some op =>
        (match op with
          | .incept .. => log.incepts[actor]? = some h
          | _ => op.actor = some actor) &&
          log.incepts[actor]? ≠ some h &&
          !log.ancestors.has rh h && !log.ancestors.has h rh

/-- The recovery-wins pre-scan. -/
def strikes (log : Log) (recovers : List (Text × ActorId)) : Finset Text :=
  (recovers.flatMap fun r => log.order.filter fun h => log.struckBy r.1 r.2 h).toFinset

end Log

/-- The accumulators of the topological pass. -/
structure Pass where
  states : BTreeMap ActorId ActorState
  adds : List (ActorId × Text × Text)
  revokes : List (ActorId × Text × Text)
  consumed : Finset (ActorId × Text × Bytes)

/-- Install a list of bindings: spend their nonces and record the adds. -/
def Pass.install (pass : Pass) (actor : ActorId) (h : Text) (devices : List DeviceBinding) :
    Pass :=
  { pass with
    consumed := pass.consumed ∪
      (devices.map fun b => (actor, b.device.fold, b.nonce)).toFinset
    adds := pass.adds ++ devices.map fun b => (actor, b.device.fold, h) }

/-- One event of the topological pass. -/
def Log.applyEvent (log : Log) (recovers : List (Text × ActorId)) (pass : Pass) (h : Text) :
    Pass :=
  match log.nodes[h]? with
  | none => pass
  | some node =>
    match (Postcard.fromBytes node.op : Option ActorOp) with
    | none => pass
    | some (.incept _ _ devices recoveryCommit) =>
        let id := ActorId.fromInceptHash h
        if log.incepts[id]? ≠ some h then pass
        else
          let pass := pass.install id h devices
          { pass with states := pass.states.insert id ⟨bindingDevices devices, recoveryCommit, false⟩ }
    | some (.addDevice actor binding) =>
        match pass.states[actor]? with
        | none => pass
        | some st =>
            let token := (actor, binding.device.fold, binding.nonce)
            if log.belongsTo h actor ∧ node.author.fold ∈ st.devices ∧
                consentVerify log.ws binding (.member actor) ∧ token ∉ pass.consumed then
              { pass with
                consumed := insert token pass.consumed
                states := pass.states.insert actor
                  { st with devices := insert binding.device.fold st.devices }
                adds := pass.adds ++ [(actor, binding.device.fold, h)] }
            else pass
    | some (.revokeDevice actor device) =>
        match pass.states[actor]? with
        | none => pass
        | some st =>
            if log.belongsTo h actor ∧ node.author.fold ∈ st.devices then
              { pass with
                states := pass.states.insert actor
                  { st with devices := st.devices.erase device.fold }
                revokes := pass.revokes ++ [(actor, device.fold, h)] }
            else pass
    | some (.recover actor devices nextCommit) =>
        match pass.states[actor]? with
        | none => pass
        | some _ =>
            if recovers.any fun r => r.1 = h then
              let pass := pass.install actor h devices
              { pass with states :=
                  pass.states.insert actor ⟨bindingDevices devices, nextCommit, true⟩ }
            else pass

/-- Pass 2: a revoke not causally succeeded by a re-add evicts the device. -/
def Log.evictRevoked (log : Log) (pass : Pass) : BTreeMap ActorId ActorState :=
  pass.revokes.foldl (fun states r =>
    let readded := pass.adds.any fun a =>
      a.1 = r.1 && a.2.1 = r.2.1 && log.ancestors.has a.2.2 r.2.2
    if readded then states
    else match states[r.1]? with
      | some st => states.insert r.1 { st with devices := st.devices.erase r.2.1 }
      | none => states) pass.states

/-- Replay a log already indexed. -/
def Log.replay (log : Log) : Directory :=
  let recovers := log.validRecovers ∅
  let strikes := log.strikes recovers
  let pass := (log.order.filter fun h => h ∉ strikes).foldl (log.applyEvent recovers)
    ⟨∅, [], [], ∅⟩
  ⟨log.evictRevoked pass⟩

def replayInner (spaceId : SpaceId) (events : List SignedEvent)
    (frontier : Option (List Text)) : Directory :=
  (Log.build spaceId events frontier).replay

/-- Replay the full event set. -/
def replay (spaceId : SpaceId) (events : List SignedEvent) : Directory :=
  replayInner spaceId events none

/-- Replay restricted to the causal past of `frontier`; an oversized frontier
resolves to nothing. -/
def replayAt (spaceId : SpaceId) (events : List SignedEvent) (frontier : List Text) :
    Directory :=
  if MAX_ACTOR_ASOF < frontier.length then ⟨∅⟩
  else replayInner spaceId events (some frontier)

/-! ## The frontier is a set

The other planes cache a resolution under the *sorted* frontier.  That is sound
because the frontier only enters through its closure. -/

end Replay

end Actor

end Lait
