import Lait.Actor

/-!
# The topological pass as a run of effects

`applyEvent` decides and acts in one go.  Here the two are taken apart: an event
that passes its checks has an `Effect`, and the effect alone says what becomes of
the accumulators (`applyEvent_eq`).

`Log.effect` is the effect an event has at its own turn of the pass, at the state
the turns before it have led to; an event is *authorized* when it has one.
`Log.run_induction` is the induction over the turns, and what follows it reads
each accumulator off the effects: who is known (`exists_incept`), which tokens
are spent (`mem_consumed`), and which bindings and revocations are on record
(`mem_adds`, `mem_revokes`).
-/

namespace Lait

namespace Actor

/-- What an authorized event does. -/
inductive Effect
  /-- An actor comes to be, with its first devices. -/
  | incept (actor : ActorId) (devices : List DeviceBinding) (recoveryCommit : Option Bytes)
  /-- A device is bound. -/
  | addDevice (actor : ActorId) (binding : DeviceBinding)
  /-- A device is revoked. -/
  | revokeDevice (actor : ActorId) (device : DeviceId)
  /-- The device set is reset. -/
  | recover (actor : ActorId) (devices : List DeviceBinding) (nextCommit : Option Bytes)
  deriving DecidableEq

namespace Effect

/-- The actor an effect is on. -/
def actor : Effect → ActorId
  | incept actor _ _ => actor
  | addDevice actor _ => actor
  | revokeDevice actor _ => actor
  | recover actor _ _ => actor

/-- The bindings an effect installs. -/
def bindings : Effect → List DeviceBinding
  | incept _ devices _ => devices
  | addDevice _ binding => [binding]
  | revokeDevice _ _ => []
  | recover _ devices _ => devices

/-- The device an effect revokes. -/
def revoked : Effect → List Text
  | revokeDevice _ device => [device.fold]
  | _ => []

/-- The consent tokens an effect spends. -/
def tokens (e : Effect) : List (ActorId × Text × Bytes) :=
  e.bindings.map fun b => (e.actor, b.device.fold, b.nonce)

/-- The actor's state after the effect; an actor that is not known stays unknown
to the two effects that change a state. -/
def after : Effect → Option ActorState → Option ActorState
  | incept _ devices recoveryCommit, _ => some ⟨bindingDevices devices, recoveryCommit, false⟩
  | addDevice _ binding, st =>
      st.map fun st => { st with devices := insert binding.device.fold st.devices }
  | revokeDevice _ device, st =>
      st.map fun st => { st with devices := st.devices.erase device.fold }
  | recover _ devices nextCommit, _ => some ⟨bindingDevices devices, nextCommit, true⟩

end Effect

/-- Carry out the effect of the event `h`. -/
def Pass.perform (pass : Pass) (h : Text) (e : Effect) : Pass where
  states :=
    match e.after pass.states[e.actor]? with
    | some st => pass.states.insert e.actor st
    | none => pass.states
  adds := pass.adds ++ e.bindings.map fun b => (e.actor, b.device.fold, h)
  revokes := pass.revokes ++ e.revoked.map fun d => (e.actor, d, h)
  consumed := pass.consumed ∪ e.tokens.toFinset

/-- Only the effect's own actor changes. -/
theorem Pass.get_perform (pass : Pass) (h : Text) (e : Effect) (actor : ActorId) :
    (pass.perform h e).states[actor]? =
      if e.actor = actor then e.after pass.states[e.actor]? else pass.states[actor]? := by
  unfold perform
  cases hafter : e.after pass.states[e.actor]? with
  | some st => exact BTreeMap.get_insert pass.states e.actor actor st
  | none =>
      have hnone : pass.states[e.actor]? = none := by
        cases e with
        | incept => cases hafter
        | addDevice => exact Option.map_eq_none_iff.mp hafter
        | revokeDevice => exact Option.map_eq_none_iff.mp hafter
        | recover => cases hafter
      show pass.states[actor]? = if e.actor = actor then none else pass.states[actor]?
      by_cases heq : e.actor = actor
      · rw [if_pos heq, ← heq, hnone]
      · rw [if_neg heq]

section Decide

variable [Crypto] [Postcard ActorOp]

namespace Log

/-- The effect of an event at a state of the pass, if it passes its checks. -/
def effectAt (log : Log) (recovers : List (Text × ActorId)) (pass : Pass) (h : Text) :
    Option Effect :=
  match log.nodes[h]? with
  | none => none
  | some node =>
    match (Postcard.fromBytes node.op : Option ActorOp) with
    | none => none
    | some (.incept _ _ devices recoveryCommit) =>
        if log.incepts[ActorId.fromInceptHash h]? = some h then
          some (.incept (ActorId.fromInceptHash h) devices recoveryCommit)
        else none
    | some (.addDevice actor binding) =>
        match pass.states[actor]? with
        | none => none
        | some st =>
            if log.belongsTo h actor ∧ node.author.fold ∈ st.devices ∧
                consentVerify log.ws binding (.member actor) ∧
                (actor, binding.device.fold, binding.nonce) ∉ pass.consumed then
              some (.addDevice actor binding)
            else none
    | some (.revokeDevice actor device) =>
        match pass.states[actor]? with
        | none => none
        | some st =>
            if log.belongsTo h actor ∧ node.author.fold ∈ st.devices then
              some (.revokeDevice actor device)
            else none
    | some (.recover actor devices nextCommit) =>
        match pass.states[actor]? with
        | none => none
        | some _ =>
            if recovers.any fun r => r.1 = h then some (.recover actor devices nextCommit) else none

/-- **One turn of the pass**: the event has an effect, which is carried out, or
changes nothing. -/
theorem applyEvent_eq (log : Log) (recovers : List (Text × ActorId)) (pass : Pass) (h : Text) :
    log.applyEvent recovers pass h =
      match log.effectAt recovers pass h with
      | some e => pass.perform h e
      | none => pass := by
  have hspend : ∀ token : ActorId × Text × Bytes,
      insert token pass.consumed = pass.consumed ∪ [token].toFinset := by
    intro token
    ext t
    simp
  unfold applyEvent effectAt
  cases log.nodes[h]? with
  | none => rfl
  | some node =>
      cases hop : (Postcard.fromBytes node.op : Option ActorOp) with
      | none => simp only [hop]
      | some op =>
          cases op with
          | incept space nonce devices recoveryCommit =>
              simp only [hop]
              by_cases hincept : log.incepts[ActorId.fromInceptHash h]? = some h
              · simp only [hincept, ne_eq, not_true_eq_false, if_false, if_true, Pass.install,
                  Pass.perform, Effect.after, Effect.actor, Effect.bindings, Effect.revoked,
                  Effect.tokens, List.map_nil, List.append_nil]
              · simp only [hincept, ne_eq, not_false_eq_true, if_true, if_false]
          | addDevice actor binding =>
              simp only [hop]
              cases hst : pass.states[actor]? with
              | none => rfl
              | some st =>
                  dsimp only
                  by_cases hchecked : log.belongsTo h actor ∧ node.author.fold ∈ st.devices ∧
                      consentVerify log.ws binding (.member actor) ∧
                      (actor, binding.device.fold, binding.nonce) ∉ pass.consumed
                  · simp only [if_pos hchecked, Pass.perform, Effect.after, Effect.actor,
                      Effect.bindings, Effect.revoked, Effect.tokens, List.map_nil,
                      List.append_nil, List.map_cons, hst, Option.map_some, hspend]
                  · simp only [if_neg hchecked]
          | revokeDevice actor device =>
              simp only [hop]
              cases hst : pass.states[actor]? with
              | none => rfl
              | some st =>
                  dsimp only
                  by_cases hchecked : log.belongsTo h actor ∧ node.author.fold ∈ st.devices
                  · simp only [if_pos hchecked, Pass.perform, Effect.after, Effect.actor,
                      Effect.bindings, Effect.revoked, Effect.tokens, List.map_nil,
                      List.append_nil, List.map_cons, hst, Option.map_some, List.toFinset_nil,
                      Finset.union_empty]
                  · simp only [if_neg hchecked]
          | recover actor devices nextCommit =>
              simp only [hop]
              cases hst : pass.states[actor]? with
              | none => rfl
              | some st =>
                  dsimp only
                  by_cases hvalid : (recovers.any fun r => r.1 = h) = true
                  · simp only [hvalid, if_true, Pass.install, Pass.perform, Effect.after,
                      Effect.actor, Effect.bindings, Effect.revoked, Effect.tokens, List.map_nil,
                      List.append_nil]
                  · simp only [hvalid, if_false, Bool.false_eq_true]

/-- What an effect says of the event that has it. -/
theorem effectAt_eq_some {log : Log} {recovers : List (Text × ActorId)} {pass : Pass} {h : Text}
    {e : Effect} (heffect : log.effectAt recovers pass h = some e) :
    (∃ space nonce devices recoveryCommit,
      log.nodes.opOf h = some (ActorOp.incept space nonce devices recoveryCommit) ∧
      e = .incept (ActorId.fromInceptHash h) devices recoveryCommit ∧
      log.incepts[ActorId.fromInceptHash h]? = some h) ∨
    (∃ actor binding st,
      log.nodes.opOf h = some (ActorOp.addDevice actor binding) ∧ e = .addDevice actor binding ∧
      pass.states[actor]? = some st ∧ log.belongsTo h actor = true ∧
      (actor, binding.device.fold, binding.nonce) ∉ pass.consumed) ∨
    (∃ actor device st,
      log.nodes.opOf h = some (ActorOp.revokeDevice actor device) ∧ e = .revokeDevice actor device ∧
      pass.states[actor]? = some st ∧ log.belongsTo h actor = true) ∨
    (∃ actor devices nextCommit st,
      log.nodes.opOf h = some (ActorOp.recover actor devices nextCommit) ∧
      e = .recover actor devices nextCommit ∧ pass.states[actor]? = some st ∧
      (recovers.any fun r => r.1 = h) = true) := by
  unfold effectAt at heffect
  unfold Nodes.opOf
  cases hnode : log.nodes[h]? with
  | none =>
      rw [hnode] at heffect
      cases heffect
  | some node =>
      rw [hnode] at heffect
      rw [Option.bind_some]
      cases hop : (Postcard.fromBytes node.op : Option ActorOp) with
      | none => simp [hop] at heffect
      | some op =>
          simp only [hop] at heffect
          cases op with
          | incept space nonce devices recoveryCommit =>
              refine Or.inl ⟨space, nonce, devices, recoveryCommit, rfl, ?_⟩
              dsimp only at heffect
              split at heffect
              next hincept => exact ⟨(Option.some.inj heffect).symm, hincept⟩
              next => cases heffect
          | addDevice actor binding =>
              refine Or.inr (Or.inl ⟨actor, binding, ?_⟩)
              dsimp only at heffect
              split at heffect
              next => cases heffect
              next st hst =>
                split at heffect
                next hchecked =>
                  exact ⟨st, rfl, (Option.some.inj heffect).symm, hst, hchecked.1,
                    hchecked.2.2.2⟩
                next => cases heffect
          | revokeDevice actor device =>
              refine Or.inr (Or.inr (Or.inl ⟨actor, device, ?_⟩))
              dsimp only at heffect
              split at heffect
              next => cases heffect
              next st hst =>
                split at heffect
                next hchecked =>
                  exact ⟨st, rfl, (Option.some.inj heffect).symm, hst, hchecked.1⟩
                next => cases heffect
          | recover actor devices nextCommit =>
              refine Or.inr (Or.inr (Or.inr ⟨actor, devices, nextCommit, ?_⟩))
              dsimp only at heffect
              split at heffect
              next => cases heffect
              next st hst =>
                split at heffect
                next hvalid => exact ⟨st, rfl, (Option.some.inj heffect).symm, hst, hvalid⟩
                next => cases heffect

/-- An effect leaves its actor known. -/
theorem exists_after {log : Log} {recovers : List (Text × ActorId)} {pass : Pass} {h : Text}
    {e : Effect} (heffect : log.effectAt recovers pass h = some e) :
    ∃ st, e.after pass.states[e.actor]? = some st := by
  rcases effectAt_eq_some heffect with ⟨_, _, _, _, -, rfl, -⟩ | ⟨_, _, st, -, rfl, hst, -⟩ |
    ⟨_, _, st, -, rfl, hst, -⟩ | ⟨_, _, _, _, -, rfl, -⟩
  · exact ⟨_, rfl⟩
  · exact ⟨_, by rw [Effect.actor, hst]; rfl⟩
  · exact ⟨_, by rw [Effect.actor, hst]; rfl⟩
  · exact ⟨_, rfl⟩

/-! ## The run -/

/-- The recoveries in force. -/
def recovers (log : Log) : List (Text × ActorId) := log.validRecovers ∅

/-- The events that get a turn in the pass: all but those a recovery strikes. -/
def turns (log : Log) : List Text := log.order.filter fun h => h ∉ log.strikes log.recovers

/-- The accumulators after a list of turns. -/
def passAfter (log : Log) (l : List Text) : Pass :=
  l.foldl (log.applyEvent log.recovers) ⟨∅, [], [], ∅⟩

/-- The accumulators before the turn of `h`. -/
def passBefore (log : Log) (h : Text) : Pass :=
  log.passAfter (log.turns.takeWhile fun k => k ≠ h)

/-- The effect an event has at its turn.  An event that has one is authorized. -/
def effect (log : Log) (h : Text) : Option Effect :=
  if h ∈ log.turns then log.effectAt log.recovers (log.passBefore h) h else none

/-- A replay runs the pass over the turns and then evicts. -/
theorem replay_eq (log : Log) :
    log.replay = ⟨log.evictRevoked (log.passAfter log.turns)⟩ := rfl

variable {log : Log} {l : List Text} {h : Text} {e : Effect}

theorem mem_turns_of_effect (heffect : log.effect h = some e) : h ∈ log.turns := by
  unfold effect at heffect
  split at heffect
  next hmem => exact hmem
  next => cases heffect

/-- The turns before `h` are those of the list that ends with it. -/
theorem passBefore_eq (hnodup : log.turns.Nodup) (hpre : l ++ [h] <+: log.turns) :
    log.passBefore h = log.passAfter l := by
  obtain ⟨r, hr⟩ := hpre
  rw [← hr, List.append_assoc, List.singleton_append] at hnodup
  have hnew : h ∉ l := fun hh =>
    (List.nodup_append'.mp hnodup).2.2 hh List.mem_cons_self
  have hbefore : (l ++ h :: r).takeWhile (fun k => k ≠ h) = l := by
    rw [List.takeWhile_append_of_pos, List.takeWhile_cons_of_neg (by simp), List.append_nil]
    intro k hk
    simpa using fun hkh : k = h => hnew (hkh ▸ hk)
  rw [passBefore, ← hr, List.append_assoc, List.singleton_append, hbefore]

theorem effect_eq (hnodup : log.turns.Nodup) (hpre : l ++ [h] <+: log.turns) :
    log.effect h = log.effectAt log.recovers (log.passAfter l) h := by
  have hmem : h ∈ log.turns := hpre.subset (by simp)
  rw [effect, if_pos hmem, passBefore_eq hnodup hpre]

/-- **Induction over the turns.**  What holds at the start, is kept by a turn
without effect and by a turn that carries its effect out, holds after every list
of turns. -/
theorem run_induction (hnodup : log.turns.Nodup) {P : List Text → Pass → Prop}
    (hstart : P [] ⟨∅, [], [], ∅⟩)
    (hidle : ∀ l h, l ++ [h] <+: log.turns → log.effect h = none →
      P l (log.passAfter l) → P (l ++ [h]) (log.passAfter l))
    (hturn : ∀ l h e, l ++ [h] <+: log.turns → log.effect h = some e →
      P l (log.passAfter l) → P (l ++ [h]) ((log.passAfter l).perform h e)) :
    ∀ l, l <+: log.turns → P l (log.passAfter l) := by
  intro l
  induction l using List.reverseRecOn with
  | nil => exact fun _ => hstart
  | append_singleton l h ih =>
      intro hpre
      have hbefore := ih ((List.prefix_append l [h]).trans hpre)
      have hstep : log.passAfter (l ++ [h]) =
          match log.effect h with
          | some e => (log.passAfter l).perform h e
          | none => log.passAfter l := by
        rw [effect_eq hnodup hpre, ← applyEvent_eq, passAfter, List.foldl_append, List.foldl_cons,
          List.foldl_nil, ← passAfter]
      rw [hstep]
      cases heffect : log.effect h with
      | none => exact hidle l h hpre heffect hbefore
      | some e => exact hturn l h e hpre heffect hbefore

/-! ## What the accumulators hold -/

/-- The authorized inception of an actor is the event that names it. -/
theorem eq_of_effect_incept {actor : ActorId} {devices : List DeviceBinding}
    {recoveryCommit : Option Bytes}
    (heffect : log.effect h = some (.incept actor devices recoveryCommit)) :
    actor = ActorId.fromInceptHash h ∧ log.incepts[actor]? = some h := by
  rw [effect, if_pos (mem_turns_of_effect heffect)] at heffect
  rcases effectAt_eq_some heffect with ⟨_, _, _, _, -, he, hincept⟩ | ⟨_, _, _, -, he, -⟩ |
    ⟨_, _, _, -, he, -⟩ | ⟨_, _, _, _, -, he, -⟩
  · cases he
    exact ⟨rfl, hincept⟩
  · cases he
  · cases he
  · cases he

/-- A known actor was incepted. -/
theorem exists_incept (hnodup : log.turns.Nodup) (hpre : l <+: log.turns) {actor : ActorId}
    {st : ActorState} (hst : (log.passAfter l).states[actor]? = some st) :
    ∃ k ∈ l, ∃ devices recoveryCommit,
      log.effect k = some (.incept actor devices recoveryCommit) := by
  revert st
  refine run_induction hnodup (P := fun l pass => ∀ {st}, pass.states[actor]? = some st →
    ∃ k ∈ l, ∃ devices recoveryCommit, log.effect k = some (.incept actor devices recoveryCommit))
    ?_ ?_ ?_ l hpre
  · intro st hst
    rw [BTreeMap.get_empty] at hst
    cases hst
  · intro l h _ _ ih st hst
    obtain ⟨k, hk, hincept⟩ := ih hst
    exact ⟨k, List.mem_append_left _ hk, hincept⟩
  · intro l h e hpre heffect ih st hst
    have hearlier : ∀ {st}, (log.passAfter l).states[actor]? = some st →
        ∃ k ∈ l ++ [h], ∃ devices recoveryCommit,
          log.effect k = some (.incept actor devices recoveryCommit) := by
      intro st hst
      obtain ⟨k, hk, hincept⟩ := ih hst
      exact ⟨k, List.mem_append_left _ hk, hincept⟩
    rw [Pass.get_perform] at hst
    split at hst
    next hactor =>
      subst hactor
      cases hold : (log.passAfter l).states[e.actor]? with
      | some st' => exact hearlier hold
      | none =>
          rw [hold] at hst
          have hat := heffect
          rw [effect_eq hnodup hpre] at hat
          rcases effectAt_eq_some hat with ⟨_, _, _, _, -, rfl, -⟩ | ⟨_, _, _, -, rfl, hknown, -⟩ |
            ⟨_, _, _, -, rfl, hknown, -⟩ | ⟨_, _, _, _, -, rfl, hknown, -⟩
          · exact ⟨h, by simp, _, _, heffect⟩
          · cases hold.symm.trans hknown
          · cases hold.symm.trans hknown
          · cases hold.symm.trans hknown
    next => exact hearlier hst

/-- Before its inception an actor is not known. -/
theorem unknown_before_incept (hnodup : log.turns.Nodup) (hpre : l ++ [h] <+: log.turns)
    {actor : ActorId} {devices : List DeviceBinding} {recoveryCommit : Option Bytes}
    (heffect : log.effect h = some (.incept actor devices recoveryCommit)) :
    (log.passAfter l).states[actor]? = none := by
  cases hst : (log.passAfter l).states[actor]? with
  | none => rfl
  | some st =>
      obtain ⟨k, hk, devices', commit', hincept⟩ :=
        exists_incept hnodup ((List.prefix_append l [h]).trans hpre) hst
      have hsame := (eq_of_effect_incept hincept).1.symm.trans (eq_of_effect_incept heffect).1
      obtain rfl := ActorId.fromInceptHash_injective hsame
      have hone := hnodup.sublist hpre.sublist
      exact absurd rfl ((List.nodup_append.mp hone).2.2 k hk k (List.mem_singleton_self k))

/-- The actor of an effect is known from then on. -/
theorem exists_state (hnodup : log.turns.Nodup) (hpre : l <+: log.turns) (hmem : h ∈ l)
    (heffect : log.effect h = some e) :
    ∃ st, (log.passAfter l).states[e.actor]? = some st := by
  revert hmem
  refine run_induction hnodup (P := fun l pass => h ∈ l → ∃ st, pass.states[e.actor]? = some st)
    ?_ ?_ ?_ l hpre
  · intro hmem
    cases hmem
  · intro l k _ hnone ih hmem
    rcases List.mem_append.mp hmem with hmem | hmem
    · exact ih hmem
    · rw [← List.mem_singleton.mp hmem, heffect] at hnone
      cases hnone
  · intro l k e' hpre heffect' ih hmem
    rw [Pass.get_perform]
    split
    next hactor =>
      have hat := heffect'
      rw [effect_eq hnodup hpre] at hat
      exact exists_after hat
    next hactor =>
      rcases List.mem_append.mp hmem with hmem | hmem
      · exact ih hmem
      · rw [← List.mem_singleton.mp hmem, heffect] at heffect'
        exact absurd (congrArg Effect.actor (Option.some.inj heffect').symm) hactor

/-- **An accumulator is read off the effects.**  What is empty at the start, and
gains at each effect just what the effect adds, holds what the effects of the
turns have added. -/
theorem recorded_iff (hnodup : log.turns.Nodup) {R : Pass → Prop}
    {A : Text → Effect → Prop} (hstart : ¬ R ⟨∅, [], [], ∅⟩)
    (hperform : ∀ (pass : Pass) h e, R (pass.perform h e) ↔ R pass ∨ A h e)
    (hpre : l <+: log.turns) :
    R (log.passAfter l) ↔ ∃ k ∈ l, ∃ e, log.effect k = some e ∧ A k e := by
  refine run_induction hnodup (P := fun l pass => R pass ↔
    ∃ k ∈ l, ∃ e, log.effect k = some e ∧ A k e) ?_ ?_ ?_ l hpre
  · simpa using hstart
  · intro l h _ hnone ih
    rw [ih]
    simp [or_and_right, exists_or, hnone]
  · intro l h e _ heffect ih
    rw [hperform, ih]
    simp [or_and_right, exists_or, heffect]

/-- The tokens spent are those of the effects so far. -/
theorem mem_consumed (hnodup : log.turns.Nodup) (hpre : l <+: log.turns)
    {token : ActorId × Text × Bytes} :
    token ∈ (log.passAfter l).consumed ↔
      ∃ k ∈ l, ∃ e, log.effect k = some e ∧ token ∈ e.tokens := by
  refine recorded_iff hnodup (R := fun pass => token ∈ pass.consumed)
    (A := fun _ e => token ∈ e.tokens) (by simp) (fun pass h e => ?_) hpre
  show token ∈ pass.consumed ∪ e.tokens.toFinset ↔ _
  rw [Finset.mem_union, List.mem_toFinset]

/-- What is on record under the address of one event was put there by the event. -/
theorem recorded_under {k : Text} {Adds : Effect → Prop} :
    (∃ k' ∈ l, ∃ e, log.effect k' = some e ∧ k' = k ∧ Adds e) ↔
      k ∈ l ∧ ∃ e, log.effect k = some e ∧ Adds e := by
  constructor
  · rintro ⟨k', hk, e, heffect, rfl, hadds⟩
    exact ⟨hk, e, heffect, hadds⟩
  · rintro ⟨hk, e, heffect, hadds⟩
    exact ⟨k, hk, e, heffect, rfl, hadds⟩

/-- The bindings on record are those of the effects so far. -/
theorem mem_adds (hnodup : log.turns.Nodup) (hpre : l <+: log.turns) {actor : ActorId}
    {d k : Text} :
    (actor, d, k) ∈ (log.passAfter l).adds ↔
      k ∈ l ∧ ∃ e, log.effect k = some e ∧ e.actor = actor ∧ d ∈ bindingDevices e.bindings := by
  rw [← recorded_under]
  refine recorded_iff hnodup (R := fun pass => (actor, d, k) ∈ pass.adds)
    (A := fun h e => h = k ∧ e.actor = actor ∧ d ∈ bindingDevices e.bindings) (by simp)
    (fun pass h e => ?_) hpre
  show (actor, d, k) ∈ pass.adds ++ e.bindings.map _ ↔ _
  rw [List.mem_append]
  refine or_congr_right ?_
  simp only [List.mem_map, Prod.mk.injEq, bindingDevices, List.mem_toFinset]
  constructor
  · rintro ⟨b, hb, hactor, hd, hk⟩
    exact ⟨hk, hactor, b, hb, hd⟩
  · rintro ⟨hk, hactor, b, hb, hd⟩
    exact ⟨b, hb, hactor, hd, hk⟩

/-- The revocations on record are those of the effects so far. -/
theorem mem_revokes (hnodup : log.turns.Nodup) (hpre : l <+: log.turns) {actor : ActorId}
    {d k : Text} :
    (actor, d, k) ∈ (log.passAfter l).revokes ↔
      k ∈ l ∧ ∃ e, log.effect k = some e ∧ e.actor = actor ∧ d ∈ e.revoked := by
  rw [← recorded_under]
  refine recorded_iff hnodup (R := fun pass => (actor, d, k) ∈ pass.revokes)
    (A := fun h e => h = k ∧ e.actor = actor ∧ d ∈ e.revoked) (by simp)
    (fun pass h e => ?_) hpre
  show (actor, d, k) ∈ pass.revokes ++ e.revoked.map _ ↔ _
  rw [List.mem_append]
  refine or_congr_right ?_
  simp only [List.mem_map, Prod.mk.injEq]
  constructor
  · rintro ⟨d', hd', hactor, rfl, hk⟩
    exact ⟨hk, hactor, hd'⟩
  · rintro ⟨hk, hactor, hd⟩
    exact ⟨d, hd, hactor, rfl, hk⟩

end Log

end Decide

/-- The turns of a log that was built are listed once. -/
theorem nodup_turns [Crypto] [Postcard ActorOp] (spaceId : SpaceId) (events : List SignedEvent)
    (frontier : Option (List Text)) : (Log.build spaceId events frontier).turns.Nodup :=
  (nodup_topoOrder _).filter _

/-! ## A space to evaluate in

Concrete runs use the ideal primitives.  One owner holds the key 0 and commits to
the recovery key 2.  An event is signed over the index of its op in a table, so
that the ops can name the owner. -/

namespace Demo

def space : SpaceId := ⟨[119]⟩

/-- The device key of number `n`. -/
def seed (n : UInt8) : Bytes := ⟨List.replicate 32 n⟩

def device (n : UInt8) : DeviceId :=
  letI := idealCrypto
  DeviceId.fromKeyBytes (Crypto.publicKey (seed n))

/-- The event over the `i`th op of a table, signed by key `n`. -/
def sign (n i : UInt8) (parents : List Text) : SignedEvent :=
  letI := idealCrypto
  signNode ACTOR_DOMAIN (seed n) ⟨[i]⟩ parents space

/-- The address of an event. -/
def hash (so : SignedEvent) : Text :=
  letI := idealCrypto
  so.hash

/-- The owner's inception: the first op of every table. -/
def inceptOp : ActorOp :=
  letI := idealCrypto
  inceptSingleOp (seed 0) space ⟨[0]⟩ ⟨[0]⟩ (recoveryCommitment (device 2))

def incept : SignedEvent := sign 0 0 []

def owner : ActorId := ActorId.fromInceptHash (hash incept)

/-- The consent of key `n`, under the nonce `i`, to join the owner's devices. -/
def consent (n i : UInt8) : DeviceBinding :=
  letI := idealCrypto
  consentSign (seed n) space ⟨[i]⟩ (.member owner)

/-- The log of the events over a table of ops. -/
def log (table : List ActorOp) (events : List SignedEvent) : Log :=
  letI := idealCrypto
  letI := tableCodec table
  Log.build space events none

end Demo

end Actor

end Lait
