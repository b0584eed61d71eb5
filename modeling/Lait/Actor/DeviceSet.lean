import Lait.Actor.Run

/-!
# The device set of an actor

Pass 1 walks the events in one topological order, pass 2 evicts.  What the two
leave in the end does not depend on the order.

* Without a recovery in force, a device is in the set exactly when an authorized
  event binds it and every authorized revocation of it is followed, causally, by
  one that binds it again.
* A recovery in force that no event of the actor follows leaves exactly the
  devices it lists, when the actor's other recoveries are followed by one another
  up to it; and no event of the actor that is concurrent with it is authorized.

For the first, what the pass leaves out of the set was never bound, or was
revoked and not bound since (`unbound_or_revoked`); a causal descendant has its
turn later, so an event that binds the device again would have come since.  For
the second, an event of the actor that has its turn after the recovery would have
to be concurrent with it, and those are struck (`effect_eq_none_of_concurrent`).
-/

namespace Lait

namespace Actor

/-- The devices of an actor in a map of states; none for an unknown one. -/
def devicesIn (states : BTreeMap ActorId ActorState) (actor : ActorId) : Finset Text :=
  match states[actor]? with
  | some st => st.devices
  | none => ∅

theorem devicesIn_of_get {states : BTreeMap ActorId ActorState} {actor : ActorId}
    {st : ActorState} (hst : states[actor]? = some st) : devicesIn states actor = st.devices := by
  rw [devicesIn, hst]

theorem devicesIn_insert (states : BTreeMap ActorId ActorState) (actor' : ActorId)
    (st : ActorState) (actor : ActorId) : devicesIn (states.insert actor' st) actor =
      if actor' = actor then st.devices else devicesIn states actor := by
  rw [devicesIn, BTreeMap.get_insert]
  by_cases hactor : actor' = actor
  · rw [if_pos hactor, if_pos hactor]
  · rw [if_neg hactor, if_neg hactor, devicesIn]

theorem isDeviceOf_iff {directory : Directory} {actor : ActorId} {device : DeviceId} :
    directory.isDeviceOf actor device = true ↔
      device.fold ∈ devicesIn directory.actors actor := by
  rw [Directory.isDeviceOf, devicesIn]
  cases directory.actors[actor]? with
  | none => simp
  | some st => simp

/-- The device set an effect makes of one. -/
def Effect.devicesAfter : Effect → Finset Text → Finset Text
  | incept _ devices _, _ => bindingDevices devices
  | addDevice _ binding, s => insert binding.device.fold s
  | revokeDevice _ device, s => s.erase device.fold
  | recover _ devices _, _ => bindingDevices devices

namespace Log

variable [Crypto] [Postcard ActorOp] {log : Log} {l : List Text} {h k : Text} {e : Effect}
  {actor : ActorId} {d : Text}

/-- An authorized event that binds the device to the actor. -/
def Binds (log : Log) (actor : ActorId) (d h : Text) : Prop :=
  ∃ e, log.effect h = some e ∧ e.actor = actor ∧ d ∈ bindingDevices e.bindings

/-- An authorized event that revokes the device of the actor. -/
def Revokes (log : Log) (actor : ActorId) (d h : Text) : Prop :=
  ∃ e, log.effect h = some e ∧ e.actor = actor ∧ d ∈ e.revoked

/-- An event of the actor: its inception, or an event that names it. -/
def IsEventOf (log : Log) (actor : ActorId) (h : Text) : Prop :=
  log.incepts[actor]? = some h ∨ ∃ op : ActorOp, log.nodes.opOf h = some op ∧ op.actor = some actor

omit [Crypto] [Postcard ActorOp] in
/-- Two events of which neither is an ancestor of the other. -/
def Concurrent (log : Log) (h k : Text) : Prop :=
  h ≠ k ∧ log.ancestors.has h k = false ∧ log.ancestors.has k h = false

/-! ## Device sets along the run -/

/-- What an authorized event does to the device sets. -/
theorem devicesIn_perform {recovers : List (Text × ActorId)} {pass : Pass}
    (heffect : log.effectAt recovers pass h = some e) (actor : ActorId) :
    devicesIn (pass.perform h e).states actor =
      if e.actor = actor then e.devicesAfter (devicesIn pass.states actor)
      else devicesIn pass.states actor := by
  rw [devicesIn, Pass.get_perform]
  by_cases hactor : e.actor = actor
  · subst hactor
    rw [if_pos rfl, if_pos rfl]
    rcases effectAt_eq_some heffect with ⟨_, _, _, _, -, rfl, -⟩ | ⟨_, _, st, -, rfl, hst, -⟩ |
      ⟨_, _, st, -, rfl, hst, -⟩ | ⟨_, _, _, _, -, rfl, -⟩
    · rfl
    · rw [Effect.actor, hst, devicesIn_of_get hst]
      rfl
    · rw [Effect.actor, hst, devicesIn_of_get hst]
      rfl
    · rfl
  · rw [if_neg hactor, if_neg hactor, devicesIn]

/-- What is in the set was bound. -/
theorem exists_binds (hnodup : log.turns.Nodup) (hpre : l <+: log.turns)
    (hd : d ∈ devicesIn (log.passAfter l).states actor) : ∃ k ∈ l, log.Binds actor d k := by
  revert hd
  refine run_induction hnodup (P := fun l pass => d ∈ devicesIn pass.states actor →
    ∃ k ∈ l, log.Binds actor d k) ?_ ?_ ?_ l hpre
  · intro hd
    rw [devicesIn, BTreeMap.get_empty] at hd
    exact absurd hd (Finset.notMem_empty d)
  · intro l h _ _ ih hd
    obtain ⟨k, hk, hbinds⟩ := ih hd
    exact ⟨k, List.mem_append_left _ hk, hbinds⟩
  · intro l h e hpre heffect ih hd
    have hearlier : d ∈ devicesIn (log.passAfter l).states actor →
        ∃ k ∈ l ++ [h], log.Binds actor d k := by
      intro hd
      obtain ⟨k, hk, hbinds⟩ := ih hd
      exact ⟨k, List.mem_append_left _ hk, hbinds⟩
    have hnow : e.actor = actor → d ∈ bindingDevices e.bindings →
        ∃ k ∈ l ++ [h], log.Binds actor d k :=
      fun hactor hbound => ⟨h, by simp, e, heffect, hactor, hbound⟩
    have hat := heffect
    rw [effect_eq hnodup hpre] at hat
    rw [devicesIn_perform hat] at hd
    split at hd
    next hactor =>
      cases e with
      | incept => exact hnow hactor hd
      | addDevice _ binding =>
          rcases Finset.mem_insert.mp hd with rfl | hd
          · exact hnow hactor (by simp [Effect.bindings, bindingDevices])
          · exact hearlier hd
      | revokeDevice _ device => exact hearlier (Finset.mem_of_mem_erase hd)
      | recover => exact hnow hactor hd
    next => exact hearlier hd

/-- Without a recovery, what is not in the set was never bound, or was revoked
and not bound since. -/
theorem unbound_or_revoked (hnodup : log.turns.Nodup) (hpre : l <+: log.turns)
    (hnone : ∀ h devices nextCommit, log.effect h ≠ some (.recover actor devices nextCommit))
    (hd : d ∉ devicesIn (log.passAfter l).states actor) :
    (∀ k ∈ l, ¬ log.Binds actor d k) ∨
      ∃ l₁ r l₂, l = l₁ ++ r :: l₂ ∧ log.Revokes actor d r ∧ ∀ k ∈ l₂, ¬ log.Binds actor d k := by
  revert hd
  refine run_induction hnodup (P := fun l pass => d ∉ devicesIn pass.states actor →
    (∀ k ∈ l, ¬ log.Binds actor d k) ∨
      ∃ l₁ r l₂, l = l₁ ++ r :: l₂ ∧ log.Revokes actor d r ∧ ∀ k ∈ l₂, ¬ log.Binds actor d k)
    ?_ ?_ ?_ l hpre
  · exact fun _ => Or.inl fun k hk => absurd hk List.not_mem_nil
  all_goals
    -- A turn that does not bind the device keeps either case.
    have hkeep : ∀ {l : List Text} {h : Text}, ¬ log.Binds actor d h →
        ((∀ k ∈ l, ¬ log.Binds actor d k) ∨
          ∃ l₁ r l₂, l = l₁ ++ r :: l₂ ∧ log.Revokes actor d r ∧
            ∀ k ∈ l₂, ¬ log.Binds actor d k) →
        (∀ k ∈ l ++ [h], ¬ log.Binds actor d k) ∨
          ∃ l₁ r l₂, l ++ [h] = l₁ ++ r :: l₂ ∧ log.Revokes actor d r ∧
            ∀ k ∈ l₂, ¬ log.Binds actor d k := by
      intro l h hnot hcase
      have hlast : ∀ {l' : List Text}, (∀ k ∈ l', ¬ log.Binds actor d k) →
          ∀ k ∈ l' ++ [h], ¬ log.Binds actor d k := by
        intro l' hl' k hk
        rcases List.mem_append.mp hk with hk | hk
        · exact hl' k hk
        · exact List.mem_singleton.mp hk ▸ hnot
      rcases hcase with hunbound | ⟨l₁, r, l₂, rfl, hrevokes, hsince⟩
      · exact Or.inl (hlast hunbound)
      · exact Or.inr ⟨l₁, r, l₂ ++ [h], by simp, hrevokes, hlast hsince⟩
  · intro l h _ hidle ih hd
    refine hkeep ?_ (ih hd)
    rintro ⟨e, heffect, -⟩
    rw [hidle] at heffect
    cases heffect
  · intro l h e hpre heffect ih hd
    have hbinds : log.Binds actor d h → e.actor = actor ∧ d ∈ bindingDevices e.bindings := by
      rintro ⟨e', heffect', hrest⟩
      obtain rfl := Option.some.inj (heffect.symm.trans heffect')
      exact hrest
    have hat := heffect
    rw [effect_eq hnodup hpre] at hat
    rw [devicesIn_perform hat] at hd
    split at hd
    next hactor =>
      cases e with
      | incept _ devices recoveryCommit =>
          -- Nothing was bound before the inception, and the inception does not bind `d`.
          have hunknown := unknown_before_incept hnodup hpre heffect
          refine hkeep (fun hh => hd (hbinds hh).2) (Or.inl fun k hk => ?_)
          rintro ⟨e', heffect', hactor', -⟩
          obtain ⟨st, hst⟩ := exists_state hnodup ((List.prefix_append l [h]).trans hpre) hk heffect'
          rw [hactor', ← hactor] at hst
          cases hunknown.symm.trans hst
      | addDevice _ binding =>
          obtain ⟨hne, hold⟩ := not_or.mp (Finset.mem_insert.not.mp hd)
          refine hkeep (fun hh => hne ?_) (ih hold)
          simpa [Effect.bindings, bindingDevices] using (hbinds hh).2
      | revokeDevice _ device =>
          have hnot : ¬ log.Binds actor d h := fun hh => by
            simpa [Effect.bindings, bindingDevices] using (hbinds hh).2
          by_cases hsame : d = device.fold
          · refine Or.inr ⟨l, h, [], rfl, ⟨_, heffect, hactor, ?_⟩, by simp⟩
            rw [hsame]
            exact List.mem_singleton_self _
          · exact hkeep hnot (ih fun hold => hd (Finset.mem_erase.mpr ⟨hsame, hold⟩))
      | recover _ devices nextCommit =>
          obtain rfl : _ = actor := hactor
          exact absurd heffect (hnone h devices nextCommit)
    next hactor => exact hkeep (fun hh => hactor (hbinds hh).1) (ih hd)

/-! ## Eviction -/

omit [Crypto] [Postcard ActorOp] in
/-- Eviction forgets no actor. -/
theorem get_evictRevoked_isSome (log : Log) (pass : Pass) (actor : ActorId) :
    (log.evictRevoked pass)[actor]?.isSome = pass.states[actor]?.isSome := by
  unfold evictRevoked
  induction pass.revokes using List.reverseRecOn with
  | nil => rfl
  | append_singleton revokes r ih =>
      rw [List.foldl_append, List.foldl_cons, List.foldl_nil]
      dsimp only
      split
      · exact ih
      · split
        next st hst =>
          rw [BTreeMap.get_insert, ← ih]
          split
          next hactor =>
            rw [hactor] at hst
            rw [hst]
            rfl
          next => rfl
        next => exact ih

omit [Crypto] [Postcard ActorOp] in
/-- **Pass 2.**  A device stays when each revocation of it is followed by a
binding of it. -/
theorem mem_devicesIn_evictRevoked (log : Log) (pass : Pass) (actor : ActorId) (d : Text) :
    d ∈ devicesIn (log.evictRevoked pass) actor ↔
      d ∈ devicesIn pass.states actor ∧ ∀ rh, (actor, d, rh) ∈ pass.revokes →
        ∃ ah, (actor, d, ah) ∈ pass.adds ∧ log.ancestors.has ah rh = true := by
  have hreadded : ∀ rh, (pass.adds.any fun a =>
      a.1 = actor && a.2.1 = d && log.ancestors.has a.2.2 rh) = true ↔
        ∃ ah, (actor, d, ah) ∈ pass.adds ∧ log.ancestors.has ah rh = true := by
    intro rh
    simp only [List.any_eq_true, Bool.and_eq_true, decide_eq_true_eq]
    constructor
    · rintro ⟨⟨a, d', ah⟩, hmem, ⟨rfl, rfl⟩, hhas⟩
      exact ⟨ah, hmem, hhas⟩
    · rintro ⟨ah, hmem, hhas⟩
      exact ⟨_, hmem, ⟨rfl, rfl⟩, hhas⟩
  unfold evictRevoked
  induction pass.revokes using List.reverseRecOn with
  | nil => simp
  | append_singleton revokes r ih =>
      obtain ⟨actor', d', rh⟩ := r
      rw [List.foldl_append, List.foldl_cons, List.foldl_nil]
      dsimp only
      have hsplit : (∀ rh', (actor, d, rh') ∈ revokes ++ [(actor', d', rh)] →
          ∃ ah, (actor, d, ah) ∈ pass.adds ∧ log.ancestors.has ah rh' = true) ↔
          (∀ rh', (actor, d, rh') ∈ revokes →
            ∃ ah, (actor, d, ah) ∈ pass.adds ∧ log.ancestors.has ah rh' = true) ∧
          (actor' = actor → d' = d →
            ∃ ah, (actor, d, ah) ∈ pass.adds ∧ log.ancestors.has ah rh = true) := by
        constructor
        · intro hall
          refine ⟨fun rh' hmem => hall rh' (List.mem_append_left _ hmem), ?_⟩
          rintro rfl rfl
          exact hall rh (by simp)
        · rintro ⟨hall, hlast⟩ rh' hmem
          rcases List.mem_append.mp hmem with hmem | hmem
          · exact hall rh' hmem
          · have heq := List.mem_singleton.mp hmem
            simp only [Prod.mk.injEq] at heq
            obtain ⟨rfl, rfl, rfl⟩ := heq
            exact hlast rfl rfl
      rw [hsplit, ← and_assoc]
      refine Iff.trans ?_ (and_congr_left fun _ => ih)
      split
      next hback =>
        refine (and_iff_left fun hactor hd => ?_).symm
        subst hactor hd
        exact (hreadded rh).mp hback
      next hback =>
        have hgone : actor' = actor → d' = d →
            ¬ ∃ ah, (actor, d, ah) ∈ pass.adds ∧ log.ancestors.has ah rh = true := by
          rintro rfl rfl hagain
          exact hback ((hreadded rh).mpr hagain)
        split
        next st hst =>
          rw [devicesIn_insert]
          split
          next hactor =>
            subst hactor
            rw [devicesIn_of_get hst, Finset.mem_erase]
            constructor
            · exact fun hd => ⟨hd.2, fun _ hsame => absurd hsame.symm hd.1⟩
            · rintro ⟨hd, hagain⟩
              exact ⟨fun hsame => hgone rfl hsame.symm (hagain rfl hsame.symm), hd⟩
          next hactor => exact (and_iff_left fun hsame => absurd hsame hactor).symm
        next hst =>
          refine (and_iff_left_of_imp fun hd hactor => ?_).symm
          subst hactor
          rw [devicesIn, hst] at hd
          exact absurd hd (Finset.notMem_empty d)

/-! ## What stands in a log -/

/-- A log whose fields are those of its nodes, over an acyclic graph. -/
structure Sound (log : Log) : Prop where
  acyclic : log.nodes.graph.Acyclic
  ancestors : log.ancestors = computeAncestors log.nodes
  order : log.order = topoOrder log.nodes
  incepts : log.incepts = inceptsOf log.ws log.nodes

/-- Without hash cycles the log of a list of events is sound. -/
theorem sound_build (hacyclic : HashesAcyclic) (spaceId : SpaceId) (events : List SignedEvent) :
    (Log.build spaceId events none).Sound :=
  ⟨hacyclic ACTOR_DOMAIN spaceId events, rfl, rfl, rfl⟩

/-- One turn of the indexing loop of `inceptsOf`. -/
def inceptsStep (ws : Text) (incepts : BTreeMap ActorId Text) (entry : Text × SignedNode) :
    BTreeMap ActorId Text :=
  match (Postcard.fromBytes entry.2.op : Option ActorOp) with
  | some op =>
      if validIncept ws entry.2 op then incepts.insert (ActorId.fromInceptHash entry.1) entry.1
      else incepts
  | none => incepts

/-- An inception on record is a node that decodes to one, under the actor it
names. -/
theorem exists_of_get_inceptsOf {ws : Text} {nodes : Nodes}
    (hget : (inceptsOf ws nodes)[actor]? = some h) :
    actor = ActorId.fromInceptHash h ∧ ∃ space nonce devices recoveryCommit,
      nodes.opOf h = some (ActorOp.incept space nonce devices recoveryCommit) := by
  have hlist : ∀ entries : List (Text × SignedNode),
      (entries.foldl (inceptsStep ws) (∅ : BTreeMap ActorId Text))[actor]? = some h →
      actor = ActorId.fromInceptHash h ∧ ∃ node op, (h, node) ∈ entries ∧
        Postcard.fromBytes node.op = some op ∧ validIncept ws node op = true := by
    intro entries
    induction entries using List.reverseRecOn with
    | nil =>
        intro hget
        rw [List.foldl_nil, BTreeMap.get_empty] at hget
        cases hget
    | append_singleton entries entry ih =>
        intro hget
        have hearlier : (entries.foldl (inceptsStep ws) (∅ : BTreeMap ActorId Text))[actor]? =
            some h → actor = ActorId.fromInceptHash h ∧ ∃ node op,
              (h, node) ∈ entries ++ [entry] ∧ Postcard.fromBytes node.op = some op ∧
                validIncept ws node op = true := by
          intro hget
          obtain ⟨hactor, node, op, hmem, hrest⟩ := ih hget
          exact ⟨hactor, node, op, List.mem_append_left [entry] hmem, hrest⟩
        rw [List.foldl_append, List.foldl_cons, List.foldl_nil] at hget
        unfold inceptsStep at hget
        split at hget
        next op hop =>
          split at hget
          next hvalid =>
            rw [BTreeMap.get_insert] at hget
            split at hget
            next hactor =>
              obtain rfl := Option.some.inj hget
              exact ⟨hactor.symm, entry.2, op, by simp, hop, hvalid⟩
            next => exact hearlier hget
          next => exact hearlier hget
        next => exact hearlier hget
  obtain ⟨hactor, node, op, hmem, hop, hvalid⟩ := hlist nodes.toList hget
  have hopOf : nodes.opOf h = some op := by
    rw [Nodes.opOf, BTreeMap.mem_toList_iff.mp hmem, Option.bind_some, hop]
  refine ⟨hactor, ?_⟩
  cases op with
  | incept space nonce devices recoveryCommit => exact ⟨_, _, _, _, hopOf⟩
  | addDevice => cases hvalid
  | revokeDevice => cases hvalid
  | recover => cases hvalid

/-- One turn of the loop of `validRecovers`, before anything is struck. -/
def recoversStep (log : Log) (acc : BTreeMap ActorId (Option Bytes) × List (Text × ActorId))
    (h : Text) : BTreeMap ActorId (Option Bytes) × List (Text × ActorId) :=
  if h ∈ (∅ : Finset Text) then acc
  else match (log.nodes.opOf h : Option ActorOp) with
    | some (.recover actor devices nextCommit) =>
        if log.recoverValid acc.1 h actor devices then
          (acc.1.insert actor nextCommit, acc.2 ++ [(h, actor)])
        else acc
    | _ => acc

/-- A recovery in force decodes to one, and descends from its actor's
inception. -/
theorem mem_recovers (hmem : (h, actor) ∈ log.recovers) :
    h ∈ log.order ∧
      (∃ devices nextCommit,
        log.nodes.opOf h = some (ActorOp.recover actor devices nextCommit)) ∧
      ∃ inceptH, log.incepts[actor]? = some inceptH ∧ log.ancestors.has h inceptH = true := by
  unfold recovers validRecovers at hmem
  have hlist : ∀ order : List Text,
      (h, actor) ∈ (order.foldl log.recoversStep (log.inceptCommits, [])).2 →
      h ∈ order ∧ ∃ devices nextCommit commits,
        log.nodes.opOf h = some (ActorOp.recover actor devices nextCommit) ∧
          log.recoverValid commits h actor devices = true := by
    intro order
    induction order using List.reverseRecOn with
    | nil =>
        intro hmem
        cases hmem
    | append_singleton order k ih =>
        intro hmem
        rw [List.foldl_append, List.foldl_cons, List.foldl_nil, recoversStep,
          if_neg (Finset.notMem_empty k)] at hmem
        have hearlier := fun hmem => (ih hmem).imp_left fun hh => List.mem_append_left [k] hh
        split at hmem
        next actor' devices nextCommit hop =>
          split at hmem
          next hvalid =>
            rcases List.mem_append.mp hmem with hmem | hmem
            · exact hearlier hmem
            · obtain ⟨rfl, rfl⟩ := Prod.mk.inj (List.mem_singleton.mp hmem)
              exact ⟨by simp, devices, nextCommit, _, hop, hvalid⟩
          next => exact hearlier hmem
        next => exact hearlier hmem
  obtain ⟨horder, devices, nextCommit, commits, hop, hvalid⟩ := hlist log.order hmem
  refine ⟨horder, ⟨devices, nextCommit, hop⟩, ?_⟩
  unfold recoverValid at hvalid
  split at hvalid
  next node inceptH commit _ hincept _ =>
    simp only [Bool.and_eq_true] at hvalid
    exact ⟨inceptH, hincept, hvalid.1.1⟩
  next => cases hvalid

/-! ## Who is struck -/

theorem mem_strikes : h ∈ log.strikes log.recovers ↔
    h ∈ log.order ∧ ∃ r ∈ log.recovers, log.struckBy r.1 r.2 h = true := by
  rw [strikes, List.mem_toFinset, List.mem_flatMap]
  simp only [List.mem_filter]
  constructor
  · rintro ⟨r, hr, horder, hstruck⟩
    exact ⟨horder, r, hr, hstruck⟩
  · rintro ⟨horder, r, hr, hstruck⟩
    exact ⟨r, hr, horder, hstruck⟩

theorem mem_turns : h ∈ log.turns ↔ h ∈ log.order ∧ h ∉ log.strikes log.recovers := by
  rw [turns, List.mem_filter, decide_eq_true_eq]

/-- Inceptions and recoveries are not struck. -/
theorem mem_turns_of_op {op : ActorOp} (horder : h ∈ log.order) (hop : log.nodes.opOf h = some op)
    (hkind : op.actor = none ∨ ∃ actor devices nextCommit, op = .recover actor devices nextCommit) :
    h ∈ log.turns := by
  refine mem_turns.mpr ⟨horder, fun hstrikes => ?_⟩
  obtain ⟨-, r, -, hstruck⟩ := mem_strikes.mp hstrikes
  unfold struckBy at hstruck
  rw [hop] at hstruck
  rcases hkind with hincept | ⟨actor, devices, nextCommit, rfl⟩
  · cases op with
    | incept =>
        by_cases hat : log.incepts[r.2]? = some h
        · simp [hat] at hstruck
        · simp [hat] at hstruck
    | addDevice => cases hincept
    | revokeDevice => cases hincept
    | recover => cases hincept
  · simp at hstruck

/-- The inception of an actor has its effect. -/
theorem exists_effect_incept (hsound : log.Sound) (hincept : log.incepts[actor]? = some h) :
    ∃ devices recoveryCommit, log.effect h = some (.incept actor devices recoveryCommit) := by
  have hget := hincept
  rw [hsound.incepts] at hget
  obtain ⟨rfl, space, nonce, devices, recoveryCommit, hop⟩ := exists_of_get_inceptsOf hget
  refine ⟨devices, recoveryCommit, ?_⟩
  unfold Nodes.opOf at hop
  obtain ⟨node, hnode, hbytes⟩ := Option.bind_eq_some_iff.mp hop
  have horder : h ∈ log.order := by
    rw [hsound.order, mem_topoOrder]
    exact Nodes.mem_graph.mpr ⟨node, hnode⟩
  rw [effect, if_pos (mem_turns_of_op horder hop (Or.inl rfl)), effectAt, hnode]
  simp only [hbytes, hincept, if_true]

/-- A turn that comes later is no ancestor. -/
theorem not_has_of_later (hsound : log.Sound) (hpre : l ++ [h] <+: log.turns) (hk : k ∈ l) :
    log.ancestors.has k h = false := by
  have hpairwise : (log.turns).Pairwise fun h k => ¬ log.nodes.graph.Ancestor k h := by
    rw [turns, hsound.order]
    exact (pairwise_topoOrder hsound.acyclic).filter _
  have hlast := (List.pairwise_append.mp (hpairwise.sublist hpre.sublist)).2.2 k hk h
    (List.mem_singleton_self h)
  rw [hsound.ancestors, ← Bool.not_eq_true, has_computeAncestors]
  exact hlast

/-- A turn has its turns before it. -/
theorem exists_prefix (hmem : h ∈ log.turns) : ∃ l, l ++ [h] <+: log.turns := by
  obtain ⟨l, r, heq⟩ := List.append_of_mem hmem
  exact ⟨l, r, by rw [heq, List.append_assoc, List.singleton_append]⟩

/-- An ancestor has its turn before. -/
theorem mem_of_has (hsound : log.Sound) (hpre : l ++ [h] <+: log.turns) (hk : k ∈ log.turns)
    (hhas : log.ancestors.has h k = true) : k ∈ l := by
  obtain ⟨r, hr⟩ := hpre
  rw [← hr, List.mem_append, List.mem_append, List.mem_singleton] at hk
  rcases hk with (hk | rfl) | hk
  · exact hk
  · rw [hsound.ancestors, has_computeAncestors] at hhas
    exact absurd hhas (hsound.acyclic k)
  · obtain ⟨r₁, r₂, rfl⟩ := List.append_of_mem hk
    have hlater : (l ++ [h] ++ r₁) ++ [k] <+: log.turns := ⟨r₂, by rw [← hr]; simp⟩
    rw [not_has_of_later hsound hlater (by simp)] at hhas
    cases hhas

/-- A recovery in force has its effect. -/
theorem effect_recover (hsound : log.Sound) (hnodup : log.turns.Nodup) {devices : List DeviceBinding}
    {nextCommit : Option Bytes} (hmem : (h, actor) ∈ log.recovers)
    (hop : log.nodes.opOf h = some (ActorOp.recover actor devices nextCommit)) :
    log.effect h = some (.recover actor devices nextCommit) := by
  obtain ⟨horder, -, inceptH, hincept, hhas⟩ := mem_recovers hmem
  have hturn := mem_turns_of_op horder hop (Or.inr ⟨actor, devices, nextCommit, rfl⟩)
  obtain ⟨l, hpre⟩ := exists_prefix hturn
  obtain ⟨devices', commit', heffect⟩ := exists_effect_incept hsound hincept
  have hbefore := mem_of_has hsound hpre (mem_turns_of_effect heffect) hhas
  obtain ⟨st, hst⟩ := exists_state hnodup ((List.prefix_append l [h]).trans hpre) hbefore heffect
  have hst : (log.passAfter l).states[actor]? = some st := hst
  unfold Nodes.opOf at hop
  obtain ⟨node, hnode, hbytes⟩ := Option.bind_eq_some_iff.mp hop
  have hany : (log.recovers.any fun r => r.1 = h) = true :=
    List.any_eq_true.mpr ⟨_, hmem, by simp⟩
  rw [effect_eq hnodup hpre, effectAt, hnode]
  simp only [hbytes, hst, hany, if_true]

/-- The effect of an event is on the actor it names. -/
theorem isEventOf_of_effect (heffect : log.effect h = some e) : log.IsEventOf e.actor h := by
  rw [effect, if_pos (mem_turns_of_effect heffect)] at heffect
  rcases effectAt_eq_some heffect with ⟨_, _, _, _, -, rfl, hincept⟩ | ⟨_, _, _, hop, rfl, -⟩ |
    ⟨_, _, _, hop, rfl, -⟩ | ⟨_, _, _, _, hop, rfl, -⟩
  · exact Or.inl hincept
  · exact Or.inr ⟨_, hop, rfl⟩
  · exact Or.inr ⟨_, hop, rfl⟩
  · exact Or.inr ⟨_, hop, rfl⟩

/-- The effect of a recovery comes from a recovery in force. -/
theorem mem_recovers_of_effect {devices : List DeviceBinding} {nextCommit : Option Bytes}
    (heffect : log.effect h = some (.recover actor devices nextCommit)) :
    (h, actor) ∈ log.recovers := by
  rw [effect, if_pos (mem_turns_of_effect heffect)] at heffect
  rcases effectAt_eq_some heffect with ⟨_, _, _, _, -, he, -⟩ | ⟨_, _, _, -, he, -⟩ |
    ⟨_, _, _, -, he, -⟩ | ⟨actor', _, _, _, hop, he, -, hany⟩
  · cases he
  · cases he
  · cases he
  · cases he
    obtain ⟨⟨h', actor'⟩, hmem, hsame⟩ := List.any_eq_true.mp hany
    obtain rfl : h' = h := of_decide_eq_true hsame
    obtain ⟨-, ⟨_, _, hop'⟩, -⟩ := mem_recovers hmem
    rw [hop] at hop'
    cases hop'
    exact hmem

/-! ## Without a recovery -/

/-- The devices of a replay, in terms of the authorized events. -/
theorem mem_devices_replay (hnodup : log.turns.Nodup) (actor : ActorId) (d : Text) :
    d ∈ devicesIn log.replay.actors actor ↔
      d ∈ devicesIn (log.passAfter log.turns).states actor ∧
        ∀ r, log.Revokes actor d r →
          ∃ h, log.Binds actor d h ∧ log.ancestors.has h r = true := by
  rw [replay_eq, mem_devicesIn_evictRevoked]
  refine and_congr_right fun _ => forall_congr' fun r => ?_
  simp only [mem_revokes hnodup (List.prefix_refl _), mem_adds hnodup (List.prefix_refl _)]
  constructor
  · rintro hagain ⟨e, heffect, hrest⟩
    obtain ⟨h, ⟨-, hbinds⟩, hhas⟩ := hagain ⟨mem_turns_of_effect heffect, e, heffect, hrest⟩
    exact ⟨h, hbinds, hhas⟩
  · rintro hagain ⟨-, hrevokes⟩
    obtain ⟨h, ⟨e, heffect, hrest⟩, hhas⟩ := hagain hrevokes
    exact ⟨h, ⟨mem_turns_of_effect heffect, e, heffect, hrest⟩, hhas⟩

/-- **The devices of an actor without a recovery in force.** -/
theorem mem_devices_iff (hsound : log.Sound) (hnodup : log.turns.Nodup)
    (hnone : ∀ r ∈ log.recovers, r.2 ≠ actor) :
    d ∈ devicesIn log.replay.actors actor ↔
      (∃ h, log.Binds actor d h) ∧ ∀ r, log.Revokes actor d r →
        ∃ h, log.Binds actor d h ∧ log.ancestors.has h r = true := by
  have hrefl := List.prefix_refl log.turns
  rw [mem_devices_replay hnodup]
  refine and_congr_left fun hagain => ⟨fun hd => ?_, fun hbound => ?_⟩
  · obtain ⟨h, -, hbinds⟩ := exists_binds hnodup hrefl hd
    exact ⟨h, hbinds⟩
  · by_contra hd
    have hrecover : ∀ h devices nextCommit,
        log.effect h ≠ some (.recover actor devices nextCommit) :=
      fun h _ _ heffect => hnone _ (mem_recovers_of_effect heffect) rfl
    rcases unbound_or_revoked hnodup hrefl hrecover hd with hunbound | ⟨l₁, r, l₂, heq, hrevokes, hsince⟩
    · obtain ⟨h, e, heffect, hrest⟩ := hbound
      exact hunbound h (mem_turns_of_effect heffect) ⟨e, heffect, hrest⟩
    · -- What binds the device again descends from the revocation, so it comes since.
      obtain ⟨h, hbinds, hhas⟩ := hagain r hrevokes
      have hturn : h ∈ log.turns := mem_turns_of_effect hbinds.choose_spec.1
      have hpre : l₁ ++ [r] <+: log.turns := ⟨l₂, by rw [heq]; simp⟩
      rw [heq, List.mem_append, List.mem_cons] at hturn
      rcases hturn with hh | rfl | hh
      · rw [not_has_of_later hsound hpre hh] at hhas
        cases hhas
      · rw [hsound.ancestors, has_computeAncestors] at hhas
        exact hsound.acyclic h hhas
      · exact hsince h hh hbinds

/-! ## Under a recovery -/

/-- The recovery `h` of the actor stands last: its other recoveries in force are
each followed by one, and no event of the actor follows it. -/
structure StandsLast (log : Log) (actor : ActorId) (h : Text) : Prop where
  recovers : (h, actor) ∈ log.recovers
  last : ∀ k, log.IsEventOf actor k → k ≠ h →
    log.ancestors.has h k = true ∨ log.Concurrent k h
  only : ∀ k, (k, actor) ∈ log.recovers → k ≠ h →
    ∃ k', (k', actor) ∈ log.recovers ∧ log.ancestors.has k' k = true

/-- The other recoveries of the actor are ancestors of the last. -/
theorem StandsLast.has (hsound : log.Sound) (hlast : log.StandsLast actor h)
    (hk : (k, actor) ∈ log.recovers) (hne : k ≠ h) : log.ancestors.has h k = true := by
  revert hk hne
  refine hsound.acyclic.wellFounded_swap.transGen.induction
    (C := fun k => (k, actor) ∈ log.recovers → k ≠ h → log.ancestors.has h k = true) k ?_
  intro k ih hk hne
  obtain ⟨k', hk', hhas⟩ := hlast.only k hk hne
  by_cases hsame : k' = h
  · rw [← hsame]
    exact hhas
  · have hnext := hhas
    rw [hsound.ancestors, has_computeAncestors] at hnext
    have hup := ih k' (Relation.transGen_swap.mpr hnext) hk' hsame
    rw [hsound.ancestors, has_computeAncestors] at hup ⊢
    exact hnext.trans hup

/-- **An event of the actor that is concurrent with its last recovery is not
authorized.**  It is struck, or it is a recovery that is not in force. -/
theorem effect_eq_none_of_concurrent (hsound : log.Sound) (hlast : log.StandsLast actor h)
    (hevent : log.IsEventOf actor k) (hconcurrent : log.Concurrent k h) : log.effect k = none := by
  obtain ⟨hne, hafter, hbefore⟩ := hconcurrent
  cases heffect : log.effect k with
  | none => rfl
  | some e =>
      exfalso
      have hturn := mem_turns_of_effect heffect
      have hstruck : log.struckBy h actor k = true →
          False := fun hstruck => (mem_turns.mp hturn).2
        (mem_strikes.mpr ⟨(mem_turns.mp hturn).1, (h, actor), hlast.recovers, hstruck⟩)
      obtain ⟨-, -, inceptH, hincept, hdescends⟩ := mem_recovers hlast.recovers
      have hroot : log.incepts[actor]? ≠ some k := by
        intro hk
        obtain rfl : inceptH = k := Option.some.inj (hincept.symm.trans hk)
        rw [hdescends] at hbefore
        cases hbefore
      rcases hevent with hk | ⟨op, hop, hactor⟩
      · exact hroot hk
      · cases op with
        | incept => cases hactor
        | addDevice actor' binding =>
            obtain rfl := Option.some.inj hactor
            exact hstruck (by simp [struckBy, hop, hne, hroot, hafter, hbefore, ActorOp.actor])
        | revokeDevice actor' device =>
            obtain rfl := Option.some.inj hactor
            exact hstruck (by simp [struckBy, hop, hne, hroot, hafter, hbefore, ActorOp.actor])
        | recover actor' devices nextCommit =>
            obtain rfl := Option.some.inj hactor
            have hat := heffect
            rw [effect, if_pos hturn] at hat
            rcases effectAt_eq_some hat with ⟨_, _, _, _, hop', -⟩ | ⟨_, _, _, hop', -⟩ |
              ⟨_, _, _, hop', -⟩ | ⟨_, _, _, _, hop', rfl, -⟩
            · cases hop.symm.trans hop'
            · cases hop.symm.trans hop'
            · cases hop.symm.trans hop'
            · cases hop.symm.trans hop'
              rw [hlast.has hsound (mem_recovers_of_effect heffect) hne] at hbefore
              cases hbefore

/-- From the last recovery on, the devices are those it lists. -/
theorem devicesIn_since (hsound : log.Sound) (hnodup : log.turns.Nodup)
    (hlast : log.StandsLast actor h) {devices : List DeviceBinding} {nextCommit : Option Bytes}
    (heffect : log.effect h = some (.recover actor devices nextCommit))
    (hpre : l <+: log.turns) (hh : h ∈ l) :
    devicesIn (log.passAfter l).states actor = bindingDevices devices := by
  revert hh
  refine run_induction hnodup (P := fun l pass => h ∈ l →
    devicesIn pass.states actor = bindingDevices devices) ?_ ?_ ?_ l hpre
  · intro hh
    cases hh
  · intro l k _ hnone ih hh
    rcases List.mem_append.mp hh with hh | hh
    · exact ih hh
    · rw [← List.mem_singleton.mp hh, heffect] at hnone
      cases hnone
  · intro l k e hpre heffect' ih hh
    have hat := heffect'
    rw [effect_eq hnodup hpre] at hat
    rw [devicesIn_perform hat]
    rcases List.mem_append.mp hh with hh | hh
    · -- A later event on the actor would have to be concurrent with the recovery.
      have hne : k ≠ h := by
        rintro rfl
        have hone := hnodup.sublist hpre.sublist
        exact (List.nodup_append.mp hone).2.2 k hh k (List.mem_singleton_self k) rfl
      have hother : e.actor ≠ actor := by
        rintro rfl
        have hevent := isEventOf_of_effect heffect'
        rcases hlast.last k hevent hne with hhas | hconcurrent
        · rw [not_has_of_later hsound hpre hh] at hhas
          cases hhas
        · rw [effect_eq_none_of_concurrent hsound hlast hevent hconcurrent] at heffect'
          cases heffect'
      rw [if_neg hother]
      exact ih hh
    · obtain rfl := List.mem_singleton.mp hh
      obtain rfl := Option.some.inj (heffect.symm.trans heffect')
      rw [Effect.actor, if_pos rfl]
      rfl

/-- **The devices of an actor whose last recovery stands.** -/
theorem devicesIn_replay_recover (hsound : log.Sound) (hnodup : log.turns.Nodup)
    (hlast : log.StandsLast actor h) {devices : List DeviceBinding} {nextCommit : Option Bytes}
    (hop : log.nodes.opOf h = some (ActorOp.recover actor devices nextCommit)) :
    ∃ st, log.replay.state actor = some st ∧ st.devices = bindingDevices devices := by
  have hrefl := List.prefix_refl log.turns
  have heffect := effect_recover hsound hnodup hlast.recovers hop
  have hsince := devicesIn_since hsound hnodup hlast heffect hrefl (mem_turns_of_effect heffect)
  have hdevices : devicesIn log.replay.actors actor = bindingDevices devices := by
    ext d
    rw [mem_devices_replay hnodup, hsince]
    refine and_iff_left_of_imp fun hd r hrevokes => ?_
    obtain ⟨e, heffect', hactor, hrevoked⟩ := hrevokes
    have hevent := isEventOf_of_effect heffect'
    rw [hactor] at hevent
    have hne : r ≠ h := by
      rintro rfl
      obtain rfl := Option.some.inj (heffect.symm.trans heffect')
      cases hrevoked
    rcases hlast.last r hevent hne with hhas | hconcurrent
    · exact ⟨h, ⟨_, heffect, rfl, hd⟩, hhas⟩
    · rw [effect_eq_none_of_concurrent hsound hlast hevent hconcurrent] at heffect'
      cases heffect'
  obtain ⟨st, hst⟩ := exists_state hnodup hrefl (mem_turns_of_effect heffect) heffect
  have hsome : (log.evictRevoked (log.passAfter log.turns))[actor]?.isSome = true := by
    rw [get_evictRevoked_isSome]
    exact Option.isSome_iff_exists.mpr ⟨st, hst⟩
  obtain ⟨st', hst'⟩ := Option.isSome_iff_exists.mp hsome
  refine ⟨st', hst', ?_⟩
  rw [← hdevices]
  exact (devicesIn_of_get hst').symm

end Log

/-- **The device-set law.**  Without a recovery of the actor in force, its
devices are those that an authorized event binds and that every authorized
revocation is followed by a binding of.  Under a recovery that stands last, they
are the devices it lists, and no event of the actor concurrent with it has an
effect. -/
theorem device_set_law [Crypto] [Postcard ActorOp] (hacyclic : HashesAcyclic) (spaceId : SpaceId)
    (events : List SignedEvent) (actor : ActorId) :
    let log := Log.build spaceId events none
    ((∀ r ∈ log.recovers, r.2 ≠ actor) → ∀ device : DeviceId,
      ((replay spaceId events).isDeviceOf actor device = true ↔
        (∃ h, log.Binds actor device.fold h) ∧
          ∀ r, log.Revokes actor device.fold r →
            ∃ h, log.Binds actor device.fold h ∧ log.ancestors.has h r = true)) ∧
    (∀ h devices nextCommit,
      log.nodes.opOf h = some (ActorOp.recover actor devices nextCommit) →
      log.StandsLast actor h →
        (∃ st, (replay spaceId events).state actor = some st ∧
          st.devices = bindingDevices devices) ∧
        ∀ k, log.IsEventOf actor k → log.Concurrent k h → log.effect k = none) := by
  intro log
  have hsound : log.Sound := Log.sound_build hacyclic spaceId events
  have hnodup : log.turns.Nodup := nodup_turns spaceId events none
  refine ⟨fun hnone device => ?_, fun h devices nextCommit hop hlast => ⟨?_, ?_⟩⟩
  · rw [isDeviceOf_iff]
    exact Log.mem_devices_iff hsound hnodup hnone
  · exact Log.devicesIn_replay_recover hsound hnodup hlast hop
  · exact fun k hevent hconcurrent =>
      Log.effect_eq_none_of_concurrent hsound hlast hevent hconcurrent

namespace Demo

/-- The owner binds device 1, and concurrently recovers to device 3 alone. -/
def raceOps : List ActorOp :=
  [inceptOp, .addDevice owner (consent 1 1), .recover owner [consent 3 3] none]

/-- The binding of device 1. -/
def bindOne : SignedEvent := sign 0 1 [hash incept]

/-- The recovery, by the key 2. -/
def recoverThree : SignedEvent := sign 2 2 [hash incept]

/-- The race, as a log. -/
def race : Log := log raceOps [incept, bindOne, recoverThree]

end Demo

/-- The recovery of the race stands last. -/
theorem race_standsLast :
    letI := idealCrypto
    letI := tableCodec Demo.raceOps
    Demo.race.StandsLast Demo.owner (Demo.hash Demo.recoverThree) := by
  let _ := idealCrypto
  let _ : Postcard ActorOp := tableCodec Demo.raceOps
  have hnodes : ∀ k ∈ Demo.race.nodes.keys, k ≠ Demo.hash Demo.recoverThree →
      Demo.race.ancestors.has (Demo.hash Demo.recoverThree) k = true ∨
        (k ≠ Demo.hash Demo.recoverThree ∧
          Demo.race.ancestors.has k (Demo.hash Demo.recoverThree) = false ∧
          Demo.race.ancestors.has (Demo.hash Demo.recoverThree) k = false) := by
    decide +kernel
  have hsound : Demo.race.Sound := Log.sound_build idealCrypto_hashesAcyclic Demo.space
    [Demo.incept, Demo.bindOne, Demo.recoverThree]
  refine ⟨by decide +kernel, fun k hevent hne => hnodes k ?_ hne, fun k hk hne => ?_⟩
  · have hop : ∃ op : ActorOp, Demo.race.nodes.opOf k = some op := by
      rcases hevent with hincept | ⟨op, hop, -⟩
      · rw [hsound.incepts] at hincept
        obtain ⟨-, _, _, _, _, hop⟩ := Log.exists_of_get_inceptsOf hincept
        exact ⟨_, hop⟩
      · exact ⟨op, hop⟩
    obtain ⟨op, hop⟩ := hop
    unfold Nodes.opOf at hop
    obtain ⟨node, hnode, -⟩ := Option.bind_eq_some_iff.mp hop
    exact BTreeMap.mem_keys_iff.mpr ⟨node, hnode⟩
  · have hone : ∀ r ∈ Demo.race.recovers, r.1 = Demo.hash Demo.recoverThree := by decide +kernel
    exact absurd (hone _ hk) hne

/-- The recovery leaves device 3, and the binding of device 1 has no effect;
without the recovery, device 1 is in the set. -/
theorem device_set_law_race :
    letI := idealCrypto
    letI := tableCodec Demo.raceOps
    ((∃ st, (replay Demo.space [Demo.incept, Demo.bindOne, Demo.recoverThree]).state Demo.owner =
        some st ∧ st.devices = bindingDevices [Demo.consent 3 3]) ∧
      Demo.race.effect (Demo.hash Demo.bindOne) = none) ∧
    ((∃ h, (Demo.log Demo.raceOps [Demo.incept, Demo.bindOne]).Binds Demo.owner
        (Demo.device 1).fold h) ∧
      ∀ r, (Demo.log Demo.raceOps [Demo.incept, Demo.bindOne]).Revokes Demo.owner
        (Demo.device 1).fold r →
          ∃ h, (Demo.log Demo.raceOps [Demo.incept, Demo.bindOne]).Binds Demo.owner
            (Demo.device 1).fold h ∧
            (Demo.log Demo.raceOps [Demo.incept, Demo.bindOne]).ancestors.has h r = true) := by
  let _ := idealCrypto
  let _ : Postcard ActorOp := tableCodec Demo.raceOps
  have hrecovery := (device_set_law idealCrypto_hashesAcyclic Demo.space
    [Demo.incept, Demo.bindOne, Demo.recoverThree] Demo.owner).2 (Demo.hash Demo.recoverThree)
    [Demo.consent 3 3] none (by decide +kernel) race_standsLast
  have hplain := (device_set_law idealCrypto_hashesAcyclic Demo.space
    [Demo.incept, Demo.bindOne] Demo.owner).1 (by decide +kernel) (Demo.device 1)
  refine ⟨⟨hrecovery.1, hrecovery.2 (Demo.hash Demo.bindOne) ?_ ?_⟩,
    hplain.mp (by decide +kernel)⟩
  · exact Or.inr ⟨.addDevice Demo.owner (Demo.consent 1 1), by decide +kernel, rfl⟩
  · exact ⟨by decide +kernel, by decide +kernel, by decide +kernel⟩

end Actor

end Lait
