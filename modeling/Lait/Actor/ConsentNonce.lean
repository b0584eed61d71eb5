import Lait.Actor.Run

/-!
# Consent tokens

A binding carries its device's consent, signed over a nonce.  The pass keeps the
set of tokens spent (an actor, a device and a nonce), so that an old consent
cannot bind a device again after its revocation.

Three kinds of events spend tokens, and they differ in what keeps a token from
being spent twice.  An inception is the first effect on its actor, so none of its
tokens can be spent yet.  A new device's token is looked up.  A recovery looks up
none of the tokens it lists.  So tokens are single-use exactly when no recovery
lists a token that is spent when its turn comes (`singleUse_iff`), and a recovery
that carries an old consent brings a revoked device back
(`recover_reuses_consent`).
-/

namespace Lait

namespace Actor

namespace Log

variable [Crypto] [Postcard ActorOp]

/-- No token is spent by two authorized events. -/
def SingleUse (log : Log) : Prop :=
  ∀ h h' e e', h ≠ h' → log.effect h = some e → log.effect h' = some e' →
    ∀ token ∈ e.tokens, token ∉ e'.tokens

/-- No recovery lists a token that is spent when its turn comes. -/
def RecoversUnspent (log : Log) : Prop :=
  ∀ h actor devices nextCommit, log.effect h = some (.recover actor devices nextCommit) →
    ∀ token ∈ (Effect.recover actor devices nextCommit).tokens,
      token ∉ (log.passBefore h).consumed

variable {log : Log} {l : List Text} {h : Text} {e : Effect}

omit [Crypto] [Postcard ActorOp] in
/-- The tokens of an effect are of its actor. -/
theorem actor_of_mem_tokens {token : ActorId × Text × Bytes} (htoken : token ∈ e.tokens) :
    token.1 = e.actor := by
  obtain ⟨b, -, rfl⟩ := List.mem_map.mp htoken
  rfl

/-- What is not a recovery spends no token twice. -/
theorem unspent (hnodup : log.turns.Nodup) (hpre : l ++ [h] <+: log.turns)
    (heffect : log.effect h = some e)
    (hkind : ∀ actor devices nextCommit, e ≠ .recover actor devices nextCommit)
    {token : ActorId × Text × Bytes} (htoken : token ∈ e.tokens) :
    token ∉ (log.passAfter l).consumed := by
  have hat := heffect
  rw [effect_eq hnodup hpre] at hat
  rcases effectAt_eq_some hat with ⟨_, _, _, _, -, rfl, -⟩ |
    ⟨actor, binding, _, -, rfl, -, -, hfresh⟩ | ⟨_, _, _, -, rfl, -⟩ | ⟨_, _, _, _, -, rfl, -⟩
  · -- The actor of a spent token is known, and before the inception it is not.
    intro hspent
    have hshort := (List.prefix_append l [h]).trans hpre
    obtain ⟨k, hk, e', heffect', htoken'⟩ := (mem_consumed hnodup hshort).mp hspent
    obtain ⟨st, hst⟩ := exists_state hnodup hshort hk heffect'
    rw [← actor_of_mem_tokens htoken', actor_of_mem_tokens htoken] at hst
    cases (unknown_before_incept hnodup hpre heffect).symm.trans hst
  · rw [show token = (actor, binding.device.fold, binding.nonce) from List.mem_singleton.mp htoken]
    exact hfresh
  · cases htoken
  · exact absurd rfl (hkind _ _ _)

/-- **Tokens are single-use exactly when recoveries list unspent ones.** -/
theorem singleUse_iff_recoversUnspent (hnodup : log.turns.Nodup) :
    log.SingleUse ↔ log.RecoversUnspent := by
  constructor
  · intro hsingle h actor devices nextCommit heffect token htoken hspent
    obtain ⟨l, r, heq⟩ := List.append_of_mem (mem_turns_of_effect heffect)
    have hpre : l ++ [h] <+: log.turns := ⟨r, by rw [heq]; simp⟩
    rw [passBefore_eq hnodup hpre,
      mem_consumed hnodup ((List.prefix_append l [h]).trans hpre)] at hspent
    obtain ⟨k, hk, e, heffect', htoken'⟩ := hspent
    have hne : k ≠ h := by
      have hone := hnodup.sublist hpre.sublist
      exact (List.nodup_append.mp hone).2.2 k hk h (List.mem_singleton_self h)
    exact hsingle k h e _ hne heffect' heffect token htoken' htoken
  · intro hunspent
    -- It is enough to look at the later of the two events.
    have hlater : ∀ {l k h e e'}, l ++ [h] <+: log.turns → k ∈ l → log.effect k = some e →
        log.effect h = some e' → ∀ token ∈ e.tokens, token ∉ e'.tokens := by
      intro l k h e e' hpre hk heffect heffect' token htoken htoken'
      have hspent : token ∈ (log.passAfter l).consumed :=
        (mem_consumed hnodup ((List.prefix_append l [h]).trans hpre)).mpr
          ⟨k, hk, e, heffect, htoken⟩
      by_cases hkind : ∃ actor devices nextCommit, e' = .recover actor devices nextCommit
      · obtain ⟨actor, devices, nextCommit, rfl⟩ := hkind
        have hat := hunspent h actor devices nextCommit heffect' token htoken'
        rw [passBefore_eq hnodup hpre] at hat
        exact hat hspent
      · push Not at hkind
        exact unspent hnodup hpre heffect' hkind htoken' hspent
    intro h h' e e' hne heffect heffect' token htoken htoken'
    obtain ⟨l, r, heq⟩ := List.append_of_mem (mem_turns_of_effect heffect')
    have hmem := mem_turns_of_effect heffect
    rw [heq, List.mem_append, List.mem_cons] at hmem
    rcases hmem with hh | hh | hh
    · exact hlater ⟨r, by rw [heq]; simp⟩ hh heffect heffect' token htoken htoken'
    · exact hne hh
    · obtain ⟨r₁, r₂, rfl⟩ := List.append_of_mem hh
      have hpre : (l ++ h' :: r₁) ++ [h] <+: log.turns := ⟨r₂, by rw [heq]; simp⟩
      exact hlater hpre (by simp) heffect' heffect token htoken' htoken

end Log

/-- **When consents are single-use.**  In the replay of a list of events no token
is spent by two authorized events exactly when no authorized recovery lists a
token that is spent when its turn comes. -/
theorem singleUse_iff [Crypto] [Postcard ActorOp] (spaceId : SpaceId)
    (events : List SignedEvent) :
    (Log.build spaceId events none).SingleUse ↔
      (Log.build spaceId events none).RecoversUnspent :=
  Log.singleUse_iff_recoversUnspent (nodup_turns spaceId events none)

namespace Demo

/-- The owner binds device 1, revokes it, and recovers to a list that holds the
old consent of device 1. -/
def reuseOps : List ActorOp :=
  [inceptOp, .addDevice owner (consent 1 1), .revokeDevice owner (device 1),
    .recover owner [consent 1 1] none]

def bound : SignedEvent := sign 0 1 [hash incept]

def revoked : SignedEvent := sign 0 2 [hash bound]

def reused : SignedEvent := sign 2 3 [hash revoked]

/-- Replay events over the ops. -/
def directory (events : List SignedEvent) : Directory :=
  letI := idealCrypto
  letI := tableCodec reuseOps
  replay space events

end Demo

/-- Device 1 is bound and revoked; the recovery spends its token again, and it is
a device of the owner once more. -/
theorem recover_reuses_consent :
    letI := idealCrypto
    letI := tableCodec Demo.reuseOps
    let events := [Demo.incept, Demo.bound, Demo.revoked, Demo.reused]
    (Demo.log Demo.reuseOps events).effect (Demo.hash Demo.bound) =
        some (.addDevice Demo.owner (Demo.consent 1 1)) ∧
      (Demo.log Demo.reuseOps events).effect (Demo.hash Demo.reused) =
        some (.recover Demo.owner [Demo.consent 1 1] none) ∧
      ¬ (Demo.log Demo.reuseOps events).SingleUse ∧
      (Demo.directory [Demo.incept, Demo.bound]).isDeviceOf Demo.owner (Demo.device 1) = true ∧
      (Demo.directory [Demo.incept, Demo.bound, Demo.revoked]).isDeviceOf Demo.owner
        (Demo.device 1) = false ∧
      (Demo.directory events).isDeviceOf Demo.owner (Demo.device 1) = true := by
  let _ := idealCrypto
  let _ : Postcard ActorOp := tableCodec Demo.reuseOps
  have hbound : (Demo.log Demo.reuseOps [Demo.incept, Demo.bound, Demo.revoked,
      Demo.reused]).effect (Demo.hash Demo.bound) =
        some (.addDevice Demo.owner (Demo.consent 1 1)) := by decide +kernel
  have hreused : (Demo.log Demo.reuseOps [Demo.incept, Demo.bound, Demo.revoked,
      Demo.reused]).effect (Demo.hash Demo.reused) =
        some (.recover Demo.owner [Demo.consent 1 1] none) := by decide +kernel
  refine ⟨hbound, hreused, fun hsingle => ?_, by decide +kernel, by decide +kernel,
    by decide +kernel⟩
  exact hsingle _ _ _ _ (by decide +kernel) hbound hreused
    (Demo.owner, (Demo.consent 1 1).device.fold, (Demo.consent 1 1).nonce)
    (List.mem_singleton_self _) (List.mem_singleton_self _)

end Actor

end Lait
