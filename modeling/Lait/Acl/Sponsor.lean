import Lait.Acl.Replay

/-!
# The sponsor invariant

Every agent and every sponsor should be a member, no sponsor should be an agent,
and no agent should hold `Admin`.  The final cascade of pass 2 relies on the
third of these to make do with one pass.

The fourth always holds.  The other three hold together unless sponsorship
chains: an actor removed and sponsored back is an agent, and whoever they had
sponsored before is still recorded as their agent, because pass 2 drops agents
only at its end.  `sponsorInvariant_iff` says that this is the only way.
-/

namespace Lait

namespace Acl

/-- What should hold of the agents map of a materialized state. -/
def SponsorInvariant (st : AclState) : Prop :=
  ∀ agent sponsor, st.agents[agent]? = some sponsor →
    st.isMember agent = true ∧ st.isMember sponsor = true ∧ st.isAgent sponsor = false ∧
      st.isAdmin agent = false

/-- Two sponsorships in a row: both last ops naming the agent and the sponsor
are `AddAgent`s, and no removal of either went unseen. -/
def SponsorChain (ancestors : Ancestors) (auth : Authorized) : Prop :=
  ∃ agent sponsor sponsor', SponsoredBy auth agent sponsor ∧
    SponsoredBy auth sponsor sponsor' ∧ ¬ RemovedUnseen ancestors auth agent ∧
      ¬ RemovedUnseen ancestors auth sponsor

/-- A sponsored actor stands as soon as no removal of theirs went unseen. -/
theorem SponsoredBy.stands_iff {founders : Finset ActorId} {ancestors : Ancestors}
    {auth : Authorized} (hfun : Functional auth) {a s : ActorId} (hspons : SponsoredBy auth a s) :
    Stands founders ancestors auth a ↔ ¬ RemovedUnseen ancestors auth a := by
  refine ⟨And.left, fun hunseen => ⟨hunseen, ?_⟩⟩
  obtain ⟨op, grants, hlast, haction, -⟩ := id hspons
  rw [hlast]
  exact ⟨by rw [haction, AclAction.seats], hspons.seated hfun⟩

section Sponsor

variable [Crypto] [Postcard Actor.ActorOp] [Postcard AclOp]

/-- No materialized agent holds `Admin`: pass 1 refuses to seat one so. -/
theorem not_isAdmin_of_agent (genesis : Genesis) (events : List Actor.SignedEvent)
    (ops : List SignedOp) {a s : ActorId} (hagent : (replay genesis events ops).agents[a]? = some s) :
    (replay genesis events ops).isAdmin a = false := by
  rw [replay_eq] at hagent ⊢
  obtain ⟨-, ⟨op, grants, hlast, haction, -⟩, -⟩ := agents_materialize.mp hagent
  obtain ⟨-, l₁, h, l₂, hsplit, -⟩ := lastOn_eq_some hlast
  have hmem : (h, op) ∈ authorizedOps genesis events ops := by
    rw [authorizedOps, hsplit]
    simp
  have hfree := (replayCheckpointed_judged genesis events ops).sponsorable hmem haction
  rw [AclState.isAdmin, Option.any_eq_false_iff_get]
  intro hsome
  obtain ⟨g, hget⟩ := Option.isSome_iff_exists.mp hsome
  have hgrants := members_materialize hlast hget
  rw [haction, AclAction.seatGrants, Option.some.injEq] at hgrants
  simp [hget, ← hgrants, hfree]

/-- **When the sponsor invariant holds.**  Exactly when no sponsorship chains. -/
theorem sponsorInvariant_iff (genesis : Genesis) (events : List Actor.SignedEvent)
    (ops : List SignedOp) :
    SponsorInvariant (replay genesis events ops) ↔
      ¬ SponsorChain (opAncestors genesis ops) (authorizedOps genesis events ops) := by
  have hfun := functional_authorizedOps genesis events ops
  constructor
  · rintro hinv ⟨a, s, s', ha, hs, haun, hsun⟩
    have hastands : Stands genesis.founders (opAncestors genesis ops)
        (authorizedOps genesis events ops) a := (ha.stands_iff hfun).mpr haun
    have hsstands : Stands genesis.founders (opAncestors genesis ops)
        (authorizedOps genesis events ops) s := (hs.stands_iff hfun).mpr hsun
    obtain ⟨-, hmember, hagent, -⟩ := hinv a s (agents_replay.mpr ⟨hastands, ha, hsstands⟩)
    -- The sponsor is a member, so their own sponsor stands and they are an agent.
    have hs' := (isMember_replay.mp hmember).2 s' hs
    have hget := agents_replay.mpr ⟨hsstands, hs, hs'⟩
    rw [AclState.isAgent, Std.ExtTreeMap.contains_eq_isSome_getElem?, hget] at hagent
    cases hagent
  · intro hchain a s hagent
    obtain ⟨hastands, ha, hsstands⟩ := agents_replay.mp hagent
    have hsfree : ∀ s', ¬ SponsoredBy (authorizedOps genesis events ops) s s' := fun s' hs =>
      hchain ⟨a, s, s', ha, hs, hastands.1, hsstands.1⟩
    refine ⟨isMember_replay.mpr ⟨hastands, fun s' hs' => ?_⟩,
      isMember_replay.mpr ⟨hsstands, fun s' hs' => absurd hs' (hsfree s')⟩, ?_,
      not_isAdmin_of_agent genesis events ops hagent⟩
    · rwa [hs'.unique ha]
    · rw [AclState.isAgent, ← Bool.not_eq_true, BTreeMap.contains_iff]
      rintro ⟨s', hget⟩
      exact hsfree s' (agents_replay.mp hget).2.1

end Sponsor

/-! ### A chain

Founder 1 sponsors `bot`; founder 0 removes founder 1 and then sponsors them
back as an agent. -/

namespace Demo

def bot : ActorId := ⟨[98]⟩

def chainTable : List AclOp :=
  [op 1 (.addAgent bot [.write]) none, op 0 (.removeMember (actor 1)) none,
    op 0 (.addAgent (actor 1) [.write]) none]

def chainOps : List SignedOp :=
  let first := sign 1 0 []
  let second := sign 0 1 [hash first]
  [first, second, sign 0 2 [hash second]]

end Demo

/-- After the three ops the sponsor of `bot` is an agent. -/
theorem sponsorInvariant_fails_on_chain :
    ¬ SponsorInvariant (Demo.checkpoint Demo.chainTable Demo.chainOps).state := by
  intro hinv
  have hagent : (Demo.checkpoint Demo.chainTable Demo.chainOps).state.agents[Demo.bot]? =
      some (Demo.actor 1) := by decide +kernel
  have hsponsor : (Demo.checkpoint Demo.chainTable Demo.chainOps).state.isAgent
      (Demo.actor 1) = true := by decide +kernel
  have hnot := (hinv _ _ hagent).2.2.1
  rw [hsponsor] at hnot
  cases hnot

end Acl

end Lait
