import Lait.Acl.Replay

/-!
# The two notions of a policy administrator

Pass 1 asks who administers policy while it judges: a human member, not an
agent, who is a founder or holds an unrevoked meta-capability grant.  Pass 2
writes the same set down at the end, from the materialized members, and does not
look at the agents.

On a single causal chain nothing is concurrent, so the two passes see the same
ops in the same order.  Nobody loses a race, an admission is fenced exactly when
it redeems an invite already revoked (`Linear.void_iff`), and a removal goes
unseen only when nothing seats the actor afterwards (`Linear.stands_iff`).  What
is left is where the passes drift apart, for a founder or a grant holder:

* `AgentDrift` — removed and sponsored back by somebody who stands, they are an
  agent, hence no administrator to pass 1, and a member, hence one to pass 2;
* `SeatDrift` — seated by redemptions of revoked invites only, they are human to
  pass 1 and no member to pass 2.
-/

namespace Lait

namespace Acl

/-- The policy tables of a list of authorized ops. -/
def policyOf (auth : Authorized) : PolicyPass :=
  auth.foldl (fun policy e => policy.apply e.2.action) PolicyPass.default

section Linear

variable (founders : Finset ActorId) (ancestors : Ancestors) (auth : Authorized)

/-- Every op descends from the ops before it, and from no other. -/
def Linear : Prop :=
  auth.Pairwise fun e e' =>
    e.1 ≠ e'.1 ∧ ancestors.has e.1 e'.1 = false ∧ ancestors.has e'.1 e.1 = true

/-- The admission `h` spends a nonce whose revocation it had seen. -/
def RedeemsRevoked (h : Text) : Prop :=
  ∃ a n, Admits auth h a n ∧ ∃ r, Revokes auth r n ∧ ancestors.has h r = true

/-- What standing comes to when nothing is concurrent. -/
def StandsInOrder (a : ActorId) : Prop :=
  match lastOn auth a with
  | none => a ∈ founders
  | some op => op.action.seats = some a ∧
      ∃ h, SeatsAt auth h a ∧ ¬ RedeemsRevoked ancestors auth h

/-- Sponsored back by somebody who stands. -/
def AgentDrift (a : ActorId) : Prop :=
  ∃ s, SponsoredBy auth a s ∧ StandsInOrder founders ancestors auth s

/-- Seated as a human, by redemptions of revoked invites only. -/
def SeatDrift (a : ActorId) : Prop :=
  (∃ op, lastOn auth a = some op ∧ op.action.humanSeat = some a) ∧
    ∀ h, SeatsAt auth h a → RedeemsRevoked ancestors auth h

/-- A founder, or the holder of an unrevoked meta-capability grant. -/
def PolicyHolder (a : ActorId) : Prop := a ∈ founders ∨ (policyOf auth).holdsMeta a = true

end Linear

theorem AclAction.seats_of_humanSeat {action : AclAction} {a : ActorId}
    (ha : action.humanSeat = some a) : action.seats = some a := by
  cases action <;> first | exact ha | cases ha

/-- A seat op that is no human seat is a sponsorship. -/
theorem AclAction.humanSeat_or_addAgent {action : AclAction} {a : ActorId}
    (ha : action.seats = some a) :
    action.humanSeat = some a ∨ ∃ grants, action = .addAgent a grants := by
  cases action with
  | addMember actor grants => exact Or.inl ha
  | setGrants actor grants => exact Or.inl ha
  | addAgent actor grants =>
      obtain rfl := Option.some.inj ha
      exact Or.inr ⟨grants, rfl⟩
  | _ => cases ha

namespace Linear

variable {founders : Finset ActorId} {ancestors : Ancestors} {auth : Authorized} {a : ActorId}

/-- Of two ops under different hashes exactly one descends from the other. -/
theorem has_eq_not (hlin : Linear ancestors auth) {e e' : Text × AclOp} (he : e ∈ auth)
    (he' : e' ∈ auth) (hne : e ≠ e') : ancestors.has e.1 e'.1 = !ancestors.has e'.1 e.1 := by
  let R := fun e e' : Text × AclOp => ancestors.has e.1 e'.1 = !ancestors.has e'.1 e.1
  have hsymm : Std.Symm R := ⟨fun x y hxy => by
    show ancestors.has y.1 x.1 = !ancestors.has x.1 y.1
    rw [hxy, Bool.not_not]⟩
  have hpair : auth.Pairwise R := hlin.imp fun hlt => by
    show _ = !_
    rw [hlt.2.1, hlt.2.2, Bool.not_true]
  exact hpair.forall he he' hne

/-- Nobody loses a race. -/
theorem not_raceLoser (hlin : Linear ancestors auth) (h : Text) :
    ¬ RaceLoser ancestors auth h := by
  rintro ⟨b, n, ⟨op, hmem, -⟩, h', b', ⟨op', hmem', -⟩, -, hlt, hconc⟩
  have hne : (h', op') ≠ (h, op) := fun heq => hlt.ne (congrArg Prod.fst heq)
  have hordered := hlin.has_eq_not hmem' hmem hne
  simp only [concurrent, Bool.and_eq_true, Bool.not_eq_true'] at hconc
  rw [hconc.1, hconc.2] at hordered
  cases hordered

/-- **An admission is void exactly when its invite had been revoked.** -/
theorem void_iff (hlin : Linear ancestors auth) {h : Text} :
    Void ancestors auth h ↔ RedeemsRevoked ancestors auth h := by
  have hne : ∀ {op op' : AclOp} {r : Text} {b : ActorId} {n : Bytes},
      op.admits = some (b, n) → op'.action = .revokeInvite n → (r, op') ≠ (h, op) := by
    intro op op' r b n hadm hrev heq
    obtain ⟨rfl, rfl⟩ := Prod.mk.inj heq
    simp [AclOp.admits, hrev] at hadm
  constructor
  · rintro (hrace | ⟨r, b, n, ⟨op, hmem, hadm⟩, ⟨op', hmem', hrev⟩, hunseen⟩)
    · exact absurd hrace (hlin.not_raceLoser h)
    · have hordered := hlin.has_eq_not hmem' hmem (hne hadm hrev)
      rw [hunseen] at hordered
      exact ⟨b, n, ⟨op, hmem, hadm⟩, r, ⟨op', hmem', hrev⟩, by simpa using hordered⟩
  · rintro ⟨b, n, ⟨op, hmem, hadm⟩, r, ⟨op', hmem', hrev⟩, hseen⟩
    have hordered := hlin.has_eq_not hmem' hmem (hne hadm hrev)
    rw [hseen] at hordered
    exact Or.inr ⟨r, b, n, ⟨op, hmem, hadm⟩, ⟨op', hmem', hrev⟩, by simpa using hordered⟩

/-- An actor last named by a seat op has no removal left unseen: that op has
seen them all. -/
theorem not_removedUnseen (hlin : Linear ancestors auth) {op : AclOp}
    (hlast : lastOn auth a = some op) (hseat : op.action.seats = some a) :
    ¬ RemovedUnseen ancestors auth a := by
  rintro ⟨r, ⟨op', hmem', hrem⟩, hunseen⟩
  obtain ⟨-, l₁, h, l₂, hsplit, hafter⟩ := lastOn_eq_some hlast
  have hmem : (h, op) ∈ auth := by rw [hsplit]; simp
  have hbefore : (r, op') ∈ l₁ := by
    rw [hsplit] at hmem'
    rcases List.mem_append.mp hmem' with hl₁ | hl₂
    · exact hl₁
    · rcases List.mem_cons.mp hl₂ with heq | hl₂
      · obtain ⟨-, rfl⟩ := Prod.mk.inj heq
        exact absurd hseat (AclAction.removes_ne_seats hrem)
      · exact absurd (AclAction.actor_of_removes hrem) (hafter _ hl₂)
  rw [hsplit, Linear, List.pairwise_append] at hlin
  have hseen := (hlin.2.2 _ hbefore _ List.mem_cons_self).2.2
  rw [hunseen h ⟨op, hmem, hseat⟩] at hseen
  cases hseen

/-- **Standing on a chain** is read off the last op and the seats not spent on a
revoked invite. -/
theorem stands_iff (hlin : Linear ancestors auth) :
    Stands founders ancestors auth a ↔ StandsInOrder founders ancestors auth a := by
  rw [Stands, StandsInOrder]
  cases hlast : lastOn auth a with
  | none =>
      refine ⟨And.right, fun hfounder => ⟨?_, hfounder⟩⟩
      rintro ⟨r, ⟨op, hmem, hrem⟩, -⟩
      exact lastOn_eq_none.mp hlast _ hmem (AclAction.actor_of_removes hrem)
  | some op =>
      simp only [Seated, hlin.void_iff]
      exact ⟨And.right, fun hstands => ⟨hlin.not_removedUnseen hlast hstands.1, hstands⟩⟩

end Linear

section Replay

variable [Crypto] [Postcard Actor.ActorOp] [Postcard AclOp]

/-- The verified ops form a single causal chain. -/
def CausalChain (genesis : Genesis) (ops : List SignedOp) : Prop :=
  (opNodes genesis ops).graph.Acyclic ∧
    ∀ h ∈ (opNodes genesis ops).keys, ∀ k ∈ (opNodes genesis ops).keys, h ≠ k →
      (opAncestors genesis ops).has h k = true ∨ (opAncestors genesis ops).has k h = true

instance (genesis : Genesis) (ops : List SignedOp) : Decidable (CausalChain genesis ops) :=
  inferInstanceAs (Decidable (_ ∧ _))

theorem CausalChain.linear {genesis : Genesis} {ops : List SignedOp}
    (hchain : CausalChain genesis ops) (events : List Actor.SignedEvent) :
    Linear (opAncestors genesis ops) (authorizedOps genesis events ops) := by
  refine (causallyOrdered_authorizedOps events hchain.1).imp_of_mem fun {e e'} he he' hlt => ?_
  have hkey : ∀ {e}, e ∈ authorizedOps genesis events ops → e.1 ∈ (opNodes genesis ops).keys :=
    fun he => List.mem_toFinset.mp (present_of_mem_authorizedOps he)
  refine ⟨hlt.1, hlt.2, (hchain.2 _ (hkey he) _ (hkey he') hlt.1).resolve_left ?_⟩
  rw [hlt.2]
  exact Bool.false_ne_true

/-- What pass 1 says of an actor after the last op. -/
theorem finalStanding_isPolicyAdmin {genesis : Genesis} {events : List Actor.SignedEvent}
    {ops : List SignedOp} {a : ActorId} :
    (finalStanding genesis events ops).isPolicyAdmin genesis.founders a = true ↔
      a ∈ (finalStanding genesis events ops).humans ∧
        PolicyHolder genesis.founders (authorizedOps genesis events ops) a := by
  have hrun := replayCheckpointed_judged genesis events ops
  rw [PassOne.isPolicyAdmin, PassOne.isHuman, PolicyHolder, policyOf, ← hrun.policy_eq]
  simp only [Bool.and_eq_true, Bool.or_eq_true, decide_eq_true_eq, Bool.not_eq_true']
  refine and_congr_left fun _ => ⟨And.left, fun hhuman => ⟨hhuman, ?_⟩⟩
  simp [Std.ExtTreeMap.contains_eq_isSome_getElem?, hrun.disjoint hhuman]

/-- What pass 2 writes down. -/
theorem replay_isPolicyAdmin {genesis : Genesis} {events : List Actor.SignedEvent}
    {ops : List SignedOp} {a : ActorId} :
    (replay genesis events ops).isPolicyAdmin a = true ↔
      (replay genesis events ops).isMember a = true ∧
        PolicyHolder genesis.founders (authorizedOps genesis events ops) a := by
  have hpolicy : (replay genesis events ops).policy =
      policyOf (authorizedOps genesis events ops) := by
    rw [replay_eq]
    exact policy_materials genesis.foundingActors _
  rw [AclState.isPolicyAdmin, decide_eq_true_eq, PolicyHolder, ← hpolicy, replay_eq]
  exact mem_policyAdmins

/-- On a chain the human members of pass 1 are the members of pass 2, but for
the two drifts. -/
theorem isMember_iff_human {genesis : Genesis} {events : List Actor.SignedEvent}
    {ops : List SignedOp} (hchain : CausalChain genesis ops) (a : ActorId) :
    let auth := authorizedOps genesis events ops
    let ancestors := opAncestors genesis ops
    ((replay genesis events ops).isMember a = true ↔
        a ∈ (finalStanding genesis events ops).humans) ↔
      ¬ AgentDrift genesis.founders ancestors auth a ∧ ¬ SeatDrift ancestors auth a := by
  intro auth ancestors
  have hlin : Linear ancestors auth := hchain.linear events
  have hmember : (replay genesis events ops).isMember a = true ↔
      StandsInOrder genesis.founders ancestors auth a ∧
        ∀ s, SponsoredBy auth a s → StandsInOrder genesis.founders ancestors auth s := by
    simp only [← hlin.stands_iff]
    exact isMember_replay
  have hhuman := (replayCheckpointed_judged genesis events ops).humans_iff a
  rw [hmember]
  cases hlast : lastOn auth a with
  | none =>
      have hnone : ∀ s, ¬ SponsoredBy auth a s := fun s hs => by
        obtain ⟨op, grants, hop, -⟩ := hs
        rw [hlast] at hop
        cases hop
      rw [hlast] at hhuman
      simp [hhuman, StandsInOrder, hlast, hnone, AgentDrift, SeatDrift]
  | some op =>
      rw [hlast] at hhuman
      rcases AclAction.seats_or_removes (lastOn_eq_some hlast).1 with hseat | hrem
      · rcases AclAction.humanSeat_or_addAgent hseat with hseated | ⟨grants, haction⟩
        · have hnone : ∀ s, ¬ SponsoredBy auth a s := fun s hs => by
            obtain ⟨op', grants, hop', haction, -⟩ := hs
            obtain rfl := Option.some.inj (hlast.symm.trans hop')
            rw [haction] at hseated
            cases hseated
          simp [hhuman, StandsInOrder, hlast, hnone, AgentDrift, SeatDrift, hseat, hseated]
        · have hspons : ∀ s, SponsoredBy auth a s ↔ op.by_ = s := fun s => by
            simp [sponsoredBy_iff, hlast, AclOp.sponsor, haction]
          have hself : Seated ancestors auth a :=
            ((hspons _).mpr rfl).seated (functional_authorizedOps genesis events ops)
          simp only [Seated, hlin.void_iff] at hself
          have hnot : op.action.humanSeat ≠ some a := by simp [haction, AclAction.humanSeat]
          have hstands : StandsInOrder genesis.founders ancestors auth a := by
            rw [StandsInOrder, hlast]
            exact ⟨hseat, hself⟩
          simp [hhuman, hstands, hspons, AgentDrift, SeatDrift, hlast, hnot]
      · have hseat : op.action.seats ≠ some a := AclAction.removes_ne_seats hrem
        have hnot : op.action.humanSeat ≠ some a := fun h =>
          hseat (AclAction.seats_of_humanSeat h)
        have hnone : ∀ s, ¬ SponsoredBy auth a s := fun s hs => by
          obtain ⟨op', grants, hop', haction, -⟩ := hs
          obtain rfl := Option.some.inj (hlast.symm.trans hop')
          exact hseat (by rw [haction, AclAction.seats])
        simp [hhuman, StandsInOrder, hlast, hnone, hseat, hnot, AgentDrift, SeatDrift]

/-- **When the two notions agree.**  On a causal chain the materialized
administrators are those of the pass-1 predicate, and no agent is among them,
for every actor who is no founder, holds no meta-grant, or has not drifted. -/
theorem policyAdmins_iff (genesis : Genesis) (events : List Actor.SignedEvent)
    (ops : List SignedOp) (hchain : CausalChain genesis ops) (a : ActorId) :
    let auth := authorizedOps genesis events ops
    let ancestors := opAncestors genesis ops
    let st := replay genesis events ops
    let pass1 := finalStanding genesis events ops
    ((st.isPolicyAdmin a = true ↔ pass1.isPolicyAdmin genesis.founders a = true) ∧
      (st.isAgent a = true → st.isPolicyAdmin a = false)) ↔
        ¬ (PolicyHolder genesis.founders auth a ∧
          (AgentDrift genesis.founders ancestors auth a ∨ SeatDrift ancestors auth a)) := by
  intro auth ancestors st pass1
  have hdrift : (st.isMember a = true ↔ a ∈ pass1.humans) ↔
      ¬ AgentDrift genesis.founders ancestors auth a ∧ ¬ SeatDrift ancestors auth a :=
    isMember_iff_human hchain a
  have hagent : st.isAgent a = true → a ∉ pass1.humans := by
    rw [AclState.isAgent, BTreeMap.contains_iff]
    rintro ⟨s, hget⟩ hhuman
    obtain ⟨-, ⟨op, grants, hlast, haction, -⟩, -⟩ := agents_replay.mp hget
    rw [(replayCheckpointed_judged genesis events ops).humans_iff, hlast] at hhuman
    simp [haction, AclAction.humanSeat] at hhuman
  have hfinal : pass1.isPolicyAdmin genesis.founders a = true ↔
      a ∈ pass1.humans ∧ PolicyHolder genesis.founders auth a := finalStanding_isPolicyAdmin
  have hreplay : st.isPolicyAdmin a = true ↔
      st.isMember a = true ∧ PolicyHolder genesis.founders auth a := replay_isPolicyAdmin
  rw [← Bool.not_eq_true, hfinal, hreplay, not_and (a := PolicyHolder _ _ _), not_or, ← hdrift]
  constructor
  · rintro ⟨hsame, -⟩ hholder
    exact ⟨fun hm => (hsame.mp ⟨hm, hholder⟩).1, fun hh => (hsame.mpr ⟨hh, hholder⟩).1⟩
  · intro hsame
    refine ⟨⟨?_, ?_⟩, ?_⟩
    · rintro ⟨hm, hholder⟩
      exact ⟨(hsame hholder).mp hm, hholder⟩
    · rintro ⟨hh, hholder⟩
      exact ⟨(hsame hholder).mpr hh, hholder⟩
    · rintro hag ⟨hm, hholder⟩
      exact hagent hag ((hsame hholder).mp hm)

end Replay

/-! ### A founder sponsored back

Founder 0 removes founder 1 and sponsors them back as an agent. -/

namespace Demo

def driftTable : List AclOp :=
  [op 0 (.removeMember (actor 1)) none, op 0 (.addAgent (actor 1) [.write]) none]

def driftOps : List SignedOp :=
  let first := sign 0 0 []
  [first, sign 0 1 [hash first]]

end Demo

/-- After the two ops founder 1 is an agent and a materialized administrator,
and no administrator to pass 1. -/
theorem policyAdmins_disagree_on_sponsored_founder :
    letI := idealCrypto
    letI := Demo.actorCodec
    letI := tableCodec Demo.driftTable
    CausalChain Demo.genesis Demo.driftOps ∧
      (replay Demo.genesis Demo.events Demo.driftOps).isAgent (Demo.actor 1) = true ∧
      (replay Demo.genesis Demo.events Demo.driftOps).isPolicyAdmin (Demo.actor 1) = true ∧
      (finalStanding Demo.genesis Demo.events Demo.driftOps).isPolicyAdmin
        Demo.genesis.founders (Demo.actor 1) = false := by
  decide +kernel

/-- What the two ops did to founder 1 is a drift. -/
theorem policyAdmins_iff_sponsored_founder :
    letI := idealCrypto
    letI := Demo.actorCodec
    letI := tableCodec Demo.driftTable
    let auth := authorizedOps Demo.genesis Demo.events Demo.driftOps
    let ancestors := opAncestors Demo.genesis Demo.driftOps
    AgentDrift Demo.genesis.founders ancestors auth (Demo.actor 1) ∨
      SeatDrift ancestors auth (Demo.actor 1) := by
  let _ := idealCrypto
  let _ := Demo.actorCodec
  let _ := tableCodec Demo.driftTable
  by_contra hnone
  have hagent : (replay Demo.genesis Demo.events Demo.driftOps).isAgent (Demo.actor 1) = true := by
    decide +kernel
  have hadmin : (replay Demo.genesis Demo.events Demo.driftOps).isPolicyAdmin
      (Demo.actor 1) = true := by decide +kernel
  have hagree := (policyAdmins_iff Demo.genesis Demo.events Demo.driftOps (by decide +kernel)
    (Demo.actor 1)).mpr fun hdrift => hnone hdrift.2
  rw [hagree.2 hagent] at hadmin
  cases hadmin

end Acl

end Lait
