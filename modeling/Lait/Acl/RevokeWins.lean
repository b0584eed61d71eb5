import Lait.Acl.Replay

/-!
# Revoke-wins over concurrent redemption

An invite revocation voids the admissions it had not seen, so an actor all of
whose other seats were taken away by removals should be out, with a rekey fence
for each fenced admission until an epoch descends the revocation.

`seatedIndependently` asks for *some* op that is not void and seats the actor; a
seat since removed counts.  `RevokeWins` therefore fails for an actor with such a
seat who was invited again after the removal, by an invite that was revoked
concurrently: the last op naming them seats them, and the old seat vouches for
it.  `revokeWins_iff` says when it holds.

The argument has two halves, both over any causally ordered list of ops:

* `CausallyOrdered.stands_iff` — a non-founder stands when they are seated and no
  removal of theirs went unseen;
* `Retired.not_sponsored` — a sponsorship is never void, so whoever is sponsored
  last has not been removed since.
-/

namespace Lait

namespace Acl

section Retired

variable (ancestors : Ancestors) (auth : Authorized)

/-- Every op that seats `a` and is not void is followed by a removal of `a`. -/
def Retired (a : ActorId) : Prop :=
  ∀ h, SeatsAt auth h a → ¬ Void ancestors auth h →
    ∃ r, RemovesAt auth r a ∧ ancestors.has r h = true

/-- An authorized epoch descends `r`. -/
def EpochDescends (r : Text) : Prop :=
  ∃ m op, (m, op) ∈ auth ∧ op.action.mints ≠ none ∧ ancestors.has m r = true

/-- `Retired`, as a check. -/
def retired (a : ActorId) : Bool :=
  auth.all fun e =>
    e.2.action.seats ≠ some a || e.1 ∈ disqualified ancestors auth ||
      auth.any fun r => r.2.action.removes = some a && ancestors.has r.1 e.1

end Retired

section Ordered

variable {founders : Finset ActorId} {ancestors : Ancestors} {auth : Authorized} {a : ActorId}

theorem retired_iff (hfun : Functional auth) :
    retired ancestors auth a = true ↔ Retired ancestors auth a := by
  simp only [retired, List.all_eq_true, List.any_eq_true, Bool.or_eq_true, Bool.and_eq_true,
    decide_eq_true_eq, mem_disqualified hfun, Retired, SeatsAt, RemovesAt]
  constructor
  · rintro hall h ⟨op, hmem, hseat⟩ hvoid
    obtain ⟨⟨r, op'⟩, hmem', hrem, hseen⟩ :=
      (hall (h, op) hmem).resolve_left fun hor => hor.elim (fun hne => hne hseat) hvoid
    exact ⟨r, ⟨op', hmem', hrem⟩, hseen⟩
  · rintro hall ⟨h, op⟩ hmem
    by_cases hvoid : Void ancestors auth h
    · exact Or.inl (Or.inr hvoid)
    · by_cases hseat : op.action.seats = some a
      · obtain ⟨r, ⟨op', hmem', hrem⟩, hseen⟩ := hall h ⟨op, hmem, hseat⟩ hvoid
        exact Or.inr ⟨(r, op'), hmem', hrem, hseen⟩
      · exact Or.inl (Or.inl hseat)

/-- What names `a` cannot descend from the last op naming `a`. -/
theorem CausallyOrdered.last_unseen (hord : CausallyOrdered ancestors auth) {op : AclOp}
    (hlast : lastOn auth a = some op) :
    ∃ h, (h, op) ∈ auth ∧ ∀ k op', (k, op') ∈ auth → op'.subject = some a → op' ≠ op →
      ancestors.has k h = false := by
  obtain ⟨-, l₁, h, l₂, hsplit, hafter⟩ := lastOn_eq_some hlast
  refine ⟨h, by rw [hsplit]; simp, fun k op' hmem hsub hne => ?_⟩
  rw [CausallyOrdered, hsplit, List.pairwise_append] at hord
  rw [hsplit] at hmem
  rcases List.mem_append.mp hmem with hl₁ | hl₂
  · exact (hord.2.2 _ hl₁ _ List.mem_cons_self).2
  · rcases List.mem_cons.mp hl₂ with heq | hl₂
    · exact absurd (Prod.mk.inj heq).2 hne
    · exact absurd hsub (hafter _ hl₂)

/-- **Standing in causal order.**  Someone other than a founder stands when they
are seated and every removal of theirs was seen by a seat op. -/
theorem CausallyOrdered.stands_iff (hord : CausallyOrdered ancestors auth)
    (hfounder : a ∉ founders) :
    Stands founders ancestors auth a ↔
      Seated ancestors auth a ∧ ¬ RemovedUnseen ancestors auth a := by
  rw [Stands]
  cases hlast : lastOn auth a with
  | none =>
      refine iff_of_false (fun h => hfounder h.2) fun hseated => ?_
      obtain ⟨⟨h, ⟨op, hmem, hseat⟩, -⟩, -⟩ := hseated
      exact lastOn_eq_none.mp hlast _ hmem (AclAction.actor_of_seats hseat)
  | some op =>
      refine ⟨fun hstands => ⟨hstands.2.2, hstands.1⟩, fun hright => ?_⟩
      obtain ⟨hseated, hunseen⟩ := hright
      refine ⟨hunseen, ?_, hseated⟩
      rcases AclAction.seats_or_removes (lastOn_eq_some hlast).1 with hseat | hrem
      · exact hseat
      · -- The last op is a removal, and no seat op descends from it.
        obtain ⟨r, hmem, hafter⟩ := hord.last_unseen hlast
        refine absurd ⟨r, ⟨op, hmem, hrem⟩, ?_⟩ hunseen
        rintro h ⟨op', hmem', hseat⟩
        refine hafter h op' hmem' (AclAction.actor_of_seats hseat) fun heq => ?_
        exact AclAction.removes_ne_seats hrem (heq ▸ hseat)

/-- Nobody retired is sponsored. -/
theorem Retired.not_sponsored (hret : Retired ancestors auth a) (hfun : Functional auth)
    (hord : CausallyOrdered ancestors auth) (s : ActorId) : ¬ SponsoredBy auth a s := by
  rintro ⟨op, grants, hlast, haction, -⟩
  have hseat : op.action.seats = some a := by rw [haction, AclAction.seats]
  obtain ⟨h, hmem, hafter⟩ := hord.last_unseen hlast
  have hvoid : ¬ Void ancestors auth h := by
    intro hvoid
    obtain ⟨b, n, op', hmem', hadm⟩ := hvoid.admits
    rw [hfun h op' op hmem' hmem] at hadm
    simp [AclOp.admits, haction] at hadm
  obtain ⟨r, ⟨op', hmem', hrem⟩, hseen⟩ := hret h ⟨op, hmem, hseat⟩ hvoid
  have hunseen := hafter r op' hmem' (AclAction.actor_of_removes hrem) fun heq =>
    AclAction.removes_ne_seats hrem (heq ▸ hseat)
  rw [hseen] at hunseen
  cases hunseen

end Ordered

section Replay

variable [Crypto] [Postcard Actor.ActorOp] [Postcard AclOp]

/-- What revoke-wins promises about `a`: once retired, and no founder, they are
no member, and each fenced admission of theirs raises a rekey fence unless an
authorized epoch descends a revocation that fences it. -/
def RevokeWins (genesis : Genesis) (events : List Actor.SignedEvent) (ops : List SignedOp)
    (a : ActorId) : Prop :=
  let auth := authorizedOps genesis events ops
  let ancestors := opAncestors genesis ops
  let st := replay genesis events ops
  a ∉ genesis.founders → Retired ancestors auth a →
    st.isMember a = false ∧
      ∀ h n, Admits auth h a n → (∃ r, FencedBy ancestors auth h r) →
        (∃ f ∈ st.rekeyFences, f.evicted = a ∧ f.nonce = n ∧
          FencedBy ancestors auth h f.fence) ∨
        ∃ r, FencedBy ancestors auth h r ∧ EpochDescends ancestors auth r

/-- An owed fence is raised unless an authorized epoch descends it. -/
theorem raised_or_descended {genesis : Genesis} {events : List Actor.SignedEvent}
    {ops : List SignedOp} {f : RekeyFence}
    (howed : f ∈ owedFences (opAncestors genesis ops) (authorizedOps genesis events ops)) :
    f ∈ (replay genesis events ops).rekeyFences ∨
      EpochDescends (opAncestors genesis ops) (authorizedOps genesis events ops) f.fence := by
  rw [mem_rekeyFences_replay]
  refine or_iff_not_imp_left.mpr fun hnot => ?_
  rw [not_and, not_not] at hnot
  obtain ⟨m, ⟨id, l₁, op, l₂, hsplit, hmint, -⟩, hdesc⟩ := hnot howed
  refine ⟨m, op, by rw [hsplit]; simp, ?_, hdesc⟩
  rw [hmint]
  exact Option.some_ne_none id

/-- **When revoke-wins holds.**  A retired actor is out, and fenced, exactly when
no seat op of theirs counts; or when some removal of theirs is an ancestor of no
seat op, and every fenced admission has a revocation some epoch descends. -/
theorem revokeWins_iff (hdag : HashesAcyclic) (genesis : Genesis)
    (events : List Actor.SignedEvent) (ops : List SignedOp) (a : ActorId) :
    let auth := authorizedOps genesis events ops
    let ancestors := opAncestors genesis ops
    RevokeWins genesis events ops a ↔
      (a ∉ genesis.founders → Retired ancestors auth a →
        ¬ Seated ancestors auth a ∨
          RemovedUnseen ancestors auth a ∧
            ∀ h n, Admits auth h a n → (∃ r, FencedBy ancestors auth h r) →
              ∃ r, FencedBy ancestors auth h r ∧ EpochDescends ancestors auth r) := by
  intro auth ancestors
  have hfun : Functional auth := functional_authorizedOps genesis events ops
  have hord : CausallyOrdered ancestors auth :=
    causallyOrdered_authorizedOps events (hdag _ _ _)
  refine forall_congr' fun hfounder => forall_congr' fun hret => ?_
  have hmember : (replay genesis events ops).isMember a = false ↔
      (Seated ancestors auth a → RemovedUnseen ancestors auth a) := by
    have hspons := hret.not_sponsored hfun hord
    have hstands : Stands genesis.founders ancestors auth a ↔
        Seated ancestors auth a ∧ ¬ RemovedUnseen ancestors auth a := hord.stands_iff hfounder
    rw [← Bool.not_eq_true, isMember_replay, hstands]
    constructor
    · intro hnot hseated
      by_contra hunseen
      exact hnot ⟨⟨hseated, hunseen⟩, fun s hs => absurd hs (hspons s)⟩
    · rintro himp ⟨⟨hseated, hunseen⟩, -⟩
      exact hunseen (himp hseated)
  rw [hmember]
  by_cases hseated : Seated ancestors auth a
  · -- A seated actor owes no fence, so only a descending epoch answers for one.
    have hraised : ∀ f ∈ (replay genesis events ops).rekeyFences, f.evicted ≠ a := by
      rintro f hf rfl
      rw [mem_rekeyFences_replay] at hf
      exact ((mem_owedFences hfun).mp hf.1).2 hseated
    simp only [hseated, not_true_eq_false, false_or, true_imp_iff]
    refine and_congr_right fun _ => forall_congr' fun h => forall_congr' fun n =>
      forall_congr' fun _ => forall_congr' fun _ => ⟨fun hor => ?_, Or.inr⟩
    rcases hor with ⟨f, hf, hev, -⟩ | hdesc
    · exact absurd hev (hraised f hf)
    · exact hdesc
  · refine iff_of_true ⟨fun h => absurd h hseated, fun h n hadm hfenced => ?_⟩ (Or.inl hseated)
    obtain ⟨f, hget⟩ := (mem_fencedAdmissions hfun).mpr hfenced
    obtain ⟨hadm', hrev, hunseen⟩ := fencedAdmissions_spec hfun hget
    obtain ⟨hev, hnonce⟩ := hfun.admits_unique hadm' hadm
    have hfence : FencedBy ancestors auth h f.fence := ⟨f.evicted, f.nonce, hadm', hrev, hunseen⟩
    have howed : f ∈ owedFences ancestors auth :=
      (mem_owedFences hfun).mpr ⟨⟨h, hget⟩, by rwa [hev]⟩
    rcases raised_or_descended howed with hraised | hdesc
    · exact Or.inl ⟨f, hraised, hev, hnonce, hfence⟩
    · exact Or.inr ⟨f.fence, hfence, hdesc⟩

end Replay

/-! ### Invited again

Founder 0 adds `guest`, removes them, and invites them again with a nonce that
founder 1 concurrently revokes. -/

namespace Demo

def guest : ActorId := ⟨[103]⟩

def nonce : Bytes := ⟨[7]⟩

def reinviteTable : List AclOp :=
  [op 0 (.addMember guest [.write]) none, op 0 (.removeMember guest) none,
    op 0 (.addMember guest [.write]) (some nonce), op 1 (.revokeInvite nonce) none]

def reinviteOps : List SignedOp :=
  let first := sign 0 0 []
  let second := sign 0 1 [hash first]
  [first, second, sign 0 2 [hash second], sign 1 3 [hash second]]

/-- The invitation and its revocation alone. -/
def inviteOps : List SignedOp := [sign 0 2 [], sign 1 3 []]

end Demo

/-- The revoked admission seats `guest` all the same. -/
theorem revokeWins_fails_on_reinvite :
    letI := idealCrypto
    letI := Demo.actorCodec
    letI := tableCodec Demo.reinviteTable
    ¬ RevokeWins Demo.genesis Demo.events Demo.reinviteOps Demo.guest := by
  let _ := idealCrypto
  let _ := Demo.actorCodec
  let _ := tableCodec Demo.reinviteTable
  intro hwins
  have hretired : retired (opAncestors Demo.genesis Demo.reinviteOps)
      (authorizedOps Demo.genesis Demo.events Demo.reinviteOps) Demo.guest = true := by
    decide +kernel
  have hmember : (replay Demo.genesis Demo.events Demo.reinviteOps).isMember Demo.guest = true := by
    decide +kernel
  have hout := (hwins (by decide +kernel)
    ((retired_iff (functional_authorizedOps _ _ _)).mp hretired)).1
  rw [hmember] at hout
  cases hout

/-- Without the first seat the revocation wins. -/
theorem revokeWins_iff_invited_once :
    letI := idealCrypto
    letI := Demo.actorCodec
    letI := tableCodec Demo.reinviteTable
    RevokeWins Demo.genesis Demo.events Demo.inviteOps Demo.guest := by
  let _ := idealCrypto
  let _ := Demo.actorCodec
  let _ := tableCodec Demo.reinviteTable
  refine (revokeWins_iff idealCrypto_hashesAcyclic Demo.genesis Demo.events Demo.inviteOps
    Demo.guest).mpr fun _ _ => Or.inl fun hseated => ?_
  have hindependent := (seatedIndependently_iff (functional_authorizedOps _ _ _)).mpr hseated
  have hnot : seatedIndependently (opAncestors Demo.genesis Demo.inviteOps)
      (authorizedOps Demo.genesis Demo.events Demo.inviteOps) Demo.guest = false := by
    decide +kernel
  rw [hnot] at hindependent
  cases hindependent

end Acl

end Lait
