import Lait.Acl.Types

/-!
# Pass 1: judging an op and applying it

Both replay paths walk the ops in topological order with one evolving
`PassOne`: who is an admin, who is a human member, who is an agent of whom, the
generations minted, the policy tables and the member-admission flag.
`judgeOp` decides one op against it, `applyAuthorized` folds an authorized op
into it.

`JudgedRun` is the pass as a transition system.  An invariant of pass 1 is
proved for the initial state and for one judged step, and holds of every replay:

* `JudgedRun.disjoint` — nobody is a human member and an agent at once;
* `JudgedRun.humans_iff` — who is human is read off the last op naming them;
* `JudgedRun.sponsorable` — no agent is ever seated with `Admin`.
-/

namespace Lait

namespace Acl

open Demand

/-- The evolving standing state of pass 1. -/
@[ext] structure PassOne where
  admins : Finset ActorId
  humans : Finset ActorId
  agentsNow : BTreeMap ActorId ActorId
  epochGens : BTreeMap Text ℕ
  policy : PolicyPass
  memberAdmission : Bool

/-- The founding actors are the first admins and humans. -/
def PassOne.init (founders : Finset ActorId) : PassOne where
  admins := founders
  humans := founders
  agentsNow := ∅
  epochGens := ∅
  policy := PolicyPass.default
  memberAdmission := false

namespace PassOne

/-- `humans.contains(a) && !agents_now.contains_key(a)`. -/
def isHuman (s : PassOne) (a : ActorId) : Bool := a ∈ s.humans && !s.agentsNow.contains a

/-- Policy administration: a founder still holding human membership, or a human
member holding an effective meta-capability grant.  Agents never. -/
def isPolicyAdmin (founders : Finset ActorId) (s : PassOne) (a : ActorId) : Bool :=
  s.isHuman a && (a ∈ founders || s.policy.holdsMeta a)

/-- Whether revoking `grant_id` here would leave nobody holding policy
administration. -/
def orphansPolicyAdmin (founders : Finset ActorId) (s : PassOne) (grantId : Bytes) : Bool :=
  let isEffectiveMeta := fun (id : Bytes) (g : Assignment) =>
    id ∉ s.policy.revokedGrants && g.isMeta
  match s.policy.grants[grantId]? with
  | none => false
  | some target =>
      isEffectiveMeta grantId target && !decide (∃ a ∈ founders, s.isHuman a) &&
        !s.policy.grants.toList.any fun entry =>
          entry.1 ≠ grantId && isEffectiveMeta entry.1 entry.2 && s.isHuman entry.2.actor

/-- `max(ancestor mint gen) + 1`, saturating, or zero before any mint. -/
def genCeiling (s : PassOne) (ancestors : Ancestors) (h : Text) : ℕ :=
  match ((s.epochGens.toList.filter fun entry => ancestors.has h entry.1).map Prod.snd).max? with
  | some g => min (g + 1) 4294967295
  | none => 0

end PassOne

section Judge

variable [Crypto]

/-- A grant or delegation is well formed: both halves valid, in one World. -/
def grantShape (capability : PolicyCapability) (resource : Resource) : Bool :=
  isOk capability.validate && isOk resource.validate && capability.world = resource.world

/-- The two grant variants are judged alike. -/
def judgeGrant (founders : Finset ActorId) (s : PassOne) (signer : ActorId) (grantId : Bytes)
    (actor : ActorId) (capability : PolicyCapability) (resource : Resource) (salt : Bytes) :
    Bool :=
  let structural := grantShape capability resource &&
    capabilityGrantId actor capability resource salt = some grantId
  let isMeta := capability = policyAdminCapability && resource = policyAdminResource
  structural && (s.isPolicyAdmin founders signer ||
    (!isMeta && s.isHuman signer && s.policy.holdsDelegation signer capability resource))

/-- The pass-1 authorization predicate for one decoded op whose device→actor
binding has been proven. -/
def judgeOp (op : AclOp) (h : Text) (founders : Finset ActorId) (s : PassOne)
    (ancestors : Ancestors) : Bool :=
  !s.agentsNow.contains op.by_ &&
    match op.action with
    | .setGrants _ _ => op.by_ ∈ s.admins
    | .addMember _ grants =>
        op.by_ ∈ s.admins ||
          (s.memberAdmission && s.isHuman op.by_ && Standing.admin ∉ grants &&
            s.policy.holdsAnyDelegation op.by_)
    | .removeMember actor => op.by_ ∈ s.admins || s.agentsNow[actor]? = some op.by_
    | .addAgent actor grants =>
        op.by_ ∈ s.humans && actor ≠ op.by_ && actor ∉ s.humans &&
          !s.agentsNow.contains actor && isSponsorableGrantSet grants
    | .mintEpoch _ gen _ _ => op.by_ ∈ s.admins && gen ≤ s.genCeiling ancestors h
    | .revokeInvite _ => op.by_ ∈ s.admins
    | .grantCapability grantId actor capability resource salt =>
        judgeGrant founders s op.by_ grantId actor capability resource salt
    | .grantCapabilityFrom grantId actor capability resource salt _ =>
        judgeGrant founders s op.by_ grantId actor capability resource salt
    | .revokeCapability grantId =>
        (s.isPolicyAdmin founders op.by_ ||
          (s.isHuman op.by_ && s.policy.grants[grantId]?.any fun g =>
            s.policy.holdsDelegation op.by_ g.capability g.resource)) &&
          !s.orphansPolicyAdmin founders grantId
    | .grantDelegation delegationId actor capability resource salt =>
        let isMeta := capability = policyAdminCapability && resource = policyAdminResource
        let structural := grantShape capability resource && !isMeta &&
          capabilityDelegationId actor capability resource salt = some delegationId
        structural && (s.isPolicyAdmin founders op.by_ ||
          (s.memberAdmission && s.isHuman op.by_ &&
            s.policy.holdsDelegation op.by_ capability resource))
    | .revokeDelegation _ => s.isPolicyAdmin founders op.by_
    | .activateWorldImplementation world _ _ =>
        isOk (Resource.root world).validate && s.isPolicyAdmin founders op.by_
    | .setMemberAdmission _ => s.isPolicyAdmin founders op.by_

/-- Fold one authorized op into the pass-1 standing state. -/
def applyAuthorized (op : AclOp) (h : Text) (s : PassOne) : PassOne :=
  match op.action with
  | .addMember actor grants => seat s actor grants
  | .setGrants actor grants => seat s actor grants
  | .addAgent actor _ => { s with agentsNow := s.agentsNow.insert actor op.by_ }
  | .removeMember actor =>
      { s with
        humans := s.humans.erase actor
        admins := s.admins.erase actor
        agentsNow := (s.agentsNow.erase actor).filter fun _ sponsor => sponsor ≠ actor }
  | .mintEpoch _ gen _ _ => { s with epochGens := s.epochGens.insert h gen }
  | .revokeInvite _ => s
  | .setMemberAdmission enabled => { s with memberAdmission := enabled }
  | action => { s with policy := s.policy.apply action }
where
  /-- The shared arm of `AddMember` and `SetGrants`. -/
  seat (s : PassOne) (actor : ActorId) (grants : List Standing) : PassOne :=
    { s with
      humans := insert actor s.humans
      agentsNow := s.agentsNow.erase actor
      admins := if Standing.admin ∈ grants then insert actor s.admins else s.admins.erase actor }

end Judge

/-! ## The ops that name an actor -/

/-- The authorized ops under their hashes, in topological order. -/
abbrev Authorized := List (Text × AclOp)

/-- The last authorized op naming `a` as its subject. -/
def lastOn (auth : Authorized) (a : ActorId) : Option AclOp :=
  (auth.filter fun e => e.2.subject = some a).getLast?.map Prod.snd

theorem lastOn_nil (a : ActorId) : lastOn [] a = none := rfl

theorem lastOn_snoc (auth : Authorized) (h : Text) (op : AclOp) (a : ActorId) :
    lastOn (auth ++ [(h, op)]) a = if op.subject = some a then some op else lastOn auth a := by
  rw [lastOn, List.filter_append]
  by_cases hsub : op.subject = some a
  · simp [hsub]
  · simp [hsub, lastOn]

/-- No op names `a` exactly when there is no last one. -/
theorem lastOn_eq_none {auth : Authorized} {a : ActorId} :
    lastOn auth a = none ↔ ∀ e ∈ auth, e.2.subject ≠ some a := by
  simp [lastOn]

/-- The last op naming `a`, and what comes after it. -/
theorem lastOn_eq_some {auth : Authorized} {a : ActorId} {op : AclOp}
    (hlast : lastOn auth a = some op) :
    op.subject = some a ∧ ∃ l₁ h l₂, auth = l₁ ++ (h, op) :: l₂ ∧
      ∀ e ∈ l₂, e.2.subject ≠ some a := by
  induction auth using List.reverseRecOn with
  | nil => simp [lastOn_nil] at hlast
  | append_singleton auth e ih =>
      obtain ⟨h, op'⟩ := e
      rw [lastOn_snoc] at hlast
      split at hlast
      next hsub =>
        obtain rfl := Option.some.inj hlast
        exact ⟨hsub, auth, h, [], rfl, by simp⟩
      next hsub =>
        obtain ⟨hop, l₁, k, l₂, rfl, hafter⟩ := ih hlast
        refine ⟨hop, l₁, k, l₂ ++ [(h, op')], by simp, fun e he => ?_⟩
        rcases List.mem_append.mp he with he | he
        · exact hafter e he
        · obtain rfl := List.mem_singleton.mp he
          exact hsub

/-! ## Pass 1 as a transition system -/

section Run

variable [Crypto] {founders : Finset ActorId} {ancestors : Ancestors}

/-- A run of pass 1: the ops authorized so far and the standing they led to. -/
inductive JudgedRun [Crypto] (founders : Finset ActorId) (ancestors : Ancestors) :
    Authorized → PassOne → Prop
  | start : JudgedRun founders ancestors [] (PassOne.init founders)
  | step {auth s h op} : JudgedRun founders ancestors auth s →
      judgeOp op h founders s ancestors = true →
      JudgedRun founders ancestors (auth ++ [(h, op)]) (applyAuthorized op h s)

namespace JudgedRun

variable {auth : Authorized} {s : PassOne}

/-- What a judged `AddAgent` says: a human sponsors somebody else who is no
principal yet, without `Admin`. -/
theorem addAgent_judged {op : AclOp} {h : Text} {actor : ActorId} {grants : List Standing}
    (haction : op.action = .addAgent actor grants)
    (hjudge : judgeOp op h founders s ancestors = true) :
    op.by_ ∈ s.humans ∧ actor ≠ op.by_ ∧ actor ∉ s.humans ∧
      s.agentsNow[actor]? = none ∧ Standing.admin ∉ grants := by
  simp only [judgeOp, haction, isSponsorableGrantSet, Bool.and_eq_true, decide_eq_true_eq,
    Bool.not_eq_true', Std.ExtTreeMap.contains_eq_isSome_getElem?,
    Option.isSome_eq_false_iff, Option.isNone_iff_eq_none] at hjudge
  obtain ⟨-, ⟨⟨⟨hby, hne⟩, hnot⟩, hfree⟩, hgrants⟩ := hjudge
  exact ⟨hby, hne, hnot, hfree, hgrants⟩

/-- Pass 1 keeps the policy tables of its ops, in order. -/
theorem policy_eq (hrun : JudgedRun founders ancestors auth s) :
    s.policy = auth.foldl (fun policy e => policy.apply e.2.action) PolicyPass.default := by
  induction hrun with
  | start => rfl
  | @step auth s h op _ _ ih =>
      rw [List.foldl_append, List.foldl_cons, List.foldl_nil, ← ih]
      cases haction : op.action <;> simp [applyAuthorized, haction, PolicyPass.apply,
        applyAuthorized.seat]

/-- Pass 1 keeps the last setting of the admission flag. -/
theorem memberAdmission_eq (hrun : JudgedRun founders ancestors auth s) :
    s.memberAdmission = auth.foldl (fun flag e => e.2.action.admissionFlag flag) false := by
  induction hrun with
  | start => rfl
  | @step auth s h op _ _ ih =>
      rw [List.foldl_append, List.foldl_cons, List.foldl_nil, ← ih]
      cases haction : op.action <;> simp [applyAuthorized, haction, AclAction.admissionFlag,
        applyAuthorized.seat]

/-- Every authorized op was judged favourably at some standing. -/
theorem judged (hrun : JudgedRun founders ancestors auth s) {e : Text × AclOp}
    (he : e ∈ auth) : ∃ s', judgeOp e.2 e.1 founders s' ancestors = true := by
  induction hrun with
  | start => simp at he
  | @step auth s h op _ hjudge ih =>
      rcases List.mem_append.mp he with he | he
      · exact ih he
      · obtain rfl := List.mem_singleton.mp he
        exact ⟨s, hjudge⟩

/-- **No agent is seated with membership authority.** -/
theorem sponsorable (hrun : JudgedRun founders ancestors auth s) {e : Text × AclOp}
    (he : e ∈ auth) {actor : ActorId} {grants : List Standing}
    (haction : e.2.action = .addAgent actor grants) : Standing.admin ∉ grants := by
  obtain ⟨s', hjudge⟩ := hrun.judged he
  exact (addAgent_judged haction hjudge).2.2.2.2

/-- **Who is human is read off the last op naming them.**  An `AddAgent` never
names a human, so being sponsored does not have to be undone. -/
theorem humans_iff (hrun : JudgedRun founders ancestors auth s) (a : ActorId) :
    a ∈ s.humans ↔
      match lastOn auth a with
      | none => a ∈ founders
      | some op => op.action.humanSeat = some a := by
  induction hrun with
  | start => rfl
  | @step auth s h op _ hjudge ih =>
      rw [lastOn_snoc]
      cases haction : op.action with
      | addMember actor grants =>
          simp only [applyAuthorized, haction, applyAuthorized.seat, AclOp.subject,
            AclAction.actor, Finset.mem_insert, Option.some.injEq]
          by_cases ha : actor = a
          · simp [ha, haction, AclAction.humanSeat]
          · simp [ha, Ne.symm ha, ih]
      | setGrants actor grants =>
          simp only [applyAuthorized, haction, applyAuthorized.seat, AclOp.subject,
            AclAction.actor, Finset.mem_insert, Option.some.injEq]
          by_cases ha : actor = a
          · simp [ha, haction, AclAction.humanSeat]
          · simp [ha, Ne.symm ha, ih]
      | addAgent actor grants =>
          have hnot := (addAgent_judged haction hjudge).2.2.1
          simp only [applyAuthorized, haction, AclOp.subject, AclAction.actor,
            Option.some.injEq]
          by_cases ha : actor = a
          · simp [← ha, hnot, haction, AclAction.humanSeat]
          · simp [ha, ih]
      | removeMember actor =>
          simp only [applyAuthorized, haction, AclOp.subject, AclAction.actor,
            Finset.mem_erase, Option.some.injEq]
          by_cases ha : actor = a
          · simp [ha, haction, AclAction.humanSeat]
          · simp [ha, Ne.symm ha, ih]
      | _ => simpa [applyAuthorized, haction, AclOp.subject, AclAction.actor] using ih

/-- **Nobody is a human member and an agent at once.** -/
theorem disjoint (hrun : JudgedRun founders ancestors auth s) {a : ActorId}
    (ha : a ∈ s.humans) : s.agentsNow[a]? = none := by
  induction hrun with
  | start => simp [PassOne.init]
  | @step auth s h op _ hjudge ih =>
      cases haction : op.action with
      | addMember actor grants =>
          simp only [applyAuthorized, haction, applyAuthorized.seat, Finset.mem_insert,
            BTreeMap.get_erase] at ha ⊢
          by_cases hactor : actor = a
          · simp [hactor]
          · simp [hactor, ih (ha.resolve_left (Ne.symm hactor))]
      | setGrants actor grants =>
          simp only [applyAuthorized, haction, applyAuthorized.seat, Finset.mem_insert,
            BTreeMap.get_erase] at ha ⊢
          by_cases hactor : actor = a
          · simp [hactor]
          · simp [hactor, ih (ha.resolve_left (Ne.symm hactor))]
      | addAgent actor grants =>
          have hnot := (addAgent_judged haction hjudge).2.2.1
          simp only [applyAuthorized, haction, BTreeMap.get_insert] at ha ⊢
          have hne : actor ≠ a := fun heq => hnot (heq ▸ ha)
          simp [hne, ih ha]
      | removeMember actor =>
          simp only [applyAuthorized, haction, Finset.mem_erase] at ha ⊢
          rw [Std.ExtTreeMap.getElem?_filter, BTreeMap.get_erase]
          simp [Ne.symm ha.1, ih ha.2]
      | _ => 
          simp only [applyAuthorized, haction] at ha ⊢
          exact ih ha

end JudgedRun

end Run

end Acl

end Lait
