import Lait.Acl.Judge
import Lait.Inquiry

/-!
# What the judgement of an op reads

`judge_op` looks at the standing pass 1 has reached, but only at a part of it: who its author
is, and what the action asks of whom.  A `Fact` is the least such part, one entry of one of
the tables.  An authorized op settles a fact or leaves it alone (`holds_applyAuthorized`), so
that over a run a fact is read off the last op that settled it (`holds_standing`).

`judgement` is `judge_op` again, spelled as an inquiry: the same tests in the same order,
each down to the facts it is made of (`answer_judgement`).  What it reads is then what the
answer depends on, and it reads no more than the source's short circuits let it.
-/

namespace Lait

namespace Acl

open Demand

/-- One entry of the standing. -/
inductive Fact
  | admin (a : ActorId)
  | human (a : ActorId)
  | agentOf (a sponsor : ActorId)
  | memberAdmission
  | granted (id : Bytes) (g : Assignment)
  | revokedGrant (id : Bytes)
  | delegated (id : Bytes) (g : Assignment)
  | revokedDelegation (id : Bytes)
  | minted (m : Text) (gen : ℕ)

namespace Fact

def holds : Fact → PassOne → Bool
  | admin a, s => a ∈ s.admins
  | human a, s => a ∈ s.humans
  | agentOf a sponsor, s => s.agentsNow[a]? = some sponsor
  | memberAdmission, s => s.memberAdmission
  | granted id g, s => s.policy.grants[id]? = some g
  | revokedGrant id, s => id ∈ s.policy.revokedGrants
  | delegated id g, s => s.policy.delegations[id]? = some g
  | revokedDelegation id, s => id ∈ s.policy.revokedDelegations
  | minted m gen, s => s.epochGens[m]? = some gen

/-- The value an authorized op under hash `h` settles a fact to, if it settles it. -/
def settledBy (φ : Fact) (op : AclOp) (h : Text) : Option Bool :=
  match φ, op.action with
  | admin a, .addMember b grants => if b = a then some (Standing.admin ∈ grants) else none
  | admin a, .setGrants b grants => if b = a then some (Standing.admin ∈ grants) else none
  | admin a, .removeMember b => if b = a then some false else none
  | human a, .addMember b _ => if b = a then some true else none
  | human a, .setGrants b _ => if b = a then some true else none
  | human a, .removeMember b => if b = a then some false else none
  | agentOf a _, .addMember b _ => if b = a then some false else none
  | agentOf a _, .setGrants b _ => if b = a then some false else none
  | agentOf a sponsor, .addAgent b _ => if b = a then some (op.by_ = sponsor) else none
  | agentOf a sponsor, .removeMember b => if b = a ∨ b = sponsor then some false else none
  | memberAdmission, .setMemberAdmission enabled => some enabled
  | granted id g, .grantCapability grantId actor capability resource _ =>
      if grantId = id then some (⟨actor, capability, resource⟩ = g) else none
  | granted id g, .grantCapabilityFrom grantId actor capability resource _ _ =>
      if grantId = id then some (⟨actor, capability, resource⟩ = g) else none
  | revokedGrant id, .revokeCapability grantId => if grantId = id then some true else none
  | delegated id g, .grantDelegation delegationId actor capability resource _ =>
      if delegationId = id then some (⟨actor, capability, resource⟩ = g) else none
  | revokedDelegation id, .revokeDelegation delegationId =>
      if delegationId = id then some true else none
  | minted m gen, .mintEpoch _ g _ _ => if h = m then some (g = gen) else none
  | _, _ => none

end Fact

/-- **An authorized op settles a fact or leaves it alone.** -/
theorem holds_applyAuthorized (φ : Fact) (op : AclOp) (h : Text) (s : PassOne) :
    φ.holds (applyAuthorized op h s) = (φ.settledBy op h).getD (φ.holds s) := by
  cases φ with
  | admin a =>
      cases haction : op.action <;>
        simp only [applyAuthorized, applyAuthorized.seat, Fact.holds, Fact.settledBy, haction,
          Option.getD_none]
      · split <;> split <;> simp_all [eq_comm]
      · split <;> simp_all [eq_comm]
      · split <;> split <;> simp_all [eq_comm]
  | human a =>
      cases haction : op.action <;>
        simp only [applyAuthorized, applyAuthorized.seat, Fact.holds, Fact.settledBy, haction,
          Option.getD_none]
      all_goals split <;> simp_all [eq_comm]
  | agentOf a sponsor =>
      cases haction : op.action <;>
        simp only [applyAuthorized, applyAuthorized.seat, Fact.holds, Fact.settledBy, haction,
          Option.getD_none, BTreeMap.get_erase, BTreeMap.get_insert,
          Std.ExtTreeMap.getElem?_filter]
      case removeMember b =>
        -- the agents of `b` go with it
        by_cases hself : b = a
        · simp [hself]
        · cases hget : s.agentsNow[a]? with
          | none => by_cases hsponsor : b = sponsor <;> simp [hself, hsponsor]
          | some x =>
              simp only [if_neg hself, Option.pfilter_some]
              by_cases hx : x = b
              · by_cases hsponsor : b = sponsor
                · simp [hx, hsponsor]
                · simp [hself, hx, hsponsor]
              · by_cases hsponsor : b = sponsor
                · simp [hself, hx, ← hsponsor]
                · simp [hself, hx, hsponsor]
      all_goals split <;> simp_all [eq_comm]
  | memberAdmission =>
      cases haction : op.action <;>
        simp [applyAuthorized, applyAuthorized.seat, Fact.holds, Fact.settledBy, haction]
  | minted m gen =>
      cases haction : op.action <;>
        simp only [applyAuthorized, applyAuthorized.seat, Fact.holds, Fact.settledBy, haction,
          Option.getD_none, BTreeMap.get_insert]
      split <;> simp_all [eq_comm]
  | granted id g =>
      cases haction : op.action <;>
        simp only [applyAuthorized, applyAuthorized.seat, PolicyPass.apply, Fact.holds,
          Fact.settledBy, haction, Option.getD_none, BTreeMap.get_insert]
      all_goals split <;> simp_all [eq_comm]
  | revokedGrant id =>
      cases haction : op.action <;>
        simp only [applyAuthorized, applyAuthorized.seat, PolicyPass.apply, Fact.holds,
          Fact.settledBy, haction, Option.getD_none]
      split <;> simp_all [eq_comm]
  | delegated id g =>
      cases haction : op.action <;>
        simp only [applyAuthorized, applyAuthorized.seat, PolicyPass.apply, Fact.holds,
          Fact.settledBy, haction, Option.getD_none, BTreeMap.get_insert]
      split <;> simp_all [eq_comm]
  | revokedDelegation id =>
      cases haction : op.action <;>
        simp only [applyAuthorized, applyAuthorized.seat, PolicyPass.apply, Fact.holds,
          Fact.settledBy, haction, Option.getD_none]
      split <;> simp_all [eq_comm]

/-! ## The judgement as an inquiry -/

/-- An inquiry about the standing. -/
abbrev Ask := Inquiry Fact.holds

namespace Ask

open Inquiry

/-- `agents_now.contains_key(a)`. -/
def isAgent (a : ActorId) : Ask := any fun sponsor => of (.agentOf a sponsor)

def isHuman (a : ActorId) : Ask := (of (.human a)).and (isAgent a).not

/-- An effective grant other than the excepted id, to somebody, of the meta-capability. -/
def metaGrant (id : Bytes) (g : Assignment) : Ask :=
  (const (g.isMeta = true)).and ((of (.granted id g)).and (of (.revokedGrant id)).not)

def holdsMeta (a : ActorId) : Ask :=
  any fun entry : Bytes × Assignment =>
    (const (entry.2.actor = a)).and (metaGrant entry.1 entry.2)

/-- An effective delegation to `a` of what passes a test. -/
def delegation (a : ActorId) (test : Assignment → Prop) : Ask :=
  any fun entry : Bytes × Assignment =>
    (const (entry.2.actor = a ∧ test entry.2)).and
      ((of (.delegated entry.1 entry.2)).and (of (.revokedDelegation entry.1)).not)

def holdsDelegation (a : ActorId) (capability : PolicyCapability) (resource : Resource) : Ask :=
  delegation a fun g => g.capability = capability ∧ g.resource = resource

def holdsAnyDelegation (a : ActorId) : Ask := delegation a fun _ => True

def isPolicyAdmin (founders : Finset ActorId) (a : ActorId) : Ask :=
  (isHuman a).and ((const (a ∈ founders)).or (holdsMeta a))

def orphansPolicyAdmin (founders : Finset ActorId) (grantId : Bytes) : Ask :=
  (any fun target : Assignment => metaGrant grantId target).and
    ((any fun a : {a // a ∈ founders} => isHuman a).not.and
      (any fun entry : Bytes × Assignment => (const (entry.1 ≠ grantId)).and
        ((metaGrant entry.1 entry.2).and (isHuman entry.2.actor))).not)

/-- `gen <= max(ancestor mint gen) + 1`, or zero. -/
def withinCeiling (ancestors : Ancestors) (h : Text) (gen : ℕ) : Ask :=
  (const (gen = 0)).or (any fun entry : Text × ℕ =>
    (const (ancestors.has h entry.1 = true ∧ gen ≤ min (entry.2 + 1) 4294967295)).and
      (of (.minted entry.1 entry.2)))

section

variable [Crypto]

def judgeGrant (founders : Finset ActorId) (signer : ActorId) (grantId : Bytes)
    (actor : ActorId) (capability : PolicyCapability) (resource : Resource) (salt : Bytes) : Ask :=
  (const (grantShape capability resource = true ∧
    capabilityGrantId actor capability resource salt = some grantId)).and
    ((isPolicyAdmin founders signer).or
      ((const ¬ (capability = policyAdminCapability ∧ resource = policyAdminResource)).and
        ((isHuman signer).and (holdsDelegation signer capability resource))))

/-- `judge_op`, down to the facts it reads. -/
def judgement (op : AclOp) (h : Text) (founders : Finset ActorId) (ancestors : Ancestors) : Ask :=
  (isAgent op.by_).not.and
    (match op.action with
    | .setGrants _ _ => of (.admin op.by_)
    | .addMember _ grants =>
        (of (.admin op.by_)).or ((of .memberAdmission).and ((isHuman op.by_).and
          ((const (Standing.admin ∉ grants)).and (holdsAnyDelegation op.by_))))
    | .removeMember actor => (of (.admin op.by_)).or (of (.agentOf actor op.by_))
    | .addAgent actor grants =>
        (of (.human op.by_)).and ((const (actor ≠ op.by_)).and ((of (.human actor)).not.and
          ((isAgent actor).not.and (const (isSponsorableGrantSet grants = true)))))
    | .mintEpoch _ gen _ _ => (of (.admin op.by_)).and (withinCeiling ancestors h gen)
    | .revokeInvite _ => of (.admin op.by_)
    | .grantCapability grantId actor capability resource salt =>
        judgeGrant founders op.by_ grantId actor capability resource salt
    | .grantCapabilityFrom grantId actor capability resource salt _ =>
        judgeGrant founders op.by_ grantId actor capability resource salt
    | .revokeCapability grantId =>
        ((isPolicyAdmin founders op.by_).or ((isHuman op.by_).and (any fun g : Assignment =>
          (of (.granted grantId g)).and (holdsDelegation op.by_ g.capability g.resource)))).and
          (orphansPolicyAdmin founders grantId).not
    | .grantDelegation delegationId actor capability resource salt =>
        (const ((grantShape capability resource = true ∧
            ¬ (capability = policyAdminCapability ∧ resource = policyAdminResource)) ∧
            capabilityDelegationId actor capability resource salt = some delegationId)).and
          ((isPolicyAdmin founders op.by_).or ((of .memberAdmission).and
            ((isHuman op.by_).and (holdsDelegation op.by_ capability resource))))
    | .revokeDelegation _ => isPolicyAdmin founders op.by_
    | .activateWorldImplementation world _ _ =>
        (const (isOk (Resource.root world).validate = true)).and (isPolicyAdmin founders op.by_)
    | .setMemberAdmission _ => isPolicyAdmin founders op.by_)

end

variable {s : PassOne} {a : ActorId} {founders : Finset ActorId}

theorem answer_isAgent : (isAgent a).answer s ↔ s.agentsNow.contains a = true := by
  simp only [isAgent, any, of, Fact.holds, BTreeMap.contains_iff, decide_eq_true_eq]

theorem answer_isHuman : (isHuman a).answer s ↔ s.isHuman a = true := by
  simp only [isHuman, Inquiry.and, Inquiry.not, of, answer_isAgent, Fact.holds, PassOne.isHuman,
    Bool.and_eq_true, Bool.not_eq_true', Bool.not_eq_true]

theorem answer_metaGrant {id : Bytes} {g : Assignment} : (metaGrant id g).answer s ↔
    g.isMeta = true ∧ s.policy.grants[id]? = some g ∧ id ∉ s.policy.revokedGrants := by
  simp [metaGrant, Inquiry.and, Inquiry.not, of, const, Fact.holds]

theorem answer_holdsMeta : (holdsMeta a).answer s ↔ s.policy.holdsMeta a = true := by
  simp only [holdsMeta, any, Inquiry.and, const, answer_metaGrant, PolicyPass.holdsMeta,
    List.any_eq_true, BTreeMap.mem_toList_iff, Bool.and_eq_true, decide_eq_true_eq, Prod.exists]
  refine exists_congr fun id => exists_congr fun g => ?_
  tauto

theorem answer_delegation {test : Assignment → Prop} : (delegation a test).answer s ↔
    ∃ id g, s.policy.delegations[id]? = some g ∧ id ∉ s.policy.revokedDelegations ∧
      g.actor = a ∧ test g := by
  simp only [delegation, any, Inquiry.and, Inquiry.not, of, const, Fact.holds, Prod.exists,
    decide_eq_true_eq]
  refine exists_congr fun id => exists_congr fun g => ?_
  tauto

theorem answer_holdsDelegation {capability : PolicyCapability} {resource : Resource} :
    (holdsDelegation a capability resource).answer s ↔
      s.policy.holdsDelegation a capability resource = true := by
  simp only [holdsDelegation, answer_delegation, PolicyPass.holdsDelegation, List.any_eq_true,
    BTreeMap.mem_toList_iff, Bool.and_eq_true, decide_eq_true_eq, Prod.exists]
  refine exists_congr fun id => exists_congr fun g => ?_
  tauto

theorem answer_holdsAnyDelegation :
    (holdsAnyDelegation a).answer s ↔ s.policy.holdsAnyDelegation a = true := by
  simp only [holdsAnyDelegation, answer_delegation, PolicyPass.holdsAnyDelegation,
    List.any_eq_true, BTreeMap.mem_toList_iff, Bool.and_eq_true, decide_eq_true_eq, Prod.exists]
  refine exists_congr fun id => exists_congr fun g => ?_
  tauto

theorem answer_isPolicyAdmin :
    (isPolicyAdmin founders a).answer s ↔ PassOne.isPolicyAdmin founders s a = true := by
  simp only [isPolicyAdmin, Inquiry.and, Inquiry.or, const, answer_isHuman, answer_holdsMeta,
    PassOne.isPolicyAdmin, Bool.and_eq_true, Bool.or_eq_true, decide_eq_true_eq]

theorem answer_orphansPolicyAdmin {grantId : Bytes} :
    (orphansPolicyAdmin founders grantId).answer s ↔
      PassOne.orphansPolicyAdmin founders s grantId = true := by
  simp only [orphansPolicyAdmin, any, Inquiry.and, Inquiry.not, const, answer_metaGrant,
    answer_isHuman, PassOne.orphansPolicyAdmin, Prod.exists, Subtype.exists, exists_prop]
  cases hget : s.policy.grants[grantId]? with
  | none => simp
  | some target =>
      simp only [Bool.and_eq_true, Bool.not_eq_true', decide_eq_true_eq, decide_eq_false_iff_not,
        List.any_eq_false, BTreeMap.mem_toList_iff, Option.some.injEq, Prod.forall, not_exists,
        not_and, and_assoc]
      constructor
      · rintro ⟨⟨g, hmeta, rfl, hrevoked⟩, hfounders, hothers⟩
        refine ⟨hrevoked, hmeta, hfounders, fun id other hother hne hrev hisMeta hhuman => ?_⟩
        exact hothers id other hne hisMeta hother hrev hhuman
      · rintro ⟨hrevoked, hmeta, hfounders, hothers⟩
        refine ⟨⟨target, hmeta, rfl, hrevoked⟩, hfounders,
          fun id other hne hisMeta hother hrev => ?_⟩
        exact hothers id other hother hne hrev hisMeta

theorem answer_withinCeiling {ancestors : Ancestors} {h : Text} {gen : ℕ} :
    (withinCeiling ancestors h gen).answer s ↔ gen ≤ s.genCeiling ancestors h := by
  simp only [withinCeiling, any, Inquiry.or, Inquiry.and, of, const, Fact.holds, Prod.exists,
    decide_eq_true_eq]
  have hmem : ∀ g, g ∈ (s.epochGens.toList.filter fun entry => ancestors.has h entry.1).map
      Prod.snd ↔ ∃ m, s.epochGens[m]? = some g ∧ ancestors.has h m = true := by
    intro g
    simp only [List.mem_map, List.mem_filter, BTreeMap.mem_toList_iff, Prod.exists,
      exists_eq_right]
  unfold PassOne.genCeiling
  cases hmax : ((s.epochGens.toList.filter fun entry => ancestors.has h entry.1).map
      Prod.snd).max? with
  | none =>
      rw [List.max?_eq_none_iff] at hmax
      rw [hmax] at hmem
      dsimp only
      constructor
      · rintro (hzero | ⟨m, g, ⟨hhas, -⟩, hget⟩)
        · omega
        · exact absurd ((hmem g).mpr ⟨m, hget, hhas⟩) List.not_mem_nil
      · intro hle
        exact Or.inl (by omega)
  | some top =>
      obtain ⟨htop, hle⟩ := List.max?_eq_some_iff.mp hmax
      dsimp only
      constructor
      · rintro (hzero | ⟨m, g, ⟨hhas, hgen⟩, hget⟩)
        · omega
        · have := hle g ((hmem g).mpr ⟨m, hget, hhas⟩)
          omega
      · intro hgen
        obtain ⟨m, hget, hhas⟩ := (hmem top).mp htop
        exact Or.inr ⟨m, top, ⟨hhas, hgen⟩, hget⟩

/-- **The inquiry is the judgement.** -/
theorem answer_judgement [Crypto] {op : AclOp} {h : Text} {ancestors : Ancestors} :
    (judgement op h founders ancestors).answer s ↔
      judgeOp op h founders s ancestors = true := by
  have hjudgeGrant : ∀ grantId actor capability resource salt,
      (judgeGrant founders op.by_ grantId actor capability resource salt).answer s ↔
        Acl.judgeGrant founders s op.by_ grantId actor capability resource salt = true := by
    intro grantId actor capability resource salt
    simp only [judgeGrant, Acl.judgeGrant, Inquiry.and, Inquiry.or, const, answer_isPolicyAdmin,
      answer_isHuman, answer_holdsDelegation, Bool.and_eq_true, Bool.or_eq_true, Bool.not_eq_true',
      Bool.and_eq_false_iff, decide_eq_true_eq, decide_eq_false_iff_not, not_and_or, and_assoc]
  cases haction : op.action <;>
    simp only [judgement, judgeOp, haction, Inquiry.and, Inquiry.or, Inquiry.not, Inquiry.of,
      Inquiry.const, Inquiry.any, Fact.holds, answer_isAgent, answer_isHuman,
      answer_isPolicyAdmin, answer_holdsDelegation, answer_holdsAnyDelegation,
      answer_orphansPolicyAdmin, answer_withinCeiling, hjudgeGrant, Bool.and_eq_true,
      Bool.or_eq_true, Bool.not_eq_true', Bool.not_eq_true, decide_eq_true_eq,
      Bool.and_eq_false_iff, decide_eq_false_iff_not, not_and_or, and_assoc, Option.any_eq_true]

end Ask

/-! ## Facts over a run -/

section Run

variable {founders : Finset ActorId} {ancestors : Ancestors} {auth : Authorized} {s : PassOne}
  {a : ActorId}

/-- The standing some authorized ops lead to. -/
def standingAfter (founders : Finset ActorId) (auth : Authorized) : PassOne :=
  auth.foldl (fun s e => applyAuthorized e.2 e.1 s) (PassOne.init founders)

theorem standingAfter_concat (auth : Authorized) (h : Text) (op : AclOp) :
    standingAfter founders (auth ++ [(h, op)]) =
      applyAuthorized op h (standingAfter founders auth) :=
  List.foldl_append

/-- **A fact is read off the last op that settled it.** -/
theorem holds_standingAfter (φ : Fact) :
    φ.holds (standingAfter founders auth) =
      settled (fun e : Text × AclOp => φ.settledBy e.2 e.1) (φ.holds (PassOne.init founders))
        auth := by
  induction auth using List.reverseRecOn with
  | nil => rfl
  | append_singleton auth e ih =>
      obtain ⟨h, op⟩ := e
      rw [standingAfter_concat, holds_applyAuthorized, settled_concat, ih]

/-- Whether the last authorized op to seat or remove an actor left them an admin. -/
def LeftAdmin (founders : Finset ActorId) (auth : Authorized) (a : ActorId) : Prop :=
  settled (fun e : Text × AclOp => (Fact.admin a).settledBy e.2 e.1) (a ∈ founders) auth = true

theorem leftAdmin_iff : LeftAdmin founders auth a ↔ a ∈ (standingAfter founders auth).admins := by
  rw [← decide_eq_true_iff (p := a ∈ (standingAfter founders auth).admins)]
  exact (Bool.eq_iff_iff.mp (holds_standingAfter (Fact.admin a))).symm

variable [Crypto]

theorem JudgedRun.eq_standingAfter (hrun : JudgedRun founders ancestors auth s) :
    s = standingAfter founders auth := by
  induction hrun with
  | start => rfl
  | step _ _ ih => rw [standingAfter_concat, ← ih]

/-- An admin is a human member. -/
theorem JudgedRun.human_of_admin (hrun : JudgedRun founders ancestors auth s)
    (ha : a ∈ s.admins) : a ∈ s.humans := by
  induction hrun with
  | start => exact ha
  | @step auth s h op _ _ ih =>
      cases haction : op.action with
      | addMember actor grants =>
          simp only [applyAuthorized, haction, applyAuthorized.seat] at ha ⊢
          split at ha
          · exact Finset.mem_insert.mpr ((Finset.mem_insert.mp ha).imp_right ih)
          · exact Finset.mem_insert_of_mem (ih (Finset.mem_of_mem_erase ha))
      | setGrants actor grants =>
          simp only [applyAuthorized, haction, applyAuthorized.seat] at ha ⊢
          split at ha
          · exact Finset.mem_insert.mpr ((Finset.mem_insert.mp ha).imp_right ih)
          · exact Finset.mem_insert_of_mem (ih (Finset.mem_of_mem_erase ha))
      | removeMember actor =>
          simp only [applyAuthorized, haction] at ha ⊢
          exact Finset.mem_erase.mpr ⟨(Finset.mem_erase.mp ha).1, ih (Finset.mem_erase.mp ha).2⟩
      | _ =>
          simp only [applyAuthorized, haction] at ha ⊢
          exact ih ha

/-- An admin is no agent. -/
theorem JudgedRun.not_agent_of_admin (hrun : JudgedRun founders ancestors auth s)
    (ha : a ∈ s.admins) : s.agentsNow.contains a = false := by
  rw [Std.ExtTreeMap.contains_eq_isSome_getElem?, hrun.disjoint (hrun.human_of_admin ha)]
  rfl

end Run

end Acl

end Lait
