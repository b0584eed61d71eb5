import Lait.Actor
import Lait.Demand

/-!
# Membership operations and the state they replay to

The data of the membership plane: the signed operation (`AclOp`), the policy
tables both passes of a replay build (`PolicyPass`), the materialized state
(`AclState`) with its readers, and the evaluation of an authorization demand
over it.

Grants, not roles: a member carries a set of `Standing`s.  An agent is a member
whose presence is owed to a sponsor, recorded beside the members and not in
their grants.
-/

namespace Lait

namespace Acl

open Demand

/-- The signing domain of the plane. -/
def ACL_DOMAIN : Bytes := Bytes.ofString "lait/aclop/1"

/-- A signed membership op. -/
abbrev SignedOp := SignedNode

/-- A capability grant. -/
inductive Standing
  | admin
  | write
  deriving DecidableEq

/-- Whether a grant set is a legal sponsored-agent grant set. -/
def isSponsorableGrantSet (grants : List Standing) : Bool := Standing.admin ∉ grants

/-- Why a capability grant exists. -/
inductive GrantOrigin
  | founder
  | admission (definitionRef : Bytes)
  | membership (definitionRef : Bytes)
  | grant (definitionRef : Bytes)
  | sponsorship
  deriving DecidableEq

/-- What a membership op does. -/
inductive AclAction
  | addMember (actor : ActorId) (grants : List Standing)
  | removeMember (actor : ActorId)
  | setGrants (actor : ActorId) (grants : List Standing)
  | addAgent (actor : ActorId) (grants : List Standing)
  | mintEpoch (id : Bytes) (gen : ℕ) (keyCommit : Bytes) (members : List ActorId)
  | revokeInvite (nonce : Bytes)
  | grantCapability (grantId : Bytes) (actor : ActorId) (capability : PolicyCapability)
      (resource : Resource) (salt : Bytes)
  | revokeCapability (grantId : Bytes)
  | grantDelegation (delegationId : Bytes) (actor : ActorId) (capability : PolicyCapability)
      (resource : Resource) (salt : Bytes)
  | revokeDelegation (delegationId : Bytes)
  | activateWorldImplementation (world : Text) (implementationId : Bytes)
      (implementationVersion : ℕ)
  | grantCapabilityFrom (grantId : Bytes) (actor : ActorId) (capability : PolicyCapability)
      (resource : Resource) (salt : Bytes) (origin : GrantOrigin)
  | setMemberAdmission (enabled : Bool)
  deriving DecidableEq

namespace AclAction

/-- The subject actor an action targets. -/
def actor : AclAction → Option ActorId
  | addMember actor _ => some actor
  | removeMember actor => some actor
  | setGrants actor _ => some actor
  | addAgent actor _ => some actor
  | _ => none

/-- The actor a seat op names: `AddMember`, `SetGrants` and `AddAgent`. -/
def seats : AclAction → Option ActorId
  | addMember actor _ => some actor
  | setGrants actor _ => some actor
  | addAgent actor _ => some actor
  | _ => none

/-- The actor a human seat op names: `AddMember` and `SetGrants`. -/
def humanSeat : AclAction → Option ActorId
  | addMember actor _ => some actor
  | setGrants actor _ => some actor
  | _ => none

/-- The actor a `RemoveMember` names. -/
def removes : AclAction → Option ActorId
  | removeMember actor => some actor
  | _ => none

/-- The grants a seat op installs. -/
def seatGrants : AclAction → Option (Finset Standing)
  | addMember _ grants => some grants.toFinset
  | setGrants _ grants => some grants.toFinset
  | addAgent _ grants => some grants.toFinset
  | _ => none

/-- The epoch id a mint names. -/
def mints : AclAction → Option Bytes
  | mintEpoch id _ _ _ => some id
  | _ => none

/-- The admission flag after an action. -/
def admissionFlag : AclAction → Bool → Bool
  | setMemberAdmission enabled, _ => enabled
  | _, flag => flag

/-- The audit-log kind label. -/
def kindLabel : AclAction → Text
  | addMember .. => Bytes.ofString "add_member"
  | removeMember .. => Bytes.ofString "remove_member"
  | setGrants .. => Bytes.ofString "set_grants"
  | addAgent .. => Bytes.ofString "add_agent"
  | mintEpoch .. => Bytes.ofString "mint_epoch"
  | revokeInvite .. => Bytes.ofString "revoke_invite"
  | grantCapability .. => Bytes.ofString "grant_capability"
  | grantCapabilityFrom .. => Bytes.ofString "grant_capability"
  | revokeCapability .. => Bytes.ofString "revoke_capability"
  | grantDelegation .. => Bytes.ofString "grant_delegation"
  | revokeDelegation .. => Bytes.ofString "revoke_delegation"
  | activateWorldImplementation .. => Bytes.ofString "activate_implementation"
  | setMemberAdmission .. => Bytes.ofString "set_member_admission"

/-- The grants an audit entry shows. -/
def auditGrants : AclAction → Option (List Standing)
  | addMember _ grants => some grants
  | setGrants _ grants => some grants
  | _ => none

end AclAction

/-- A membership op: the action, the actor its author claims to be, the frontier
of that actor's key-event log the author observed, and the invite nonce an
admission spends. -/
structure AclOp where
  action : AclAction
  by_ : ActorId
  actorAsof : List Text
  nonce : Option Bytes
  deriving DecidableEq

/-- The actor and nonce of an `AddMember` that spends an invite. -/
def AclOp.admits (op : AclOp) : Option (ActorId × Bytes) :=
  match op.action, op.nonce with
  | .addMember actor _, some nonce => some (actor, nonce)
  | _, _ => none

/-- The actor an op names, whatever it does to it. -/
def AclOp.subject (op : AclOp) : Option ActorId := op.action.actor

/-- The sponsor an `AddAgent` records: its author. -/
def AclOp.sponsor (op : AclOp) : Option ActorId :=
  match op.action with
  | .addAgent _ _ => some op.by_
  | _ => none

/-! ## Policy tables -/

/-- The meta-capability that manages policy. -/
def policyAdminCapability : PolicyCapability :=
  ⟨Bytes.ofString "lait", Bytes.ofString "policy.admin"⟩

/-- The Space-level resource the meta-capability is granted on. -/
def policyAdminResource : Resource := Resource.root (Bytes.ofString "lait")

/-- One effective scoped assignment. -/
structure Assignment where
  actor : ActorId
  capability : PolicyCapability
  resource : Resource
  deriving DecidableEq

/-- Whether an assignment is of the meta-capability on the Space. -/
def Assignment.isMeta (g : Assignment) : Bool :=
  g.capability = policyAdminCapability && g.resource = policyAdminResource

/-- What a World's activation put in force. -/
structure ActiveImplementation where
  id : Bytes
  version : ℕ
  deriving DecidableEq

/-- Authorized grants, delegations, revocations and activations. -/
@[ext] structure PolicyPass where
  grants : BTreeMap Bytes Assignment
  revokedGrants : Finset Bytes
  origins : BTreeMap Bytes GrantOrigin
  delegations : BTreeMap Bytes Assignment
  revokedDelegations : Finset Bytes
  implementations : BTreeMap Text ActiveImplementation

namespace PolicyPass

/-- `PolicyPass::default()`. -/
def default : PolicyPass := ⟨∅, ∅, ∅, ∅, ∅, ∅⟩

/-- Whether `actor` holds an effective grant of the meta-capability. -/
def holdsMeta (policy : PolicyPass) (actor : ActorId) : Bool :=
  policy.grants.toList.any fun entry =>
    entry.1 ∉ policy.revokedGrants && entry.2.actor = actor && entry.2.isMeta

/-- Whether `actor` holds an effective delegation for exactly the pair. -/
def holdsDelegation (policy : PolicyPass) (actor : ActorId) (capability : PolicyCapability)
    (resource : Resource) : Bool :=
  policy.delegations.toList.any fun entry =>
    entry.1 ∉ policy.revokedDelegations && entry.2.actor = actor &&
      entry.2.capability = capability && entry.2.resource = resource

/-- Whether `actor` holds any effective delegation. -/
def holdsAnyDelegation (policy : PolicyPass) (actor : ActorId) : Bool :=
  policy.delegations.toList.any fun entry =>
    entry.1 ∉ policy.revokedDelegations && entry.2.actor = actor

/-- The policy arms of one authorized action.  Both passes of a replay spell
them out alike. -/
def apply (policy : PolicyPass) : AclAction → PolicyPass
  | .grantCapability grantId actor capability resource _ =>
      { policy with grants := policy.grants.insert grantId ⟨actor, capability, resource⟩ }
  | .grantCapabilityFrom grantId actor capability resource _ origin =>
      { policy with
        grants := policy.grants.insert grantId ⟨actor, capability, resource⟩
        origins := policy.origins.insert grantId origin }
  | .revokeCapability grantId =>
      { policy with revokedGrants := insert grantId policy.revokedGrants }
  | .grantDelegation delegationId actor capability resource _ =>
      { policy with
        delegations := policy.delegations.insert delegationId ⟨actor, capability, resource⟩ }
  | .revokeDelegation delegationId =>
      { policy with revokedDelegations := insert delegationId policy.revokedDelegations }
  | .activateWorldImplementation world implementationId implementationVersion =>
      { policy with
        implementations :=
          policy.implementations.insert world ⟨implementationId, implementationVersion⟩ }
  | _ => policy

end PolicyPass

section GrantId

variable [Crypto]

/-- The commitment an id makes to its grant and salt. -/
def grantCommitment (context : Text) (actor : ActorId) (capability : PolicyCapability)
    (resource : Resource) (salt : Bytes) : Option Bytes :=
  match (AuthorizationDemand.require capability resource).encodeCanonical with
  | .ok canonical => some (Crypto.deriveKey context (Bytes.join [actor, ⟨[0]⟩, canonical, salt]))
  | .error _ => none

/-- The canonical grant-id commitment. -/
def capabilityGrantId (actor : ActorId) (capability : PolicyCapability) (resource : Resource)
    (salt : Bytes) : Option Bytes :=
  grantCommitment (Bytes.ofString "lait.capability-grant.v1") actor capability resource salt

/-- The canonical delegation-id commitment. -/
def capabilityDelegationId (actor : ActorId) (capability : PolicyCapability)
    (resource : Resource) (salt : Bytes) : Option Bytes :=
  grantCommitment (Bytes.ofString "lait.capability-delegation.v1") actor capability resource salt

end GrantId

/-! ## The materialized state -/

/-- One authorized key-epoch. -/
structure EpochAuth where
  id : Bytes
  gen : ℕ
  keyCommit : Bytes
  members : List ActorId
  mintedBy : ActorId
  mintHash : Text
  deriving DecidableEq

/-- A rekey obligation: `evicted` was admitted by a nonce that the concurrent
revocation `fence` voided, and still holds the keys of its admission. -/
structure RekeyFence where
  fence : Text
  evicted : ActorId
  nonce : Bytes
  deriving DecidableEq

/-- The materialized membership state.  `rekey_fences` is a sorted, deduplicated
vector in the source, which is a set here. -/
@[ext] structure AclState where
  members : BTreeMap ActorId (Finset Standing)
  agents : BTreeMap ActorId ActorId
  epochs : BTreeMap Bytes EpochAuth
  revokedInvites : Finset Bytes
  spentNonces : Finset Bytes
  rekeyFences : Finset RekeyFence
  policy : PolicyPass
  policyAdmins : Finset ActorId
  nonceAdmits : BTreeMap Bytes (Finset ActorId)
  memberAdmission : Bool
  unresolved : Bool

namespace AclState

def isMember (st : AclState) (a : ActorId) : Bool := st.members.contains a

def isAdmin (st : AclState) (a : ActorId) : Bool :=
  st.members[a]?.any fun g => Standing.admin ∈ g

/-- Whether `a` is an agent principal. -/
def isAgent (st : AclState) (a : ActorId) : Bool := st.agents.contains a

/-- Whether `a` holds Space policy administration. -/
def isPolicyAdmin (st : AclState) (a : ActorId) : Bool := a ∈ st.policyAdmins

/-- Whether the Space has opted into member-driven admission; an unresolved
state answers no. -/
def readMemberAdmission (st : AclState) : Bool := !st.unresolved && st.memberAdmission

/-- The effective grant ids of exactly the pair held by `a`, in id order. -/
def effectiveCapabilityGrants (st : AclState) (a : ActorId) (capability : PolicyCapability)
    (resource : Resource) : List Bytes :=
  if st.members.contains a then
    (st.policy.grants.toList.filter fun entry =>
      entry.1 ∉ st.policy.revokedGrants && entry.2.actor = a &&
        entry.2.capability = capability && entry.2.resource = resource).map Prod.fst
  else []

mutual

/-- The witness of one demand node. -/
def evaluateNode (st : AclState) (a : ActorId) : AuthorizationDemand → Option (List Bytes)
  | .require capability resource =>
      (st.effectiveCapabilityGrants a capability resource).head?.map fun id => [id]
  | .all children => evaluateAll st a children
  | .any children => (evaluateAny st a children none).bind fun best => best.map Prod.snd

/-- `All` unions the children's witnesses. -/
def evaluateAll (st : AclState) (a : ActorId) :
    List AuthorizationDemand → Option (List Bytes)
  | [] => some []
  | child :: children => do
      let witness ← evaluateNode st a child
      let rest ← evaluateAll st a children
      return witness ++ rest

/-- `Any` keeps the satisfied child with the smallest canonical bytes.  The
outer option is the early `?` return, the inner one `best`. -/
def evaluateAny (st : AclState) (a : ActorId) :
    List AuthorizationDemand → Option (Bytes × List Bytes) →
      Option (Option (Bytes × List Bytes))
  | [], best => some best
  | child :: children, best =>
      match evaluateNode st a child with
      | none => evaluateAny st a children best
      | some witness =>
          match child.encodeCanonical with
          | .error _ => none
          | .ok bytes =>
              evaluateAny st a children
                (if best.any (·.1 ≤ bytes) then best else some (bytes, witness))

end

/-- Evaluate a demand for `a`: the sorted, deduplicated witness ids, or a
denial. -/
def evaluateDemand (st : AclState) (a : ActorId) (demand : AuthorizationDemand) :
    Option (List Bytes) :=
  (st.evaluateNode a demand).map fun witness => (Bytes.sort witness).dedup

end AclState

/-- One row of the membership audit log. -/
structure AuditEntry where
  hash : Text
  author : DeviceId
  by_ : Option ActorId
  kind : Text
  subject : Option ActorId
  grants : Option (List Standing)
  authorized : Bool
  deriving DecidableEq

end Acl

end Lait
