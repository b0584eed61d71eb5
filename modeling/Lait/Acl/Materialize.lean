import Lait.Acl.Judge

/-!
# Pass 2: materializing the authorized order

`materializeAuthorized` turns the authorized ops, in topological order, into the
public state.  A first fold (`Materials.apply`) takes the ops at their word; a
series of overrides then takes members away again:

1. `removeWins` — a removal that no seat op has seen;
2. `raceLosers` — concurrent redemptions of one invite nonce by different
   actors, settled by the lowest op hash;
3. `fencedAdmissions` — redemptions a `RevokeInvite` had not seen;
4. `orphaned` — agents whose sponsor is gone.

An admission that lost its race or was fenced is *void*; its actor is evicted
unless some other op seats them (`seatedIndependently`).  Last come the rekey
obligations the fences raise, less those an epoch has discharged.

Every step takes actors out of `members` and `agents` together, which is
`Roster.evictAll`.
-/

namespace Lait

namespace Acl

/-- Look the authorized hashes up among the decoded ops. -/
def resolve (decoded : Text → Option AclOp) (authorized : List Text) : Authorized :=
  authorized.filterMap fun h => (decoded h).map fun op => (h, op)

/-- The two maps the overrides evict from. -/
structure Roster where
  members : BTreeMap ActorId (Finset Standing)
  agents : BTreeMap ActorId ActorId

namespace Roster

/-- `members.remove(a); agents.remove(a)`. -/
def evict (roster : Roster) (a : ActorId) : Roster :=
  ⟨roster.members.erase a, roster.agents.erase a⟩

def evictAll (roster : Roster) (l : List ActorId) : Roster := l.foldl evict roster

theorem members_evictAll (roster : Roster) (l : List ActorId) (a : ActorId) :
    (roster.evictAll l).members[a]? = if a ∈ l then none else roster.members[a]? := by
  induction l generalizing roster with
  | nil => simp [evictAll]
  | cons b l ih =>
      rw [evictAll, List.foldl_cons, ← evictAll, ih, evict, BTreeMap.get_erase]
      by_cases hb : b = a
      · simp [hb]
      · simp [hb, Ne.symm hb]

theorem agents_evictAll (roster : Roster) (l : List ActorId) (a : ActorId) :
    (roster.evictAll l).agents[a]? = if a ∈ l then none else roster.agents[a]? := by
  induction l generalizing roster with
  | nil => simp [evictAll]
  | cons b l ih =>
      rw [evictAll, List.foldl_cons, ← evictAll, ih, evict, BTreeMap.get_erase]
      by_cases hb : b = a
      · simp [hb]
      · simp [hb, Ne.symm hb]

end Roster

/-! ## The first fold -/

/-- The accumulators of the first loop. -/
structure Materials where
  roster : Roster
  epochs : BTreeMap Bytes EpochAuth
  revokedInvites : Finset Bytes
  spentNonces : Finset Bytes
  policy : PolicyPass
  memberAdmission : Bool

/-- Founders start with both grants. -/
def foundingMembers (founders : List ActorId) : BTreeMap ActorId (Finset Standing) :=
  founders.foldl (fun members a => members.insert a {Standing.admin, Standing.write}) ∅

def Materials.init (founders : List ActorId) : Materials where
  roster := ⟨foundingMembers founders, ∅⟩
  epochs := ∅
  revokedInvites := ∅
  spentNonces := ∅
  policy := PolicyPass.default
  memberAdmission := false

/-- What one op does to members and agents. -/
def Roster.apply (roster : Roster) (op : AclOp) : Roster :=
  match op.action with
  | .addMember actor grants =>
      ⟨roster.members.insert actor grants.toFinset, roster.agents.erase actor⟩
  | .setGrants actor grants =>
      ⟨roster.members.insert actor grants.toFinset, roster.agents.erase actor⟩
  | .addAgent actor grants =>
      ⟨roster.members.insert actor grants.toFinset, roster.agents.insert actor op.by_⟩
  | .removeMember actor => roster.evict actor
  | _ => roster

/-- An op changes the entry of its subject alone. -/
theorem Roster.members_apply (roster : Roster) (op : AclOp) (a : ActorId) :
    (roster.apply op).members[a]? =
      if op.subject = some a then op.action.seatGrants else roster.members[a]? := by
  obtain ⟨action, signer, asof, nonce⟩ := op
  cases action <;>
    simp [Roster.apply, Roster.evict, AclOp.subject, AclAction.actor, AclAction.seatGrants,
      BTreeMap.get_insert, BTreeMap.get_erase]

theorem Roster.agents_apply (roster : Roster) (op : AclOp) (a : ActorId) :
    (roster.apply op).agents[a]? =
      if op.subject = some a then op.sponsor else roster.agents[a]? := by
  obtain ⟨action, signer, asof, nonce⟩ := op
  cases action <;>
    simp [Roster.apply, Roster.evict, AclOp.subject, AclAction.actor, AclOp.sponsor,
      BTreeMap.get_insert, BTreeMap.get_erase]

/-- `epochs.entry(id).or_insert_with(..)`: the first mint of an epoch id wins. -/
def mintFirst (epochs : BTreeMap Bytes EpochAuth) (h : Text) (op : AclOp) :
    BTreeMap Bytes EpochAuth :=
  match op.action with
  | .mintEpoch id gen keyCommit members =>
      if epochs.contains id then epochs
      else epochs.insert id ⟨id, gen, keyCommit, members, op.by_, h⟩
  | _ => epochs

/-- The epoch record an op contributes under `id`. -/
def AclOp.epochAt (op : AclOp) (h : Text) (id : Bytes) : Option EpochAuth :=
  match op.action with
  | .mintEpoch id' gen keyCommit members =>
      if id' = id then some ⟨id, gen, keyCommit, members, op.by_, h⟩ else none
  | _ => none

theorem get_mintFirst (epochs : BTreeMap Bytes EpochAuth) (h : Text) (op : AclOp) (id : Bytes) :
    (mintFirst epochs h op)[id]? = (epochs[id]?).or (op.epochAt h id) := by
  obtain ⟨action, signer, asof, nonce⟩ := op
  cases action with
  | mintEpoch id' gen keyCommit members =>
      simp only [mintFirst, AclOp.epochAt, Std.ExtTreeMap.contains_eq_isSome_getElem?]
      by_cases hid : id' = id
      · subst hid
        cases hheld : epochs[id']? <;> simp [hheld]
      · cases epochs[id']? <;> simp [hid, BTreeMap.get_insert]
  | _ => simp [mintFirst, AclOp.epochAt]

theorem AclOp.epochAt_eq_some {op : AclOp} {h : Text} {id : Bytes} {e : EpochAuth}
    (he : op.epochAt h id = some e) : op.action.mints = some id ∧ e.mintHash = h := by
  unfold AclOp.epochAt at he
  split at he
  next id' gen keyCommit members haction =>
    split at he
    next hid =>
      obtain rfl := Option.some.inj he
      exact ⟨by rw [haction, hid, AclAction.mints], rfl⟩
    next => cases he
  next => cases he

theorem AclOp.epochAt_eq_none {op : AclOp} {h : Text} {id : Bytes}
    (he : op.epochAt h id = none) : op.action.mints ≠ some id := by
  obtain ⟨action, signer, asof, nonce⟩ := op
  cases action <;> simp_all [AclOp.epochAt, AclAction.mints]

/-- One turn of the first loop, field by field. -/
def Materials.apply (m : Materials) (e : Text × AclOp) : Materials where
  roster := m.roster.apply e.2
  epochs := mintFirst m.epochs e.1 e.2
  revokedInvites :=
    match e.2.action with
    | .revokeInvite nonce => insert nonce m.revokedInvites
    | _ => m.revokedInvites
  spentNonces :=
    match e.2.admits with
    | some (_, nonce) => insert nonce m.spentNonces
    | none => m.spentNonces
  policy := m.policy.apply e.2.action
  memberAdmission := e.2.action.admissionFlag m.memberAdmission

/-- The first loop over a list of ops. -/
def materials (founders : List ActorId) (auth : Authorized) : Materials :=
  auth.foldl Materials.apply (Materials.init founders)

section Materials

variable (founders : List ActorId)

theorem materials_snoc (auth : Authorized) (e : Text × AclOp) :
    materials founders (auth ++ [e]) = (materials founders auth).apply e := by
  rw [materials, List.foldl_append, List.foldl_cons, List.foldl_nil, ← materials]

theorem get_foundingMembers (a : ActorId) :
    (foundingMembers founders)[a]? =
      if a ∈ founders then some {Standing.admin, Standing.write} else none := by
  induction founders using List.reverseRecOn with
  | nil => simp [foundingMembers]
  | append_singleton founders b ih =>
      rw [foundingMembers, List.foldl_append, List.foldl_cons, List.foldl_nil,
        ← foundingMembers, BTreeMap.get_insert, ih]
      by_cases hb : b = a
      · simp [hb]
      · simp [hb, Ne.symm hb]

/-- **Who is a member before the overrides is read off the last op naming
them.** -/
theorem members_materials (auth : Authorized) (a : ActorId) :
    (materials founders auth).roster.members[a]? =
      match lastOn auth a with
      | none => if a ∈ founders then some {Standing.admin, Standing.write} else none
      | some op => op.action.seatGrants := by
  induction auth using List.reverseRecOn with
  | nil => exact get_foundingMembers founders a
  | append_singleton auth e ih =>
      rw [materials_snoc, Materials.apply, Roster.members_apply, lastOn_snoc, ih]
      split <;> rfl

/-- Likewise who is an agent, and of whom. -/
theorem agents_materials (auth : Authorized) (a : ActorId) :
    (materials founders auth).roster.agents[a]? = (lastOn auth a).bind AclOp.sponsor := by
  induction auth using List.reverseRecOn with
  | nil => simp [materials, Materials.init, lastOn_nil]
  | append_singleton auth e ih =>
      rw [materials_snoc, Materials.apply, Roster.agents_apply, lastOn_snoc, ih]
      split <;> rfl

theorem policy_materials (auth : Authorized) :
    (materials founders auth).policy =
      auth.foldl (fun policy e => policy.apply e.2.action) PolicyPass.default := by
  induction auth using List.reverseRecOn with
  | nil => rfl
  | append_singleton auth e ih =>
      rw [materials_snoc, List.foldl_append, List.foldl_cons, List.foldl_nil, ← ih,
        Materials.apply]

theorem memberAdmission_materials (auth : Authorized) :
    (materials founders auth).memberAdmission =
      auth.foldl (fun flag e => e.2.action.admissionFlag flag) false := by
  induction auth using List.reverseRecOn with
  | nil => rfl
  | append_singleton auth e ih =>
      rw [materials_snoc, List.foldl_append, List.foldl_cons, List.foldl_nil, ← ih,
        Materials.apply]

/-- **The epoch in force under an id is its first mint.** -/
theorem get_epochs_materials (auth : Authorized) (id : Bytes) :
    match (materials founders auth).epochs[id]? with
    | some e => ∃ l₁ op l₂, auth = l₁ ++ (e.mintHash, op) :: l₂ ∧ op.action.mints = some id ∧
        ∀ e' ∈ l₁, e'.2.action.mints ≠ some id
    | none => ∀ e' ∈ auth, e'.2.action.mints ≠ some id := by
  induction auth using List.reverseRecOn with
  | nil => simp [materials, Materials.init]
  | append_singleton auth e ih =>
      obtain ⟨h, op⟩ := e
      rw [materials_snoc, Materials.apply, get_mintFirst]
      cases hheld : (materials founders auth).epochs[id]? with
      | some held =>
          simp only [hheld, Option.some_or] at ih ⊢
          obtain ⟨l₁, op', l₂, rfl, hmint, hfirst⟩ := ih
          exact ⟨l₁, op', l₂ ++ [(h, op)], by simp, hmint, hfirst⟩
      | none =>
          simp only [hheld, Option.none_or] at ih ⊢
          cases hnew : op.epochAt h id with
          | some e =>
              obtain ⟨hmint, rfl⟩ := AclOp.epochAt_eq_some hnew
              exact ⟨auth, op, [], rfl, hmint, ih⟩
          | none =>
              intro e' he'
              rcases List.mem_append.mp he' with he' | he'
              · exact ih e' he'
              · obtain rfl := List.mem_singleton.mp he'
                exact AclOp.epochAt_eq_none hnew

end Materials

/-! ## The overrides -/

section Overrides

variable (ancestors : Ancestors) (auth : Authorized)

/-- Remove-wins: some authorized remove of `subject` is an ancestor of no
authorized seat op on them. -/
def removeWins (subject : ActorId) : Bool :=
  let adds := auth.filter fun e => e.2.action.seats = some subject
  let removes := auth.filter fun e => e.2.action.removes = some subject
  removes.any fun r => !adds.any fun a => ancestors.has a.1 r.1

/-- The subjects remove-wins evicts. -/
def removeWinsEvicted : List ActorId :=
  (auth.filterMap fun e => e.2.subject).dedup.filter fun a => removeWins ancestors auth a

/-- The nonce-carrying admissions, by nonce. -/
def byNonce : BTreeMap Bytes (List (Text × ActorId)) :=
  auth.foldl (fun groups e =>
    match e.2.admits with
    | some (actor, nonce) =>
        groups.insert nonce ((groups[nonce]?.getD []) ++ [(e.1, actor)])
    | none => groups) ∅

/-- Neither op is an ancestor of the other. -/
def concurrent (a b : Text) : Bool := !ancestors.has a b && !ancestors.has b a

/-- An admission loses iff a lower-hash admission of a different actor under the
same nonce is concurrent with it. -/
def loses (group : List (Text × ActorId)) (e : Text × ActorId) : Bool :=
  group.any fun other => other.2 ≠ e.2 && other.1 < e.1 && concurrent ancestors other.1 e.1

/-- `group.sort_by(|a, b| a.0.cmp(&b.0))`. -/
def sortGroup (group : List (Text × ActorId)) : List (Text × ActorId) :=
  group.insertionSort fun a b => a.1 ≤ b.1

/-- The sorted groups in which somebody loses. -/
def races : List (List (Text × ActorId)) :=
  ((BTreeMap.valuesOf (byNonce auth)).map sortGroup).filter fun group => group.any (loses ancestors group)

/-- The admissions that lost a race. -/
def raceLosers : List Text :=
  (races ancestors auth).flatMap fun group => (group.filter (loses ancestors group)).map Prod.fst

/-- The authorized invite revocations: nonce and op hash. -/
def inviteRevokes : List (Bytes × Text) :=
  auth.filterMap fun e =>
    match e.2.action with
    | .revokeInvite nonce => some (nonce, e.1)
    | _ => none

/-- One revocation fences the admissions under its nonce that it had not
seen. -/
def fenceGroup (revoke : Bytes × Text) (fenced : BTreeMap Text RekeyFence)
    (e : Text × ActorId) : BTreeMap Text RekeyFence :=
  if ancestors.has revoke.2 e.1 then fenced
  else fenced.insert e.1 ⟨revoke.2, e.2, revoke.1⟩

/-- The fenced admissions, each with the last revocation that fences it. -/
def fencedAdmissions : BTreeMap Text RekeyFence :=
  (inviteRevokes auth).foldl (fun fenced revoke =>
    ((byNonce auth)[revoke.1]?.getD []).foldl (fenceGroup ancestors revoke) fenced) ∅

/-- Race losers and fenced admissions: the ops that seat nobody. -/
def disqualified : Finset Text :=
  (raceLosers ancestors auth ++ (fencedAdmissions ancestors auth).keys).toFinset

/-- Whether some op that is not void seats `actor`. -/
def seatedIndependently (actor : ActorId) : Bool :=
  auth.any fun e =>
    e.1 ∉ disqualified ancestors auth && e.2.action.seats = some actor

/-- The actors evicted because of a race: all of the group but the winner, the
actor of its lowest hash, unless seated independently. -/
def raceEvicted : List ActorId :=
  (races ancestors auth).flatMap fun group =>
    (group.filter fun e =>
      (group.head?.all fun winner => e.2 ≠ winner.2) &&
        !seatedIndependently ancestors auth e.2).map Prod.snd

/-- The fences whose actor is not seated independently. -/
def owedFences : List RekeyFence :=
  (BTreeMap.valuesOf (fencedAdmissions ancestors auth)).filter fun f =>
    !seatedIndependently ancestors auth f.evicted

/-- Whether some epoch in force causally descends the fence. -/
def discharged (epochs : BTreeMap Bytes EpochAuth) (f : RekeyFence) : Bool :=
  (BTreeMap.valuesOf epochs).any fun e => ancestors.has e.mintHash f.fence

end Overrides

/-- The agents whose sponsor is not a member. -/
def orphaned (roster : Roster) : List ActorId :=
  (roster.agents.toList.filter fun entry => !roster.members.contains entry.2).map Prod.fst

/-- Founders and effective meta-grant holders still holding membership. -/
def policyAdminsOf (founders : List ActorId) (members : BTreeMap ActorId (Finset Standing))
    (policy : PolicyPass) : Finset ActorId :=
  (founders.filter fun a => members.contains a).toFinset ∪
    ((policy.grants.toList.filter fun entry =>
      entry.1 ∉ policy.revokedGrants && entry.2.isMeta && members.contains entry.2.actor).map
        fun entry => entry.2.actor).toFinset

/-- The members admitted under each nonce. -/
def nonceAdmitsOf (auth : Authorized) (members : BTreeMap ActorId (Finset Standing)) :
    BTreeMap Bytes (Finset ActorId) :=
  auth.foldl (fun admits e =>
    match e.2.admits with
    | some (actor, nonce) =>
        if members.contains actor then
          admits.insert nonce (insert actor (admits[nonce]?.getD ∅))
        else admits
    | none => admits) ∅

/-- The roster after remove-wins, the nonce races and the revoke fences, in that
order. -/
def overridden (ancestors : Ancestors) (auth : Authorized) (roster : Roster) : Roster :=
  ((roster.evictAll (removeWinsEvicted ancestors auth)).evictAll
    (raceEvicted ancestors auth)).evictAll
      ((owedFences ancestors auth).map RekeyFence.evicted)

/-- Pass 2. -/
def materializeAuthorized (genesis : Genesis) (decoded : Text → Option AclOp)
    (ancestors : Ancestors) (authorized : List Text) : AclState :=
  let auth := resolve decoded authorized
  let m := materials genesis.foundingActors auth
  let roster := overridden ancestors auth m.roster
  let roster := roster.evictAll (orphaned roster)
  { members := roster.members
    agents := roster.agents
    epochs := m.epochs
    revokedInvites := m.revokedInvites
    spentNonces := m.spentNonces
    rekeyFences :=
      ((owedFences ancestors auth).filter fun f => !discharged ancestors m.epochs f).toFinset
    policy := m.policy
    policyAdmins := policyAdminsOf genesis.foundingActors roster.members m.policy
    nonceAdmits := nonceAdmitsOf auth roster.members
    memberAdmission := m.memberAdmission
    unresolved := false }

end Acl

end Lait
