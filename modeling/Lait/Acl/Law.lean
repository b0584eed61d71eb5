import Lait.Acl.Materialize

/-!
# The membership law

What pass 2 computes, said without its loops.  Over a list of authorized ops and
their ancestor relation:

* an admission is `Void` when it lost its nonce's race or was fenced;
* an actor is `Seated` by an op that is not void, and `RemovedUnseen` by a
  removal no seat op has seen;
* an actor `Stands` when no removal went unseen and either nobody ever named
  them and they are a founder, or the last op naming them seats them and they
  are seated;
* an actor is `SponsoredBy` another when the last op naming them is that actor's
  `AddAgent`.

`isMember_materialize` and `agents_materialize` connect this to the code: the
members are the actors who stand and whose sponsor, if they have one, stands;
the agents are the members with a sponsor.

The step that is not a rewriting of definitions is `ousted_iff`.  The code evicts
by walking races and fences; what that amounts to is that an actor named by some
seat op falls exactly when none of those ops counts.
-/

namespace Lait

namespace Acl

section Law

variable (founders : Finset ActorId) (ancestors : Ancestors) (auth : Authorized)

/-- The op `h` admits `a` by spending the nonce `n`. -/
def Admits (h : Text) (a : ActorId) (n : Bytes) : Prop :=
  ∃ op, (h, op) ∈ auth ∧ op.admits = some (a, n)

/-- The op `r` revokes the invite nonce `n`. -/
def Revokes (r : Text) (n : Bytes) : Prop :=
  ∃ op, (r, op) ∈ auth ∧ op.action = .revokeInvite n

/-- The op `h` seats `a`. -/
def SeatsAt (h : Text) (a : ActorId) : Prop :=
  ∃ op, (h, op) ∈ auth ∧ op.action.seats = some a

/-- The op `r` removes `a`. -/
def RemovesAt (r : Text) (a : ActorId) : Prop :=
  ∃ op, (r, op) ∈ auth ∧ op.action.removes = some a

/-- The admission `h` lost to a concurrent lower-hash admission of somebody else
under the same nonce. -/
def RaceLoser (h : Text) : Prop :=
  ∃ a n, Admits auth h a n ∧ ∃ h' a', Admits auth h' a' n ∧ a' ≠ a ∧ h' < h ∧
    concurrent ancestors h' h = true

/-- The revocation `r` voids the admission `h`, which it had not seen. -/
def FencedBy (h r : Text) : Prop :=
  ∃ a n, Admits auth h a n ∧ Revokes auth r n ∧ ancestors.has r h = false

/-- An op that seats nobody. -/
def Void (h : Text) : Prop := RaceLoser ancestors auth h ∨ ∃ r, FencedBy ancestors auth h r

/-- Some op that is not void seats `a`. -/
def Seated (a : ActorId) : Prop := ∃ h, SeatsAt auth h a ∧ ¬ Void ancestors auth h

/-- Some removal of `a` is an ancestor of no op seating them. -/
def RemovedUnseen (a : ActorId) : Prop :=
  ∃ r, RemovesAt auth r a ∧ ∀ h, SeatsAt auth h a → ancestors.has h r = false

/-- An actor who keeps their seat through every override but the sponsor
cascade. -/
def Stands (a : ActorId) : Prop :=
  ¬ RemovedUnseen ancestors auth a ∧
    match lastOn auth a with
    | none => a ∈ founders
    | some op => op.action.seats = some a ∧ Seated ancestors auth a

/-- The last op naming `a` is an `AddAgent` authored by `s`. -/
def SponsoredBy (a s : ActorId) : Prop :=
  ∃ op grants, lastOn auth a = some op ∧ op.action = .addAgent a grants ∧ op.by_ = s

/-- One op to a hash. -/
def Functional : Prop := ∀ h op op', (h, op) ∈ auth → (h, op') ∈ auth → op = op'

/-- No op descends from a later one, and there is one op to a hash. -/
def CausallyOrdered : Prop :=
  auth.Pairwise fun e e' => e.1 ≠ e'.1 ∧ ancestors.has e.1 e'.1 = false

end Law

theorem functional_resolve (decoded : Text → Option AclOp) (authorized : List Text) :
    Functional (resolve decoded authorized) := by
  have hdec : ∀ {h op}, (h, op) ∈ resolve decoded authorized → decoded h = some op := by
    intro h op hmem
    simp only [resolve, List.mem_filterMap, Option.map_eq_some_iff, Prod.mk.injEq] at hmem
    obtain ⟨k, -, op', hop, rfl, rfl⟩ := hmem
    exact hop
  intro h op op' hop hop'
  exact Option.some.inj ((hdec hop).symm.trans (hdec hop'))

theorem mem_resolve {decoded : Text → Option AclOp} {authorized : List Text} {h : Text}
    {op : AclOp} : (h, op) ∈ resolve decoded authorized ↔ h ∈ authorized ∧ decoded h = some op := by
  simp only [resolve, List.mem_filterMap, Option.map_eq_some_iff, Prod.mk.injEq]
  constructor
  · rintro ⟨k, hk, op', hop, rfl, rfl⟩
    exact ⟨hk, hop⟩
  · rintro ⟨hk, hop⟩
    exact ⟨h, hk, op, hop, rfl, rfl⟩

section Ops

variable {ancestors : Ancestors} {auth : Authorized}

/-- A spent nonce comes with an `AddMember`, which is a seat op. -/
theorem AclOp.seats_of_admits {op : AclOp} {a : ActorId} {n : Bytes}
    (hop : op.admits = some (a, n)) : op.action.seats = some a := by
  unfold AclOp.admits at hop
  split at hop
  next actor _ nonce haction _ =>
    obtain ⟨rfl, rfl⟩ := Prod.mk.inj (Option.some.inj hop)
    rw [haction, AclAction.seats]
  next => cases hop

theorem AclAction.actor_of_seats {action : AclAction} {a : ActorId}
    (ha : action.seats = some a) : action.actor = some a := by
  cases action <;> first | exact ha | cases ha

theorem AclAction.actor_of_removes {action : AclAction} {a : ActorId}
    (ha : action.removes = some a) : action.actor = some a := by
  cases action <;> first | exact ha | cases ha

/-- A subject is either seated or removed. -/
theorem AclAction.seats_or_removes {action : AclAction} {a : ActorId}
    (ha : action.actor = some a) : action.seats = some a ∨ action.removes = some a := by
  cases action <;> first | exact Or.inl ha | exact Or.inr ha

theorem AclAction.removes_ne_seats {action : AclAction} {a b : ActorId}
    (ha : action.removes = some a) : action.seats ≠ some b := by
  intro hb
  cases action <;> first | cases ha; done | cases hb

theorem Admits.seatsAt {h : Text} {a : ActorId} {n : Bytes} (hadm : Admits auth h a n) :
    SeatsAt auth h a := by
  obtain ⟨op, hmem, hop⟩ := hadm
  exact ⟨op, hmem, AclOp.seats_of_admits hop⟩

/-- One op to a hash: an admission admits one actor under one nonce. -/
theorem Functional.admits_unique (hfun : Functional auth) {h : Text} {a a' : ActorId}
    {n n' : Bytes} (hadm : Admits auth h a n) (hadm' : Admits auth h a' n') :
    a = a' ∧ n = n' := by
  obtain ⟨op, hmem, hop⟩ := hadm
  obtain ⟨op', hmem', hop'⟩ := hadm'
  rw [hfun h op op' hmem hmem', hop'] at hop
  exact Prod.mk.inj (Option.some.inj hop.symm)

theorem Functional.seatsAt_unique (hfun : Functional auth) {h : Text} {a a' : ActorId}
    (hs : SeatsAt auth h a) (hs' : SeatsAt auth h a') : a = a' := by
  obtain ⟨op, hmem, hop⟩ := hs
  obtain ⟨op', hmem', hop'⟩ := hs'
  rw [hfun h op op' hmem hmem', hop'] at hop
  exact Option.some.inj hop.symm

/-- Only admissions are void. -/
theorem Void.admits {h : Text} (hvoid : Void ancestors auth h) : ∃ a n, Admits auth h a n := by
  rcases hvoid with ⟨a, n, hadm, -⟩ | ⟨r, a, n, hadm, -⟩
  · exact ⟨a, n, hadm⟩
  · exact ⟨a, n, hadm⟩

/-- An actor seated by an op that spends no nonce is seated. -/
theorem seated_of_not_admission (hfun : Functional auth) {h : Text} {op : AclOp} {a : ActorId}
    (hmem : (h, op) ∈ auth) (hseat : op.action.seats = some a) (hnot : op.admits = none) :
    Seated ancestors auth a := by
  refine ⟨h, ⟨op, hmem, hseat⟩, fun hvoid => ?_⟩
  obtain ⟨a', n, op', hmem', hop'⟩ := hvoid.admits
  rw [← hfun h op op' hmem hmem', hnot] at hop'
  cases hop'

/-- A sponsored actor is seated by the sponsorship itself. -/
theorem SponsoredBy.seated (hfun : Functional auth) {a s : ActorId}
    (hspons : SponsoredBy auth a s) : Seated ancestors auth a := by
  obtain ⟨op, grants, hlast, haction, -⟩ := hspons
  obtain ⟨-, l₁, h, l₂, rfl, -⟩ := lastOn_eq_some hlast
  have hmem : (h, op) ∈ l₁ ++ (h, op) :: l₂ := by simp
  exact seated_of_not_admission hfun hmem (by simp [haction, AclAction.seats])
    (by simp [AclOp.admits, haction])

/-! ## The overrides, one by one -/

theorem removeWins_iff {a : ActorId} :
    removeWins ancestors auth a = true ↔ RemovedUnseen ancestors auth a := by
  simp only [removeWins, List.any_eq_true, List.mem_filter, decide_eq_true_eq,
    Bool.not_eq_true', List.any_eq_false, Bool.not_eq_true, RemovedUnseen, RemovesAt, SeatsAt]
  constructor
  · rintro ⟨⟨r, op⟩, ⟨hmem, hrem⟩, hunseen⟩
    refine ⟨r, ⟨op, hmem, hrem⟩, ?_⟩
    rintro h ⟨op', hmem', hseat⟩
    exact hunseen (h, op') ⟨hmem', hseat⟩
  · rintro ⟨r, ⟨op, hmem, hrem⟩, hunseen⟩
    refine ⟨(r, op), ⟨hmem, hrem⟩, ?_⟩
    rintro ⟨h, op'⟩ ⟨hmem', hseat⟩
    exact hunseen h ⟨op', hmem', hseat⟩

theorem mem_removeWinsEvicted {a : ActorId} :
    a ∈ removeWinsEvicted ancestors auth ↔ RemovedUnseen ancestors auth a := by
  rw [removeWinsEvicted, List.mem_filter, List.mem_dedup, removeWins_iff, and_iff_right_iff_imp]
  rintro ⟨r, ⟨op, hmem, hrem⟩, -⟩
  exact List.mem_filterMap.mpr ⟨(r, op), hmem, AclAction.actor_of_removes hrem⟩

/-- The admissions under one nonce, in the authorized order. -/
def admissions (auth : Authorized) (n : Bytes) : List (Text × ActorId) :=
  auth.filterMap fun e =>
    match e.2.admits with
    | some (actor, nonce) => if nonce = n then some (e.1, actor) else none
    | none => none

theorem mem_admissions {n : Bytes} {h : Text} {a : ActorId} :
    (h, a) ∈ admissions auth n ↔ Admits auth h a n := by
  simp only [admissions, List.mem_filterMap, Admits]
  constructor
  · rintro ⟨⟨k, op⟩, hmem, hop⟩
    cases hadm : op.admits with
    | none => simp [hadm] at hop
    | some pair =>
        obtain ⟨actor, nonce⟩ := pair
        simp only [hadm, Option.ite_none_right_eq_some, Option.some.injEq, Prod.mk.injEq] at hop
        obtain ⟨rfl, rfl, rfl⟩ := hop
        exact ⟨op, hmem, hadm⟩
  · rintro ⟨op, hmem, hadm⟩
    exact ⟨(h, op), hmem, by simp [hadm]⟩

/-- `by_nonce` lists the admissions of every nonce that has some. -/
theorem get_byNonce (auth : Authorized) (n : Bytes) :
    (byNonce auth)[n]? = if admissions auth n = [] then none else some (admissions auth n) := by
  induction auth using List.reverseRecOn with
  | nil => simp [byNonce, admissions]
  | append_singleton auth e ih =>
      rw [byNonce, List.foldl_append, List.foldl_cons, List.foldl_nil, ← byNonce]
      have hadd : admissions (auth ++ [e]) n = admissions auth n ++ admissions [e] n := by
        rw [admissions, List.filterMap_append, ← admissions, ← admissions]
      rw [hadd]
      cases hadm : e.2.admits with
      | none =>
          have hnone : admissions [e] n = [] := by simp [admissions, hadm]
          simpa [hnone] using ih
      | some pair =>
          obtain ⟨actor, nonce⟩ := pair
          rw [BTreeMap.get_insert]
          by_cases hn : nonce = n
          · have hone : admissions [e] n = [(e.1, actor)] := by simp [admissions, hadm, hn]
            rw [hone, hn, if_pos rfl, ih]
            by_cases hnil : admissions auth n = [] <;> simp [hnil]
          · have hnone : admissions [e] n = [] := by simp [admissions, hadm, hn]
            rw [hnone, if_neg hn, ih, List.append_nil]

theorem getD_byNonce (auth : Authorized) (n : Bytes) :
    (byNonce auth)[n]?.getD [] = admissions auth n := by
  rw [get_byNonce]
  split
  next hnil => rw [hnil, Option.getD_none]
  next => rfl

theorem mem_sortGroup {group : List (Text × ActorId)} {e : Text × ActorId} :
    e ∈ sortGroup group ↔ e ∈ group := (List.perm_insertionSort _ group).mem_iff

/-- Losing depends on who is in the group, not on its order. -/
theorem loses_sortGroup (group : List (Text × ActorId)) (e : Text × ActorId) :
    loses ancestors (sortGroup group) e = loses ancestors group e := by
  rw [Bool.eq_iff_iff]
  simp only [loses, List.any_eq_true, mem_sortGroup]

/-- The races are the sorted admissions of the nonces under which somebody
loses. -/
theorem mem_races {group : List (Text × ActorId)} :
    group ∈ races ancestors auth ↔ ∃ n, group = sortGroup (admissions auth n) ∧
      ∃ e ∈ admissions auth n, loses ancestors (admissions auth n) e = true := by
  simp only [races, List.mem_filter, List.mem_map, List.any_eq_true,
    BTreeMap.mem_valuesOf]
  constructor
  · rintro ⟨⟨group', ⟨n, hget⟩, rfl⟩, e, he, hloses⟩
    rw [get_byNonce] at hget
    split at hget
    · cases hget
    · obtain rfl := Option.some.inj hget
      exact ⟨n, rfl, e, mem_sortGroup.mp he, by rwa [loses_sortGroup] at hloses⟩
  · rintro ⟨n, rfl, e, he, hloses⟩
    refine ⟨⟨_, ⟨n, ?_⟩, rfl⟩, e, mem_sortGroup.mpr he, by rwa [loses_sortGroup]⟩
    rw [get_byNonce, if_neg (List.ne_nil_of_mem he)]

theorem loses_iff {n : Bytes} {h : Text} {a : ActorId} :
    loses ancestors (admissions auth n) (h, a) = true ↔
      ∃ h' a', Admits auth h' a' n ∧ a' ≠ a ∧ h' < h ∧ concurrent ancestors h' h = true := by
  simp only [loses, List.any_eq_true, Bool.and_eq_true, decide_eq_true_eq, Prod.exists,
    mem_admissions, and_assoc]

theorem mem_raceLosers {h : Text} :
    h ∈ raceLosers ancestors auth ↔ RaceLoser ancestors auth h := by
  simp only [raceLosers, List.mem_flatMap, List.mem_map, List.mem_filter, RaceLoser]
  constructor
  · rintro ⟨group, hgroup, ⟨k, a⟩, ⟨hmem, hloses⟩, rfl⟩
    obtain ⟨n, rfl, -⟩ := mem_races.mp hgroup
    rw [loses_sortGroup, loses_iff] at hloses
    exact ⟨a, n, mem_admissions.mp (mem_sortGroup.mp hmem), hloses⟩
  · rintro ⟨a, n, hadm, hloses⟩
    have hmem := mem_admissions.mpr hadm
    rw [← loses_iff] at hloses
    refine ⟨_, mem_races.mpr ⟨n, rfl, _, hmem, hloses⟩, (h, a),
      ⟨mem_sortGroup.mpr hmem, ?_⟩, rfl⟩
    rwa [loses_sortGroup]

theorem mem_inviteRevokes {n : Bytes} {r : Text} :
    (n, r) ∈ inviteRevokes auth ↔ Revokes auth r n := by
  simp only [inviteRevokes, List.mem_filterMap, Revokes]
  constructor
  · rintro ⟨⟨k, op⟩, hmem, hop⟩
    split at hop
    next nonce haction =>
      obtain ⟨rfl, rfl⟩ := Prod.mk.inj (Option.some.inj hop)
      exact ⟨op, hmem, haction⟩
    next => cases hop
  · rintro ⟨op, hmem, haction⟩
    exact ⟨(r, op), hmem, by simp [haction]⟩

/-- One revocation's turn, seen at one hash: it fences the admission there if
it had not seen it. -/
theorem get_foldl_fenceGroup (revoke : Bytes × Text) (group : List (Text × ActorId))
    (fenced : BTreeMap Text RekeyFence) {h : Text} {a : ActorId}
    (hone : ∀ e ∈ group, e.1 = h → e.2 = a) :
    (group.foldl (fenceGroup ancestors revoke) fenced)[h]? =
      if (h, a) ∈ group ∧ ancestors.has revoke.2 h = false then some ⟨revoke.2, a, revoke.1⟩
      else fenced[h]? := by
  induction group generalizing fenced with
  | nil => simp
  | cons e group ih =>
      rw [List.foldl_cons, ih _ fun e' he' => hone e' (List.mem_cons_of_mem _ he')]
      obtain ⟨k, b⟩ := e
      by_cases hk : k = h
      · obtain rfl := hk
        obtain rfl : b = a := hone (k, b) List.mem_cons_self rfl
        cases hseen : ancestors.has revoke.2 k with
        | true => simp [fenceGroup, hseen]
        | false => simp [fenceGroup, hseen]
      · have hne : (h, a) ≠ (k, b) := fun heq => hk (congrArg Prod.fst heq).symm
        have hget : (fenceGroup ancestors revoke fenced (k, b))[h]? = fenced[h]? := by
          rw [fenceGroup]
          split
          · rfl
          · rw [BTreeMap.get_insert, if_neg hk]
        simp only [hget, List.mem_cons, hne, false_or]

/-- The revocations that fence the admission of `h` under `n`, in order. -/
def fencesOf (ancestors : Ancestors) (auth : Authorized) (h : Text) (n : Bytes) :
    List (Bytes × Text) :=
  (inviteRevokes auth).filter fun revoke => revoke.1 = n && !ancestors.has revoke.2 h

/-- **The fence of an admission is the last revocation of its nonce that had not
seen it.** -/
theorem get_fencedAdmissions (hfun : Functional auth) {h : Text} {a : ActorId} {n : Bytes}
    (hadm : Admits auth h a n) :
    (fencedAdmissions ancestors auth)[h]? =
      (fencesOf ancestors auth h n).getLast?.map fun revoke => ⟨revoke.2, a, n⟩ := by
  have hone : ∀ m, ∀ e ∈ admissions auth m, e.1 = h → e.2 = a := by
    rintro m ⟨k, b⟩ he rfl
    exact (hfun.admits_unique (mem_admissions.mp he) hadm).1
  have hmem : ∀ m, (h, a) ∈ admissions auth m ↔ m = n := by
    intro m
    rw [mem_admissions]
    refine ⟨fun hm => (hfun.admits_unique hm hadm).2, ?_⟩
    rintro rfl
    exact hadm
  rw [fencedAdmissions, fencesOf]
  induction inviteRevokes auth using List.reverseRecOn with
  | nil => simp
  | append_singleton revokes revoke ih =>
      rw [List.foldl_append, List.foldl_cons, List.foldl_nil, getD_byNonce,
        get_foldl_fenceGroup _ _ _ (hone _), ih, List.filter_append]
      simp only [hmem]
      by_cases hf : revoke.1 = n ∧ ancestors.has revoke.2 h = false
      · simp [hf.1, hf.2]
      · rw [if_neg hf]
        have hdrop : [revoke].filter (fun r => r.1 = n && !ancestors.has r.2 h) = [] := by
          simpa [List.filter_cons] using hf
        rw [hdrop, List.append_nil]

theorem mem_fencesOf {h r : Text} {n m : Bytes} :
    (m, r) ∈ fencesOf ancestors auth h n ↔
      m = n ∧ Revokes auth r n ∧ ancestors.has r h = false := by
  simp only [fencesOf, List.mem_filter, mem_inviteRevokes, Bool.and_eq_true, decide_eq_true_eq,
    Bool.not_eq_true']
  constructor
  · rintro ⟨hrev, rfl, hseen⟩
    exact ⟨rfl, hrev, hseen⟩
  · rintro ⟨rfl, hrev, hseen⟩
    exact ⟨hrev, rfl, hseen⟩

/-- A hash that admits nobody is never fenced. -/
theorem get_fencedAdmissions_of_not_admits {h : Text}
    (hnot : ∀ a n, ¬ Admits auth h a n) : (fencedAdmissions ancestors auth)[h]? = none := by
  have hgroup : ∀ m, ∀ e ∈ admissions auth m, e.1 ≠ h := by
    rintro m ⟨k, b⟩ he rfl
    exact hnot b m (mem_admissions.mp he)
  rw [fencedAdmissions]
  induction inviteRevokes auth using List.reverseRecOn with
  | nil => simp
  | append_singleton revokes revoke ih =>
      rw [List.foldl_append, List.foldl_cons, List.foldl_nil, getD_byNonce,
        get_foldl_fenceGroup (a := default) _ _ _ fun e he heq => absurd heq (hgroup _ e he),
        if_neg fun hf => hgroup _ _ hf.1 rfl, ih]

/-- What a fence says about its admission. -/
theorem fencedAdmissions_spec (hfun : Functional auth) {h : Text} {f : RekeyFence}
    (hget : (fencedAdmissions ancestors auth)[h]? = some f) :
    Admits auth h f.evicted f.nonce ∧ Revokes auth f.fence f.nonce ∧
      ancestors.has f.fence h = false := by
  by_cases hadm : ∃ a n, Admits auth h a n
  · obtain ⟨a, n, hadm⟩ := hadm
    rw [get_fencedAdmissions hfun hadm, Option.map_eq_some_iff] at hget
    obtain ⟨⟨m, r⟩, hlast, rfl⟩ := hget
    obtain ⟨rfl, hrev, hseen⟩ := mem_fencesOf.mp (List.mem_of_getLast? hlast)
    exact ⟨hadm, hrev, hseen⟩
  · push Not at hadm
    rw [get_fencedAdmissions_of_not_admits hadm] at hget
    cases hget

theorem mem_fencedAdmissions (hfun : Functional auth) {h : Text} :
    (∃ f, (fencedAdmissions ancestors auth)[h]? = some f) ↔ ∃ r, FencedBy ancestors auth h r := by
  constructor
  · rintro ⟨f, hget⟩
    obtain ⟨hadm, hrev, hseen⟩ := fencedAdmissions_spec hfun hget
    exact ⟨f.fence, f.evicted, f.nonce, hadm, hrev, hseen⟩
  · rintro ⟨r, a, n, hadm, hrev, hseen⟩
    rw [get_fencedAdmissions hfun hadm]
    have hmem : (n, r) ∈ fencesOf ancestors auth h n := mem_fencesOf.mpr ⟨rfl, hrev, hseen⟩
    obtain ⟨last, hlast⟩ := Option.isSome_iff_exists.mp
      (List.getLast?_isSome.mpr (List.ne_nil_of_mem hmem))
    exact ⟨⟨last.2, a, n⟩, by rw [hlast, Option.map_some]⟩

theorem mem_disqualified (hfun : Functional auth) {h : Text} :
    h ∈ disqualified ancestors auth ↔ Void ancestors auth h := by
  rw [disqualified, List.mem_toFinset, List.mem_append, mem_raceLosers, BTreeMap.mem_keys_iff,
    mem_fencedAdmissions hfun, Void]

theorem seatedIndependently_iff (hfun : Functional auth) {a : ActorId} :
    seatedIndependently ancestors auth a = true ↔ Seated ancestors auth a := by
  simp only [seatedIndependently, List.any_eq_true, Bool.and_eq_true, decide_eq_true_eq,
    mem_disqualified hfun, Seated, SeatsAt]
  constructor
  · rintro ⟨⟨h, op⟩, hmem, hvoid, hseat⟩
    exact ⟨h, ⟨op, hmem, hseat⟩, hvoid⟩
  · rintro ⟨h, ⟨op, hmem, hseat⟩, hvoid⟩
    exact ⟨(h, op), hmem, hvoid, hseat⟩

theorem mem_owedFences (hfun : Functional auth) {f : RekeyFence} :
    f ∈ owedFences ancestors auth ↔
      (∃ h : Text, (fencedAdmissions ancestors auth)[h]? = some f) ∧
        ¬ Seated ancestors auth f.evicted := by
  rw [owedFences, List.mem_filter, BTreeMap.mem_valuesOf,
    ← seatedIndependently_iff hfun, Bool.not_eq_true', Bool.not_eq_true]

/-- The head of a sorted group has the lowest hash. -/
theorem head_sortGroup_le {group : List (Text × ActorId)} {winner e : Text × ActorId}
    (hhead : (sortGroup group).head? = some winner) (he : e ∈ group) : winner.1 ≤ e.1 := by
  obtain ⟨rest, hsorted⟩ := List.head?_eq_some_iff.mp hhead
  have hpair : (sortGroup group).Pairwise fun a b => a.1 ≤ b.1 := by
    have : Std.Total fun a b : Text × ActorId => a.1 ≤ b.1 := ⟨fun a b => le_total a.1 b.1⟩
    have : IsTrans (Text × ActorId) fun a b => a.1 ≤ b.1 := ⟨fun _ _ _ => le_trans⟩
    exact List.pairwise_insertionSort _ group
  rw [hsorted, List.pairwise_cons] at hpair
  have hmem : e ∈ winner :: rest := hsorted ▸ mem_sortGroup.mpr he
  rcases List.mem_cons.mp hmem with rfl | hrest
  · exact le_rfl
  · exact hpair.1 e hrest

theorem mem_raceEvicted (hfun : Functional auth) {a : ActorId} :
    a ∈ raceEvicted ancestors auth ↔ ¬ Seated ancestors auth a ∧
      ∃ group ∈ races ancestors auth, (∃ h, (h, a) ∈ group) ∧
        ∀ winner, group.head? = some winner → a ≠ winner.2 := by
  simp only [raceEvicted, List.mem_flatMap, List.mem_map, List.mem_filter, Bool.and_eq_true,
    Bool.not_eq_true', Option.all_eq_true, decide_eq_true_eq]
  have hseated : seatedIndependently ancestors auth a = false ↔ ¬ Seated ancestors auth a := by
    rw [← seatedIndependently_iff hfun, Bool.not_eq_true]
  constructor
  · rintro ⟨group, hgroup, ⟨h, b⟩, ⟨hmem, hwin, hnot⟩, rfl⟩
    exact ⟨hseated.mp hnot, group, hgroup, ⟨h, hmem⟩, hwin⟩
  · rintro ⟨hnot, group, hgroup, ⟨h, hmem⟩, hwin⟩
    exact ⟨group, hgroup, (h, a), ⟨hmem, hwin, hseated.mpr hnot⟩, rfl⟩

/-- **Who the races and fences evict.**  An actor some op seats falls to a race
or a fence exactly when no op that counts seats them.  If all their seat ops are
void and none is fenced, they lost a race; its winner is somebody else, because
the lowest hash of a race does not lose it. -/
theorem ousted_iff (hfun : Functional auth) {a : ActorId} :
    (a ∈ raceEvicted ancestors auth ∨
      a ∈ (owedFences ancestors auth).map RekeyFence.evicted) ↔
        (∃ h, SeatsAt auth h a) ∧ ¬ Seated ancestors auth a := by
  constructor
  · rintro (hrace | hfence)
    · obtain ⟨hnot, group, hgroup, ⟨h, hmem⟩, -⟩ := (mem_raceEvicted hfun).mp hrace
      obtain ⟨n, rfl, -⟩ := mem_races.mp hgroup
      exact ⟨⟨h, (mem_admissions.mp (mem_sortGroup.mp hmem)).seatsAt⟩, hnot⟩
    · obtain ⟨f, hf, rfl⟩ := List.mem_map.mp hfence
      obtain ⟨⟨h, hget⟩, hnot⟩ := (mem_owedFences hfun).mp hf
      exact ⟨⟨h, (fencedAdmissions_spec hfun hget).1.seatsAt⟩, hnot⟩
  · rintro ⟨⟨h, hseat⟩, hnot⟩
    have hvoid : ∀ k, SeatsAt auth k a → Void ancestors auth k := fun k hk =>
      by_contra fun hv => hnot ⟨k, hk, hv⟩
    -- A fenced admission of `a` is owed, since `a` is not seated.
    have hfence : ∀ k, SeatsAt auth k a → (∃ r, FencedBy ancestors auth k r) →
        a ∈ (owedFences ancestors auth).map RekeyFence.evicted := by
      intro k hk hfenced
      obtain ⟨f, hget⟩ := (mem_fencedAdmissions hfun).mpr hfenced
      have hadm := (fencedAdmissions_spec hfun hget).1
      obtain rfl := hfun.seatsAt_unique hadm.seatsAt hk
      exact List.mem_map.mpr ⟨f, (mem_owedFences hfun).mpr ⟨⟨k, hget⟩, hnot⟩, rfl⟩
    rcases hvoid h hseat with ⟨b, n, hadm, hloses⟩ | hfenced
    · obtain rfl := hfun.seatsAt_unique hadm.seatsAt hseat
      have hmem := mem_admissions.mpr hadm
      by_cases hwin : ∀ winner, (sortGroup (admissions auth n)).head? = some winner →
          b ≠ winner.2
      · refine Or.inl ((mem_raceEvicted hfun).mpr ⟨hnot, _, mem_races.mpr ⟨n, rfl, (h, b), hmem,
          loses_iff.mpr hloses⟩, ⟨h, mem_sortGroup.mpr hmem⟩, hwin⟩)
      · push Not at hwin
        obtain ⟨⟨k, c⟩, hhead, rfl⟩ := hwin
        have hkadm := mem_admissions.mp (mem_sortGroup.mp (List.mem_of_head? hhead))
        refine Or.inr (hfence k hkadm.seatsAt ?_)
        rcases hvoid k hkadm.seatsAt with ⟨b', n', hadm', k', a', hk', -, hlt, -⟩ | hfenced
        · obtain ⟨rfl, rfl⟩ := hfun.admits_unique hadm' hkadm
          have hle := head_sortGroup_le hhead (mem_admissions.mpr hk')
          exact absurd hlt (not_lt.mpr hle)
        · exact hfenced
    · exact Or.inr (hfence h hseat hfenced)

/-! ## The law of pass 2 -/

/-- The first element with a property is determined. -/
theorem first_unique {α : Type} {p : α → Prop} {l₁ l₂ k₁ k₂ : List α} {x y : α}
    (heq : l₁ ++ x :: l₂ = k₁ ++ y :: k₂) (hx : p x) (hy : p y)
    (hl : ∀ e ∈ l₁, ¬ p e) (hk : ∀ e ∈ k₁, ¬ p e) : x = y := by
  induction l₁ generalizing k₁ with
  | nil =>
      cases k₁ with
      | nil => exact (List.cons.inj heq).1
      | cons z k₁ =>
          obtain ⟨rfl, -⟩ := List.cons.inj heq
          exact absurd hx (hk x List.mem_cons_self)
  | cons z l₁ ih =>
      cases k₁ with
      | nil =>
          obtain ⟨rfl, -⟩ := List.cons.inj heq
          exact absurd hy (hl z List.mem_cons_self)
      | cons w k₁ =>
          obtain ⟨-, htail⟩ := List.cons.inj heq
          exact ih htail (fun e he => hl e (List.mem_cons_of_mem _ he))
            (fun e he => hk e (List.mem_cons_of_mem _ he))

section Materialized

variable {genesis : Genesis}

/-- The roster after every override but the cascade. -/
def standingRoster (genesis : Genesis) (ancestors : Ancestors) (auth : Authorized) : Roster :=
  overridden ancestors auth (materials genesis.foundingActors auth).roster

/-- Whom the overrides before the cascade evict: by remove-wins, or because no
op that counts seats them. -/
def Evicted (ancestors : Ancestors) (auth : Authorized) (a : ActorId) : Prop :=
  RemovedUnseen ancestors auth a ∨ (∃ h, SeatsAt auth h a) ∧ ¬ Seated ancestors auth a

theorem mem_evicted (hfun : Functional auth) {a : ActorId} :
    (a ∈ removeWinsEvicted ancestors auth ∨ a ∈ raceEvicted ancestors auth ∨
      a ∈ (owedFences ancestors auth).map RekeyFence.evicted) ↔ Evicted ancestors auth a := by
  rw [mem_removeWinsEvicted, ousted_iff hfun, Evicted]

theorem members_standingRoster (hfun : Functional auth) {a : ActorId} {g : Finset Standing} :
    (standingRoster genesis ancestors auth).members[a]? = some g ↔
      ¬ Evicted ancestors auth a ∧
        (materials genesis.foundingActors auth).roster.members[a]? = some g := by
  rw [standingRoster, overridden, Roster.members_evictAll, Roster.members_evictAll,
    Roster.members_evictAll, ← mem_evicted hfun]
  by_cases hfence : a ∈ (owedFences ancestors auth).map RekeyFence.evicted
  · simp [hfence]
  · by_cases hrace : a ∈ raceEvicted ancestors auth
    · simp [hrace]
    · by_cases hremove : a ∈ removeWinsEvicted ancestors auth
      · simp [hremove]
      · rw [if_neg hfence, if_neg hrace, if_neg hremove]
        simp only [hfence, hrace, hremove, or_self, not_false_eq_true, true_and]

theorem agents_standingRoster (hfun : Functional auth) {a s : ActorId} :
    (standingRoster genesis ancestors auth).agents[a]? = some s ↔
      ¬ Evicted ancestors auth a ∧
        (materials genesis.foundingActors auth).roster.agents[a]? = some s := by
  rw [standingRoster, overridden, Roster.agents_evictAll, Roster.agents_evictAll,
    Roster.agents_evictAll, ← mem_evicted hfun]
  by_cases hfence : a ∈ (owedFences ancestors auth).map RekeyFence.evicted
  · simp [hfence]
  · by_cases hrace : a ∈ raceEvicted ancestors auth
    · simp [hrace]
    · by_cases hremove : a ∈ removeWinsEvicted ancestors auth
      · simp [hremove]
      · rw [if_neg hfence, if_neg hrace, if_neg hremove]
        simp only [hfence, hrace, hremove, or_self, not_false_eq_true, true_and]

theorem AclAction.seatGrants_eq_none {action : AclAction} {a : ActorId}
    (hactor : action.actor = some a) : action.seatGrants = none ↔ action.seats ≠ some a := by
  cases action <;> simp_all [AclAction.seatGrants, AclAction.seats, AclAction.actor]

/-- **Before the cascade the members are the actors who stand.** -/
theorem mem_standingRoster (hfun : Functional auth) {a : ActorId} :
    (∃ g, (standingRoster genesis ancestors auth).members[a]? = some g) ↔
      Stands genesis.founders ancestors auth a := by
  simp only [members_standingRoster hfun, members_materials, Stands, Evicted, not_or]
  cases hlast : lastOn auth a with
  | none =>
      have hseats : ¬ ∃ h, SeatsAt auth h a := by
        rintro ⟨h, op, hmem, hseat⟩
        exact lastOn_eq_none.mp hlast (h, op) hmem (AclAction.actor_of_seats hseat)
      simp [hseats, Genesis.founders]
  | some op =>
      obtain ⟨hsub, l₁, h, l₂, hsplit, -⟩ := lastOn_eq_some hlast
      have hmem : (h, op) ∈ auth := by rw [hsplit]; simp
      have hgrants := AclAction.seatGrants_eq_none (a := a) hsub
      by_cases hseat : op.action.seats = some a
      · have hsome : ∃ g, op.action.seatGrants = some g :=
          Option.ne_none_iff_exists'.mp fun hnone => hgrants.mp hnone hseat
        have hex : ∃ h, SeatsAt auth h a := ⟨h, op, hmem, hseat⟩
        simp [hseat, hex, hsome]
      · simp [hgrants.mpr hseat, hseat]

theorem sponsoredBy_iff {a s : ActorId} :
    SponsoredBy auth a s ↔ (lastOn auth a).bind AclOp.sponsor = some s := by
  rw [SponsoredBy, Option.bind_eq_some_iff]
  constructor
  · rintro ⟨op, grants, hlast, haction, rfl⟩
    exact ⟨op, hlast, by rw [AclOp.sponsor, haction]⟩
  · rintro ⟨op, hlast, hspons⟩
    have hsub := (lastOn_eq_some hlast).1
    unfold AclOp.sponsor at hspons
    split at hspons
    next actor grants haction =>
      obtain rfl := Option.some.inj hspons
      rw [AclOp.subject, haction, AclAction.actor, Option.some.injEq] at hsub
      exact ⟨op, grants, hlast, by rw [haction, hsub], rfl⟩
    next => cases hspons

theorem SponsoredBy.unique {a s s' : ActorId} (hs : SponsoredBy auth a s)
    (hs' : SponsoredBy auth a s') : s = s' :=
  Option.some.inj ((sponsoredBy_iff.mp hs).symm.trans (sponsoredBy_iff.mp hs'))

/-- Before the cascade the agents are the sponsored actors who stand. -/
theorem agents_standingRoster_iff (hfun : Functional auth) {a s : ActorId} :
    (standingRoster genesis ancestors auth).agents[a]? = some s ↔
      Stands genesis.founders ancestors auth a ∧ SponsoredBy auth a s := by
  rw [agents_standingRoster hfun, agents_materials, ← sponsoredBy_iff]
  constructor
  · rintro ⟨hkeep, hspons⟩
    refine ⟨⟨fun hunseen => hkeep (Or.inl hunseen), ?_⟩, hspons⟩
    obtain ⟨op, grants, hlast, haction, -⟩ := id hspons
    rw [hlast]
    exact ⟨by rw [haction, AclAction.seats], hspons.seated hfun⟩
  · rintro ⟨⟨hunseen, -⟩, hspons⟩
    refine ⟨?_, hspons⟩
    rintro (h | ⟨-, hnot⟩)
    · exact hunseen h
    · exact hnot (hspons.seated hfun)

/-- The cascade drops exactly the agents whose sponsor does not stand. -/
theorem mem_orphaned (hfun : Functional auth) {a : ActorId} :
    a ∈ orphaned (standingRoster genesis ancestors auth) ↔
      Stands genesis.founders ancestors auth a ∧
        ∃ s, SponsoredBy auth a s ∧ ¬ Stands genesis.founders ancestors auth s := by
  simp only [orphaned, List.mem_map, List.mem_filter, Prod.exists, BTreeMap.mem_toList_iff,
    agents_standingRoster_iff hfun, Bool.not_eq_true', ← Bool.not_eq_true,
    BTreeMap.contains_iff, mem_standingRoster hfun]
  constructor
  · rintro ⟨b, s, ⟨⟨hstands, hspons⟩, hnot⟩, rfl⟩
    exact ⟨hstands, s, hspons, hnot⟩
  · rintro ⟨hstands, s, hspons, hnot⟩
    exact ⟨a, s, ⟨⟨hstands, hspons⟩, hnot⟩, rfl⟩

variable {decoded : Text → Option AclOp} {authorized : List Text}

/-- **The members.**  An actor is a member when they stand and so does their
sponsor, if they have one. -/
theorem isMember_materialize {a : ActorId} :
    let auth := resolve decoded authorized
    (materializeAuthorized genesis decoded ancestors authorized).isMember a = true ↔
      Stands genesis.founders ancestors auth a ∧
        ∀ s, SponsoredBy auth a s → Stands genesis.founders ancestors auth s := by
  intro auth
  have hfun := functional_resolve decoded authorized
  have hget : (materializeAuthorized genesis decoded ancestors authorized).members[a]? =
      if a ∈ orphaned (standingRoster genesis ancestors auth) then none
      else (standingRoster genesis ancestors auth).members[a]? :=
    Roster.members_evictAll _ _ _
  rw [AclState.isMember, BTreeMap.contains_iff, hget]
  by_cases horphan : a ∈ orphaned (standingRoster genesis ancestors auth)
  · obtain ⟨-, s, hspons, hnot⟩ := (mem_orphaned hfun).mp horphan
    simp only [horphan, if_true, reduceCtorEq, exists_false, false_iff]
    exact fun h => hnot (h.2 s hspons)
  · rw [if_neg horphan, mem_standingRoster hfun]
    refine ⟨fun hstands => ⟨hstands, fun s hspons => ?_⟩, And.left⟩
    by_contra hnot
    exact horphan ((mem_orphaned hfun).mpr ⟨hstands, s, hspons, hnot⟩)

/-- **The agents.**  The members with a sponsor, each with that sponsor. -/
theorem agents_materialize {a s : ActorId} :
    let auth := resolve decoded authorized
    (materializeAuthorized genesis decoded ancestors authorized).agents[a]? = some s ↔
      Stands genesis.founders ancestors auth a ∧ SponsoredBy auth a s ∧
        Stands genesis.founders ancestors auth s := by
  intro auth
  have hfun := functional_resolve decoded authorized
  have hget : (materializeAuthorized genesis decoded ancestors authorized).agents[a]? =
      if a ∈ orphaned (standingRoster genesis ancestors auth) then none
      else (standingRoster genesis ancestors auth).agents[a]? :=
    Roster.agents_evictAll _ _ _
  rw [hget]
  by_cases horphan : a ∈ orphaned (standingRoster genesis ancestors auth)
  · obtain ⟨-, s', hspons, hnot⟩ := (mem_orphaned hfun).mp horphan
    simp only [horphan, if_true, reduceCtorEq, false_iff]
    rintro ⟨-, hspons', hstands⟩
    exact hnot (hspons.unique hspons' ▸ hstands)
  · rw [if_neg horphan, agents_standingRoster_iff hfun]
    refine ⟨fun ⟨hstands, hspons⟩ => ⟨hstands, hspons, ?_⟩, fun ⟨ha, hspons, _⟩ => ⟨ha, hspons⟩⟩
    by_contra hnot
    exact horphan ((mem_orphaned hfun).mpr ⟨hstands, s, hspons, hnot⟩)

/-- A member someone named carries the grants of the last op naming them. -/
theorem members_materialize {a : ActorId} {g : Finset Standing} {op : AclOp}
    (hlast : lastOn (resolve decoded authorized) a = some op)
    (hget : (materializeAuthorized genesis decoded ancestors authorized).members[a]? = some g) :
    op.action.seatGrants = some g := by
  have hroster : (materializeAuthorized genesis decoded ancestors authorized).members[a]? =
      if a ∈ orphaned (standingRoster genesis ancestors (resolve decoded authorized)) then none
      else (standingRoster genesis ancestors (resolve decoded authorized)).members[a]? :=
    Roster.members_evictAll _ _ _
  rw [hroster] at hget
  split at hget
  · cases hget
  · rw [members_standingRoster (functional_resolve decoded authorized), members_materials,
      hlast] at hget
    exact hget.2

/-- **The rekey fences.**  An owed fence stays until an epoch in force descends
it. -/
theorem mem_rekeyFences {f : RekeyFence} :
    let auth := resolve decoded authorized
    f ∈ (materializeAuthorized genesis decoded ancestors authorized).rekeyFences ↔
      f ∈ owedFences ancestors auth ∧
        discharged ancestors (materials genesis.foundingActors auth).epochs f = false := by
  simp [materializeAuthorized]

/-- The policy administrators: founders and effective meta-grant holders who are
members. -/
theorem mem_policyAdmins {a : ActorId} :
    let st := materializeAuthorized genesis decoded ancestors authorized
    a ∈ st.policyAdmins ↔
      st.isMember a = true ∧ (a ∈ genesis.founders ∨ st.policy.holdsMeta a = true) := by
  intro st
  have hadmins : st.policyAdmins = policyAdminsOf genesis.foundingActors st.members st.policy := rfl
  rw [hadmins, policyAdminsOf, Finset.mem_union, List.mem_toFinset, List.mem_toFinset,
    List.mem_filter, Genesis.founders, List.mem_toFinset, AclState.isMember]
  simp only [List.mem_map, List.mem_filter, PolicyPass.holdsMeta, List.any_eq_true,
    Bool.and_eq_true, decide_eq_true_eq]
  constructor
  · rintro (⟨hf, hm⟩ | ⟨entry, ⟨hmem, ⟨hrev, hmeta⟩, hm⟩, rfl⟩)
    · exact ⟨hm, Or.inl hf⟩
    · exact ⟨hm, Or.inr ⟨entry, hmem, ⟨hrev, rfl⟩, hmeta⟩⟩
  · rintro ⟨hm, hf | ⟨entry, hmem, ⟨hrev, rfl⟩, hmeta⟩⟩
    · exact Or.inl ⟨hf, hm⟩
    · exact Or.inr ⟨entry, ⟨hmem, ⟨hrev, hmeta⟩, hm⟩, rfl⟩

end Materialized

/-! ## Epochs in force -/

/-- The op `m` is the first authorized mint of its epoch id. -/
def InForce (auth : Authorized) (m : Text) : Prop :=
  ∃ id l₁ op l₂, auth = l₁ ++ (m, op) :: l₂ ∧ op.action.mints = some id ∧
    ∀ e ∈ l₁, e.2.action.mints ≠ some id

/-- **A fence is discharged by an epoch in force that descends it.** -/
theorem discharged_iff {founders : List ActorId} {f : RekeyFence} :
    discharged ancestors (materials founders auth).epochs f = true ↔
      ∃ m, InForce auth m ∧ ancestors.has m f.fence = true := by
  simp only [discharged, List.any_eq_true, BTreeMap.mem_valuesOf]
  constructor
  · rintro ⟨e, ⟨id, hget⟩, hdesc⟩
    have hepoch := get_epochs_materials founders auth id
    rw [hget] at hepoch
    obtain ⟨l₁, op, l₂, hsplit, hmint, hfirst⟩ := hepoch
    exact ⟨e.mintHash, ⟨id, l₁, op, l₂, hsplit, hmint, hfirst⟩, hdesc⟩
  · rintro ⟨m, ⟨id, l₁, op, l₂, hsplit, hmint, hfirst⟩, hdesc⟩
    have hepoch := get_epochs_materials founders auth id
    cases hget : (materials founders auth).epochs[id]? with
    | none =>
        rw [hget] at hepoch
        exact absurd hmint (hepoch (m, op) (by rw [hsplit]; simp))
    | some e =>
        rw [hget] at hepoch
        obtain ⟨k₁, op', k₂, hsplit', hmint', hfirst'⟩ := hepoch
        -- Both splits are at the first mint of `id`, so they are the same.
        have hsame := first_unique (p := fun e => e.2.action.mints = some id)
          (hsplit.symm.trans hsplit') hmint hmint' hfirst hfirst'
        have hm : m = e.mintHash := congrArg Prod.fst hsame
        exact ⟨e, ⟨id, hget⟩, hm ▸ hdesc⟩

end Ops

end Acl

end Lait
