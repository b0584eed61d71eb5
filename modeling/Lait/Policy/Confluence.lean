import Lait.Policy.Canonical

/-!
# One rule, two spellings

A node that asks for all of its members, or for any of them, can be written as a
threshold over the same list.  The two are reduced through different gates.  A gate that
asks for all inlines the members of a child that also does; a threshold written out
inlines nothing.  So a rule with a child of its own kind has two canonical forms, one
for each spelling, and two ids, unless both spellings are refused.

Which members are of the gate's kind can be read off the rule (`asks`), through nodes
over a single member, which reduce to that member (`same_of_normalize`).  Inlining
such a child adds members, so the two forms differ in the length of their outermost gate
(`length_lt_flatten`), and that a member repeats in the one spelling makes it repeat in
the other (`nodup_of_flatten`).  The order the members are written in never matters
(`accepts_perm`).
-/

namespace Lait.Policy

/-- Two attempts end the same way. -/
def Agree : Except Invalid CanonicalPolicy → Except Invalid CanonicalPolicy → Prop
  | .ok canonical, .ok canonical' => canonical = canonical'
  | .error _, .error _ => True
  | _, _ => False

/-- A list of members reduces to one form however the gate over it is spelled, and in
whatever order it is written. -/
structure Confluent [Postcard PolicyTree] (members : List OwnershipPolicy) : Prop where
  all : Agree (OwnershipPolicy.allOf members).canonicalize
    (OwnershipPolicy.threshold members.length members).canonicalize
  any : Agree (OwnershipPolicy.anyOf members).canonicalize
    (OwnershipPolicy.threshold 1 members).canonicalize
  order : ∀ (gate : Gate) (members' : List OwnershipPolicy), members'.Perm members →
    Agree (gate.policy members').canonicalize (gate.policy members).canonicalize

/-- Whether a rule reduces to a gate of the kind, as it is written. -/
def OwnershipPolicy.asks (gate : Gate) : OwnershipPolicy → Bool
  | .key _ => false
  | .allOf [member] | .anyOf [member] | .threshold _ [member] => member.asks gate
  | .allOf _ => gate = .all
  | .anyOf _ => gate = .any
  | .threshold k members =>
      match gate with
      | .all => k = members.length
      | .any => k = 1
      | .fixed _ => false

/-- Both spellings of a gate over the members are refused. -/
def Refused [Postcard PolicyTree] (gate : Gate) (members : List OwnershipPolicy) : Prop :=
  ∀ reduced, members.mapM (fun member => normalize member 1) = .ok reduced →
    ¬ reduced.Nodup ∨
    MAX_LEAVES < (ThresholdTree.leavesOf reduced).length ∨
    MAX_ENCODED_BYTES < (Postcard.toStdvec (ThresholdTree.threshold
      (gate.effective reduced.length) (inOrder reduced))).length ∧
      (¬ (gate.flatten reduced).Nodup ∨
        MAX_ENCODED_BYTES < (Postcard.toStdvec (ThresholdTree.threshold
          (gate.effective (gate.flatten reduced).length)
          (inOrder (gate.flatten reduced)))).length)

/-- When the two spellings of a gate over the members come to the same. -/
def Settled [Postcard PolicyTree] (gate : Gate) (members : List OwnershipPolicy) : Prop :=
  members.length = 1 ∨ (∀ member ∈ members, member.asks gate = false) ∨ Refused gate members

/-! ## What a list of members inlines to -/

/-- Whether a child is a gate of the kind. -/
def Gate.same : Gate → PolicyTree → Bool
  | all => isAllGate
  | any => isAnyGate
  | fixed _ => fun _ => false

theorem Gate.inlined_of_not_same {gate : Gate} {member : PolicyTree}
    (h : gate.same member = false) : gate.inlined member = [member] := by
  cases member with
  | leaf a => cases gate <;> rfl
  | threshold k members =>
      cases gate with
      | all => exact if_neg (Bool.eq_false_iff.mp h)
      | any => exact if_neg (Bool.eq_false_iff.mp h)
      | fixed k' => rfl

/-- A gate of the kind contributes its members, and the gate over them is itself. -/
theorem Gate.inlined_of_same {gate : Gate} {member : PolicyTree} (h : gate.same member = true) :
    ∃ members, member = .threshold (gate.effective members.length) members ∧
      gate.inlined member = members := by
  cases member with
  | leaf a => cases gate <;> cases h
  | threshold k members =>
      cases gate with
      | all =>
          have hk : k = members.length := of_decide_eq_true h
          exact ⟨members, by rw [hk]; rfl, if_pos h⟩
      | any =>
          have hk : k = 1 := of_decide_eq_true h
          exact ⟨members, by rw [hk]; rfl, if_pos h⟩
      | fixed k' => cases h

theorem Gate.length_inlined_pos (gate : Gate) {member : PolicyTree} (h : member.Gates Loose) :
    0 < (gate.inlined member).length := by
  cases hsame : gate.same member with
  | false => rw [inlined_of_not_same hsame, List.length_singleton]; exact Nat.one_pos
  | true =>
      obtain ⟨members, rfl, hinner⟩ := inlined_of_same hsame
      rw [hinner]
      exact lt_of_lt_of_le Nat.two_pos h.1.1

theorem Gate.flatten_eq_self {gate : Gate} {members : List PolicyTree}
    (h : ∀ member ∈ members, gate.same member = false) : gate.flatten members = members := by
  rw [gate.flatten_eq_flatMap, List.flatMap_congr fun member hmember =>
    inlined_of_not_same (h member hmember)]
  exact List.flatMap_singleton' members

theorem Gate.length_le_flatten (gate : Gate) {members : List PolicyTree}
    (h : ∀ member ∈ members, member.Gates Loose) :
    members.length ≤ (gate.flatten members).length := by
  rw [gate.flatten_eq_flatMap]
  induction members with
  | nil => exact le_rfl
  | cons member members ih =>
      rw [List.forall_mem_cons] at h
      have hone := gate.length_inlined_pos h.1
      have hrest := ih h.2
      rw [List.flatMap_cons, List.length_append, List.length_cons]
      omega

/-- **Inlining a gate adds members.** -/
theorem Gate.length_lt_flatten {gate : Gate} {members : List PolicyTree}
    (h : ∀ member ∈ members, member.Gates Loose) {member : PolicyTree} (hmember : member ∈ members)
    (hsame : gate.same member = true) : members.length < (gate.flatten members).length := by
  obtain ⟨before, after, rfl⟩ := List.append_of_mem hmember
  obtain ⟨inner, rfl, hinner⟩ := inlined_of_same hsame
  have htwo : 2 ≤ inner.length := (h _ hmember).1.1
  have hbefore := gate.length_le_flatten fun m hm => h m (List.mem_append_left _ hm)
  have hafter := gate.length_le_flatten fun m hm =>
    h m (List.mem_append_right _ (List.mem_cons_of_mem _ hm))
  rw [gate.flatten_eq_flatMap] at hbefore hafter ⊢
  rw [List.flatMap_append, List.flatMap_cons, hinner]
  simp only [List.length_append, List.length_cons]
  omega

/-- A member that repeats makes what it contributes repeat. -/
theorem Gate.nodup_of_flatten {gate : Gate} {members : List PolicyTree}
    (h : ∀ member ∈ members, member.Gates Loose) (hnodup : (gate.flatten members).Nodup) :
    members.Nodup := by
  rw [gate.flatten_eq_flatMap, List.nodup_flatMap] at hnodup
  refine hnodup.2.imp_of_mem fun {a b} ha _ hdisjoint => ?_
  rintro rfl
  obtain ⟨t, ht⟩ := List.exists_mem_of_length_pos (gate.length_inlined_pos (h a ha))
  exact hdisjoint ht ht

theorem gateOver_of_two {k : ℕ} {l : List PolicyTree} (h : 2 ≤ l.length) :
    gateOver k l = .threshold k l := by
  unfold gateOver
  split
  next member => rw [List.length_singleton] at h; exact absurd h (by decide)
  next => rfl

/-- A gate over several members is of the kind it is written as. -/
theorem same_effective {outer gate : Gate} {members : List OwnershipPolicy} {l : List PolicyTree}
    (htwo : 2 ≤ members.length) (hl : 2 ≤ l.length)
    (hfixed : ∀ k, outer = .fixed k → l.length = members.length) :
    gate.same (.threshold (outer.effective l.length) l) = (outer.policy members).asks gate := by
  rcases members with _ | ⟨first, _ | ⟨second, members⟩⟩
  · exact absurd htwo (by decide)
  · rw [List.length_singleton] at htwo
    exact absurd htwo (by decide)
  · have hne : ¬ l.length = 1 := by omega
    have hne' : ¬ 1 = l.length := by omega
    cases outer with
    | all => cases gate <;>
        simp [Gate.same, isAllGate, isAnyGate, Gate.effective, Gate.policy,
          OwnershipPolicy.asks, hne]
    | any => cases gate <;>
        simp [Gate.same, isAllGate, isAnyGate, Gate.effective, Gate.policy,
          OwnershipPolicy.asks, hne']
    | fixed k =>
        cases gate with
        | all => simp [Gate.same, isAllGate, Gate.effective, Gate.policy, OwnershipPolicy.asks,
            hfixed k rfl]
        | any => exact Bool.decide_congr (Iff.refl (k = 1))
        | fixed k' => rfl

/-! ## What a gate closes to -/

theorem exists_mapM_perm {α β ε : Type} {f : α → Except ε β} {l l' : List α} (h : l.Perm l')
    {bs : List β} (hl : l.mapM f = .ok bs) : ∃ bs', l'.mapM f = .ok bs' ∧ bs.Perm bs' := by
  have hcomp := List.perm_comp_forall₂ h.symm (mapM_eq_ok_iff.mp hl)
  obtain ⟨bs', hl', hperm⟩ := hcomp
  exact ⟨bs', mapM_eq_ok_iff.mpr hl', hperm.symm⟩

section Closing

variable [Postcard PolicyTree] (hwire : Postcard.RoundTrips PolicyTree)

include hwire

/-- A gate over a single member closes to that member. -/
theorem closeGate_singleton {gate : Gate} {member t : PolicyTree} (hgates : member.Gates Loose)
    (hascending : Ascending member) (hleaves : member.leaves.length < 65536) :
    closeGate gate [member] = .ok t ↔ gate.effective 1 ≤ 1 ∧ t = member := by
  rw [closeGate_eq_ok_iff hwire]
  have hflat : gate.flatten [member] = gate.inlined member := by
    rw [gate.flatten_eq_flatMap, List.flatMap_singleton]
  rw [hflat]
  cases hsame : gate.same member with
  | false =>
      rw [Gate.inlined_of_not_same hsame]
      simp [inOrder, gateOver]
  | true =>
      obtain ⟨inner, rfl, hinner⟩ := Gate.inlined_of_same hsame
      have hlength : inner.length ≤ (ThresholdTree.leavesOf inner).length :=
        ThresholdTree.length_le_leavesOf
          (hgates.2.mono fun _ _ hloose => lt_of_lt_of_le Nat.two_pos hloose.1)
      have hsmall : inner.length < 65536 := hlength.trans_lt hleaves
      have hnodup : inner.Nodup := hascending.1.imp fun hlt heq => hlt.ne (by rw [heq])
      have hone : gate.effective 1 ≤ 1 := by cases gate <;> first | exact le_rfl | cases hsame
      rw [hinner, Nat.mod_eq_of_lt hsmall, inOrder_eq_self hascending.1,
        gateOver_of_two hgates.1.1]
      exact ⟨fun h => ⟨hone, h.2.2⟩, fun h => ⟨hnodup, hgates.1.2.1, h.2⟩⟩

/-- A gate over several closes to a gate over what they inline to. -/
theorem closeGate_many {gate : Gate} {members : List PolicyTree} {t : PolicyTree}
    (hgates : ∀ member ∈ members, member.Gates Loose) (htwo : 2 ≤ members.length)
    (hsmall : (gate.flatten members).length < 65536) :
    closeGate gate members = .ok t ↔ (gate.flatten members).Nodup ∧
      gate.effective (gate.flatten members).length ≤ (gate.flatten members).length ∧
      t = .threshold (gate.effective (gate.flatten members).length)
        (inOrder (gate.flatten members)) := by
  have hlength := (perm_inOrder (gate.flatten members)).length_eq
  have hlonger := gate.length_le_flatten hgates
  rw [closeGate_eq_ok_iff hwire, Nat.mod_eq_of_lt hsmall, gateOver_of_two (by omega)]

/-- **Which rules reduce to a gate of the kind.** -/
theorem same_of_normalize {gate : Gate} {policy : OwnershipPolicy} {depth : ℕ} {t : PolicyTree}
    (h : normalize policy depth = .ok t) (hleaves : t.leaves.length < 65536) :
    gate.same t = policy.asks gate :=
  normalize_induction
    (motive := fun policy _ t => t.leaves.length < 65536 → gate.same t = policy.asks gate)
    (fun _ _ _ _ => by
      unfold OwnershipPolicy.asks
      cases gate <;> rfl)
    (fun outer members depth reduced t _ hgate hne hreduced hclose hleaves => by
      have hgates : ∀ r ∈ reduced, r.Gates Loose := fun r hr => by
        obtain ⟨member, -, hmember, -⟩ := exists_of_mem_right hreduced hr
        exact gates_of_normalize member _ hmember
      have hsum := length_leaves_closeGate hwire hclose
      cases hreduced with
      | nil => exact absurd rfl hne
      | @cons member r _ _ hfirst hrest =>
          cases hrest with
          | nil =>
              -- A lone member is what the gate reduces to.
              obtain ⟨hmember, hsame⟩ := hfirst
              have hle := leaves_le_leavesOf (List.mem_singleton_self r)
              rw [← hsum] at hle
              obtain ⟨-, rfl⟩ := (closeGate_singleton hwire (hgates _ List.mem_cons_self)
                (ascending_of_normalize hwire hmember) (hle.trans_lt hleaves)).mp hclose
              rw [hsame hleaves]
              cases outer <;> rw [Gate.policy, OwnershipPolicy.asks]
          | cons hsecond hrest =>
              generalize hreduced : _ :: _ :: _ = reduced at hgates hclose hsum
              have htwo : 2 ≤ reduced.length := by simp [← hreduced]
              have hflat : (outer.flatten reduced).length ≤ _ := length_flatten_le_leavesOf hgates
              have hlonger := outer.length_le_flatten hgates
              obtain ⟨-, -, rfl⟩ := (closeGate_many hwire hgates htwo (by omega)).mp hclose
              have hlength := (perm_inOrder (outer.flatten reduced)).length_eq
              rw [← hlength]
              refine same_effective (by simp) (by omega) fun k hk => ?_
              rw [hlength, hk, ← hreduced]
              simp [Gate.flatten, hrest.length_eq]) policy h hleaves

/-! ## Permuted members -/

theorem closeGate_congr {gate : Gate} {members members' : List PolicyTree}
    (h : members.Perm members') {t : PolicyTree} (hclose : closeGate gate members = .ok t) :
    closeGate gate members' = .ok t := by
  have hflat : (gate.flatten members).Perm (gate.flatten members') := by
    rw [gate.flatten_eq_flatMap, gate.flatten_eq_flatMap]
    exact h.flatMap_right _
  rw [closeGate_eq_ok_iff hwire] at hclose ⊢
  rwa [← hflat.nodup_iff, ← hflat.length_eq, ← inOrder_congr hwire hflat]

/-- The order the members are written in does not matter. -/
theorem normalize_perm {gate : Gate} {members members' : List OwnershipPolicy}
    (h : members.Perm members') {depth : ℕ} {t : PolicyTree}
    (hnormalize : normalize (gate.policy members) depth = .ok t) :
    normalize (gate.policy members') depth = .ok t := by
  rw [normalize_policy_eq_ok] at hnormalize ⊢
  obtain ⟨hdepth, hne, hgate, reduced, hreduced, hclose⟩ := hnormalize
  obtain ⟨reduced', hreduced', hperm⟩ := exists_mapM_perm h hreduced
  exact ⟨hdepth, fun hnil => hne (List.perm_nil.mp (hnil ▸ h)), hgate, reduced', hreduced',
    closeGate_congr hwire hperm hclose⟩

end Closing

/-! ## Two spellings -/

section Spellings

variable [Postcard PolicyTree]

/-- What a policy is reduced to when it is accepted. -/
def Accepts (policy : OwnershipPolicy) (t : PolicyTree) : Prop :=
  normalize policy 0 = .ok t ∧ t.leaves.length ≤ MAX_LEAVES ∧
    (Postcard.toStdvec t).length ≤ MAX_ENCODED_BYTES

theorem agree_iff {policy policy' : OwnershipPolicy} :
    Agree policy.canonicalize policy'.canonicalize ↔
      ∀ t, Accepts policy t ↔ Accepts policy' t := by
  have haccepts : ∀ policy t, Accepts policy t ↔
      ∃ canonical : CanonicalPolicy, policy.canonicalize = .ok canonical ∧ canonical.tree = t := by
    intro policy t
    constructor
    · rintro ⟨hnormalize, hleaves, hsize⟩
      refine ⟨⟨t, gates_normal (gates_of_normalize policy 0 hnormalize) hleaves⟩, ?_, rfl⟩
      exact OwnershipPolicy.canonicalize_eq_ok_iff.mpr ⟨hnormalize, hleaves, hsize⟩
    · rintro ⟨canonical, hok, rfl⟩
      exact OwnershipPolicy.canonicalize_eq_ok_iff.mp hok
  simp only [haccepts]
  cases hleft : policy.canonicalize with
  | error e =>
      cases hright : policy'.canonicalize with
      | error e' => simp [Agree]
      | ok canonical' => simp [Agree]
  | ok canonical =>
      cases hright : policy'.canonicalize with
      | error e' => simp [Agree]
      | ok canonical' =>
          simp only [Agree, Except.ok.injEq, exists_eq_left']
          constructor
          · rintro rfl t
            exact Iff.rfl
          · intro h
            have htree := (h canonical.tree).mp rfl
            cases canonical
            cases canonical'
            cases htree
            rfl

theorem accepts_policy_iff {gate : Gate} {members : List OwnershipPolicy} {t : PolicyTree}
    (hwire : Postcard.RoundTrips PolicyTree) {reduced : List PolicyTree} (hne : members ≠ [])
    (hreduced : members.mapM (fun member => normalize member 1) = .ok reduced)
    (hgate : gate ≠ .fixed 0) :
    Accepts (gate.policy members) t ↔ closeGate gate reduced = .ok t ∧
      (ThresholdTree.leavesOf reduced).length ≤ MAX_LEAVES ∧
      (Postcard.toStdvec t).length ≤ MAX_ENCODED_BYTES := by
  unfold Accepts
  rw [normalize_policy_eq_ok]
  constructor
  · rintro ⟨⟨-, -, -, reduced', hreduced', hclose⟩, hleaves, hsize⟩
    cases hreduced.symm.trans hreduced'
    exact ⟨hclose, length_leaves_closeGate hwire hclose ▸ hleaves, hsize⟩
  · rintro ⟨hclose, hleaves, hsize⟩
    exact ⟨⟨Nat.zero_le _, hne, hgate, reduced, hreduced, hclose⟩,
      (length_leaves_closeGate hwire hclose).trans_le hleaves, hsize⟩

omit [Postcard PolicyTree] in
/-- Two single outcomes that differ agree only when neither is reached. -/
theorem agree_differing_iff {α : Type} {a b : α} {p r : Prop} {q : α → Prop} (hne : a ≠ b) :
    (∀ t, p ∧ t = a ∧ q t ↔ r ∧ t = b ∧ q t) ↔ ¬ (p ∧ q a) ∧ ¬ (r ∧ q b) := by
  constructor
  · intro h
    refine ⟨fun hp => ?_, fun hr => ?_⟩
    · exact hne ((h a).mp ⟨hp.1, rfl, hp.2⟩).2.1
    · exact hne ((h b).mpr ⟨hr.1, rfl, hr.2⟩).2.1.symm
  · rintro ⟨hp, hr⟩ t
    constructor
    · rintro ⟨h, rfl, hq⟩
      exact absurd ⟨h, hq⟩ hp
    · rintro ⟨h, rfl, hq⟩
      exact absurd ⟨h, hq⟩ hr

/-! What the gate and the threshold with its count close to, over members that have been
reduced. -/

section Reduced

variable (hwire : Postcard.RoundTrips PolicyTree) {gate : Gate}
  (hkind : gate = .all ∨ gate = .any) {reduced : List PolicyTree}
  (hgates : ∀ r ∈ reduced, r.Gates Loose)
  (hleaves : (ThresholdTree.leavesOf reduced).length < 65536)

include hkind in
omit [Postcard PolicyTree] in
theorem effective_le {n : ℕ} (h : 0 < n) : 1 ≤ gate.effective n ∧ gate.effective n ≤ n := by
  rcases hkind with rfl | rfl
  · exact ⟨h, le_rfl⟩
  · exact ⟨le_rfl, h⟩

include hwire hgates hleaves

theorem closeGate_alike_single (hone : reduced.length = 1)
    (hascending : ∀ r ∈ reduced, Ascending r) (t : PolicyTree) :
    closeGate gate reduced = .ok t ↔
      closeGate (.fixed (gate.effective reduced.length)) reduced = .ok t := by
  obtain ⟨member, rfl⟩ := List.length_eq_one_iff.mp hone
  have hmember := List.mem_singleton_self member
  have hfew : member.leaves.length < 65536 := by
    simpa [ThresholdTree.leavesOf] using hleaves
  have hsingle : ∀ gate : Gate, closeGate gate [member] = .ok t ↔
      gate.effective 1 ≤ 1 ∧ t = member := fun gate =>
    closeGate_singleton hwire (hgates _ hmember) (hascending _ hmember) hfew
  rw [hsingle, hsingle]
  exact Iff.rfl

include hkind

theorem closeGate_many_fixed {t : PolicyTree} (htwo : 2 ≤ reduced.length) :
    closeGate (.fixed (gate.effective reduced.length)) reduced = .ok t ↔ reduced.Nodup ∧
      t = .threshold (gate.effective reduced.length) (inOrder reduced) := by
  have hlength : ((Gate.fixed (gate.effective reduced.length)).flatten reduced).length < 65536 :=
    (length_flatten_le_leavesOf hgates).trans_lt hleaves
  rw [closeGate_many hwire hgates htwo hlength]
  have heffective := (effective_le hkind (Nat.zero_lt_of_lt htwo)).2
  exact ⟨fun h => ⟨h.1, h.2.2⟩, fun h => ⟨h.1, heffective, h.2⟩⟩

theorem closeGate_many_kind {t : PolicyTree} (htwo : 2 ≤ reduced.length) :
    closeGate gate reduced = .ok t ↔ (gate.flatten reduced).Nodup ∧
      t = .threshold (gate.effective (gate.flatten reduced).length)
        (inOrder (gate.flatten reduced)) := by
  have hlonger := gate.length_le_flatten hgates
  have hflat : (gate.flatten reduced).length < 65536 :=
    (length_flatten_le_leavesOf hgates).trans_lt hleaves
  rw [closeGate_many hwire hgates htwo hflat]
  have heffective := (effective_le hkind (n := (gate.flatten reduced).length) (by omega)).2
  exact ⟨fun h => ⟨h.1, h.2.2⟩, fun h => ⟨h.1, heffective, h.2⟩⟩

/-- **A child of the gate's kind keeps the spellings apart unless both are refused.** -/
theorem closeGate_apart_iff (htwo : 2 ≤ reduced.length) {member : PolicyTree}
    (hmember : member ∈ reduced) (hsame : gate.same member = true) {fits : PolicyTree → Prop} :
    (∀ t, closeGate gate reduced = .ok t ∧ fits t ↔
      closeGate (.fixed (gate.effective reduced.length)) reduced = .ok t ∧ fits t) ↔
    ¬ reduced.Nodup ∨
      ¬ fits (.threshold (gate.effective reduced.length) (inOrder reduced)) ∧
      (¬ (gate.flatten reduced).Nodup ∨
        ¬ fits (.threshold (gate.effective (gate.flatten reduced).length)
          (inOrder (gate.flatten reduced)))) := by
  have hlonger := gate.length_lt_flatten hgates hmember hsame
  have hapart : (ThresholdTree.threshold (gate.effective (gate.flatten reduced).length)
        (inOrder (gate.flatten reduced)) : PolicyTree) ≠
      .threshold (gate.effective reduced.length) (inOrder reduced) := by
    intro heq
    have hlengths := congrArg List.length (ThresholdTree.threshold.inj heq).2
    rw [(perm_inOrder _).length_eq, (perm_inOrder _).length_eq] at hlengths
    omega
  simp only [closeGate_many_kind hwire hkind hgates hleaves htwo,
    closeGate_many_fixed hwire hkind hgates hleaves htwo, and_assoc]
  rw [agree_differing_iff hapart]
  have hnodup : (gate.flatten reduced).Nodup → reduced.Nodup := gate.nodup_of_flatten hgates
  tauto

end Reduced

/-- **When the two spellings of a gate come to the same.** -/
theorem agree_spellings_iff (hwire : Postcard.RoundTrips PolicyTree) {gate : Gate}
    (hkind : gate = .all ∨ gate = .any) {members : List OwnershipPolicy} (hne : members ≠ []) :
    Agree (gate.policy members).canonicalize
        (OwnershipPolicy.threshold (gate.effective members.length) members).canonicalize ↔
      Settled gate members := by
  have hpos : 1 ≤ members.length := List.length_pos_iff.mpr hne
  have hgate : gate ≠ .fixed 0 := by rintro rfl; rcases hkind with h | h <;> cases h
  have heffective : 1 ≤ gate.effective members.length ∧
      gate.effective members.length ≤ members.length := by
    rcases hkind with rfl | rfl
    · exact ⟨hpos, le_rfl⟩
    · exact ⟨le_rfl, hpos⟩
  have hfixed : Gate.fixed (gate.effective members.length) ≠ .fixed 0 := by
    intro h
    rw [Gate.fixed.injEq] at h
    omega
  rw [agree_iff, show OwnershipPolicy.threshold (gate.effective members.length) members =
    (Gate.fixed (gate.effective members.length)).policy members from rfl]
  cases hreduced : members.mapM fun member => normalize member 1 with
  | error e =>
      have hnone : ∀ (gate : Gate) t, ¬ Accepts (gate.policy members) t := by
        rintro gate t ⟨hnormalize, -⟩
        obtain ⟨-, -, -, reduced, hok, -⟩ := (normalize_policy_eq_ok gate).mp hnormalize
        rw [hreduced] at hok
        cases hok
      refine iff_of_true (fun t => iff_of_false (hnone _ t) (hnone _ t)) (.inr (.inr ?_))
      intro reduced hok
      rw [hreduced] at hok
      cases hok
  | ok reduced =>
      have hpairs := mapM_eq_ok_iff.mp hreduced
      have hsame := hpairs.length_eq
      have hgates : ∀ r ∈ reduced, r.Gates Loose := fun r hr => by
        obtain ⟨member, -, hmember⟩ := exists_of_mem_right hpairs hr
        exact gates_of_normalize member _ hmember
      have hrefused : Refused gate members ↔ _ :=
        ⟨fun h => h reduced hreduced, fun h other hother => by
          cases hreduced.symm.trans hother
          exact h⟩
      simp only [accepts_policy_iff hwire hne hreduced hgate,
        accepts_policy_iff hwire hne hreduced hfixed]
      by_cases hleaves : (ThresholdTree.leavesOf reduced).length ≤ MAX_LEAVES
      case neg =>
        refine iff_of_true (fun t => iff_of_false ?_ ?_) (.inr (.inr ?_))
        · exact fun h => hleaves h.2.1
        · exact fun h => hleaves h.2.1
        · exact hrefused.mpr (.inr (.inl (not_le.mp hleaves)))
      case pos =>
        have hfew : (ThresholdTree.leavesOf reduced).length < 65536 := by
          unfold MAX_LEAVES at hleaves
          omega
        rw [hsame]
        simp only [hleaves, true_and]
        by_cases hone : reduced.length = 1
        case pos =>
          have hascending : ∀ r ∈ reduced, Ascending r := fun r hr => by
            obtain ⟨member, -, hmember⟩ := exists_of_mem_right hpairs hr
            exact ascending_of_normalize hwire hmember
          refine iff_of_true (fun t => and_congr_left fun _ => ?_) (.inl (hsame.trans hone))
          exact closeGate_alike_single hwire hgates hfew hone hascending t
        case neg =>
          have htwo : 2 ≤ reduced.length := by omega
          have hkinds : members.countP (OwnershipPolicy.asks gate) = reduced.countP gate.same :=
            countP_eq_of_forall₂ hpairs fun member r hr hnormalize =>
              (same_of_normalize hwire hnormalize ((leaves_le_leavesOf hr).trans_lt hfew)).symm
          by_cases hplain : reduced.countP gate.same = 0
          case pos =>
            have hflat : gate.flatten reduced = reduced := gate.flatten_eq_self fun r hr =>
              Bool.eq_false_iff.mpr (List.countP_eq_zero.mp hplain r hr)
            refine iff_of_true (fun t => and_congr_left fun _ => ?_) (.inr (.inl ?_))
            · rw [closeGate_many_kind hwire hkind hgates hfew htwo,
                closeGate_many_fixed hwire hkind hgates hfew htwo, hflat]
            · intro member hmember
              exact Bool.eq_false_iff.mpr
                (List.countP_eq_zero.mp (hkinds.trans hplain) member hmember)
          case neg =>
            obtain ⟨r, hr, hrsame⟩ := List.countP_pos_iff.mp (Nat.pos_of_ne_zero hplain)
            rw [closeGate_apart_iff hwire hkind hgates hfew htwo hr hrsame]
            have hmore : ¬ ∀ member ∈ members, member.asks gate = false := fun hnone =>
              hplain (hkinds.symm.trans (List.countP_eq_zero.mpr fun member hmember =>
                Bool.eq_false_iff.mp (hnone member hmember)))
            unfold Settled
            rw [hrefused, hsame]
            simp only [hone, hmore, false_or, not_le, not_lt.mpr hleaves]

/-- **When one rule has one form.**  However the gate over the members is spelled and in
whatever order they are written, they come to the same exactly where no member is a gate
of the same kind, there is one member only, or both spellings are refused. -/
theorem confluent_iff (hwire : Postcard.RoundTrips PolicyTree) {members : List OwnershipPolicy}
    (hne : members ≠ []) : Confluent members ↔ Settled .all members ∧ Settled .any members := by
  have hall := agree_spellings_iff hwire (.inl rfl) hne
  have hany := agree_spellings_iff hwire (.inr rfl) hne
  constructor
  · exact fun h => ⟨hall.mp h.all, hany.mp h.any⟩
  · rintro ⟨hsettled, hsettled'⟩
    refine ⟨hall.mpr hsettled, hany.mpr hsettled', fun gate members' hperm => ?_⟩
    refine agree_iff.mpr fun t => and_congr_left fun _ => ?_
    exact ⟨normalize_perm hwire hperm, normalize_perm hwire hperm.symm⟩

end Spellings

/-- A list of keys has one form. -/
theorem confluent_keys :
    let _ : Postcard PolicyTree := policyWire.postcard
    Confluent [.key ⟨[98]⟩, .key ⟨[97]⟩] := by
  intro _
  refine (confluent_iff policyWire.postcard_roundTrip (by simp)).mpr ⟨.inr (.inl ?_), .inr (.inl ?_)⟩
  all_goals simp [OwnershipPolicy.asks]

/-- All of "all of `b` and `c`" and `a` is one gate over three keys; as a threshold of two it is
a gate over two members. -/
theorem not_confluent_nested :
    let _ : Postcard PolicyTree := policyWire.postcard
    ¬ ∀ members : List OwnershipPolicy, members ≠ [] → members.length ≤ 65535 →
      Confluent members := by
  intro _ h
  have hinner : normalize (.allOf [.key ⟨[98]⟩, .key ⟨[99]⟩]) 1 =
      .ok (.threshold 2 [.leaf ⟨[98]⟩, .leaf ⟨[99]⟩]) :=
    (normalize_policy_eq_ok .all).mpr ⟨by decide, by simp, by decide, _,
      mapM_eq_ok_iff.mpr (.cons (normalize_key_eq_ok.mpr ⟨by decide, rfl⟩)
        (.cons (normalize_key_eq_ok.mpr ⟨by decide, rfl⟩) .nil)), rfl⟩
  have hmembers : [.allOf [.key ⟨[98]⟩, .key ⟨[99]⟩], .key ⟨[97]⟩].mapM
      (fun member => normalize member 1) =
      .ok [.threshold 2 [.leaf ⟨[98]⟩, .leaf ⟨[99]⟩], .leaf ⟨[97]⟩] :=
    mapM_eq_ok_iff.mpr (.cons hinner (.cons (normalize_key_eq_ok.mpr ⟨by decide, rfl⟩) .nil))
  have hflat : Accepts (.allOf [.allOf [.key ⟨[98]⟩, .key ⟨[99]⟩], .key ⟨[97]⟩])
      (.threshold 3 [.leaf ⟨[97]⟩, .leaf ⟨[98]⟩, .leaf ⟨[99]⟩]) :=
    ⟨(normalize_policy_eq_ok .all).mpr ⟨by decide, by simp, by decide, _, hmembers, rfl⟩,
      by decide, by decide⟩
  have hkept : normalize (.threshold 2 [.allOf [.key ⟨[98]⟩, .key ⟨[99]⟩], .key ⟨[97]⟩]) 0 =
      .ok (.threshold 2 [.leaf ⟨[97]⟩, .threshold 2 [.leaf ⟨[98]⟩, .leaf ⟨[99]⟩]]) :=
    (normalize_policy_eq_ok (.fixed 2)).mpr ⟨by decide, by simp, by decide, _, hmembers, rfl⟩
  have hconfluent := h [.allOf [.key ⟨[98]⟩, .key ⟨[99]⟩], .key ⟨[97]⟩] (by simp) (by simp)
  have hthreshold := ((agree_iff.mp hconfluent.all _).mp hflat).1
  cases hkept.symm.trans hthreshold

end Lait.Policy
