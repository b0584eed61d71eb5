import Lait.DemandCodec
import Lait.Acl.Types

/-!
# What the evaluation of a demand depends on

`evaluate_demand` answers with a witness: the grants that satisfy the demand.  A demand it
answers is a monotone formula over the actor's effective grants that holds
(`isSome_evaluateDemand_iff`), whichever way the demand is spelled: the one early return,
on an `Any` child that has no canonical bytes, is never taken inside a demand that has.

The witness is another matter.  An `Any` answers with the child of the smallest bytes,
child by child of the expression it is given, while the canonical encoding dissolves an
`Any` inside an `Any` first.  Where nothing is nested that way both see the same children,
and the witness is a value of the dissolved expression (`verdict`), which equivalent
demands share.  Every demand that was decoded is of that shape, and both callers decode.
-/

namespace Lait

namespace Acl

open Demand AllAny
open AuthorizationDemand hiding flatten flattenNode

/-- The actor holds a grant of exactly this capability on exactly this resource: authorized,
not revoked, the actor a member. -/
def Holder (st : AclState) (a : ActorId) (requirement : Requirement) : Prop :=
  st.members.contains a = true ∧ ∃ id g, st.policy.grants[id]? = some g ∧
    id ∉ st.policy.revokedGrants ∧ g.actor = a ∧ g.capability = requirement.1 ∧
      g.resource = requirement.2

/-- The demand holds as a formula over the actor's effective grants. -/
def Satisfied (st : AclState) (a : ActorId) (d : AuthorizationDemand) : Prop :=
  d.tree.Holds (Holder st a)

namespace AclState

variable {st : AclState} {a : ActorId}

/-! ## Requirements -/

theorem effectiveCapabilityGrants_ne_nil {capability : PolicyCapability} {resource : Resource} :
    st.effectiveCapabilityGrants a capability resource ≠ [] ↔
      Holder st a (capability, resource) := by
  unfold effectiveCapabilityGrants Holder
  split
  case isFalse hmember => simp [hmember]
  case isTrue hmember =>
      rw [ne_eq, List.map_eq_nil_iff, List.filter_eq_nil_iff]
      constructor
      · intro h
        push Not at h
        obtain ⟨⟨id, g⟩, hmem, heffective⟩ := h
        simp only [Bool.and_eq_true, decide_eq_true_eq] at heffective
        obtain ⟨⟨⟨hrevoked, hactor⟩, hcapability⟩, hresource⟩ := heffective
        exact ⟨hmember, id, g, BTreeMap.mem_toList_iff.mp hmem, hrevoked, hactor, hcapability,
          hresource⟩
      · rintro ⟨-, id, g, hget, hrevoked, hactor, hcapability, hresource⟩ hnone
        refine hnone (id, g) (BTreeMap.mem_toList_iff.mpr hget) ?_
        simp [hrevoked, hactor, hcapability, hresource]

/-! ## The loops -/

theorem evaluateAll_append (l l' : List AuthorizationDemand) :
    evaluateAll st a (l ++ l') = (evaluateAll st a l).bind fun ws =>
      (evaluateAll st a l').map (ws ++ ·) := by
  induction l with
  | nil =>
      rw [List.nil_append, evaluateAll, Option.bind_some]
      exact Option.map_id'.symm
  | cons d l ih =>
      rw [List.cons_append, evaluateAll, evaluateAll, ih]
      cases st.evaluateNode a d with
      | none => rfl
      | some w =>
          cases evaluateAll st a l with
          | none => rfl
          | some ws =>
              cases evaluateAll st a l' with
              | none => rfl
              | some ws' => simp [bind, pure]

mutual

theorem evaluateAll_flattenNode (d : AuthorizationDemand) :
    evaluateAll st a (AuthorizationDemand.flattenNode true d) = st.evaluateNode a d := by
  cases d with
  | require capability resource =>
      rw [AuthorizationDemand.flattenNode, evaluateAll]
      cases st.evaluateNode a (require capability resource) <;> simp [evaluateAll, bind, pure]
  | all children =>
      rw [AuthorizationDemand.flattenNode, if_pos rfl, evaluateAll_flatten children, evaluateNode]
  | any children =>
      rw [AuthorizationDemand.flattenNode, if_pos rfl, evaluateAll]
      cases st.evaluateNode a (any children) <;> simp [evaluateAll, bind, pure]

/-- An `All` inside an `All` adds what its children add. -/
theorem evaluateAll_flatten (l : List AuthorizationDemand) :
    evaluateAll st a (AuthorizationDemand.flatten true l) = evaluateAll st a l := by
  cases l with
  | nil => rfl
  | cons d l =>
      rw [AuthorizationDemand.flatten, evaluateAll_append, evaluateAll_flattenNode d,
        evaluateAll_flatten l, evaluateAll]
      cases st.evaluateNode a d with
      | none => rfl
      | some w => cases evaluateAll st a l <;> rfl

end

theorem isSome_evaluateAll {l : List AuthorizationDemand} :
    (evaluateAll st a l).isSome ↔ ∀ d ∈ l, (st.evaluateNode a d).isSome := by
  induction l with
  | nil => simp [evaluateAll]
  | cons d l ih =>
      rw [evaluateAll, List.forall_mem_cons, ← ih]
      cases st.evaluateNode a d with
      | none => simp
      | some w => cases evaluateAll st a l <;> simp [bind, pure]

/-- What an `Any` has so far and the next satisfied child; the smaller bytes stay. -/
def keep {β : Type} (best : Option (Bytes × β)) (next : Bytes × β) : Option (Bytes × β) :=
  if best.any (·.1 ≤ next.1) then best else some next

/-- Where every satisfied child has canonical bytes, the loop over an `Any` keeps the smallest. -/
theorem evaluateAny_eq {l : List AuthorizationDemand} {bytes : AuthorizationDemand → Bytes}
    (hbytes : ∀ d ∈ l, (st.evaluateNode a d).isSome → d.encodeCanonical = .ok (bytes d))
    (best : Option (Bytes × List Bytes)) :
    evaluateAny st a l best =
      some ((l.filterMap fun d => (st.evaluateNode a d).map (bytes d, ·)).foldl keep best) := by
  induction l generalizing best with
  | nil => rfl
  | cons d l ih =>
      have hrest := fun best => ih (fun d hd => hbytes d (List.mem_cons_of_mem _ hd)) best
      rw [evaluateAny]
      cases hnode : st.evaluateNode a d with
      | none =>
          rw [List.filterMap_cons_none (by rw [hnode]; rfl)]
          exact hrest best
      | some w =>
          have hencode := hbytes d List.mem_cons_self (by rw [hnode]; rfl)
          rw [List.filterMap_cons_some (by rw [hnode]; rfl), List.foldl_cons]
          simp only [hencode]
          exact hrest _

/-- One of the two is kept, the smaller. -/
theorem exists_keep {β : Type} (best : Option (Bytes × β)) (next : Bytes × β) :
    ∃ kept, keep best next = some kept ∧ (best = some kept ∨ kept = next) ∧ kept.1 ≤ next.1 ∧
      ∀ u ∈ best, kept.1 ≤ u.1 := by
  unfold keep
  cases best with
  | none => exact ⟨next, rfl, .inr rfl, le_rfl, by rintro u ⟨⟩⟩
  | some u =>
      by_cases hle : u.1 ≤ next.1
      · refine ⟨u, if_pos (decide_eq_true hle), .inl rfl, hle, ?_⟩
        rintro _ ⟨⟩
        exact le_rfl
      · refine ⟨next, if_neg (by simpa using hle), .inr rfl, le_rfl, ?_⟩
        rintro _ ⟨⟩
        exact (not_le.mp hle).le

theorem isSome_foldl_keep {β : Type} {l : List (Bytes × β)} {best : Option (Bytes × β)} :
    (l.foldl keep best).isSome ↔ best.isSome ∨ l ≠ [] := by
  induction l generalizing best with
  | nil => simp
  | cons v l ih =>
      obtain ⟨kept, hkept, -⟩ := exists_keep best v
      rw [List.foldl_cons, ih, hkept]
      simp

/-! ## Which demands are satisfied -/

/-- The dissolved children of a node that encodes, or a part of them: so many levels are left
below, each child has bytes, and together they are within the bounds. -/
def Part (depth : ℕ) (isAll : Bool) (ts : List (AllAny Requirement)) : Prop :=
  depth + 1 ≤ MAX_DEMAND_DEPTH ∧ leafCounts ts ≤ MAX_REQUIRE_LEAVES ∧
    ∃ values, ts.mapM (encodeTree depth) = some values ∧ values.length ≤ MAX_CHILDREN ∧
      values.Nodup ∧ (assemble isAll values).length ≤ MAX_DEMAND_BYTES

theorem Part.inside {depth : ℕ} {isAll : Bool} {before ts after : List (AllAny Requirement)}
    (h : Part depth isAll (before ++ ts ++ after)) : Part depth isAll ts := by
  obtain ⟨hdepth, hleaves, values, hvalues, hmax, hnodup, hlen⟩ := h
  obtain ⟨front, back, hfront, -, rfl⟩ := mapM_append_eq_some.mp hvalues
  obtain ⟨start, here, -, hhere, rfl⟩ := mapM_append_eq_some.mp hfront
  have hsub : here.Sublist (start ++ here ++ back) :=
    (List.sublist_append_right _ _).trans (List.sublist_append_left _ _)
  rw [length_assemble] at hlen
  rw [leafCounts_append, leafCounts_append] at hleaves
  refine ⟨hdepth, by omega, here, hhere, hsub.length_le.trans hmax, hnodup.sublist hsub, ?_⟩
  rw [length_assemble]
  simp only [List.map_append, List.sum_append] at hlen
  omega

/-- More levels than needed change no bytes. -/
theorem encodeTree_mono {depth depth' : ℕ} (hle : depth ≤ depth') {t : AllAny Requirement}
    {b : Bytes} (h : encodeTree depth t = some b) : encodeTree depth' t = some b := fold_mono hle h

/-- A child that is not dissolved has canonical bytes. -/
theorem Part.encodes_single {depth : ℕ} {isAll : Bool} {d : AuthorizationDemand}
    (h : Part depth isAll [d.tree]) :
    ∃ b, encodeTree depth d.tree = some b ∧ d.encodeCanonical = .ok b := by
  obtain ⟨hdepth, hleaves, values, hvalues, -, -, hlen⟩ := h
  obtain ⟨b, rest, hb, hrest, rfl⟩ :=
    List.forall₂_cons_left_iff.mp (mapM_eq_some_iff.mp hvalues)
  cases hrest
  refine ⟨b, hb, encodeCanonical_eq_ok_iff.mpr ⟨encodeTree_mono (by omega) hb, ?_, ?_⟩⟩
  · rwa [leafCounts, leafCounts, Nat.add_zero] at hleaves
  · exact (length_le_assemble List.mem_cons_self).trans hlen

/-- So has a child of an `Any` that leaves anything. -/
theorem Part.encodes {depth : ℕ} {d : AuthorizationDemand}
    (h : Part depth false (flattenNode false d.tree)) (hne : flattenNode false d.tree ≠ []) :
    ∃ b, d.encodeCanonical = .ok b := by
  cases d with
  | require capability resource =>
      obtain ⟨b, -, hb⟩ := @Part.encodes_single _ _ (require capability resource) h
      exact ⟨b, hb⟩
  | all children =>
      obtain ⟨b, -, hb⟩ := @Part.encodes_single _ _ (all children) h
      exact ⟨b, hb⟩
  | any children =>
      obtain ⟨hdepth, hleaves, values, hvalues, hmax, hnodup, hlen⟩ := h
      have hflat : flattenNode false (any children).tree = flatten false (trees children) := rfl
      rw [hflat] at hne hvalues hleaves
      have hnil : values ≠ [] := by
        rintro rfl
        exact hne (List.forall₂_nil_right_iff.mp (mapM_eq_some_iff.mp hvalues))
      have hnode : encodeTree (depth + 1) (any children).tree =
          some (assemble false (Bytes.sort values)) :=
        Option.bind_eq_some_iff.mpr
          ⟨values, hvalues, nodeBytes_eq_some_iff.mpr ⟨hnil, hmax, hnodup, rfl⟩⟩
      refine ⟨_, encodeCanonical_eq_ok_iff.mpr ⟨encodeTree_mono hdepth hnode, ?_, ?_⟩⟩
      · rwa [leafCounts_flatten] at hleaves
      · rw [length_assemble] at hlen ⊢
        rwa [((Bytes.sort_perm values).map _).sum_eq]

/-- The children of a child are a part of their own. -/
theorem Part.below {depth : ℕ} {isAll kind : Bool} {l : List (AllAny Requirement)}
    (h : Part depth isAll (flattenNode isAll (.node kind l))) :
    ∃ depth', Part depth' kind (flatten kind l) := by
  by_cases hkind : kind = isAll
  · subst hkind
    exact ⟨depth, by rwa [flattenNode_same] at h⟩
  · rw [flattenNode_other hkind] at h
    obtain ⟨hdepth, hleaves, values, hvalues, -, -, hlen⟩ := h
    obtain ⟨b, rest, hb, -, rfl⟩ :=
      List.forall₂_cons_left_iff.mp (mapM_eq_some_iff.mp hvalues)
    cases depth with
    | zero => cases hb
    | succ depth =>
        obtain ⟨inner, hinner, hnode⟩ := Option.bind_eq_some_iff.mp hb
        obtain ⟨-, hmax, hnodup, rfl⟩ := nodeBytes_eq_some_iff.mp hnode
        refine ⟨depth, by omega, ?_, inner, hinner, hmax, hnodup, ?_⟩
        · rw [leafCounts, leafCounts, leafCount, Nat.add_zero] at hleaves
          rwa [leafCounts_flatten]
        · have hshort := (length_le_assemble List.mem_cons_self).trans hlen
          rw [length_assemble] at hshort ⊢
          rwa [((Bytes.sort_perm inner).map _).sum_eq] at hshort

mutual

/-- Below a node that encodes, what is answered is what holds. -/
theorem isSome_evaluateNode {depth : ℕ} {isAll : Bool} (d : AuthorizationDemand)
    (h : Part depth isAll (flattenNode isAll d.tree)) :
    (st.evaluateNode a d).isSome ↔ Satisfied st a d := by
  cases d with
  | require capability resource =>
      rw [evaluateNode, Option.isSome_map, List.isSome_head?]
      exact effectiveCapabilityGrants_ne_nil
  | all children =>
      obtain ⟨depth', hpart⟩ := Part.below h
      have hchildren := isSome_of_part children hpart
      rw [evaluateNode, isSome_evaluateAll]
      show _ ↔ HoldAll (Holder st a) (trees children)
      rw [holdAll_iff, trees_eq_map, List.forall_mem_map]
      exact forall₂_congr fun d hd => (hchildren d hd).1
  | any children =>
      obtain ⟨depth', hpart⟩ := Part.below h
      have hchildren := isSome_of_part children hpart
      have hencode : ∀ d ∈ children, (st.evaluateNode a d).isSome →
          d.encodeCanonical = .ok (d.encodeCanonical.toOption.getD default) := by
        intro d hd hsome
        obtain ⟨b, hb⟩ := (hchildren d hd).2 rfl hsome
        rw [hb]
        rfl
      rw [evaluateNode, evaluateAny_eq hencode, Option.bind_some, Option.isSome_map,
        isSome_foldl_keep]
      show _ ↔ HoldsAny (Holder st a) (trees children)
      rw [holdsAny_iff, trees_eq_map, ne_eq, List.filterMap_eq_nil_iff]
      push Not
      simp only [Option.isSome_none, Bool.false_eq_true, false_or, ne_eq, Option.map_eq_none_iff,
        List.mem_map, exists_exists_and_eq_and]
      refine exists_congr fun d => and_congr_right fun hd => ?_
      exact Option.isSome_iff_ne_none.symm.trans (hchildren d hd).1

theorem isSome_of_part {depth : ℕ} {isAll : Bool} (l : List AuthorizationDemand)
    (h : Part depth isAll (flatten isAll (trees l))) : ∀ d ∈ l,
      ((st.evaluateNode a d).isSome ↔ Satisfied st a d) ∧
        (isAll = false → (st.evaluateNode a d).isSome → ∃ b, d.encodeCanonical = .ok b) := by
  cases l with
  | nil => exact fun d hd => absurd hd List.not_mem_nil
  | cons first rest =>
      have hhead : Part depth isAll (flattenNode isAll first.tree) :=
        @Part.inside depth isAll [] _ (flatten isAll (trees rest)) h
      have htail : Part depth isAll (flatten isAll (trees rest)) := by
        refine @Part.inside depth isAll (flattenNode isAll first.tree) _ [] ?_
        rwa [List.append_nil]
      have hsome := isSome_evaluateNode first hhead
      have hrest := isSome_of_part rest htail
      intro d hd
      rcases List.mem_cons.mp hd with rfl | hd
      · refine ⟨hsome, ?_⟩
        rintro rfl hanswered
        exact hhead.encodes (flattenNode_ne_nil (hsome.mp hanswered))
      · exact hrest d hd

end

/-- **A demand that encodes is answered exactly when it holds.** -/
theorem isSome_evaluateDemand_iff {d : AuthorizationDemand} {b : Bytes}
    (h : d.encodeCanonical = .ok b) : (st.evaluateDemand a d).isSome ↔ Satisfied st a d := by
  obtain ⟨hbytes, hleaves, hlen⟩ := encodeCanonical_eq_ok_iff.mp h
  have hpart : ∀ {kind l}, d.tree = .node kind l → Part 7 kind (flatten kind l) := by
    intro kind l hnode
    rw [hnode] at hbytes hleaves
    obtain ⟨values, hvalues, hassemble⟩ := Option.bind_eq_some_iff.mp hbytes
    obtain ⟨-, hmax, hnodup, rfl⟩ := nodeBytes_eq_some_iff.mp hassemble
    refine ⟨by decide, by rwa [leafCounts_flatten], values, hvalues, hmax, hnodup, ?_⟩
    rw [length_assemble] at hlen ⊢
    rwa [((Bytes.sort_perm values).map _).sum_eq] at hlen
  rw [evaluateDemand, Option.isSome_map]
  cases d with
  | require capability resource =>
      rw [evaluateNode, Option.isSome_map, List.isSome_head?]
      exact effectiveCapabilityGrants_ne_nil
  | all children =>
      refine @isSome_evaluateNode st a 7 true (all children) ?_
      show Part 7 true (flattenNode true (.node true (trees children)))
      rw [flattenNode_same]
      exact hpart rfl
  | any children =>
      refine @isSome_evaluateNode st a 7 false (any children) ?_
      show Part 7 false (flattenNode false (.node false (trees children)))
      rw [flattenNode_same]
      exact hpart rfl

/-! ## The witness as a value of the dissolved demand -/

/-- The canonical bytes of a demand and the grants it is answered with. -/
abbrev Verdict := Bytes × Option (Finset Bytes)

/-- A requirement is answered with the smallest of its grants. -/
def leafVerdict (st : AclState) (a : ActorId) (requirement : Requirement) : Option Verdict :=
  (leafBytes requirement).map fun b =>
    (b, (st.effectiveCapabilityGrants a requirement.1 requirement.2).head?.map ({·}))

/-- The verdicts that are answers. -/
def answers {β : Type} (verdicts : List (Bytes × Option β)) : List (Bytes × β) :=
  verdicts.filterMap fun v => v.2.map (v.1, ·)

/-- An `All` is answered with everything its children are, an `Any` with what the answered
child of the smallest bytes is. -/
def nodeVerdict (isAll : Bool) (verdicts : List Verdict) : Option Verdict :=
  (nodeBytes isAll (verdicts.map Prod.fst)).map fun b =>
    (b, if isAll then (frame Prod.snd verdicts).map Multiset.sup
      else ((answers verdicts).foldl keep none).map Prod.snd)

/-- The verdict on a dissolved demand of so many levels. -/
def verdict (st : AclState) (a : ActorId) : ℕ → AllAny Requirement → Option Verdict :=
  fold (leafVerdict st a) nodeVerdict

/-- The bytes of a verdict are those of the demand. -/
theorem map_fst_verdict (depth : ℕ) (t : AllAny Requirement) :
    (verdict st a depth t).map Prod.fst = encodeTree depth t := by
  refine fold_map (fun requirement => ?_) (fun kind verdicts => ?_) depth t
  · rw [leafVerdict, Option.map_map]
    exact Option.map_id'
  · rw [nodeVerdict, Option.map_map]
    exact Option.map_id'

section Keep

variable {β : Type} {l l' : List (Bytes × β)} {best : Option (Bytes × β)} {v : Bytes × β}

/-- What is kept is there, and nothing is smaller. -/
theorem of_foldl_keep (h : l.foldl keep best = some v) :
    (best = some v ∨ v ∈ l) ∧ (∀ u ∈ best, v.1 ≤ u.1) ∧ ∀ w ∈ l, v.1 ≤ w.1 := by
  induction l generalizing best with
  | nil =>
      rw [List.foldl_nil] at h
      subst h
      refine ⟨.inl rfl, ?_, fun w hw => absurd hw List.not_mem_nil⟩
      rintro _ ⟨⟩
      exact le_rfl
  | cons first l ih =>
      obtain ⟨kept, hkept, hfrom, hfirst, hbefore⟩ := exists_keep best first
      rw [List.foldl_cons, hkept] at h
      obtain ⟨hv, hle, hrest⟩ := ih h
      have hvkept : v.1 ≤ kept.1 := hle kept rfl
      refine ⟨?_, fun u hu => hvkept.trans (hbefore u hu),
        List.forall_mem_cons.mpr ⟨hvkept.trans hfirst, hrest⟩⟩
      rcases hv with hv | hv
      · cases hv
        refine hfrom.imp_right fun hfirst => ?_
        rw [hfirst]
        exact List.mem_cons_self
      · exact .inr (List.mem_cons_of_mem _ hv)

/-- Where no two have the same bytes, the order they come in does not matter. -/
theorem foldl_keep_perm (hnodup : (l.map Prod.fst).Nodup) (h : l.Perm l') :
    l.foldl keep none = l'.foldl keep none := by
  have hsome : (l.foldl keep none).isSome ↔ (l'.foldl keep none).isSome := by
    rw [isSome_foldl_keep, isSome_foldl_keep, ne_eq, ne_eq, ← List.length_eq_zero_iff, h.length_eq,
      List.length_eq_zero_iff]
  cases hl : l.foldl keep none with
  | none =>
      rw [hl] at hsome
      exact (Option.not_isSome_iff_eq_none.mp fun hs => by simpa using hsome.mpr hs).symm
  | some v =>
      rw [hl] at hsome
      obtain ⟨v', hl'⟩ := Option.isSome_iff_exists.mp (hsome.mp rfl)
      obtain ⟨hv, -, hmin⟩ := of_foldl_keep hl
      obtain ⟨hv', -, hmin'⟩ := of_foldl_keep hl'
      have hvl := hv.resolve_left (by simp)
      have hvl' := h.mem_iff.mpr (hv'.resolve_left (by simp))
      have hbytes := le_antisymm (hmin v' hvl') (hmin' v (h.mem_iff.mp hvl))
      rw [hl', List.inj_on_of_nodup_map hnodup hvl hvl' hbytes]

end Keep

theorem answers_perm {β : Type} {l l' : List (Bytes × Option β)} (h : l.Perm l') :
    (answers l).Perm (answers l') := h.filterMap _

theorem sublist_answers {β : Type} (l : List (Bytes × Option β)) :
    ((answers l).map Prod.fst).Sublist (l.map Prod.fst) := by
  induction l with
  | nil => exact List.Sublist.slnil
  | cons v l ih =>
      unfold answers at ih ⊢
      cases hv : v.2 with
      | none =>
          rw [List.filterMap_cons_none (by rw [hv]; rfl)]
          exact ih.cons _
      | some w =>
          rw [List.filterMap_cons_some (by rw [hv]; rfl)]
          exact ih.cons_cons _

/-- A node's verdict does not depend on the order of its children. -/
theorem nodeVerdict_perm (isAll : Bool) (l l' : List Verdict) (h : l.Perm l') :
    nodeVerdict isAll l = nodeVerdict isAll l' := by
  unfold nodeVerdict
  rw [nodeBytes_perm isAll _ _ (h.map Prod.fst)]
  cases hbytes : nodeBytes isAll (l'.map Prod.fst) with
  | none => rfl
  | some b =>
      obtain ⟨-, -, hnodup, -⟩ := nodeBytes_eq_some_iff.mp hbytes
      rw [frame_perm h, foldl_keep_perm _ (answers_perm h)]
      exact ((h.map Prod.fst).nodup_iff.mpr hnodup).sublist (sublist_answers l)

/-! ## Evaluation computes the verdict -/

/-- An `All` whose children are answered as their verdicts say is answered with all of it. -/
theorem evaluateAll_verdicts {l : List AuthorizationDemand} {verdicts : List Verdict}
    (h : List.Forall₂ (fun d v => (st.evaluateNode a d).map List.toFinset = v.2) l verdicts) :
    (evaluateAll st a l).map List.toFinset = (frame Prod.snd verdicts).map Multiset.sup := by
  induction h with
  | nil => rfl
  | @cons d v l verdicts hhead _ ih =>
      rw [evaluateAll, frame_cons, ← hhead]
      cases st.evaluateNode a d with
      | none => rfl
      | some w =>
          cases hrest : evaluateAll st a l with
          | none =>
              rw [hrest] at ih
              cases hframe : frame Prod.snd verdicts with
              | none => rfl
              | some s => rw [hframe] at ih; cases ih
          | some ws =>
              rw [hrest] at ih
              cases hframe : frame Prod.snd verdicts with
              | none => rw [hframe] at ih; cases ih
              | some s =>
                  rw [hframe] at ih
                  have hsup : ws.toFinset = s.sup := Option.some.inj ih
                  simp [bind, pure, hsup, List.toFinset_append]

/-- An `Any` whose children have the bytes and the answers of their verdicts keeps the
smallest of them. -/
theorem evaluateAny_verdicts {l : List AuthorizationDemand} {verdicts : List Verdict}
    (h : List.Forall₂ (fun d v => d.encodeCanonical = .ok v.1 ∧
      (st.evaluateNode a d).map List.toFinset = v.2) l verdicts)
    (best : Option (Bytes × List Bytes)) :
    (evaluateAny st a l best).map (Option.map (Prod.map id List.toFinset)) =
      some ((answers verdicts).foldl keep (best.map (Prod.map id List.toFinset))) := by
  induction h generalizing best with
  | nil => rfl
  | @cons d v l verdicts hhead _ ih =>
      obtain ⟨hbytes, hanswer⟩ := hhead
      rw [evaluateAny]
      cases hnode : st.evaluateNode a d with
      | none =>
          rw [hnode] at hanswer
          have hskip : answers (v :: verdicts) = answers verdicts :=
            List.filterMap_cons_none (by rw [← hanswer]; rfl)
          rw [hskip]
          exact ih best
      | some w =>
          rw [hnode] at hanswer
          have htake : answers (v :: verdicts) = (v.1, w.toFinset) :: answers verdicts :=
            List.filterMap_cons_some (by rw [← hanswer]; rfl)
          have hkeep : ((if best.any (·.1 ≤ v.1) then best else some (v.1, w)) :
              Option (Bytes × List Bytes)).map (Prod.map id List.toFinset) =
                keep (best.map (Prod.map id List.toFinset)) (v.1, w.toFinset) := by
            unfold keep
            rw [Option.any_map]
            exact apply_ite _ _ _ _
          rw [htake, List.foldl_cons, ← hkeep]
          simp only [hbytes]
          exact ih _

/-- The dissolved children of a node have the bytes and the answers of their verdicts, when
demands of the bounds of the encoding are answered as theirs say. -/
theorem forall₂_verdicts {depth : ℕ} {isAll : Bool} {l : List (AllAny Requirement)}
    {ds : List AuthorizationDemand} {verdicts : List Verdict} {b : Bytes}
    (hdepth : depth ≤ MAX_DEMAND_DEPTH)
    (hanswer : ∀ {d : AuthorizationDemand} {v : Verdict}, verdict st a depth d.tree = some v →
      d.tree.Unnested false → d.tree.leafCount ≤ MAX_REQUIRE_LEAVES →
      v.1.length ≤ MAX_DEMAND_BYTES → (st.evaluateNode a d).map List.toFinset = v.2)
    (hds : trees ds = flatten isAll l)
    (hverdicts : (flatten isAll l).mapM (verdict st a depth) = some verdicts)
    (hnode : nodeBytes isAll (verdicts.map Prod.fst) = some b)
    (hlen : b.length ≤ MAX_DEMAND_BYTES) (hleaves : leafCounts l ≤ MAX_REQUIRE_LEAVES)
    (hunnested : UnnestedOf false l) :
    List.Forall₂ (fun d v => d.encodeCanonical = .ok v.1 ∧
      (st.evaluateNode a d).map List.toFinset = v.2) ds verdicts := by
  obtain ⟨-, -, -, rfl⟩ := nodeBytes_eq_some_iff.mp hnode
  rw [← hds, trees_eq_map, List.mapM_map] at hverdicts
  have hchild : ∀ d ∈ ds, d.tree.Unnested false ∧ d.tree.leafCount ≤ MAX_REQUIRE_LEAVES := by
    intro d hd
    have hmem : d.tree ∈ flatten isAll l := by
      rw [← hds, trees_eq_map]
      exact List.mem_map_of_mem hd
    exact ⟨unnested_of_mem_flatten hunnested _ hmem,
      (leafCount_le_of_mem_flatten hmem).trans hleaves⟩
  have hshort : ∀ v ∈ verdicts, v.1.length ≤ MAX_DEMAND_BYTES := fun v hv =>
    (length_le_assemble (Bytes.mem_sort.mpr (List.mem_map_of_mem hv))).trans hlen
  have hboth := (List.forall₂_and_left _ _).mpr ⟨hchild, mapM_eq_some_iff.mp hverdicts⟩
  have hall := (List.forall₂_and_left _ _).mpr ⟨hshort, hboth.flip⟩
  refine hall.flip.imp fun d v h => ?_
  obtain ⟨hvlen, ⟨hflat, hcount⟩, hvalue⟩ := h
  refine ⟨encodeCanonical_eq_ok_iff.mpr ⟨encodeTree_mono hdepth ?_, hcount, hvlen⟩,
    hanswer hvalue hflat hcount hvlen⟩
  rw [← @map_fst_verdict st a]
  exact congrArg (Option.map Prod.fst) hvalue

/-- **The witness is a value of the dissolved demand**, where no `Any` stands directly inside
another. -/
theorem evaluateNode_verdict {depth : ℕ} (hdepth : depth ≤ MAX_DEMAND_DEPTH)
    {d : AuthorizationDemand} {v : Verdict} (hverdict : verdict st a depth d.tree = some v)
    (hunnested : d.tree.Unnested false) (hleaves : d.tree.leafCount ≤ MAX_REQUIRE_LEAVES)
    (hlen : v.1.length ≤ MAX_DEMAND_BYTES) :
    (st.evaluateNode a d).map List.toFinset = v.2 := by
  induction depth generalizing d v with
  | zero => cases hverdict
  | succ depth ih =>
      have hanswer := @ih (by omega)
      cases d with
      | require capability resource =>
          obtain ⟨b, -, rfl⟩ := Option.map_eq_some_iff.mp hverdict
          rw [evaluateNode, Option.map_map]
          rfl
      | all children =>
          obtain ⟨verdicts, hverdicts, hnode⟩ := Option.bind_eq_some_iff.mp hverdict
          obtain ⟨b, hbytes, rfl⟩ := Option.map_eq_some_iff.mp hnode
          have hchildren := forall₂_verdicts (by omega) hanswer (trees_flatten true children)
            hverdicts hbytes hlen hleaves hunnested.2
          rw [evaluateNode, ← evaluateAll_flatten]
          exact evaluateAll_verdicts (hchildren.imp fun _ _ h => h.2)
      | any children =>
          obtain ⟨verdicts, hverdicts, hnode⟩ := Option.bind_eq_some_iff.mp hverdict
          obtain ⟨b, hbytes, rfl⟩ := Option.map_eq_some_iff.mp hnode
          have hflat : flatten false (trees children) = trees children :=
            flatten_of_dissolved (hunnested.1 rfl)
          have hchildren := forall₂_verdicts (by omega) hanswer hflat.symm hverdicts hbytes hlen
            hleaves hunnested.2
          have hbest := evaluateAny_verdicts hchildren none
          show (evaluateNode st a (any children)).map List.toFinset =
            ((answers verdicts).foldl keep none).map Prod.snd
          obtain ⟨best, hany, hkept⟩ := Option.map_eq_some_iff.mp hbest
          rw [evaluateNode, hany, Option.bind_some, Option.map_map]
          rw [Option.map_none] at hkept
          rw [← hkept, Option.map_map]
          rfl

/-- What is left of a witness once it is sorted and deduplicated is its set of grants. -/
theorem dedup_sort_eq_iff {l l' : List Bytes} :
    (Bytes.sort l).dedup = (Bytes.sort l').dedup ↔ l.toFinset = l'.toFinset := by
  have hmem : ∀ (l : List Bytes) (b : Bytes), b ∈ (Bytes.sort l).dedup ↔ b ∈ l := fun l b => by
    rw [List.mem_dedup, Bytes.mem_sort]
  have hsorted : ∀ l : List Bytes, (Bytes.sort l).dedup.Pairwise (· ≤ ·) := fun l =>
    (List.pairwise_insertionSort _ _).sublist (List.dedup_sublist _)
  constructor
  · intro h
    ext b
    rw [List.mem_toFinset, List.mem_toFinset, ← hmem l, ← hmem l', h]
  · intro h
    refine List.Perm.eq_of_pairwise' (hsorted l) (hsorted l') ?_
    refine (List.perm_ext_iff_of_nodup (List.nodup_dedup _) (List.nodup_dedup _)).mpr fun b => ?_
    rw [hmem, hmem, ← List.mem_toFinset, h, List.mem_toFinset]

/-- Demands of the same canonical bytes are equivalent. -/
theorem equivalent_of_encodeCanonical {d d' : AuthorizationDemand} {b : Bytes} (hutf8 : d.Utf8)
    (hutf8' : d'.Utf8) (h : d.encodeCanonical = .ok b) (h' : d'.encodeCanonical = .ok b) :
    Equivalent d.tree d'.tree := by
  obtain ⟨hbytes, hleaves, hlen⟩ := encodeCanonical_eq_ok_iff.mp h
  obtain ⟨hbytes', hleaves', -⟩ := encodeCanonical_eq_ok_iff.mp h'
  exact equivalent_of_encodeTree_eq hutf8 hutf8' hbytes hbytes' hlen hleaves hleaves'

/-- Demands of the same canonical bytes have the same answer, where no `Any` stands directly
inside another. -/
theorem evaluateDemand_congr {d d' : AuthorizationDemand} {b : Bytes} (hutf8 : d.Utf8)
    (hutf8' : d'.Utf8) (h : d.encodeCanonical = .ok b) (h' : d'.encodeCanonical = .ok b)
    (hunnested : d.tree.Unnested false) (hunnested' : d'.tree.Unnested false) :
    st.evaluateDemand a d = st.evaluateDemand a d' := by
  obtain ⟨hbytes, hleaves, hlen⟩ := encodeCanonical_eq_ok_iff.mp h
  obtain ⟨-, hleaves', -⟩ := encodeCanonical_eq_ok_iff.mp h'
  have hequiv := equivalent_of_encodeCanonical hutf8 hutf8' h h'
  rw [← @map_fst_verdict st a] at hbytes
  obtain ⟨⟨_, w⟩, hverdict, rfl⟩ := Option.map_eq_some_iff.mp hbytes
  have hverdict' : verdict st a MAX_DEMAND_DEPTH d'.tree = some (_, w) :=
    (fold_congr nodeVerdict_perm hequiv MAX_DEMAND_DEPTH).1.symm.trans hverdict
  have hnode := evaluateNode_verdict le_rfl hverdict hunnested hleaves hlen
  have hnode' := evaluateNode_verdict le_rfl hverdict' hunnested' hleaves' hlen
  unfold evaluateDemand
  rw [← hnode'] at hnode
  cases hw : st.evaluateNode a d with
  | none =>
      rw [hw] at hnode
      rw [Option.map_eq_none_iff.mp hnode.symm]
  | some ws =>
      rw [hw] at hnode
      obtain ⟨ws', hws', heq⟩ := Option.map_eq_some_iff.mp hnode.symm
      rw [hws', Option.map_some, Option.map_some, dedup_sort_eq_iff.mpr heq.symm]

/-! ## Decoded demands -/

/-- The children a node decodes are of another kind than the node. -/
theorem of_decodeChildren {decode : List UInt8 → ℕ → Read} {tag : UInt8}
    (hdecode : ∀ {bytes leaves d rest after}, decode bytes leaves = .ok (d, rest, after) →
      d.tree.Unnested false ∧ (bytes.head? ≠ some TAG_ANY → Dissolved false d.tree))
    {count : ℕ} {prev : Option Bytes} {bytes rest : List UInt8} {leaves after : ℕ}
    {ds : List AuthorizationDemand}
    (h : decodeChildren decode tag count prev bytes leaves = .ok (ds, rest, after)) :
    ∀ d ∈ ds, d.tree.Unnested false ∧ (tag = TAG_ANY → Dissolved false d.tree) := by
  induction count generalizing prev bytes leaves ds with
  | zero =>
      cases h
      exact fun d hd => absurd hd List.not_mem_nil
  | succ count ih =>
      unfold decodeChildren at h
      split at h
      case h_2 => cases h
      case h_1 =>
          obtain ⟨-, h⟩ := guard_eq_ok.mp h
          obtain ⟨-, h⟩ := guard_eq_ok.mp h
          obtain ⟨htag, h⟩ := guard_eq_ok.mp h
          obtain ⟨⟨child, unread, middle⟩, hchild, h⟩ := bind_eq_ok.mp h
          obtain ⟨-, h⟩ := guard_eq_ok.mp h
          obtain ⟨⟨children, after', last⟩, hchildren, hpure⟩ := bind_eq_ok.mp h
          cases hpure
          obtain ⟨hunnested, hkind⟩ := hdecode hchild
          refine List.forall_mem_cons.mpr ⟨⟨hunnested, ?_⟩, ih hchildren⟩
          rintro rfl
          exact hkind htag

/-- What a node reader reads has no `Any` directly inside another. -/
theorem unnested_of_decodeNode {depth : ℕ} {bytes rest : List UInt8} {leaves after : ℕ}
    {d : AuthorizationDemand} (h : decodeNode depth bytes leaves = .ok (d, rest, after)) :
    d.tree.Unnested false ∧ (bytes.head? ≠ some TAG_ANY → Dissolved false d.tree) := by
  induction depth generalizing bytes leaves d rest after with
  | zero => cases h
  | succ depth ih =>
      cases bytes with
      | nil => cases h
      | cons tag bytes =>
          unfold decodeNode at h
          split at h
          case isTrue =>
              -- a requirement
              obtain ⟨⟨world, bytes⟩, -, h⟩ := bind_eq_ok.mp h
              obtain ⟨⟨name, bytes⟩, -, h⟩ := bind_eq_ok.mp h
              simp only at h
              split at h
              case h_1 => cases h
              case h_2 =>
                  obtain ⟨-, h⟩ := guard_eq_ok.mp h
                  obtain ⟨⟨segments, bytes⟩, -, h⟩ := bind_eq_ok.mp h
                  obtain ⟨-, hpure⟩ := guard_eq_ok.mp h
                  cases hpure
                  exact ⟨trivial, fun _ => trivial⟩
          case isFalse =>
              split at h
              case isFalse => cases h
              case isTrue htag =>
                  split at h
                  case h_2 => cases h
                  case h_1 =>
                      obtain ⟨-, h⟩ := guard_eq_ok.mp h
                      obtain ⟨-, h⟩ := guard_eq_ok.mp h
                      obtain ⟨⟨children, bytes, last⟩, hchildren, hpure⟩ := bind_eq_ok.mp h
                      have hbelow := of_decodeChildren ih hchildren
                      have htrees : ∀ t ∈ trees children, t.Unnested false := by
                        rw [trees_eq_map, List.forall_mem_map]
                        exact fun d hd => (hbelow d hd).1
                      cases hpure
                      split
                      case isTrue => exact ⟨⟨by simp, unnestedOf_iff.mpr htrees⟩, fun _ h => by cases h⟩
                      case isFalse hall =>
                          have hany : tag = TAG_ANY := htag.resolve_left hall
                          refine ⟨⟨fun _ => ?_, unnestedOf_iff.mpr htrees⟩, fun h => ?_⟩
                          · show ∀ t ∈ trees children, Dissolved false t
                            rw [trees_eq_map, List.forall_mem_map]
                            exact fun d hd => (hbelow d hd).2 hany
                          · exact absurd (congrArg some hany) h

/-- A decoded demand has no `Any` directly inside another. -/
theorem unnested_of_decodeCanonical {b : Bytes} {d : AuthorizationDemand}
    (h : decodeCanonical b = .ok d) : d.tree.Unnested false := by
  unfold decodeCanonical at h
  obtain ⟨-, h⟩ := guard_eq_ok.mp h
  obtain ⟨⟨demand, unread, leaves⟩, hnode, h⟩ := bind_eq_ok.mp h
  obtain ⟨-, h⟩ := guard_eq_ok.mp h
  obtain ⟨re, -, h⟩ := bind_eq_ok.mp h
  obtain ⟨-, hpure⟩ := guard_eq_ok.mp h
  cases hpure
  exact (unnested_of_decodeNode hnode).1

/-- **What the evaluation of a demand depends on.**  A demand with canonical bytes is answered
exactly when it holds as a monotone formula over the actor's effective grants, so two of the
same bytes are answered alike; they have the same answer where no `Any` stands directly inside
another one; and every demand that was decoded is such a one. -/
theorem evaluateDemand_canonical (st : AclState) (a : ActorId) :
    (∀ (d : AuthorizationDemand) (b : Bytes), d.encodeCanonical = .ok b →
      ((st.evaluateDemand a d).isSome ↔ Satisfied st a d)) ∧
    (∀ (d d' : AuthorizationDemand) (b : Bytes), d.Utf8 → d'.Utf8 → d.encodeCanonical = .ok b →
      d'.encodeCanonical = .ok b → ((st.evaluateDemand a d).isSome ↔
          (st.evaluateDemand a d').isSome) ∧
        (d.tree.Unnested false → d'.tree.Unnested false →
          st.evaluateDemand a d = st.evaluateDemand a d')) ∧
    ∀ (b : Bytes) (d : AuthorizationDemand), decodeCanonical b = .ok d →
      d.tree.Unnested false := by
  refine ⟨fun d b => isSome_evaluateDemand_iff, fun d d' b hutf8 hutf8' h h' => ⟨?_, ?_⟩,
    fun b d => unnested_of_decodeCanonical⟩
  · rw [isSome_evaluateDemand_iff h, isSome_evaluateDemand_iff h']
    exact (equivalent_of_encodeCanonical hutf8 hutf8' h h').holds_iff
  · exact evaluateDemand_congr hutf8 hutf8' h h'

/-! ## An `Any` inside an `Any` -/

section Nested

/-- The World the requirements below name. -/
def app : Text := Bytes.ofString "app"

/-- To read in the World, and to write. -/
def reading : PolicyCapability := ⟨app, Bytes.ofString "read"⟩
def writing : PolicyCapability := ⟨app, Bytes.ofString "write"⟩

/-- A member who may do both, by two grants. -/
def alice : ActorId := Bytes.ofString "alice"
def twoGrants : AclState where
  members := (∅ : BTreeMap ActorId (Finset Standing)).insert alice ∅
  agents := ∅
  epochs := ∅
  revokedInvites := ∅
  spentNonces := ∅
  rekeyFences := ∅
  policy := { PolicyPass.default with
    grants := ((∅ : BTreeMap Bytes Assignment).insert ⟨[1]⟩
      ⟨alice, reading, Resource.root app⟩).insert ⟨[2]⟩ ⟨alice, writing, Resource.root app⟩ }
  policyAdmins := ∅
  nonceAdmits := ∅
  memberAdmission := false
  unresolved := false

/-- To read or to write, said flat and said with the first inside an `Any` of its own. -/
def flatAny : AuthorizationDemand :=
  any [require reading (Resource.root app), require writing (Resource.root app)]
def nestedAny : AuthorizationDemand :=
  any [any [require reading (Resource.root app)], require writing (Resource.root app)]

/-- The canonical bytes, evaluated on the tree. -/
theorem encodeCanonical_of_tree {d : AuthorizationDemand} {b : Bytes}
    (h : encodeTree MAX_DEMAND_DEPTH d.tree = some b)
    (hcount : d.tree.leafCount ≤ MAX_REQUIRE_LEAVES) (hlen : b.length ≤ MAX_DEMAND_BYTES) : d.encodeCanonical = .ok b :=
  encodeCanonical_eq_ok_iff.mpr ⟨h, hcount, hlen⟩

/-- **The witness is not a value of the canonical bytes alone**: the two spellings have the same
bytes, and are answered with different grants. -/
theorem evaluateDemand_nested : ∃ b, nestedAny.encodeCanonical = .ok b ∧
    flatAny.encodeCanonical = .ok b ∧ twoGrants.evaluateDemand alice nestedAny = some [⟨[2]⟩] ∧
      twoGrants.evaluateDemand alice flatAny = some [⟨[1]⟩] := by
  have hread : (require reading (Resource.root app)).encodeCanonical = .ok _ :=
    encodeCanonical_of_tree rfl (by decide) (by decide)
  have hwrite : (require writing (Resource.root app)).encodeCanonical = .ok _ :=
    encodeCanonical_of_tree rfl (by decide) (by decide)
  have hinner : (any [require reading (Resource.root app)]).encodeCanonical = .ok _ :=
    encodeCanonical_of_tree rfl (by decide) (by decide)
  have hreads : twoGrants.evaluateNode alice (require reading (Resource.root app)) =
      some [⟨[1]⟩] := by
    rw [evaluateNode]
    decide +kernel
  have hwrites : twoGrants.evaluateNode alice (require writing (Resource.root app)) =
      some [⟨[2]⟩] := by
    rw [evaluateNode]
    decide +kernel
  have hinners : twoGrants.evaluateNode alice (any [require reading (Resource.root app)]) =
      some [⟨[1]⟩] := by
    rw [evaluateNode]
    simp only [evaluateAny, hreads, hread]
    rfl
  refine ⟨_, encodeCanonical_of_tree rfl (by decide) (by decide),
    encodeCanonical_of_tree rfl (by decide) (by decide), ?_, ?_⟩
  · rw [evaluateDemand, nestedAny, evaluateNode]
    simp only [evaluateAny, hinners, hinner, hwrites, hwrite]
    decide +kernel
  · rw [evaluateDemand, flatAny, evaluateNode]
    simp only [evaluateAny, hreads, hread, hwrites, hwrite]
    decide +kernel

/-- The flat spelling and the one in the other order are answered with the same grants. -/
theorem evaluateDemand_reordered : twoGrants.evaluateDemand alice flatAny =
    twoGrants.evaluateDemand alice
      (any [require writing (Resource.root app), require reading (Resource.root app)]) := by
  have hutf8 : flatAny.Utf8 := ⟨by rintro s ⟨⟩, by rintro s ⟨⟩, trivial⟩
  have hunnested : flatAny.tree.Unnested false :=
    ⟨by rintro - t (_ | ⟨_, _ | ⟨_, ⟨⟩⟩⟩) <;> trivial, trivial, trivial, trivial⟩
  have hbytes : encodeTree MAX_DEMAND_DEPTH flatAny.tree = some _ := rfl
  exact ((evaluateDemand_canonical twoGrants alice).2.1 flatAny
    (any [require writing (Resource.root app), require reading (Resource.root app)]) _ hutf8
    ⟨hutf8.2.1, hutf8.1, trivial⟩ (encodeCanonical_of_tree hbytes (by decide) (by decide))
    (encodeCanonical_of_tree rfl (by decide) (by decide))).2 hunnested
    ⟨by rintro - t (_ | ⟨_, _ | ⟨_, ⟨⟩⟩⟩) <;> trivial, trivial, trivial, trivial⟩

end Nested

end AclState

end Acl

end Lait
