import Lait.Acl.Reads
import Lait.Acl.Replay

/-!
# Judging an op at its causal position

An op is meant to be judged at the standing its own causal history leads to.  Pass 1 keeps
one standing for all ops, in topological order, so that what it judges an op at is the
standing of everything ordered before it, concurrent ops included.  A removal that happens
to sort first can void an op that never saw it (`verdicts_differ_on_concurrent_removal`).

Not every op that sorts first does so.  The judgement of an op reads a few facts, and an
authorized op that is none of its ancestors disturbs it only by changing one of them, with no
ancestor coming after that settles the fact again.  `Undisturbed` says that this befalls
neither the op nor an ancestor that has a part in what is read.  The verdicts of an op that is
undisturbed in two op sets agree (`verdicts_shared`): read in both, a fact has the value its
ancestors left it, and by induction they are the same authorized ancestors.
-/

namespace Lait

namespace Acl

/-- The actions that any admin may take, and nobody else. -/
def AclAction.takesAdmin : AclAction → Bool
  | .setGrants _ _ => true
  | .revokeInvite _ => true
  | _ => false

section Position

variable [Crypto] [Postcard Actor.ActorOp] [Postcard AclOp]

namespace Walk

variable (walk : Walk) (l : List Text)

/-- What a walk has authorized when it comes to `h`. -/
def authorizedBefore (h : Text) : Authorized :=
  resolve walk.decoded (honoured (walk.verdictsFrom (PassOne.init walk.genesis.founders)
    (l.takeWhile fun k => k ≠ h)))

/-- The standing a walk has reached when it comes to `h`. -/
def standingAt (h : Text) : PassOne :=
  standingAfter walk.genesis.founders (walk.authorizedBefore l h)

/-- The verdict a walk gives `h` when it comes to it. -/
def verdictIn (h : Text) : Bool := walk.verdictAt (walk.standingAt l h) h

/-- A fact that is read to judge the op under `h`, whose device speaks for its author. -/
def Reads (h : Text) (φ : Fact) : Prop :=
  ∃ so op, walk.nodes[h]? = some so ∧ walk.decoded h = some op ∧
    walk.deviceSpeaksFor so.author op.by_ op.actorAsof = true ∧
      (Ask.judgement op h walk.genesis.founders walk.ancestors).reads (walk.standingAt l h) φ

/-- No authorized op that sorts before `h`, and is none of its ancestors, changes a fact that is
read to judge it, unless an authorized ancestor settles the fact afterwards; and so for each
ancestor that settles such a fact. -/
inductive Undisturbed : Text → Prop
  | intro {h : Text}
      (facts : ∀ φ, walk.Reads l h φ →
        Removable (fun e : Text × AclOp => φ.settledBy e.2 e.1)
          (fun e => walk.ancestors.has h e.1) (φ.holds (PassOne.init walk.genesis.founders))
          (walk.authorizedBefore l h))
      (ancestors : ∀ φ, walk.Reads l h φ → ∀ k op, walk.ancestors.has h k = true →
        walk.decoded k = some op → (φ.settledBy op k).isSome = true → Undisturbed k) :
      Undisturbed h

variable {walk l}

omit [Crypto] [Postcard Actor.ActorOp] [Postcard AclOp] in
theorem takeWhile_ne {l₁ l₂ : List Text} {k : Text} (hk : k ∉ l₁) :
    (l₁ ++ k :: l₂).takeWhile (fun j => j ≠ k) = l₁ := by
  rw [List.takeWhile_append_of_pos, List.takeWhile_cons_of_neg (by simp), List.append_nil]
  intro j hj
  simpa using fun hjk : j = k => hk (hjk ▸ hj)

omit [Crypto] [Postcard Actor.ActorOp] [Postcard AclOp] in
/-- What comes before `k` is the same in a list and in a longer one. -/
theorem takeWhile_ne_append {l₂ : List Text} {k : Text} (hk : k ∈ l) :
    (l ++ l₂).takeWhile (fun j => j ≠ k) = l.takeWhile fun j => j ≠ k := by
  obtain ⟨before, after, rfl, hnot⟩ := List.eq_append_cons_of_mem hk
  rw [List.append_assoc, List.cons_append, takeWhile_ne hnot, takeWhile_ne hnot]

omit [Crypto] [Postcard Actor.ActorOp] [Postcard AclOp] in
/-- What comes before `h`, in a part of a list. -/
theorem takeWhile_ne_filter {A : Finset Text} {h : Text} (hh : h ∈ A) :
    (l.takeWhile fun k => k ≠ h).filter (· ∈ A) =
      (l.filter (· ∈ A)).takeWhile fun k => k ≠ h := by
  induction l with
  | nil => rfl
  | cons k l ih =>
      by_cases hk : k = h
      · rw [List.takeWhile_cons_of_neg (by simp [hk]), List.filter_cons_of_pos (by simp [hk, hh]),
          List.takeWhile_cons_of_neg (by simp [hk]), List.filter_nil]
      · rw [List.takeWhile_cons_of_pos (by simpa using hk)]
        by_cases hin : k ∈ A
        · rw [List.filter_cons_of_pos (by simpa using hin),
            List.filter_cons_of_pos (by simpa using hin),
            List.takeWhile_cons_of_pos (by simpa using hk), ih]
        · rw [List.filter_cons_of_neg (by simpa using hin),
            List.filter_cons_of_neg (by simpa using hin), ih]

/-- The standing a walk has reached is that of what it has authorized. -/
theorem standingFrom_takeWhile (h : Text) :
    walk.standingFrom (PassOne.init walk.genesis.founders) (l.takeWhile fun k => k ≠ h) =
      walk.standingAt l h :=
  (walk.judgedRun _).eq_standingAfter

/-- What a walk has authorized when it comes to `h` is a run of pass 1. -/
theorem judgedRun_standingAt {h : Text} :
    JudgedRun walk.genesis.founders walk.ancestors (walk.authorizedBefore l h)
      (walk.standingAt l h) := by
  rw [← standingFrom_takeWhile]
  exact walk.judgedRun _

theorem verdictIn_append {l₂ : List Text} {k : Text} (hk : k ∈ l) :
    walk.verdictIn (l ++ l₂) k = walk.verdictIn l k := by
  rw [verdictIn, verdictIn, standingAt, standingAt, authorizedBefore, authorizedBefore,
    takeWhile_ne_append hk]

/-- **The verdicts of a walk**, each where it stands. -/
theorem verdictsFrom_eq_map (hnodup : l.Nodup) :
    walk.verdictsFrom (PassOne.init walk.genesis.founders) l =
      l.map fun h => (h, walk.verdictIn l h) := by
  induction l using List.reverseRecOn with
  | nil => rfl
  | append_singleton l h ih =>
      obtain ⟨hl, -, hdisj⟩ := List.nodup_append'.mp hnodup
      have hnew : h ∉ l := fun hh => hdisj hh (List.mem_singleton_self h)
      have hinit : l.map (fun k => (k, walk.verdictIn (l ++ [h]) k)) =
          l.map fun k => (k, walk.verdictIn l k) :=
        List.map_congr_left fun k hk => by rw [verdictIn_append hk]
      have hlast : walk.verdictAt (walk.standingFrom (PassOne.init walk.genesis.founders) l) h =
          walk.verdictIn (l ++ [h]) h := by
        rw [verdictIn, ← standingFrom_takeWhile, takeWhile_ne hnew]
      rw [verdictsFrom_concat, ih hl, hlast, List.map_append, hinit]
      rfl

/-- What a walk authorizes, read off its verdicts. -/
theorem resolve_honoured (hnodup : l.Nodup) :
    resolve walk.decoded (honoured (walk.verdictsFrom (PassOne.init walk.genesis.founders) l)) =
      l.filterMap fun k =>
        if walk.verdictIn l k then (walk.decoded k).map fun op => (k, op) else none := by
  have hhonoured : ∀ ok : Text → Bool, honoured (l.map fun k => (k, ok k)) = l.filter ok := by
    intro ok
    rw [honoured, List.filter_map, List.map_map]
    exact List.map_id _
  rw [verdictsFrom_eq_map hnodup, hhonoured, resolve, List.filterMap_filter]

/-- What was authorized before `h`, read off the verdicts. -/
theorem authorizedBefore_eq (hnodup : l.Nodup) (h : Text) :
    walk.authorizedBefore l h = (l.takeWhile fun k => k ≠ h).filterMap fun k =>
      if walk.verdictIn l k then (walk.decoded k).map fun op => (k, op) else none := by
  have hsub : (l.takeWhile fun k => k ≠ h) <+: l := List.takeWhile_prefix _
  obtain ⟨rest, hrest⟩ := hsub
  rw [authorizedBefore, resolve_honoured (hnodup.sublist (List.takeWhile_sublist _))]
  refine List.filterMap_congr fun k hk => ?_
  rw [← verdictIn_append hk, hrest]

/-! ## Two walks over a shared history -/

/-- Two walks that hold a closed set of ops alike, in the same order. -/
structure Shared (walk walk' : Walk) (l l' : List Text) (A : Finset Text) : Prop where
  genesis : walk.genesis = walk'.genesis
  events : walk.events = walk'.events
  same : ∀ h ∈ A, walk.nodes.SameAt walk'.nodes h
  has : ∀ h ∈ A, ∀ a, walk.ancestors.has h a = walk'.ancestors.has h a
  closed : ∀ h ∈ A, ∀ a, walk.ancestors.has h a = true → a ∈ A
  order : l.filter (· ∈ A) = l'.filter (· ∈ A)
  nodup : l.Nodup
  nodup' : l'.Nodup

variable {walk' : Walk} {l' : List Text} {A : Finset Text} {h : Text} {φ : Fact}

/-- The ops that settle a fact among the authorized ancestors of `h`. -/
theorem filter_authorizedBefore (hshared : Shared walk walk' l l' A) (hh : h ∈ A)
    (hverdict : ∀ k op, walk.ancestors.has h k = true → walk.decoded k = some op →
      (φ.settledBy op k).isSome = true → walk.verdictIn l k = walk'.verdictIn l' k) :
    ((walk.authorizedBefore l h).filter fun e => walk.ancestors.has h e.1).filter
        (fun e => (φ.settledBy e.2 e.1).isSome) =
      ((walk'.authorizedBefore l' h).filter fun e => walk'.ancestors.has h e.1).filter
        fun e => (φ.settledBy e.2 e.1).isSome := by
  have hrestrict : ∀ (l₁ : List Text) (f : Text → Option (Text × AclOp)),
      (∀ k, k ∉ A → f k = none) → l₁.filterMap f = (l₁.filter (· ∈ A)).filterMap f := by
    intro l₁ f hf
    rw [List.filterMap_filter]
    refine List.filterMap_congr fun k _ => ?_
    by_cases hk : k ∈ A
    · rw [if_pos (by simpa using hk)]
    · rw [if_neg (by simpa using hk), hf k hk]
  rw [authorizedBefore_eq hshared.nodup, authorizedBefore_eq hshared.nodup', List.filter_filter,
    List.filter_filter, List.filter_filterMap, List.filter_filterMap]
  -- an op that is no ancestor, or does not settle the fact, is left out on both sides
  have hskip : ∀ (has : Text → Bool) (k : Text) (op : Option AclOp) (ok : Bool),
      ¬ (has k = true ∧ ∃ op' ∈ op, (φ.settledBy op' k).isSome = true) →
        (if ok then op.map fun op => (k, op) else none).filter
          (fun e => (φ.settledBy e.2 e.1).isSome && has e.1) = none := by
    intro has k op ok hnot
    cases ok with
    | false => rfl
    | true =>
        cases op with
        | none => rfl
        | some op => simpa [and_comm] using hnot
  rw [hrestrict, @hrestrict (l'.takeWhile fun k => k ≠ h), takeWhile_ne_filter hh,
    takeWhile_ne_filter hh, hshared.order]
  · refine List.filterMap_congr fun k hk => ?_
    have hkA : k ∈ A := by
      simpa using (List.mem_filter.mp ((List.takeWhile_sublist _).subset hk)).2
    have hdecoded : walk.decoded k = walk'.decoded k := (hshared.same k hkA).opOf_eq
    rw [← hdecoded]
    by_cases hcounts : walk.ancestors.has h k = true ∧
        ∃ op ∈ walk.decoded k, (φ.settledBy op k).isSome = true
    · obtain ⟨hhas, op, hop, hsettles⟩ := hcounts
      rw [hverdict k op hhas hop hsettles, funext (hshared.has h hh)]
    · rw [hskip _ k _ _ hcounts, hskip _ k _ _ ((hshared.has h hh k) ▸ hcounts)]
  · refine fun k hk => hskip _ k _ _ fun hcounts => hk (hshared.closed h hh k ?_)
    exact (hshared.has h hh k).trans hcounts.1
  · exact fun k hk => hskip _ k _ _ fun hcounts => hk (hshared.closed h hh k hcounts.1)

omit [Postcard Actor.ActorOp] [Postcard AclOp] in
/-- Walks that hold an op alike read the same facts of the same standing. -/
theorem judgement_congr (hshared : Shared walk walk' l l' A) (hh : h ∈ A) (op : AclOp) :
    Ask.judgement op h walk.genesis.founders walk.ancestors =
      Ask.judgement op h walk'.genesis.founders walk'.ancestors := by
  simp only [Ask.judgement, Ask.withinCeiling, hshared.genesis, hshared.has h hh]

/-- At standings that agree on what is read at both, an op gets the same verdict. -/
theorem verdictAt_eq {s s' : PassOne} (h : Text)
    (hagree : ∀ so op, walk.nodes[h]? = some so → walk.decoded h = some op →
      walk.deviceSpeaksFor so.author op.by_ op.actorAsof = true →
        ∀ φ : Fact, (Ask.judgement op h walk.genesis.founders walk.ancestors).reads s φ →
          (Ask.judgement op h walk.genesis.founders walk.ancestors).reads s' φ →
            φ.holds s = φ.holds s') : walk.verdictAt s h = walk.verdictAt s' h := by
  unfold verdictAt
  cases hso : walk.nodes[h]? with
  | none => rfl
  | some so =>
      cases hop : walk.decoded h with
      | none => rfl
      | some op =>
          dsimp only
          cases hspeaks : walk.deviceSpeaksFor so.author op.by_ op.actorAsof with
          | false => rfl
          | true =>
              rw [Bool.true_and, Bool.true_and, Bool.eq_iff_iff, ← Ask.answer_judgement,
                ← Ask.answer_judgement]
              exact Inquiry.determined _ s s' (hagree so op hso hop hspeaks)

/-- **An op that is undisturbed in two walks gets the same verdict in both.** -/
theorem verdictIn_eq (hshared : Shared walk walk' l l' A) (hh : h ∈ A)
    (hundisturbed : walk.Undisturbed l h) (hundisturbed' : walk'.Undisturbed l' h) :
    walk.verdictIn l h = walk'.verdictIn l' h := by
  induction hundisturbed with
  | @intro h facts ancestors ih =>
      obtain ⟨facts', ancestors'⟩ := hundisturbed'
      have hread : ∀ φ, walk.Reads l h φ → walk'.Reads l' h φ →
          φ.holds (walk.standingAt l h) = φ.holds (walk'.standingAt l' h) := by
        intro φ hφ hφ'
        rw [standingAt, standingAt, holds_standingAfter, holds_standingAfter,
          ← settled_filter_of_removable (facts φ hφ),
          ← settled_filter_of_removable (facts' φ hφ'), hshared.genesis]
        refine settled_congr (filter_authorizedBefore hshared hh fun k op hhas hop hsettles => ?_)
        have hkA := hshared.closed h hh k hhas
        have hop' : walk'.decoded k = some op := (hshared.same k hkA).opOf_eq.symm.trans hop
        exact ih φ hφ k op hhas hop hsettles hkA
          (ancestors' φ hφ' k op ((hshared.has h hh k).symm.trans hhas) hop' hsettles)
      rw [verdictIn, verdictIn,
        ← verdictAt_congr hshared.genesis hshared.events (hshared.same h hh) (hshared.has h hh)]
      refine verdictAt_eq h fun so op hso hop hspeaks φ hφ hφ' =>
        hread φ ⟨so, op, hso, hop, hspeaks, hφ⟩ ?_
      have hsame := hshared.same h hh
      rw [Nodes.SameAt, hso, Option.map_some] at hsame
      obtain ⟨so', hso', hcontent⟩ := Option.map_eq_some_iff.mp hsame.symm
      refine ⟨so', op, hso', (hshared.same h hh).opOf_eq.symm.trans hop, ?_, ?_⟩
      · rw [SignedNode.author_of_content hcontent, deviceSpeaksFor, ← hshared.genesis,
          ← hshared.events]
        exact hspeaks
      · rwa [← judgement_congr hshared hh]

/-- Where the device speaks for the author, the verdict is the judgement. -/
theorem verdictIn_eq_judgeOp {so : SignedOp} {op : AclOp} (hso : walk.nodes[h]? = some so)
    (hop : walk.decoded h = some op)
    (hspeaks : walk.deviceSpeaksFor so.author op.by_ op.actorAsof = true) :
    walk.verdictIn l h =
      judgeOp op h walk.genesis.founders (walk.standingAt l h) walk.ancestors := by
  rw [verdictIn, verdictAt, hso, hop]
  dsimp only
  rw [hspeaks, Bool.true_and]

/-- An admin's op passes the first test, that its author is no agent. -/
theorem admin_and_iff {a : ActorId} {rest : Bool} :
    (!(walk.standingAt l h).agentsNow.contains a &&
        (decide (a ∈ (walk.standingAt l h).admins) && rest)) = true ↔
      LeftAdmin walk.genesis.founders (walk.authorizedBefore l h) a ∧ rest = true := by
  rw [leftAdmin_iff, Bool.and_eq_true, Bool.and_eq_true, Bool.not_eq_true', decide_eq_true_eq]
  constructor
  · exact And.right
  · exact fun hrest => ⟨judgedRun_standingAt.not_agent_of_admin hrest.1, hrest⟩

/-- **An op any admin may author** is authorized while its author is an admin. -/
theorem verdictIn_of_takesAdmin {so : SignedOp} {op : AclOp} (hso : walk.nodes[h]? = some so)
    (hop : walk.decoded h = some op) (haction : op.action.takesAdmin = true)
    (hspeaks : walk.deviceSpeaksFor so.author op.by_ op.actorAsof = true) :
    walk.verdictIn l h = true ↔
      LeftAdmin walk.genesis.founders (walk.authorizedBefore l h) op.by_ := by
  have hplain : judgeOp op h walk.genesis.founders (walk.standingAt l h) walk.ancestors =
      (!(walk.standingAt l h).agentsNow.contains op.by_ &&
        (decide (op.by_ ∈ (walk.standingAt l h).admins) && true)) := by
    rw [Bool.and_true]
    unfold judgeOp
    cases hact : op.action with
    | setGrants actor grants => rfl
    | revokeInvite nonce => rfl
    | _ => simp [hact, AclAction.takesAdmin] at haction
  rw [verdictIn_eq_judgeOp hso hop hspeaks, hplain, admin_and_iff]
  exact and_iff_left rfl

end Walk

section Replay

variable (genesis : Genesis) (events : List Actor.SignedEvent) (ops ops' : List SignedOp)

/-- The verdicts of a complete replay. -/
def verdictsOf : List (Text × Bool) := (replayCheckpointed genesis events ops).1.verdicts

/-- The ops a complete replay has authorized when it comes to `h`. -/
def authorizedBefore (h : Text) : Authorized :=
  (Walk.complete genesis events ops).authorizedBefore (topoOrder (opNodes genesis ops)) h

/-- An op no other disturbs the judgement of, among `ops`. -/
def Undisturbed (h : Text) : Prop :=
  (Walk.complete genesis events ops).Undisturbed (topoOrder (opNodes genesis ops)) h

/-- The two op sets have the same verdict on `h`. -/
def SameVerdict (h : Text) : Prop :=
  ∀ ok, (h, ok) ∈ verdictsOf genesis events ops ↔ (h, ok) ∈ verdictsOf genesis events ops'

variable {genesis events ops ops'}

theorem mem_verdictsOf {h : Text} {ok : Bool} : (h, ok) ∈ verdictsOf genesis events ops ↔
    h ∈ topoOrder (opNodes genesis ops) ∧
      (Walk.complete genesis events ops).verdictIn (topoOrder (opNodes genesis ops)) h = ok := by
  have heq : verdictsOf genesis events ops = (topoOrder (opNodes genesis ops)).map fun k =>
      (k, (Walk.complete genesis events ops).verdictIn (topoOrder (opNodes genesis ops)) k) := by
    rw [verdictsOf, replayCheckpointed_eq]
    exact Walk.verdictsFrom_eq_map (nodup_topoOrder _)
  rw [heq, List.mem_map]
  constructor
  · rintro ⟨k, hk, hpair⟩
    obtain ⟨rfl, rfl⟩ := Prod.mk.inj hpair
    exact ⟨hk, rfl⟩
  · rintro ⟨hh, rfl⟩
    exact ⟨h, hh, rfl⟩

variable {A : Finset Text}

omit [Postcard Actor.ActorOp] [Postcard AclOp] in
theorem shared_complete (hA : SharedHistory (opNodes genesis ops) (opNodes genesis ops') A) :
    Walk.Shared (Walk.complete genesis events ops) (Walk.complete genesis events ops')
      (topoOrder (opNodes genesis ops)) (topoOrder (opNodes genesis ops')) A where
  genesis := rfl
  events := rfl
  same := hA.same
  has _ hh a := hA.has_eq hh a
  closed _ hh _ := hA.mem_of_has hh
  order := hA.topoOrder_filter
  nodup := nodup_topoOrder _
  nodup' := nodup_topoOrder _

theorem sameVerdict_of_eq (hA : SharedHistory (opNodes genesis ops) (opNodes genesis ops') A)
    {h : Text} (hh : h ∈ A)
    (heq : (Walk.complete genesis events ops).verdictIn (topoOrder (opNodes genesis ops)) h =
      (Walk.complete genesis events ops').verdictIn (topoOrder (opNodes genesis ops')) h) :
    SameVerdict genesis events ops ops' h := by
  intro ok
  rw [mem_verdictsOf, mem_verdictsOf, mem_topoOrder, mem_topoOrder,
    (hA.same h hh).present_iff, heq]

/-- **The verdict on an op of a shared history.**  It is the same in two op sets in which the op
is undisturbed.  The verdict on an op any admin may author, by a device of its author, is the
same exactly when the last authorized op before it to seat or remove the author left them an
admin in both, or in neither. -/
theorem verdicts_shared (hA : SharedHistory (opNodes genesis ops) (opNodes genesis ops') A)
    {h : Text} (hh : h ∈ A) :
    (Undisturbed genesis events ops h → Undisturbed genesis events ops' h →
      SameVerdict genesis events ops ops' h) ∧
    ∀ (so : SignedOp) (op : AclOp), (opNodes genesis ops)[h]? = some so →
      (opNodes genesis ops).opOf h = some op → op.action.takesAdmin = true →
      (Walk.complete genesis events ops).deviceSpeaksFor so.author op.by_ op.actorAsof = true →
        (SameVerdict genesis events ops ops' h ↔
          (LeftAdmin genesis.founders (authorizedBefore genesis events ops h) op.by_ ↔
            LeftAdmin genesis.founders (authorizedBefore genesis events ops' h) op.by_)) := by
  have hshared : Walk.Shared (Walk.complete genesis events ops)
      (Walk.complete genesis events ops') (topoOrder (opNodes genesis ops))
      (topoOrder (opNodes genesis ops')) A := shared_complete hA
  refine ⟨fun hundisturbed hundisturbed' => ?_, fun so op hso hop haction hspeaks => ?_⟩
  · exact sameVerdict_of_eq hA hh (Walk.verdictIn_eq hshared hh hundisturbed hundisturbed')
  · have hsame := hA.same h hh
    rw [Nodes.SameAt, hso, Option.map_some] at hsame
    obtain ⟨so', hso', hcontent⟩ := Option.map_eq_some_iff.mp hsame.symm
    have hop' : (Walk.complete genesis events ops').decoded h = some op :=
      (hA.same h hh).opOf_eq.symm.trans hop
    have hspeaks' : (Walk.complete genesis events ops').deviceSpeaksFor so'.author op.by_
        op.actorAsof = true := by
      rw [SignedNode.author_of_content hcontent]
      exact hspeaks
    have hleft : (Walk.complete genesis events ops).verdictIn (topoOrder (opNodes genesis ops)) h =
        true ↔ LeftAdmin genesis.founders (authorizedBefore genesis events ops h) op.by_ :=
      Walk.verdictIn_of_takesAdmin hso hop haction hspeaks
    have hleft' : (Walk.complete genesis events ops').verdictIn (topoOrder (opNodes genesis ops'))
        h = true ↔ LeftAdmin genesis.founders (authorizedBefore genesis events ops' h) op.by_ :=
      Walk.verdictIn_of_takesAdmin hso' hop' haction hspeaks'
    rw [← hleft, ← hleft', ← Bool.eq_iff_iff]
    refine ⟨fun hverdict => ?_, sameVerdict_of_eq hA hh⟩
    have hmem : h ∈ topoOrder (opNodes genesis ops) :=
      mem_topoOrder.mpr (Nodes.mem_graph.mpr ⟨so, hso⟩)
    exact (mem_verdictsOf.mp ((hverdict _).mp (mem_verdictsOf.mpr ⟨hmem, rfl⟩))).2.symm

end Replay

end Position

/-! ### A removal that sorts first

Founder 1 adds `guest`; concurrently founder 0 removes founder 1. -/

namespace Demo

def visitor : ActorId := ⟨[118]⟩

def leakTable : List AclOp :=
  [op 0 (.removeMember (actor 1)) none, op 1 (.addMember visitor [.write]) none]

def addition : SignedOp := sign 1 1 []

def removal : SignedOp := sign 0 0 []

end Demo

/-- The addition has no parents, and alone it is authorized; once the concurrent
removal of its author is held too, it is not. -/
theorem verdicts_differ_on_concurrent_removal :
    letI := idealCrypto
    letI := Demo.actorCodec
    letI := tableCodec Demo.leakTable
    Demo.addition.parents = [] ∧
      (Demo.hash Demo.addition, true) ∈
        verdictsOf Demo.genesis Demo.events [Demo.addition] ∧
      (Demo.hash Demo.addition, false) ∈
        verdictsOf Demo.genesis Demo.events [Demo.addition, Demo.removal] := by
  decide +kernel

/-! ### An addition that sorts first

Founder 1 revokes an invite; concurrently founder 0 adds `guest`. -/

namespace Demo

def apartTable : List AclOp :=
  [op 0 (.addMember visitor [.write]) none, op 1 (.revokeInvite ⟨[9]⟩) none]

def seating : SignedOp := sign 0 0 []

def withdrawal : SignedOp := sign 1 1 []

end Demo

/-- What is read of an op any admin may author: whether its author is an agent, or an admin. -/
theorem reads_of_takesAdmin [Crypto] {op : AclOp} {h : Text} {founders : Finset ActorId}
    {ancestors : Ancestors} {s : PassOne} {φ : Fact} (haction : op.action.takesAdmin = true)
    (hreads : (Ask.judgement op h founders ancestors).reads s φ) :
    φ = .admin op.by_ ∨ ∃ sponsor, φ = .agentOf op.by_ sponsor := by
  have hadmin : ((Ask.isAgent op.by_).not.and (.of (.admin op.by_))).reads s φ →
      φ = .admin op.by_ ∨ ∃ sponsor, φ = .agentOf op.by_ sponsor := by
    rintro (hagent | ⟨-, hadmin⟩)
    · exact Or.inr hagent
    · exact Or.inl hadmin
  unfold Ask.judgement at hreads
  cases hact : op.action with
  | setGrants actor grants =>
      rw [hact] at hreads
      exact hadmin hreads
  | revokeInvite nonce =>
      rw [hact] at hreads
      exact hadmin hreads
  | _ => simp [hact, AclAction.takesAdmin] at haction

/-- An op without ancestors whose author's standing none settles is undisturbed. -/
theorem undisturbed_of_root [Crypto] [Postcard Actor.ActorOp] [Postcard AclOp] {genesis : Genesis}
    {events : List Actor.SignedEvent} {ops : List SignedOp} {h : Text} {op : AclOp}
    (hroot : (opAncestors genesis ops)[h]? = some ∅) (hop : (opNodes genesis ops).opOf h = some op)
    (haction : op.action.takesAdmin = true)
    (hsilent : ∀ e ∈ authorizedBefore genesis events ops h,
      (Fact.admin op.by_).settledBy e.2 e.1 = none ∧
        ∀ sponsor, (Fact.agentOf op.by_ sponsor).settledBy e.2 e.1 = none) :
    Undisturbed genesis events ops h := by
  have hnone : ∀ k, (opAncestors genesis ops).has h k = false := by
    intro k
    rw [Ancestors.has, hroot]
    simp
  refine Walk.Undisturbed.intro (fun φ hφ => removable_of_silent fun e he _ => ?_)
    fun φ _ k _ hhas => absurd hhas (by rw [Bool.not_eq_true]; exact hnone k)
  obtain ⟨so, op', -, hop', -, hreads⟩ := hφ
  cases hop.symm.trans hop'
  obtain ⟨hadmin, hagent⟩ := hsilent e he
  rcases reads_of_takesAdmin haction hreads with rfl | ⟨sponsor, rfl⟩
  · exact hadmin
  · exact hagent sponsor

/-- The revocation of the invite is authorized alone, and stays so when the addition before it is
held too. -/
theorem verdicts_shared_concurrent_addition :
    letI := idealCrypto
    letI := Demo.actorCodec
    letI := tableCodec Demo.apartTable
    SameVerdict Demo.genesis Demo.events [Demo.withdrawal] [Demo.seating, Demo.withdrawal]
      (Demo.hash Demo.withdrawal) := by
  let _ := idealCrypto
  let _ := Demo.actorCodec
  let _ := tableCodec Demo.apartTable
  have hroot : ∀ qs : List SignedOp, (opNodes Demo.genesis qs).parentsOf
      (Demo.hash Demo.withdrawal) = [] →
        (opNodes Demo.genesis qs).graph.ParentClosed {Demo.hash Demo.withdrawal} := by
    intro qs hnone k hk p hedge
    obtain rfl := Finset.mem_singleton.mp hk
    have hp : p ∈ (opNodes Demo.genesis qs).parentsOf (Demo.hash Demo.withdrawal) := hedge.2.2
    rw [hnone] at hp
    cases hp
  have hshared : SharedHistory (opNodes Demo.genesis [Demo.withdrawal])
      (opNodes Demo.genesis [Demo.seating, Demo.withdrawal]) {Demo.hash Demo.withdrawal} := by
    refine ⟨fun k hk => ?_, hroot _ (by decide +kernel), hroot _ (by decide +kernel)⟩
    obtain rfl := Finset.mem_singleton.mp hk
    unfold Nodes.SameAt
    decide +kernel
  have hbefore : authorizedBefore Demo.genesis Demo.events [Demo.withdrawal]
      (Demo.hash Demo.withdrawal) = [] := by decide +kernel
  have hbefore' : authorizedBefore Demo.genesis Demo.events [Demo.seating, Demo.withdrawal]
      (Demo.hash Demo.withdrawal) =
        [(Demo.hash Demo.seating, Demo.op 0 (.addMember Demo.visitor [.write]) none)] := by
    decide +kernel
  have hop : ∀ qs : List SignedOp, (opNodes Demo.genesis qs).opOf (Demo.hash Demo.withdrawal) =
      some (Demo.op 1 (.revokeInvite ⟨[9]⟩) none) →
        (opAncestors Demo.genesis qs)[Demo.hash Demo.withdrawal]? = some ∅ →
        (∀ e ∈ authorizedBefore Demo.genesis Demo.events qs (Demo.hash Demo.withdrawal),
          e.2 = Demo.op 0 (.addMember Demo.visitor [.write]) none) →
          Undisturbed Demo.genesis Demo.events qs (Demo.hash Demo.withdrawal) := by
    intro qs hop hnone hall
    refine undisturbed_of_root hnone hop rfl fun e he => ?_
    have hother : Demo.visitor ≠ Demo.actor 1 := by decide +kernel
    rw [hall e he]
    exact ⟨by simp [Fact.settledBy, Demo.op, hother],
      fun sponsor => by simp [Fact.settledBy, Demo.op, hother]⟩
  refine (verdicts_shared hshared (Finset.mem_singleton_self _)).1
    (hop _ (by decide +kernel) (by decide +kernel) ?_)
    (hop _ (by decide +kernel) (by decide +kernel) ?_)
  · rw [hbefore]
    exact fun e he => absurd he List.not_mem_nil
  · rw [hbefore']
    exact fun e he => by rw [List.mem_singleton.mp he]

end Acl

end Lait
