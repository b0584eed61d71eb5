import Lait.Acl.Replay

/-!
# The continuation equals the complete replay

`replayContinue` resumes from a checkpoint and walks only the ops the checkpoint
does not hold.  The result is that of a complete replay because of the domination
test: every suffix op that reaches outside the suffix names all heads of the
checkpointed ops, so each suffix op descends from all of them (`dominates`).
From there:

* the checkpointed ops are closed under parents, since a suffix op that one of
  them named would be its own ancestor (`prior_closed`);
* Kahn's order of the union is the checkpointed order followed by the suffix's
  (`topoOrder_union`), which is `ParentGraph.KahnRun.append`;
* nothing the checkpointed ops are judged by has changed, so their verdicts and
  their standing stay (`Extension.run_prior`).

The checkpointed ops are recognised by hash alone and not verified again.
`replayContinue_eq` is about op sets that hold nothing else under a checkpointed
hash, as a map keyed by hash does; `continuation_takes_substitute` shows what
happens otherwise.
-/

namespace Lait

namespace Acl

/-- The heads are the maximal present nodes. -/
theorem mem_headsOf {nodes : Nodes} {h : Text} : h ∈ headsOf nodes ↔ nodes.graph.IsHead h := by
  have hreferenced : h ∈ nodes.toList.flatMap (fun entry =>
      entry.2.parents.filter fun p => nodes.contains p) ↔
      nodes.contains h = true ∧ ∃ k ∈ nodes.graph.nodes, h ∈ nodes.graph.parents k := by
    simp only [List.mem_flatMap, List.mem_filter, Prod.exists, BTreeMap.mem_toList_iff]
    constructor
    · rintro ⟨k, so, hso, hp, hpresent⟩
      refine ⟨hpresent, k, Nodes.mem_graph.mpr ⟨so, hso⟩, ?_⟩
      rwa [Nodes.parentsOf_eq hso]
    · rintro ⟨hpresent, k, hk, hp⟩
      obtain ⟨so, hso⟩ := Nodes.mem_graph.mp hk
      rw [Nodes.parentsOf_eq hso] at hp
      exact ⟨k, so, hso, hp, hpresent⟩
  rw [headsOf, Bytes.mem_sort, List.mem_filter, decide_eq_true_eq, hreferenced,
    BTreeMap.mem_keys_iff, ← Nodes.mem_graph, ParentGraph.IsHead]
  refine and_congr_right fun hh => ?_
  rw [← Nodes.mem_graph_iff_contains]
  constructor
  · exact fun hnot k hk hp => hnot ⟨hh, k, hk, hp⟩
  · rintro hhead ⟨-, k, hk, hp⟩
    exact hhead k hk hp

/-- Maps that hold everything alike have the same heads. -/
theorem headsOf_congr {nodes nodes' : Nodes} (hsame : ∀ h, nodes.SameAt nodes' h) :
    headsOf nodes = headsOf nodes' := by
  rw [headsOf, headsOf, Bytes.sort_eq_sort_iff]
  refine (List.perm_ext_iff_of_nodup (nodes.nodup_keys.filter _)
    (nodes'.nodup_keys.filter _)).mpr fun h => ?_
  have hmem : ∀ m : Nodes, (h ∈ m.keys.filter fun h => h ∉ m.toList.flatMap fun entry =>
      entry.2.parents.filter fun p => m.contains p) ↔ m.graph.IsHead h := by
    intro m
    rw [← mem_headsOf, headsOf, Bytes.mem_sort]
  rw [hmem, hmem, ParentGraph.IsHead, ParentGraph.IsHead, (hsame h).present_iff]
  refine and_congr_right fun _ => forall_congr' fun k => ?_
  rw [(hsame k).present_iff, (hsame k).parents_iff]

section Continue

variable [Crypto]

/-- The split of a continuation's input, one map at a time. -/
theorem splitSuffix_eq (spaceId : SpaceId) (prior : Text → Bool) (ops : List SignedOp) :
    splitSuffix spaceId prior ops =
      (indexWhere (fun so => prior so.hash || so.verifySig ACL_DOMAIN spaceId) ops,
        indexWhere (fun so => !prior so.hash && so.verifySig ACL_DOMAIN spaceId) ops) := by
  induction ops using List.reverseRecOn with
  | nil => rfl
  | append_singleton ops so ih =>
      rw [splitSuffix, List.foldl_append, List.foldl_cons, List.foldl_nil, ← splitSuffix, ih]
      simp only [indexWhere, List.foldl_append, List.foldl_cons, List.foldl_nil]
      by_cases hprior : prior so.hash = true <;>
        by_cases hverify : so.verifySig ACL_DOMAIN spaceId = true <;> simp [hprior, hverify]

end Continue

/-! ## Domination -/

/-- What the domination argument is about: the verified ops of a smaller set
(`prior`) and of a larger one (`union`), and the suffix between them. -/
structure Extension (prior union suffix : Nodes) : Prop where
  acyclic : union.graph.Acyclic
  kept : ∀ h ∈ prior.graph.nodes, prior.SameAt union h
  fresh : ∀ h, h ∈ suffix.graph.nodes ↔ h ∈ union.graph.nodes ∧ h ∉ prior.graph.nodes
  suffixKept : ∀ h ∈ suffix.graph.nodes, suffix.SameAt union h
  dominated : ∀ (h : Text) (so : SignedOp), suffix[h]? = some so →
    (so.parents = [] ∨ ∃ p ∈ so.parents, p ∉ suffix.graph.nodes) →
      ∀ k, prior.graph.IsHead k → k ∈ so.parents

namespace Extension

variable {prior union suffix : Nodes}

theorem prior_subset (hext : Extension prior union suffix) :
    prior.graph.nodes ⊆ union.graph.nodes :=
  fun h hh => (hext.kept h hh).present_iff.mp hh

theorem prior_ancestor (hext : Extension prior union suffix) {a h : Text}
    (ha : prior.graph.Ancestor a h) : union.graph.Ancestor a h :=
  ha.mono hext.prior_subset fun k hk _ hp => (hext.kept k hk).parents_iff.mp hp

theorem suffix_ancestor (hext : Extension prior union suffix) {a h : Text}
    (ha : suffix.graph.Ancestor a h) : union.graph.Ancestor a h :=
  ha.mono (fun k hk => ((hext.fresh k).mp hk).1)
    fun k hk _ hp => (hext.suffixKept k hk).parents_iff.mp hp

theorem prior_acyclic (hext : Extension prior union suffix) : prior.graph.Acyclic :=
  fun h hh => hext.acyclic h (hext.prior_ancestor hh)

theorem suffix_acyclic (hext : Extension prior union suffix) : suffix.graph.Acyclic :=
  fun h hh => hext.acyclic h (hext.suffix_ancestor hh)

/-- **Domination.**  Every suffix op descends from every prior one: above it in
the suffix there is one that names no suffix op, and that one names all heads. -/
theorem dominates (hext : Extension prior union suffix) {s : Text}
    (hs : s ∈ suffix.graph.nodes) {p : Text} (hp : p ∈ prior.graph.nodes) :
    union.graph.Ancestor p s := by
  obtain ⟨s₀, hs₀, hsource, hpath⟩ := hext.suffix_acyclic.exists_source hs
  obtain ⟨so, hso⟩ := Nodes.mem_graph.mp hs₀
  obtain ⟨k, hhead, hpk⟩ := hext.prior_acyclic.exists_head hp
  have hreaches : so.parents = [] ∨ ∃ q ∈ so.parents, q ∉ suffix.graph.nodes := by
    cases hpar : so.parents with
    | nil => exact Or.inl rfl
    | cons q qs =>
        refine Or.inr ⟨q, List.mem_cons_self, hsource q ?_⟩
        rw [Nodes.parentsOf_eq hso, hpar]
        exact List.mem_cons_self
  have hnames : k ∈ suffix.graph.parents s₀ := by
    rw [Nodes.parentsOf_eq hso]
    exact hext.dominated s₀ so hso hreaches k hhead
  have hedge : union.graph.Edge k s₀ := ⟨hext.prior_subset hhead.1, ((hext.fresh s₀).mp hs₀).1,
    (hext.suffixKept s₀ hs₀).parents_iff.mp hnames⟩
  have hps₀ : union.graph.Ancestor p s₀ := by
    rcases hpk with rfl | hpk
    · exact hedge.ancestor
    · exact (hext.prior_ancestor hpk).trans hedge.ancestor
  rcases hpath with rfl | hpath
  · exact hps₀
  · exact hps₀.trans (hext.suffix_ancestor hpath)

/-- The prior ops are closed under parents. -/
theorem prior_closed (hext : Extension prior union suffix) :
    union.graph.ParentClosed prior.graph.nodes := by
  intro h hh p hedge
  by_contra hp
  have hs := (hext.fresh p).mpr ⟨hedge.1, hp⟩
  exact hext.acyclic p (hedge.ancestor.trans (hext.dominates hs hh))

theorem sharedHistory (hext : Extension prior union suffix) :
    SharedHistory prior union prior.graph.nodes :=
  ⟨hext.kept, fun _ _ _ hedge => hedge.1, hext.prior_closed⟩

/-- **The order of the union** is the prior order and then the suffix's. -/
theorem topoOrder_union (hext : Extension prior union suffix) :
    topoOrder union = topoOrder prior ++ topoOrder suffix := by
  have hnodes : prior.graph.nodes = (union.graph.restrict prior.graph.nodes).nodes :=
    (Finset.inter_eq_right.mpr hext.prior_subset).symm
  have hsnodes : suffix.graph.nodes =
      (union.graph.restrict (union.graph.nodes \ prior.graph.nodes)).nodes := by
    refine Finset.ext fun h => ?_
    rw [hext.fresh, ParentGraph.mem_restrict_nodes, Finset.mem_sdiff]
    exact ⟨fun hh => ⟨hh.1, hh⟩, And.right⟩
  have hprior := (topoOrder_kahnRun hext.prior_acyclic).congr_graph hnodes
    fun h hh _ => (hext.kept h hh).parents_iff
  have hsuffix := (topoOrder_kahnRun hext.suffix_acyclic).congr_graph hsnodes
    fun h hh _ => (hext.suffixKept h hh).parents_iff
  refine (topoOrder_kahnRun hext.acyclic).unique (ParentGraph.KahnRun.append hext.prior_closed
    (fun s hs hnot p hp => hext.dominates ((hext.fresh s).mpr ⟨hs, hnot⟩) hp) hprior
    (fun p hp => mem_topoOrder.mpr hp) hsuffix)

end Extension

section Walks

variable [Crypto] [Postcard Actor.ActorOp] [Postcard AclOp]

/-- Two walks that give the ops of a list the same verdicts, applied alike, give
the same verdicts and standing throughout. -/
theorem Walk.run_congr {walk walk' : Walk} {l : List Text}
    (hverdict : ∀ h ∈ l, ∀ s, walk.verdictAt s h = walk'.verdictAt s h)
    (hdecoded : ∀ h ∈ l, walk.decoded h = walk'.decoded h) (s : PassOne) :
    walk.verdictsFrom s l = walk'.verdictsFrom s l ∧
      walk.standingFrom s l = walk'.standingFrom s l := by
  induction l generalizing s with
  | nil => exact ⟨rfl, rfl⟩
  | cons h l ih =>
      have hadvance : walk.advance s h = walk'.advance s h := by
        rw [advance, advance, hverdict h List.mem_cons_self, hdecoded h List.mem_cons_self]
      obtain ⟨hv, hs⟩ := ih (fun k hk => hverdict k (List.mem_cons_of_mem _ hk))
        (fun k hk => hdecoded k (List.mem_cons_of_mem _ hk)) (walk'.advance s h)
      rw [verdictsFrom, verdictsFrom, hadvance, hv, hverdict h List.mem_cons_self]
      refine ⟨rfl, ?_⟩
      rw [standingFrom, standingFrom, List.foldl_cons, List.foldl_cons, hadvance]
      exact hs

omit [Crypto] [Postcard Actor.ActorOp] in
/-- Two walks that hold everything alike end in the same checkpoint and audit. -/
theorem Walk.checkpoint_congr {walk walk' : Walk} (hgenesis : walk.genesis = walk'.genesis)
    (hancestors : walk.ancestors = walk'.ancestors)
    (hsame : ∀ h, walk.nodes.SameAt walk'.nodes h) (s : PassOne) (v : List (Text × Bool)) :
    walk.checkpoint s v = walk'.checkpoint s v ∧ walk.auditOf v = walk'.auditOf v := by
  have hdecoded : walk.decoded = walk'.decoded := funext fun h => (hsame h).opOf_eq
  refine ⟨?_, List.filterMap_congr fun e _ => ?_⟩
  · rw [checkpoint, checkpoint, hgenesis, hdecoded, hancestors, headsOf_congr hsame]
  · have hnode := hsame e.1
    rw [Nodes.SameAt] at hnode
    rw [hdecoded]
    cases hn : walk.nodes[e.1]? <;> cases hn' : walk'.nodes[e.1]? <;> simp only [hn, hn',
      Option.map_some, Option.map_none, Option.some.injEq, reduceCtorEq] at hnode ⊢
    simp only [auditEntry, SignedNode.author_of_content hnode]

end Walks

/-! ## The continuation -/

section Replay

variable [Crypto] [Postcard Actor.ActorOp] [Postcard AclOp]
variable {genesis : Genesis} {events : List Actor.SignedEvent} {ops ops' : List SignedOp}

/-- The hashes a checkpoint holds are those of its verified ops. -/
theorem mem_prior {h : Text} :
    ((replayCheckpointed genesis events ops).1.verdicts.map Prod.fst).contains h = true ↔
      h ∈ (opNodes genesis ops).graph.nodes := by
  rw [map_fst_verdicts, List.contains_iff_mem, mem_topoOrder]

/-- A checkpoint resumes the standing its replay ended at: the admission flag of
the materialized state is that of pass 1. -/
theorem standing_replayCheckpointed :
    (replayCheckpointed genesis events ops).1.standing = finalStanding genesis events ops := by
  have hrun := replayCheckpointed_judged genesis events ops
  have hflag : (replay genesis events ops).readMemberAdmission =
      (finalStanding genesis events ops).memberAdmission := by
    rw [hrun.memberAdmission_eq, replay_eq]
    exact memberAdmission_materials genesis.foundingActors _
  rw [replay] at hflag
  rw [ReplayCheckpoint.standing, hflag, replayCheckpointed_eq]
  rfl

/-- No op of `ops'` stands under a checkpointed hash with another content. -/
def KeepsCheckpointed (genesis : Genesis) (ops ops' : List SignedOp) : Prop :=
  ∀ so ∈ ops', ∀ n, (opNodes genesis ops)[so.hash]? = some n → so.content = n.content

omit [Postcard Actor.ActorOp] [Postcard AclOp] in
/-- A hash of the smaller set is held alike in the larger. -/
theorem KeepsCheckpointed.sameAt (hkeeps : KeepsCheckpointed genesis ops ops')
    (hsub : ∀ so ∈ ops, so ∈ ops') {h : Text} (hh : h ∈ (opNodes genesis ops).graph.nodes) :
    (opNodes genesis ops).SameAt (opNodes genesis ops') h := by
  obtain ⟨so, hso⟩ := Nodes.mem_graph.mp hh
  obtain ⟨hmem, hverify, rfl⟩ := get_indexVerified hso
  refine Nodes.sameAt_of (iff_of_true hh (Nodes.mem_graph.mpr
    (exists_indexVerified (hsub so hmem) hverify))) fun n n' hn hn' => ?_
  obtain ⟨hmem', -, hhash⟩ := get_indexVerified hn'
  exact (hkeeps n' hmem' n (hhash ▸ hn)).symm

/-- What `splitSuffix` makes of the larger set, under the domination test. -/
theorem extension_of_dominated (hdag : HashesAcyclic)
    (hkeeps : KeepsCheckpointed genesis ops ops') (hsub : ∀ so ∈ ops, so ∈ ops')
    {nodes suffix : Nodes}
    (hsplit : splitSuffix genesis.spaceId
      (fun h => ((replayCheckpointed genesis events ops).1.verdicts.map Prod.fst).contains h) ops' =
        (nodes, suffix))
    (hdom : (BTreeMap.valuesOf suffix).all (dominated
      (fun h => ((replayCheckpointed genesis events ops).1.verdicts.map Prod.fst).contains h)
      (replayCheckpointed genesis events ops).1.heads nodes suffix) = true) :
    Extension (opNodes genesis ops) (opNodes genesis ops') suffix ∧
      ∀ h, nodes.SameAt (opNodes genesis ops') h := by
  set prior := fun h =>
    ((replayCheckpointed genesis events ops).1.verdicts.map Prod.fst).contains h with hpriordef
  have hprior : ∀ h, prior h = true ↔ h ∈ (opNodes genesis ops).graph.nodes := fun h => mem_prior
  rw [splitSuffix_eq, Prod.mk.injEq] at hsplit
  obtain ⟨rfl, rfl⟩ := hsplit
  have hunprior : ∀ {h}, h ∉ (opNodes genesis ops).graph.nodes → prior h = false := fun hnot => by
    rwa [← Bool.not_eq_true, hprior]
  -- Outside the checkpoint both maps index the verified ops.
  have hsuffix : ∀ {h}, h ∉ (opNodes genesis ops).graph.nodes →
      (indexWhere (fun so => !prior so.hash && so.verifySig ACL_DOMAIN genesis.spaceId) ops')[h]? =
        (opNodes genesis ops')[h]? := by
    intro h hnot
    refine indexWhere_congr fun so _ hh => ?_
    rw [hh, hunprior hnot, Bool.not_false, Bool.true_and]
  have hfresh : ∀ {h}, h ∈ (indexWhere (fun so => !prior so.hash &&
      so.verifySig ACL_DOMAIN genesis.spaceId) ops').graph.nodes →
        h ∉ (opNodes genesis ops).graph.nodes := by
    intro h hh hp
    obtain ⟨so, hso⟩ := Nodes.mem_graph.mp hh
    obtain ⟨-, hkeep, rfl⟩ := get_indexWhere hso
    rw [(hprior _).mpr hp] at hkeep
    cases hkeep
  refine ⟨⟨hdag _ _ _, fun h hh => hkeeps.sameAt hsub hh, fun h => ?_, fun h hh => ?_,
    fun h so hso hreaches k hhead => ?_⟩, fun h => ?_⟩
  · constructor
    · intro hh
      exact ⟨(Nodes.sameAt_of_eq (hsuffix (hfresh hh))).present_iff.mp hh, hfresh hh⟩
    · rintro ⟨hunion, hnot⟩
      exact (Nodes.sameAt_of_eq (hsuffix hnot)).present_iff.mpr hunion
  · exact Nodes.sameAt_of_eq (hsuffix (hfresh hh))
  · have hall := List.all_eq_true.mp hdom so (BTreeMap.mem_valuesOf.mpr ⟨h, hso⟩)
    rw [dominated, Bool.and_eq_true, Bool.or_eq_true, Bool.not_eq_true'] at hall
    have hheads : (replayCheckpointed genesis events ops).1.heads = headsOf (opNodes genesis ops) := by
      rw [replayCheckpointed_eq]
      rfl
    have hnames := hall.1.resolve_left fun hno => by
      rw [Bool.or_eq_false_iff, List.isEmpty_eq_false_iff, List.any_eq_false] at hno
      rcases hreaches with hnil | ⟨p, hp, hout⟩
      · exact hno.2 hnil
      · refine hno.1 p hp (Bool.or_eq_true_iff.mpr (Or.inl ?_))
        rw [Bool.not_eq_true', ← Bool.not_eq_true, ← Nodes.mem_graph_iff_contains]
        exact hout
    have hk := List.all_eq_true.mp hnames k (hheads ▸ mem_headsOf.mpr hhead)
    simpa using hk
  · by_cases hh : h ∈ (opNodes genesis ops).graph.nodes
    · -- A checkpointed op is held with the content it was checkpointed with.
      obtain ⟨n, hn⟩ := Nodes.mem_graph.mp hh
      have hunion := (hkeeps.sameAt hsub hh).present_iff.mp hh
      obtain ⟨m, hm⟩ := Nodes.mem_graph.mp hunion
      obtain ⟨hmem, -, rfl⟩ := get_indexVerified hm
      have hkept : prior m.hash = true := (hprior _).mpr hh
      refine Nodes.sameAt_of (iff_of_true (Nodes.mem_graph.mpr (exists_indexWhere hmem ?_)) hunion)
        fun so so' hso hso' => ?_
      · rw [hkept, Bool.true_or]
      · obtain ⟨hmem, -, hhash⟩ := get_indexWhere hso
        obtain ⟨hmem', -, hhash'⟩ := get_indexVerified hso'
        exact (hkeeps so hmem n (hhash ▸ hn)).trans (hkeeps so' hmem' n (hhash' ▸ hn)).symm
    · refine Nodes.sameAt_of_eq (indexWhere_congr fun so _ hhash => ?_)
      rw [hhash, hunprior hh, Bool.false_or]

variable (events) in
/-- **The prior verdicts do not move.** -/
theorem Extension.run_prior {suffix : Nodes}
    (hext : Extension (opNodes genesis ops) (opNodes genesis ops') suffix) (s : PassOne) :
    let walk := Walk.complete genesis events ops
    let walk' := Walk.complete genesis events ops'
    let order := topoOrder (opNodes genesis ops)
    walk.verdictsFrom s order = walk'.verdictsFrom s order ∧
      walk.standingFrom s order = walk'.standingFrom s order := by
  intro walk walk' order
  refine Walk.run_congr (fun h hh t => ?_) (fun h hh => ?_) s
  · have hmem := mem_topoOrder.mp hh
    have hkept : walk.nodes.SameAt walk'.nodes h := hext.kept h hmem
    have hhas : ∀ a, walk.ancestors.has h a = walk'.ancestors.has h a :=
      hext.sharedHistory.has_eq hmem
    exact Walk.verdictAt_congr (show walk.genesis = walk'.genesis from rfl)
      (show walk.events = walk'.events from rfl) hkept hhas t
  · exact (hext.kept h (mem_topoOrder.mp hh)).opOf_eq

/-- **A continuation equals the complete replay**, checkpoint and audit, as long
as the checkpointed hashes stand for what was checkpointed. -/
theorem replayContinue_eq (hdag : HashesAcyclic) (hkeeps : KeepsCheckpointed genesis ops ops')
    (hsub : ∀ so ∈ ops, so ∈ ops') {result : ReplayCheckpoint × List AuditEntry}
    (hresult : replayContinue (replayCheckpointed genesis events ops).1
      (events.map SignedNode.hash).toFinset genesis events ops' = some result) :
    result = replayCheckpointed genesis events ops' := by
  unfold replayContinue at hresult
  rw [if_neg (not_not.mpr rfl)] at hresult
  obtain ⟨⟨nodes, suffix⟩, hsplit⟩ : ∃ pair, splitSuffix genesis.spaceId (fun h =>
      ((replayCheckpointed genesis events ops).1.verdicts.map Prod.fst).contains h) ops' = pair :=
    ⟨_, rfl⟩
  simp only [hsplit] at hresult
  split at hresult
  next => cases hresult
  next =>
    split at hresult
    next => cases hresult
    next hdom =>
      obtain ⟨hext, hsame⟩ := extension_of_dominated hdag hkeeps hsub hsplit (not_not.mp hdom)
      have hancestors := computeAncestors_congr hsame
      let walk : Walk := { genesis, events, nodes, ancestors := computeAncestors nodes }
      let union := Walk.complete genesis events ops'
      let start := PassOne.init genesis.founders
      set prior := topoOrder (opNodes genesis ops)
      set added := topoOrder suffix
      -- The walk of the continuation and the complete walk give the suffix the same verdicts.
      have hrun : ∀ s, walk.verdictsFrom s added = union.verdictsFrom s added ∧
          walk.standingFrom s added = union.standingFrom s added := by
        refine Walk.run_congr (fun h _ t => ?_) fun h _ => (hsame h).opOf_eq
        exact Walk.verdictAt_congr (show walk.genesis = union.genesis from rfl)
          (show walk.events = union.events from rfl) (hsame h)
          (fun a => congrArg (fun m : Ancestors => m.has h a) hancestors) t
      obtain ⟨hverdicts, hstanding⟩ := hext.run_prior events start
      have hresume : (replayCheckpointed genesis events ops).1.standing =
          union.standingFrom start prior := by
        rw [standing_replayCheckpointed]
        exact hstanding
      have hprior : (replayCheckpointed genesis events ops).1.verdicts =
          union.verdictsFrom start prior := by
        rw [replayCheckpointed_eq]
        exact hverdicts
      have hall : union.verdictsFrom start (topoOrder union.nodes) =
          (replayCheckpointed genesis events ops).1.verdicts ++
            walk.verdictsFrom (replayCheckpointed genesis events ops).1.standing added := by
        rw [show topoOrder union.nodes = prior ++ added from hext.topoOrder_union,
          Walk.verdictsFrom_append, hprior, hresume, (hrun _).1]
      have hend : union.standingFrom start (topoOrder union.nodes) =
          walk.standingFrom (replayCheckpointed genesis events ops).1.standing added := by
        rw [show topoOrder union.nodes = prior ++ added from hext.topoOrder_union,
          Walk.standingFrom_append, hresume, (hrun _).2]
      obtain ⟨hcheckpoint, haudit⟩ := Walk.checkpoint_congr
        (show walk.genesis = union.genesis from rfl) hancestors hsame
        (union.standingFrom start (topoOrder union.nodes))
        (union.verdictsFrom start (topoOrder union.nodes))
      have hcomplete : replayCheckpointed genesis events ops' =
          (walk.checkpoint (union.standingFrom start (topoOrder union.nodes))
            (union.verdictsFrom start (topoOrder union.nodes)),
          walk.auditOf (union.verdictsFrom start (topoOrder union.nodes))) := by
        rw [hcheckpoint, haudit]
        exact replayCheckpointed_eq genesis events ops'
      rw [hcomplete, hend, hall]
      simp only [foldl_continueLoop, Option.some.injEq] at hresult
      rw [← hresult, Walk.checkpoint, honoured_append]
      rfl

end Replay

/-! ### A substitute

An op and a second one with its last op byte moved into the author, which leaves
the hash as it is. -/

namespace Demo

def newcomer : ActorId := ⟨[110]⟩

def extendTable : List AclOp :=
  [op 0 (.addMember newcomer [.write]) none, op 1 (.setGrants newcomer []) none]

def base : SignedOp := sign 0 0 []

def next : SignedOp := sign 1 1 [hash base]

def substitute : SignedOp := { base with op := ⟨[]⟩, author := ⟨base.op ++ base.author.asStr⟩ }

end Demo

/-- Where the hash stands for two contents, the continuation takes the one it has
not verified: the op it had authorized is gone from the state. -/
theorem continuation_takes_substitute :
    letI := idealCrypto
    letI := Demo.actorCodec
    letI := tableCodec Demo.extendTable
    Blake3Injective ∧ HashesAcyclic ∧ Demo.base.hash = Demo.substitute.hash ∧
      (replayContinue (replayCheckpointed Demo.genesis Demo.events [Demo.base]).1
        (Demo.events.map SignedNode.hash).toFinset Demo.genesis Demo.events
        [Demo.base, Demo.substitute]).map (fun r => r.1.state.isMember Demo.newcomer) =
          some false ∧
      (replayCheckpointed Demo.genesis Demo.events
        [Demo.base, Demo.substitute]).1.state.isMember Demo.newcomer = true := by
  refine ⟨idealCrypto_blake3, idealCrypto_hashesAcyclic, ?_⟩
  decide +kernel

/-- A child of the only head is a continuation. -/
theorem replayContinue_eq_next :
    letI := idealCrypto
    letI := Demo.actorCodec
    letI := tableCodec Demo.extendTable
    replayContinue (replayCheckpointed Demo.genesis Demo.events [Demo.base]).1
        (Demo.events.map SignedNode.hash).toFinset Demo.genesis Demo.events
        [Demo.next, Demo.base] =
      some (replayCheckpointed Demo.genesis Demo.events [Demo.next, Demo.base]) := by
  let _ := idealCrypto
  let _ := Demo.actorCodec
  let _ := tableCodec Demo.extendTable
  have hsome : (replayContinue (replayCheckpointed Demo.genesis Demo.events [Demo.base]).1
      (Demo.events.map SignedNode.hash).toFinset Demo.genesis Demo.events
      [Demo.next, Demo.base]).isSome = true := by decide +kernel
  obtain ⟨result, hresult⟩ := Option.isSome_iff_exists.mp hsome
  have hkeeps : KeepsCheckpointed Demo.genesis [Demo.base] [Demo.next, Demo.base] := by
    have hone : ContentPerHash [Demo.next, Demo.base] := by decide +kernel
    intro so hso n hn
    obtain ⟨hmem, -, hhash⟩ := get_indexVerified hn
    exact hone so hso n (List.mem_cons_of_mem _ hmem) hhash.symm
  rw [hresult, replayContinue_eq idealCrypto_hashesAcyclic hkeeps (by decide +kernel) hresult]

end Acl

end Lait
