import Lait.Replica.Staging

/-!
# What a durable write can do

`persist` runs through a dozen fallible stages.  Every result about the states a
Replica reaches needs only what the write can leave behind, and that is stated
here once:

* `PersistRun.Drafts` — the stages up to the catalogs.
* `Kept` — the store handle sees what it saw.
* `Persisted` — what a write can leave and answer, by cases: refused before a
  root is signed, abandoned with its root signed, or committed.
  `persist_persisted` says these are all.
-/

namespace Lait.Replica

variable [Crypto] [Loro] [Aead] [Codecs] [ReceiptCodecs]

/-! ## The cases of a write -/

/-- What a durable write went through before its journal commit. -/
structure PersistRun where
  /-- The changed records, materialized and compacted. -/
  changed : BTreeMap BodyKey (Option BodyRecord)
  newObjects : List Bytes
  footprint : GenerationFootprint
  /-- The Replica once its declarations moved. -/
  after : Replica
  staging : Staging
  draft : Draft

/-- The stages of a write up to its catalogs. -/
structure PersistRun.Drafts (run : PersistRun) (replica : Replica) (amb : Ambient)
    (request : PersistRequest) : Prop where
  materialized : (replica.materialize amb request).2 = .ok (run.changed, run.newObjects)
  footprint : (if request.ctx.isSome then
      replica.generationFootprint.afterChanges replica.bodies run.changed
    else .ok replica.generationFootprint) = .ok run.footprint
  staging : stageAll request.declared run.changed.toList (replica.materialize amb request).1
    ⟨∅, [], []⟩ = (run.after, .ok run.staging)
  drafted : run.after.draftCatalogs request run.staging run.newObjects = .ok run.draft

theorem PersistRun.Drafts.staged {run : PersistRun} {self : Replica} {amb : Ambient}
    {request : PersistRequest} (h : run.Drafts self amb request) : Staged self run.after := by
  have hstage := staged_stageAll request.declared run.changed.toList
    (self.materialize amb request).1 ⟨∅, [], []⟩
  rw [h.staging] at hstage
  exact ((working_materialize self amb request).staged).trans hstage

theorem PersistRun.Drafts.materialize_eq {run : PersistRun} {self : Replica} {amb : Ambient}
    {request : PersistRequest} (h : run.Drafts self amb request) :
    self.materialize amb request
      = ((self.materialize amb request).1, .ok (run.changed, run.newObjects)) :=
  Prod.ext rfl h.materialized

theorem PersistRun.Drafts.shapes_eq {run : PersistRun} {self : Replica} {amb : Ambient}
    {request : PersistRequest} (h : run.Drafts self amb request) :
    shapes run.changed = shapes request.changed := materialize_shapes h.materialize_eq

theorem PersistRun.Drafts.redeclares {run : PersistRun} {self : Replica} {amb : Ambient}
    {request : PersistRequest} (h : run.Drafts self amb request) :
    Redeclares self run.after request := by
  have hstage := stageAll_redeclares (working_materialize self amb request) h.shapes_eq ⟨∅, [], []⟩
  rwa [h.staging] at hstage

omit [Crypto] [Loro] [Aead] [Codecs] [ReceiptCodecs] in
theorem applyIndex_eq_ok {ν : Type} [Postcard ν] {index index' : BTreeMap Bytes ν}
    {changes : List (Index.Change ν)} (h : applyIndex index changes = .ok index') :
    index' = Index.applyAll index changes := by
  unfold applyIndex at h
  split at h
  case h_1 hindex =>
    cases h
    exact Index.apply_eq_ok hindex
  case h_2 => cases h

omit [Loro] [Aead] in
/-- A receipt adds itself to the ledger and to nothing else. -/
theorem draftReceipt_eq_ok {draft draft' : Draft} {receipt : RequestReceipt}
    (h : draftReceipt draft receipt = .ok draft') :
    ∃ bytes owned ownership receiptIndex, validateReceiptForStorage receipt = .ok bytes ∧
      insertOwned ∅ (objectRef bytes) .deferredReceipt = .ok owned ∧
      adjustOwnership draft.ownership owned 1 = .ok ownership ∧
      applyIndex draft.receiptIndex
        [(receiptIndexKey receipt.scopeKey, some ⟨receipt.scopeKey, objectRef bytes⟩)]
        = .ok receiptIndex ∧
      draft' = { draft with
        receiptIndex
        receiptCount := draft.receiptCount + 1
        receiptMaterialBytes := draft.receiptMaterialBytes + bytes.length
        receiptObject := some (objectRef bytes)
        ownership
        newObjects := draft.newObjects ++ [bytes] } := by
  unfold draftReceipt at h
  obtain ⟨bytes, hbytes, h⟩ := bind_eq_ok.mp h
  obtain ⟨count, hcount, h⟩ := bind_eq_ok.mp h
  obtain ⟨material, hmaterial, h⟩ := bind_eq_ok.mp h
  obtain ⟨owned, howned, h⟩ := bind_eq_ok.mp h
  obtain ⟨ownership, hownership, h⟩ := bind_eq_ok.mp h
  obtain ⟨receiptIndex, hindex, h⟩ := bind_eq_ok.mp h
  have hcount : count = draft.receiptCount + 1 := by
    cases hadd : checkedAdd draft.receiptCount 1 with
    | none => simp [okOr, hadd] at hcount
    | some n =>
        rw [hadd] at hcount
        rw [← checkedAdd_eq_some hadd]
        exact (Except.ok.inj hcount).symm
  have hmaterial : material = draft.receiptMaterialBytes + bytes.length := by
    cases hadd : checkedAdd draft.receiptMaterialBytes bytes.length with
    | none => simp [okOr, hadd] at hmaterial
    | some n =>
        rw [hadd] at hmaterial
        rw [← checkedAdd_eq_some hadd]
        exact (Except.ok.inj hmaterial).symm
  refine ⟨bytes, owned, ownership, receiptIndex, hbytes, howned, hownership, hindex, ?_⟩
  rw [← Except.ok.inj h, hcount, hmaterial]

omit [Aead] [ReceiptCodecs] in
/-- What the catalogs of a draft are made of, before the receipt. -/
theorem draftBodies_eq_ok {self : Replica} {request : PersistRequest} {staging : Staging}
    {newObjects : List Bytes} {draft : Draft}
    (h : self.draftBodies request staging newObjects = .ok draft) :
    self.durable.isSome ∧ ∃ contentChanges bodyIndex manifestBodies contentIndex,
      request.descriptors.mapM contentChange = .ok contentChanges ∧
      applyIndex self.catalogs.bodyIndex staging.bodyChanges = .ok bodyIndex ∧
      applyIndex self.catalogs.manifestBodies staging.manifestChanges = .ok manifestBodies ∧
      applyIndex self.catalogs.contentIndex contentChanges = .ok contentIndex ∧
      draft =
        { bodyIndex
          manifestBodies
          contentIndex
          receiptIndex := self.catalogs.receiptIndex
          receiptCount := self.receiptCount
          receiptMaterialBytes := self.receiptMaterialBytes
          receiptObject := none
          ownership := staging.ownership
          newObjects } := by
  unfold draftBodies at h
  obtain ⟨contentChanges, hcontent, h⟩ := bind_eq_ok.mp h
  dsimp only at h
  split at h
  · cases h
  case isFalse hdurable =>
    obtain ⟨-, -, h⟩ := bind_eq_ok.mp h
    obtain ⟨bodyIndex, hbody, h⟩ := bind_eq_ok.mp h
    obtain ⟨manifestBodies, hmanifest, h⟩ := bind_eq_ok.mp h
    obtain ⟨contentIndex, hindex, h⟩ := bind_eq_ok.mp h
    have hsome : self.durable.isSome := by
      cases hself : self.durable with
      | none => simp [hself] at hdurable
      | some store => rfl
    exact ⟨hsome, contentChanges, bodyIndex, manifestBodies, contentIndex, hcontent, hbody,
      hmanifest, hindex, (Except.ok.inj h).symm⟩

/-- What the staged Bodies add to the catalogs. -/
theorem PersistRun.Drafts.changes_eq {run : PersistRun} {self : Replica} {amb : Ambient}
    {request : PersistRequest} (h : run.Drafts self amb request) :
    run.staging.bodyChanges = run.changed.toList.map (fun entry =>
      (bodyIndexKey entry.1, entry.2.map fun record => ⟨entry.1, record⟩)) ∧
    run.changed.toList.mapM (self.previewChange request.declared)
      = .ok run.staging.manifestChanges := by
  obtain ⟨hbodies, entries, hentries, hmanifest⟩ :=
    stageAll_changes (BTreeMap.nodup_toList_keys run.changed) h.staging
  obtain ⟨_, hworking⟩ := working_materialize self amb request
  rw [hworking] at hentries
  rw [hbodies, hmanifest]
  exact ⟨rfl, hentries⟩

/-- What the catalogs of a draft are made of. -/
theorem PersistRun.Drafts.draft_eq {run : PersistRun} {self : Replica} {amb : Ambient}
    {request : PersistRequest} (h : run.Drafts self amb request) :
    self.durable.isSome ∧ ∃ contentChanges,
      request.descriptors.mapM contentChange = .ok contentChanges ∧
      applyIndex self.catalogs.bodyIndex run.staging.bodyChanges = .ok run.draft.bodyIndex ∧
      applyIndex self.catalogs.manifestBodies run.staging.manifestChanges
        = .ok run.draft.manifestBodies ∧
      applyIndex self.catalogs.contentIndex contentChanges = .ok run.draft.contentIndex := by
  have hdraft := h.drafted
  obtain ⟨_, _, _, _, hafter⟩ := h.staged
  rw [hafter] at hdraft
  unfold draftCatalogs at hdraft
  obtain ⟨draft, hbase, hdraft⟩ := bind_eq_ok.mp hdraft
  obtain ⟨hsome, contentChanges, bodyIndex, manifestBodies, contentIndex, hcontent, hbody,
    hmanifest, hindex, rfl⟩ := draftBodies_eq_ok hbase
  refine ⟨hsome, contentChanges, hcontent, ?_⟩
  split at hdraft
  case h_1 =>
    rw [← Except.ok.inj hdraft]
    exact ⟨hbody, hmanifest, hindex⟩
  case h_2 =>
    obtain ⟨_, _, _, _, -, -, -, -, hfields⟩ := draftReceipt_eq_ok hdraft
    rw [hfields]
    exact ⟨hbody, hmanifest, hindex⟩

/-- The stages before the root: all of them succeed, or the write is refused. -/
theorem persist_drafts (self : Replica) (amb : Ambient) (request : PersistRequest) :
    (∃ failure, (self.persist amb request).2 = .error failure ∧
      Staged self (self.persist amb request).1 ∧
      Redeclares self (self.persist amb request).1 request) ∨
    ∃ run : PersistRun, run.Drafts self amb request := by
  have hworking := working_materialize self amb request
  unfold persist
  split
  case h_1 failure h =>
    rw [h] at hworking
    exact .inl ⟨failure, rfl, hworking.staged, hworking.redeclares request⟩
  case h_2 self₀ changed newObjects h =>
    rw [h] at hworking
    have hshapes := materialize_shapes h
    have hstage := staged_stageAll request.declared changed.toList self₀ ⟨∅, [], []⟩
    have hredeclares := stageAll_redeclares hworking hshapes ⟨∅, [], []⟩
    split
    case h_1 failure _ =>
      exact .inl ⟨failure, rfl, hworking.staged, hworking.redeclares request⟩
    case h_2 footprint hfootprint =>
      split
      case h_1 failure hstaging =>
        rw [hstaging] at hstage hredeclares
        exact .inl ⟨failure, rfl, hworking.staged.trans hstage, hredeclares⟩
      case h_2 self₁ staging hstaging =>
        rw [hstaging] at hstage hredeclares
        split
        case h_1 failure _ =>
          exact .inl ⟨failure, rfl, hworking.staged.trans hstage, hredeclares⟩
        case h_2 draft hdraft =>
          refine .inr ⟨⟨changed, newObjects, footprint, self₁, staging, draft⟩, ?_⟩
          obtain ⟨_, rfl⟩ := hworking
          exact ⟨by rw [h], hfootprint, by rw [h]; exact hstaging, hdraft⟩

/-- The stages after the catalogs, for a write that signs. -/
theorem PersistRun.Drafts.persist_eq {run : PersistRun} {self : Replica} {amb : Ambient}
    {request : PersistRequest} {ctx : CommitContext} (h : run.Drafts self amb request)
    (hctx : request.ctx = some ctx) :
    self.persist amb request =
      match signRoot ctx request.nextFrontier run.draft.manifestBodies run.draft.contentIndex with
      | none => (run.after, .error (.illegitimate .binding))
      | some root =>
          match run.after.publicationOf request run.changed run.footprint run.draft root with
          | .error failure => ({ run.after with signed := root :: self.signed }, .error failure)
          | .ok publication =>
              match ({ run.after with signed := root :: self.signed } : Replica).commitPublication
                  amb request.nextFrontier run.changed publication with
              | (self, .error failure) => (self, .error failure)
              | (self, .ok ()) => (self, .ok run.changed) := by
  have hsigned := h.staged.signed_eq
  have hmaterialized := h.materialize_eq
  have hfootprint : (if request.ctx.isSome then
      (self.materialize amb request).1.generationFootprint.afterChanges
        (self.materialize amb request).1.bodies run.changed
      else .ok (self.materialize amb request).1.generationFootprint) = .ok run.footprint := by
    obtain ⟨_, _, _, _, hself⟩ := (working_materialize self amb request).staged
    rw [hself]
    exact h.footprint
  unfold persist
  rw [hmaterialized]
  dsimp only
  rw [hfootprint, h.staging]
  dsimp only
  rw [h.drafted, hctx]
  dsimp only
  rw [hsigned]
  rfl

/-! ## Publications -/

section Publications

omit [Aead] [ReceiptCodecs]

/-- What a signed publication is made of. -/
theorem publicationOf_eq_ok {self : Replica} {request : PersistRequest}
    {changed : BTreeMap BodyKey (Option BodyRecord)} {footprint : GenerationFootprint}
    {draft : Draft} {root : ManifestRoot} {publication : Publication}
    (h : self.publicationOf request changed footprint draft root = .ok publication) :
    ∃ ownership generation outcome,
      self.rootOwnership draft.ownership (objectRef root.encode) = .ok ownership ∧
      self.sealGeneration (Bytes.ofString "apply committed generation index") ownership
        (self.commitDelta request changed (objectRef root.encode).hash) footprint
        = .ok generation ∧
      applyOwnershipChanges self.catalogs.ownershipIndex generation.ownership = .ok outcome ∧
      publication =
        { draft
          manifestRootObject := some (objectRef root.encode)
          generationIndex := generation.index
          generationFootprint := generation.footprint
          ownership := outcome
          newObjects := draft.newObjects ++ [root.encode, generation.bytes] } := by
  unfold publicationOf at h
  dsimp only at h
  obtain ⟨ownership, hownership, h⟩ := bind_eq_ok.mp h
  obtain ⟨generation, hgeneration, h⟩ := bind_eq_ok.mp h
  obtain ⟨outcome, houtcome, h⟩ := bind_eq_ok.mp h
  cases h
  exact ⟨ownership, generation, outcome, hownership, hgeneration, houtcome, rfl⟩

/-- What the publication of a receipt is made of. -/
theorem receiptPublication_eq_ok {self : Replica} {draft : Draft} {publication : Publication}
    (h : self.receiptPublication draft = .ok publication) :
    ∃ outcome, applyOwnershipChanges self.catalogs.ownershipIndex draft.ownership = .ok outcome ∧
      publication =
        { draft
          manifestRootObject := self.manifestRootObject
          generationIndex := self.catalogs.generationIndex
          generationFootprint := self.generationFootprint
          ownership := outcome
          newObjects := draft.newObjects } := by
  unfold receiptPublication at h
  obtain ⟨outcome, houtcome, h⟩ := bind_eq_ok.mp h
  cases h
  exact ⟨outcome, houtcome, rfl⟩

end Publications

/-! ## The store handle -/

/-- The handle sees what it saw; a failed flush may have closed its writer. -/
def Kept (durable durable' : Option Store) : Prop :=
  ∃ unsettled, durable' = durable.map fun store => { store with unsettled }

omit [Crypto] [Loro] [Aead] [Codecs] [ReceiptCodecs] in
theorem Kept.refl (durable : Option Store) : Kept durable durable := by
  cases durable with
  | none => exact ⟨none, rfl⟩
  | some store => exact ⟨store.unsettled, rfl⟩

omit [Aead] [Codecs] [ReceiptCodecs] in
/-- A journal commit stands, or poisons a Replica that keeps its view. -/
theorem commitStore_cases (self : Replica) (delta : CommitDelta) (outcome : CommitOutcome) :
    (∃ failure durable poisoned, self.commitStore delta outcome =
        ({ self with durable, poisoned }, .error failure) ∧ Kept self.durable durable) ∨
      ∃ store, self.durable = some store ∧ store.unsettled = none ∧
        self.commitStore delta outcome =
          ({ self with durable := some (store.sealCommit delta) }, .ok ()) := by
  unfold commitStore
  split
  case h_1 hdurable =>
    refine .inl ⟨.poisoned, self.durable, self.poisoned, rfl, Kept.refl _⟩
  case h_2 store hdurable =>
    cases hcommit : store.commitClassified delta outcome with
    | mk store' result =>
        cases result with
        | error failure =>
            obtain ⟨unsettled, rfl⟩ := Store.commitClassified_eq_error hcommit
            exact .inl ⟨failure, _, true, rfl, unsettled, by rw [hdurable]; rfl⟩
        | ok _ =>
            obtain ⟨rfl, hunsettled⟩ := Store.commitClassified_eq_ok hcommit
            exact .inr ⟨store, hdurable, hunsettled, rfl⟩

/-- The state a publication leaves once the journal has sealed it. -/
def landed (self : Replica) (store : Store) (frontier : ReplicaFrontier)
    (changed : BTreeMap BodyKey (Option BodyRecord)) (publication : Publication) : Replica :=
  let store := store.sealCommit (self.publicationDelta frontier changed publication)
  ({ self with durable := some store } : Replica).install publication

omit [Aead] [Codecs] [ReceiptCodecs] in
/-- What `commitPublication` can do. -/
theorem commitPublication_cases (self : Replica) (amb : Ambient) (frontier : ReplicaFrontier)
    (changed : BTreeMap BodyKey (Option BodyRecord)) (publication : Publication) :
    (∃ failure durable poisoned, self.commitPublication amb frontier changed publication =
        ({ self with durable, poisoned }, .error failure) ∧ Kept self.durable durable) ∨
      ∃ store, self.durable = some store ∧ store.unsettled = none ∧
        self.commitPublication amb frontier changed publication =
          (self.landed store frontier changed publication, .ok ()) := by
  unfold commitPublication
  rcases commitStore_cases self (self.publicationDelta frontier changed publication) amb.outcome with
    ⟨failure, durable, poisoned, hcommit, hkept⟩ | ⟨store, hstore, hunsettled, hcommit⟩
  · rw [hcommit]
    exact .inl ⟨failure, durable, poisoned, rfl, hkept⟩
  · rw [hcommit]
    exact .inr ⟨store, hstore, hunsettled, rfl⟩

/-- The stages after the catalogs, for a write that signs nothing. -/
theorem PersistRun.Drafts.persist_receipt_eq {run : PersistRun} {self : Replica} {amb : Ambient}
    {request : PersistRequest} (h : run.Drafts self amb request) (hctx : request.ctx = none) :
    self.persist amb request =
      match run.after.receiptPublication run.draft with
      | .error failure => (run.after, .error failure)
      | .ok publication =>
          match run.after.commitPublication amb request.nextFrontier run.changed publication with
          | (self, .error failure) => (self, .error failure)
          | (self, .ok ()) => (self, .ok run.changed) := by
  have hmaterialized := h.materialize_eq
  have hfootprint : (if request.ctx.isSome then
      (self.materialize amb request).1.generationFootprint.afterChanges
        (self.materialize amb request).1.bodies run.changed
      else .ok (self.materialize amb request).1.generationFootprint) = .ok run.footprint := by
    obtain ⟨_, _, _, _, hself⟩ := (working_materialize self amb request).staged
    rw [hself]
    exact h.footprint
  unfold persist
  rw [hmaterialized]
  dsimp only
  rw [hfootprint, h.staging]
  dsimp only
  rewrite [h.drafted, hctx]
  rfl

/-- **What a durable write can do**: leave a state, and answer.  It is refused
before a root is signed, abandoned with its root signed, or committed; a write
without a context signs nothing and is refused or committed. -/
inductive Persisted (self : Replica) (amb : Ambient) (request : PersistRequest) :
    Replica → Except Failure (BTreeMap BodyKey (Option BodyRecord)) → Prop
  | refused {staged : Replica} {failure : Failure} {durable : Option Store} {poisoned : Bool}
      (hstaged : Staged self staged) (hredeclares : Redeclares self staged request)
      (hkept : Kept self.durable durable) :
      Persisted self amb request { staged with durable, poisoned } (.error failure)
  | abandoned {run : PersistRun} {ctx : CommitContext} {root : ManifestRoot} {failure : Failure}
      {durable : Option Store} {poisoned : Bool} (hctx : request.ctx = some ctx)
      (hrun : run.Drafts self amb request)
      (hroot : signRoot ctx request.nextFrontier run.draft.manifestBodies run.draft.contentIndex
        = some root)
      (hkept : Kept self.durable durable) :
      Persisted self amb request
        { run.after with signed := root :: self.signed, durable, poisoned } (.error failure)
  | committed {run : PersistRun} {ctx : CommitContext} {root : ManifestRoot}
      {publication : Publication} {store : Store} (hctx : request.ctx = some ctx)
      (hrun : run.Drafts self amb request)
      (hroot : signRoot ctx request.nextFrontier run.draft.manifestBodies run.draft.contentIndex
        = some root)
      (hpublication : run.after.publicationOf request run.changed run.footprint run.draft root
        = .ok publication)
      (hstore : self.durable = some store) (hunsettled : store.unsettled = none) :
      Persisted self amb request
        (({ run.after with signed := root :: self.signed } : Replica).landed store
          request.nextFrontier run.changed publication) (.ok run.changed)
  | receipted {run : PersistRun} {publication : Publication} {store : Store}
      (hctx : request.ctx = none) (hrun : run.Drafts self amb request)
      (hpublication : run.after.receiptPublication run.draft = .ok publication)
      (hstore : self.durable = some store) (hunsettled : store.unsettled = none) :
      Persisted self amb request
        (run.after.landed store request.nextFrontier run.changed publication) (.ok run.changed)

/-- The stages after the catalogs, for a write that signs. -/
theorem PersistRun.Drafts.persisted {run : PersistRun} {self : Replica} {amb : Ambient}
    {request : PersistRequest} {ctx : CommitContext} (hrun : run.Drafts self amb request)
    (hctx : request.ctx = some ctx) :
    Persisted self amb request (self.persist amb request).1 (self.persist amb request).2 := by
  have hdurable := hrun.staged.durable_eq
  have heq := hrun.persist_eq hctx
  cases hroot : signRoot ctx request.nextFrontier run.draft.manifestBodies
      run.draft.contentIndex with
  | none =>
      rw [hroot] at heq
      rw [heq]
      exact .refused hrun.staged hrun.redeclares (hdurable ▸ Kept.refl _)
  | some root =>
      rw [hroot] at heq
      dsimp only at heq
      cases hpublication : run.after.publicationOf request run.changed run.footprint run.draft
          root with
      | error failure =>
          rw [hpublication] at heq
          rw [heq]
          exact .abandoned hctx hrun hroot (hdurable ▸ Kept.refl _)
      | ok publication =>
          rw [hpublication] at heq
          dsimp only at heq
          rcases commitPublication_cases { run.after with signed := root :: self.signed } amb
            request.nextFrontier run.changed publication with
            ⟨failure, durable, poisoned, hcommit, hkept⟩ | ⟨store, hstore, hunsettled, hcommit⟩
          · rw [hcommit] at heq
            rw [heq]
            exact .abandoned hctx hrun hroot (hdurable ▸ hkept)
          · rw [hcommit] at heq
            rw [heq]
            exact .committed hctx hrun hroot hpublication (hdurable ▸ hstore) hunsettled

/-- The stages after the catalogs, for a write that only stores a receipt. -/
theorem PersistRun.Drafts.receipted {run : PersistRun} {self : Replica} {amb : Ambient}
    {request : PersistRequest} (hrun : run.Drafts self amb request)
    (hctx : request.ctx = none) :
    Persisted self amb request (self.persist amb request).1 (self.persist amb request).2 := by
  have hdurable := hrun.staged.durable_eq
  have heq := hrun.persist_receipt_eq hctx
  cases hpublication : run.after.receiptPublication run.draft with
  | error failure =>
      rw [hpublication] at heq
      rw [heq]
      exact .refused hrun.staged hrun.redeclares (hdurable ▸ Kept.refl _)
  | ok publication =>
      rw [hpublication] at heq
      dsimp only at heq
      rcases commitPublication_cases run.after amb request.nextFrontier run.changed publication with
        ⟨failure, durable, poisoned, hcommit, hkept⟩ | ⟨store, hstore, hunsettled, hcommit⟩
      · rw [hcommit] at heq
        rw [heq]
        exact .refused hrun.staged hrun.redeclares (hdurable ▸ hkept)
      · rw [hcommit] at heq
        rw [heq]
        exact .receipted hctx hrun hpublication (hdurable ▸ hstore) hunsettled

/-- **`persist` does what a durable write can do.** -/
theorem persist_persisted (self : Replica) (amb : Ambient) (request : PersistRequest) :
    Persisted self amb request (self.persist amb request).1 (self.persist amb request).2 := by
  rcases persist_drafts self amb request with
    ⟨failure, hresult, hstaged, hredeclares⟩ | ⟨run, hrun⟩
  case inl =>
    rw [hresult]
    exact .refused hstaged hredeclares (hstaged.durable_eq ▸ Kept.refl _)
  case inr =>
    cases hctx : request.ctx with
    | none => exact hrun.receipted hctx
    | some ctx => exact hrun.persisted hctx

end Lait.Replica
