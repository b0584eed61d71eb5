import Lait.Replica.OpLog
import Lait.Replica.RunKeeps

/-!
# The previewed root

A preparation of a Replica with a store signs the manifest root it is going to publish, and
keeps its address as the candidate.  It computes the Body catalog of that root on its own, from
the records it prepared; the durable write builds the catalog again, from records it has
materialized anew and through an index edit per staged Body.

The two agree.  A Body is advertised by its heads and its declarations
(`previewChange_congr`), and neither materializing nor staging in place of the others moves
those (`PersistRun.Drafts.preview_eq`); a local action writes no content.  So the check that
ends a finalization, which poisons the Replica when the published root is not the candidate,
never fires: not in a Replica without a store either, whose root is its frontier's as long as it
has published none.  That it has published none, every run keeps (`Station.run_keeps`).
-/

namespace Lait.Replica

section Draft

variable [Crypto] [Loro] [Aead] [Codecs] [ReceiptCodecs]

omit [Aead] [Codecs] [ReceiptCodecs] in
/-- A changed Body is advertised by its shape. -/
theorem previewChange_congr (self : Replica) (declared : BTreeMap BodyKey (List Bytes))
    {entry entry' : BodyKey × Option BodyRecord}
    (h : (entry.1, entry.2.map BodyRecord.shape) = (entry'.1, entry'.2.map BodyRecord.shape)) :
    self.previewChange declared entry = self.previewChange declared entry' := by
  obtain ⟨key, record⟩ := entry
  obtain ⟨key', record'⟩ := entry'
  obtain ⟨hkey, hshape⟩ := Prod.mk.inj h
  dsimp only at hkey hshape
  subst hkey
  cases record with
  | none =>
      cases record' with
      | none => rfl
      | some record' => cases hshape
  | some record =>
      cases record' with
      | none => cases hshape
      | some record' =>
          have hentry := manifestEntry_eq_of_shape key (Option.some.inj hshape)
            (self.declaredRefs declared key)
          unfold previewChange
          dsimp only
          rw [hentry]

/-- **The Body catalog of a write is the previewed one.** -/
theorem PersistRun.Drafts.preview_eq {run : PersistRun} {self : Replica} {amb : Ambient}
    {request : PersistRequest} (h : run.Drafts self amb request) :
    self.previewBodies request.changed request.declared = .ok run.draft.manifestBodies := by
  have hshapes : run.changed.toList.map (fun entry => (entry.1, entry.2.map BodyRecord.shape)) =
      request.changed.toList.map fun entry => (entry.1, entry.2.map BodyRecord.shape) := by
    have heq := congrArg Std.ExtTreeMap.toList h.shapes_eq
    unfold shapes at heq
    rwa [BTreeMap.toList_map, BTreeMap.toList_map] at heq
  have hchanges : request.changed.toList.mapM (self.previewChange request.declared) =
      .ok run.staging.manifestChanges := by
    rw [← h.changes_eq.2]
    exact mapM_congr_of_map_eq (fun _ _ => self.previewChange_congr request.declared) hshapes.symm
  obtain ⟨-, _, -, -, hmanifest, -⟩ := h.draft_eq
  exact bind_eq_ok.mpr ⟨run.staging.manifestChanges, hchanges, hmanifest⟩

/-- A write without descriptors leaves the content catalog. -/
theorem PersistRun.Drafts.contentIndex_eq {run : PersistRun} {self : Replica} {amb : Ambient}
    {request : PersistRequest} (h : run.Drafts self amb request)
    (hnone : request.descriptors = []) :
    run.draft.contentIndex = self.catalogs.contentIndex := by
  obtain ⟨-, changes, hchanges, -, -, hindex⟩ := h.draft_eq
  rw [hnone] at hchanges
  cases hchanges
  exact applyIndex_eq_ok hindex

end Draft

section Candidate

variable [Crypto] [Loro] [Algebra] [Aead] [Codecs] [ReceiptCodecs] [ReceiptMemory] [OpCodec]

/-- `candidate_root`: the read coordinate a finalization will publish. -/
def PreparedAction.candidateRoot (action : PreparedAction) : Bytes :=
  match action.state with
  | .noop _ => action.parentRoot
  | .mutation _ data => data.candidateRoot

omit [Algebra] [OpCodec] in
/-- The durable write of a preparation publishes the root that was previewed. -/
theorem persistTransaction_candidate {self replica : Replica} {amb : Ambient} {ctx : CommitContext}
    {data : PreparedMutation} {root : ManifestRoot} {tx : Transaction}
    {records : BTreeMap BodyKey (Option BodyRecord)} (hpreview : self.PreviewedAt ctx data root)
    (htx : data.transaction = some tx)
    (h : self.persistTransaction amb ctx data tx = (replica, .ok records)) :
    replica.manifestRootObject = some (objectRef root.encode) := by
  obtain ⟨tx', assembled, htx', hpopulated⟩ := hpreview.populated
  obtain rfl : tx' = tx := Option.some.inj (htx'.symm.trans htx)
  obtain ⟨manifestBodies, hbodies, hroot⟩ := hpreview.catalog
  unfold persistTransaction at h
  split at h
  case h_1 => cases h
  case h_2 written hwritten =>
      -- the records were filled in when they were prepared
      obtain rfl := populateLocalRecordRefs_idem hpopulated hwritten
      split at h
      case h_1 => cases h
      case h_2 newObjects hobjects =>
          have hpersisted := persist_persisted self amb
            (actionRequest ctx data data.newRecords newObjects)
          split at h
          case h_1 => cases h
          case h_2 after changed hpersist =>
              rw [hpersist] at hpersisted
              cases h
              cases hpersisted with
              | @committed run ctx' signed publication store hctx hrun hsigned hpublication =>
                  obtain rfl : ctx = ctx' := Option.some.inj hctx
                  have hsame : manifestBodies = run.draft.manifestBodies :=
                    Except.ok.inj (hbodies.symm.trans hrun.preview_eq)
                  rw [hrun.contentIndex_eq rfl, ← hsame] at hsigned
                  obtain rfl := Option.some.inj (hroot.symm.trans hsigned)
                  obtain ⟨_, _, _, -, -, -, rfl⟩ := publicationOf_eq_ok hpublication
                  rfl
              | receipted hctx => cases hctx

omit [ReceiptMemory] in
/-- Without a store the candidate is the frontier's own root. -/
theorem assemble_candidate {self self' : Replica} {amb : Ambient} {req : ActionRequest}
    {sealing : Bool} {declared : BTreeMap BodyKey (List Bytes)} {fabric : Engine.Prepared}
    {data : PreparedMutation} (hnone : self.durable = none)
    (h : self.assemble amb req sealing declared fabric = (self', .ok data)) :
    data.candidateRoot = data.nextFrontier.root := by
  unfold assemble at h
  dsimp only at h
  split at h
  case h_1 => cases h
  case h_2 seed _ =>
      obtain ⟨_, hframe⟩ := assembleAll_frame amb req seed sealing req.touched self ⟨∅, [], []⟩
      split at h
      case h_1 => cases h
      case h_2 assembled assembly hassembled =>
          rw [hassembled] at hframe
          obtain rfl := hframe
          split at h
          case h_1 => cases h
          case h_2 tx records _ =>
              split at h
              case h_1 => cases h
              case h_2 receipt records _ =>
                  unfold previewManifestRoot at h
                  dsimp only at h
                  rw [if_pos (by rw [hnone]; rfl)] at h
                  dsimp only at h
                  split at h
                  case h_1 => cases h
                  case h_2 =>
                      cases h
                      rfl

/-- What is prepared over a store was previewed. -/
theorem prepareAction_previews {self self' : Replica} {amb : Ambient} {req : ActionRequest}
    {absence : Option ReceiptAbsence} {action : PreparedAction} {fabric : Engine.Prepared}
    {data : PreparedMutation}
    (h : self.prepareAction amb req absence = (self', .ok (.prepared action)))
    (hstate : action.state = .mutation fabric data) (hsome : self.durable.isSome) :
    ∃ root, PreviewedAt self req.ctx data root := by
  have hprepares := prepareAction_prepares self amb req absence
  rw [h] at hprepares
  cases hprepares with
  | quiet hledger _ hresult =>
      obtain ⟨-, -, -, hvolatile⟩ := hresult action rfl
      rw [(hvolatile fabric data hstate).1] at hsome
      cases hsome
  | @previewed fabric' _ root _ _ _ _ _ hresult =>
      obtain ⟨-, -, -, data', hstate', -, hpreview⟩ := hresult action rfl
      rw [hstate] at hstate'
      cases hstate'
      exact ⟨root, hpreview⟩

end Candidate

/-! ## The candidate is published -/

section Runs

variable [Crypto] [Loro] [Algebra] [Aead] [Codecs] [ReceiptCodecs] [ReceiptMemory] [OpCodec]

omit [Crypto] [Loro] [Algebra] [Aead] [Codecs] [ReceiptCodecs] [ReceiptMemory] [OpCodec] in
theorem commitContext_eq {ctx ctx' : CommitContext} (hspace : ctx.space = ctx'.space)
    (hauthority : ctx.authorityFrontier = ctx'.authorityFrontier)
    (hkey : ctx.signer.signerKey = ctx'.signer.signerKey)
    (hsign : ctx.signer.signPreimage = ctx'.signer.signPreimage) : ctx = ctx' := by
  obtain ⟨space, ⟨key, sign⟩, authority⟩ := ctx
  obtain ⟨space', ⟨key', sign'⟩, authority'⟩ := ctx'
  dsimp only at hspace hauthority hkey hsign
  rw [hspace, hauthority, hkey, hsign]

omit [Crypto] [Algebra] [Aead] [Codecs] [ReceiptCodecs] [ReceiptMemory] [OpCodec] in
/-- The read coordinate of a Replica is its published root, or its frontier's. -/
theorem currentManifestRoot_congr {self self' : Replica}
    (hroot : self'.manifestRootObject = self.manifestRootObject)
    (hfrontier : self'.frontier = self.frontier) :
    self'.currentManifestRoot = self.currentManifestRoot := by
  unfold currentManifestRoot manifestRoot
  rw [hroot, hfrontier]

omit [Algebra] [OpCodec] in
/-- The check that ends a durable finalization passes. -/
theorem publishMutation_candidate (haddress : ∀ bytes, objectContentHash bytes ≠ NO_PARENT_ROOT)
    {self published : Replica} {amb : Ambient} {ctx : CommitContext} {fabric : Engine.Prepared}
    {data : PreparedMutation} {root : ManifestRoot} {records : BTreeMap BodyKey (Option BodyRecord)}
    (hsome : self.durable.isSome) (hpreview : self.PreviewedAt ctx data root)
    (h : self.publishMutation amb ctx fabric data = (published, .ok records)) :
    (published.acceptCommitted amb data records).currentManifestRoot = data.candidateRoot := by
  obtain ⟨tx, _, htx, -⟩ := hpreview.populated
  obtain ⟨hledger, -⟩ := acceptCommitted_frame published amb data records
  have hroot : published.manifestRootObject = some (objectRef root.encode) := by
    unfold publishMutation at h
    rw [htx] at h
    dsimp only at h
    rw [if_pos hsome] at h
    split at h
    case h_1 hpersist =>
        cases h
        exact persistTransaction_candidate hpreview htx hpersist
    case h_2 => split at h <;> cases h
  have hmanifest : (published.acceptCommitted amb data records).manifestRoot =
      (objectRef root.encode).hash := by
    have haccepted : (published.acceptCommitted amb data records).manifestRootObject =
        published.manifestRootObject := congrArg Ledger.manifestRootObject hledger
    unfold manifestRoot
    rw [haccepted, hroot]
    rfl
  unfold currentManifestRoot
  rw [hmanifest, hpreview.candidate]
  exact if_neg (haddress root.encode)

omit [Algebra] [OpCodec] in
/-- And so does the one of a finalization in memory. -/
theorem publishMutation_volatile {self published : Replica} {amb : Ambient} {ctx : CommitContext}
    {fabric : Engine.Prepared} {data : PreparedMutation}
    {records : BTreeMap BodyKey (Option BodyRecord)} (hnone : self.durable = none)
    (hroot : self.manifestRootObject = none)
    (hcandidate : data.candidateRoot = data.nextFrontier.root)
    (h : self.publishMutation amb ctx fabric data = (published, .ok records)) :
    (published.acceptCommitted amb data records).currentManifestRoot = data.candidateRoot := by
  obtain ⟨hledger, -⟩ := acceptCommitted_frame published amb data records
  have hpublished : published.manifestRootObject = none := by
    unfold publishMutation at h
    split at h
    case h_1 =>
        cases h
        exact hroot
    case h_2 tx _ =>
        have hvolatile : ¬ self.durable.isSome := by
          rw [hnone]
          exact Bool.false_ne_true
        rw [if_neg hvolatile] at h
        obtain ⟨_, hframe⟩ := retainAction_frame tx data.sealed' self
        split at h
        case h_1 => cases h
        case h_2 hretain =>
            rw [hretain] at hframe
            cases h
            obtain rfl := hframe
            exact hroot
  have hmanifest : (published.acceptCommitted amb data records).manifestRoot = NO_PARENT_ROOT := by
    have haccepted : (published.acceptCommitted amb data records).manifestRootObject =
        published.manifestRootObject := congrArg Ledger.manifestRootObject hledger
    unfold manifestRoot
    rw [haccepted, hpublished]
    rfl
  have hfrontier : (published.acceptCommitted amb data records).frontier = data.nextFrontier :=
    congrArg Ledger.frontier hledger
  unfold currentManifestRoot
  rw [hmanifest, if_pos rfl, hfrontier, hcandidate]

omit [Algebra] [OpCodec] in
/-- A receipt written on its own publishes nothing. -/
theorem persistReceiptOnly_root (self : Replica) (amb : Ambient) (receipt : RequestReceipt) :
    (self.persistReceiptOnly amb receipt).1.currentManifestRoot = self.currentManifestRoot := by
  have hpersisted := persist_persisted self amb (self.receiptRequest receipt)
  have hroot : (self.persist amb (self.receiptRequest receipt)).1.currentManifestRoot =
      self.currentManifestRoot := by
    generalize self.persist amb (self.receiptRequest receipt) = written at hpersisted ⊢
    obtain ⟨replica, result⟩ := written
    cases hpersisted with
    | refused hstaged =>
        obtain ⟨_, _, _, _, rfl⟩ := hstaged
        exact currentManifestRoot_congr rfl rfl
    | abandoned _ hrun =>
        obtain ⟨_, _, _, _, hafter⟩ := hrun.staged
        rw [hafter]
        exact currentManifestRoot_congr rfl rfl
    | committed hctx => cases hctx
    | receipted _ hrun hpublication =>
        obtain ⟨_, -, rfl⟩ := receiptPublication_eq_ok hpublication
        obtain ⟨_, _, _, _, hafter⟩ := hrun.staged
        rw [hafter]
        exact currentManifestRoot_congr rfl rfl
  unfold persistReceiptOnly
  split
  case h_1 h => rwa [h] at hroot
  case h_2 h =>
      rw [h] at hroot
      exact hroot

omit [Algebra] [OpCodec] in
/-- A request without operations publishes nothing, and its candidate is the parent. -/
theorem finalize_noop {self : Replica} {amb : Ambient} {ctx : CommitContext}
    {action : PreparedAction} {receipt receipt' : RequestReceipt}
    (hstate : action.state = .noop receipt) (h : (self.finalize amb ctx action).2 = .ok receipt') :
    (self.finalize amb ctx action).1.currentManifestRoot = self.currentManifestRoot := by
  unfold finalize at h ⊢
  cases hparent : self.validateParent action with
  | error failure =>
      rw [hparent] at h
      cases h
  | ok _ =>
      rw [hstate]
      unfold finalizePrepared
      dsimp only
      split
      case isTrue =>
          have hroot := persistReceiptOnly_root self amb receipt
          split
          case h_1 h => rwa [h] at hroot
          case h_2 h =>
              rw [h] at hroot
              exact hroot
      case isFalse => rfl

omit [Algebra] [OpCodec] in
/-- An answered mutation is one that passed the check. -/
theorem finalize_mutation {self : Replica} {amb : Ambient} {ctx : CommitContext}
    {action : PreparedAction} {fabric : Engine.Prepared} {data : PreparedMutation}
    {receipt : RequestReceipt} (hstate : action.state = .mutation fabric data)
    (h : (self.finalize amb ctx action).2 = .ok receipt) :
    (self.finalize amb ctx action).1.currentManifestRoot = data.candidateRoot := by
  have hmutation : (self.finalizeMutation amb ctx fabric data).2 = .ok receipt →
      (self.finalizeMutation amb ctx fabric data).1.currentManifestRoot = data.candidateRoot := by
    intro h
    unfold finalizeMutation at h ⊢
    split at h
    case isTrue => cases h
    case isFalse hsame =>
        rw [if_neg hsame]
        dsimp only at h ⊢
        split at h
        case h_1 => cases h
        case h_2 =>
            split at h
            case isTrue => cases h
            case isFalse hpassed =>
                rw [if_neg hpassed]
                exact not_not.mp hpassed
  unfold finalize at h ⊢
  cases hparent : self.validateParent action with
  | error failure =>
      rw [hparent] at h
      cases h
  | ok _ =>
      rw [hparent, hstate] at h
      rw [hstate]
      exact hmutation h

/-- **The prepared root is the published root.**  Whatever a Replica went through, an action
prepared in it and finalized with nothing moved in between publishes its candidate: the check
at the end of the finalization passes wherever it is reached, and the read coordinate of an
answered action is the one that was announced. -/
theorem finalize_publishes_candidate (haddress : ∀ bytes, objectContentHash bytes ≠ NO_PARENT_ROOT)
    {start : Replica} (hstart : start.Rooted) (operations : List Operation)
    {replica later : Replica} {amb amb' : Ambient} {req : ActionRequest}
    {absence : Option ReceiptAbsence} {action : PreparedAction} {ctx : CommitContext}
    (hprepare : ((Station.start start).run operations).replica.prepareAction amb req absence =
      (replica, .ok (.prepared action)))
    (hlater : later.ledger = replica.ledger)
    (hsigner : ctx.signer.signerKey = req.ctx.signer.signerKey →
      ctx.signer.signPreimage = req.ctx.signer.signPreimage) :
    (∀ fabric data published records, action.state = .mutation fabric data →
      ctx.space = data.manifestSpace → ctx.authorityFrontier = data.manifestAuthorityFrontier →
      ctx.signer.signerKey = data.manifestSigner →
      publishMutation { later with space := some ctx.space } amb' ctx fabric data =
        (published, .ok records) →
      (published.acceptCommitted amb' data records).currentManifestRoot =
        action.candidateRoot) ∧
    ∀ receipt, (later.finalize amb' ctx action).2 = .ok receipt →
      (later.finalize amb' ctx action).1.currentManifestRoot = action.candidateRoot := by
  have hrooted : ((Station.start start).run operations).replica.Rooted :=
    (Station.run_keeps (Station.attributed_start start) operations).rooted hstart
  generalize ((Station.start start).run operations).replica = self at hprepare hrooted
  have hprepares := prepareAction_prepares self amb req absence
  rw [hprepare] at hprepares
  -- a preparation moves nothing but what was put to the signer
  obtain ⟨signed, hkeeps⟩ : ∃ signed, later.ledger = { self.ledger with signed } := by
    rw [hlater]
    cases hprepares with
    | quiet hledger => exact ⟨self.signed, hledger⟩
    | previewed _ _ _ hledger => exact ⟨_, hledger⟩
  have hdurable : later.durable = self.durable := congrArg Ledger.durable hkeeps
  have hroot : later.manifestRootObject = self.manifestRootObject :=
    congrArg Ledger.manifestRootObject hkeeps
  refine ⟨fun fabric data published records hstate hspace hauthority hkey hpublish => ?_,
    fun receipt h => ?_⟩
  · have hcandidate : action.candidateRoot = data.candidateRoot := by
      unfold PreparedAction.candidateRoot
      rw [hstate]
    rw [hcandidate]
    by_cases hsome : self.durable.isSome
    case pos =>
      obtain ⟨root, hpreview⟩ := prepareAction_previews hprepare hstate hsome
      obtain ⟨hspace', hauthority', hkey'⟩ := hpreview.attribution
      have hctx : ctx = req.ctx := commitContext_eq (hspace.trans hspace')
        (hauthority.trans hauthority') (hkey.trans hkey') (hsigner (hkey.trans hkey'))
      subst hctx
      have hlaterPreview : PreviewedAt { later with space := some req.ctx.space } req.ctx data
          root :=
        hpreview.congr (congrArg Ledger.catalogs hkeeps) (congrArg Ledger.declared hkeeps)
      exact publishMutation_candidate haddress (hdurable ▸ hsome) hlaterPreview hpublish
    case neg =>
      have hnone : self.durable = none := by simpa using hsome
      obtain ⟨before, after, sealing, declared, hbefore, hassemble⟩ :=
        prepareAction_assembles hprepare hstate
      refine publishMutation_volatile ?_ ?_ (assemble_candidate (hbefore.trans hnone) hassemble)
        hpublish
      · exact hdurable.trans hnone
      · exact hroot.trans (hrooted hnone)
  · cases hstate : action.state with
    | noop receipt' =>
        have hparent : action.parentRoot = self.currentManifestRoot := by
          cases hprepares with
          | quiet _ _ hresult => exact (hresult action rfl).1
          | previewed _ _ _ _ _ hresult => exact (hresult action rfl).1
        unfold PreparedAction.candidateRoot
        rw [finalize_noop hstate h, hstate,
          currentManifestRoot_congr hroot (congrArg Ledger.frontier hkeeps)]
        exact hparent.symm
    | mutation fabric data =>
        unfold PreparedAction.candidateRoot
        rw [finalize_mutation hstate h, hstate]

end Runs

/-! ## A sample action -/

/-- A Replica with a store and a key, before its first write. -/
def keyedReplica : @Replica opLogLoro :=
  let _ := opLogLoro
  { sampleReplica with keys := some sampleKeys }

/-- Whether the sample action is prepared, and then answered. -/
def sampleAnswered : Bool :=
  let _ := opLogLoro
  let _ := opLogAlgebra
  let _ := opLogCodec
  let _ := checksumCrypto
  let _ := plainAead
  let _ := wireCodecs
  let _ := wireReceiptCodecs
  let _ := wireReceiptMemory
  match keyedReplica.prepareAction sampleActing sampleRequest none with
  | (replica, .ok (.prepared action)) =>
      Demand.isOk (replica.finalize sampleActing sampleContext action).2
  | _ => false

/-- The sample action publishes its candidate. -/
theorem sample_publishes_candidate :
    let _ := opLogLoro
    let _ := opLogAlgebra
    let _ := opLogCodec
    let _ := checksumCrypto
    let _ := plainAead
    let _ := wireCodecs
    let _ := wireReceiptCodecs
    let _ := wireReceiptMemory
    ∃ replica action receipt, keyedReplica.prepareAction sampleActing sampleRequest none =
        (replica, .ok (.prepared action)) ∧
      (replica.finalize sampleActing sampleContext action).2 = .ok receipt ∧
      (replica.finalize sampleActing sampleContext action).1.currentManifestRoot =
        action.candidateRoot := by
  intro loro algebra opCodec crypto aead codecs receiptCodecs memory
  have haddress : ∀ bytes, objectContentHash bytes ≠ NO_PARENT_ROOT := fun bytes h => by
    have hlength := congrArg Bytes.length h
    cases hlength
  have hanswered : sampleAnswered = true := by
    decide +kernel
  unfold sampleAnswered at hanswered
  dsimp only at hanswered
  split at hanswered
  case h_2 => cases hanswered
  case h_1 replica action hprepare =>
      cases hfinal : (replica.finalize sampleActing sampleContext action).2 with
      | error failure =>
          rw [hfinal] at hanswered
          cases hanswered
      | ok receipt =>
          have hstart : keyedReplica.Rooted := fun hnone => by cases hnone
          exact ⟨replica, action, receipt, hprepare, hfinal,
            (finalize_publishes_candidate haddress hstart [] hprepare rfl fun _ => rfl).2
              receipt hfinal⟩

end Lait.Replica
