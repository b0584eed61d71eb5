import Lait.Replica.BundleEffects

/-!
# What a local action keeps

A preparation moves the engine and signs a preview; nothing is published (`Prepares` and
`PreviewedAt`).  The heads it assembles are of the transaction it signs, and refer to that
transaction or to nothing (`assemble_stamped`).  Finalizing fills the records in a second time,
which changes nothing (`populateLocalRecordRefs_idem`), and publishes them, durably or in
memory, with what is retained of the transaction: the Replica stays identified
(`finalize_keeps`).
-/

namespace Lait.Replica

variable [Crypto] [Loro] [Aead] [Codecs] [ReceiptCodecs] [Algebra] [ReceiptMemory] [OpCodec]

/-! ## Preparing -/

omit [Loro] [Aead] [Algebra] [OpCodec] in
theorem lookupAction_frame [Loro] (self : Replica) (scope : RequestScope) (payloadHash : Bytes) :
    ∃ cache, (self.lookupAction scope payloadHash).1 = { self with receiptCache := cache } := by
  unfold lookupAction
  split
  · exact ⟨_, rfl⟩
  · split
    · exact ⟨_, rfl⟩
    · split <;> exact ⟨_, rfl⟩

omit [Aead] [OpCodec] in
theorem checkReceipt_frame (self : Replica) (req : ActionRequest)
    (absence : Option ReceiptAbsence) :
    ∃ cache, (self.checkReceipt req absence).1 = { self with receiptCache := cache } := by
  unfold checkReceipt
  split
  · split <;> exact ⟨_, rfl⟩
  · exact lookupAction_frame self req.scope req.payloadHash

/-- The engine's side of a preparation: the operations applied, once the request's
receipt is looked up and its Space pinned. -/
def enginePreparation (self : Replica) (req : ActionRequest) (absence : Option ReceiptAbsence) :
    Except Failure Engine.Prepared :=
  (prepareOps { (self.checkReceipt req absence).1 with space := some req.ctx.space } req.ops).2

/-- What a durable preparation previewed: its transaction, and the root it put to
the signer. -/
structure PreviewedAt (replica : Replica) (ctx : CommitContext) (data : PreparedMutation)
    (root : ManifestRoot) : Prop where
  populated : ∃ tx records, data.transaction = some tx ∧
    populateLocalRecordRefs tx true data.sealed' records = .ok data.newRecords
  attribution : data.manifestSpace = ctx.space ∧
    data.manifestAuthorityFrontier = ctx.authorityFrontier ∧
    data.manifestSigner = ctx.signer.signerKey
  catalog : ∃ manifestBodies,
    replica.previewBodies data.newRecords data.declared = .ok manifestBodies ∧
    signRoot ctx data.nextFrontier manifestBodies replica.catalogs.contentIndex = some root
  candidate : data.candidateRoot = (objectRef root.encode).hash

omit [Aead] [ReceiptCodecs] [ReceiptMemory] [OpCodec] [Algebra] in
/-- A preview is over the Body catalog and the declarations in memory. -/
theorem previewBodies_congr {self self' : Replica} (hcatalogs : self'.catalogs = self.catalogs)
    (hdeclared : self'.declaredContent = self.declaredContent)
    (changed : BTreeMap BodyKey (Option BodyRecord)) (declared : BTreeMap BodyKey (List Bytes)) :
    self'.previewBodies changed declared = self.previewBodies changed declared := by
  have hchange : self'.previewChange declared = self.previewChange declared := by
    funext entry
    unfold previewChange declaredRefs
    rw [hdeclared]
  unfold previewBodies
  rw [hchange, hcatalogs]

omit [Aead] [ReceiptCodecs] [Algebra] [ReceiptMemory] [OpCodec] in
theorem PreviewedAt.congr {self self' : Replica} {ctx : CommitContext} {data : PreparedMutation}
    {root : ManifestRoot} (h : self.PreviewedAt ctx data root)
    (hcatalogs : self'.catalogs = self.catalogs)
    (hdeclared : self'.declaredContent = self.declaredContent) : self'.PreviewedAt ctx data root := by
  refine ⟨h.populated, h.attribution, ?_, h.candidate⟩
  rw [previewBodies_congr hcatalogs hdeclared, hcatalogs]
  exact h.catalog

/-- A receipt answers a request. -/
def Answers (receipt : RequestReceipt) (req : ActionRequest) : Prop :=
  receipt.scopeKey = req.scope.key ∧ receipt.payloadHash = req.payloadHash

/-- The receipt of what is prepared. -/
def PreparedState.receipt : PreparedState → RequestReceipt
  | .noop receipt => receipt
  | .mutation _ data => data.receipt

omit [Aead] [ReceiptMemory] [OpCodec] in
/-- Completing an assembly fills in its records and its receipt. -/
theorem completeAssembly_eq_ok {self : Replica} {req : ActionRequest} {assembly : Assembly}
    {tx : Option Transaction} {records records' : BTreeMap BodyKey (Option BodyRecord)}
    {nextFrontier : ReplicaFrontier} {receipt : RequestReceipt}
    (h : self.completeAssembly req assembly tx records nextFrontier = .ok (receipt, records')) :
    receipt = req.receipt nextFrontier ZERO ((tx.map Transaction.id).getD ZERO) ∧
      ∀ signed, tx = some signed →
        populateLocalRecordRefs signed self.durable.isSome assembly.sealed' records
          = .ok records' := by
  unfold completeAssembly at h
  dsimp only at h
  obtain ⟨receiptBytes, -, h⟩ := bind_eq_ok.mp h
  cases tx with
  | none =>
      obtain ⟨_, hrecords, h⟩ := bind_eq_ok.mp h
      obtain ⟨_, -, h⟩ := bind_eq_ok.mp h
      cases h
      exact ⟨rfl, fun _ h => nomatch h⟩
  | some signed =>
      obtain ⟨_, hrecords, h⟩ := bind_eq_ok.mp h
      obtain ⟨_, -, h⟩ := bind_eq_ok.mp h
      cases h
      refine ⟨rfl, fun _ h => ?_⟩
      cases h
      exact hrecords

/-- What assembling a mutation leaves. -/
inductive Assembled (self : Replica) (req : ActionRequest) (fabric : Engine.Prepared) :
    Replica → Except Failure PreparedMutation → Prop
  /-- Nothing is signed. -/
  | quiet {self' : Replica} {result : Except Failure PreparedMutation}
      (hworking : Working self self')
      (hresult : ∀ data, result = .ok data → self.durable = none ∧
        data.nextFrontier = advance self.frontier fabric.causal ∧ Answers data.receipt req) :
      Assembled self req fabric self' result
  /-- A preview is signed at the frontier one advance on. -/
  | previewed {self' : Replica} {result : Except Failure PreparedMutation}
      {manifestBodies : BTreeMap Bytes ManifestEntry} {root : ManifestRoot}
      (hsome : self.durable.isSome)
      (hworking : Working { self with signed := root :: self.signed } self')
      (hroot : signRoot req.ctx (advance self.frontier fabric.causal) manifestBodies
        self.catalogs.contentIndex = some root)
      (hresult : ∀ data, result = .ok data →
        data.nextFrontier = advance self.frontier fabric.causal ∧
        PreviewedAt self req.ctx data root ∧ Answers data.receipt req) :
      Assembled self req fabric self' result

omit [ReceiptMemory] in
theorem assemble_assembled (self : Replica) (amb : Ambient) (req : ActionRequest) (sealing : Bool)
    (declared : BTreeMap BodyKey (List Bytes)) (fabric : Engine.Prepared)
    (hsealing : self.durable.isSome → sealing = true) :
    Assembled self req fabric (self.assemble amb req sealing declared fabric).1
      (self.assemble amb req sealing declared fabric).2 := by
  have herror : ∀ {failure : Failure} {data : PreparedMutation}, Except.error failure = .ok data →
      self.durable = none ∧ data.nextFrontier = advance self.frontier fabric.causal ∧
        Answers data.receipt req := by
    intro _ _ h
    cases h
  unfold assemble
  dsimp only
  split
  · exact .quiet (Working.refl self) fun _ => herror
  case h_2 seed _ =>
    have hworking := assembleAll_frame amb req seed sealing req.touched self ⟨∅, [], []⟩
    split
    case h_1 h =>
      rw [h] at hworking
      exact .quiet hworking fun _ => herror
    case h_2 assembly h =>
      rw [h] at hworking
      obtain ⟨jobs, rfl⟩ := hworking
      have hjobs : Working self { self with checkpointJobs := jobs } := ⟨jobs, rfl⟩
      split
      · exact .quiet hjobs fun _ => herror
      case h_2 tx records htransaction =>
        split
        · exact .quiet hjobs fun _ => herror
        case h_2 receipt records' hcomplete =>
          unfold previewManifestRoot
          dsimp only
          by_cases hnone : self.durable.isNone
          · rw [if_pos hnone]
            dsimp only
            split
            · exact .quiet hjobs fun _ => herror
            · refine .quiet hjobs fun data h => ⟨by simpa using hnone, ?_⟩
              cases h
              rw [(completeAssembly_eq_ok hcomplete).1]
              exact ⟨rfl, rfl, rfl⟩
          · rw [if_neg hnone]
            have hsome : self.durable.isSome :=
              Option.isSome_iff_ne_none.mpr (by simpa using hnone)
            split
            case h_1 heq =>
              split at heq
              · cases heq
                exact .quiet hjobs fun _ => herror
              · split at heq
                · cases heq
                  exact .quiet hjobs fun _ => herror
                case h_2 => cases heq
            case h_2 heq =>
              split at heq
              · cases heq
              case h_2 manifestBodies hbodies =>
                split at heq
                · cases heq
                case h_2 root hroot =>
                  cases heq
                  have hworking : Working { self with signed := root :: self.signed }
                      { self with checkpointJobs := jobs, signed := root :: self.signed } :=
                    ⟨jobs, rfl⟩
                  split
                  · refine .previewed hsome hworking hroot fun data h => ?_
                    cases h
                  · refine .previewed hsome hworking hroot fun data h => ?_
                    cases h
                    obtain ⟨hreceipt, hpopulate⟩ := completeAssembly_eq_ok hcomplete
                    refine ⟨rfl, ⟨?_, ⟨rfl, rfl, rfl⟩, ⟨manifestBodies, hbodies, hroot⟩, rfl⟩,
                      by rw [hreceipt]; exact ⟨rfl, rfl⟩⟩
                    -- A durable preparation seals, so it signs a transaction.
                    unfold assembleTransaction at htransaction
                    rw [if_neg (by simp [hsealing hsome])] at htransaction
                    obtain ⟨signed, -, htransaction⟩ := bind_eq_ok.mp htransaction
                    cases htransaction
                    have hpopulated := hpopulate signed rfl
                    rw [show ({ self with checkpointJobs := jobs } : Replica).durable.isSome = true
                      from hsome] at hpopulated
                    exact ⟨signed, _, rfl, hpopulated⟩

/-- What preparing an action leaves. -/
inductive Prepares (self : Replica) (req : ActionRequest) (absence : Option ReceiptAbsence) :
    Replica → Except Failure PreparedOutcome → Prop
  /-- Nothing is signed; what is prepared without a store, or without operations,
  is not published by a root. -/
  | quiet {self' : Replica} {result : Except Failure PreparedOutcome}
      (hledger : self'.ledger = self.ledger) (hraw : self'.rawMaterial = self.rawMaterial)
      (hresult : ∀ action, result = .ok (.prepared action) →
        action.parentRoot = self.currentManifestRoot ∧ action.parentFrontier = self.frontier ∧
        Answers action.state.receipt req ∧
        ∀ fabric data, action.state = .mutation fabric data → self.durable = none ∧
          data.nextFrontier = advance self.frontier fabric.causal) :
      Prepares self req absence self' result
  /-- A preview is signed at the frontier one advance on. -/
  | previewed {self' : Replica} {result : Except Failure PreparedOutcome}
      {fabric : Engine.Prepared} {manifestBodies : BTreeMap Bytes ManifestEntry}
      {root : ManifestRoot}
      (hengine : self.enginePreparation req absence = .ok fabric)
      (hsome : self.durable.isSome)
      (hroot : signRoot req.ctx (advance self.frontier fabric.causal) manifestBodies
        self.catalogs.contentIndex = some root)
      (hledger : self'.ledger = { self.ledger with signed := root :: self.signed })
      (hraw : self'.rawMaterial = self.rawMaterial)
      (hresult : ∀ action, result = .ok (.prepared action) →
        action.parentRoot = self.currentManifestRoot ∧ action.parentFrontier = self.frontier ∧
        Answers action.state.receipt req ∧
        ∃ data, action.state = .mutation fabric data ∧
          data.nextFrontier = advance self.frontier fabric.causal ∧
          PreviewedAt self req.ctx data root) : Prepares self req absence self' result

omit [ReceiptMemory] in
/-- What is prepared once the Space is pinned. -/
theorem prepareInSpace_prepares (self : Replica) (amb : Ambient) (req : ActionRequest) :
    ((prepareMutation.prepareInSpace amb req self).1.ledger = self.ledger ∧
      (prepareMutation.prepareInSpace amb req self).1.rawMaterial = self.rawMaterial ∧
      ∀ state, (prepareMutation.prepareInSpace amb req self).2 = .ok state →
        Answers state.receipt req ∧ ∀ fabric data, state = .mutation fabric data →
          self.durable = none ∧ data.nextFrontier = advance self.frontier fabric.causal) ∨
    ∃ fabric manifestBodies root, (self.prepareOps req.ops).2 = .ok fabric ∧
      self.durable.isSome ∧
      signRoot req.ctx (advance self.frontier fabric.causal) manifestBodies
        self.catalogs.contentIndex = some root ∧
      (prepareMutation.prepareInSpace amb req self).1.ledger
        = { self.ledger with signed := root :: self.signed } ∧
      (prepareMutation.prepareInSpace amb req self).1.rawMaterial = self.rawMaterial ∧
      ∀ state, (prepareMutation.prepareInSpace amb req self).2 = .ok state →
        Answers state.receipt req ∧ ∃ data, state = .mutation fabric data ∧
          data.nextFrontier = advance self.frontier fabric.causal ∧
          PreviewedAt self req.ctx data root := by
  have hrollback : ∀ (replica : Replica) (fabric : Engine.Prepared) (failure : Failure),
      (replica.rollbackAfter fabric failure).1.ledger = replica.ledger ∧
        (replica.rollbackAfter fabric failure).1.rawMaterial = replica.rawMaterial ∧
        ∀ state, (replica.rollbackAfter fabric failure).2 ≠ .ok state := by
    intro replica fabric failure
    unfold rollbackAfter
    split <;> exact ⟨rfl, rfl, fun _ h => nomatch h⟩
  unfold prepareMutation.prepareInSpace
  split
  · exact .inl ⟨rfl, rfl, fun _ h => nomatch h⟩
  case h_2 declared sealing hcheck =>
    have hsealing : self.durable.isSome → sealing = true := by
      intro hsome
      unfold checkMutation at hcheck
      obtain ⟨_, -, hcheck⟩ := bind_eq_ok.mp hcheck
      obtain ⟨_, -, hcheck⟩ := bind_eq_ok.mp hcheck
      obtain ⟨_, -, hcheck⟩ := bind_eq_ok.mp hcheck
      obtain ⟨_, -, hcheck⟩ := bind_eq_ok.mp hcheck
      obtain ⟨sealing', hseal, hcheck⟩ := bind_eq_ok.mp hcheck
      cases hcheck
      unfold sealingOf at hseal
      split at hseal
      · cases hseal
        rfl
      · rw [if_pos hsome] at hseal
        cases hseal
    have hframe := prepareOps_frame self req.ops
    split
    case h_1 h =>
      rw [h] at hframe
      obtain ⟨_, _, rfl⟩ := hframe
      exact .inl ⟨rfl, rfl, fun _ h => nomatch h⟩
    case h_2 replica fabric h =>
      have hprepared : (self.prepareOps req.ops).2 = .ok fabric := congrArg Prod.snd h
      rw [h] at hframe
      obtain ⟨engine, poisoned, rfl⟩ := hframe
      have hassembled := assemble_assembled { self with fabric := engine, poisoned } amb req sealing
        declared fabric hsealing
      split
      case h_1 replica failure heq =>
        rw [heq] at hassembled
        obtain ⟨hledger, hraw, hne⟩ := hrollback replica fabric failure
        cases hassembled with
        | quiet hworking hresult =>
            obtain ⟨_, rfl⟩ := hworking
            exact .inl ⟨hledger, hraw, fun state h => absurd h (hne state)⟩
        | previewed hsome hworking hroot hresult =>
            obtain ⟨_, rfl⟩ := hworking
            exact .inr ⟨fabric, _, _, hprepared, hsome, hroot, hledger, hraw,
              fun state h => absurd h (hne state)⟩
      case h_2 replica data heq =>
        rw [heq] at hassembled
        cases hassembled with
        | quiet hworking hresult =>
            obtain ⟨_, rfl⟩ := hworking
            refine .inl ⟨rfl, rfl, fun state h => ?_⟩
            cases h
            obtain ⟨hnone, hnext, hanswers⟩ := hresult data rfl
            refine ⟨hanswers, fun fabric' data' h => ?_⟩
            cases h
            exact ⟨hnone, hnext⟩
        | previewed hsome hworking hroot hresult =>
            obtain ⟨_, rfl⟩ := hworking
            refine .inr ⟨fabric, _, _, hprepared, hsome, hroot, rfl, rfl, fun state h => ?_⟩
            cases h
            obtain ⟨hnext, hpreview, hanswers⟩ := hresult data rfl
            exact ⟨hanswers, data, rfl, hnext, hpreview.congr rfl rfl⟩

/-- What preparing a state leaves: nothing is signed, or a preview is. -/
inductive PreparesState (self : Replica) (req : ActionRequest) (absence : Option ReceiptAbsence)
    (prepared : Replica × Except Failure PreparedState) : Prop
  | quiet (hledger : prepared.1.ledger = self.ledger)
      (hraw : prepared.1.rawMaterial = self.rawMaterial)
      (hresult : ∀ state, prepared.2 = .ok state →
        Answers state.receipt req ∧ ∀ fabric data, state = .mutation fabric data →
          self.durable = none ∧ data.nextFrontier = advance self.frontier fabric.causal)
  | previewed {fabric : Engine.Prepared} {manifestBodies : BTreeMap Bytes ManifestEntry}
      {root : ManifestRoot} (hengine : self.enginePreparation req absence = .ok fabric)
      (hsome : self.durable.isSome)
      (hroot : signRoot req.ctx (advance self.frontier fabric.causal) manifestBodies
        self.catalogs.contentIndex = some root)
      (hledger : prepared.1.ledger = { self.ledger with signed := root :: self.signed })
      (hraw : prepared.1.rawMaterial = self.rawMaterial)
      (hresult : ∀ state, prepared.2 = .ok state →
        Answers state.receipt req ∧ ∃ data, state = .mutation fabric data ∧
          data.nextFrontier = advance self.frontier fabric.causal ∧
          PreviewedAt self req.ctx data root)

section State

variable {self replica : Replica} {req : ActionRequest} {absence : Option ReceiptAbsence}

omit [OpCodec] in
/-- A state that failed is no action. -/
theorem PreparesState.failed {failure : Failure}
    (h : PreparesState self req absence (replica, .error failure)) :
    Prepares self req absence replica (.error failure) := by
  cases h with
  | quiet hledger hraw => exact .quiet hledger hraw fun _ h => by cases h
  | previewed hengine hsome hroot hledger hraw =>
      exact .previewed hengine hsome hroot hledger hraw fun _ h => by cases h

omit [OpCodec] in
/-- A state becomes an action on what the Replica stood at. -/
theorem PreparesState.prepared {state : PreparedState}
    (h : PreparesState self req absence (replica, .ok state)) :
    Prepares self req absence { replica with preparedInFlight := true }
      (.ok (.prepared ⟨self.currentManifestRoot, self.frontier, state⟩)) := by
  cases h with
  | quiet hledger hraw hresult =>
      obtain ⟨hanswers, hvolatile⟩ := hresult state rfl
      refine .quiet hledger hraw fun action hprepared => ?_
      cases hprepared
      exact ⟨rfl, rfl, hanswers, hvolatile⟩
  | previewed hengine hsome hroot hledger hraw hresult =>
      obtain ⟨hanswers, hdata⟩ := hresult state rfl
      refine .previewed hengine hsome hroot hledger hraw fun action hprepared => ?_
      cases hprepared
      exact ⟨rfl, rfl, hanswers, hdata⟩

omit [OpCodec] in
/-- A request without operations has its receipt prepared. -/
theorem prepareNoop_prepares (hledger : replica.ledger = self.ledger)
    (hraw : replica.rawMaterial = self.rawMaterial) :
    PreparesState self req absence (replica, replica.prepareNoop req) := by
  refine .quiet hledger hraw fun state hnoop => ?_
  unfold prepareNoop at hnoop
  dsimp only at hnoop
  obtain ⟨_, -, hnoop⟩ := bind_eq_ok.mp hnoop
  split at hnoop
  · cases hnoop
  · cases hnoop
    exact ⟨⟨rfl, rfl⟩, fun _ _ h => by cases h⟩

omit [ReceiptMemory] in
/-- The Space is pinned, or is the request's own from here on. -/
theorem prepareMutation_eq (self : Replica) (amb : Ambient) (req : ActionRequest) :
    (∃ failure, self.prepareMutation amb req = (self, .error failure)) ∨
      self.prepareMutation amb req =
        prepareMutation.prepareInSpace amb req { self with space := some req.ctx.space } := by
  unfold prepareMutation
  split
  case h_1 space hspace =>
    split
    · exact .inl ⟨_, rfl⟩
    case isFalse hsame =>
      obtain rfl : space = req.ctx.space := by simpa using hsame
      rw [← hspace]
      exact .inr rfl
  case h_2 => exact .inr rfl

/-- A request with operations, after the receipt was looked for. -/
theorem prepareMutation_prepares {cache : ReceiptCache} (amb : Ambient)
    (hframe : (self.checkReceipt req absence).1 = { self with receiptCache := cache }) :
    PreparesState self req absence
      (prepareMutation { self with receiptCache := cache } amb req) := by
  rcases prepareMutation_eq { self with receiptCache := cache } amb req with
    ⟨failure, hrefused⟩ | hpinned
  · rw [hrefused]
    exact .quiet rfl rfl fun _ h => by cases h
  · rw [hpinned]
    have hengine : self.enginePreparation req absence
        = (prepareOps { self with receiptCache := cache, space := some req.ctx.space } req.ops).2 := by
      unfold enginePreparation
      rw [hframe]
    rcases prepareInSpace_prepares
      { self with receiptCache := cache, space := some req.ctx.space } amb req with
      ⟨hledger, hraw, hresult⟩ |
        ⟨fabric, bodies, root, hfabric, hsome, hroot, hledger, hraw, hresult⟩
    · exact .quiet hledger hraw hresult
    · refine .previewed (hengine.trans hfabric) hsome hroot hledger hraw fun state hstate => ?_
      obtain ⟨hanswers, data, hdata, hnext, hpreview⟩ := hresult state hstate
      exact ⟨hanswers, data, hdata, hnext, hpreview.congr rfl rfl⟩

end State

/-- **What preparing an action leaves.** -/
theorem prepareAction_prepares (self : Replica) (amb : Ambient) (req : ActionRequest)
    (absence : Option ReceiptAbsence) :
    Prepares self req absence (self.prepareAction amb req absence).1
      (self.prepareAction amb req absence).2 := by
  unfold prepareAction
  split
  · exact .quiet rfl rfl fun _ h => by cases h
  · obtain ⟨cache, hframe⟩ := checkReceipt_frame self req absence
    split
    case h_1 h =>
      rw [h] at hframe
      obtain rfl := hframe
      exact .quiet rfl rfl fun _ h => by cases h
    case h_2 h =>
      rw [h] at hframe
      obtain rfl := hframe
      exact .quiet rfl rfl fun _ h => by cases h
    case h_3 replica hcheck =>
      have hreplica := hframe
      rw [hcheck] at hreplica
      obtain rfl : replica = { self with receiptCache := cache } := hreplica
      split
      · exact .quiet rfl rfl fun _ h => by cases h
      · have hstate : PreparesState self req absence
            (if req.ops.isEmpty then
              ({ self with receiptCache := cache },
                prepareNoop { self with receiptCache := cache } req)
            else prepareMutation { self with receiptCache := cache } amb req) := by
          split
          · exact prepareNoop_prepares rfl rfl
          · exact prepareMutation_prepares amb hframe
        dsimp only
        split
        case h_1 h =>
          rw [h] at hstate
          exact hstate.failed
        case h_2 h =>
          rw [h] at hstate
          exact hstate.prepared

omit [OpCodec] in
/-- A preparation publishes nothing. -/
theorem Prepares.keeps {self self' : Replica} {req : ActionRequest}
    {absence : Option ReceiptAbsence} {result : Except Failure PreparedOutcome}
    (h : Prepares self req absence self' result) : Keeps self self' := by
  obtain ⟨hdurable, hroot, hbodies, hraw⟩ : self'.durable = self.durable ∧
      self'.manifestRootObject = self.manifestRootObject ∧ self'.bodies = self.bodies ∧
      self'.rawMaterial = self.rawMaterial := by
    cases h with
    | quiet hledger hraw =>
        exact ⟨congrArg Ledger.durable hledger, congrArg Ledger.manifestRootObject hledger,
          congrArg Ledger.bodies hledger, hraw⟩
    | previewed _ _ _ hledger hraw =>
        exact ⟨congrArg Ledger.durable hledger, congrArg Ledger.manifestRootObject hledger,
          congrArg Ledger.bodies hledger, hraw⟩
  exact .of_kept (hdurable ▸ Kept.refl self.durable) hroot hbodies hraw

/-- A prepared mutation was assembled, over the store of the Replica that prepared it. -/
theorem prepareAction_assembles {self self' : Replica} {amb : Ambient} {req : ActionRequest}
    {absence : Option ReceiptAbsence} {action : PreparedAction} {fabric : Engine.Prepared}
    {data : PreparedMutation}
    (h : self.prepareAction amb req absence = (self', .ok (.prepared action)))
    (hstate : action.state = .mutation fabric data) :
    ∃ (before after : Replica) (sealing : Bool) (declared : BTreeMap BodyKey (List Bytes)),
      before.durable = self.durable ∧
        before.assemble amb req sealing declared fabric = (after, .ok data) := by
  obtain ⟨cache, hframe⟩ := checkReceipt_frame self req absence
  have hspace : ∀ before : Replica, before.durable = self.durable → ∀ after,
      prepareMutation.prepareInSpace amb req before = (after, .ok (.mutation fabric data)) →
      ∃ (before after : Replica) (sealing : Bool) (declared : BTreeMap BodyKey (List Bytes)),
        before.durable = self.durable ∧
          before.assemble amb req sealing declared fabric = (after, .ok data) := by
    intro before hbefore after h
    unfold prepareMutation.prepareInSpace at h
    split at h
    case h_1 => cases h
    case h_2 declared sealing _ =>
        have hops := prepareOps_frame before req.ops
        split at h
        case h_1 => cases h
        case h_2 applied prepared hprepared =>
            rw [hprepared] at hops
            obtain ⟨_, _, rfl⟩ := hops
            split at h
            case h_1 =>
                unfold rollbackAfter at h
                split at h <;> cases h
            case h_2 hassemble =>
                cases h
                refine ⟨_, _, sealing, declared, ?_, hassemble⟩
                exact hbefore
  unfold prepareAction at h
  split at h
  case h_1 => cases h
  case h_2 =>
      split at h
      case h_1 => cases h
      case h_2 => cases h
      case h_3 checked hcheck =>
          rw [hcheck] at hframe
          obtain rfl := hframe
          split at h
          case isTrue => cases h
          case isFalse =>
              dsimp only at h
              split at h
              case h_1 => cases h
              case h_2 prepared state hprepare =>
                  cases h
                  obtain rfl : state = .mutation fabric data := hstate
                  split at hprepare
                  case isTrue =>
                      obtain ⟨-, hnoop⟩ := Prod.mk.inj hprepare
                      unfold prepareNoop at hnoop
                      obtain ⟨_, -, hnoop⟩ := bind_eq_ok.mp hnoop
                      obtain ⟨-, hnoop⟩ := guard_eq_ok.mp hnoop
                      cases hnoop
                  case isFalse =>
                      unfold prepareMutation at hprepare
                      split at hprepare
                      case h_1 =>
                          split at hprepare
                          case isTrue => cases hprepare
                          case isFalse =>
                              refine hspace _ ?_ _ hprepare
                              rfl
                      case h_2 =>
                          refine hspace _ ?_ _ hprepare
                          rfl

/-! ## Filling in the records twice -/

section Filled

omit [Loro] [Aead] [ReceiptCodecs] [Algebra] [ReceiptMemory] [OpCodec]

/-- A locally sealed head, filled in from its signed descriptor. -/
def fillHead (tx : Transaction) (durable : Bool) (descriptor : Descriptor) (head : BodyHead) :
    BodyHead :=
  { head with
    artifacts := none
    transaction := if durable then some (objectRef tx.encode) else none
    txCommitment := txCommitment tx.encode
    artifactBytes := saturatingSum (descriptor.artifactRefs.map ArtifactRef.len)
    txLen := tx.encode.length
    descriptorHash := descriptorHash descriptor }

theorem modifyHead_fillHead (tx : Transaction) (durable : Bool) (descriptor : Descriptor)
    (heads : List BodyHead) :
    (heads.modifyHead (fillHead tx durable descriptor)).modifyHead (fillHead tx durable descriptor)
      = heads.modifyHead (fillHead tx durable descriptor) := by
  cases heads <;> rfl

theorem populateOne_eq_ok {tx : Transaction} {durable : Bool}
    {records records' : BTreeMap BodyKey (Option BodyRecord)} {body : SealedBody}
    (h : populateOne tx durable records body = .ok records') :
    ∃ descriptor record, descriptorFor tx body.key = some descriptor ∧
      records[body.key]? = some (some record) ∧
      records' = records.insert body.key (some { record with
        heads := record.heads.modifyHead (fillHead tx durable descriptor) }) := by
  unfold populateOne at h
  obtain ⟨descriptor, hdescriptor, h⟩ := bind_eq_ok.mp h
  obtain ⟨_, -, h⟩ := bind_eq_ok.mp h
  split at h
  case h_1 record hrecord =>
    obtain ⟨_, -, h⟩ := bind_eq_ok.mp h
    cases h
    refine ⟨descriptor, record, ?_, hrecord, rfl⟩
    cases hget : descriptorFor tx body.key with
    | none => simp [okOr, hget] at hdescriptor
    | some d =>
        rw [hget] at hdescriptor
        rw [← Except.ok.inj hdescriptor]
  case h_2 => cases h

/-- A Body whose record is filled in. -/
def Filled (tx : Transaction) (durable : Bool) (body : SealedBody)
    (records : BTreeMap BodyKey (Option BodyRecord)) : Prop :=
  ∀ descriptor record, descriptorFor tx body.key = some descriptor →
    records[body.key]? = some (some record) →
      record.heads.modifyHead (fillHead tx durable descriptor) = record.heads

theorem filled_populateOne {tx : Transaction} {durable : Bool} {body : SealedBody}
    {records records' : BTreeMap BodyKey (Option BodyRecord)} {other : SealedBody}
    (hbody : Filled tx durable body records ∨ body.key = other.key)
    (h : populateOne tx durable records other = .ok records') : Filled tx durable body records' := by
  obtain ⟨descriptor, record, hdescriptor, hrecord, rfl⟩ := populateOne_eq_ok h
  intro descriptor' record' hdescriptor' hrecord'
  rw [BTreeMap.get_insert] at hrecord'
  split at hrecord'
  case isTrue hkey =>
    rw [← hkey, hdescriptor] at hdescriptor'
    cases hdescriptor'
    cases hrecord'
    exact modifyHead_fillHead tx durable descriptor record.heads
  case isFalse hkey =>
    rcases hbody with hfilled | hsame
    · exact hfilled descriptor' record' hdescriptor' hrecord'
    · exact absurd hsame.symm hkey

theorem populateOne_of_filled {tx : Transaction} {durable : Bool} {body : SealedBody}
    {records records' : BTreeMap BodyKey (Option BodyRecord)} (hfilled : Filled tx durable body records)
    (h : populateOne tx durable records body = .ok records') : records' = records := by
  obtain ⟨descriptor, record, hdescriptor, hrecord, rfl⟩ := populateOne_eq_ok h
  apply BTreeMap.ext
  intro k
  rw [BTreeMap.get_insert, hfilled descriptor record hdescriptor hrecord]
  split
  case isTrue hk => rw [← hk, hrecord]
  case isFalse => rfl

/-- Filling in filled-in records changes nothing. -/
theorem populateLocalRecordRefs_idem {tx : Transaction} {durable : Bool} {bodies : List SealedBody}
    {records records' records'' : BTreeMap BodyKey (Option BodyRecord)}
    (h : populateLocalRecordRefs tx durable bodies records = .ok records')
    (h' : populateLocalRecordRefs tx durable bodies records' = .ok records'') :
    records'' = records' := by
  have hkeeps : ∀ (l : List SealedBody) {records records' : BTreeMap BodyKey (Option BodyRecord)}
      (body : SealedBody), l.foldlM (populateOne tx durable) records = .ok records' →
      Filled tx durable body records ∨ body ∈ l → Filled tx durable body records' := by
    intro l
    induction l with
    | nil =>
        rintro records records' body h (hfilled | hmem)
        · cases h
          exact hfilled
        · cases hmem
    | cons other l ih =>
        intro records records' body h hbody
        obtain ⟨records₁, hone, hrest⟩ := foldlM_cons_eq_ok.mp h
        rcases hbody with hfilled | hmem
        · exact ih body hrest (.inl (filled_populateOne (.inl hfilled) hone))
        · rcases List.mem_cons.mp hmem with rfl | hmem
          · exact ih body hrest (.inl (filled_populateOne (.inr rfl) hone))
          · exact ih body hrest (.inr hmem)
  refine foldlM_invariant (P := fun held => held = records') ?_ h' rfl
  rintro held held' body hmem rfl hone
  exact populateOne_of_filled (hkeeps bodies body h (.inr hmem)) hone

end Filled

/-! ## Finalizing -/

omit [Crypto] [Aead] [Codecs] [Algebra] [ReceiptMemory] [OpCodec] [ReceiptCodecs] in
/-- Installing the committed records. -/
theorem foldl_installCommitted (entries : List (BodyKey × Option BodyRecord)) (self : Replica) :
    ∃ raw, entries.foldl (fun self entry => installCommitted self entry.1 entry.2) self
      = { self with rawMaterial := raw, bodies := entries.foldl BTreeMap.change self.bodies } := by
  induction entries generalizing self with
  | nil => exact ⟨_, rfl⟩
  | cons entry entries ih =>
      obtain ⟨key, record⟩ := entry
      have hone : ∃ raw, installCommitted self key record
          = { self with rawMaterial := raw, bodies := BTreeMap.change self.bodies (key, record) } := by
        cases record with
        | none => exact ⟨_, rfl⟩
        | some record => exact ⟨_, rfl⟩
      obtain ⟨raw, hone⟩ := hone
      obtain ⟨raw', hrest⟩ := ih { self with
        rawMaterial := raw, bodies := BTreeMap.change self.bodies (key, record) }
      rw [List.foldl_cons]
      dsimp only
      rw [hone]
      exact ⟨raw', hrest⟩

omit [Algebra] [ReceiptMemory] [OpCodec] in
/-- What accepting a commit installs. -/
theorem acceptCommitted_frame (self : Replica) (amb : Ambient) (data : PreparedMutation)
    (records : BTreeMap BodyKey (Option BodyRecord)) :
    (self.acceptCommitted amb data records).ledger = { self.ledger with
        frontier := data.nextFrontier, bodies := BTreeMap.overlay self.bodies records } ∧
      (self.acceptCommitted amb data records).receiptCache = self.receiptCache ∧
      (self.acceptCommitted amb data records).receipts =
        if self.durable.isSome then self.receipts
        else self.receipts.insert data.receipt.scopeKey data.receipt := by
  obtain ⟨raw, hfold⟩ := foldl_installCommitted records.toList self
  unfold acceptCommitted
  dsimp only
  rw [hfold]
  dsimp only
  obtain ⟨jobs, fabric, hsettle⟩ := settle_frame
    { self with
      rawMaterial := raw
      bodies := records.toList.foldl BTreeMap.change self.bodies
      frontier := data.nextFrontier
      receipts :=
        if self.durable.isSome then self.receipts
        else self.receipts.insert data.receipt.scopeKey data.receipt
      fabric := self.fabric.finalize } amb
    ((records.toList.filter fun entry => entry.2.isSome).map Prod.fst)
  rw [hsettle]
  exact ⟨rfl, rfl, rfl⟩

/-! ## The heads of an action -/

section Stamped

omit [ReceiptMemory]

/-- The heads of an action's records are of its transaction, if it has one. -/
abbrev Stamped (tx : Option Transaction) (records : BTreeMap BodyKey (Option BodyRecord)) : Prop :=
  BTreeMap.Every (fun _ record => ∀ written ∈ record, ∀ head ∈ BodyRecord.heads written,
    head.Named ∧ ∀ signed ∈ tx, head.tx = Transaction.id signed) records

omit [Loro] [Aead] [ReceiptCodecs] [Algebra] [OpCodec] in
theorem Stamped.namedIn {tx : Option Transaction}
    {records : BTreeMap BodyKey (Option BodyRecord)} (h : Stamped tx records) : NamedIn records :=
  fun key record hkey written hmem head hhead => (h key record hkey written hmem head hhead).1

/-- The records of an assembly have one head each, which no object holds. -/
abbrev Unsigned (records : BTreeMap BodyKey (Option BodyRecord)) : Prop :=
  BTreeMap.Every (fun _ record => ∀ written ∈ record, ∃ head, BodyRecord.heads written = [head] ∧
    head.transaction = none) records

omit [ReceiptCodecs] [OpCodec] in
theorem assembleOne_unsigned {self : Replica} {amb : Ambient} {req : ActionRequest} {seed : Bytes}
    {sealing : Bool} {acc acc' : Assembly} {key : BodyKey} (hacc : Unsigned acc.newRecords)
    (h : (self.assembleOne amb req seed sealing acc key).2 = .ok acc') :
    Unsigned acc'.newRecords := by
  unfold assembleOne at h
  split at h
  · cases h
    exact hacc.insert fun _ h => by cases h
  · dsimp only at h
    split at h
    · cases h
    · split at h
      · cases h
        refine hacc.insert ?_
        rintro _ ⟨⟩
        exact ⟨_, rfl, rfl⟩
      · split at h
        · cases h
        · split at h
          · cases h
          · cases h
            refine hacc.insert ?_
            rintro _ ⟨⟩
            exact ⟨_, rfl, rfl⟩

omit [ReceiptCodecs] [OpCodec] in
theorem assembleAll_unsigned {amb : Ambient} {req : ActionRequest} {seed : Bytes} {sealing : Bool}
    {keys : List BodyKey} {self : Replica} {acc acc' : Assembly} (hacc : Unsigned acc.newRecords)
    (h : (assembleAll amb req seed sealing keys self acc).2 = .ok acc') :
    Unsigned acc'.newRecords := by
  induction keys generalizing self acc with
  | nil =>
      cases h
      exact hacc
  | cons key keys ih =>
      unfold assembleAll at h
      split at h
      · cases h
      case h_2 hone => exact ih (assembleOne_unsigned hacc (congrArg Prod.snd hone)) h

omit [Loro] [Aead] [ReceiptCodecs] [Algebra] [OpCodec] in
theorem Unsigned.stampIds {records : BTreeMap BodyKey (Option BodyRecord)} (h : Unsigned records)
    (tx : Transaction) : Stamped (some tx) (stampIds tx.id records) := by
  intro key record hkey written hmem head hhead
  unfold Replica.stampIds at hkey
  rw [BTreeMap.get_map] at hkey
  obtain ⟨prior, hprior, rfl⟩ := Option.map_eq_some_iff.mp hkey
  obtain ⟨held, rfl, rfl⟩ := Option.map_eq_some_iff.mp hmem
  obtain ⟨first, hheads, hnone⟩ := h key (some held) hprior held rfl
  dsimp only at hhead
  rw [hheads] at hhead
  obtain rfl := List.mem_singleton.mp hhead
  refine ⟨fun object hobject => ?_, ?_⟩
  · dsimp only at hobject
    rw [hnone] at hobject
    cases hobject
  · rintro _ ⟨⟩
    rfl

omit [Loro] [Aead] [ReceiptCodecs] [Algebra] [OpCodec] in
theorem Unsigned.stamped {records : BTreeMap BodyKey (Option BodyRecord)} (h : Unsigned records) :
    Stamped none records := by
  intro key record hkey written hmem head hhead
  obtain ⟨first, hheads, hnone⟩ := h key record hkey written hmem
  rw [hheads] at hhead
  obtain rfl := List.mem_singleton.mp hhead
  refine ⟨fun object hobject => ?_, fun _ h => by cases h⟩
  rw [hnone] at hobject
  cases hobject

omit [Loro] [Aead] [ReceiptCodecs] [Algebra] [OpCodec] in
/-- Filling in refers to the transaction. -/
theorem populateLocalRecordRefs_stamped {tx : Transaction} {durable : Bool}
    {bodies : List SealedBody} {records records' : BTreeMap BodyKey (Option BodyRecord)}
    (hrecords : Stamped (some tx) records)
    (h : populateLocalRecordRefs tx durable bodies records = .ok records') :
    Stamped (some tx) records' := by
  refine foldlM_invariant (P := Stamped (some tx)) (fun held held' body _ hheld hone => ?_) h hrecords
  obtain ⟨descriptor, record, -, hrecord, rfl⟩ := populateOne_eq_ok hone
  refine hheld.insert ?_
  rintro _ ⟨⟩ head hhead
  dsimp only at hhead
  have hprior := hheld body.key (some record) hrecord record rfl
  cases hheads : record.heads with
  | nil =>
      rw [hheads] at hhead
      cases hhead
  | cons first rest =>
      rw [hheads] at hhead hprior
      obtain ⟨hfirst, hrest⟩ := List.forall_mem_cons.mp hprior
      rcases List.mem_cons.mp hhead with rfl | hhead
      · have htx : first.tx = tx.id := hfirst.2 tx rfl
        refine ⟨fun object hobject => ?_, fun signed hsigned => hfirst.2 signed hsigned⟩
        unfold fillHead at hobject
        dsimp only at hobject
        split at hobject
        · cases hobject
          exact ⟨tx.encode, rfl, htx.symm⟩
        · cases hobject
      · exact hrest head hhead

omit [Aead] [OpCodec] in
theorem completeAssembly_stamped {self : Replica} {req : ActionRequest} {assembly : Assembly}
    {tx : Option Transaction} {records records' : BTreeMap BodyKey (Option BodyRecord)}
    {nextFrontier : ReplicaFrontier} {receipt : RequestReceipt} (hrecords : Stamped tx records)
    (h : self.completeAssembly req assembly tx records nextFrontier = .ok (receipt, records')) :
    Stamped tx records' := by
  unfold completeAssembly at h
  dsimp only at h
  obtain ⟨_, -, h⟩ := bind_eq_ok.mp h
  cases tx with
  | none =>
      obtain ⟨_, hfilled, h⟩ := bind_eq_ok.mp h
      obtain ⟨_, -, h⟩ := bind_eq_ok.mp h
      cases hfilled
      cases h
      exact hrecords
  | some signed =>
      obtain ⟨_, hfilled, h⟩ := bind_eq_ok.mp h
      obtain ⟨_, -, h⟩ := bind_eq_ok.mp h
      cases h
      exact populateLocalRecordRefs_stamped hrecords hfilled

/-- **An assembly stamps what it signs.** -/
theorem assemble_stamped {self self' : Replica} {amb : Ambient} {req : ActionRequest}
    {sealing : Bool} {declared : BTreeMap BodyKey (List Bytes)} {fabric : Engine.Prepared}
    {data : PreparedMutation}
    (h : self.assemble amb req sealing declared fabric = (self', .ok data)) :
    Stamped data.transaction data.newRecords := by
  unfold assemble at h
  dsimp only at h
  split at h
  case h_1 => cases h
  case h_2 seed _ =>
      split at h
      case h_1 => cases h
      case h_2 assembled assembly hassembled =>
          have hunsigned : Unsigned assembly.newRecords :=
            assembleAll_unsigned BTreeMap.every_empty (congrArg Prod.snd hassembled)
          split at h
          case h_1 => cases h
          case h_2 tx records htransaction =>
              split at h
              case h_1 => cases h
              case h_2 receipt filled hcomplete =>
                  have hrecords : Stamped tx records := by
                    unfold assembleTransaction at htransaction
                    split at htransaction
                    · cases htransaction
                      exact hunsigned.stamped
                    · obtain ⟨signed, -, htransaction⟩ := bind_eq_ok.mp htransaction
                      cases htransaction
                      exact hunsigned.stampIds signed
                  have hstamped := completeAssembly_stamped hrecords hcomplete
                  split at h
                  case h_1 => cases h
                  case h_2 =>
                      split at h
                      case h_1 => cases h
                      case h_2 =>
                          cases h
                          exact hstamped

end Stamped

/-! ## Finalizing keeps -/

section Finalize

omit [Algebra] [OpCodec]

omit [Aead] [ReceiptCodecs] [ReceiptMemory] in
/-- What is retained in memory is under the transaction's own id. -/
theorem retainAction_keeps (tx : Transaction) (bodies : List SealedBody) (self : Replica) :
    Keeps self (retainAction tx bodies self).1 := by
  induction bodies generalizing self with
  | nil => exact .refl self
  | cons body bodies ih =>
      unfold retainAction
      split
      · exact .refl self
      case h_2 pack _ =>
        have hone : Keeps self { self with
            rawMaterial := self.rawMaterial.insert body.key [(tx.id, pack, tx.encode)] } :=
          (Keeps.refl self).install rfl rfl fun h _ =>
            ⟨h.stored, h.heads, h.retained.insert (List.forall_mem_singleton.mpr rfl)⟩
        exact hone.trans (ih _)

theorem persistTransaction_writes (self : Replica) (amb : Ambient) (ctx : CommitContext)
    {data : PreparedMutation} {tx : Transaction} (hdata : Stamped (some tx) data.newRecords) :
    Writes self (self.persistTransaction amb ctx data tx) := by
  unfold persistTransaction
  split
  · exact .failed (.refl self) _
  case h_2 records hrecords =>
    have hstamped := populateLocalRecordRefs_stamped hdata hrecords
    split
    · exact .failed (.refl self) _
    case h_2 newObjects _ =>
      have hwrites := persist_writes self amb (actionRequest ctx data records newObjects)
        fun _ => hstamped.namedIn
      split
      case h_1 h =>
        rw [h] at hwrites
        exact .failed hwrites.keeps _
      case h_2 h =>
        rw [h] at hwrites
        exact ⟨hwrites.keeps.trans (.of_eq rfl), hwrites.named⟩

theorem publishMutation_writes (self : Replica) (amb : Ambient) (ctx : CommitContext)
    (fabric : Engine.Prepared) {data : PreparedMutation}
    (hdata : Stamped data.transaction data.newRecords) :
    Writes self (self.publishMutation amb ctx fabric data) := by
  have hrecords : ∀ changed, Except.ok (ε := Failure) data.newRecords = .ok changed →
      self.Identified → NamedIn changed := by
    rintro _ ⟨⟩ _
    exact hdata.namedIn
  unfold publishMutation
  split
  · exact ⟨.refl self, hrecords⟩
  case h_2 tx htx =>
    split
    · have hwrites := persistTransaction_writes self amb ctx (htx ▸ hdata)
      split
      case h_1 h => rwa [h] at hwrites
      case h_2 h =>
        rw [h] at hwrites
        split
        · refine .failed (hwrites.keeps.trans ?_) _
          exact .of_eq rfl
        · refine .failed (hwrites.keeps.trans ?_) _
          exact .of_eq rfl
    · have hretain := retainAction_keeps tx data.sealed' self
      split
      case h_1 h =>
        rw [h] at hretain
        exact .failed hretain _
      case h_2 h =>
        rw [h] at hretain
        exact ⟨hretain, hrecords⟩

omit [ReceiptMemory] in
theorem Writes.acceptCommitted {self replica : Replica}
    {records : BTreeMap BodyKey (Option BodyRecord)} (h : Writes self (replica, .ok records))
    (amb : Ambient) (data : PreparedMutation) :
    Keeps self (replica.acceptCommitted amb data records) := by
  obtain ⟨hledger, -⟩ := acceptCommitted_frame replica amb data records
  refine h.keeps.install (congrArg Ledger.durable hledger)
    (congrArg Ledger.manifestRootObject hledger) fun hself hreplica => ?_
  have hnamed := h.named records rfl hself
  have hinstalled : (records.toList.foldl (fun self entry =>
      Replica.installCommitted self entry.1 entry.2) replica).Identified := by
    refine List.foldlRecOn _ _ hreplica fun self h entry hentry => ?_
    have hentry := BTreeMap.mem_toList_iff.mp hentry
    cases hrecord : entry.2 with
    | none => exact ⟨h.stored, h.heads.erase entry.1, h.retained.erase entry.1⟩
    | some record =>
        refine ⟨h.stored, h.heads.insert (hnamed _ _ hentry record hrecord), ?_⟩
        show BTreeMap.Every _ (if _ then _ else _)
        split
        · exact h.retained.erase entry.1
        · exact h.retained
  unfold Replica.acceptCommitted
  dsimp only
  obtain ⟨_, _, hsettle⟩ := settle_frame _ amb
    ((records.toList.filter fun entry => entry.2.isSome).map Prod.fst)
  rw [hsettle]
  exact ⟨hinstalled.stored, hinstalled.heads, hinstalled.retained⟩

theorem finalizeMutation_keeps (self : Replica) (amb : Ambient) (ctx : CommitContext)
    (fabric : Engine.Prepared) {data : PreparedMutation}
    (hdata : Stamped data.transaction data.newRecords) :
    Keeps self (self.finalizeMutation amb ctx fabric data).1 := by
  unfold finalizeMutation
  split
  · exact .of_eq rfl
  · have hpinned : Keeps self { self with space := some ctx.space } := .of_eq rfl
    have hwrites := publishMutation_writes { self with space := some ctx.space } amb ctx
      fabric hdata
    dsimp only
    split
    case h_1 h =>
      rw [h] at hwrites
      exact hpinned.trans hwrites.keeps
    case h_2 h =>
      rw [h] at hwrites
      have haccepted := hpinned.trans (hwrites.acceptCommitted amb data)
      split
      · exact haccepted.trans (.of_eq rfl)
      · exact haccepted

theorem persistReceiptOnly_keeps (self : Replica) (amb : Ambient) (receipt : RequestReceipt) :
    Keeps self (self.persistReceiptOnly amb receipt).1 := by
  have hwrites := persist_writes self amb (self.receiptRequest receipt)
    fun _ => BTreeMap.every_empty
  unfold persistReceiptOnly
  split
  case h_1 h =>
    rw [h] at hwrites
    exact hwrites.keeps
  case h_2 h =>
    rw [h] at hwrites
    exact hwrites.keeps.trans (.of_eq rfl)

omit [Crypto] [Aead] [Codecs] [ReceiptCodecs] [ReceiptMemory] in
theorem dropPrepared_keeps [Crypto] (self : Replica) (prepared : PreparedAction) :
    Keeps self (self.dropPrepared prepared) := by
  unfold dropPrepared
  dsimp only
  split
  · exact .of_eq rfl
  · split <;> exact .of_eq rfl

/-- **What finalizing a preparation keeps.** -/
theorem finalize_keeps {self : Replica} (amb : Ambient) (ctx : CommitContext)
    {prepared : PreparedAction}
    (hprepared : ∀ fabric data, prepared.state = .mutation fabric data →
      Stamped data.transaction data.newRecords) :
    Keeps self (self.finalize amb ctx prepared).1 := by
  have hstate : Keeps self (self.finalizePrepared amb ctx prepared.state).1 := by
    cases hcase : prepared.state with
    | mutation fabric data =>
        exact finalizeMutation_keeps self amb ctx fabric (hprepared fabric data hcase)
    | noop receipt =>
        unfold finalizePrepared
        dsimp only
        split
        · have hreceipt := persistReceiptOnly_keeps self amb receipt
          split
          case h_1 h => rwa [h] at hreceipt
          case h_2 h =>
            rw [h] at hreceipt
            exact hreceipt
        · exact .of_eq rfl
  unfold finalize
  split
  · exact dropPrepared_keeps self prepared
  · exact hstate.trans (.of_eq rfl)

end Finalize

end Lait.Replica
