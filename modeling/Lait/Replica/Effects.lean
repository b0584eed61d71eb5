import Lait.Replica.PersistSpec
import Lait.Replica.Runs

/-!
# What an operation keeps

Whatever is done to a Replica, two things about it stay as they were when it was opened.

* `Rooted` — only a Replica with a store has published a root.
* `Identified` — a transaction id is the digest of the bytes the Replica holds under it,
  whether it retains them in memory or as an object that a head refers to.

An operation keeps both (`Keeps`).  What it leaves alone is said by frames, the fields that
move and no others.  What it writes goes through `persist`: the records a write answers name
what the records of its request do, and so does the store once it has sealed them
(`persist_writes`).
-/

namespace Lait.Replica

/-! ## Frames -/

section Frames

variable [Crypto] [Loro] [Aead] [Codecs]

omit [Aead] [Codecs] in
theorem applyChange_frame (self : Replica) (acc : Applied) (change : Planned) :
    ∃ fabric poisoned, (self.applyChange acc change).1 = { self with fabric, poisoned } := by
  unfold applyChange
  split
  case h_1 artifacts _ =>
    unfold applyInterpreted
    dsimp only
    repeat' split
    all_goals exact ⟨_, _, rfl⟩
  case h_2 => exact ⟨_, _, rfl⟩

omit [Aead] [Codecs] in
theorem applyChanges_frame (changes : List Planned) (self : Replica) (acc : Applied) :
    ∃ fabric poisoned, (applyChanges changes self acc).1 = { self with fabric, poisoned } := by
  induction changes generalizing self acc with
  | nil => exact ⟨_, _, rfl⟩
  | cons change changes ih =>
      obtain ⟨fabric, poisoned, hone⟩ := applyChange_frame self acc change
      unfold applyChanges
      split
      case h_1 h =>
        rw [h] at hone
        exact ⟨_, _, hone⟩
      case h_2 h =>
        rw [h] at hone
        obtain rfl := hone
        obtain ⟨fabric', poisoned', hrest⟩ := ih { self with fabric, poisoned } _
        exact ⟨fabric', poisoned', hrest⟩

theorem scheduleCheckpointIfHot_frame (self : Replica) (amb : Ambient) (key : BodyKey) :
    Working self (self.scheduleCheckpointIfHot amb key) := by
  unfold scheduleCheckpointIfHot
  repeat' split
  all_goals exact ⟨_, rfl⟩

theorem settle_frame (self : Replica) (amb : Ambient) (keys : List BodyKey) :
    ∃ jobs fabric, self.settle amb keys = { self with checkpointJobs := jobs, fabric } := by
  unfold settle
  induction keys generalizing self with
  | nil => exact ⟨_, _, rfl⟩
  | cons key keys ih =>
      obtain ⟨jobs, hjobs⟩ := scheduleCheckpointIfHot_frame self amb key
      have hone : ∃ fabric, (self.scheduleCheckpointIfHot amb key).releaseDurableAtomicWriterImage
          key = { self with checkpointJobs := jobs, fabric } := by
        rw [hjobs]
        unfold releaseDurableAtomicWriterImage
        repeat' split
        all_goals exact ⟨_, rfl⟩
      obtain ⟨fabric, hone⟩ := hone
      obtain ⟨jobs', fabric', hrest⟩ := ih { self with checkpointJobs := jobs, fabric }
      rw [List.foldl_cons, hone]
      exact ⟨jobs', fabric', hrest⟩

omit [Crypto] [Aead] in
theorem installRecords_frame (self : Replica) (changed : List Planned)
    (final : BTreeMap BodyKey BodyRecord) :
    ∃ jobs raw, self.installRecords changed final = { self with
      checkpointJobs := jobs
      rawMaterial := raw
      bodies := BTreeMap.overlay self.bodies (final.map fun _ record => some record) } := by
  have hfold : ∀ (entries : List (BodyKey × BodyRecord)) (self : Replica), ∃ jobs raw,
      entries.foldl (fun self entry => installRecord changed self entry.1 entry.2) self
        = { self with
            checkpointJobs := jobs
            rawMaterial := raw
            bodies := entries.foldl (fun m entry => m.insert entry.1 entry.2) self.bodies } := by
    intro entries
    induction entries with
    | nil => exact fun self => ⟨_, _, rfl⟩
    | cons entry entries ih =>
        intro self
        obtain ⟨jobs, raw, h⟩ := ih (installRecord changed self entry.1 entry.2)
        exact ⟨jobs, raw, h⟩
  obtain ⟨jobs, raw, h⟩ := hfold final.toList self
  rw [BTreeMap.foldl_insert_eq_overlay] at h
  exact ⟨jobs, raw, h⟩

theorem inflateAll_frame (needed : List (BodyKey × Material)) (self : Replica) :
    ∃ fabric, (inflateAll needed self).1 = { self with fabric } := by
  induction needed generalizing self with
  | nil => exact ⟨_, rfl⟩
  | cons entry needed ih =>
      obtain ⟨key, material⟩ := entry
      unfold inflateAll
      split
      · exact ⟨_, rfl⟩
      · split
        · exact ⟨_, rfl⟩
        · split
          · exact ⟨_, rfl⟩
          · split
            · exact ⟨_, rfl⟩
            case isFalse =>
              obtain ⟨fabric, h⟩ := ih _
              exact ⟨fabric, h⟩

theorem prepareOps_frame [Algebra] (self : Replica) (ops : List (BodyKey × Op)) :
    ∃ fabric poisoned, (self.prepareOps ops).1 = { self with fabric, poisoned } := by
  unfold prepareOps
  split
  · exact ⟨_, _, rfl⟩
  case h_2 needed _ =>
    obtain ⟨fabric, hinflate⟩ := inflateAll_frame needed.toList self
    split
    case h_1 h =>
      rw [h] at hinflate
      exact ⟨_, _, hinflate⟩
    case h_2 h =>
      rw [h] at hinflate
      obtain rfl := hinflate
      repeat' split
      all_goals exact ⟨_, _, rfl⟩

theorem assembleOne_frame [Algebra] (self : Replica) (amb : Ambient) (req : ActionRequest)
    (seed : Bytes) (sealing : Bool) (acc : Assembly) (key : BodyKey) :
    Working self (self.assembleOne amb req seed sealing acc key).1 := by
  unfold assembleOne
  split
  · exact Working.refl self
  · dsimp only
    split
    · exact Working.refl self
    case h_2 binding _ =>
      split
      · exact Working.refl self
      · have hnext := working_nextCausalMaterial self amb key
          (writtenRecord self.bodies[key]? binding seed)
          ((self.bodies[key]?).bind BodyRecord.causal) acc.newArtifacts
        split
        case h_1 h => rwa [h] at hnext
        case h_2 h =>
          rw [h] at hnext
          split <;> exact hnext

theorem assembleAll_frame [Algebra] (amb : Ambient) (req : ActionRequest) (seed : Bytes)
    (sealing : Bool) (keys : List BodyKey) (self : Replica) (acc : Assembly) :
    Working self (assembleAll amb req seed sealing keys self acc).1 := by
  induction keys generalizing self acc with
  | nil => exact Working.refl self
  | cons key keys ih =>
      have hone := assembleOne_frame self amb req seed sealing acc key
      unfold assembleAll
      split
      case h_1 h => rwa [h] at hone
      case h_2 h =>
        rw [h] at hone
        exact hone.trans (ih _ _)

omit [Aead] in
theorem retainAction_frame (tx : Transaction) (bodies : List SealedBody) (self : Replica) :
    ∃ raw, (retainAction tx bodies self).1 = { self with rawMaterial := raw } := by
  induction bodies generalizing self with
  | nil => exact ⟨_, rfl⟩
  | cons body bodies ih =>
      unfold retainAction
      split
      · exact ⟨_, rfl⟩
      · obtain ⟨raw, h⟩ := ih _
        exact ⟨raw, h⟩

end Frames

/-! ## The ledger -/

/-- The part of a Replica its store answers for, and what it holds of it in
memory. -/
structure Ledger where
  durable : Option Store
  catalogs : Catalogs
  manifestRootObject : Option Object
  generationFootprint : GenerationFootprint
  receiptCount : ℕ
  receiptMaterialBytes : ℕ
  frontier : ReplicaFrontier
  bodies : BTreeMap BodyKey BodyRecord
  declared : BTreeMap BodyKey (List Bytes)
  signed : List ManifestRoot

/-- The ledger of a Replica. -/
def ledger [Loro] (self : Replica) : Ledger where
  durable := self.durable
  catalogs := self.catalogs
  manifestRootObject := self.manifestRootObject
  generationFootprint := self.generationFootprint
  receiptCount := self.receiptCount
  receiptMaterialBytes := self.receiptMaterialBytes
  frontier := self.frontier
  bodies := self.bodies
  declared := self.declaredContent
  signed := self.signed

/-! ## Identified transactions -/

section Identified

variable [Crypto]

/-- A transaction id is the digest of these bytes. -/
def Names (tx bytes : Bytes) : Prop := Crypto.deriveKey TRANSACTION_ID_CONTEXT bytes = tx

/-- The object a head refers to is made of the bytes its id names. -/
def BodyHead.Named (head : BodyHead) : Prop :=
  ∀ object, head.transaction = some object →
    ∃ bytes, object = objectRef bytes ∧ Names head.tx bytes

/-- Every head of a record. -/
def BodyRecord.Named (record : BodyRecord) : Prop := ∀ head ∈ record.heads, head.Named

/-- Every record of a write. -/
abbrev NamedIn (changed : BTreeMap BodyKey (Option BodyRecord)) : Prop :=
  BTreeMap.Every (fun _ record => ∀ named ∈ record, BodyRecord.Named named) changed

/-- Every object lies at its address. -/
def Store.Addressed (store : Store) : Prop :=
  BTreeMap.Every (fun hash bytes => objectContentHash bytes = hash) store.objects

/-- Wherever a Replica holds a transaction, its id names it. -/
structure Identified [Loro] (replica : Replica) : Prop where
  stored : ∀ store, replica.durable = some store → store.Addressed
  heads : BTreeMap.Every (fun _ record => BodyRecord.Named record) replica.bodies
  retained : BTreeMap.Every (fun _ entries => ∀ entry ∈ entries, Names entry.1 entry.2.2)
    replica.rawMaterial

theorem BodyRecord.Named.of_heads {record record' : BodyRecord} (h : record.Named)
    (hheads : record'.shape.heads = record.shape.heads) : record'.Named := by
  intro head hmem object hobject
  have hidentity : head.identity ∈ record.shape.heads := hheads ▸ List.mem_map_of_mem hmem
  obtain ⟨held, hheld, hsame⟩ := List.mem_map.mp hidentity
  simp only [BodyHead.identity, Prod.mk.injEq] at hsame
  obtain ⟨htx, -, -, htransaction⟩ := hsame
  obtain ⟨bytes, hbytes, hnames⟩ := h held hheld object (htransaction.trans hobject)
  exact ⟨bytes, hbytes, htx ▸ hnames⟩

/-- Materializing moves nothing an id is about. -/
theorem namedIn_of_shapes {changed changed' : BTreeMap BodyKey (Option BodyRecord)}
    (h : shapes changed = shapes changed') (hnamed : NamedIn changed') : NamedIn changed := by
  intro key record hkey named hmem
  have hget := get_of_shapes_eq h key
  rw [hkey, Option.mem_def.mp hmem] at hget
  cases hkey' : changed'[key]? with
  | none => simp [hkey'] at hget
  | some record' =>
      cases record' with
      | none => simp [hkey'] at hget
      | some held =>
          have hshape : named.shape = held.shape := by simpa [hkey'] using hget
          exact (hnamed key (some held) hkey' held rfl).of_heads
            (congrArg RecordShape.heads hshape)

/-- What is read of an object is what it refers to. -/
theorem Store.Addressed.objectRef_eq {store : Store} (h : store.Addressed) {object : Object}
    {bytes : Bytes} (hread : store.readObject object = some bytes) : objectRef bytes = object := by
  unfold Store.readObject at hread
  split at hread
  case h_1 held hheld =>
    split at hread
    case isTrue hlen =>
      cases hread
      unfold objectRef
      rw [h object.hash bytes hheld, hlen]
    case isFalse => cases hread
  case h_2 => cases hread

theorem Store.Addressed.putAll {objects : BTreeMap Bytes Bytes}
    (h : BTreeMap.Every (fun hash bytes => objectContentHash bytes = hash) objects)
    (added : List Bytes) :
    BTreeMap.Every (fun hash bytes => objectContentHash bytes = hash)
      (Store.putAll objects added) := by
  induction added generalizing objects with
  | nil => exact h
  | cons bytes added ih => exact ih (h.insert rfl)

theorem Store.Addressed.sealCommit {store : Store} (h : store.Addressed) (delta : CommitDelta) :
    (store.sealCommit delta).Addressed :=
  Store.Addressed.putAll (Store.Addressed.putAll h _) _

omit [Crypto] in
theorem Store.Addressed.collectUnreachable [Crypto] {store : Store} (h : store.Addressed)
    (collecting : Collecting) : (store.collectUnreachable collecting).1.Addressed := by
  unfold Store.collectUnreachable
  split
  · exact h
  · split
    · exact h
    · split
      · exact h
      · exact h.filter _

end Identified

/-! ## What is kept -/

section Keeps

variable [Crypto] [Loro]

omit [Crypto] in
/-- Only a Replica with a store has published a root. -/
def Rooted (self : Replica) : Prop := self.durable = none → self.manifestRootObject = none

/-- A step that keeps both. -/
structure Keeps (before after : Replica) : Prop where
  rooted : before.Rooted → after.Rooted
  identified : before.Identified → after.Identified

theorem Keeps.refl (self : Replica) : Keeps self self := ⟨id, id⟩

theorem Keeps.trans {a b c : Replica} (hab : Keeps a b) (hbc : Keeps b c) : Keeps a c :=
  ⟨fun h => hbc.rooted (hab.rooted h), fun h => hbc.identified (hab.identified h)⟩

/-- The handle of the store may close. -/
theorem Keeps.of_kept {self self' : Replica} (hkept : Kept self.durable self'.durable)
    (hroot : self'.manifestRootObject = self.manifestRootObject)
    (hbodies : self'.bodies = self.bodies) (hraw : self'.rawMaterial = self.rawMaterial) :
    Keeps self self' := by
  obtain ⟨unsettled, hdurable⟩ := hkept
  refine ⟨fun h hnone => ?_, fun h => ⟨fun store hstore => ?_, hbodies ▸ h.heads, hraw ▸ h.retained⟩⟩
  · rw [hnone] at hdurable
    exact hroot.trans (h (Option.map_eq_none_iff.mp hdurable.symm))
  · rw [hdurable] at hstore
    obtain ⟨held, hheld, rfl⟩ := Option.map_eq_some_iff.mp hstore
    exact h.stored held hheld

/-- What both are about. -/
def holdings (self : Replica) :
    Option Store × Option Object × BTreeMap BodyKey BodyRecord ×
      BTreeMap BodyKey (List RetainedHead) :=
  (self.durable, self.manifestRootObject, self.bodies, self.rawMaterial)

theorem Keeps.of_eq {self self' : Replica} (h : self'.holdings = self.holdings) :
    Keeps self self' := by
  unfold holdings at h
  obtain ⟨hdurable, hroot, hbodies, hraw⟩ := by simpa only [Prod.mk.injEq] using h
  exact .of_kept (hdurable ▸ Kept.refl self.durable) hroot hbodies hraw

/-- A step after which the caller installs something. -/
theorem Keeps.install {self replica self' : Replica} (h : Keeps self replica)
    (hdurable : self'.durable = replica.durable)
    (hroot : self'.manifestRootObject = replica.manifestRootObject)
    (hinstalled : self.Identified → replica.Identified → self'.Identified) : Keeps self self' := by
  refine ⟨fun hrooted hnone => ?_, fun hself => hinstalled hself (h.identified hself)⟩
  rw [hdurable] at hnone
  rw [hroot]
  exact h.rooted hrooted hnone

/-- A step that keeps a Replica, and records to install after it. -/
structure Writes (before : Replica)
    (written : Replica × Except Failure (BTreeMap BodyKey (Option BodyRecord))) : Prop where
  keeps : Keeps before written.1
  named : ∀ changed, written.2 = .ok changed → before.Identified → NamedIn changed

theorem Writes.failed {self replica : Replica} (h : Keeps self replica) (failure : Failure) :
    Writes self (replica, .error failure) := ⟨h, fun _ h => by cases h⟩

/-- A commit the journal has sealed: there is a store, and its objects are addressed. -/
theorem keeps_of_sealed {self self' : Replica} {store : Store} {delta : CommitDelta}
    (hstore : self.durable = some store) (hsealed : self'.durable = some (store.sealCommit delta))
    (hbodies : self'.bodies = self.bodies) (hraw : self'.rawMaterial = self.rawMaterial) :
    Keeps self self' := by
  constructor
  · intro _ hnone
    rw [hsealed] at hnone
    cases hnone
  · intro h
    refine ⟨fun store' hstore' => ?_, hbodies ▸ h.heads, hraw ▸ h.retained⟩
    rw [hsealed] at hstore'
    cases hstore'
    exact (h.stored store hstore).sealCommit delta

variable [Aead] [Codecs] [ReceiptCodecs]

/-- A write that landed was sealed, and keeps the shapes it was asked for. -/
theorem PersistRun.Drafts.landed_writes {run : PersistRun} {self : Replica} {amb : Ambient}
    {request : PersistRequest} (hrun : run.Drafts self amb request)
    (hrequest : self.Identified → NamedIn request.changed) {store : Store}
    (hstore : self.durable = some store) (signed : List ManifestRoot) {frontier : ReplicaFrontier}
    {publication : Publication} :
    Writes self (({ run.after with signed } : Replica).landed store frontier run.changed publication,
      .ok run.changed) := by
  have hbodies := hrun.staged.bodies_eq
  obtain ⟨_, _, _, _, hafter⟩ := hrun.staged
  have hraw := congrArg Replica.rawMaterial hafter
  refine ⟨keeps_of_sealed hstore rfl hbodies hraw, ?_⟩
  rintro _ ⟨⟩ h
  exact namedIn_of_shapes hrun.shapes_eq (hrequest h)

/-- **A durable write names what its request does.** -/
theorem persist_writes (self : Replica) (amb : Ambient) (request : PersistRequest)
    (hrequest : self.Identified → NamedIn request.changed) :
    Writes self (self.persist amb request) := by
  have hpersisted := persist_persisted self amb request
  generalize self.persist amb request = written at hpersisted ⊢
  obtain ⟨replica, result⟩ := written
  cases hpersisted with
  | refused hstaged _ hkept =>
      obtain ⟨_, _, _, _, rfl⟩ := hstaged
      refine .failed (.of_kept ?_ ?_ ?_ ?_) _
      · exact hkept
      all_goals rfl
  | abandoned _ hrun _ hkept =>
      obtain ⟨_, _, _, _, hafter⟩ := hrun.staged
      rw [hafter]
      refine .failed (.of_kept ?_ ?_ ?_ ?_) _
      · exact hkept
      all_goals rfl
  | @committed _ _ root _ _ _ hrun _ _ hstore =>
      exact hrun.landed_writes hrequest hstore (root :: self.signed)
  | @receipted run _ _ _ hrun _ hstore => exact hrun.landed_writes hrequest hstore run.after.signed

/-! ## The operations -/

omit [Aead] [Codecs] [ReceiptCodecs] in
/-- A write of records as they are held. -/
theorem namedIn_of_held {self : Replica} {changed : BTreeMap BodyKey (Option BodyRecord)}
    (h : ∀ (key : BodyKey) (record : Option BodyRecord),
      changed[key]? = some record → record = self.bodies[key]?) (hself : self.Identified) :
    NamedIn changed := by
  intro key record hkey named hmem
  exact hself.heads key named ((h key record hkey).symm.trans (Option.mem_def.mp hmem))

theorem commitContent_keeps (self : Replica) (amb : Ambient) (ctx : CommitContext)
    (descriptors : List ContentDescriptor) :
    Keeps self (self.commitContent amb ctx descriptors).1 := by
  have hwrites := persist_writes self amb (self.contentRequest ctx descriptors)
    fun _ => BTreeMap.every_empty
  unfold commitContent
  split
  · exact .refl self
  · dsimp only
    split
    case h_1 h =>
      rw [h] at hwrites
      exact hwrites.keeps
    case h_2 h =>
      rw [h] at hwrites
      exact hwrites.keeps.trans (.of_eq rfl)

omit [Aead] [Codecs] [ReceiptCodecs] in
/-- A declaration is checked against the records held. -/
theorem get_checkDeclarations {self : Replica} {declarations : List (BodyKey × List Bytes)}
    {checked : List (BodyKey × List Bytes × BodyRecord)}
    (h : self.checkDeclarations declarations = .ok checked) :
    ∀ entry ∈ checked, self.bodies[entry.1]? = some entry.2.2 := by
  induction declarations generalizing checked with
  | nil =>
      cases h
      intro entry hentry
      cases hentry
  | cons declaration declarations ih =>
      obtain ⟨key, refs⟩ := declaration
      unfold checkDeclarations at h
      dsimp only at h
      split at h
      · cases h
      · obtain ⟨-, -, h⟩ := bind_eq_ok.mp h
        obtain ⟨record, hrecord, h⟩ := bind_eq_ok.mp h
        split at h
        · cases h
        · obtain ⟨-, -, h⟩ := bind_eq_ok.mp h
          obtain ⟨rest, hrest, h⟩ := bind_eq_ok.mp h
          cases h
          intro entry hentry
          rcases List.mem_cons.mp hentry with rfl | hentry
          · cases hkey : self.bodies[key]? with
            | none => simp [okOr, hkey] at hrecord
            | some held =>
                rw [hkey] at hrecord
                rw [← Except.ok.inj hrecord]
          · exact ih hrest entry hentry

theorem declareContent_keeps (self : Replica) (amb : Ambient) (ctx : CommitContext)
    (declarations : BTreeMap BodyKey (List Bytes)) :
    Keeps self (self.declareContent amb ctx declarations).1 := by
  unfold declareContent
  split
  · exact .refl self
  · split
    · exact .refl self
    case h_2 checked hchecked =>
      have hwrites := persist_writes self amb (self.declareRequest ctx checked)
        (namedIn_of_held fun key record hkey => by
          rcases BTreeMap.exists_of_get_foldl_insert hkey with ⟨entry, hentry, rfl, rfl⟩ | hempty
          · exact (get_checkDeclarations hchecked entry hentry).symm
          · simp at hempty)
      dsimp only
      split
      case h_1 h =>
        rw [h] at hwrites
        exact hwrites.keeps
      case h_2 h =>
        rw [h] at hwrites
        exact hwrites.keeps.trans (.of_eq rfl)

omit [Aead] [ReceiptCodecs] in
/-- The Bodies a bundle declares content for are held as they are. -/
theorem get_declarationsLeftBehind {self : Replica} {bundle : ContactBundle} {key : BodyKey}
    {record : Option BodyRecord} (h : (self.declarationsLeftBehind bundle)[key]? = some record) :
    record.isSome ∧ record = self.bodies[key]? ∧ bundle.declaredContent.isEmpty = false := by
  unfold declarationsLeftBehind at h
  rcases BTreeMap.exists_of_get_foldl_insert h with ⟨entry, hentry, rfl, rfl⟩ | hempty
  · have hheld : entry ∈ self.declaredAtHeads bundle := by
      split at hentry
      · exact hentry
      · exact List.mem_of_mem_filter hentry
    unfold declaredAtHeads at hheld
    obtain ⟨declared, hmem, hdeclared⟩ := List.mem_filterMap.mp hheld
    split at hdeclared
    case h_1 held hget =>
      split at hdeclared
      · cases hdeclared
        refine ⟨rfl, hget.symm, ?_⟩
        exact BTreeMap.isEmpty_eq_false (BTreeMap.mem_toList_iff.mp hmem)
      · cases hdeclared
    case h_2 => cases hdeclared
  · simp at hempty

theorem adoptDeclarationsOnly_keeps (self : Replica) (amb : Ambient) (ctx : CommitContext)
    (bundle : ContactBundle) : Keeps self (self.adoptDeclarationsOnly amb ctx bundle).1 := by
  have hwrites := persist_writes self amb
    (self.adoptRequest ctx bundle (self.declarationsLeftBehind bundle))
    (namedIn_of_held fun _ _ hkey => (get_declarationsLeftBehind hkey).2.1)
  unfold adoptDeclarationsOnly
  split
  · exact .refl self
  · dsimp only
    split
    · exact .refl self
    · split
      case h_1 h =>
        rw [h] at hwrites
        exact hwrites.keeps
      case h_2 h =>
        rw [h] at hwrites
        exact hwrites.keeps.trans (.of_eq rfl)

omit [Aead] [Codecs] [ReceiptCodecs] in
/-- A journal commit, and what it lets install. -/
theorem commitStore_keeps {self replica : Replica} {delta : CommitDelta} {outcome : CommitOutcome}
    {result : Except Failure Unit} (h : self.commitStore delta outcome = (replica, result)) :
    Keeps self replica ∧
      ∀ publication, result = .ok () → Keeps self (replica.install publication) := by
  rcases commitStore_cases self delta outcome with
    ⟨failure, durable, poisoned, hcommit, hkept⟩ | ⟨store, hstore, -, hcommit⟩
  · obtain ⟨rfl, rfl⟩ := Prod.mk.inj (h.symm.trans hcommit)
    refine ⟨.of_kept ?_ ?_ ?_ ?_, fun _ h => by cases h⟩
    · exact hkept
    all_goals rfl
  · obtain ⟨rfl, rfl⟩ := Prod.mk.inj (h.symm.trans hcommit)
    exact ⟨keeps_of_sealed hstore rfl rfl rfl, fun _ _ => keeps_of_sealed hstore rfl rfl rfl⟩

omit [Aead] [ReceiptCodecs] in
theorem sweep_keeps (self : Replica) (amb : Ambient) (ctx : CommitContext) (now : ℕ) :
    Keeps self (self.sweepUnreferencedContentAt amb ctx now).1 := by
  unfold sweepUnreferencedContentAt
  dsimp only
  split
  · exact .of_eq rfl
  · split
    · exact .of_eq rfl
    · split
      · exact .of_eq rfl
      · split
        · exact .of_eq rfl
        · split
          · exact .of_eq rfl
          case h_2 publication _ =>
            split
            case h_1 h =>
              refine Keeps.trans ?_ (commitStore_keeps h).1
              exact .of_eq rfl
            case h_2 h =>
              have hinstall := (commitStore_keeps h).2 publication rfl
              refine Keeps.trans ?_ (hinstall.trans (.of_eq rfl))
              exact .of_eq rfl

/-! ## Upgrades -/

omit [Loro] [Aead] [Codecs] [Crypto] [ReceiptCodecs] in
theorem upgradedRecord_eq_ok {record upgraded : BodyRecord} {chain : Option ReplicaFrontier}
    {opened : List OpenedHead} (h : upgradedRecord record chain opened = .ok upgraded) :
    upgraded.interpreted = true ∧ upgraded.shape.heads = record.shape.heads ∧
      upgraded.binding = record.binding ∧ upgraded.chain = chain.getD record.chain := by
  obtain ⟨hshape, -⟩ := BodyRecord.replaceCausal_eq_ok h
  have hinterpreted := congrArg RecordShape.interpreted hshape
  have hheads := congrArg RecordShape.heads hshape
  have hbinding := congrArg RecordShape.binding hshape
  have hchain := congrArg RecordShape.chain hshape
  exact ⟨hinterpreted, hheads, hbinding, hchain⟩

theorem publishUpgrade_keeps (self : Replica) (amb : Ambient) (ctx : CommitContext) {key : BodyKey}
    {record upgraded : BodyRecord} (hrecord : self.bodies[key]? = some record)
    (hheads : upgraded.shape.heads = record.shape.heads) :
    Keeps self (self.publishUpgrade amb ctx key upgraded).1 := by
  have hupgraded : self.Identified → upgraded.Named :=
    fun h => (h.heads key record hrecord).of_heads hheads
  unfold publishUpgrade
  split
  · exact (Keeps.refl self).install rfl rfl fun h _ =>
      ⟨h.stored, h.heads.insert (hupgraded h), h.retained⟩
  · have hwrites := persist_writes self amb (self.upgradeRequest ctx key upgraded) fun h =>
      BTreeMap.every_empty.insert fun named hmem => Option.some.inj hmem ▸ hupgraded h
    split
    case h_1 h =>
      rw [h] at hwrites
      exact hwrites.keeps
    case h_2 replica changed h =>
      rw [h] at hwrites
      split
      case h_1 committed hcommitted =>
        refine hwrites.keeps.install rfl rfl fun hself hreplica =>
          ⟨hreplica.stored, hreplica.heads.insert ?_, hreplica.retained.erase key⟩
        exact hwrites.named changed rfl hself key (some committed) hcommitted committed rfl
      case h_2 => exact hwrites.keeps

theorem upgradeOne_keeps (self : Replica) (amb : Ambient) (ctx : CommitContext) (key : BodyKey) :
    Keeps self (self.upgradeOne amb ctx key).1 := by
  unfold upgradeOne
  split
  · exact .refl self
  case h_2 record hrecord =>
    split
    · exact .refl self
    · split
      · exact .refl self
      · exact .refl self
      · split
        · exact .refl self
        · split
          · exact .refl self
          · split
            · exact .refl self
            · exact .refl self
            · dsimp only
              split
              · exact .refl self
              · split
                · exact .of_eq rfl
                case h_2 fabric accepted _ =>
                  have hfabric : Keeps self { self with fabric } := .of_eq rfl
                  split
                  · exact hfabric
                  case h_2 upgraded hupgraded =>
                    have hpublish := hfabric.trans (publishUpgrade_keeps { self with fabric } amb
                      ctx hrecord (upgradedRecord_eq_ok hupgraded).2.1)
                    split
                    case h_1 h => rwa [h] at hpublish
                    case h_2 h => rwa [h] at hpublish

theorem upgradeAll_keeps (amb : BodyKey → Ambient) (ctx : CommitContext) (keys : List BodyKey)
    (self : Replica) : Keeps self (upgradeAll amb ctx keys self).1 := by
  induction keys generalizing self with
  | nil => exact .refl self
  | cons key keys ih =>
      have hone := upgradeOne_keeps self (amb key) ctx key
      unfold upgradeAll
      split
      case h_1 h => rwa [h] at hone
      case h_2 replica _ h =>
        rw [h] at hone
        have hall := hone.trans (ih replica)
        split
        case h_1 h' => rwa [h'] at hall
        case h_2 h' =>
          rw [h'] at hall
          split <;> exact hall

end Keeps

end Lait.Replica
