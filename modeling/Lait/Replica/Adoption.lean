import Lait.Replica.Contact
import Lait.Replica.Effects

/-!
# What an exchange of declarations moves

A Replica that incorporates an advertisement without Bodies adopts declarations.
What it then declares is read off its peer alone, as long as the advertisement is
what the peer would export now: under every key at which it lists the Body's heads
as the manifest does (`Listens`), it declares what the peer publishes, if that is
anything.  Nothing asks which of the two declarations is the later one.

The Bodies, and the heads they are held at, stay as they are.
-/

namespace Lait.Replica

/-! ## What a Replica publishes -/

section Published

variable [Loro]

/-- What a Body declares in memory. -/
def refs (self : Replica) (key : BodyKey) : List Bytes := (self.declaredContent[key]?).getD []

/-- The heads of a Body in the record's order. -/
def heads (self : Replica) (key : BodyKey) : Option (List ManifestHead) :=
  (self.bodies[key]?).map localHeads

/-- The entry a Body is advertised with. -/
def advertises (self : Replica) (key : BodyKey) : Option ManifestEntry :=
  (self.heads key).map fun heads =>
    ⟨key, ManifestEntry.canonical heads, ManifestEntry.canonical (self.refs key)⟩

/-- A Replica lists the heads of a Body as its peer advertises them. -/
def Listens (self peer : Replica) (key : BodyKey) : Prop :=
  self.durable.isSome ∧ ∃ heads, peer.heads key = some heads ∧
    self.heads key = some (ManifestEntry.canonical heads)

/-- Every descriptor stands under the key of its content. -/
def Catalogued [Crypto] [Codecs] (self : Replica) : Prop :=
  ∀ (key : Bytes) (d : ContentDescriptor), self.catalogs.contentIndex[key]? = some d →
    key = contentIndexKey d.contentRef

/-- Nothing a peer or a reader could see has moved. -/
structure Unmoved (replica replica' : Replica) : Prop where
  durable : replica'.durable.isSome = replica.durable.isSome
  heads : replica'.heads = replica.heads
  refs : replica'.refs = replica.refs
  content : replica'.catalogs.contentIndex = replica.catalogs.contentIndex
  frontier : replica'.frontier = replica.frontier

theorem Unmoved.refl (self : Replica) : Unmoved self self := ⟨rfl, rfl, rfl, rfl, rfl⟩

theorem Unmoved.trans {a b c : Replica} (hab : Unmoved a b) (hbc : Unmoved b c) : Unmoved a c :=
  ⟨hbc.durable.trans hab.durable, hbc.heads.trans hab.heads, hbc.refs.trans hab.refs,
    hbc.content.trans hab.content, hbc.frontier.trans hab.frontier⟩

end Published

section Export

variable [Crypto] [Loro] [Codecs]

omit [Crypto] [Loro] [Codecs] in
/-- What an index built from changes holds. -/
theorem mem_valuesOf_exportIndex {ν : Type} [Postcard ν] {changes : List (Index.Change ν)}
    {index : BTreeMap Bytes ν} (h : exportIndex changes = .ok index) {v : ν} :
    v ∈ BTreeMap.valuesOf index ↔ ∃ k, (k, some v) ∈ changes := by
  unfold exportIndex at h
  split at h
  case isTrue => cases h
  case isFalse hnodup =>
    split at h
    case h_2 => cases h
    case h_1 index' hindex =>
      cases h
      obtain rfl := Index.apply_eq_ok hindex
      rw [BTreeMap.mem_valuesOf]
      constructor
      · rintro ⟨k, hk⟩
        by_cases hmem : k ∈ changes.map Prod.fst
        · obtain ⟨change, hchange, rfl⟩ := List.mem_map.mp hmem
          rw [Index.get_applyAll_of_mem (not_not.mp hnodup) hchange] at hk
          exact ⟨change.1, hk ▸ hchange⟩
        · rw [Index.get_applyAll_of_notMem hmem] at hk
          simp at hk
      · rintro ⟨k, hk⟩
        exact ⟨k, Index.get_applyAll_of_mem (not_not.mp hnodup) hk⟩

omit [Crypto] [Loro] [Codecs] in
theorem manifestEntry_eq_ok {key : BodyKey} {record : BodyRecord} {refs : List Bytes}
    {entry : ManifestEntry} (h : manifestEntry key record refs = .ok entry) :
    entry = ⟨key, ManifestEntry.canonical (localHeads record), ManifestEntry.canonical refs⟩ := by
  unfold manifestEntry at h
  split at h
  case h_1 entry' hentry =>
    cases h
    unfold ManifestEntry.declaring at hentry
    obtain ⟨-, -, hentry⟩ := bind_eq_ok.mp hentry
    exact (Except.ok.inj hentry).symm
  case h_2 => cases h

/-- **The entries of an export** are those of its Bodies. -/
theorem get_advertisedEntries {self : Replica} {ad : Advertisement}
    (h : self.exportCatalogs = .ok (ad.bodies, ad.content)) (key : BodyKey) :
    (advertisedEntries ad)[key]? = self.advertises key := by
  unfold exportCatalogs at h
  obtain ⟨changes, hentries, h⟩ := bind_eq_ok.mp h
  obtain ⟨bodies, hbodies, h⟩ := bind_eq_ok.mp h
  obtain ⟨content, -, h⟩ := bind_eq_ok.mp h
  cases h
  -- Every advertised entry is that of the Body it names.
  have hsound : ∀ entry ∈ BTreeMap.valuesOf ad.bodies, self.advertises entry.key = some entry := by
    intro entry hentry
    obtain ⟨k, hk⟩ := (mem_valuesOf_exportIndex hbodies).mp hentry
    obtain ⟨⟨key', record⟩, hmem, hmap⟩ := exists_of_mem_mapM hentries hk
    obtain ⟨entry', hentry', hpure⟩ := bind_eq_ok.mp hmap
    cases hpure
    obtain rfl := manifestEntry_eq_ok hentry'
    unfold advertises heads
    rw [BTreeMap.mem_toList_iff.mp hmem]
    rfl
  cases hget : (advertisedEntries ad)[key]? with
  | some entry =>
      rcases BTreeMap.exists_of_get_foldl_insert hget with ⟨entry', hentry', rfl, rfl⟩ | hempty
      · exact (hsound entry' hentry').symm
      · simp at hempty
  | none =>
      unfold advertises heads
      cases hbody : self.bodies[key]? with
      | none => rfl
      | some record =>
          obtain ⟨change, hchange, hmap⟩ :=
            exists_mapM_of_mem hentries (BTreeMap.mem_toList_iff.mpr hbody)
          obtain ⟨entry, hentry, hpure⟩ := bind_eq_ok.mp hmap
          cases hpure
          have hvalue := (mem_valuesOf_exportIndex hbodies).mpr ⟨_, hchange⟩
          obtain ⟨entry', hentry'⟩ := BTreeMap.exists_get_foldl_insert (f := ManifestEntry.key)
            (g := id) (m := (∅ : BTreeMap BodyKey ManifestEntry))
            (.inl ⟨entry, hvalue, by rw [manifestEntry_eq_ok hentry]⟩)
          unfold advertisedEntries at hget
          rw [show (fun entries entry => entries.insert entry.key entry)
            = fun (entries : BTreeMap BodyKey ManifestEntry) entry =>
              entries.insert (ManifestEntry.key entry) (id entry) from rfl, hentry'] at hget
          cases hget

/-- The descriptors of an export are the advertised ones. -/
theorem mem_valuesOf_content {self : Replica} {ad : Advertisement}
    (h : self.exportCatalogs = .ok (ad.bodies, ad.content)) {d : ContentDescriptor} :
    d ∈ BTreeMap.valuesOf ad.content ↔ d ∈ self.advertisedDescriptors := by
  unfold exportCatalogs at h
  obtain ⟨changes, -, h⟩ := bind_eq_ok.mp h
  obtain ⟨bodies, -, h⟩ := bind_eq_ok.mp h
  obtain ⟨content, hcontent, h⟩ := bind_eq_ok.mp h
  cases h
  unfold exportContent at hcontent
  dsimp only at hcontent
  split at hcontent
  case isTrue =>
    rw [mem_valuesOf_exportIndex hcontent]
    constructor
    · rintro ⟨k, hk⟩
      obtain ⟨d', hd', heq⟩ := List.mem_map.mp hk
      cases heq
      exact hd'
    · intro hd
      exact ⟨_, List.mem_map.mpr ⟨d, hd, rfl⟩⟩
  case isFalse => cases hcontent

/-- An advertised descriptor is committed, and some advertised Body declares it. -/
theorem mem_advertisedDescriptors {self : Replica} {d : ContentDescriptor} :
    d ∈ self.advertisedDescriptors ↔ self.durable.isSome ∧
      d ∈ BTreeMap.valuesOf self.catalogs.contentIndex ∧
      ∃ key heads, self.heads key = some heads ∧ d.contentRef ∈ self.refs key := by
  unfold advertisedDescriptors
  split
  case isTrue hdurable =>
    simp [Option.isNone_iff_eq_none.mp hdurable]
  case isFalse hdurable =>
    have hsome : self.durable.isSome := by
      cases hself : self.durable with
      | none => simp [hself] at hdurable
      | some store => rfl
    rw [List.mem_filter, decide_eq_true_eq]
    refine ⟨fun ⟨hd, hreach⟩ => ⟨hsome, hd, ?_⟩, fun ⟨_, hd, key, heads', hheads, hrefs⟩ => ⟨hd, ?_⟩⟩
    · unfold reachableContent at hreach
      obtain ⟨⟨key, refs'⟩, hentry, hmem⟩ := List.mem_flatMap.mp hreach
      obtain ⟨hget, hbody⟩ := List.mem_filter.mp hentry
      obtain ⟨record, hrecord⟩ := BTreeMap.contains_iff.mp hbody
      refine ⟨key, localHeads record, by rw [heads, hrecord]; rfl, ?_⟩
      rw [refs, BTreeMap.mem_toList_iff.mp hget]
      exact hmem
    · unfold reachableContent
      cases hget : self.declaredContent[key]? with
      | none => simp [refs, hget] at hrefs
      | some refs' =>
          rw [refs, hget] at hrefs
          refine List.mem_flatMap.mpr ⟨(key, refs'), List.mem_filter.mpr
            ⟨BTreeMap.mem_toList_iff.mpr hget, ?_⟩, hrefs⟩
          unfold Replica.heads at hheads
          obtain ⟨record, hrecord, -⟩ := Option.map_eq_some_iff.mp hheads
          exact BTreeMap.contains_iff.mpr ⟨record, hrecord⟩

end Export

/-! ## What a validated advertisement carries -/

section Validated

variable [Crypto] [Loro] [Codecs]

omit [Crypto] [Loro] [Codecs] in
/-- What is read off the entries that declare content. -/
theorem get_declaring {α : Type} {entries : BTreeMap BodyKey ManifestEntry}
    {f : ManifestEntry → α} {key : BodyKey} {a : α} :
    ((entries.filter fun _ entry => ¬ entry.contentRefs.isEmpty).map fun _ entry => f entry)[key]?
        = some a ↔
      ∃ entry, entries[key]? = some entry ∧ entry.contentRefs ≠ [] ∧ f entry = a := by
  rw [BTreeMap.get_map, Std.ExtTreeMap.getElem?_filter]
  cases entries[key]? with
  | none => simp
  | some entry => simp [Option.filter]

omit [Loro] in
theorem get_advertisedContent {ad : Advertisement} {content : Bytes} {d : ContentDescriptor}
    (h : (advertisedContent ad)[content]? = some d) :
    d ∈ BTreeMap.valuesOf ad.content ∧ d.contentRef = content := by
  rcases BTreeMap.exists_of_get_foldl_insert (g := id) h with ⟨d', hd', href, rfl⟩ | hempty
  · exact ⟨hd', href⟩
  · simp at hempty

omit [Loro] in
theorem exists_get_advertisedContent {ad : Advertisement} {d : ContentDescriptor}
    (h : d ∈ BTreeMap.valuesOf ad.content) :
    ∃ d', (advertisedContent ad)[d.contentRef]? = some d' :=
  BTreeMap.exists_get_foldl_insert (g := id) (.inl ⟨d, h, rfl⟩)

omit [Codecs] in
/-- The descriptors a validation takes: of declared content, advertised and not held. -/
theorem backedDescriptors_eq_ok {self : Replica} {advertised : BTreeMap Bytes ContentDescriptor}
    {declared : List Bytes} {descriptors : List ContentDescriptor}
    (h : self.backedDescriptors advertised declared = .ok descriptors) :
    (∀ d ∈ descriptors, ∃ content ∈ declared, advertised[content]? = some d) ∧
      ∀ content ∈ declared, ∀ d, advertised[content]? = some d →
        self.contentDescriptor content = none → d ∈ descriptors := by
  induction declared generalizing descriptors with
  | nil =>
      cases h
      simp
  | cons content declared ih =>
      unfold backedDescriptors at h
      dsimp only at h
      cases hget : advertised[content]? with
      | some descriptor =>
          rw [hget] at h
          obtain ⟨rest, hrest, h⟩ := bind_eq_ok.mp h
          obtain ⟨hsound, hcomplete⟩ := ih hrest
          cases h
          constructor
          · intro d hd
            split at hd
            case isTrue =>
              obtain ⟨content', hmem, hd⟩ := hsound d hd
              exact ⟨content', List.mem_cons_of_mem _ hmem, hd⟩
            case isFalse =>
              rcases List.mem_cons.mp hd with rfl | hd
              · exact ⟨content, List.mem_cons_self, hget⟩
              · obtain ⟨content', hmem, hd⟩ := hsound d hd
                exact ⟨content', List.mem_cons_of_mem _ hmem, hd⟩
          · intro content' hmem d hd hlacks
            rcases List.mem_cons.mp hmem with rfl | hmem
            · rw [hget] at hd
              cases hd
              rw [if_neg (by rw [hlacks]; exact Bool.false_ne_true)]
              exact List.mem_cons_self
            · have hrest := hcomplete content' hmem d hd hlacks
              split
              · exact hrest
              · exact List.mem_cons_of_mem _ hrest
      | none =>
          rw [hget] at h
          obtain ⟨-, h⟩ := guard_eq_ok.mp h
          obtain ⟨hsound, hcomplete⟩ := ih h
          constructor
          · intro d hd
            obtain ⟨content', hmem, hd⟩ := hsound d hd
            exact ⟨content', List.mem_cons_of_mem _ hmem, hd⟩
          · intro content' hmem d hd hlacks
            rcases List.mem_cons.mp hmem with rfl | hmem
            · rw [hget] at hd
              cases hd
            · exact hcomplete content' hmem d hd hlacks

omit [Loro] in
theorem mem_byContent {descriptors : List ContentDescriptor} {d : ContentDescriptor}
    (h : d ∈ byContent descriptors) : d ∈ descriptors := by
  obtain ⟨k, hk⟩ := BTreeMap.mem_valuesOf.mp h
  rcases BTreeMap.exists_of_get_foldl_insert (g := id) hk with ⟨d', hd', -, rfl⟩ | hempty
  · exact List.mem_reverse.mp hd'
  · simp at hempty

omit [Loro] in
theorem exists_mem_byContent {descriptors : List ContentDescriptor} {d : ContentDescriptor}
    (h : d ∈ descriptors) : ∃ d' ∈ byContent descriptors, d'.contentRef = d.contentRef := by
  obtain ⟨d', hd'⟩ := BTreeMap.exists_get_foldl_insert (f := ContentDescriptor.contentRef)
    (g := id) (m := (∅ : BTreeMap Bytes ContentDescriptor))
    (.inl ⟨d, List.mem_reverse.mpr h, rfl⟩)
  refine ⟨d', BTreeMap.mem_valuesOf.mpr ⟨d.contentRef, hd'⟩, ?_⟩
  rcases BTreeMap.exists_of_get_foldl_insert (g := id) hd' with ⟨_, -, href, rfl⟩ | hempty
  · exact href
  · simp at hempty

/-- What a Contact without Bodies is validated into: what its manifest declares. -/
theorem validateContact_eq_ok {self : Replica} {staged : StagedContactMaterial}
    {authority : AuthoritySource} {incorporateAuthority : List Bytes → Bool}
    {bundle : ContactBundle}
    (h : self.validateContact staged authority incorporateAuthority = .ok bundle)
    (hbodies : staged.bodies = []) :
    let entries := advertisedEntries staged.advertisement
    bundle.units = [] ∧ bundle.declaredContent = declaredOf entries ∧
      bundle.declarationHeads = declarationHeadsOf entries ∧
      ∃ descriptors, self.backedDescriptors (advertisedContent staged.advertisement)
          (BTreeMap.valuesOf (declaredOf entries)).flatten = .ok descriptors ∧
        bundle.descriptors = byContent descriptors := by
  unfold validateContact at h
  obtain ⟨⟨transactions, material⟩, -, h⟩ := bind_eq_ok.mp h
  obtain ⟨-, h⟩ := guard_eq_ok.mp h
  dsimp only at h ⊢
  split at h
  case isTrue =>
    -- Authority material alone: nothing is advertised.
    obtain ⟨hnothing, h⟩ := guard_eq_ok.mp h
    cases h
    simp only [not_or, not_not] at hnothing
    have hempty : advertisedEntries staged.advertisement = ∅ := by
      unfold advertisedEntries BTreeMap.valuesOf
      rw [Std.ExtTreeMap.isEmpty_iff.mp hnothing.1]
      rfl
    rw [hempty]
    exact ⟨rfl, rfl, rfl, [], rfl, rfl⟩
  case isFalse =>
    split at h
    case h_2 => cases h
    case h_1 root hroot =>
      obtain ⟨-, h⟩ := guard_eq_ok.mp h
      obtain ⟨-, h⟩ := guard_eq_ok.mp h
      obtain ⟨-, h⟩ := guard_eq_ok.mp h
      obtain ⟨resolved, hresolved, h⟩ := bind_eq_ok.mp h
      obtain ⟨-, h⟩ := guard_eq_ok.mp h
      obtain ⟨descriptors, hdescriptors, h⟩ := bind_eq_ok.mp h
      cases h
      rw [hbodies] at hresolved
      cases hresolved
      exact ⟨rfl, rfl, rfl, descriptors, hdescriptors, rfl⟩

end Validated

/-! ## What a write of declarations leaves -/

section Written

variable [Crypto] [Loro] [Aead] [Codecs] [ReceiptCodecs]

/-- The catalog changes of descriptors. -/
def contentChanges (descriptors : List ContentDescriptor) :
    List (Index.Change ContentDescriptor) :=
  descriptors.map fun d => (contentIndexKey d.contentRef, some d)

omit [Loro] [Aead] [ReceiptCodecs] in
/-- Committing descriptors forgets none, files each, and adds no others. -/
theorem applyAll_contentChanges (index : BTreeMap Bytes ContentDescriptor)
    (descriptors : List ContentDescriptor) :
    (∀ k : Bytes, (index[k]?).isSome →
        ((Index.applyAll index (contentChanges descriptors))[k]?).isSome) ∧
      (∀ d ∈ descriptors, ((Index.applyAll index
        (contentChanges descriptors))[contentIndexKey d.contentRef]?).isSome) ∧
      ∀ (k : Bytes) (d : ContentDescriptor),
        (Index.applyAll index (contentChanges descriptors))[k]? = some d →
          index[k]? = some d ∨ d ∈ descriptors ∧ k = contentIndexKey d.contentRef := by
  induction descriptors generalizing index with
  | nil => exact ⟨fun _ h => h, by simp, fun _ _ h => .inl h⟩
  | cons d descriptors ih =>
      obtain ⟨hkeeps, hfiles, hadds⟩ :=
        ih (Index.step index (contentIndexKey d.contentRef, some d))
      have hcons : Index.applyAll index (contentChanges (d :: descriptors))
          = Index.applyAll (Index.step index (contentIndexKey d.contentRef, some d))
            (contentChanges descriptors) := rfl
      rw [hcons]
      refine ⟨fun k hk => hkeeps k ?_, fun d' hd' => ?_, fun k d' hd' => ?_⟩
      · rw [Index.get_step]
        split
        · rfl
        · exact hk
      · rcases List.mem_cons.mp hd' with rfl | hd'
        · exact hkeeps _ (by rw [Index.get_step, if_pos rfl]; rfl)
        · exact hfiles d' hd'
      · rcases hadds k d' hd' with hindex | ⟨hmem, hkey⟩
        · rw [Index.get_step] at hindex
          split at hindex
          case isTrue hk =>
            cases hindex
            exact .inr ⟨List.mem_cons_self, hk.symm⟩
          case isFalse => exact .inl hindex
        · exact .inr ⟨List.mem_cons_of_mem _ hmem, hkey⟩

omit [Loro] [Aead] [ReceiptCodecs] in
theorem mapM_contentChange {descriptors : List ContentDescriptor}
    {changes : List (Index.Change ContentDescriptor)}
    (h : descriptors.mapM contentChange = .ok changes) : changes = contentChanges descriptors := by
  have hall := mapM_eq_ok_iff.mp h
  clear h
  unfold contentChanges
  induction hall with
  | nil => rfl
  | cons hd _ ih =>
      unfold contentChange at hd
      split at hd
      · cases hd
        rw [List.map_cons, ih]
      · cases hd

/-- What a signed write that succeeds has installed. -/
theorem persist_ok_installs {self replica : Replica} {amb : Ambient} {request : PersistRequest}
    {ctx : CommitContext} {changed : BTreeMap BodyKey (Option BodyRecord)}
    (hctx : request.ctx = some ctx) (h : self.persist amb request = (replica, .ok changed)) :
    self.durable.isSome ∧ replica.durable.isSome ∧ replica.bodies = self.bodies ∧
      replica.frontier = self.frontier ∧
      replica.catalogs.contentIndex
        = Index.applyAll self.catalogs.contentIndex (contentChanges request.descriptors) ∧
      ∃ run : PersistRun, run.Drafts self amb request ∧ changed = run.changed ∧
        replica.declaredContent = run.after.declaredContent := by
  have hpersisted := persist_persisted self amb request
  rw [h] at hpersisted
  cases hpersisted with
  | @committed run _ root publication store _ hrun _ hpublication hstore =>
      obtain ⟨hsome, changes, hchanges, -, -, hindex⟩ := hrun.draft_eq
      obtain ⟨_, _, _, -, -, -, rfl⟩ := publicationOf_eq_ok hpublication
      refine ⟨hsome, rfl, hrun.staged.bodies_eq, hrun.staged.frontier_eq, ?_, run, hrun, rfl, rfl⟩
      rw [← mapM_contentChange hchanges]
      exact applyIndex_eq_ok hindex
  | receipted hctx' =>
      rw [hctx] at hctx'
      cases hctx'

/-- What a write that deletes nothing leaves a Body to declare. -/
theorem PersistRun.Drafts.refs_eq {run : PersistRun} {self : Replica} {amb : Ambient}
    {request : PersistRequest} (h : run.Drafts self amb request)
    (hkeeps : ∀ (key : BodyKey) (record : Option BodyRecord),
      request.changed[key]? = some record → record.isSome) (key : BodyKey) :
    run.after.refs key = if (request.changed[key]?).isSome then
      (request.declared[key]?).getD (self.refs key) else self.refs key := by
  unfold refs
  cases hchanged : request.changed[key]? with
  | none =>
      rcases h.redeclares key with hsame | ⟨record, hrecord, -⟩
      · rw [hsame]
        rfl
      · rw [hchanged] at hrecord
        cases hrecord
  | some record =>
      have hshape := get_of_shapes_eq h.shapes_eq key
      rw [hchanged] at hshape
      cases hrun : run.changed[key]? with
      | none =>
          rw [hrun] at hshape
          cases hshape
      | some record' =>
          rw [hrun] at hshape
          have hsome : record'.isSome := by
            have hsame := congrArg Option.isSome (Option.some.inj hshape)
            simp only [Option.isSome_map] at hsame
            rw [hsame]
            exact hkeeps key record hchanged
          have hstaged := stageAll_declared_of_ok (BTreeMap.nodup_toList_keys run.changed)
            h.staging (BTreeMap.mem_toList_iff.mpr hrun)
          obtain ⟨_, hworking⟩ := working_materialize self amb request
          rw [hworking] at hstaged
          rw [hstaged]
          unfold stagedRefs declaredRefs
          simp only [hsome, if_true, Option.isSome_some]
          split
          case isTrue hempty => exact (List.isEmpty_iff.mp hempty).symm
          case isFalse => rfl

end Written

/-! ## Adopting -/

section Adopted

variable [Crypto] [Loro] [Aead] [Codecs] [ReceiptCodecs]

/-- A Body is held at the heads a bundle declares content for. -/
def Offered (self : Replica) (bundle : ContactBundle) (key : BodyKey) : Prop :=
  (∃ refs, bundle.declaredContent[key]? = some refs) ∧
    ∃ heads, self.heads key = some heads ∧ bundle.declarationHeads[key]? = some heads

/-- Some descriptor of a bundle is not in the catalog. -/
def Lacks (self : Replica) (bundle : ContactBundle) : Prop :=
  ∃ d ∈ bundle.descriptors, self.contentDescriptor d.contentRef = none

omit [Crypto] [Aead] [Codecs] [ReceiptCodecs] in
theorem mem_declaredAtHeads {self : Replica} {bundle : ContactBundle} {key : BodyKey}
    {record : BodyRecord} : (key, record) ∈ self.declaredAtHeads bundle ↔
      (∃ refs, bundle.declaredContent[key]? = some refs) ∧ self.bodies[key]? = some record ∧
        bundle.declarationHeads[key]? = some (localHeads record) := by
  unfold declaredAtHeads
  rw [List.mem_filterMap]
  constructor
  · rintro ⟨⟨key', refs⟩, hmem, hentry⟩
    split at hentry
    case h_1 record' hget =>
      split at hentry
      case isTrue hheads =>
        cases hentry
        exact ⟨⟨refs, BTreeMap.mem_toList_iff.mp hmem⟩, hget, hheads⟩
      case isFalse => cases hentry
    case h_2 => cases hentry
  · rintro ⟨⟨refs, hrefs⟩, hget, hheads⟩
    exact ⟨(key, refs), BTreeMap.mem_toList_iff.mpr hrefs, by simp [hget, hheads]⟩

omit [Crypto] [Aead] [Codecs] [ReceiptCodecs] in
theorem offered_iff {self : Replica} {bundle : ContactBundle} {key : BodyKey} :
    Offered self bundle key ↔ ∃ record, (key, record) ∈ self.declaredAtHeads bundle := by
  unfold Offered heads
  simp only [mem_declaredAtHeads, Option.map_eq_some_iff]
  constructor
  · rintro ⟨hrefs, heads, ⟨record, hrecord, rfl⟩, hheads⟩
    exact ⟨record, hrefs, hrecord, hheads⟩
  · rintro ⟨record, hrefs, hrecord, hheads⟩
    exact ⟨hrefs, localHeads record, ⟨record, hrecord, rfl⟩, hheads⟩

omit [Aead] [ReceiptCodecs] in
/-- **What a bundle leaves behind**: the offered declarations that differ, or all
the offered ones when none differs and a descriptor is lacking. -/
theorem isSome_declarationsLeftBehind {self : Replica} {bundle : ContactBundle} {key : BodyKey} :
    ((self.declarationsLeftBehind bundle)[key]?).isSome ↔ Offered self bundle key ∧
      (self.declaredContent[key]? ≠ bundle.declaredContent[key]? ∨
        (∀ key', Offered self bundle key' →
          self.declaredContent[key']? = bundle.declaredContent[key']?) ∧ Lacks self bundle) := by
  have hpending : ∀ l : List (BodyKey × BodyRecord),
      ((l.foldl (fun (pending : BTreeMap BodyKey (Option BodyRecord)) entry =>
        pending.insert entry.1 (some entry.2)) ∅)[key]?).isSome ↔ ∃ record, (key, record) ∈ l := by
    intro l
    rw [Option.isSome_iff_exists]
    constructor
    · rintro ⟨record, hget⟩
      rcases BTreeMap.exists_of_get_foldl_insert hget with ⟨⟨key', record'⟩, hmem, rfl, -⟩ | hempty
      · exact ⟨record', hmem⟩
      · simp at hempty
    · rintro ⟨record, hmem⟩
      exact BTreeMap.exists_get_foldl_insert (.inl ⟨_, hmem, rfl⟩)
  have hmissing : (bundle.descriptors.any fun d => (self.contentDescriptor d.contentRef).isNone)
      = true ↔ Lacks self bundle := by
    simp [Lacks, List.any_eq_true]
  have hmoved : ((self.declaredAtHeads bundle).filter fun entry =>
      self.declaredContent[entry.1]? ≠ bundle.declaredContent[entry.1]?).isEmpty = true ↔
      ∀ key', Offered self bundle key' →
        self.declaredContent[key']? = bundle.declaredContent[key']? := by
    rw [List.isEmpty_iff, List.filter_eq_nil_iff]
    simp only [ne_eq, decide_eq_true_eq, not_not, Prod.forall]
    constructor
    · intro h key' hoffered
      obtain ⟨record, hmem⟩ := offered_iff.mp hoffered
      exact h key' record hmem
    · intro h key' record hmem
      exact h key' (offered_iff.mpr ⟨record, hmem⟩)
  unfold declarationsLeftBehind
  dsimp only
  rw [hpending]
  split
  case isTrue h =>
    rw [← offered_iff]
    exact ⟨fun hoffered => ⟨hoffered, .inr ⟨hmoved.mp h.1, hmissing.mp h.2⟩⟩,
      fun hoffered => hoffered.1⟩
  case isFalse h =>
    constructor
    · rintro ⟨record, hmem⟩
      obtain ⟨hmem, hne⟩ := List.mem_filter.mp hmem
      exact ⟨offered_iff.mpr ⟨record, hmem⟩, .inl (of_decide_eq_true hne)⟩
    · rintro ⟨hoffered, hne | hall⟩
      · obtain ⟨record, hmem⟩ := offered_iff.mp hoffered
        exact ⟨record, List.mem_filter.mpr ⟨hmem, decide_eq_true hne⟩⟩
      · exact absurd ⟨hmoved.mpr hall.1, hmissing.mpr hall.2⟩ h

/-- What adopting the declarations of a bundle does to a Replica. -/
structure Adopts (bundle : ContactBundle) (replica replica' : Replica) : Prop where
  durable : replica'.durable.isSome = replica.durable.isSome
  heads : replica'.heads = replica.heads
  /-- What is offered is declared. -/
  taken : replica.durable.isSome → ∀ key, Offered replica bundle key →
    replica'.refs key = (bundle.declaredContent[key]?).getD []
  /-- What is not stays. -/
  kept : ∀ key, ¬ (replica.durable.isSome ∧ Offered replica bundle key) →
    replica'.refs key = replica.refs key
  /-- The catalog forgets nothing. -/
  keeps : ∀ k : Bytes, (replica.catalogs.contentIndex[k]?).isSome →
    (replica'.catalogs.contentIndex[k]?).isSome
  /-- With something offered, it holds every descriptor of the bundle. -/
  files : replica.durable.isSome → (∃ key, Offered replica bundle key) → ¬ Lacks replica' bundle
  /-- Nothing else is added to it. -/
  adds : ∀ (k : Bytes) (d : ContentDescriptor), replica'.catalogs.contentIndex[k]? = some d →
    replica.catalogs.contentIndex[k]? = some d ∨
      d ∈ bundle.descriptors ∧ k = contentIndexKey d.contentRef
  /-- When everything offered is declared and described, nothing moves. -/
  still : (replica.durable.isSome → ∀ key, Offered replica bundle key →
      replica.refs key = (bundle.declaredContent[key]?).getD []) →
    (replica.durable.isSome → (∃ key, Offered replica bundle key) → ¬ Lacks replica bundle) →
      Unmoved replica replica'

omit [Aead] [ReceiptCodecs] in
/-- When nothing is left behind, everything offered is declared and described. -/
theorem Adopts.refl {bundle : ContactBundle} {self : Replica}
    (h : self.durable.isSome → ∀ key : BodyKey,
      ((self.declarationsLeftBehind bundle)[key]?).isSome = false) :
    Adopts bundle self self := by
  have hsame : self.durable.isSome → ∀ key, Offered self bundle key →
      self.declaredContent[key]? = bundle.declaredContent[key]? := by
    intro hdurable key hoffered
    by_contra hne
    have hpending := isSome_declarationsLeftBehind.mpr ⟨hoffered, .inl hne⟩
    rw [h hdurable key] at hpending
    cases hpending
  refine ⟨rfl, rfl, ?_, fun _ _ => rfl, fun _ hk => hk, ?_, fun _ _ hd => .inl hd,
    fun _ _ => .refl self⟩
  · intro hdurable key hoffered
    rw [refs, hsame hdurable key hoffered]
  · rintro hdurable ⟨key, hoffered⟩ hlacks
    have hpending := isSome_declarationsLeftBehind.mpr
      ⟨hoffered, .inr ⟨hsame hdurable, hlacks⟩⟩
    rw [h hdurable key] at hpending
    cases hpending

/-- **A bundle that moves no Body adopts what it offers.** -/
theorem adoptDeclarationsOnly_adopts {self self' : Replica} {amb : Ambient} {ctx : CommitContext}
    {bundle : ContactBundle}
    (hdeclares : ∀ (key : BodyKey) (refs : List Bytes),
      bundle.declaredContent[key]? = some refs → refs ≠ [])
    (h : self.adoptDeclarationsOnly amb ctx bundle = (self', .ok ())) :
    Adopts bundle self self' := by
  unfold adoptDeclarationsOnly at h
  split at h
  case isTrue hnone =>
    cases h
    refine .refl fun hdurable => ?_
    rw [Option.isNone_iff_eq_none.mp hnone] at hdurable
    cases hdurable
  case isFalse =>
    dsimp only at h
    split at h
    case isTrue hempty =>
      cases h
      refine .refl fun _ key => ?_
      rw [Std.ExtTreeMap.isEmpty_iff.mp hempty, BTreeMap.get_empty]
      rfl
    case isFalse hpending =>
      split at h
      case h_1 => cases h
      case h_2 replica changed hpersist =>
        cases h
        obtain ⟨hsome, hdurable, hbodies, -, hindex, run, hrun, -, hdeclared⟩ :=
          persist_ok_installs rfl hpersist
        obtain ⟨hkeeps, hfiles, hadds⟩ :=
          applyAll_contentChanges self.catalogs.contentIndex bundle.descriptors
        have hrefs := hrun.refs_eq fun key record hkey => (get_declarationsLeftBehind hkey).1
        have hreplica : ∀ key, replica.refs key = if
            ((self.declarationsLeftBehind bundle)[key]?).isSome then
            (bundle.declaredContent[key]?).getD (self.refs key) else self.refs key := by
          intro key
          refine Eq.trans ?_ (hrefs key)
          rw [refs, hdeclared]
          rfl
        have hcontent : replica.catalogs.contentIndex
            = Index.applyAll self.catalogs.contentIndex (contentChanges bundle.descriptors) := hindex
        refine ⟨?_, ?_, ?_, ?_, ?_, ?_, ?_, ?_⟩
        · rw [hsome]
          exact hdurable
        · unfold heads
          rw [hbodies]
        · intro _ key hoffered
          obtain ⟨refs', hrefs'⟩ := hoffered.1
          show replica.refs key = _
          rw [hreplica]
          split
          case isTrue => rw [hrefs']; rfl
          case isFalse hkey =>
            -- Offered and not pending: the declaration stands already.
            have heq : self.declaredContent[key]? = bundle.declaredContent[key]? := by
              by_contra hne
              exact hkey (isSome_declarationsLeftBehind.mpr ⟨hoffered, .inl hne⟩)
            rw [refs, heq]
        · intro key hnot
          show replica.refs key = _
          rw [hreplica]
          split
          case isTrue hkey =>
            exact absurd ⟨hsome, (isSome_declarationsLeftBehind.mp hkey).1⟩ hnot
          case isFalse => rfl
        · intro k hk
          show (replica.catalogs.contentIndex[k]?).isSome
          rw [hcontent]
          exact hkeeps k hk
        · rintro _ - ⟨d, hd, hlacks⟩
          have hfiled := hfiles d hd
          rw [← hcontent] at hfiled
          unfold contentDescriptor at hlacks
          rw [if_pos hdurable] at hlacks
          rw [hlacks] at hfiled
          cases hfiled
        · intro k d hd
          refine hadds k d ?_
          rw [← hcontent]
          exact hd
        · intro hsame hlacks
          obtain ⟨key, record, hkey⟩ :=
            BTreeMap.exists_get_of_isEmpty_eq_false (Bool.eq_false_iff.mpr hpending)
          obtain ⟨hoffered, hwhy⟩ :=
            isSome_declarationsLeftBehind.mp (Option.isSome_iff_exists.mpr ⟨record, hkey⟩)
          rcases hwhy with hne | ⟨-, hlack⟩
          · obtain ⟨refs', hrefs'⟩ := hoffered.1
            have hkey' := hsame hsome key hoffered
            rw [hrefs', refs] at hkey'
            refine absurd ?_ hne
            rw [hrefs']
            cases hget : self.declaredContent[key]? with
            | none =>
                rw [hget] at hkey'
                exact absurd hkey'.symm (hdeclares key refs' hrefs')
            | some held =>
                rw [hget] at hkey'
                exact congrArg some hkey'
          · exact absurd hlack (hlacks hsome ⟨key, hoffered⟩)

end Adopted

/-! ## Upgrading moves nothing a peer sees -/

section Upgraded

variable [Crypto] [Loro] [Aead] [Codecs] [ReceiptCodecs]

omit [Crypto] [Loro] [Aead] [Codecs] [ReceiptCodecs] in
theorem localHeads_eq_of_heads {record record' : BodyRecord}
    (h : record.shape.heads = record'.shape.heads) : localHeads record = localHeads record' := by
  have hheads := congrArg (fun heads : List (Bytes × Bytes × Bytes × Option Object) =>
    heads.map fun head => (⟨head.2.1, head.2.2.1⟩ : ManifestHead)) h
  unfold localHeads
  simpa [BodyRecord.shape, BodyHead.identity, Function.comp_def] using hheads

omit [Crypto] [Aead] [Codecs] [ReceiptCodecs] in
/-- A record with the heads of the one it replaces. -/
theorem heads_insert {self replica : Replica} {key : BodyKey} {record upgraded : BodyRecord}
    (hrecord : self.bodies[key]? = some record)
    (hheads : upgraded.shape.heads = record.shape.heads)
    (hbodies : replica.bodies = self.bodies.insert key upgraded) : replica.heads = self.heads := by
  funext k
  unfold heads
  rw [hbodies, BTreeMap.get_insert]
  split
  case isTrue hk =>
    subst hk
    rw [hrecord, Option.map_some, Option.map_some, localHeads_eq_of_heads hheads]
  case isFalse => rfl

theorem publishUpgrade_unmoved {self self' : Replica} {amb : Ambient} {ctx : CommitContext}
    {key : BodyKey} {record upgraded : BodyRecord} (hrecord : self.bodies[key]? = some record)
    (hheads : upgraded.shape.heads = record.shape.heads)
    (h : self.publishUpgrade amb ctx key upgraded = (self', .ok ())) : Unmoved self self' := by
  unfold publishUpgrade at h
  split at h
  case isTrue =>
    cases h
    exact ⟨rfl, heads_insert hrecord hheads rfl, rfl, rfl, rfl⟩
  case isFalse =>
    split at h
    case h_1 => cases h
    case h_2 replica changed hpersist =>
      split at h
      case h_2 => cases h
      case h_1 upgraded' hupgraded =>
        cases h
        obtain ⟨hsome, hdurable, hbodies, hfrontier, hindex, run, hrun, hchanged, hdeclared⟩ :=
          persist_ok_installs rfl hpersist
        have hshape : upgraded'.shape = upgraded.shape := by
          have hget := get_of_shapes_eq hrun.shapes_eq key
          rw [← hchanged, hupgraded] at hget
          unfold upgradeRequest at hget
          simpa [BTreeMap.get_insert] using hget
        refine ⟨hdurable.trans hsome.symm, ?_, ?_, hindex, hfrontier⟩
        · refine heads_insert hrecord ?_ (by rw [← hbodies])
          rw [congrArg RecordShape.heads hshape, hheads]
        · funext k
          have hrefs := hrun.refs_eq (fun k' record' hk' => by
            unfold upgradeRequest at hk'
            rw [BTreeMap.get_insert, BTreeMap.get_empty] at hk'
            split at hk' <;> cases hk'
            rfl) k
          unfold refs at hrefs ⊢
          show (replica.declaredContent[k]?).getD [] = _
          rw [hdeclared, hrefs]
          split <;> rfl

theorem upgradeOne_unmoved {self self' : Replica} {amb : Ambient} {ctx : CommitContext}
    {key : BodyKey} {upgraded : Option ℕ}
    (h : self.upgradeOne amb ctx key = (self', .ok upgraded)) : Unmoved self self' := by
  have hstays : ∀ {o : Option ℕ}, (self, Except.ok (ε := Failure) o) = (self', .ok upgraded) →
      Unmoved self self' := by
    intro o heq
    cases heq
    exact .refl self
  unfold upgradeOne at h
  split at h
  case h_1 => exact hstays h
  case h_2 record hrecord =>
    split at h
    case isTrue => exact hstays h
    case isFalse =>
      split at h
      case h_1 => cases h
      case h_2 => exact hstays h
      case h_3 entries _ =>
        split at h
        case h_1 => exact hstays h
        case h_2 encoding model _ =>
          split at h
          case isTrue => exact hstays h
          case isFalse =>
            split at h
            case h_1 => cases h
            case h_2 => exact hstays h
            case h_3 opened _ =>
              dsimp only at h
              split at h
              case h_1 => cases h
              case h_2 chain _ =>
                split at h
                case h_1 => cases h
                case h_2 fabric accepted _ =>
                  split at h
                  case h_1 => cases h
                  case h_2 record' hupgraded =>
                    split at h
                    case h_1 => cases h
                    case h_2 hpublish =>
                      cases h
                      have hheads := (upgradedRecord_eq_ok hupgraded).2.1
                      let working : Replica := { self with fabric := fabric }
                      have hrecord' : working.bodies[key]? = some record := hrecord
                      have hmoved := publishUpgrade_unmoved hrecord' hheads hpublish
                      exact ⟨hmoved.durable, hmoved.heads, hmoved.refs, hmoved.content,
                        hmoved.frontier⟩

theorem upgradeAll_unmoved {amb : BodyKey → Ambient} {ctx : CommitContext} {keys : List BodyKey}
    {self self' : Replica} {upgraded : List BodyKey × ℕ}
    (h : upgradeAll amb ctx keys self = (self', .ok upgraded)) : Unmoved self self' := by
  induction keys generalizing self self' upgraded with
  | nil =>
      cases h
      exact .refl _
  | cons key keys ih =>
      unfold upgradeAll at h
      split at h
      case h_1 => cases h
      case h_2 self₁ here hone =>
        have hfirst := upgradeOne_unmoved hone
        split at h
        case h_1 => cases h
        case h_2 self₂ upgraded' accepted hrest =>
          have hrest := hfirst.trans (ih hrest)
          split at h <;> cases h <;> exact hrest

/-- A bundle without transactions upgrades what it can, and adopts. -/
theorem incorporateBundle_eq_ok {self self' : Replica} {amb : IncorporateAmbient}
    {ctx : CommitContext} {bundle : ContactBundle} {authority : AuthoritySource}
    {outcome : ConvergenceOutcome} (hunits : bundle.units = [])
    (h : self.incorporateBundle amb ctx bundle authority = (self', .ok outcome)) :
    ∃ upgraded, Unmoved self upgraded ∧
      upgraded.adoptDeclarationsOnly amb.publish ctx bundle = (self', .ok ()) := by
  unfold incorporateBundle at h
  split at h
  case h_1 => cases h
  case h_2 =>
    unfold incorporateUnits at h
    split at h
    case isTrue => cases h
    case isFalse =>
      split at h
      case isTrue => cases h
      case isFalse =>
        dsimp only at h
        split at h
        case h_1 => cases h
        case h_2 upgraded keys accepted hupgrade =>
          rw [hunits] at h
          simp only [List.isEmpty_nil, if_true] at h
          unfold adoptAndReport at h
          split at h
          case h_1 => cases h
          case h_2 hadopt =>
            cases h
            exact ⟨upgraded, upgradeAll_unmoved hupgrade, hadopt⟩

end Upgraded

end Lait.Replica
