import Lait.Replica.ArtifactPack
import Lait.Replica.OpLog
import Lait.Replica.RunKeeps

/-!
# Delivering material

A peer declares the heads it holds, as pairs of a Body and a transaction commitment.  An
export leaves those heads out altogether, and out of the packs of the others it leaves the
artifacts that the declared heads of the same Body had, as far as the exporter still
remembers them.  The receiver puts them back: a delivered pack is completed from what it
retains, in the order of the signed references, and the result has to be the signed closure.

Omission costs nothing.  The minimised export succeeds when the one of whole packs does, and
what a receiver makes of it has the same transactions, the same Bodies and, pack by pack,
the same artifacts in the same order (`SameMaterial`).  A receiver that has the artifacts of
the heads it declared makes something of it; one that lied gets an error.

Packs are filed by transaction id, so the heads of one id have to retain one transaction.  They
do in every Replica in use, since an id is a digest of what is retained under it
(`oneTransaction_run`).
-/

namespace Lait.Replica

/-- Exported material: each transaction with a pack for each of its Bodies. -/
abbrev ExportedMaterial := List IncorporationUnit

/-- The artifacts of heads replaced a while ago, by Body and transaction commitment. -/
abbrev RecentHeads := BodyKey → Bytes → Option (List Object)

section Deliver

variable [Crypto] [Loro] [Codecs]

/-! ## Exporting -/

/-- The pack and the transaction bytes of one head: from memory, or from the store. -/
def retainedMaterial (self : Replica) (key : BodyKey) (record : BodyRecord) (head : BodyHead) :
    Except Failure (Bytes × Bytes) :=
  match ((self.rawMaterial[key]?).getD []).find? (fun entry => entry.1 = head.tx),
      self.durable with
  | some (_, pack, bytes), _ => .ok (pack, bytes)
  | none, some store => do
      let object ← okOr (.integrity .missingMaterial) head.transaction
      let artifacts ← (record.artifacts head).mapM fun reference =>
        okOr (.integrity .encoding) (store.readObject (artifactObject reference))
      let pack ← encodeArtifactPack artifacts
      let bytes ← okOr (.integrity .encoding) (store.readObject object)
      return (pack, bytes)
  | none, none => .error (.integrity .missingMaterial)

/-- One head read back for export: its transaction, its pack and the artifacts in it. -/
structure ExportedHead where
  tx : Transaction
  pack : Bytes
  artifacts : List Bytes

/-- Read a head back, and hold its pack against the signed descriptor. -/
def exportedHead (self : Replica) (key : BodyKey) (record : BodyRecord) (head : BodyHead) :
    Except Failure ExportedHead := do
  let (pack, bytes) ← self.retainedMaterial key record head
  let tx ← okOr (.integrity .encoding) (Transaction.decodeCanonical bytes)
  let descriptor ← okOr (.integrity .missingMaterial) (descriptorFor tx key)
  match decodeArtifactPack descriptor pack with
  | .ok artifacts => return ⟨tx, pack, artifacts⟩
  | .error _ => throw (.integrity .corruptMaterial)

/-- What the exporter remembers of the heads a peer declared for a Body. -/
def knownObjects (recent : RecentHeads) (held : List (BodyKey × Bytes)) (key : BodyKey) :
    List Object :=
  (held.filter fun entry => entry.1 = key).flatMap fun entry => (recent key entry.2).getD []

/-- The pack to send: the retained one, or one without the objects the peer knows. -/
def deliveryPack (known : List Object) (head : ExportedHead) : Except Failure Bytes :=
  if known.isEmpty then .ok head.pack
  else encodeArtifactPack (head.artifacts.filter fun artifact => objectRef artifact ∉ known)

/-- The heads to export: those the peer did not declare, Body by Body. -/
def headsToExport (self : Replica) (held : List (BodyKey × Bytes)) :
    List (BodyKey × BodyRecord × BodyHead) :=
  self.bodies.toList.flatMap fun (key, record) =>
    (record.heads.filter fun head => (key, head.txCommitment) ∉ held).map (key, record, ·)

/-- Export one head: its delivery pack joins the unit of its transaction. -/
def exportHead (self : Replica) (recent : RecentHeads) (held : List (BodyKey × Bytes))
    (byTx : BTreeMap Bytes IncorporationUnit) :
    BodyKey × BodyRecord × BodyHead → Except Failure (BTreeMap Bytes IncorporationUnit)
  | (key, record, head) => do
      let exported ← self.exportedHead key record head
      let delivery ← deliveryPack (knownObjects recent held key) exported
      let unit := (byTx[head.tx]?).getD (exported.tx, [])
      return byTx.insert head.tx (unit.1, unit.2 ++ [(key, delivery)])

/-- `export_material_excluding`. -/
def exportMaterialExcluding (self : Replica) (recent : RecentHeads)
    (held : List (BodyKey × Bytes)) : Except Failure ExportedMaterial := do
  let byTx ← (self.headsToExport held).foldlM (self.exportHead recent held) ∅
  return BTreeMap.valuesOf byTx

/-! ## Receiving -/

/-- The packs of one transaction, each completed, as `incorporate` begins. -/
def completePayloads (self : Replica) (tx : Transaction) (payloads : List (BodyKey × Bytes)) :
    Except Failure (List (BodyKey × Bytes)) :=
  payloads.mapM fun entry => do
    let descriptor ← okOr (Failure.illegitimate .incompleteMaterial) (descriptorFor tx entry.1)
    let pack ← self.completeArtifactDelivery entry.1 descriptor entry.2
    return (entry.1, pack)

/-- The packs of a list of units, each completed. -/
def completeUnits (self : Replica) (units : ExportedMaterial) : Except Failure ExportedMaterial :=
  units.mapM fun unit => do
    let payloads ← self.completePayloads unit.1 unit.2
    return (unit.1, payloads)

/-! ## What an export holds -/

/-- The pack a head is delivered in, where nothing can fail. -/
def minimised (known : List Object) (head : ExportedHead) : Bytes :=
  if known.isEmpty then head.pack
  else packBytes (head.artifacts.filter fun artifact => objectRef artifact ∉ known)

/-- A head whose pack was held against some descriptor. -/
def ExportedHead.Sound (head : ExportedHead) : Prop :=
  ∃ descriptor, decodeArtifactPack descriptor head.pack = .ok head.artifacts

omit [Loro] [Codecs] in
/-- Leaving artifacts out of a pack that could be written cannot fail. -/
theorem deliveryPack_eq {head : ExportedHead} (h : head.Sound) (known : List Object) :
    deliveryPack known head = .ok (minimised known head) := by
  obtain ⟨descriptor, hdecode⟩ := h
  obtain ⟨packed, hpacked, hclosure, hartifacts⟩ := decodeArtifactPackInner_eq_ok.mp hdecode
  unfold deliveryPack minimised
  split
  · rfl
  · refine encodeArtifactPack_of_sublist hpacked ?_
    rw [hartifacts]
    exact List.filter_sublist.subperm.trans hclosure.inSignedOrder_perm.subperm

/-- A head read back is what was retained, and holds what its transaction signed. -/
theorem exportedHead_eq_ok {self : Replica} {key : BodyKey} {record : BodyRecord}
    {head : BodyHead} {exported : ExportedHead}
    (h : self.exportedHead key record head = .ok exported) :
    (∃ bytes, self.retainedMaterial key record head = .ok (exported.pack, bytes) ∧
      Transaction.decodeCanonical bytes = some exported.tx) ∧
    ∃ descriptor, descriptorFor exported.tx key = some descriptor ∧
      decodeArtifactPack descriptor exported.pack = .ok exported.artifacts := by
  unfold exportedHead at h
  obtain ⟨⟨pack, bytes⟩, hretained, h⟩ := bind_eq_ok.mp h
  obtain ⟨tx, htx, h⟩ := bind_eq_ok.mp h
  obtain ⟨descriptor, hdescriptor, h⟩ := bind_eq_ok.mp h
  split at h
  case h_1 artifacts hdecode =>
      cases h
      exact ⟨⟨bytes, hretained, okOr_eq_ok.mp htx⟩, descriptor, okOr_eq_ok.mp hdescriptor, hdecode⟩
  case h_2 => cases h

theorem exportedHead_sound {self : Replica} {key : BodyKey} {record : BodyRecord}
    {head : BodyHead} {exported : ExportedHead}
    (h : self.exportedHead key record head = .ok exported) : exported.Sound :=
  have ⟨descriptor, _, hdecode⟩ := (exportedHead_eq_ok h).2
  ⟨descriptor, hdecode⟩

/-- The heads of one transaction, with the Body of each. -/
abbrev Shelf := Transaction × List (BodyKey × ExportedHead)

/-- File a head under the transaction it names. -/
def shelve (byTx : BTreeMap Bytes Shelf) (entry : BodyKey × Bytes × ExportedHead) :
    BTreeMap Bytes Shelf :=
  let shelf := (byTx[entry.2.1]?).getD (entry.2.2.tx, [])
  byTx.insert entry.2.1 (shelf.1, shelf.2 ++ [(entry.1, entry.2.2)])

/-- The unit a shelf is sent as. -/
def Shelf.unit (deliver : BodyKey → ExportedHead → Bytes) (shelf : Shelf) : IncorporationUnit :=
  (shelf.1, shelf.2.map fun entry => (entry.1, deliver entry.1 entry.2))

/-- A head of an export, read back. -/
def Reads (self : Replica) (entry : BodyKey × BodyRecord × BodyHead)
    (head : BodyKey × Bytes × ExportedHead) : Prop :=
  head.1 = entry.1 ∧ head.2.1 = entry.2.2.tx ∧
    self.exportedHead entry.1 entry.2.1 entry.2.2 = .ok head.2.2

omit [Crypto] [Loro] [Codecs] in
theorem get_shelve (byTx : BTreeMap Bytes Shelf) (entry : BodyKey × Bytes × ExportedHead)
    (k : Bytes) : (shelve byTx entry)[k]? = if entry.2.1 = k then
      some (((byTx[entry.2.1]?).getD (entry.2.2.tx, [])).1,
        ((byTx[entry.2.1]?).getD (entry.2.2.tx, [])).2 ++ [(entry.1, entry.2.2)])
      else byTx[k]? := by
  unfold shelve
  rw [BTreeMap.get_insert]

/-- The units the shelves are sent as. -/
def sent (recent : RecentHeads) (held : List (BodyKey × Bytes)) (byTx : BTreeMap Bytes Shelf) :
    BTreeMap Bytes IncorporationUnit :=
  byTx.map fun _ shelf => shelf.unit fun key => minimised (knownObjects recent held key)

/-- Exporting a head is filing it, as far as what is sent goes. -/
theorem exportHead_eq_ok {self : Replica} {recent : RecentHeads} {held : List (BodyKey × Bytes)}
    {byTx : BTreeMap Bytes Shelf} {entry : BodyKey × BodyRecord × BodyHead}
    {next : BTreeMap Bytes IncorporationUnit} :
    self.exportHead recent held (sent recent held byTx) entry = .ok next ↔
      ∃ head, self.Reads entry head ∧ next = sent recent held (shelve byTx head) := by
  obtain ⟨key, record, head⟩ := entry
  have hfiled : ∀ exported : ExportedHead,
      (let unit := ((sent recent held byTx)[head.tx]?).getD (exported.tx, [])
       (sent recent held byTx).insert head.tx
        (unit.1, unit.2 ++ [(key, minimised (knownObjects recent held key) exported)])) =
        sent recent held (shelve byTx (key, head.tx, exported)) := fun exported => by
    refine BTreeMap.ext fun k => ?_
    unfold sent
    rw [BTreeMap.get_insert, BTreeMap.get_map, BTreeMap.get_map, BTreeMap.get_map, get_shelve]
    split
    · cases byTx[head.tx]? with
      | none => rfl
      | some shelf =>
          refine congrArg some (Prod.ext rfl ?_)
          show _ = (shelf.2 ++ [(key, exported)]).map _
          rw [List.map_append]
          rfl
    · rfl
  unfold exportHead
  rw [bind_eq_ok]
  constructor
  · rintro ⟨exported, hexported, h⟩
    rw [deliveryPack_eq (exportedHead_sound hexported)] at h
    cases h
    exact ⟨(key, head.tx, exported), ⟨rfl, rfl, hexported⟩, hfiled exported⟩
  · rintro ⟨⟨key', tx, exported⟩, ⟨hkey, htx, hexported⟩, rfl⟩
    obtain rfl : key' = key := hkey
    obtain rfl : tx = head.tx := htx
    refine ⟨exported, hexported, ?_⟩
    rw [deliveryPack_eq (exportedHead_sound hexported)]
    exact congrArg Except.ok (hfiled exported)

/-- The loop of an export, from what is already filed. -/
theorem foldlM_exportHead_eq_ok {self : Replica} {recent : RecentHeads}
    {held : List (BodyKey × Bytes)} {entries : List (BodyKey × BodyRecord × BodyHead)}
    {byTx : BTreeMap Bytes Shelf} {out : BTreeMap Bytes IncorporationUnit} :
    entries.foldlM (self.exportHead recent held) (sent recent held byTx) = .ok out ↔
      ∃ heads, List.Forall₂ self.Reads entries heads ∧
        out = sent recent held (heads.foldl shelve byTx) := by
  induction entries generalizing byTx with
  | nil =>
      rw [List.foldlM_nil]
      constructor
      · rintro ⟨⟩
        exact ⟨[], .nil, rfl⟩
      · rintro ⟨heads, hread, rfl⟩
        cases hread
        rfl
  | cons entry entries ih =>
      rw [foldlM_cons_eq_ok]
      constructor
      · rintro ⟨next, hnext, hrest⟩
        obtain ⟨head, hhead, rfl⟩ := exportHead_eq_ok.mp hnext
        obtain ⟨heads, hread, rfl⟩ := ih.mp hrest
        exact ⟨head :: heads, .cons hhead hread, rfl⟩
      · rintro ⟨_, hread, rfl⟩
        cases hread with
        | @cons _ head _ heads hhead hread =>
            exact ⟨_, exportHead_eq_ok.mpr ⟨head, hhead, rfl⟩, ih.mpr ⟨heads, hread, rfl⟩⟩

/-- **What an export holds.**  The heads are read back, filed by transaction and sent. -/
theorem exportMaterialExcluding_eq_ok {self : Replica} {recent : RecentHeads}
    {held : List (BodyKey × Bytes)} {units : ExportedMaterial} :
    self.exportMaterialExcluding recent held = .ok units ↔
      ∃ heads, List.Forall₂ self.Reads (self.headsToExport held) heads ∧
        units = (BTreeMap.valuesOf (heads.foldl shelve ∅)).map
          (Shelf.unit fun key => minimised (knownObjects recent held key)) := by
  have hvalues : ∀ byTx, BTreeMap.valuesOf (sent recent held byTx) =
      (BTreeMap.valuesOf byTx).map
        (Shelf.unit fun key => minimised (knownObjects recent held key)) := fun byTx => by
    unfold sent BTreeMap.valuesOf
    rw [BTreeMap.toList_map, List.map_map, List.map_map]
    rfl
  have hempty : (∅ : BTreeMap Bytes IncorporationUnit) = sent recent held ∅ :=
    BTreeMap.ext fun k => by
      rw [sent, BTreeMap.get_map, BTreeMap.get_empty, BTreeMap.get_empty]
      rfl
  unfold exportMaterialExcluding
  rw [bind_eq_ok, hempty]
  constructor
  · rintro ⟨byTx, hloop, h⟩
    cases h
    obtain ⟨heads, hread, rfl⟩ := foldlM_exportHead_eq_ok.mp hloop
    exact ⟨heads, hread, hvalues _⟩
  · rintro ⟨heads, hread, rfl⟩
    exact ⟨_, foldlM_exportHead_eq_ok.mpr ⟨heads, hread, rfl⟩, congrArg Except.ok (hvalues _)⟩

/-! ## What a receiver makes of it -/

omit [Loro] [Codecs] in
/-- A delivered pack opens under every descriptor the whole pack is the closure of, and
brings what the receiver is not known to have. -/
theorem decode_minimised {head : ExportedHead} {descriptor : Descriptor} {artifacts : List Bytes}
    (hsound : head.Sound) (h : decodeArtifactPack descriptor head.pack = .ok artifacts)
    (known : List Object) :
    ∃ delivered, decodeArtifactDeliveryPack descriptor (minimised known head) = .ok delivered ∧
      ∀ artifact ∈ artifacts, objectRef artifact ∉ known → artifact ∈ delivered := by
  obtain ⟨packed, hpacked, hclosure, rfl⟩ := decodeArtifactPackInner_eq_ok.mp h
  obtain ⟨signed, hsigned⟩ := hsound
  obtain ⟨packed', hpacked', hclosure', hartifacts⟩ := decodeArtifactPackInner_eq_ok.mp hsigned
  obtain rfl := encodeArtifactPack_injective hpacked hpacked'
  unfold minimised
  split
  · exact ⟨_, decodeArtifactPackInner_eq_ok.mpr
      ⟨packed, hpacked, hclosure.of_subperm (List.Subperm.refl _), rfl⟩, fun _ hmem _ => hmem⟩
  · have hsub : (head.artifacts.filter fun artifact => objectRef artifact ∉ known).Subperm
        packed := by
      rw [hartifacts]
      exact List.filter_sublist.subperm.trans hclosure'.inSignedOrder_perm.subperm
    have hpart := hclosure.of_subperm hsub
    refine ⟨_, decodeArtifactPackInner_eq_ok.mpr
      ⟨_, encodeArtifactPack_of_sublist hpacked hsub, hpart, rfl⟩, fun artifact hmem hnew => ?_⟩
    refine (mem_inSignedOrder hpart).mpr (List.mem_filter.mpr ⟨?_, decide_eq_true hnew⟩)
    rw [hartifacts]
    exact (mem_inSignedOrder hclosure').mpr ((mem_inSignedOrder hclosure).mp hmem)

/-- What a receiver can complete a pack of a Body with. -/
def Supplies (self : Replica) (key : BodyKey) (object : Object) : Prop :=
  ∃ bytes, objectRef bytes = object ∧ (bytes ∈ self.heldArtifacts key ∨
    ∃ store, self.durable = some store ∧ store.readObject object = some bytes)

omit [Codecs] in
/-- References resolve to their artifacts where each is at hand or stored. -/
theorem completeReferences_eq_ok (hblake : Blake3Injective) {self : Replica}
    {refs : List ArtifactRef} {artifacts available : List Bytes}
    (hrefs : List.Forall₂ (fun reference artifact => envelopeRef artifact = some reference)
      refs artifacts) (hdistinct : artifacts.Nodup)
    (hsupply : ∀ artifact ∈ artifacts, artifact ∈ available ∨ ∃ store,
      self.durable = some store ∧ store.readObject (objectRef artifact) = some artifact) :
    self.completeReferences refs available = .ok artifacts := by
  induction hrefs generalizing available with
  | nil => rfl
  | @cons reference artifact refs artifacts href _ ih =>
      obtain ⟨hfirst, hrest⟩ := List.forall_mem_cons.mp hsupply
      obtain ⟨hnew, hothers⟩ := List.nodup_cons.mp hdistinct
      have hobject := envelopeRef_object href
      rw [completeReferences]
      cases hfind : available.find? fun bytes => objectRef bytes = artifactObject reference with
      | some bytes =>
          have hbytes : objectRef bytes = artifactObject reference := by
            simpa using List.find?_some hfind
          obtain rfl := objectRef_injective hblake (hbytes.trans hobject.symm)
          refine bind_eq_ok.mpr ⟨artifacts, ih hothers fun other hother => ?_, rfl⟩
          refine (hrest other hother).imp_left fun hmem => List.mem_filter.mpr ⟨hmem, ?_⟩
          have hne : objectRef other ≠ artifactObject reference := fun heq =>
            hnew (objectRef_injective hblake (heq.trans hobject.symm) ▸ hother)
          exact decide_eq_true hne
      | none =>
          have hmissing : artifact ∉ available := fun hmem =>
            List.find?_eq_none.mp hfind artifact hmem (decide_eq_true hobject)
          obtain ⟨store, hstore, hread⟩ := hfirst.resolve_left hmissing
          rw [hobject] at hread
          refine bind_eq_ok.mpr ⟨store, by rw [hstore]; rfl, ?_⟩
          refine bind_eq_ok.mpr ⟨artifact, by rw [hread]; rfl, ?_⟩
          exact bind_eq_ok.mpr ⟨artifacts, ih hothers hrest, rfl⟩

/-- **Nothing else comes out.**  Whatever was delivered, a completed pack holds the signed
closure. -/
theorem completeArtifactDelivery_decodes (hblake : Blake3Injective) {self : Replica}
    {key : BodyKey} {descriptor : Descriptor} {whole delivery pack : Bytes}
    {artifacts : List Bytes} (hwhole : decodeArtifactPack descriptor whole = .ok artifacts)
    (h : self.completeArtifactDelivery key descriptor delivery = .ok pack) :
    decodeArtifactPack descriptor pack = .ok artifacts := by
  unfold completeArtifactDelivery at h
  obtain ⟨delivered, -, h⟩ := bind_eq_ok.mp h
  obtain ⟨complete, -, h⟩ := bind_eq_ok.mp h
  obtain ⟨encoded, -, h⟩ := bind_eq_ok.mp h
  obtain ⟨decoded, hdecode, h⟩ := bind_eq_ok.mp h
  cases h
  obtain ⟨packed, -, hclosure, rfl⟩ := decodeArtifactPackInner_eq_ok.mp hwhole
  obtain ⟨packed', -, hclosure', rfl⟩ := decodeArtifactPackInner_eq_ok.mp hdecode
  rw [hdecode, hclosure'.inSignedOrder_unique hblake hclosure]

/-- **Nothing is lost.**  A receiver that has what was left out completes the pack. -/
theorem exists_completeArtifactDelivery (hblake : Blake3Injective) {self : Replica}
    {key : BodyKey} {descriptor : Descriptor} {head : ExportedHead} {artifacts : List Bytes}
    {known : List Object} (hsound : head.Sound)
    (h : decodeArtifactPack descriptor head.pack = .ok artifacts)
    (hsupply : ∀ object ∈ known, self.Supplies key object) :
    ∃ pack, self.completeArtifactDelivery key descriptor (minimised known head) = .ok pack := by
  obtain ⟨delivered, hdelivered, hbrings⟩ := decode_minimised hsound h known
  obtain ⟨packed, hpacked, hclosure, rfl⟩ := decodeArtifactPackInner_eq_ok.mp h
  have hperm := hclosure.inSignedOrder_perm
  have hdistinct : (inSignedOrder descriptor.artifactRefs packed).Nodup :=
    hperm.nodup_iff.mpr (List.Nodup.of_map envelopeRef hclosure.once)
  have hcomplete : self.completeReferences descriptor.artifactRefs
      (delivered ++ self.heldArtifacts key) =
        .ok (inSignedOrder descriptor.artifactRefs packed) := by
    refine completeReferences_eq_ok hblake hclosure.forall₂ hdistinct fun artifact hmem => ?_
    by_cases hknown : objectRef artifact ∈ known
    · obtain ⟨bytes, hbytes, hheld | hstored⟩ := hsupply _ hknown
      · obtain rfl := objectRef_injective hblake hbytes
        exact .inl (List.mem_append_right _ hheld)
      · obtain rfl := objectRef_injective hblake hbytes
        exact .inr hstored
    · exact .inl (List.mem_append_left _ (hbrings artifact hmem hknown))
  have hencode := encodeArtifactPack_of_sublist hpacked hperm.subperm
  have hdecode := decodeArtifactPackInner_eq_ok.mpr ⟨_, hencode, hclosure.of_perm hperm, rfl⟩
  refine ⟨packBytes (inSignedOrder descriptor.artifactRefs packed), ?_⟩
  exact bind_eq_ok.mpr ⟨delivered, hdelivered, bind_eq_ok.mpr ⟨_, hcomplete,
    bind_eq_ok.mpr ⟨_, hencode, bind_eq_ok.mpr ⟨_, hdecode, rfl⟩⟩⟩⟩

/-! ## Delivery -/

/-- A unit whose packs hold what its own transaction signed. -/
def Deliverable (unit : IncorporationUnit) : Prop :=
  ∀ payload ∈ unit.2, ∃ descriptor artifacts, descriptorFor unit.1 payload.1 = some descriptor ∧
    decodeArtifactPack descriptor payload.2 = .ok artifacts

/-- Two units of one transaction, with the same artifacts for the same Bodies, in order. -/
def SameMaterial (unit unit' : IncorporationUnit) : Prop :=
  unit'.1 = unit.1 ∧ List.Forall₂ (fun payload payload' => payload'.1 = payload.1 ∧
    ∃ descriptor artifacts, descriptorFor unit.1 payload.1 = some descriptor ∧
      decodeArtifactPack descriptor payload.2 = .ok artifacts ∧
      decodeArtifactPack descriptor payload'.2 = .ok artifacts) unit.2 unit'.2

/-- The units of whole packs. -/
abbrev Shelf.whole (shelf : Shelf) : IncorporationUnit := shelf.unit fun _ head => head.pack

omit [Crypto] [Loro] [Codecs] in
/-- What filing a head keeps of every shelf holds of all of them. -/
theorem foldl_shelve_invariant {P : Bytes → Shelf → Prop}
    {heads : List (BodyKey × Bytes × ExportedHead)} {byTx : BTreeMap Bytes Shelf}
    (hstep : ∀ head ∈ heads, ∀ shelf : Shelf, shelf = (head.2.2.tx, []) ∨ P head.2.1 shelf →
      P head.2.1 (shelf.1, shelf.2 ++ [(head.1, head.2.2)]))
    (hinit : ∀ tx shelf, byTx[tx]? = some shelf → P tx shelf) :
    ∀ tx shelf, (heads.foldl shelve byTx)[tx]? = some shelf → P tx shelf := by
  induction heads generalizing byTx with
  | nil => exact hinit
  | cons head heads ih =>
      obtain ⟨hhead, hheads⟩ := List.forall_mem_cons.mp hstep
      refine ih hheads fun tx shelf hshelf => ?_
      rw [get_shelve] at hshelf
      split at hshelf
      case isTrue htx =>
          subst htx
          cases hshelf
          refine hhead _ ?_
          cases hfiled : byTx[head.2.1]? with
          | none => exact .inl rfl
          | some filed => exact .inr (hinit _ _ hfiled)
      case isFalse => exact hinit tx shelf hshelf

/-- Every head on a shelf holds what some descriptor signs. -/
theorem sound_of_mem_shelf {self : Replica} {entries : List (BodyKey × BodyRecord × BodyHead)}
    {heads : List (BodyKey × Bytes × ExportedHead)} (h : List.Forall₂ self.Reads entries heads)
    {shelf : Shelf} (hshelf : shelf ∈ BTreeMap.valuesOf (heads.foldl shelve ∅)) :
    ∀ entry ∈ shelf.2, entry.2.Sound := by
  obtain ⟨tx, hget⟩ := BTreeMap.mem_valuesOf.mp hshelf
  refine foldl_shelve_invariant (P := fun _ shelf => ∀ entry ∈ shelf.2, entry.2.Sound)
    (fun head hhead shelf hprior entry hmem => ?_) (fun tx shelf hget => ?_) tx shelf hget
  · rcases List.mem_append.mp hmem with hfiled | hlast
    · rcases hprior with rfl | hprior
      · cases hfiled
      · exact hprior entry hfiled
    · obtain rfl := List.mem_singleton.mp hlast
      obtain ⟨source, -, hread⟩ := exists_of_mem_right h hhead
      exact exportedHead_sound hread.2.2
  · rw [BTreeMap.get_empty] at hget
    cases hget

/-- The heads of a Replica that name one transaction retain one. -/
def OneTransaction (self : Replica) : Prop :=
  ∀ entry ∈ self.headsToExport [], ∀ entry' ∈ self.headsToExport [],
    entry.2.2.tx = entry'.2.2.tx → ∀ material material',
      self.retainedMaterial entry.1 entry.2.1 entry.2.2 = .ok material →
      self.retainedMaterial entry'.1 entry'.2.1 entry'.2.2 = .ok material' →
      material.2 = material'.2

omit [Codecs] in
/-- What a head retains, in memory or in the store, is what its id names. -/
theorem Identified.names_material (hblake : Blake3Injective) {self : Replica}
    (h : self.Identified) {key : BodyKey} {record : BodyRecord} {head : BodyHead}
    (hrecord : self.bodies[key]? = some record) (hhead : head ∈ record.heads)
    {material : Bytes × Bytes} (hmaterial : self.retainedMaterial key record head = .ok material) :
    Names head.tx material.2 := by
  unfold retainedMaterial at hmaterial
  split at hmaterial
  case h_1 tx pack bytes hfind =>
      cases hmaterial
      have hmem := List.mem_of_find?_eq_some hfind
      have htx : tx = head.tx := by simpa using List.find?_some hfind
      cases hraw : self.rawMaterial[key]? with
      | none => simp [hraw] at hmem
      | some entries =>
          rw [hraw] at hmem
          exact htx ▸ h.retained key entries hraw _ hmem
  case h_2 store _ hstore =>
      obtain ⟨object, hobject, hmaterial⟩ := bind_eq_ok.mp hmaterial
      obtain ⟨_, -, hmaterial⟩ := bind_eq_ok.mp hmaterial
      obtain ⟨_, -, hmaterial⟩ := bind_eq_ok.mp hmaterial
      obtain ⟨bytes, hread, hmaterial⟩ := bind_eq_ok.mp hmaterial
      cases hmaterial
      obtain ⟨signed, rfl, hnames⟩ := h.heads key record hrecord head hhead object
        (okOr_eq_ok.mp hobject)
      have hobject := (h.stored store hstore).objectRef_eq (okOr_eq_ok.mp hread)
      exact objectRef_injective hblake hobject ▸ hnames
  case h_3 => cases hmaterial

omit [Codecs] in
/-- **One id, one transaction.**  An id is a digest of the bytes it is retained with. -/
theorem Identified.oneTransaction (hblake : Blake3Injective) (hderive : DeriveKeyInjective)
    {self : Replica} (h : self.Identified) : self.OneTransaction := by
  have hnames : ∀ entry ∈ self.headsToExport [], ∀ material,
      self.retainedMaterial entry.1 entry.2.1 entry.2.2 = .ok material →
      Names entry.2.2.tx material.2 := by
    intro entry hmem material hmaterial
    obtain ⟨⟨key, record⟩, hbody, hentry⟩ := List.mem_flatMap.mp hmem
    obtain ⟨head, hhead, rfl⟩ := List.mem_map.mp hentry
    exact h.names_material hblake (BTreeMap.mem_toList_iff.mp hbody) (List.mem_filter.mp hhead).1
      hmaterial
  intro entry hmem entry' hmem' htx material material' h h'
  refine hderive TRANSACTION_ID_CONTEXT ?_
  calc Crypto.deriveKey TRANSACTION_ID_CONTEXT material.2
      = entry.2.2.tx := hnames entry hmem material h
    _ = entry'.2.2.tx := htx
    _ = Crypto.deriveKey TRANSACTION_ID_CONTEXT material'.2 :=
        (hnames entry' hmem' material' h').symm

/-- **Every Replica in use can send.**  Whatever is done to a Replica that started identified,
a new one among them, its heads that name one transaction retain one. -/
theorem oneTransaction_run [Algebra] [Aead] [ReceiptCodecs] [ReceiptMemory] [OpCodec]
    (hblake : Blake3Injective) (hderive : DeriveKeyInjective) {start : Replica}
    (hstart : start.Identified) (operations : List Operation) :
    ((Station.start start).run operations).replica.OneTransaction :=
  ((Station.run_keeps (Station.attributed_start start) operations).identified
    hstart).oneTransaction hblake hderive

omit [Crypto] [Codecs] in
theorem headsToExport_subset (self : Replica) (held : List (BodyKey × Bytes)) :
    self.headsToExport held ⊆ self.headsToExport [] := by
  intro entry hmem
  obtain ⟨body, hbody, hentry⟩ := List.mem_flatMap.mp hmem
  obtain ⟨head, hhead, rfl⟩ := List.mem_map.mp hentry
  refine List.mem_flatMap.mpr ⟨body, hbody, List.mem_map.mpr ⟨head, ?_, rfl⟩⟩
  exact List.mem_filter.mpr ⟨(List.mem_filter.mp hhead).1, decide_eq_true List.not_mem_nil⟩

/-- **What is exported can be delivered.**  The packs of a unit are held against the
descriptors of its transaction before they leave. -/
theorem deliverable_of_export {self : Replica} (hone : self.OneTransaction)
    {held : List (BodyKey × Bytes)} {heads : List (BodyKey × Bytes × ExportedHead)}
    (h : List.Forall₂ self.Reads (self.headsToExport held) heads) {shelf : Shelf}
    (hshelf : shelf ∈ BTreeMap.valuesOf (heads.foldl shelve ∅)) : Deliverable shelf.whole := by
  obtain ⟨tx, hget⟩ := BTreeMap.mem_valuesOf.mp hshelf
  -- a shelf keeps the transaction of the first head filed on it
  have hfiled := foldl_shelve_invariant (P := fun tx shelf =>
    (∃ source ∈ self.headsToExport held, ∃ head, self.Reads source head ∧ head.2.1 = tx ∧
      head.2.2.tx = shelf.1) ∧ Deliverable shelf.whole)
    (fun head hhead shelf hprior => ?_) (fun tx shelf hget => ?_) tx shelf hget
  · exact hfiled.2
  · obtain ⟨source, hsource, hread⟩ := exists_of_mem_right h hhead
    obtain ⟨⟨bytes, hretained, hdecode⟩, descriptor, hdescriptor, hpack⟩ :=
      exportedHead_eq_ok hread.2.2
    have hfirst : head.2.2.tx = shelf.1 ∧ Deliverable shelf.whole := by
      rcases hprior with rfl | ⟨⟨source', hsource', head', hread', htx, hsame⟩, hprior⟩
      · exact ⟨rfl, fun payload hmem => by cases hmem⟩
      · obtain ⟨⟨bytes', hretained', hdecode'⟩, -⟩ := exportedHead_eq_ok hread'.2.2
        have hbytes : bytes = bytes' := hone source (headsToExport_subset self held hsource)
          source' (headsToExport_subset self held hsource')
          (hread.2.1.symm.trans (htx.symm.trans hread'.2.1)) _ _ hretained hretained'
        rw [hbytes] at hdecode
        exact ⟨(Option.some.inj (hdecode.symm.trans hdecode')).trans hsame, hprior⟩
    refine ⟨⟨source, hsource, head, hread, rfl, hfirst.1⟩, fun payload hmem => ?_⟩
    obtain ⟨entry, hentry, rfl⟩ := List.mem_map.mp hmem
    rcases List.mem_append.mp hentry with hentry | hlast
    · exact hfirst.2 _ (List.mem_map_of_mem hentry)
    · obtain rfl := List.mem_singleton.mp hlast
      refine ⟨descriptor, head.2.2.artifacts, ?_, hpack⟩
      show descriptorFor shelf.1 head.1 = some descriptor
      rw [← hfirst.1, hread.1]
      exact hdescriptor
  · rw [BTreeMap.get_empty] at hget
    cases hget

section Receive

variable {receiver : Replica} {known : BodyKey → List Object} {shelf : Shelf}

/-- A received unit has what the whole one has. -/
theorem sameMaterial_of_completePayloads (hblake : Blake3Injective)
    (hdeliverable : Deliverable shelf.whole) {payloads : List (BodyKey × Bytes)}
    (h : receiver.completePayloads shelf.1
      (shelf.unit fun key => minimised (known key)).2 = .ok payloads) :
    SameMaterial shelf.whole (shelf.1, payloads) := by
  refine ⟨rfl, List.forall₂_map_left_iff.mpr ?_⟩
  have hwhole : ∀ entry ∈ shelf.2, ∃ descriptor artifacts,
      descriptorFor shelf.1 entry.1 = some descriptor ∧
        decodeArtifactPack descriptor entry.2.pack = .ok artifacts := fun entry hmem =>
    hdeliverable (entry.1, entry.2.pack) (List.mem_map_of_mem hmem)
  have hpairs := List.forall₂_map_left_iff.mp (mapM_eq_ok_iff.mp h)
  refine ((List.forall₂_and_left _ _).mpr ⟨hwhole, hpairs⟩).imp ?_
  rintro entry payload ⟨⟨descriptor, artifacts, hdescriptor, hdecode⟩, hcomplete⟩
  obtain ⟨descriptor', hfound, hcomplete⟩ := bind_eq_ok.mp hcomplete
  obtain rfl := Option.some.inj (hdescriptor.symm.trans (okOr_eq_ok.mp hfound))
  obtain ⟨pack, hpack, hpure⟩ := bind_eq_ok.mp hcomplete
  cases hpure
  exact ⟨rfl, descriptor, artifacts, hdescriptor, hdecode,
    completeArtifactDelivery_decodes hblake hdecode hpack⟩

/-- A receiver that has what was left out completes every pack of a unit. -/
theorem exists_completePayloads (hblake : Blake3Injective)
    (hsound : ∀ entry ∈ shelf.2, entry.2.Sound) (hdeliverable : Deliverable shelf.whole)
    (hsupply : ∀ key, ∀ object ∈ known key, receiver.Supplies key object) :
    ∃ payloads, receiver.completePayloads shelf.1
      (shelf.unit fun key => minimised (known key)).2 = .ok payloads := by
  refine exists_mapM_eq_ok fun payload hpayload => ?_
  obtain ⟨entry, hmem, rfl⟩ := List.mem_map.mp hpayload
  obtain ⟨descriptor, artifacts, hdescriptor, hdecode⟩ :=
    hdeliverable (entry.1, entry.2.pack) (List.mem_map_of_mem hmem)
  obtain ⟨pack, hpack⟩ := exists_completeArtifactDelivery hblake (hsound entry hmem) hdecode
    (hsupply entry.1)
  exact ⟨(entry.1, pack), bind_eq_ok.mpr ⟨descriptor, okOr_eq_ok.mpr hdescriptor,
    bind_eq_ok.mpr ⟨pack, hpack, rfl⟩⟩⟩

end Receive

omit [Crypto] [Loro] [Codecs] in
/-- Where nothing is remembered, nothing is known. -/
theorem knownObjects_none (held : List (BodyKey × Bytes)) (key : BodyKey) :
    knownObjects (fun _ _ => none) held key = [] :=
  List.flatMap_eq_nil_iff.mpr fun _ _ => rfl

omit [Crypto] [Loro] [Codecs] in
theorem mem_knownObjects {recent : RecentHeads} {held : List (BodyKey × Bytes)} {key : BodyKey}
    {object : Object} (h : object ∈ knownObjects recent held key) :
    ∃ commitment objects, (key, commitment) ∈ held ∧ recent key commitment = some objects ∧
      object ∈ objects := by
  obtain ⟨⟨key', commitment⟩, hheld, hobject⟩ := List.mem_flatMap.mp h
  obtain ⟨hmem, hkey⟩ := List.mem_filter.mp hheld
  obtain rfl : key' = key := of_decide_eq_true hkey
  cases hrecent : recent key' commitment with
  | none =>
      rw [hrecent] at hobject
      cases hobject
  | some objects =>
      rw [hrecent] at hobject
      exact ⟨commitment, objects, hmem, hrecent, hobject⟩

/-- **Delivery is lossless, and its container exact.**  What can be sent in whole packs can be
sent minimised; a receiver makes nothing else of it, and one that has what it declared makes
all of it.  A string is a pack exactly where the encoder writes it. -/
theorem delivery_lossless (hblake : Blake3Injective) :
    (∀ (sender receiver : Replica) (recent : RecentHeads) (held : List (BodyKey × Bytes))
        (whole : ExportedMaterial),
      sender.OneTransaction → sender.exportMaterialExcluding (fun _ _ => none) held = .ok whole →
      ∃ minimal, sender.exportMaterialExcluding recent held = .ok minimal ∧
        (∀ received, receiver.completeUnits minimal = .ok received →
          List.Forall₂ SameMaterial whole received) ∧
        ((∀ entry ∈ held, ∀ objects, recent entry.1 entry.2 = some objects →
            ∀ object ∈ objects, receiver.Supplies entry.1 object) →
          ∃ received, receiver.completeUnits minimal = .ok received)) ∧
    ∀ (descriptor : Descriptor) (bytes : Bytes) (requireComplete : Bool) (artifacts : List Bytes),
      decodeArtifactPackInner descriptor bytes requireComplete = .ok artifacts ↔
        ∃ packed, encodeArtifactPack packed = .ok bytes ∧
          OfClosure descriptor.artifactRefs requireComplete packed ∧
          artifacts = inSignedOrder descriptor.artifactRefs packed := by
  refine ⟨fun sender receiver recent held whole hone hwhole => ?_,
    fun descriptor bytes requireComplete artifacts => decodeArtifactPackInner_eq_ok⟩
  obtain ⟨heads, hread, hunits⟩ := exportMaterialExcluding_eq_ok.mp hwhole
  have hshelves : whole = (BTreeMap.valuesOf (heads.foldl shelve ∅)).map Shelf.whole := by
    rw [hunits]
    refine List.map_congr_left fun shelf _ => Prod.ext rfl (List.map_congr_left fun entry _ => ?_)
    show (entry.1, minimised (knownObjects (fun _ _ => none) held entry.1) entry.2) = _
    rw [knownObjects_none]
    rfl
  subst hshelves
  have hdeliverable : ∀ shelf ∈ BTreeMap.valuesOf (heads.foldl shelve ∅),
      Deliverable shelf.whole := fun shelf hshelf => deliverable_of_export hone hread hshelf
  refine ⟨_, exportMaterialExcluding_eq_ok.mpr ⟨heads, hread, rfl⟩, fun received h => ?_,
    fun hsupply => exists_mapM_eq_ok fun unit hunit => ?_⟩
  · have hpairs := List.forall₂_map_left_iff.mp (mapM_eq_ok_iff.mp h)
    refine List.forall₂_map_left_iff.mpr
      (((List.forall₂_and_left _ _).mpr ⟨hdeliverable, hpairs⟩).imp ?_)
    rintro shelf unit ⟨hshelf, hcomplete⟩
    obtain ⟨payloads, hpayloads, hpure⟩ := bind_eq_ok.mp hcomplete
    cases hpure
    exact sameMaterial_of_completePayloads hblake hshelf hpayloads
  · obtain ⟨shelf, hshelf, rfl⟩ := List.mem_map.mp hunit
    obtain ⟨payloads, hpayloads⟩ := exists_completePayloads hblake
      (sound_of_mem_shelf hread hshelf) (hdeliverable shelf hshelf) fun key object hobject => by
        obtain ⟨commitment, objects, hmem, hrecent, hobject⟩ := mem_knownObjects hobject
        exact hsupply (key, commitment) hmem objects hrecent object hobject
    exact ⟨_, bind_eq_ok.mpr ⟨payloads, hpayloads, rfl⟩⟩

end Deliver

/-! ## A sample delivery -/

/-- A sealed artifact of the sample epoch. -/
def sampleEnvelope (fill : UInt8) : Bytes := ⟨List.replicate 16 5 ++ List.replicate 28 fill⟩

/-- The reference a sealed artifact answers to, under ideal primitives. -/
def sampleReference (fill : UInt8) : ArtifactRef :=
  let _ := idealCrypto
  ⟨objectContentHash (sampleEnvelope fill), 44, ⟨List.replicate 16 5⟩⟩

/-- A transaction that writes the sample Body, with a tail of the given artifacts. -/
def sampleSigned (tail : List UInt8) : Transaction where
  core :=
    { version := 1
      space := sampleContext.space
      parentManifestRoot := NO_PARENT_ROOT
      replicaFrontier := ReplicaFrontier.EMPTY
      authorityFrontier := sampleContext.authorityFrontier
      actor := ActorId.PREFIX
      operation := ⟨[1]⟩
      signer := ⟨[1]⟩
      intentDigest := Bytes.empty
      operationsDigest := Bytes.empty
      demand := Bytes.empty
      descriptors := [
        { world := sampleKey.world
          body := sampleKey.body
          schema := ⟨[1]⟩
          schemaVersion := 1
          encoding := ⟨[1]⟩
          mutationModel := MUTATION_ATOMIC
          baseFrontier := ReplicaFrontier.EMPTY
          resultingFrontier := ReplicaFrontier.EMPTY
          material :=
            { formatVersion := 1
              checkpoint := sampleReference 1
              deltaTail := tail.map sampleReference
              historyRoot := none
              historyCount := 0
              version := ⟨1, []⟩
              plaintextSize := 0 } }] }
  authorizationReceipt := Bytes.empty
  signatureAlgorithm := SIG_ALG_ED25519
  signature := ⟨[1]⟩

/-- A Replica in memory that retains one head of the sample Body. -/
def retaining (tail : List UInt8) : @Replica opLogLoro :=
  let _ := opLogLoro
  let _ := wireCodecs
  let head : BodyHead := ⟨⟨[1]⟩, ⟨[2]⟩, ⟨[3]⟩, none, none, 0, 0⟩
  let record : BodyRecord :=
    ⟨⟨⟨[1]⟩, 1, ⟨[1]⟩, MUTATION_ATOMIC⟩, ReplicaFrontier.EMPTY, [head], true, none⟩
  { Replica.new 0 with
    bodies := (∅ : BTreeMap BodyKey BodyRecord).insert sampleKey record
    rawMaterial := (∅ : BTreeMap BodyKey (List RetainedHead)).insert sampleKey
      [(head.tx, packBytes ((1 :: tail).map sampleEnvelope), (sampleSigned tail).encode)] }

/-- The sender remembers that a declared head had the first artifact. -/
def sampleRecent : RecentHeads := fun _ commitment =>
  let _ := idealCrypto
  if commitment = ⟨[7]⟩ then some [objectRef (sampleEnvelope 1)] else none

/-- A head with two artifacts is delivered to a Replica that has the first. -/
theorem retaining_delivers :
    let _ := idealCrypto
    let _ := opLogLoro
    let _ := wireCodecs
    ∃ minimal received, (retaining [2]).exportMaterialExcluding sampleRecent
        [(sampleKey, ⟨[7]⟩)] = .ok minimal ∧
      (retaining []).completeUnits minimal = .ok received ∧
      List.Forall₂ SameMaterial [(sampleSigned [2],
        [(sampleKey, packBytes ([1, 2].map sampleEnvelope))])] received := by
  intro crypto loro codecs
  have hwhole : (retaining [2]).exportMaterialExcluding (fun _ _ => none)
      [(sampleKey, ⟨[7]⟩)] = .ok [(sampleSigned [2],
        [(sampleKey, packBytes ([1, 2].map sampleEnvelope))])] := by
    decide +kernel
  have hone : (retaining [2]).OneTransaction := by
    have hsingle : ∀ entry ∈ (retaining [2]).headsToExport [],
        ∀ entry' ∈ (retaining [2]).headsToExport [], entry = entry' := by
      decide +kernel
    intro entry hmem entry' hmem' _ material material' h h'
    obtain rfl := hsingle entry hmem entry' hmem'
    exact congrArg Prod.snd (Except.ok.inj (h.symm.trans h'))
  obtain ⟨minimal, hminimal, hsame, hreceives⟩ := (delivery_lossless idealCrypto_blake3).1
    (retaining [2]) (retaining []) sampleRecent [(sampleKey, ⟨[7]⟩)] _ hone hwhole
  obtain ⟨received, hreceived⟩ := hreceives fun entry hmem objects hobjects object hobject => by
    obtain rfl := List.mem_singleton.mp hmem
    have hrecent : sampleRecent sampleKey ⟨[7]⟩ = some [objectRef (sampleEnvelope 1)] := rfl
    obtain rfl := Option.some.inj (hrecent.symm.trans hobjects)
    obtain rfl := List.mem_singleton.mp hobject
    have hheld : sampleEnvelope 1 ∈ (retaining []).heldArtifacts sampleKey := by
      decide +kernel
    exact ⟨sampleEnvelope 1, rfl, .inl hheld⟩
  exact ⟨minimal, received, hminimal, hreceived, hsame received hreceived⟩

end Lait.Replica
