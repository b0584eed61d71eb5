import Lait.Replica.Effects

/-!
# What an incorporation keeps

An incorporation upgrades the opaque Bodies it can, and then publishes the bundle's Bodies
once, or the declarations the bundle left behind.  A planned change contributes the head of its
own transaction, which no object holds yet (`Planned.Fresh`); where there is a store, the heads
are stamped with the objects the bundle's commit writes (`stampAll_named`).  So what is
installed names the transactions it came with, the packs retained in memory included, and the
Replica stays identified (`incorporateUnits_keeps`).
-/

namespace Lait.Replica

section Planned

variable [Crypto] [Loro] [Aead] [Codecs]

/-! ## What is planned -/

/-- A change contributes one head, of its transaction and not stored yet. -/
def Planned.Fresh (change : Planned) : Prop :=
  ∃ head, change.record.heads = [head] ∧ head.tx = change.tx.id ∧ head.transaction = none

omit [Loro] [Aead] in
theorem Planned.Fresh.named {change : Planned} (h : change.Fresh) : change.record.Named := by
  obtain ⟨head, hheads, -, hnone⟩ := h
  intro head' hmem object hobject
  rw [hheads, List.mem_singleton] at hmem
  rw [hmem, hnone] at hobject
  cases hobject

omit [Loro] [Aead] in
theorem Classified.plan_fresh {acc : Classified} (hacc : ∀ change ∈ acc.planned, change.Fresh)
    {change : Planned} (h : change.Fresh) :
    ∀ planned ∈ (acc.plan change).planned, planned.Fresh := by
  intro planned hmem
  rcases List.mem_append.mp hmem with hheld | hnew
  · exact hacc planned hheld
  · rwa [List.mem_singleton.mp hnew]

omit [Aead] in
theorem classifyOpened_fresh {self : Replica} {acc acc' : Classified} {r : Resolved}
    {encoding : EncodingId} {model : ℕ} {artifacts : List Artifact}
    (hacc : ∀ change ∈ acc.planned, change.Fresh)
    (h : self.classifyOpened acc r encoding model artifacts = .ok acc') :
    ∀ change ∈ acc'.planned, change.Fresh := by
  unfold classifyOpened at h
  dsimp only at h
  split at h
  · cases h
    exact hacc
  · split at h
    · cases h
      exact hacc
    · split at h
      · cases h
        exact hacc
      · obtain ⟨⟨proof, version⟩, -, h⟩ := bind_eq_ok.mp h
        split at h
        · cases h
          exact hacc
        · obtain ⟨-, -, h⟩ := bind_eq_ok.mp h
          split at h
          · cases h
            exact hacc
          · split at h
            case h_1 =>
              cases h
              exact Classified.plan_fresh hacc ⟨_, rfl, rfl, rfl⟩
            case h_2 => cases h

theorem classifyOne_fresh {self : Replica} {acc acc' : Classified} {r : Resolved}
    (hacc : ∀ change ∈ acc.planned, change.Fresh) (h : self.classifyOne acc r = .ok acc') :
    ∀ change ∈ acc'.planned, change.Fresh := by
  have hopaque : ∀ change ∈ (self.classifyOpaque acc r).planned, change.Fresh := by
    unfold classifyOpaque
    dsimp only
    split
    · exact hacc
    · exact Classified.plan_fresh hacc ⟨_, rfl, rfl, rfl⟩
  unfold classifyOne at h
  dsimp only at h
  split at h
  · cases h
    exact hacc
  · split at h
    · cases h
      exact hopaque
    · split at h
      · cases h
        exact hacc
      · cases h
        exact hopaque
      · exact classifyOpened_fresh hacc h

theorem classifyAll_fresh {self : Replica} {rs : List Resolved} {acc acc' : Classified}
    (hacc : ∀ change ∈ acc.planned, change.Fresh) (h : self.classifyAll acc rs = .ok acc') :
    ∀ change ∈ acc'.planned, change.Fresh := by
  induction rs generalizing acc with
  | nil =>
      cases h
      exact hacc
  | cons r rs ih =>
      unfold classifyAll at h
      split at h
      · cases h
      case h_2 hone => exact ih (classifyOne_fresh hacc hone) h

theorem planUnits_fresh [ReceiptCodecs] {self : Replica} {authority : AuthoritySource}
    {units : List IncorporationUnit} {space : Option SpaceId} {classified : Classified}
    (h : self.planUnits authority units = .ok (space, classified)) :
    ∀ change ∈ classified.planned, change.Fresh := by
  unfold planUnits at h
  obtain ⟨_, -, h⟩ := bind_eq_ok.mp h
  obtain ⟨resolved, -, h⟩ := bind_eq_ok.mp h
  obtain ⟨classified', hall, h⟩ := bind_eq_ok.mp h
  have hfresh := classifyAll_fresh (fun _ hmem => by cases hmem) hall
  split at h
  · obtain ⟨_, -, h⟩ := bind_eq_ok.mp h
    cases h
    exact hfresh
  · cases h
    exact hfresh

omit [Aead] [Codecs] in
theorem applyChange_changed {P : Planned → Prop} {self : Replica} {acc acc' : Applied}
    {change : Planned} (hchange : P change) (hacc : ∀ change ∈ acc.changed, P change)
    (h : (self.applyChange acc change).2 = .ok acc') : ∀ change ∈ acc'.changed, P change := by
  have hpush : ∀ (held : Applied) (causal : Bytes), held.changed = acc.changed →
      ∀ planned ∈ (held.push change causal).changed, P planned := by
    intro held causal hheld planned hmem
    rcases List.mem_append.mp hmem with hmem | hnew
    · exact hacc planned (hheld ▸ hmem)
    · rwa [List.mem_singleton.mp hnew]
  unfold applyChange at h
  split at h
  case h_1 artifacts _ =>
    unfold applyInterpreted at h
    dsimp only at h
    split at h
    · cases h
    · split at h
      · cases h
      · cases h
      · split at h
        · cases h
          exact hacc
        · split at h
          · cases h
          · cases h
            exact hpush _ _ rfl
  case h_2 =>
    cases h
    exact hpush _ _ rfl

omit [Aead] [Codecs] in
/-- What is applied was planned. -/
theorem applyChanges_changed {P : Planned → Prop} {changes : List Planned} {self : Replica}
    {acc acc' : Applied} (hchanges : ∀ change ∈ changes, P change)
    (hacc : ∀ change ∈ acc.changed, P change)
    (h : (applyChanges changes self acc).2 = .ok acc') : ∀ change ∈ acc'.changed, P change := by
  induction changes generalizing self acc with
  | nil =>
      cases h
      exact hacc
  | cons change changes ih =>
      obtain ⟨hchange, hrest⟩ := List.forall_mem_cons.mp hchanges
      unfold applyChanges at h
      split at h
      · cases h
      case h_2 acc₁ hone =>
        have hone : (self.applyChange acc change).2 = .ok acc₁ := by rw [hone]
        exact ih hrest (applyChange_changed hchange hacc hone) h

end Planned

section Bundle

variable [Crypto] [Loro] [Aead] [Codecs] [ReceiptCodecs]

/-! ## The records of a bundle -/

/-- The records of a bundle are named. -/
abbrev NamedRecords (records : BTreeMap BodyKey BodyRecord) : Prop :=
  BTreeMap.Every (fun _ record => BodyRecord.Named record) records

omit [Loro] [Aead] [Codecs] [ReceiptCodecs] in
/-- A fresh head joins the heads there are. -/
theorem joinHead_named {existing staged folded : BodyRecord} {head : BodyHead}
    (hexisting : existing.Named) (hhead : head.Named)
    (h : joinHead existing staged head = .ok folded) : folded.Named := by
  unfold joinHead at h
  obtain ⟨promoted, hpromote, h⟩ := bind_eq_ok.mp h
  cases h
  have hpromoted : promoted.Named :=
    hexisting.of_heads (congrArg RecordShape.heads (BodyRecord.promoteSingletonClosure_eq_ok hpromote).1)
  intro head' hmem
  dsimp only at hmem
  split at hmem
  · exact hpromoted head' hmem
  · rcases List.mem_append.mp hmem with hheld | hnew
    · exact hpromoted head' hheld
    · rwa [List.mem_singleton.mp hnew]

omit [Aead] [ReceiptCodecs] in
theorem foldOne_named {self : Replica} {final final' : BTreeMap BodyKey BodyRecord}
    {change : Planned} (hself : NamedRecords self.bodies) (hfinal : NamedRecords final)
    (hchange : change.Fresh) (h : self.foldOne final change = .ok final') : NamedRecords final' := by
  unfold foldOne at h
  obtain ⟨head, hhead, h⟩ := bind_eq_ok.mp h
  split at h
  case h_1 existing hexisting _ =>
    obtain ⟨folded, hfolded, h⟩ := bind_eq_ok.mp h
    cases h
    refine hfinal.insert (joinHead_named ?_ ?_ hfolded)
    · cases hkey : final[change.key]? with
      | some held =>
          rw [hkey] at hexisting
          exact Option.some.inj hexisting ▸ hfinal change.key held hkey
      | none =>
          rw [hkey] at hexisting
          exact hself change.key existing hexisting
    · obtain ⟨fresh, hheads, -⟩ := id hchange
      unfold BodyRecord.head at hhead
      rw [hheads] at hhead
      cases hhead
      exact hchange.named head (hheads ▸ List.mem_singleton_self head)
  case h_2 =>
    cases h
    exact hfinal.insert hchange.named

omit [Aead] [ReceiptCodecs] in
theorem foldAll_named {self : Replica} {changes : List Planned}
    {final final' : BTreeMap BodyKey BodyRecord} (hself : NamedRecords self.bodies)
    (hfinal : NamedRecords final) (hchanges : ∀ change ∈ changes, change.Fresh)
    (h : self.foldAll changes final = .ok final') : NamedRecords final' := by
  induction changes generalizing final with
  | nil =>
      cases h
      exact hfinal
  | cons change changes ih =>
      obtain ⟨hchange, hrest⟩ := List.forall_mem_cons.mp hchanges
      unfold foldAll at h
      split at h
      · cases h
      case h_2 hone => exact ih (foldOne_named hself hfinal hchange hone) hrest h

omit [Loro] [Aead] [ReceiptCodecs] in
/-- The stamp is the object of the head's own transaction. -/
theorem updateHead_named {tx : Transaction} {descriptor : Descriptor} {heads : List BodyHead}
    (h : ∀ head ∈ heads, head.Named) :
    ∀ head ∈ updateHead tx.id (stampHead tx descriptor) heads, head.Named := by
  induction heads with
  | nil => exact h
  | cons first rest ih =>
      obtain ⟨hfirst, hrest⟩ := List.forall_mem_cons.mp h
      unfold updateHead
      split
      case isTrue htx =>
        refine List.forall_mem_cons.mpr ⟨?_, hrest⟩
        rintro _ ⟨⟩
        exact ⟨tx.encode, rfl, htx.symm⟩
      case isFalse => exact List.forall_mem_cons.mpr ⟨hfirst, ih hrest⟩

omit [Loro] [Aead] [ReceiptCodecs] in
theorem stampOne_named {records records' : BTreeMap BodyKey BodyRecord} {change : Planned}
    (hrecords : NamedRecords records) (hchange : change.Fresh)
    (h : stampOne records change = .ok records') : NamedRecords records' := by
  unfold stampOne at h
  obtain ⟨head, hhead, h⟩ := bind_eq_ok.mp h
  obtain ⟨descriptor, -, h⟩ := bind_eq_ok.mp h
  obtain ⟨_, -, h⟩ := bind_eq_ok.mp h
  split at h
  case h_1 =>
    cases h
    exact hrecords
  case h_2 record hrecord =>
    cases h
    obtain ⟨fresh, hheads, htx, -⟩ := hchange
    unfold BodyRecord.head at hhead
    rw [hheads] at hhead
    cases hhead
    refine hrecords.insert ?_
    rw [htx]
    exact updateHead_named (hrecords change.key record hrecord)

omit [Loro] [Aead] [ReceiptCodecs] in
theorem stampAll_named {changes : List Planned} {records records' : BTreeMap BodyKey BodyRecord}
    (hrecords : NamedRecords records) (hchanges : ∀ change ∈ changes, change.Fresh)
    (h : stampAll changes records = .ok records') : NamedRecords records' := by
  induction changes generalizing records with
  | nil =>
      cases h
      exact hrecords
  | cons change changes ih =>
      obtain ⟨hchange, hrest⟩ := List.forall_mem_cons.mp hchanges
      unfold stampAll at h
      split at h
      · cases h
      case h_2 hone => exact ih (stampOne_named hrecords hchange hone) hrest h

omit [Loro] [Aead] [Codecs] [ReceiptCodecs] in
theorem adoptPersisted_named {records : BTreeMap BodyKey BodyRecord}
    {changed : BTreeMap BodyKey (Option BodyRecord)} (hrecords : NamedRecords records)
    (hchanged : NamedIn changed) : NamedRecords (adoptPersisted records changed) := by
  unfold adoptPersisted
  refine List.foldlRecOn _ _ hrecords fun records hrecords entry hentry => ?_
  split
  case h_1 record hrecord =>
    exact hrecords.insert (hchanged _ _ (BTreeMap.mem_toList_iff.mp hentry) record hrecord)
  case h_2 => exact hrecords

/-! ## The bundle's own commit -/

/-- A bundle's commit, and the records it leaves to install. -/
theorem persistBundle_keeps {self : Replica} (amb : Ambient) (ctx : CommitContext)
    (bundle : ContactBundle) {changed : List Planned} {final : BTreeMap BodyKey BodyRecord}
    (nextFrontier : ReplicaFrontier) (hchanged : ∀ change ∈ changed, change.Fresh)
    (hfinal : self.Identified → NamedRecords final) :
    Keeps self (self.persistBundle amb ctx bundle changed final nextFrontier).1 ∧
      ∀ records, (self.persistBundle amb ctx bundle changed final nextFrontier).2 = .ok records →
        self.Identified → NamedRecords records := by
  have hfailed : ∀ {failure : Failure} {records : BTreeMap BodyKey BodyRecord},
      Except.error failure = .ok records → self.Identified → NamedRecords records :=
    fun h => by cases h
  unfold persistBundle
  split
  · exact ⟨.refl self, fun _ => hfailed⟩
  case h_2 stamped hstamped =>
    have hnamed : self.Identified → NamedRecords stamped :=
      fun h => stampAll_named (hfinal h) hchanged hstamped
    split
    · exact ⟨.refl self, fun _ => hfailed⟩
    case h_2 newObjects _ =>
      have hwrites := persist_writes self amb
        (bundleRequest ctx bundle stamped newObjects nextFrontier) fun h key record hkey => by
          obtain ⟨record', hrecord', rfl⟩ := by simpa [bundleRequest, BTreeMap.get_map] using hkey
          rintro _ ⟨⟩
          exact hnamed h key record' hrecord'
      split
      case h_1 h =>
        rw [h] at hwrites
        exact ⟨hwrites.keeps, fun _ => hfailed⟩
      case h_2 persisted h =>
        rw [h] at hwrites
        refine ⟨hwrites.keeps, ?_⟩
        rintro _ ⟨⟩ hself
        exact adoptPersisted_named (hnamed hself) (hwrites.named persisted rfl hself)

omit [Loro] [Aead] [ReceiptCodecs] in
/-- The packs kept for a Body are under the ids of their transactions. -/
theorem keptMaterial_named {held : List RetainedHead} {changed : List Planned}
    (hheld : ∀ entry ∈ held, Names entry.1 entry.2.2)
    (hchanged : ∀ change ∈ changed, change.Fresh) (key : BodyKey) (record : BodyRecord) :
    ∀ entry ∈ keptMaterial held changed key record, Names entry.1 entry.2.2 := by
  unfold keptMaterial
  dsimp only
  intro entry hentry
  refine List.foldlRecOn (motive := fun entries => ∀ entry ∈ entries, Names entry.1 entry.2.2)
    changed _ hheld (fun entries hentries change hchange => ?_) entry (List.mem_of_mem_filter hentry)
  obtain ⟨head, hheads, htx, -⟩ := hchanged change hchange
  rw [hheads]
  dsimp only
  split
  · refine List.forall_mem_append.mpr ⟨hentries, List.forall_mem_singleton.mpr ?_⟩
    exact htx.symm
  · exact hentries

omit [Aead] [ReceiptCodecs] in
theorem Identified.installRecords {self : Replica} (h : self.Identified) {changed : List Planned}
    {final : BTreeMap BodyKey BodyRecord} (hchanged : ∀ change ∈ changed, change.Fresh)
    (hfinal : NamedRecords final) : (self.installRecords changed final).Identified := by
  unfold Replica.installRecords
  refine List.foldlRecOn _ _ h fun self h entry hentry => ?_
  have hrecord := hfinal entry.1 entry.2 (BTreeMap.mem_toList_iff.mp hentry)
  refine ⟨h.stored, h.heads.insert hrecord, ?_⟩
  show BTreeMap.Every _ (if _ then _ else _)
  split
  · refine h.retained.insert (keptMaterial_named (fun held hheld => ?_) hchanged _ _)
    cases hkey : self.rawMaterial[entry.1]? with
    | none =>
        rw [hkey] at hheld
        cases hheld
    | some entries =>
        rw [hkey] at hheld
        exact h.retained entry.1 entries hkey held hheld
  · exact h.retained.erase entry.1

theorem publishChanges_keeps (self : Replica) (amb : Ambient) (ctx : CommitContext)
    (bundle : ContactBundle) (applied : Applied) (outcome : ConvergenceOutcome)
    (hchanged : ∀ change ∈ applied.changed, change.Fresh) :
    Keeps self (self.publishChanges amb ctx bundle applied outcome).1 := by
  unfold publishChanges
  split
  · exact .refl self
  · split
    · exact .refl self
    case h_2 nextFrontier _ =>
      split
      · exact .refl self
      case h_2 final hfold =>
        have hfinal : self.Identified → NamedRecords final :=
          fun h => foldAll_named h.heads BTreeMap.every_empty hchanged hfold
        have hpersist : Keeps self (if self.durable.isSome then
              self.persistBundle amb ctx bundle applied.changed final nextFrontier
            else (self, .ok final)).1 ∧
            ∀ records, (if self.durable.isSome then
              self.persistBundle amb ctx bundle applied.changed final nextFrontier
            else (self, .ok final)).2 = .ok records → self.Identified → NamedRecords records := by
          split
          · exact persistBundle_keeps amb ctx bundle nextFrontier hchanged hfinal
          · refine ⟨.refl self, ?_⟩
            rintro _ ⟨⟩
            exact hfinal
        split
        case h_1 h =>
          rw [h] at hpersist
          exact hpersist.1
        case h_2 replica records h =>
          rw [h] at hpersist
          obtain ⟨hkeeps, hrecords⟩ := hpersist
          obtain ⟨_, _, hframe⟩ := installRecords_frame replica applied.changed records
          have hinstalled : Keeps self (replica.installRecords applied.changed records) :=
            hkeeps.install (by rw [hframe]) (by rw [hframe]) fun hself hreplica =>
              hreplica.installRecords hchanged (hrecords records rfl hself)
          obtain ⟨_, _, hsettle⟩ := settle_frame
            { replica.installRecords applied.changed records with frontier := nextFrontier } amb
            final.keys
          dsimp only
          rw [hsettle]
          exact hinstalled.trans (.of_eq rfl)

theorem adoptAndReport_keeps (self : Replica) (amb : Ambient) (ctx : CommitContext)
    (bundle : ContactBundle) (outcome : ConvergenceOutcome) :
    Keeps self (self.adoptAndReport amb ctx bundle outcome).1 := by
  have hadopt := adoptDeclarationsOnly_keeps self amb ctx bundle
  unfold adoptAndReport
  split
  case h_1 h => rwa [h] at hadopt
  case h_2 h => rwa [h] at hadopt

theorem applyPlan_keeps (self : Replica) (amb : Ambient) (ctx : CommitContext)
    (bundle : ContactBundle) {planned : List Planned} (outcome : ConvergenceOutcome)
    (hplanned : ∀ change ∈ planned, change.Fresh) :
    Keeps self (self.applyPlan amb ctx bundle planned outcome).1 := by
  unfold applyPlan
  have hframe := applyChanges_frame planned self ⟨[], ∅, outcome.accepted, outcome.unchanged, 0⟩
  split
  case h_1 h =>
    rw [h] at hframe
    obtain ⟨_, _, rfl⟩ := hframe
    exact .of_eq rfl
  case h_2 applied h =>
    rw [h] at hframe
    obtain ⟨fabric, poisoned, rfl⟩ := hframe
    have hengine : Keeps self { self with fabric, poisoned } := .of_eq rfl
    have hchanged : ∀ change ∈ applied.changed, change.Fresh :=
      applyChanges_changed hplanned (fun _ hmem => by cases hmem) (congrArg Prod.snd h)
    dsimp only
    split
    · exact hengine.trans (adoptAndReport_keeps _ amb ctx bundle _)
    · exact hengine.trans (publishChanges_keeps _ amb ctx bundle applied _ hchanged)

/-- **What an incorporation keeps.** -/
theorem incorporateUnits_keeps (self : Replica) (amb : IncorporateAmbient) (ctx : CommitContext)
    (bundle : ContactBundle) (authority : AuthoritySource) :
    Keeps self (self.incorporateUnits amb ctx bundle authority).1 := by
  unfold incorporateUnits
  split
  · exact .refl self
  · split
    · exact .refl self
    · have hupgraded : Keeps self (self.upgradeRetainedOpaque amb.upgrade ctx).1 :=
        upgradeAll_keeps amb.upgrade ctx _ self
      dsimp only
      split
      case h_1 h => rwa [h] at hupgraded
      case h_2 replica _ _ h =>
        rw [h] at hupgraded
        refine hupgraded.trans ?_
        split
        · exact adoptAndReport_keeps replica amb.publish ctx bundle _
        · split
          · exact .refl replica
          case h_2 space classified hplan =>
            split
            · exact adoptAndReport_keeps replica amb.publish ctx bundle _
            · have hspace : Keeps replica { replica with
                  space := if replica.space.isNone then space else replica.space } := .of_eq rfl
              exact hspace.trans (applyPlan_keeps _ amb.publish ctx bundle _ (planUnits_fresh hplan))

end Bundle

end Lait.Replica
