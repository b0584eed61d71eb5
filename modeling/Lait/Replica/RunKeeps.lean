import Lait.Replica.ActionEffects

/-!
# What a run keeps

Whatever is done to a Replica, it stays rooted and identified (`Station.run_keeps`).

Most operations keep both by themselves.  A finalization writes the records of the preparation
in flight, so those have to refer to the transaction they were prepared with
(`Station.Attributed`); assembling them sees to that.  An unattributed commit, on a Replica
without a store, leaves heads that no transaction object is referred to from.
-/

namespace Lait.Replica

variable [Crypto] [Loro] [Algebra] [Aead] [Codecs]

/-! ## New Replicas -/

omit [Algebra] [Aead] [Codecs] in
/-- A new Replica, with a store or without, has no transaction yet. -/
theorem identified_new (writer : ℕ) {durable : Option Store}
    (h : ∀ store, durable = some store → store.Addressed) :
    Identified { Replica.new writer with durable } :=
  ⟨h, BTreeMap.every_empty, BTreeMap.every_empty⟩

/-! ## Collecting -/

omit [Algebra] [Aead] [Codecs] in
/-- What is collected was at its address. -/
theorem collectUnreachableObjects_keeps (self : Replica) (collecting : Collecting) :
    Keeps self (self.collectUnreachableObjects collecting).1 := by
  unfold collectUnreachableObjects
  split
  · exact .refl self
  case h_2 store hstore =>
    constructor
    · intro _ hnone
      cases hnone
    · intro h
      refine ⟨?_, h.heads, h.retained⟩
      rintro _ ⟨⟩
      exact (h.stored store hstore).collectUnreachable collecting

/-! ## Unattributed commits -/

section Commit

omit [Algebra] [Aead] [Codecs]

omit [Loro] in
/-- An unattributed head refers to nothing. -/
theorem unattributedRecord_named (prior : Option BodyRecord) (model : ℕ) (seed : Bytes) :
    (unattributedRecord prior model seed).Named := by
  intro head hhead object hobject
  obtain rfl := List.mem_singleton.mp hhead
  cases hobject

theorem updateRecordUnattributed_keeps (seed : Bytes) (self : Replica) (key : BodyKey) :
    Keeps self (updateRecordUnattributed seed self key) := by
  unfold updateRecordUnattributed
  split
  · exact (Keeps.refl self).install rfl rfl fun h _ => ⟨h.stored, h.heads.erase key, h.retained⟩
  · exact (Keeps.refl self).install rfl rfl fun h _ =>
      ⟨h.stored, h.heads.insert (unattributedRecord_named _ _ _), h.retained⟩

theorem foldl_updateRecordUnattributed_keeps (seed : Bytes) (keys : List BodyKey)
    (self : Replica) : Keeps self (keys.foldl (updateRecordUnattributed seed) self) := by
  induction keys generalizing self with
  | nil => exact .refl self
  | cons key keys ih => exact (updateRecordUnattributed_keeps seed self key).trans (ih _)

end Commit

theorem commit_keeps (self : Replica) (amb : Ambient) (ops : List (BodyKey × Op)) :
    Keeps self (self.commit amb ops).1 := by
  unfold commit
  split
  · exact .refl self
  · split
    · exact .refl self
    · have hframe := prepareOps_frame self ops
      split
      case h_1 h =>
          rw [h] at hframe
          obtain ⟨_, _, rfl⟩ := hframe
          exact .of_eq rfl
      case h_2 h =>
          rw [h] at hframe
          obtain ⟨engine, poisoned, rfl⟩ := hframe
          have hfinal : Keeps self { self with fabric := engine.finalize, poisoned } := .of_eq rfl
          dsimp only
          split
          case h_1 => exact hfinal
          case h_2 seed _ =>
              have hcommitted := hfinal.trans (foldl_updateRecordUnattributed_keeps seed
                (ManifestEntry.canonical (ops.map Prod.fst))
                { self with fabric := engine.finalize, poisoned })
              exact hcommitted.trans (.of_eq rfl)

/-! ## Runs -/

variable [ReceiptCodecs] [ReceiptMemory] [OpCodec]

namespace Station

/-- The preparation in flight refers to the transaction it was prepared with. -/
def Attributed (s : Station) : Prop :=
  ∀ action fabric data, s.prepared = some action → action.state = .mutation fabric data →
    Stamped data.transaction data.newRecords

/-- **Every operation keeps a Replica rooted and identified.** -/
theorem apply_keeps {s : Station} (h : s.Attributed) (operation : Operation) :
    Keeps s.replica (s.apply operation).replica := by
  cases operation with
  | commitContent amb ctx descriptors => exact commitContent_keeps s.replica amb ctx descriptors
  | holdContent content until' => exact .of_eq rfl
  | releaseContentHold content => exact .of_eq rfl
  | declareContent amb ctx declarations => exact declareContent_keeps s.replica amb ctx declarations
  | forgetDeclaration key =>
      obtain ⟨_, _, _, _, hstaged⟩ := staged_replaceDeclaredContent s.replica key []
      show Keeps s.replica (s.replica.replaceDeclaredContent key [])
      rw [hstaged]
      exact .of_eq rfl
  | sweep amb ctx now => exact sweep_keeps s.replica amb ctx now
  | collect collecting => exact collectUnreachableObjects_keeps s.replica collecting
  | exportManifest ctx =>
      show Keeps s.replica (s.replica.exportManifest ctx).1
      unfold exportManifest
      split
      · exact .refl _
      · split
        · exact .refl _
        · exact .of_eq rfl
  | incorporateBundle amb ctx bundle authority =>
      show Keeps s.replica (s.replica.incorporateBundle amb ctx bundle authority).1
      unfold incorporateBundle
      split
      · exact .refl _
      · exact incorporateUnits_keeps s.replica amb ctx bundle authority
  | incorporate amb ctx tx payloads authority =>
      show Keeps s.replica (s.replica.incorporate amb ctx tx payloads authority).1
      unfold incorporate
      split
      · exact .refl _
      · split
        · exact .refl _
        · exact incorporateUnits_keeps s.replica amb ctx _ authority
  | commit amb ops => exact commit_keeps s.replica amb ops
  | prepare amb req absence =>
      rw [apply_prepare]
      exact (prepareAction_prepares s.replica amb req absence).keeps
  | finalize amb ctx =>
      cases hprepared : s.prepared with
      | none =>
          rw [apply_finalize_none s amb ctx hprepared]
          exact .refl _
      | some action =>
          rw [apply_finalize s amb ctx hprepared]
          exact finalize_keeps amb ctx fun fabric data => h action fabric data hprepared
  | drop =>
      cases hprepared : s.prepared with
      | none =>
          rw [apply_drop_none s hprepared]
          exact .refl _
      | some action =>
          rw [apply_drop s hprepared]
          exact dropPrepared_keeps s.replica action
  | lookup scope payloadHash =>
      obtain ⟨_, hlookup⟩ := lookupAction_frame s.replica scope payloadHash
      show Keeps s.replica (s.replica.lookupAction scope payloadHash).1
      rw [hlookup]
      exact .of_eq rfl
  | setSupported supported => exact .of_eq rfl
  | setQuota quota => exact .of_eq rfl
  | setKeys keys => exact .of_eq rfl

/-- Only a preparation puts one in flight. -/
theorem Attributed.apply {s : Station} (h : s.Attributed) (operation : Operation) :
    (s.apply operation).Attributed := by
  intro action fabric data hprepared hstate
  cases operation with
  | prepare amb req absence =>
      simp only [Station.apply] at hprepared
      split at hprepared
      case h_1 replica prepared hprepare =>
          obtain rfl : prepared = action := Option.some.inj hprepared
          obtain ⟨_, _, _, _, -, hassemble⟩ := prepareAction_assembles hprepare hstate
          exact assemble_stamped hassemble
      case h_2 => exact h action fabric data hprepared hstate
  | finalize amb ctx =>
      simp only [Station.apply] at hprepared
      split at hprepared
      case h_1 => cases hprepared
      case h_2 => exact h action fabric data hprepared hstate
  | drop =>
      simp only [Station.apply] at hprepared
      split at hprepared
      case h_1 => cases hprepared
      case h_2 => exact h action fabric data hprepared hstate
  | _ => exact h action fabric data hprepared hstate

/-- **What a run keeps.** -/
theorem run_keeps {s : Station} (h : s.Attributed) (operations : List Operation) :
    Keeps s.replica (s.run operations).replica := by
  induction operations generalizing s with
  | nil => exact .refl _
  | cons operation operations ih => exact (apply_keeps h operation).trans (ih (h.apply operation))

omit [Algebra] [Aead] [ReceiptCodecs] [ReceiptMemory] [OpCodec] in
/-- Nothing is in flight at the start. -/
theorem attributed_start (replica : Replica) : (start replica).Attributed := by
  intro _ _ _ hnone
  cases hnone

end Station

end Lait.Replica
