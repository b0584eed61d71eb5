import Lait.Replica.ActionEffects
import Lait.Replica.OpLog

/-!
# A poisoned Replica stops

A failed commit, an engine that lost its rollback and a detached preparation that
could not be undone all poison a Replica: the handle is to do nothing more until
the store is reopened.  Every operation that mutates asks `mutationAvailable`
first, and a preparation still in flight asks `validateParent`; both refuse a
poisoned Replica.

The two maintenance operations ask neither.  The content sweep publishes by itself, and a
poisoned Replica with a committed descriptor nothing keeps still publishes it away
(`sweep_seals`).  A collection rewrites the pack of a poisoned handle, and what nothing
requires or pins is gone from it (`collect_drops`).  So a poisoned Replica stays where it is
along every run whose sweeps find nothing to sweep and whose collections find nothing ever
committed, or a journal whose writer is closed (`stopped_of_maintenance_stopped`).
-/

namespace Lait.Replica

/-! ## A store that takes no commit -/

namespace Store

/-- The journal's writer is closed: a flush failed, or the sequence is spent. -/
def Closed (store : Store) : Prop := store.unsettled.isSome ∨ U64_MAX ≤ store.sequence

theorem commitClassified_of_closed [Crypto] {store : Store} (h : store.Closed)
    (delta : CommitDelta) (outcome : CommitOutcome) :
    ∃ failure, store.commitClassified delta outcome = (store, .error failure) := by
  unfold commitClassified
  split
  · exact ⟨_, rfl⟩
  case isFalse hsequence =>
    have hunsettled : store.unsettled.isSome := h.resolve_right hsequence
    rw [if_pos hunsettled]
    exact ⟨_, rfl⟩

end Store

section Stopped

variable [Loro]

/-- The Replica was poisoned. -/
def Poisoned (self : Replica) : Prop := self.poisoned ∨ self.rollbackPoisoned

/-- Nothing the Replica stores or publishes has changed, and it is poisoned. -/
structure Stopped (replica replica' : Replica) : Prop where
  durable : replica'.durable = replica.durable
  frontier : replica'.frontier = replica.frontier
  manifestRoot : replica'.manifestRootObject = replica.manifestRootObject
  poisoned : replica'.Poisoned

theorem Stopped.refl {self : Replica} (h : self.Poisoned) : Stopped self self :=
  ⟨rfl, rfl, rfl, h⟩

theorem Stopped.trans {self self' self'' : Replica} (h : Stopped self self')
    (h' : Stopped self' self'') : Stopped self self'' :=
  ⟨h'.durable.trans h.durable, h'.frontier.trans h.frontier,
    h'.manifestRoot.trans h.manifestRoot, h'.poisoned⟩

/-- An operation that answers before it has done anything. -/
theorem Stopped.of_eq {self self' : Replica} (h : self.Poisoned) (heq : self' = self) :
    Stopped self self' := by
  rw [heq]
  exact .refl h

theorem Poisoned.mutationAvailable {self : Replica} (h : self.Poisoned) :
    self.mutationAvailable = .error .poisoned := if_pos h

end Stopped

/-! ## The operations -/

section Operations

variable [Crypto] [Loro]

omit [Loro] in
theorem commitStore_of_closed [Loro] {self : Replica} {store : Store}
    (hstore : self.durable = some store) (hclosed : store.Closed) (delta : CommitDelta)
    (outcome : CommitOutcome) :
    ∃ failure, self.commitStore delta outcome
      = ({ self with durable := some store, poisoned := true }, .error failure) := by
  obtain ⟨failure, hcommit⟩ := Store.commitClassified_of_closed hclosed delta outcome
  refine ⟨failure, ?_⟩
  unfold commitStore
  rw [hstore]
  dsimp only
  rw [hcommit]

variable [Codecs] [ReceiptCodecs]

/-- A sweep would get no further than its journal: there is no store, nothing to
sweep, or a store that takes no commit. -/
def SweepStops (self : Replica) (now : ℕ) : Prop :=
  self.durable = none ∨ self.unreferenced now = [] ∨
    ∃ store, self.durable = some store ∧ store.Closed

omit [ReceiptCodecs] in
/-- Lapsed holds are dropped first, and keep nothing the sweep would not sweep. -/
theorem unreferenced_lapsed (self : Replica) (now : ℕ) :
    ({ self with
      pendingContent := self.pendingContent.filter (fun _ until' => decide (now < until')) } :
        Replica).unreferenced now = self.unreferenced now := by
  have hfilter : (self.pendingContent.filter fun _ until' => decide (now < until')).toList.filter
      (fun entry => decide (now < entry.2))
        = self.pendingContent.toList.filter fun entry => decide (now < entry.2) := by
    rw [Std.ExtTreeMap.toList_filter, List.filter_filter]
    simp
  unfold unreferenced retainedContent reachableContent
  dsimp only
  rw [hfilter]

omit [ReceiptCodecs] in
theorem Poisoned.sweep_stopped {self : Replica} (h : self.Poisoned) (amb : Ambient)
    (ctx : CommitContext) {now : ℕ} (hstops : self.SweepStops now) :
    Stopped self (self.sweepUnreferencedContentAt amb ctx now).1 := by
  unfold sweepUnreferencedContentAt
  dsimp only
  rw [unreferenced_lapsed]
  split
  · exact ⟨rfl, rfl, rfl, h⟩
  case isFalse hdurable =>
    split
    · exact ⟨rfl, rfl, rfl, h⟩
    case isFalse hswept =>
      obtain ⟨store, hstore, hclosed⟩ : ∃ store, self.durable = some store ∧ store.Closed := by
        rcases hstops with hnone | hnothing | hclosed
        · simp [hnone] at hdurable
        · simp [hnothing] at hswept
        · exact hclosed
      split
      · exact ⟨rfl, rfl, rfl, h⟩
      · split
        · exact ⟨rfl, rfl, rfl, h⟩
        case h_2 root _ =>
          split
          · exact ⟨rfl, rfl, rfl, h⟩
          case h_2 publication _ =>
            -- The sweep reaches its journal, which takes nothing.
            let swept : Replica := { self with
              pendingContent := self.pendingContent.filter fun _ until' => decide (now < until')
              signed := root :: self.signed }
            have hdurable : swept.durable = some store := hstore
            obtain ⟨failure, hcommit⟩ := commitStore_of_closed hdurable hclosed
              (sweepCommit self (advancePublished self.frontier
                (Bytes.join ((self.unreferenced now).map ContentDescriptor.contentRef)))
                publication) amb.outcome
            split
            case h_1 hrun =>
              cases hrun.symm.trans hcommit
              exact ⟨hstore.symm, rfl, rfl, .inl rfl⟩
            case h_2 hrun => cases hrun.symm.trans hcommit

omit [ReceiptCodecs] in
/-- **A sweep asks nobody.**  One that succeeds and had something to sweep has
sealed a commit, whatever the flags of the Replica say. -/
theorem sweep_seals {self self' : Replica} {amb : Ambient} {ctx : CommitContext} {now : ℕ}
    {swept : List Bytes} (h : self.sweepUnreferencedContentAt amb ctx now = (self', .ok swept))
    (hswept : swept ≠ []) :
    ∃ store store', self.durable = some store ∧ self'.durable = some store' ∧
      store'.sequence = store.sequence + 1 := by
  unfold sweepUnreferencedContentAt at h
  dsimp only at h
  split at h
  · cases h
  · split at h
    · cases h
      exact absurd rfl hswept
    · split at h
      · cases h
      · split at h
        · cases h
        · split at h
          · cases h
          · split at h
            · cases h
            case h_2 hrun =>
              cases h
              rcases commitStore_cases _ _ _ with ⟨_, _, _, hcommit, -⟩ | ⟨store, hstore, -, hcommit⟩
              · cases hrun.symm.trans hcommit
              · cases hrun.symm.trans hcommit
                exact ⟨store, _, hstore, rfl, rfl⟩

end Operations

section Collection

variable [Loro]

/-- A collection would get no further than its journal: there is no store, nothing was ever
committed to it, or its writer is closed. -/
def CollectStops (self : Replica) : Prop :=
  ∀ store, self.durable = some store → store.sequence = 0 ∨ store.unsettled.isSome

theorem Poisoned.collect_stopped {self : Replica} (h : self.Poisoned) (collecting : Collecting)
    (hstops : self.CollectStops) : Stopped self (self.collectUnreachableObjects collecting).1 := by
  unfold collectUnreachableObjects
  split
  · exact .refl h
  case h_2 store hstore =>
    have hsame : (store.collectUnreachable collecting).1 = store := by
      unfold Store.collectUnreachable
      split
      · rfl
      case isFalse hsettled =>
        rw [if_pos ((hstops store hstore).resolve_right hsettled)]
    refine ⟨?_, rfl, rfl, h⟩
    rw [hstore]
    exact congrArg some hsame

/-- **A collection asks nobody.**  One that is not stopped takes what nothing requires or pins,
whatever the flags of the Replica say. -/
theorem collect_drops {self : Replica} {store : Store} {collecting : Collecting}
    (hstore : self.durable = some store) (hruns : ¬ self.CollectStops)
    (hbuilt : collecting.built = true) {hash : Bytes} (heager : store.eager[hash]? = none)
    (hdeferred : store.deferred[hash]? = none) (hpinned : hash ∉ collecting.pinned) :
    ∃ store', (self.collectUnreachableObjects collecting).1.durable = some store' ∧
      store'.objects[hash]? = none := by
  obtain ⟨hcommitted, hsettled⟩ : store.sequence ≠ 0 ∧ ¬ store.unsettled.isSome := by
    by_contra hstops
    refine hruns fun store' hstore' => ?_
    obtain rfl := Option.some.inj (hstore.symm.trans hstore')
    exact or_iff_not_and_not.mpr hstops
  refine ⟨(store.collectUnreachable collecting).1, ?_, ?_⟩
  · unfold collectUnreachableObjects
    rw [hstore]
  · unfold Store.collectUnreachable
    rw [if_neg hsettled, if_neg hcommitted, hbuilt]
    have hkeep : (store.eager.contains hash || store.deferred.contains hash ||
        decide (hash ∈ collecting.pinned)) = false := by
      rw [Std.ExtTreeMap.contains_eq_isSome_getElem?, Std.ExtTreeMap.contains_eq_isSome_getElem?,
        heager, hdeferred, decide_eq_false hpinned]
      rfl
    simp only [Bool.not_true, Bool.false_eq_true, if_false, BTreeMap.get_filter, hkeep]
    cases store.objects[hash]? <;> rfl

end Collection

/-! ## Runs -/

section Runs

variable [Crypto] [Loro] [Algebra] [Aead] [Codecs] [ReceiptCodecs] [ReceiptMemory] [OpCodec]

omit [Algebra] [Aead] [ReceiptCodecs] [ReceiptMemory] [OpCodec] in
theorem exportManifest_stopped {self : Replica} (h : self.Poisoned) (ctx : CommitContext) :
    Stopped self (self.exportManifest ctx).1 := by
  unfold exportManifest
  split
  · exact .refl h
  · split
    · exact .refl h
    · exact ⟨rfl, rfl, rfl, h⟩

omit [Crypto] [Algebra] [Aead] [Codecs] [ReceiptCodecs] [ReceiptMemory] [OpCodec] in
/-- Undoing a preparation touches the engine alone. -/
theorem dropPrepared_stopped {self : Replica} (h : self.Poisoned) (prepared : PreparedAction) :
    Stopped self (self.dropPrepared prepared) := by
  unfold dropPrepared
  dsimp only
  split
  · exact ⟨rfl, rfl, rfl, h⟩
  · split
    · exact ⟨rfl, rfl, rfl, h⟩
    · exact ⟨rfl, rfl, rfl, .inr rfl⟩

/-- Every sweep of a run stops before its commit, and every collection before it compacts. -/
def MaintenanceStops (s : Station) : Operation → Prop
  | .sweep _ _ now => s.replica.SweepStops now
  | .collect _ => s.replica.CollectStops
  | _ => True

theorem Poisoned.apply_stopped {s : Station} (h : s.replica.Poisoned) {operation : Operation}
    (hstops : MaintenanceStops s operation) :
    Stopped s.replica (s.apply operation).replica := by
  have hbusy := h.mutationAvailable
  cases operation with
  | commitContent amb ctx descriptors =>
      refine .of_eq h ?_
      show (s.replica.commitContent amb ctx descriptors).1 = s.replica
      unfold commitContent
      rw [hbusy]
  | holdContent content until' => exact ⟨rfl, rfl, rfl, h⟩
  | releaseContentHold content => exact ⟨rfl, rfl, rfl, h⟩
  | declareContent amb ctx declarations =>
      refine .of_eq h ?_
      show (s.replica.declareContent amb ctx declarations).1 = s.replica
      unfold declareContent
      rw [hbusy]
  | forgetDeclaration key =>
      obtain ⟨_, _, _, _, hstaged⟩ := staged_replaceDeclaredContent s.replica key []
      show Stopped s.replica (s.replica.replaceDeclaredContent key [])
      rw [hstaged]
      exact ⟨rfl, rfl, rfl, h⟩
  | sweep amb ctx now => exact h.sweep_stopped amb ctx hstops
  | collect collecting => exact h.collect_stopped collecting hstops
  | exportManifest ctx => exact exportManifest_stopped h ctx
  | incorporateBundle amb ctx bundle authority =>
      refine .of_eq h ?_
      show (s.replica.incorporateBundle amb ctx bundle authority).1 = s.replica
      unfold incorporateBundle
      rw [hbusy]
  | incorporate amb ctx tx payloads authority =>
      refine .of_eq h ?_
      show (s.replica.incorporate amb ctx tx payloads authority).1 = s.replica
      unfold incorporate
      rw [hbusy]
  | commit amb ops =>
      refine .of_eq h ?_
      show (s.replica.commit amb ops).1 = s.replica
      unfold commit
      split
      · rfl
      · rw [hbusy]
  | prepare amb req absence =>
      have : s.replica.prepareAction amb req absence = (s.replica, .error .poisoned) := by
        unfold prepareAction
        rw [hbusy]
      rw [Station.apply_prepare, this]
      exact .refl h
  | finalize amb ctx =>
      cases hprepared : s.prepared with
      | none =>
          rw [Station.apply_finalize_none s amb ctx hprepared]
          exact .refl h
      | some action =>
          have hgone : s.replica.validateParent action = .error .poisoned := if_pos h.symm
          have : (s.replica.finalize amb ctx action).1 = s.replica.dropPrepared action := by
            unfold finalize
            rw [hgone]
          rw [Station.apply_finalize s amb ctx hprepared]
          show Stopped s.replica (s.replica.finalize amb ctx action).1
          rw [this]
          exact dropPrepared_stopped h action
  | drop =>
      cases hprepared : s.prepared with
      | none =>
          rw [Station.apply_drop_none s hprepared]
          exact .refl h
      | some action =>
          rw [Station.apply_drop s hprepared]
          exact dropPrepared_stopped h action
  | lookup scope payloadHash =>
      obtain ⟨_, hlookup⟩ := lookupAction_frame s.replica scope payloadHash
      show Stopped s.replica (s.replica.lookupAction scope payloadHash).1
      rw [hlookup]
      exact ⟨rfl, rfl, rfl, h⟩
  | setSupported supported => exact ⟨rfl, rfl, rfl, h⟩
  | setQuota quota => exact ⟨rfl, rfl, rfl, h⟩
  | setKeys keys => exact ⟨rfl, rfl, rfl, h⟩

/-- **A poisoned Replica stops**, along every run whose sweeps and collections stop: its
store, its frontier and its manifest root are those it was poisoned with. -/
theorem stopped_of_maintenance_stopped {s : Station} {operations : List Operation}
    (hpoisoned : s.replica.Poisoned) (hstops : Station.Meets MaintenanceStops s operations) :
    Stopped s.replica (s.run operations).replica := by
  have hstep : ∀ (s' : Station) (operation : Operation), Stopped s.replica s'.replica →
      MaintenanceStops s' operation → Stopped s.replica (s'.apply operation).replica :=
    fun _ _ h hstop => h.trans (h.poisoned.apply_stopped hstop)
  exact hstops.invariant hstep (.refl hpoisoned)

/-- Poisoning is fail-stop, whatever the handle is asked to do. -/
def FailStop : Prop :=
  ∀ (s : Station) (operations : List Operation), s.replica.Poisoned →
    Stopped s.replica (s.run operations).replica

/-- One sweep that moves the frontier is enough to say that it is not. -/
theorem not_failStop_of_sweep {s : Station} {amb : Ambient} {ctx : CommitContext} {now : ℕ}
    (h : s.replica.Poisoned ∧ (s.replica.sweepUnreferencedContentAt amb ctx now).1.frontier
      ≠ s.replica.frontier) : ¬ FailStop :=
  fun hstop => h.2 (hstop s [.sweep amb ctx now] h.1).frontier

end Runs

/-! ## A poisoned sweep -/

/-- A Replica that committed a content nothing keeps, and was then poisoned by a
commit its medium refused. -/
def refusedStation : @Station opLogLoro :=
  let _ := opLogLoro
  let _ := opLogAlgebra
  let _ := opLogCodec
  let _ := idealCrypto
  let _ := plainAead
  let _ := wireCodecs
  let _ := wireReceiptCodecs
  let _ := wireReceiptMemory
  (Station.start sampleReplica).run
    [.commitContent (sampleAmbient .sealed) sampleContext [sampleContent 1],
      .commitContent (sampleAmbient .failed) sampleContext [sampleContent 2]]

/-- While the content is held, a sweep of the poisoned Replica moves nothing. -/
theorem stopped_of_held_content :
    let _ := opLogLoro
    let _ := opLogAlgebra
    let _ := opLogCodec
    let _ := idealCrypto
    let _ := plainAead
    let _ := wireCodecs
    let _ := wireReceiptCodecs
    let _ := wireReceiptMemory
    Stopped refusedStation.replica (refusedStation.run
      [.holdContent (sampleContent 1).contentRef 5,
        .sweep (sampleAmbient .sealed) sampleContext 0, .exportManifest sampleContext]).replica := by
  intro _ _ _ _ _ _ _ _
  have hevaluated : refusedStation.replica.poisoned = true ∧
      (refusedStation.replica.holdContent (sampleContent 1).contentRef 5).unreferenced 0 = [] := by
    decide +kernel
  exact stopped_of_maintenance_stopped (.inl hevaluated.1)
    ⟨trivial, .inr (.inl hevaluated.2), trivial, trivial⟩

/-- Once the hold is gone, it publishes. -/
theorem poisoned_sweep_publishes :
    ¬ @FailStop idealCrypto opLogLoro opLogAlgebra plainAead wireCodecs wireReceiptCodecs
      wireReceiptMemory opLogCodec := by
  let _ := opLogLoro
  let _ := opLogAlgebra
  let _ := opLogCodec
  let _ := idealCrypto
  let _ := plainAead
  let _ := wireCodecs
  let _ := wireReceiptCodecs
  let _ := wireReceiptMemory
  refine @not_failStop_of_sweep _ _ _ _ _ _ _ _ refusedStation (sampleAmbient .sealed)
    sampleContext 0 ?_
  unfold Poisoned
  decide +kernel

end Lait.Replica
