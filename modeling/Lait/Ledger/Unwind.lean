import Lait.Ledger.Commit

/-!
# What a refused batch leaves in memory

A batch that fails to validate, or that names a parent that is not held, leaves the
ledger as it was: the effects put in for the checkpoint are new ones, and taking a new key
out again restores a map (`release_hold`).

A batch that the store refuses is unwound the same way.  Its effects, sealed keys and
receipt are new, and `Indexed` says that nothing was indexed that is not held.  The
checkpoint reference need not be new: the resulting frontier may have had one, and then it
is lost.  So the unwinding is exact if and only if the resulting frontier was not indexed
(`commitBatch_restores_iff`), and a batch that leaves the frontier where it is, because it
brings only sealed keys, or effects already held, is not unwound exactly.
-/

namespace Lait.Ledger.Authority

section Refusal

variable [Crypto] [Codecs]

/-- What `commit_batch` stages, and is to leave alone when it fails. -/
structure SameMemory (ledger after : Authority) : Prop where
  effects : after.effects = ledger.effects
  effectRefs : after.effectRefs = ledger.effectRefs
  sealedKeys : after.sealedKeys = ledger.sealedKeys
  checkpointRefs : after.checkpointRefs = ledger.checkpointRefs
  receipts : after.receipts = ledger.receipts
  receiptRefs : after.receiptRefs = ledger.receiptRefs
  frontier : after.frontier = ledger.frontier

/-- The frontier a batch leads to, if it is valid and its history is held. -/
def resultingFrontier (ledger : Authority) (effectRecords sealedRecords : List Bytes) :
    Option Bytes :=
  match ledger.validate effectRecords sealedRecords with
  | .error _ => none
  | .ok (newEffects, _) =>
      let held := ledger.hold newEffects
      match held.closureOf held.currentFrontierBody with
      | .ok _ => some held.currentFrontierBody.encode
      | .error _ => none

/-! ## What is new is new -/

section Fresh

variable {ledger : Authority}

/-- Validated effects are not held. -/
theorem fresh_effects {records : List Bytes} {newEffects : List FreshEffect}
    (h : records.foldlM ledger.admitEffect [] = .ok newEffects) :
    ∀ item ∈ newEffects, ledger.effects[item.hash]? = none := by
  refine @foldlM_invariant _ _ _ _ (fun fresh => ∀ item ∈ fresh, ledger.effects[item.hash]? = none)
    _ (fun fresh fresh' record _ hfresh hadmit => ?_) _ _ h (by simp)
  obtain ⟨effect, -, hadmit⟩ := bind_eq_ok.mp hadmit
  obtain ⟨-, hadmit⟩ := guard_eq_ok.mp hadmit
  split at hadmit
  case isTrue => cases hadmit; exact hfresh
  case isFalse hheld =>
      split at hadmit
      case isTrue => cases hadmit; exact hfresh
      case isFalse =>
          cases hadmit
          intro item hitem
          rcases List.mem_append.mp hitem with hitem | hitem
          · exact hfresh item hitem
          · rw [List.mem_singleton.mp hitem]
            rw [BTreeMap.contains_iff, not_exists] at hheld
            exact Option.eq_none_iff_forall_ne_some.mpr hheld

/-- Validated sealed keys are not held. -/
theorem fresh_sealed {records : List Bytes} {newSealed : List FreshKey}
    (h : records.foldlM ledger.admitSealed [] = .ok newSealed) :
    ∀ item ∈ newSealed, ledger.sealedKeys[item.record.key]? = none := by
  refine @foldlM_invariant _ _ _ _
    (fun fresh => ∀ item ∈ fresh, ledger.sealedKeys[item.record.key]? = none)
    _ (fun fresh fresh' bytes _ hfresh hadmit => ?_) _ _ h (by simp)
  obtain ⟨record, -, hadmit⟩ := bind_eq_ok.mp hadmit
  split at hadmit
  case isTrue => cases hadmit; exact hfresh
  case isFalse hheld =>
      split at hadmit
      case isTrue => cases hadmit; exact hfresh
      case isFalse =>
          cases hadmit
          intro item hitem
          rcases List.mem_append.mp hitem with hitem | hitem
          · exact hfresh item hitem
          · rw [List.mem_singleton.mp hitem]
            rw [BTreeMap.contains_iff, not_exists] at hheld
            exact Option.eq_none_iff_forall_ne_some.mpr hheld

theorem fresh_of_validate {effectRecords sealedRecords : List Bytes}
    {newEffects : List FreshEffect} {newSealed : List FreshKey}
    (h : ledger.validate effectRecords sealedRecords = .ok (newEffects, newSealed)) :
    (∀ item ∈ newEffects, ledger.effects[item.hash]? = none) ∧
      ∀ item ∈ newSealed, ledger.sealedKeys[item.record.key]? = none := by
  obtain ⟨effects, heffects, h⟩ := bind_eq_ok.mp h
  obtain ⟨keys, hkeys, h⟩ := bind_eq_ok.mp h
  cases h
  exact ⟨fresh_effects heffects, fresh_sealed hkeys⟩

omit [Codecs] in
/-- New effects that are given up again were never there. -/
theorem release_hold {newEffects : List FreshEffect}
    (h : ∀ item ∈ newEffects, ledger.effects[item.hash]? = none) :
    (ledger.hold newEffects).release newEffects = ledger := by
  unfold hold release
  rw [BTreeMap.foldl_erase_foldl_insert FreshEffect.effect h]

end Fresh

/-! ## How a batch ends -/

/-- A checkpoint is built where the closure is held. -/
theorem buildCheckpoint_eq_error {ledger : Authority} {body : FrontierBody} {frontier : Bytes}
    {e : Failure} : ledger.buildCheckpoint body frontier = .error e ↔
      ledger.closureOf body = .error e := by
  unfold buildCheckpoint
  cases ledger.closureOf body with
  | error e' =>
      show (Except.error e' : Except Failure CheckpointObject) = .error e ↔ _
      rw [Except.error.injEq, Except.error.injEq]
  | ok closure => exact ⟨nofun, nofun⟩

/-- **How a batch ends**: it was committed before, or it fails and changes nothing, or it is
staged and the store answers. -/
theorem commitBatch_cases (ledger : Authority) (outcome : CommitOutcome)
    (effectRecords sealedRecords : List Bytes) :
    (∃ receipt, ledger.commitBatch outcome effectRecords sealedRecords = (ledger, .ok receipt)) ∨
      (∃ e, ledger.commitBatch outcome effectRecords sealedRecords = (ledger, .error e) ∧
        ledger.resultingFrontier effectRecords sealedRecords = none) ∨
      ∃ batch : Batch,
        ledger.commitBatch outcome effectRecords sealedRecords =
          (ledger.hold batch.newEffects).commitHeld outcome batch ∧
        ledger.validate effectRecords sealedRecords = .ok (batch.newEffects, batch.newSealed) ∧
        ledger.resultingFrontier effectRecords sealedRecords =
          some batch.receipt.resultingFrontier ∧
        batch.receipt.space = ledger.genesis.spaceId ∧
        batch.receipt.priorFrontier = ledger.frontier ∧
        ledger.receipts[batch.receipt.batchDigest]? = none := by
  unfold commitBatch resultingFrontier
  dsimp only
  cases hreceipt : ledger.receipts[batchDigest (effectRecords ++ sealedRecords)]? with
  | some receipt => exact Or.inl ⟨receipt, rfl⟩
  | none =>
      cases hvalidate : ledger.validate effectRecords sealedRecords with
      | error e => exact Or.inr (Or.inl ⟨e, rfl, rfl⟩)
      | ok fresh =>
          obtain ⟨newEffects, newSealed⟩ := fresh
          dsimp only
          cases hbuild : (ledger.hold newEffects).buildCheckpoint
              (ledger.hold newEffects).currentFrontierBody
              (ledger.hold newEffects).currentFrontierBody.encode with
          | error e =>
              refine Or.inr (Or.inl ⟨e, ?_, ?_⟩)
              · dsimp only
                rw [release_hold (fresh_of_validate hvalidate).1]
              · rw [buildCheckpoint_eq_error.mp hbuild]
          | ok checkpoint =>
              refine Or.inr (Or.inr ⟨⟨newEffects, newSealed, checkpoint, _⟩, rfl, rfl, ?_, rfl, rfl,
                hreceipt⟩)
              cases hclosure : (ledger.hold newEffects).closureOf
                  (ledger.hold newEffects).currentFrontierBody with
              | error e =>
                  rw [buildCheckpoint_eq_error.mpr hclosure] at hbuild
                  cases hbuild
              | ok closure => rfl

/-! ## What is indexed is held -/

/-- Nothing is indexed that is not held. -/
structure Indexed (ledger : Authority) : Prop where
  effects : ∀ (h : Text) ref, ledger.effectRefs[h]? = some ref →
    ∃ effect, ledger.effects[h]? = some effect
  receipts : ∀ (digest : Bytes) object, ledger.receiptRefs[digest]? = some object →
    ∃ receipt, ledger.receipts[digest]? = some receipt

section Reached

variable {ledger : Authority}

omit [Codecs] in
/-- It is about four of the ledger's maps. -/
theorem Indexed.congr {after : Authority} (h : ledger.Indexed)
    (heffects : after.effects = ledger.effects) (heffectRefs : after.effectRefs = ledger.effectRefs)
    (hreceipts : after.receipts = ledger.receipts)
    (hreceiptRefs : after.receiptRefs = ledger.receiptRefs) : after.Indexed := by
  refine ⟨fun hash ref href => ?_, fun digest object hobject => ?_⟩
  · rw [heffects]
    exact h.effects hash ref (heffectRefs ▸ href)
  · rw [hreceipts]
    exact h.receipts digest object (hreceiptRefs ▸ hobject)

/-- **A store's refusal is unwound**, but for the checkpoint reference. -/
theorem unwind_stage {batch : Batch} (hindexed : ledger.Indexed)
    (heffects : ∀ item ∈ batch.newEffects, ledger.effects[item.hash]? = none)
    (hsealed : ∀ item ∈ batch.newSealed, ledger.sealedKeys[item.record.key]? = none)
    (hreceipt : ledger.receipts[batch.receipt.batchDigest]? = none)
    (hprior : batch.receipt.priorFrontier = ledger.frontier) (store : Journal LedgerMeta) :
    ({ (ledger.hold batch.newEffects).stage batch with store } : Authority).unwind batch =
      { ledger with
        store
        checkpointRefs := (ledger.checkpointRefs.insert batch.checkpointDigest
          (Objects.reference (Postcard.toStdvec batch.checkpoint))).erase batch.checkpointDigest } := by
  have hrefs : ∀ item ∈ batch.newEffects, ledger.effectRefs[item.hash]? = none := by
    intro item hitem
    refine Option.eq_none_iff_forall_ne_some.mpr fun ref href => ?_
    obtain ⟨effect, heffect⟩ := hindexed.effects _ _ href
    rw [heffects item hitem] at heffect
    cases heffect
  have hreceiptRef : ledger.receiptRefs.contains batch.receipt.batchDigest = false := by
    rw [← Bool.not_eq_true, BTreeMap.contains_iff]
    rintro ⟨object, hobject⟩
    obtain ⟨receipt, hget⟩ := hindexed.receipts _ _ hobject
    rw [hreceipt] at hget
    cases hget
  unfold unwind stage release hold
  dsimp only
  rw [BTreeMap.foldl_erase_foldl_insert FreshEffect.effect heffects,
    BTreeMap.foldl_erase_foldl_insert
      (fun item : FreshEffect => (item.effect.kind, Objects.reference item.bytes)) hrefs,
    BTreeMap.foldl_erase_foldl_insert (fun item : FreshKey =>
      (⟨item.record.device, item.record.envelope, Objects.reference item.bytes⟩ : SealedEntry))
      hsealed,
    (BTreeMap.erase_insert_iff _).mpr hreceiptRef, hprior]

/-- What a staged batch leaves is indexed. -/
theorem Indexed.commitHeld {batch : Batch} (hindexed : ledger.Indexed)
    (heffects : ∀ item ∈ batch.newEffects, ledger.effects[item.hash]? = none)
    (hsealed : ∀ item ∈ batch.newSealed, ledger.sealedKeys[item.record.key]? = none)
    (hreceipt : ledger.receipts[batch.receipt.batchDigest]? = none)
    (hprior : batch.receipt.priorFrontier = ledger.frontier) (outcome : CommitOutcome) :
    ((ledger.hold batch.newEffects).commitHeld outcome batch).1.Indexed := by
  unfold Authority.commitHeld
  dsimp only
  split
  case h_1 store hstore =>
      refine ⟨fun h ref href => ?_, fun digest object hobject => ?_⟩
      · refine BTreeMap.exists_get_foldl_insert ?_
        rcases BTreeMap.exists_of_get_foldl_insert href with ⟨item, hitem, heq, -⟩ | hold
        · exact Or.inl ⟨item, hitem, heq⟩
        · exact Or.inr (hindexed.effects h ref hold)
      · show ∃ receipt, (ledger.receipts.insert _ _)[digest]? = some receipt
        replace hobject : (ledger.receiptRefs.insert _ _)[digest]? = some object := hobject
        rw [BTreeMap.get_insert] at hobject ⊢
        split at hobject
        case isTrue heq => exact ⟨_, if_pos heq⟩
        case isFalse hne =>
            rw [if_neg hne]
            exact hindexed.receipts digest object hobject
  case h_2 store e hstore =>
      rw [unwind_stage hindexed heffects hsealed hreceipt hprior]
      exact hindexed.congr rfl rfl rfl rfl

theorem Indexed.commitBatch (hindexed : ledger.Indexed) (outcome : CommitOutcome)
    (effectRecords sealedRecords : List Bytes) :
    (ledger.commitBatch outcome effectRecords sealedRecords).1.Indexed := by
  rcases ledger.commitBatch_cases outcome effectRecords sealedRecords with
    ⟨receipt, heq⟩ | ⟨e, heq, -⟩ | ⟨batch, heq, hvalidate, -, -, hprior, hreceipt⟩
  · rw [heq]
    exact hindexed
  · rw [heq]
    exact hindexed
  · obtain ⟨heffects, hsealed⟩ := fresh_of_validate hvalidate
    rw [heq]
    exact hindexed.commitHeld heffects hsealed hreceipt hprior outcome

theorem Indexed.checkpointFor (hindexed : ledger.Indexed) (outcome : CommitOutcome)
    (frontier : Bytes) : (ledger.checkpointFor outcome frontier).1.Indexed := by
  have hpersist : ∀ cp, (ledger.persistCheckpoint outcome cp).1.Indexed := by
    intro cp
    unfold persistCheckpoint
    dsimp only
    split
    · exact hindexed
    · split <;> exact hindexed.congr rfl rfl rfl rfl
  unfold Authority.checkpointFor
  split
  · exact hindexed
  · dsimp only
    split
    · exact hindexed
    · split
      · exact hindexed
      · exact hindexed.congr rfl rfl rfl rfl
      · split
        · exact hindexed
        case h_2 cp hbuild =>
            have hindexed' := hpersist cp
            split
            case h_1 persisted e heq =>
                rw [heq] at hindexed'
                exact hindexed'
            case h_2 persisted heq =>
                rw [heq] at hindexed'
                exact hindexed'.congr rfl rfl rfl rfl

theorem Indexed.commitCeremonyBatch (hindexed : ledger.Indexed) (outcome : CommitOutcome)
    (records : List Bytes) : (ledger.commitCeremonyBatch outcome records).1.Indexed := by
  unfold Authority.commitCeremonyBatch
  split
  · exact hindexed
  · split
    · exact hindexed
    · dsimp only
      split <;> exact hindexed.congr rfl rfl rfl rfl

theorem Indexed.compactCeremony (hindexed : ledger.Indexed) (outcome : CommitOutcome)
    (dropped : List Text) : (ledger.compactCeremony outcome dropped).1.Indexed := by
  unfold Authority.compactCeremony
  split
  · exact hindexed
  · split
    · exact hindexed
    · dsimp only
      split <;> exact hindexed.congr rfl rfl rfl rfl

/-- Effects and receipts are read back together with their references. -/
theorem indexed_readIndex {store : Journal LedgerMeta} {semantics : ℕ}
    (h : readIndex store semantics = .ok ledger) : ledger.Indexed := by
  unfold readIndex at h
  split at h
  case h_1 => cases h
  case h_2 record hrecord =>
      obtain ⟨-, h⟩ := guard_eq_ok.mp h
      obtain ⟨effects, -, h⟩ := bind_eq_ok.mp h
      obtain ⟨keys, -, h⟩ := bind_eq_ok.mp h
      obtain ⟨receipts, -, h⟩ := bind_eq_ok.mp h
      obtain ⟨checkpoints, -, h⟩ := bind_eq_ok.mp h
      obtain ⟨ceremony, -, h⟩ := bind_eq_ok.mp h
      obtain ⟨-, h⟩ := guard_eq_ok.mp h
      obtain ⟨audits, -, h⟩ := bind_eq_ok.mp h
      cases h
      refine ⟨fun hash ref href => BTreeMap.exists_get_foldl_insert (Or.inl ?_),
        fun digest object hobject => BTreeMap.exists_get_foldl_insert (Or.inl ?_)⟩
      · rcases BTreeMap.exists_of_get_foldl_insert href with ⟨item, hitem, heq, -⟩ | hnone
        · exact ⟨item, hitem, heq⟩
        · rw [BTreeMap.get_empty] at hnone
          cases hnone
      · rcases BTreeMap.exists_of_get_foldl_insert hobject with ⟨item, hitem, heq, -⟩ | hnone
        · exact ⟨item, hitem, heq⟩
        · rw [BTreeMap.get_empty] at hnone
          cases hnone

/-- **Every ledger that is reached indexes only what it holds.** -/
theorem Reached.indexed (h : Reached ledger) : ledger.Indexed := by
  induction h with
  | @create store outcome genesis ledger hcreate =>
      obtain ⟨-, receipt, hborn⟩ := create_eq_ok.mp hcreate
      have hempty : (baseline store genesis).Indexed := by
        refine ⟨fun hash ref href => ?_, fun digest object hobject => ?_⟩
        · rw [baseline, BTreeMap.get_empty] at href
          cases href
        · rw [baseline, BTreeMap.get_empty] at hobject
          cases hobject
      have hcommit := hempty.commitBatch outcome [] []
      rw [hborn] at hcommit
      exact hcommit
  | commitBatch outcome effectRecords sealedRecords _ ih =>
      exact ih.commitBatch outcome effectRecords sealedRecords
  | commitCeremonyBatch outcome records _ ih => exact ih.commitCeremonyBatch outcome records
  | compactCeremony outcome dropped _ ih => exact ih.compactCeremony outcome dropped
  | checkpointFor outcome frontier _ ih => exact ih.checkpointFor outcome frontier
  | @reopen ledger ledger' outcome semantics _ hopen _ =>
      obtain ⟨opened, hread, hopen⟩ := bind_eq_ok.mp hopen
      have hmaterialized := (indexed_readIndex hread).checkpointFor outcome opened.frontier
      split at hopen
      case h_1 materialized cp heq =>
          cases hopen
          rw [heq] at hmaterialized
          exact hmaterialized
      case h_2 => cases hopen

end Reached

/-! ## The memory of a failed commit -/

/-- **A failed commit restores the memory** it found if and only if the frontier it would
have led to had no checkpoint. -/
theorem commitBatch_restores_iff {ledger after : Authority} (h : Reached ledger)
    {outcome : CommitOutcome} {effectRecords sealedRecords : List Bytes} {e : Failure}
    (herror : ledger.commitBatch outcome effectRecords sealedRecords = (after, .error e)) :
    SameMemory ledger after ↔
      ∀ frontier, ledger.resultingFrontier effectRecords sealedRecords = some frontier →
        ledger.checkpointRefs.contains (frontierDigest ledger.genesis.spaceId frontier) = false := by
  rcases ledger.commitBatch_cases outcome effectRecords sealedRecords with
    ⟨receipt, heq⟩ | ⟨e', heq, hnone⟩ | ⟨batch, heq, hvalidate, hfrontier, hspace, hprior, hreceipt⟩
  · rw [heq] at herror
    cases herror
  · rw [heq] at herror
    cases herror
    rw [hnone]
    exact ⟨fun _ _ => nofun, fun _ => ⟨rfl, rfl, rfl, rfl, rfl, rfl, rfl⟩⟩
  · obtain ⟨heffects, hsealed⟩ := fresh_of_validate hvalidate
    rw [heq, Authority.commitHeld] at herror
    dsimp only at herror
    split at herror
    case h_1 => cases herror
    case h_2 store failure hstore =>
        rw [unwind_stage h.indexed heffects hsealed hreceipt hprior] at herror
        cases herror
        have hdigest : batch.checkpointDigest =
            frontierDigest ledger.genesis.spaceId batch.receipt.resultingFrontier := by
          rw [Batch.checkpointDigest, hspace]
        rw [hfrontier]
        constructor
        · rintro hsame frontier hfrontier
          cases hfrontier
          rw [← hdigest]
          exact (BTreeMap.erase_insert_iff _).mp hsame.checkpointRefs
        · intro hfresh
          refine ⟨rfl, rfl, rfl, (BTreeMap.erase_insert_iff _).mpr ?_, rfl, rfl, rfl⟩
          rw [hdigest]
          exact hfresh _ rfl

end Refusal

/-! ## A sealed key alone -/

namespace Unwind

def genesis : Genesis := ⟨⟨[115]⟩, [], ⟨[]⟩, ⟨[]⟩⟩

def envelope : SealedKeyRecord := ⟨⟨[1]⟩, ⟨⟨[100]⟩⟩, ⟨[2]⟩⟩

/-- Codecs of what the run writes; checkpoints are never read back. -/
@[reducible] def codecs : Codecs where
  actorOp := tableCodec []
  aclOp := tableCodec []
  config := tableCodec []
  spaceOp := tableCodec []
  effect := tableCodec []
  sealedKey := tableCodec [envelope]
  frontierBody := tableCodec [⟨1, [], [], []⟩]
  receipt := tableCodec []
  checkpoint := ⟨CheckpointObject.frontier, fun _ => none⟩
  audit := tableCodec []
  material := tableCodec []

/-- A ledger just created. -/
def born : @Authority idealCrypto :=
  let _ := idealCrypto
  let _ := codecs
  ((baseline .empty genesis).commitBatch .sealed [] []).1

/-- The same, after the store refused a batch of one sealed key. -/
def refused : @Authority idealCrypto :=
  let _ := idealCrypto
  let _ := codecs
  (born.commitBatch .failed [] [⟨[0]⟩]).1

/-- The same, after the store refused it once more. -/
def refusedAgain : @Authority idealCrypto :=
  let _ := idealCrypto
  let _ := codecs
  (refused.commitBatch .failed [] [⟨[0]⟩]).1

theorem reached_born : @Reached idealCrypto codecs born := by
  let _ := idealCrypto
  let _ := codecs
  have hborn : (baseline .empty genesis).commitBatch .sealed [] [] =
      (born, .ok ⟨⟨[115]⟩, ⟨[]⟩, ⟨[0]⟩, batchDigest []⟩) := Prod.ext rfl (by decide +kernel)
  have hcreate : create .empty .sealed genesis = .ok born := create_eq_ok.mpr ⟨rfl, _, hborn⟩
  exact .create hcreate

theorem refused_eq :
    let _ := idealCrypto
    let _ := codecs
    born.commitBatch .failed [] [⟨[0]⟩] = (refused, .error (.journal .operation)) :=
  Prod.ext rfl (by decide +kernel)

end Unwind

/-- A batch of one sealed key that the store refuses loses the checkpoint reference of the
frontier it left where it was. -/
theorem sealedKey_not_restored :
    let _ := idealCrypto
    let _ := Unwind.codecs
    Reached Unwind.born ∧
      Unwind.born.commitBatch .failed [] [⟨[0]⟩] =
        (Unwind.refused, .error (.journal .operation)) ∧
      ¬ SameMemory Unwind.born Unwind.refused := by
  let _ := idealCrypto
  let _ := Unwind.codecs
  refine ⟨Unwind.reached_born, Unwind.refused_eq, fun hsame => ?_⟩
  have hbefore : Unwind.born.checkpointRefs.contains
      (frontierDigest Unwind.genesis.spaceId ⟨[0]⟩) = true := by decide +kernel
  have hafter : Unwind.refused.checkpointRefs.contains
      (frontierDigest Unwind.genesis.spaceId ⟨[0]⟩) = false := by decide +kernel
  rw [hsame.checkpointRefs, hbefore] at hafter
  cases hafter

/-- Where the reference is lost already, the batch refused again changes nothing. -/
theorem sealedKey_restored_again :
    let _ := idealCrypto
    let _ := Unwind.codecs
    Unwind.refused.commitBatch .failed [] [⟨[0]⟩] =
        (Unwind.refusedAgain, .error (.journal .operation)) ∧
      SameMemory Unwind.refused Unwind.refusedAgain := by
  let _ := idealCrypto
  let _ := Unwind.codecs
  have hrefused : Unwind.refused.commitBatch .failed [] [⟨[0]⟩] =
      (Unwind.refusedAgain, .error (.journal .operation)) := Prod.ext rfl (by decide +kernel)
  have hreached : Reached Unwind.refused := .commitBatch .failed [] [⟨[0]⟩] Unwind.reached_born
  refine ⟨hrefused, (commitBatch_restores_iff hreached hrefused).mpr fun frontier hfrontier => ?_⟩
  have hled : Unwind.refused.resultingFrontier [] [⟨[0]⟩] = some ⟨[0]⟩ := by decide +kernel
  obtain rfl := Option.some.inj (hled.symm.trans hfrontier)
  decide +kernel

end Lait.Ledger.Authority
