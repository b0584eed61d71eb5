import Lait.Ceremony.BoardOrder

/-!
# Two plans, two boards

A coordinator opens a signing transcript and publishes two plans for it.  One
ledger hears the first plan first, another the second; both end with the same
three events, and each honours the plan it heard first.
-/

namespace Lait.Ceremony.TwoPlans

open CeremonyBoard

/-- Digests are the first 32 bytes. -/
@[reducible] def digestCrypto : Crypto :=
  { idealCrypto with blake3 := fun input => ⟨(input.data ++ List.replicate 32 0).take 32⟩ }

/-- The coordinator's seed, which is also its public key. -/
def seed : Bytes := ⟨List.replicate 32 0xaa⟩

/-- The coordinator. -/
def coordinator : DeviceId := DeviceId.fromKeyBytes seed

/-- The id of the transcript the request opens. -/
def signing : TranscriptId := ⟨0 :: List.replicate 31 97⟩

/-- The space. -/
def space : SpaceId := Bytes.ofString "ws"

/-- The request and the two plans. -/
def ops : List CeremonyOp :=
  [.signRequest Bytes.empty Bytes.empty .spaceOp coordinator Bytes.empty,
    .signPlan signing ⟨[1]⟩, .signPlan signing ⟨[2]⟩]

/-- The node that carries an op. -/
def nodeOf (i : UInt8) : SignedNode :=
  let _ := digestCrypto
  signNode CEREMONY_DOMAIN seed ⟨[i]⟩ [] space

@[reducible] def opCodec : Postcard CeremonyOp := tableCodec ops

@[reducible] def materialCodec : Postcard CeremonyMaterial :=
  tableCodec [CeremonyMaterial.new (nodeOf 0), CeremonyMaterial.new (nodeOf 1),
    CeremonyMaterial.new (nodeOf 2)]

/-- A plan is told by its message commitment. -/
@[reducible] def planCodec : Postcard SigningPlan where
  toStdvec plan := plan.messageCommitment
  fromBytes bytes := some ⟨signing, ⟨coordinator, Bytes.empty⟩, bytes, [], ∅, .frostThreshold 1 [1]⟩

/-- No package has a group key. -/
@[reducible] def noGroupKeys : GroupKeys := ⟨fun _ => none⟩

/-- The authority is known from a local record, and the coordinator is of it. -/
def recorded : TranscriptId → Option (List DeviceId) := fun _ => some [coordinator]

/-- The record of a node. -/
def recordOf (i : UInt8) : Bytes :=
  let _ := materialCodec
  (CeremonyMaterial.new (nodeOf i)).encode

/-- A ledger that heard the request, and then two more events. -/
def heard (second third : UInt8) : CeremonyLog :=
  let _ := digestCrypto
  let _ := materialCodec
  ((CeremonyLog.commitCeremonyBatch space {} true [recordOf 0, recordOf second]).2.commitCeremonyBatch
    space true [recordOf third]).2

/-- A ledger that heard the request and one plan. -/
def heardOne : CeremonyLog :=
  let _ := digestCrypto
  let _ := materialCodec
  (CeremonyLog.commitCeremonyBatch space {} true [recordOf 0, recordOf 1]).2

theorem nodes_heard : (heard 1 2).ceremonyNodes = [nodeOf 0, nodeOf 1, nodeOf 2] ∧
    (heard 2 1).ceremonyNodes = [nodeOf 0, nodeOf 2, nodeOf 1] ∧
    heardOne.ceremonyNodes = [nodeOf 0, nodeOf 1] := by
  decide +kernel

/-- What a list of events commits the signing transcript to. -/
def planned (events : List SignedNode) : Option Bytes :=
  let _ := digestCrypto
  let _ := opCodec
  let _ := planCodec
  let _ := noGroupKeys
  let _ : Postcard Config := tableCodec []
  let _ : Postcard FrostThresholdConfig := tableCodec []
  let _ : Postcard GeneralAccessConfig := tableCodec []
  let _ : Postcard AuthorityGrant := tableCodec []
  ((ceremonyBoard events space recorded).signing[signing]?.bind SignTranscript.plan).map
    SigningPlan.messageCommitment

theorem planned_heard : planned [nodeOf 0, nodeOf 1, nodeOf 2] = some ⟨[1]⟩ ∧
    planned [nodeOf 0, nodeOf 2, nodeOf 1] = some ⟨[2]⟩ := by
  decide +kernel

/-- **Two ledgers with the same three events have different boards**: each keeps
the plan it heard first. -/
theorem plans_differ :
    let _ := digestCrypto
    let _ := opCodec
    let _ := materialCodec
    let _ := planCodec
    let _ := noGroupKeys
    let _ : Postcard Config := tableCodec []
    let _ : Postcard FrostThresholdConfig := tableCodec []
    let _ : Postcard GeneralAccessConfig := tableCodec []
    let _ : Postcard AuthorityGrant := tableCodec []
    (heard 1 2).Reached space ∧ (heard 2 1).Reached space ∧
      (∀ node, node ∈ (heard 1 2).ceremonyNodes ↔ node ∈ (heard 2 1).ceremonyNodes) ∧
      ¬ Agree (ceremonyBoard (heard 1 2).ceremonyNodes space recorded)
        (ceremonyBoard (heard 2 1).ceremonyNodes space recorded) := by
  intro _ _ _ _ _ _ _ _ _
  obtain ⟨hfirst, hsecond, -⟩ := nodes_heard
  refine ⟨.commit _ _ (.commit _ _ .empty), .commit _ _ (.commit _ _ .empty), ?_, ?_⟩
  · intro node
    rw [hfirst, hsecond]
    simp only [List.mem_cons, List.not_mem_nil, or_false]
    tauto
  · intro h
    have hplan := congrArg (Option.map SigningPlan.messageCommitment) (h.plans signing)
    rw [hfirst, hsecond] at hplan
    have hdiffer : planned [nodeOf 0, nodeOf 1, nodeOf 2] = planned [nodeOf 0, nodeOf 2, nodeOf 1] :=
      hplan
    rw [planned_heard.1, planned_heard.2] at hdiffer
    cases hdiffer

/-- The entries of the request and one plan. -/
theorem posts_one :
    let _ := digestCrypto
    let _ := opCodec
    posts space [nodeOf 0, nodeOf 1] = [⟨coordinator, signing, .signRequest Bytes.empty Bytes.empty
      .spaceOp coordinator Bytes.empty⟩, ⟨coordinator, ⟨1 :: List.replicate 31 97⟩,
        .signPlan signing ⟨[1]⟩⟩] := by
  decide +kernel

/-- With one plan every ledger has the same board. -/
theorem boards_agree_one :
    let _ := digestCrypto
    let _ := opCodec
    let _ := materialCodec
    let _ := planCodec
    let _ := noGroupKeys
    let _ : Postcard Config := tableCodec []
    let _ : Postcard FrostThresholdConfig := tableCodec []
    let _ : Postcard GeneralAccessConfig := tableCodec []
    let _ : Postcard AuthorityGrant := tableCodec []
    ∀ log' : CeremonyLog, log'.Reached space →
      (∀ node, node ∈ log'.ceremonyNodes ↔ node ∈ heardOne.ceremonyNodes) →
        Agree (ceremonyBoard log'.ceremonyNodes space recorded)
          (ceremonyBoard heardOne.ceremonyNodes space recorded) := by
  intro _ _ _ _ _ _ _ _ _
  have hreached : heardOne.Reached space := .commit _ _ .empty
  refine (boards_agree_iff space recorded hreached).mpr ?_
  rw [nodes_heard.2.2]
  have hposts := posts_one
  constructor
  · intro t proposal _ v hv v' _ hop
    rw [hposts] at hv
    simp only [List.mem_cons, List.not_mem_nil, or_false] at hv
    rcases hv with rfl | rfl <;> cases hop
  · intro t request _ v hv v' hv' hop hop'
    rw [hposts] at hv hv'
    simp only [List.mem_cons, List.not_mem_nil, or_false] at hv hv'
    rcases hv with rfl | rfl
    · cases hop
    · rcases hv' with rfl | rfl
      · cases hop'
      · intros
        rfl
  · intro t proposal _ v hv v' _ grant _ hop
    rw [hposts] at hv
    simp only [List.mem_cons, List.not_mem_nil, or_false] at hv
    rcases hv with rfl | rfl <;> cases hop

end Lait.Ceremony.TwoPlans
