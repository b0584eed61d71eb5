import Lait.Ceremony.Board

/-!
# Sessions of a device

A device advances a ceremony in passes.  A pass reads the board, the space plane
and the device's own artifact files once, decides, and then takes its durable
steps one after the other: a file written, an event posted, a file removed.  So a
pass is modelled as what it decides, the list of its steps; a crash or a failed
step leaves a beginning of that list done (`Pass.perform`).

`Device.acceptedProposal` is the gate every session shares: a proposal is acted on
only under a grant of the authority that stands, or of the one that stood when
this device recorded its acceptance.
-/

namespace Lait.Ceremony

/-- The labels of a transcript's local artifacts. -/
inductive Label
  | manifest
  | intent
  | r1
  | r2
  | rdeal
  | share
  | pkp
  | nonce
  deriving DecidableEq

/-- The artifact files of a device, by transcript and label. -/
abbrev Artifacts := TranscriptId → Label → Option Bytes

/-- The files with one of them set or removed. -/
def Artifacts.put (files : Artifacts) (t : TranscriptId) (label : Label) (file : Option Bytes) :
    Artifacts := fun t' label' => if t' = t ∧ label' = label then file else files t' label'

@[simp] theorem Artifacts.put_same (files : Artifacts) (t : TranscriptId) (label : Label)
    (file : Option Bytes) : files.put t label file t label = file := by
  simp [Artifacts.put]

theorem Artifacts.put_of_ne (files : Artifacts) {t t' : TranscriptId} {label label' : Label}
    (file : Option Bytes) (h : ¬ (t' = t ∧ label' = label)) :
    files.put t label file t' label' = files t' label' := if_neg h

/-- A local record that this device accepted a proposal. -/
structure DkgManifest where
  proposal : TranscriptId
  proposalAuthor : DeviceId
  /-- The authority whose grant was accepted. -/
  authorizedBy : DeviceId
  configuration : Config
  deriving DecidableEq

/-! ## Steps -/

/-- One step of a pass.  `sign` is a call of `sign_round2`; the others are durable. -/
inductive Step
  | write (t : TranscriptId) (label : Label) (bytes : Bytes)
  /-- A write that refuses to replace a file. -/
  | writeNew (t : TranscriptId) (label : Label) (bytes : Bytes)
  | remove (t : TranscriptId) (label : Label)
  | post (op : CeremonyOp)
  | commitSpace (node : SignedNode)
  | fenceEpoch
  | sign (signing : TranscriptId) (commitments : Packages) (message nonces : Bytes)

/-- What a step does to the files; `none` when it is refused. -/
def Step.run (files : Artifacts) : Step → Option Artifacts
  | write t label bytes => some (files.put t label (some bytes))
  | writeNew t label bytes =>
      if (files t label).isSome then none else some (files.put t label (some bytes))
  | remove t label => some (files.put t label none)
  | post _ | commitSpace _ | fenceEpoch | sign _ _ _ _ => some files

/-- What a pass decides: its steps, and what it answers when all are done. -/
structure Pass where
  steps : List Step
  answer : Except String Bool

/-- A pass that does nothing. -/
def Pass.idle : Pass := ⟨[], .ok false⟩

/-- A pass that refuses. -/
def Pass.refuse (error : String) : Pass := ⟨[], .error error⟩

/-- Take steps until one is refused: those done, and the files then. -/
def perform : List Step → Artifacts → List Step × Artifacts
  | [], files => ([], files)
  | step :: rest, files =>
      match step.run files with
      | some files' => ((step :: (perform rest files').1), (perform rest files').2)
      | none => ([], files)

/-! ## Devices -/

/-- What a pass reads besides the board. -/
structure Device where
  me : DeviceId
  space : SpaceId
  genesis : Genesis
  /-- The ledger's terminal space-authority events. -/
  spaceEvents : List SignedNode
  /-- The ledger's ceremony events, in append order. -/
  ceremonyNodes : List SignedNode
  artifacts : Artifacts
  /-- Whether a file that exists can be opened by this identity. -/
  readable : TranscriptId → Label → Bool

namespace Device

/-- `dkg_has`. -/
def dkgHas (device : Device) (t : TranscriptId) (label : Label) : Bool :=
  (device.artifacts t label).isSome

/-- `dkg_read`: the bytes, or `none` when absent or unreadable. -/
def dkgRead (device : Device) (t : TranscriptId) (label : Label) : Option Bytes :=
  if device.readable t label then device.artifacts t label else none

/-- `dkg_manifest`. -/
def dkgManifest [Postcard DkgManifest] (device : Device) (t : TranscriptId) : Option DkgManifest :=
  (device.dkgRead t .manifest).bind Postcard.fromBytes

variable [Crypto] [Postcard Config] [Postcard Space.SpaceOp]

/-- The standing space-plane state. -/
def cur (device : Device) : Space.RootState :=
  Space.replay device.genesis device.space device.spaceEvents

/-- Whether a claimed authority is the one standing here. -/
def claimsTheStandingAuthority (device : Device) (claimed : Authority) : Bool :=
  decide (Space.recoveryCommit claimed.publicKey = some device.cur.recoveryCommit) &&
    decide (claimed.configuration = device.cur.configuration)

/-- Whether a grant is by the standing authority. -/
def byStanding (device : Device) (grant : SignedAuthorityGrant) : Bool :=
  decide (Space.recoveryCommit grant.author = some device.cur.recoveryCommit)

variable [Postcard FrostThresholdConfig] [Postcard GeneralAccessConfig] [Postcard DkgManifest]
  [GroupKeys]

/-- The size, threshold and participants of a transcript, only if its proposal is
accepted. -/
def acceptedProposal (device : Device) (dkg : TranscriptId) (t : DkgTranscript) :
    Option (ℕ × ℕ × List DeviceId) := do
  let proposal ← t.proposal
  match proposal.op with
  | .dkgPropose p =>
      let config ← p.frostConfig
      if p.isReshare ∧ p.reshareContext.isNone then none
      else do
        let participants ← p.frostDevices
        let fresh := device.claimsTheStandingAuthority p.currentAuthority &&
          (BTreeMap.valuesOf t.auths).any device.byStanding
        -- Or the authority that stood when this device accepted.
        let recorded := (device.dkgManifest dkg).any fun m =>
          decide (m.proposal = dkg) && m.proposalAuthor.same proposal.author &&
            decide (m.configuration = p.configuration) &&
              (t.auths[m.authorizedBy.fold]?).isSome
        if fresh || recorded then some (participants.length % 65536, config.k, participants)
        else none
  | _ => none

/-- The verified board, with this device's manifests behind it. -/
def board [Postcard AuthorityGrant] [Postcard CeremonyOp] (device : Device) : CeremonyBoard :=
  CeremonyBoard.ceremonyBoard device.ceremonyNodes device.space fun authority => do
    let m ← device.dkgManifest authority
    let config ← m.configuration.asFrostThreshold
    config.devices

end Device

/-- The index of a device among the participants, counted from 1 as a `u16`. -/
def indexOf (participants : List DeviceId) (d : DeviceId) : Option ℕ :=
  (participants.findIdx? fun p => p.same d).map fun i => (i % 65536 + 1) % 65536

end Lait.Ceremony
