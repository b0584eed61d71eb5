import Lait.Arrival
import Lait.SigningDomains
import Lait.Ceremony.Configuration
import Lait.Ceremony.Reshare

/-!
# The ceremony board

A ceremony is run over a bulletin board of signed events.  `parseBoard` verifies
each event once and files it: an opener under its own content address, which
names the transcript it opens; an authorization under the proposal it grants; a
round under the transcript it names.  `retain` then drops what can never
contribute, and `restrictSigningRounds` does the same for signing transcripts,
whose participants are those of the authority the request names.

Of several rounds by one author of one kind, the first on the board is kept.
-/

namespace Lait.Ceremony

/-- The content address of the node that opened a transcript. -/
abbrev TranscriptId := Bytes

namespace TranscriptId

/-- A canonical lowercase hexadecimal digit. -/
def isLowerHex (b : UInt8) : Bool := (48 ≤ b && b ≤ 57) || (97 ≤ b && b ≤ 102)

/-- `parse_hex`: strict canonical lowercase hexadecimal, exactly 64 characters. -/
def parseHex (s : Text) : Option TranscriptId :=
  if s.length = 64 ∧ s.data.all isLowerHex then some ⟨Bytes.hexDecode s.data⟩ else none

/-- `to_hex`. -/
def toHex (id : TranscriptId) : Text := Bytes.hexEncode id

/-- The id of the transcript a node opens. -/
def of [Crypto] (node : SignedNode) : Option TranscriptId := parseHex node.hash

end TranscriptId

/-- What a threshold signature is for. -/
inductive SignTarget
  | spaceOp
  | authorityGrant
  deriving DecidableEq

/-- What kind of change a proposal asks for. -/
inductive ProposedTransition
  | rotateKey (current : Authority)
  | reshare (authority : Authority) (currentConfiguration : Config) (oldPublicPackage : Bytes)
  deriving DecidableEq

/-- A proposed key ceremony: what arrangement to create, and what it replaces. -/
structure KeyCeremonyProposal where
  nonce : Bytes
  configuration : Config
  transition : ProposedTransition
  deriving DecidableEq

/-- The recovery authority's statement that one exact key ceremony may run. -/
structure AuthorityGrant where
  proposal : TranscriptId
  deriving DecidableEq

/-- A grant, as a node its authority signed. -/
abbrev SignedAuthorityGrant := SignedNode

/-- One participant's contribution to a ceremony. -/
inductive CeremonyOp
  | dkgPropose (proposal : KeyCeremonyProposal)
  | dkgAuthorize (grant : SignedAuthorityGrant)
  | dkgRound1 (dkg : TranscriptId) (package : Bytes)
  | dkgRound2 (dkg : TranscriptId) (recipient : DeviceId) (sealed : Bytes)
  | signRequest (nonce : Bytes) (authority : TranscriptId) (target : SignTarget)
      (coordinator : DeviceId) (op : Bytes)
  | signPlan (signing : TranscriptId) (plan : Bytes)
  | custodyAck (dkg : TranscriptId)
  | signRound1 (signing : TranscriptId) (commitments : Bytes)
  | signRound2 (signing : TranscriptId) (share : Bytes)
  | reshareCommit (dkg : TranscriptId) (commitments : Bytes)
  | reshareDeal (dkg : TranscriptId) (recipient : DeviceId) (sealed : Bytes)
  | resharePlan (dkg : TranscriptId) (qualified : List ℕ)
  deriving DecidableEq

/-- Serialized packages by participant index. -/
abbrev Packages := BTreeMap ℕ Bytes

/-- Why the chosen signer set is entitled to operate the key. -/
inductive AccessWitness
  | frostThreshold (k : ℕ) (participantIndices : List ℕ)
  | linearReconstruction (policy : Bytes) (leaves : List Holder) (coefficientCommitment : Bytes)
  deriving DecidableEq

/-- Who signs, over what, with which commitments, and by what right. -/
structure SigningPlan where
  signing : TranscriptId
  authority : Authority
  messageCommitment : Bytes
  signers : List Holder
  /-- The frozen commitments, by participant index. -/
  commitments : Packages
  witness : AccessWitness

/-- `group_key_of_package`, over the FROST crate. -/
class GroupKeys where
  groupKeyOfPackage : Bytes → Option DeviceId

/-! ## Proposals -/

namespace KeyCeremonyProposal

variable [Postcard FrostThresholdConfig] [Postcard GeneralAccessConfig]

/-- The flat configuration this proposal creates, if it is well formed. -/
def frostConfig (proposal : KeyCeremonyProposal) : Option FrostThresholdConfig :=
  if proposal.configuration.scheme ≠ .frostThreshold ∨ ¬ proposal.configuration.isWellFormed then
    none
  else proposal.configuration.asFrostThreshold

/-- Participant devices, in canonical index order, for a flat proposal. -/
def frostDevices (proposal : KeyCeremonyProposal) : Option (List DeviceId) := do
  let config ← proposal.frostConfig
  config.devices

/-- The authority this proposal replaces or reshares. -/
def currentAuthority (proposal : KeyCeremonyProposal) : Authority :=
  match proposal.transition with
  | .rotateKey current => current
  | .reshare authority _ _ => authority

/-- Whether this proposal is a same-key reshare. -/
def isReshare (proposal : KeyCeremonyProposal) : Bool :=
  match proposal.transition with
  | .rotateKey _ => false
  | .reshare _ _ _ => true

end KeyCeremonyProposal

/-- The validated context of a same-key reshare proposal. -/
structure ReshareContext where
  newConfig : FrostThresholdConfig
  newDevices : List DeviceId
  oldConfig : FrostThresholdConfig
  oldDevices : List DeviceId
  authority : Authority
  oldPublicPackage : Bytes

/-- The validated reshare context: the new configuration is a well-formed flat
threshold, the standing one hashes to the authority's configuration id and is
itself one, and the carried package derives the authority's key. -/
def KeyCeremonyProposal.reshareContext [Crypto] [Postcard Config] [Postcard FrostThresholdConfig]
    [Postcard GeneralAccessConfig] [GroupKeys] (proposal : KeyCeremonyProposal) :
    Option ReshareContext :=
  match proposal.transition with
  | .rotateKey _ => none
  | .reshare authority currentConfiguration oldPublicPackage => do
      let newConfig ← proposal.frostConfig
      let newDevices ← proposal.frostDevices
      if currentConfiguration.id ≠ authority.configuration
          ∨ currentConfiguration.scheme ≠ .frostThreshold
          ∨ ¬ currentConfiguration.isWellFormed then none
      else do
        let oldConfig ← currentConfiguration.asFrostThreshold
        let oldDevices ← oldConfig.devices
        let groupKey ← GroupKeys.groupKeyOfPackage oldPublicPackage
        if ¬ groupKey.same authority.publicKey then none
        else some ⟨newConfig, newDevices, oldConfig, oldDevices, authority, oldPublicPackage⟩

/-- The proposal a grant authorizes, if it is a well-formed grant for this space. -/
def authorityGrantOf [Crypto] [Postcard AuthorityGrant] (node : SignedAuthorityGrant)
    (ws : SpaceId) : Option AuthorityGrant :=
  if ¬ node.verifySig AUTHORITY_GRANT_DOMAIN ws ∨ node.parents ≠ [] then none
  else Postcard.fromBytes node.op

/-! ## Transcripts -/

/-- A signature-verified board entry. -/
structure Verified where
  author : DeviceId
  /-- The id of the node: the transcript id when the op is an opener. -/
  id : TranscriptId
  op : CeremonyOp
  deriving DecidableEq

/-- One key-generation transcript's verified contributions. -/
structure DkgTranscript where
  proposal : Option Verified := none
  /-- Every signature-valid authorization, by signing key. -/
  auths : BTreeMap Text SignedAuthorityGrant := ∅
  rounds : List Verified := []

/-- One signing transcript's verified contributions. -/
structure SignTranscript where
  request : Option Verified := none
  rounds : List Verified := []

namespace DkgTranscript

/-- A qualified old set, from the proposal's author alone. -/
def qualifiedBy (author : DeviceId) (v : Verified) : Option (List ℕ) :=
  match v.op with
  | .resharePlan _ qualified => if v.author.same author then some qualified else none
  | _ => none

/-- The reshare plan: the first by the proposal's author. -/
def resharePlan (t : DkgTranscript) : Option (List ℕ) := do
  let proposal ← t.proposal
  t.rounds.findSome? (qualifiedBy proposal.author)

end DkgTranscript

namespace SignTranscript

variable [Postcard SigningPlan]

/-- A readable plan, from the coordinator alone. -/
def planBy (coordinator : DeviceId) (v : Verified) : Option SigningPlan :=
  match v.op with
  | .signPlan _ plan => if v.author.same coordinator then Postcard.fromBytes plan else none
  | _ => none

/-- The plan for this transcript, if the named coordinator published one. -/
def plan (t : SignTranscript) : Option SigningPlan :=
  match t.request.map Verified.op with
  | some (.signRequest _ _ _ coordinator _) => t.rounds.findSome? (planBy coordinator)
  | _ => none

end SignTranscript

/-- Every verified contribution, by transcript. -/
structure CeremonyBoard where
  dkg : BTreeMap TranscriptId DkgTranscript := ∅
  signing : BTreeMap TranscriptId SignTranscript := ∅

/-- The dedup key of a round: which round it is, and for a targeted one whom it
is for. -/
def roundKey : CeremonyOp → Option (ℕ × Text)
  | .dkgRound1 _ _ => some (1, Bytes.empty)
  | .dkgRound2 _ recipient _ => some (2, recipient.asStr)
  | .signRound1 _ _ => some (3, Bytes.empty)
  | .signRound2 _ _ => some (4, Bytes.empty)
  | .signPlan _ _ => some (5, Bytes.empty)
  | .custodyAck _ => some (6, Bytes.empty)
  | .reshareCommit _ _ => some (7, Bytes.empty)
  | .reshareDeal _ recipient _ => some (8, recipient.asStr)
  | .resharePlan _ _ => some (9, Bytes.empty)
  | .dkgPropose _ | .dkgAuthorize _ | .signRequest _ _ _ _ _ => none

/-- An author, and one of the rounds it may post once. -/
abbrev Slot := Text × ℕ × Text

/-- The slot a contribution takes. -/
def Verified.slot (v : Verified) : Option Slot :=
  (roundKey v.op).map fun key => (v.author.fold, key)

/-- Whether a list names a device. -/
def names (devices : List DeviceId) (d : DeviceId) : Bool := devices.any fun d' => d'.same d

namespace CeremonyBoard

variable [Crypto] [Postcard Config] [Postcard FrostThresholdConfig]
  [Postcard GeneralAccessConfig] [Postcard AuthorityGrant] [Postcard CeremonyOp] [GroupKeys]

/-- `dkg.entry(id).or_default()`, changed. -/
def atDkg (board : CeremonyBoard) (id : TranscriptId) (f : DkgTranscript → DkgTranscript) :
    CeremonyBoard := { board with dkg := board.dkg.insert id (f (board.dkg[id]?.getD {})) }

/-- `signing.entry(id).or_default()`, changed. -/
def atSigning (board : CeremonyBoard) (id : TranscriptId) (f : SignTranscript → SignTranscript) :
    CeremonyBoard := { board with signing := board.signing.insert id (f (board.signing[id]?.getD {})) }

/-- File a verified entry. -/
def file (ws : SpaceId) (board : CeremonyBoard) (entry : Verified) : CeremonyBoard :=
  match entry.op with
  -- Openers are keyed by their own id: they define the transcript.
  | .dkgPropose _ => board.atDkg entry.id fun t => { t with proposal := some entry }
  | .signRequest _ _ _ _ _ => board.atSigning entry.id fun t => { t with request := some entry }
  -- A grant is filed only if its own signature covers the proposal it names.
  | .dkgAuthorize grant =>
      match authorityGrantOf grant ws with
      | some inner =>
          board.atDkg inner.proposal fun t =>
            { t with auths := t.auths.insert grant.author.fold grant }
      | none => board
  | .dkgRound1 dkg _ | .dkgRound2 dkg _ _ | .reshareCommit dkg _ | .reshareDeal dkg _ _
  | .resharePlan dkg _ | .custodyAck dkg =>
      board.atDkg dkg fun t => { t with rounds := t.rounds ++ [entry] }
  | .signRound1 signing _ | .signRound2 signing _ | .signPlan signing _ =>
      board.atSigning signing fun t => { t with rounds := t.rounds ++ [entry] }

/-- Verify an event and read it. -/
def verified (ws : SpaceId) (ev : SignedNode) : Option Verified :=
  if ev.verifySig CEREMONY_DOMAIN ws then do
    let op ← Postcard.fromBytes ev.op
    let id ← TranscriptId.of ev
    some ⟨ev.author, id, op⟩
  else none

/-- The devices whose rounds a key-generation transcript keeps: the proposal's
participants, and for a reshare the old holders. -/
def participants (proposal : Verified) : List DeviceId :=
  match proposal.op with
  | .dkgPropose p =>
      let devices := p.frostDevices.getD []
      match p.reshareContext with
      | some ctx =>
          ctx.oldDevices.foldl
            (fun devices d => if names devices d then devices else devices ++ [d]) devices
      | none => devices
  | _ => []

/-- The rounds by permitted authors, the first of every slot. -/
def keepRounds (permitted : List DeviceId) (rounds : List Verified) : List Verified :=
  Arrival.retainFirst (fun v => names permitted v.author) Verified.slot ∅ rounds

/-- Drop what can never contribute. -/
def retain (board : CeremonyBoard) : CeremonyBoard :=
  { dkg := (board.dkg.filter fun _ t => t.proposal.isSome).map fun _ t =>
      { t with rounds := keepRounds ((t.proposal.map participants).getD []) t.rounds }
    signing := board.signing.filter fun _ t => t.request.isSome }

/-- Verify and index the whole board in one pass. -/
def parseBoard (events : List SignedNode) (ws : SpaceId) : CeremonyBoard :=
  (events.foldl (fun (board : CeremonyBoard) ev =>
    match verified ws ev with
    | some entry => board.file ws entry
    | none => board) {}).retain

/-- The participants of a proposal the board holds. -/
def dkgParticipants (board : CeremonyBoard) (id : TranscriptId) : Option (List DeviceId) := do
  let t ← board.dkg[id]?
  match t.proposal.map Verified.op with
  | some (.dkgPropose p) => p.frostDevices
  | _ => none

/-- The devices whose rounds a signing transcript keeps. -/
def signers (board : CeremonyBoard) (fallback : TranscriptId → Option (List DeviceId))
    (t : SignTranscript) : Option (List DeviceId) :=
  match t.request.map Verified.op with
  | some (.signRequest _ authority _ _ _) =>
      (board.dkgParticipants authority).or (fallback authority)
  | _ => none

/-- Restrict signing rounds to the participants of the authority each request
names; an unresolvable one keeps none. -/
def restrictSigningRounds (board : CeremonyBoard)
    (fallback : TranscriptId → Option (List DeviceId)) : CeremonyBoard :=
  { board with
    signing := board.signing.map fun _ t =>
      { t with rounds := keepRounds ((board.signers fallback t).getD []) t.rounds } }

/-- The verified, retention-filtered board. -/
def ceremonyBoard (events : List SignedNode) (ws : SpaceId)
    (fallback : TranscriptId → Option (List DeviceId)) : CeremonyBoard :=
  (parseBoard events ws).restrictSigningRounds fallback

end CeremonyBoard

end Lait.Ceremony
