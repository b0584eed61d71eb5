import Lait.Acl.Replay
import Lait.Ledger.Journal

/-!
# The records of the authority ledger

What the ledger takes and what it writes: effects of the three authority planes,
sealed keys, and the objects that index them (frontiers, receipts, checkpoints,
audits).  Every encoding is `Postcard`, a parameter; a record that comes from outside is
taken only if it is the encoding of what it decodes to.

A frontier is the heads of the three planes, sorted.  Its digest, and the digest of a
batch, are what checkpoints and receipts are looked up by.
-/

namespace Lait.Ledger

open Ceremony (Object)

/-- The replay-semantics version persisted in every checkpoint. -/
def LEDGER_SEMANTICS_VERSION : ℕ := 1
/-- Context of the frontier digest. -/
def FRONTIER_CONTEXT : Text := Bytes.ofString "lait.authority-frontier.v1"
/-- Context of the batch digest. -/
def BATCH_CONTEXT : Text := Bytes.ofString "lait.authority-batch.v1"
/-- Context of a compaction audit commitment. -/
def CEREMONY_AUDIT_CONTEXT : Text := Bytes.ofString "lait.ceremony-audit.v1"

/-- Why a ledger operation failed. -/
inductive Failure
  /-- A record failed validation; the whole batch was refused. -/
  | invalidRecord
  /-- A frontier or an effect names effects that are not held. -/
  | missingHistory
  /-- A frontier is not canonical, or not of a known version. -/
  | malformedFrontier
  | journal (failure : JournalFailure)
  /-- The durable ledger failed validation. -/
  | corrupt
  deriving DecidableEq

/-! ## Effects -/

/-- One replicated authoritative effect: a signed node on one of three planes. -/
inductive Effect
  | actor (node : Actor.SignedEvent)
  | acl (node : Acl.SignedOp)
  | spaceAuthority (node : Space.SignedSpaceEvent)
  deriving DecidableEq

namespace Effect

/-- The node inside. -/
def node : Effect → SignedNode
  | actor node | acl node | spaceAuthority node => node

/-- The content hash: that of the node, whatever the plane. -/
def hash [Crypto] (effect : Effect) : Text := effect.node.hash

/-- The signing domain of the effect's plane. -/
def domain : Effect → Bytes
  | actor _ => Actor.ACTOR_DOMAIN
  | acl _ => Acl.ACL_DOMAIN
  | spaceAuthority _ => Space.SPACE_EVENT_DOMAIN

/-- Verify the signature under the plane's domain. -/
def verify [Crypto] (effect : Effect) (space : SpaceId) : Bool :=
  effect.node.verifySig effect.domain space

/-- The plane, as it is indexed. -/
def kind : Effect → ℕ
  | actor _ => 0
  | acl _ => 1
  | spaceAuthority _ => 2

def parents (effect : Effect) : List Text := effect.node.parents

def encode [Postcard Effect] (effect : Effect) : Bytes := Postcard.toStdvec effect

/-- Canonical decode: exact re-encode equality. -/
def decode [Postcard Effect] (bytes : Bytes) : Except Failure Effect :=
  match Postcard.fromBytes bytes with
  | none => .error .invalidRecord
  | some effect => if encode effect ≠ bytes then .error .invalidRecord else .ok effect

end Effect

/-! ## Sealed keys -/

/-- A sealed key-epoch envelope addressed to one device. -/
structure SealedKeyRecord where
  epoch : Bytes
  device : DeviceId
  envelope : Bytes
  deriving DecidableEq

namespace SealedKeyRecord

def encode [Postcard SealedKeyRecord] (record : SealedKeyRecord) : Bytes := Postcard.toStdvec record

/-- Canonical decode: exact re-encode equality. -/
def decode [Postcard SealedKeyRecord] (bytes : Bytes) : Except Failure SealedKeyRecord :=
  match Postcard.fromBytes bytes with
  | none => .error .invalidRecord
  | some record => if encode record ≠ bytes then .error .invalidRecord else .ok record

/-- What a sealed key is held under: the epoch and the device, its case folded. -/
abbrev Key := Bytes ×ₗ Text

instance transOrdKey : Std.TransOrd Key := inferInstance

def key (record : SealedKeyRecord) : Key := toLex (record.epoch, record.device.fold)

end SealedKeyRecord

/-! ## Frontiers -/

/-- The head sets a frontier encodes. -/
structure FrontierBody where
  version : ℕ
  aclHeads : List Text
  actorHeads : List Text
  spaceAuthorityHeads : List Text
  deriving DecidableEq

namespace FrontierBody

def encode [Postcard FrontierBody] (body : FrontierBody) : Bytes := Postcard.toStdvec body

/-- Canonical decode: the version, each list sorted without repetition, exact re-encode
equality. -/
def decode [Postcard FrontierBody] (bytes : Bytes) : Except Failure FrontierBody :=
  match Postcard.fromBytes bytes with
  | none => .error .malformedFrontier
  | some body =>
      if body.version ≠ 1 then .error .malformedFrontier
      else if [body.aclHeads, body.actorHeads, body.spaceAuthorityHeads].any fun heads =>
          (heads.zip heads.tail).any fun window => window.2 ≤ window.1 then
        .error .malformedFrontier
      else if encode body ≠ bytes then .error .malformedFrontier
      else .ok body

end FrontierBody

/-- What a checkpoint is looked up by. -/
def frontierDigest [Crypto] (space : SpaceId) (frontier : Bytes) : Bytes :=
  Crypto.deriveKey FRONTIER_CONTEXT (space ++ ⟨[0]⟩ ++ frontier)

/-- What a receipt is looked up by: the records of a batch in their order. -/
def batchDigest [Crypto] (records : List Bytes) : Bytes :=
  Crypto.deriveKey BATCH_CONTEXT (Bytes.be64 records.length ++
    Bytes.join (records.map fun record => Bytes.be64 record.length ++ record))

/-! ## What the ledger writes -/

/-- The receipt of one incorporated batch. -/
structure BatchReceipt where
  space : SpaceId
  priorFrontier : Bytes
  resultingFrontier : Bytes
  batchDigest : Bytes
  deriving DecidableEq

/-- One materialized frontier: its closure, and the replay over it. -/
structure CheckpointObject where
  semantics : ℕ
  frontier : Bytes
  effectSet : List Text
  actorEvents : List Text
  spaceEvents : List Text
  replay : Acl.ReplayCheckpoint

/-- What a compaction of ceremony material leaves: a commitment to what was dropped. -/
structure CeremonyAuditRecord where
  version : ℕ
  space : SpaceId
  dropped : List Text
  commitment : Bytes
  deriving DecidableEq

/-- The audit of some dropped hashes, sorted and without repetition. -/
def CeremonyAuditRecord.build [Crypto] (space : SpaceId) (dropped : List Text) :
    CeremonyAuditRecord :=
  let dropped := dropped.toFinset.sort (· ≤ ·)
  { version := 1
    space
    dropped
    commitment := Crypto.deriveKey CEREMONY_AUDIT_CONTEXT (space ++ ⟨[0]⟩ ++
      Bytes.join (dropped.map fun h => Bytes.be64 h.length ++ h)) }

/-- The ledger's record in the journal: the complete index. -/
structure LedgerMeta where
  version : ℕ
  genesis : Genesis
  effects : List (Text × ℕ × Object)
  sealedKeys : List ((Bytes × DeviceId) × Object)
  checkpoints : List (Bytes × Object)
  receipts : List (Bytes × Object)
  frontier : Bytes
  ceremony : List (ℕ × Text × Object)
  ceremonyNextSeq : ℕ
  ceremonyAudits : List (Bytes × Object)

end Lait.Ledger
