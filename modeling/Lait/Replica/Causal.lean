import Lait.Replica.Frontier

/-!
# The causal contract of a Body

What crosses the seam between the Replica and the collaborative engine: a
**version** is a head set, an **artifact** is a piece of a Body's content, and a
Body's **material** names the artifacts that reconstruct it, as a checkpoint and
a bounded tail of deltas.

The bounds are the protocol's.  `CheckpointPolicy` decides from encoded sizes
alone when a tail is due for replacement and when one more delta is refused.
-/

namespace Lait.Replica

/-- Maximum heads in one `Version`. -/
def MAX_HEADS : ℕ := 256

/-- The encoded generation of the causal artifact formats. -/
def CAUSAL_FORMAT_VERSION : ℕ := 2

/-- The bound on `Material.plaintextSize`. -/
def MAX_MATERIAL_PLAINTEXT_BYTES : ℕ := 64 * 1024 * 1024

/-- One operation's identity: who wrote it and where in their sequence. -/
structure OpHead where
  writer : ℕ
  sequence : ℤ
  deriving DecidableEq

/-- The derived order: writer first. -/
def OpHead.pair (h : OpHead) : ℕ ×ₗ ℤ := toLex (h.writer, h.sequence)

theorem OpHead.pair_injective : Function.Injective OpHead.pair := by
  intro a b h
  obtain ⟨hwriter, hsequence⟩ := Prod.mk.inj (toLex.injective h)
  cases a
  cases b
  simp_all

instance : LinearOrder OpHead := LinearOrder.lift' OpHead.pair OpHead.pair_injective

/-- Why a causal operation failed. -/
inductive CausalInvalid
  | notCollaborative
  | bounds
  | nonCanonical
  | missingBase
  | beforeRetentionFrontier
  | engine
  deriving DecidableEq

/-- A position in the collaborative history: the operations nothing else depends
on yet, sorted and deduplicated. -/
structure Version where
  formatVersion : ℕ
  heads : List OpHead
  deriving DecidableEq

namespace Version

/-- `from_frontiers`. -/
def fromFrontiers (frontiers : List OpHead) : Version :=
  ⟨CAUSAL_FORMAT_VERSION, frontiers.dedup.insertionSort (· ≤ ·)⟩

/-- The empty version, which every history starts from. -/
def empty : Version := ⟨CAUSAL_FORMAT_VERSION, []⟩

def validate (v : Version) : Except CausalInvalid Unit :=
  if v.formatVersion ≠ CAUSAL_FORMAT_VERSION then .error .nonCanonical
  else if MAX_HEADS < v.heads.length then .error .bounds
  else if v.heads.IsChain (· < ·) then .ok ()
  else .error .nonCanonical

end Version

/-- How two versions relate. -/
inductive CausalRelation
  | equal
  | dominates
  | dominated
  | concurrent
  | undetermined
  deriving DecidableEq

/-- The artifacts a Body's material is made of. -/
inductive Artifact
  | delta (formatVersion : ℕ) (base result : Version) (bytes : Bytes)
  | checkpoint (formatVersion : ℕ) (retentionFrontier result : Version) (bytes : Bytes)
  | archive (formatVersion : ℕ) (result : Version) (bytes : Bytes)
  | replace (formatVersion : ℕ) (bytes : Bytes)
  deriving DecidableEq

namespace Artifact

/-- The version this artifact leaves a replica at, if it names one. -/
def result : Artifact → Option Version
  | delta _ _ result _ => some result
  | checkpoint _ _ result _ => some result
  | archive _ result _ => some result
  | replace _ _ => none

/-- The payload bytes. -/
def bytes : Artifact → Bytes
  | delta _ _ _ bytes => bytes
  | checkpoint _ _ _ bytes => bytes
  | archive _ _ bytes => bytes
  | replace _ bytes => bytes

end Artifact

/-- What an import did. -/
structure ImportStatus where
  /-- Whether anything new was applied. -/
  applied : Bool
  /-- Whether some of the material is waiting on dependencies. -/
  pending : Bool
  deriving DecidableEq

/-- Checkpoint policy, from encoded sizes. -/
structure CheckpointPolicy where
  targetTailDeltas : ℕ
  targetTailBytes : ℕ
  maxTailDeltas : ℕ
  maxTailBytes : ℕ

namespace CheckpointPolicy

def default : CheckpointPolicy where
  targetTailDeltas := 256
  targetTailBytes := 8 * 1024 * 1024
  maxTailDeltas := 4096
  maxTailBytes := 128 * 1024 * 1024

/-- Whether checkpoint construction should begin off the publication path. -/
def shouldPrepare (policy : CheckpointPolicy) (tailDeltas tailBytes : ℕ) : Bool :=
  policy.targetTailDeltas * 3 / 4 ≤ tailDeltas || policy.targetTailBytes * 3 / 4 ≤ tailBytes

/-- Whether a tail of this shape stays inside the protocol's envelope. -/
def admits (policy : CheckpointPolicy) (tailDeltas tailBytes : ℕ) : Bool :=
  tailDeltas ≤ policy.maxTailDeltas && tailBytes ≤ policy.maxTailBytes

end CheckpointPolicy

/-- A reference to one protected, content-addressed artifact. -/
structure ArtifactRef where
  hash : Bytes
  len : ℕ
  epoch : Bytes
  deriving DecidableEq

/-- What a Body's head commits: enough to reconstruct current state. -/
structure Material where
  formatVersion : ℕ
  /-- Reconstructs current state on its own. -/
  checkpoint : ArtifactRef
  /-- Updates after the checkpoint, in order. -/
  deltaTail : List ArtifactRef
  historyRoot : Option Bytes
  historyCount : ℕ
  version : Version
  plaintextSize : ℕ
  deriving DecidableEq

namespace Material

/-- The checkpoint and its tail, in signed order. -/
def artifactRefs (material : Material) : List ArtifactRef :=
  material.checkpoint :: material.deltaTail

/-- Encoded tail bytes: a `u64` sum, which wraps. -/
def tailBytes (material : Material) : ℕ := (material.deltaTail.map ArtifactRef.len).sum % 2 ^ 64

def validate (material : Material) : Except CausalInvalid Unit :=
  if material.formatVersion ≠ CAUSAL_FORMAT_VERSION then .error .nonCanonical
  else if MAX_MATERIAL_PLAINTEXT_BYTES < material.plaintextSize then .error .bounds
  else if CheckpointPolicy.default.admits material.deltaTail.length material.tailBytes then
    material.version.validate
  else .error .bounds

end Material

end Lait.Replica
