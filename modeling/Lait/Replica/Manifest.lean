import Lait.Replica.Index
import Lait.Replica.Transaction

/-!
# The signed manifest

A Station publishes its state as one signed `ManifestRoot` over two catalogs: the
Bodies it holds (`ManifestEntry`: their heads and the content they declare) and
the content descriptors committed.  The signature covers both catalog roots, the
signer, its replica frontier and the authority frontier.
-/

namespace Lait.Replica

def MANIFEST_DOMAIN : Bytes := Bytes.ofString "lait/manifest/2"
def BODY_INDEX_KEY_DOMAIN : Bytes := Bytes.ofString "lait/manifest/2/body-key"
def CONTENT_INDEX_KEY_DOMAIN : Bytes := Bytes.ofString "lait/manifest/2/content-key"
def MAX_CONTENT_REFS_PER_BODY : ℕ := 1024
def MANIFEST_FORMAT_VERSION : ℕ := 2
def MAX_HEADS_PER_BODY : ℕ := 1024

/-! ## Content descriptors -/

def CONTENT_FORMAT_VERSION : ℕ := 1
def CONTENT_ID_DOMAIN : Bytes := Bytes.ofString "lait/content-id/1"
def CHUNK_PLAINTEXT_LEN : ℕ := 256 * 1024
def MAX_CONTENT_LEN : ℕ := 1024 * 1024 * 1024 * 1024
def MAX_CHUNK_COUNT : ℕ := 4194304

/-- What a content is: its geometry, its ciphertext root and its key epoch. -/
structure ContentDescriptor where
  formatVersion : ℕ
  space : Text
  contentNonce : Bytes
  plaintextLen : ℕ
  chunkPlaintextLen : ℕ
  chunkCount : ℕ
  ciphertextMerkleRoot : Bytes
  epoch : Bytes
  deriving DecidableEq

/-- A domain and parts, each under its length. -/
def framed (domain : Bytes) (parts : List Bytes) : Bytes :=
  Bytes.join (Bytes.be16 (min domain.length 65535) :: domain ::
    parts.flatMap fun part => [Bytes.be32 (min part.length 4294967295), part])

/-- Chunks of a content of the given length; an empty one has one. -/
def expectedChunkCount (plaintextLen : ℕ) : ℕ :=
  if plaintextLen = 0 then 1
  else (plaintextLen + CHUNK_PLAINTEXT_LEN - 1) / CHUNK_PLAINTEXT_LEN

namespace ContentDescriptor

/-- `validate().is_ok()`. -/
def valid (d : ContentDescriptor) : Bool :=
  d.formatVersion = CONTENT_FORMAT_VERSION && (SpaceId.parse d.space).isSome &&
    d.chunkPlaintextLen = CHUNK_PLAINTEXT_LEN && d.plaintextLen ≤ MAX_CONTENT_LEN &&
    d.chunkCount ≤ MAX_CHUNK_COUNT && d.chunkCount = expectedChunkCount d.plaintextLen

/-- The content's id: the hash of its descriptor. -/
def contentRef [Crypto] [Postcard ContentDescriptor] (d : ContentDescriptor) : Bytes :=
  Crypto.blake3 (framed CONTENT_ID_DOMAIN [Postcard.toStdvec d])

end ContentDescriptor

/-- The catalog key of a content. -/
def contentIndexKey [Crypto] (contentId : Bytes) : Bytes :=
  Crypto.blake3 (Bytes.join [CONTENT_INDEX_KEY_DOMAIN, contentId])

/-- The catalog key of a Body. -/
def bodyIndexKey [Crypto] (key : BodyKey) : Bytes :=
  Crypto.blake3 (Bytes.join [BODY_INDEX_KEY_DOMAIN, key.world, ⟨[0]⟩, key.body])

/-! ## Entries -/

/-- One head as the manifest advertises it. -/
structure ManifestHead where
  descriptorHash : Bytes
  transactionCommitment : Bytes
  deriving DecidableEq

/-- The derived order's key. -/
def ManifestHead.pair (h : ManifestHead) : Bytes ×ₗ Bytes :=
  toLex (h.descriptorHash, h.transactionCommitment)

theorem ManifestHead.pair_injective : Function.Injective ManifestHead.pair := by
  intro a b h
  obtain ⟨hdescriptor, hcommitment⟩ := Prod.mk.inj (toLex.injective h)
  cases a
  cases b
  simp_all

instance : LinearOrder ManifestHead :=
  LinearOrder.lift' ManifestHead.pair ManifestHead.pair_injective

/-- What the manifest says about one Body. -/
structure ManifestEntry where
  key : BodyKey
  heads : List ManifestHead
  contentRefs : List Bytes
  deriving DecidableEq

/-- Why a manifest was refused. -/
inductive ManifestInvalid
  | bounds
  | orderViolation
  | equivocation
  deriving DecidableEq

namespace ManifestEntry

/-- `sort()` and `dedup()`. -/
def canonical {α : Type} [LinearOrder α] (l : List α) : List α := l.dedup.insertionSort (· ≤ ·)

def validate (entry : ManifestEntry) : Except ManifestInvalid Unit := do
  if entry.heads.isEmpty ∨ MAX_HEADS_PER_BODY < entry.heads.length then throw .bounds
  if MAX_CONTENT_REFS_PER_BODY < entry.contentRefs.length then throw .bounds
  if ¬ entry.heads.IsChain (· < ·) then throw .orderViolation
  if ¬ entry.contentRefs.IsChain (· < ·) then throw .orderViolation

/-- Build an entry from heads and declarations in any order. -/
def declaring (key : BodyKey) (heads : List ManifestHead) (contentRefs : List Bytes) :
    Except ManifestInvalid ManifestEntry := do
  let entry : ManifestEntry := ⟨key, canonical heads, canonical contentRefs⟩
  entry.validate
  return entry

end ManifestEntry

/-! ## Roots -/

/-- What a manifest root's signature covers, after the format version. -/
structure RootPreimage where
  space : Bytes
  replicaFrontier : ReplicaFrontier
  bodyIndexRoot : Option ChildRef
  bodyCount : ℕ
  contentIndexRoot : Option ChildRef
  contentCount : ℕ
  signer : Bytes
  authorityFrontier : AuthorityFrontier
  deriving DecidableEq

structure ManifestRoot where
  formatVersion : ℕ
  content : RootPreimage
  signatureAlgorithm : ℕ
  signature : Bytes
  deriving DecidableEq

namespace ManifestRoot

section Codec

variable [Postcard (ℕ × RootPreimage)]

/-- The signed bytes. -/
def preimage (content : RootPreimage) : Bytes :=
  lengthFramed MANIFEST_DOMAIN (Postcard.toStdvec (MANIFEST_FORMAT_VERSION, content))

/-- Build and sign a root; `none` when the space id is not 29 bytes. -/
def signWith (space : SpaceId) (replicaFrontier : ReplicaFrontier)
    (bodyIndexRoot contentIndexRoot : Option ChildRef) (authorityFrontier : AuthorityFrontier)
    (signer : Signer) : Option ManifestRoot := do
  let space ← spaceBytes space
  let content : RootPreimage :=
    { space
      replicaFrontier
      bodyIndexRoot
      bodyCount := (bodyIndexRoot.map ChildRef.count).getD 0
      contentIndexRoot
      contentCount := (contentIndexRoot.map ChildRef.count).getD 0
      signer := signer.signerKey
      authorityFrontier }
  return ⟨MANIFEST_FORMAT_VERSION, content, SIG_ALG_ED25519, signer.signPreimage (preimage content)⟩

end Codec

def encode [Postcard ManifestRoot] (root : ManifestRoot) : Bytes := Postcard.toStdvec root

end ManifestRoot

end Lait.Replica
