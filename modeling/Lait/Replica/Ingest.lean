import Lait.Replica.ChunkTree

/-!
# Sealing a content, whole and streamed

`sealContent` seals a plaintext it holds: the geometry is known first, and every chunk
is a slice.  `ContentIngest` is fed the same plaintext in pushes of any size and never
holds more than one chunk: it seals a chunk when the buffer is full, decides about the
tail only when it is finished, and files the chunks with their proofs once the root is
known.

The chunk length is a parameter of both; the source's is `CHUNK_PLAINTEXT_LEN`.
Sealing is a function of the key, the binding and the plaintext here, so that the two
can be compared: in the source it draws a fresh nonce.

What carries the comparison is `Fed`: after any pushes the leaves are the sealings of
the whole chunks of what was pushed and the buffer is the rest, and a whole chunk of a
string is one of every longer string (`sealSlice_append`).
-/

namespace Lait.Replica

/-- Domain for the local cache slot a chunk is filed under. -/
def CONTENT_SLOT_DOMAIN : Bytes := Bytes.ofString "lait/content-slot/1"

/-- What a sealed chunk is bound to. -/
structure ContentChunkBinding where
  space : SpaceId
  contentNonce : Bytes
  chunkIndex : UInt32

/-- An `AuthorizedBodyKey` as sealing a chunk uses it: its epoch, and
`content_chunk_seal` under it. -/
structure AuthorizedChunkKey where
  epochId : Bytes
  contentChunkSeal : ContentChunkBinding → Bytes → Except ContentInvalid Bytes

/-- `ok_or`: a missing value is refused. -/
def refuseNone {α : Type} (refusal : ContentInvalid) : Option α → Except ContentInvalid α
  | some a => .ok a
  | none => .error refusal

theorem refuseNone_eq_ok {α : Type} {refusal : ContentInvalid} {x : Option α} {a : α} :
    refuseNone refusal x = .ok a ↔ x = some a := by
  cases x with
  | none => simp [refuseNone]
  | some b => simp [refuseNone]

/-! ## Geometry -/

/-- How many chunks of the given length a plaintext occupies; an empty one has one. -/
def chunkCountOf (chunkLen plaintextLen : ℕ) : ℕ :=
  if plaintextLen = 0 then 1 else (plaintextLen + chunkLen - 1) / chunkLen

namespace ContentDescriptor

/-- Structural validation, at a chunk length. -/
def validateAt (chunkLen : ℕ) (self : ContentDescriptor) : Except ContentInvalid Unit := do
  if self.formatVersion ≠ CONTENT_FORMAT_VERSION then
    throw (.unsupportedVersion self.formatVersion)
  if (SpaceId.parse self.space).isNone then throw .badSpaceId
  if self.chunkPlaintextLen ≠ chunkLen ∨ MAX_CONTENT_LEN < self.plaintextLen ∨
      MAX_CHUNK_COUNT < self.chunkCount then throw .geometry
  if self.chunkCount ≠ chunkCountOf chunkLen self.plaintextLen then throw .geometry

/-- Structural validation. -/
def validate (self : ContentDescriptor) : Except ContentInvalid Unit :=
  self.validateAt CHUNK_PLAINTEXT_LEN

theorem validateAt_eq_ok {chunkLen : ℕ} {self : ContentDescriptor} :
    self.validateAt chunkLen = .ok () ↔ self.formatVersion = CONTENT_FORMAT_VERSION ∧
      (SpaceId.parse self.space).isSome = true ∧ self.chunkPlaintextLen = chunkLen ∧
      self.plaintextLen ≤ MAX_CONTENT_LEN ∧ self.chunkCount ≤ MAX_CHUNK_COUNT ∧
      self.chunkCount = chunkCountOf chunkLen self.plaintextLen := by
  rw [validateAt, guard_eq_ok, guard_eq_ok, guard_eq_ok, check_eq_ok, not_not, not_not, not_or,
    not_or, not_lt, not_lt, not_not, Bool.not_eq_true, Option.isNone_eq_false_iff, and_assoc,
    and_assoc]

end ContentDescriptor

/-! ## The local cache -/

/-- One call into the local cache, as far as its failing goes. -/
inductive CacheCall
  | appendStaged (part : UInt32)
  | readStaged (part : UInt32)
  | install (part : UInt32)
  | leaseOperation (part : UInt32)
  | leaseContent (part : UInt32)
  deriving DecidableEq

instance transOrdStaged : Std.TransOrd (Bytes ×ₗ ℕ) := inferInstance

/-- The local cache: the staging files of an operation's parts, what was installed with
which sidecar and in which order, and the leases. -/
structure Residency (H : Type) where
  staged : BTreeMap (Bytes ×ₗ ℕ) Bytes
  entries : List (H × Bytes × Bytes)
  leases : List (Bool × Bytes × H)
  /-- The calls whose file system work fails. -/
  fails : CacheCall → Bool

namespace Residency

variable {H : Type}

/-- Append to a staging slot at exactly its current length. -/
def appendStaged (self : Residency H) (operation : Bytes) (part : UInt32) (offset : ℕ)
    (bytes : Bytes) : Option (Residency H) :=
  let current := (self.staged[toLex (operation, part.toNat)]?).getD Bytes.empty
  if offset ≠ current.length then none
  else if self.fails (.appendStaged part) then none
  else
    some { self with
      staged := self.staged.insert (toLex (operation, part.toNat)) (current ++ bytes) }

def readStaged (self : Residency H) (operation : Bytes) (part : UInt32) : Option Bytes :=
  if self.fails (.readStaged part) then none else self.staged[toLex (operation, part.toNat)]?

/-- Install an entry and take both of its leases: the operation's and the content's. -/
def install (self : Residency H) (operation contentNonce : Bytes) (part : UInt32) (entry : H)
    (ciphertext sidecar : Bytes) : Option (Residency H) :=
  if self.fails (.install part) then none
  else if self.fails (.leaseOperation part) then none
  else if self.fails (.leaseContent part) then none
  else some { self with
    entries := self.entries ++ [(entry, ciphertext, sidecar)]
    leases := self.leases ++ [(true, operation, entry), (false, contentNonce, entry)] }

/-- Discard everything an operation staged. -/
def discardStaged (self : Residency H) (operation : Bytes) : Residency H :=
  { self with staged := self.staged.filter fun slot _ => (ofLex slot).1 ≠ operation }

end Residency

section Content

variable {H : Type} [ContentDigests H] [DecidableEq H] [Crypto] [Postcard ContentDescriptor]
  [Postcard (ChunkProof H)]

/-- The cache slot one of a content's chunks is filed under. -/
def chunkSlot (descriptor : ContentDescriptor) (chunkIndex : UInt32) : H :=
  ContentDigests.hash (framed CONTENT_SLOT_DOMAIN
    [descriptor.ciphertextMerkleRoot, Bytes.be32 chunkIndex.toNat])

/-! ## In memory -/

/-- One content, sealed. -/
structure SealedContent (H : Type) where
  descriptor : ContentDescriptor
  ciphertexts : List Bytes
  proofs : List (ChunkProof H)

/-- Seal one chunk and make its leaf. -/
def sealChunk (space : SpaceId) (key : AuthorizedChunkKey) (contentNonce : Bytes)
    (chunkIndex : UInt32) (plaintext : Bytes) : Except ContentInvalid (ChunkLeaf H × Bytes) := do
  let ciphertext ← key.contentChunkSeal { space, contentNonce, chunkIndex } plaintext
  let leaf ← ChunkLeaf.of chunkIndex ciphertext
  return (leaf, ciphertext)

/-- The chunk at an index of a plaintext. -/
def chunkSlice (chunkLen : ℕ) (plaintext : Bytes) (index : ℕ) : Except ContentInvalid Bytes :=
  let start := index * chunkLen
  let stop := min (start + chunkLen) plaintext.length
  if start ≤ stop then .ok ⟨(plaintext.data.drop start).take (stop - start)⟩
  else .error .geometry

/-- One turn of the sealing loop. -/
def sealSlice (chunkLen : ℕ) (space : SpaceId) (key : AuthorizedChunkKey) (contentNonce : Bytes)
    (plaintext : Bytes) (index : ℕ) : Except ContentInvalid (ChunkLeaf H × Bytes) := do
  let slice ← chunkSlice chunkLen plaintext index
  sealChunk space key contentNonce (UInt32.ofNat index) slice

/-- The descriptor over some leaves. -/
def descriptorOf (chunkLen : ℕ) (space : SpaceId) (key : AuthorizedChunkKey) (contentNonce : Bytes)
    (plaintextLen : ℕ) (leaves : List (ChunkLeaf H)) : ContentDescriptor where
  formatVersion := CONTENT_FORMAT_VERSION
  space
  contentNonce
  plaintextLen
  chunkPlaintextLen := chunkLen
  chunkCount := leaves.length
  ciphertextMerkleRoot := ContentDigests.bytes (merkleRoot leaves)
  epoch := key.epochId

/-- Seal a complete plaintext into its descriptor and chunk set. -/
def sealContent (chunkLen : ℕ) (space : SpaceId) (key : AuthorizedChunkKey) (contentNonce : Bytes)
    (plaintext : Bytes) : Except ContentInvalid (SealedContent H) := do
  if MAX_CONTENT_LEN < plaintext.length then throw .geometry
  let chunkCount := chunkCountOf chunkLen plaintext.length
  if 4294967296 ≤ chunkCount then throw .geometry
  let chunks ← (List.range chunkCount).mapM (sealSlice chunkLen space key contentNonce plaintext)
  let leaves := chunks.map Prod.fst
  let descriptor := descriptorOf chunkLen space key contentNonce plaintext.length leaves
  descriptor.validateAt chunkLen
  let proofs ← (List.range chunkCount).mapM fun index =>
    refuseNone .proofMismatch (chunkProof leaves (UInt32.ofNat index))
  return { descriptor, ciphertexts := chunks.map Prod.snd, proofs }

/-! ## Streamed -/

/-- What an ingest is begun with. -/
structure IngestRequest where
  space : SpaceId
  key : AuthorizedChunkKey
  contentNonce : Bytes
  operation : Bytes
  maxLen : ℕ

/-- An ingest in progress. -/
structure ContentIngest (H : Type) extends IngestRequest where
  cache : Residency H
  buffer : Bytes
  leaves : List (ChunkLeaf H)
  plaintextLen : ℕ

/-- What an ingest produced. -/
structure IngestedContent (H : Type) where
  descriptor : ContentDescriptor
  contentRef : Bytes
  /-- The entries its operation's leases hold. -/
  leases : List H
  cache : Residency H

namespace ContentIngest

/-- Begin an ingest.  Operator policy may only lower the protocol maximum. -/
def begin_ (space : SpaceId) (key : AuthorizedChunkKey) (contentNonce operation : Bytes)
    (cache : Residency H) (maxLen : ℕ) : ContentIngest H where
  space
  key
  contentNonce
  operation
  maxLen := min maxLen MAX_CONTENT_LEN
  cache
  buffer := Bytes.empty
  leaves := []
  plaintextLen := 0

/-- Seal what is buffered as the next chunk, and stage it. -/
def sealBuffered (self : ContentIngest H) : Except ContentInvalid (ContentIngest H) := do
  let index := self.leaves.length
  if MAX_CHUNK_COUNT ≤ index then throw .geometry
  let (leaf, ciphertext) ←
    sealChunk self.space self.key self.contentNonce (UInt32.ofNat index) self.buffer
  let cache ← refuseNone .chunkMismatch
    (self.cache.appendStaged self.operation (UInt32.ofNat index) 0 ciphertext)
  return { self with buffer := Bytes.empty, leaves := self.leaves ++ [leaf], cache }

/-- The loop of a push: fill the buffer, seal it when it is full.  Every turn takes at
least one byte, so the bytes themselves are fuel enough. -/
def feed (chunkLen : ℕ) :
    ℕ → ContentIngest H → List UInt8 → Except ContentInvalid (ContentIngest H)
  | _, self, [] => .ok self
  | 0, _, _ :: _ => .error .geometry
  | fuel + 1, self, bytes => do
      let room := chunkLen - self.buffer.length
      let take := min room bytes.length
      let self := { self with buffer := self.buffer ++ ⟨bytes.take take⟩ }
      if self.buffer.length = chunkLen then
        let self ← self.sealBuffered
        feed chunkLen fuel self (bytes.drop take)
      else feed chunkLen fuel self (bytes.drop take)

/-- Feed the next bytes. -/
def push (chunkLen : ℕ) (self : ContentIngest H) (bytes : Bytes) :
    Except ContentInvalid (ContentIngest H) :=
  let nextLen := self.plaintextLen + bytes.length
  if self.maxLen < nextLen then .error .geometry
  else feed chunkLen bytes.length { self with plaintextLen := nextLen } bytes.data

/-- File one staged chunk with its proof. -/
def fileChunk (self : ContentIngest H) (descriptor : ContentDescriptor)
    (state : Residency H × List H) (leaf : ChunkLeaf H) :
    Except ContentInvalid (Residency H × List H) := do
  let index := leaf.chunkIndex
  let ciphertext ← refuseNone .chunkMismatch (state.1.readStaged self.operation index)
  let staged ← ChunkLeaf.of index ciphertext
  if staged ≠ leaf then throw .chunkMismatch
  let proof ← refuseNone .proofMismatch (chunkProof self.leaves index)
  let entry := chunkSlot descriptor index
  let cache ← refuseNone .chunkMismatch
    (state.1.install self.operation self.contentNonce index entry ciphertext
      (Postcard.toStdvec proof))
  return (cache, state.2 ++ [entry])

/-- Close the ingest, first half: seal the tail.  An empty content has one empty chunk. -/
def sealTail (self : ContentIngest H) : Except ContentInvalid (ContentIngest H) :=
  if self.buffer.length ≠ 0 ∨ self.leaves = [] then self.sealBuffered else .ok self

/-- Close the ingest, second half: build the tree, install every chunk. -/
def fileAll (chunkLen : ℕ) (self : ContentIngest H) :
    Except ContentInvalid (IngestedContent H) := do
  let descriptor := descriptorOf chunkLen self.space self.key self.contentNonce self.plaintextLen
    self.leaves
  descriptor.validateAt chunkLen
  let filed ← self.leaves.foldlM (self.fileChunk descriptor) (self.cache, [])
  return { descriptor, contentRef := descriptor.contentRef, leases := filed.2,
           cache := filed.1.discardStaged self.operation }

/-- Close the ingest. -/
def finish (chunkLen : ℕ) (self : ContentIngest H) : Except ContentInvalid (IngestedContent H) := do
  let self ← self.sealTail
  self.fileAll chunkLen

/-- A whole ingest: begin, any pushes, finish. -/
def run (chunkLen : ℕ) (self : ContentIngest H) (pushes : List Bytes) :
    Except ContentInvalid (IngestedContent H) := do
  let self ← pushes.foldlM (push chunkLen) self
  self.finish chunkLen

end ContentIngest

end Content

/-! ## Slices of what has been fed -/

section Slices

variable {H : Type} [ContentDigests H] {chunkLen : ℕ} {space : SpaceId} {key : AuthorizedChunkKey}
  {contentNonce : Bytes}

/-- What is left over after the whole chunks is the next slice. -/
theorem chunkSlice_tail {fed : Bytes} {index : ℕ} (hstart : index * chunkLen ≤ fed.length)
    (htail : fed.length ≤ index * chunkLen + chunkLen) :
    chunkSlice chunkLen fed index = .ok ⟨fed.data.drop (index * chunkLen)⟩ := by
  have hstop : min (index * chunkLen + chunkLen) fed.length = fed.length := by omega
  simp only [chunkSlice, hstop, if_pos hstart]
  rw [List.take_of_length_le (by rw [List.length_drop]; exact le_rfl)]

/-- A whole chunk of a string is one of every longer string. -/
theorem chunkSlice_append {fed : Bytes} (more : Bytes) {index : ℕ}
    (h : index * chunkLen + chunkLen ≤ fed.length) :
    chunkSlice chunkLen (fed ++ more) index = chunkSlice chunkLen fed index := by
  have hlen : (fed ++ more).length = fed.length + more.length := Bytes.length_append fed more
  have hstop : min (index * chunkLen + chunkLen) fed.length = index * chunkLen + chunkLen := by
    omega
  have hstop' : min (index * chunkLen + chunkLen) (fed ++ more).length =
      index * chunkLen + chunkLen := by
    omega
  have hstart : index * chunkLen ≤ fed.data.length := by
    show index * chunkLen ≤ fed.length
    omega
  simp only [chunkSlice, hstop, hstop', Bytes.data_append]
  rw [List.drop_append_of_le_length hstart, List.take_append_of_le_length]
  rw [List.length_drop]
  show _ ≤ fed.length - _
  omega

theorem sealSlice_append {fed : Bytes} (more : Bytes) {index : ℕ}
    (h : index * chunkLen + chunkLen ≤ fed.length) :
    sealSlice (H := H) chunkLen space key contentNonce (fed ++ more) index =
      sealSlice chunkLen space key contentNonce fed index := by
  rw [sealSlice, sealSlice, chunkSlice_append more h]

/-- The sealings of the first chunks of a string. -/
def sealUpTo (H : Type) [ContentDigests H] (chunkLen : ℕ) (space : SpaceId)
    (key : AuthorizedChunkKey) (contentNonce : Bytes) (plaintext : Bytes) (count : ℕ) :
    Except ContentInvalid (List (ChunkLeaf H × Bytes)) :=
  (List.range count).mapM (sealSlice chunkLen space key contentNonce plaintext)

theorem sealUpTo_append {fed : Bytes} (more : Bytes) {count : ℕ}
    (h : count * chunkLen ≤ fed.length) :
    sealUpTo H chunkLen space key contentNonce (fed ++ more) count =
      sealUpTo H chunkLen space key contentNonce fed count := by
  refine mapM_congr fun index hindex => sealSlice_append (H := H) more ?_
  have hle := Nat.mul_le_mul_right chunkLen (Nat.succ_le_of_lt (List.mem_range.mp hindex))
  rw [Nat.succ_mul] at hle
  omega

/-- One chunk more. -/
theorem sealUpTo_succ {plaintext : Bytes} {count : ℕ} {chunks : List (ChunkLeaf H × Bytes)}
    (h : sealUpTo H chunkLen space key contentNonce plaintext count = .ok chunks) :
    sealUpTo H chunkLen space key contentNonce plaintext (count + 1) =
      (sealSlice chunkLen space key contentNonce plaintext count).map fun chunk =>
        chunks ++ [chunk] := by
  rw [sealUpTo, List.range_succ, List.mapM_append]
  show (sealUpTo H chunkLen space key contentNonce plaintext count >>= _) = _
  rw [h, List.mapM_cons, List.mapM_nil]
  cases sealSlice (H := H) chunkLen space key contentNonce plaintext count with
  | error refusal => rfl
  | ok chunk => rfl

/-- The first failure is the failure of the whole. -/
theorem sealUpTo_error {plaintext : Bytes} {count total : ℕ} {refusal : ContentInvalid}
    (h : sealUpTo H chunkLen space key contentNonce plaintext count = .error refusal)
    (hle : count ≤ total) :
    sealUpTo H chunkLen space key contentNonce plaintext total = .error refusal := by
  obtain ⟨more, rfl⟩ := Nat.exists_eq_add_of_le hle
  rw [sealUpTo, List.range_add, List.mapM_append]
  show (sealUpTo H chunkLen space key contentNonce plaintext count >>= _) = _
  rw [h]
  rfl

theorem of_chunkIndex {index : UInt32} {ciphertext : Bytes} {leaf : ChunkLeaf H}
    (h : ChunkLeaf.of index ciphertext = .ok leaf) : leaf.chunkIndex = index := by
  unfold ChunkLeaf.of at h
  split at h
  · rw [← Except.ok.inj h]
  · cases h

/-- A sealed chunk is the leaf of its ciphertext. -/
theorem sealSlice_leaf {plaintext : Bytes} {index : ℕ} {chunk : ChunkLeaf H × Bytes}
    (h : sealSlice chunkLen space key contentNonce plaintext index = .ok chunk) :
    ChunkLeaf.of (UInt32.ofNat index) chunk.2 = .ok chunk.1 := by
  obtain ⟨slice, -, hchunk⟩ := bind_eq_ok.mp h
  obtain ⟨ciphertext, -, hleaf⟩ := bind_eq_ok.mp hchunk
  obtain ⟨leaf, hof, hpure⟩ := bind_eq_ok.mp hleaf
  obtain rfl := Except.ok.inj hpure
  exact hof

theorem length_sealUpTo {plaintext : Bytes} {count : ℕ} {chunks : List (ChunkLeaf H × Bytes)}
    (h : sealUpTo H chunkLen space key contentNonce plaintext count = .ok chunks) :
    chunks.length = count := by
  rw [← (mapM_eq_ok_iff.mp h).length_eq, List.length_range]

/-- Each of the sealed chunks is the leaf of its ciphertext, at its index. -/
theorem sealUpTo_leaf {plaintext : Bytes} {count : ℕ} {chunks : List (ChunkLeaf H × Bytes)}
    (h : sealUpTo H chunkLen space key contentNonce plaintext count = .ok chunks) {i : ℕ}
    {chunk : ChunkLeaf H × Bytes} (hchunk : chunks[i]? = some chunk) :
    ChunkLeaf.of (UInt32.ofNat i) chunk.2 = .ok chunk.1 := by
  obtain ⟨hlt, rfl⟩ := List.getElem?_eq_some_iff.mp hchunk
  have hcount := length_sealUpTo h
  have hall := List.forall₂_iff_get.mp (mapM_eq_ok_iff.mp h)
  have hat := hall.2 i (by rw [List.length_range, ← hcount]; exact hlt) hlt
  simp only [List.get_eq_getElem, List.getElem_range] at hat
  exact sealSlice_leaf hat

/-- Sealed chunks carry their positions. -/
theorem sealUpTo_positional {plaintext : Bytes} {count : ℕ} {chunks : List (ChunkLeaf H × Bytes)}
    (h : sealUpTo H chunkLen space key contentNonce plaintext count = .ok chunks)
    (hcount : count ≤ MAX_CHUNK_COUNT) : Positional (chunks.map Prod.fst) := by
  intro i leaf hleaf
  rw [List.getElem?_map, Option.map_eq_some_iff] at hleaf
  obtain ⟨chunk, hchunk, rfl⟩ := hleaf
  have hlt : i < chunks.length := (List.getElem?_eq_some_iff.mp hchunk).1
  rw [length_sealUpTo h] at hlt
  rw [of_chunkIndex (sealUpTo_leaf h hchunk)]
  unfold MAX_CHUNK_COUNT at hcount
  exact UInt32.toNat_ofNat_of_lt' (by rw [UInt32.size]; omega)

end Slices

/-! ## A cache that works -/

namespace Residency

variable {H : Type}

/-- A cache whose calls all succeed and that has staged nothing for the operation. -/
structure Ready (cache : Residency H) (operation : Bytes) : Prop where
  succeeds : ∀ call, cache.fails call = false
  fresh : ∀ part : ℕ, cache.staged[toLex (operation, part)]? = none

/-- What an append leaves: the slot was empty before it. -/
theorem appendStaged_eq_some {self cache : Residency H} {operation bytes : Bytes}
    {part : UInt32} (h : self.appendStaged operation part 0 bytes = some cache) :
    cache = { self with staged := self.staged.insert (toLex (operation, part.toNat)) bytes } := by
  simp only [appendStaged] at h
  split at h
  case isTrue => cases h
  case isFalse hlen =>
      split at h
      case isTrue => cases h
      case isFalse =>
          have hempty : (self.staged[toLex (operation, part.toNat)]?).getD Bytes.empty =
              Bytes.empty := by
            refine Bytes.ext (List.length_eq_zero_iff.mp ?_)
            exact (not_not.mp hlen).symm
          rw [← Option.some.inj h, hempty]
          rfl

theorem appendStaged_isSome {self : Residency H} {operation bytes : Bytes}
    {part : UInt32} (hfails : ∀ call, self.fails call = false)
    (hempty : self.staged[toLex (operation, part.toNat)]? = none) :
    ∃ cache, self.appendStaged operation part 0 bytes = some cache := by
  simp only [appendStaged, hempty, hfails]
  exact ⟨_, rfl⟩

/-- What an install leaves. -/
theorem install_eq_some {self cache : Residency H}
    {operation contentNonce ciphertext sidecar : Bytes} {part : UInt32} {entry : H}
    (h : self.install operation contentNonce part entry ciphertext sidecar = some cache) :
    cache.staged = self.staged ∧ cache.entries = self.entries ++ [(entry, ciphertext, sidecar)] ∧
      cache.fails = self.fails := by
  unfold install at h
  split at h
  · cases h
  · split at h
    · cases h
    · split at h
      · cases h
      · rw [← Option.some.inj h]
        exact ⟨rfl, rfl, rfl⟩

theorem install_isSome {self : Residency H}
    {operation contentNonce ciphertext sidecar : Bytes} {part : UInt32} {entry : H}
    (hfails : ∀ call, self.fails call = false) :
    ∃ cache, self.install operation contentNonce part entry ciphertext sidecar = some cache := by
  unfold install
  rw [if_neg (by simp [hfails]), if_neg (by simp [hfails]), if_neg (by simp [hfails])]
  exact ⟨_, rfl⟩

end Residency

/-! ## Streaming is slicing -/

section Streaming

variable {H : Type} [ContentDigests H] {chunkLen : ℕ}

/-- The request's own sealings. -/
def IngestRequest.sealed (H : Type) [ContentDigests H] (request : IngestRequest) (chunkLen : ℕ)
    (plaintext : Bytes) (count : ℕ) : Except ContentInvalid (List (ChunkLeaf H × Bytes)) :=
  sealUpTo H chunkLen request.space request.key request.contentNonce plaintext count

/-- **After some pushes**: the leaves are the sealings of the first chunks of what was
fed, their ciphertexts are staged, and the buffer is the rest. -/
structure Fed (chunkLen : ℕ) (start : ContentIngest H) (fed : Bytes)
    (chunks : List (ChunkLeaf H × Bytes)) (now : ContentIngest H) : Prop where
  request : now.toIngestRequest = start.toIngestRequest
  leaves : now.leaves = chunks.map Prod.fst
  buffer : now.buffer = ⟨fed.data.drop (chunks.length * chunkLen)⟩
  sealed : start.sealed H chunkLen fed chunks.length = .ok chunks
  count : chunks.length ≤ MAX_CHUNK_COUNT
  staged : ∀ (i : ℕ) (chunk : ChunkLeaf H × Bytes), chunks[i]? = some chunk →
    now.cache.staged[toLex (start.operation, i)]? = some chunk.2
  untouched : ∀ i : ℕ, chunks.length ≤ i → now.cache.staged[toLex (start.operation, i)]? =
    start.cache.staged[toLex (start.operation, i)]?
  entries : now.cache.entries = start.cache.entries
  leases : now.cache.leases = start.cache.leases
  fails : now.cache.fails = start.cache.fails

namespace ContentIngest

variable {start self self' : ContentIngest H} {fed : Bytes} {chunks : List (ChunkLeaf H × Bytes)}

/-- `sealBuffered` as its two steps. -/
theorem sealBuffered_eq (self : ContentIngest H) : self.sealBuffered =
    if MAX_CHUNK_COUNT ≤ self.leaves.length then .error .geometry
    else
      sealChunk self.space self.key self.contentNonce (UInt32.ofNat self.leaves.length)
          self.buffer >>= fun chunk =>
        refuseNone .chunkMismatch (self.cache.appendStaged self.operation
            (UInt32.ofNat self.leaves.length) 0 chunk.2) >>= fun cache =>
          .ok { self with buffer := Bytes.empty, leaves := self.leaves ++ [chunk.1], cache } := by
  simp only [sealBuffered]
  split
  · rfl
  · rfl

theorem fed_start (space : SpaceId) (key : AuthorizedChunkKey) (contentNonce operation : Bytes)
    (cache : Residency H) (maxLen : ℕ) :
    Fed chunkLen (begin_ space key contentNonce operation cache maxLen) Bytes.empty []
      (begin_ space key contentNonce operation cache maxLen) where
  request := rfl
  leaves := rfl
  buffer := by
    rw [List.length_nil, Nat.zero_mul]
    rfl
  sealed := rfl
  count := Nat.zero_le _
  staged i chunk h := by cases h
  untouched _ _ := rfl
  entries := rfl
  leases := rfl
  fails := rfl

/-- Bytes that are buffered extend what was fed. -/
theorem fed_extend (h : Fed chunkLen start fed chunks self)
    (hcovered : chunks.length * chunkLen ≤ fed.length) (more : Bytes) :
    Fed chunkLen start (fed ++ more) chunks { self with buffer := self.buffer ++ more } := by
  refine { h with buffer := ?_, sealed := ?_ }
  · show self.buffer ++ more = _
    rw [h.buffer, Bytes.data_append, List.drop_append_of_le_length hcovered]
    rfl
  · rw [← h.sealed]
    exact sealUpTo_append more hcovered

/-- What sealing the buffer tries: the next chunk of what was fed. -/
theorem sealChunk_buffer (h : Fed chunkLen start fed chunks self)
    (hcovered : chunks.length * chunkLen ≤ fed.length) (hshort : self.buffer.length ≤ chunkLen) :
    sealChunk self.space self.key self.contentNonce (UInt32.ofNat self.leaves.length) self.buffer =
      sealSlice (H := H) chunkLen start.space start.key start.contentNonce fed chunks.length := by
  have htail : fed.length ≤ chunks.length * chunkLen + chunkLen := by
    rw [h.buffer] at hshort
    have hlen : fed.data.length - chunks.length * chunkLen ≤ chunkLen := by
      simpa [Bytes.length] using hshort
    show fed.data.length ≤ _
    omega
  have hspace : self.space = start.space := congrArg IngestRequest.space h.request
  have hkey : self.key = start.key := congrArg IngestRequest.key h.request
  have hnonce : self.contentNonce = start.contentNonce :=
    congrArg IngestRequest.contentNonce h.request
  rw [sealSlice, chunkSlice_tail hcovered htail, h.leaves, List.length_map, h.buffer, hspace, hkey,
    hnonce]
  rfl

/-- **Sealing the buffer** seals the next chunk of what was fed. -/
theorem sealBuffered_ok (h : Fed chunkLen start fed chunks self)
    (hcovered : chunks.length * chunkLen ≤ fed.length) (hshort : self.buffer.length ≤ chunkLen)
    (hseal : self.sealBuffered = .ok self') :
    ∃ chunk, Fed chunkLen start fed (chunks ++ [chunk]) self' ∧
      self'.plaintextLen = self.plaintextLen := by
  have hindex : ¬ MAX_CHUNK_COUNT ≤ self.leaves.length := by
    intro hindex
    rw [sealBuffered_eq, if_pos hindex] at hseal
    cases hseal
  rw [sealBuffered_eq, if_neg hindex] at hseal
  obtain ⟨⟨leaf, ciphertext⟩, hchunk, hrest⟩ := bind_eq_ok.mp hseal
  obtain ⟨cache, hcache, hself⟩ := bind_eq_ok.mp hrest
  have hcache := Residency.appendStaged_eq_some (refuseNone_eq_ok.mp hcache)
  have hoperation : self.operation = start.operation := congrArg IngestRequest.operation h.request
  rw [sealChunk_buffer h hcovered hshort] at hchunk
  rw [not_le, h.leaves, List.length_map] at hindex
  have hplace : (UInt32.ofNat self.leaves.length).toNat = chunks.length := by
    rw [h.leaves, List.length_map]
    unfold MAX_CHUNK_COUNT at hindex
    exact UInt32.toNat_ofNat_of_lt' (by rw [UInt32.size]; omega)
  rw [hplace, hoperation] at hcache
  obtain rfl := Except.ok.inj hself
  refine ⟨(leaf, ciphertext), ?_, rfl⟩
  have hnext : ∀ i, (toLex (start.operation, chunks.length) = toLex (start.operation, i)) ↔
      chunks.length = i := by
    intro i
    rw [toLex_inj, Prod.mk.injEq]
    simp
  refine ⟨h.request, ?_, ?_, ?_, ?_, ?_, ?_, ?_, ?_, ?_⟩
  · rw [List.map_append, ← h.leaves]
    rfl
  · -- nothing is left over after a chunk that takes in the whole buffer
    rw [h.buffer] at hshort
    have hlen : fed.data.length - chunks.length * chunkLen ≤ chunkLen := by
      simpa [Bytes.length] using hshort
    rw [List.length_append, List.length_singleton, Nat.succ_mul,
      List.drop_eq_nil_of_le (by omega)]
    rfl
  · rw [List.length_append, List.length_singleton]
    refine (sealUpTo_succ h.sealed).trans ?_
    rw [hchunk]
    rfl
  · rw [List.length_append, List.length_singleton]
    exact hindex
  · intro i chunk hget
    rw [hcache, BTreeMap.get_insert]
    by_cases hi : i < chunks.length
    · rw [List.getElem?_append_left hi] at hget
      rw [if_neg (by rw [hnext]; omega)]
      exact h.staged i chunk hget
    · rw [List.getElem?_append_right (by omega)] at hget
      obtain ⟨hzero, rfl⟩ : i - chunks.length = 0 ∧ (leaf, ciphertext) = chunk := by
        rw [List.getElem?_singleton] at hget
        split at hget
        · exact ⟨‹_›, Option.some.inj hget⟩
        · cases hget
      rw [if_pos (by rw [hnext]; omega)]
  · intro i hi
    rw [List.length_append, List.length_singleton] at hi
    rw [hcache, BTreeMap.get_insert, if_neg (by rw [hnext]; omega)]
    exact h.untouched i (by omega)
  · rw [hcache]
    exact h.entries
  · rw [hcache]
    exact h.leases
  · rw [hcache]
    exact h.fails

/-- With a ready cache and a chunk to spare, only the sealing itself can fail. -/
theorem sealBuffered_error (h : Fed chunkLen start fed chunks self)
    (hcovered : chunks.length * chunkLen ≤ fed.length) (hshort : self.buffer.length ≤ chunkLen)
    (hready : start.cache.Ready start.operation) (hcount : chunks.length < MAX_CHUNK_COUNT)
    {refusal : ContentInvalid} (hseal : self.sealBuffered = .error refusal) :
    start.sealed H chunkLen fed (chunks.length + 1) = .error refusal := by
  refine (sealUpTo_succ h.sealed).trans ?_
  have hlength : self.leaves.length = chunks.length := by rw [h.leaves, List.length_map]
  rw [← sealChunk_buffer h hcovered hshort]
  rw [sealBuffered_eq, if_neg (by omega)] at hseal
  rcases bind_eq_error.mp hseal with hchunk | ⟨⟨leaf, ciphertext⟩, hchunk, hrest⟩
  · rw [hchunk]
    rfl
  · -- the append cannot fail: nothing fails, and the slot is fresh
    exfalso
    have hoperation : self.operation = start.operation :=
      congrArg IngestRequest.operation h.request
    have hplace : (UInt32.ofNat self.leaves.length).toNat = chunks.length := by
      rw [h.leaves, List.length_map]
      unfold MAX_CHUNK_COUNT at hcount
      exact UInt32.toNat_ofNat_of_lt' (by rw [UInt32.size]; omega)
    obtain ⟨cache, hcache⟩ := @Residency.appendStaged_isSome _ self.cache self.operation ciphertext
      (UInt32.ofNat self.leaves.length) (fun call => by rw [h.fails]; exact hready.succeeds call)
      (by rw [hplace, hoperation, h.untouched _ le_rfl]; exact hready.fresh _)
    rcases bind_eq_error.mp hrest with happend | ⟨_, _, hpure⟩
    · rw [hcache] at happend
      cases happend
    · cases hpure

/-- Whole chunks are sealed and less than one is buffered. -/
structure Between (chunkLen : ℕ) (start : ContentIngest H) (fed : Bytes)
    (chunks : List (ChunkLeaf H × Bytes)) (now : ContentIngest H) : Prop extends
    Fed chunkLen start fed chunks now where
  covered : chunks.length * chunkLen ≤ fed.length
  short : now.buffer.length < chunkLen

/-- How many bytes the buffer holds. -/
theorem length_buffer (h : Fed chunkLen start fed chunks self) :
    self.buffer.length = fed.length - chunks.length * chunkLen := by
  rw [h.buffer]
  exact List.length_drop

/-- One turn of the loop: the bytes that fit, buffered. -/
theorem feed_succ (fuel : ℕ) (self : ContentIngest H) {bytes : List UInt8} (h : bytes ≠ []) :
    feed chunkLen (fuel + 1) self bytes =
      let take := min (chunkLen - self.buffer.length) bytes.length
      let next := { self with buffer := self.buffer ++ ⟨bytes.take take⟩ }
      if next.buffer.length = chunkLen then
        next.sealBuffered >>= fun next => feed chunkLen fuel next (bytes.drop take)
      else feed chunkLen fuel next (bytes.drop take) := by
  cases bytes with
  | nil => exact absurd rfl h
  | cons b bytes => rfl

/-- Sealing a full buffer comes out between chunks again. -/
theorem between_of_full (h : Fed chunkLen start fed chunks self)
    (hcovered : chunks.length * chunkLen ≤ fed.length) (hfull : self.buffer.length = chunkLen)
    (hpos : 0 < chunkLen) (hseal : self.sealBuffered = .ok self') :
    ∃ chunk, Between chunkLen start fed (chunks ++ [chunk]) self' ∧
      self'.plaintextLen = self.plaintextLen := by
  obtain ⟨chunk, hchunk, hplain⟩ := sealBuffered_ok h hcovered hfull.le hseal
  have hbuffer := length_buffer h
  have hempty := length_buffer hchunk
  rw [List.length_append, List.length_singleton, Nat.succ_mul] at hempty
  refine ⟨chunk, ⟨hchunk, ?_, by omega⟩, hplain⟩
  rw [List.length_append, List.length_singleton, Nat.succ_mul]
  omega

/-- **The loop of a push** ends between chunks, or at the first chunk whose sealing
fails. -/
theorem feed_spec (fuel : ℕ) {bytes : List UInt8} (h : Between chunkLen start fed chunks self)
    (hfuel : bytes.length ≤ fuel) :
    (∀ self', feed chunkLen fuel self bytes = .ok self' →
      ∃ chunks', Between chunkLen start (fed ++ ⟨bytes⟩) chunks' self' ∧
        self'.plaintextLen = self.plaintextLen) ∧
    (start.cache.Ready start.operation →
      (fed ++ ⟨bytes⟩).length ≤ MAX_CHUNK_COUNT * chunkLen → ∀ refusal,
        feed chunkLen fuel self bytes = .error refusal →
        ∃ count, count * chunkLen ≤ (fed ++ ⟨bytes⟩).length ∧
          start.sealed H chunkLen (fed ++ ⟨bytes⟩) count = .error refusal) := by
  induction fuel generalizing self fed chunks bytes with
  | zero =>
      obtain rfl : bytes = [] := List.length_eq_zero_iff.mp (by omega)
      have hfed : fed ++ ⟨[]⟩ = fed := Bytes.ext (List.append_nil _)
      rw [hfed]
      refine ⟨fun self' hself => ?_, fun _ _ refusal herror => by cases herror⟩
      obtain rfl := Except.ok.inj hself
      exact ⟨chunks, h, rfl⟩
  | succ fuel ih =>
      by_cases hbytes : bytes = []
      · subst hbytes
        have hfed : fed ++ ⟨[]⟩ = fed := Bytes.ext (List.append_nil _)
        rw [hfed]
        refine ⟨fun self' hself => ?_, fun _ _ refusal herror => by cases herror⟩
        obtain rfl := Except.ok.inj hself
        exact ⟨chunks, h, rfl⟩
      have hpos : 0 < bytes.length := List.length_pos_of_ne_nil hbytes
      have hshort := h.short
      have hbuffer := length_buffer h.toFed
      have hcovered := h.covered
      rw [feed_succ fuel self hbytes]
      simp only
      generalize htake : min (chunkLen - self.buffer.length) bytes.length = take
      -- What is fed in this turn and what is left for the next ones.
      have htaken : (bytes.take take).length = take := by
        rw [List.length_take]
        omega
      have hsplit : fed ++ ⟨bytes⟩ = (fed ++ ⟨bytes.take take⟩) ++ ⟨bytes.drop take⟩ := by
        refine Bytes.ext ?_
        simp only [Bytes.data_append, List.append_assoc, List.take_append_drop]
      have hrest : (bytes.drop take).length ≤ fuel := by
        rw [List.length_drop]
        omega
      have hfed : (fed ++ ⟨bytes.take take⟩).length = fed.length + take := by
        rw [Bytes.length_append]
        exact congrArg (fed.length + ·) htaken
      have hnext := fed_extend h.toFed hcovered ⟨bytes.take take⟩
      have hlength : (self.buffer ++ ⟨bytes.take take⟩).length = self.buffer.length + take := by
        rw [Bytes.length_append]
        exact congrArg (self.buffer.length + ·) htaken
      rw [hsplit]
      split
      case isFalse hpartial =>
          rw [hlength] at hpartial
          exact ih ⟨hnext, by omega, by show (self.buffer ++ _).length < _; omega⟩ hrest
      case isTrue hfull =>
          have hfull' : self.buffer.length + take = chunkLen := by rw [← hlength, hfull]
          constructor
          · intro self' hself
            obtain ⟨sealed, hsealed, hfeed⟩ := bind_eq_ok.mp hself
            obtain ⟨chunk, hbetween, hplain⟩ :=
              between_of_full hnext (by omega) hfull (by omega) hsealed
            obtain ⟨chunks', hdone, hplain'⟩ := (ih hbetween hrest).1 self' hfeed
            exact ⟨chunks', hdone, hplain'.trans hplain⟩
          · intro hready hlimit refusal herror
            have htotal := Bytes.length_append (fed ++ ⟨bytes.take take⟩) ⟨bytes.drop take⟩
            have hcount : chunks.length < MAX_CHUNK_COUNT := by
              refine Nat.lt_of_mul_lt_mul_right (a := chunkLen) ?_
              omega
            rcases bind_eq_error.mp herror with hseal | ⟨sealed, hsealed, hfeed⟩
            · have hfirst := sealBuffered_error hnext (by omega) (by rw [hfull]) hready hcount hseal
              have hwhole : (chunks.length + 1) * chunkLen ≤
                  (fed ++ ⟨bytes.take take⟩).length := by
                rw [Nat.succ_mul]
                omega
              refine ⟨chunks.length + 1, by omega, ?_⟩
              rw [IngestRequest.sealed, sealUpTo_append _ hwhole]
              exact hfirst
            · obtain ⟨chunk, hbetween, -⟩ :=
                between_of_full hnext (by omega) hfull (by omega) hsealed
              exact (ih hbetween hrest).2 hready hlimit refusal hfeed

/-- An ingest between pushes has counted what it was fed, within its limit. -/
structure Pushed (chunkLen : ℕ) (start : ContentIngest H) (fed : Bytes)
    (chunks : List (ChunkLeaf H × Bytes)) (now : ContentIngest H) : Prop extends
    Between chunkLen start fed chunks now where
  counted : now.plaintextLen = fed.length
  limit : fed.length ≤ now.maxLen

/-- One push. -/
theorem push_spec {bytes : Bytes} (h : Pushed chunkLen start fed chunks self) :
    (∀ self', self.push chunkLen bytes = .ok self' →
      ∃ chunks', Pushed chunkLen start (fed ++ bytes) chunks' self') ∧
    (start.cache.Ready start.operation → (fed ++ bytes).length ≤ start.maxLen →
      (fed ++ bytes).length ≤ MAX_CHUNK_COUNT * chunkLen → ∀ refusal,
        self.push chunkLen bytes = .error refusal →
        ∃ count, count * chunkLen ≤ (fed ++ bytes).length ∧
          start.sealed H chunkLen (fed ++ bytes) count = .error refusal) := by
  have hlen := Bytes.length_append fed bytes
  have hmax : self.maxLen = start.maxLen := congrArg IngestRequest.maxLen h.request
  have hnow : Between chunkLen start fed chunks
      { self with plaintextLen := self.plaintextLen + bytes.length } :=
    ⟨⟨h.request, h.leaves, h.buffer, h.sealed, h.count, h.staged, h.untouched, h.entries, h.leases,
      h.fails⟩, h.covered, h.short⟩
  obtain ⟨hok, herror⟩ := @feed_spec _ _ _ _ _ _ _ bytes.length bytes.data hnow le_rfl
  constructor
  · intro self' hself
    unfold push at hself
    simp only at hself
    split at hself
    case isTrue => cases hself
    case isFalse hlimit =>
        obtain ⟨chunks', hbetween, hplain⟩ := hok self' hself
        have hmax' : self'.maxLen = start.maxLen := congrArg IngestRequest.maxLen hbetween.request
        rw [h.counted] at hlimit
        refine ⟨chunks', ⟨hbetween, ?_, by omega⟩⟩
        rw [hplain, h.counted]
        exact hlen.symm
  · intro hready hlimit hcount refusal hself
    unfold push at hself
    simp only at hself
    split at hself
    case isTrue hover =>
        rw [h.counted] at hover
        omega
    case isFalse => exact herror hready hcount refusal hself

/-- **Any pushes**, however the bytes were split. -/
theorem pushes_spec (pushes : List Bytes) (h : Pushed chunkLen start fed chunks self) :
    (∀ self', pushes.foldlM (push chunkLen) self = .ok self' →
      ∃ chunks', Pushed chunkLen start (fed ++ Bytes.join pushes) chunks' self') ∧
    (start.cache.Ready start.operation → (fed ++ Bytes.join pushes).length ≤ start.maxLen →
      (fed ++ Bytes.join pushes).length ≤ MAX_CHUNK_COUNT * chunkLen → ∀ refusal,
        pushes.foldlM (push chunkLen) self = .error refusal →
        ∃ count, count * chunkLen ≤ (fed ++ Bytes.join pushes).length ∧
          start.sealed H chunkLen (fed ++ Bytes.join pushes) count = .error refusal) := by
  induction pushes generalizing fed chunks self with
  | nil =>
      have hfed : fed ++ Bytes.join [] = fed := Bytes.ext (List.append_nil _)
      rw [hfed]
      refine ⟨fun self' hself => ?_, fun _ _ _ refusal herror => by cases herror⟩
      obtain rfl := Except.ok.inj hself
      exact ⟨chunks, h⟩
  | cons bytes pushes ih =>
      have hsplit : fed ++ Bytes.join (bytes :: pushes) = (fed ++ bytes) ++ Bytes.join pushes := by
        refine Bytes.ext ?_
        simp only [Bytes.join_cons, Bytes.data_append, List.append_assoc]
      have htotal := Bytes.length_append (fed ++ bytes) (Bytes.join pushes)
      rw [hsplit]
      obtain ⟨hok, herror⟩ := @push_spec _ _ _ _ _ _ _ bytes h
      constructor
      · intro self' hself
        obtain ⟨next, hpush, hrest⟩ := foldlM_cons_eq_ok.mp hself
        obtain ⟨chunks', hnext⟩ := hok next hpush
        exact (ih hnext).1 self' hrest
      · intro hready hlimit hcount refusal hself
        rw [List.foldlM_cons] at hself
        rcases bind_eq_error.mp hself with hpush | ⟨next, hpush, hrest⟩
        · obtain ⟨count, hle, hseal⟩ := herror hready (by omega) (by omega) refusal hpush
          refine ⟨count, by omega, ?_⟩
          rw [IngestRequest.sealed, sealUpTo_append _ hle]
          exact hseal
        · obtain ⟨chunks', hnext⟩ := hok next hpush
          exact (ih hnext).2 hready hlimit hcount refusal hrest

end ContentIngest

end Streaming

end Lait.Replica
