import Lait.Replica.Action
import Lait.Replica.Encodings

/-!
# A computable document engine

Results about the Replica are proved for every document engine, cipher and
operation encoding.  These are small instances that evaluate.  A document is the
list of the operations it holds, one writer's operations being ordered by their
sequence: importing joins two lists, a version is the last operation of every
writer, and an edit appends one.
-/

namespace Lait.Replica

open Wire

/-- The operations of a document. -/
abbrev OpLog := List OpHead

namespace OpLog

def wire : Wire OpLog := list Encodings.opHead

/-- Join the operations of another document in. -/
def join (doc ops : OpLog) : OpLog := doc ++ ops.filter (· ∉ doc)

/-- The last operation of every writer. -/
def frontiers (doc : OpLog) : List OpHead :=
  doc.filter fun h => ¬ doc.any fun h' => h'.writer = h.writer && h.sequence < h'.sequence

/-- Whether a version covers an operation. -/
def covers (version : List OpHead) (h : OpHead) : Bool :=
  version.any fun h' => h'.writer = h.writer && h.sequence ≤ h'.sequence

end OpLog

/-- Documents as lists of operations. -/
@[reducible] def opLogLoro : Loro where
  Doc := OpLog
  VersionVector := List OpHead
  new := []
  importBytes doc b :=
    match OpLog.wire.postcard.fromBytes b with
    | some ops => .ok (doc.join ops, false)
    | none => .error .other
  oplogFrontiers := OpLog.frontiers
  encodeFrontiers heads := OpLog.wire.postcard.toStdvec heads
  frontiersToVv doc heads := if heads.all (· ∈ doc) then some heads else none
  includesVv version version' := version'.all (OpLog.covers version)
  exportSnapshot doc := some (OpLog.wire.postcard.toStdvec doc)
  exportUpdates doc version :=
    some (OpLog.wire.postcard.toStdvec (doc.filter fun h => ¬ OpLog.covers version h))
  revertTo doc _ := some doc

/-- One kind of edit: append an operation. -/
@[reducible] def opLogAlgebra : @Algebra opLogLoro :=
  let _ := opLogLoro
  { Edit := Unit
    View := OpLog
    validPath := fun _ => true
    withinLimits := fun _ => true
    edit := fun writer (doc : OpLog) _ => .ok (doc ++ [⟨writer, doc.length⟩])
    project := fun doc => some doc }

/-- The wire encoding of one staged operation. -/
def opLogOp : @Wire (BodyKey × @Op opLogLoro opLogAlgebra) :=
  let _ := opLogLoro
  let _ := opLogAlgebra
  pair Encodings.bodyKey
    (iso (sum bytes (sum unit (sum unit unit)))
      (fun
        | .replaceAtomic value => .inl value
        | .create => .inr (.inl ())
        | .tombstone => .inr (.inr (.inl ()))
        | .edit _ => .inr (.inr (.inr ())))
      (fun
        | .inl value => .replaceAtomic value
        | .inr (.inl ()) => .create
        | .inr (.inr (.inl ())) => .tombstone
        | .inr (.inr (.inr ())) => .edit ())
      (fun op => by cases op <;> rfl))

@[reducible] def opLogCodec : @OpCodec opLogLoro opLogAlgebra :=
  let _ := opLogLoro
  let _ := opLogAlgebra
  { op := opLogOp.postcard }

/-- A cipher that prepends what it is keyed by. -/
@[reducible] def plainAead : Aead where
  encrypt key nonce plaintext := key ++ nonce ++ plaintext
  decrypt key nonce ciphertext :=
    let header := key ++ nonce
    if header.data.isPrefixOf ciphertext.data then
      some ⟨ciphertext.data.drop header.length⟩
    else none

/-- A receipt weighs its encoding. -/
@[reducible] def wireReceiptMemory : ReceiptMemory :=
  let _ := wireReceiptCodecs
  { retainedBytes := fun cache =>
      ((BTreeMap.valuesOf cache.entries).map fun r => r.encode.length).sum }

/-! ## A small Space -/

/-- Whom the samples are signed for: a signer that prepends its key. -/
def sampleContext : CommitContext where
  space := Bytes.ofString "ws_00000000000000000000000000"
  signer := ⟨⟨[1]⟩, fun preimage => ⟨[1]⟩ ++ preimage⟩
  authorityFrontier := ⟨[7]⟩

/-- An operation that draws nothing, on a medium with the given answer. -/
def sampleAmbient (outcome : CommitOutcome) : Ambient where
  nonce _ := none
  chainSeed := none
  ready _ := false
  permit _ := none
  outcome := outcome

/-- An empty content under a one-byte nonce. -/
def sampleContent (nonce : UInt8) : ContentDescriptor where
  formatVersion := CONTENT_FORMAT_VERSION
  space := sampleContext.space
  contentNonce := ⟨[nonce]⟩
  plaintextLen := 0
  chunkPlaintextLen := CHUNK_PLAINTEXT_LEN
  chunkCount := 1
  ciphertextMerkleRoot := ⟨[3]⟩
  epoch := ⟨[4]⟩

/-- A Replica opened over an empty store. -/
def sampleReplica : @Replica opLogLoro :=
  let _ := opLogLoro
  { Replica.new 0 with
    fabric := (Engine.new 0).useExternalCollaborativeImages
    durable := some Store.empty }

/-! ### A written Body -/

/-- A polynomial in the bytes. -/
def checksum (n : ℕ) : List UInt8 → ℕ
  | [] => n
  | b :: bytes => checksum ((n * 31 + b.toNat) % 4294967291) bytes

/-- Primitives with short digests, so that objects naming objects stay small.  They
are no better than a checksum. -/
@[reducible] def checksumCrypto : Crypto where
  blake3 input := Bytes.be32 (checksum 7 input.data)
  deriveKey _ input := Bytes.be32 (checksum 9 input.data)
  verifyingKey _ := true
  signature _ := true
  verifyStrict key payload sig := sig = key ++ payload
  publicKey seed := seed
  sign seed payload := seed ++ payload

/-- The one Body of the samples. -/
def sampleKey : BodyKey := ⟨⟨[119]⟩, ⟨[9]⟩⟩

/-- A key source of one epoch. -/
def sampleKeys : BodyKeySource :=
  let key : AuthorizedBodyKey := ⟨⟨List.replicate 16 5⟩, ⟨List.replicate 16 6⟩⟩
  ⟨some key, fun _ => some key⟩

/-- Write one byte to the sample Body. -/
def sampleRequest : @ActionRequest opLogLoro opLogAlgebra :=
  let _ := opLogLoro
  let _ := opLogAlgebra
  { ctx := sampleContext
    actor := ActorId.PREFIX ++ ⟨List.replicate 64 48⟩
    parentManifestRoot := NO_PARENT_ROOT
    demand := Bytes.empty
    intentDigest := Bytes.empty
    authorize := fun _ => .ok Bytes.empty
    implementationDigest := Bytes.empty
    extractorSchemaDigest := Bytes.empty
    world := sampleKey.world
    device := ⟨[1]⟩
    request := ⟨[1]⟩
    payloadHash := Bytes.empty
    effect := Bytes.empty
    bodies := []
    ops := [(sampleKey, .replaceAtomic ⟨[1]⟩)]
    bindings := [(sampleKey, ⟨⟨[1]⟩, 1, ⟨[1]⟩, MUTATION_ATOMIC⟩)]
    contentRefs := [] }

/-- An operation that draws a nonce and a chain seed. -/
def sampleActing : Ambient :=
  { sampleAmbient .sealed with
    nonce := fun _ => some ⟨List.replicate 12 3⟩
    chainSeed := some ⟨[2]⟩ }

end Lait.Replica
