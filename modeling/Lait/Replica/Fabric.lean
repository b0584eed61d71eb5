import Lait.Replica.Transaction

/-!
# The Body engine

The engine holds the live content of Bodies, each either one atomic value or a
collaborative document.  The document itself is a third-party CRDT and the typed
edit algebra over it is a large family of its own; both are parameters here,
`Loro` and `Algebra`, and the engine around them is modelled:

* which documents are **hot** — at most `MAX_HOT_COLLABORATIVE_BODIES`, the least
  recently used one frozen to an export when the bound is reached;
* how an artifact is imported and what `applied` says about it;
* how a transaction is prepared in place, and undone.

Every operation returns the engine it leaves, also when it fails: an import that
is refused may already have created an empty document.
-/

namespace Lait.Replica

/-- Why an engine operation failed. -/
inductive FabricFailure
  | unsupported
  | typeConflict
  | invalid
  | outcomeUnknown
  deriving DecidableEq

/-- Why a document refused an import. -/
inductive LoroRefusal
  /-- The work precedes the document's shallow root. -/
  | shallow
  | other
  deriving DecidableEq

/-- The `loro` crate's `LoroDoc`. -/
class Loro where
  Doc : Type
  VersionVector : Type
  /-- A fresh, empty document. -/
  new : Doc
  /-- `import`: the document with the material joined in, and whether some of it
  is pending. -/
  importBytes : Doc → Bytes → Except LoroRefusal (Doc × Bool)
  oplogFrontiers : Doc → List OpHead
  /-- `Frontiers::encode`. -/
  encodeFrontiers : List OpHead → Bytes
  /-- Expand a head set; `none` when the history it names is not held. -/
  frontiersToVv : Doc → List OpHead → Option VersionVector
  includesVv : VersionVector → VersionVector → Bool
  /-- `export(Snapshot)`. -/
  exportSnapshot : Doc → Option Bytes
  /-- `export(updates(..))`. -/
  exportUpdates : Doc → VersionVector → Option Bytes
  /-- `revert_to`: append the inverse of everything after the frontier. -/
  revertTo : Doc → List OpHead → Option Doc

/-- The typed edit algebra over a document. -/
class Algebra [Loro] where
  Edit : Type
  View : Type
  /-- The path grammar, checked before the engine is reached. -/
  validPath : Edit → Bool
  /-- The size limits, checked after the path. -/
  withinLimits : Edit → Bool
  /-- One edit, authored by a writer id. -/
  edit : ℕ → Loro.Doc → Edit → Except FabricFailure Loro.Doc
  /-- The typed projection a reader is given. -/
  project : Loro.Doc → Option View

/-- Maximum live collaborative documents. -/
def MAX_HOT_COLLABORATIVE_BODIES : ℕ := 64

/-- A document as its canonical export, with the version it was frozen at. -/
structure FrozenCollab where
  bytes : Bytes
  version : Option Version
  deriving DecidableEq

/-- One Body's live state. -/
inductive BodyState [Loro]
  | atomic (bytes : Bytes)
  | collab (doc : Loro.Doc)
  | frozenCollab (frozen : FrozenCollab)

/-- The engine.  `hot` lists the live documents, least recently used first. -/
structure Engine [Loro] where
  /-- This activation's writer id. -/
  writer : ℕ
  bodies : BTreeMap Bytes BodyState
  hot : List Bytes
  /-- A durable store holds the cold image of every collaborative Body. -/
  externalCollaborativeImages : Bool
  /-- Bodies displaced while a transaction is being prepared. -/
  externalEvicted : List Bytes

/-- An immutable read image of one Body. -/
inductive BodySnapshot
  | atomic (bytes : Bytes)
  | collaborative (frozen : FrozenCollab)
  deriving DecidableEq

section Engine

variable [Loro]

/-- `Version::from_frontiers(&doc.oplog_frontiers())`. -/
def docVersion (doc : Loro.Doc) : Version := Version.fromFrontiers (Loro.oplogFrontiers doc)

/-- `import_collaborative_doc`: a snapshot read into a fresh document. -/
def importCollaborativeDoc (bytes : Bytes) : Except FabricFailure Loro.Doc :=
  match Loro.importBytes Loro.new bytes with
  | .ok (doc, _) => .ok doc
  | .error _ => .error .invalid

/-- `causal::relation`. -/
def docRelation (doc : Loro.Doc) (a b : Version) : CausalRelation :=
  if a = b then .equal
  else
    match Loro.frontiersToVv doc a.heads, Loro.frontiersToVv doc b.heads with
    | some va, some vb =>
        match Loro.includesVv va vb, Loro.includesVv vb va with
        | true, true => .equal
        | true, false => .dominates
        | false, true => .dominated
        | false, false => .concurrent
    | _, _ => .undetermined

/-- `export_delta_from_doc`. -/
def exportDeltaFromDoc (doc : Loro.Doc) (from' : Version) : Except CausalInvalid Artifact :=
  match Loro.frontiersToVv doc from'.heads with
  | none => .error .missingBase
  | some vv =>
      match Loro.exportUpdates doc vv with
      | none => .error .engine
      | some bytes => .ok (.delta CAUSAL_FORMAT_VERSION from' (docVersion doc) bytes)

/-- `export_checkpoint_from_doc` at the empty retention frontier: a full snapshot. -/
def exportCheckpointFromDoc (doc : Loro.Doc) : Except CausalInvalid Artifact :=
  match Loro.exportSnapshot doc with
  | none => .error .engine
  | some bytes => .ok (.checkpoint CAUSAL_FORMAT_VERSION Version.empty (docVersion doc) bytes)

namespace FrozenCollab

/-- Freeze a document. -/
def fromDoc (doc : Loro.Doc) : Except FabricFailure FrozenCollab :=
  match Loro.exportSnapshot doc with
  | none => .error .invalid
  | some bytes => .ok ⟨bytes, some (docVersion doc)⟩

def doc (frozen : FrozenCollab) : Except FabricFailure Loro.Doc :=
  importCollaborativeDoc frozen.bytes

/-- The memoized version, or the one its import finds. -/
def getVersion (frozen : FrozenCollab) : Except FabricFailure Version :=
  match frozen.version with
  | some version => .ok version
  | none => frozen.doc.map docVersion

end FrozenCollab

namespace BodySnapshot

/-- The position of an image; an atomic one has the empty position. -/
def version : BodySnapshot → Except FabricFailure Version
  | atomic _ => .ok Version.empty
  | collaborative frozen => frozen.getVersion

/-- Whether the image is one atomic value: `read_shared().is_some()`. -/
def isAtomic : BodySnapshot → Bool
  | atomic _ => true
  | collaborative _ => false

end BodySnapshot

namespace Engine

/-- A fresh, empty engine under a minted writer id. -/
def new (writer : ℕ) : Engine := ⟨writer, ∅, [], false, []⟩

/-- `use_external_collaborative_images`. -/
def useExternalCollaborativeImages (e : Engine) : Engine :=
  { e with externalCollaborativeImages := true }

/-- Release one atomic writer image; collaborative ones stay. -/
def releaseAtomicImage (e : Engine) (key : Bytes) : Engine :=
  match e.bodies[key]? with
  | some (.atomic _) => { e with bodies := e.bodies.erase key, hot := e.hot.filter (· ≠ key) }
  | _ => e

/-- Freeze a live document. -/
def coolBody (e : Engine) (key : Bytes) : Engine × Except FabricFailure Unit :=
  match e.bodies[key]? with
  | none => (e, .ok ())
  | some (.collab doc) =>
      match FrozenCollab.fromDoc doc with
      | .error x => (e, .error x)
      | .ok frozen =>
          ({ e with
              bodies := e.bodies.insert key (.frozenCollab frozen)
              hot := e.hot.filter (· ≠ key) }, .ok ())
  | some _ => ({ e with hot := e.hot.filter (· ≠ key) }, .ok ())

/-- Cool from the front until there is room; `fuel` is the number of hot Bodies. -/
def coolUntilRoom (key : Bytes) : ℕ → Engine → Engine × Except FabricFailure Unit
  | 0, e => (e, .ok ())
  | fuel + 1, e =>
      match e.hot with
      | [] => (e, .ok ())
      | cold :: rest =>
          if e.hot.length < MAX_HOT_COLLABORATIVE_BODIES then (e, .ok ())
          else
            let e := { e with hot := rest }
            if cold = key then coolUntilRoom key fuel e
            else
              match e.coolBody cold with
              | (e, .error x) => (e, .error x)
              | (e, .ok ()) =>
                  coolUntilRoom key fuel
                    (if e.externalCollaborativeImages then
                      { e with externalEvicted := e.externalEvicted ++ [cold] }
                    else e)

/-- Make room for one more live document. -/
def reserveHot (e : Engine) (key : Bytes) : Engine × Except FabricFailure Unit :=
  let e := { e with hot := e.hot.filter (· ≠ key) }
  coolUntilRoom key e.hot.length e

/-- Drop the frozen exports a durable store holds anyway. -/
def drainExternalEvictions (e : Engine) : Engine :=
  if e.externalCollaborativeImages then
    { e with
      bodies := e.externalEvicted.foldl (fun bodies key =>
        if key ∈ e.hot then bodies
        else
          match bodies[key]? with
          | some (.frozenCollab _) => bodies.erase key
          | _ => bodies) e.bodies
      externalEvicted := [] }
  else { e with externalEvicted := [] }

/-- Thaw a frozen document, or move a live one to the back of the queue. -/
def makeHot (e : Engine) (key : Bytes) : Engine × Except FabricFailure Unit :=
  match e.bodies[key]? with
  | some (.frozenCollab frozen) =>
      match e.reserveHot key with
      | (e, .error x) => (e, .error x)
      | (e, .ok ()) =>
          match frozen.doc with
          | .error x => (e, .error x)
          | .ok doc =>
              ({ e with
                  bodies := e.bodies.insert key (.collab doc)
                  hot := e.hot ++ [key] }, .ok ())
  | some (.collab _) =>
      match e.reserveHot key with
      | (e, .error x) => (e, .error x)
      | (e, .ok ()) => ({ e with hot := e.hot ++ [key] }, .ok ())
  | some (.atomic _) => (e, .ok ())
  | none => (e, .ok ())

/-- The document of a Body, made hot, and created empty when there is none. -/
def collabDoc (e : Engine) (key : Bytes) : Engine × Except FabricFailure Loro.Doc :=
  match e.makeHot key with
  | (e, .error x) => (e, .error x)
  | (e, .ok ()) =>
      match e.bodies[key]? with
      | some (.collab doc) => (e, .ok doc)
      | some (.atomic _) => (e, .error .typeConflict)
      | some (.frozenCollab _) => (e, .error .outcomeUnknown)
      | none =>
          match e.reserveHot key with
          | (e, .error x) => (e, .error x)
          | (e, .ok ()) =>
              ({ e with
                  bodies := e.bodies.insert key (.collab Loro.new)
                  hot := e.hot ++ [key] }, .ok Loro.new)

/-- Put a document back at its key. -/
def setDoc (e : Engine) (key : Bytes) (doc : Loro.Doc) : Engine :=
  { e with bodies := e.bodies.insert key (.collab doc) }

/-! ## Reading -/

/-- The live content of an atomic Body. -/
def read (e : Engine) (key : Bytes) : Option Bytes :=
  match e.bodies[key]? with
  | some (.atomic bytes) => some bytes
  | _ => none

/-- The document at a key, live or thawed for the occasion. -/
def docAt (e : Engine) (key : Bytes) : Option (Except FabricFailure Loro.Doc) :=
  match e.bodies[key]? with
  | some (.collab doc) => some (.ok doc)
  | some (.frozenCollab frozen) => some frozen.doc
  | _ => none

/-- The position of a Body; an atomic one has the empty position. -/
def version (e : Engine) (key : Bytes) : Except CausalInvalid Version :=
  match e.bodies[key]? with
  | some (.collab doc) => .ok (docVersion doc)
  | some (.frozenCollab frozen) =>
      match frozen.getVersion with
      | .ok version => .ok version
      | .error _ => .error .engine
  | some (.atomic _) => .ok Version.empty
  | none => .error .notCollaborative

def exportDelta (e : Engine) (key : Bytes) (from' : Version) : Except CausalInvalid Artifact := do
  from'.validate
  match e.bodies[key]? with
  | some (.collab doc) => exportDeltaFromDoc doc from'
  | some (.frozenCollab frozen) =>
      match frozen.doc with
      | .error _ => .error .engine
      | .ok doc => exportDeltaFromDoc doc from'
  | some (.atomic bytes) => .ok (.replace CAUSAL_FORMAT_VERSION bytes)
  | none => .error .notCollaborative

/-- `export_checkpoint` at the empty retention frontier. -/
def exportCheckpoint (e : Engine) (key : Bytes) : Except CausalInvalid Artifact :=
  match e.bodies[key]? with
  | some (.collab doc) => exportCheckpointFromDoc doc
  | some (.frozenCollab frozen) =>
      match frozen.doc with
      | .error _ => .error .engine
      | .ok doc => exportCheckpointFromDoc doc
  | some (.atomic bytes) => .ok (.replace CAUSAL_FORMAT_VERSION bytes)
  | none => .error .notCollaborative

/-- `checkpoint_seed` and its later `export`: what a worker makes of the position
captured now, when the Body is collaborative. -/
def checkpointSeed (e : Engine) (key : Bytes) : Option (Except CausalInvalid Artifact) :=
  match e.bodies[key]? with
  | some (.collab doc) => some (exportCheckpointFromDoc doc)
  | some (.frozenCollab frozen) =>
      some (match frozen.getVersion with
        | .error _ => .error .engine
        | .ok version =>
            .ok (.checkpoint CAUSAL_FORMAT_VERSION Version.empty version frozen.bytes))
  | _ => none

def relation (e : Engine) (key : Bytes) (a b : Version) : CausalRelation :=
  match e.docAt key with
  | some (.ok doc) => docRelation doc a b
  | _ => .undetermined

/-- Freeze one immutable read image. -/
def bodySnapshot (e : Engine) (key : Bytes) : Except FabricFailure (Option BodySnapshot) :=
  match e.bodies[key]? with
  | none => .ok none
  | some (.atomic bytes) => .ok (some (.atomic bytes))
  | some (.frozenCollab frozen) => .ok (some (.collaborative frozen))
  | some (.collab doc) => (FrozenCollab.fromDoc doc).map fun frozen => some (.collaborative frozen)

/-! ## Importing -/

/-- Join bytes into the document at a key. -/
def joinBytes (e : Engine) (key bytes : Bytes) : Engine × Except CausalInvalid ImportStatus :=
  match e.collabDoc key with
  | (e, .error _) => (e, .error .engine)
  | (e, .ok doc) =>
      match Loro.importBytes doc bytes with
      | .error .shallow => (e, .error .beforeRetentionFrontier)
      | .error .other => (e, .error .engine)
      | .ok (doc', pending) =>
          (e.setDoc key doc', .ok ⟨docVersion doc ≠ docVersion doc', pending⟩)

/-- Import one artifact.  A replacement value is applied when its bytes differ
from the held ones; anything else is joined into the document, and applied when
the document's frontier moved. -/
def importArtifact (e : Engine) (key : Bytes) : Artifact → Engine × Except CausalInvalid ImportStatus
  | .replace _ bytes =>
      match e.bodies[key]? with
      | some (.collab _) => (e, .error .notCollaborative)
      | some (.frozenCollab _) => (e, .error .notCollaborative)
      | some (.atomic current) =>
          if current = bytes then (e, .ok ⟨false, false⟩)
          else ({ e with bodies := e.bodies.insert key (.atomic bytes) }, .ok ⟨true, false⟩)
      | none => ({ e with bodies := e.bodies.insert key (.atomic bytes) }, .ok ⟨true, false⟩)
  | .delta _ _ _ bytes => e.joinBytes key bytes
  | .checkpoint _ _ _ bytes => e.joinBytes key bytes
  | .archive _ _ bytes => e.joinBytes key bytes

/-- Adopt an image another engine has verified. -/
def importVerifiedSnapshot (e : Engine) (key : Bytes) (snapshot : BodySnapshot) :
    Engine × Except FabricFailure ImportStatus :=
  match snapshot.version with
  | .error _ => (e, .error .invalid)
  | .ok _ =>
      match snapshot, e.bodies[key]? with
      | .atomic bytes, some (.atomic current) =>
          if current = bytes then (e, .ok ⟨false, false⟩)
          else ({ e with bodies := e.bodies.insert key (.atomic bytes) }, .ok ⟨true, false⟩)
      | .atomic bytes, none =>
          ({ e with bodies := e.bodies.insert key (.atomic bytes) }, .ok ⟨true, false⟩)
      | .atomic _, some _ => (e, .error .typeConflict)
      | .collaborative _, some (.atomic _) => (e, .error .typeConflict)
      | .collaborative frozen, none =>
          ({ e with bodies := e.bodies.insert key (.frozenCollab frozen) }, .ok ⟨true, false⟩)
      | .collaborative frozen, some (.frozenCollab current) =>
          if current.bytes = frozen.bytes then (e, .ok ⟨false, false⟩)
          else adopt frozen
      | .collaborative frozen, some (.collab _) => adopt frozen
where
  /-- Join the image into the document already there. -/
  adopt (frozen : FrozenCollab) : Engine × Except FabricFailure ImportStatus :=
    match e.collabDoc key with
    | (e, .error x) => (e, .error x)
    | (e, .ok doc) =>
        match Loro.importBytes doc frozen.bytes with
        | .error _ => (e, .error .invalid)
        | .ok (doc', pending) =>
            (e.setDoc key doc', .ok ⟨docVersion doc ≠ docVersion doc', pending⟩)

/-! ## Transactions -/

/-- One engine operation. -/
inductive FabricOp [Algebra]
  | putCanonical (key value : Bytes)
  | remove (key : Bytes)
  | createBody (key : Bytes)
  | edit (key : Bytes) (edit : Algebra.Edit)

/-- The key an operation touches. -/
def FabricOp.key [Algebra] : FabricOp → Bytes
  | putCanonical key _ => key
  | remove key => key
  | createBody key => key
  | edit key _ => key

/-- An applied but unpublished transaction: what to put back, and the causal
token digesting the touched positions. -/
structure Prepared where
  causal : Bytes
  prior : List (Bytes × Option BodyState)

def applyOp [Algebra] (e : Engine) : FabricOp → Engine × Except FabricFailure Unit
  | .putCanonical key value =>
      match e.bodies[key]? with
      | some (.collab _) => (e, .error .typeConflict)
      | some (.frozenCollab _) => (e, .error .typeConflict)
      | _ => ({ e with bodies := e.bodies.insert key (.atomic value) }, .ok ())
  | .remove key => ({ e with bodies := e.bodies.erase key }, .ok ())
  | .createBody key =>
      match e.collabDoc key with
      | (e, .error x) => (e, .error x)
      | (e, .ok _) => (e, .ok ())
  | .edit key edit =>
      match e.collabDoc key with
      | (e, .error x) => (e, .error x)
      | (e, .ok doc) =>
          match Algebra.edit e.writer doc edit with
          | .error x => (e, .error x)
          | .ok doc' => (e.setDoc key doc', .ok ())

def applyOps [Algebra] : List FabricOp → Engine → Engine × Except FabricFailure Unit
  | [], e => (e, .ok ())
  | op :: ops, e =>
      match e.applyOp op with
      | (e, .error x) => (e, .error x)
      | (e, .ok ()) => applyOps ops e

/-- Put one Body back.  A live document is reverted in place: its clone shares
the history the transaction appended. -/
def restoreOne (e : Engine) (key : Bytes) : Option BodyState → Engine × Bool
  | none =>
      ({ e with bodies := e.bodies.erase key, hot := e.hot.filter (· ≠ key) }, true)
  | some (.collab doc) =>
      let current :=
        match e.bodies[key]? with
        | some (.collab doc') => doc'
        | _ => doc
      let e := { e with hot := e.hot.filter (· ≠ key) ++ [key] }
      match Loro.revertTo current (Loro.oplogFrontiers doc) with
      | some doc' => (e.setDoc key doc', true)
      | none => (e.setDoc key current, false)
  | some state =>
      ({ e with
          bodies := e.bodies.insert key state
          hot := e.hot.filter (· ≠ key) }, true)

/-- Put every touched Body back, then report one that would not revert. -/
def restore (e : Engine) (prior : List (Bytes × Option BodyState)) :
    Engine × Except FabricFailure Unit :=
  let (e, clean) := prior.foldl (fun (acc : Engine × Bool) entry =>
    let (e, clean) := acc.1.restoreOne entry.1 entry.2
    (e, acc.2 && clean)) (e, true)
  if clean then (e.drainExternalEvictions, .ok ()) else (e, .error .outcomeUnknown)

def CAUSAL_DOMAIN : Bytes := Bytes.ofString "lait/fabric-causal/1"

/-- `to_le_bytes` of a length. -/
def le64 (n : ℕ) : Bytes := ⟨(Bytes.be64 n).data.reverse⟩

/-- A position digest: the atomic bytes' hash, or the document's frontier. -/
def digestOf [Crypto] (state : BodyState) : Except FabricFailure Bytes :=
  match state with
  | .atomic bytes => .ok (Crypto.blake3 bytes)
  | .collab doc => .ok (Loro.encodeFrontiers (Loro.oplogFrontiers doc))
  | .frozenCollab frozen =>
      frozen.getVersion.map fun version => Loro.encodeFrontiers version.heads

/-- The causal token of the touched Bodies, in key order. -/
def causalFor [Crypto] (e : Engine) (touched : List Bytes) : Except FabricFailure Bytes := do
  let parts ← touched.mapM fun key => do
    match e.bodies[key]? with
    | none => return Bytes.join [le64 key.length, key, ⟨[0]⟩]
    | some state =>
        let digest ← digestOf state
        return Bytes.join [le64 key.length, key, ⟨[1]⟩, le64 digest.length, digest]
  return Crypto.blake3 (Bytes.join (CAUSAL_DOMAIN :: parts))

/-- Apply a transaction in place, keeping what it takes to undo it.  A failing
operation undoes the whole batch before the error is reported. -/
def prepare [Algebra] [Crypto] (e : Engine) (ops : List FabricOp) :
    Engine × Except FabricFailure Prepared :=
  let touched := (ops.map FabricOp.key).dedup.insertionSort (· ≤ ·)
  let prior := touched.map fun key => (key, e.bodies[key]?)
  match applyOps ops e with
  | (e, .error x) =>
      match e.restore prior with
      | (e, .error y) => (e, .error y)
      | (e, .ok ()) => (e, .error x)
  | (e, .ok ()) =>
      match e.causalFor touched with
      | .error x => (e, .error x)
      | .ok causal => (e, .ok ⟨causal, prior⟩)

/-- Accept a prepared candidate. -/
def finalize (e : Engine) : Engine := e.drainExternalEvictions

/-- Restore what preceded a preparation. -/
def rollback (e : Engine) (prepared : Prepared) : Engine × Except FabricFailure Unit :=
  e.restore prepared.prior

end Engine

end Engine

end Lait.Replica
