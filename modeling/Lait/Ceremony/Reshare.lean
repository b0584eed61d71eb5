import Lait.Ids
import Lait.Fallible
import Lait.Sharing
import Lait.Ceremony.Frost

/-!
# Same-key share redistribution

A qualified set of old holders moves the standing group secret to another
threshold arrangement without reconstructing it.  Each dealer shares its own
share anew (`reshareDeal`), committing to the coefficients; each new participant
checks what it was dealt (`reshareVerify`), weighs it with the old Lagrange
coefficients, and computes everybody's verifying shares from the commitments
alone (`reshareFinalize`).
-/

namespace Lait.Ceremony

open Sharing

/-- Turn an absent value into an error with its text. -/
def ser {α : Type} (what : String) : Option α → Except String α
  | some a => .ok a
  | none => .error what

/-- An index into a map; an absent key panics. -/
def indexed {ν : Type} (m : BTreeMap ℕ ν) (i : ℕ) : Except String ν :=
  ser "no entry found for key" m[i]?

section Model

variable {F G : Type} [Field F] [AddCommGroup G] [Module F G] [DecidableEq F] [DecidableEq G]
variable [ScalarBytes F] [PointBytes G] [Frost F G] [Postcard (List Bytes)]

/-! ## Scalars, points and commitments -/

/-- `scalar_of`. -/
def scalarOf (bytes : Bytes) : Except String F :=
  if bytes.length ≠ 32 then .error "scalar bytes must be 32 bytes"
  else ser "non-canonical scalar" (ScalarBytes.fromCanonicalBytes bytes)

/-- `point_of`. -/
def pointOf (bytes : Bytes) : Except String G :=
  ser "invalid curve point" (PointBytes.decompress bytes)

/-- `ident`. -/
def ident (index : ℕ) : Except String ℕ :=
  if index = 0 then .error s!"dkg identifier {index}" else .ok index

/-- The node of a participant. -/
def node (index : ℕ) : F := (index : F)

/-- `eval_commitments`: evaluate the committed polynomial at an index. -/
def evalCommitments (commitments : List G) (index : ℕ) : G :=
  evalAt commitments (node index : F)

/-- `lagrange_at_zero`, over old indices. -/
def lagrangeAtZero (i : ℕ) (q : List ℕ) : Except String F :=
  ser "degenerate qualified set" (Sharing.lagrangeAtZero node i q)

/-- `encode_commitments`. -/
def encodeCommitments (points : List G) : Bytes :=
  Postcard.toStdvec (points.map PointBytes.compress)

/-- `decode_commitments`. -/
def decodeCommitments (blob : Bytes) (expectLen : ℕ) : Except String (List G) := do
  let raw ← ser "reshare commitments" (Postcard.fromBytes (α := List Bytes) blob)
  if raw.length ≠ expectLen then
    throw s!"reshare commitments carry {raw.length} coefficients (expected {expectLen})"
  raw.mapM pointOf

/-! ## Dealing -/

/-- Draw a coefficient; `draw` is the entropy source's answer to each request. -/
def drawCoefficient (draw : ℕ → Option Bytes) (l : ℕ) : Except String F := do
  let wide ← ser "OS randomness unavailable" (draw l)
  return ScalarBytes.fromBytesModOrderWide wide

/-- The sub-shares of a dealt polynomial, by new index. -/
def subShares (sigma : List F) (newN : ℕ) : BTreeMap ℕ Bytes :=
  (List.range' 1 newN).foldl
    (fun shares j => shares.insert j (ScalarBytes.toBytes (evalAt sigma (node j : F)))) ∅

/-- `reshare_deal`: the commitments, and a sub-share for every new participant. -/
def reshareDeal (oldKeyShare : Bytes) (newK newN : ℕ) (draw : ℕ → Option Bytes) :
    Except String (Bytes × BTreeMap ℕ Bytes) := do
  if newK = 0 ∨ newN = 0 ∨ newN < newK then throw "reshare needs 1 <= k <= n"
  let kp ← ser "deserialize key package" (Frost.deserializeKey (F := F) (G := G) oldKeyShare)
  let share ← scalarOf (F := F) (Frost.serializeShare G kp.signingShare)
  let drawn ← (List.range' 1 (newK - 1)).mapM (drawCoefficient draw)
  let sigma := share :: drawn
  let commitments := sigma.map fun s => s • (PointBytes.base : G)
  return (encodeCommitments commitments, subShares sigma newN)

/-! ## Verifying -/

/-- `old_verifying_share`. -/
def oldVerifyingShare (oldPkp : Bytes) (oldIndex : ℕ) : Except String Bytes := do
  let pkp ← ser "deserialize public key package"
    (Frost.deserializePublic F (G := G) oldPkp)
  let index ← ident oldIndex
  let share ← ser s!"the old group publishes no share for index {oldIndex}"
    pkp.verifyingShares[index]?
  let bytes ← ser "serialize verifying share" (Frost.serializeElement F share)
  if bytes.length ≠ 32 then throw "verifying share is not 32 bytes"
  return bytes

/-- `reshare_verify`. -/
def reshareVerify (commitmentsBlob : Bytes) (newK : ℕ) (dealerOldVerifyingShare : Bytes)
    (myIndex : ℕ) (mySubShare : Option Bytes) : Except String Unit := do
  let commitments : List G ← decodeCommitments commitmentsBlob newK
  let expected ← pointOf dealerOldVerifyingShare
  let first ← ser "index out of bounds" commitments.head?
  if first ≠ expected then
    throw "the dealer reshared a sub-secret other than its real old share"
  match mySubShare with
  | none => return ()
  | some sub => do
      let u ← scalarOf (F := F) sub
      if u • (PointBytes.base : G) ≠ evalCommitments (F := F) commitments myIndex then
        throw "the dealt sub-share fails its Feldman check"

/-! ## Combining -/

/-- What a dealer contributes: its commitments, and what it dealt to me. -/
abbrev Contribution (F G : Type) := List G × F

/-- Verify one contribution and decode it. -/
def contribution (myIndex newK : ℕ) (commitments mySubShares : BTreeMap ℕ Bytes) (oldPkp : Bytes)
    (i : ℕ) : Except String (Contribution F G) := do
  let blob ← indexed commitments i
  let expected ← oldVerifyingShare (F := F) (G := G) oldPkp i
  let sub ← indexed mySubShares i
  reshareVerify (F := F) (G := G) blob newK expected myIndex (some sub)
  let points ← decodeCommitments blob newK
  let share ← scalarOf sub
  return (points, share)

/-- One round of the verifying loop: the contributions decoded so far, and the
recombined key. -/
def contribute (myIndex newK : ℕ) (qualified : List ℕ)
    (commitments mySubShares : BTreeMap ℕ Bytes) (oldPkp : Bytes)
    (acc : BTreeMap ℕ (Contribution F G) × G) (i : ℕ) :
    Except String (BTreeMap ℕ (Contribution F G) × G) := do
  let decoded ← contribution myIndex newK commitments mySubShares oldPkp i
  let first ← ser "index out of bounds" decoded.1.head?
  let weight : F ← lagrangeAtZero i qualified
  return (acc.1.insert i decoded, acc.2 + weight • first)

/-- Weigh something of every contribution, and add it up. -/
def combine {M : Type} [AddCommGroup M] [Module F M] (qualified : List ℕ)
    (decoded : BTreeMap ℕ (Contribution F G)) (f : Contribution F G → M) : Except String M :=
  qualified.foldlM (fun acc i => do
    let weight : F ← lagrangeAtZero i qualified
    let held ← indexed decoded i
    return acc + weight • f held) 0

/-- One new participant's verifying share, from the commitments alone. -/
def newVerifyingShare (qualified : List ℕ) (decoded : BTreeMap ℕ (Contribution F G)) (m : ℕ) :
    Except String G := do
  let point ← combine qualified decoded fun held => evalCommitments (F := F) held.1 m
  let share ← ser "verifying share" (Frost.deserializeElement F (PointBytes.compress point))
  let _ ← ident m
  return share

/-- Every new participant's verifying share. -/
def newVerifyingShares (qualified : List ℕ) (decoded : BTreeMap ℕ (Contribution F G)) (newN : ℕ) :
    Except String (BTreeMap ℕ G) :=
  (List.range' 1 newN).foldlM (fun shares m => do
    let share ← newVerifyingShare qualified decoded m
    return shares.insert m share) ∅

/-- `group_key_of`. -/
def groupKeyOf (pkp : PublicKeyPackage G) : Except String DeviceId := do
  let bytes ← ser "serialize group key" (Frost.serializeElement F pkp.verifyingKey)
  return ⟨Bytes.hexEncode bytes⟩

/-- The standing key, as a point. -/
def standingKey (pkp : PublicKeyPackage G) : Except String G := do
  let bytes ← ser "serialize group key" (Frost.serializeElement F pkp.verifyingKey)
  if bytes.length ≠ 32 then throw "group key is not 32 bytes"
  pointOf bytes

/-- The packages a new participant ends with. -/
def packages (myIndex newK : ℕ) (verifyingKey : G) (verifyingShares : BTreeMap ℕ G) (share : F) :
    Except String (Bytes × Bytes × DeviceId) := do
  let newPkp : PublicKeyPackage G := ⟨verifyingShares, verifyingKey, some newK⟩
  let signingShare ← ser "signing share"
    (Frost.deserializeShare G (ScalarBytes.toBytes share))
  let myIdent ← ident myIndex
  let myShare ← indexed verifyingShares myIdent
  let kp : KeyPackage F G := ⟨myIdent, signingShare, myShare, verifyingKey, newK⟩
  let group ← groupKeyOf (F := F) newPkp
  let keyBytes ← ser "serialize key package" (Frost.serializeKey kp)
  let publicBytes ← ser "serialize public key package" (Frost.serializePublic F newPkp)
  return (keyBytes, publicBytes, group)

/-- `reshare_finalize`: my key share, the new public-key package and the group key. -/
def reshareFinalize (myIndex newK newN : ℕ) (qualified : List ℕ)
    (commitments mySubShares : BTreeMap ℕ Bytes) (oldPkp : Bytes) :
    Except String (Bytes × Bytes × DeviceId) := do
  if myIndex = 0 ∨ newN < myIndex then throw "new participant index out of range"
  if qualified.isEmpty ∨ ¬ qualified.IsChain (· < ·) ∨ 0 ∈ qualified then
    throw "qualified set must be sorted, unique and 1-based"
  if commitments.keys.toFinset ≠ qualified.toFinset
      ∨ mySubShares.keys.toFinset ≠ qualified.toFinset then
    throw "contributions must correspond exactly to the qualified set"
  let pkp ← ser "deserialize public key package" (Frost.deserializePublic F (G := G) oldPkp)
  let oldY ← standingKey (F := F) pkp
  let (decoded, recombined) ← qualified.foldlM
    (contribute (F := F) (G := G) myIndex newK qualified commitments mySubShares oldPkp) (∅, 0)
  if recombined ≠ oldY then
    throw "the qualified set's shares do not recombine to the standing key"
  let share : F ← combine qualified decoded Prod.snd
  let verifyingShares ← newVerifyingShares (F := F) qualified decoded newN
  -- My private share must re-derive my published verifying share.
  let mine ← combine (F := F) qualified decoded fun held => evalCommitments (F := F) held.1 myIndex
  if share • (PointBytes.base : G) ≠ mine then
    throw "the combined share does not match its public commitment"
  packages myIndex newK pkp.verifyingKey verifyingShares share

end Model

end Lait.Ceremony
