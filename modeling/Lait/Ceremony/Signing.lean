import Lait.Ceremony.Session

/-!
# Threshold signing over the board

Any K holders of the standing group sign: every holder commits first, the
coordinator the request names then freezes a plan, and the holders in the plan
sign under it.  A holder's nonces are kept in one record, created once and bound
to one plan before the first share is made (`nonceBinding`).

`signAdvanceSession` is one pass of one holder.  It acts only on a request whose
op bytes are those of its own intent record, under an accepted proposal of the
authority the request names, and only when it holds a share.
-/

namespace Lait

/-- `(n as u64).to_le_bytes()`. -/
def Bytes.le64 (n : ℕ) : Bytes := ⟨(Bytes.be64 n).data.reverse⟩

namespace Ceremony

/-- `sign_round1`, `sign_round2` and `aggregate`, over the FROST crate.  The
second argument of `signRound1` is what the entropy source draws. -/
class FrostSigning where
  signRound1 : Bytes → Bytes → Option (Bytes × Bytes)
  signRound2 : Packages → Bytes → Bytes → Bytes → Option Bytes
  aggregate : Packages → Bytes → Packages → Bytes → Option Bytes

/-- A signing transcript's single-use nonce state. -/
structure PendingNonce where
  signing : TranscriptId
  /-- What these nonces may sign; all-zero until the plan is known. -/
  binding : Bytes
  nonces : Bytes
  deriving DecidableEq

/-- The binding of a record that is not bound yet. -/
def UNBOUND : Bytes := ⟨List.replicate 32 0⟩

/-- The domain of nonce bindings. -/
def NONCE_BINDING_DOMAIN : Bytes := Bytes.ofString "lait/space/1/ceremony/2/nonce-binding"

/-- `SigningPlan::encode`. -/
def SigningPlan.encode [Postcard SigningPlan] (plan : SigningPlan) : Bytes := Postcard.toStdvec plan

/-- What a nonce record is pinned to: the transcript, the exact message and the
canonical plan. -/
def nonceBinding [Crypto] [Postcard SigningPlan] (signing : TranscriptId) (message : Bytes)
    (plan : SigningPlan) : Bytes :=
  Crypto.blake3 (Bytes.join [NONCE_BINDING_DOMAIN, signing, Bytes.le64 message.length, message,
    Bytes.le64 plan.encode.length, plan.encode])

/-- The domain a signature is made under, by what it is for. -/
def SignTarget.domain : SignTarget → Bytes
  | spaceOp => Space.SPACE_EVENT_DOMAIN
  | authorityGrant => AUTHORITY_GRANT_DOMAIN

/-- What a pass over a signing transcript has established before it acts. -/
structure SignContext where
  authority : TranscriptId
  target : SignTarget
  coordinator : DeviceId
  opBytes : Bytes
  threshold : ℕ
  participants : List DeviceId
  share : Bytes
  pkp : Bytes
  groupKey : DeviceId
  myIndex : ℕ

section Model

variable [Crypto] [Postcard Config] [Postcard Space.SpaceOp] [Postcard FrostThresholdConfig]
  [Postcard GeneralAccessConfig] [Postcard DkgManifest] [Postcard AuthorityGrant]
  [Postcard CeremonyOp] [Postcard SigningPlan] [Postcard PendingNonce] [GroupKeys] [FrostSigning]

/-- The gates: the request, the accepted proposal, share and package, and consent. -/
def signContext (device : Device) (signing : TranscriptId) (t : SignTranscript)
    (board : CeremonyBoard) : Option SignContext := do
  let request ← t.request
  match request.op with
  | .signRequest _ authority target coordinator opBytes =>
      let dkgT ← board.dkg[authority]?
      let (_, threshold, participants) ← device.acceptedProposal authority dkgT
      let share ← device.dkgRead authority .share
      let pkp ← device.dkgRead authority .pkp
      let groupKey ← GroupKeys.groupKeyOfPackage pkp
      let myIndex ← indexOf participants device.me
      -- Consent: only to a request this device authorized, byte for byte.
      if device.dkgRead signing .intent ≠ some opBytes then none
      else some ⟨authority, target, coordinator, opBytes, threshold, participants, share, pkp,
        groupKey, myIndex⟩
  | _ => none

/-- The message, re-derived from the request. -/
def SignContext.message (ctx : SignContext) (space : SpaceId) : Bytes :=
  signingPayload ctx.target.domain ctx.opBytes ctx.groupKey [] space

/-- The first contribution of every index. -/
def byIndex (participants : List DeviceId) (read : CeremonyOp → Option Bytes)
    (rounds : List Verified) : Packages :=
  rounds.foldl (fun posted v =>
    match read v.op, indexOf participants v.author with
    | some bytes, some i => if (posted[i]?).isSome then posted else posted.insert i bytes
    | _, _ => posted) ∅

/-- The commitments a round-1 event posts. -/
def commitmentsOf : CeremonyOp → Option Bytes
  | .signRound1 _ commitments => some commitments
  | _ => none

/-- The share a round-2 event posts. -/
def shareOf : CeremonyOp → Option Bytes
  | .signRound2 _ share => some share
  | _ => none

/-- Every commitment posted so far, by index, from the authors who posted them. -/
def SignContext.posted (ctx : SignContext) (t : SignTranscript) : Packages :=
  byIndex ctx.participants commitmentsOf t.rounds

/-- Step 1: create the nonce record and post the commitment. -/
def commitNonce (ctx : SignContext) (entropy : Bytes) (signing : TranscriptId) : Pass :=
  match FrostSigning.signRound1 ctx.share entropy with
  | none => .refuse "sign round 1"
  | some (nonces, commitments) =>
      -- Bound in step 3, once the coordinator has fixed the plan.
      let pending : PendingNonce := ⟨signing, UNBOUND, nonces⟩
      ⟨[.writeNew signing .nonce (Postcard.toStdvec pending),
        .post (.signRound1 signing commitments)], .ok true⟩

/-- Step 2: freeze a plan over the lowest indices that committed. -/
def freezePlan (device : Device) (ctx : SignContext) (signing : TranscriptId) (posted : Packages) :
    Pass :=
  let chosen := posted.keys.take ctx.threshold
  let commitments : Packages := posted.filter fun i _ => chosen.contains i
  let signers : List Holder := chosen.filterMap fun i =>
    ctx.participants[i - 1]?.map Principal.ofDevice
  match device.dkgManifest ctx.authority with
  | none => .idle
  | some manifest =>
      let plan : SigningPlan :=
        { signing
          authority := Authority.new ctx.groupKey manifest.configuration
          messageCommitment := Crypto.blake3 (ctx.message device.space)
          signers
          commitments
          witness := .frostThreshold ctx.threshold chosen }
      ⟨[.post (.signPlan signing plan.encode)], .ok true⟩

/-- Step 3's checks of a plan; none of it is taken from the coordinator. -/
def planOk (device : Device) (ctx : SignContext) (signing : TranscriptId) (posted : Packages)
    (plan : SigningPlan) (k : ℕ) (indices : List ℕ) : Bool :=
  decide (plan.signing = signing) && plan.authority.publicKey.same ctx.groupKey &&
    decide (plan.messageCommitment = Crypto.blake3 (ctx.message device.space)) &&
    decide (k = ctx.threshold) && decide (indices.length = ctx.threshold) &&
    decide (plan.commitments.size = ctx.threshold) && decide (plan.signers.length = ctx.threshold) &&
    decide (indices.IsChain (· < ·)) &&
    indices.all (fun i => decide (1 ≤ i) && decide (i ≤ ctx.participants.length)) &&
    decide (plan.commitments.keys = indices) &&
    plan.commitments.toList.all fun entry => decide (posted[entry.1]? = some entry.2)

/-- Make the share and post it; the record goes only after the share is durable. -/
def postShare (ctx : SignContext) (signing : TranscriptId) (message : Bytes) (plan : SigningPlan)
    (nonces : Bytes) : Pass :=
  match FrostSigning.signRound2 plan.commitments message nonces ctx.share with
  | none => ⟨[.sign signing plan.commitments message nonces], .error "sign round 2"⟩
  | some share =>
      ⟨[.sign signing plan.commitments message nonces, .post (.signRound2 signing share),
        .remove signing .nonce], .ok true⟩

/-- Step 3: bind the record to the plan, or find it bound to this plan, and sign. -/
def signShare (device : Device) (ctx : SignContext) (signing : TranscriptId) (posted : Packages)
    (plan : SigningPlan) : Pass :=
  match device.dkgRead signing .nonce with
  | none => .idle
  | some raw =>
      match (Postcard.fromBytes raw : Option PendingNonce) with
      | none => .refuse "decode nonce record"
      | some pending =>
          if plan.commitments[ctx.myIndex]? ≠ posted[ctx.myIndex]? then
            .refuse "refusing to sign: the plan carries a commitment we did not post"
          else
            let message := ctx.message device.space
            let binding := nonceBinding signing message plan
            if pending.binding = UNBOUND then
              let bound := { pending with binding }
              let signed := postShare ctx signing message plan pending.nonces
              ⟨.write signing .nonce (Postcard.toStdvec bound) :: signed.steps, signed.answer⟩
            else if pending.binding ≠ binding then
              .refuse "refusing to sign: this transcript's signing plan changed after commitment"
            else postShare ctx signing message plan pending.nonces

/-- Step 4: aggregate the plan's shares and install the signature. -/
def aggregateAndInstall (device : Device) (ctx : SignContext) (t : SignTranscript)
    (plan : SigningPlan) (indices : List ℕ) : Pass :=
  let shares : Packages := (byIndex ctx.participants shareOf t.rounds).filter fun i _ =>
    indices.contains i
  if shares.size ≠ ctx.threshold then .idle
  else
    match FrostSigning.aggregate plan.commitments (ctx.message device.space) shares ctx.pkp with
    | none => .refuse "aggregate"
    | some sig =>
        let node : SignedNode := ⟨ctx.opBytes, ctx.groupKey, sig, []⟩
        match ctx.target with
        | .spaceOp =>
            if device.spaceEvents.any (fun e => e.hash = node.hash) then .idle
            else if node.verifySig Space.SPACE_EVENT_DOMAIN device.space then
              ⟨[.commitSpace node, .fenceEpoch], .ok true⟩
            else .idle
        | .authorityGrant =>
            if (authorityGrantOf node device.space).isNone then .idle
            else if device.ceremonyNodes.any fun e =>
                match (Postcard.fromBytes e.op : Option CeremonyOp) with
                | some (.dkgAuthorize grant) => grant.hash = node.hash
                | _ => false then .idle
            else ⟨[.post (.dkgAuthorize node)], .ok true⟩

/-- Whether this device has posted its share. -/
def postedShare (device : Device) (t : SignTranscript) : Bool :=
  t.rounds.any fun v => v.author.same device.me && (shareOf v.op).isSome

/-- Advance one threshold-signing transcript. -/
def signAdvanceSession (device : Device) (entropy : Bytes) (signing : TranscriptId)
    (t : SignTranscript) (board : CeremonyBoard) : Pass :=
  match signContext device signing t board with
  | none => .idle
  | some ctx =>
      let posted := ctx.posted t
      if (posted[ctx.myIndex]?).isNone ∧ ¬ device.dkgHas signing .nonce then
        commitNonce ctx entropy signing
      else
        match t.plan with
        | none =>
            if device.me.same ctx.coordinator ∧ ctx.threshold ≤ posted.size then
              freezePlan device ctx signing posted
            else .idle
        | some plan =>
            match plan.witness with
            | .linearReconstruction _ _ _ => .idle
            | .frostThreshold k indices =>
                if ¬ planOk device ctx signing posted plan k indices then
                  .refuse "refusing to sign: the coordinator's plan does not validate"
                else if indices.contains ctx.myIndex ∧ ¬ postedShare device t then
                  signShare device ctx signing posted plan
                else aggregateAndInstall device ctx t plan indices

end Model

end Ceremony

end Lait
