import Lait.Ceremony.NonceUse

/-!
# A holder that signs twice

A holder of a one-of-two authority coordinates its own request.  It commits,
freezes a plan, binds its record and makes its share, and crashes before it posts
the share; the next pass makes the share again.  Both calls use the one record
with the one pair.
-/

namespace Lait.Ceremony.NonceRun

open Wire

/-! ## Codecs -/

/-- A device id, as its spelling. -/
def deviceWire : Wire DeviceId := iso bytes DeviceId.asStr DeviceId.mk fun _ => rfl

/-- An authority. -/
def authorityWire : Wire Authority :=
  iso (pair deviceWire bytes) (fun a => (a.publicKey, a.configuration)) (fun p => ⟨p.1, p.2⟩)
    fun _ => rfl

/-- An access witness. -/
def witnessWire : Wire AccessWitness :=
  iso (sum (pair nat (list nat)) (pair bytes (pair (list bytes) bytes)))
    (fun
      | .frostThreshold k indices => .inl (k, indices)
      | .linearReconstruction policy leaves coefficient => .inr (policy, leaves, coefficient))
    (fun
      | .inl p => .frostThreshold p.1 p.2
      | .inr p => .linearReconstruction p.1 p.2.1 p.2.2)
    fun w => by cases w <;> rfl

/-- A signing plan. -/
def planWire : Wire SigningPlan :=
  iso (pair bytes (pair authorityWire (pair bytes (pair (list bytes) (pair (map nat bytes)
      witnessWire)))))
    (fun p => (p.signing, p.authority, p.messageCommitment, p.signers, p.commitments, p.witness))
    (fun p => ⟨p.1, p.2.1, p.2.2.1, p.2.2.2.1, p.2.2.2.2.1, p.2.2.2.2.2⟩)
    fun _ => rfl

/-- A nonce record. -/
def pendingWire : Wire PendingNonce :=
  iso (pair bytes (pair bytes bytes)) (fun p => (p.signing, p.binding, p.nonces))
    (fun p => ⟨p.1, p.2.1, p.2.2⟩) fun _ => rfl

@[reducible] def planCodec : Postcard SigningPlan := planWire.postcard

@[reducible] def pendingCodec : Postcard PendingNonce := pendingWire.postcard

/-! ## The holder and its board -/

/-- The holder's seed, which is also its public key and the standing authority. -/
def seed : Bytes := ⟨List.replicate 32 0xaa⟩

/-- The holder. -/
def me : DeviceId := DeviceId.fromKeyBytes seed

/-- The space. -/
def space : SpaceId := Bytes.ofString "ws"

/-- The contents that are hashed to 32 bytes: the events of the board. -/
def contents : List Bytes :=
  (List.range 5).map fun i => Bytes.join [⟨[UInt8.ofNat i]⟩, me.asStr]

/-- Digests without collisions: 32 bytes for the events of the board, more for
everything else. -/
@[reducible] def boardCrypto : Crypto :=
  { idealCrypto with
    blake3 := fun input =>
      if input ∈ contents then ⟨UInt8.ofNat (contents.idxOf input) :: List.replicate 31 0⟩
      else ⟨List.replicate 33 1 ++ input.data⟩ }

/-- The id of the `i`-th event. -/
def idOf (i : UInt8) : TranscriptId := ⟨i :: List.replicate 31 0⟩

/-- The transcript of the authority, opened by the first event. -/
def dkg : TranscriptId := idOf 0

/-- The signing transcript, opened by the third. -/
def signing : TranscriptId := idOf 2

/-- One of two holders suffices. -/
def config : FrostThresholdConfig := ⟨1, [⟨List.replicate 64 97⟩, ⟨List.replicate 64 98⟩]⟩

@[reducible] def configCodec : Postcard FrostThresholdConfig := tableCodec [config]

/-- The arrangement. -/
def arrangement : Config := ⟨1, .frostThreshold, ⟨[0]⟩⟩

@[reducible] def arrangementCodec : Postcard Config := tableCodec [Config.single, arrangement]

/-- The ceremony's manifest. -/
def manifest : DkgManifest := ⟨dkg, me, me, arrangement⟩

/-- The op bytes the holder consents to. -/
def opBytes : Bytes := Bytes.ofString "rotate"

/-- The commitment the holder draws. -/
def drawn : Bytes := Bytes.ofString "entropy"

/-- Nonces and commitments are what is drawn; a share is the message. -/
@[reducible] def echoSigning : FrostSigning where
  signRound1 _ entropy := some (entropy, entropy)
  signRound2 _ message _ _ := some message
  aggregate _ _ _ _ := none

/-- Every package has the holder's key as its group key. -/
@[reducible] def oneGroupKey : GroupKeys := ⟨fun _ => some me⟩

/-- The message under the request. -/
def message : Bytes :=
  let _ := boardCrypto
  signingPayload Space.SPACE_EVENT_DOMAIN opBytes me [] space

/-- The plan the coordinator freezes. -/
def plan : SigningPlan :=
  let _ := boardCrypto
  let _ := arrangementCodec
  { signing
    authority := Authority.new me arrangement
    messageCommitment := Crypto.blake3 message
    signers := [⟨List.replicate 64 97⟩]
    commitments := (∅ : Packages).insert 1 drawn
    witness := .frostThreshold 1 [1] }

/-- The grant of the proposal. -/
def grant : SignedAuthorityGrant :=
  let _ := boardCrypto
  signNode AUTHORITY_GRANT_DOMAIN seed ⟨[0]⟩ [] space

/-- The ops of the events. -/
def ops : List CeremonyOp :=
  let _ := planCodec
  [.dkgPropose ⟨Bytes.empty, arrangement, .rotateKey ⟨me, Bytes.empty⟩⟩,
    .dkgAuthorize grant,
    .signRequest Bytes.empty dkg .spaceOp me opBytes,
    .signRound1 signing drawn,
    .signPlan signing plan.encode]

@[reducible] def opCodec : Postcard CeremonyOp := tableCodec ops

/-- The first `n` events. -/
def events (n : ℕ) : List SignedNode :=
  let _ := boardCrypto
  (List.range n).map fun i => signNode CEREMONY_DOMAIN seed ⟨[UInt8.ofNat i]⟩ [] space

/-- The holder's files: its acceptance, its share and package, its consent. -/
def files : Artifacts := fun t label =>
  if t = dkg ∧ label = .manifest then some ⟨[0]⟩
  else if t = dkg ∧ (label = .share ∨ label = .pkp) then some Bytes.empty
  else if t = signing ∧ label = .intent then some opBytes
  else none

/-- The holder, with the first `n` events on its board. -/
def holder (n : ℕ) : Device where
  me := me
  space := space
  genesis := ⟨space, [], Bytes.empty, Bytes.empty⟩
  spaceEvents := []
  ceremonyNodes := events n
  artifacts := files
  readable _ _ := true

/-- Commit; freeze the plan; bind and sign, and crash; sign again and post. -/
def visits : List Visit :=
  [⟨holder 3, drawn, 2⟩, ⟨holder 4, drawn, 1⟩, ⟨holder 5, drawn, 2⟩, ⟨holder 5, drawn, 3⟩]

/-- The run. -/
def run : Holding :=
  let _ := boardCrypto
  let _ := arrangementCodec
  let _ := configCodec
  let _ := planCodec
  let _ := pendingCodec
  let _ := opCodec
  let _ := oneGroupKey
  let _ := echoSigning
  let _ : Postcard Space.SpaceOp := tableCodec []
  let _ : Postcard GeneralAccessConfig := tableCodec []
  let _ : Postcard DkgManifest := tableCodec [manifest]
  let _ : Postcard AuthorityGrant := tableCodec [⟨dkg⟩]
  visits.foldl (Holding.visit signing) {}

/-- The record signs twice, and is gone once the share is posted. -/
theorem uses_run : (uses signing run.steps).map (fun u => (u.1, u.2.1.toList, u.2.2))
      = [(1, [(1, drawn)], message), (1, [(1, drawn)], message)] ∧ run.record = none := by
  decide +kernel

/-! ## What the result asks of the primitives -/

theorem boardCrypto_blake3 : @Blake3Injective boardCrypto := by
  have hcodes : ∀ a ∈ contents, ∀ b ∈ contents,
      UInt8.ofNat (contents.idxOf a) = UInt8.ofNat (contents.idxOf b) → a = b := by
    decide +kernel
  intro a b h
  -- A digest is of an event exactly when it is 32 bytes long.
  have hshort : ∀ a, a ∈ contents →
      (@Crypto.blake3 boardCrypto a).data
        = UInt8.ofNat (contents.idxOf a) :: List.replicate 31 0 := by
    intro a ha
    exact congrArg Bytes.data (if_pos ha)
  have hlong : ∀ a, a ∉ contents →
      (@Crypto.blake3 boardCrypto a).data = List.replicate 33 1 ++ a.data := by
    intro a ha
    exact congrArg Bytes.data (if_neg ha)
  have hdata := congrArg Bytes.data h
  by_cases ha : a ∈ contents <;> by_cases hb : b ∈ contents
  · rw [hshort a ha, hshort b hb] at hdata
    exact hcodes a ha b hb (List.cons.inj hdata).1
  · rw [hshort a ha, hlong b hb] at hdata
    have hlen := congrArg List.length hdata
    simp only [List.length_cons, List.length_replicate, List.length_append] at hlen
    omega
  · rw [hlong a ha, hshort b hb] at hdata
    have hlen := congrArg List.length hdata
    simp only [List.length_cons, List.length_replicate, List.length_append] at hlen
    omega
  · rw [hlong a ha, hlong b hb] at hdata
    exact Bytes.ext (List.append_cancel_left hdata)

theorem boardCrypto_neverUnbound : @NeverUnbound boardCrypto planCodec := by
  intro signing message plan h
  have hfirst : ∀ content ∈ contents, content.data.head? ≠ NONCE_BINDING_DOMAIN.data.head? := by
    decide +kernel
  have hlong : ∀ a, a ∉ contents →
      (@Crypto.blake3 boardCrypto a).data.length = 33 + a.data.length := by
    intro a ha
    rw [show @Crypto.blake3 boardCrypto a = ⟨List.replicate 33 1 ++ a.data⟩ from if_neg ha]
    rw [List.length_append, List.length_replicate]
  unfold nonceBinding at h
  let _ := planCodec
  have hnot : Bytes.join [NONCE_BINDING_DOMAIN, signing, Bytes.le64 message.length, message,
      Bytes.le64 plan.encode.length, plan.encode] ∉ contents := by
    intro hmem
    refine hfirst _ hmem ?_
    rw [Bytes.join_cons, Bytes.data_append, List.head?_append]
    rfl
  have hlen := hlong _ hnot
  rw [h] at hlen
  have hunbound : UNBOUND.data.length = 32 := rfl
  omega

/-- **The run signs twice with one pair**, and both shares are rightful. -/
theorem nonce_serves_one_plan_run :
    let _ := boardCrypto
    let _ := arrangementCodec
    let _ := configCodec
    let _ := planCodec
    let _ := pendingCodec
    let _ := opCodec
    let _ := oneGroupKey
    let _ := echoSigning
    let _ : Postcard Space.SpaceOp := tableCodec []
    let _ : Postcard GeneralAccessConfig := tableCodec []
    let _ : Postcard DkgManifest := tableCodec [manifest]
    let _ : Postcard AuthorityGrant := tableCodec [⟨dkg⟩]
    (uses signing run.steps).length = 2 ∧
      (∀ u ∈ uses signing run.steps, ∀ u' ∈ uses signing run.steps, u.1 = u'.1 → u.2 = u'.2) ∧
        ∀ (device : Device) (commitments : Packages) (message nonces : Bytes),
          (device, .sign signing commitments message nonces) ∈ run.history →
            Rightful device signing commitments message := by
  intro _ _ _ _ _ _ _ _ _ _ _ _
  refine ⟨?_, nonce_serves_one_plan boardCrypto_blake3 planWire.postcard_roundTrip
    pendingWire.postcard_roundTrip boardCrypto_neverUnbound signing visits ?_⟩
  · have hlen := congrArg List.length uses_run.1
    rwa [List.length_map] at hlen
  · intro v hv record t ctx hctx
    have hfiles : ∃ n, v.device = holder n := by
      simp only [visits, List.mem_cons, List.not_mem_nil, or_false] at hv
      rcases hv with rfl | rfl | rfl | rfl <;> exact ⟨_, rfl⟩
    obtain ⟨n, hdevice⟩ := hfiles
    -- The op bytes are the consent, and every package has the same group key.
    have hop : ctx.opBytes = opBytes := by
      have hintent := signContext_intent hctx
      rw [Visit.on, hdevice] at hintent
      exact (Option.some.inj hintent).symm
    obtain ⟨pkp, hkey⟩ := signContext_groupKey hctx
    have hgroup : ctx.groupKey = me := (Option.some.inj hkey).symm
    unfold SignContext.message
    rw [hop, hgroup, hdevice]
    show (signingPayload ctx.target.domain opBytes me [] space).length < 2 ^ 64
    cases ctx.target <;> decide +kernel

end Lait.Ceremony.NonceRun
