import Lait.Replica.DeclarationTurns
import Lait.Replica.OpLog

/-!
# Two Replicas that speak at the same time

Nothing makes two Replicas take turns.  When both export before either
incorporates, each adopts what the other declared, and the two declarations have
changed places: after any number of such rounds they differ
(`differ_of_cross`), and every round moved both frontiers
(`declarations_swap`).

Turns settle the same two Replicas.  An advertisement incorporated as soon as it
is exported is in turn (`alternate_takeTurns`), and three turns are enough
(`swapping_settle`).
-/

namespace Lait.Replica

section Swap

variable [Crypto] [Loro] [Aead] [Codecs] [ReceiptCodecs]

/-- What an incorporation takes beside the advertisement; the Contact delivers no
Bodies. -/
structure Delivery where
  authorityRecords : List Bytes
  authority : AuthoritySource
  incorporateAuthority : List Bytes → Bool
  amb : IncorporateAmbient
  ctx : CommitContext

/-- Incorporate the `index`-th advertisement of the peer. -/
def Exchange.deliver (side : Side) (index : ℕ) (delivery : Delivery) : Exchange :=
  .incorporateBundle side index delivery.authorityRecords [] delivery.authority
    delivery.incorporateAuthority delivery.amb delivery.ctx

/-! ## Single exchanges -/

omit [Aead] [ReceiptCodecs] in
/-- A turn of a Replica is one of itself under other signed roots. -/
theorem Takes.of_signed {peer self replica' : Replica} {signed : List ManifestRoot}
    (h : Takes peer { self with signed } replica') : Takes peer self replica' where
  durable := h.durable
  heads := h.heads
  taken := h.taken
  kept := h.kept
  files := h.files
  adds := h.adds
  still hsame hdescribed :=
    let hunmoved := h.still hsame hdescribed
    ⟨hunmoved.durable, hunmoved.heads, hunmoved.refs, hunmoved.content, hunmoved.frontier⟩

namespace Peers

/-- What a delivery leaves: the receiver has taken over what the sender of the
advertisement published when it exported it. -/
theorem step_deliver {peers peers' : Peers} {side : Side} {index : ℕ} {delivery : Delivery}
    {ad : Advertisement} {peer : Replica} (had : (peers.sent side.other)[index]? = some ad)
    (hexported : peer.exportCatalogs = .ok (ad.bodies, ad.content))
    (h : peers.step (.deliver side index delivery) = some peers') :
    peers'.sent = peers.sent ∧ peers'.replica side.other = peers.replica side.other ∧
      Takes peer (peers.replica side) (peers'.replica side) := by
  have hstep : (peers.sent side.other)[index]?.bind (fun ad => peers.incorporateBundle side
      ⟨delivery.authorityRecords, ad, []⟩ delivery.authority delivery.incorporateAuthority
      delivery.amb delivery.ctx) = some peers' := h
  rw [had, Option.bind_some] at hstep
  exact incorporateBundle_took hexported rfl hstep

end Peers

/-! ## Rounds -/

/-- One round: what each party exports and incorporates with. -/
structure Round where
  ctx : Side → CommitContext
  delivery : Side → Delivery

namespace Peers

/-- Both export, and then both incorporate what the other exported. -/
def crossing (peers : Peers) (round : Round) : List Exchange :=
  [.exportManifest .left (round.ctx .left), .exportManifest .right (round.ctx .right),
    .deliver .left (peers.sent .right).length (round.delivery .left),
    .deliver .right (peers.sent .left).length (round.delivery .right)]

/-- Several rounds; `none` when an exchange is refused. -/
def cross (peers : Peers) : List Round → Option Peers
  | [] => some peers
  | round :: rounds => (peers.run (peers.crossing round)).bind fun peers => cross peers rounds

/-- In a round, both take over what the other published before it. -/
theorem takes_of_crossing {peers peers' : Peers} {round : Round}
    (h : peers.run (peers.crossing round) = some peers') (s : Side) :
    Takes (peers.replica s.other) (peers.replica s) (peers'.replica s) := by
  obtain ⟨peers₁, hleft, h⟩ := Option.bind_eq_some_iff.mp h
  obtain ⟨peers₂, hright, h⟩ := Option.bind_eq_some_iff.mp h
  obtain ⟨peers₃, hleft', h⟩ := Option.bind_eq_some_iff.mp h
  obtain ⟨peers₄, hright', h⟩ := Option.bind_eq_some_iff.mp h
  cases h
  obtain ⟨⟨adLeft, hsentLeft, hadLeft⟩, hkept, hsigned₁⟩ := exportManifest_signed hleft
  obtain ⟨⟨adRight, hsentRight, hadRight⟩, hkept', hsigned₂⟩ := exportManifest_signed hright
  -- The exports leave what both hold.
  have hsigned : ∀ s, ∃ signed, peers₂.replica s = { peers.replica s with signed } := by
    intro s
    obtain ⟨_, h₁⟩ := hsigned₁ s
    obtain ⟨signed, h₂⟩ := hsigned₂ s
    exact ⟨signed, by rw [h₂, h₁]⟩
  have hadRight' : (peers.replica .right).exportCatalogs = .ok (adRight.bodies, adRight.content) := by
    obtain ⟨_, h₁⟩ := hsigned₁ .right
    rw [h₁] at hadRight
    exact hadRight
  have hnewRight : (peers₂.sent .right)[(peers.sent .right).length]? = some adRight := by
    rw [hsentRight, show peers₁.sent .right = peers.sent .right from hkept]
    exact List.getElem?_concat_length
  have hnewLeft : (peers₂.sent .left)[(peers.sent .left).length]? = some adLeft := by
    rw [show peers₂.sent .left = peers₁.sent .left from hkept', hsentLeft]
    exact List.getElem?_concat_length
  obtain ⟨hsent, hrightSame, hleftTakes⟩ := step_deliver hnewRight hadRight' hleft'
  obtain ⟨-, hleftSame, hrightTakes⟩ := step_deliver (by rw [hsent]; exact hnewLeft) hadLeft hright'
  obtain ⟨_, hsignedLeft⟩ := hsigned .left
  obtain ⟨_, hsignedRight⟩ := hsigned .right
  cases s with
  | left =>
      rw [show peers'.replica .left = peers₃.replica .left from hleftSame]
      rw [hsignedLeft] at hleftTakes
      exact hleftTakes.of_signed
  | right =>
      rw [show peers₃.replica .right = peers₂.replica .right from hrightSame, hsignedRight]
        at hrightTakes
      exact hrightTakes.of_signed

/-- A round crosses what the two hold. -/
theorem crossed_of_crossing {peers peers' : Peers} {round : Round}
    (h : peers.run (peers.crossing round) = some peers') :
    Turns.Crossed ManifestEntry.canonical (· = []) peers.listens peers.views peers'.views where
  taken s := (takes_of_crossing h s).taken
  kept s := (takes_of_crossing h s).kept

/-- **Replicas that speak at the same time never agree**: where both can learn and
they differ, they can learn and differ after any number of rounds. -/
theorem differ_of_cross {peers peers' : Peers} {rounds : List Round} {key : BodyKey}
    (hlearns : ∀ s, Learns (peers.replica s) (peers.replica s.other) key)
    (hdiffer : ¬ peers.Agree key) (hcross : peers.cross rounds = some peers') :
    ¬ peers'.Agree key := by
  induction rounds generalizing peers with
  | nil =>
      cases hcross
      exact hdiffer
  | cons round rounds ih =>
      obtain ⟨peers₁, hround, hcross⟩ := Option.bind_eq_some_iff.mp hcross
      have hswap := fun s => ((crossed_of_crossing hround).swap (s := s) canonical_canonical hlearns).1
      have hteaches := ((crossed_of_crossing hround).swap (s := .left) canonical_canonical hlearns).2
      have hlistens : peers₁.listens = peers.listens :=
        listens_congr (fun s => (takes_of_crossing hround s).durable)
          fun s => (takes_of_crossing hround s).heads
      refine ih (fun s => ?_) (fun hagree => hdiffer ?_) hcross
      · have hs := hteaches s
        rw [← hlistens] at hs
        exact hs
      · -- What they now agree on, they agreed on before.
        have hleft : ManifestEntry.canonical ((peers₁.replica .left).refs key)
            = ManifestEntry.canonical ((peers.replica .right).refs key) := hswap .left
        have hright : ManifestEntry.canonical ((peers₁.replica .right).refs key)
            = ManifestEntry.canonical ((peers.replica .left).refs key) := hswap .right
        unfold Agree at hagree ⊢
        rw [← hleft, ← hright, hagree]

/-! ## Turns that follow each other -/

/-- Exports that are incorporated at once: who incorporates, and with what.  `sent`
counts what each has exported before. -/
def alternate (sent : Side → ℕ) : List (Side × CommitContext × Delivery) → List Exchange
  | [] => []
  | (side, ctx, delivery) :: turns =>
      .exportManifest side.other ctx :: .deliver side (sent side.other) delivery ::
        alternate (fun s => if s = side.other then sent s + 1 else sent s) turns

omit [Crypto] [Loro] [Aead] [Codecs] [ReceiptCodecs] in
/-- The receivers of alternating exchanges. -/
theorem receivers_alternate (sent : Side → ℕ) (turns : List (Side × CommitContext × Delivery)) :
    (alternate sent turns).filterMap Exchange.receiver = turns.map Prod.fst := by
  induction turns generalizing sent with
  | nil => rfl
  | cons turn turns ih =>
      obtain ⟨side, ctx, delivery⟩ := turn
      show side :: (alternate _ turns).filterMap Exchange.receiver = side :: turns.map Prod.fst
      rw [ih]

/-- **An advertisement incorporated at once is in turn.** -/
theorem alternate_takeTurns {peers : Peers} {sent : Side → ℕ}
    {turns : List (Side × CommitContext × Delivery)} (hsent : ∀ s, (peers.sent s).length = sent s) :
    peers.TakeTurns (alternate sent turns) := by
  induction turns generalizing peers sent with
  | nil => trivial
  | cons turn turns ih =>
      obtain ⟨side, ctx, delivery⟩ := turn
      refine ⟨trivial, fun peers₁ hexport => ?_⟩
      obtain ⟨⟨ad, hsent₁, had⟩, hkept, hsigned⟩ := exportManifest_signed hexport
      have hnew : (peers₁.sent side.other)[sent side.other]? = some ad := by
        rw [hsent₁, ← hsent]
        exact List.getElem?_concat_length
      have hcurrent : (peers₁.replica side.other).exportCatalogs = .ok (ad.bodies, ad.content) := by
        obtain ⟨_, hreplica⟩ := hsigned side.other
        rw [hreplica]
        exact had
      refine ⟨⟨rfl, ad, hnew, hcurrent⟩, fun peers₂ hdeliver => ih fun s => ?_⟩
      obtain ⟨hsent₂, -, -⟩ := step_deliver hnew hcurrent hdeliver
      rw [hsent₂]
      split
      case isTrue hs =>
        subst hs
        rw [hsent₁, List.length_append, hsent]
        rfl
      case isFalse hs =>
        rcases Side.eq_or_eq_other s side.other with rfl | rfl
        · exact absurd rfl hs
        · rw [hkept, hsent]

end Peers

end Swap

/-! ## One Body, two declarations -/

/-- A Replica that wrote the sample Body. -/
def writtenReplica : @Replica opLogLoro :=
  let _ := opLogLoro
  let _ := opLogAlgebra
  let _ := opLogCodec
  let _ := checksumCrypto
  let _ := plainAead
  let _ := wireCodecs
  let _ := wireReceiptCodecs
  let _ := wireReceiptMemory
  ({ sampleReplica with keys := some sampleKeys }.commitAction sampleActing sampleActing
    sampleRequest).1

/-- The same, with a content committed and declared for the Body. -/
def declaringReplica (nonce : UInt8) : @Replica opLogLoro :=
  let _ := opLogLoro
  let _ := checksumCrypto
  let _ := plainAead
  let _ := wireCodecs
  let _ := wireReceiptCodecs
  let committed := (writtenReplica.commitContent (sampleAmbient .sealed) sampleContext
    [sampleContent nonce]).1
  (committed.declareContent (sampleAmbient .sealed) sampleContext
    ((∅ : BTreeMap BodyKey (List Bytes)).insert sampleKey [(sampleContent nonce).contentRef])).1

/-- Two Replicas that hold the Body at one head and declare different content. -/
def swapping : @Peers opLogLoro :=
  let _ := opLogLoro
  ⟨fun
    | .left => declaringReplica 1
    | .right => declaringReplica 2, fun _ => []⟩

/-- An incorporation that trusts everybody. -/
def sampleDelivery : Delivery where
  authorityRecords := []
  authority := ⟨fun _ _ => true, fun _ => true⟩
  incorporateAuthority _ := true
  amb := ⟨fun _ => sampleAmbient .sealed, sampleAmbient .sealed⟩
  ctx := sampleContext

/-- A round of the samples. -/
def sampleRound : Round := ⟨fun _ => sampleContext, fun _ => sampleDelivery⟩

/-- The heads the sample Body is held at. -/
def sampleHeads : List ManifestHead :=
  let _ := opLogLoro
  (writtenReplica.heads sampleKey).getD []

/-- Whether a side holds the sample Body in a store at those heads, and declares
something for it. -/
def holdsSample (s : Side) : Bool :=
  let _ := opLogLoro
  (swapping.replica s).durable.isSome && (swapping.replica s).heads sampleKey = some sampleHeads &&
    ManifestEntry.canonical ((swapping.replica s).refs sampleKey) ≠ []

/-- Whether two rounds of the samples change both declarations and both frontiers
each time, and bring the declarations back. -/
def swapsTwice : Bool :=
  let _ := opLogLoro
  let _ := checksumCrypto
  let _ := plainAead
  let _ := wireCodecs
  let _ := wireReceiptCodecs
  (swapping.cross [sampleRound]).any fun peers => (peers.cross [sampleRound]).any fun peers' =>
    [Side.left, Side.right].all fun s =>
      peers.views s sampleKey = swapping.views s.other sampleKey &&
      peers'.views s sampleKey = swapping.views s sampleKey &&
      (peers.replica s).frontier ≠ (swapping.replica s).frontier &&
      (peers'.replica s).frontier ≠ (peers.replica s).frontier

theorem swapping_holdsSample :
    let _ := opLogLoro
    ManifestEntry.canonical sampleHeads = sampleHeads ∧ ¬ swapping.Agree sampleKey ∧
      ∀ s, holdsSample s = true := by
  intro _
  have hevaluated : ManifestEntry.canonical sampleHeads = sampleHeads ∧
      holdsSample .left = true ∧ holdsSample .right = true ∧ ¬ swapping.Agree sampleKey := by
    unfold Peers.Agree
    decide +kernel
  obtain ⟨hsorted, hleft, hright, hdiffer⟩ := hevaluated
  refine ⟨hsorted, hdiffer, fun s => ?_⟩
  cases s with
  | left => exact hleft
  | right => exact hright

theorem swapping_sameHeads :
    let _ := opLogLoro
    swapping.SameHeads sampleKey := by
  intro _
  refine ⟨fun _ => sampleHeads, fun s => ?_, rfl⟩
  have hholds := swapping_holdsSample.2.2 s
  simp only [holdsSample, Bool.and_eq_true, decide_eq_true_eq] at hholds
  exact hholds.1.2

theorem swapping_learns :
    let _ := opLogLoro
    ∀ s, Learns (swapping.replica s) (swapping.replica s.other) sampleKey := by
  intro _ s
  obtain ⟨hsorted, -, hholds⟩ := swapping_holdsSample
  have hself := hholds s
  have hother := hholds s.other
  simp only [holdsSample, Bool.and_eq_true, decide_eq_true_eq] at hself hother
  refine ⟨⟨hself.1.1, sampleHeads, hother.1.2, ?_⟩, hother.2⟩
  rw [hsorted]
  exact hself.1.2

/-- **Declarations need not converge.**  Two Replicas hold one Body at one head and
declare different content for it.  After any number of rounds in which both export
before either incorporates they still differ: two such rounds exchange the
declarations and exchange them back, and each moves both frontiers. -/
theorem declarations_swap :
    let _ := opLogLoro
    let _ := checksumCrypto
    let _ := plainAead
    let _ := wireCodecs
    let _ := wireReceiptCodecs
    swapping.SameHeads sampleKey ∧
      (∀ (rounds : List Round) (peers : Peers), swapping.cross rounds = some peers →
        ¬ peers.Agree sampleKey) ∧
      ∃ peers peers' : Peers, swapping.cross [sampleRound] = some peers ∧
        peers.cross [sampleRound] = some peers' ∧ ∀ s,
          peers.views s sampleKey = swapping.views s.other sampleKey ∧
          peers'.views s sampleKey = swapping.views s sampleKey ∧
          (peers.replica s).frontier ≠ (swapping.replica s).frontier ∧
          (peers'.replica s).frontier ≠ (peers.replica s).frontier := by
  intro _ _ _ _ _
  refine ⟨swapping_sameHeads, fun rounds peers hcross => ?_, ?_⟩
  · exact Peers.differ_of_cross swapping_learns swapping_holdsSample.2.1 hcross
  · have hevaluated : swapsTwice = true := by decide +kernel
    unfold swapsTwice at hevaluated
    obtain ⟨peers, hcross, hevaluated⟩ := (Option.any_eq_true _ _).mp hevaluated
    obtain ⟨peers', hcross', hevaluated⟩ := (Option.any_eq_true _ _).mp hevaluated
    refine ⟨peers, peers', hcross, hcross', fun s => ?_⟩
    have hs := List.all_eq_true.mp hevaluated s (by cases s <;> simp)
    simpa only [Bool.and_eq_true, decide_eq_true_eq, and_assoc] using hs

/-- Three turns. -/
def sampleTurns : List (Side × CommitContext × Delivery) :=
  [(.right, sampleContext, sampleDelivery), (.left, sampleContext, sampleDelivery),
    (.right, sampleContext, sampleDelivery)]

/-- **Taking turns settles the same two Replicas.** -/
theorem swapping_settle :
    let _ := opLogLoro
    let _ := checksumCrypto
    let _ := plainAead
    let _ := wireCodecs
    let _ := wireReceiptCodecs
    ∃ peers : Peers, swapping.run (Peers.alternate (fun _ => 0) sampleTurns) = some peers ∧
      peers.Agree sampleKey := by
  intro _ _ _ _ _
  have hevaluated : (swapping.run (Peers.alternate (fun _ => 0) sampleTurns)).isSome = true ∧
      ∀ entry ∈ (swapping.replica .left).catalogs.contentIndex.toList ++
        (swapping.replica .right).catalogs.contentIndex.toList,
        entry.1 = contentIndexKey entry.2.contentRef := by decide +kernel
  obtain ⟨hruns, hentries⟩ := hevaluated
  obtain ⟨peers, hrun⟩ := Option.isSome_iff_exists.mp hruns
  have hcatalogued : ∀ s, (swapping.replica s).Catalogued := by
    intro s k d hd
    have hmem := BTreeMap.mem_toList_iff.mpr hd
    cases s with
    | left => exact hentries (k, d) (List.mem_append_left _ hmem)
    | right => exact hentries (k, d) (List.mem_append_right _ hmem)
  have hturns : swapping.TakeTurns (Peers.alternate (fun _ => 0) sampleTurns ++ []) := by
    rw [List.append_nil]
    exact Peers.alternate_takeTurns fun s => rfl
  have hrounds : [Side.right, Side.right.other, Side.right].Sublist
      ((Peers.alternate (fun _ => 0) sampleTurns).filterMap Exchange.receiver) := by
    rw [Peers.receivers_alternate]
    exact List.Sublist.refl _
  have hlearns : swapping.CanLearn sampleKey :=
    (Peers.canLearn_iff swapping_sameHeads).mpr ⟨.left, swapping_learns .left⟩
  exact ⟨peers, hrun, ((Peers.declarations_converge swapping_sameHeads hcatalogued hrun rfl hturns
    hrounds).1.mpr (.inr hlearns)).1⟩

end Lait.Replica
