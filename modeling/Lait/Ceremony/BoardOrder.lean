import Lait.Ceremony.Filing
import Lait.Ceremony.MaterialLog

/-!
# The board and the order of arrival

Two ledgers with the same ceremony events may have appended them in different
orders, and `parseBoard` reads them in that order: of an author's rounds it keeps
the first, of an authority's grants the last.  The boards agree all the same as
long as there is nothing to choose between.

`Unequivocal` says so of the events: no permitted author has two contributions
in one slot of an opened transcript, no authority two grants of one opened
proposal.  `boards_agree_iff` is that the boards of all ledgers with these events
agree exactly then.  A coordinator that publishes two plans is the case that
matters: each ledger keeps the plan it heard first (`plans_differ`).
-/

namespace Lait.Ceremony

open Arrival

/-! ## Agreement -/

/-- What a key-generation transcript holds in a slot. -/
def DkgTranscript.contribution (t : DkgTranscript) (slot : Slot) : Option Verified :=
  t.rounds.find? fun v => v.slot = some slot

/-- What a signing transcript holds in a slot. -/
def SignTranscript.contribution (t : SignTranscript) (slot : Slot) : Option Verified :=
  t.rounds.find? fun v => v.slot = some slot

/-- Two boards hold the same proposals and grants, the same requests, the same
contribution in every slot, and so the same plans. -/
structure CeremonyBoard.Agree [Postcard SigningPlan] (board board' : CeremonyBoard) : Prop where
  proposals : ∀ t : TranscriptId,
    board.dkg[t]?.map DkgTranscript.proposal = board'.dkg[t]?.map DkgTranscript.proposal
  grants : ∀ (t : TranscriptId) (signer : Text),
    board.dkg[t]?.map (fun tr => tr.auths[signer]?)
      = board'.dkg[t]?.map (fun tr => tr.auths[signer]?)
  rounds : ∀ (t : TranscriptId) (slot : Slot),
    board.dkg[t]?.bind (fun tr => tr.contribution slot)
      = board'.dkg[t]?.bind (fun tr => tr.contribution slot)
  requests : ∀ t : TranscriptId,
    board.signing[t]?.map SignTranscript.request = board'.signing[t]?.map SignTranscript.request
  signingRounds : ∀ (t : TranscriptId) (slot : Slot),
    board.signing[t]?.bind (fun tr => tr.contribution slot)
      = board'.signing[t]?.bind (fun tr => tr.contribution slot)
  plans : ∀ t : TranscriptId,
    board.signing[t]?.bind SignTranscript.plan = board'.signing[t]?.bind SignTranscript.plan
  resharePlans : ∀ t : TranscriptId,
    board.dkg[t]?.bind DkgTranscript.resharePlan = board'.dkg[t]?.bind DkgTranscript.resharePlan

namespace CeremonyBoard

/-! ## Slots -/

/-- A round has a slot. -/
theorem exists_slot {v : Verified} {t : TranscriptId}
    (h : v.op.dkgRound = some t ∨ v.op.signingRound = some t) : ∃ slot, v.slot = some slot := by
  unfold Verified.slot
  cases hop : v.op <;> simp [hop, CeremonyOp.dkgRound, CeremonyOp.signingRound, roundKey] at h ⊢

/-- An entry that names a transcript, in a slot of a permitted author. -/
def inSlot (round : CeremonyOp → Option TranscriptId) (t : TranscriptId)
    (permitted : List DeviceId) (slot : Slot) (v : Verified) : Option Verified :=
  if round v.op = some t ∧ names permitted v.author ∧ v.slot = some slot then some v else none

theorem inSlot_eq_some {round : CeremonyOp → Option TranscriptId} {t : TranscriptId}
    {permitted : List DeviceId} {slot : Slot} {v x : Verified} :
    inSlot round t permitted slot v = some x ↔
      (round v.op = some t ∧ names permitted v.author = true ∧ v.slot = some slot) ∧ v = x := by
  simp [inSlot]

/-- What is kept of a transcript's rounds in a slot is the first entry in it. -/
theorem find?_keepRounds (round : CeremonyOp → Option TranscriptId) (t : TranscriptId)
    (permitted : List DeviceId) (slot : Slot) (entries : List Verified) :
    (keepRounds permitted (entries.filter fun v => round v.op = some t)).find?
        (fun v => v.slot = some slot)
      = entries.findSome? (inSlot round t permitted slot) := by
  unfold keepRounds
  rw [find?_retainFirst, List.find?_filter, ← List.findSome?_guard]
  refine congrArg (fun f => entries.findSome? f) (funext fun v => ?_)
  unfold inSlot
  by_cases hround : round v.op = some t
  · by_cases hname : names permitted v.author = true
    · by_cases hslot : v.slot = some slot
      · simp [Option.guard, passes, hround, hname, hslot]
      · simp [Option.guard, passes, hslot]
    · simp [Option.guard, passes, hname]
  · simp [Option.guard, hround]

/-- A question one slot can answer is answered by what is kept in it. -/
theorem findSome?_keepRounds {β : Type} {f : Verified → Option β} {slot : Slot}
    (hslot : ∀ v x, f v = some x → v.slot = some slot) (permitted : List DeviceId)
    (rounds : List Verified) :
    (keepRounds permitted rounds).findSome? f
      = ((keepRounds permitted rounds).find? fun v => v.slot = some slot).bind f := by
  unfold keepRounds
  rw [findSome?_retainFirst hslot, if_neg (Finset.notMem_empty _), find?_retainFirst]

/-- A plan stands in the coordinator's slot. -/
theorem slot_of_planBy [Postcard SigningPlan] {coordinator : DeviceId} {v : Verified}
    {plan : SigningPlan} (h : SignTranscript.planBy coordinator v = some plan) :
    v.slot = some (coordinator.fold, 5, Bytes.empty) := by
  unfold SignTranscript.planBy at h
  split at h
  case h_1 signing bytes hop =>
    split at h
    case isTrue hsame =>
      rw [Verified.slot, hop, ← show v.author.fold = coordinator.fold from of_decide_eq_true hsame]
      rfl
    case isFalse => cases h
  case h_2 => cases h

variable [Crypto] [Postcard Config] [Postcard FrostThresholdConfig]
  [Postcard GeneralAccessConfig] [Postcard AuthorityGrant] [Postcard CeremonyOp] [GroupKeys]

/-! ## Entries -/

/-- The verified entries of a list of events, in order. -/
def posts (ws : SpaceId) (events : List SignedNode) : List Verified := events.filterMap (verified ws)

section Posts

omit [Postcard Config] [Postcard FrostThresholdConfig] [Postcard GeneralAccessConfig]
  [Postcard AuthorityGrant] [GroupKeys]

variable {ws : SpaceId} {events : List SignedNode}

theorem verified_eq_some {ev : SignedNode} {v : Verified} (h : verified ws ev = some v) :
    TranscriptId.of ev = some v.id := by
  unfold verified at h
  split at h
  case isTrue =>
    simp only [Option.bind_eq_bind, Option.bind_eq_some_iff] at h
    obtain ⟨op, -, id, hid, hv⟩ := h
    cases hv
    exact hid
  case isFalse => cases h

/-- Of events with different hashes, an id names one entry. -/
theorem posts_inj (hnodup : (events.map SignedNode.hash).Nodup) {v v' : Verified}
    (hv : v ∈ posts ws events) (hv' : v' ∈ posts ws events) (hid : v.id = v'.id) : v = v' := by
  obtain ⟨ev, hev, hverified⟩ := List.mem_filterMap.mp hv
  obtain ⟨ev', hev', hverified'⟩ := List.mem_filterMap.mp hv'
  have hhash : ev.hash = ev'.hash := by
    refine TranscriptId.parseHex_inj (verified_eq_some hverified) ?_
    rw [hid]
    exact verified_eq_some hverified'
  have hsame : ev = ev' := List.inj_on_of_nodup_map hnodup hev hev' hhash
  rw [hsame, hverified'] at hverified
  exact (Option.some.inj hverified).symm

theorem posts_perm {events' : List SignedNode} (hperm : events.Perm events') :
    (posts ws events).Perm (posts ws events') := hperm.filterMap _

theorem findSome?_posts {β : Type} (f : Verified → Option β) (events : List SignedNode) :
    (posts ws events).findSome? f = events.findSome? fun ev => (verified ws ev).bind f := by
  induction events with
  | nil => rfl
  | cons ev events ih =>
      unfold posts at ih ⊢
      rw [List.filterMap_cons, List.findSome?_cons]
      cases hev : verified ws ev with
      | none => exact ih
      | some v =>
          dsimp only
          rw [List.findSome?_cons, ih]
          rfl

/-- Over the orders of the events, an answer is settled when no two entries
answer differently. -/
theorem findSome?_posts_iff (ws : SpaceId) (events : List SignedNode) {β : Type}
    (f : Verified → Option β) :
    (∀ events', events.Perm events' →
        (posts ws events').findSome? f = (posts ws events).findSome? f) ↔
      ∀ v ∈ posts ws events, ∀ v' ∈ posts ws events, ∀ x y,
        f v = some x → f v' = some y → x = y := by
  simp only [findSome?_posts]
  rw [findSome?_perm_iff]
  constructor
  · intro h v hv v' hv' x y hx hy
    obtain ⟨ev, hev, hverified⟩ := List.mem_filterMap.mp hv
    obtain ⟨ev', hev', hverified'⟩ := List.mem_filterMap.mp hv'
    refine h ev hev ev' hev' x y ?_ ?_
    · rw [hverified]
      exact hx
    · rw [hverified']
      exact hy
  · intro h ev hev ev' hev' x y hx hy
    obtain ⟨v, hv, hx⟩ := Option.bind_eq_some_iff.mp hx
    obtain ⟨v', hv', hy⟩ := Option.bind_eq_some_iff.mp hy
    exact h v (List.mem_filterMap.mpr ⟨ev, hev, hv⟩) v' (List.mem_filterMap.mpr ⟨ev', hev', hv'⟩)
      x y hx hy

theorem lastAnswer_posts_iff {β : Type} {f : Verified → Option β} :
    (∀ events', events.Perm events' →
        lastAnswer f (posts ws events') = lastAnswer f (posts ws events)) ↔
      ∀ v ∈ posts ws events, ∀ v' ∈ posts ws events, ∀ x y,
        f v = some x → f v' = some y → x = y := by
  have hreverse : ∀ events : List SignedNode,
      lastAnswer f (posts ws events) = (posts ws events.reverse).findSome? f := by
    intro events
    unfold lastAnswer posts
    rw [List.filterMap_reverse]
  have hiff := findSome?_posts_iff ws events.reverse f
  have hmem : ∀ v, v ∈ posts ws events.reverse ↔ v ∈ posts ws events := by
    intro v
    exact (posts_perm (List.reverse_perm events)).mem_iff
  simp only [hmem] at hiff
  rw [← hiff]
  constructor
  · intro h events' hperm
    have hevents' := h events'.reverse
      ((List.reverse_perm events).symm.trans (hperm.trans (List.reverse_perm events').symm))
    rwa [hreverse, hreverse, List.reverse_reverse] at hevents'
  · intro h events' hperm
    rw [hreverse, hreverse]
    exact h events'.reverse
      ((List.reverse_perm events).trans (hperm.trans (List.reverse_perm events').symm))

/-- The proposal that opens a key-generation transcript. -/
def proposalOf (ws : SpaceId) (events : List SignedNode) (t : TranscriptId) : Option Verified :=
  lastAnswer (opensDkg t) (posts ws events)

/-- The request that opens a signing transcript. -/
def requestOf (ws : SpaceId) (events : List SignedNode) (t : TranscriptId) : Option Verified :=
  lastAnswer (opensSigning t) (posts ws events)

/-- One event opens a transcript, so the order does not matter. -/
theorem proposalOf_perm (hnodup : (events.map SignedNode.hash).Nodup) (t : TranscriptId)
    {events' : List SignedNode} (hperm : events.Perm events') :
    proposalOf ws events' t = proposalOf ws events t := by
  refine lastAnswer_posts_iff.mpr (fun v hv v' hv' x y hx hy => ?_) events' hperm
  obtain ⟨rfl, hid⟩ := opensDkg_eq_some hx
  obtain ⟨rfl, hid'⟩ := opensDkg_eq_some hy
  exact posts_inj hnodup hv hv' (hid.trans hid'.symm)

theorem requestOf_perm (hnodup : (events.map SignedNode.hash).Nodup) (t : TranscriptId)
    {events' : List SignedNode} (hperm : events.Perm events') :
    requestOf ws events' t = requestOf ws events t := by
  refine lastAnswer_posts_iff.mpr (fun v hv v' hv' x y hx hy => ?_) events' hperm
  obtain ⟨rfl, hid⟩ := opensSigning_eq_some hx
  obtain ⟨rfl, hid'⟩ := opensSigning_eq_some hy
  exact posts_inj hnodup hv hv' (hid.trans hid'.symm)

/-- The slots of a transcript whose permitted authors are known agree in every
order exactly when no permitted author has two entries in one. -/
theorem slots_perm_iff {round : CeremonyOp → Option TranscriptId}
    (hround : ∀ (v : Verified) (t : TranscriptId), round v.op = some t →
      ∃ slot, v.slot = some slot) (t : TranscriptId) (permitted : List DeviceId) :
    (∀ slot events', events.Perm events' →
        (posts ws events').findSome? (inSlot round t permitted slot)
          = (posts ws events).findSome? (inSlot round t permitted slot)) ↔
      ∀ v ∈ posts ws events, ∀ v' ∈ posts ws events, round v.op = some t →
        round v'.op = some t → names permitted v.author = true →
          names permitted v'.author = true → v.slot = v'.slot → v = v' := by
  simp only [findSome?_posts_iff, inSlot_eq_some]
  constructor
  · intro h v hv v' hv' hop hop' hname hname' hslot
    obtain ⟨slot, hv₁⟩ := hround v t hop
    exact h slot v hv v' hv' v v' ⟨⟨hop, hname, hv₁⟩, rfl⟩ ⟨⟨hop', hname', hslot ▸ hv₁⟩, rfl⟩
  · rintro h slot v hv v' hv' x y ⟨⟨hop, hname, hslot⟩, rfl⟩ ⟨⟨hop', hname', hslot'⟩, rfl⟩
    exact h v hv v' hv' hop hop' hname hname' (hslot.trans hslot'.symm)

end Posts

/-! ## Reading a board -/

/-- The devices a proposal makes participants. -/
def proposalDevices (proposal : Verified) : Option (List DeviceId) :=
  match proposal.op with
  | .dkgPropose p => p.frostDevices
  | _ => none

/-- The devices a signing transcript's rounds are kept from. -/
def requestSigners (ws : SpaceId) (fallback : TranscriptId → Option (List DeviceId))
    (events : List SignedNode) (request : Verified) : List DeviceId :=
  match request.op with
  | .signRequest _ authority _ _ _ =>
      (((proposalOf ws events authority).bind proposalDevices).or (fallback authority)).getD []
  | _ => []

section Read

variable (ws : SpaceId) (events : List SignedNode) (fallback : TranscriptId → Option (List DeviceId))

theorem parseBoard_eq : parseBoard events ws = ((posts ws events).foldl (file ws) {}).retain := by
  unfold parseBoard posts
  rw [List.foldl_filterMap]
  congr 1
  refine List.foldl_ext _ _ _ fun board ev _ => ?_
  cases verified ws ev <;> rfl

/-- A key-generation transcript of the board. -/
theorem dkg_ceremonyBoard (t : TranscriptId) :
    (ceremonyBoard events ws fallback).dkg[t]? = (proposalOf ws events t).map fun proposal =>
      { ((posts ws events).foldl (file ws) {}).dkgAt t with
        rounds := keepRounds (participants proposal)
          ((posts ws events).filter fun v => v.op.dkgRound = some t) } := by
  obtain ⟨hproposal, -, hrounds⟩ := dkgAt_foldl t ws (posts ws events)
  show (parseBoard events ws).dkg[t]? = _
  rw [parseBoard_eq, dkg_retain, hproposal, hrounds]
  rfl

/-- The participants an authority resolves to. -/
theorem dkgParticipants_parseBoard (authority : TranscriptId) :
    (parseBoard events ws).dkgParticipants authority
      = (proposalOf ws events authority).bind proposalDevices := by
  unfold dkgParticipants
  rw [show (parseBoard events ws).dkg[authority]? = _ from
    dkg_ceremonyBoard ws events (fun _ => none) authority]
  obtain ⟨hproposal, -, -⟩ := dkgAt_foldl authority ws (posts ws events)
  cases hopen : proposalOf ws events authority with
  | none => rfl
  | some proposal =>
      simp only [Option.map_some, Option.bind_eq_bind, Option.bind_some]
      rw [hproposal, show lastAnswer (opensDkg authority) (posts ws events) = some proposal from hopen]
      unfold proposalDevices
      cases hop : proposal.op <;> simp [hop]

/-- A signing transcript of the board. -/
theorem signing_ceremonyBoard (t : TranscriptId) :
    (ceremonyBoard events ws fallback).signing[t]? = (requestOf ws events t).map fun request =>
      { request := some request
        rounds := keepRounds (requestSigners ws fallback events request)
          ((posts ws events).filter fun v => v.op.signingRound = some t) } := by
  obtain ⟨hrequest, hrounds⟩ := signingAt_foldl t ws (posts ws events)
  show ((parseBoard events ws).signing.map _)[t]? = _
  rw [BTreeMap.get_map, parseBoard_eq, signing_retain, hrequest, ← parseBoard_eq]
  cases hopen : requestOf ws events t with
  | none =>
      rw [show lastAnswer (opensSigning t) (posts ws events) = none from hopen]
      rfl
  | some request =>
      rw [show lastAnswer (opensSigning t) (posts ws events) = some request from hopen] at hrequest ⊢
      simp only [Option.map_some]
      rw [hrequest, hrounds]
      have hsigners : (signers (parseBoard events ws) fallback
          (((posts ws events).foldl (file ws) {}).signingAt t)).getD []
          = requestSigners ws fallback events request := by
        unfold signers requestSigners
        rw [hrequest]
        simp only [Option.map_some]
        cases request.op <;> simp [dkgParticipants_parseBoard]
      rw [hsigners]

/-- What the board holds of each transcript, as answers of the entries. -/
theorem read_dkg (t : TranscriptId) (signer : Text) (slot : Slot) :
    (ceremonyBoard events ws fallback).dkg[t]?.map DkgTranscript.proposal
        = (proposalOf ws events t).map some ∧
      (ceremonyBoard events ws fallback).dkg[t]?.map (fun tr => tr.auths[signer]?)
        = (proposalOf ws events t).map (fun _ => lastAnswer (grants ws t signer) (posts ws events)) ∧
      (ceremonyBoard events ws fallback).dkg[t]?.bind (fun tr => tr.contribution slot)
        = (proposalOf ws events t).bind (fun proposal => (posts ws events).findSome?
            (inSlot CeremonyOp.dkgRound t (participants proposal) slot)) := by
  obtain ⟨hproposal, hauths, -⟩ := dkgAt_foldl t ws (posts ws events)
  rw [dkg_ceremonyBoard]
  cases hopen : proposalOf ws events t with
  | none => exact ⟨rfl, rfl, rfl⟩
  | some proposal =>
      refine ⟨?_, ?_, ?_⟩
      · rw [Option.map_some, Option.map_some, Option.map_some, hproposal,
          show lastAnswer (opensDkg t) (posts ws events) = some proposal from hopen]
      · simp only [Option.map_some]
        rw [hauths]
      · exact find?_keepRounds CeremonyOp.dkgRound t _ slot _

theorem read_signing (t : TranscriptId) (slot : Slot) :
    (ceremonyBoard events ws fallback).signing[t]?.map SignTranscript.request
        = (requestOf ws events t).map some ∧
      (ceremonyBoard events ws fallback).signing[t]?.bind (fun tr => tr.contribution slot)
        = (requestOf ws events t).bind (fun request => (posts ws events).findSome?
            (inSlot CeremonyOp.signingRound t (requestSigners ws fallback events request) slot)) := by
  rw [signing_ceremonyBoard]
  cases hopen : requestOf ws events t with
  | none => exact ⟨rfl, rfl⟩
  | some request => exact ⟨rfl, find?_keepRounds CeremonyOp.signingRound t _ slot _⟩

/-- The signing plan is read from the coordinator's slot. -/
theorem read_plan [Postcard SigningPlan] (t : TranscriptId) :
    (ceremonyBoard events ws fallback).signing[t]?.bind SignTranscript.plan
      = (requestOf ws events t).bind fun request =>
          match request.op with
          | .signRequest _ _ _ coordinator _ =>
              ((ceremonyBoard events ws fallback).signing[t]?.bind fun tr =>
                tr.contribution (coordinator.fold, 5, Bytes.empty)).bind
                  (SignTranscript.planBy coordinator)
          | _ => none := by
  rw [signing_ceremonyBoard]
  cases hopen : requestOf ws events t with
  | none => rfl
  | some request =>
      simp only [Option.map_some, Option.bind_some]
      unfold SignTranscript.plan
      simp only [Option.map_some]
      cases hop : request.op with
      | signRequest nonce authority target coordinator op =>
          exact findSome?_keepRounds (fun _ _ => slot_of_planBy) _ _
      | _ => rfl

/-- The reshare plan is read from the slot of the proposal's author. -/
theorem read_resharePlan (t : TranscriptId) :
    (ceremonyBoard events ws fallback).dkg[t]?.bind DkgTranscript.resharePlan
      = (proposalOf ws events t).bind fun proposal =>
          ((ceremonyBoard events ws fallback).dkg[t]?.bind fun tr =>
            tr.contribution (proposal.author.fold, 9, Bytes.empty)).bind
              (DkgTranscript.qualifiedBy proposal.author) := by
  have hslot : ∀ (author : DeviceId) (v : Verified) (qualified : List ℕ),
      DkgTranscript.qualifiedBy author v = some qualified →
        v.slot = some (author.fold, 9, Bytes.empty) := by
    intro author v qualified h
    unfold DkgTranscript.qualifiedBy at h
    split at h
    case h_1 dkg q hop =>
      split at h
      case isTrue hsame =>
        rw [Verified.slot, hop, ← show v.author.fold = author.fold from of_decide_eq_true hsame]
        rfl
      case isFalse => cases h
    case h_2 => cases h
  obtain ⟨hproposal, -, -⟩ := dkgAt_foldl t ws (posts ws events)
  rw [dkg_ceremonyBoard]
  cases hopen : proposalOf ws events t with
  | none => rfl
  | some proposal =>
      simp only [Option.map_some, Option.bind_some]
      unfold DkgTranscript.resharePlan
      dsimp only
      rw [hproposal, show lastAnswer (opensDkg t) (posts ws events) = some proposal from hopen]
      exact findSome?_keepRounds (hslot proposal.author) _ _

end Read

/-! ## When the order does not matter -/

/-- No permitted author has two contributions in one slot of an opened
transcript, and no authority two grants of one opened proposal. -/
structure Unequivocal (ws : SpaceId) (fallback : TranscriptId → Option (List DeviceId))
    (events : List SignedNode) : Prop where
  rounds : ∀ (t : TranscriptId) (proposal : Verified), proposalOf ws events t = some proposal →
    ∀ v ∈ posts ws events, ∀ v' ∈ posts ws events, v.op.dkgRound = some t →
      v'.op.dkgRound = some t → names (participants proposal) v.author = true →
        names (participants proposal) v'.author = true → v.slot = v'.slot → v = v'
  signingRounds : ∀ (t : TranscriptId) (request : Verified), requestOf ws events t = some request →
    ∀ v ∈ posts ws events, ∀ v' ∈ posts ws events, v.op.signingRound = some t →
      v'.op.signingRound = some t →
        names (requestSigners ws fallback events request) v.author = true →
          names (requestSigners ws fallback events request) v'.author = true →
            v.slot = v'.slot → v = v'
  grants : ∀ (t : TranscriptId) (proposal : Verified), proposalOf ws events t = some proposal →
    ∀ v ∈ posts ws events, ∀ v' ∈ posts ws events, ∀ grant grant',
      v.op = .dkgAuthorize grant → v'.op = .dkgAuthorize grant' →
        authorityGrantOf grant ws = some ⟨t⟩ → authorityGrantOf grant' ws = some ⟨t⟩ →
          grant.author.same grant'.author = true → grant = grant'

section Converge

variable [Postcard SigningPlan]
variable {ws : SpaceId} {fallback : TranscriptId → Option (List DeviceId)}
  {events : List SignedNode}

omit [Postcard Config] [Postcard AuthorityGrant] [GroupKeys] [Postcard SigningPlan] in
/-- Who may sign does not depend on the order. -/
theorem requestSigners_perm (hnodup : (events.map SignedNode.hash).Nodup)
    {events' : List SignedNode} (hperm : events.Perm events') (request : Verified) :
    requestSigners ws fallback events' request = requestSigners ws fallback events request := by
  unfold requestSigners
  split
  · rw [proposalOf_perm hnodup _ hperm]
  · rfl

omit [Postcard SigningPlan] in
/-- The boards show one contribution in each slot of a proposal, in every order of the events,
exactly when no participant has two in one. -/
theorem rounds_perm_iff (hnodup : (events.map SignedNode.hash).Nodup) {t : TranscriptId}
    {proposal : Verified} (hopen : proposalOf ws events t = some proposal) :
    (∀ slot events', events.Perm events' →
        (ceremonyBoard events' ws fallback).dkg[t]?.bind (fun tr => tr.contribution slot)
          = (ceremonyBoard events ws fallback).dkg[t]?.bind fun tr => tr.contribution slot) ↔
      ∀ v ∈ posts ws events, ∀ v' ∈ posts ws events, v.op.dkgRound = some t →
        v'.op.dkgRound = some t → names (participants proposal) v.author = true →
          names (participants proposal) v'.author = true → v.slot = v'.slot → v = v' := by
  rw [← slots_perm_iff (fun v t hop => exists_slot (.inl hop)) t (participants proposal)]
  refine forall_congr' fun slot => forall_congr' fun events' => forall_congr' fun hperm => ?_
  rw [(read_dkg ws events' fallback t Bytes.empty slot).2.2,
    (read_dkg ws events fallback t Bytes.empty slot).2.2, proposalOf_perm hnodup t hperm, hopen]
  rfl

omit [Postcard SigningPlan] in
/-- The same for the slots of a request. -/
theorem signingRounds_perm_iff (hnodup : (events.map SignedNode.hash).Nodup) {t : TranscriptId}
    {request : Verified} (hopen : requestOf ws events t = some request) :
    (∀ slot events', events.Perm events' →
        (ceremonyBoard events' ws fallback).signing[t]?.bind (fun tr => tr.contribution slot)
          = (ceremonyBoard events ws fallback).signing[t]?.bind fun tr => tr.contribution slot) ↔
      ∀ v ∈ posts ws events, ∀ v' ∈ posts ws events, v.op.signingRound = some t →
        v'.op.signingRound = some t →
          names (requestSigners ws fallback events request) v.author = true →
            names (requestSigners ws fallback events request) v'.author = true →
              v.slot = v'.slot → v = v' := by
  rw [← slots_perm_iff (fun v t hop => exists_slot (.inr hop)) t
    (requestSigners ws fallback events request)]
  refine forall_congr' fun slot => forall_congr' fun events' => forall_congr' fun hperm => ?_
  rw [(read_signing ws events' fallback t slot).2, (read_signing ws events fallback t slot).2,
    requestOf_perm hnodup t hperm, hopen, Option.bind_some, Option.bind_some,
    requestSigners_perm hnodup hperm]

omit [Postcard SigningPlan] in
/-- The boards show one grant of each signer, in every order of the events, exactly when no
signer has two. -/
theorem grants_perm_iff (hnodup : (events.map SignedNode.hash).Nodup) {t : TranscriptId}
    {proposal : Verified} (hopen : proposalOf ws events t = some proposal) (signer : Text) :
    (∀ events', events.Perm events' →
        (ceremonyBoard events' ws fallback).dkg[t]?.map (fun tr => tr.auths[signer]?)
          = (ceremonyBoard events ws fallback).dkg[t]?.map fun tr => tr.auths[signer]?) ↔
      ∀ v ∈ posts ws events, ∀ v' ∈ posts ws events, ∀ grant grant',
        grants ws t signer v = some grant → grants ws t signer v' = some grant' →
          grant = grant' := by
  rw [← lastAnswer_posts_iff]
  refine forall_congr' fun events' => forall_congr' fun hperm => ?_
  rw [(read_dkg ws events' fallback t signer (Bytes.empty, 0, Bytes.empty)).2.1,
    (read_dkg ws events fallback t signer (Bytes.empty, 0, Bytes.empty)).2.1,
    proposalOf_perm hnodup t hperm, hopen, Option.map_some, Option.map_some, Option.some.injEq]

/-- Boards that agree in every order are of unequivocal events. -/
theorem unequivocal_of_agree (hnodup : (events.map SignedNode.hash).Nodup)
    (h : ∀ events', events.Perm events' →
      Agree (ceremonyBoard events' ws fallback) (ceremonyBoard events ws fallback)) :
    Unequivocal ws fallback events where
  rounds t _ hopen :=
    (rounds_perm_iff hnodup hopen).mp fun slot events' hperm => (h events' hperm).rounds t slot
  signingRounds t _ hopen :=
    (signingRounds_perm_iff hnodup hopen).mp fun slot events' hperm =>
      (h events' hperm).signingRounds t slot
  grants t proposal hopen v hv v' hv' grant grant' hop hop' hinner hinner' hsame := by
    refine (grants_perm_iff hnodup hopen grant'.author.fold).mp
      (fun events' hperm => (h events' hperm).grants t _) v hv v' hv' grant grant' ?_ ?_
    · exact grants_eq_some.mpr ⟨hop, hinner, of_decide_eq_true hsame⟩
    · exact grants_eq_some.mpr ⟨hop', hinner', rfl⟩

omit [Postcard SigningPlan] in
/-- Of unequivocal events the boards show the same contributions. -/
theorem Unequivocal.rounds_perm (h : Unequivocal ws fallback events)
    (hnodup : (events.map SignedNode.hash).Nodup) {events' : List SignedNode}
    (hperm : events.Perm events') (t : TranscriptId) (slot : Slot) :
    (ceremonyBoard events' ws fallback).dkg[t]?.bind (fun tr => tr.contribution slot)
      = (ceremonyBoard events ws fallback).dkg[t]?.bind fun tr => tr.contribution slot := by
  cases hopen : proposalOf ws events t with
  | none =>
      rw [(read_dkg ws events' fallback t Bytes.empty slot).2.2,
        (read_dkg ws events fallback t Bytes.empty slot).2.2, proposalOf_perm hnodup t hperm, hopen]
      rfl
  | some proposal =>
      exact (rounds_perm_iff hnodup hopen).mpr (h.rounds t proposal hopen) slot events' hperm

omit [Postcard SigningPlan] in
theorem Unequivocal.signingRounds_perm (h : Unequivocal ws fallback events)
    (hnodup : (events.map SignedNode.hash).Nodup) {events' : List SignedNode}
    (hperm : events.Perm events') (t : TranscriptId) (slot : Slot) :
    (ceremonyBoard events' ws fallback).signing[t]?.bind (fun tr => tr.contribution slot)
      = (ceremonyBoard events ws fallback).signing[t]?.bind fun tr => tr.contribution slot := by
  cases hopen : requestOf ws events t with
  | none =>
      rw [(read_signing ws events' fallback t slot).2, (read_signing ws events fallback t slot).2,
        requestOf_perm hnodup t hperm, hopen]
      rfl
  | some request =>
      exact (signingRounds_perm_iff hnodup hopen).mpr (h.signingRounds t request hopen) slot
        events' hperm

omit [Postcard SigningPlan] in
theorem Unequivocal.grants_perm (h : Unequivocal ws fallback events)
    (hnodup : (events.map SignedNode.hash).Nodup) {events' : List SignedNode}
    (hperm : events.Perm events') (t : TranscriptId) (signer : Text) :
    (ceremonyBoard events' ws fallback).dkg[t]?.map (fun tr => tr.auths[signer]?)
      = (ceremonyBoard events ws fallback).dkg[t]?.map fun tr => tr.auths[signer]? := by
  cases hopen : proposalOf ws events t with
  | none =>
      rw [(read_dkg ws events' fallback t signer (Bytes.empty, 0, Bytes.empty)).2.1,
        (read_dkg ws events fallback t signer (Bytes.empty, 0, Bytes.empty)).2.1,
        proposalOf_perm hnodup t hperm, hopen]
      rfl
  | some proposal =>
      refine (grants_perm_iff hnodup hopen signer).mpr (fun v hv v' hv' x y hx hy => ?_) events' hperm
      obtain ⟨hop, hinner, hsigner⟩ := grants_eq_some.mp hx
      obtain ⟨hop', hinner', hsigner'⟩ := grants_eq_some.mp hy
      exact h.grants t proposal hopen v hv v' hv' x y hop hop' hinner hinner'
        (decide_eq_true (hsigner.trans hsigner'.symm))

/-- **In every order of the events the boards agree, exactly when the events are
unequivocal.** -/
theorem agree_perm_iff (hnodup : (events.map SignedNode.hash).Nodup) :
    (∀ events', events.Perm events' →
        Agree (ceremonyBoard events' ws fallback) (ceremonyBoard events ws fallback)) ↔
      Unequivocal ws fallback events := by
  refine ⟨unequivocal_of_agree hnodup, fun h events' hperm => ?_⟩
  have hrounds := h.rounds_perm hnodup hperm
  have hsigning := h.signingRounds_perm hnodup hperm
  constructor
  case proposals =>
    intro t
    rw [(read_dkg ws events' fallback t Bytes.empty (Bytes.empty, 0, Bytes.empty)).1,
      (read_dkg ws events fallback t Bytes.empty (Bytes.empty, 0, Bytes.empty)).1,
      proposalOf_perm hnodup t hperm]
  case grants => exact h.grants_perm hnodup hperm
  case rounds => exact hrounds
  case requests =>
    intro t
    rw [(read_signing ws events' fallback t (Bytes.empty, 0, Bytes.empty)).1,
      (read_signing ws events fallback t (Bytes.empty, 0, Bytes.empty)).1,
      requestOf_perm hnodup t hperm]
  case signingRounds => exact hsigning
  case plans =>
    intro t
    rw [read_plan, read_plan, requestOf_perm hnodup t hperm]
    simp only [hsigning]
  case resharePlans =>
    intro t
    rw [read_resharePlan, read_resharePlan, proposalOf_perm hnodup t hperm]
    simp only [hrounds]

end Converge

end CeremonyBoard

open CeremonyBoard in
/-- **The boards of all ledgers with the same events agree exactly when the events
are unequivocal.** -/
theorem boards_agree_iff [Crypto] [Postcard Config] [Postcard FrostThresholdConfig]
    [Postcard GeneralAccessConfig] [Postcard AuthorityGrant] [Postcard CeremonyOp]
    [Postcard CeremonyMaterial] [Postcard SigningPlan] [GroupKeys] (ws : SpaceId)
    (fallback : TranscriptId → Option (List DeviceId)) {log : CeremonyLog}
    (hlog : log.Reached ws) :
    (∀ log' : CeremonyLog, log'.Reached ws →
        (∀ node, node ∈ log'.ceremonyNodes ↔ node ∈ log.ceremonyNodes) →
          Agree (ceremonyBoard log'.ceremonyNodes ws fallback)
            (ceremonyBoard log.ceremonyNodes ws fallback)) ↔
      Unequivocal ws fallback log.ceremonyNodes := by
  obtain ⟨hnodup, hall⟩ := hlog.nodes
  rw [← agree_perm_iff hnodup]
  constructor
  · intro h events' hperm
    have hnodup' := (hperm.map SignedNode.hash).nodup_iff.mp hnodup
    obtain ⟨log', hlog', rfl⟩ := CeremonyLog.exists_reached
      (fun node hnode => hall node (hperm.mem_iff.mpr hnode)) hnodup'
    exact h log' hlog' fun node => hperm.symm.mem_iff
  · intro h log' hlog' hsame
    have hnodup' := hlog'.nodes.1
    have hperm := (List.perm_ext_iff_of_nodup hnodup.of_map hnodup'.of_map).mpr fun node =>
      (hsame node).symm
    exact h log'.ceremonyNodes hperm

end Lait.Ceremony
