import Lait.Ceremony.Board

/-!
# What a board holds

`parseBoard` is a loop over the events with a board as its accumulator.  Field by
field, a transcript of that board is an answer the list of entries gives: the
proposal and each signer's grant are the last entries of their kind
(`dkgAt_foldl`), the rounds are all that name the transcript, and what is
retained of them is, slot by slot, the first entry a permitted author has in it.

A transcript is named by the hash of its opener, spelled in canonical
hexadecimal: one id, one spelling (`TranscriptId.parseHex_inj`).
-/

namespace Lait.Ceremony

open Arrival

/-! ## Transcript ids -/

namespace TranscriptId

/-- A pair of canonical digits is what its byte is spelled as. -/
theorem hexChar_hexDigit {hi lo : UInt8} (hhi : isLowerHex hi = true) (hlo : isLowerHex lo = true) :
    Bytes.hexChar ((Bytes.hexDigit hi * 16 + Bytes.hexDigit lo) / 16) = hi ∧
      Bytes.hexChar ((Bytes.hexDigit hi * 16 + Bytes.hexDigit lo) % 16) = lo := by
  have hdigit : ∀ b : UInt8, isLowerHex b = true →
      Bytes.hexChar (Bytes.hexDigit b) = b ∧ (Bytes.hexDigit b).toNat < 16 := by
    decide +kernel
  obtain ⟨hchar, hlt⟩ := hdigit hi hhi
  obtain ⟨hchar', hlt'⟩ := hdigit lo hlo
  have hsum : (Bytes.hexDigit hi * 16 + Bytes.hexDigit lo).toNat
      = (Bytes.hexDigit hi).toNat * 16 + (Bytes.hexDigit lo).toNat := by
    rw [UInt8.toNat_add, UInt8.toNat_mul]
    show ((Bytes.hexDigit hi).toNat * 16 % 256 + (Bytes.hexDigit lo).toNat) % 256 = _
    omega
  have hdiv : (Bytes.hexDigit hi * 16 + Bytes.hexDigit lo) / 16 = Bytes.hexDigit hi := by
    apply UInt8.toNat_inj.mp
    rw [UInt8.toNat_div, hsum]
    show _ / 16 = _
    omega
  have hmod : (Bytes.hexDigit hi * 16 + Bytes.hexDigit lo) % 16 = Bytes.hexDigit lo := by
    apply UInt8.toNat_inj.mp
    rw [UInt8.toNat_mod, hsum]
    show _ % 16 = _
    omega
  rw [hdiv, hmod]
  exact ⟨hchar, hchar'⟩

theorem flatMap_hexDecode (s : List UInt8) (hlower : s.all isLowerHex = true)
    (heven : s.length % 2 = 0) :
    (Bytes.hexDecode s).flatMap (fun v => [Bytes.hexChar (v / 16), Bytes.hexChar (v % 16)]) = s := by
  fun_induction Bytes.hexDecode s with
  | case1 hi lo rest ih =>
      simp only [List.all_cons, Bool.and_eq_true] at hlower
      obtain ⟨hhi, hlo, hrest⟩ := hlower
      obtain ⟨hchar, hchar'⟩ := hexChar_hexDigit hhi hlo
      rw [List.flatMap_cons, ih hrest (by simp only [List.length_cons] at heven; omega), hchar,
        hchar']
      rfl
  | case2 s hs =>
      match s, hs with
      | [], _ => rfl
      | [_], _ => simp at heven
      | hi :: lo :: rest, hs => exact absurd rfl (hs hi lo rest)

/-- Only one string names an id. -/
theorem toHex_of_parseHex {s : Text} {id : TranscriptId} (h : parseHex s = some id) :
    toHex id = s := by
  unfold parseHex at h
  split at h
  case isTrue hs =>
    cases h
    apply Bytes.ext
    refine flatMap_hexDecode s.data hs.2 ?_
    rw [show s.data.length = 64 from hs.1]
  case isFalse => cases h

theorem parseHex_inj {s s' : Text} {id : TranscriptId} (h : parseHex s = some id)
    (h' : parseHex s' = some id) : s = s' := by
  rw [← toHex_of_parseHex h, ← toHex_of_parseHex h']

end TranscriptId

/-! ## What is filed where -/

/-- The key-generation transcript a round names. -/
def CeremonyOp.dkgRound : CeremonyOp → Option TranscriptId
  | .dkgRound1 dkg _ | .dkgRound2 dkg _ _ | .reshareCommit dkg _ | .reshareDeal dkg _ _
  | .resharePlan dkg _ | .custodyAck dkg => some dkg
  | _ => none

/-- The signing transcript a round names. -/
def CeremonyOp.signingRound : CeremonyOp → Option TranscriptId
  | .signRound1 signing _ | .signRound2 signing _ | .signPlan signing _ => some signing
  | _ => none

/-- The proposal of a key-generation transcript, from an entry that opens it. -/
def opensDkg (t : TranscriptId) (v : Verified) : Option Verified :=
  match v.op with
  | .dkgPropose _ => if v.id = t then some v else none
  | _ => none

/-- The request of a signing transcript, from an entry that opens it. -/
def opensSigning (t : TranscriptId) (v : Verified) : Option Verified :=
  match v.op with
  | .signRequest _ _ _ _ _ => if v.id = t then some v else none
  | _ => none

/-- The grant of a proposal by a signer, from an entry that carries it. -/
def grants [Crypto] [Postcard AuthorityGrant] (ws : SpaceId) (t : TranscriptId) (signer : Text)
    (v : Verified) : Option SignedAuthorityGrant :=
  match v.op with
  | .dkgAuthorize grant =>
      match authorityGrantOf grant ws with
      | some inner => if inner.proposal = t ∧ grant.author.fold = signer then some grant else none
      | none => none
  | _ => none

theorem grants_eq_some [Crypto] [Postcard AuthorityGrant] {ws : SpaceId} {t : TranscriptId} {signer : Text} {v : Verified}
    {grant : SignedAuthorityGrant} :
    grants ws t signer v = some grant ↔ v.op = .dkgAuthorize grant ∧
      authorityGrantOf grant ws = some ⟨t⟩ ∧ grant.author.fold = signer := by
  unfold grants
  cases hop : v.op with
  | dkgAuthorize g =>
      simp only [CeremonyOp.dkgAuthorize.injEq]
      constructor
      · intro h
        split at h
        case h_1 inner hinner =>
          split at h
          case isTrue hnames =>
            cases h
            obtain ⟨rfl, hsigner⟩ := hnames
            exact ⟨rfl, hinner, hsigner⟩
          case isFalse => cases h
        case h_2 => cases h
      · rintro ⟨rfl, hinner, hsigner⟩
        rw [hinner]
        exact if_pos ⟨rfl, hsigner⟩
  | _ => simp

theorem opensDkg_eq_some {t : TranscriptId} {v x : Verified} (h : opensDkg t v = some x) :
    x = v ∧ v.id = t := by
  unfold opensDkg at h
  split at h
  · split at h
    case isTrue hid =>
      cases h
      exact ⟨rfl, hid⟩
    case isFalse => cases h
  · cases h

theorem opensSigning_eq_some {t : TranscriptId} {v x : Verified} (h : opensSigning t v = some x) :
    x = v ∧ v.id = t := by
  unfold opensSigning at h
  split at h
  · split at h
    case isTrue hid =>
      cases h
      exact ⟨rfl, hid⟩
    case isFalse => cases h
  · cases h

namespace CeremonyBoard

/-- A key-generation transcript as filed; empty when nothing is. -/
def dkgAt (board : CeremonyBoard) (t : TranscriptId) : DkgTranscript := board.dkg[t]?.getD {}

/-- A signing transcript as filed. -/
def signingAt (board : CeremonyBoard) (t : TranscriptId) : SignTranscript :=
  board.signing[t]?.getD {}

section File

variable (board : CeremonyBoard) (t : TranscriptId)

theorem dkgAt_atDkg (id : TranscriptId) (f : DkgTranscript → DkgTranscript) :
    (board.atDkg id f).dkgAt t = if id = t then f (board.dkgAt t) else board.dkgAt t := by
  unfold dkgAt atDkg
  rw [BTreeMap.get_insert]
  split
  case isTrue h =>
    subst h
    rfl
  case isFalse => rfl

theorem signingAt_atSigning (id : TranscriptId) (f : SignTranscript → SignTranscript) :
    (board.atSigning id f).signingAt t
      = if id = t then f (board.signingAt t) else board.signingAt t := by
  unfold signingAt atSigning
  rw [BTreeMap.get_insert]
  split
  case isTrue h =>
    subst h
    rfl
  case isFalse => rfl

@[simp] theorem dkgAt_atSigning (id : TranscriptId) (f : SignTranscript → SignTranscript) :
    (board.atSigning id f).dkgAt t = board.dkgAt t := rfl

@[simp] theorem signingAt_atDkg (id : TranscriptId) (f : DkgTranscript → DkgTranscript) :
    (board.atDkg id f).signingAt t = board.signingAt t := rfl

variable [Crypto] [Postcard AuthorityGrant] (ws : SpaceId) (v : Verified)

/-- What filing an entry does to a key-generation transcript. -/
theorem dkgAt_file : (board.file ws v).dkgAt t =
    { proposal := (opensDkg t v).or (board.dkgAt t).proposal
      auths := match v.op with
        | .dkgAuthorize grant =>
            match grants ws t grant.author.fold v with
            | some grant => (board.dkgAt t).auths.insert grant.author.fold grant
            | none => (board.dkgAt t).auths
        | _ => (board.dkgAt t).auths
      rounds := (board.dkgAt t).rounds ++ if v.op.dkgRound = some t then [v] else [] } := by
  unfold file opensDkg CeremonyOp.dkgRound grants
  cases hop : v.op with
  | dkgPropose proposal =>
      dsimp only
      rw [dkgAt_atDkg]
      split <;> simp
  | dkgAuthorize grant =>
      dsimp only
      cases authorityGrantOf grant ws with
      | none => simp
      | some inner =>
          dsimp only
          rw [dkgAt_atDkg]
          by_cases h : inner.proposal = t
          · simp [h]
          · simp [h]
  | signRequest nonce authority target coordinator op => simp
  | signPlan signing plan => simp
  | signRound1 signing commitments => simp
  | signRound2 signing share => simp
  | dkgRound1 dkg package
  | dkgRound2 dkg recipient sealed
  | custodyAck dkg
  | reshareCommit dkg commitments
  | reshareDeal dkg recipient sealed
  | resharePlan dkg qualified =>
      dsimp only
      rw [dkgAt_atDkg]
      by_cases h : dkg = t
      · simp [h]
      · simp [h]

/-- What filing an entry does to a signing transcript. -/
theorem signingAt_file : (board.file ws v).signingAt t =
    { request := (opensSigning t v).or (board.signingAt t).request
      rounds := (board.signingAt t).rounds ++ if v.op.signingRound = some t then [v] else [] } := by
  unfold file opensSigning CeremonyOp.signingRound
  cases hop : v.op with
  | signRequest nonce authority target coordinator op =>
      dsimp only
      rw [signingAt_atSigning]
      split <;> simp
  | dkgAuthorize grant =>
      dsimp only
      cases authorityGrantOf grant ws <;> simp
  | signPlan signing _
  | signRound1 signing _
  | signRound2 signing _ =>
      dsimp only
      rw [signingAt_atSigning]
      by_cases h : signing = t
      · simp [h]
      · simp [h]
  | _ => simp

/-- **A filed transcript, by field**: the last proposal, the last grant of every
signer, and every round in order. -/
theorem dkgAt_foldl (entries : List Verified) :
    ((entries.foldl (file ws) {}).dkgAt t).proposal = lastAnswer (opensDkg t) entries ∧
      (∀ signer : Text, ((entries.foldl (file ws) {}).dkgAt t).auths[signer]?
        = lastAnswer (grants ws t signer) entries) ∧
      ((entries.foldl (file ws) {}).dkgAt t).rounds
        = entries.filter fun v => v.op.dkgRound = some t := by
  induction entries using List.reverseRecOn with
  | nil =>
      refine ⟨rfl, fun signer => ?_, rfl⟩
      exact BTreeMap.get_empty signer
  | append_singleton entries v ih =>
      obtain ⟨hproposal, hauths, hrounds⟩ := ih
      rw [List.foldl_append, List.foldl_cons, List.foldl_nil, dkgAt_file]
      refine ⟨?_, fun signer => ?_, ?_⟩
      · rw [lastAnswer_concat, ← hproposal]
      · rw [lastAnswer_concat, ← hauths]
        unfold grants
        cases v.op with
        | dkgAuthorize grant =>
            dsimp only
            cases authorityGrantOf grant ws with
            | none => simp
            | some inner =>
                by_cases h : inner.proposal = t
                · by_cases hsigner : grant.author.fold = signer
                  · simp [h, hsigner]
                  · simp [h, hsigner, BTreeMap.get_insert]
                · simp [h]
        | _ => rfl
      · rw [List.filter_append, ← hrounds]
        by_cases h : v.op.dkgRound = some t
        · simp [h]
        · simp [h]

theorem signingAt_foldl (entries : List Verified) :
    ((entries.foldl (file ws) {}).signingAt t).request
        = lastAnswer (opensSigning t) entries ∧
      ((entries.foldl (file ws) {}).signingAt t).rounds
        = entries.filter fun v => v.op.signingRound = some t := by
  induction entries using List.reverseRecOn with
  | nil => exact ⟨rfl, rfl⟩
  | append_singleton entries v ih =>
      obtain ⟨hrequest, hrounds⟩ := ih
      rw [List.foldl_append, List.foldl_cons, List.foldl_nil, signingAt_file]
      refine ⟨?_, ?_⟩
      · rw [lastAnswer_concat, ← hrequest]
      · rw [List.filter_append, ← hrounds]
        by_cases h : v.op.signingRound = some t
        · simp [h]
        · simp [h]

end File

section Retained

variable [Crypto] [Postcard Config] [Postcard FrostThresholdConfig]
  [Postcard GeneralAccessConfig] [GroupKeys]

/-- What is retained of a key-generation transcript: nothing unless it is opened. -/
theorem dkg_retain (board : CeremonyBoard) (t : TranscriptId) :
    board.retain.dkg[t]? = (board.dkgAt t).proposal.map fun proposal =>
      { board.dkgAt t with rounds := keepRounds (participants proposal) (board.dkgAt t).rounds } := by
  show ((board.dkg.filter _).map _)[t]? = _
  rw [BTreeMap.get_map, Std.ExtTreeMap.getElem?_filter']
  unfold dkgAt
  cases hget : board.dkg[t]? with
  | none => rfl
  | some transcript =>
      cases hproposal : transcript.proposal with
      | none => simp [hproposal]
      | some proposal => simp [hproposal]

theorem signing_retain (board : CeremonyBoard) (t : TranscriptId) :
    board.retain.signing[t]? = (board.signingAt t).request.map fun _ => board.signingAt t := by
  show (board.signing.filter _)[t]? = _
  rw [Std.ExtTreeMap.getElem?_filter']
  unfold signingAt
  cases hget : board.signing[t]? with
  | none => rfl
  | some transcript =>
      cases hrequest : transcript.request with
      | none => simp [hrequest]
      | some request => simp [hrequest]

end Retained

end CeremonyBoard

end Lait.Ceremony
