import Lait.Wire
import Lait.Ceremony.BoardOrder
import Lait.Ceremony.Signing

/-!
# A nonce serves one plan

A holder that signs twice with one nonce, under two plans or over two messages,
gives its key share away.  The record of the nonce outlives crashes, boards
change between passes, and a coordinator may publish several plans; what stands
against reuse is that the record is bound to one plan before `sign_round2` is
called, and refused to every other.

`Holding.visit` is one pass of the holder, over any device state and board, of
which only the first few steps may get done.  The invariant `Bound` says of the
record what the calls so far allow: an unbound record has not been used, a bound
one only as its binding says.  Each step of a pass keeps it.
-/

namespace Lait

namespace Bytes

theorem length_le64 (n : ℕ) : (le64 n).data.length = 8 := by
  rw [le64, List.length_reverse]
  rfl

/-- A length below 2^64 is read back from its eight bytes. -/
theorem le64_inj {n m : ℕ} (hn : n < 2 ^ 64) (hm : m < 2 ^ 64) (h : le64 n = le64 m) : n = m := by
  have hdata : (be64 n).data = (be64 m).data := List.reverse_injective (congrArg Bytes.data h)
  simp only [be64, be32, be16, data_append, List.cons_append, List.nil_append, List.cons.injEq,
    and_true, ← UInt8.toNat_inj, UInt8.toNat_ofNat'] at hdata
  omega

end Bytes

namespace Ceremony

/-! ## Bindings -/

section Binding

variable [Crypto] [Postcard SigningPlan]

/-- **A binding is of one message and one plan.** -/
theorem nonceBinding_inj (hblake : Blake3Injective) (hplan : Postcard.RoundTrips SigningPlan)
    {signing : TranscriptId} {message message' : Bytes} {plan plan' : SigningPlan}
    (hlen : message.length < 2 ^ 64) (hlen' : message'.length < 2 ^ 64)
    (h : nonceBinding signing message plan = nonceBinding signing message' plan') :
    message = message' ∧ plan = plan' := by
  have hjoin := hblake h
  simp only [Bytes.join_cons, Bytes.append_right_inj] at hjoin
  have hdata := congrArg Bytes.data hjoin
  simp only [Bytes.data_append] at hdata
  -- The message is framed by its length, and so is the plan behind it.
  obtain ⟨hlength, hrest⟩ := List.append_inj hdata (by simp only [Bytes.length_le64])
  have hlengths := Bytes.le64_inj hlen hlen' (Bytes.ext hlength)
  obtain ⟨hmessage, hrest⟩ := List.append_inj hrest hlengths
  obtain ⟨-, hrest⟩ := List.append_inj hrest (by simp only [Bytes.length_le64])
  refine ⟨Bytes.ext hmessage, hplan.injective (Bytes.ext ?_)⟩
  simpa [Bytes.join, SigningPlan.encode] using hrest

/-- No plan hashes to the binding of an unbound record. -/
def NeverUnbound : Prop :=
  ∀ (signing : TranscriptId) (message : Bytes) (plan : SigningPlan),
    nonceBinding signing message plan ≠ UNBOUND

end Binding

/-! ## Records and their uses -/

/-- Whether a step creates a nonce record of a transcript. -/
def creates (signing : TranscriptId) : Step → Bool
  | .writeNew t label _ => decide (t = signing ∧ label = .nonce)
  | _ => false

/-- How many nonce records a history created. -/
def created (signing : TranscriptId) (history : List Step) : ℕ :=
  (history.filter (creates signing)).length

/-- The pair a step calls `sign_round2` with. -/
def signs (signing : TranscriptId) : Step → Option (Packages × Bytes)
  | .sign t commitments message _ => if t = signing then some (commitments, message) else none
  | _ => none

/-- The calls of `sign_round2`, each with the number of the record it used; `r`
records were created before. -/
def usesFrom (signing : TranscriptId) : ℕ → List Step → List (ℕ × Packages × Bytes)
  | _, [] => []
  | r, step :: rest =>
      let later := usesFrom signing (if creates signing step then r + 1 else r) rest
      match signs signing step with
      | some pair => (r, pair) :: later
      | none => later

/-- The uses of every record in a history. -/
abbrev uses (signing : TranscriptId) (history : List Step) : List (ℕ × Packages × Bytes) :=
  usesFrom signing 0 history

theorem created_concat (signing : TranscriptId) (history : List Step) (step : Step) :
    created signing (history ++ [step])
      = created signing history + if creates signing step then 1 else 0 := by
  unfold created
  rw [List.filter_append, List.length_append]
  cases h : creates signing step <;> simp [h]

/-- A step is added behind the uses before it, with the record that stands. -/
theorem uses_concat (signing : TranscriptId) (history : List Step) (step : Step) :
    uses signing (history ++ [step]) = uses signing history ++
      ((signs signing step).map fun pair => (created signing history, pair)).toList := by
  have hfrom : ∀ r, usesFrom signing r (history ++ [step]) = usesFrom signing r history ++
      ((signs signing step).map fun pair => (r + created signing history, pair)).toList := by
    induction history with
    | nil =>
        intro r
        cases h : signs signing step <;> simp [usesFrom, created, h]
    | cons first history ih =>
        intro r
        rw [List.cons_append, usesFrom, usesFrom, ih]
        have hcreated : (if creates signing first then r + 1 else r) + created signing history
            = r + created signing (first :: history) := by
          unfold created
          rw [List.filter_cons]
          cases creates signing first
          · rfl
          · simp only [if_true, List.length_cons]
            omega
        rw [hcreated]
        cases signs signing first <;> rfl
  have hzero := hfrom 0
  rwa [Nat.zero_add] at hzero

/-! ## The invariant -/

section Invariant

variable [Crypto] [Postcard SigningPlan] [Postcard PendingNonce]

/-- What the uses so far allow of the record that stands: every record has been
used for one pair at most; an unbound record has not been used, and a bound one
as its binding says. -/
structure Bound (signing : TranscriptId) (record : Option Bytes) (history : List Step) : Prop where
  past : ∀ u ∈ uses signing history, u.1 ≤ created signing history
  one : ∀ u ∈ uses signing history, ∀ u' ∈ uses signing history, u.1 = u'.1 → u.2 = u'.2
  short : ∀ u ∈ uses signing history, u.2.2.length < 2 ^ 64
  standing : ∀ raw, record = some raw → ∃ pending : PendingNonce,
    Postcard.fromBytes raw = some pending ∧
      ∀ u ∈ uses signing history, u.1 = created signing history → pending.binding ≠ UNBOUND ∧
        ∃ plan : SigningPlan, plan.commitments = u.2.1 ∧
          nonceBinding signing u.2.2 plan = pending.binding

variable {signing : TranscriptId} {record : Option Bytes} {history : List Step}

omit [Crypto] [Postcard SigningPlan] [Postcard PendingNonce] in
theorem uses_of_quiet (history : List Step) {step : Step} (hcreates : creates signing step = false)
    (hsigns : signs signing step = none) :
    uses signing (history ++ [step]) = uses signing history ∧
      created signing (history ++ [step]) = created signing history := by
  rw [uses_concat, created_concat, hsigns, hcreates]
  simp

/-- A step that neither creates nor signs keeps the invariant of the record. -/
theorem Bound.quiet (h : Bound signing record history) {step : Step}
    (hcreates : creates signing step = false) (hsigns : signs signing step = none) :
    Bound signing record (history ++ [step]) := by
  obtain ⟨huses, hcreated⟩ := uses_of_quiet history hcreates hsigns
  constructor
  · rw [huses, hcreated]
    exact h.past
  · rw [huses]
    exact h.one
  · rw [huses]
    exact h.short
  · rw [huses, hcreated]
    exact h.standing

/-- A record may go. -/
theorem Bound.removed (h : Bound signing record history) : Bound signing none history :=
  { h with standing := by rintro raw ⟨⟩ }

/-- A new record has no uses. -/
theorem Bound.create (hnonce : Postcard.RoundTrips PendingNonce)
    (h : Bound signing record history) (pending : PendingNonce) :
    Bound signing (some (Postcard.toStdvec pending))
      (history ++ [.writeNew signing .nonce (Postcard.toStdvec pending)]) := by
  have hcreated : created signing (history ++ [.writeNew signing .nonce (Postcard.toStdvec pending)])
      = created signing history + 1 := by
    rw [created_concat]
    simp [creates]
  have huses : uses signing (history ++ [.writeNew signing .nonce (Postcard.toStdvec pending)])
      = uses signing history := by
    rw [uses_concat]
    simp [signs]
  constructor
  · rw [huses, hcreated]
    exact fun u hu => (h.past u hu).trans (Nat.le_succ _)
  · rw [huses]
    exact h.one
  · rw [huses]
    exact h.short
  · rintro raw ⟨⟩
    refine ⟨pending, hnonce pending, fun u hu hu' => ?_⟩
    rw [huses] at hu
    rw [hcreated] at hu'
    have hpast := h.past u hu
    omega

/-- An unbound record may be bound: it has no uses yet. -/
theorem Bound.bind (hnonce : Postcard.RoundTrips PendingNonce) {raw : Bytes}
    (h : Bound signing (some raw) history) {pending : PendingNonce}
    (hraw : Postcard.fromBytes raw = some pending) (hunbound : pending.binding = UNBOUND)
    (bound : PendingNonce) :
    Bound signing (some (Postcard.toStdvec bound))
      (history ++ [.write signing .nonce (Postcard.toStdvec bound)]) := by
  refine { h.quiet rfl rfl with standing := ?_ }
  have hsigns : signs signing (.write signing .nonce (Postcard.toStdvec bound)) = none := rfl
  obtain ⟨huses, hcreated⟩ := uses_of_quiet history rfl hsigns
  rintro raw' ⟨⟩
  refine ⟨bound, hnonce bound, fun u hu hu' => ?_⟩
  rw [huses] at hu
  rw [hcreated] at hu'
  obtain ⟨pending', hraw', hused⟩ := h.standing raw rfl
  rw [hraw] at hraw'
  cases hraw'
  exact absurd hunbound (hused u hu hu').1

/-- **A record bound to a plan may sign under it.** -/
theorem Bound.sign (hblake : Blake3Injective) (hplan : Postcard.RoundTrips SigningPlan) {raw : Bytes}
    (h : Bound signing (some raw) history) {pending : PendingNonce}
    (hraw : Postcard.fromBytes raw = some pending) (hbound : pending.binding ≠ UNBOUND)
    {message : Bytes} (hlen : message.length < 2 ^ 64) {plan : SigningPlan}
    (hbinding : pending.binding = nonceBinding signing message plan) (nonces : Bytes) :
    Bound signing (some raw) (history ++ [.sign signing plan.commitments message nonces]) := by
  have hcreated : created signing (history ++ [.sign signing plan.commitments message nonces])
      = created signing history := by
    rw [created_concat]
    rfl
  have huses : uses signing (history ++ [.sign signing plan.commitments message nonces])
      = uses signing history ++ [(created signing history, plan.commitments, message)] := by
    rw [uses_concat]
    simp [signs]
  obtain ⟨pending', hraw', hused⟩ := h.standing raw rfl
  rw [hraw] at hraw'
  cases hraw'
  -- What the standing record was used for before is what its binding says: this pair.
  have hsame : ∀ u ∈ uses signing history, u.1 = created signing history →
      u.2 = (plan.commitments, message) := by
    intro u hu hu'
    obtain ⟨-, plan', hcommitments, hplan'⟩ := hused u hu hu'
    obtain ⟨hmessage, rfl⟩ := nonceBinding_inj hblake hplan (h.short u hu) hlen
      (hplan'.trans hbinding)
    exact Prod.ext hcommitments.symm hmessage
  constructor
  · rw [huses, hcreated]
    intro u hu
    rcases List.mem_append.mp hu with hu | hu
    · exact h.past u hu
    · rw [List.mem_singleton.mp hu]
  · rw [huses]
    intro u hu u' hu' hrecord
    rcases List.mem_append.mp hu with hu | hu <;> rcases List.mem_append.mp hu' with hu' | hu'
    · exact h.one u hu u' hu' hrecord
    · rw [List.mem_singleton.mp hu'] at hrecord ⊢
      exact hsame u hu hrecord
    · rw [List.mem_singleton.mp hu] at hrecord ⊢
      exact (hsame u' hu' hrecord.symm).symm
    · rw [List.mem_singleton.mp hu, List.mem_singleton.mp hu']
  · rw [huses]
    intro u hu
    rcases List.mem_append.mp hu with hu | hu
    · exact h.short u hu
    · rw [List.mem_singleton.mp hu]
      exact hlen
  · rintro raw' ⟨⟩
    refine ⟨pending, hraw, fun u hu hu' => ?_⟩
    rw [huses] at hu
    rw [hcreated] at hu'
    rcases List.mem_append.mp hu with hu | hu
    · exact hused u hu hu'
    · rw [List.mem_singleton.mp hu]
      exact ⟨hbound, plan, rfl, hbinding.symm⟩

end Invariant

/-! ## One pass -/

/-- Whether a step touches the nonce record of a transcript, or uses it. -/
def touches (signing : TranscriptId) : Step → Bool
  | .write t label _ | .writeNew t label _ | .remove t label => decide (t = signing ∧ label = .nonce)
  | .sign t _ _ _ => decide (t = signing)
  | .post _ | .commitSpace _ | .fenceEpoch => false

theorem quiet_of_touches {signing : TranscriptId} {step : Step} (h : touches signing step = false) :
    creates signing step = false ∧ signs signing step = none := by
  cases step <;> simp_all [touches, creates, signs]

theorem run_of_touches {signing : TranscriptId} {step : Step} (h : touches signing step = false)
    {files files' : Artifacts} (hrun : step.run files = some files') :
    files' signing .nonce = files signing .nonce := by
  have hput : ∀ (t : TranscriptId) (label : Label) (file : Option Bytes),
      ¬ (t = signing ∧ label = .nonce) → files.put t label file signing .nonce
        = files signing .nonce := by
    intro t label file hne
    exact files.put_of_ne file fun heq => hne ⟨heq.1.symm, heq.2.symm⟩
  cases step with
  | write t label bytes =>
      cases hrun
      exact hput t label _ (of_decide_eq_false h)
  | writeNew t label bytes =>
      rw [Step.run] at hrun
      split at hrun
      case isTrue => cases hrun
      case isFalse =>
        cases hrun
        exact hput t label _ (of_decide_eq_false h)
  | remove t label =>
      cases hrun
      exact hput t label _ (of_decide_eq_false h)
  | _ =>
      cases hrun
      rfl

/-- What is posted for an index was posted by its author. -/
theorem get_byIndex {participants : List DeviceId} {read : CeremonyOp → Option Bytes}
    {rounds : List Verified} {i : ℕ} {bytes : Bytes}
    (h : (byIndex participants read rounds)[i]? = some bytes) :
    ∃ v ∈ rounds, read v.op = some bytes ∧ indexOf participants v.author = some i := by
  induction rounds using List.reverseRecOn with
  | nil => simp [byIndex] at h
  | append_singleton rounds v ih =>
      unfold byIndex at h ih
      rw [List.foldl_append, List.foldl_cons, List.foldl_nil] at h
      split at h
      case h_1 _ _ bytes' j hread hindex =>
        split at h
        case isTrue =>
          obtain ⟨v', hv', hrest⟩ := ih h
          exact ⟨v', List.mem_append_left _ hv', hrest⟩
        case isFalse =>
          rw [BTreeMap.get_insert] at h
          split at h
          case isTrue hij =>
            cases h
            exact ⟨v, by simp, hread, hij ▸ hindex⟩
          case isFalse =>
            obtain ⟨v', hv', hrest⟩ := ih h
            exact ⟨v', List.mem_append_left _ hv', hrest⟩
      case h_2 =>
        obtain ⟨v', hv', hrest⟩ := ih h
        exact ⟨v', List.mem_append_left _ hv', hrest⟩

theorem sign_mem_postShare [FrostSigning] {ctx : SignContext} {signing : TranscriptId} {message message' : Bytes}
    {plan : SigningPlan} {commitments : Packages} {nonces nonces' : Bytes}
    (h : .sign signing commitments message' nonces'
      ∈ (Ceremony.postShare ctx signing message plan nonces).steps) :
    commitments = plan.commitments ∧ message' = message := by
  unfold Ceremony.postShare at h
  split at h
  · simp only [List.mem_singleton, Step.sign.injEq] at h
    exact ⟨h.2.1, h.2.2.1⟩
  · simp only [List.mem_cons, List.not_mem_nil, or_false, Step.sign.injEq, reduceCtorEq] at h
    exact ⟨h.2.1, h.2.2.1⟩

theorem mem_perform {steps : List Step} {files : Artifacts} {step : Step}
    (h : step ∈ (perform steps files).1) : step ∈ steps := by
  induction steps generalizing files with
  | nil => cases h
  | cons first steps ih =>
      rw [perform] at h
      split at h
      case h_1 =>
        rcases List.mem_cons.mp h with rfl | h
        · exact List.mem_cons_self
        · exact List.mem_cons_of_mem _ (ih h)
      case h_2 => cases h

section Quiet

variable [Crypto] [Postcard SigningPlan] [Postcard PendingNonce]

/-- Performing steps that leave the record alone keeps the invariant. -/
theorem Bound.perform_quiet {signing : TranscriptId} {steps : List Step}
    (hquiet : ∀ step ∈ steps, touches signing step = false) {files : Artifacts}
    {history : List Step} (h : Bound signing (files signing .nonce) history) :
    Bound signing ((perform steps files).2 signing .nonce) (history ++ (perform steps files).1) := by
  induction steps generalizing files history with
  | nil => simpa [perform] using h
  | cons step steps ih =>
      rw [perform]
      cases hrun : step.run files with
      | none => simpa using h
      | some files' =>
          obtain ⟨hcreates, hsigns⟩ := quiet_of_touches (hquiet step List.mem_cons_self)
          have hfile := run_of_touches (hquiet step List.mem_cons_self) hrun
          have hstep := h.quiet hcreates hsigns
          rw [← hfile] at hstep
          have hrest := ih (fun s hs => hquiet s (List.mem_cons_of_mem _ hs)) hstep
          simpa using hrest

end Quiet

section Pass

variable [Crypto] [Postcard Config] [Postcard Space.SpaceOp] [Postcard FrostThresholdConfig]
  [Postcard GeneralAccessConfig] [Postcard DkgManifest] [Postcard AuthorityGrant]
  [Postcard CeremonyOp] [Postcard SigningPlan] [Postcard PendingNonce] [GroupKeys] [FrostSigning]

/-- A share made under a plan, with the gates it passed. -/
structure SharesUnder (device : Device) (signing : TranscriptId) (t : SignTranscript)
    (board : CeremonyBoard) (ctx : SignContext) (plan : SigningPlan) (raw : Bytes)
    (pending : PendingNonce) : Prop where
  context : signContext device signing t board = some ctx
  planned : t.plan = some plan
  posted : ∀ (i : ℕ) (bytes : Bytes), plan.commitments[i]? = some bytes →
    (ctx.posted t)[i]? = some bytes
  record : device.dkgRead signing .nonce = some raw
  decoded : Postcard.fromBytes raw = some pending

/-- **What a pass over a signing transcript can do**: leave the record alone,
create it where there is none, or sign under a plan, with the record bound to it
before or by this pass. -/
theorem signAdvanceSession_cases (device : Device) (entropy : Bytes) (signing : TranscriptId)
    (t : SignTranscript) (board : CeremonyBoard) :
    (∀ step ∈ (signAdvanceSession device entropy signing t board).steps,
        touches signing step = false) ∨
      (∃ (pending : PendingNonce) (op : CeremonyOp), device.dkgHas signing .nonce = false ∧
        (signAdvanceSession device entropy signing t board).steps
          = [.writeNew signing .nonce (Postcard.toStdvec pending), .post op]) ∨
      (∃ (ctx : SignContext) (plan : SigningPlan) (raw : Bytes) (pending : PendingNonce),
        SharesUnder device signing t board ctx plan raw pending ∧
          (pending.binding = UNBOUND ∧
              (signAdvanceSession device entropy signing t board).steps
                = .write signing .nonce (Postcard.toStdvec { pending with
                    binding := nonceBinding signing (ctx.message device.space) plan }) ::
                  (postShare ctx signing (ctx.message device.space) plan pending.nonces).steps ∨
            pending.binding ≠ UNBOUND ∧
              pending.binding = nonceBinding signing (ctx.message device.space) plan ∧
              (signAdvanceSession device entropy signing t board).steps
                = (postShare ctx signing (ctx.message device.space) plan pending.nonces).steps)) := by
  unfold signAdvanceSession
  cases hctx : signContext device signing t board with
  | none => exact .inl (by simp [Pass.idle])
  | some ctx =>
      dsimp only
      split
      case isTrue hcommit =>
        unfold commitNonce
        cases hround : FrostSigning.signRound1 ctx.share entropy with
        | none => exact .inl (by simp [Pass.refuse])
        | some drawn =>
            exact .inr (.inl ⟨_, _, by simpa using hcommit.2, rfl⟩)
      case isFalse =>
        cases hplan : t.plan with
        | none =>
            dsimp only
            left
            split
            case isTrue =>
              unfold freezePlan
              cases device.dkgManifest ctx.authority with
              | none => simp [Pass.idle]
              | some manifest => simp [touches]
            case isFalse => simp [Pass.idle]
        | some plan =>
            dsimp only
            cases hwitness : plan.witness with
            | linearReconstruction policy leaves coefficientCommitment =>
                exact .inl (by simp [Pass.idle])
            | frostThreshold k indices =>
                dsimp only
                split
                case isTrue => exact .inl (by simp [Pass.refuse])
                case isFalse hok =>
                  have hposted : ∀ (i : ℕ) (bytes : Bytes), plan.commitments[i]? = some bytes →
                      (ctx.posted t)[i]? = some bytes := by
                    intro i bytes hi
                    have hall := not_not.mp hok
                    rw [planOk, Bool.and_eq_true] at hall
                    exact of_decide_eq_true (List.all_eq_true.mp hall.2 (i, bytes)
                      (BTreeMap.mem_toList_iff.mpr hi))
                  split
                  case isTrue =>
                    unfold signShare
                    cases hraw : device.dkgRead signing .nonce with
                    | none => exact .inl (by simp [Pass.idle])
                    | some raw =>
                        dsimp only
                        cases hpending : (Postcard.fromBytes raw : Option PendingNonce) with
                        | none => exact .inl (by simp [Pass.refuse])
                        | some pending =>
                            have hshares : SharesUnder device signing t board ctx plan raw pending :=
                              ⟨hctx, hplan, hposted, hraw, hpending⟩
                            dsimp only
                            split
                            case isTrue => exact .inl (by simp [Pass.refuse])
                            case isFalse =>
                              split
                              case isTrue hunbound =>
                                exact .inr (.inr ⟨ctx, plan, raw, pending, hshares,
                                  .inl ⟨hunbound, rfl⟩⟩)
                              case isFalse hbound =>
                                split
                                case isTrue => exact .inl (by simp [Pass.refuse])
                                case isFalse hbinding =>
                                  exact .inr (.inr ⟨ctx, plan, raw, pending, hshares,
                                    .inr ⟨hbound, not_not.mp hbinding, rfl⟩⟩)
                  case isFalse =>
                    left
                    unfold aggregateAndInstall
                    dsimp only
                    repeat' split
                    all_goals simp [Pass.idle, Pass.refuse, touches]

/-! ## Runs -/

/-- The pass over a signing transcript of a device's own board. -/
def signPass (device : Device) (entropy : Bytes) (signing : TranscriptId) : Pass :=
  match device.board.signing[signing]? with
  | some t => signAdvanceSession device entropy signing t device.board
  | none => .idle

/-- One pass of a holder: the device as the pass finds it (its board, its files,
what it can read), what the entropy source draws, and how many steps get done. -/
structure Visit where
  device : Device
  entropy : Bytes
  reach : ℕ

/-- The device of a visit, with the record that stands. -/
def Visit.on (v : Visit) (signing : TranscriptId) (record : Option Bytes) : Device :=
  { v.device with artifacts := v.device.artifacts.put signing .nonce record }

/-- The record that stands, and every step done so far, each with the device that
did it. -/
structure Holding where
  record : Option Bytes := none
  history : List (Device × Step) := []

/-- The steps done. -/
abbrev Holding.steps (holding : Holding) : List Step := holding.history.map Prod.snd

/-- One pass. -/
def Holding.visit (signing : TranscriptId) (holding : Holding) (v : Visit) : Holding :=
  let device := v.on signing holding.record
  let done := perform ((signPass device v.entropy signing).steps.take v.reach) device.artifacts
  ⟨done.2 signing .nonce, holding.history ++ done.1.map fun step => (device, step)⟩

/-- The message of what a holder could sign is shorter than 2^64 bytes. -/
def Visit.Fits (signing : TranscriptId) (v : Visit) : Prop :=
  ∀ (record : Option Bytes) (t : SignTranscript) (ctx : SignContext),
    signContext (v.on signing record) signing t (v.on signing record).board = some ctx →
      (ctx.message v.device.space).length < 2 ^ 64

/-- A share for a plan of this transcript whose commitments are those posted by their authors,
over a message of the op bytes this holder's intent record names.  The participants an author
is found among, and what the message is made of, are those of the pass that signs. -/
def Rightful (device : Device) (signing : TranscriptId) (commitments : Packages) (message : Bytes) :
    Prop :=
  ∃ (t : SignTranscript) (plan : SigningPlan) (ctx : SignContext),
    device.board.signing[signing]? = some t ∧ signContext device signing t device.board = some ctx ∧
      t.plan = some plan ∧ plan.commitments = commitments ∧
      (∀ (i : ℕ) (bytes : Bytes), commitments[i]? = some bytes →
        ∃ v ∈ CeremonyBoard.posts device.space device.ceremonyNodes,
          v.op = .signRound1 signing bytes ∧ indexOf ctx.participants v.author = some i) ∧
      device.dkgRead signing .intent = some ctx.opBytes ∧
      message = signingPayload ctx.target.domain ctx.opBytes ctx.groupKey [] device.space

/-! ## What a pass keeps -/

omit [Postcard Config] [Postcard Space.SpaceOp] [Postcard FrostThresholdConfig]
  [Postcard GeneralAccessConfig] [Postcard DkgManifest] [Postcard AuthorityGrant]
  [Postcard CeremonyOp] [GroupKeys] in
/-- However far a pass gets with its share, the record has signed nothing else. -/
theorem Bound.postShare (hblake : Blake3Injective) (hplan : Postcard.RoundTrips SigningPlan)
    {signing : TranscriptId} {files : Artifacts} {history : List Step} {raw : Bytes}
    (hfile : files signing .nonce = some raw) (h : Bound signing (some raw) history)
    {pending : PendingNonce} (hraw : Postcard.fromBytes raw = some pending)
    (hbound : pending.binding ≠ UNBOUND) {message : Bytes} (hlen : message.length < 2 ^ 64)
    {plan : SigningPlan} (hbinding : pending.binding = nonceBinding signing message plan)
    (ctx : SignContext) (nonces : Bytes) (reach : ℕ) :
    let done := perform ((Ceremony.postShare ctx signing message plan nonces).steps.take reach) files
    Bound signing (done.2 signing .nonce) (history ++ done.1) := by
  have hsign := h.sign hblake hplan hraw hbound hlen hbinding nonces
  have hnothing : Bound signing (files signing .nonce) (history ++ []) := by
    rw [hfile, List.append_nil]
    exact h
  unfold Ceremony.postShare
  cases FrostSigning.signRound2 plan.commitments message nonces ctx.share with
  | none =>
      match reach with
      | 0 => exact hnothing
      | reach + 1 => simpa [perform, Step.run, hfile] using hsign
  | some share =>
      have hquiet : signs signing (.post (.signRound2 signing share)) = none := rfl
      have hpost := hsign.quiet rfl hquiet
      have hquiet' : signs signing (.remove signing .nonce) = none := rfl
      have hremove := (hpost.quiet rfl hquiet').removed
      match reach with
      | 0 => exact hnothing
      | 1 => simpa [perform, Step.run, hfile] using hsign
      | 2 => simpa [perform, Step.run, hfile] using hpost
      | reach + 3 => simpa [perform, Step.run, hfile] using hremove

omit [Postcard AuthorityGrant] [Postcard CeremonyOp] [Postcard SigningPlan] [Postcard PendingNonce]
  [FrostSigning] in
/-- A pass that signs has its holder's consent to the op bytes. -/
theorem signContext_intent {device : Device} {signing : TranscriptId} {t : SignTranscript}
    {board : CeremonyBoard} {ctx : SignContext}
    (h : signContext device signing t board = some ctx) :
    device.dkgRead signing .intent = some ctx.opBytes := by
  unfold signContext at h
  simp only [Option.bind_eq_bind, Option.bind_eq_some_iff] at h
  obtain ⟨request, -, h⟩ := h
  split at h
  case h_1 =>
    simp only [Option.bind_eq_some_iff] at h
    obtain ⟨dkgT, -, ⟨n, threshold, participants⟩, -, share, -, pkp, -, groupKey, -, myIndex, -, h⟩ := h
    split at h
    case isTrue => cases h
    case isFalse hintent =>
      cases h
      exact not_not.mp hintent
  case h_2 => cases h

omit [Postcard AuthorityGrant] [Postcard CeremonyOp] [Postcard SigningPlan] [Postcard PendingNonce]
  [FrostSigning] in
/-- The group key a pass signs for is that of a package. -/
theorem signContext_groupKey {device : Device} {signing : TranscriptId} {t : SignTranscript}
    {board : CeremonyBoard} {ctx : SignContext}
    (h : signContext device signing t board = some ctx) :
    ∃ pkp, GroupKeys.groupKeyOfPackage pkp = some ctx.groupKey := by
  unfold signContext at h
  simp only [Option.bind_eq_bind, Option.bind_eq_some_iff] at h
  obtain ⟨request, -, h⟩ := h
  split at h
  case h_1 =>
    simp only [Option.bind_eq_some_iff] at h
    obtain ⟨dkgT, -, ⟨n, threshold, participants⟩, -, share, -, pkp, -, groupKey, hkey, myIndex, -,
      h⟩ := h
    split at h
    case isTrue => cases h
    case isFalse hintent =>
      cases h
      exact ⟨pkp, hkey⟩
  case h_2 => cases h

omit [Postcard Space.SpaceOp] [Postcard SigningPlan] [Postcard PendingNonce] [FrostSigning] in
/-- The rounds of a signing transcript are verified entries that name it. -/
theorem mem_rounds_board {device : Device} {signing : TranscriptId} {t : SignTranscript}
    (ht : device.board.signing[signing]? = some t) {v : Verified} (hv : v ∈ t.rounds) :
    v ∈ CeremonyBoard.posts device.space device.ceremonyNodes ∧
      v.op.signingRound = some signing := by
  unfold Device.board at ht
  rw [CeremonyBoard.signing_ceremonyBoard] at ht
  obtain ⟨request, -, rfl⟩ := Option.map_eq_some_iff.mp ht
  obtain ⟨hmem, -⟩ := Arrival.mem_of_mem_retainFirst hv
  obtain ⟨hpost, hround⟩ := List.mem_filter.mp hmem
  exact ⟨hpost, of_decide_eq_true hround⟩

omit [FrostSigning] in
theorem SharesUnder.rightful {device : Device} {signing : TranscriptId} {t : SignTranscript}
    {ctx : SignContext} {plan : SigningPlan} {raw : Bytes} {pending : PendingNonce}
    (ht : device.board.signing[signing]? = some t)
    (h : SharesUnder device signing t device.board ctx plan raw pending) :
    Rightful device signing plan.commitments (ctx.message device.space) := by
  refine ⟨t, plan, ctx, ht, h.context, h.planned, rfl, fun i bytes hi => ?_,
    signContext_intent h.context, rfl⟩
  obtain ⟨v, hv, hread, hindex⟩ := get_byIndex (h.posted i bytes hi)
  obtain ⟨hpost, hround⟩ := mem_rounds_board ht hv
  refine ⟨v, hpost, ?_, hindex⟩
  unfold commitmentsOf at hread
  split at hread
  case h_1 signing' commitments hop =>
    cases hread
    rw [hop] at hround ⊢
    cases hround
    rfl
  case h_2 => cases hread

/-- Every share a pass makes is rightful. -/
theorem rightful_of_mem {device : Device} {entropy : Bytes} {signing : TranscriptId}
    {commitments : Packages} {message nonces : Bytes}
    (h : .sign signing commitments message nonces ∈ (signPass device entropy signing).steps) :
    Rightful device signing commitments message := by
  unfold signPass at h
  split at h
  case h_1 t ht =>
    rcases signAdvanceSession_cases device entropy signing t device.board with
      hquiet | ⟨pending, op, -, hsteps⟩ | ⟨ctx, plan, raw, pending, hshares, hsteps⟩
    · have htouch := hquiet _ h
      simp [touches] at htouch
    · rw [hsteps] at h
      simp at h
    · have hmem : .sign signing commitments message nonces ∈ (Ceremony.postShare ctx signing
          (ctx.message device.space) plan pending.nonces).steps := by
        rcases hsteps with ⟨-, hsteps⟩ | ⟨-, -, hsteps⟩
        · rw [hsteps] at h
          rcases List.mem_cons.mp h with h | h
          · cases h
          · exact h
        · rw [hsteps] at h
          exact h
      obtain ⟨rfl, rfl⟩ := sign_mem_postShare hmem
      exact hshares.rightful ht
  case h_2 => cases h

/-- **One pass keeps the invariant**, however far it gets. -/
theorem Bound.pass (hblake : Blake3Injective) (hplan : Postcard.RoundTrips SigningPlan)
    (hnonce : Postcard.RoundTrips PendingNonce) (hunbound : NeverUnbound) {signing : TranscriptId}
    {device : Device} {history : List Step}
    (h : Bound signing (device.artifacts signing .nonce) history)
    (hfits : ∀ (t : SignTranscript) (ctx : SignContext),
      signContext device signing t device.board = some ctx →
        (ctx.message device.space).length < 2 ^ 64) (entropy : Bytes) (reach : ℕ) :
    let done := perform ((signPass device entropy signing).steps.take reach) device.artifacts
    Bound signing (done.2 signing .nonce) (history ++ done.1) := by
  have hquiet : ∀ steps : List Step, (∀ step ∈ steps, touches signing step = false) →
      Bound signing ((perform (steps.take reach) device.artifacts).2 signing .nonce)
        (history ++ (perform (steps.take reach) device.artifacts).1) := by
    intro steps hall
    exact h.perform_quiet fun step hstep => hall step (List.mem_of_mem_take hstep)
  have hnothing : Bound signing (device.artifacts signing .nonce) (history ++ []) := by
    rw [List.append_nil]
    exact h
  unfold signPass
  split
  case h_2 => exact hquiet _ (by simp [Pass.idle])
  case h_1 t ht =>
    rcases signAdvanceSession_cases device entropy signing t device.board with
      hall | ⟨pending, op, hhas, hcreate⟩ | ⟨ctx, plan, raw, pending, hshares, hsign⟩
    · exact hquiet _ hall
    · -- The record is created where there is none.
      have hnone : device.artifacts signing .nonce = none := by
        simpa [Device.dkgHas] using hhas
      have hpending := h.create hnonce pending
      rw [hcreate]
      match reach with
      | 0 => exact hnothing
      | 1 => simpa [perform, Step.run, hnone] using hpending
      | reach + 2 =>
          have hquiet : signs signing (.post op) = none := rfl
          simpa [perform, Step.run, hnone] using hpending.quiet rfl hquiet
    · have hraw : device.artifacts signing .nonce = some raw := by
        have hread := hshares.record
        rw [Device.dkgRead] at hread
        split at hread
        case isTrue => exact hread
        case isFalse => cases hread
      rw [hraw] at h
      have hlen := hfits t ctx hshares.context
      rcases hsign with ⟨hunbound', hsteps⟩ | ⟨hbound, hbinding, hsteps⟩
      · -- The record is bound by this pass, and then signs.
        have hbind := h.bind hnonce hshares.decoded hunbound'
          { pending with binding := nonceBinding signing (ctx.message device.space) plan }
        rw [hsteps]
        match reach with
        | 0 => exact hnothing
        | reach + 1 =>
            have hrest := hbind.postShare hblake hplan
              (Artifacts.put_same device.artifacts signing .nonce _) (hnonce _)
              (hunbound signing _ plan) hlen rfl ctx pending.nonces reach
            simpa [perform, Step.run] using hrest
      · rw [hsteps]
        exact h.postShare hblake hplan hraw hshares.decoded hbound hlen hbinding ctx
          pending.nonces reach

theorem Holding.steps_visit (signing : TranscriptId) (holding : Holding) (v : Visit) :
    (holding.visit signing v).steps = holding.steps ++
      (perform ((signPass (v.on signing holding.record) v.entropy signing).steps.take v.reach)
        (v.on signing holding.record).artifacts).1 := by
  unfold Holding.steps Holding.visit
  rw [List.map_append, List.map_map]
  congr 1
  exact List.map_id _

/-- What a run of passes keeps. -/
theorem Bound.run (hblake : Blake3Injective) (hplan : Postcard.RoundTrips SigningPlan)
    (hnonce : Postcard.RoundTrips PendingNonce) (hunbound : NeverUnbound) (signing : TranscriptId)
    (visits : List Visit) (hfits : ∀ v ∈ visits, v.Fits signing) :
    Bound signing (visits.foldl (Holding.visit signing) {}).record
        (visits.foldl (Holding.visit signing) {}).steps ∧
      ∀ (device : Device) (commitments : Packages) (message nonces : Bytes),
        (device, .sign signing commitments message nonces)
            ∈ (visits.foldl (Holding.visit signing) {}).history →
          Rightful device signing commitments message := by
  induction visits using List.reverseRecOn with
  | nil =>
      have hempty : uses signing ({} : Holding).steps = [] := rfl
      refine ⟨⟨by simp [hempty], by simp [hempty], by simp [hempty], ?_⟩, ?_⟩
      · rintro raw ⟨⟩
      · rintro device commitments message nonces ⟨⟩
  | append_singleton visits v ih =>
      obtain ⟨hbound, hshares⟩ := ih fun v' hv' => hfits v' (List.mem_append_left _ hv')
      rw [List.foldl_append, List.foldl_cons, List.foldl_nil]
      constructor
      · rw [Holding.steps_visit]
        refine Bound.pass hblake hplan hnonce hunbound ?_ (hfits v (by simp) _) v.entropy v.reach
        rw [show (v.on signing _).artifacts signing .nonce = _ from Artifacts.put_same _ _ _ _]
        exact hbound
      · intro device commitments message nonces hmem
        rcases List.mem_append.mp hmem with hmem | hmem
        · exact hshares device commitments message nonces hmem
        · obtain ⟨step, hstep, heq⟩ := List.mem_map.mp hmem
          cases heq
          exact rightful_of_mem (List.mem_of_mem_take (mem_perform hstep))

/-- **A signing nonce serves one plan.**  Over any run of passes, cut short
anywhere, with any board and any files at each: a stored nonce record is used for
one pair of commitments and message at most, and every share is made for a plan
whose commitments their authors posted, over a message of op bytes this holder's
intent record names. -/
theorem nonce_serves_one_plan (hblake : Blake3Injective)
    (hplan : Postcard.RoundTrips SigningPlan) (hnonce : Postcard.RoundTrips PendingNonce)
    (hunbound : NeverUnbound) (signing : TranscriptId) (visits : List Visit)
    (hfits : ∀ v ∈ visits, v.Fits signing) :
    (∀ u ∈ uses signing (visits.foldl (Holding.visit signing) {}).steps,
        ∀ u' ∈ uses signing (visits.foldl (Holding.visit signing) {}).steps,
          u.1 = u'.1 → u.2 = u'.2) ∧
      ∀ (device : Device) (commitments : Packages) (message nonces : Bytes),
        (device, .sign signing commitments message nonces)
            ∈ (visits.foldl (Holding.visit signing) {}).history →
          Rightful device signing commitments message := by
  obtain ⟨hbound, hshares⟩ := Bound.run hblake hplan hnonce hunbound signing visits hfits
  exact ⟨hbound.one, hshares⟩

end Pass

end Ceremony

end Lait
