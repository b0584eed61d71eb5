import Lait.Sigdag

/-!
# The space plane: the root lifecycle

A space is born with a bootstrap root, its founding actors, and a commitment to
one recovery key.  The space plane moves both: a `Recover` replaces the root, a
`Rotate` the key, a `Reshare` the arrangement that operates the key.  Each is
signed by the key that stands when it applies and carries the next generation
number.

`replay` folds a set of signed events over the genesis.  The ops are sorted once
by generation and bytes; a turn of the loop applies the first op of the next
generation that the standing key authored and that takes effect, and the loop
ends with the first turn that applies none.
-/

namespace Lait

/-- How an authority's private half is operated. -/
inductive Scheme
  | single
  | frostThreshold
  | generalAccess
  deriving DecidableEq

/-- A scheme and its opaque configuration bytes. -/
structure Config where
  version : ℕ
  scheme : Scheme
  payload : Bytes
  deriving DecidableEq

/-- The content address of a configuration. -/
abbrev ConfigId := Bytes

namespace Config

/-- The domain of configuration ids. -/
def CONFIG_ID_DOMAIN : Bytes := Bytes.ofString "lait/space/1/authority/config-id"

/-- The configuration of the bootstrap single-holder authority. -/
def single : Config := ⟨1, .single, ⟨[]⟩⟩

def id [Crypto] [Postcard Config] (config : Config) : ConfigId :=
  Crypto.blake3 (Bytes.join [CONFIG_ID_DOMAIN, Postcard.toStdvec config])

end Config

namespace Space

/-- Signing domain for the space-event plane. -/
def SPACE_EVENT_DOMAIN : Bytes := Bytes.ofString "lait/space/1/event"

/-- A signed space-plane event. -/
abbrev SignedSpaceEvent := SignedNode

/-- A space-plane op. -/
inductive SpaceOp
  | recover (newRoot : List ActorId) (gen : ℕ)
  | rotate (newRecoveryKey : DeviceId) (gen : ℕ) (nextConfiguration : ConfigId)
  | reshare (nextConfiguration : ConfigId) (gen : ℕ)
  deriving DecidableEq

/-- The generation an op is made for. -/
def SpaceOp.gen : SpaceOp → ℕ
  | recover _ gen => gen
  | rotate _ gen _ => gen
  | reshare _ gen => gen

/-- The materialized root. -/
structure RootState where
  /-- What seeds the membership replay. -/
  root : List ActorId
  recoveryCommit : Bytes
  configuration : ConfigId
  /-- Generation of the last applied op; 0 at birth. -/
  gen : ℕ
  recovered : Bool
  deriving DecidableEq

section Replay

variable [Crypto]

/-- The commitment to a recovery public key. -/
def recoveryCommit (recoveryPub : DeviceId) : Option Bytes :=
  (Bytes.hex32 recoveryPub.asStr).map Crypto.blake3

/-- A verified, decoded op: its bytes break ties within a generation. -/
structure Candidate where
  bytes : Bytes
  op : SpaceOp
  author : DeviceId
  deriving DecidableEq

/-- Generation first, then bytes. -/
def Candidate.before (a b : Candidate) : Bool :=
  a.op.gen < b.op.gen || (a.op.gen = b.op.gen && a.bytes ≤ b.bytes)

/-- Verify and decode every op up front, in generation order. -/
def candidates [Postcard SpaceOp] (wsId : SpaceId) (events : List SignedSpaceEvent) :
    List Candidate :=
  (events.filterMap fun ev =>
    if ev.verifySig SPACE_EVENT_DOMAIN wsId then
      (Postcard.fromBytes ev.op : Option SpaceOp).map fun op => ⟨ev.op, op, ev.author⟩
    else none).insertionSort fun a b => a.before b

/-- What an op does to the state it applies to; `none` when it has no effect. -/
def SpaceOp.take (state : RootState) : SpaceOp → Option RootState
  | recover newRoot gen =>
      if newRoot.isEmpty then none
      else some { state with root := newRoot, recovered := true, gen }
  | rotate newRecoveryKey gen nextConfiguration =>
      (recoveryCommit newRecoveryKey).map fun c =>
        { state with recoveryCommit := c, configuration := nextConfiguration, gen }
  | reshare nextConfiguration gen => some { state with configuration := nextConfiguration, gen }

/-- Apply a candidate of the next generation authored by the standing key. -/
def applyCandidate (state : RootState) (c : Candidate) : Option RootState :=
  if c.op.gen ≠ state.gen + 1 then none
  else if recoveryCommit c.author ≠ some state.recoveryCommit then none
  else c.op.take state

/-- The outer loop.  Each turn that applies an op raises the generation to that
op's, so there are at most as many turns as ops. -/
def replayLoop (ops : List Candidate) : ℕ → RootState → RootState
  | 0, state => state
  | fuel + 1, state =>
      match ops.findSome? (applyCandidate state) with
      | some next => replayLoop ops fuel next
      | none => state

/-- The state at birth: the genesis root, operated by a single holder. -/
def RootState.birth [Postcard Config] (genesis : Genesis) : RootState where
  root := genesis.foundingActors
  recoveryCommit := genesis.recoveryRoot
  configuration := Config.single.id
  gen := 0
  recovered := false

/-- Replay the space plane over genesis to the current root. -/
def replay [Postcard Config] [Postcard SpaceOp] (genesis : Genesis) (wsId : SpaceId)
    (events : List SignedSpaceEvent) : RootState :=
  let ops := candidates wsId events
  replayLoop ops ops.length (RootState.birth genesis)

end Replay

/-! ## The loop has fuel enough

A turn that applies an op leaves the state at that op's generation, and what is
left to apply lies above it. -/

section Fuel

variable [Crypto]

/-- An applied candidate is of the next generation, and leaves the state there. -/
theorem gen_applyCandidate {state next : RootState} {c : Candidate}
    (happly : applyCandidate state c = some next) :
    c.op.gen = state.gen + 1 ∧ next.gen = state.gen + 1 := by
  unfold applyCandidate at happly
  split at happly
  next => cases happly
  next hgen =>
    rw [not_not] at hgen
    refine ⟨hgen, ?_⟩
    split at happly
    next => cases happly
    next =>
      rw [← hgen]
      cases hop : c.op with
      | recover newRoot gen =>
          rw [hop, SpaceOp.take] at happly
          split at happly
          next => cases happly
          next =>
            obtain rfl := Option.some.inj happly
            rfl
      | rotate newRecoveryKey gen nextConfiguration =>
          rw [hop, SpaceOp.take] at happly
          obtain ⟨c, -, rfl⟩ := Option.map_eq_some_iff.mp happly
          rfl
      | reshare nextConfiguration gen =>
          rw [hop, SpaceOp.take] at happly
          obtain rfl := Option.some.inj happly
          rfl

/-- **The replay runs to its end**: in the state it answers, no op applies. -/
theorem replayLoop_stuck {ops : List Candidate} (fuel : ℕ) (state : RootState)
    (hfuel : (ops.filter fun c => state.gen < c.op.gen).length ≤ fuel) :
    ops.findSome? (applyCandidate (replayLoop ops fuel state)) = none := by
  induction fuel generalizing state with
  | zero =>
      have hnone := List.filter_eq_nil_iff.mp (List.length_eq_zero_iff.mp (Nat.le_zero.mp hfuel))
      refine List.findSome?_eq_none_iff.mpr fun c hc => ?_
      cases happly : applyCandidate (replayLoop ops 0 state) c with
      | none => rfl
      | some next =>
          have hgen := (gen_applyCandidate happly).1
          rw [replayLoop] at hgen
          exact absurd (by simp [hgen]) (hnone c hc)
  | succ fuel ih =>
      rw [replayLoop]
      split
      next next happly =>
        obtain ⟨c, hc, hnext⟩ := List.exists_of_findSome?_eq_some happly
        obtain ⟨hcgen, hgen⟩ := gen_applyCandidate hnext
        refine ih next ?_
        have hsub : (ops.filter fun c => next.gen < c.op.gen).length <
            (ops.filter fun c => state.gen < c.op.gen).length := by
          have hfilter : (ops.filter fun c => decide (next.gen < c.op.gen)) =
              (ops.filter fun c => decide (state.gen < c.op.gen)).filter
                fun c => decide (next.gen < c.op.gen) := by
            rw [List.filter_filter]
            refine List.filter_congr fun k _ => ?_
            rw [Bool.eq_iff_iff, Bool.and_eq_true, decide_eq_true_eq, decide_eq_true_eq]
            omega
          rw [hfilter, List.length_filter_lt_length_iff_exists]
          exact ⟨c, List.mem_filter.mpr ⟨hc, by simp [hcgen]⟩, by simp [hcgen, hgen]⟩
        omega
      next hnone => exact hnone

end Fuel

end Space

end Lait
