import Lait.Space

/-!
# What a rotated-out recovery key can still do

The replay of the space plane starts from the genesis each time, so an op that
arrives late, for a generation long past, is weighed against the op that was
applied there.  Of the ops that apply to a state the one with the lowest bytes
does (`turn_eq_some_iff`), whatever the order in which they were heard.

A `Rotate` is to spend the key it replaces.  It does against ops of later
generations, which the old key no longer authorizes.  An op of the old key for a
generation at which that key stood is another matter: it is authorized there, and
where its bytes are the lower ones it takes the place of the op applied, up to the
`Rotate` itself.  `NoneOvertakes` says that no late op does, and
`rotated_key_spent` that this is what keeps a replay as it was.
-/

namespace Lait.Space

section Theory

variable [Crypto]

/-! ## One turn -/

/-- What a turn of the loop leaves, when an op applies. -/
def turn (ops : List Candidate) (state : RootState) : Option RootState :=
  ops.findSome? (applyCandidate state)

/-- The lowest, by bytes, of the ops that apply. -/
structure Lowest (ops : List Candidate) (state : RootState) (c : Candidate) : Prop where
  mem : c ∈ ops
  applies : (applyCandidate state c).isSome
  lowest : ∀ c' ∈ ops, (applyCandidate state c').isSome → c.bytes ≤ c'.bytes

/-- An op that applies does what it does. -/
theorem applyCandidate_eq_take {state : RootState} {c : Candidate}
    (happlies : (applyCandidate state c).isSome) : applyCandidate state c = c.op.take state := by
  unfold applyCandidate at happlies ⊢
  split
  next hgen =>
    rw [if_pos hgen] at happlies
    cases happlies
  next hgen =>
    rw [if_neg hgen] at happlies
    split
    next hauthor =>
      rw [if_pos hauthor] at happlies
      cases happlies
    next => rfl

/-- An op that applies is of the next generation. -/
theorem gen_of_applies {state : RootState} {c : Candidate}
    (happlies : (applyCandidate state c).isSome) : c.op.gen = state.gen + 1 := by
  obtain ⟨next, hnext⟩ := Option.isSome_iff_exists.mp happlies
  exact (gen_applyCandidate hnext).1

/-- A turn applies nothing exactly when nothing applies. -/
theorem turn_eq_none_iff {ops : List Candidate} {state : RootState} :
    turn ops state = none ↔ ∀ c ∈ ops, ¬ (applyCandidate state c).isSome := by
  rw [turn, List.findSome?_eq_none_iff]
  refine forall₂_congr fun c _ => ?_
  rw [Option.not_isSome_iff_eq_none]

/-- Ops in the order of the replay, each the one its bytes encode. -/
structure Ordered (ops : List Candidate) : Prop where
  sorted : ops.Pairwise fun a b => a.before b = true
  op_of_bytes : ∀ c ∈ ops, ∀ c' ∈ ops, c.bytes = c'.bytes → c.op = c'.op

/-- The lowest op that applies is the one applied. -/
theorem turn_eq_some_iff {ops : List Candidate} (hops : Ordered ops) {state next : RootState} :
    turn ops state = some next ↔ ∃ c, Lowest ops state c ∧ applyCandidate state c = some next := by
  have hforward : ∀ t, turn ops state = some t →
      ∃ c, Lowest ops state c ∧ applyCandidate state c = some t := by
    intro t ht
    obtain ⟨l₁, c, l₂, hsplit, hc, hbefore⟩ := List.findSome?_eq_some_iff.mp ht
    have happlies : (applyCandidate state c).isSome := Option.isSome_iff_exists.mpr ⟨t, hc⟩
    refine ⟨c, ⟨hsplit ▸ by simp, happlies, fun c' hc' happlies' => ?_⟩, hc⟩
    rw [hsplit] at hc'
    rcases List.mem_append.mp hc' with hleft | hright
    · rw [hbefore c' hleft] at happlies'
      cases happlies'
    · rcases List.mem_cons.mp hright with rfl | hright
      · exact le_refl _
      · have hsorted := hops.sorted
        rw [hsplit, List.pairwise_append, List.pairwise_cons] at hsorted
        have hle := hsorted.2.1.1 c' hright
        rw [Candidate.before, gen_of_applies happlies, gen_of_applies happlies'] at hle
        simpa using hle
  refine ⟨hforward next, ?_⟩
  rintro ⟨c, hc, happly⟩
  cases hturn : turn ops state with
  | none => exact absurd hc.applies (turn_eq_none_iff.mp hturn c hc.mem)
  | some t =>
      obtain ⟨c', hc', happly'⟩ := hforward t hturn
      have hbytes : c.bytes = c'.bytes :=
        le_antisymm (hc.lowest c' hc'.mem hc'.applies) (hc'.lowest c hc.mem hc.applies)
      have hop := hops.op_of_bytes c hc.mem c' hc'.mem hbytes
      rw [← happly, ← happly', applyCandidate_eq_take hc.applies,
        applyCandidate_eq_take hc'.applies, hop]

/-- Where an op applies, one is the lowest. -/
theorem exists_lowest {ops : List Candidate} (hops : Ordered ops) {state : RootState}
    {c : Candidate} (hc : c ∈ ops) (happlies : (applyCandidate state c).isSome) :
    ∃ c', Lowest ops state c' := by
  cases hturn : turn ops state with
  | none => exact absurd happlies (turn_eq_none_iff.mp hturn c hc)
  | some t =>
      obtain ⟨c', hc', -⟩ := (turn_eq_some_iff hops).mp hturn
      exact ⟨c', hc'⟩

/-! ## Candidates -/

section Candidates

variable [Postcard SpaceOp]

/-- The candidates are the verified ops that decode. -/
theorem mem_candidates {wsId : SpaceId} {events : List SignedSpaceEvent} {c : Candidate} :
    c ∈ candidates wsId events ↔ ∃ ev ∈ events, ev.verifySig SPACE_EVENT_DOMAIN wsId = true ∧
      Postcard.fromBytes ev.op = some c.op ∧ c.bytes = ev.op ∧ c.author = ev.author := by
  rw [candidates, List.mem_insertionSort, List.mem_filterMap]
  refine exists_congr fun ev => and_congr_right fun _ => ?_
  constructor
  · intro h
    split at h
    next hverify =>
      obtain ⟨op, hop, rfl⟩ := Option.map_eq_some_iff.mp h
      exact ⟨hverify, hop, rfl, rfl⟩
    next => cases h
  · rintro ⟨hverify, hop, hbytes, hauthor⟩
    rw [if_pos hverify, hop, Option.map_some, ← hbytes, ← hauthor]

/-- A set of events has the candidates of its parts. -/
theorem mem_candidates_union {wsId : SpaceId} {events late all : List SignedSpaceEvent}
    (hall : ∀ ev, ev ∈ all ↔ ev ∈ events ∨ ev ∈ late) (c : Candidate) :
    c ∈ candidates wsId all ↔ c ∈ candidates wsId events ∨ c ∈ candidates wsId late := by
  simp only [mem_candidates, hall, or_and_right, exists_or]

theorem ordered_candidates (wsId : SpaceId) (events : List SignedSpaceEvent) :
    Ordered (candidates wsId events) := by
  refine ⟨?_, fun c hc c' hc' hbytes => ?_⟩
  · have htotal : Std.Total fun a b : Candidate => a.before b = true := by
      refine ⟨fun a b => ?_⟩
      simp only [Candidate.before, Bool.or_eq_true, Bool.and_eq_true, decide_eq_true_eq]
      rcases lt_trichotomy a.op.gen b.op.gen with h | h | h
      · exact Or.inl (Or.inl h)
      · rcases le_total a.bytes b.bytes with hle | hle
        · exact Or.inl (Or.inr ⟨h, hle⟩)
        · exact Or.inr (Or.inr ⟨h.symm, hle⟩)
      · exact Or.inr (Or.inl h)
    have htrans : IsTrans Candidate fun a b => a.before b = true := by
      refine ⟨fun a b c hab hbc => ?_⟩
      simp only [Candidate.before, Bool.or_eq_true, Bool.and_eq_true, decide_eq_true_eq] at *
      rcases hab with hab | ⟨hab, hle⟩
      · exact Or.inl (by omega)
      · rcases hbc with hbc | ⟨hbc, hle'⟩
        · exact Or.inl (by omega)
        · exact Or.inr ⟨hab.trans hbc, hle.trans hle'⟩
    exact List.pairwise_insertionSort _ _
  · obtain ⟨ev, -, -, hop, hev, -⟩ := mem_candidates.mp hc
    obtain ⟨ev', -, -, hop', hev', -⟩ := mem_candidates.mp hc'
    rw [← hev, hbytes, hev', hop'] at hop
    exact (Option.some.inj hop).symm

end Candidates

/-! ## Two sets of ops -/

section Union

variable {events late all : List Candidate}

/-- Where an op applied, late ones leave the turn as it was exactly when the lowest of them
is not the lower, or does the same. -/
theorem turn_union_eq_iff (hevents : Ordered events) (hlate : Ordered late) (hordered : Ordered all)
    (hall : ∀ c, c ∈ all ↔ c ∈ events ∨ c ∈ late) {state next : RootState}
    (hturn : turn events state = some next) :
    turn all state = some next ↔ ∀ x c, Lowest late state x → Lowest events state c →
      x.bytes < c.bytes → applyCandidate state x = applyCandidate state c := by
  have hovertake : ∀ x c, Lowest late state x → Lowest events state c → x.bytes < c.bytes →
      Lowest all state x := by
    intro x c hx hc hlt
    refine ⟨(hall x).mpr (Or.inr hx.mem), hx.applies, fun c' hc' happlies => ?_⟩
    rcases (hall c').mp hc' with hc' | hc'
    · exact hlt.le.trans (hc.lowest c' hc' happlies)
    · exact hx.lowest c' hc' happlies
  obtain ⟨c, hc, happly⟩ := (turn_eq_some_iff hevents).mp hturn
  constructor
  · intro hsame x c' hx hc' hlt
    obtain ⟨t, ht⟩ := Option.isSome_iff_exists.mp hx.applies
    have hx' := (turn_eq_some_iff hordered).mpr ⟨x, hovertake x c' hx hc' hlt, ht⟩
    obtain ⟨t', ht'⟩ := Option.isSome_iff_exists.mp hc'.applies
    have hc'' := (turn_eq_some_iff hevents).mpr ⟨c', hc', ht'⟩
    rw [ht, ht', ← hx', hsame, ← hturn, hc'']
  · intro hsame
    rw [turn_eq_some_iff hordered]
    by_cases hlow : ∃ x, Lowest late state x ∧ x.bytes < c.bytes
    · obtain ⟨x, hx, hlt⟩ := hlow
      exact ⟨x, hovertake x c hx hc hlt, (hsame x c hx hc hlt).trans happly⟩
    · refine ⟨c, ⟨(hall c).mpr (Or.inl hc.mem), hc.applies, fun c' hc' happlies => ?_⟩, happly⟩
      rcases (hall c').mp hc' with hc' | hc'
      · exact hc.lowest c' hc' happlies
      · obtain ⟨x, hx⟩ := exists_lowest hlate hc' happlies
        have hle : c.bytes ≤ x.bytes := not_lt.mp fun hlt => hlow ⟨x, hx, hlt⟩
        exact hle.trans (hx.lowest c' hc' happlies)

end Union

/-! ## Turn after turn -/

section Turns

variable {ops : List Candidate}

theorem replayLoop_succ (n : ℕ) (state : RootState) :
    replayLoop ops (n + 1) state = match turn ops state with
      | some next => replayLoop ops n next
      | none => state := rfl

/-- Where no op applies the loop stays. -/
theorem replayLoop_of_none {state : RootState} (hnone : turn ops state = none) (n : ℕ) :
    replayLoop ops n state = state := by
  cases n with
  | zero => rfl
  | succ n => rw [replayLoop_succ, hnone]

/-- Turns add up. -/
theorem replayLoop_add (m n : ℕ) (state : RootState) :
    replayLoop ops (m + n) state = replayLoop ops n (replayLoop ops m state) := by
  induction m generalizing state with
  | zero => rw [Nat.zero_add, replayLoop]
  | succ m ih =>
      rw [Nat.succ_add, replayLoop_succ, replayLoop_succ]
      cases hturn : turn ops state with
      | none => exact (replayLoop_of_none hturn n).symm
      | some next => exact ih next

/-- The last turn. -/
theorem replayLoop_last (n : ℕ) (state : RootState) :
    replayLoop ops (n + 1) state =
      (turn ops (replayLoop ops n state)).getD (replayLoop ops n state) := by
  rw [replayLoop_add, replayLoop_succ]
  cases turn ops (replayLoop ops n state) with
  | none => rfl
  | some next => rfl

/-- The generation never falls. -/
theorem gen_le_replayLoop (n : ℕ) (state : RootState) :
    state.gen ≤ (replayLoop ops n state).gen := by
  induction n with
  | zero => exact le_refl _
  | succ n ih =>
      rw [replayLoop_last]
      cases hturn : turn ops (replayLoop ops n state) with
      | none => exact ih
      | some next =>
          obtain ⟨c, -, hnext⟩ := List.exists_of_findSome?_eq_some hturn
          rw [Option.getD_some, (gen_applyCandidate hnext).2]
          omega

end Turns

/-! ## The replay of a set of events -/

section Replay

variable [Postcard Config] [Postcard SpaceOp]

/-- The state after so many turns. -/
def stateAfter (genesis : Genesis) (wsId : SpaceId) (events : List SignedSpaceEvent) (n : ℕ) :
    RootState :=
  replayLoop (candidates wsId events) n (RootState.birth genesis)

variable {genesis : Genesis} {wsId : SpaceId} {events late all : List SignedSpaceEvent}

/-- The replay answers the state that stays. -/
theorem replay_eq_stateAfter {n : ℕ} (hn : (candidates wsId events).length ≤ n) :
    replay genesis wsId events = stateAfter genesis wsId events n := by
  have hstuck : turn (candidates wsId events) (replay genesis wsId events) = none :=
    replayLoop_stuck _ _ (List.length_filter_le _ _)
  obtain ⟨d, rfl⟩ := Nat.exists_eq_add_of_le hn
  rw [stateAfter, replayLoop_add]
  exact (replayLoop_of_none hstuck d).symm

/-- Replays through the same states answer alike. -/
theorem replay_eq_of_stateAfter
    (hsame : ∀ n, stateAfter genesis wsId all n = stateAfter genesis wsId events n) :
    replay genesis wsId all = replay genesis wsId events := by
  rw [replay_eq_stateAfter (le_max_left _ (candidates wsId events).length), hsame,
    ← replay_eq_stateAfter (le_max_right _ _)]

/-- At a generation the replay applied a `Rotate` that took the authority from a key: the key's
commitment stood before it, and another stands after it. -/
def RotatedOut (genesis : Genesis) (wsId : SpaceId) (events : List SignedSpaceEvent)
    (key : DeviceId) (gen : ℕ) : Prop :=
  ∃ n newKey configuration, ∃ c ∈ candidates wsId events,
    c.op = .rotate newKey gen configuration ∧
    applyCandidate (stateAfter genesis wsId events n) c =
      some (stateAfter genesis wsId events (n + 1)) ∧
    recoveryCommit key = some (stateAfter genesis wsId events n).recoveryCommit ∧
    recoveryCommit key ≠ some (stateAfter genesis wsId events (n + 1)).recoveryCommit

/-- Events of one key, for generations up to one. -/
def OfKeyUpTo (key : DeviceId) (gen : ℕ) (late : List SignedSpaceEvent) : Prop :=
  ∀ ev ∈ late, ev.author.same key = true ∧
    ∀ op : SpaceOp, Postcard.fromBytes ev.op = some op → op.gen ≤ gen

/-- No late op overtakes: where the lowest of the late ops that apply to a state of the replay
has lower bytes than the op applied there, it does the same. -/
def NoneOvertakes (genesis : Genesis) (wsId : SpaceId) (events late : List SignedSpaceEvent) :
    Prop :=
  ∀ n x c, Lowest (candidates wsId late) (stateAfter genesis wsId events n) x →
    Lowest (candidates wsId events) (stateAfter genesis wsId events n) c → x.bytes < c.bytes →
    applyCandidate (stateAfter genesis wsId events n) x =
      applyCandidate (stateAfter genesis wsId events n) c

/-- A replay that came past a generation does not end before it. -/
theorem le_gen_of_turn_eq_none {key : DeviceId} {gen n : ℕ}
    (hrotated : RotatedOut genesis wsId events key gen)
    (hnone : turn (candidates wsId events) (stateAfter genesis wsId events n) = none) :
    gen ≤ (stateAfter genesis wsId events n).gen := by
  obtain ⟨m, newKey, configuration, c, hc, hop, happly, -, -⟩ := hrotated
  have happlies : (applyCandidate (stateAfter genesis wsId events m) c).isSome :=
    Option.isSome_iff_exists.mpr ⟨_, happly⟩
  have hgen : gen = (stateAfter genesis wsId events m).gen + 1 := by
    rw [← gen_of_applies happlies, hop]
    rfl
  rcases Nat.lt_or_ge m n with hlt | hge
  · obtain ⟨d, rfl⟩ := Nat.exists_eq_add_of_le (Nat.succ_le_of_lt hlt)
    have hmono : (stateAfter genesis wsId events (m + 1)).gen ≤
        (stateAfter genesis wsId events (m.succ + d)).gen := by
      rw [stateAfter, stateAfter, replayLoop_add m.succ d]
      exact gen_le_replayLoop d _
    rw [hgen, ← (gen_applyCandidate happly).2]
    exact hmono
  · -- The loop had ended at turn `n`, and yet an op applied at turn `m`.
    obtain ⟨d, rfl⟩ := Nat.exists_eq_add_of_le hge
    have hstay : stateAfter genesis wsId events (n + d) = stateAfter genesis wsId events n := by
      rw [stateAfter, stateAfter, replayLoop_add]
      exact replayLoop_of_none hnone d
    rw [hstay] at happlies
    exact absurd happlies (turn_eq_none_iff.mp hnone c hc)

/-- Where the replay ends, no op for an earlier generation applies. -/
theorem late_inert_at_end {key : DeviceId} {gen n : ℕ}
    (hrotated : RotatedOut genesis wsId events key gen) (hlate : OfKeyUpTo key gen late)
    (hnone : turn (candidates wsId events) (stateAfter genesis wsId events n) = none) :
    turn (candidates wsId late) (stateAfter genesis wsId events n) = none := by
  rw [turn_eq_none_iff]
  intro x hx happlies
  obtain ⟨ev, hev, -, hop, -, -⟩ := mem_candidates.mp hx
  have hle := (hlate ev hev).2 x.op hop
  have hend := le_gen_of_turn_eq_none hrotated hnone
  rw [gen_of_applies happlies] at hle
  omega

/-- **The replays go through the same states** exactly when no late op overtakes. -/
theorem stateAfter_union_eq_iff {key : DeviceId} {gen : ℕ}
    (hrotated : RotatedOut genesis wsId events key gen) (hlate : OfKeyUpTo key gen late)
    (hall : ∀ ev, ev ∈ all ↔ ev ∈ events ∨ ev ∈ late) :
    (∀ n, stateAfter genesis wsId all n = stateAfter genesis wsId events n) ↔
      NoneOvertakes genesis wsId events late := by
  have hunion : ∀ c, c ∈ candidates wsId all ↔ c ∈ candidates wsId events ∨
      c ∈ candidates wsId late := mem_candidates_union hall
  have hturn := fun {state next} (hone : turn (candidates wsId events) state = some next) =>
    turn_union_eq_iff (ordered_candidates wsId events) (ordered_candidates wsId late)
      (ordered_candidates wsId all) hunion hone
  constructor
  · intro hsame n x c hx hc hlt
    obtain ⟨next, hnext⟩ := Option.isSome_iff_exists.mp hc.applies
    have hone := (turn_eq_some_iff (ordered_candidates wsId events)).mpr ⟨c, hc, hnext⟩
    refine (hturn hone).mp ?_ x c hx hc hlt
    have hlast := hsame (n + 1)
    rw [stateAfter, stateAfter, replayLoop_last, replayLoop_last, ← stateAfter, ← stateAfter,
      hsame n, hone, Option.getD_some] at hlast
    cases hboth : turn (candidates wsId all) (stateAfter genesis wsId events n) with
    | none =>
        exact absurd hc.applies (turn_eq_none_iff.mp hboth c ((hunion c).mpr (Or.inl hc.mem)))
    | some next' =>
        rw [hboth, Option.getD_some] at hlast
        rw [hlast]
  · intro hnone n
    induction n with
    | zero => rfl
    | succ n ih =>
        rw [stateAfter, stateAfter, replayLoop_last, replayLoop_last, ← stateAfter, ← stateAfter,
          ih]
        congr 1
        cases hone : turn (candidates wsId events) (stateAfter genesis wsId events n) with
        | some next => exact (hturn hone).mpr (hnone n)
        | none =>
            have hlast := late_inert_at_end hrotated hlate hone
            rw [turn_eq_none_iff] at hone hlast ⊢
            intro c hc
            rcases (hunion c).mp hc with hc | hc
            · exact hone c hc
            · exact hlast c hc

/-- **A rotated-out key is spent where it does not overtake.**  Late events of the key, up to the
generation that replaced it, leave the replay as it was when none of them overtakes the op
applied, and leave every state on the way as it was only then. -/
theorem rotated_key_spent {key : DeviceId} {gen : ℕ}
    (hrotated : RotatedOut genesis wsId events key gen) (hlate : OfKeyUpTo key gen late)
    (hall : ∀ ev, ev ∈ all ↔ ev ∈ events ∨ ev ∈ late) :
    (NoneOvertakes genesis wsId events late →
      replay genesis wsId all = replay genesis wsId events) ∧
    ((∀ n, stateAfter genesis wsId all n = stateAfter genesis wsId events n) ↔
      NoneOvertakes genesis wsId events late) := by
  have hstates := stateAfter_union_eq_iff hrotated hlate hall
  exact ⟨fun hnone => replay_eq_of_stateAfter (hstates.mpr hnone), hstates⟩

end Replay

end Theory

/-! ## A rotation and what may come after it -/

namespace Spent

/-- The encoding of an op whose lengths and generation fit one byte each: the index of the
variant, then its fields. -/
def encodeOp : SpaceOp → Bytes
  | .recover newRoot gen =>
      Bytes.join [⟨[0, UInt8.ofNat newRoot.length]⟩,
        Bytes.join (newRoot.map fun actor => Bytes.join [⟨[UInt8.ofNat actor.length]⟩, actor]),
        ⟨[UInt8.ofNat gen]⟩]
  | .rotate newRecoveryKey gen nextConfiguration =>
      Bytes.join [⟨[1, UInt8.ofNat newRecoveryKey.asStr.length]⟩, newRecoveryKey.asStr,
        ⟨[UInt8.ofNat gen]⟩, nextConfiguration]
  | .reshare nextConfiguration gen =>
      Bytes.join [⟨[2]⟩, nextConfiguration, ⟨[UInt8.ofNat gen]⟩]

/-- The keys before and after the rotation. -/
def oldKey : DeviceId := DeviceId.fromKeyBytes ⟨List.replicate 32 1⟩

def newKey : DeviceId := DeviceId.fromKeyBytes ⟨List.replicate 32 2⟩

/-- An arrangement. -/
def arrangement : ConfigId := ⟨List.replicate 32 7⟩

/-- An actor of the old key's choice. -/
def intruder : ActorId := ActorId.PREFIX ++ ⟨List.replicate 64 48⟩

/-- The three ops made for the first generation. -/
def rotation : SpaceOp := .rotate newKey 1 arrangement

def reRoot : SpaceOp := .recover [intruder] 1

def rearrangement : SpaceOp := .reshare arrangement 1

/-- What decodes to the three. -/
@[reducible] def opCodec : Postcard SpaceOp where
  toStdvec := encodeOp
  fromBytes b := [rotation, reRoot, rearrangement].find? fun op => encodeOp op = b

/-- A space. -/
def space : SpaceId := Bytes.ofString "ws"

/-- Its genesis commits to the old key. -/
def birth : Genesis where
  spaceId := space
  foundingActors := [ActorId.PREFIX ++ ⟨List.replicate 64 49⟩]
  salt := ⟨List.replicate 16 0⟩
  recoveryRoot := ⟨List.replicate 32 1⟩

/-- An op signed with the old key. -/
def signed (op : SpaceOp) : SignedSpaceEvent :=
  let _ := idealCrypto
  signNode SPACE_EVENT_DOMAIN ⟨List.replicate 32 1⟩ (encodeOp op) [] space

end Spent

/-- A late `Recover` of the rotated-out key, for the generation of the `Rotate`, undoes it. -/
theorem late_recover_undoes_rotate :
    let _ := idealCrypto
    let _ : Postcard Config := tableCodec [Config.single]
    let _ := Spent.opCodec
    RotatedOut Spent.birth Spent.space [Spent.signed Spent.rotation] Spent.oldKey 1 ∧
      OfKeyUpTo Spent.oldKey 1 [Spent.signed Spent.reRoot] ∧
      replay Spent.birth Spent.space
        ([Spent.signed Spent.rotation] ++ [Spent.signed Spent.reRoot]) ≠
        replay Spent.birth Spent.space [Spent.signed Spent.rotation] := by
  intro _ _ _
  refine ⟨⟨0, Spent.newKey, Spent.arrangement, ⟨Spent.encodeOp Spent.rotation, Spent.rotation,
    Spent.oldKey⟩, by decide +kernel, rfl, by decide +kernel, by decide +kernel,
    by decide +kernel⟩, ?_, by decide +kernel⟩
  intro ev hev
  rw [List.mem_singleton.mp hev]
  refine ⟨by decide +kernel, fun op hop => ?_⟩
  have hdecoded : Postcard.fromBytes (Spent.signed Spent.reRoot).op = some Spent.reRoot := by
    decide +kernel
  rw [hdecoded] at hop
  obtain rfl := Option.some.inj hop
  decide

/-- A late `Reshare` of the rotated-out key changes nothing: it does not overtake. -/
theorem late_reshare_changes_nothing :
    let _ := idealCrypto
    let _ : Postcard Config := tableCodec [Config.single]
    let _ := Spent.opCodec
    replay Spent.birth Spent.space
        [Spent.signed Spent.rotation, Spent.signed Spent.rearrangement] =
      replay Spent.birth Spent.space [Spent.signed Spent.rotation] ∧
    ∀ n, stateAfter Spent.birth Spent.space
        [Spent.signed Spent.rotation, Spent.signed Spent.rearrangement] n =
      stateAfter Spent.birth Spent.space [Spent.signed Spent.rotation] n := by
  intro _ _ _
  have hrotated : RotatedOut Spent.birth Spent.space [Spent.signed Spent.rotation] Spent.oldKey 1 :=
    ⟨0, Spent.newKey, Spent.arrangement, ⟨Spent.encodeOp Spent.rotation, Spent.rotation,
      Spent.oldKey⟩, by decide +kernel, rfl, by decide +kernel, by decide +kernel,
      by decide +kernel⟩
  have hlate : OfKeyUpTo Spent.oldKey 1 [Spent.signed Spent.rearrangement] := by
    intro ev hev
    rw [List.mem_singleton.mp hev]
    refine ⟨by decide +kernel, fun op hop => ?_⟩
    have hdecoded : Postcard.fromBytes (Spent.signed Spent.rearrangement).op =
        some Spent.rearrangement := by
      decide +kernel
    rw [hdecoded] at hop
    obtain rfl := Option.some.inj hop
    decide
  -- the bytes of the late op are the higher ones
  have hhigher : ∀ x ∈ candidates Spent.space [Spent.signed Spent.rearrangement],
      ∀ c ∈ candidates Spent.space [Spent.signed Spent.rotation], ¬ x.bytes < c.bytes := by
    decide +kernel
  have hnone : NoneOvertakes Spent.birth Spent.space [Spent.signed Spent.rotation]
      [Spent.signed Spent.rearrangement] := fun n x c hx hc hlt =>
    absurd hlt (hhigher x hx.mem c hc.mem)
  have hall : ∀ ev, ev ∈ [Spent.signed Spent.rotation, Spent.signed Spent.rearrangement] ↔
      ev ∈ [Spent.signed Spent.rotation] ∨ ev ∈ [Spent.signed Spent.rearrangement] := by
    simp
  obtain ⟨hreplay, hstates⟩ := rotated_key_spent hrotated hlate hall
  exact ⟨hreplay hnone, hstates.mpr hnone⟩

end Lait.Space
