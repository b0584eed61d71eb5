import Lait.Issues.Geometry.Registry

/-!
# The registry stays consistent

Whatever order the locked sections of polls and builds come in, the marks are those of the
builds in flight, one build for a source; no key is both retained and refused; and the
limits hold.  The invariant behind it is about the builds that have not been retained yet:
nothing is held for their keys, as a poll elects a build only then and marks the key before
another poll can (`Consistent.waiting`).

The byte counter is a saturating sum.  It never exceeds the sum over the retained artifacts,
and is that sum as long as no retention saturates, which a limit of at most half the largest
word rules out.
-/

namespace Lait.Issues.Geometry

open Lait (Text BTreeMap Crypto)

/-! ## The bytes retained -/

/-- The bytes of the retained artifacts. -/
def totalBytes (held : BTreeMap GeometryArtifactKey CachedGeometry) : ℕ :=
  (held.toList.map fun entry => entry.2.artifact.retainedBytes).sum

section Total

variable {held : BTreeMap GeometryArtifactKey CachedGeometry} {key : GeometryArtifactKey}
  {cached : CachedGeometry}

theorem totalBytes_insert (h : held[key]? = none) :
    totalBytes (held.insert key cached) = cached.artifact.retainedBytes + totalBytes held := by
  rw [totalBytes, ((BTreeMap.toList_insert_perm h cached).map _).sum_eq]
  rfl

theorem totalBytes_erase (h : held[key]? = some cached) :
    totalBytes held = cached.artifact.retainedBytes + totalBytes (held.erase key) := by
  rw [totalBytes, ((BTreeMap.toList_perm_erase h).map _).sum_eq]
  rfl

theorem size_erase_held (h : held[key]? = some cached) : held.size = (held.erase key).size + 1 := by
  rw [← Std.ExtTreeMap.length_toList, ← Std.ExtTreeMap.length_toList,
    (BTreeMap.toList_perm_erase h).length_eq, List.length_cons]

theorem totalBytes_eq_zero (h : held.size = 0) : totalBytes held = 0 := by
  rw [← Std.ExtTreeMap.length_toList, List.length_eq_zero_iff] at h
  rw [totalBytes, h]
  rfl

/-- Using an artifact changes neither the number nor the bytes. -/
theorem replace_held (h : held[key]? = some cached) (lastUsed : ℕ) :
    totalBytes (held.insert key { cached with lastUsed := lastUsed }) = totalBytes held ∧
      (held.insert key { cached with lastUsed := lastUsed }).size = held.size := by
  have herase : (held.insert key { cached with lastUsed := lastUsed }).erase key =
      held.erase key := by
    apply BTreeMap.ext
    intro other
    rw [BTreeMap.get_erase, BTreeMap.get_erase, BTreeMap.get_insert]
    split <;> rfl
  have hget : (held.insert key { cached with lastUsed := lastUsed })[key]? =
      some { cached with lastUsed := lastUsed } := by
    rw [BTreeMap.get_insert, if_pos rfl]
  constructor
  · rw [totalBytes_erase hget, totalBytes_erase h, herase]
  · rw [size_erase_held hget, size_erase_held h, herase]

theorem leastUsed_eq_none (h : GeometryRegistryState.leastUsed held = none) : held.size = 0 := by
  rw [GeometryRegistryState.leastUsed, Option.map_eq_none_iff, List.argmin_eq_none] at h
  rw [← Std.ExtTreeMap.length_toList, h, List.length_nil]

theorem get_leastUsed (h : GeometryRegistryState.leastUsed held = some key) :
    ∃ cached, held[key]? = some cached := by
  obtain ⟨⟨other, cached⟩, hmem, rfl⟩ := Option.map_eq_some_iff.mp h
  exact ⟨cached, BTreeMap.mem_toList_iff.mp (List.argmin_mem hmem)⟩

end Total

/-! ## What every section keeps -/

/-- What holds of a state apart from its builds: the limits, the counter, the charge of each
artifact, and no key both retained and refused. -/
structure Held (limits : GeometryCacheLimits) (state : GeometryRegistryState) : Prop where
  entries_le : state.artifacts.size ≤ limits.entries
  bytes_le : state.retainedBytes ≤ limits.retainedBytes
  counted : state.retainedBytes ≤ totalBytes state.artifacts
  charged : ∀ (key : GeometryArtifactKey) (cached : CachedGeometry),
    state.artifacts[key]? = some cached → cached.retainedBytes = cached.artifact.retainedBytes
  apart : ∀ key : GeometryArtifactKey, state.artifacts[key]? = none ∨ state.terminal[key]? = none
  terminal_le : state.terminal.size ≤ MAX_TERMINAL_GEOMETRY_RESULTS

/-- The marks are no part of it. -/
theorem Held.mark {limits : GeometryCacheLimits} {state : GeometryRegistryState}
    (h : Held limits state) (building : Finset GeometryArtifactKey)
    (activeSources : Finset WorldPublicationId) :
    Held limits { state with building := building, activeSources := activeSources } :=
  ⟨h.entries_le, h.bytes_le, h.counted, h.charged, h.apart, h.terminal_le⟩

/-- The counter is the sum. -/
def ExactBytes (state : GeometryRegistryState) : Prop :=
  state.retainedBytes = totalBytes state.artifacts

namespace GeometryRegistryState

variable {limits : GeometryCacheLimits} {state state' state'' : GeometryRegistryState}
  {key : GeometryArtifactKey} {cached : CachedGeometry} {artifact : GeometryArtifact}

/-- Two states that differ in uses only. -/
structure Like (state state' : GeometryRegistryState) : Prop where
  building_eq : state'.building = state.building
  sources_eq : state'.activeSources = state.activeSources
  bytes_eq : state'.retainedBytes = state.retainedBytes
  total_eq : totalBytes state'.artifacts = totalBytes state.artifacts
  size_eq : state'.artifacts.size = state.artifacts.size
  terminal_size_eq : state'.terminal.size = state.terminal.size
  artifacts_none : ∀ key : GeometryArtifactKey,
    state'.artifacts[key]? = none ↔ state.artifacts[key]? = none
  terminal_none : ∀ key : GeometryArtifactKey,
    state'.terminal[key]? = none ↔ state.terminal[key]? = none
  charge_eq : ∀ (key : GeometryArtifactKey) (cached : CachedGeometry),
    state'.artifacts[key]? = some cached → ∃ before, state.artifacts[key]? = some before ∧
      before.retainedBytes = cached.retainedBytes ∧ before.artifact = cached.artifact

theorem Like.trans (h : Like state state') (h' : Like state' state'') : Like state state'' where
  building_eq := h'.building_eq.trans h.building_eq
  sources_eq := h'.sources_eq.trans h.sources_eq
  bytes_eq := h'.bytes_eq.trans h.bytes_eq
  total_eq := h'.total_eq.trans h.total_eq
  size_eq := h'.size_eq.trans h.size_eq
  terminal_size_eq := h'.terminal_size_eq.trans h.terminal_size_eq
  artifacts_none := fun key => (h'.artifacts_none key).trans (h.artifacts_none key)
  terminal_none := fun key => (h'.terminal_none key).trans (h.terminal_none key)
  charge_eq := fun key cached hget => by
    obtain ⟨middle, hmiddle, hbytes, hartifact⟩ := h'.charge_eq key cached hget
    obtain ⟨before, hbefore, hbytes', hartifact'⟩ := h.charge_eq key middle hmiddle
    exact ⟨before, hbefore, hbytes'.trans hbytes, hartifact'.trans hartifact⟩

theorem like_tick (state : GeometryRegistryState) : Like state state.tick :=
  ⟨rfl, rfl, rfl, rfl, rfl, rfl, fun _ => Iff.rfl, fun _ => Iff.rfl,
    fun _ cached h => ⟨cached, h, rfl, rfl⟩⟩

theorem like_touch (h : state.artifacts[key]? = some cached) :
    Like state (state.touch key cached) := by
  obtain ⟨htotal, hsize⟩ := replace_held h state.clock
  refine ⟨rfl, rfl, rfl, htotal, hsize, rfl, fun other => ?_, fun _ => Iff.rfl,
    fun other after hget => ?_⟩
  · rw [touch, BTreeMap.get_insert]
    split
    case isTrue heq => simp [← heq, h]
    case isFalse => exact Iff.rfl
  · rw [touch, BTreeMap.get_insert] at hget
    split at hget
    case isTrue heq =>
        obtain rfl := Option.some.inj hget
        exact ⟨cached, heq ▸ h, rfl, rfl⟩
    case isFalse => exact ⟨after, hget, rfl, rfl⟩

theorem like_touchTerminal (h : state.terminal[key]? = some cached) :
    Like state (state.touchTerminal key cached) := by
  obtain ⟨-, hsize⟩ := replace_held h state.clock
  refine ⟨rfl, rfl, rfl, rfl, rfl, hsize, fun _ => Iff.rfl, fun other => ?_,
    fun _ after hget => ⟨after, hget, rfl, rfl⟩⟩
  rw [touchTerminal, BTreeMap.get_insert]
  split
  case isTrue heq => simp [← heq, h]
  case isFalse => exact Iff.rfl

theorem Like.held (hlike : Like state state') (h : Held limits state) : Held limits state' where
  entries_le := hlike.size_eq.le.trans h.entries_le
  bytes_le := hlike.bytes_eq.le.trans h.bytes_le
  counted := by rw [hlike.bytes_eq, hlike.total_eq]; exact h.counted
  charged := fun key cached hget => by
    obtain ⟨before, hbefore, hbytes, hartifact⟩ := hlike.charge_eq key cached hget
    rw [← hbytes, ← hartifact]
    exact h.charged key before hbefore
  apart := fun key => by
    rw [hlike.artifacts_none, hlike.terminal_none]
    exact h.apart key
  terminal_le := hlike.terminal_size_eq.le.trans h.terminal_le

theorem Like.exactBytes_iff (hlike : Like state state') : ExactBytes state' ↔ ExactBytes state := by
  rw [ExactBytes, ExactBytes, hlike.bytes_eq, hlike.total_eq]

theorem like_get (state : GeometryRegistryState) (key : GeometryArtifactKey) :
    Like state (state.get key).2 := by
  rw [get]
  split
  case h_1 cached hget => exact (like_tick state).trans (like_touch hget)
  case h_2 =>
      split
      case h_1 cached hget => exact (like_tick state).trans (like_touchTerminal hget)
      case h_2 => exact like_tick state

/-! ## Retention -/

/-- A state with no more keys than another, but for one. -/
structure Within (fresh : GeometryArtifactKey) (state state' : GeometryRegistryState) : Prop where
  building_eq : state'.building = state.building
  sources_eq : state'.activeSources = state.activeSources
  artifacts_none : ∀ key : GeometryArtifactKey, key ≠ fresh →
    state.artifacts[key]? = none → state'.artifacts[key]? = none
  terminal_none : ∀ key : GeometryArtifactKey, key ≠ fresh →
    state.terminal[key]? = none → state'.terminal[key]? = none

/-- What giving up artifacts leaves. -/
theorem evict_spec {fuel : ℕ} (hfuel : state.artifacts.size ≤ fuel)
    (hcounted : state.retainedBytes ≤ totalBytes state.artifacts)
    (hcharged : ∀ (key : GeometryArtifactKey) (cached : CachedGeometry),
      state.artifacts[key]? = some cached →
        cached.retainedBytes = cached.artifact.retainedBytes) :
    (evict limits fuel state).artifacts.size ≤ limits.entries ∧
      (evict limits fuel state).retainedBytes ≤ limits.retainedBytes ∧
      (evict limits fuel state).retainedBytes ≤ totalBytes (evict limits fuel state).artifacts ∧
      (ExactBytes state → ExactBytes (evict limits fuel state)) ∧
      (∀ (key : GeometryArtifactKey) (cached : CachedGeometry),
        (evict limits fuel state).artifacts[key]? = some cached →
          state.artifacts[key]? = some cached) ∧
      (evict limits fuel state).terminal = state.terminal ∧
      (evict limits fuel state).building = state.building ∧
      (evict limits fuel state).activeSources = state.activeSources := by
  have hempty : state.artifacts.size = 0 → state.artifacts.size ≤ limits.entries ∧
      state.retainedBytes ≤ limits.retainedBytes := fun hzero => by
    have := totalBytes_eq_zero hzero
    omega
  induction fuel generalizing state with
  | zero =>
      obtain ⟨hentries, hbytes⟩ := hempty (Nat.le_zero.mp hfuel)
      exact ⟨hentries, hbytes, hcounted, id, fun _ _ h => h, rfl, rfl, rfl⟩
  | succ fuel ih =>
      rw [evict]
      split
      case isFalse hover =>
          rw [not_or, not_lt, not_lt] at hover
          exact ⟨hover.1, hover.2, hcounted, id, fun _ _ h => h, rfl, rfl, rfl⟩
      case isTrue hover =>
          split
          case h_2 hnone =>
              obtain ⟨hentries, hbytes⟩ := hempty (leastUsed_eq_none hnone)
              exact ⟨hentries, hbytes, hcounted, id, fun _ _ h => h, rfl, rfl, rfl⟩
          case h_1 victim hvictim =>
              obtain ⟨evicted, hevicted⟩ := get_leastUsed hvictim
              have htotal := totalBytes_erase hevicted
              have hsize := size_erase_held hevicted
              have hbytes := hcharged victim evicted hevicted
              have hsub : ∀ (key : GeometryArtifactKey) (cached : CachedGeometry),
                  (state.artifacts.erase victim)[key]? = some cached →
                    state.artifacts[key]? = some cached := by
                intro key cached hget
                rw [BTreeMap.get_erase] at hget
                split at hget
                case isTrue => cases hget
                case isFalse => exact hget
              have hgive : state.giveUp victim = { state with
                  artifacts := state.artifacts.erase victim
                  retainedBytes := state.retainedBytes - evicted.retainedBytes } := by
                rw [giveUp, hevicted]
              rw [hgive]
              obtain ⟨hentries, hlimit, hcount, hexact, hrest, hframe⟩ := @ih
                { state with
                  artifacts := state.artifacts.erase victim
                  retainedBytes := state.retainedBytes - evicted.retainedBytes }
                (by dsimp only; omega) (by dsimp only; omega)
                (fun key cached hget => hcharged key cached (hsub key cached hget))
                (fun hzero => by
                  have := totalBytes_eq_zero hzero
                  dsimp only at hzero this ⊢
                  omega)
              refine ⟨hentries, hlimit, hcount, fun h => hexact ?_, fun key cached hget =>
                hsub key cached (hrest key cached hget), hframe⟩
              rw [ExactBytes] at h ⊢
              dsimp only
              omega

/-- What dropping refusals leaves. -/
theorem boundTerminal_spec {fuel : ℕ} (hfuel : state.terminal.size ≤ fuel) :
    (boundTerminal fuel state).terminal.size ≤ MAX_TERMINAL_GEOMETRY_RESULTS ∧
      (∀ key : GeometryArtifactKey, state.terminal[key]? = none →
        (boundTerminal fuel state).terminal[key]? = none) ∧
      (boundTerminal fuel state).artifacts = state.artifacts ∧
      (boundTerminal fuel state).retainedBytes = state.retainedBytes ∧
      (boundTerminal fuel state).building = state.building ∧
      (boundTerminal fuel state).activeSources = state.activeSources := by
  induction fuel generalizing state with
  | zero =>
      exact ⟨(Nat.le_zero.mp hfuel).le.trans (Nat.zero_le _), fun _ h => h, rfl, rfl, rfl, rfl⟩
  | succ fuel ih =>
      rw [boundTerminal]
      split
      case isFalse hfew => exact ⟨Nat.not_lt.mp hfew, fun _ h => h, rfl, rfl, rfl, rfl⟩
      case isTrue hmany =>
          split
          case h_2 hnone =>
              have := leastUsed_eq_none hnone
              omega
          case h_1 victim hvictim =>
              obtain ⟨dropped, hdropped⟩ := get_leastUsed hvictim
              have hsize := size_erase_held hdropped
              obtain ⟨hfew, hnone, hframe⟩ := @ih
                { state with terminal := state.terminal.erase victim }
                (by dsimp only; omega)
              refine ⟨hfew, fun key hkey => hnone key ?_, hframe⟩
              rw [BTreeMap.get_erase, hkey, ite_self]

/-- A refusal keeps everything but the refusals. -/
theorem refuse_spec (h : Held limits state) (hfresh : state.artifacts[key]? = none) :
    Held limits (state.refuse key artifact) ∧ Within key state (state.refuse key artifact) ∧
      (ExactBytes (state.refuse key artifact) ↔ ExactBytes state) := by
  obtain ⟨hfew, hnone, hartifacts, hbytes, hbuilding, hsources⟩ := @boundTerminal_spec
    { state with terminal := state.terminal.insert key ⟨artifact, 0, state.clock⟩ } _ le_rfl
  have hterminal : ∀ other : GeometryArtifactKey, other ≠ key → state.terminal[other]? = none →
      (state.refuse key artifact).terminal[other]? = none := by
    intro other hne hother
    refine hnone other ?_
    dsimp only
    rw [BTreeMap.get_insert, if_neg hne.symm, hother]
  have hrefuse : (state.refuse key artifact).artifacts = state.artifacts := hartifacts
  have hcounter : (state.refuse key artifact).retainedBytes = state.retainedBytes := hbytes
  refine ⟨⟨?_, ?_, ?_, ?_, fun other => ?_, hfew⟩, ⟨hbuilding, hsources, fun other _ hother => ?_,
    hterminal⟩, ?_⟩
  · rw [hrefuse]
    exact h.entries_le
  · rw [hcounter]
    exact h.bytes_le
  · rw [hrefuse, hcounter]
    exact h.counted
  · rw [hrefuse]
    exact h.charged
  · rw [hrefuse]
    by_cases hkey : other = key
    · exact Or.inl (hkey ▸ hfresh)
    · exact (h.apart other).imp_right (hterminal other hkey)
  · rw [hrefuse]
    exact hother
  · rw [ExactBytes, ExactBytes, hrefuse, hcounter]

/-- Keeping an artifact stays within the limits. -/
theorem keep_spec (h : Held limits state) (hfresh : state.artifacts[key]? = none)
    (hterminal : state.terminal[key]? = none) :
    Held limits (state.keep limits key artifact) ∧
      Within key state (state.keep limits key artifact) ∧
      (ExactBytes state → state.retainedBytes + artifact.retainedBytes ≤ U64_MAX →
        ExactBytes (state.keep limits key artifact)) := by
  have htotal := @totalBytes_insert state.artifacts key
    ⟨artifact, artifact.retainedBytes, state.clock⟩ hfresh
  dsimp only at htotal
  have hsum : saturatingAdd state.retainedBytes artifact.retainedBytes ≤
      state.retainedBytes + artifact.retainedBytes := min_le_left _ _
  have hcounted := h.counted
  obtain ⟨hentries, hlimit, hcount, hexact, hsub, hterm, hbuilding, hsources⟩ := @evict_spec
    limits { state with
      retainedBytes := saturatingAdd state.retainedBytes artifact.retainedBytes
      artifacts := state.artifacts.insert key ⟨artifact, artifact.retainedBytes, state.clock⟩ }
    _ le_rfl (by dsimp only; omega) (fun other cached hget => by
      dsimp only at hget
      rw [BTreeMap.get_insert] at hget
      split at hget
      case isTrue =>
          obtain rfl := Option.some.inj hget
          rfl
      case isFalse => exact h.charged other cached hget)
  have hcharge : ∀ (other : GeometryArtifactKey) (cached : CachedGeometry),
      (state.keep limits key artifact).artifacts[other]? = some cached →
        other = key ∧ cached.retainedBytes = cached.artifact.retainedBytes ∨
          state.artifacts[other]? = some cached := by
    intro other cached hget
    have hget := hsub other cached hget
    dsimp only at hget
    rw [BTreeMap.get_insert] at hget
    split at hget
    case isTrue heq =>
        obtain rfl := Option.some.inj hget
        exact Or.inl ⟨heq.symm, rfl⟩
    case isFalse => exact Or.inr hget
  have hnone : ∀ other : GeometryArtifactKey, other ≠ key → state.artifacts[other]? = none →
      (state.keep limits key artifact).artifacts[other]? = none := by
    intro other hne hother
    rw [Option.eq_none_iff_forall_ne_some]
    intro cached hget
    rcases hcharge other cached hget with ⟨heq, -⟩ | hget
    · exact hne heq
    · rw [hother] at hget
      cases hget
  have hkeep : (state.keep limits key artifact).terminal = state.terminal := hterm
  refine ⟨⟨hentries, hlimit, hcount, fun other cached hget => ?_, fun other => ?_, ?_⟩,
    ⟨hbuilding, hsources, hnone, fun other _ hother => ?_⟩, fun hex hfits => hexact ?_⟩
  · rcases hcharge other cached hget with ⟨-, hbytes⟩ | hget
    · exact hbytes
    · exact h.charged other cached hget
  · rw [hkeep]
    by_cases hkey : other = key
    · exact Or.inr (hkey ▸ hterminal)
    · exact (h.apart other).imp_left (hnone other hkey)
  · rw [hkeep]
    exact h.terminal_le
  · rw [hkeep]
    exact hother
  · rw [ExactBytes] at hex ⊢
    dsimp only
    rw [htotal, saturatingAdd, min_eq_left hfits, hex, Nat.add_comm]

theorem Like.within (h : Like state state') (fresh : GeometryArtifactKey) :
    Within fresh state state' :=
  ⟨h.building_eq, h.sources_eq, fun key _ => (h.artifacts_none key).mpr,
    fun key _ => (h.terminal_none key).mpr⟩

theorem Within.trans {fresh : GeometryArtifactKey} (h : Within fresh state state')
    (h' : Within fresh state' state'') : Within fresh state state'' :=
  ⟨h'.building_eq.trans h.building_eq, h'.sources_eq.trans h.sources_eq,
    fun key hne hnone => h'.artifacts_none key hne (h.artifacts_none key hne hnone),
    fun key hne hnone => h'.terminal_none key hne (h.terminal_none key hne hnone)⟩

/-- **One retention**, whatever comes of it: retained, refused for its readiness, for its size
or for its memory. -/
theorem retainShared_spec {memory : Option Bool} (h : Held limits state)
    (hready : artifact.readiness ≠ .pending) (hfresh : state.artifacts[artifact.key]? = none)
    (hterminal : state.terminal[artifact.key]? = none) :
    Held limits (state.retainShared limits artifact memory) ∧
      Within artifact.key state (state.retainShared limits artifact memory) ∧
      (ExactBytes state → (state.retainedBytes + artifact.retainedBytes ≤ U64_MAX ∨
          2 * limits.retainedBytes ≤ U64_MAX) →
        ExactBytes (state.retainShared limits artifact memory)) := by
  have hlike := like_tick state
  have htick := hlike.held h
  have hrefuse : ∀ refusal, Held limits (state.tick.refuse artifact.key refusal) ∧
      Within artifact.key state (state.tick.refuse artifact.key refusal) ∧
      (ExactBytes state → (state.retainedBytes + artifact.retainedBytes ≤ U64_MAX ∨
          2 * limits.retainedBytes ≤ U64_MAX) →
        ExactBytes (state.tick.refuse artifact.key refusal)) := by
    intro refusal
    obtain ⟨hheld, hwithin, hexact⟩ := @refuse_spec _ _ _ refusal htick hfresh
    exact ⟨hheld, (hlike.within _).trans hwithin, fun hex _ => hexact.mpr
      (hlike.exactBytes_iff.mpr hex)⟩
  rw [retainShared]
  split
  case h_1 => exact hrefuse _
  case h_2 hnot =>
      split
      case isTrue => exact hrefuse _
      case isFalse hfits =>
          split
          case isTrue => exact hrefuse _
          case isFalse =>
              obtain ⟨hheld, hwithin, hexact⟩ := @keep_spec _ _ _ artifact htick
                hfresh hterminal
              refine ⟨hheld, (hlike.within _).trans hwithin, fun hex hroom =>
                hexact (hlike.exactBytes_iff.mpr hex) ?_⟩
              -- A retained artifact is ready, and then no larger than the limit.
              have hle := h.bytes_le
              have hsmall : artifact.retainedBytes ≤ limits.retainedBytes := by
                by_contra hlarge
                refine hfits ⟨?_, Or.inr (Nat.not_le.mp hlarge)⟩
                cases hreadiness : artifact.readiness with
                | pending => exact absurd hreadiness hready
                | ready => rfl
                | unavailable reason => exact absurd hreadiness (hnot reason)
              change state.retainedBytes + artifact.retainedBytes ≤ U64_MAX
              rcases hroom with hroom | hroom
              · exact hroom
              · omega

section Poll

variable [Crypto] {request : GeometryRequest} {pendingEstimate : GeometryEstimate}

/-- A poll that is answered changes uses only. -/
theorem poll_answered {answer : GeometryArtifact}
    (h : (state.poll limits request pendingEstimate).1 = some answer) :
    Like state (state.poll limits request pendingEstimate).2 := by
  rw [poll] at h ⊢
  split at h
  case h_1 cached hget => exact (like_tick state).trans (like_touch hget)
  case h_2 =>
      split at h
      case h_1 cached hget => exact (like_tick state).trans (like_touchTerminal hget)
      case h_2 =>
          split at h
          case isTrue hbuilding =>
              rw [if_pos hbuilding]
              exact like_tick state
          case isFalse hbuilding =>
              rw [if_neg hbuilding]
              split at h
              case isTrue hactive =>
                  rw [if_pos hactive]
                  exact like_tick state
              case isFalse => cases h

/-- A poll elects a build where nothing is held or marked, and marks it. -/
theorem poll_elected (h : (state.poll limits request pendingEstimate).1 = none) :
    state.artifacts[request.key]? = none ∧ state.terminal[request.key]? = none ∧
      request.key ∉ state.building ∧ request.source ∉ state.activeSources ∧
      (state.poll limits request pendingEstimate).2 = state.tick.mark request := by
  rw [poll, canonicalized_key] at h ⊢
  split at h
  case h_1 => cases h
  case h_2 hartifacts =>
      split at h
      case h_1 => cases h
      case h_2 hterminal =>
          split at h
          case isTrue => cases h
          case isFalse hbuilding =>
              split at h
              case isTrue => cases h
              case isFalse hactive =>
                  refine ⟨hartifacts, hterminal, hbuilding, hactive, ?_⟩
                  rw [if_neg hbuilding, if_neg hactive]
                  simp only [mark, canonicalized_key]
                  rfl

end Poll

end GeometryRegistryState

/-! ## Runs -/

section Runs

variable [Crypto] {limits : GeometryCacheLimits}

/-- What holds of a registry in every order of its steps. -/
structure Consistent (limits : GeometryCacheLimits) (registry : GeometryRegistry) : Prop where
  held : Held limits registry.state
  building_iff : ∀ key, key ∈ registry.state.building ↔
    ∃ build ∈ registry.builds, build.request.key = key
  sources_iff : ∀ source, source ∈ registry.state.activeSources ↔
    ∃ key ∈ registry.state.building, key.source = source
  single : (registry.builds.map fun build => build.request.source).Nodup
  waiting : ∀ build ∈ registry.builds, build.phase ≠ .retained →
    registry.state.artifacts[build.request.key]? = none ∧
      registry.state.terminal[build.request.key]? = none

/-- One build for a source makes one build for a key. -/
theorem Consistent.keys_nodup {registry : GeometryRegistry} (h : Consistent limits registry) :
    (registry.builds.map fun build => build.request.key).Nodup := by
  refine List.Nodup.of_map GeometryArtifactKey.source ?_
  rw [List.map_map]
  exact h.single

/-- Sections that change uses only keep a registry consistent. -/
theorem Consistent.like {registry : GeometryRegistry} {state' : GeometryRegistryState}
    (h : Consistent limits registry) (hlike : registry.state.Like state') :
    Consistent limits ⟨state', registry.builds⟩ where
  held := hlike.held h.held
  building_iff := fun key => by
    dsimp only
    rw [hlike.building_eq]
    exact h.building_iff key
  sources_iff := fun source => by
    dsimp only
    rw [hlike.building_eq, hlike.sources_eq]
    exact h.sources_iff source
  single := h.single
  waiting := fun build hmem hphase => by
    dsimp only
    rw [hlike.artifacts_none, hlike.terminal_none]
    exact h.waiting build hmem hphase

theorem worker_key (request : GeometryRequest) : request.worker.key = request.key :=
  canonicalized_key request

/-- Electing a build keeps a registry consistent: nothing was held or marked. -/
theorem Consistent.elect {registry : GeometryRegistry} {request : GeometryRequest}
    {pendingEstimate : GeometryEstimate} (reservation : Bool) (h : Consistent limits registry)
    (hpoll : (registry.state.poll limits request pendingEstimate).1 = none) :
    Consistent limits ⟨(registry.state.poll limits request pendingEstimate).2,
      ⟨request.worker, pendingEstimate, reservation, .reserved⟩ :: registry.builds⟩ := by
  obtain ⟨hartifacts, hterminal, -, hsource, hstate⟩ :=
    GeometryRegistryState.poll_elected hpoll
  rw [hstate]
  refine ⟨((GeometryRegistryState.like_tick _).held h.held).mark _ _, fun key => ?_,
    fun source => ?_, ?_, fun build hmem hphase => ?_⟩
  · change key ∈ insert request.key registry.state.building ↔ _
    rw [Finset.mem_insert, List.exists_mem_cons_iff, worker_key, ← h.building_iff]
    exact or_congr_left eq_comm
  · change source ∈ insert request.source registry.state.activeSources ↔
      ∃ key ∈ insert request.key registry.state.building, key.source = source
    rw [Finset.mem_insert, Finset.exists_mem_insert, h.sources_iff]
    exact or_congr_left eq_comm
  · rw [List.map_cons, List.nodup_cons]
    refine ⟨fun hmem => hsource ?_, h.single⟩
    obtain ⟨build, hbuild, heq⟩ := List.mem_map.mp hmem
    exact (h.sources_iff _).mpr ⟨_, (h.building_iff _).mpr ⟨build, hbuild, rfl⟩, heq⟩
  · rcases List.mem_cons.mp hmem with rfl | hmem
    · rw [worker_key]
      exact ⟨hartifacts, hterminal⟩
    · exact h.waiting build hmem hphase

/-- A build that only comes further leaves the marks as they are. -/
theorem Consistent.advance {state state' : GeometryRegistryState} {before after : List Build}
    {build : Build} {phase : BuildPhase} (h : Consistent limits ⟨state, before ++ build :: after⟩)
    (hheld : Held limits state') (hwithin : state.Within build.request.key state')
    (hphase : phase ≠ .retained → state'.artifacts[build.request.key]? = none ∧
      state'.terminal[build.request.key]? = none) :
    Consistent limits ⟨state', before ++ { build with phase := phase } :: after⟩ := by
  refine ⟨hheld, fun key => ?_, fun source => ?_, ?_, fun other hmem hother => ?_⟩
  · dsimp only
    rw [hwithin.building_eq, h.building_iff key]
    simp only [List.mem_append, List.mem_cons, or_and_right, exists_or, exists_eq_left]
  · dsimp only
    rw [hwithin.building_eq, hwithin.sources_eq]
    exact h.sources_iff source
  · have hsingle := h.single
    rw [List.map_append, List.map_cons] at hsingle ⊢
    exact hsingle
  · have hkeys := h.keys_nodup
    rw [List.map_append, List.map_cons, List.nodup_append, List.nodup_cons] at hkeys
    obtain ⟨-, ⟨hafter, -⟩, hbefore⟩ := hkeys
    rw [List.mem_append, List.mem_cons] at hmem
    rcases hmem with hmem | rfl | hmem
    · have hne : other.request.key ≠ build.request.key := hbefore _
        (List.mem_map_of_mem hmem) _ List.mem_cons_self
      obtain ⟨hartifacts, hterminal⟩ := h.waiting other (by simp [hmem]) hother
      exact ⟨hwithin.artifacts_none _ hne hartifacts, hwithin.terminal_none _ hne hterminal⟩
    · exact hphase hother
    · have hne : other.request.key ≠ build.request.key := fun heq =>
        hafter (heq ▸ List.mem_map_of_mem hmem)
      obtain ⟨hartifacts, hterminal⟩ := h.waiting other (by simp [hmem]) hother
      exact ⟨hwithin.artifacts_none _ hne hartifacts, hwithin.terminal_none _ hne hterminal⟩

/-- A build that is over takes its marks with it. -/
theorem Consistent.clear {state : GeometryRegistryState} {before after : List Build}
    {build : Build} (h : Consistent limits ⟨state, before ++ build :: after⟩) :
    Consistent limits ⟨state.clear build.request, before ++ after⟩ ∧
      build.request.key ∉ (state.clear build.request).building ∧
      build.request.source ∉ (state.clear build.request).activeSources := by
  have hsingle := h.single
  rw [List.map_append, List.map_cons] at hsingle
  have hrest := List.nodup_middle.mp hsingle
  rw [← List.map_append, List.nodup_cons] at hrest
  -- The builds left are for other sources, so for other keys.
  have hother : ∀ other ∈ before ++ after, other.request.source ≠ build.request.source :=
    fun other hmem heq => hrest.1 (List.mem_map.mpr ⟨other, hmem, heq⟩)
  have hbuilding : ∀ key, key ∈ (state.clear build.request).building ↔
      ∃ other ∈ before ++ after, other.request.key = key := by
    intro key
    rw [GeometryRegistryState.clear, Finset.mem_erase, h.building_iff key]
    constructor
    · rintro ⟨hne, other, hmem, rfl⟩
      refine ⟨other, ?_, rfl⟩
      simp only [List.mem_append, List.mem_cons] at hmem ⊢
      rcases hmem with hmem | rfl | hmem
      · exact Or.inl hmem
      · exact absurd rfl hne
      · exact Or.inr hmem
    · rintro ⟨other, hmem, rfl⟩
      refine ⟨fun heq => hother other hmem (congrArg GeometryArtifactKey.source heq), other, ?_,
        rfl⟩
      simp only [List.mem_append, List.mem_cons] at hmem ⊢
      exact hmem.imp_right Or.inr
  refine ⟨⟨h.held.mark _ _, hbuilding, fun source => ?_, hrest.2, fun other hmem hphase => ?_⟩,
    ?_, ?_⟩
  · simp only [hbuilding]
    rw [GeometryRegistryState.clear, Finset.mem_erase, h.sources_iff source]
    constructor
    · rintro ⟨hne, key, hkey, rfl⟩
      obtain ⟨other, hmem, rfl⟩ := (h.building_iff key).mp hkey
      refine ⟨_, ⟨other, ?_, rfl⟩, rfl⟩
      simp only [List.mem_append, List.mem_cons] at hmem ⊢
      rcases hmem with hmem | rfl | hmem
      · exact Or.inl hmem
      · exact absurd rfl hne
      · exact Or.inr hmem
    · rintro ⟨_, ⟨other, hmem, rfl⟩, rfl⟩
      refine ⟨hother other hmem, _, (h.building_iff _).mpr ⟨other, ?_, rfl⟩, rfl⟩
      simp only [List.mem_append, List.mem_cons] at hmem ⊢
      exact hmem.imp_right Or.inr
  · refine h.waiting other ?_ hphase
    simp only [List.mem_append, List.mem_cons] at hmem ⊢
    exact hmem.imp_right Or.inr
  · exact fun hmem => (Finset.mem_erase.mp hmem).1 rfl
  · exact fun hmem => (Finset.mem_erase.mp hmem).1 rfl

theorem Build.artifact_key (build : Build) (outcome : Outcome) :
    (build.artifact outcome).key = build.request.key := by
  cases outcome with
  | facts facts => exact materialize_key build.request facts
  | refused reason => rfl
  | panicked => rfl

theorem Build.artifact_readiness (build : Build) (outcome : Outcome) :
    (build.artifact outcome).readiness ≠ .pending := by
  cases outcome with
  | facts facts =>
      rw [Build.artifact, materialize]
      split
      · simp [GeometryArtifact.unavailable]
      · split
        · simp [GeometryArtifact.unavailable]
        · split
          · split <;> simp [GeometryArtifact.unavailable]
          · simp [GeometryArtifact.unavailable]
  | refused reason => simp [Build.artifact, GeometryArtifact.unavailable]
  | panicked => simp [Build.artifact, GeometryArtifact.unavailable]

/-- The counter has room for what a retention adds.  What it counts is held in memory, and no
machine holds 2^64 bytes. -/
def Fits (registry : GeometryRegistry) : Event → Prop
  | .retain build outcome _ =>
      registry.state.retainedBytes + (build.artifact outcome).retainedBytes ≤ U64_MAX
  | _ => True

/-- **One step keeps a registry consistent**, and the counter exact where it has room. -/
theorem Consistent.step {registry registry' : GeometryRegistry} {event : Event}
    (h : Consistent limits registry) (hstep : Step limits registry event registry') :
    Consistent limits registry' ∧
      (ExactBytes registry.state → (Fits registry event ∨ 2 * limits.retainedBytes ≤ U64_MAX) →
        ExactBytes registry'.state) := by
  cases hstep with
  | get registry key =>
      have hlike := GeometryRegistryState.like_get registry.state key
      exact ⟨h.like hlike, fun hex _ => hlike.exactBytes_iff.mpr hex⟩
  | answer registry reservation hanswer =>
      have hlike := GeometryRegistryState.poll_answered hanswer
      exact ⟨h.like hlike, fun hex _ => hlike.exactBytes_iff.mpr hex⟩
  | elect registry reservation hnone =>
      refine ⟨h.elect reservation hnone, fun hex _ => ?_⟩
      obtain ⟨-, -, -, -, hstate⟩ := GeometryRegistryState.poll_elected hnone
      rw [hstate]
      exact hex
  | @queue state before after build hphase =>
      obtain ⟨hartifacts, hterminal⟩ := h.waiting build (by simp) (by simp [hphase])
      exact ⟨h.advance h.held ⟨rfl, rfl, fun _ _ h => h, fun _ _ h => h⟩
        fun _ => ⟨hartifacts, hterminal⟩, fun hex _ => hex⟩
  | refuse state hphase => exact ⟨h.clear.1, fun hex _ => hex⟩
  | @retain state before after build outcome kept hphase =>
      obtain ⟨hartifacts, hterminal⟩ := h.waiting build (by simp) (by simp [hphase])
      rw [← build.artifact_key outcome] at hartifacts hterminal
      obtain ⟨hheld, hwithin, hexact⟩ := @GeometryRegistryState.retainShared_spec _ _ _
        (if build.reservation then some kept else none) h.held
        (build.artifact_readiness outcome) hartifacts hterminal
      rw [build.artifact_key outcome] at hwithin
      exact ⟨h.advance hheld hwithin fun hne => absurd rfl hne, hexact⟩
  | clear state hphase => exact ⟨h.clear.1, fun hex _ => hex⟩

theorem consistent_new : Consistent limits .new where
  held := by
    refine ⟨Nat.zero_le _, Nat.zero_le _, Nat.zero_le _, fun key cached hget => ?_,
      fun key => Or.inl (BTreeMap.get_empty key), Nat.zero_le _⟩
    rw [GeometryRegistry.new, GeometryRegistryState.empty, BTreeMap.get_empty] at hget
    cases hget
  building_iff := fun key => by simp [GeometryRegistry.new, GeometryRegistryState.empty]
  sources_iff := fun source => by simp [GeometryRegistry.new, GeometryRegistryState.empty]
  single := List.nodup_nil
  waiting := fun build hmem => absurd hmem List.not_mem_nil

/-- **A reachable registry is consistent.** -/
theorem Reachable.consistent {allowed : GeometryRegistry → Event → Prop}
    {registry : GeometryRegistry} (h : Reachable limits allowed registry) :
    Consistent limits registry ∧
      ((∀ registry event, allowed registry event → Fits registry event) ∨
        2 * limits.retainedBytes ≤ U64_MAX → ExactBytes registry.state) := by
  induction h with
  | new =>
      exact ⟨consistent_new, fun _ => (totalBytes_eq_zero rfl).symm⟩
  | @step registry registry' event _ hallowed hstep ih =>
      obtain ⟨hconsistent, hexact⟩ := ih
      obtain ⟨hconsistent', hexact'⟩ := hconsistent.step hstep
      exact ⟨hconsistent', fun hroom => hexact' (hexact hroom)
        (hroom.imp_left fun hfits => hfits registry event hallowed)⟩

/-- The registry keeps its limits, its keys apart and the marks of the builds in flight. -/
structure RegistryLaw (limits : GeometryCacheLimits) (registry : GeometryRegistry) : Prop where
  entries_le : registry.state.artifacts.size ≤ limits.entries
  bytes_le : registry.state.retainedBytes ≤ limits.retainedBytes
  bytes_counted : registry.state.retainedBytes ≤ totalBytes registry.state.artifacts
  apart : ∀ key : GeometryArtifactKey,
    registry.state.artifacts[key]? = none ∨ registry.state.terminal[key]? = none
  keys_nodup : (registry.builds.map fun build => build.request.key).Nodup
  sources_nodup : (registry.builds.map fun build => build.request.source).Nodup
  building_iff : ∀ key, key ∈ registry.state.building ↔
    ∃ build ∈ registry.builds, build.request.key = key
  sources_iff : ∀ source, source ∈ registry.state.activeSources ↔
    ∃ key ∈ registry.state.building, key.source = source

/-- **The registry stays consistent.**  In every run, the limits hold, no key is both retained
and refused, builds in flight differ in source and key, the marks are theirs, and a build
that is refused or over leaves no mark.  The counter is the sum over the retained artifacts
in every run whose retentions fit the counter, and in every run under a limit of at most
half the largest word. -/
theorem registry_consistent (limits : GeometryCacheLimits)
    (allowed : GeometryRegistry → Event → Prop) (registry : GeometryRegistry)
    (h : Reachable limits allowed registry) :
    RegistryLaw limits registry ∧
      ((∀ registry event, allowed registry event → Fits registry event) ∨
        2 * limits.retainedBytes ≤ U64_MAX →
          registry.state.retainedBytes = totalBytes registry.state.artifacts) ∧
      ∀ event registry' build, Step limits registry event registry' →
        event = .refuse build ∨ event = .clear build →
          build.request.key ∉ registry'.state.building ∧
            build.request.source ∉ registry'.state.activeSources := by
  obtain ⟨hconsistent, hexact⟩ := h.consistent
  refine ⟨⟨hconsistent.held.entries_le, hconsistent.held.bytes_le, hconsistent.held.counted,
    hconsistent.held.apart, hconsistent.keys_nodup, hconsistent.single, hconsistent.building_iff,
    hconsistent.sources_iff⟩, hexact, fun event registry' build hstep hevent => ?_⟩
  rcases hevent with rfl | rfl
  · cases hstep with
    | refuse state hphase => exact hconsistent.clear.2
  · cases hstep with
    | clear state hphase => exact hconsistent.clear.2

end Runs

/-! ## A small registry -/

/-- A request for all of a project. -/
def wholeProject (source : WorldPublicationId) (project : Text) : GeometryRequest :=
  ⟨source, project, [], .standard⟩

section Built

variable [Crypto]

/-- The state after one build of a project without issues, from its poll to its end. -/
def built (limits : GeometryCacheLimits) (state : GeometryRegistryState)
    (source : WorldPublicationId) (project : Text) : GeometryRegistryState :=
  let request := wholeProject source project
  ((state.poll limits request .zero).2.retainShared limits
    (materialize request.worker ⟨source, [], []⟩) none).clear request.worker

/-- It is reached by four steps: a poll, the hand-over, the retention and the end. -/
theorem Reachable.built {limits : GeometryCacheLimits} {state : GeometryRegistryState}
    (h : Reachable limits Fits ⟨state, []⟩) (source : WorldPublicationId) (project : Text)
    (hpoll : (state.poll limits (wholeProject source project) .zero).1.isNone = true)
    (hroom : (state.poll limits (wholeProject source project) .zero).2.retainedBytes +
      (materialize (wholeProject source project).worker ⟨source, [], []⟩).retainedBytes ≤ U64_MAX) :
    Reachable limits Fits ⟨built limits state source project, []⟩ := by
  let build : Build := ⟨(wholeProject source project).worker, .zero, false, .reserved⟩
  let marked := (state.poll limits (wholeProject source project) .zero).2
  have helected : Reachable limits Fits ⟨marked, [build]⟩ :=
    @Reachable.step _ limits Fits _ _ (.poll _ .zero false) h trivial
      (.elect _ false (Option.isNone_iff_eq_none.mp hpoll))
  have hqueued : Reachable limits Fits ⟨marked, [{ build with phase := .queued }]⟩ :=
    @Reachable.step _ limits Fits _ _ (.queue build) helected trivial
      (@Step.queue _ limits marked [] [] build rfl)
  have hretained := @Reachable.step _ limits Fits _ _
    (.retain { build with phase := .queued } (.facts ⟨source, [], []⟩) true) hqueued hroom
    (@Step.retain _ limits marked [] [] { build with phase := .queued } _ true rfl)
  exact @Reachable.step _ limits Fits _ _ (.clear { build with phase := .retained }) hretained
    trivial (@Step.clear _ limits _ [] [] { build with phase := .retained } rfl)

end Built

/-- One artifact of at most a kilobyte. -/
def oneArtifact : GeometryCacheLimits := ⟨1, 1024, 1, 1⟩

/-- A project with a long name. -/
def longName : Text := ⟨List.replicate 1100 97⟩

/-- A registry for one artifact: the second build evicts what the first retained, and the
third, too large to retain, is kept as a refusal. -/
theorem registry_consistent_sample :
    letI := idealCrypto
    ∃ registry, Reachable oneArtifact Fits registry ∧
      registry.state.artifacts.keys = [(wholeProject ⟨[2]⟩ ⟨[98]⟩).key] ∧
      registry.state.terminal.keys = [(wholeProject ⟨[3]⟩ longName).key] ∧
      RegistryLaw oneArtifact registry ∧
      registry.state.retainedBytes = totalBytes registry.state.artifacts := by
  let := idealCrypto
  have hfirst : Reachable oneArtifact Fits ⟨built oneArtifact .empty ⟨[1]⟩ ⟨[97]⟩, []⟩ :=
    Reachable.new.built _ _ (by decide +kernel) (by decide +kernel)
  have hsecond := hfirst.built ⟨[2]⟩ ⟨[98]⟩ (by decide +kernel) (by decide +kernel)
  have hthird := hsecond.built ⟨[3]⟩ longName (by decide +kernel) (by decide +kernel)
  obtain ⟨hlaw, hexact, -⟩ := registry_consistent _ _ _ hthird
  exact ⟨_, hthird, by decide +kernel, by decide +kernel, hlaw, hexact (Or.inl fun _ _ h => h)⟩

end Lait.Issues.Geometry
