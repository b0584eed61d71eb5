import Lait.Runtime.FetchRounds

/-!
# Fetching blames liars and needs one provider

A fetch may meet any answers.  Two things hold of every state it passes through.  A provider
that offered chunks and is out of the offers lied, or left a chunk unfinished (`Fair`).  And a
provider that serves every chunk it names stays in the offers, off probation (`Trusted`): it is
then among the candidates of every chunk it named, and whoever is asked before it, the chunk is
here once its turn is over.

So what such a provider names is here after the first pass, and what is here stays here.
-/

namespace Lait.Runtime.Fetch

open Replica Transfer

variable {H : Type}

/-! ## Who is a candidate -/

theorem mem_holding {offers : BTreeMap Bytes (List UInt32)} {index : UInt32} {station : Bytes} :
    station ∈ holding offers index ↔ ∃ held, offers[station]? = some held ∧ index ∈ held := by
  unfold holding
  simp only [List.mem_map, List.mem_filter, decide_eq_true_eq, Prod.exists,
    BTreeMap.mem_toList_iff]
  constructor
  · rintro ⟨_, held, ⟨hget, hindex⟩, rfl⟩
    exact ⟨held, hget, hindex⟩
  · rintro ⟨held, hget, hindex⟩
    exact ⟨station, held, ⟨hget, hindex⟩, rfl⟩

/-- No more providers hold a chunk than there are. -/
theorem length_holding_le {offers : BTreeMap Bytes (List UInt32)} {providers : List Bytes}
    (hamong : ∀ station held, offers[station]? = some held → station ∈ providers)
    (index : UInt32) : (holding offers index).length ≤ providers.length := by
  have hnodup : (holding offers index).Nodup :=
    (List.filter_sublist.map Prod.fst).nodup (BTreeMap.nodup_toList_keys offers)
  refine (List.subperm_of_subset hnodup fun station hstation => ?_).length_le
  obtain ⟨held, hget, -⟩ := mem_holding.mp hstation
  exact hamong station held hget

/-- A candidate offered the chunk. -/
theorem holding_of_mem_rank {offers : BTreeMap Bytes (List UInt32)}
    {scores : BTreeMap Bytes ProviderScore} {now : ℕ} {index : UInt32} {station : Bytes}
    (h : station ∈ rank offers scores now index) : station ∈ holding offers index := by
  unfold rank at h
  dsimp only at h
  split at h
  · exact (List.mem_insertionSort _).mp (List.mem_of_mem_take h)
  · exact List.mem_of_mem_filter ((List.mem_insertionSort _).mp (List.mem_of_mem_take h))

/-- **A provider that is not on probation is a candidate** for what it offered, where there are no
more providers than are asked for one chunk. -/
theorem mem_rank {offers : BTreeMap Bytes (List UInt32)} {scores : BTreeMap Bytes ProviderScore}
    {index : UInt32} {station : Bytes}
    (hfew : (holding offers index).length ≤ MAX_INFLIGHT_CHUNKS_PER_PROVIDER)
    (hstation : station ∈ holding offers index) (hfree : probationOf scores station = none)
    (now : ℕ) : station ∈ rank offers scores now index := by
  have hable : station ∈ (holding offers index).filter fun station =>
      (probationOf scores station).all fun until_ => decide (until_ ≤ now) := by
    rw [List.mem_filter, hfree]
    exact ⟨hstation, rfl⟩
  unfold rank
  dsimp only
  rw [if_neg (List.ne_nil_of_mem hable), List.take_of_length_le]
  · exact (List.mem_insertionSort _).mpr hable
  · rw [List.length_insertionSort]
    exact (List.length_filter_le _ _).trans hfew

/-! ## What is missing -/

section Missing

variable [ContentDigests H] [DecidableEq H] {cache : Cache H} {descriptor : ContentDescriptor}

theorem missingSlots_eq (hworks : cache.Works) (indices : List UInt32) :
    missingSlots cache descriptor indices =
      .ok (indices.filter fun index => ¬ cache.Resident (chunkSlot descriptor index)) := by
  induction indices with
  | nil => rfl
  | cons index rest ih =>
      rw [missingSlots, Cache.isResident, hworks, if_neg Bool.false_ne_true]
      dsimp only
      rw [ih]
      by_cases hhere : cache.Resident (chunkSlot descriptor index)
      · rw [List.filter_cons_of_neg (by simpa using hhere), decide_eq_true hhere]
        rfl
      · rw [List.filter_cons_of_pos (by simpa using hhere), decide_eq_false hhere]
        rfl

/-- A cache that works says which of the named chunks are not here. -/
theorem exists_missingAmong (descriptor : ContentDescriptor) (hworks : cache.Works)
    (chunks : List UInt32) :
    ∃ missing, missingAmong cache descriptor chunks = .ok missing ∧ ∀ index, index ∈ missing ↔
      index ∈ chunks ∧ index.toNat < descriptor.chunkCount ∧
        ¬ cache.Resident (chunkSlot descriptor index) := by
  refine ⟨_, missingSlots_eq hworks _, fun index => ?_⟩
  simp only [List.mem_filter, List.mem_insertionSort, List.mem_dedup, decide_eq_true_eq, and_assoc]

omit [ContentDigests H] in
theorem Cache.resident_of_dropUntil (target : ℕ) (candidates : List (H × ℕ)) (total : ℕ)
    (cache : Cache H) :
    (Cache.dropUntil target candidates total cache).fails = cache.fails ∧
      ∀ entry, (Cache.dropUntil target candidates total cache).Resident entry →
        cache.Resident entry := by
  induction candidates generalizing total cache with
  | nil => exact ⟨rfl, fun entry h => h⟩
  | cons candidate rest ih =>
      rw [Cache.dropUntil]
      split
      · exact ⟨rfl, fun entry h => h⟩
      · unfold Cache.dropEntry
        split
        next heq =>
            split at heq
            · cases heq
            · cases heq
              refine ⟨(ih _ _).1, fun entry hentry => ?_⟩
              obtain ⟨file, hfile, rfl⟩ := List.mem_map.mp ((ih _ _).2 entry hentry)
              exact List.mem_map_of_mem (List.mem_of_mem_filter hfile)
        next heq =>
            split at heq
            · cases heq
              exact ih _ _
            · cases heq

omit [ContentDigests H] in
/-- Reclaiming drops entries and nothing else. -/
theorem Cache.resident_of_reclaimFor (cache : Cache H) (bytes : ℕ) :
    (cache.reclaimFor bytes).fails = cache.fails ∧
      ∀ entry, (cache.reclaimFor bytes).Resident entry → cache.Resident entry := by
  unfold Cache.reclaimFor Cache.sweepTo
  split
  · exact ⟨rfl, fun entry h => h⟩
  · dsimp only
    split
    · exact ⟨rfl, fun entry h => h⟩
    · exact Cache.resident_of_dropUntil _ _ _ _

end Missing

/-! ## Who is out of the offers -/

section Call

variable [ContentDigests H] [Postcard (ChunkProof H)] {self : Fetcher} {network : Network H}
  {descriptor : ContentDescriptor} {station : Bytes} {index : UInt32} {log log' : List (Event H)}

/-- A provider answered the availability question with some chunks. -/
def Offered (self : Fetcher) (log : List (Event H)) (station : Bytes) : Prop :=
  ∃ wanted reply index chunks, .asked station (.have_ self.content wanted) reply ∈ log ∧
    haveOf reply = some (index :: chunks)

omit [ContentDigests H] [Postcard (ChunkProof H)] in
theorem Offered.of_append {events : List (Event H)}
    (hsilent : ∀ event ∈ events, ∀ station wanted reply,
      event ≠ .asked station (.have_ self.content wanted) reply)
    (h : Offered self (log ++ events) station) : Offered self log station := by
  obtain ⟨wanted, reply, index, chunks, hevent, hreply⟩ := h
  refine ⟨wanted, reply, index, chunks, (List.mem_append.mp hevent).resolve_right fun hmem => ?_,
    hreply⟩
  exact hsilent _ hmem station wanted reply rfl

theorem Lied.mono (hlog : log <:+: log') (h : Lied self descriptor station log) :
    Lied self descriptor station log' := by
  obtain ⟨index, events, hlies, hwithin⟩ := h
  exact ⟨index, events, hlies, hwithin.trans hlog⟩

theorem Unfinished.mono (hlog : log <:+: log') (h : Unfinished self descriptor station log) :
    Unfinished self descriptor station log' := by
  obtain ⟨index, events, hlingers, hwithin⟩ := h
  exact ⟨index, events, hlingers, hwithin.trans hlog⟩

/-- Every provider in the offers is one of the call's, and one that offered chunks and is not in
them lied or left a chunk unfinished. -/
structure Fair (fetcher : Fetcher) (descriptor : ContentDescriptor) (fetching : Fetching H) :
    Prop where
  works : fetching.cache.Works
  among : ∀ (station : Bytes) (held : List UInt32), fetching.offers[station]? = some held →
    station ∈ fetcher.providers
  blamed : ∀ station : Bytes, Offered fetcher fetching.log station →
    fetching.offers[station]? = none → Lied fetcher descriptor station fetching.log ∨
      Unfinished fetcher descriptor station fetching.log

variable {fetching after : Fetching H} {cache : Cache H}

/-- What happens besides the availability questions leaves the offers as they are. -/
theorem Fair.happen (h : Fair self descriptor fetching) (hgrows : fetching.cache.Grows cache)
    {events : List (Event H)}
    (hsilent : ∀ event ∈ events, ∀ station wanted reply,
      event ≠ .asked station (.have_ self.content wanted) reply) :
    Fair self descriptor { fetching with cache, log := fetching.log ++ events } := by
  refine ⟨hgrows.works h.works, h.among, fun station hoffered hnone => ?_⟩
  have hlog := (List.prefix_append fetching.log events).isInfix
  exact (h.blamed station (hoffered.of_append hsilent) hnone).imp (.mono hlog) (.mono hlog)

theorem Fair.sleep (h : Fair self descriptor fetching) (duration : ℕ) :
    Fair self descriptor (fetching.sleep duration) := by
  refine h.happen (Cache.Grows.refl _) fun event hevent station wanted reply => ?_
  rw [List.mem_singleton.mp hevent]
  exact fun heq => by cases heq

/-- The wait before a pass that is not the first. -/
theorem Fair.wait (h : Fair self descriptor fetching) (number : ℕ) :
    Fair self descriptor
        (if 0 < number then fetching.sleep (PASS_BACKOFF * number) else fetching) ∧
      (if 0 < number then fetching.sleep (PASS_BACKOFF * number) else fetching).cache =
        fetching.cache := by
  split
  · exact ⟨h.sleep _, rfl⟩
  · exact ⟨h, rfl⟩

/-- The scores, the registry and the count of bytes are not looked at. -/
theorem Fair.aside (h : Fair self descriptor fetching) (scores : BTreeMap Bytes ProviderScore)
    (registry : Catalog) (moved : ℕ) :
    Fair self descriptor { fetching with scores, registry, moved } :=
  ⟨h.works, h.among, h.blamed⟩

/-- A provider to blame may be taken out. -/
theorem Fair.condemn (h : Fair self descriptor fetching)
    (hblame : Lied self descriptor station fetching.log ∨
      Unfinished self descriptor station fetching.log) :
    Fair self descriptor (fetching.condemn station) := by
  refine ⟨h.works, fun other held hget => ?_, fun other hoffered hnone => ?_⟩
  · unfold Fetching.condemn at hget
    rw [BTreeMap.get_erase] at hget
    split at hget
    · cases hget
    · exact h.among other held hget
  · unfold Fetching.condemn at hnone
    rw [BTreeMap.get_erase] at hnone
    split at hnone
    next hsame =>
        rw [← hsame]
        exact hblame
    next => exact h.blamed other hoffered hnone

variable [DecidableEq H] {log' : List (Event H)} {out : Except Bool ℕ}

/-- An attempt at one chunk leaves the offers fair, and what may be held against the provider. -/
theorem Fair.attempt (h : Fair self descriptor fetching)
    (hreadable : ∀ n, network.readable n = true)
    (hfetch : self.fetchOne network descriptor station index fetching.cache fetching.log =
      (out, cache, log')) :
    Fair self descriptor { fetching with cache, log := log' } ∧ fetching.cache.Grows cache ∧
      (∀ bytes, out = .ok bytes → cache.Resident (chunkSlot descriptor index)) ∧
      (out = .error true →
        Lied self descriptor station log' ∨ Unfinished self descriptor station log') := by
  obtain ⟨events, rfl, hasked, hgrows, hhere, hblame⟩ := fetchOne_spec h.works hreadable hfetch
  have hwithin := (List.suffix_append fetching.log events).isInfix
  refine ⟨h.happen hgrows fun event hevent station wanted reply => ?_, hgrows, hhere, fun hout => ?_⟩
  · obtain ⟨offset, leaf, answer, rfl⟩ := hasked event hevent
    exact fun heq => by cases heq
  · exact (hblame hout).imp (fun hlies => ⟨index, events, hlies, hwithin⟩)
      fun hlingers => ⟨index, events, hlingers, hwithin⟩

/-- **Asking the candidates of a chunk** blames nobody else, and the chunk is here where one of
them delivers. -/
theorem Fair.tryCandidates {total : ℕ} {candidates : List Bytes} {installed : Bool}
    (h : Fair self descriptor fetching) (hreadable : ∀ n, network.readable n = true)
    (htry : self.tryCandidates network descriptor total index candidates fetching =
      (installed, after)) :
    Fair self descriptor after ∧ fetching.cache.Grows after.cache ∧
      (installed = true → after.cache.Resident (chunkSlot descriptor index)) := by
  induction candidates generalizing fetching with
  | nil =>
      cases htry
      exact ⟨h, Cache.Grows.refl _, fun hfalse => by cases hfalse⟩
  | cons candidate rest ih =>
      rw [Fetcher.tryCandidates] at htry
      split at htry
      · exact ih h htry
      · cases hfetch : self.fetchOne network descriptor candidate index fetching.cache
            fetching.log with
        | mk out state =>
            obtain ⟨cache, log'⟩ := state
            obtain ⟨hfair, hgrows, hhere, hblame⟩ := h.attempt hreadable hfetch
            rw [hfetch] at htry
            rcases out with (_ | _) | bytes
            · obtain ⟨hafter, hkept, hhere⟩ := ih (hfair.aside _ _ _) htry
              exact ⟨hafter, hgrows.trans hkept, hhere⟩
            · obtain ⟨hafter, hkept, hhere⟩ := ih (hfair.condemn (hblame rfl)) htry
              exact ⟨hafter, hgrows.trans hkept, hhere⟩
            · cases htry
              exact ⟨hfair.aside _ _ _, hgrows, fun _ => hhere bytes rfl⟩

/-- **One chunk** of a pass. -/
theorem Fair.fetchIndex {total : ℕ} {wanted : Bool} (h : Fair self descriptor fetching)
    (hreadable : ∀ n, network.readable n = true)
    (hindex : self.fetchIndex network descriptor total index fetching = (wanted, after)) :
    Fair self descriptor after ∧ fetching.cache.Grows after.cache := by
  unfold Fetcher.fetchIndex at hindex
  split at hindex
  · cases hindex
    exact ⟨h, Cache.Grows.refl _⟩
  · split at hindex
    next installed after' htry =>
        cases hindex
        obtain ⟨hafter, hgrows, -⟩ := h.tryCandidates hreadable htry
        exact ⟨hafter, hgrows⟩

/-- **A pass** of a call that is not cancelled. -/
theorem Fair.pass (h : Fair self descriptor fetching)
    (hreadable : ∀ n, network.readable n = true) (hgoing : ∀ n, network.cancelled n = false)
    (total : ℕ) (remaining : List UInt32) :
    ∃ still after, self.pass network descriptor total remaining fetching = (some still, after) ∧
      Fair self descriptor after ∧ fetching.cache.Grows after.cache := by
  induction remaining generalizing fetching with
  | nil => exact ⟨[], fetching, rfl, h, Cache.Grows.refl _⟩
  | cons index rest ih =>
      rw [Fetcher.pass, hgoing, if_neg Bool.false_ne_true]
      cases hindex : self.fetchIndex network descriptor total index fetching with
      | mk wanted between =>
          obtain ⟨hfair, hgrows⟩ := h.fetchIndex hreadable hindex
          obtain ⟨still, after, hpass, hafter, hkept⟩ := ih hfair
          dsimp only
          rw [hpass]
          exact ⟨_, after, rfl, hafter, hgrows.trans hkept⟩

/-- **The passes**. -/
theorem Fair.passes (h : Fair self descriptor fetching)
    (hreadable : ∀ n, network.readable n = true) (hgoing : ∀ n, network.cancelled n = false)
    (total left number : ℕ) (remaining : List UInt32) :
    ∃ after, self.passes network descriptor total left number remaining fetching = (true, after) ∧
      Fair self descriptor after ∧ fetching.cache.Grows after.cache := by
  induction left generalizing number remaining fetching with
  | zero => exact ⟨fetching, rfl, h, Cache.Grows.refl _⟩
  | succ left ih =>
      rw [Fetcher.passes]
      split
      · exact ⟨fetching, rfl, h, Cache.Grows.refl _⟩
      · have hslept := h.wait number
        obtain ⟨still, between, hpass, hfair, hgrows⟩ :=
          hslept.1.pass hreadable hgoing total remaining
        rw [hslept.2] at hgrows
        obtain ⟨after, hpasses, hafter, hkept⟩ := ih hfair (number + 1) still
        dsimp only
        rw [hpass]
        exact ⟨after, hpasses, hafter, hgrows.trans hkept⟩

omit [DecidableEq H] in
/-- **The availability question** puts a provider of the call in the offers where it is one. -/
theorem Fair.askHave (h : Fair self descriptor fetching) (network : Network H)
    (missing : List UInt32)
    (hprovider : station ∈ self.providers) :
    Fair self descriptor (self.askHave network missing fetching station) ∧
      (self.askHave network missing fetching station).cache = fetching.cache := by
  unfold Fetcher.askHave
  dsimp only
  generalize network.answer fetching.log.length station (.have_ self.content missing) = reply
  have hlog := (List.prefix_append fetching.log
    [Event.asked station (.have_ self.content missing) reply]).isInfix
  have hrest : ∀ other : Bytes, Offered self (fetching.log ++
      [.asked station (.have_ self.content missing) reply]) other →
        Offered self fetching.log other ∨ other = station ∧ ∃ index chunks,
          haveOf reply = some (index :: chunks) := by
    rintro other ⟨wanted, answer, index, chunks, hevent, hanswer⟩
    rcases List.mem_append.mp hevent with hbefore | hnow
    · exact Or.inl ⟨wanted, answer, index, chunks, hbefore, hanswer⟩
    · cases List.mem_singleton.mp hnow
      exact Or.inr ⟨rfl, index, chunks, hanswer⟩
  have hold : ∀ other : Bytes, Offered self fetching.log other → fetching.offers[other]? = none →
      Lied self descriptor other (fetching.log ++
          [.asked station (.have_ self.content missing) reply]) ∨
        Unfinished self descriptor other (fetching.log ++
          [.asked station (.have_ self.content missing) reply]) :=
    fun other hoffered hnone =>
      (h.blamed other hoffered hnone).imp (.mono hlog) (.mono hlog)
  split
  next hreply =>
      refine ⟨⟨h.works, h.among, fun other hoffered hnone => ?_⟩, rfl⟩
      rcases hrest other hoffered with hbefore | ⟨-, index, chunks, hchunks⟩
      · exact hold other hbefore hnone
      · rw [hreply] at hchunks
        cases hchunks
  next chunks hchunks hreply =>
      refine ⟨⟨h.works, fun other held hget => ?_, fun other hoffered hnone => ?_⟩, rfl⟩
      · rw [BTreeMap.get_insert] at hget
        split at hget
        next hsame =>
            rw [← hsame]
            exact hprovider
        next => exact h.among other held hget
      · rw [BTreeMap.get_insert] at hnone
        split at hnone
        · cases hnone
        next hother =>
            rcases hrest other hoffered with hbefore | ⟨hsame, -⟩
            · exact hold other hbefore hnone
            · exact absurd hsame.symm hother
  next hreply =>
      refine ⟨⟨h.works, h.among, fun other hoffered hnone => ?_⟩, rfl⟩
      rcases hrest other hoffered with hbefore | ⟨-, index, chunks, hchunks⟩
      · exact hold other hbefore hnone
      · rw [hreply] at hchunks
        cases hchunks

omit [DecidableEq H] in
theorem Fair.askEach (h : Fair self descriptor fetching) (network : Network H)
    (missing : List UInt32)
    (stations : List Bytes) (hproviders : ∀ station ∈ stations, station ∈ self.providers) :
    Fair self descriptor (stations.foldl (self.askHave network missing) fetching) ∧
      (stations.foldl (self.askHave network missing) fetching).cache = fetching.cache := by
  induction stations generalizing fetching with
  | nil => exact ⟨h, rfl⟩
  | cons station rest ih =>
      rw [List.forall_mem_cons] at hproviders
      obtain ⟨hasked, hcache⟩ := h.askHave network missing hproviders.1
      obtain ⟨hafter, hsame⟩ := ih hasked hproviders.2
      exact ⟨hafter, hsame.trans hcache⟩

omit [DecidableEq H] in
/-- **The survey** touches nothing that is here. -/
theorem Fair.survey (h : Fair self descriptor fetching) (network : Network H)
    (missing : List UInt32) (left number : ℕ) :
    Fair self descriptor (self.survey network missing left number fetching) ∧
      (self.survey network missing left number fetching).cache = fetching.cache := by
  induction left generalizing number fetching with
  | zero => exact ⟨h, rfl⟩
  | succ left ih =>
      rw [Fetcher.survey]
      split
      · have hslept := h.wait number
        obtain ⟨hasked, hcache⟩ :=
          hslept.1.askEach network missing self.providers fun _ hmem => hmem
        obtain ⟨hafter, hsame⟩ := ih hasked (number + 1)
        exact ⟨hafter, (hsame.trans hcache).trans hslept.2⟩
      · exact ⟨h, rfl⟩

/-! ## A provider that serves what it names -/

/-- A provider in the offers, off probation. -/
structure Trusted (station : Bytes) (held : List UInt32) (fetching : Fetching H) : Prop where
  offered : fetching.offers[station]? = some held
  free : probationOf fetching.scores station = none

variable {held : List UInt32}

omit [ContentDigests H] [Postcard (ChunkProof H)] [DecidableEq H] in
/-- What is done to another provider leaves a trusted one trusted. -/
theorem Trusted.condemn (h : Trusted station held fetching) {other : Bytes}
    (hother : other ≠ station) : Trusted station held (fetching.condemn other) := by
  unfold Fetching.condemn
  refine ⟨?_, ?_⟩
  · rw [BTreeMap.get_erase, if_neg hother]
    exact h.offered
  · rw [probationOf, BTreeMap.get_insert, if_neg hother]
    exact h.free

omit [ContentDigests H] [Postcard (ChunkProof H)] [DecidableEq H] in
theorem Trusted.suspend (h : Trusted station held fetching) {other : Bytes}
    (hother : other ≠ station) (now : ℕ) : Trusted station held (fetching.suspend other now) := by
  unfold Fetching.suspend
  refine ⟨h.offered, ?_⟩
  rw [probationOf, BTreeMap.get_insert, if_neg hother]
  exact h.free

/-- **A trusted provider that serves the chunk ends the asking**, if no other did before. -/
theorem Trusted.tryCandidates {total : ℕ} {candidates : List Bytes} {installed : Bool}
    (h : Trusted station held fetching) (hfair : Fair self descriptor fetching)
    (hreadable : ∀ n, network.readable n = true)
    (hserves : station ∈ candidates → Serves self network descriptor station index)
    (htry : self.tryCandidates network descriptor total index candidates fetching =
      (installed, after)) :
    Trusted station held after ∧
      (station ∈ candidates → station ∈ self.providers → installed = true) := by
  induction candidates generalizing fetching with
  | nil =>
      cases htry
      exact ⟨h, fun hmem => absurd hmem List.not_mem_nil⟩
  | cons candidate rest ih =>
      have hlater : station ∈ rest → Serves self network descriptor station index :=
        fun hmem => hserves (List.mem_cons_of_mem _ hmem)
      rw [Fetcher.tryCandidates] at htry
      split at htry
      next hunknown =>
          obtain ⟨hafter, hinstalled⟩ := ih h hfair hlater htry
          refine ⟨hafter, fun hmem hprovider => ?_⟩
          refine hinstalled ((List.mem_cons.mp hmem).resolve_left fun hsame => ?_) hprovider
          rw [hsame] at hprovider
          exact hunknown hprovider
      next =>
          cases hfetch : self.fetchOne network descriptor candidate index fetching.cache
              fetching.log with
          | mk out state =>
              obtain ⟨cache, log'⟩ := state
              obtain ⟨hfetched, -, -, hblame⟩ := hfair.attempt hreadable hfetch
              have hdelivers : candidate = station → ∃ bytes, out = .ok bytes := by
                intro hsame
                have hserves := hserves (hsame ▸ List.mem_cons_self)
                rw [← hsame] at hserves
                exact fetchOne_delivers hfair.works hreadable hserves hfetch
              have hkept : Trusted station held { fetching with cache, log := log' } :=
                ⟨h.offered, h.free⟩
              have hfailed : (∀ bytes, out ≠ .ok bytes) → candidate ≠ station := by
                intro hfails hsame
                obtain ⟨bytes, hok⟩ := hdelivers hsame
                exact hfails bytes hok
              rw [hfetch] at htry
              rcases out with (_ | _) | bytes
              · have hother := hfailed fun bytes heq => by cases heq
                obtain ⟨hafter, hinstalled⟩ :=
                  ih (hkept.suspend hother _) (hfetched.aside _ _ _) hlater htry
                exact ⟨hafter, fun hmem => hinstalled
                  ((List.mem_cons.mp hmem).resolve_left hother.symm)⟩
              · have hother := hfailed fun bytes heq => by cases heq
                obtain ⟨hafter, hinstalled⟩ :=
                  ih (hkept.condemn hother) (hfetched.condemn (hblame rfl)) hlater htry
                exact ⟨hafter, fun hmem => hinstalled
                  ((List.mem_cons.mp hmem).resolve_left hother.symm)⟩
              · cases htry
                exact ⟨⟨h.offered, h.free⟩, fun _ _ => rfl⟩

/-- What is asked for a chunk by a trusted provider that serves what it names: the chunk is here
afterwards where it named it. -/
theorem Trusted.fetchIndex {total : ℕ} {wanted : Bool} (h : Trusted station held fetching)
    (hfair : Fair self descriptor fetching) (hreadable : ∀ n, network.readable n = true)
    (hfew : self.providers.length ≤ MAX_INFLIGHT_CHUNKS_PER_PROVIDER)
    (hserves : index ∈ held → Serves self network descriptor station index)
    (hindex : self.fetchIndex network descriptor total index fetching = (wanted, after)) :
    Trusted station held after ∧
      (index ∈ held → after.cache.Resident (chunkSlot descriptor index)) := by
  have hranked : index ∈ held → station ∈ rank fetching.offers fetching.scores
      (network.now fetching.log.length) index := fun hheld =>
    mem_rank ((length_holding_le hfair.among index).trans hfew)
      (mem_holding.mpr ⟨held, h.offered, hheld⟩) h.free _
  unfold Fetcher.fetchIndex at hindex
  split at hindex
  next hnobody =>
      cases hindex
      refine ⟨h, fun hheld => absurd (hranked hheld) ?_⟩
      rw [hnobody]
      exact List.not_mem_nil
  next =>
      split at hindex
      next installed after' htry =>
          cases hindex
          obtain ⟨hafter, hinstalled⟩ := h.tryCandidates hfair hreadable (fun hmem => hserves (by
            obtain ⟨named, hget, hnamed⟩ := mem_holding.mp (holding_of_mem_rank hmem)
            rw [h.offered] at hget
            cases hget
            exact hnamed)) htry
          obtain ⟨-, -, hhere⟩ := hfair.tryCandidates hreadable htry
          exact ⟨hafter, fun hheld => hhere (hinstalled (hranked hheld)
            (hfair.among station held h.offered))⟩

/-- **A pass brings what a trusted provider named.** -/
theorem Trusted.pass {total : ℕ} {remaining : List UInt32} {still : Option (List UInt32)}
    (h : Trusted station held fetching) (hfair : Fair self descriptor fetching)
    (hreadable : ∀ n, network.readable n = true) (hgoing : ∀ n, network.cancelled n = false)
    (hfew : self.providers.length ≤ MAX_INFLIGHT_CHUNKS_PER_PROVIDER)
    (hserves : ∀ index ∈ remaining, index ∈ held → Serves self network descriptor station index)
    (hpass : self.pass network descriptor total remaining fetching = (still, after)) :
    ∀ index ∈ remaining, index ∈ held → after.cache.Resident (chunkSlot descriptor index) := by
  induction remaining generalizing fetching still after with
  | nil => exact fun index hmem => absurd hmem List.not_mem_nil
  | cons index rest ih =>
      rw [Fetcher.pass, hgoing, if_neg Bool.false_ne_true] at hpass
      rw [List.forall_mem_cons] at hserves
      cases hindex : self.fetchIndex network descriptor total index fetching with
      | mk wanted between =>
          obtain ⟨hbetween, hhere⟩ := h.fetchIndex hfair hreadable hfew hserves.1 hindex
          obtain ⟨hfair', -⟩ := hfair.fetchIndex hreadable hindex
          obtain ⟨rested, after', hrest, -, hgrows⟩ :=
            hfair'.pass hreadable hgoing total rest
          rw [hindex] at hpass
          dsimp only at hpass
          rw [hrest] at hpass
          cases hpass
          rw [List.forall_mem_cons]
          exact ⟨fun hheld => hgrows.resident _ (hhere hheld),
            ih hbetween hfair' hserves.2 hrest⟩

/-- **So do the passes**, in the first of them. -/
theorem Trusted.passes {total left : ℕ} {remaining : List UInt32} {ended : Bool}
    (h : Trusted station held fetching) (hfair : Fair self descriptor fetching)
    (hreadable : ∀ n, network.readable n = true) (hgoing : ∀ n, network.cancelled n = false)
    (hfew : self.providers.length ≤ MAX_INFLIGHT_CHUNKS_PER_PROVIDER)
    (hserves : ∀ index ∈ remaining, index ∈ held → Serves self network descriptor station index)
    (hpasses : self.passes network descriptor total (left + 1) 0 remaining fetching =
      (ended, after)) :
    ∀ index ∈ remaining, index ∈ held → after.cache.Resident (chunkSlot descriptor index) := by
  rw [Fetcher.passes] at hpasses
  split at hpasses
  next hnone =>
      rw [hnone]
      exact fun index hmem => absurd hmem List.not_mem_nil
  next =>
      dsimp only at hpasses
      rw [if_neg (lt_irrefl 0)] at hpasses
      obtain ⟨still, between, hpass, hbetween, -⟩ := hfair.pass hreadable hgoing total remaining
      obtain ⟨last, hrest, -, hgrows⟩ := hbetween.passes hreadable hgoing total left (0 + 1) still
      rw [hpass] at hpasses
      dsimp only at hpasses
      rw [hrest] at hpasses
      cases hpasses
      have hhere := h.pass hfair hreadable hgoing hfew hserves hpass
      exact fun index hmem hheld => hgrows.resident _ (hhere index hmem hheld)

/-- A provider that names a chunk whenever it is asked for it, and serves every chunk it names. -/
structure ServesNamed (fetcher : Fetcher) (network : Network H) (descriptor : ContentDescriptor)
    (station : Bytes) (index : UInt32) : Prop where
  names : ∀ (n : ℕ) (wanted : List UInt32), index ∈ wanted → ∃ chunks,
    haveOf (network.answer n station (.have_ fetcher.content wanted)) = some chunks ∧
      index ∈ chunks
  serves : ∀ (n : ℕ) (wanted chunks : List UInt32),
    haveOf (network.answer n station (.have_ fetcher.content wanted)) = some chunks →
      ∀ named ∈ chunks, named ∈ wanted → Serves fetcher network descriptor station named

/-- Such a provider, once it answered for what is missing. -/
def Pledged (fetcher : Fetcher) (network : Network H) (descriptor : ContentDescriptor)
    (missing : List UInt32) (station : Bytes) (index : UInt32) (fetching : Fetching H) : Prop :=
  ∃ held, Trusted station held fetching ∧ index ∈ held ∧
    ∀ named ∈ held, named ∈ missing → Serves fetcher network descriptor station named

variable {missing : List UInt32}

omit [DecidableEq H] in
/-- It has answered when it was asked. -/
theorem ServesNamed.askHave (h : ServesNamed self network descriptor station index)
    (hindex : index ∈ missing) (fetching : Fetching H) :
    Pledged self network descriptor missing station index
      (self.askHave network missing fetching station) := by
  obtain ⟨chunks, hchunks, hnamed⟩ := h.names fetching.log.length missing hindex
  unfold Fetcher.askHave
  dsimp only
  rw [hchunks]
  cases chunks with
  | nil => exact absurd hnamed List.not_mem_nil
  | cons first rest =>
      refine ⟨first :: rest, ⟨?_, ?_⟩, hnamed, h.serves _ _ _ hchunks⟩
      · dsimp only
        rw [BTreeMap.get_insert, if_pos rfl]
      · dsimp only
        rw [probationOf, BTreeMap.get_insert, if_pos rfl]
        rfl

omit [DecidableEq H] in
/-- What another provider answers takes nothing of that back. -/
theorem Pledged.askHave (h : Pledged self network descriptor missing station index fetching)
    {other : Bytes} (hother : other ≠ station) :
    Pledged self network descriptor missing station index
      (self.askHave network missing fetching other) := by
  obtain ⟨held, htrusted, hheld, hserves⟩ := h
  refine ⟨held, ?_, hheld, hserves⟩
  have hkept : ∀ log, Trusted station held { fetching with log } :=
    fun log => ⟨htrusted.offered, htrusted.free⟩
  unfold Fetcher.askHave
  dsimp only
  split
  · exact hkept _
  · refine ⟨?_, ?_⟩
    · rw [BTreeMap.get_insert, if_neg hother]
      exact htrusted.offered
    · rw [probationOf, BTreeMap.get_insert, if_neg hother]
      exact htrusted.free
  · exact (hkept _).suspend hother _

omit [DecidableEq H] in
theorem ServesNamed.askEach (h : ServesNamed self network descriptor station index)
    (hindex : index ∈ missing) (stations : List Bytes) (fetching : Fetching H)
    (hstart : station ∈ stations ∨
      Pledged self network descriptor missing station index fetching) :
    Pledged self network descriptor missing station index
      (stations.foldl (self.askHave network missing) fetching) := by
  induction stations generalizing fetching with
  | nil => exact hstart.resolve_left List.not_mem_nil
  | cons first rest ih =>
      refine ih _ ?_
      by_cases hsame : first = station
      · right
        rw [hsame]
        exact h.askHave hindex fetching
      · rcases hstart with hmem | hpledged
        · exact Or.inl ((List.mem_cons.mp hmem).resolve_left (Ne.symm hsame))
        · exact Or.inr (hpledged.askHave hsame)

omit [DecidableEq H] in
/-- **The survey ends with its pledge.** -/
theorem ServesNamed.survey (h : ServesNamed self network descriptor station index)
    (hindex : index ∈ missing) (hprovider : station ∈ self.providers) (left : ℕ)
    (hoffers : fetching.offers = ∅) :
    Pledged self network descriptor missing station index
      (self.survey network missing (left + 1) 0 fetching) := by
  have hpledged := h.askEach hindex self.providers fetching (Or.inl hprovider)
  have hempty : fetching.offers.isEmpty = true := by
    rw [hoffers]
    exact Std.ExtTreeMap.isEmpty_empty
  rw [Fetcher.survey, if_pos hempty]
  dsimp only
  rw [if_neg (lt_irrefl 0)]
  cases left with
  | zero => exact hpledged
  | succ left =>
      rw [Fetcher.survey, if_neg]
      · exact hpledged
      · obtain ⟨held, htrusted, -⟩ := hpledged
        rw [BTreeMap.isEmpty_eq_false htrusted.offered]
        exact Bool.false_ne_true

/-! ## A call -/

variable {result : Except Failure Unit}

omit [DecidableEq H] in
/-- The end of a transfer touches no entry. -/
theorem Fair.close (h : Fair self descriptor fetching) (state : TransferState) (now : ℕ) :
    Fair self descriptor (fetching.close self.operation state now) :=
  ⟨h.works, h.among, h.blamed⟩

/-- **A fetch once its transfer is registered.** -/
theorem moveChunks_spec (hfair : Fair self descriptor fetching) (hoffers : fetching.offers = ∅)
    (hreadable : ∀ n, network.readable n = true) (hgoing : ∀ n, network.cancelled n = false)
    (hfew : self.providers.length ≤ MAX_INFLIGHT_CHUNKS_PER_PROVIDER)
    (hsome : missing ≠ []) (hbounds : ∀ index ∈ missing, index.toNat < descriptor.chunkCount)
    (haway : ∀ index ∈ missing, ¬ fetching.cache.Resident (chunkSlot descriptor index))
    (h : self.moveChunks network descriptor missing fetching = (result, after)) :
    Fair self descriptor after ∧
      (∀ index ∈ missing, ∀ station ∈ self.providers,
        ServesNamed self network descriptor station index →
          after.cache.Resident (chunkSlot descriptor index)) ∧
      (result = .ok () ↔
        ∀ index ∈ missing, after.cache.Resident (chunkSlot descriptor index)) := by
  obtain ⟨hsurveyed, hcache⟩ := hfair.survey network missing MAX_FETCH_PASSES 0
  have hpledged : ∀ index ∈ missing, ∀ station ∈ self.providers,
      ServesNamed self network descriptor station index →
        Pledged self network descriptor missing station index
          (self.survey network missing MAX_FETCH_PASSES 0 fetching) :=
    fun index hindex station hprovider hserves => hserves.survey hindex hprovider 7 hoffers
  unfold Fetcher.moveChunks at h
  generalize self.survey network missing MAX_FETCH_PASSES 0 fetching = surveyed at *
  dsimp only at h
  split at h
  next hempty =>
      cases h
      refine ⟨hsurveyed.close _ _, fun index hindex station hprovider hserves => ?_,
        fun hok => (by cases hok), fun hhere => ?_⟩
      · obtain ⟨held, htrusted, -⟩ := hpledged index hindex station hprovider hserves
        rw [BTreeMap.isEmpty_eq_false htrusted.offered] at hempty
        cases hempty
      · obtain ⟨index, hindex⟩ := List.exists_mem_of_ne_nil missing hsome
        have hresident := hhere index hindex
        have haway := haway index hindex
        rw [← hcache] at haway
        exact absurd hresident haway
  next =>
      obtain ⟨done, hpasses, hdone, -⟩ := hsurveyed.passes hreadable hgoing
        (windowBytes descriptor missing) MAX_FETCH_PASSES 0
        (missing.insertionSort fun a b => holders surveyed.offers a ≤ holders surveyed.offers b)
      have hdelivered : ∀ index ∈ missing, ∀ station ∈ self.providers,
          ServesNamed self network descriptor station index →
            done.cache.Resident (chunkSlot descriptor index) := by
        intro index hindex station hprovider hserves
        obtain ⟨held, htrusted, hheld, hnamed⟩ := hpledged index hindex station hprovider hserves
        exact htrusted.passes hsurveyed hreadable hgoing hfew
          (fun other hother hmem => hnamed other hmem ((List.mem_insertionSort _).mp hother))
          hpasses index ((List.mem_insertionSort _).mpr hindex) hheld
      obtain ⟨stillMissing, hmissing, hstill⟩ :=
        exists_missingAmong descriptor hdone.works missing
      rw [hpasses] at h
      dsimp only [Fetching.advance] at h
      rw [hmissing] at h
      have hall : stillMissing = [] ↔
          ∀ index ∈ missing, done.cache.Resident (chunkSlot descriptor index) := by
        rw [List.eq_nil_iff_forall_not_mem]
        refine forall_congr' fun index => ?_
        rw [hstill]
        constructor
        · intro hnot hindex
          by_contra haway
          exact hnot ⟨hindex, hbounds index hindex, haway⟩
        · exact fun hhere hmem => hmem.2.2 (hhere hmem.1)
      cases stillMissing with
      | nil =>
          cases h
          exact ⟨⟨hdone.works, hdone.among, hdone.blamed⟩, hdelivered, fun _ => hall.mp rfl,
            fun _ => rfl⟩
      | cons first rest =>
          cases h
          refine ⟨⟨hdone.works, hdone.among, hdone.blamed⟩, hdelivered, fun hok => (by cases hok),
            fun hhere => ?_⟩
          cases hall.mpr hhere

omit [DecidableEq H] in
/-- A call that has not asked anyone blames nobody. -/
theorem fair_of_silent (hworks : fetching.cache.Works) (hoffers : fetching.offers = ∅)
    (hlog : fetching.log = []) : Fair self descriptor fetching := by
  refine ⟨hworks, fun station held hget => ?_, fun station hoffered => ?_⟩
  · rw [hoffers, BTreeMap.get_empty] at hget
    cases hget
  · obtain ⟨wanted, reply, index, chunks, hmem, -⟩ := hoffered
    rw [hlog] at hmem
    exact absurd hmem List.not_mem_nil

omit [ContentDigests H] [Postcard (ChunkProof H)] in
/-- What the quota check does to the cache. -/
theorem admitByQuota_spec {quota : ℕ} {chunks : List UInt32} {admitted : Except Failure Unit}
    {room : Cache H} (h : admitByQuota quota cache descriptor chunks = (admitted, room)) :
    (admitted = .ok () ∨ admitted = .error .overQuota) ∧ room.fails = cache.fails ∧
      ∀ entry, room.Resident entry → cache.Resident entry := by
  unfold admitByQuota at h
  dsimp only at h
  split at h
  · cases h
    exact ⟨Or.inl rfl, rfl, fun entry h => h⟩
  · split at h
    · cases h
      exact ⟨Or.inr rfl, cache.resident_of_reclaimFor _⟩
    · cases h
      exact ⟨Or.inl rfl, cache.resident_of_reclaimFor _⟩

/-- **A fetch blames liars and needs one provider.**  In a call that is not cancelled, over a
cache that works and asking no more providers than are asked for one chunk, whatever they answer:

* a provider that offered chunks and is out of the offers lied about a chunk, or left one
  unfinished after `MAX_CHUNK_ROUNDS` pieces;
* a chunk that is missing is here at the end if some provider names it whenever it is asked and
  serves every chunk it names, unless the call ends for want of room or of a transfer;
* the call succeeds exactly where all that was missing is here. -/
theorem fetch_blames_and_delivers {chunks : List UInt32} {registry : Catalog}
    (hworks : cache.Works) (hreadable : ∀ n, network.readable n = true)
    (hgoing : ∀ n, network.cancelled n = false)
    (hfew : self.providers.length ≤ MAX_INFLIGHT_CHUNKS_PER_PROVIDER)
    (h : self.fetchChunks network (some descriptor) chunks cache registry = (result, after)) :
    (∀ station, Offered self after.log station → after.offers[station]? = none →
      Lied self descriptor station after.log ∨ Unfinished self descriptor station after.log) ∧
    (∀ index ∈ chunks, index.toNat < descriptor.chunkCount →
      ¬ cache.Resident (chunkSlot descriptor index) →
        ∀ station ∈ self.providers, ServesNamed self network descriptor station index →
          after.cache.Resident (chunkSlot descriptor index) ∨
            result = .error .overQuota ∨ result = .error .busy) ∧
    (result = .ok () ↔ ∀ index ∈ chunks, index.toNat < descriptor.chunkCount →
      ¬ cache.Resident (chunkSlot descriptor index) →
        after.cache.Resident (chunkSlot descriptor index)) := by
  obtain ⟨missing, hmissing, hmem⟩ := exists_missingAmong descriptor hworks chunks
  unfold Fetcher.fetchChunks at h
  dsimp only [Option.filter_some] at h
  rw [hreadable, if_pos rfl] at h
  dsimp only at h
  rw [hmissing] at h
  have hmissed : ∀ index ∈ chunks, index.toNat < descriptor.chunkCount →
      ¬ cache.Resident (chunkSlot descriptor index) → index ∈ missing :=
    fun index hindex hbound haway => (hmem index).mpr ⟨hindex, hbound, haway⟩
  cases missing with
  | nil =>
      cases h
      refine ⟨(fair_of_silent hworks rfl rfl).blamed, fun index hindex hbound haway => ?_,
        fun _ index hindex hbound haway => ?_, fun _ => rfl⟩
      · exact absurd (hmissed index hindex hbound haway) List.not_mem_nil
      · exact absurd (hmissed index hindex hbound haway) List.not_mem_nil
  | cons first rest =>
      dsimp only at h
      obtain ⟨hfirst, hbound, haway⟩ := (hmem first).mp List.mem_cons_self
      cases hquota : admitByQuota self.cacheQuotaBytes cache descriptor (first :: rest) with
      | mk admitted room =>
          obtain ⟨hadmitted, hfails, hshrinks⟩ := admitByQuota_spec hquota
          have hroom : room.Works := fun call => by rw [hfails]; exact hworks call
          rw [hquota] at h
          -- where nobody is asked, what was missing still is
          have hunmoved : ∀ {failure : Failure},
              (Except.error failure : Except Failure Unit) = .ok () ↔
                ∀ index ∈ chunks, index.toNat < descriptor.chunkCount →
                  ¬ cache.Resident (chunkSlot descriptor index) →
                    room.Resident (chunkSlot descriptor index) :=
            ⟨fun hok => (by cases hok), fun hhere =>
              absurd (hshrinks _ (hhere first hfirst hbound haway)) haway⟩
          rcases hadmitted with rfl | rfl
          · dsimp only at h
            split at h
            next hnobody =>
                cases h
                refine ⟨(fair_of_silent hroom rfl rfl).blamed,
                  fun index hindex hbound haway station hprovider => ?_, hunmoved⟩
                rw [hnobody] at hprovider
                exact absurd hprovider List.not_mem_nil
            next =>
                cases hbegin : registry.begin self.operation self.content (network.now 0) with
                | error refusal =>
                    rw [hbegin] at h
                    cases h
                    exact ⟨(fair_of_silent hroom rfl rfl).blamed,
                      fun _ _ _ _ _ _ _ => Or.inr (Or.inr rfl), hunmoved⟩
                | ok begun =>
                    rw [hbegin] at h
                    obtain ⟨hfair, hdelivered, hok⟩ := moveChunks_spec
                      (fair_of_silent (by exact hroom) rfl rfl) rfl hreadable hgoing hfew
                      (List.cons_ne_nil first rest) (fun index hindex => ((hmem index).mp hindex).2.1)
                      (fun index hindex hhere => ((hmem index).mp hindex).2.2 (hshrinks _ hhere)) h
                    refine ⟨hfair.blamed, fun index hindex hbound haway station hprovider hserves =>
                      Or.inl (hdelivered index (hmissed index hindex hbound haway) station hprovider
                        hserves), hok.trans ⟨fun hhere index hindex hbound haway =>
                          hhere index (hmissed index hindex hbound haway), fun hhere index hindex =>
                            ?_⟩⟩
                    obtain ⟨hnamed, hbound, haway⟩ := (hmem index).mp hindex
                    exact hhere index hnamed hbound haway
          · cases h
            exact ⟨(fair_of_silent hroom rfl rfl).blamed,
              fun _ _ _ _ _ _ _ => Or.inr (Or.inl rfl), hunmoved⟩

end Call

/-! ## Calls on fixed answers -/

/-- Seventeen bytes. -/
def seventeen : Bytes := ⟨List.replicate 17 7⟩

def seventeenProof : ChunkProof Bytes := ⟨⟨0, 17, seventeen⟩, []⟩

/-- A content of one chunk, of seventeen bytes. -/
def seventeenDescriptor : ContentDescriptor :=
  { leavesDescriptor [seventeenProof.leaf] with plaintextLen := 1 }

/-- A provider of that chunk that answers in pieces of one length. -/
def seventeenReply (pieceLen : ℕ) : FreightFrame Bytes → Reply Bytes
  | .have_ contentId _ => some (.available contentId [0], Bytes.empty)
  | .getChunk contentId index offset _ _ =>
      some (.chunkHeader contentId index ⟨[0]⟩ 17, ⟨(seventeen.data.drop offset).take pieceLen⟩)
  | _ => none

/-- That provider, and others that refuse. -/
def seventeenNetwork (pieceLen : ℕ) : Network Bytes where
  answer _ station request := if station = ⟨[1]⟩ then seventeenReply pieceLen request else none
  now _ := 0
  cancelled _ := false
  readable _ := true

/-- A fetch from some providers. -/
def fetchFrom (providers : List Bytes) (cacheQuotaBytes : ℕ) : Fetcher where
  content := Bytes.empty
  operation := Bytes.empty
  intent := .keep
  providers
  cacheQuotaBytes

def emptyCache : Cache Bytes where
  entries := []
  staged := ∅
  leases := []
  quotaBytes := 1000
  fails _ := false

/-- The fetch of the chunk, from the one that has it and one that refuses. -/
def fetchSeventeen (pieceLen cacheQuotaBytes : ℕ) (registry : Catalog) :
    Except Failure Unit × Fetching Bytes :=
  let _ := plainContentDigests
  let _ := tableCodec [seventeenProof]
  (fetchFrom [⟨[0]⟩, ⟨[1]⟩] cacheQuotaBytes).fetchChunks (seventeenNetwork pieceLen)
    (some seventeenDescriptor) [0] emptyCache registry

/-- Its answers are pieces of the chunk. -/
theorem chunkOf_seventeen {body : Bytes} (hbody : body.length ≤ MAX_CHUNK_FRAME_BYTES)
    (contentId : Bytes) :
    @chunkOf Bytes (tableCodec [seventeenProof]) 0
        (some (.chunkHeader contentId 0 ⟨[0]⟩ 17, body)) =
      some { proof := seventeenProof, totalLen := 17, body } := by
  have hdecode : @decodeProof Bytes (tableCodec [seventeenProof]) ⟨[0]⟩ = some seventeenProof := by
    rfl
  have hanswer : ask (some (FreightFrame.chunkHeader (H := Bytes) contentId 0 ⟨[0]⟩ 17, body)) =
      some (.chunkHeader contentId 0 ⟨[0]⟩ 17, body) := by
    unfold ask
    dsimp only
    rw [if_pos]
    rw [decide_eq_true hbody, Bool.and_true]
    rfl
  unfold chunkOf
  rw [hanswer]
  dsimp only
  rw [if_pos rfl, hdecode]
  rfl

theorem proven_seventeen :
    @Proven Bytes plainContentDigests seventeenDescriptor 0 seventeenProof :=
  ⟨by decide +kernel, rfl⟩

theorem servesNamed_seventeen :
    @ServesNamed Bytes plainContentDigests (tableCodec [seventeenProof])
      (fetchFrom [⟨[0]⟩, ⟨[1]⟩] 1000) (seventeenNetwork 9) seventeenDescriptor ⟨[1]⟩ 0 := by
  let _ := plainContentDigests
  let _ := tableCodec [seventeenProof]
  refine ⟨fun n wanted _ => ⟨[0], rfl, List.mem_singleton_self 0⟩,
    fun n wanted chunks hchunks named hnamed _ => ?_⟩
  obtain rfl : [0] = chunks := Option.some.inj hchunks
  rw [List.mem_singleton.mp hnamed]
  refine ⟨seventeenProof, seventeen, proven_seventeen, ⟨by decide, rfl⟩, by decide,
    fun n => ?_⟩
  refine Or.inr ⟨⟨List.replicate 9 7⟩, ⟨List.replicate 8 7⟩, ?_, by decide, by decide, ?_⟩
  · exact chunkOf_seventeen (by decide) _
  · refine Or.inr ⟨⟨List.replicate 8 7⟩, Bytes.empty, ?_, by decide, by decide, Or.inl (by decide)⟩
    exact chunkOf_seventeen (by decide) _

/-- In pieces of nine bytes the chunk comes, and the one that refuses is not in the way. -/
theorem fetch_blames_and_delivers_seventeen :
    (fetchSeventeen 9 1000 Catalog.new).1 = .ok () ∧
      (fetchSeventeen 9 1000 Catalog.new).2.cache.Resident
        (@chunkSlot Bytes plainContentDigests seventeenDescriptor 0) := by
  let _ := plainContentDigests
  let _ := tableCodec [seventeenProof]
  have hworks : emptyCache.Works := fun _ => rfl
  have haway : ¬ emptyCache.Resident (chunkSlot seventeenDescriptor 0) := by decide +kernel
  have hrun : (fetchFrom [⟨[0]⟩, ⟨[1]⟩] 1000).fetchChunks (seventeenNetwork 9)
      (some seventeenDescriptor) [0] emptyCache Catalog.new =
        ((fetchSeventeen 9 1000 Catalog.new).1, (fetchSeventeen 9 1000 Catalog.new).2) := by
    rw [Prod.mk.eta, fetchSeventeen]
  obtain ⟨-, hdelivered, hok⟩ := fetch_blames_and_delivers hworks (fun _ => rfl) (fun _ => rfl)
    (by decide) hrun
  have hhere := (hdelivered 0 (List.mem_singleton_self 0) (by decide) haway ⟨[1]⟩ (by decide)
    servesNamed_seventeen).resolve_right (by decide +kernel)
  refine ⟨hok.mpr fun index hindex _ _ => ?_, hhere⟩
  rw [List.mem_singleton.mp hindex]
  exact hhere

/-- A provider answers every question for the rest of a chunk with some of the bytes there. -/
def AnswersEach [ContentDigests H] [Postcard (ChunkProof H)] (fetcher : Fetcher)
    (network : Network H) (descriptor : ContentDescriptor) (station : Bytes) (index : UInt32) :
    Prop :=
  ∃ proof ciphertext, Proven descriptor index proof ∧ Matches proof.leaf ciphertext ∧
    ∀ (n offset : ℕ) (leaf : Option H), offset < ciphertext.length → ∃ body,
      chunkOf index (network.answer n station (fetcher.request index offset leaf)) =
        some { proof, totalLen := ciphertext.length, body } ∧
      body.length ≠ 0 ∧ body.data <+: ciphertext.data.drop offset

/-- A content of two chunks, of one byte each. -/
def twoLeaves : List (ChunkLeaf Bytes) := [⟨0, 1, ⟨[5]⟩⟩, ⟨1, 1, ⟨[6]⟩⟩]

/-- The proof of the second. -/
def secondProof : ChunkProof Bytes :=
  ⟨⟨1, 1, ⟨[6]⟩⟩, [⟨@ChunkLeaf.hash Bytes plainContentDigests ⟨0, 1, ⟨[5]⟩⟩, true⟩]⟩

/-- A provider that names both and answers for both with the second. -/
def secondNetwork : Network Bytes where
  answer _ _ request :=
    match request with
    | .have_ contentId _ => some (.available contentId [0, 1], Bytes.empty)
    | .getChunk contentId index _ _ _ => some (.chunkHeader contentId index ⟨[0]⟩ 1, ⟨[6]⟩)
    | _ => none
  now _ := 0
  cancelled _ := false
  readable _ := true

/-- The operation of the fetch, in flight. -/
def inFlight : Catalog :=
  { Catalog.new with
    active := (∅ : BTreeMap Bytes Entry).insert Bytes.empty
      (Catalog.registered Bytes.empty Bytes.empty 0) }

def fetchBoth : Except Failure Unit × Fetching Bytes :=
  let _ := plainContentDigests
  let _ := tableCodec [secondProof]
  (fetchFrom [⟨[1]⟩] 1000).fetchChunks secondNetwork (some (leavesDescriptor twoLeaves)) [0, 1]
    emptyCache Catalog.new

theorem answersEach_seventeen {pieceLen : ℕ} (cacheQuotaBytes : ℕ) (hpos : pieceLen ≠ 0)
    (hshort : pieceLen ≤ 17) :
    @AnswersEach Bytes plainContentDigests (tableCodec [seventeenProof])
      (fetchFrom [⟨[0]⟩, ⟨[1]⟩] cacheQuotaBytes) (seventeenNetwork pieceLen) seventeenDescriptor ⟨[1]⟩ 0 := by
  let _ := plainContentDigests
  let _ := tableCodec [seventeenProof]
  refine ⟨seventeenProof, seventeen, proven_seventeen, ⟨by decide, rfl⟩,
    fun n offset leaf hoffset => ⟨⟨(seventeen.data.drop offset).take pieceLen⟩, ?_, ?_,
      List.take_prefix _ _⟩⟩
  · refine chunkOf_seventeen ?_ _
    show (List.take pieceLen _).length ≤ _
    exact (List.length_take_le _ _).trans (hshort.trans (by decide))
  · show (List.take pieceLen _).length ≠ 0
    rw [List.length_take, List.length_drop]
    change offset < 17 at hoffset
    change min pieceLen (17 - offset) ≠ 0
    omega

theorem answersEach_second :
    @AnswersEach Bytes plainContentDigests (tableCodec [secondProof]) (fetchFrom [⟨[1]⟩] 1000)
      secondNetwork (leavesDescriptor twoLeaves) ⟨[1]⟩ 1 := by
  let _ := plainContentDigests
  let _ := tableCodec [secondProof]
  refine ⟨secondProof, ⟨[6]⟩, ⟨by decide +kernel, rfl⟩, ⟨by decide, rfl⟩,
    fun n offset leaf hoffset => ⟨⟨[6]⟩, ?_, by decide, ?_⟩⟩
  · show chunkOf 1 (some (.chunkHeader Bytes.empty 1 ⟨[0]⟩ 1, ⟨[6]⟩)) = _
    rfl
  · obtain rfl : offset = 0 := Nat.lt_one_iff.mp hoffset
    exact List.prefix_refl _

/-- **One provider that answers every question for a chunk is not enough**: not where it takes
more than `MAX_CHUNK_ROUNDS` pieces, nor where it lies about another chunk, nor where there is no
room, nor where the operation is in flight. -/
theorem one_answering_provider_not_enough :
    (∃ pieceLen, @AnswersEach Bytes plainContentDigests (tableCodec [seventeenProof])
        (fetchFrom [⟨[0]⟩, ⟨[1]⟩] 1000) (seventeenNetwork pieceLen) seventeenDescriptor ⟨[1]⟩ 0 ∧
      (fetchSeventeen pieceLen 1000 Catalog.new).1 = .error (.incomplete 1) ∧
      (fetchSeventeen pieceLen 1000 Catalog.new).2.offers[(⟨[1]⟩ : Bytes)]? = none ∧
      ¬ (fetchSeventeen pieceLen 1000 Catalog.new).2.cache.Resident
        (@chunkSlot Bytes plainContentDigests seventeenDescriptor 0)) ∧
    (@AnswersEach Bytes plainContentDigests (tableCodec [secondProof]) (fetchFrom [⟨[1]⟩] 1000)
        secondNetwork (leavesDescriptor twoLeaves) ⟨[1]⟩ 1 ∧
      fetchBoth.1 = .error (.incomplete 2) ∧
      ¬ fetchBoth.2.cache.Resident
        (@chunkSlot Bytes plainContentDigests (leavesDescriptor twoLeaves) 1)) ∧
    (@AnswersEach Bytes plainContentDigests (tableCodec [seventeenProof])
        (fetchFrom [⟨[0]⟩, ⟨[1]⟩] 0) (seventeenNetwork 17) seventeenDescriptor ⟨[1]⟩ 0 ∧
      (fetchSeventeen 17 0 Catalog.new).1 = .error .overQuota ∧
      ¬ (fetchSeventeen 17 0 Catalog.new).2.cache.Resident
        (@chunkSlot Bytes plainContentDigests seventeenDescriptor 0)) ∧
    @AnswersEach Bytes plainContentDigests (tableCodec [seventeenProof])
        (fetchFrom [⟨[0]⟩, ⟨[1]⟩] 1000) (seventeenNetwork 17) seventeenDescriptor ⟨[1]⟩ 0 ∧
      (fetchSeventeen 17 1000 inFlight).1 = .error .busy ∧
      ¬ (fetchSeventeen 17 1000 inFlight).2.cache.Resident
        (@chunkSlot Bytes plainContentDigests seventeenDescriptor 0) := by
  refine ⟨⟨1, answersEach_seventeen _ (by decide) (by decide), ?_, ?_, ?_⟩,
    ⟨answersEach_second, ?_, ?_⟩, ⟨answersEach_seventeen _ (by decide) (by decide), ?_, ?_⟩,
    answersEach_seventeen _ (by decide) (by decide), ?_, ?_⟩
  · decide +kernel
  · decide +kernel
  · decide +kernel
  · decide +kernel
  · decide +kernel
  · decide +kernel
  · decide +kernel
  · decide +kernel
  · decide +kernel

end Lait.Runtime.Fetch
