import Lait.Runtime.Fetch

/-!
# One chunk from one provider

What a provider is asked for a chunk, and what it answers, is in the log; `Sent` reads off
it the pieces that were taken, and what they come to.  `fetchOne` says that a provider lied
in two cases (`fetchOne_spec`): it did (`Lies`), or it was still sending after
`MAX_CHUNK_ROUNDS` pieces (`Lingers`).  A provider that delivers the chunk in that many
pieces is not blamed, and the chunk is then here (`fetchOne_delivers`).

All of it is about a cache whose file system works.
-/

namespace Lait.Runtime.Fetch

open Replica

/-! ## A cache that works -/

namespace Cache

variable {H : Type}

/-- Nothing the cache is asked fails. -/
def Works (self : Cache H) : Prop := ∀ call : CacheCall H, self.fails call = false

/-- What is here stays here. -/
structure Grows (before after : Cache H) : Prop where
  fails : after.fails = before.fails
  resident : ∀ entry : H, before.Resident entry → after.Resident entry

variable {self before between after : Cache H} {operation : Bytes} {part : UInt32} {entry : H}

theorem Grows.refl (self : Cache H) : self.Grows self := ⟨rfl, fun _ h => h⟩

theorem Grows.trans (h : before.Grows between) (h' : between.Grows after) : before.Grows after :=
  ⟨h'.fails.trans h.fails, fun entry here => h'.resident entry (h.resident entry here)⟩

theorem Grows.works (h : before.Grows after) (hworks : before.Works) : after.Works := by
  intro call
  rw [h.fails]
  exact hworks call

/-- Staging touches no entry. -/
theorem grows_staged (self : Cache H) (staged : BTreeMap (Bytes ×ₗ ℕ) Bytes) :
    self.Grows { self with staged } := ⟨rfl, fun _ h => h⟩

theorem appendStaged_eq (hworks : self.Works) (operation : Bytes) (part : UInt32) (bytes : Bytes) :
    self.appendStaged operation part (self.stagedLen operation part) bytes =
      some { self with
        staged := self.staged.insert (toLex (operation, part.toNat))
          (self.stagedOf operation part ++ bytes) } := by
  rw [appendStaged, stagedLen, if_neg (not_not.mpr rfl), hworks, if_neg Bool.false_ne_true]

theorem discardStagedPart_eq (hworks : self.Works) (operation : Bytes) (part : UInt32) :
    self.discardStagedPart operation part =
      some { self with staged := self.staged.erase (toLex (operation, part.toNat)) } := by
  rw [discardStagedPart, hworks, if_neg Bool.false_ne_true]

theorem lease_eq (hworks : self.Works) (holder : Holder) (entry : H) :
    self.lease holder entry = some { self with leases := (holder, entry) :: self.leases } := by
  rw [lease, hworks, if_neg Bool.false_ne_true]

/-- Something staged can be read back. -/
theorem readStaged_eq (hworks : self.Works) (h : self.stagedLen operation part ≠ 0) :
    self.readStaged operation part = some (self.stagedOf operation part) := by
  rw [readStaged, hworks, if_neg Bool.false_ne_true]
  unfold stagedLen stagedOf at h
  rw [stagedOf]
  cases hget : self.staged[toLex (operation, part.toNat)]? with
  | none =>
      rw [hget] at h
      exact absurd rfl h
  | some staged => rfl

theorem stagedOf_insert (self : Cache H) (operation : Bytes) (part : UInt32) (bytes : Bytes) :
    ({ self with staged := self.staged.insert (toLex (operation, part.toNat)) bytes } :
      Cache H).stagedOf operation part = bytes := by
  rw [stagedOf, BTreeMap.get_insert, if_pos rfl]
  rfl

theorem stagedOf_erase (self : Cache H) (operation : Bytes) (part : UInt32) :
    ({ self with staged := self.staged.erase (toLex (operation, part.toNat)) } :
      Cache H).stagedOf operation part = Bytes.empty := by
  rw [stagedOf, BTreeMap.get_erase, if_pos rfl]
  rfl

variable [DecidableEq H]

/-- An install makes its entry resident. -/
theorem exists_install (hworks : self.Works) (entry : H) (bytes sidecar : Bytes) :
    ∃ installed, self.install entry bytes sidecar = some installed ∧ self.Grows installed ∧
      installed.Resident entry := by
  rw [install, hworks, if_neg Bool.false_ne_true]
  refine ⟨_, rfl, ⟨rfl, fun kept hkept => ?_⟩, ?_⟩
  · unfold Resident at hkept ⊢
    rw [List.map_append, List.mem_append]
    by_cases hsame : kept = entry
    · right
      rw [hsame]
      exact List.mem_singleton_self entry
    · left
      obtain ⟨file, hfile, rfl⟩ := List.mem_map.mp hkept
      exact List.mem_map_of_mem (List.mem_filter.mpr ⟨hfile, decide_eq_true hsame⟩)
  · unfold Resident
    rw [List.map_append, List.mem_append]
    exact Or.inr (List.mem_singleton_self entry)

end Cache

/-! ## What a provider sent -/

section Call

variable {H : Type} [ContentDigests H] [Postcard (ChunkProof H)]

/-- A leaf that is proven to be the content's at an index. -/
def Proven (descriptor : ContentDescriptor) (index : UInt32) (proof : ChunkProof H) : Prop :=
  descriptor.verifyLeaf proof = .ok () ∧ proof.leaf.chunkIndex = index

/-- The bytes of a leaf. -/
def Matches (leaf : ChunkLeaf H) (bytes : Bytes) : Prop :=
  leaf.ciphertextLen.toNat = bytes.length ∧ ContentDigests.hash bytes = leaf.ciphertextHash

/-- The leaf that the last piece was proven by. -/
def leafOf (last : Option (Piece H)) : Option H :=
  last.map fun piece => piece.proof.leaf.ciphertextHash

variable (self : Fetcher) (descriptor : ContentDescriptor) (station : Bytes) (index : UInt32)

/-- The pieces of a chunk that one attempt took: asked for one after the other, each proven, by
the same leaf, and not empty.  The last of them, and the bytes they come to. -/
inductive Sent : List (Event H) → Option (Piece H) → Bytes → Prop
  | nothing : Sent [] none Bytes.empty
  | piece {events : List (Event H)} {last : Option (Piece H)} {staged : Bytes} {reply : Reply H}
      {piece : Piece H} (before : Sent events last staged)
      (answered : chunkOf index reply = some piece) (proven : Proven descriptor index piece.proof)
      (same : ∀ leaf ∈ leafOf last, leaf = piece.proof.leaf.ciphertextHash)
      (progress : piece.body.length ≠ 0) :
      Sent (events ++ [.asked station (self.request index staged.length (leafOf last)) reply])
        (some piece) (staged ++ piece.body)

/-- An attempt in which the provider lied. -/
inductive Lies : List (Event H) → Prop
  /-- It sent an invalid leaf proof. -/
  | invalid {events : List (Event H)} {last : Option (Piece H)} {staged : Bytes} {reply : Reply H}
      {piece : Piece H} (before : Sent self descriptor station index events last staged)
      (answered : chunkOf index reply = some piece)
      (unproven : ¬ Proven descriptor index piece.proof) :
      Lies (events ++ [.asked station (self.request index staged.length (leafOf last)) reply])
  /-- It changed the leaf. -/
  | changed {events : List (Event H)} {last : Option (Piece H)} {staged : Bytes} {reply : Reply H}
      {piece : Piece H} {leaf : H} (before : Sent self descriptor station index events last staged)
      (answered : chunkOf index reply = some piece) (known : leafOf last = some leaf)
      (other : leaf ≠ piece.proof.leaf.ciphertextHash) :
      Lies (events ++ [.asked station (self.request index staged.length (leafOf last)) reply])
  /-- What it sent, all of it by its own account, is not what its leaf is of. -/
  | mismatch {events : List (Event H)} {piece : Piece H} {staged : Bytes}
      (sent : Sent self descriptor station index events (some piece) staged)
      (whole : piece.totalLen ≤ staged.length) (differs : ¬ Matches piece.proof.leaf staged) :
      Lies events

/-- An attempt that took all the pieces it may, the chunk still not whole. -/
inductive Lingers : List (Event H) → Prop
  | intro {events : List (Event H)} {piece : Piece H} {staged : Bytes}
      (sent : Sent self descriptor station index events (some piece) staged)
      (spent : events.length = MAX_CHUNK_ROUNDS) (short : staged.length < piece.totalLen) :
      Lingers events

/-- A provider lied about a chunk. -/
def Lied (log : List (Event H)) : Prop :=
  ∃ index events, Lies self descriptor station index events ∧ events <:+: log

/-- A provider left a chunk unfinished after as many pieces as one chunk may take. -/
def Unfinished (log : List (Event H)) : Prop :=
  ∃ index events, Lingers self descriptor station index events ∧ events <:+: log

variable {self descriptor station index}

/-- Pieces come to something. -/
theorem Sent.length_ne_zero {events : List (Event H)} {piece : Piece H} {staged : Bytes}
    (h : Sent self descriptor station index events (some piece) staged) : staged.length ≠ 0 := by
  cases h with
  | piece before answered proven same progress =>
      rw [Bytes.length_append]
      omega

/-- The last piece is proven. -/
theorem Sent.proven {events : List (Event H)} {piece : Piece H} {staged : Bytes}
    (h : Sent self descriptor station index events (some piece) staged) :
    Proven descriptor index piece.proof := by
  cases h with
  | piece before answered proven same progress => exact proven

/-! ## The rounds -/

variable [DecidableEq H] {network : Network H}

/-- The state of an attempt: the log since it began, the pieces, and what is staged of them. -/
structure Assembled (fetcher : Fetcher) (descriptor : ContentDescriptor) (station : Bytes)
    (index : UInt32) (log events : List (Event H)) (last : Option (Piece H)) (staged : Bytes)
    (asm : Assembly H) : Prop where
  sent : Sent fetcher descriptor station index events last staged
  logged : asm.log = log ++ events
  works : asm.cache.Works
  stagedOf : asm.cache.stagedOf fetcher.operation index = staged
  knownLeaf : asm.knownLeaf = leafOf last
  lastProof : asm.lastProof = last.map Piece.proof

variable {log events : List (Event H)} {last : Option (Piece H)} {staged : Bytes}
  {asm after : Assembly H} {ending : RoundEnd}

omit [Postcard (ChunkProof H)] in
/-- What becomes of a piece: it is a lie, or no use, or it is taken. -/
theorem take_spec {offset : ℕ} {piece : Piece H} (hworks : asm.cache.Works)
    (hoffset : asm.cache.stagedLen self.operation index = offset)
    (htake : self.take descriptor index offset asm piece = (ending, after)) :
    after.log = asm.log ∧ asm.cache.Grows after.cache ∧
      (ending = .failed false ∧ piece.body.length = 0 ∨
        ending = .failed true ∧ (¬ Proven descriptor index piece.proof ∨
          ∃ leaf, asm.knownLeaf = some leaf ∧ leaf ≠ piece.proof.leaf.ciphertextHash) ∨
        Proven descriptor index piece.proof ∧
          (∀ leaf ∈ asm.knownLeaf, leaf = piece.proof.leaf.ciphertextHash) ∧
          piece.body.length ≠ 0 ∧
          after.knownLeaf = some piece.proof.leaf.ciphertextHash ∧
          after.lastProof = some piece.proof ∧
          after.cache.stagedOf self.operation index =
            asm.cache.stagedOf self.operation index ++ piece.body ∧
          ending = if piece.totalLen ≤ (asm.cache.stagedOf self.operation index ++
            piece.body).length then .done else .more) := by
  unfold Fetcher.take at htake
  split at htake
  next hinvalid =>
      cases htake
      refine ⟨rfl, Cache.Grows.refl _, Or.inr (Or.inl ⟨rfl, Or.inl fun hproven => ?_⟩)⟩
      exact hinvalid.elim (fun hleaf => hleaf hproven.1) fun hindex => hindex hproven.2
  next hvalid =>
      rw [not_or, not_not, not_not] at hvalid
      split at htake
      next hchanged =>
          cases htake
          obtain ⟨leaf, hleaf, hother⟩ := (Option.any_eq_true _ _).mp hchanged
          refine ⟨rfl, Cache.Grows.refl _, Or.inr (Or.inl ⟨rfl, Or.inr ⟨leaf, hleaf, ?_⟩⟩)⟩
          exact of_decide_eq_true hother
      next hsame =>
          dsimp only at htake
          split at htake
          next hempty =>
              cases htake
              exact ⟨rfl, Cache.Grows.refl _, Or.inl ⟨rfl, hempty⟩⟩
          next hprogress =>
              rw [← hoffset, Cache.appendStaged_eq hworks] at htake
              cases htake
              refine ⟨rfl, Cache.grows_staged _ _, Or.inr (Or.inr ⟨hvalid, ?_, hprogress, rfl, rfl,
                Cache.stagedOf_insert _ _ _ _, ?_⟩)⟩
              · intro leaf hleaf
                by_contra hother
                exact hsame ((Option.any_eq_true _ _).mpr ⟨leaf, hleaf, decide_eq_true hother⟩)
              · rw [Cache.stagedLen, Cache.stagedOf_insert]

/-- **One round**: it asks for the rest of the chunk, and takes what comes or says why not. -/
theorem round_spec (h : Assembled self descriptor station index log events last staged asm)
    (hround : self.round network descriptor station index asm = (ending, after)) :
    ∃ reply, reply = network.answer asm.log.length station
          (self.request index staged.length (leafOf last)) ∧
      after.log = log ++ (events ++
        [.asked station (self.request index staged.length (leafOf last)) reply]) ∧
      asm.cache.Grows after.cache ∧
      (ending = .failed false ∧
          (∀ piece ∈ chunkOf index reply, piece.body.length = 0) ∨
        (ending = .failed true ∧ ∃ piece, chunkOf index reply = some piece ∧
          (¬ Proven descriptor index piece.proof ∨
            ∃ leaf, leafOf last = some leaf ∧ leaf ≠ piece.proof.leaf.ciphertextHash)) ∨
        ∃ piece, chunkOf index reply = some piece ∧
          Assembled self descriptor station index log
            (events ++ [.asked station (self.request index staged.length (leafOf last)) reply])
            (some piece) (staged ++ piece.body) after ∧
          ending = if piece.totalLen ≤ (staged ++ piece.body).length then .done else .more) := by
  have hlen : asm.cache.stagedLen self.operation index = staged.length := by
    rw [Cache.stagedLen, h.stagedOf]
  refine ⟨_, rfl, ?_⟩
  simp only [Fetcher.round, hlen, h.knownLeaf] at hround
  generalize network.answer asm.log.length station
    (self.request index staged.length (leafOf last)) = reply at hround ⊢
  have hlog : asm.log ++ [.asked station (self.request index staged.length (leafOf last)) reply] =
      log ++ (events ++
        [.asked station (self.request index staged.length (leafOf last)) reply]) := by
    rw [h.logged, List.append_assoc]
  cases hpiece : chunkOf index reply with
  | none =>
      rw [hpiece] at hround
      cases hround
      exact ⟨hlog, Cache.Grows.refl _, Or.inl ⟨rfl, fun piece hpiece => by cases hpiece⟩⟩
  | some piece =>
      rw [hpiece] at hround
      dsimp only at hround
      obtain ⟨hsamelog, hgrows, hcases⟩ := take_spec (by exact h.works) (by exact hlen) hround
      refine ⟨hsamelog.trans hlog, hgrows, ?_⟩
      rcases hcases with ⟨hidle, hempty⟩ | ⟨hlied, hlie⟩ |
        ⟨hproven, hsame, hprogress, hknown, hlast, hstaged, hending⟩
      · refine Or.inl ⟨hidle, fun other hother => ?_⟩
        rw [← Option.some.inj hother]
        exact hempty
      · exact Or.inr (Or.inl ⟨hlied, piece, rfl, hlie⟩)
      · refine Or.inr (Or.inr ⟨piece, rfl, ⟨?_, hsamelog.trans hlog, hgrows.works h.works, ?_,
          hknown, hlast⟩, ?_⟩)
        · exact .piece h.sent hpiece hproven hsame hprogress
        · rw [hstaged, h.stagedOf]
        · rw [hending, h.stagedOf]

/-- **The rounds**: they leave what was asked in the log; where they end in a lie there is one,
and where they end without one the chunk is whole by the provider's account, or as many pieces
were taken as may be. -/
theorem rounds_spec {left : ℕ} {out : Option Bool}
    (h : Assembled self descriptor station index log events last staged asm)
    (hrounds : self.rounds network descriptor station index left asm = (out, after)) :
    ∃ taken last' staged', after.log = log ++ taken ∧ asm.cache.Grows after.cache ∧
      (∀ event ∈ taken, event ∈ events ∨ ∃ offset leaf reply,
        event = .asked station (self.request index offset leaf) reply) ∧
      (out = some true → Lies self descriptor station index taken) ∧
      (out = none → Assembled self descriptor station index log taken last' staged' after ∧
        (taken.length = events.length + left ∨
          ∃ piece, last' = some piece ∧ piece.totalLen ≤ staged'.length)) := by
  induction left generalizing events last staged asm with
  | zero =>
      cases hrounds
      exact ⟨events, last, staged, h.logged, Cache.Grows.refl _, fun _ => Or.inl,
        fun hout => (by cases hout), fun _ => ⟨h, Or.inl rfl⟩⟩
  | succ left ih =>
      rw [Fetcher.rounds] at hrounds
      cases hround : self.round network descriptor station index asm with
      | mk ending between =>
          rw [hround] at hrounds
          obtain ⟨reply, -, hlog, hgrows, hcases⟩ := round_spec h hround
          have hnew : ∀ event ∈ events ++
              [.asked station (self.request index staged.length (leafOf last)) reply],
              event ∈ events ∨ ∃ offset leaf reply,
                event = Event.asked station (self.request index offset leaf) reply := by
            intro event hevent
            rw [List.mem_append, List.mem_singleton] at hevent
            exact hevent.imp_right fun hasked => ⟨_, _, _, hasked⟩
          rcases hcases with ⟨rfl, -⟩ | ⟨rfl, piece, hpiece, hlie⟩ | ⟨piece, -, hassembled, hending⟩
          · cases hrounds
            exact ⟨_, last, staged, hlog, hgrows, hnew, fun hout => (by cases hout),
              fun hout => (by cases hout)⟩
          · cases hrounds
            refine ⟨_, last, staged, hlog, hgrows, hnew, fun _ => ?_, fun hout => (by cases hout)⟩
            rcases hlie with hunproven | ⟨leaf, hleaf, hother⟩
            · exact .invalid h.sent hpiece hunproven
            · exact .changed h.sent hpiece hleaf hother
          · by_cases hwhole : piece.totalLen ≤ (staged ++ piece.body).length
            · rw [if_pos hwhole] at hending
              subst hending
              cases hrounds
              exact ⟨_, some piece, _, hlog, hgrows, hnew, fun hout => (by cases hout),
                fun _ => ⟨hassembled, Or.inr ⟨piece, rfl, hwhole⟩⟩⟩
            · rw [if_neg hwhole] at hending
              subst hending
              obtain ⟨taken, last', staged', hlog', hgrows', hnew', hlied, hnone⟩ :=
                ih hassembled hrounds
              refine ⟨taken, last', staged', hlog', hgrows.trans hgrows', fun event hevent => ?_,
                hlied, fun hout => ?_⟩
              · exact (hnew' event hevent).elim (hnew event) Or.inr
              · obtain ⟨hafter, hend⟩ := hnone hout
                refine ⟨hafter, hend.imp_left fun hlength => ?_⟩
                rw [hlength, List.length_append, List.length_singleton]
                omega

/-! ## Installing -/

variable {cache cache' : Cache H} {proof : ChunkProof H} {ok : Bool}

/-- What is checked is filed. -/
theorem file_spec (self : Fetcher) (descriptor : ContentDescriptor) (proof : ChunkProof H)
    (hworks : cache.Works) (ciphertext : Bytes) :
    ∃ filed, self.file descriptor cache proof ciphertext = (true, filed) ∧ cache.Grows filed ∧
      filed.Resident (chunkSlot descriptor proof.leaf.chunkIndex) := by
  obtain ⟨installed, hinstall, hgrows, hhere⟩ := Cache.exists_install hworks
    (chunkSlot descriptor proof.leaf.chunkIndex) ciphertext (Postcard.toStdvec proof)
  have hleased : ∀ leases : List (Holder × H), cache.Grows { installed with leases } :=
    fun leases => ⟨hgrows.fails, hgrows.resident⟩
  rw [Fetcher.file, hinstall]
  dsimp only
  rw [Cache.lease_eq (hgrows.works hworks)]
  dsimp only
  cases self.intent with
  | stream => exact ⟨_, rfl, hleased _, hhere⟩
  | keep =>
      dsimp only
      rw [Cache.lease_eq ((hleased _).works hworks)]
      exact ⟨_, rfl, hleased _, hhere⟩

/-- **Installing** accepts exactly the bytes of the proven leaf. -/
theorem install_spec (hworks : cache.Works) (hproven : Proven descriptor index proof)
    (hstaged : cache.stagedLen self.operation index ≠ 0)
    (hinstall : self.installStagedChunk true descriptor cache index proof = (ok, cache')) :
    cache.Grows cache' ∧ (ok = true → cache'.Resident (chunkSlot descriptor index)) ∧
      (ok = true ↔ Matches proof.leaf (cache.stagedOf self.operation index)) := by
  unfold Fetcher.installStagedChunk at hinstall
  rw [Cache.discardStagedPart_eq hworks, Cache.readStaged_eq hworks hstaged] at hinstall
  dsimp only [Option.getD_some] at hinstall
  rw [if_neg (not_not.mpr rfl)] at hinstall
  have hverify : descriptor.verifyChunk proof (cache.stagedOf self.operation index) = .ok () ↔ _ :=
    ContentDescriptor.verifyChunk_eq_ok
  split at hinstall
  next hlength =>
      cases hinstall
      refine ⟨Cache.grows_staged _ _, fun h => (by cases h), fun h => (by cases h), fun h => ?_⟩
      exact absurd h.1.symm hlength
  next hlength =>
      split at hinstall
      next hinvalid =>
          cases hinstall
          refine ⟨Cache.grows_staged _ _, fun h => (by cases h), fun h => (by cases h), fun h => ?_⟩
          exact absurd (hverify.mpr ⟨hproven.1, h.1, h.2⟩) hinvalid
      next hvalid =>
          obtain ⟨filed, hfile, hgrows, hhere⟩ :=
            file_spec self descriptor proof hworks (cache.stagedOf self.operation index)
          rw [hfile] at hinstall
          dsimp only at hinstall
          rw [Cache.discardStagedPart_eq (hgrows.works hworks)] at hinstall
          cases hinstall
          rw [hproven.2] at hhere
          refine ⟨hgrows.trans (Cache.grows_staged _ _), fun _ => hhere, fun _ => ?_, fun _ => rfl⟩
          exact (hverify.mp (not_not.mp hvalid)).2

/-! ## A whole attempt -/

variable {log' : List (Event H)} {out : Except Bool ℕ}

omit [DecidableEq H] in
/-- An attempt begins with nothing staged. -/
theorem assembled_assembly (self : Fetcher) (descriptor : ContentDescriptor) (station : Bytes)
    (index : UInt32) (hworks : cache.Works) (log : List (Event H)) :
    Assembled self descriptor station index log [] none Bytes.empty
        (self.assembly index cache log) ∧
      cache.Grows (self.assembly index cache log).cache := by
  unfold Fetcher.assembly
  rw [Cache.discardStagedPart_eq hworks, Option.getD_some]
  split
  next =>
      refine ⟨⟨.nothing, (List.append_nil log).symm, hworks, ?_, rfl, rfl⟩,
        Cache.grows_staged _ _⟩
      exact Cache.stagedOf_erase _ _ _
  next hnothing =>
      refine ⟨⟨.nothing, (List.append_nil log).symm, hworks, ?_, rfl, rfl⟩, Cache.Grows.refl _⟩
      exact Bytes.ext (List.eq_nil_of_length_eq_zero (Nat.eq_zero_of_not_pos hnothing))

/-- **An attempt at one chunk**: what it asked is in the log, what was here stays here, the chunk
is here where it succeeds, and where it says that the provider lied the provider did, or left the
chunk unfinished. -/
theorem fetchOne_spec (hworks : cache.Works) (hreadable : ∀ n, network.readable n = true)
    (h : self.fetchOne network descriptor station index cache log = (out, cache', log')) :
    ∃ events, log' = log ++ events ∧
      (∀ event ∈ events, ∃ offset leaf reply,
        event = .asked station (self.request index offset leaf) reply) ∧
      cache.Grows cache' ∧
      (∀ bytes, out = .ok bytes → cache'.Resident (chunkSlot descriptor index)) ∧
      (out = .error true → Lies self descriptor station index events ∨
        Lingers self descriptor station index events) := by
  obtain ⟨hstart, hdiscard⟩ := assembled_assembly self descriptor station index hworks log
  unfold Fetcher.fetchOne at h
  cases hrounds : self.rounds network descriptor station index MAX_CHUNK_ROUNDS
      (self.assembly index cache log) with
  | mk failure after =>
      rw [hrounds] at h
      obtain ⟨events, last, staged, hlog, hgrows, hasked, hlied, hnone⟩ := rounds_spec hstart hrounds
      have hasked : ∀ event ∈ events, ∃ offset leaf reply,
          event = .asked station (self.request index offset leaf) reply :=
        fun event hevent => (hasked event hevent).resolve_left List.not_mem_nil
      have hgrows := hdiscard.trans hgrows
      cases failure with
      | some lied =>
          cases h
          refine ⟨events, hlog, hasked, hgrows, fun bytes hout => (by cases hout), fun hout => ?_⟩
          rw [Except.error.injEq] at hout
          exact Or.inl (hlied (congrArg some hout))
      | none =>
          obtain ⟨hafter, hend⟩ := hnone rfl
          dsimp only at h
          rw [hafter.lastProof] at h
          cases last with
          | none =>
              cases h
              exact ⟨events, hlog, hasked, hgrows, fun bytes hout => (by cases hout),
                fun hout => (by cases hout)⟩
          | some piece =>
              have hstaged : after.cache.stagedLen self.operation index ≠ 0 := by
                rw [Cache.stagedLen, hafter.stagedOf]
                exact hafter.sent.length_ne_zero
              dsimp only [Option.map_some] at h
              rw [hreadable] at h
              cases hinstall : self.installStagedChunk true descriptor after.cache index
                  piece.proof with
              | mk ok installed =>
                  rw [hinstall] at h
                  obtain ⟨hkept, hhere, hmatches⟩ :=
                    install_spec hafter.works hafter.sent.proven hstaged hinstall
                  rw [hafter.stagedOf] at hmatches
                  cases ok with
                  | true =>
                      cases h
                      exact ⟨events, hlog, hasked, hgrows.trans hkept, fun _ _ => hhere rfl,
                        fun hout => (by cases hout)⟩
                  | false =>
                      cases h
                      refine ⟨events, hlog, hasked, hgrows.trans hkept,
                        fun bytes hout => (by cases hout), fun _ => ?_⟩
                      have hdiffers : ¬ Matches piece.proof.leaf staged := by
                        rw [← hmatches]
                        exact Bool.false_ne_true
                      rcases lt_or_ge staged.length piece.totalLen with hshort | hwhole
                      · right
                        refine .intro hafter.sent ?_ hshort
                        rcases hend with hspent | ⟨last, hlast, hwhole⟩
                        · rw [hspent, List.length_nil, Nat.zero_add]
                        · cases hlast
                          omega
                      · exact Or.inl (.mismatch hafter.sent hwhole hdiffers)

/-! ## A provider that delivers -/

/-- A provider answers the questions for the rest of a chunk with the bytes of a proof, in at most
so many pieces that are not empty, from a question of the call on. -/
def Delivers (fetcher : Fetcher) (network : Network H) (station : Bytes) (index : UInt32)
    (proof : ChunkProof H) (ciphertext : Bytes) : ℕ → ℕ → Bytes → Prop
  | 0, _, staged => staged = ciphertext
  | left + 1, n, staged => staged = ciphertext ∨
      ∃ body rest, chunkOf index (network.answer n station (fetcher.request index staged.length
          (if staged.length = 0 then none else some proof.leaf.ciphertextHash))) =
            some { proof, totalLen := ciphertext.length, body } ∧
        body.length ≠ 0 ∧ ciphertext = staged ++ body ++ rest ∧
        Delivers fetcher network station index proof ciphertext left (n + 1) (staged ++ body)

omit [ContentDigests H] [DecidableEq H] in
/-- A piece that reaches the length of the chunk completes it. -/
theorem eq_of_length_le {ciphertext rest : Bytes} (h : ciphertext = staged ++ rest) :
    ciphertext.length ≤ staged.length ↔ staged = ciphertext := by
  constructor
  · intro hle
    rw [h, Bytes.length_append] at hle
    have hnil : rest.data = [] := List.eq_nil_of_length_eq_zero
      (show rest.length = 0 by omega)
    rw [h]
    refine Bytes.ext ?_
    rw [Bytes.data_append, hnil, List.append_nil]
  · intro hsame
    rw [hsame]

/-- **The rounds take what is delivered.** -/
theorem rounds_delivers {left : ℕ} {ciphertext : Bytes} (hproven : Proven descriptor index proof)
    (h : Assembled self descriptor station index log events last staged asm)
    (hlast : ∀ piece ∈ last, piece.proof = proof)
    (hknown : leafOf last = if staged.length = 0 then none else some proof.leaf.ciphertextHash)
    (hshort : staged ≠ ciphertext)
    (hdelivers : Delivers self network station index proof ciphertext left asm.log.length staged) :
    ∃ after taken piece, self.rounds network descriptor station index left asm = (none, after) ∧
      Assembled self descriptor station index log taken (some piece) ciphertext after ∧
      piece.proof = proof := by
  induction left generalizing events last staged asm with
  | zero => exact absurd hdelivers hshort
  | succ left ih =>
      rw [Delivers, ← hknown] at hdelivers
      obtain ⟨body, rest, hanswer, hbody, hcipher, hnext⟩ := hdelivers.resolve_left hshort
      rw [Fetcher.rounds]
      cases hround : self.round network descriptor station index asm with
      | mk ending between =>
          obtain ⟨reply, hreply, hlog, -, hcases⟩ := round_spec h hround
          rw [← hreply] at hanswer
          have hsame : ∀ leaf, leafOf last = some leaf → leaf = proof.leaf.ciphertextHash := by
            intro leaf hleaf
            obtain ⟨piece, hpiece, rfl⟩ := Option.map_eq_some_iff.mp hleaf
            rw [hlast piece hpiece]
          rcases hcases with ⟨-, hempty⟩ | ⟨-, piece, hpiece, hlie⟩ |
            ⟨piece, hpiece, hassembled, hending⟩
          · exact absurd (hempty _ hanswer) hbody
          · obtain rfl := Option.some.inj (hanswer.symm.trans hpiece)
            rcases hlie with hunproven | ⟨leaf, hleaf, hother⟩
            · exact absurd hproven hunproven
            · exact absurd (hsame leaf hleaf) hother
          · obtain rfl := Option.some.inj (hanswer.symm.trans hpiece)
            dsimp only at hassembled hending
            have hreached := eq_of_length_le hcipher
            by_cases hwhole : staged ++ body = ciphertext
            · rw [if_pos (hreached.mpr hwhole)] at hending
              subst hending
              rw [hwhole] at hassembled
              exact ⟨between, _, _, rfl, hassembled, rfl⟩
            · rw [if_neg (hreached.not.mpr hwhole)] at hending
              subst hending
              refine ih hassembled (fun piece hpiece => ?_) ?_ hwhole ?_
              · rw [← Option.some.inj hpiece]
              · rw [if_neg (by rw [Bytes.length_append]; omega)]
                rfl
              · rw [hlog, ← List.append_assoc, ← h.logged, List.length_append,
                  List.length_singleton]
                exact hnext

/-- A provider delivers a chunk whenever it is asked for it: the bytes of a leaf that the
descriptor proves to be the chunk's. -/
def Serves (fetcher : Fetcher) (network : Network H) (descriptor : ContentDescriptor)
    (station : Bytes) (index : UInt32) : Prop :=
  ∃ proof ciphertext, Proven descriptor index proof ∧ Matches proof.leaf ciphertext ∧
    ciphertext.length ≠ 0 ∧
    ∀ n, Delivers fetcher network station index proof ciphertext MAX_CHUNK_ROUNDS n Bytes.empty

/-- **A chunk that is delivered is installed.** -/
theorem fetchOne_delivers (hworks : cache.Works) (hreadable : ∀ n, network.readable n = true)
    (hserves : Serves self network descriptor station index)
    (h : self.fetchOne network descriptor station index cache log = (out, cache', log')) :
    ∃ bytes, out = .ok bytes := by
  obtain ⟨proof, ciphertext, hproven, hmatches, hnonempty, hdelivers⟩ := hserves
  obtain ⟨hstart, -⟩ := assembled_assembly self descriptor station index hworks log
  obtain ⟨after, taken, piece, hrounds, hafter, hpiece⟩ := rounds_delivers hproven hstart
    (fun piece hpiece => by cases hpiece) rfl
    (fun hempty => hnonempty (by rw [← hempty]; rfl)) (hdelivers log.length)
  unfold Fetcher.fetchOne at h
  rw [hrounds] at h
  dsimp only at h
  rw [hafter.lastProof] at h
  dsimp only [Option.map_some] at h
  rw [hreadable, hpiece] at h
  have hstaged : after.cache.stagedLen self.operation index ≠ 0 := by
    rw [Cache.stagedLen, hafter.stagedOf]
    exact hnonempty
  cases hinstall : self.installStagedChunk true descriptor after.cache index proof with
  | mk ok installed =>
      obtain ⟨-, -, haccepts⟩ := install_spec hafter.works hproven hstaged hinstall
      rw [hafter.stagedOf] at haccepts
      rw [hinstall, haccepts.mpr hmatches] at h
      cases h
      exact ⟨_, rfl⟩

end Call

end Lait.Runtime.Fetch
