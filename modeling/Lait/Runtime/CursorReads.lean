import Lait.Runtime.ContentCursor

/-!
# Reads are exact

What a cursor yields is the content's own plaintext at the position it was at, whatever
happened to the chunks before.  The argument is about one step: the chunk at the position
holds the position (`chunk_at`), so what is left of it and of the window is not empty, and
taking the shorter of the two stays inside both (`get_chunk`).  What a cursor keeps over
any calls is that its position is in its window (`Within`).

While every chunk is here and opens, each step takes a chunk's worth off what remains, so
that the spans run to the end of the window (`reads_to_end`).  A span found resident is
not found missing later, because both questions are asked of the same chunks
(`not_blocked_of_resident`).
-/

namespace Lait.Runtime.Cursor

open Replica

/-! ## Contents -/

/-- A content and its descriptor, of any length and chunk length. -/
structure CommittedContent where
  descriptor : ContentDescriptor
  plaintext : Bytes
  chunk_pos : 0 < descriptor.chunkPlaintextLen
  length_eq : plaintext.length = descriptor.plaintextLen
  count_eq : descriptor.chunkCount =
    chunkCountOf descriptor.chunkPlaintextLen descriptor.plaintextLen
  length_le : descriptor.plaintextLen ≤ U64_MAX
  count_lt : descriptor.chunkCount < 4294967296

namespace CommittedContent

/-- The plaintext between two offsets. -/
def between (self : CommittedContent) (start stop : ℕ) : Bytes :=
  ⟨(self.plaintext.data.drop start).take (stop - start)⟩

/-- Every position before the end is in a chunk the content has. -/
theorem index_lt (self : CommittedContent) {position : ℕ}
    (h : position < self.descriptor.plaintextLen) :
    position / self.descriptor.chunkPlaintextLen < self.descriptor.chunkCount := by
  have hpos := self.chunk_pos
  rw [self.count_eq, chunkCountOf, if_neg (by omega), Nat.div_lt_iff_lt_mul hpos]
  have hceil : self.descriptor.plaintextLen ≤
      (self.descriptor.plaintextLen + self.descriptor.chunkPlaintextLen - 1) /
        self.descriptor.chunkPlaintextLen * self.descriptor.chunkPlaintextLen := by
    have hmod := Nat.mod_lt
      (self.descriptor.plaintextLen + self.descriptor.chunkPlaintextLen - 1) hpos
    have hdiv := Nat.div_add_mod'
      (self.descriptor.plaintextLen + self.descriptor.chunkPlaintextLen - 1)
      self.descriptor.chunkPlaintextLen
    omega
  omega

/-- The chunk a position is in, from where it starts to the next chunk or the end. -/
theorem chunk_at (self : CommittedContent) {position : ℕ} {chunk : Bytes}
    (hslice : chunkSlice self.descriptor.chunkPlaintextLen self.plaintext
      (position / self.descriptor.chunkPlaintextLen) = .ok chunk) :
    chunk = self.between
      (position / self.descriptor.chunkPlaintextLen * self.descriptor.chunkPlaintextLen)
      (min (position / self.descriptor.chunkPlaintextLen * self.descriptor.chunkPlaintextLen +
        self.descriptor.chunkPlaintextLen) self.descriptor.plaintextLen) := by
  unfold chunkSlice at hslice
  rw [self.length_eq] at hslice
  dsimp only at hslice
  split at hslice
  next =>
    cases hslice
    rfl
  next => cases hslice

/-- **What is taken of the chunk at a position** is the plaintext there: not nothing, not past
the window, and not past the chunk. -/
theorem get_chunk (self : CommittedContent) {position stop : ℕ} {chunk part : Bytes}
    (hlt : position < stop) (hstop : stop ≤ self.descriptor.plaintextLen)
    (hslice : chunkSlice self.descriptor.chunkPlaintextLen self.plaintext
      (position / self.descriptor.chunkPlaintextLen) = .ok chunk)
    (hpart : part = self.between position (min stop
      (position / self.descriptor.chunkPlaintextLen * self.descriptor.chunkPlaintextLen +
        self.descriptor.chunkPlaintextLen))) :
    get chunk (position % self.descriptor.chunkPlaintextLen)
        (position % self.descriptor.chunkPlaintextLen +
          min (stop - position)
            (chunk.length - position % self.descriptor.chunkPlaintextLen)) = some part := by
  have hpos := self.chunk_pos
  have hmod := Nat.mod_lt position hpos
  have hdiv := Nat.div_add_mod' position self.descriptor.chunkPlaintextLen
  have hchunk := self.chunk_at hslice
  have hdata := self.length_eq
  rw [Bytes.length] at hdata
  -- `start` is where the chunk starts, so that the products are out of the way of `omega`
  generalize hstart : position / self.descriptor.chunkPlaintextLen *
    self.descriptor.chunkPlaintextLen = start at *
  generalize position % self.descriptor.chunkPlaintextLen = within at *
  have hlength : chunk.length =
      min (start + self.descriptor.chunkPlaintextLen) self.descriptor.plaintextLen - start := by
    rw [hchunk, between, Bytes.length, List.length_take, List.length_drop, hdata]
    omega
  have htake : within + min (stop - position) (chunk.length - within) - within =
      min stop (start + self.descriptor.chunkPlaintextLen) - position := by
    rw [hlength]
    omega
  unfold get
  rw [if_pos (by omega), htake, hpart, hchunk]
  refine congrArg some (Bytes.ext ?_)
  rw [between, between, List.drop_take, List.drop_drop, List.take_take, hdiv,
    Nat.min_eq_left (by omega)]

end CommittedContent

variable {H K : Type} [ContentDigests H] [DecidableEq H] {content : CommittedContent}

/-- Opening a chunk of the content answers the chunk's plaintext, or an error. -/
def Honest (content : CommittedContent) (station : Station H K) : Prop :=
  ∀ key index chunk, index.toNat < content.descriptor.chunkCount →
    station.openResidentChunk content.descriptor key (chunkSlot content.descriptor index) =
      .ok chunk →
    chunkSlice content.descriptor.chunkPlaintextLen content.plaintext index.toNat = .ok chunk

/-- Reading is permitted, and every chunk is here and opens. -/
structure Readable (content : CommittedContent) (station : Station H K) : Prop where
  authorize : station.authorize = .ok ()
  opens : ∃ key, station.openingKey content.descriptor.epoch = some key ∧
    ∀ index : UInt32, index.toNat < content.descriptor.chunkCount →
      station.isResident (chunkSlot content.descriptor index) = some true ∧
      ∃ chunk, station.openResidentChunk content.descriptor key
        (chunkSlot content.descriptor index) = .ok chunk

/-- What a call meets opens as the content. -/
def Call.Honest (content : CommittedContent) : Call H K → Prop
  | .next station => Cursor.Honest content station
  | .seek _ => True
  | .drop _ => True
  | .supply _ => True

namespace ContentCursor

variable {self cursor : ContentCursor} {station : Station H K} {leases leases' : Leases H}

/-! ## One step -/

/-- A position in a window of the content. -/
structure Within (content : CommittedContent) (cursor : ContentCursor) : Prop where
  descriptor : cursor.descriptor = content.descriptor
  start_le : cursor.start ≤ cursor.position
  le_end : cursor.position ≤ cursor.end_
  end_le : cursor.end_ ≤ content.descriptor.plaintextLen

/-- **What a span is**: not empty, at the position, in the window and in one chunk, the
content's own plaintext, and the position goes to its end. -/
structure SpanLaw (content : CommittedContent) (before after : ContentCursor)
    (span : PlaintextSpan) : Prop where
  nonempty : 0 < span.bytes.length
  offset : span.offset = before.position
  start_le : before.start ≤ span.offset
  le_end : span.offset + span.bytes.length ≤ before.end_
  one_chunk : span.offset / content.descriptor.chunkPlaintextLen =
    (span.offset + span.bytes.length - 1) / content.descriptor.chunkPlaintextLen
  exact : span.bytes = content.between span.offset (span.offset + span.bytes.length)
  moved : after.position = span.offset + span.bytes.length

/-- What is left of the window and of the chunk at the position. -/
def upTo (self : ContentCursor) : ℕ :=
  min self.end_
    (self.position / self.descriptor.chunkPlaintextLen * self.descriptor.chunkPlaintextLen +
      self.descriptor.chunkPlaintextLen)

theorem Within.length_between (hwithin : Within content self) :
    (content.between self.position self.upTo).length = self.upTo - self.position := by
  have hend := hwithin.end_le
  have hdata := content.length_eq
  rw [Bytes.length] at hdata
  rw [CommittedContent.between, Bytes.length, List.length_take, List.length_drop, hdata]
  unfold upTo
  omega

theorem Within.lt_upTo (hwithin : Within content self) (hlt : self.position < self.end_) :
    self.position < self.upTo := by
  have hpos := content.chunk_pos
  rw [← hwithin.descriptor] at hpos
  have hmod := Nat.mod_lt self.position hpos
  have hdiv := Nat.div_add_mod' self.position self.descriptor.chunkPlaintextLen
  unfold upTo
  omega

omit [DecidableEq H] in
/-- What is opened of the chunk at the position. -/
theorem Opened.eq_between {key : K} {index : UInt32} {within : ℕ} {bytes : Bytes}
    (hopened : self.Opened station key index within bytes) (hwithin : Within content self)
    (hhonest : Honest content station) (hreaches : self.Reaches station key index within) :
    bytes = content.between self.position self.upTo := by
  obtain ⟨-, hindex, hcount, rfl⟩ := place_eq_some.mp hreaches.place
  obtain ⟨chunk, hopen, hget⟩ := hopened.chunk
  rw [hwithin.descriptor] at hindex hcount hopen hget
  have hslice := hhonest key index chunk hcount hopen
  rw [hindex] at hslice
  have hpart := content.get_chunk hreaches.unfinished hwithin.end_le hslice rfl
  rw [hpart] at hget
  rw [upTo, hwithin.descriptor]
  exact (Option.some.inj hget).symm

/-- **A yielded span is exact.** -/
theorem Next.spanLaw {span : PlaintextSpan}
    (h : Next self station leases (.yielded cursor span) leases')
    (hwithin : Within content self) (hhonest : Honest content station) :
    SpanLaw content self cursor span := by
  cases h with
  | @yielded key index within bytes hreaches hopened =>
      have hbytes := hopened.eq_between hwithin hhonest hreaches
      have hlength := hwithin.length_between
      rw [← hbytes] at hlength
      have hlt := hwithin.lt_upTo hreaches.unfinished
      have hend : self.upTo ≤ self.end_ := min_le_left _ _
      have hchunk : self.upTo ≤ self.position / self.descriptor.chunkPlaintextLen *
          self.descriptor.chunkPlaintextLen + self.descriptor.chunkPlaintextLen :=
        min_le_right _ _
      have hstop : self.position + bytes.length = self.upTo := by omega
      refine ⟨by dsimp only; omega, rfl, hwithin.start_le, by dsimp only; omega, ?_, ?_, ?_⟩
      · have hpos := content.chunk_pos
        have hdiv := Nat.div_mul_le_self self.position content.descriptor.chunkPlaintextLen
        rw [hwithin.descriptor] at hchunk
        dsimp only
        symm
        apply Nat.div_eq_of_lt_le
        · omega
        · rw [Nat.succ_mul]
          omega
      · rw [hstop]
        exact hbytes
      · have hle := content.length_le
        have hin := hwithin.end_le
        dsimp only
        omega

/-- A hole leaves the position where it was. -/
theorem Next.position_of_blocked {gap : Gap}
    (h : Next self station leases (.blocked cursor gap) leases') :
    cursor.position = self.position := by
  generalize hadvance : Advance.blocked cursor gap = advance at h
  cases h with
  | finished hend => cases hadvance
  | refused failure hstopped => cases hadvance
  | absent hunfinished hplace habsent =>
      cases hadvance
      rfl
  | @evicted key index within hreaches hevicted =>
      rw [hold_fst] at hadvance
      cases hadvance
      rfl
  | broken hreaches failure hunopened => cases hadvance
  | yielded hreaches hopened => cases hadvance

/-- A cursor has finished at the end of its window. -/
theorem Next.of_finished (h : Next self station leases (.finished cursor) leases') :
    cursor = self ∧ self.end_ ≤ self.position := by
  cases h with
  | finished hend => exact ⟨rfl, hend⟩

/-- A step leaves the position in the window. -/
theorem Next.within {advance : Advance} (h : Next self station leases advance leases')
    (hwithin : Within content self) (hhonest : Honest content station)
    (hcursor : advance.cursor = some cursor) : Within content cursor := by
  have hnext := h
  have hsame := h.sameWindow hcursor
  have hposition : self.start ≤ cursor.position ∧ cursor.position ≤ self.end_ := by
    cases h with
    | finished hend =>
        cases hcursor
        exact ⟨hwithin.start_le, hwithin.le_end⟩
    | refused failure hstopped => cases hcursor
    | absent hunfinished hplace habsent =>
        cases hcursor
        exact ⟨hwithin.start_le, hwithin.le_end⟩
    | @evicted key index within hreaches hevicted =>
        cases hcursor
        rw [hold_fst]
        exact ⟨hwithin.start_le, hwithin.le_end⟩
    | broken hreaches failure hunopened => cases hcursor
    | yielded hreaches hopened =>
        cases hcursor
        have hlaw := hnext.spanLaw hwithin hhonest
        have hstart := hlaw.start_le
        have hend := hlaw.le_end
        rw [hlaw.moved]
        exact ⟨by omega, hend⟩
  exact ⟨hsame.descriptor.trans hwithin.descriptor, hsame.start ▸ hposition.1,
    hsame.end_ ▸ hposition.2, hsame.end_ ▸ hwithin.end_le⟩

theorem seek_within (hwithin : Within content self) (offset : ℕ) :
    Within content (self.seek offset).cursor := by
  unfold seek
  split
  next => exact hwithin
  next hin => exact ⟨hwithin.descriptor, by dsimp only [Seek.cursor]; omega,
      by dsimp only [Seek.cursor]; omega, hwithin.end_le⟩

/-- An opened cursor is at the start of its window. -/
theorem openRange_spec {ref : Bytes} {entropy : Option Bytes} {offset len : ℕ}
    (h : openRange ref (.ok content.descriptor) entropy offset len = .ok self) :
    Within content self ∧ self.position = offset ∧ self.start = offset ∧
      self.end_ = min (offset + len) content.descriptor.plaintextLen := by
  have hle := content.length_le
  unfold openRange at h
  obtain ⟨descriptor, hdescriptor, h⟩ := bind_eq_ok.mp h
  cases hdescriptor
  split at h
  next => cases h
  next hin =>
    cases entropy with
    | none => cases h
    | some operation =>
        cases h
        refine ⟨⟨rfl, le_rfl, ?_, min_le_right _ _⟩, rfl, rfl, ?_⟩
        · dsimp only
          omega
        · dsimp only
          omega

/-! ## Reading to the end -/

/-- Where reading is permitted and every chunk is here and opens, a step before the end
yields. -/
theorem Next.exists_span {advance : Advance} (h : Next self station leases advance leases')
    (hwithin : Within content self) (hhonest : Honest content station)
    (hreadable : Readable content station) (hlt : self.position < self.end_) :
    ∃ cursor span, advance = .yielded cursor span := by
  obtain ⟨key, hkey, hall⟩ := hreadable.opens
  have hindex := content.index_lt (hlt.trans_le hwithin.end_le)
  obtain ⟨index, heq⟩ : ∃ index : UInt32,
      index.toNat = self.position / content.descriptor.chunkPlaintextLen :=
    ⟨_, UInt32.toNat_ofNat_of_lt' (hindex.trans content.count_lt)⟩
  rw [← heq] at hindex
  have hplace : self.place =
      some (index, self.position % self.descriptor.chunkPlaintextLen) := by
    refine place_eq_some.mpr ⟨?_, ?_, ?_, rfl⟩
    · rw [hwithin.descriptor]
      exact content.chunk_pos.ne'
    · rw [hwithin.descriptor]
      exact heq
    · rw [hwithin.descriptor]
      exact hindex
  obtain ⟨hresident, chunk, hopen⟩ := hall index hindex
  rw [← hwithin.descriptor] at hkey hresident hopen
  have hreaches : self.Reaches station key index _ :=
    ⟨hreadable.authorize, hlt, hkey, hplace, hresident⟩
  cases h with
  | finished hend => exact absurd hlt (not_lt.mpr hend)
  | refused failure hstopped => exact absurd hreaches (hstopped _ _ _)
  | absent hunfinished hplace' habsent =>
      cases hplace.symm.trans hplace'
      cases hresident.symm.trans habsent
  | @evicted key' index' within' hreaches' hevicted =>
      cases hplace.symm.trans hreaches'.place
      cases hkey.symm.trans hreaches'.openingKey
      cases hopen.symm.trans hevicted
  | @broken key' index' within' hreaches' failure hunopened =>
      cases hplace.symm.trans hreaches'.place
      cases hkey.symm.trans hreaches'.openingKey
      have hslice := hhonest key index chunk hindex (hwithin.descriptor ▸ hopen)
      rw [heq] at hslice
      have hget := content.get_chunk hlt hwithin.end_le hslice rfl
      refine absurd ⟨⟨chunk, hopen, hwithin.descriptor ▸ hget⟩, ?_⟩ (hunopened _)
      have hlength := hwithin.length_between
      have hpast := hwithin.lt_upTo hlt
      rw [upTo] at hlength hpast
      rw [hlength]
      omega
  | yielded hreaches' hopened => exact ⟨_, _, rfl⟩

theorem between_append {start stop stop' : ℕ} (hstart : start ≤ stop) (hstop : stop ≤ stop')
    (content : CommittedContent) :
    content.between start stop ++ content.between stop stop' = content.between start stop' := by
  apply Bytes.ext
  rw [Bytes.data_append, CommittedContent.between, CommittedContent.between,
    CommittedContent.between]
  dsimp only
  have hdrop : content.plaintext.data.drop stop =
      (content.plaintext.data.drop start).drop (stop - start) := by
    rw [List.drop_drop]
    congr 1
    omega
  rw [hdrop, ← List.take_add]
  congr 1
  omega

end ContentCursor

/-- The span an answer carries. -/
def Answer.span : Answer → Option PlaintextSpan
  | .advance (.yielded _ span) => some span
  | _ => none

namespace ContentCursor

variable {self cursor : ContentCursor} {station : Station H K} {leases leases' : Leases H}

/-- The next steps, at one station after the other. -/
def steps (stations : ℕ → Station H K) (n : ℕ) : List (Call H K) :=
  (List.range n).map fun i => .next (stations i)

/-- **Reading to the end.**  While reading is permitted and every chunk is here and opens, the
spans yielded are what is left of the window, and then the cursor has finished. -/
theorem reads_to_end (stations : ℕ → Station H K)
    (hstations : ∀ i, Honest content (stations i) ∧ Readable content (stations i))
    (hwithin : Within content self) (leases : Leases H) :
    ∃ (spans : List PlaintextSpan) (answers : List Answer) (cursor : ContentCursor)
        (leases' : Leases H),
      Machine.run Reader.step ⟨some self, leases⟩ (steps stations spans.length) =
        some (answers, ⟨some cursor, leases'⟩) ∧
      answers.map Answer.span = spans.map some ∧
      Bytes.join (spans.map PlaintextSpan.bytes) = content.between self.position self.end_ ∧
      cursor.next (stations spans.length) leases' = (.finished cursor, leases') := by
  -- the induction is on what is left of the window, which every span takes from
  induction hleft : self.end_ - self.position using Nat.strong_induction_on
    generalizing self leases stations with
  | h left ih =>
    obtain ⟨hhonest, hreadable⟩ := hstations 0
    rcases hwithin.le_end.lt_or_eq with hlt | heq
    · have hspec := next_spec self (stations 0) leases
      obtain ⟨cursor, span, hyielded⟩ := hspec.exists_span hwithin hhonest hreadable hlt
      rw [hyielded] at hspec
      have hlaw := hspec.spanLaw hwithin hhonest
      have hcursor := hspec.within hwithin hhonest rfl
      have hend := (hspec.sameWindow rfl).end_
      have hnonempty := hlaw.nonempty
      have hle := hlaw.le_end
      have hoffset := hlaw.offset
      have hmoved := hlaw.moved
      obtain ⟨spans, answers, last, leases', hrun, hanswers, hjoin, hfinished⟩ :=
        ih (cursor.end_ - cursor.position) (by omega) (fun i => stations (i + 1))
          (fun i => hstations (i + 1)) hcursor (self.next (stations 0) leases).2 rfl
      refine ⟨span :: spans, .advance (.yielded cursor span) :: answers, last, leases', ?_, ?_, ?_,
        hfinished⟩
      · rw [steps, List.length_cons, List.range_succ_eq_map, List.map_cons, List.map_map]
        refine Machine.run_cons.mpr ⟨_, _, _, Reader.step_next.mpr ⟨self, rfl, ?_, ?_⟩, hrun, rfl⟩
        · rw [hyielded]
        · rw [hyielded]
          rfl
      · rw [List.map_cons, List.map_cons, hanswers]
        rfl
      · rw [List.map_cons, Bytes.join_cons, hjoin, hlaw.exact, hmoved, hend, hoffset]
        exact between_append (by omega) (by omega) content
    · refine ⟨[], [], self, leases, rfl, rfl, ?_, ?_⟩
      · rw [heq]
        apply Bytes.ext
        rw [CommittedContent.between, Nat.sub_self]
        rfl
      · rw [List.length_nil, next, hreadable.authorize]
        dsimp only
        rw [if_pos heq.ge]

/-! ## Readiness -/

/-- A chunk that is here when a later call looks is one that was here before, and it is read
rather than missed. -/
structure KeepsResident (descriptor : ContentDescriptor) (station later : Station H K) : Prop where
  isResident : later.isResident = station.isResident
  opens : ∀ key index, station.isResident (chunkSlot descriptor index) = some true →
    later.openResidentChunk descriptor key (chunkSlot descriptor index) ≠ .error .notResident

omit [DecidableEq H] in
/-- A probe that finds no hole finds every chunk it looks for. -/
theorem isResident_of_probe {descriptor : ContentDescriptor} {indices : List ℕ}
    (h : probe descriptor station indices = .resident) {index : UInt32}
    (hmem : index.toNat ∈ indices) :
    station.isResident (chunkSlot descriptor index) = some true := by
  induction indices with
  | nil => exact absurd hmem List.not_mem_nil
  | cons n rest ih =>
      rw [probe] at h
      cases hindex : toIndex n with
      | none =>
          rw [hindex] at h
          cases h
      | some i =>
          rw [hindex] at h
          dsimp only at h
          cases hresident : station.isResident (chunkSlot descriptor i) with
          | none =>
              rw [hresident] at h
              cases h
          | some here =>
              rw [hresident] at h
              cases here with
              | false => cases h
              | true =>
                  rcases List.mem_cons.mp hmem with rfl | hmem
                  · obtain ⟨-, hi⟩ := toIndex_eq_some.mp hindex
                    rw [← UInt32.toNat_inj.mp hi]
                    exact hresident
                  · exact ih h hmem

omit [DecidableEq H] in
/-- What a span found resident says of the chunk at a position in it. -/
theorem isResident_of_readiness {offset len : ℕ}
    (h : self.readiness station offset len = .resident)
    (hin : offset ≤ cursor.position ∧ cursor.position < offset + len)
    (hwithin : Within content cursor) (hsame : SameWindow self cursor) {index : UInt32} {within : ℕ}
    (hplace : cursor.place = some (index, within)) (hlt : cursor.position < cursor.end_) :
    station.isResident (chunkSlot self.descriptor index) = some true := by
  obtain ⟨hpos, hindex, -, -⟩ := place_eq_some.mp hplace
  rw [hsame.descriptor] at hpos hindex
  have hend := hwithin.end_le
  have hle := content.length_le
  rw [← hwithin.descriptor, hsame.descriptor] at hend hle
  unfold readiness at h
  cases hauthorize : station.authorize with
  | error demand =>
      rw [hauthorize] at h
      cases h
  | ok =>
      rw [hauthorize] at h
      dsimp only at h
      split at h
      next => cases h
      next =>
        rw [if_neg (by omega), if_neg (by omega)] at h
        refine isResident_of_probe h ?_
        rw [hindex, List.mem_range'_1]
        have hfirst : offset / self.descriptor.chunkPlaintextLen ≤
            cursor.position / self.descriptor.chunkPlaintextLen := Nat.div_le_div_right hin.1
        have hlast : cursor.position / self.descriptor.chunkPlaintextLen ≤
            (min (min (offset + len) U64_MAX) self.descriptor.plaintextLen - 1) /
              self.descriptor.chunkPlaintextLen := Nat.div_le_div_right (by omega)
        omega

/-- **A span found resident is not missed later.** -/
theorem not_blocked_of_resident {later : Station H K} {offset len : ℕ}
    (h : self.readiness station offset len = .resident)
    (hkeeps : KeepsResident self.descriptor station later)
    (hin : offset ≤ cursor.position ∧ cursor.position < offset + len)
    (hwithin : Within content cursor) (hsame : SameWindow self cursor) (leases : Leases H)
    (after : ContentCursor) (gap : Gap) : (cursor.next later leases).1 ≠ .blocked after gap := by
  intro hblocked
  have hspec := next_spec cursor later leases
  rw [hblocked] at hspec
  generalize (cursor.next later leases).2 = leases' at hspec
  generalize hadvance : Advance.blocked after gap = advance at hspec
  cases hspec with
  | finished hend => cases hadvance
  | refused failure hstopped => cases hadvance
  | @absent index within hunfinished hplace habsent =>
      rw [hsame.descriptor, hkeeps.isResident] at habsent
      cases habsent.symm.trans (isResident_of_readiness h hin hwithin hsame hplace hunfinished)
  | @evicted key index within hreaches hevicted =>
      rw [hsame.descriptor] at hevicted
      exact hkeeps.opens key index (isResident_of_readiness h hin hwithin hsame hreaches.place
        hreaches.unfinished) hevicted
  | broken hreaches failure hunopened => cases hadvance
  | yielded hreaches hopened => cases hadvance

end ContentCursor

/-! ## The law of reads -/

open ContentCursor

/-- **What any calls keep**: the window, and the position in it. -/
theorem Reader.run_within {opened cursor : ContentCursor} {leases : Leases H} {reader : Reader H}
    {calls : List (Call H K)} {answers : List Answer} (hopened : Within content opened)
    (hhonest : ∀ call ∈ calls, call.Honest content)
    (hrun : Machine.run Reader.step ⟨some opened, leases⟩ calls = some (answers, reader))
    (hcursor : reader.cursor = some cursor) : Within content cursor ∧ SameWindow opened cursor := by
  refine Machine.invariant (P := fun reader : Reader H => ∀ cursor, reader.cursor = some cursor →
    Within content cursor ∧ SameWindow opened cursor) ?_ ?_ hrun cursor hcursor
  · intro before call hcall answer after hbefore hstep cursor hcursor
    cases call with
    | next station =>
        obtain ⟨self, hself, -, rfl⟩ := Reader.step_next.mp hstep
        obtain ⟨hwithin, hsame⟩ := hbefore self hself
        have hspec := next_spec self station before.leases
        exact ⟨hspec.within hwithin (hhonest _ hcall) hcursor,
          hsame.trans (hspec.sameWindow hcursor)⟩
    | seek offset =>
        obtain ⟨self, hself, -, rfl⟩ := Reader.step_seek.mp hstep
        obtain ⟨hwithin, hsame⟩ := hbefore self hself
        cases hcursor
        exact ⟨seek_within hwithin offset, hsame.trans (seek_sameWindow self offset)⟩
    | drop station =>
        obtain ⟨self, hself, -, rfl⟩ := Reader.step_drop.mp hstep
        cases hcursor
    | supply work =>
        obtain ⟨-, rfl⟩ := Reader.step_supply.mp hstep
        exact hbefore cursor hcursor
  · intro cursor hcursor
    cases hcursor
    exact ⟨hopened, SameWindow.refl opened⟩

/-- What a cursor answers, whatever each call meets, and what it answers while nothing
changes. -/
structure ReadLaw (H K : Type) [ContentDigests H] [DecidableEq H] (content : CommittedContent)
    (cursor : ContentCursor) : Prop where
  yields : ∀ (station : Station H K) leases after span, Honest content station →
    (cursor.next station leases).1 = .yielded after span → SpanLaw content cursor after span
  blocks : ∀ (station : Station H K) leases after gap,
    (cursor.next station leases).1 = .blocked after gap → after.position = cursor.position
  finishes : ∀ (station : Station H K) leases after,
    (cursor.next station leases).1 = .finished after →
      after = cursor ∧ cursor.position = cursor.end_
  moves : ∀ offset, cursor.start ≤ offset → offset ≤ cursor.end_ →
    cursor.seek offset = .moved { cursor with position := offset }
  outside : ∀ offset, offset < cursor.start ∨ cursor.end_ < offset →
    cursor.seek offset = .outside cursor
  completes : ∀ stations : ℕ → Station H K,
    (∀ i, Honest content (stations i) ∧ Readable content (stations i)) → ∀ leases,
      ∃ (spans : List PlaintextSpan) (answers : List Answer) (last : ContentCursor)
          (leases' : Leases H),
        Machine.run Reader.step ⟨some cursor, leases⟩ (steps stations spans.length) =
          some (answers, ⟨some last, leases'⟩) ∧
        answers.map Answer.span = spans.map some ∧
        Bytes.join (spans.map PlaintextSpan.bytes) =
          content.between cursor.position cursor.end_ ∧
        last.next (stations spans.length) leases' = (.finished last, leases')
  ready : ∀ (station : Station H K) offset len,
    cursor.readiness station offset len = .resident →
    ∀ (calls : List (Call H K)) answers leases reader later,
      (∀ call ∈ calls, call.Honest content) →
      Machine.run Reader.step ⟨some cursor, leases⟩ calls = some (answers, reader) →
      reader.cursor = some later → offset ≤ later.position → later.position < offset + len →
      ∀ station' leases', KeepsResident content.descriptor station station' →
        ∀ after gap, (later.next station' leases').1 ≠ .blocked after gap

/-- **Reads are exact.** -/
theorem reads_exact {ref : Bytes} {entropy : Option Bytes} {offset len : ℕ}
    {opened cursor : ContentCursor} {leases : Leases H} {reader : Reader H}
    {calls : List (Call H K)} {answers : List Answer}
    (hopen : openRange ref (.ok content.descriptor) entropy offset len = .ok opened)
    (hhonest : ∀ call ∈ calls, call.Honest content)
    (hrun : Machine.run Reader.step ⟨some opened, leases⟩ calls = some (answers, reader))
    (hcursor : reader.cursor = some cursor) :
    cursor.start = offset ∧ cursor.end_ = min (offset + len) content.descriptor.plaintextLen ∧
      cursor.start ≤ cursor.position ∧ cursor.position ≤ cursor.end_ ∧
      ReadLaw H K content cursor := by
  obtain ⟨hopened, -, hstart, hend⟩ := openRange_spec hopen
  obtain ⟨hwithin, hsame⟩ := Reader.run_within hopened hhonest hrun hcursor
  refine ⟨hsame.start.trans hstart, hsame.end_.trans hend, hwithin.start_le, hwithin.le_end,
    ?_, ?_, ?_, ?_, ?_, ?_, ?_⟩
  · intro station leases after span honest hyielded
    have hspec := next_spec cursor station leases
    rw [hyielded] at hspec
    exact hspec.spanLaw hwithin honest
  · intro station leases after gap hblocked
    have hspec := next_spec cursor station leases
    rw [hblocked] at hspec
    exact hspec.position_of_blocked
  · intro station leases after hfinished
    have hspec := next_spec cursor station leases
    rw [hfinished] at hspec
    exact ⟨hspec.of_finished.1, le_antisymm hwithin.le_end hspec.of_finished.2⟩
  · intro target hle hge
    rw [seek, if_neg (by omega)]
  · intro target hout
    rw [seek, if_pos hout]
  · exact fun stations hstations leases => reads_to_end stations hstations hwithin leases
  · intro station start length hready calls answers leases reader later honest hlater hlast hle
      hlt station' leases' hkeeps after gap
    obtain ⟨hwithin', hsame'⟩ := Reader.run_within hwithin honest hlater hlast
    exact not_blocked_of_resident hready (hwithin.descriptor ▸ hkeeps) ⟨hle, hlt⟩ hwithin' hsame'
      leases' after gap

/-- Three bytes in chunks of two. -/
def threeBytes : CommittedContent where
  descriptor := {
    formatVersion := 1, space := ⟨[]⟩, contentNonce := ⟨[]⟩, plaintextLen := 3
    chunkPlaintextLen := 2, chunkCount := 2, ciphertextMerkleRoot := ⟨[]⟩, epoch := ⟨[]⟩ }
  plaintext := ⟨[1, 2, 3]⟩
  chunk_pos := by decide
  length_eq := rfl
  count_eq := rfl
  length_le := by decide
  count_lt := by decide

/-- A station that holds both chunks. -/
def holdsThreeBytes : Station Bytes Unit where
  authorize := .ok ()
  openingKey _ := some ()
  isResident _ := some true
  openResidentChunk descriptor _ slot :=
    .ok (if slot = @chunkSlot _ plainContentDigests descriptor 0 then ⟨[1, 2]⟩ else ⟨[3]⟩)
  hold := .held
  releaseEntry := true
  sticks _ := false
  request := .fetching

/-- A cursor over all of it, before and after the first chunk was read. -/
def overThreeBytes (position : ℕ) (held : Option UInt32) : ContentCursor where
  content := ⟨[]⟩
  descriptor := threeBytes.descriptor
  operation := ⟨[7]⟩
  start := 0
  end_ := 3
  position := position
  asked := false
  held := held

/-- The law for three bytes in chunks of two, after the first chunk was read. -/
theorem reads_exact_three :
    let _ := plainContentDigests
    ReadLaw Bytes Unit threeBytes (overThreeBytes 2 (some 0)) := by
  intro digests
  have hhonest : ∀ call ∈ [Call.next holdsThreeBytes], Call.Honest threeBytes call := by
    intro call hcall
    cases List.mem_singleton.mp hcall
    intro key index chunk hindex hopen
    cases hopen
    have htwo : index.toNat < 2 := hindex
    have hcases : index = 0 ∨ index = 1 := by
      rw [← UInt32.toNat_inj, ← UInt32.toNat_inj]
      simp only [UInt32.toNat_zero, UInt32.toNat_one]
      omega
    rcases hcases with rfl | rfl
    · decide
    · decide
  have hopen : openRange ⟨[]⟩ (.ok threeBytes.descriptor) (some ⟨[7]⟩) 0 U64_MAX =
      .ok (overThreeBytes 0 none) := rfl
  have hrun : Machine.run Reader.step (⟨some (overThreeBytes 0 none), ∅⟩ : Reader Bytes)
      [.next holdsThreeBytes] =
        some ([.advance (.yielded (overThreeBytes 2 (some 0)) ⟨0, ⟨[1, 2]⟩⟩)],
          ⟨some (overThreeBytes 2 (some 0)),
            {(⟨[7]⟩, chunkSlot threeBytes.descriptor 0)}⟩) := by
    decide +kernel
  exact (reads_exact hopen hhonest hrun rfl).2.2.2.2

end Lait.Runtime.Cursor
