import Lait.Machine
import Lait.Replica.Ingest

/-!
# A cursor over one content

A `ContentCursor` is a position in a window of one content.  A step reads at most one
chunk: it asks for permission and for the epoch key, looks whether the chunk at the
position is here, takes a lease on it, opens it, and yields what of it lies in the window.
A chunk that is not here is asked for and leaves the position where it was; anything else
that stops a step consumes the cursor.

What a call meets outside the cursor is a `Station`: the policy presented at the call, and
how the cache and the supply answer during it.  Only the leases are state, since a cursor
takes and releases them; `Reader` is a cursor, if it is not consumed, over the leases.

The supply is asked under the cursor's own operation id, and goes to work on a thread of its
own: its fetch holds what it installs for that operation, and at its end releases all the
operation holds.  These are calls of the run as well (`Supply`), before, between and after
those on the cursor; one that falls into a call on the cursor leaves the leases it would
leave before or after it.

Positions and lengths are `u64`, indices `u32`, and a `usize` has 64 bits.
-/

namespace Lait.Runtime.Cursor

open Replica

/-- `u64::MAX`. -/
def U64_MAX : ℕ := 18446744073709551615

/-! ## Failures and answers -/

/-- What opening a chunk answers when it does not open. -/
inductive Invalid
  | notResident
  | unopenable
  | content (invalid : ContentInvalid)
  deriving DecidableEq

/-- The local resource that prevented a content operation from completing. -/
inductive Storage
  | keyUnavailable
  | input
  | replica
  | cache
  | encoding
  deriving DecidableEq

inductive Failure
  | denied (demand : Bytes)
  | unknown
  | notResident
  | sealed
  | bounds
  | storage (storage : Storage)
  | invalid (invalid : Invalid)
  deriving DecidableEq

namespace Failure

/-- `From<ContentInvalid>`. -/
def ofInvalid : Invalid → Failure
  | .notResident => .notResident
  | .content .geometry => .bounds
  | other => .invalid other

/-- Whether fetching could change this answer. -/
def fetchable (self : Failure) : Bool := self = .notResident

end Failure

/-- Fetching changes nothing but an absence. -/
theorem fetchable_ofInvalid {invalid : Invalid} :
    (Failure.ofInvalid invalid).fetchable = true ↔ invalid = .notResident := by
  rcases invalid with _ | _ | _ | _ <;> simp [Failure.ofInvalid, Failure.fetchable]

/-- Why the next bytes are not here. -/
inductive Gap
  | fetching
  | unoffered
  | unsupplied
  | refused
  | unasked
  deriving DecidableEq

/-- Verified plaintext, and where in the content it starts. -/
structure PlaintextSpan where
  offset : ℕ
  bytes : Bytes
  deriving DecidableEq

/-- What a span would do if it were read. -/
inductive Readiness
  | resident
  | absent (chunk : UInt32)
  | refused (failure : Failure)
  deriving DecidableEq

/-! ## The cursor -/

/-- A position in one content.  The host and the supply are what a `Station` answers for. -/
structure ContentCursor where
  content : Bytes
  descriptor : ContentDescriptor
  operation : Bytes
  start : ℕ
  end_ : ℕ
  position : ℕ
  asked : Bool
  held : Option UInt32
  deriving DecidableEq

/-- The result of one step. -/
inductive Advance
  | yielded (cursor : ContentCursor) (span : PlaintextSpan)
  | blocked (cursor : ContentCursor) (gap : Gap)
  | finished (cursor : ContentCursor)
  | refused (failure : Failure)
  deriving DecidableEq

/-- The cursor a step leaves, if it leaves one. -/
def Advance.cursor : Advance → Option ContentCursor
  | .yielded cursor _ => some cursor
  | .blocked cursor _ => some cursor
  | .finished cursor => some cursor
  | .refused _ => none

/-- The result of a seek. -/
inductive Seek
  | moved (cursor : ContentCursor)
  | outside (cursor : ContentCursor)
  deriving DecidableEq

def Seek.cursor : Seek → ContentCursor
  | .moved cursor => cursor
  | .outside cursor => cursor

/-- How taking a lease ends.  A failed call may have left the lease: the tag is written
before the directory is synced. -/
inductive Hold
  | held
  | failed (left : Bool)
  deriving DecidableEq

/-- What one call of a cursor meets. -/
structure Station (H K : Type) where
  /-- `policy.authorize`, of reading this content. -/
  authorize : Except Bytes Unit
  /-- `policy.keys.opening_key`. -/
  openingKey : Bytes → Option K
  /-- `cache.is_resident`; a probe that could not be taken has no answer. -/
  isResident : H → Option Bool
  /-- `open_resident_chunk`. -/
  openResidentChunk : ContentDescriptor → K → H → Except Invalid Bytes
  /-- How `cache.hold_operation` ends. -/
  hold : Hold
  /-- Whether `cache.release_operation_entry` succeeds. -/
  releaseEntry : Bool
  /-- Which leases `cache.release_operation` fails to remove. -/
  sticks : H → Bool
  /-- `supply.request`. -/
  request : Gap

/-- The leases operations hold on cache slots. -/
abbrev Leases (H : Type) := Finset (Bytes × H)

variable {H : Type}

/-- `cache.hold_operation`. -/
def holdOperation [DecidableEq H] (leases : Leases H) (operation : Bytes) (slot : H) :
    Hold → Leases H
  | .held => insert (operation, slot) leases
  | .failed left => if left then insert (operation, slot) leases else leases

/-- `cache.release_operation`, less the leases it fails to remove. -/
def releaseOperation (leases : Leases H) (operation : Bytes) (sticks : H → Bool) : Leases H :=
  leases.filter fun lease => lease.1 ≠ operation ∨ sticks lease.2

section

variable [DecidableEq H] {leases : Leases H} {operation : Bytes} {lease : Bytes × H}

theorem mem_holdOperation {slot : H} {hold : Hold} :
    lease ∈ holdOperation leases operation slot hold ↔
      lease ∈ leases ∨ hold ≠ .failed false ∧ lease = (operation, slot) := by
  cases hold with
  | held => simp [holdOperation, or_comm]
  | failed left => cases left <;> simp [holdOperation, or_comm]

omit [DecidableEq H] in
theorem mem_releaseOperation {sticks : H → Bool} :
    lease ∈ releaseOperation leases operation sticks ↔
      lease ∈ leases ∧ (lease.1 ≠ operation ∨ sticks lease.2) :=
  Finset.mem_filter

end

/-- What a fetch does to the leases of the operation it runs under, which for the supply of a
cursor is the cursor's own. -/
inductive Supply (H : Type)
  /-- `install_chunk`: the transfer's hold, always. -/
  | install (operation : Bytes) (slot : H) (hold : Hold)
  /-- `TransferHandle::succeed`, `finish` and `drop`. -/
  | finish (operation : Bytes) (sticks : H → Bool)

def Supply.apply [DecidableEq H] (leases : Leases H) : Supply H → Leases H
  | .install operation slot hold => holdOperation leases operation slot hold
  | .finish operation sticks => releaseOperation leases operation sticks

/-- `bytes.get(start..stop)`. -/
def get (bytes : Bytes) (start stop : ℕ) : Option Bytes :=
  if start ≤ stop ∧ stop ≤ bytes.length then some ⟨(bytes.data.drop start).take (stop - start)⟩
  else none

namespace ContentCursor

variable {H K : Type} [ContentDigests H] [DecidableEq H]

/-- Open a cursor over a window, clamped to the content, if the descriptor can be read and
entropy for the cursor's own name can be had. -/
def openRange (content : Bytes) (descriptorOf : Except Failure ContentDescriptor)
    (entropy : Option Bytes) (offset len : ℕ) : Except Failure ContentCursor := do
  let descriptor ← descriptorOf
  if descriptor.plaintextLen < offset then .error .bounds
  else
    match entropy with
    | none => .error (.invalid (.content .protection))
    | some operation =>
        .ok {
          content, descriptor, operation
          start := offset
          end_ := min (min (offset + len) U64_MAX) descriptor.plaintextLen
          position := offset
          asked := false
          held := none }

/-- Move to an absolute position. -/
def seek (self : ContentCursor) (offset : ℕ) : Seek :=
  if offset < self.start ∨ self.end_ < offset then .outside self
  else .moved { self with position := offset }

/-- `u32::try_from`. -/
def toIndex (index : ℕ) : Option UInt32 :=
  if index < 4294967296 then some (UInt32.ofNat index) else none

/-- Look for the first of some chunks that is not here. -/
def probe (descriptor : ContentDescriptor) (station : Station H K) : List ℕ → Readiness
  | [] => .resident
  | index :: rest =>
      match toIndex index with
      | none => .refused .bounds
      | some index =>
          match station.isResident (chunkSlot descriptor index) with
          | some true => probe descriptor station rest
          | some false => .absent index
          | none => .refused (.storage .cache)

/-- Whether a span could be read, without reading it. -/
def readiness (self : ContentCursor) (station : Station H K) (offset len : ℕ) : Readiness :=
  match station.authorize with
  | .error demand => .refused (.denied demand)
  | .ok () =>
      if station.openingKey self.descriptor.epoch = none then .refused .sealed
      else if self.descriptor.plaintextLen < offset then .refused .bounds
      else
        let stop := min (min (offset + len) U64_MAX) self.descriptor.plaintextLen
        let chunkLen := self.descriptor.chunkPlaintextLen
        if stop ≤ offset then .resident
        else if chunkLen = 0 then .refused .bounds
        else
          probe self.descriptor station
            (List.range' (offset / chunkLen) ((stop - 1) / chunkLen + 1 - offset / chunkLen))

/-- The chunk the position is in, and where in it. -/
def place (self : ContentCursor) : Option (UInt32 × ℕ) :=
  if self.descriptor.chunkPlaintextLen = 0 then none
  else
    match toIndex (self.position / self.descriptor.chunkPlaintextLen) with
    | none => none
    | some index =>
        if self.descriptor.chunkCount ≤ index.toNat then none
        else some (index, self.position % self.descriptor.chunkPlaintextLen)

/-- Release the lease on the chunk before the one being read. -/
def releaseHeld (self : ContentCursor) (station : Station H K) (leases : Leases H) : Leases H :=
  match self.held with
  | none => leases
  | some previous =>
      if station.releaseEntry then
        leases.erase (self.operation, chunkSlot self.descriptor previous)
      else leases

/-- Hold the chunk being read, and let go of the one before it. -/
def hold (self : ContentCursor) (station : Station H K) (leases : Leases H) (index : UInt32) :
    ContentCursor × Leases H :=
  if self.held = some index then (self, leases)
  else
    let leases := holdOperation (self.releaseHeld station leases) self.operation
      (chunkSlot self.descriptor index) station.hold
    match station.hold with
    | .held => ({ self with held := some index }, leases)
    | .failed _ => (self, leases)

/-- Letting go of a cursor.  The supply is told, and may still be at work. -/
def drop (self : ContentCursor) (station : Station H K) (leases : Leases H) : Leases H :=
  if !self.asked && self.held.isNone then leases
  else releaseOperation leases self.operation station.sticks

/-- Asking starts a fetch of the chunk under the cursor's operation, or finds one at work. -/
def ask (self : ContentCursor) (station : Station H K) : Advance :=
  .blocked { self with asked := true } station.request

/-- A refusal consumes the cursor. -/
def refuse (self : ContentCursor) (station : Station H K) (leases : Leases H)
    (failure : Failure) : Advance × Leases H :=
  (.refused failure, self.drop station leases)

/-- The rest of a step, over an opened chunk. -/
def yieldFrom (self : ContentCursor) (station : Station H K) (leases : Leases H)
    (plaintext : Bytes) (within : ℕ) : Advance × Leases H :=
  let take := min (self.end_ - self.position) (plaintext.length - within)
  match get plaintext within (within + take) with
  | none => self.refuse station leases .bounds
  | some bytes =>
      if bytes.length = 0 then self.refuse station leases .bounds
      else
        (.yielded { self with position := min (self.position + take) U64_MAX }
          ⟨self.position, bytes⟩, leases)

/-- The rest of a step, over a chunk that is here. -/
def read (self : ContentCursor) (station : Station H K) (leases : Leases H) (key : K)
    (index : UInt32) (within : ℕ) : Advance × Leases H :=
  let (self, leases) := self.hold station leases index
  match station.openResidentChunk self.descriptor key (chunkSlot self.descriptor index) with
  | .error invalid =>
      if (Failure.ofInvalid invalid).fetchable then (self.ask station, leases)
      else self.refuse station leases (Failure.ofInvalid invalid)
  | .ok plaintext => self.yieldFrom station leases plaintext within

/-- One step: at most one chunk, verified and opened. -/
def next (self : ContentCursor) (station : Station H K) (leases : Leases H) :
    Advance × Leases H :=
  match station.authorize with
  | .error demand => self.refuse station leases (.denied demand)
  | .ok () =>
      if self.end_ ≤ self.position then (.finished self, leases)
      else
        match station.openingKey self.descriptor.epoch with
        | none => self.refuse station leases .sealed
        | some key =>
            match self.place with
            | none => self.refuse station leases .bounds
            | some (index, within) =>
                match station.isResident (chunkSlot self.descriptor index) with
                | some true => self.read station leases key index within
                | some false => (self.ask station, leases)
                | none => self.refuse station leases (.storage .cache)

end ContentCursor

/-! ## Runs -/

/-- A cursor, until it is consumed, over the leases of the cache. -/
structure Reader (H : Type) where
  cursor : Option ContentCursor
  leases : Leases H
  deriving DecidableEq

/-- A call on a cursor, or one of the supply on the cache. -/
inductive Call (H K : Type)
  | next (station : Station H K)
  | seek (offset : ℕ)
  | drop (station : Station H K)
  | supply (work : Supply H)

/-- What a call answers. -/
inductive Answer
  | advance (advance : Advance)
  | seek (seek : Seek)
  | dropped
  | supplied
  deriving DecidableEq

namespace Reader

variable {H K : Type} [ContentDigests H] [DecidableEq H]

/-- One call.  A consumed cursor takes none, and a supply does not wait for one. -/
def step (self : Reader H) : Call H K → Option (Answer × Reader H)
  | .next station =>
      self.cursor.map fun cursor =>
        let (advance, leases) := cursor.next station self.leases
        (.advance advance, ⟨advance.cursor, leases⟩)
  | .seek offset =>
      self.cursor.map fun cursor =>
        (.seek (cursor.seek offset), ⟨(cursor.seek offset).cursor, self.leases⟩)
  | .drop station =>
      self.cursor.map fun cursor => (.dropped, ⟨none, cursor.drop station self.leases⟩)
  | .supply work => some (.supplied, { self with leases := work.apply self.leases })

variable {self after : Reader H} {station : Station H K} {answer : Answer}

theorem step_next : self.step (.next station) = some (answer, after) ↔
    ∃ cursor, self.cursor = some cursor ∧
      answer = .advance (cursor.next station self.leases).1 ∧
      after = ⟨(cursor.next station self.leases).1.cursor,
        (cursor.next station self.leases).2⟩ := by
  rw [step, Option.map_eq_some_iff]
  constructor
  · rintro ⟨cursor, hcursor, heq⟩
    cases heq
    exact ⟨cursor, hcursor, rfl, rfl⟩
  · rintro ⟨cursor, hcursor, rfl, rfl⟩
    exact ⟨cursor, hcursor, rfl⟩

theorem step_seek {offset : ℕ} :
    self.step (.seek offset : Call H K) = some (answer, after) ↔
      ∃ cursor, self.cursor = some cursor ∧ answer = .seek (cursor.seek offset) ∧
        after = ⟨(cursor.seek offset).cursor, self.leases⟩ := by
  rw [step, Option.map_eq_some_iff]
  constructor
  · rintro ⟨cursor, hcursor, heq⟩
    cases heq
    exact ⟨cursor, hcursor, rfl, rfl⟩
  · rintro ⟨cursor, hcursor, rfl, rfl⟩
    exact ⟨cursor, hcursor, rfl⟩

theorem step_drop : self.step (.drop station) = some (answer, after) ↔
    ∃ cursor, self.cursor = some cursor ∧ answer = .dropped ∧
      after = ⟨none, cursor.drop station self.leases⟩ := by
  rw [step, Option.map_eq_some_iff]
  constructor
  · rintro ⟨cursor, hcursor, heq⟩
    cases heq
    exact ⟨cursor, hcursor, rfl, rfl⟩
  · rintro ⟨cursor, hcursor, rfl, rfl⟩
    exact ⟨cursor, hcursor, rfl⟩

theorem step_supply {work : Supply H} :
    self.step (.supply work : Call H K) = some (answer, after) ↔
      answer = .supplied ∧ after = ⟨self.cursor, work.apply self.leases⟩ := by
  rw [step, Option.some_inj, Prod.mk_inj, eq_comm, @eq_comm _ _ after]

end Reader

/-! ## What one step does -/

namespace ContentCursor

variable {H K : Type} [ContentDigests H] [DecidableEq H] {self : ContentCursor}
  {station : Station H K} {leases : Leases H}

/-- Two cursors over one window, under one name. -/
structure SameWindow (before after : ContentCursor) : Prop where
  content : after.content = before.content
  descriptor : after.descriptor = before.descriptor
  operation : after.operation = before.operation
  start : after.start = before.start
  end_ : after.end_ = before.end_

theorem SameWindow.refl (self : ContentCursor) : SameWindow self self := ⟨rfl, rfl, rfl, rfl, rfl⟩

theorem SameWindow.trans {a b c : ContentCursor} (hab : SameWindow a b) (hbc : SameWindow b c) :
    SameWindow a c where
  content := hbc.content.trans hab.content
  descriptor := hbc.descriptor.trans hab.descriptor
  operation := hbc.operation.trans hab.operation
  start := hbc.start.trans hab.start
  end_ := hbc.end_.trans hab.end_

theorem toIndex_eq_some {n : ℕ} {index : UInt32} :
    toIndex n = some index ↔ n < 4294967296 ∧ index.toNat = n := by
  unfold toIndex
  split
  next hlt =>
    have hindex : (UInt32.ofNat n).toNat = n := UInt32.toNat_ofNat_of_lt' hlt
    constructor
    · intro h
      cases h
      exact ⟨hlt, hindex⟩
    · rintro ⟨-, h⟩
      exact congrArg some (UInt32.toNat_inj.mp (hindex.trans h.symm))
  next hge =>
    constructor
    · intro h
      cases h
    · exact fun h => absurd h.1 hge

/-- A place is the chunk the position is in, if the content has that chunk. -/
theorem place_eq_some {index : UInt32} {within : ℕ} :
    self.place = some (index, within) ↔
      self.descriptor.chunkPlaintextLen ≠ 0 ∧
        index.toNat = self.position / self.descriptor.chunkPlaintextLen ∧
        index.toNat < self.descriptor.chunkCount ∧
        within = self.position % self.descriptor.chunkPlaintextLen := by
  unfold place
  split
  next hzero => simp [hzero]
  next hpos =>
    cases hindex : toIndex (self.position / self.descriptor.chunkPlaintextLen) with
    | none =>
        constructor
        · intro h
          cases h
        · rintro ⟨-, heq, -, -⟩
          have hsome := toIndex_eq_some.mpr ⟨heq ▸ index.toNat_lt, heq⟩
          rw [hindex] at hsome
          cases hsome
    | some i =>
        obtain ⟨-, hi⟩ := toIndex_eq_some.mp hindex
        have heq : index.toNat = self.position / self.descriptor.chunkPlaintextLen ↔ i = index := by
          rw [← hi, UInt32.toNat_inj, eq_comm]
        dsimp only
        split
        next hcount =>
          constructor
          · intro h
            cases h
          · rintro ⟨-, h, hlt, -⟩
            rw [← heq.mp h] at hlt
            exact absurd hlt (not_lt.mpr hcount)
        next hcount =>
          rw [Option.some_inj, Prod.mk_inj]
          constructor
          · rintro ⟨rfl, rfl⟩
            exact ⟨hpos, hi, not_le.mp hcount, rfl⟩
          · rintro ⟨-, h, -, rfl⟩
            exact ⟨heq.mp h, rfl⟩

/-- Holding a chunk moves nothing but the name of the held chunk. -/
theorem hold_fst (self : ContentCursor) (station : Station H K) (leases : Leases H)
    (index : UInt32) :
    (self.hold station leases index).1 =
      { self with held := (self.hold station leases index).1.held } := by
  unfold hold
  split
  · rfl
  · cases station.hold with
    | held => rfl
    | failed left => rfl

/-- What a step gets to: the chunk at the position, permitted, under the key it opens with,
and here. -/
structure Reaches (cursor : ContentCursor) (station : Station H K) (key : K) (index : UInt32)
    (within : ℕ) : Prop where
  authorize : station.authorize = .ok ()
  unfinished : cursor.position < cursor.end_
  openingKey : station.openingKey cursor.descriptor.epoch = some key
  place : cursor.place = some (index, within)
  isResident : station.isResident (chunkSlot cursor.descriptor index) = some true

/-- The span a step yields from an opened chunk. -/
structure Opened (cursor : ContentCursor) (station : Station H K) (key : K) (index : UInt32)
    (within : ℕ) (bytes : Bytes) : Prop where
  chunk : ∃ plaintext,
    station.openResidentChunk cursor.descriptor key (chunkSlot cursor.descriptor index) =
        .ok plaintext ∧
      get plaintext within
        (within + min (cursor.end_ - cursor.position) (plaintext.length - within)) = some bytes
  nonempty : bytes.length ≠ 0

/-- What a step can do: end, refuse before it held anything, find its chunk missing, or hold it
and then read it, miss it or refuse. -/
inductive Next (self : ContentCursor) (station : Station H K) (leases : Leases H) :
    Advance → Leases H → Prop
  | finished (hend : self.end_ ≤ self.position) :
      Next self station leases (.finished self) leases
  | refused (failure : Failure)
      (hstopped : ∀ key index within, ¬ self.Reaches station key index within) :
      Next self station leases (.refused failure) (self.drop station leases)
  | absent {index : UInt32} {within : ℕ} (hunfinished : self.position < self.end_)
      (hplace : self.place = some (index, within))
      (habsent : station.isResident (chunkSlot self.descriptor index) = some false) :
      Next self station leases (self.ask station) leases
  | evicted {key : K} {index : UInt32} {within : ℕ}
      (hreaches : self.Reaches station key index within)
      (hevicted : station.openResidentChunk self.descriptor key
        (chunkSlot self.descriptor index) = .error .notResident) :
      Next self station leases ((self.hold station leases index).1.ask station)
        (self.hold station leases index).2
  | broken {key : K} {index : UInt32} {within : ℕ}
      (hreaches : self.Reaches station key index within) (failure : Failure)
      (hunopened : ∀ bytes, ¬ self.Opened station key index within bytes) :
      Next self station leases (.refused failure)
        ((self.hold station leases index).1.drop station (self.hold station leases index).2)
  | yielded {key : K} {index : UInt32} {within : ℕ} {bytes : Bytes}
      (hreaches : self.Reaches station key index within)
      (hopened : self.Opened station key index within bytes) :
      Next self station leases
        (.yielded
          { (self.hold station leases index).1 with
            position := min (self.position + bytes.length) U64_MAX }
          ⟨self.position, bytes⟩)
        (self.hold station leases index).2

theorem length_get {bytes part : Bytes} {start stop : ℕ} (h : get bytes start stop = some part) :
    part.length = stop - start := by
  unfold get at h
  split at h
  next hin =>
    cases h
    rw [Bytes.length, List.length_take, List.length_drop]
    have hlen : bytes.length = bytes.data.length := rfl
    omega
  next => cases h

/-- The rest of a step over a chunk that is here. -/
theorem read_spec {key : K} {index : UInt32} {within : ℕ}
    (hreaches : self.Reaches station key index within) :
    Next self station leases (self.read station leases key index within).1
      (self.read station leases key index within).2 := by
  have hfst := hold_fst self station leases index
  unfold read
  generalize hhold : self.hold station leases index = held at hfst
  obtain ⟨cursor, taken⟩ := held
  dsimp only at hfst ⊢
  have hcursor : cursor = (self.hold station leases index).1 := by rw [hhold]
  have htaken : taken = (self.hold station leases index).2 := by rw [hhold]
  have hdescriptor : cursor.descriptor = self.descriptor := by rw [hfst]
  have hposition : cursor.position = self.position := by rw [hfst]
  have hend : cursor.end_ = self.end_ := by rw [hfst]
  rw [hdescriptor]
  cases hopen : station.openResidentChunk self.descriptor key
      (chunkSlot self.descriptor index) with
  | error invalid =>
      dsimp only
      split
      next hfetchable =>
        rw [fetchable_ofInvalid] at hfetchable
        rw [hcursor, htaken]
        exact Next.evicted hreaches (hfetchable ▸ hopen)
      next =>
        rw [hcursor, htaken]
        refine Next.broken hreaches _ fun bytes hopened => ?_
        obtain ⟨plaintext, hok, -⟩ := hopened.chunk
        rw [hopen] at hok
        cases hok
  | ok plaintext =>
      dsimp only
      unfold yieldFrom
      dsimp only
      rw [hposition, hend]
      cases hget : get plaintext within
          (within + min (self.end_ - self.position) (plaintext.length - within)) with
      | none =>
          rw [hcursor, htaken]
          refine Next.broken hreaches _ fun bytes hopened => ?_
          obtain ⟨other, hok, hsome⟩ := hopened.chunk
          rw [hopen] at hok
          cases hok
          rw [hget] at hsome
          cases hsome
      | some bytes =>
          dsimp only
          split
          next hempty =>
            rw [hcursor, htaken]
            refine Next.broken hreaches _ fun bytes' hopened => hopened.nonempty ?_
            obtain ⟨other, hok, hsome⟩ := hopened.chunk
            rw [hopen] at hok
            cases hok
            rw [hget] at hsome
            cases hsome
            exact hempty
          next hne =>
            have hlength := length_get hget
            rw [Nat.add_sub_cancel_left] at hlength
            rw [← hlength, ← hend, hcursor, htaken]
            exact Next.yielded hreaches ⟨⟨plaintext, hopen, hget⟩, hne⟩

/-- **What one step does.** -/
theorem next_spec (self : ContentCursor) (station : Station H K) (leases : Leases H) :
    Next self station leases (self.next station leases).1 (self.next station leases).2 := by
  unfold next
  cases hauthorize : station.authorize with
  | error demand =>
      refine Next.refused _ fun key index within h => ?_
      cases hauthorize.symm.trans h.authorize
  | ok =>
      dsimp only
      split
      next hend => exact Next.finished hend
      next hend =>
        cases hkey : station.openingKey self.descriptor.epoch with
        | none =>
            refine Next.refused _ fun key index within h => ?_
            cases hkey.symm.trans h.openingKey
        | some key =>
            dsimp only
            cases hplace : self.place with
            | none =>
                refine Next.refused _ fun key index within h => ?_
                cases hplace.symm.trans h.place
            | some place =>
                obtain ⟨index, within⟩ := place
                dsimp only
                cases hresident : station.isResident (chunkSlot self.descriptor index) with
                | none =>
                    refine Next.refused _ fun key index' within' h => ?_
                    cases hplace.symm.trans h.place
                    cases hresident.symm.trans h.isResident
                | some here =>
                    cases here with
                    | false => exact Next.absent (not_le.mp hend) hplace hresident
                    | true =>
                        exact read_spec ⟨hauthorize, not_le.mp hend, hkey, hplace, hresident⟩

/-- A step leaves the window as it was. -/
theorem Next.sameWindow {advance : Advance} {leases' : Leases H} {cursor : ContentCursor}
    (h : Next self station leases advance leases') (hcursor : advance.cursor = some cursor) :
    SameWindow self cursor := by
  cases h with
  | finished hend =>
      cases hcursor
      exact SameWindow.refl self
  | refused failure hstopped => cases hcursor
  | absent hunfinished hplace habsent =>
      cases hcursor
      exact ⟨rfl, rfl, rfl, rfl, rfl⟩
  | @evicted key index within hreaches hevicted =>
      cases hcursor
      rw [hold_fst]
      exact ⟨rfl, rfl, rfl, rfl, rfl⟩
  | broken hreaches failure hunopened => cases hcursor
  | @yielded key index within bytes hreaches hopened =>
      cases hcursor
      rw [hold_fst]
      exact ⟨rfl, rfl, rfl, rfl, rfl⟩

/-- A seek leaves the window as it was. -/
theorem seek_sameWindow (self : ContentCursor) (offset : ℕ) :
    SameWindow self (self.seek offset).cursor := by
  unfold seek
  split
  · exact SameWindow.refl self
  · exact ⟨rfl, rfl, rfl, rfl, rfl⟩

end ContentCursor

end Lait.Runtime.Cursor
