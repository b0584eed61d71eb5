import Lait.Runtime.CursorReads

/-!
# Leases of a cursor

A cursor holds the chunk it is reading against the sweep: before it opens another chunk it
releases the lease on the one before, takes a lease on the new one, and then names it as
held.  The three can fail separately.  When the lease is not taken the cursor goes on naming
the chunk whose lease it released, and a seek back to that chunk then skips the hold; a lease
that was left by a failed call is on no record.  No call need fail for a named chunk to lose
its lease: a fetch of the supply runs under the cursor's operation, and its end releases all
the operation holds (`stale_hold` has both).

`Call.Steady` is the condition under which neither happens.  It is what one step needs to
keep `Kept`: a named chunk is leased, and a cursor that would let go of nothing has no lease,
nor has one that is gone.  `Call.Releases` is what one step needs to keep the lease the only
one (`Single`).
-/

namespace Lait.Runtime.Cursor

open Replica ContentCursor

variable {H K : Type} [ContentDigests H]

/-- The operation of a cursor has a lease on a chunk. -/
def Leased (self : ContentCursor) (leases : Leases H) (index : UInt32) : Prop :=
  (self.operation, chunkSlot self.descriptor index) ∈ leases

/-- The operation of a cursor has no lease. -/
def Free (self : ContentCursor) (leases : Leases H) : Prop :=
  ∀ slot, (self.operation, slot) ∉ leases

variable [DecidableEq H]

/-! ## The condition -/

/-- A cache that keeps leases straight while a cursor moves on to a chunk: it takes the new
lease, or the chunk does not open and either no lease is on record, and one that is left goes
with what was asked for, or the one on record is not released. -/
def HoldsOrKeeps (self : ContentCursor) (station : Station H K) (key : K) (index : UInt32) : Prop :=
  station.hold = .held ∨
    (self.held = none ∧ (station.hold = .failed false ∨ self.asked = true) ∨
        self.held ≠ none ∧ station.releaseEntry = false) ∧
      ∀ chunk, station.openResidentChunk self.descriptor key (chunkSlot self.descriptor index) ≠
        .ok chunk

/-- The condition on the supply.  It takes a lease of the cursor's operation only for a cursor
that will let go of it, and its fetch ends while no chunk is held, or spares the one that is. -/
def Supply.Spares (opened : ContentCursor) (cursor : Option ContentCursor) : Supply H → Prop
  | .install operation _ hold =>
      operation = opened.operation → hold = .failed false ∨
        ∃ self, cursor = some self ∧ (self.asked = true ∨ self.held ≠ none)
  | .finish operation sticks =>
      operation = opened.operation → ∀ self index, cursor = some self → self.held = some index →
        sticks (chunkSlot self.descriptor index) = true

/-- The condition on one call, in the state before it: where the call gets to another chunk than
the held one, the cache takes the lease, or fails without harm; what is released with the
operation is released; and the supply spares the held chunk. -/
def Call.Steady (opened : ContentCursor) (reader : Reader H) : Call H K → Prop
  | .next station =>
      (∀ self key index within, reader.cursor = some self →
        self.Reaches station key index within → self.held ≠ some index →
          HoldsOrKeeps self station key index) ∧
      ∀ slot, station.sticks slot = false
  | .seek _ => True
  | .drop station => ∀ slot, station.sticks slot = false
  | .supply work => work.Spares opened reader.cursor

/-- The supply takes no second lease of an operation. -/
def Supply.Alone (leases : Leases H) : Supply H → Prop
  | .install operation slot hold =>
      hold = .failed false ∨ ∀ other, (operation, other) ∈ leases → other = slot
  | .finish _ _ => True

/-- The condition that leases are released: the one a cursor moves on from by the cache, and one
the supply took by the supply, before it takes another and before a cursor that holds nothing
gets to another chunk. -/
def Call.Releases (opened : ContentCursor) (reader : Reader H) : Call H K → Prop
  | .next station =>
      station.releaseEntry = true ∧
      ∀ self key index within, reader.cursor = some self →
        self.Reaches station key index within → self.held = none →
          ∀ slot, (opened.operation, slot) ∈ reader.leases → slot = chunkSlot self.descriptor index
  | .seek _ => True
  | .drop _ => True
  | .supply work => work.Alone reader.leases

/-! ## What a hold does -/

section Hold

variable {self : ContentCursor} {station : Station H K} {leases : Leases H} {key : K}
  {index : UInt32}

/-- A cursor that moves on to a chunk names it and has a lease on it, or it names what it named,
and loses no lease. -/
theorem hold_cases (station : Station H K) (leases : Leases H)
    (hsteady : self.held ≠ some index → HoldsOrKeeps self station key index) :
    (self.hold station leases index).1.held = some index ∧
        (self.held = some index ∧ (self.hold station leases index).2 = leases ∨
          (self.hold station leases index).2 =
            insert (self.operation, chunkSlot self.descriptor index)
              (self.releaseHeld station leases)) ∨
      self.hold station leases index =
          (self, holdOperation leases self.operation (chunkSlot self.descriptor index)
            station.hold) ∧
        (self.held = none ∧ (station.hold = .failed false ∨ self.asked = true) ∨
          self.held ≠ none ∧ station.releaseEntry = false) ∧
        ∀ chunk, station.openResidentChunk self.descriptor key (chunkSlot self.descriptor index) ≠
          .ok chunk := by
  unfold hold
  by_cases hheld : self.held = some index
  · rw [if_pos hheld]
    exact Or.inl ⟨hheld, Or.inl ⟨hheld, rfl⟩⟩
  · rw [if_neg hheld]
    cases hhold : station.hold with
    | held => exact Or.inl ⟨rfl, Or.inr rfl⟩
    | failed left =>
        rcases hsteady hheld with htaken | ⟨hkeeps, hclosed⟩
        · cases hhold.symm.trans htaken
        · have hsame : self.releaseHeld station leases = leases := by
            unfold releaseHeld
            rcases hkeeps with ⟨hnone, -⟩ | ⟨-, hfails⟩
            · rw [hnone]
            · rw [hfails]
              cases self.held with
              | none => rfl
              | some previous => rfl
          rw [hsame]
          rw [hhold] at hkeeps
          exact Or.inr ⟨rfl, hkeeps, hclosed⟩

omit [ContentDigests H] [DecidableEq H] in
/-- Letting go of a cursor takes no lease. -/
theorem drop_subset (self : ContentCursor) (station : Station H K) (leases : Leases H) :
    self.drop station leases ⊆ leases := by
  unfold ContentCursor.drop
  split
  · exact Finset.Subset.refl leases
  · exact Finset.filter_subset _ leases

end Hold

/-! ## What a run keeps -/

/-- What a cursor has on record is what its operation has leased. -/
structure Kept (opened cursor : ContentCursor) (leases : Leases H) : Prop where
  sameWindow : SameWindow opened cursor
  held : ∀ index, cursor.held = some index → Leased opened leases index
  idle : cursor.held = none → cursor.asked = false → Free opened leases

/-- An operation has one lease at most. -/
def Single (operation : Bytes) (leases : Leases H) : Prop :=
  ∀ slot slot', (operation, slot) ∈ leases → (operation, slot') ∈ leases → slot = slot'

omit [ContentDigests H] [DecidableEq H] in
theorem Single.subset {operation : Bytes} {leases leases' : Leases H}
    (h : Single operation leases) (hsubset : leases' ⊆ leases) : Single operation leases' :=
  fun slot slot' hslot hslot' => h slot slot' (hsubset hslot) (hsubset hslot')

omit [ContentDigests H] [DecidableEq H] in
theorem Single.of_eq {operation : Bytes} {leases : Leases H} (only : H)
    (h : ∀ slot, (operation, slot) ∈ leases → slot = only) : Single operation leases :=
  fun slot slot' hslot hslot' => (h slot hslot).trans (h slot' hslot').symm

/-- What a reader keeps, with its cursor and after it. -/
structure KeptReader (opened : ContentCursor) (reader : Reader H) : Prop where
  kept : ∀ cursor, reader.cursor = some cursor → Kept opened cursor reader.leases
  gone : reader.cursor = none → Free opened reader.leases

section Step

variable {opened self cursor : ContentCursor} {station : Station H K} {leases leases' : Leases H}
  {key : K} {index : UInt32} {within : ℕ} {advance : Advance} {span : PlaintextSpan}

omit [DecidableEq H] in
/-- What is on record does not depend on the position, and asking keeps it. -/
theorem Kept.of_held (h : Kept opened self leases) (hsame : SameWindow opened cursor)
    (hheld : cursor.held = self.held) (hasked : cursor.asked = false → self.asked = false) :
    Kept opened cursor leases :=
  ⟨hsame, fun index hindex => h.held index (hheld ▸ hindex),
    fun hnone hidle => h.idle (hheld ▸ hnone) (hasked hidle)⟩

theorem hold_sameWindow (self : ContentCursor) (station : Station H K) (leases : Leases H)
    (index : UInt32) : SameWindow self (self.hold station leases index).1 := by
  rw [hold_fst]
  exact ⟨rfl, rfl, rfl, rfl, rfl⟩

/-- **Moving on keeps the record.** -/
theorem Kept.hold (h : Kept opened self leases)
    (hsteady : self.held ≠ some index → HoldsOrKeeps self station key index) :
    Kept opened (self.hold station leases index).1 (self.hold station leases index).2 := by
  have hsame := h.sameWindow.trans (hold_sameWindow self station leases index)
  rcases hold_cases station leases hsteady with ⟨hheld, hleases⟩ | ⟨hfailed, hkeeps, -⟩
  · refine ⟨hsame, fun other hother => ?_, fun hnone => ?_⟩
    · cases hheld.symm.trans hother
      rcases hleases with ⟨hbefore, hleases⟩ | hleases
      · rw [hleases]
        exact h.held index hbefore
      · rw [hleases, Leased, ← h.sameWindow.operation, ← h.sameWindow.descriptor]
        exact Finset.mem_insert_self _ _
    · cases hheld.symm.trans hnone
  · rw [hfailed]
    refine ⟨h.sameWindow, fun other hother => ?_, fun hnone hidle slot hmem => ?_⟩
    · exact mem_holdOperation.mpr (Or.inl (h.held other hother))
    · rcases hkeeps with ⟨-, hnothing | hasked⟩ | ⟨hsome, -⟩
      · rcases mem_holdOperation.mp hmem with hbefore | ⟨hleft, -⟩
        · exact h.idle hnone hidle slot hbefore
        · exact hleft hnothing
      · cases hidle.symm.trans hasked
      · exact hsome hnone

/-- Moving on keeps the one lease the only one, if the one before is released. -/
theorem Single.hold (h : Single opened.operation leases) (hkept : Kept opened self leases)
    (hsteady : self.held ≠ some index → HoldsOrKeeps self station key index)
    (hreleases : station.releaseEntry = true)
    (halone : self.held = none →
      ∀ slot, (opened.operation, slot) ∈ leases → slot = chunkSlot self.descriptor index) :
    Single opened.operation (self.hold station leases index).2 := by
  rcases hold_cases station leases hsteady with
    ⟨hheld, ⟨-, hleases⟩ | hleases⟩ | ⟨hfailed, hkeeps, -⟩
  · rw [hleases]
    exact h
  · rw [hleases]
    refine Single.of_eq (chunkSlot self.descriptor index) fun slot hmem => ?_
    rcases Finset.mem_insert.mp hmem with hnew | hmem
    · exact (Prod.mk.inj hnew).2
    · unfold releaseHeld at hmem
      cases hprevious : self.held with
      | none =>
          rw [hprevious] at hmem
          exact halone hprevious slot hmem
      | some previous =>
          rw [hprevious, hreleases] at hmem
          obtain ⟨hne, hmem⟩ := Finset.mem_erase.mp hmem
          have honly := h _ _ hmem (hkept.held previous hprevious)
          rw [honly, hkept.sameWindow.operation, hkept.sameWindow.descriptor] at hne
          exact absurd rfl hne
  · rw [hfailed]
    rcases hkeeps with ⟨hnone, -⟩ | ⟨-, hfails⟩
    · refine Single.of_eq (chunkSlot self.descriptor index) fun slot hmem => ?_
      rcases mem_holdOperation.mp hmem with hbefore | ⟨-, hnew⟩
      · exact halone hnone slot hbefore
      · exact (Prod.mk.inj hnew).2
    · cases hfails.symm.trans hreleases

omit [DecidableEq H] in
/-- Letting go of a cursor leaves no lease. -/
theorem Kept.free_drop (h : Kept opened self leases)
    (hsticks : ∀ slot, station.sticks slot = false) :
    Free opened (self.drop station leases) := by
  intro slot hmem
  unfold ContentCursor.drop at hmem
  split at hmem
  next hidle =>
    rw [Bool.and_eq_true, Bool.not_eq_true', Option.isNone_iff_eq_none] at hidle
    exact h.idle hidle.2 hidle.1 slot hmem
  next =>
    obtain ⟨-, hother | hstuck⟩ := mem_releaseOperation.mp hmem
    · exact hother h.sameWindow.operation.symm
    · rw [hsticks] at hstuck
      cases hstuck

/-- **One step keeps the record.** -/
theorem ContentCursor.Next.kept (hnext : self.Next station leases advance leases') (h : Kept opened self leases)
    (hsteady : ∀ key index within, self.Reaches station key index within →
      self.held ≠ some index → HoldsOrKeeps self station key index)
    (hsticks : ∀ slot, station.sticks slot = false) :
    (∀ cursor, advance.cursor = some cursor → Kept opened cursor leases') ∧
      (advance.cursor = none → Free opened leases') := by
  cases hnext with
  | finished hend =>
      refine ⟨fun cursor hcursor => ?_, fun hgone => ?_⟩
      · cases hcursor
        exact h
      · cases hgone
  | refused failure hstopped =>
      refine ⟨fun cursor hcursor => ?_, fun _ => h.free_drop hsticks⟩
      cases hcursor
  | absent hunfinished hplace habsent =>
      refine ⟨fun cursor hcursor => ?_, fun hgone => ?_⟩
      · cases hcursor
        exact h.of_held (h.sameWindow.trans ⟨rfl, rfl, rfl, rfl, rfl⟩) rfl fun hidle =>
          Bool.noConfusion hidle
      · cases hgone
  | evicted hreaches hevicted =>
      refine ⟨fun cursor hcursor => ?_, fun hgone => ?_⟩
      · cases hcursor
        have hhold := h.hold (hsteady _ _ _ hreaches)
        exact hhold.of_held (hhold.sameWindow.trans ⟨rfl, rfl, rfl, rfl, rfl⟩) rfl fun hidle =>
          Bool.noConfusion hidle
      · cases hgone
  | broken hreaches failure hunopened =>
      refine ⟨fun cursor hcursor => ?_, fun _ => (h.hold (hsteady _ _ _ hreaches)).free_drop hsticks⟩
      cases hcursor
  | yielded hreaches hopened =>
      refine ⟨fun cursor hcursor => ?_, fun hgone => ?_⟩
      · cases hcursor
        have hhold := h.hold (hsteady _ _ _ hreaches)
        exact hhold.of_held (hhold.sameWindow.trans ⟨rfl, rfl, rfl, rfl, rfl⟩) rfl id
      · cases hgone

/-- One step keeps the one lease the only one, if the one before is released. -/
theorem ContentCursor.Next.single (hnext : self.Next station leases advance leases')
    (h : Single opened.operation leases) (hkept : Kept opened self leases)
    (hsteady : ∀ key index within, self.Reaches station key index within →
      self.held ≠ some index → HoldsOrKeeps self station key index)
    (hreleases : station.releaseEntry = true)
    (halone : ∀ key index within, self.Reaches station key index within → self.held = none →
      ∀ slot, (opened.operation, slot) ∈ leases → slot = chunkSlot self.descriptor index) :
    Single opened.operation leases' := by
  have hhold : ∀ key index within, self.Reaches station key index within →
      Single opened.operation (self.hold station leases index).2 :=
    fun key index within hreaches => h.hold hkept (hsteady key index within hreaches) hreleases
      (halone key index within hreaches)
  cases hnext with
  | finished hend => exact h
  | refused failure hstopped => exact h.subset (drop_subset self station leases)
  | absent hunfinished hplace habsent => exact h
  | evicted hreaches hevicted => exact hhold _ _ _ hreaches
  | broken hreaches failure hunopened => exact (hhold _ _ _ hreaches).subset (drop_subset _ _ _)
  | yielded hreaches hopened => exact hhold _ _ _ hreaches

/-- **A chunk that was read is held.** -/
theorem ContentCursor.Next.held_of_yielded (hnext : self.Next station leases (.yielded cursor span) leases')
    (hsteady : ∀ key index within, self.Reaches station key index within →
      self.held ≠ some index → HoldsOrKeeps self station key index)
    (hindex : index.toNat = span.offset / self.descriptor.chunkPlaintextLen) :
    cursor.held = some index := by
  cases hnext with
  | @yielded key index' within bytes hreaches hopened =>
      obtain ⟨-, hplace, -, -⟩ := place_eq_some.mp hreaches.place
      obtain rfl : index = index' := UInt32.toNat_inj.mp (hindex.trans hplace.symm)
      rcases hold_cases station leases (hsteady _ _ _ hreaches) with
        ⟨hheld, -⟩ | ⟨-, -, hclosed⟩
      · exact hheld
      · obtain ⟨chunk, hopen, -⟩ := hopened.chunk
        exact absurd hopen (hclosed chunk)

/-- A step that gets to no other chunk leaves the held one held. -/
theorem ContentCursor.Next.held_of_staysOn (hnext : self.Next station leases advance leases')
    (hheld : self.held = some index)
    (hstays : ∀ key other within, self.Reaches station key other within → other = index)
    (hcursor : advance.cursor = some cursor) : cursor.held = some index := by
  have hskip : self.hold station leases index = (self, leases) := by
    rw [ContentCursor.hold, if_pos hheld]
  cases hnext with
  | finished hend =>
      cases hcursor
      exact hheld
  | refused failure hstopped => cases hcursor
  | absent hunfinished hplace habsent =>
      cases hcursor
      exact hheld
  | evicted hreaches hevicted =>
      cases hstays _ _ _ hreaches
      cases hcursor
      rw [hskip]
      exact hheld
  | broken hreaches failure hunopened => cases hcursor
  | yielded hreaches hopened =>
      cases hstays _ _ _ hreaches
      cases hcursor
      rw [hskip]
      exact hheld

end Step

section Run

omit [ContentDigests H] [DecidableEq H] in
/-- A seek leaves the held chunk as it was. -/
theorem held_seek (self : ContentCursor) (offset : ℕ) :
    (self.seek offset).cursor.held = self.held := by
  unfold seek
  split
  · rfl
  · rfl

omit [ContentDigests H] [DecidableEq H] in
/-- A seek asks for nothing. -/
theorem asked_seek (self : ContentCursor) (offset : ℕ) :
    (self.seek offset).cursor.asked = self.asked := by
  unfold seek
  split
  · rfl
  · rfl

/-- An opened cursor holds nothing. -/
theorem held_openRange {content : Bytes} {descriptor : ContentDescriptor} {entropy : Option Bytes}
    {offset len : ℕ} {opened : ContentCursor}
    (hopen : openRange content (.ok descriptor) entropy offset len = .ok opened) :
    opened.held = none := by
  unfold openRange at hopen
  dsimp only [bind, Except.bind] at hopen
  split at hopen
  · cases hopen
  · split at hopen
    · cases hopen
    · cases hopen
      rfl

variable {opened : ContentCursor} {reader after : Reader H} {call : Call H K} {answer : Answer}
  {index : UInt32} {work : Supply H}

/-- A supply that spares the held chunk leaves the record as it is. -/
theorem Kept.supply {self : ContentCursor} {leases : Leases H}
    (h : Kept opened self leases) (hspares : work.Spares opened (some self)) :
    Kept opened self (work.apply leases) := by
  refine ⟨h.sameWindow, fun index hindex => ?_, fun hnone hidle slot hmem => ?_⟩
  · cases work with
    | install operation slot hold => exact mem_holdOperation.mpr (Or.inl (h.held index hindex))
    | finish operation sticks =>
        refine mem_releaseOperation.mpr ⟨h.held index hindex, ?_⟩
        by_cases hown : operation = opened.operation
        · have hsticks := hspares hown self index rfl hindex
          rw [h.sameWindow.descriptor] at hsticks
          exact Or.inr hsticks
        · exact Or.inl (Ne.symm hown)
  · cases work with
    | install operation slot hold =>
        rcases mem_holdOperation.mp hmem with hbefore | ⟨htaken, hnew⟩
        · exact h.idle hnone hidle _ hbefore
        · obtain hnothing | ⟨_, hcursor, hlets⟩ := hspares (Prod.mk.inj hnew).1.symm
          · exact htaken hnothing
          · cases hcursor
            rcases hlets with hasked | hheld
            · cases hidle.symm.trans hasked
            · exact hheld hnone
    | finish operation sticks => exact h.idle hnone hidle slot (mem_releaseOperation.mp hmem).1

/-- A supply that spares a cursor that is gone takes no lease of its operation. -/
theorem Free.supply {leases : Leases H} (h : Free opened leases)
    (hspares : work.Spares opened none) : Free opened (work.apply leases) := by
  intro slot hmem
  cases work with
  | install operation slot hold =>
      rcases mem_holdOperation.mp hmem with hbefore | ⟨htaken, hnew⟩
      · exact h _ hbefore
      · obtain hnothing | ⟨_, hcursor, -⟩ := hspares (Prod.mk.inj hnew).1.symm
        · exact htaken hnothing
        · cases hcursor
  | finish operation sticks => exact h slot (mem_releaseOperation.mp hmem).1

omit [ContentDigests H] in
/-- A supply that takes no second lease leaves none. -/
theorem Single.supply {operation : Bytes} {leases : Leases H} (h : Single operation leases)
    (halone : work.Alone leases) : Single operation (work.apply leases) := by
  cases work with
  | install own slot hold =>
      have honly : ∀ other, hold ≠ .failed false → operation = own →
          (operation, other) ∈ leases → other = slot := by
        rintro other htaken rfl hother
        exact (halone.resolve_left htaken) other hother
      intro first second hfirst hsecond
      rcases mem_holdOperation.mp hfirst with hbefore | ⟨htaken, hnew⟩ <;>
        rcases mem_holdOperation.mp hsecond with hbefore' | ⟨htaken', hnew'⟩
      · exact h first second hbefore hbefore'
      · obtain ⟨hown, rfl⟩ := Prod.mk.inj hnew'
        exact honly first htaken' hown hbefore
      · obtain ⟨hown, rfl⟩ := Prod.mk.inj hnew
        exact (honly second htaken hown hbefore').symm
      · exact (Prod.mk.inj hnew).2.trans (Prod.mk.inj hnew').2.symm
  | finish own sticks => exact h.subset (Finset.filter_subset _ leases)

/-- **One call keeps what a reader keeps.** -/
theorem KeptReader.step (h : KeptReader opened reader) (hsteady : call.Steady opened reader)
    (hstep : reader.step call = some (answer, after)) : KeptReader opened after := by
  cases call with
  | next station =>
      obtain ⟨cursor, hcursor, -, rfl⟩ := Reader.step_next.mp hstep
      obtain ⟨hholds, hsticks⟩ := hsteady
      obtain ⟨hkept, hgone⟩ := (next_spec cursor station reader.leases).kept (h.kept cursor hcursor)
        (fun key index within => hholds cursor key index within hcursor) hsticks
      exact ⟨hkept, hgone⟩
  | seek offset =>
      obtain ⟨cursor, hcursor, -, rfl⟩ := Reader.step_seek.mp hstep
      have hkept := h.kept cursor hcursor
      refine ⟨fun moved hmoved => ?_, fun hgone => ?_⟩
      · cases hmoved
        refine hkept.of_held (hkept.sameWindow.trans (seek_sameWindow cursor offset)) ?_ ?_
        · exact held_seek cursor offset
        · exact fun hidle => (asked_seek cursor offset).symm.trans hidle
      · cases hgone
  | drop station =>
      obtain ⟨cursor, hcursor, -, rfl⟩ := Reader.step_drop.mp hstep
      refine ⟨fun gone hgone => ?_, fun _ => (h.kept cursor hcursor).free_drop hsteady⟩
      cases hgone
  | supply work =>
      obtain ⟨-, rfl⟩ := Reader.step_supply.mp hstep
      refine ⟨fun cursor hcursor => ?_, fun hgone => ?_⟩
      · exact (h.kept cursor hcursor).supply (hcursor ▸ hsteady)
      · exact Free.supply (h.gone hgone) (hgone ▸ hsteady)

/-- What a reader with one lease at most keeps, while leases are released. -/
structure SingleReader (opened : ContentCursor) (reader : Reader H) : Prop
    extends KeptReader opened reader where
  single : Single opened.operation reader.leases

/-- One call keeps it. -/
theorem SingleReader.step (h : SingleReader opened reader)
    (hcall : call.Steady opened reader ∧ call.Releases opened reader)
    (hstep : reader.step call = some (answer, after)) : SingleReader opened after := by
  obtain ⟨hsteady, hreleases⟩ := hcall
  refine ⟨h.toKeptReader.step hsteady hstep, ?_⟩
  cases call with
  | next station =>
      obtain ⟨cursor, hcursor, -, rfl⟩ := Reader.step_next.mp hstep
      exact (next_spec cursor station reader.leases).single h.single (h.kept cursor hcursor)
        (fun key index within => hsteady.1 cursor key index within hcursor) hreleases.1
        (fun key index within => hreleases.2 cursor key index within hcursor)
  | seek offset =>
      obtain ⟨cursor, hcursor, -, rfl⟩ := Reader.step_seek.mp hstep
      exact h.single
  | drop station =>
      obtain ⟨cursor, hcursor, -, rfl⟩ := Reader.step_drop.mp hstep
      exact h.single.subset (drop_subset cursor station reader.leases)
  | supply work =>
      obtain ⟨-, rfl⟩ := Reader.step_supply.mp hstep
      exact h.single.supply hreleases

/-- A call that gets to no chunk but one. -/
def Call.StaysOn (index : UInt32) (reader : Reader H) : Call H K → Prop
  | .next station =>
      ∀ self key other within, reader.cursor = some self → self.Reaches station key other within →
        other = index
  | .seek _ => True
  | .drop _ => True
  | .supply _ => True

/-- What a reader keeps while its cursor stays on a chunk it holds. -/
structure HoldingReader (opened : ContentCursor) (index : UInt32) (reader : Reader H) : Prop
    extends KeptReader opened reader where
  holds : ∀ cursor, reader.cursor = some cursor → cursor.held = some index

/-- One call keeps it. -/
theorem HoldingReader.step (h : HoldingReader opened index reader)
    (hcall : call.Steady opened reader ∧ call.StaysOn index reader)
    (hstep : reader.step call = some (answer, after)) : HoldingReader opened index after := by
  obtain ⟨hsteady, hstays⟩ := hcall
  refine ⟨h.toKeptReader.step hsteady hstep, ?_⟩
  intro later hlater
  cases call with
  | next station =>
      obtain ⟨cursor, hcursor, -, rfl⟩ := Reader.step_next.mp hstep
      exact (next_spec cursor station reader.leases).held_of_staysOn (h.holds cursor hcursor)
        (fun key other within => hstays cursor key other within hcursor) hlater
  | seek offset =>
      obtain ⟨cursor, hcursor, -, rfl⟩ := Reader.step_seek.mp hstep
      cases hlater
      exact (held_seek cursor offset).trans (h.holds cursor hcursor)
  | drop station =>
      obtain ⟨cursor, hcursor, -, rfl⟩ := Reader.step_drop.mp hstep
      cases hlater
  | supply work =>
      obtain ⟨-, rfl⟩ := Reader.step_supply.mp hstep
      exact h.holds later hlater

omit [DecidableEq H] in
/-- A cursor that names no chunk, over a cache without a lease of its operation. -/
theorem SingleReader.start {leases : Leases H} (hheld : opened.held = none)
    (hfree : Free opened leases) : SingleReader opened ⟨some opened, leases⟩ := by
  refine ⟨⟨fun cursor hcursor => ?_, fun hgone => ?_⟩, fun slot slot' hslot => ?_⟩
  · cases hcursor
    refine ⟨SameWindow.refl opened, fun index hindex => ?_, fun _ _ => hfree⟩
    cases hheld.symm.trans hindex
  · cases hgone
  · exact absurd hslot (hfree slot)

end Run

/-! ## The law -/

/-- What holds of the leases of a cursor after some calls: the chunk it names is leased; a chunk
it reads next is leased until it gets to another; while leases were released it has one at
most; and when it is gone it has none. -/
structure LeaseLaw (H K : Type) [ContentDigests H] [DecidableEq H] (opened : ContentCursor)
    (leases : Leases H) (calls : List (Call H K)) (reader : Reader H) : Prop where
  held : ∀ cursor index, reader.cursor = some cursor → cursor.held = some index →
    Leased opened reader.leases index
  read : ∀ (station : Station H K) cursor span after index
      (later : List (Call H K)) answers last, (Call.next station).Steady opened reader →
    reader.step (.next station) = some (.advance (.yielded cursor span), after) →
    index.toNat = span.offset / opened.descriptor.chunkPlaintextLen →
    Machine.Along Reader.step
      (fun reader call => call.Steady opened reader ∧ call.StaysOn index reader) after later →
    Machine.run Reader.step after later = some (answers, last) → last.cursor ≠ none →
      Leased opened last.leases index
  single : Machine.Along Reader.step (fun reader call => call.Releases opened reader)
      ⟨some opened, leases⟩ calls → Single opened.operation reader.leases
  dropped : reader.cursor = none → Free opened reader.leases

/-- What a law says of a reader that keeps its record. -/
theorem KeptReader.read {opened : ContentCursor} {reader after last : Reader H}
    {station : Station H K} {cursor : ContentCursor} {span : PlaintextSpan} {index : UInt32}
    {later : List (Call H K)} {answers : List Answer} (h : KeptReader opened reader)
    (hsteady : (Call.next station).Steady opened reader)
    (hstep : reader.step (.next station) = some (.advance (.yielded cursor span), after))
    (hindex : index.toNat = span.offset / opened.descriptor.chunkPlaintextLen)
    (halong : Machine.Along Reader.step
      (fun reader call => call.Steady opened reader ∧ call.StaysOn index reader) after later)
    (hrun : Machine.run Reader.step after later = some (answers, last))
    (halive : last.cursor ≠ none) : Leased opened last.leases index := by
  have hkept := h.step hsteady hstep
  have hheld : ∀ current, after.cursor = some current → current.held = some index := by
    obtain ⟨self, hself, hanswer, rfl⟩ := Reader.step_next.mp hstep
    intro current hcurrent
    have hspec := next_spec self station reader.leases
    rw [← Answer.advance.inj hanswer] at hspec hcurrent
    cases hcurrent
    rw [← (h.kept self hself).sameWindow.descriptor] at hindex
    exact hspec.held_of_yielded
      (fun key other within => hsteady.1 self key other within hself) hindex
  have hlast : HoldingReader opened index last :=
    Machine.invariant_along (fun before call answer after h hcall => h.step hcall) ⟨hkept, hheld⟩
      halong hrun
  obtain ⟨current, hcurrent⟩ := Option.ne_none_iff_exists'.mp halive
  exact (hlast.kept current hcurrent).held index (hlast.holds current hcurrent)

/-- **A cursor's leases are on its record**, in every run whose calls meet a cache that takes
the leases it is asked for, or fails without harm, and a supply that spares the held chunk. -/
theorem leases_kept {content : Bytes} {descriptor : ContentDescriptor}
    {entropy : Option Bytes} {offset len : ℕ} {opened : ContentCursor} {leases : Leases H}
    {reader : Reader H} {calls : List (Call H K)} {answers : List Answer}
    (hopen : openRange content (.ok descriptor) entropy offset len = .ok opened)
    (hfree : Free opened leases)
    (hsteady : Machine.Along Reader.step (fun reader call => call.Steady opened reader)
      ⟨some opened, leases⟩ calls)
    (hrun : Machine.run Reader.step ⟨some opened, leases⟩ calls = some (answers, reader)) :
    LeaseLaw H K opened leases calls reader := by
  have hstart := SingleReader.start (held_openRange hopen) hfree
  have hkept : KeptReader opened reader :=
    Machine.invariant_along (fun before call answer after h hcall => h.step hcall)
      hstart.toKeptReader hsteady hrun
  refine ⟨?_, ?_, ?_, hkept.gone⟩
  · exact fun cursor index hcursor hheld => (hkept.kept cursor hcursor).held index hheld
  · intro station cursor span after index later answers last hcall hstep hindex halong hlater
    exact hkept.read hcall hstep hindex halong hlater
  · intro hreleases
    have hsingle : SingleReader opened reader :=
      Machine.invariant_along (fun before call answer after h hcall => h.step hcall) hstart
        (Machine.along_and.mpr ⟨hsteady, hreleases⟩) hrun
    exact hsingle.single

/-- A station that has no chunk yet. -/
def missesThreeBytes : Station Bytes Unit :=
  { holdsThreeBytes with isResident := fun _ => some false }

/-- A fetch of one chunk under the operation of a cursor over three bytes. -/
def fetchOf [ContentDigests Bytes] (index : UInt32) : List (Call Bytes Unit) :=
  [.supply (.install ⟨[7]⟩ (chunkSlot threeBytes.descriptor index) .held),
    .supply (.finish ⟨[7]⟩ fun _ => false)]

/-- The law after a chunk was missed, fetched by the supply and read, and the cursor let go. -/
theorem leases_kept_three :
    let _ := plainContentDigests
    LeaseLaw Bytes Unit (overThreeBytes 0 none) ∅
      (.next missesThreeBytes :: fetchOf 0 ++ [.next holdsThreeBytes, .drop holdsThreeBytes])
      ⟨none, ∅⟩ := by
  intro digests
  have hopen : openRange ⟨[]⟩ (.ok threeBytes.descriptor) (some ⟨[7]⟩) 0 U64_MAX =
      .ok (overThreeBytes 0 none) := rfl
  have hrun : Machine.run Reader.step (⟨some (overThreeBytes 0 none), ∅⟩ : Reader Bytes)
      (.next missesThreeBytes :: fetchOf 0 ++ [.next holdsThreeBytes, .drop holdsThreeBytes]) =
        some ([.advance (.blocked { overThreeBytes 0 none with asked := true } .fetching),
          .supplied, .supplied,
          .advance (.yielded { overThreeBytes 2 (some 0) with asked := true } ⟨0, ⟨[1, 2]⟩⟩),
          .dropped], ⟨none, ∅⟩) := by
    decide +kernel
  have hsteady : Machine.Along Reader.step
      (fun reader call => call.Steady (overThreeBytes 0 none) reader)
      (⟨some (overThreeBytes 0 none), ∅⟩ : Reader Bytes)
      (.next missesThreeBytes :: fetchOf 0 ++ [.next holdsThreeBytes, .drop holdsThreeBytes]) := by
    refine ⟨⟨fun self key index within _ _ _ => Or.inl rfl, fun slot => rfl⟩, ?_⟩
    intro answer reader hstep
    cases hstep
    refine ⟨fun _ => Or.inr ⟨_, rfl, Or.inl rfl⟩, ?_⟩
    intro answer reader hstep
    cases hstep
    refine ⟨fun _ self index hself hheld => ?_, ?_⟩
    · cases hself
      cases hheld
    · intro answer reader _
      exact ⟨⟨fun self key index within _ _ _ => Or.inl rfl, fun slot => rfl⟩,
        fun answer reader _ => ⟨fun slot => rfl, fun answer reader _ => trivial⟩⟩
  exact leases_kept hopen (fun slot => Finset.notMem_empty _) hsteady hrun

/-- A station whose cache releases leases and takes none. -/
def takesNoLease : Station Bytes Unit :=
  { holdsThreeBytes with hold := .failed false }

/-- A lease that fails leaves the cursor naming the chunk it released: after a seek back the
cursor reads that chunk without a lease on it.  And where no call fails, the supply's fetch of
the second chunk releases the lease on the first, which the cursor goes on naming. -/
theorem stale_hold :
    let _ := plainContentDigests
    (∃ reader : Reader Bytes,
      Machine.run Reader.step ⟨some (overThreeBytes 0 none), ∅⟩
          [.next holdsThreeBytes, .next takesNoLease, .seek 0, .next holdsThreeBytes] =
        some ([.advance (.yielded (overThreeBytes 2 (some 0)) ⟨0, ⟨[1, 2]⟩⟩),
            .advance (.yielded (overThreeBytes 3 (some 0)) ⟨2, ⟨[3]⟩⟩),
            .seek (.moved (overThreeBytes 0 (some 0))),
            .advance (.yielded (overThreeBytes 2 (some 0)) ⟨0, ⟨[1, 2]⟩⟩)], reader) ∧
      reader.cursor = some (overThreeBytes 2 (some 0)) ∧
      ¬ Leased (overThreeBytes 0 none) reader.leases 0) ∧
    ∃ reader : Reader Bytes,
      Machine.run Reader.step ⟨some (overThreeBytes 0 none), ∅⟩
          (.next holdsThreeBytes :: .next missesThreeBytes :: fetchOf 1) =
        some ([.advance (.yielded (overThreeBytes 2 (some 0)) ⟨0, ⟨[1, 2]⟩⟩),
            .advance (.blocked { overThreeBytes 2 (some 0) with asked := true } .fetching),
            .supplied, .supplied], reader) ∧
      reader.cursor = some { overThreeBytes 2 (some 0) with asked := true } ∧
      ¬ Leased (overThreeBytes 0 none) reader.leases 0 := by
  refine ⟨⟨⟨some (overThreeBytes 2 (some 0)), ∅⟩, ?_, rfl, Finset.notMem_empty _⟩,
    ⟨⟨some { overThreeBytes 2 (some 0) with asked := true }, ∅⟩, ?_, rfl, Finset.notMem_empty _⟩⟩
  · decide +kernel
  · decide +kernel

end Lait.Runtime.Cursor
