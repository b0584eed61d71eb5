import Lait.Bytes
import Lait.Fallible
import Lait.LatestWins

/-!
# A slot with one member in force

A slot names its standing choice and an override over it, which lapses on its own.
Merging two slots keeps the later choice and the later override; whether an override
still applies is the reader's question (`resolveAt`), so merging never reads a clock.

Later is decided by when a choice was made and by whom, and the member is no part of it.
The deadline of a merged override is chosen by a comparison of its own, the same one, so
an override is kept whole (`mergeOver_eq`).  Both halves of a slot are then the later of
two by a rank, in the sense of `LatestWins`.  A merge is associative and idempotent
whatever the slots are; it is commutative, and the merged slot independent of the order
of merging, exactly when no two different choices and no two different overrides have
one rank (`joinOn_iff`).  For the slots of one merge only the latest count
(`converges_iff`).
-/

namespace Lait.Register

open LatestWins

/-! ## Slots -/

/-- Longest member identity. -/
def MAX_MEMBER_CHARS : ℕ := 128

/-- Longest chooser identity. -/
def MAX_CHOOSER_CHARS : ℕ := 128

/-- Why a slot was refused. -/
structure Invalid where
  message : String
  deriving DecidableEq

/-- `chars().count()`: the bytes of a string that do not continue a character. -/
def charCount (text : Text) : ℕ := text.data.countP fun b => b < 128 ∨ 192 ≤ b

/-- One choice: which member, made when, by whom. -/
structure Choice where
  member : Text
  chosenUnixMs : ℕ
  chooser : Text
  deriving DecidableEq

namespace Choice

def validate (self : Choice) : Except Invalid Unit := do
  if self.member.data = [] ∨ MAX_MEMBER_CHARS < charCount self.member then
    throw ⟨"choice member is empty or too long"⟩
  if self.chooser.data = [] ∨ MAX_CHOOSER_CHARS < charCount self.chooser then
    throw ⟨"choice chooser is empty or too long"⟩

/-- Later wins, the chooser breaks ties. -/
def rank (self : Choice) : ℕ ×ₗ Text := toLex (self.chosenUnixMs, self.chooser)

def laterOf (left right : Choice) : Choice := if left.rank < right.rank then right else left

end Choice

/-- A choice that stops applying at a stated moment. -/
structure Override where
  choice : Choice
  untilUnixMs : ℕ
  deriving DecidableEq

def Override.validate (self : Override) : Except Invalid Unit := do
  self.choice.validate
  if self.untilUnixMs ≤ self.choice.chosenUnixMs then
    throw ⟨"override lapses at or before it was chosen"⟩

/-- The standing choice, and an override over it. -/
@[ext] structure Slot where
  base : Option Choice
  /-- The field `over`. -/
  override : Option Override
  deriving DecidableEq

/-- What a slot answers now, and when that answer changes by itself. -/
structure Resolution where
  member : Option Text
  nextBoundaryUnixMs : Option ℕ
  deriving DecidableEq

/-- The later of two overrides, with the deadline chosen apart from the choice. -/
def mergeOver (a b : Override) : Override where
  untilUnixMs := if a.choice.rank < b.choice.rank then b.untilUnixMs else a.untilUnixMs
  choice := Choice.laterOf a.choice b.choice

namespace Slot

def validate (self : Slot) : Except Invalid Unit := do
  match self.base with
  | some base => base.validate
  | none => pure ()
  match self.override with
  | some o => o.validate
  | none => pure ()

/-- Which member is in force at a time. -/
def resolveAt (self : Slot) (nowUnixMs : ℕ) : Resolution :=
  match self.override.filter fun o => nowUnixMs < o.untilUnixMs with
  | some o => ⟨some o.choice.member, some o.untilUnixMs⟩
  | none => ⟨self.base.map Choice.member, none⟩

/-- Converge two slots. -/
def merge (left right : Slot) : Slot where
  base := Option.merge Choice.laterOf left.base right.base
  override := Option.merge mergeOver left.override right.override

end Slot

/-! ## Both halves keep the later -/

/-- The rank of an override is its choice's. -/
def Override.rank (self : Override) : ℕ ×ₗ Text := self.choice.rank

/-- The deadline comes with the choice it belongs to. -/
theorem mergeOver_eq (a b : Override) : mergeOver a b = later Override.rank a b := by
  unfold mergeOver Choice.laterOf later Override.rank
  split <;> rfl

theorem base_merge (a b : Slot) :
    (a.merge b).base = later (rankOption Choice.rank) a.base b.base :=
  merge_later Choice.rank a.base b.base

theorem override_merge (a b : Slot) :
    (a.merge b).override = later (rankOption Override.rank) a.override b.override := by
  have hmerge : mergeOver = later Override.rank := funext fun c => funext fun d => mergeOver_eq c d
  rw [← merge_later, ← hmerge, Slot.merge]

theorem merge_assoc (a b c : Slot) : a.merge (b.merge c) = (a.merge b).merge c := by
  ext1
  · rw [base_merge, base_merge, base_merge, base_merge, later_assoc]
  · rw [override_merge, override_merge, override_merge, override_merge, later_assoc]

theorem merge_self (a : Slot) : a.merge a = a := by
  ext1
  · rw [base_merge, later_self]
  · rw [override_merge, later_self]

/-! ## The laws of a join -/

/-- What several slots merge to, in one order, grouping and repetition. -/
def merged (t : Merges Slot) : Slot := t.eval Slot.merge

theorem base_merged (t : Merges Slot) :
    (merged t).base = (t.map Slot.base).eval (later (rankOption Choice.rank)) :=
  Merges.eval_map base_merge t

theorem override_merged (t : Merges Slot) :
    (merged t).override = (t.map Slot.override).eval (later (rankOption Override.rank)) :=
  Merges.eval_map override_merge t

/-- The merged override is one of those merged, choice and deadline together, and it is
missing only if all are. -/
theorem override_merged_mem (t : Merges Slot) :
    (∃ s ∈ t.values, (merged t).override = s.override) ∧
      ((merged t).override = none → ∀ s ∈ t.values, s.override = none) := by
  rw [override_merged]
  constructor
  · have hmem := Merges.eval_mem (rankOption Override.rank) (t.map Slot.override)
    rw [Merges.values_map] at hmem
    obtain ⟨s, hs, hover⟩ := List.mem_map.mp hmem
    exact ⟨s, hs, hover.symm⟩
  · intro hnone s hs
    have hmem : s.override ∈ (t.map Slot.override).values := by
      rw [Merges.values_map]
      exact List.mem_map_of_mem hs
    have hle : rankOption Override.rank s.override ≤ rankOption Override.rank _ :=
      Merges.rank_le_eval hmem
    rw [hnone, rankOption_none, le_bot_iff] at hle
    cases hover : s.override with
    | none => rfl
    | some o =>
        rw [hover] at hle
        exact absurd hle WithBot.coe_ne_bot

/-- Merging is a join on some slots: the three laws, one outcome for every order, grouping
and repetition of the same slots, and overrides kept whole. -/
structure JoinOn (S : Set Slot) : Prop where
  comm : ∀ a ∈ S, ∀ b ∈ S, a.merge b = b.merge a
  assoc : ∀ a ∈ S, ∀ b ∈ S, ∀ c ∈ S, a.merge (b.merge c) = (a.merge b).merge c
  idem : ∀ a ∈ S, a.merge a = a
  converge : ∀ t t' : Merges Slot, (∀ s ∈ t.values, s ∈ S) →
    (∀ s, s ∈ t.values ↔ s ∈ t'.values) →
      merged t = merged t' ∧ ∀ now, (merged t).resolveAt now = (merged t').resolveAt now
  whole : ∀ t : Merges Slot, (∀ s ∈ t.values, s ∈ S) →
    (∃ s ∈ t.values, (merged t).override = s.override) ∧
      ((merged t).override = none → ∀ s ∈ t.values, s.override = none)

/-- No two different standing choices, and no two different overrides, have one time and one
chooser. -/
def UntiedSlots (S : Set Slot) : Prop :=
  Untied Choice.rank {c | ∃ s ∈ S, s.base = some c} ∧
    Untied Override.rank {o | ∃ s ∈ S, s.override = some o}

/-- The halves of untied slots are untied, missing ones included. -/
theorem untiedSlots_iff {S : Set Slot} : UntiedSlots S ↔
    Untied (rankOption Choice.rank) (Slot.base '' S) ∧
      Untied (rankOption Override.rank) (Slot.override '' S) := by
  rw [untied_option_iff, untied_option_iff]
  rfl

/-- **Merging is a join exactly on untied slots.** -/
theorem joinOn_iff (S : Set Slot) : JoinOn S ↔ UntiedSlots S := by
  rw [untiedSlots_iff]
  constructor
  · intro h
    constructor
    · rintro _ ⟨a, ha, rfl⟩ _ ⟨b, hb, rfl⟩
      have hcomm := congrArg Slot.base (h.comm a ha b hb)
      rw [base_merge, base_merge] at hcomm
      exact later_comm_iff.mp hcomm
    · rintro _ ⟨a, ha, rfl⟩ _ ⟨b, hb, rfl⟩
      have hcomm := congrArg Slot.override (h.comm a ha b hb)
      rw [override_merge, override_merge] at hcomm
      exact later_comm_iff.mp hcomm
  · rintro ⟨hbase, hover⟩
    have hconverge : ∀ t t' : Merges Slot, (∀ s ∈ t.values, s ∈ S) →
        (∀ s, s ∈ t.values ↔ s ∈ t'.values) → merged t = merged t' := by
      intro t t' hS hsame
      have hhalf : ∀ {γ : Type} (half : Slot → γ) (x : γ),
          x ∈ (t.map half).values ↔ x ∈ (t'.map half).values := by
        intro γ half x
        simp only [Merges.values_map, List.mem_map, hsame]
      ext1
      · rw [base_merged, base_merged]
        refine Merges.eval_eq_of_untied hbase (fun c hc => ?_) (hhalf Slot.base)
        rw [Merges.values_map] at hc
        obtain ⟨s, hs, rfl⟩ := List.mem_map.mp hc
        exact ⟨s, hS s hs, rfl⟩
      · rw [override_merged, override_merged]
        refine Merges.eval_eq_of_untied hover (fun o ho => ?_) (hhalf Slot.override)
        rw [Merges.values_map] at ho
        obtain ⟨s, hs, rfl⟩ := List.mem_map.mp ho
        exact ⟨s, hS s hs, rfl⟩
    refine ⟨fun a ha b hb => ?_, fun a _ b _ c _ => merge_assoc a b c, fun a _ => merge_self a,
      fun t t' hS hsame => ?_, fun t _ => override_merged_mem t⟩
    · ext1
      · rw [base_merge, base_merge]
        exact later_comm_iff.mpr (hbase _ ⟨a, ha, rfl⟩ _ ⟨b, hb, rfl⟩)
      · rw [override_merge, override_merge]
        exact later_comm_iff.mpr (hover _ ⟨a, ha, rfl⟩ _ ⟨b, hb, rfl⟩)
    · rw [hconverge t t' hS hsame]
      exact ⟨rfl, fun _ => rfl⟩

/-- Two choices of one millisecond by one chooser, of different members. -/
theorem merge_not_comm :
    let morning : Slot := ⟨some ⟨Bytes.ofString "morning", 10, Bytes.ofString "dev-a"⟩, none⟩
    let evening : Slot := ⟨some ⟨Bytes.ofString "evening", 10, Bytes.ofString "dev-a"⟩, none⟩
    morning.validate = .ok () ∧ evening.validate = .ok () ∧
      morning.merge evening ≠ evening.merge morning ∧
      ¬ JoinOn {s | s = morning ∨ s = evening} := by
  intro morning evening
  have hne : morning.merge evening ≠ evening.merge morning := by decide
  exact ⟨by decide, by decide, hne, fun h => hne (h.comm _ (Or.inl rfl) _ (Or.inr rfl))⟩

/-- The values among some that none of them outranks. -/
def topOf {α β : Type*} [LE β] (rank : α → β) (values : List α) : Set α :=
  {a | a ∈ values ∧ ∀ b ∈ values, rank b ≤ rank a}

/-- **Some slots merge to one slot in all ways** exactly when the latest of their standing
choices are one choice, and the latest of their overrides one override. -/
theorem converges_iff (S : List Slot) :
    (∀ t t' : Merges Slot, (∀ s, s ∈ t.values ↔ s ∈ S) → (∀ s, s ∈ t'.values ↔ s ∈ S) →
      merged t = merged t') ↔
      Untied (rankOption Choice.rank) (topOf (rankOption Choice.rank) (S.map Slot.base)) ∧
        Untied (rankOption Override.rank) (topOf (rankOption Override.rank) (S.map Slot.override)) := by
  unfold topOf
  rw [← Merges.eval_map_eq_iff, ← Merges.eval_map_eq_iff]
  simp only [← base_merged, ← override_merged, Slot.ext_iff]
  exact ⟨fun h => ⟨fun t t' ht ht' => (h t t' ht ht').1, fun t t' ht ht' => (h t t' ht ht').2⟩,
    fun h t t' ht ht' => ⟨h.1 t t' ht ht', h.2 t t' ht ht'⟩⟩

end Lait.Register
