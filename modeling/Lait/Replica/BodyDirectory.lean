import Lait.Replica.Manifest
import Lait.Replica.SnapshotDirectory

/-!
# The body directory

Bodies stand in numbered slots, and a sorted lookup gives the slot of a key.  A slot
keeps its number for as long as its body is there; the numbers of slots that have become
empty are kept in a free list, and the lowest is used again first.

The lookup and the slots name each other (`Sound`): a key's slot holds that key, and the
key of an occupied slot leads back to it.  So no two keys share a slot, and no slot that
is occupied is out of reach.  An insertion takes a number no key leads to, from the free
list or from past the end, and a removal gives one back.
-/

namespace Lait.Replica

structure BodySlot (V : Type) where
  key : BodyKey
  value : V
  deriving DecidableEq

/-- Body slots with one ordered lookup; `V` is the type of the images. -/
structure BodyDirectory (V : Type) where
  lookup : SnapshotDirectory BodyKey ℕ
  slots : List (Option (BodySlot V))
  free : Finset ℕ

namespace BodyDirectory

variable {V : Type}

def empty : BodyDirectory V := ⟨⟨[], 0⟩, [], ∅⟩

variable (b : BodyDirectory V)

def bodyIx (key : BodyKey) : Option ℕ := b.lookup.get key

def slot (index : ℕ) : Option (BodySlot V) := b.slots[index]?.join

/-- The image of a key. -/
def get (key : BodyKey) : Option V := (b.bodyIx key).bind fun index => (b.slot index).map BodySlot.value

/-- The lowest number of the free list. -/
def firstFree : Option ℕ := (b.free.sort (· ≤ ·)).head?

/-- Put the image of a key; what it was before is returned.  A number is a `u32`, and where none
is left the image is not put. -/
def insert (key : BodyKey) (value : V) : Option V × BodyDirectory V :=
  match b.bodyIx key with
  | some index =>
      match b.slot index with
      | none => (none, b)
      | some slot =>
          (some slot.value, { b with slots := b.slots.set index (some { slot with value }) })
  | none =>
      match b.firstFree with
      | some index =>
          if index < b.slots.length then
            (none, ⟨(b.lookup.insert key index).2, b.slots.set index (some ⟨key, value⟩),
              b.free.erase index⟩)
          else (none, { b with free := b.free.erase index })
      | none =>
          if b.slots.length < 2 ^ 32 then
            (none, { b with
              lookup := (b.lookup.insert key b.slots.length).2
              slots := b.slots ++ [some ⟨key, value⟩] })
          else (none, b)

/-- Take a key out; its image is returned. -/
def remove (key : BodyKey) : Option V × BodyDirectory V :=
  match b.lookup.remove key with
  | (none, lookup) => (none, { b with lookup })
  | (some index, lookup) =>
      match b.slot index with
      | none => (none, { b with lookup })
      | some slot => (some slot.value, ⟨lookup, b.slots.set index none, b.free ∪ {index}⟩)

/-! ## Lookup and slots -/

/-- The lookup and the slots name each other, and the free list names the rest. -/
structure Sound (b : BodyDirectory V) : Prop where
  lookup : ∃ m, b.lookup.Holds m
  key : ∀ key index, b.bodyIx key = some index ↔ ∃ value, b.slots[index]? = some (some ⟨key, value⟩)
  free : ∀ index, index ∈ b.free ↔ b.slots[index]? = some none

namespace Sound

variable {b : BodyDirectory V}

theorem empty : (empty : BodyDirectory V).Sound where
  lookup := ⟨∅, .empty⟩
  key key index := by
    have hget : (BodyDirectory.empty : BodyDirectory V).bodyIx key = none :=
      SnapshotDirectory.Holds.empty.get key
    rw [hget]
    simp [BodyDirectory.empty]
  free index := by simp [BodyDirectory.empty]

/-- The slot a key leads to. -/
theorem slot (h : b.Sound) {key : BodyKey} {index : ℕ} (hkey : b.bodyIx key = some index) :
    ∃ value, b.slots[index]? = some (some ⟨key, value⟩) ∧ b.slot index = some ⟨key, value⟩ := by
  obtain ⟨value, hvalue⟩ := (h.key key index).mp hkey
  exact ⟨value, hvalue, by rw [BodyDirectory.slot, hvalue, Option.join_some]⟩

/-- **A key that is new takes a slot that no key leads to.** -/
theorem put (h : b.Sound) {key : BodyKey} (hkey : b.bodyIx key = none) {value : V} {index : ℕ}
    {slots : List (Option (BodySlot V))} {free : Finset ℕ}
    (hindex : slots[index]? = some (some ⟨key, value⟩))
    (hslots : ∀ i, i ≠ index → slots[i]? = b.slots[i]?)
    (hvacant : ∀ slot, b.slots[index]? ≠ some (some slot))
    (hfree : ∀ i, i ∈ free ↔ i ≠ index ∧ i ∈ b.free) :
    (⟨(b.lookup.insert key index).2, slots, free⟩ : BodyDirectory V).Sound := by
  obtain ⟨m, hm⟩ := h.lookup
  have hinsert := (hm.insert key index).2
  have hself : (b.lookup.insert key index).2.get key = some index := by
    rw [hinsert.get, BTreeMap.get_insert, if_pos rfl]
  have hother : ∀ key', key ≠ key' → (b.lookup.insert key index).2.get key' = b.bodyIx key' :=
    fun key' hne => by
      rw [hinsert.get, BTreeMap.get_insert, if_neg hne]
      exact (hm.get key').symm
  refine ⟨⟨_, hinsert⟩, fun key' i => ?_, fun i => ?_⟩
  · show (b.lookup.insert key index).2.get key' = some i ↔ ∃ value, slots[i]? = _
    by_cases hsame : key = key'
    · subst hsame
      rw [hself, Option.some.injEq]
      constructor
      · rintro rfl
        exact ⟨value, hindex⟩
      · rintro ⟨value', hvalue'⟩
        by_contra hne
        rw [hslots i (Ne.symm hne)] at hvalue'
        have hold := (h.key key i).mpr ⟨value', hvalue'⟩
        rw [hkey] at hold
        cases hold
    · rw [hother key' hsame, h.key key' i]
      by_cases hi : i = index
      · subst hi
        rw [hindex]
        refine iff_of_false ?_ ?_
        · rintro ⟨value', hvalue'⟩
          exact hvacant _ hvalue'
        · rintro ⟨value', hvalue'⟩
          cases hvalue'
          exact hsame rfl
      · rw [hslots i hi]
  · show i ∈ free ↔ slots[i]? = some none
    rw [hfree]
    by_cases hi : i = index
    · subst hi
      rw [hindex]
      simp
    · rw [hslots i hi, h.free]
      simp [hi]

theorem insert (h : b.Sound) (key : BodyKey) (value : V) : (b.insert key value).2.Sound := by
  unfold BodyDirectory.insert
  cases hkey : b.bodyIx key with
  | some index =>
      obtain ⟨old, hindex, hslot⟩ := h.slot hkey
      simp only [hslot]
      obtain ⟨hlt, -⟩ := List.getElem?_eq_some_iff.mp hindex
      have hset : ∀ i, (b.slots.set index (some ⟨key, value⟩))[i]? =
          if i = index then some (some ⟨key, value⟩) else b.slots[i]? := fun i => by
        by_cases hi : i = index
        · subst hi
          rw [if_pos rfl, List.getElem?_set_self hlt]
        · rw [if_neg hi, List.getElem?_set_ne (Ne.symm hi)]
      refine ⟨h.lookup, fun key' i => ?_, fun i => ?_⟩
      · show b.bodyIx key' = some i ↔ ∃ value', (b.slots.set index _)[i]? = _
        rw [h.key key' i, hset]
        split
        next hi =>
          subst hi
          rw [hindex]
          simp
        next => exact Iff.rfl
      · show i ∈ b.free ↔ (b.slots.set index _)[i]? = some none
        rw [h.free i, hset]
        split
        next hi =>
          subst hi
          rw [hindex]
          simp
        next => exact Iff.rfl
  | none =>
      cases hfirst : b.firstFree with
      | some index =>
          have hmem : index ∈ b.free :=
            (Finset.mem_sort _).mp (List.mem_of_mem_head? hfirst)
          have hempty := (h.free index).mp hmem
          obtain ⟨hlt, -⟩ := List.getElem?_eq_some_iff.mp hempty
          simp only [if_pos hlt]
          refine h.put hkey (List.getElem?_set_self hlt)
            (fun i hi => List.getElem?_set_ne (Ne.symm hi)) (fun slot hslot => ?_)
            fun i => Finset.mem_erase
          rw [hempty] at hslot
          cases hslot
      | none =>
          dsimp only
          split
          case isFalse => exact h
          case isTrue hroom =>
              have hnew : (b.slots ++ [some ⟨key, value⟩])[b.slots.length]? =
                  some (some ⟨key, value⟩) := by simp
              refine h.put hkey hnew (fun i hi => ?_) (fun slot hslot => ?_) fun i => ?_
              · rcases Nat.lt_or_gt_of_ne hi with hlt | hgt
                · rw [List.getElem?_append_left hlt]
                · rw [List.getElem?_eq_none (by simp; omega), List.getElem?_eq_none hgt.le]
              · rw [List.getElem?_eq_none le_rfl] at hslot
                cases hslot
              · refine ⟨fun hi => ⟨?_, hi⟩, And.right⟩
                rintro rfl
                have hpast := (h.free _).mp hi
                rw [List.getElem?_eq_none le_rfl] at hpast
                cases hpast

theorem remove (h : b.Sound) (key : BodyKey) : (b.remove key).2.Sound := by
  obtain ⟨m, hm⟩ := h.lookup
  obtain ⟨hprevious, hremove⟩ := hm.remove key
  rw [← hm.get] at hprevious
  have hself : (b.lookup.remove key).2.get key = none := by
    rw [hremove.get, BTreeMap.get_erase, if_pos rfl]
  have hother : ∀ key', key ≠ key' → (b.lookup.remove key).2.get key' = b.bodyIx key' :=
    fun key' hne => by
      rw [hremove.get, BTreeMap.get_erase, if_neg hne]
      exact (hm.get key').symm
  unfold BodyDirectory.remove
  generalize b.lookup.remove key = result at *
  obtain ⟨found, lookup⟩ := result
  dsimp only at hprevious hself hother hremove
  have hfound : found = b.bodyIx key := hprevious
  cases found with
  | none =>
      refine ⟨⟨_, hremove⟩, fun key' i => ?_, h.free⟩
      show lookup.get key' = some i ↔ _
      rw [← h.key key' i]
      by_cases hsame : key = key'
      · rw [← hsame, hself, ← hfound]
      · rw [hother key' hsame]
  | some index =>
      obtain ⟨value, hindex, hslot⟩ := h.slot hfound.symm
      simp only [hslot]
      obtain ⟨hlt, -⟩ := List.getElem?_eq_some_iff.mp hindex
      have hset : ∀ i, (b.slots.set index none)[i]? =
          if i = index then some none else b.slots[i]? := fun i => by
        by_cases hi : i = index
        · rw [hi, if_pos rfl, List.getElem?_set_self hlt]
        · rw [if_neg hi, List.getElem?_set_ne (Ne.symm hi)]
      refine ⟨⟨_, hremove⟩, fun key' i => ?_, fun i => ?_⟩
      · show lookup.get key' = some i ↔ ∃ value', (b.slots.set index none)[i]? = _
        rw [hset]
        by_cases hsame : key = key'
        · subst hsame
          rw [hself]
          refine iff_of_false (by simp) ?_
          rintro ⟨value', hvalue'⟩
          split at hvalue'
          next => cases hvalue'
          next hi =>
            have hback := (h.key key i).mpr ⟨value', hvalue'⟩
            exact hi (Option.some.inj (hback.symm.trans hfound.symm))
        · rw [hother key' hsame, h.key key' i]
          split
          next hi =>
            subst hi
            rw [hindex]
            simp [hsame]
          next => exact Iff.rfl
      · show i ∈ b.free ∪ {index} ↔ (b.slots.set index none)[i]? = some none
        rw [hset, Finset.mem_union, Finset.mem_singleton, h.free]
        split
        next hi => simp [hi]
        next hi => simp [hi]

end Sound

/-! ## Images -/

section Images

variable {b : BodyDirectory V}

/-- A key that leads to a slot with its image; the other keys lead past it, as they did. -/
theorem get_of_lookup {lookup : SnapshotDirectory BodyKey ℕ} {slots : List (Option (BodySlot V))}
    {free : Finset ℕ} {key : BodyKey} {value : V} {index : ℕ}
    (hlookup : ∀ key', lookup.get key' = if key = key' then some index else b.bodyIx key')
    (hindex : slots[index]? = some (some ⟨key, value⟩))
    (hslots : ∀ i, i ≠ index → slots[i]? = b.slots[i]?)
    (hother : ∀ key', key ≠ key' → b.bodyIx key' ≠ some index) (key' : BodyKey) :
    (⟨lookup, slots, free⟩ : BodyDirectory V).get key' =
      if key = key' then some value else b.get key' := by
  show (lookup.get key').bind (fun i => (slots[i]?.join).map BodySlot.value) = _
  rw [hlookup]
  split
  next => rw [Option.bind_some, hindex, Option.join_some, Option.map_some]
  next hne =>
    unfold get slot
    cases hkey : b.bodyIx key' with
    | none => rfl
    | some i =>
        have hi : i ≠ index := fun heq => hother key' hne (heq ▸ hkey)
        rw [Option.bind_some, Option.bind_some, hslots i hi]

/-- **An insertion puts its image**, while a number is left for it. -/
theorem Sound.get_insert (h : b.Sound) (hroom : b.slots.length < 2 ^ 32) (key : BodyKey)
    (value : V) (key' : BodyKey) :
    (b.insert key value).2.get key' = if key = key' then some value else b.get key' := by
  unfold BodyDirectory.insert
  cases hkey : b.bodyIx key with
  | some index =>
      obtain ⟨old, hindex, hslot⟩ := h.slot hkey
      obtain ⟨hlt, -⟩ := List.getElem?_eq_some_iff.mp hindex
      simp only [hslot]
      refine get_of_lookup (fun other => ?_) (List.getElem?_set_self hlt)
        (fun i hi => List.getElem?_set_ne (Ne.symm hi)) (fun other hne hother => ?_) key'
      · split
        next heq => rw [← heq]; exact hkey
        next => rfl
      · obtain ⟨value', hvalue', -⟩ := h.slot hother
        rw [hindex] at hvalue'
        cases hvalue'
        exact hne rfl
  | none =>
      obtain ⟨m, hm⟩ := h.lookup
      have hlookup : ∀ index other, (b.lookup.insert key index).2.get other =
          if key = other then some index else b.bodyIx other := fun index other => by
        rw [(hm.insert key index).2.get, BTreeMap.get_insert, ← hm.get]
        by_cases heq : key = other
        · rw [if_pos heq, if_pos heq]
        · rw [if_neg heq, if_neg heq]
          rfl
      have hvacant : ∀ index, (∀ slot, b.slots[index]? ≠ some (some slot)) →
          ∀ other, key ≠ other → b.bodyIx other ≠ some index := by
        intro index hvacant other _ hother
        obtain ⟨value', hvalue', -⟩ := h.slot hother
        exact hvacant _ hvalue'
      cases hfirst : b.firstFree with
      | some index =>
          have hempty := (h.free index).mp
            ((Finset.mem_sort _).mp (List.mem_of_mem_head? hfirst))
          obtain ⟨hlt, -⟩ := List.getElem?_eq_some_iff.mp hempty
          simp only [if_pos hlt]
          exact get_of_lookup (hlookup index) (List.getElem?_set_self hlt)
            (fun i hi => List.getElem?_set_ne (Ne.symm hi))
            (hvacant index fun slot hslot => by cases hempty.symm.trans hslot) key'
      | none =>
          simp only [if_pos hroom]
          have hpast : b.slots[b.slots.length]? = none := List.getElem?_eq_none le_rfl
          refine get_of_lookup (hlookup _) (by simp) (fun i hi => ?_)
            (hvacant _ fun slot hslot => by cases hpast.symm.trans hslot) key'
          rcases Nat.lt_or_gt_of_ne hi with hlt | hgt
          · rw [List.getElem?_append_left hlt]
          · rw [List.getElem?_eq_none (by simp; omega), List.getElem?_eq_none hgt.le]

/-- **A removal takes its image out.** -/
theorem Sound.get_remove (h : b.Sound) (key key' : BodyKey) :
    (b.remove key).2.get key' = if key = key' then none else b.get key' := by
  obtain ⟨m, hm⟩ := h.lookup
  obtain ⟨hprevious, hremove⟩ := hm.remove key
  rw [← hm.get] at hprevious
  have hlookup : ∀ other, (b.lookup.remove key).2.get other =
      if key = other then none else b.bodyIx other := fun other => by
    rw [hremove.get, BTreeMap.get_erase, ← hm.get]
    by_cases heq : key = other
    · rw [if_pos heq, if_pos heq]
    · rw [if_neg heq, if_neg heq]
      rfl
  unfold BodyDirectory.remove
  generalize b.lookup.remove key = result at *
  obtain ⟨found, lookup⟩ := result
  have hfound : found = b.bodyIx key := hprevious
  cases found with
  | none =>
      show (lookup.get key').bind _ = _
      rw [hlookup]
      split
      next => rfl
      next => rfl
  | some index =>
      obtain ⟨value, hindex, hslot⟩ := h.slot hfound.symm
      simp only [hslot]
      show (lookup.get key').bind (fun i => ((b.slots.set index none)[i]?.join).map _) = _
      rw [hlookup]
      split
      next => rfl
      next hne =>
        unfold BodyDirectory.get BodyDirectory.slot
        cases hkey' : b.bodyIx key' with
        | none => rfl
        | some i =>
            have hi : i ≠ index := by
              rintro rfl
              obtain ⟨value', hvalue', -⟩ := h.slot hkey'
              rw [hindex] at hvalue'
              cases hvalue'
              exact hne rfl
            rw [Option.bind_some, Option.bind_some, List.getElem?_set_ne (Ne.symm hi)]

/-- An insertion takes one more slot at most. -/
theorem length_slots_insert_le (b : BodyDirectory V) (key : BodyKey) (value : V) :
    (b.insert key value).2.slots.length ≤ b.slots.length + 1 := by
  unfold BodyDirectory.insert
  repeat' split
  all_goals simp

theorem length_slots_remove (b : BodyDirectory V) (key : BodyKey) :
    (b.remove key).2.slots.length = b.slots.length := by
  unfold BodyDirectory.remove
  repeat' split
  all_goals simp

end Images

/-! ## Runs -/

/-- A call on the directory. -/
inductive Call (V : Type)
  | insert (key : BodyKey) (value : V)
  | remove (key : BodyKey)

def Call.perform (b : BodyDirectory V) : Call V → BodyDirectory V
  | insert key value => (b.insert key value).2
  | remove key => (b.remove key).2

/-- What a call makes of the map of the images. -/
def Call.define (m : BTreeMap BodyKey V) : Call V → BTreeMap BodyKey V
  | insert key value => m.insert key value
  | remove key => m.erase key

/-- **Every run keeps the lookup and the slots naming each other.** -/
theorem run_sound (calls : List (Call V)) {b : BodyDirectory V} (h : b.Sound) :
    (calls.foldl Call.perform b).Sound := by
  induction calls generalizing b with
  | nil => exact h
  | cons call calls ih =>
      refine ih ?_
      cases call with
      | insert key value => exact h.insert key value
      | remove key => exact h.remove key

/-- **A run looks up what its calls put**, while no number can run out. -/
theorem get_run (calls : List (Call V)) {b : BodyDirectory V} (h : b.Sound)
    {m : BTreeMap BodyKey V} (hget : ∀ key, b.get key = m[key]?)
    (hroom : b.slots.length + calls.length ≤ 2 ^ 32) (key : BodyKey) :
    (calls.foldl Call.perform b).get key = (calls.foldl Call.define m)[key]? := by
  induction calls generalizing b m with
  | nil => exact hget key
  | cons call calls ih =>
      rw [List.length_cons] at hroom
      cases call with
      | insert key₁ value =>
          have hlen := b.length_slots_insert_le key₁ value
          refine ih (h.insert key₁ value) (fun key₂ => ?_)
            (show (b.insert key₁ value).2.slots.length + calls.length ≤ 2 ^ 32 by omega)
          show (b.insert key₁ value).2.get key₂ = (m.insert key₁ value)[key₂]?
          rw [h.get_insert (by omega), BTreeMap.get_insert, hget]
          by_cases heq : key₁ = key₂
          · rw [if_pos heq, if_pos heq]
          · rw [if_neg heq, if_neg heq]
      | remove key₁ =>
          have hlen := b.length_slots_remove key₁
          refine ih (h.remove key₁) (fun key₂ => ?_)
            (show (b.remove key₁).2.slots.length + calls.length ≤ 2 ^ 32 by omega)
          show (b.remove key₁).2.get key₂ = (m.erase key₁)[key₂]?
          rw [h.get_remove, BTreeMap.get_erase, hget]
          by_cases heq : key₁ = key₂
          · rw [if_pos heq, if_pos heq]
          · rw [if_neg heq, if_neg heq]

/-- The lookup is a bijection onto the occupied slots, and the free list is the empty ones. -/
structure Bijective (b : BodyDirectory V) : Prop where
  injective : ∀ key key' index, b.bodyIx key = some index → b.bodyIx key' = some index → key = key'
  onto : ∀ index, (∃ key, b.bodyIx key = some index) ↔ ∃ slot, b.slots[index]? = some (some slot)
  named : ∀ key index, b.bodyIx key = some index → (b.slot index).map BodySlot.key = some key
  free : ∀ index, index ∈ b.free ↔ b.slots[index]? = some none

theorem Sound.bijective {b : BodyDirectory V} (h : b.Sound) : b.Bijective where
  injective key key' index hkey hkey' := by
    obtain ⟨value, hvalue⟩ := (h.key key index).mp hkey
    obtain ⟨value', hvalue'⟩ := (h.key key' index).mp hkey'
    rw [hvalue] at hvalue'
    cases hvalue'
    rfl
  onto index := by
    constructor
    · rintro ⟨key, hkey⟩
      obtain ⟨value, hvalue⟩ := (h.key key index).mp hkey
      exact ⟨_, hvalue⟩
    · rintro ⟨slot, hslot⟩
      exact ⟨slot.key, (h.key _ index).mpr ⟨slot.value, hslot⟩⟩
  named key index hkey := by
    obtain ⟨value, -, hslot⟩ := h.slot hkey
    rw [hslot, Option.map_some]
  free := h.free

end BodyDirectory

/-- **The directories are what they stand for.**  However directories are written to and cloned,
each answers as its own map does; and however bodies come and go, the lookup stays a bijection
onto the occupied slots, and finds the images of the map, while no number can run out. -/
theorem directories_agree :
    (∀ (K V : Type) [LinearOrder K] (calls : List (SnapshotDirectory.Call K V)),
      List.Forall₂ SnapshotDirectory.Agrees (calls.foldl SnapshotDirectory.Call.perform [⟨[], 0⟩])
        (calls.foldl SnapshotDirectory.Call.define [∅])) ∧
    ∀ (V : Type) (calls : List (BodyDirectory.Call V)),
      (calls.foldl BodyDirectory.Call.perform BodyDirectory.empty).Bijective ∧
        (calls.length ≤ 2 ^ 32 → ∀ key,
          (calls.foldl BodyDirectory.Call.perform BodyDirectory.empty).get key =
            (calls.foldl BodyDirectory.Call.define ∅)[key]?) := by
  refine ⟨fun K V _ calls => ?_, fun V calls =>
    ⟨(BodyDirectory.run_sound calls .empty).bijective, fun hroom key => ?_⟩⟩
  · have hrun := SnapshotDirectory.run_holds calls (.cons .empty .nil)
    exact hrun.imp fun d m h => h.agrees
  · refine BodyDirectory.get_run calls .empty (fun key => ?_) 
      (by simpa [BodyDirectory.empty] using hroom) key
    exact congrArg (fun index : Option ℕ => index.bind _)
      (SnapshotDirectory.Holds.empty.get key) |>.trans rfl

end Lait.Replica
