import Lait.Bytes

/-!
# Ordered maps, updated in batches

A batch of changes to an ordered map is itself a map, from keys to the value to
set or to nothing.  `overlay` carries one out, and what it leaves at a key is
read off the batch (`get_overlay`).  A condition on the entries of a map
(`Every`) is kept by every way to change it.
-/

namespace Lait.BTreeMap

variable {κ ν μ : Type*} [LinearOrder κ]

theorem nodup_toList_keys (m : BTreeMap κ ν) : (m.toList.map Prod.fst).Nodup := by
  rw [Std.ExtTreeMap.map_fst_toList_eq_keys]
  exact Std.ExtTreeMap.nodup_keys

/-- Looking a key up in the entries of a map. -/
theorem find?_toList (m : BTreeMap κ ν) (k : κ) :
    (m.toList.find? fun entry => entry.1 = k).map Prod.snd = m[k]? := by
  cases hfind : m.toList.find? (fun entry => entry.1 = k) with
  | none =>
      cases hget : m[k]? with
      | none => rfl
      | some v =>
          rw [List.find?_eq_none] at hfind
          have hne := hfind _ (mem_toList_iff.mpr hget)
          simp at hne
  | some entry =>
      have hmem := List.mem_of_find?_eq_some hfind
      have hkey : entry.1 = k := by simpa using List.find?_some hfind
      obtain ⟨key, v⟩ := entry
      cases hkey
      exact (mem_toList_iff.mp hmem).symm

theorem nodup_toList (m : BTreeMap κ ν) : m.toList.Nodup := (nodup_toList_keys m).of_map _

/-- A new key adds one entry. -/
theorem toList_insert_perm {m : BTreeMap κ ν} {k : κ} (h : m[k]? = none) (v : ν) :
    (m.insert k v).toList.Perm ((k, v) :: m.toList) := by
  have hnot : (k, v) ∉ m.toList := fun hmem => by
    rw [mem_toList_iff, h] at hmem
    cases hmem
  refine (List.perm_ext_iff_of_nodup (nodup_toList _)
    (List.nodup_cons.mpr ⟨hnot, nodup_toList m⟩)).mpr ?_
  rintro ⟨key, value⟩
  rw [mem_toList_iff, get_insert, List.mem_cons, mem_toList_iff]
  by_cases hkey : k = key
  · subst hkey
    rw [if_pos rfl, h]
    simp [eq_comm]
  · simp [hkey, Ne.symm hkey]

/-- An entry and the others. -/
theorem toList_perm_erase {m : BTreeMap κ ν} {k : κ} {v : ν} (h : m[k]? = some v) :
    m.toList.Perm ((k, v) :: (m.erase k).toList) := by
  have hnot : (k, v) ∉ (m.erase k).toList := fun hmem => by
    rw [mem_toList_iff, get_erase, if_pos rfl] at hmem
    cases hmem
  refine (List.perm_ext_iff_of_nodup (nodup_toList _)
    (List.nodup_cons.mpr ⟨hnot, nodup_toList _⟩)).mpr ?_
  rintro ⟨key, value⟩
  rw [mem_toList_iff, List.mem_cons, mem_toList_iff, get_erase]
  by_cases hkey : k = key
  · subst hkey
    rw [if_pos rfl, h]
    simp [eq_comm]
  · simp [hkey, Ne.symm hkey]

theorem isEmpty_eq_false {m : BTreeMap κ ν} {k : κ} {v : ν} (h : m[k]? = some v) :
    m.isEmpty = false := by
  rw [Std.ExtTreeMap.isEmpty_eq_false_iff]
  rintro rfl
  rw [get_empty] at h
  cases h

theorem exists_get_of_isEmpty_eq_false {m : BTreeMap κ ν} (h : m.isEmpty = false) :
    ∃ (k : κ) (v : ν), m[k]? = some v := by
  by_contra hnone
  push Not at hnone
  refine Std.ExtTreeMap.isEmpty_eq_false_iff.mp h (BTreeMap.ext fun k => ?_)
  rw [get_empty, Option.eq_none_iff_forall_ne_some]
  exact hnone k

theorem get_map (m : BTreeMap κ ν) (f : κ → ν → μ) (k : κ) :
    (m.map f)[k]? = m[k]?.map (f k) := Std.ExtTreeMap.getElem?_map

/-- What is retained of an entry. -/
theorem get_filter (m : BTreeMap κ ν) (f : κ → ν → Bool) (k : κ) :
    (m.filter f)[k]? = m[k]?.filter (f k) := Std.ExtTreeMap.getElem?_filter'

/-- A map cut to a set of keys. -/
theorem get_filter_mem (m : BTreeMap κ ν) (keep : Finset κ)
    (k : κ) : (m.filter fun h _ => h ∈ keep)[k]? = if k ∈ keep then m[k]? else none := by
  rw [Std.ExtTreeMap.getElem?_filter']
  by_cases hk : k ∈ keep
  · cases m[k]? <;> simp [hk]
  · cases m[k]? <;> simp [hk]

theorem toList_map (m : BTreeMap κ ν) (f : κ → ν → μ) :
    (m.map f).toList = m.toList.map fun entry => (entry.1, f entry.1 entry.2) :=
  Std.ExtTreeMap.toList_map

/-! ## Batches -/

/-- Carry out one change. -/
def change (m : BTreeMap κ ν) (entry : κ × Option ν) : BTreeMap κ ν :=
  match entry.2 with
  | some v => m.insert entry.1 v
  | none => m.erase entry.1

/-- Carry out a batch. -/
def overlay (m : BTreeMap κ ν) (changes : BTreeMap κ (Option ν)) : BTreeMap κ ν :=
  changes.toList.foldl change m

theorem get_change (m : BTreeMap κ ν) (entry : κ × Option ν) (k : κ) :
    (change m entry)[k]? = if entry.1 = k then entry.2 else m[k]? := by
  obtain ⟨key, value⟩ := entry
  cases value with
  | none => exact get_erase m key k
  | some v => exact get_insert m key k v

theorem get_foldl_change {changes : List (κ × Option ν)} (hnodup : (changes.map Prod.fst).Nodup)
    (m : BTreeMap κ ν) (k : κ) :
    (changes.foldl change m)[k]?
      = ((changes.find? fun entry => entry.1 = k).map Prod.snd).getD m[k]? := by
  induction changes generalizing m with
  | nil => rfl
  | cons entry changes ih =>
      simp only [List.map_cons, List.nodup_cons] at hnodup
      rw [List.foldl_cons, ih hnodup.2, get_change]
      by_cases hk : entry.1 = k
      · -- No later change has the key of this one.
        have hnone : changes.find? (fun entry => entry.1 = k) = none := by
          rw [List.find?_eq_none]
          intro entry' hmem
          simp only [decide_eq_true_eq]
          rintro heq
          exact hnodup.1 (hk ▸ heq ▸ List.mem_map_of_mem hmem)
        simp [hk, hnone]
      · simp [hk]

/-- **What a batch leaves at a key.** -/
theorem get_overlay (m : BTreeMap κ ν) (changes : BTreeMap κ (Option ν)) (k : κ) :
    (overlay m changes)[k]? = (changes[k]?).getD m[k]? := by
  unfold overlay
  rw [get_foldl_change (nodup_toList_keys changes), find?_toList]

/-- A batch of insertions, folded in one by one. -/
theorem foldl_insert_eq_overlay (m entries : BTreeMap κ ν) :
    entries.toList.foldl (fun m entry => m.insert entry.1 entry.2) m
      = overlay m (entries.map fun _ v => some v) := by
  unfold overlay
  rw [toList_map, List.foldl_map]
  rfl

/-! ## Built by insertions -/

/-- What a map built by insertions holds was inserted. -/
theorem exists_of_get_foldl_insert {α : Type*} {f : α → κ} {g : α → ν} {l : List α}
    {m : BTreeMap κ ν} {k : κ} {v : ν}
    (h : (l.foldl (fun m a => m.insert (f a) (g a)) m)[k]? = some v) :
    (∃ a ∈ l, f a = k ∧ g a = v) ∨ m[k]? = some v := by
  induction l generalizing m with
  | nil => exact .inr h
  | cons a l ih =>
      rcases ih h with ⟨a', ha', hk⟩ | hget
      · exact .inl ⟨a', List.mem_cons_of_mem _ ha', hk⟩
      · rw [get_insert] at hget
        split at hget
        case isTrue hk => exact .inl ⟨a, List.mem_cons_self, hk, Option.some.inj hget⟩
        case isFalse => exact .inr hget

/-- A map built by insertions holds every key inserted. -/
theorem exists_get_foldl_insert {α : Type*} {f : α → κ} {g : α → ν} {l : List α}
    {m : BTreeMap κ ν} {k : κ} (h : (∃ a ∈ l, f a = k) ∨ ∃ v, m[k]? = some v) :
    ∃ v, (l.foldl (fun m a => m.insert (f a) (g a)) m)[k]? = some v := by
  induction l generalizing m with
  | nil =>
      rcases h with ⟨a, ha, -⟩ | h
      · cases ha
      · exact h
  | cons a l ih =>
      refine ih ?_
      by_cases hk : f a = k
      · exact .inr ⟨g a, by rw [get_insert, if_pos hk]⟩
      · rcases h with ⟨a', ha', hk'⟩ | ⟨v, hv⟩
        · rcases List.mem_cons.mp ha' with rfl | ha'
          · exact absurd hk' hk
          · exact .inl ⟨a', ha', hk'⟩
        · exact .inr ⟨v, by rw [get_insert, if_neg hk, hv]⟩

/-- Keys taken out are out, and nothing else is. -/
theorem get_foldl_erase_map {α : Type*} (f : α → κ) (l : List α) (m : BTreeMap κ ν) (k : κ) :
    (l.foldl (fun m a => m.erase (f a)) m)[k]? = if k ∈ l.map f then none else m[k]? := by
  induction l generalizing m with
  | nil => simp
  | cons a l ih =>
      rw [List.foldl_cons, ih, get_erase]
      simp only [List.map_cons, List.mem_cons]
      by_cases hk : f a = k
      · simp [hk]
      · simp [hk, Ne.symm hk]

/-- Keys that are put in where there were none, and taken out again, leave a map as it was. -/
theorem foldl_erase_foldl_insert {α : Type*} {f : α → κ} (g : α → ν) {l : List α}
    {m : BTreeMap κ ν} (h : ∀ a ∈ l, m[f a]? = none) :
    l.foldl (fun m a => m.erase (f a)) (l.foldl (fun m a => m.insert (f a) (g a)) m) = m := by
  refine BTreeMap.ext fun k => ?_
  rw [get_foldl_erase_map]
  split
  case isTrue hk =>
      obtain ⟨a, ha, rfl⟩ := List.mem_map.mp hk
      exact (h a ha).symm
  case isFalse hk =>
      have hnot : ∀ a ∈ l, f a ≠ k := fun a ha heq => hk (List.mem_map.mpr ⟨a, ha, heq⟩)
      clear h hk
      induction l generalizing m with
      | nil => rfl
      | cons a l ih =>
          obtain ⟨hhead, htail⟩ := List.forall_mem_cons.mp hnot
          rw [List.foldl_cons, ih htail, get_insert, if_neg hhead]

/-- One key, put in where there was none or taken from where there was. -/
theorem erase_insert_iff {m : BTreeMap κ ν} {k : κ} (v : ν) :
    (m.insert k v).erase k = m ↔ m.contains k = false := by
  constructor
  · intro h
    rw [← h, Std.ExtTreeMap.contains_erase]
    simp
  · intro h
    refine BTreeMap.ext fun a => ?_
    rw [get_erase]
    split
    case isTrue hk =>
        subst hk
        rw [← Bool.not_eq_true, contains_iff, not_exists] at h
        exact (Option.eq_none_iff_forall_ne_some.mpr h).symm
    case isFalse hk => rw [get_insert, if_neg hk]

/-! ## What holds of every entry -/

section Every

variable {P : κ → ν → Prop} {m : BTreeMap κ ν}

/-- A condition every entry meets. -/
def Every (P : κ → ν → Prop) (m : BTreeMap κ ν) : Prop :=
  ∀ (k : κ) (v : ν), m[k]? = some v → P k v

theorem every_empty : Every P (∅ : BTreeMap κ ν) := by
  intro k v h
  simp at h

theorem Every.insert (h : Every P m) {k : κ} {v : ν} (hv : P k v) : Every P (m.insert k v) := by
  intro k' v' hk'
  rw [get_insert] at hk'
  split at hk'
  case isTrue hk =>
      cases hk'
      exact hk ▸ hv
  case isFalse => exact h k' v' hk'

theorem Every.erase (h : Every P m) (k : κ) : Every P (m.erase k) := by
  intro k' v' hk'
  rw [get_erase] at hk'
  split at hk'
  case isTrue => cases hk'
  case isFalse => exact h k' v' hk'

theorem Every.filter (h : Every P m) (keep : κ → ν → Bool) : Every P (m.filter keep) := by
  intro k v hk
  rw [get_filter] at hk
  exact h k v (Option.filter_eq_some_iff.mp hk).1

end Every

end Lait.BTreeMap
