import Mathlib

/-!
# Sorted lists under radix keys

A key of a radix tree is read one digit at a time, and the order of the keys is the
order of their digits, the first difference deciding (`IsRadix`).  A node of the tree
sits at the **path** of digits that leads to it, and what it holds is a list of items,
sorted by key, whose keys all lie `Under` that path.

Two ways of splitting such a list by the next digit are compared here.  `slot` takes
the items of one digit wherever they stand; `runs` cuts the list where the digit
changes.  On a sorted list under a path they are the same (`mem_runs`), each slot lies
under its longer path, and the slots in order are the list again (`flatMap_slot`).
-/

namespace Lait.Radix

section Digits

variable {κ : Type*} [LinearOrder κ] {n : ℕ}

/-- Keys of `width` digits, ordered by their first difference. -/
structure IsRadix (digit : κ → ℕ → Fin n) (width : ℕ) : Prop where
  lt_of_digit : ∀ {a b : κ} {depth : ℕ}, depth < width →
    (∀ i < depth, digit a i = digit b i) → digit a depth < digit b depth → a < b
  ext : ∀ {a b : κ}, (∀ i < width, digit a i = digit b i) → a = b

/-- The key's first digits are the path. -/
def Under (digit : κ → ℕ → Fin n) (path : List (Fin n)) (k : κ) : Prop :=
  ∀ i (h : i < path.length), digit k i = path[i]

variable {digit : κ → ℕ → Fin n} {width : ℕ} {path : List (Fin n)} {a b : κ}

omit [LinearOrder κ] in
theorem under_nil (k : κ) : Under digit [] k := by
  intro i h
  cases h

omit [LinearOrder κ] in
/-- A path one digit longer fixes one digit more. -/
theorem under_concat {s : Fin n} {k : κ} :
    Under digit (path ++ [s]) k ↔ Under digit path k ∧ digit k path.length = s := by
  constructor
  · intro h
    refine ⟨fun i hi => ?_, ?_⟩
    · rw [h i (by rw [List.length_append]; omega), List.getElem_append_left hi]
    · rw [h path.length (by simp), List.getElem_concat_length rfl]
  · rintro ⟨h, rfl⟩ i hi
    rw [List.length_append, List.length_singleton] at hi
    rcases Nat.lt_succ_iff_lt_or_eq.mp hi with hlt | rfl
    · rw [h i hlt, List.getElem_append_left hlt]
    · rw [List.getElem_concat_length rfl]

omit [LinearOrder κ] in
theorem Under.agree (ha : Under digit path a) (hb : Under digit path b) :
    ∀ i < path.length, digit a i = digit b i := fun i hi => (ha i hi).trans (hb i hi).symm

/-- Below a full path there is one key. -/
theorem IsRadix.eq_of_under (hradix : IsRadix digit width) (hpath : width ≤ path.length)
    (ha : Under digit path a) (hb : Under digit path b) : a = b :=
  hradix.ext fun i hi => ha.agree hb i (hi.trans_le hpath)

theorem IsRadix.lt_of_under (hradix : IsRadix digit width) (hpath : path.length < width)
    (ha : Under digit path a) (hb : Under digit path b)
    (h : digit a path.length < digit b path.length) : a < b :=
  hradix.lt_of_digit hpath (ha.agree hb) h

/-- Under one path the next digit grows with the key. -/
theorem IsRadix.digit_le_of_lt (hradix : IsRadix digit width) (hpath : path.length < width)
    (ha : Under digit path a) (hb : Under digit path b) (h : a < b) :
    digit a path.length ≤ digit b path.length := by
  by_contra hlt
  exact lt_asymm h (hradix.lt_of_under hpath hb ha (not_le.mp hlt))

end Digits

/-! ## Runs -/

section Runs

variable {α σ : Type*} [LinearOrder σ]

/-- The list cut where `f` changes, each piece with its value of `f`. -/
def runs (f : α → σ) : List α → List (σ × List α)
  | [] => []
  | a :: l =>
      match runs f l with
      | [] => [(f a, [a])]
      | (s, run) :: rest =>
          if f a = s then (s, a :: run) :: rest else (f a, [a]) :: (s, run) :: rest

/-- A cut of a list along which `f` only grows has each value of `f` once, in order,
with all the items of that value. -/
theorem runs_spec {f : α → σ} {l : List α} (h : l.Pairwise fun a b => f a ≤ f b) :
    (runs f l).Pairwise (fun r r' => r.1 < r'.1) ∧
      ∀ s run, (s, run) ∈ runs f l ↔ run = l.filter (f · = s) ∧ run ≠ [] := by
  induction l with
  | nil =>
      refine ⟨List.Pairwise.nil, fun s run => ?_⟩
      simp only [runs, List.not_mem_nil, List.filter_nil, false_iff, not_and, not_not]
      exact id
  | cons a l ih =>
      obtain ⟨hhead, htail⟩ := List.pairwise_cons.mp h
      obtain ⟨hsorted, hmem⟩ := ih htail
      -- an item whose value no later item has
      have hlast : l.filter (f · = f a) = [] → ∀ s run,
          (s, run) ∈ (f a, [a]) :: runs f l ↔ run = (a :: l).filter (f · = s) ∧ run ≠ [] := by
        intro hnone s run
        rw [List.mem_cons, hmem, List.filter_cons]
        by_cases hs : f a = s
        · subst hs
          simp only [hnone, decide_true, if_true, Prod.mk.injEq, true_and]
          constructor
          · rintro (rfl | ⟨hnil, hne⟩)
            · exact ⟨rfl, List.cons_ne_nil _ _⟩
            · exact absurd hnil hne
          · exact fun h => Or.inl h.1
        · simp [hs, Ne.symm hs]
      cases hruns : runs f l with
      | nil =>
          rw [runs, hruns]
          refine ⟨List.pairwise_singleton _ _, ?_⟩
          rw [hruns] at hlast
          refine hlast (List.filter_eq_nil_iff.mpr fun b hb hfb => ?_)
          have hin := (hmem (f b) (l.filter (f · = f b))).mpr
            ⟨rfl, List.ne_nil_of_mem (List.mem_filter.mpr ⟨hb, by simp⟩)⟩
          rw [hruns] at hin
          cases hin
      | cons first rest =>
          obtain ⟨s, run⟩ := first
          rw [runs, hruns]
          dsimp only
          rw [hruns] at hsorted
          obtain ⟨hfirst, hrest⟩ := List.pairwise_cons.mp hsorted
          obtain ⟨hrun, hne⟩ := (hmem s run).mp (hruns ▸ List.mem_cons_self)
          have hle : f a ≤ s := by
            obtain ⟨b, hb⟩ := List.exists_mem_of_ne_nil run hne
            obtain ⟨hbl, hbs⟩ := List.mem_filter.mp (hrun ▸ hb)
            exact (hhead b hbl).trans_eq (of_decide_eq_true hbs)
          by_cases hs : f a = s
          · subst hs
            rw [if_pos rfl]
            refine ⟨List.pairwise_cons.mpr ⟨hfirst, hrest⟩, fun s' run' => ?_⟩
            have hold := hmem s' run'
            rw [hruns, List.mem_cons] at hold
            rw [List.mem_cons, List.filter_cons]
            by_cases hs' : f a = s'
            · subst hs'
              have hother : (f a, run') ∉ rest :=
                fun hin => lt_irrefl (f a) (hfirst (f a, run') hin)
              simp only [hother, or_false, Prod.mk.injEq, true_and, decide_true, if_true, ← hrun,
                ne_eq]
              exact (and_iff_left_of_imp fun heq => heq ▸ List.cons_ne_nil _ _).symm
            · rw [← List.mem_cons, List.mem_cons]
              simp only [Prod.mk.injEq, Ne.symm hs', false_and, false_or] at hold ⊢
              simpa [hs'] using hold
          · rw [if_neg hs]
            have hlt : f a < s := lt_of_le_of_ne hle hs
            refine ⟨List.pairwise_cons.mpr ⟨fun r hr => ?_, hsorted⟩, ?_⟩
            · rcases List.mem_cons.mp hr with rfl | hr
              · exact hlt
              · exact hlt.trans (hfirst r hr)
            · rw [hruns] at hlast
              refine hlast (List.filter_eq_nil_iff.mpr fun b hb hfb => ?_)
              have hin := (hmem (f b) (l.filter (f · = f b))).mpr
                ⟨rfl, List.ne_nil_of_mem (List.mem_filter.mpr ⟨hb, by simp⟩)⟩
              rw [hruns] at hin
              have heq : f b = f a := of_decide_eq_true hfb
              rcases List.mem_cons.mp hin with hin | hin
              · exact hs (heq.symm.trans (congrArg Prod.fst hin))
              · exact lt_asymm hlt (heq ▸ hfirst _ hin)

end Runs

/-! ## Slots -/

section Slots

variable {κ α : Type*} [LinearOrder κ] {n : ℕ}

/-- Strictly sorted by key. -/
def Sorted (key : α → κ) (l : List α) : Prop := l.Pairwise fun a b => key a < key b

/-- Every key lies under the path. -/
def AllUnder (digit : κ → ℕ → Fin n) (key : α → κ) (path : List (Fin n)) (l : List α) : Prop :=
  ∀ a ∈ l, Under digit path (key a)

/-- The items of one digit. -/
def slot (digit : κ → ℕ → Fin n) (key : α → κ) (depth : ℕ) (s : Fin n) (l : List α) : List α :=
  l.filter fun a => digit (key a) depth = s

variable {digit : κ → ℕ → Fin n} {key : α → κ} {width : ℕ} {path : List (Fin n)} {l l' : List α}

omit [LinearOrder κ] in
theorem mem_slot {depth : ℕ} {s : Fin n} {a : α} :
    a ∈ slot digit key depth s l ↔ a ∈ l ∧ digit (key a) depth = s := by
  rw [slot, List.mem_filter, decide_eq_true_iff]

theorem Sorted.slot (h : Sorted key l) (depth : ℕ) (s : Fin n) :
    Sorted key (slot digit key depth s l) := List.Pairwise.filter _ h

omit [LinearOrder κ] in
theorem AllUnder.slot (h : AllUnder digit key path l) (s : Fin n) :
    AllUnder digit key (path ++ [s]) (slot digit key path.length s l) := by
  intro a ha
  obtain ⟨hal, hs⟩ := mem_slot.mp ha
  exact under_concat.mpr ⟨h a hal, hs⟩

theorem Sorted.nodup (h : Sorted key l) : l.Nodup :=
  List.Pairwise.imp (fun hlt heq => hlt.ne (congrArg key heq)) h

theorem Sorted.nodup_keys (h : Sorted key l) : (l.map key).Nodup :=
  List.pairwise_map.mpr (List.Pairwise.imp (fun hlt => hlt.ne) h)

/-- A sorted list is determined by its items. -/
theorem Sorted.ext (h : Sorted key l) (h' : Sorted key l') (hmem : ∀ a, a ∈ l ↔ a ∈ l') :
    l = l' :=
  ((List.perm_ext_iff_of_nodup h.nodup h'.nodup).mpr hmem).eq_of_pairwise
    (fun _ _ _ _ hlt hgt => absurd hlt (lt_asymm hgt)) h h'

/-- In a sorted list a key names one item. -/
theorem Sorted.key_inj (h : Sorted key l) {a b : α} (ha : a ∈ l) (hb : b ∈ l)
    (hkey : key a = key b) : a = b :=
  List.inj_on_of_nodup_map h.nodup_keys ha hb hkey

/-! ### Sorting -/

/-- Sort by key, equal keys in the order they came. -/
def sortByKey (key : α → κ) (l : List α) : List α := l.insertionSort fun a b => key a ≤ key b

instance keyTotal (key : α → κ) : Std.Total fun a b => key a ≤ key b := ⟨fun _ _ => le_total _ _⟩

instance keyTrans (key : α → κ) : IsTrans α fun a b => key a ≤ key b := ⟨fun _ _ _ => le_trans⟩

theorem perm_sortByKey (key : α → κ) (l : List α) : (sortByKey key l).Perm l :=
  List.perm_insertionSort _ l

theorem mem_sortByKey {a : α} : a ∈ sortByKey key l ↔ a ∈ l := (perm_sortByKey key l).mem_iff

theorem length_sortByKey (key : α → κ) (l : List α) : (sortByKey key l).length = l.length :=
  (perm_sortByKey key l).length_eq

theorem pairwise_sortByKey (key : α → κ) (l : List α) :
    (sortByKey key l).Pairwise fun a b => key a ≤ key b := List.pairwise_insertionSort _ l

theorem Sorted.sortByKey_eq (h : Sorted key l) : sortByKey key l = l :=
  List.Pairwise.insertionSort_eq (List.Pairwise.imp (fun hlt => hlt.le) h)

/-- Distinct keys sort strictly. -/
theorem sorted_sortByKey (h : (l.map key).Nodup) : Sorted key (sortByKey key l) := by
  have hnodup : ((sortByKey key l).map key).Nodup := ((perm_sortByKey key l).map key).nodup_iff.mpr h
  exact List.Pairwise.imp₂ (fun _ _ hle hne => lt_of_le_of_ne hle hne) (pairwise_sortByKey key l)
    (List.pairwise_map.mp hnodup)

theorem nodup_keys_of_sorted (h : Sorted key (sortByKey key l)) : (l.map key).Nodup :=
  ((perm_sortByKey key l).map key).nodup_iff.mp h.nodup_keys

/-- Sorting keeps the items of one key in order. -/
theorem filter_sortByKey [DecidableEq κ] (key : α → κ) (l : List α) (k : κ) :
    (sortByKey key l).filter (key · = k) = l.filter (key · = k) := by
  induction l with
  | nil => rfl
  | cons a l ih =>
      have hinsert : ∀ m : List α, (m.orderedInsert (fun a b => key a ≤ key b) a).filter
          (key · = k) = (a :: m).filter (key · = k) := by
        intro m
        induction m with
        | nil => rfl
        | cons b m ihm =>
            rw [List.orderedInsert_cons]
            split
            case isTrue => rfl
            case isFalse hlt =>
                rw [List.filter_cons, ihm]
                by_cases ha : key a = k
                · have hb : key b ≠ k := fun hb => hlt (ha.trans hb.symm).le
                  simp [ha, hb]
                · simp [ha, List.filter_cons]
      show (List.orderedInsert _ a (sortByKey key l)).filter _ = _
      rw [hinsert, List.filter_cons, List.filter_cons, ih]

/-- A check of neighbours, for a transitive relation, is a check of all pairs. -/
theorem forall_windows_iff {R : α → α → Prop} [IsTrans α R] {l : List α} :
    (∀ window ∈ l.zip l.tail, R window.1 window.2) ↔ l.Pairwise R := by
  rw [← List.isChain_iff_pairwise]
  induction l with
  | nil => simp
  | cons a l ih =>
      cases l with
      | nil => simp
      | cons b l =>
          rw [List.isChain_cons_cons, ← ih]
          simp [List.zip]

/-! ### Slots under a path -/

/-- Below a full path a sorted list has one item at most. -/
theorem Sorted.length_le_one (h : Sorted key l) (hradix : IsRadix digit width)
    (hunder : AllUnder digit key path l) (hpath : width ≤ path.length) : l.length ≤ 1 := by
  match l with
  | [] => exact Nat.zero_le 1
  | [a] => exact le_rfl
  | a :: b :: rest =>
      have hlt := (List.pairwise_cons.mp h).1 b List.mem_cons_self
      rw [hradix.eq_of_under hpath (hunder a List.mem_cons_self)
        (hunder b (List.mem_cons_of_mem _ List.mem_cons_self))] at hlt
      exact absurd hlt (lt_irrefl _)

theorem Sorted.digits_grow (h : Sorted key l) (hradix : IsRadix digit width)
    (hunder : AllUnder digit key path l) (hpath : path.length < width) :
    l.Pairwise fun a b => digit (key a) path.length ≤ digit (key b) path.length :=
  List.Pairwise.imp_of_mem (fun ha hb hlt =>
    hradix.digit_le_of_lt hpath (hunder _ ha) (hunder _ hb) hlt) h

/-- **The runs are the slots** that hold anything. -/
theorem Sorted.mem_runs (h : Sorted key l) (hradix : IsRadix digit width)
    (hunder : AllUnder digit key path l) (hpath : path.length < width) {s : Fin n} {run : List α} :
    (s, run) ∈ runs (fun a => digit (key a) path.length) l ↔
      run = Radix.slot digit key path.length s l ∧ run ≠ [] :=
  (runs_spec (h.digits_grow hradix hunder hpath)).2 s run

theorem Sorted.pairwise_runs (h : Sorted key l) (hradix : IsRadix digit width)
    (hunder : AllUnder digit key path l) (hpath : path.length < width) :
    (runs (fun a => digit (key a) path.length) l).Pairwise fun r r' => r.1 < r'.1 :=
  (runs_spec (h.digits_grow hradix hunder hpath)).1

/-- Lists of one slot each, slot by slot, make a sorted list. -/
theorem sorted_flatMap (hradix : IsRadix digit width) (hpath : path.length < width)
    {f : Fin n → List α} (hsorted : ∀ s, Sorted key (f s))
    (hunder : ∀ s, AllUnder digit key (path ++ [s]) (f s)) :
    Sorted key ((List.finRange n).flatMap f) := by
  refine List.pairwise_flatMap.mpr ⟨fun s _ => hsorted s, ?_⟩
  refine List.Pairwise.imp (fun hlt a ha b hb => ?_) (List.pairwise_lt_finRange n)
  obtain ⟨hpa, hsa⟩ := under_concat.mp (hunder _ a ha)
  obtain ⟨hpb, hsb⟩ := under_concat.mp (hunder _ b hb)
  exact hradix.lt_of_under hpath hpa hpb (by rw [hsa, hsb]; exact hlt)

/-- **The slots in order are the list.** -/
theorem Sorted.flatMap_slot (h : Sorted key l) (hradix : IsRadix digit width)
    (hunder : AllUnder digit key path l) (hpath : path.length < width) :
    (List.finRange n).flatMap (Radix.slot digit key path.length · l) = l := by
  refine (sorted_flatMap hradix hpath (fun s => h.slot _ s) fun s => hunder.slot s).ext h ?_
  intro a
  simp only [List.mem_flatMap, List.mem_finRange, true_and, mem_slot]
  exact ⟨fun ⟨_, ha, _⟩ => ha, fun ha => ⟨_, ha, rfl⟩⟩

/-- A slot of lists put together slot by slot is the list put there. -/
theorem slot_flatMap (hradix : IsRadix digit width) (hpath : path.length < width)
    {f : Fin n → List α} (hsorted : ∀ s, Sorted key (f s))
    (hunder : ∀ s, AllUnder digit key (path ++ [s]) (f s)) (s : Fin n) :
    Radix.slot digit key path.length s ((List.finRange n).flatMap f) = f s := by
  refine ((sorted_flatMap hradix hpath hsorted hunder).slot _ s).ext (hsorted s) fun a => ?_
  simp only [mem_slot, List.mem_flatMap, List.mem_finRange, true_and]
  constructor
  · rintro ⟨⟨s', ha⟩, hs⟩
    obtain rfl := (under_concat.mp (hunder s' a ha)).2.symm.trans hs
    exact ha
  · exact fun ha => ⟨⟨s, ha⟩, (under_concat.mp (hunder s a ha)).2⟩

omit [LinearOrder κ] in
theorem AllUnder.flatMap {f : Fin n → List α}
    (hunder : ∀ s, AllUnder digit key (path ++ [s]) (f s)) :
    AllUnder digit key path ((List.finRange n).flatMap f) := by
  intro a ha
  obtain ⟨s, -, ha⟩ := List.mem_flatMap.mp ha
  exact (under_concat.mp (hunder s a ha)).1

end Slots

end Lait.Radix
