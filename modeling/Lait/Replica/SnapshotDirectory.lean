import Lait.OrderedMap
import Lait.Paging

/-!
# The snapshot directory

A sorted directory kept as a list of leaves, each a sorted run of at most 256 entries.  A
key is looked for by a binary search over the last keys of the leaves and then inside
one leaf.  A write replaces one leaf, splits one that has grown past its bound and drops
one that has become empty; the other leaves are the same objects in the directory before
the write and after it.

The leaf the search ends at splits the entries: those of the leaves before it lie below
the key, those of the leaves after it above (`leafFor_spec`).  Inside the leaf the entries
split again, so every operation acts on a list cut around its key (`exists_cut`), and
what it leaves is that list with the middle exchanged (`insert_spec`, `remove_spec`).
-/

namespace Lait.Replica

/-- The most entries of a leaf. -/
def SNAPSHOT_DIRECTORY_LEAF : ℕ := 256

structure SnapshotDirectoryEntry (K V : Type) where
  key : K
  value : V
  deriving DecidableEq

/-- A persistent sorted directory with dense, bounded leaves. -/
structure SnapshotDirectory (K V : Type) where
  leaves : List (List (SnapshotDirectoryEntry K V))
  len : ℕ
  deriving DecidableEq

namespace SnapshotDirectory

variable {K V : Type} [LinearOrder K]

/-- `binary_search_by` on the keys of a sorted leaf: where the key is, or where it would be
put. -/
def binarySearch (leaf : List (SnapshotDirectoryEntry K V)) (key : K) : Except ℕ ℕ :=
  let position := (leaf.takeWhile fun entry => entry.key < key).length
  if leaf[position]?.any fun entry => entry.key = key then .ok position else .error position

/-- `partition_point`: how many entries of a sorted leaf are at or below the key. -/
def partitionPoint (leaf : List (SnapshotDirectoryEntry K V)) (key : K) : ℕ :=
  (leaf.takeWhile fun entry => entry.key ≤ key).length

/-- The binary search of `leaf_for`, for the first leaf whose last key is not below `key`. -/
def search (leaves : List (List (SnapshotDirectoryEntry K V))) (key : K) (low high : ℕ) :
    Option ℕ :=
  if low < high then
    let mid := low + (high - low) / 2
    match leaves[mid]? with
    | none => none
    | some leaf =>
        match leaf.getLast? with
        | none => none
        | some last => if last.key < key then search leaves key (mid + 1) high
            else search leaves key low mid
  else some low
termination_by high - low

variable (d : SnapshotDirectory K V)

/-- The leaf a key belongs in. -/
def leafFor (key : K) : Option ℕ :=
  (search d.leaves key 0 d.leaves.length).map fun low => min low (d.leaves.length - 1)

/-- The entry of a key. -/
def getKeyValue (key : K) : Option (SnapshotDirectoryEntry K V) :=
  if d.leaves.isEmpty then none
  else do
    let leafIndex ← d.leafFor key
    let leaf ← d.leaves[leafIndex]?
    match binarySearch leaf key with
    | .ok position => leaf[position]?
    | .error _ => none

def get (key : K) : Option V := (d.getKeyValue key).map SnapshotDirectoryEntry.value

/-- Put a grown leaf in its place, as two where it is over the bound. -/
def placeLeaf (leaves : List (List (SnapshotDirectoryEntry K V))) (leafIndex : ℕ)
    (leaf : List (SnapshotDirectoryEntry K V)) : List (List (SnapshotDirectoryEntry K V)) :=
  if leaf.length ≤ SNAPSHOT_DIRECTORY_LEAF then leaves.set leafIndex leaf
  else
    let half := leaf.length / 2
    (leaves.set leafIndex (leaf.take half)).insertIdx (leafIndex + 1) (leaf.drop half)

/-- Put the value of a key; what it was before is returned. -/
def insert (key : K) (value : V) : Option V × SnapshotDirectory K V :=
  if d.leaves.isEmpty then (none, ⟨[[⟨key, value⟩]], 1⟩)
  else
    match d.leafFor key with
    | none => (none, d)
    | some leafIndex =>
        match d.leaves[leafIndex]? with
        | none => (none, d)
        | some leaf =>
            match binarySearch leaf key with
            | .ok position =>
                match leaf[position]? with
                | none => (none, d)
                | some old =>
                    (some old.value,
                      { d with leaves := d.leaves.set leafIndex (leaf.set position { old with value }) })
            | .error position =>
                let grown := leaf.insertIdx position ⟨key, value⟩
                (none, ⟨placeLeaf d.leaves leafIndex grown, d.len + 1⟩)

/-- Take a key out; what it held is returned. -/
def remove (key : K) : Option V × SnapshotDirectory K V :=
  if d.leaves.isEmpty then (none, d)
  else
    match d.leafFor key with
    | none => (none, d)
    | some leafIndex =>
        match d.leaves[leafIndex]? with
        | none => (none, d)
        | some leaf =>
            match binarySearch leaf key with
            | .error _ => (none, d)
            | .ok position =>
                match leaf[position]? with
                | none => (none, d)
                | some old =>
                    let leaf := leaf.eraseIdx position
                    if leaf.isEmpty then
                      (some old.value, ⟨d.leaves.eraseIdx leafIndex, d.len - 1⟩)
                    else (some old.value, ⟨d.leaves.set leafIndex leaf, d.len - 1⟩)

/-- The entries, leaf by leaf. -/
def iter : List (SnapshotDirectoryEntry K V) := d.leaves.flatten

def keys : List K := d.iter.map SnapshotDirectoryEntry.key

/-- Fill a page from a leaf on; in the first leaf only what lies past the cursor. -/
def fillPage (after : Option K) (limit : ℕ) :
    List (List (SnapshotDirectoryEntry K V)) → Bool → List K → List K
  | [], _, page => page
  | leaf :: leaves, first, page =>
      if page.length < limit then
        let start := if first then after.elim 0 (partitionPoint leaf) else 0
        fillPage after limit leaves false
          (page ++ ((leaf.drop start).take (limit - page.length)).map SnapshotDirectoryEntry.key)
      else page

/-- The first keys past a cursor. -/
def keysPageAfter (after : Option K) (limit : ℕ) : List K :=
  if limit = 0 || d.leaves.isEmpty then []
  else
    let leafIndex := (after.bind d.leafFor).getD 0
    fillPage after limit (d.leaves.drop leafIndex) true []

/-! ## Where a key belongs -/

/-- The shape of a directory: its entries ascend leaf after leaf, its leaves are neither empty nor
over their bound, and its length is counted. -/
structure Ordered (d : SnapshotDirectory K V) : Prop where
  ascending : d.iter.Pairwise fun a b => a.key < b.key
  leaf : ∀ leaf ∈ d.leaves, leaf ≠ [] ∧ leaf.length ≤ SNAPSHOT_DIRECTORY_LEAF
  len : d.len = d.iter.length

theorem Ordered.of_iter {d : SnapshotDirectory K V} {l : List (SnapshotDirectoryEntry K V)}
    (hiter : d.iter = l) (hascending : l.Pairwise fun a b => a.key < b.key)
    (hleaf : ∀ leaf ∈ d.leaves, leaf ≠ [] ∧ leaf.length ≤ SNAPSHOT_DIRECTORY_LEAF)
    (hlen : d.len = l.length) : d.Ordered where
  ascending := hiter ▸ hascending
  leaf := hleaf
  len := hiter ▸ hlen

section Search

variable {leaves : List (List (SnapshotDirectoryEntry K V))} {key : K}
  (hascending : leaves.flatten.Pairwise fun a b => a.key < b.key) (hne : ∀ leaf ∈ leaves, leaf ≠ [])

omit [LinearOrder K] in
/-- The entries before the last of a leaf, and those after it. -/
theorem flatten_split {mid : ℕ} {leaf : List (SnapshotDirectoryEntry K V)}
    (hleaf : leaves[mid]? = some leaf) {last : SnapshotDirectoryEntry K V}
    (hlast : leaf.getLast? = some last) :
    ∃ before, (leaves.take (mid + 1)).flatten = before ++ [last] ∧
      leaves.flatten = before ++ last :: (leaves.drop (mid + 1)).flatten := by
  obtain ⟨hmid, hget⟩ := List.getElem?_eq_some_iff.mp hleaf
  obtain ⟨front, rfl⟩ := List.getLast?_eq_some_iff.mp hlast
  have htake : (leaves.take (mid + 1)).flatten = ((leaves.take mid).flatten ++ front) ++ [last] := by
    rw [List.take_add_one, hleaf, Option.toList_some, List.flatten_append, List.flatten_singleton,
      List.append_assoc]
  refine ⟨_, htake, ?_⟩
  conv_lhs => rw [← List.take_append_drop (mid + 1) leaves]
  rw [List.flatten_append, htake, List.append_assoc, List.singleton_append]

include hascending hne

/-- **The search ends between the leaves below the key and those above it.** -/
theorem search_spec {low high : ℕ} (hle : low ≤ high) (hhigh : high ≤ leaves.length)
    (hbelow : ∀ e ∈ (leaves.take low).flatten, e.key < key)
    (habove : ∀ e ∈ (leaves.drop (high + 1)).flatten, key < e.key) :
    ∃ index, search leaves key low high = some index ∧ index ≤ leaves.length ∧
      (∀ e ∈ (leaves.take index).flatten, e.key < key) ∧
      ∀ e ∈ (leaves.drop (index + 1)).flatten, key < e.key := by
  induction hspan : high - low using Nat.strong_induction_on generalizing low high with
  | h span ih =>
      unfold search
      by_cases hlt : low < high
      · have hmid : low + (high - low) / 2 < leaves.length := by omega
        have hleaf : leaves[low + (high - low) / 2]? = some (leaves.get ⟨_, hmid⟩) :=
          List.getElem?_eq_getElem hmid
        generalize leaves.get ⟨_, hmid⟩ = leaf at hleaf
        obtain ⟨last, hlast⟩ : ∃ last, leaf.getLast? = some last :=
          ⟨_, List.getLast?_eq_some_getLast (hne leaf (List.mem_of_getElem? hleaf))⟩
        obtain ⟨before, htake, hflat⟩ := flatten_split hleaf hlast
        rw [hflat] at hascending
        obtain ⟨-, hafter, hcross⟩ := List.pairwise_append.mp hascending
        rw [if_pos hlt]
        simp only [hleaf, hlast]
        by_cases hless : last.key < key
        · rw [if_pos hless]
          refine ih _ (by omega) (by omega) hhigh ?_ habove rfl
          rw [htake]
          intro e he
          rcases List.mem_append.mp he with he | he
          · exact (hcross e he last List.mem_cons_self).trans hless
          · rwa [List.mem_singleton.mp he]
        · rw [if_neg hless]
          refine ih _ (by omega) (by omega) hmid.le hbelow (fun e he => ?_) rfl
          exact (not_lt.mp hless).trans_lt ((List.pairwise_cons.mp hafter).1 e he)
      · obtain rfl : low = high := le_antisymm hle (not_lt.mp hlt)
        rw [if_neg hlt]
        exact ⟨low, rfl, hhigh, hbelow, habove⟩

end Search

/-- **The leaf of a key**: the entries of the leaves before it lie below, those after it above. -/
theorem leafFor_spec {d : SnapshotDirectory K V} (h : d.Ordered) (hne : d.leaves ≠ []) (key : K) :
    ∃ earlier leaf later, d.leaves = earlier ++ leaf :: later ∧
      d.leafFor key = some earlier.length ∧ (∀ e ∈ earlier.flatten, e.key < key) ∧
      ∀ e ∈ later.flatten, key < e.key := by
  obtain ⟨index, hindex, hle, hbelow, habove⟩ := @search_spec _ _ _ _ key h.ascending
    (fun leaf hleaf => (h.leaf leaf hleaf).1) 0 _ (Nat.zero_le _) le_rfl
    (fun e he => absurd he (by simp))
    (fun e he => absurd he (by rw [List.drop_eq_nil_of_le (Nat.le_succ _)]; simp))
  have hpos : 0 < d.leaves.length := List.length_pos_iff.mpr hne
  have hmin : min index (d.leaves.length - 1) < d.leaves.length := by omega
  refine ⟨d.leaves.take (min index (d.leaves.length - 1)), d.leaves.get ⟨_, hmin⟩,
    d.leaves.drop (min index (d.leaves.length - 1) + 1), ?_, ?_, ?_, ?_⟩
  · rw [List.get_eq_getElem, ← List.drop_eq_getElem_cons, List.take_append_drop]
  · unfold leafFor
    rw [hindex, Option.map_some, List.length_take, min_eq_left hmin.le]
  · intro e he
    obtain ⟨leaf, hleaf, he⟩ := List.mem_flatten.mp he
    refine hbelow e (List.mem_flatten.mpr ⟨leaf, ?_, he⟩)
    exact List.take_subset_take_left _ (min_le_left _ _) hleaf
  · -- Past the last leaf the search is brought back to it, and nothing lies after it.
    by_cases hlast : index ≤ d.leaves.length - 1
    · rwa [min_eq_left hlast]
    · intro e he
      rw [List.drop_eq_nil_of_le (by omega)] at he
      exact absurd he (by simp)

/-- **A leaf around a key**, and where the search inside it ends. -/
theorem leaf_cut {leaf : List (SnapshotDirectoryEntry K V)}
    (hascending : leaf.Pairwise fun a b => a.key < b.key) (key : K) :
    ∃ before middle after, leaf = before ++ (middle ++ after) ∧ (∀ e ∈ before, e.key < key) ∧
      (∀ e ∈ after, key < e.key) ∧
      (middle = [] ∧ binarySearch leaf key = .error before.length ∨
        ∃ old, old.key = key ∧ middle = [old] ∧ binarySearch leaf key = .ok before.length) := by
  have hsplit := List.takeWhile_append_dropWhile (p := fun entry => decide (entry.key < key))
    (l := leaf)
  have hbelow : ∀ e ∈ leaf.takeWhile fun entry => decide (entry.key < key), e.key < key :=
    fun e he => by simpa using List.mem_takeWhile_imp he
  unfold binarySearch
  generalize hbefore : (leaf.takeWhile fun entry => decide (entry.key < key)) = before at *
  cases hrest : leaf.dropWhile fun entry => decide (entry.key < key) with
  | nil =>
      rw [hrest, List.append_nil] at hsplit
      refine ⟨before, [], [], by simpa using hsplit.symm, hbelow, by simp, .inl ⟨rfl, ?_⟩⟩
      simp [hsplit]
  | cons next rest =>
      rw [hrest] at hsplit
      have hnext : leaf[before.length]? = some next := by simp [← hsplit]
      have hnot : ¬ next.key < key := by
        have hhead := List.head?_dropWhile_not (fun entry => decide (entry.key < key)) leaf
        rw [hrest] at hhead
        simpa using hhead
      have hordered : ∀ e ∈ rest, next.key < e.key := by
        rw [← hsplit] at hascending
        exact (List.pairwise_cons.mp (List.pairwise_append.mp hascending).2.1).1
      simp only [hnext, Option.any_some]
      by_cases hkey : next.key = key
      · refine ⟨before, [next], rest, hsplit.symm, hbelow, fun e he => hkey ▸ hordered e he,
          .inr ⟨next, hkey, rfl, ?_⟩⟩
        simp [hkey]
      · have hgt : key < next.key := lt_of_le_of_ne (not_lt.mp hnot) (Ne.symm hkey)
        refine ⟨before, [], next :: rest, hsplit.symm, hbelow, ?_, .inl ⟨rfl, ?_⟩⟩
        · intro e he
          rcases List.mem_cons.mp he with rfl | he
          · exact hgt
          · exact hgt.trans (hordered e he)
        · simp [hkey]

/-- A directory around a key: the leaves before and after its own, and in it the entries below,
the one of the key if there is one, and those above. -/
structure Cut (d : SnapshotDirectory K V) (key : K)
    (earlier later : List (List (SnapshotDirectoryEntry K V)))
    (before middle after : List (SnapshotDirectoryEntry K V)) : Prop where
  leaves : d.leaves = earlier ++ (before ++ (middle ++ after)) :: later
  leafFor : d.leafFor key = some earlier.length
  below : ∀ e ∈ earlier.flatten ++ before, e.key < key
  above : ∀ e ∈ after ++ later.flatten, key < e.key
  found : middle = [] ∧ binarySearch (before ++ (middle ++ after)) key = .error before.length ∨
    ∃ old, old.key = key ∧ middle = [old] ∧
      binarySearch (before ++ (middle ++ after)) key = .ok before.length

/-- **A directory with leaves can be cut around any key.** -/
theorem exists_cut {d : SnapshotDirectory K V} (h : d.Ordered) (hne : d.leaves ≠ []) (key : K) :
    ∃ earlier later before middle after, d.Cut key earlier later before middle after := by
  obtain ⟨earlier, leaf, later, hleaves, hleafFor, hbelow, habove⟩ := leafFor_spec h hne key
  have hleaf : leaf.Pairwise fun a b => a.key < b.key := by
    have hascending := h.ascending
    unfold iter at hascending
    rw [hleaves, List.flatten_append, List.flatten_cons] at hascending
    exact (List.pairwise_append.mp (List.pairwise_append.mp hascending).2.1).1
  obtain ⟨before, middle, after, rfl, hbefore, hafter, hfound⟩ := leaf_cut hleaf key
  refine ⟨earlier, later, before, middle, after, hleaves, hleafFor, ?_, ?_, hfound⟩
  · intro e he
    exact (List.mem_append.mp he).elim (hbelow e) (hbefore e)
  · intro e he
    exact (List.mem_append.mp he).elim (hafter e) (habove e)

namespace Cut

variable {d : SnapshotDirectory K V} {key : K}
  {earlier later : List (List (SnapshotDirectoryEntry K V))}
  {before middle after : List (SnapshotDirectoryEntry K V)}

theorem iter (h : d.Cut key earlier later before middle after) :
    d.iter = (earlier.flatten ++ before) ++ (middle ++ (after ++ later.flatten)) := by
  unfold SnapshotDirectory.iter
  rw [h.leaves]
  simp

theorem getElem (h : d.Cut key earlier later before middle after) :
    d.leaves[earlier.length]? = some (before ++ (middle ++ after)) := by
  rw [h.leaves]
  simp

theorem isEmpty (h : d.Cut key earlier later before middle after) : d.leaves.isEmpty = false := by
  rw [h.leaves]
  simp

/-- Exchanging the leaf. -/
theorem set (h : d.Cut key earlier later before middle after)
    (leaf : List (SnapshotDirectoryEntry K V)) :
    d.leaves.set earlier.length leaf = earlier ++ leaf :: later := by
  rw [h.leaves]
  simp

/-- The leaves on both sides keep their bounds. -/
theorem others (h : d.Cut key earlier later before middle after) (hordered : d.Ordered) :
    ∀ leaf ∈ earlier ++ later, leaf ≠ [] ∧ leaf.length ≤ SNAPSHOT_DIRECTORY_LEAF := by
  intro leaf hleaf
  refine hordered.leaf leaf ?_
  rw [h.leaves]
  rcases List.mem_append.mp hleaf with hleaf | hleaf
  · exact List.mem_append_left _ hleaf
  · exact List.mem_append_right _ (List.mem_cons_of_mem _ hleaf)

/-- The leaf that is cut keeps to its bound. -/
theorem length_le (h : d.Cut key earlier later before middle after) (hordered : d.Ordered) :
    before.length + (middle.length + after.length) ≤ SNAPSHOT_DIRECTORY_LEAF := by
  have hleaf := (hordered.leaf (before ++ (middle ++ after)) (by rw [h.leaves]; simp)).2
  rwa [List.length_append, List.length_append] at hleaf

end Cut

/-! ## What the operations leave -/

/-- Entries around a key. -/
structure Around (l : List (SnapshotDirectoryEntry K V)) (key : K)
    (below middle above : List (SnapshotDirectoryEntry K V)) : Prop where
  eq : l = below ++ (middle ++ above)
  below : ∀ e ∈ below, e.key < key
  above : ∀ e ∈ above, key < e.key
  middle : middle = [] ∨ ∃ old, old.key = key ∧ middle = [old]

theorem Cut.around {d : SnapshotDirectory K V} {key : K}
    {earlier later : List (List (SnapshotDirectoryEntry K V))}
    {before middle after : List (SnapshotDirectoryEntry K V)}
    (h : d.Cut key earlier later before middle after) :
    Around d.iter key (earlier.flatten ++ before) middle (after ++ later.flatten) where
  eq := h.iter
  below := h.below
  above := h.above
  middle := h.found.imp And.left fun ⟨old, hkey, hmiddle, _⟩ => ⟨old, hkey, hmiddle⟩

namespace Around

variable {l : List (SnapshotDirectoryEntry K V)} {key : K}
  {below middle above : List (SnapshotDirectoryEntry K V)}

/-- What takes the place of the middle stands in order. -/
theorem ascending (h : Around l key below middle above)
    (hl : l.Pairwise fun a b => a.key < b.key) {entry : SnapshotDirectoryEntry K V}
    (hkey : entry.key = key) : (below ++ entry :: above).Pairwise fun a b => a.key < b.key := by
  rw [h.eq] at hl
  obtain ⟨hbelow, hrest, hcross⟩ := List.pairwise_append.mp hl
  have habove := (List.pairwise_append.mp hrest).2.1
  refine List.pairwise_append.mpr ⟨hbelow, List.pairwise_cons.mpr ⟨fun e he => ?_, habove⟩, ?_⟩
  · exact hkey ▸ h.above e he
  · intro e he e' he'
    rcases List.mem_cons.mp he' with rfl | he'
    · exact hkey ▸ h.below e he
    · exact hcross e he e' (List.mem_append_right _ he')

/-- Entries of another key are on either side. -/
theorem mem_of_ne (h : Around l key below middle above) {entry : SnapshotDirectoryEntry K V}
    (hne : entry.key ≠ key) : entry ∈ l ↔ entry ∈ below ∨ entry ∈ above := by
  have hmiddle : entry ∉ middle := by
    rintro hmem
    rcases h.middle with hnil | ⟨old, hkey, hold⟩
    · rw [hnil] at hmem
      exact absurd hmem List.not_mem_nil
    · rw [hold] at hmem
      exact hne (List.mem_singleton.mp hmem ▸ hkey)
  rw [h.eq]
  simp [hmiddle]

/-- The entry of the key is in the middle. -/
theorem mem_of_eq (h : Around l key below middle above) {entry : SnapshotDirectoryEntry K V}
    (heq : entry.key = key) : entry ∈ l ↔ middle.head? = some entry := by
  have hbelow : entry ∉ below := fun hmem => (h.below entry hmem).ne heq
  have habove : entry ∉ above := fun hmem => (h.above entry hmem).ne heq.symm
  rw [h.eq]
  rcases h.middle with hnil | ⟨old, hkey, hold⟩
  · simp [hbelow, habove, hnil]
  · simp [hbelow, habove, hold, eq_comm]

end Around

omit [LinearOrder K] in
theorem insertIdx_length {α : Type} (before after : List α) (a : α) :
    (before ++ after).insertIdx before.length a = before ++ a :: after := by
  induction before with
  | nil => rfl
  | cons b before ih =>
      rw [List.cons_append, List.length_cons, List.insertIdx_succ_cons, ih, List.cons_append]

omit [LinearOrder K] in
theorem eraseIdx_length {α : Type} (before after : List α) (a : α) :
    (before ++ a :: after).eraseIdx before.length = before ++ after := by
  induction before with
  | nil => rfl
  | cons b before ih =>
      rw [List.cons_append, List.length_cons, List.eraseIdx_cons_succ, ih, List.cons_append]

theorem getKeyValue_around {d : SnapshotDirectory K V} (h : d.Ordered) (key : K) :
    ∃ below middle above, Around d.iter key below middle above ∧
      d.getKeyValue key = middle.head? := by
  by_cases hnil : d.leaves = []
  · refine ⟨[], [], [], ⟨by simp [iter, hnil], by simp, by simp, .inl rfl⟩, ?_⟩
    unfold getKeyValue
    simp [hnil]
  · obtain ⟨earlier, later, before, middle, after, hcut⟩ := exists_cut h hnil key
    refine ⟨_, _, _, hcut.around, ?_⟩
    unfold getKeyValue
    rw [hcut.isEmpty, hcut.leafFor]
    simp only [Bool.false_eq_true, if_false, Option.bind_eq_bind, Option.bind_some, hcut.getElem]
    rcases hcut.found with ⟨rfl, hfound⟩ | ⟨old, -, rfl, hfound⟩
    · rw [hfound]
      rfl
    · rw [hfound]
      simp

omit [LinearOrder K] in
/-- **A grown leaf is kept whole or split, and nothing is lost.** -/
theorem placeLeaf_spec {leaves earlier later : List (List (SnapshotDirectoryEntry K V))}
    {leaf grown : List (SnapshotDirectoryEntry K V)} (hleaves : leaves = earlier ++ leaf :: later)
    (hothers : ∀ leaf ∈ earlier ++ later, leaf ≠ [] ∧ leaf.length ≤ SNAPSHOT_DIRECTORY_LEAF)
    (hpos : 0 < grown.length) (hgrown : grown.length ≤ SNAPSHOT_DIRECTORY_LEAF + 1) :
    (placeLeaf leaves earlier.length grown).flatten =
        earlier.flatten ++ (grown ++ later.flatten) ∧
      ∀ leaf ∈ placeLeaf leaves earlier.length grown,
        leaf ≠ [] ∧ leaf.length ≤ SNAPSHOT_DIRECTORY_LEAF := by
  have hset : ∀ leaf', leaves.set earlier.length leaf' = earlier ++ leaf' :: later := fun leaf' => by
    rw [hleaves]
    simp
  unfold placeLeaf
  split
  next hfits =>
    rw [hset]
    refine ⟨by rw [List.flatten_append, List.flatten_cons], fun leaf hleaf => ?_⟩
    rcases List.mem_append.mp hleaf with hleaf | hleaf
    · exact hothers leaf (List.mem_append_left _ hleaf)
    · rcases List.mem_cons.mp hleaf with rfl | hleaf
      · exact ⟨List.length_pos_iff.mp hpos, hfits⟩
      · exact hothers leaf (List.mem_append_right _ hleaf)
  next hsplit =>
    have hinsert : ∀ left right : List (SnapshotDirectoryEntry K V),
        (earlier ++ left :: later).insertIdx (earlier.length + 1) right =
          earlier ++ left :: right :: later := fun left right => by
      have hstep := insertIdx_length (earlier ++ [left]) later right
      simpa using hstep
    dsimp only
    rw [hset, hinsert]
    refine ⟨?_, fun leaf hleaf => ?_⟩
    · rw [List.flatten_append, List.flatten_cons, List.flatten_cons,
        ← List.append_assoc (grown.take _), List.take_append_drop]
    · unfold SNAPSHOT_DIRECTORY_LEAF at hsplit hgrown ⊢
      rcases List.mem_append.mp hleaf with hleaf | hleaf
      · exact hothers leaf (List.mem_append_left _ hleaf)
      · rcases List.mem_cons.mp hleaf with rfl | hleaf
        · rw [← List.length_pos_iff, List.length_take]
          omega
        · rcases List.mem_cons.mp hleaf with rfl | hleaf
          · rw [← List.length_pos_iff, List.length_drop]
            omega
          · exact hothers leaf (List.mem_append_right _ hleaf)

/-- **An insertion puts the entry between what lies below its key and what lies above.** -/
theorem insert_spec {d : SnapshotDirectory K V} (h : d.Ordered) (key : K) (value : V) :
    ∃ below middle above, Around d.iter key below middle above ∧
      (d.insert key value).1 = middle.head?.map SnapshotDirectoryEntry.value ∧
      (d.insert key value).2.iter = below ++ ⟨key, value⟩ :: above ∧
      (d.insert key value).2.Ordered := by
  by_cases hnil : d.leaves = []
  · refine ⟨[], [], [], ⟨by simp [iter, hnil], by simp, by simp, .inl rfl⟩, ?_⟩
    unfold insert
    rw [if_pos (List.isEmpty_iff.mpr hnil)]
    refine ⟨rfl, rfl, List.pairwise_singleton _ _, ?_, rfl⟩
    intro leaf hleaf
    rw [List.mem_singleton.mp hleaf]
    exact ⟨List.cons_ne_nil _ _, Nat.le_add_left 1 255⟩
  · obtain ⟨earlier, later, before, middle, after, hcut⟩ := exists_cut h hnil key
    refine ⟨_, _, _, hcut.around, ?_⟩
    have hentry : (⟨key, value⟩ : SnapshotDirectoryEntry K V).key = key := rfl
    have hascending := hcut.around.ascending h.ascending hentry
    have hlength := hcut.length_le h
    have hiter := hcut.iter
    unfold insert
    rw [hcut.isEmpty, hcut.leafFor]
    simp only [Bool.false_eq_true, if_false, hcut.getElem]
    rcases hcut.found with ⟨rfl, hfound⟩ | ⟨old, hkey, rfl, hfound⟩
    · simp only [List.nil_append] at hfound
      simp only [List.nil_append, hfound, insertIdx_length]
      rw [List.length_nil, Nat.zero_add] at hlength
      have hgrown : (before ++ (⟨key, value⟩ : SnapshotDirectoryEntry K V) :: after).length ≤
          SNAPSHOT_DIRECTORY_LEAF + 1 := by
        rw [List.length_append, List.length_cons]
        omega
      obtain ⟨hflat, hleaves⟩ := placeLeaf_spec hcut.leaves (hcut.others h) (by simp) hgrown
      rw [List.append_assoc, ← List.append_assoc earlier.flatten, List.cons_append] at hflat
      refine ⟨rfl, hflat, .of_iter hflat hascending hleaves ?_⟩
      show d.len + 1 = _
      rw [h.len, hiter]
      simp only [List.length_append, List.length_cons, List.length_nil]
      omega
    · have hold : (before ++ ([old] ++ after))[before.length]? = some old := by simp
      have hset : (before ++ ([old] ++ after)).set before.length { old with value } =
          before ++ ⟨key, value⟩ :: after := by
        rw [← hkey]
        simp
      have hflat : (earlier ++ (before ++ ⟨key, value⟩ :: after) :: later).flatten =
          (earlier.flatten ++ before) ++ ⟨key, value⟩ :: (after ++ later.flatten) := by simp
      simp only [hfound, hold, hset, hcut.set]
      refine ⟨rfl, hflat, .of_iter hflat hascending (fun leaf hleaf => ?_) ?_⟩
      · have hothers := hcut.others h
        rcases List.mem_append.mp hleaf with hleaf | hleaf
        · exact hothers leaf (List.mem_append_left _ hleaf)
        · rcases List.mem_cons.mp hleaf with rfl | hleaf
          · refine ⟨by simp, ?_⟩
            rw [List.length_append, List.length_cons]
            rw [List.length_singleton] at hlength
            omega
          · exact hothers leaf (List.mem_append_right _ hleaf)
      · show d.len = _
        rw [h.len, hiter]
        simp only [List.length_append, List.length_cons, List.length_nil]
        omega

/-- **A removal leaves what lies below the key and what lies above.** -/
theorem remove_spec {d : SnapshotDirectory K V} (h : d.Ordered) (key : K) :
    ∃ below middle above, Around d.iter key below middle above ∧
      (d.remove key).1 = middle.head?.map SnapshotDirectoryEntry.value ∧
      (d.remove key).2.iter = below ++ above ∧ (d.remove key).2.Ordered := by
  by_cases hnil : d.leaves = []
  · have hiter : d.iter = [] := by simp [iter, hnil]
    refine ⟨[], [], [], ⟨hiter, by simp, by simp, .inl rfl⟩, ?_⟩
    unfold remove
    rw [if_pos (List.isEmpty_iff.mpr hnil)]
    exact ⟨rfl, hiter, h⟩
  · obtain ⟨earlier, later, before, middle, after, hcut⟩ := exists_cut h hnil key
    refine ⟨_, _, _, hcut.around, ?_⟩
    have hascending := h.ascending
    have hlength := hcut.length_le h
    have hothers := hcut.others h
    have hiter := hcut.iter
    unfold remove
    rw [hcut.isEmpty, hcut.leafFor]
    simp only [Bool.false_eq_true, if_false, hcut.getElem]
    rcases hcut.found with ⟨rfl, hfound⟩ | ⟨old, hkey, rfl, hfound⟩
    · simp only [hfound]
      exact ⟨rfl, hiter, h⟩
    · have hold : (before ++ ([old] ++ after))[before.length]? = some old := by simp
      have herase : (before ++ ([old] ++ after)).eraseIdx before.length = before ++ after :=
        eraseIdx_length before after old
      have hrest : ((earlier.flatten ++ before) ++ (after ++ later.flatten)).Pairwise
          fun a b => a.key < b.key := by
        rw [hiter] at hascending
        exact hascending.sublist ((List.sublist_append_right _ _).append_left _)
      have hlen : d.len - 1 = ((earlier.flatten ++ before) ++ (after ++ later.flatten)).length := by
        rw [h.len, hiter]
        simp only [List.length_append, List.length_cons, List.length_nil]
        omega
      simp only [hfound, hold, herase]
      split
      next hempty =>
        obtain ⟨rfl, rfl⟩ := List.append_eq_nil_iff.mp (List.isEmpty_iff.mp hempty)
        have hdrop : d.leaves.eraseIdx earlier.length = earlier ++ later := by
          rw [hcut.leaves]
          exact eraseIdx_length earlier later _
        rw [hdrop]
        have hflat : (earlier ++ later).flatten =
            (earlier.flatten ++ []) ++ ([] ++ later.flatten) := by simp
        exact ⟨rfl, hflat, .of_iter hflat hrest hothers hlen⟩
      next hmore =>
        rw [hcut.set]
        have hflat : (earlier ++ (before ++ after) :: later).flatten =
            (earlier.flatten ++ before) ++ (after ++ later.flatten) := by simp
        refine ⟨rfl, hflat, .of_iter hflat hrest (fun leaf hleaf => ?_) hlen⟩
        rcases List.mem_append.mp hleaf with hleaf | hleaf
        · exact hothers leaf (List.mem_append_left _ hleaf)
        · rcases List.mem_cons.mp hleaf with rfl | hleaf
          · refine ⟨fun hnone => hmore (List.isEmpty_iff.mpr hnone), ?_⟩
            rw [List.length_append]
            rw [List.length_singleton] at hlength
            omega
          · exact hothers leaf (List.mem_append_right _ hleaf)

/-! ## Pages -/

/-- Leaves after the first fill a page in order. -/
theorem fillPage_later {after : Option K} {limit : ℕ}
    (leaves : List (List (SnapshotDirectoryEntry K V))) {page : List K}
    (hpage : page.length ≤ limit) : fillPage after limit leaves false page =
      page ++ (leaves.flatten.take (limit - page.length)).map SnapshotDirectoryEntry.key := by
  induction leaves generalizing page with
  | nil => simp [fillPage]
  | cons leaf leaves ih =>
      unfold fillPage
      split
      next hless =>
        simp only [Bool.false_eq_true, if_false, List.drop_zero]
        rw [ih (by simp; omega), List.flatten_cons, List.take_append, List.map_append,
          List.append_assoc, List.length_append, List.length_map, List.length_take]
        congr 4
        omega
      next hfull =>
        have hzero : limit - page.length = 0 := by omega
        rw [hzero, List.take_zero, List.map_nil, List.append_nil]

/-- The first leaf gives what lies past the cursor. -/
theorem fillPage_first {after : Option K} {limit : ℕ} (hlimit : 0 < limit)
    (leaf : List (SnapshotDirectoryEntry K V)) (leaves : List (List (SnapshotDirectoryEntry K V))) :
    fillPage after limit (leaf :: leaves) true [] =
      ((leaf.drop (after.elim 0 (partitionPoint leaf)) ++ leaves.flatten).take limit).map
        SnapshotDirectoryEntry.key := by
  unfold fillPage
  rw [List.length_nil, if_pos hlimit]
  dsimp only
  rw [if_pos rfl, List.nil_append, Nat.sub_zero, fillPage_later leaves (by simp), List.take_append, List.map_append,
    List.length_map, List.length_take]
  congr 3
  omega

/-- In a sorted leaf the entries past a key are those from its partition point on. -/
theorem drop_partitionPoint {leaf : List (SnapshotDirectoryEntry K V)}
    (hascending : leaf.Pairwise fun a b => a.key < b.key) (key : K) :
    leaf.drop (partitionPoint leaf key) =
      leaf.filter (Paging.past SnapshotDirectoryEntry.key (some key)) := by
  unfold partitionPoint
  induction leaf with
  | nil => rfl
  | cons entry leaf ih =>
      rw [List.pairwise_cons] at hascending
      by_cases hle : entry.key ≤ key
      · rw [List.takeWhile_cons, if_pos (by simpa using hle), List.length_cons,
          List.drop_succ_cons, ih hascending.2, List.filter_cons_of_neg]
        rw [Paging.past_some]
        exact not_lt.mpr hle
      · have hlt := not_le.mp hle
        rw [List.takeWhile_cons, if_neg (by simpa using hlt), List.length_nil, List.drop_zero,
          List.filter_eq_self.mpr]
        intro e he
        rw [Paging.past_some]
        rcases List.mem_cons.mp he with rfl | he
        · exact hlt
        · exact hlt.trans (hascending.1 e he)

/-- **A page is the first keys past its cursor.** -/
theorem keysPageAfter_eq {d : SnapshotDirectory K V} (h : d.Ordered) (after : Option K)
    (limit : ℕ) : d.keysPageAfter after limit =
      ((d.iter.filter (Paging.past SnapshotDirectoryEntry.key after)).take limit).map
        SnapshotDirectoryEntry.key := by
  unfold keysPageAfter
  by_cases hnil : d.leaves = []
  · simp [hnil, iter]
  · cases limit with
    | zero => simp
    | succ limit =>
        have hempty : d.leaves.isEmpty = false := by simpa using hnil
        rw [hempty]
        simp only [Nat.add_eq_zero_iff, one_ne_zero, and_false, decide_false, Bool.or_false,
          Bool.false_eq_true, if_false]
        cases after with
        | none =>
            obtain ⟨leaf, leaves, hleaves⟩ := List.exists_cons_of_ne_nil hnil
            rw [Paging.filter_past_none]
            unfold iter
            rw [hleaves]
            exact fillPage_first (Nat.succ_pos limit) leaf leaves
        | some key =>
            obtain ⟨earlier, leaf, later, hleaves, hleafFor, hbelow, habove⟩ :=
              leafFor_spec h hnil key
            have hascending := h.ascending
            unfold iter at hascending ⊢
            rw [hleaves, List.flatten_append, List.flatten_cons] at hascending
            have hleaf := (List.pairwise_append.mp (List.pairwise_append.mp hascending).2.1).1
            have hdrop : d.leaves.drop earlier.length = leaf :: later := by
              rw [hleaves, List.drop_left]
            have hearlier : earlier.flatten.filter
                (Paging.past SnapshotDirectoryEntry.key (some key)) = [] :=
              List.filter_eq_nil_iff.mpr fun e he hpast =>
                lt_asymm (hbelow e he) (Paging.past_some.mp hpast)
            have hlater : later.flatten.filter
                (Paging.past SnapshotDirectoryEntry.key (some key)) = later.flatten :=
              List.filter_eq_self.mpr fun e he => Paging.past_some.mpr (habove e he)
            rw [Option.bind_some, hleafFor, Option.getD_some, hdrop,
              fillPage_first (Nat.succ_pos limit), hleaves, List.flatten_append,
              List.flatten_cons, List.filter_append, List.filter_append, hearlier, hlater,
              ← drop_partitionPoint hleaf, List.nil_append]
            rfl

/-! ## The map a directory stands for -/

/-- A directory in its shape that holds what a map does. -/
structure Holds (d : SnapshotDirectory K V) (m : BTreeMap K V) : Prop where
  ordered : d.Ordered
  mem : ∀ key value, ⟨key, value⟩ ∈ d.iter ↔ m[key]? = some value

/-- Everything a reader can ask of a directory is answered as the map would. -/
structure Agrees (d : SnapshotDirectory K V) (m : BTreeMap K V) : Prop where
  get : ∀ key, d.get key = m[key]?
  iter : (d.iter.map fun entry => (entry.key, entry.value)) = m.toList
  ascending : d.keys.Pairwise (· < ·)
  len : d.len = m.size
  page : ∀ after limit, d.keysPageAfter after limit =
    (m.keys.filter (Paging.past id after)).take limit
  pages : ∀ limit, 0 < limit →
    Paging.collect id (fun after => d.keysPageAfter after limit) (m.size + 1) none = m.keys
  leaf : ∀ leaf ∈ d.leaves, leaf ≠ [] ∧ leaf.length ≤ SNAPSHOT_DIRECTORY_LEAF

namespace Holds

variable {d : SnapshotDirectory K V} {m : BTreeMap K V}

theorem empty : Holds (⟨[], 0⟩ : SnapshotDirectory K V) (∅ : BTreeMap K V) where
  ordered := ⟨.nil, fun _ h => absurd h List.not_mem_nil, rfl⟩
  mem key value := by simp [SnapshotDirectory.iter]

/-- What an operation finds at its key is what the map holds there. -/
theorem head (h : d.Holds m) {key : K} {below middle above : List (SnapshotDirectoryEntry K V)}
    (haround : Around d.iter key below middle above) :
    middle.head?.map SnapshotDirectoryEntry.value = m[key]? := by
  ext value
  rw [← h.mem key value, haround.mem_of_eq rfl, Option.map_eq_some_iff]
  constructor
  · rintro ⟨entry, hentry, rfl⟩
    rcases haround.middle with rfl | ⟨old, rfl, rfl⟩
    · cases hentry
    · cases hentry
      rfl
  · exact fun hentry => ⟨_, hentry, rfl⟩

theorem get (h : d.Holds m) (key : K) : d.get key = m[key]? := by
  obtain ⟨below, middle, above, haround, hfound⟩ := getKeyValue_around h.ordered key
  unfold SnapshotDirectory.get
  rw [hfound]
  exact h.head haround

/-- **An insertion holds what the map does with the entry.** -/
theorem insert (h : d.Holds m) (key : K) (value : V) :
    (d.insert key value).1 = m[key]? ∧ (d.insert key value).2.Holds (m.insert key value) := by
  obtain ⟨below, middle, above, haround, hprevious, hiter, hordered⟩ :=
    insert_spec h.ordered key value
  refine ⟨hprevious.trans (h.head haround), hordered, fun key' value' => ?_⟩
  rw [hiter, BTreeMap.get_insert]
  by_cases hkey : key = key'
  · subst hkey
    have hbelow : ∀ v, (⟨key, v⟩ : SnapshotDirectoryEntry K V) ∉ below := fun v hmem =>
      (haround.below _ hmem).ne rfl
    have habove : ∀ v, (⟨key, v⟩ : SnapshotDirectoryEntry K V) ∉ above := fun v hmem =>
      (haround.above _ hmem).ne rfl
    simp [hbelow, habove, eq_comm]
  · have hne : (⟨key', value'⟩ : SnapshotDirectoryEntry K V).key ≠ key := Ne.symm hkey
    rw [if_neg hkey, ← h.mem, haround.mem_of_ne hne]
    simp [Ne.symm hkey]

/-- **A removal holds what the map does without the key.** -/
theorem remove (h : d.Holds m) (key : K) :
    (d.remove key).1 = m[key]? ∧ (d.remove key).2.Holds (m.erase key) := by
  obtain ⟨below, middle, above, haround, hprevious, hiter, hordered⟩ := remove_spec h.ordered key
  refine ⟨hprevious.trans (h.head haround), hordered, fun key' value' => ?_⟩
  rw [hiter, BTreeMap.get_erase, List.mem_append]
  by_cases hkey : key = key'
  · subst hkey
    rw [if_pos rfl]
    refine iff_of_false ?_ (by simp)
    rintro (hmem | hmem)
    · exact (haround.below _ hmem).ne rfl
    · exact (haround.above _ hmem).ne rfl
  · have hne : (⟨key', value'⟩ : SnapshotDirectoryEntry K V).key ≠ key := Ne.symm hkey
    rw [if_neg hkey, ← h.mem, haround.mem_of_ne hne]

theorem iter (h : d.Holds m) : (d.iter.map fun entry => (entry.key, entry.value)) = m.toList := by
  have hordered : (d.iter.map fun entry => (entry.key, entry.value)).Pairwise
      fun a b => a.1 < b.1 := List.pairwise_map.mpr h.ordered.ascending
  have hordered' : m.toList.Pairwise fun a b => a.1 < b.1 :=
    Std.ExtTreeMap.ordered_keys_toList.imp fun hlt => compare_lt_iff_lt.mp hlt
  have hperm : (d.iter.map fun entry => (entry.key, entry.value)).Perm m.toList := by
    refine (List.perm_ext_iff_of_nodup ?_ ?_).mpr fun pair => ?_
    · exact hordered.imp fun hlt heq => hlt.ne (by rw [heq])
    · exact hordered'.imp fun hlt heq => hlt.ne (by rw [heq])
    · obtain ⟨key, value⟩ := pair
      rw [BTreeMap.mem_toList_iff, ← h.mem, List.mem_map]
      constructor
      · rintro ⟨entry, hentry, heq⟩
        cases heq
        exact hentry
      · exact fun hentry => ⟨_, hentry, rfl⟩
  exact hperm.eq_of_pairwise (fun _ _ _ _ hlt hgt => absurd hgt (lt_asymm hlt)) hordered hordered'

theorem keys (h : d.Holds m) : d.keys = m.keys := by
  rw [← Std.ExtTreeMap.map_fst_toList_eq_keys, ← h.iter, List.map_map]
  rfl

theorem agrees (h : d.Holds m) : d.Agrees m := by
  have hlen : d.len = m.size := by
    rw [h.ordered.len, ← Std.ExtTreeMap.length_toList, ← h.iter, List.length_map]
  have hascending : d.keys.Pairwise (· < ·) := List.pairwise_map.mpr h.ordered.ascending
  have hpage : ∀ after limit, d.keysPageAfter after limit =
      (m.keys.filter (Paging.past id after)).take limit := by
    intro after limit
    rw [keysPageAfter_eq h.ordered, ← h.keys, SnapshotDirectory.keys, List.filter_map,
      List.map_take]
    rfl
  refine ⟨h.get, h.iter, hascending, hlen, hpage, fun limit hlimit => ?_, h.ordered.leaf⟩
  refine Paging.collect_eq (h.keys ▸ hascending) hlimit (fun after => hpage after limit) ?_
  rw [Std.ExtTreeMap.length_keys]
  exact Nat.lt_succ_self _

end Holds

/-! ## Runs -/

/-- A call on one of several directories, some of them clones of others. -/
inductive Call (K V : Type)
  | insert (handle : ℕ) (key : K) (value : V)
  | remove (handle : ℕ) (key : K)
  | clone (handle : ℕ)

/-- What a call does to the directories at hand. -/
def Call.perform (directories : List (SnapshotDirectory K V)) :
    Call K V → List (SnapshotDirectory K V)
  | insert handle key value => directories.modify handle fun d => (d.insert key value).2
  | remove handle key => directories.modify handle fun d => (d.remove key).2
  | clone handle => directories ++ (directories[handle]?).toList

/-- What it does to the maps they stand for. -/
def Call.define (maps : List (BTreeMap K V)) : Call K V → List (BTreeMap K V)
  | insert handle key value => maps.modify handle fun m => m.insert key value
  | remove handle key => maps.modify handle fun m => m.erase key
  | clone handle => maps ++ (maps[handle]?).toList

theorem forall₂_modify {α β : Type} {R : α → β → Prop} {f : α → α} {g : β → β}
    (hstep : ∀ a b, R a b → R (f a) (g b)) {l : List α} {l' : List β} (h : List.Forall₂ R l l')
    (handle : ℕ) : List.Forall₂ R (l.modify handle f) (l'.modify handle g) := by
  induction h generalizing handle with
  | nil => simp
  | cons hab h ih =>
      cases handle with
      | zero => exact .cons (hstep _ _ hab) h
      | succ handle => exact .cons hab (ih handle)

/-- **A call leaves every directory with its map**, the one it is made on and the others. -/
theorem Call.holds (call : Call K V) {directories : List (SnapshotDirectory K V)}
    {maps : List (BTreeMap K V)} (h : List.Forall₂ Holds directories maps) :
    List.Forall₂ Holds (call.perform directories) (call.define maps) := by
  cases call with
  | insert handle key value => exact forall₂_modify (fun _ _ h => (h.insert key value).2) h handle
  | remove handle key => exact forall₂_modify (fun _ _ h => (h.remove key).2) h handle
  | clone handle =>
      refine List.rel_append h ?_
      have hlength := h.length_eq
      cases hd : directories[handle]? with
      | none =>
          rw [List.getElem?_eq_none (by
            rw [← hlength]
            exact List.getElem?_eq_none_iff.mp hd)]
          exact .nil
      | some d =>
          obtain ⟨hlt, hget⟩ := List.getElem?_eq_some_iff.mp hd
          have hlt' : handle < maps.length := hlength ▸ hlt
          rw [List.getElem?_eq_getElem hlt']
          have hboth := h.get hlt hlt'
          simp only [List.get_eq_getElem, hget] at hboth
          exact .cons hboth .nil

/-- **Every run keeps every directory, a clone like its original, with its map.** -/
theorem run_holds (calls : List (Call K V)) {directories : List (SnapshotDirectory K V)}
    {maps : List (BTreeMap K V)} (h : List.Forall₂ Holds directories maps) :
    List.Forall₂ Holds (calls.foldl Call.perform directories) (calls.foldl Call.define maps) := by
  induction calls generalizing directories maps with
  | nil => exact h
  | cons call calls ih => exact ih (call.holds h)

end SnapshotDirectory

end Lait.Replica
