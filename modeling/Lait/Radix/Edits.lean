import Lait.Radix.Update

/-!
# The index is a function of its map

What an index stands for is a map from keys to values; a batch updates the map, the
last change of a key winning (`update`), and `buildIndex` gives each map one root.

`apply` agrees with that: on the tree of a map, held by the source, it returns the root
of the updated map, every node of which it wrote or the source holds
(`apply_eq`).  A store that keeps what it held and files what an update wrote can
therefore go on from there, and after any sequence of batches the root is the one of
the final map (`Edited.root_eq`).
-/

namespace Lait.Radix

/-! ## Maps of entries -/

/-- The map some entries make. -/
def mapOf (entries : List IndexEntry) : BTreeMap IndexKey Bytes :=
  entries.foldl (fun map entry => map.insert entry.key entry.value) ∅

/-- The entries of a map. -/
def entriesOf (map : BTreeMap IndexKey Bytes) : List IndexEntry :=
  map.toList.map fun entry => ⟨entry.1, entry.2⟩

/-- A batch, carried out in order: a value is set, no value removes. -/
def update (map : BTreeMap IndexKey Bytes) (changes : List IndexChange) :
    BTreeMap IndexKey Bytes :=
  changes.foldl (fun map change => BTreeMap.change map (change.key, change.value)) map

theorem mem_entriesOf {map : BTreeMap IndexKey Bytes} {entry : IndexEntry} :
    entry ∈ entriesOf map ↔ map[entry.key]? = some entry.value := by
  rw [← BTreeMap.mem_toList_iff, entriesOf, List.mem_map]
  constructor
  · rintro ⟨⟨key, value⟩, hmem, rfl⟩
    exact hmem
  · exact fun hmem => ⟨_, hmem, rfl⟩

theorem sorted_entriesOf (map : BTreeMap IndexKey Bytes) :
    Sorted IndexEntry.key (entriesOf map) := by
  refine List.pairwise_map.mpr (List.Pairwise.imp (fun hlt => ?_)
    Std.ExtTreeMap.ordered_keys_toList)
  exact compare_lt_iff_lt.mp hlt

theorem get_mapOf {entries : List IndexEntry} (hkeys : (entries.map IndexEntry.key).Nodup)
    {key : IndexKey} {value : Bytes} :
    (mapOf entries)[key]? = some value ↔ (⟨key, value⟩ : IndexEntry) ∈ entries := by
  constructor
  · intro h
    rcases BTreeMap.exists_of_get_foldl_insert h with ⟨⟨key', value'⟩, hmem, rfl, rfl⟩ | h
    · exact hmem
    · rw [BTreeMap.get_empty] at h
      cases h
  · intro h
    obtain ⟨value', hvalue'⟩ := BTreeMap.exists_get_foldl_insert (f := IndexEntry.key)
      (g := IndexEntry.value) (m := (∅ : BTreeMap IndexKey Bytes)) (k := key)
      (Or.inl ⟨_, h, rfl⟩)
    rcases BTreeMap.exists_of_get_foldl_insert hvalue' with ⟨entry, hmem, hkey, rfl⟩ | hempty
    · obtain rfl := List.inj_on_of_nodup_map hkeys hmem h hkey
      exact hvalue'
    · rw [BTreeMap.get_empty] at hempty
      cases hempty

/-- The map of some entries has them, sorted. -/
theorem entriesOf_mapOf {entries : List IndexEntry}
    (hkeys : (entries.map IndexEntry.key).Nodup) :
    entriesOf (mapOf entries) = sortByKey IndexEntry.key entries := by
  refine (sorted_entriesOf _).ext (sorted_sortByKey hkeys) fun entry => ?_
  rw [mem_entriesOf, get_mapOf hkeys, mem_sortByKey]

/-- Some entries list a map: one for each key. -/
def Lists (entries : List IndexEntry) (map : BTreeMap IndexKey Bytes) : Prop :=
  (entries.map IndexEntry.key).Nodup ∧ mapOf entries = map

/-! ## Batches -/

/-- What one change makes of the value at a key. -/
def IndexChange.at (key : IndexKey) (value : Option Bytes) (change : IndexChange) : Option Bytes :=
  if change.key = key then change.value else value

theorem get_update (map : BTreeMap IndexKey Bytes) (changes : List IndexChange) (key : IndexKey) :
    (update map changes)[key]? = changes.foldl (IndexChange.at key) map[key]? := by
  induction changes generalizing map with
  | nil => rfl
  | cons change changes ih =>
      show (update (BTreeMap.change map (change.key, change.value)) changes)[key]? = _
      rw [ih, BTreeMap.get_change]
      rfl

theorem foldl_at_filter (key : IndexKey) (changes : List IndexChange) (value : Option Bytes) :
    (changes.filter (·.key = key)).foldl (IndexChange.at key) value =
      changes.foldl (IndexChange.at key) value := by
  induction changes generalizing value with
  | nil => rfl
  | cons change changes ih =>
      rw [List.filter_cons, List.foldl_cons]
      by_cases hkey : change.key = key
      · rw [if_pos (by simpa using hkey), List.foldl_cons, ih]
      · rw [if_neg (by simpa using hkey), ih, IndexChange.at, if_neg hkey]

/-- Of two neighbours with one key only the later counts. -/
theorem foldl_at_dedup (key : IndexKey) (changes : List IndexChange) (value : Option Bytes) :
    (dedupByKey changes).foldl (IndexChange.at key) value =
      changes.foldl (IndexChange.at key) value := by
  induction changes using dedupByKey.induct generalizing value with
  | case1 => rfl
  | case2 => rfl
  | case3 retained later rest hne ih =>
      rw [dedupByKey, if_pos hne, List.foldl_cons, ih]
      rfl
  | case4 retained later rest heq ih =>
      have hkey : later.key = retained.key := not_not.mp heq
      rw [dedupByKey, if_neg heq, ih]
      show rest.foldl _ (later.at key value) = rest.foldl _ (later.at key (retained.at key value))
      congr 1
      unfold IndexChange.at
      rw [hkey]
      split <;> rfl

/-- **Sorting a batch and keeping the last change of each key keeps what it does.** -/
theorem update_dedup (map : BTreeMap IndexKey Bytes) (changes : List IndexChange) :
    update map (dedupByKey (sortByKey IndexChange.key changes)) = update map changes := by
  apply BTreeMap.ext
  intro key
  rw [get_update, get_update, foldl_at_dedup, ← foldl_at_filter, filter_sortByKey,
    foldl_at_filter]

theorem mem_of_mem_dedup {changes : List IndexChange} {change : IndexChange}
    (h : change ∈ dedupByKey changes) : change ∈ changes := by
  induction changes using dedupByKey.induct with
  | case1 => cases h
  | case2 => exact h
  | case3 retained later rest hne ih =>
      rw [dedupByKey, if_pos hne] at h
      rcases List.mem_cons.mp h with rfl | h
      · exact List.mem_cons_self
      · exact List.mem_cons_of_mem _ (ih h)
  | case4 retained later rest heq ih =>
      rw [dedupByKey, if_neg heq] at h
      exact List.mem_cons_of_mem _ (ih h)

theorem length_dedup_le (changes : List IndexChange) :
    (dedupByKey changes).length ≤ changes.length := by
  induction changes using dedupByKey.induct with
  | case1 => exact le_rfl
  | case2 => exact le_rfl
  | case3 retained later rest hne ih =>
      rw [dedupByKey, if_pos hne]
      exact Nat.succ_le_succ ih
  | case4 retained later rest heq ih =>
      rw [dedupByKey, if_neg heq]
      exact ih.trans (Nat.le_succ _)

/-- What is left has one change a key. -/
theorem sorted_dedup {changes : List IndexChange}
    (h : changes.Pairwise fun a b => a.key ≤ b.key) :
    Sorted IndexChange.key (dedupByKey changes) := by
  induction changes using dedupByKey.induct with
  | case1 => exact List.Pairwise.nil
  | case2 => exact List.pairwise_singleton _ _
  | case3 retained later rest hne ih =>
      obtain ⟨hfirst, hrest⟩ := List.pairwise_cons.mp h
      rw [dedupByKey, if_pos hne]
      refine List.pairwise_cons.mpr ⟨fun change hchange => ?_, ih hrest⟩
      have hlater := lt_of_le_of_ne (hfirst later List.mem_cons_self) (Ne.symm hne)
      rcases List.mem_cons.mp (mem_of_mem_dedup hchange) with rfl | hmem
      · exact hlater
      · exact hlater.trans_le ((List.pairwise_cons.mp hrest).1 change hmem)
  | case4 retained later rest heq ih =>
      rw [dedupByKey, if_neg heq]
      exact ih (List.pairwise_cons.mp h).2

theorem get_update_sorted {changes : List IndexChange} (h : Sorted IndexChange.key changes)
    (map : BTreeMap IndexKey Bytes) {key : IndexKey} {value : Bytes} :
    (update map changes)[key]? = some value ↔
      (map[key]? = some value ∧ ∀ change ∈ changes, change.key ≠ key) ∨
        (⟨key, some value⟩ : IndexChange) ∈ changes := by
  induction changes generalizing map with
  | nil => simp [update]
  | cons change changes ih =>
      obtain ⟨hfirst, hrest⟩ := List.pairwise_cons.mp h
      show (update (BTreeMap.change map (change.key, change.value)) changes)[key]? = _ ↔ _
      rw [ih hrest, BTreeMap.get_change, List.forall_mem_cons, List.mem_cons]
      dsimp only
      by_cases hkey : change.key = key
      · subst hkey
        have hno : ∀ c ∈ changes, c.key ≠ change.key := fun c hc => (hfirst c hc).ne'
        have hnotin : (⟨change.key, some value⟩ : IndexChange) ∉ changes := fun hin => hno _ hin rfl
        obtain ⟨ckey, cvalue⟩ := change
        simp only [if_true, ne_eq, not_true, false_and, and_false, false_or, hnotin, or_false,
          IndexChange.mk.injEq, true_and]
        exact ⟨fun hvalue => hvalue.1.symm, fun hvalue => ⟨hvalue.symm, hno⟩⟩
      · have hother : (⟨key, some value⟩ : IndexChange) ≠ change := by
          rintro rfl
          exact hkey rfl
        simp [hkey, hother]

/-- **Merging is updating the map.** -/
theorem entriesOf_update {changes : List IndexChange} (h : Sorted IndexChange.key changes)
    (map : BTreeMap IndexKey Bytes) :
    entriesOf (update map changes) = mergeInto (entriesOf map) changes := by
  refine (sorted_entriesOf _).ext (sorted_mergeInto (sorted_entriesOf map) h) fun entry => ?_
  rw [mem_entriesOf, get_update_sorted h, mem_mergeInto (sorted_entriesOf map) h, mem_entriesOf]

/-! ## Trees of maps -/

section Trees

variable [NodeHash] {source source' : NodeSource} {root root' : Option ChildRef}
  {map : BTreeMap IndexKey Bytes} {changes : List IndexChange}
  {batches : List (List IndexChange)} {held : List IndexEntry}

/-- The tree of a map is the tree of its entries. -/
abbrev TreeOf (source : NodeSource) (root : Option ChildRef) (map : BTreeMap IndexKey Bytes) :
    Prop := Tree source root (entriesOf map)

/-- Every value a batch sets is within the bound. -/
def Bounded (changes : List IndexChange) : Prop :=
  ∀ change ∈ changes, ∀ value, change.value = some value → value.length ≤ MAX_VALUE_BYTES

/-- The tree `buildIndex` makes is the tree of the map. -/
theorem TreeOf.of_buildIndex {written : NodeSink} (hcount : held.length < 2 ^ 64)
    (hbuild : buildIndex held [] = .ok (root, written)) (hheld : Holds source written) :
    TreeOf source root (mapOf held) := by
  have hset := setAt_of_buildIndex hcount hbuild
  rw [TreeOf, entriesOf_mapOf (nodup_keys_of_sorted hset.sorted)]
  exact Tree.of_buildIndex hcount hbuild hheld

/-- And back: every listing of the map builds it. -/
theorem TreeOf.buildIndex_eq (h : TreeOf source root map) {now : List IndexEntry}
    (hnow : Lists now map) : ∃ written, buildIndex now [] = .ok (root, written) ∧
      Holds source written := by
  obtain ⟨hkeys, rfl⟩ := hnow
  rw [TreeOf, entriesOf_mapOf hkeys] at h
  exact Tree.buildIndex_eq h

/-- A store that kept what it held and filed what was written. -/
def Keeps (source : NodeSource) (written : NodeSink) (source' : NodeSource) : Prop :=
  ∀ bytes, source (nodeHash bytes) = some bytes ∨ bytes ∈ written →
    source' (nodeHash bytes) = some bytes

omit [NodeHash] in
theorem length_entriesOf_update_le (map : BTreeMap IndexKey Bytes) (changes : List IndexChange) :
    (entriesOf (update map changes)).length ≤ (entriesOf map).length + changes.length := by
  have hsorted := sorted_dedup (pairwise_sortByKey IndexChange.key changes)
  rw [← update_dedup, entriesOf_update hsorted]
  refine (length_mergeInto_le _ _).trans (Nat.add_le_add_left ?_ _)
  exact (length_dedup_le _).trans_eq (length_sortByKey _ _)

/-- **One batch.**  On the tree of a map, `apply` returns the root of the updated map, and
a store that files what it wrote holds the new tree. -/
theorem TreeOf.apply (h : TreeOf source root map) (hbounded : Bounded changes)
    (hcount : (entriesOf map).length + changes.length < 2 ^ 64) : ∃ root' sink,
    apply source root changes [] = .ok (root', sink) ∧
      root' = canonicalRef (MAX_DEPTH + 1) 0 (entriesOf (update map changes)) ∧
      SetAt [] (entriesOf (update map changes)) ∧
      ∀ bytes ∈ canonicalNodes (MAX_DEPTH + 1) 0 (entriesOf (update map changes)),
        bytes ∈ sink ∨ source (nodeHash bytes) = some bytes := by
  have hsorted := sorted_dedup (pairwise_sortByKey IndexChange.key changes)
  have hmem : ∀ change ∈ dedupByKey (sortByKey IndexChange.key changes), change ∈ changes :=
    fun change hchange => mem_sortByKey.mp (mem_of_mem_dedup hchange)
  have hbatch : BatchAt [] (dedupByKey (sortByKey IndexChange.key changes)) :=
    ⟨hsorted, fun _ _ => under_nil _, fun change hchange => hbounded change (hmem change hchange)⟩
  have hfew : (entriesOf map).length +
      (dedupByKey (sortByKey IndexChange.key changes)).length < 2 ^ 64 := by
    have hle := length_dedup_le (sortByKey IndexChange.key changes)
    rw [length_sortByKey] at hle
    omega
  have hmerged := entriesOf_update hsorted map
  rw [update_dedup] at hmerged
  have hset : SetAt [] (entriesOf (update map changes)) := hmerged ▸ h.set.merge hbatch hfew
  obtain ⟨written, hdescend, hnodes⟩ := descend_eq h.set hbatch hfew rfl (Nat.zero_le _) h.held []
  unfold Radix.apply
  rw [if_neg]
  · by_cases hnone : dedupByKey (sortByKey IndexChange.key changes) = []
    · rw [hnone, mergeInto_nil_right] at hmerged
      rw [hmerged]
      refine ⟨root, [], ?_, h.root_eq, h.set, fun bytes hbytes => Or.inr (h.held bytes hbytes)⟩
      exact if_pos hnone
    · refine ⟨_, written, ?_, rfl, hset, fun bytes hbytes => hnodes bytes ?_⟩
      · show (if dedupByKey (sortByKey IndexChange.key changes) = [] then _ else _) = _
        rw [if_neg hnone, h.root_eq, hmerged]
        exact hdescend
      · rw [← hmerged]
        exact hbytes
  · simp only [List.any_eq_true, Option.any_eq_true, decide_eq_true_eq, not_exists, not_and, not_lt]
    exact fun change hchange value hvalue => hbounded change hchange value hvalue

/-- A store from one root to another: batches applied one after the other, each by the
store the one before it left. -/
inductive Edited (source : NodeSource) (root : Option ChildRef) :
    List (List IndexChange) → NodeSource → Option ChildRef → Prop
  | start : Edited source root [] source root
  | batch {batches : List (List IndexChange)} {source₁ source₂ : NodeSource}
      {root₁ root₂ : Option ChildRef} {changes : List IndexChange} {sink : NodeSink} :
      Edited source root batches source₁ root₁ → apply source₁ root₁ changes [] = .ok (root₂, sink) →
        Keeps source₁ sink source₂ → Edited source root (batches ++ [changes]) source₂ root₂

omit [NodeHash] in
theorem update_append (map : BTreeMap IndexKey Bytes) (changes changes' : List IndexChange) :
    update map (changes ++ changes') = update (update map changes) changes' := List.foldl_append

/-- **A run of batches.**  What a store holds after any batches is the tree of the map they
leave. -/
theorem Edited.treeOf (h : Edited source root batches source' root')
    (htree : TreeOf source root map) (hbounded : ∀ changes ∈ batches, Bounded changes)
    (hcount : (entriesOf map).length + batches.flatten.length < 2 ^ 64) :
    TreeOf source' root' (update map batches.flatten) := by
  induction h with
  | start => exact htree
  | @batch batches source₁ source₂ root₁ root₂ changes sink _ happly hkeeps ih =>
      rw [List.flatten_concat, List.length_append] at hcount
      have hbefore := ih (fun changes hchanges =>
        hbounded changes (List.mem_append_left _ hchanges)) (by omega)
      have hlen := length_entriesOf_update_le map batches.flatten
      obtain ⟨root'', sink'', hok, hroot, hset, hnodes⟩ := hbefore.apply
        (hbounded changes (List.mem_append_right _ (List.mem_singleton_self _))) (by omega)
      rw [happly] at hok
      cases hok
      rw [List.flatten_concat, update_append]
      exact ⟨hset, hroot, fun bytes hbytes => hkeeps bytes (hnodes bytes hbytes).symm⟩

/-- **The index is canonical under updates.**  On a held tree of `buildIndex`, a batch within
the bounds is applied, to the root that every listing of the updated map builds, each node
of which was written or is held; and the root a store reaches by any batches is the one
every listing of the final map builds. -/
theorem apply_canonical {written : NodeSink} (hbuild : buildIndex held [] = .ok (root, written))
    (hheld : Holds source written) :
    (∀ changes, Bounded changes → held.length + changes.length < 2 ^ 64 →
      ∃ root' sink, apply source root changes [] = .ok (root', sink) ∧
        ∀ now, Lists now (update (mapOf held) changes) → ∃ written',
          buildIndex now [] = .ok (root', written') ∧
            ∀ bytes ∈ written', bytes ∈ sink ∨ source (nodeHash bytes) = some bytes) ∧
    ∀ batches source' root', Edited source root batches source' root' →
      (∀ changes ∈ batches, Bounded changes) → held.length + batches.flatten.length < 2 ^ 64 →
        ∀ now, Lists now (update (mapOf held) batches.flatten) → ∃ written',
          buildIndex now [] = .ok (root', written') ∧ Holds source' written' := by
  have htree : held.length < 2 ^ 64 →
      TreeOf source root (mapOf held) ∧ (entriesOf (mapOf held)).length = held.length := by
    intro hcount
    have hset := setAt_of_buildIndex hcount hbuild
    refine ⟨.of_buildIndex hcount hbuild hheld, ?_⟩
    rw [entriesOf_mapOf (nodup_keys_of_sorted hset.sorted), length_sortByKey]
  constructor
  · intro changes hbounded hcount
    obtain ⟨htree, hlen⟩ := htree (by omega)
    obtain ⟨root', sink, happly, hroot, hset, hnodes⟩ := htree.apply hbounded (by omega)
    refine ⟨root', sink, happly, fun now hnow => ?_⟩
    obtain ⟨hkeys, hnow⟩ := hnow
    rw [← hnow, entriesOf_mapOf hkeys] at hset hroot hnodes
    obtain ⟨written', hbuilt, hwritten⟩ := buildIndex_eq hset []
    exact ⟨written', hroot ▸ hbuilt, fun bytes hbytes => hnodes bytes ((hwritten bytes).mp hbytes)⟩
  · intro batches source' root' hedited hbounded hcount now hnow
    obtain ⟨htree, hlen⟩ := htree (by omega)
    exact (hedited.treeOf htree hbounded (by omega)).buildIndex_eq hnow

end Trees

/-! ### A tree with a branch -/

/-- The first bytes of a node in place of its hash. -/
@[reducible] def plainHash : NodeHash where
  nodeHash bytes := ⟨⟨(bytes.data ++ List.replicate 32 0).take 32⟩, by
    show (List.take 32 _).length = 32
    rw [List.length_take, List.length_append, List.length_replicate]
    omega⟩

/-- The key of zeros. -/
def zeroKey : IndexKey := ⟨⟨List.replicate 32 0⟩, rfl⟩

/-- A source of some nodes. -/
def sourceOf [NodeHash] (nodes : List Bytes) : NodeSource := fun hash =>
  nodes.find? fun bytes => nodeHash bytes = hash

theorem holds_sourceOf [NodeHash] {nodes : List Bytes} (h : (nodes.map nodeHash).Nodup) :
    Holds (sourceOf nodes) nodes := by
  induction nodes with
  | nil => rintro _ ⟨⟩
  | cons bytes nodes ih =>
      rw [List.map_cons, List.nodup_cons] at h
      intro other hother
      rcases List.mem_cons.mp hother with rfl | hother
      · exact List.find?_cons_of_pos (decide_eq_true rfl)
      · have hne : nodeHash bytes ≠ nodeHash other := fun heq =>
          h.1 (heq ▸ List.mem_map_of_mem hother)
        rw [sourceOf, List.find?_cons_of_neg (by simpa using hne)]
        exact ih h.2 other hother

/-- The key of two bytes, then zeros. -/
def keyOf (a b : UInt8) : IndexKey := ⟨⟨a :: b :: List.replicate 30 0⟩, rfl⟩

/-- One entry more than fits a leaf: a branch over nine leaves. -/
def spread : List IndexEntry :=
  (List.range 257).map fun n => ⟨keyOf (UInt8.ofNat (n / 2)) (UInt8.ofNat (n % 2)), ⟨[7]⟩⟩

theorem spread_setAt : SetAt [] spread where
  sorted := by
    have : IsTrans IndexEntry fun a b => a.key < b.key := ⟨fun _ _ _ => lt_trans⟩
    rw [Sorted, ← List.isChain_iff_pairwise]
    decide +kernel
  under := fun _ _ => under_nil _
  bounded entry hentry := by
    obtain ⟨n, -, rfl⟩ := List.mem_map.mp hentry
    exact Nat.le_of_ble_eq_true rfl
  countable := by decide +kernel

/-- What the source of the spread entries reads. -/
def spreadSource [NodeHash] : NodeSource := sourceOf (canonicalNodes (MAX_DEPTH + 1) 0 spread)

/-- The root of their tree. -/
def spreadRoot [NodeHash] : Option ChildRef := canonicalRef (MAX_DEPTH + 1) 0 spread

theorem spread_tree : let _ := plainHash
    Tree spreadSource spreadRoot spread := by
  intro _
  exact ⟨spread_setAt, rfl, holds_sourceOf (by decide +kernel)⟩

theorem spread_buildIndex : let _ := plainHash
    ∃ written, buildIndex spread [] = .ok (spreadRoot, written) ∧ Holds spreadSource written := by
  intro _
  refine Tree.buildIndex_eq ?_
  rw [spread_setAt.sorted.sortByKey_eq]
  exact spread_tree

/-- A batch that sets an entry twice and removes another: what is left fits a leaf again. -/
theorem spread_updates :
    let _ := plainHash
    let changes : List IndexChange :=
      [⟨zeroKey, some ⟨[8]⟩⟩, ⟨keyOf 128 0, none⟩, ⟨zeroKey, some ⟨[9]⟩⟩]
    (∃ children, canonicalNode (MAX_DEPTH + 1) 0 spread = .branch children) ∧
      ∃ root' sink, apply spreadSource spreadRoot changes [] = .ok (root', sink) ∧
        ∀ now, Lists now (update (mapOf spread) changes) → ∃ written',
          buildIndex now [] = .ok (root', written') ∧
            ∀ bytes ∈ written', bytes ∈ sink ∨ spreadSource (nodeHash bytes) = some bytes := by
  intro _ changes
  obtain ⟨written, hbuild, hheld⟩ := spread_buildIndex
  refine ⟨⟨_, canonicalNode_of_not_fits (by decide +kernel)⟩,
    (apply_canonical hbuild hheld).1 changes (fun change hchange value hvalue => ?_)
      (by decide +kernel)⟩
  simp only [changes, List.mem_cons, List.not_mem_nil, or_false] at hchange
  rcases hchange with rfl | rfl | rfl <;> cases hvalue <;> decide

end Lait.Radix
