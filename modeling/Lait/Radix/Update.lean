import Lait.Radix.Build

/-!
# Changing an index

`apply` sorts a batch of changes, keeps the last one for each key, and descends with
what remains: a subtree no change reaches is carried forward unread, a leaf is merged
and built again, and a branch is either rebuilt from its own entries or descended
slot by slot.  Which of the two is decided before anything is written, from the
branch's count less the number of removals.

The merge is the update of the set (`mem_mergeInto`), and merging slot by slot is
merging (`slot_mergeInto`).  When the branch is kept, more entries remain than a leaf
may hold, so the canonical subtree of the updated set is a branch as well; when it is
not, `build` decides.  That is all `descend_eq` needs: the subtree it returns is the
canonical one, and each of its nodes was written or is held.
-/

namespace Lait.Radix

/-- One requested change: set a key to a value, or remove it. -/
structure IndexChange where
  key : IndexKey
  value : Option Bytes
  deriving DecidableEq

/-- The entry a change sets, if it sets one. -/
def IndexChange.entries (change : IndexChange) : List IndexEntry :=
  match change.value with
  | some value => [⟨change.key, value⟩]
  | none => []

/-- Fold a sorted change list into a sorted entry list. -/
def mergeInto : List IndexEntry → List IndexChange → List IndexEntry
  | [], [] => []
  | entry :: entries, [] => entry :: mergeInto entries []
  | [], change :: changes => change.entries ++ mergeInto [] changes
  | entry :: entries, change :: changes =>
      match compare entry.key change.key with
      | .lt => entry :: mergeInto entries (change :: changes)
      | .gt => change.entries ++ mergeInto (entry :: entries) changes
      | .eq => change.entries ++ mergeInto entries changes
termination_by entries changes => entries.length + changes.length

/-- The bytes at an address. -/
def nodeBytes (source : NodeSource) (hash : Bytes32) : Except Failure Bytes :=
  match source hash with
  | none => .error (.missingNode hash)
  | some bytes => .ok bytes

theorem nodeBytes_eq_ok {source : NodeSource} {hash : Bytes32} {bytes : Bytes} :
    nodeBytes source hash = .ok bytes ↔ source hash = some bytes := by
  unfold nodeBytes
  split
  case h_1 h => simp [h]
  case h_2 h => simp [h]

/-- Read the node at an address. -/
def readNode (source : NodeSource) (hash : Bytes32) : Except Failure IndexNode := do
  decodeCanonical (← nodeBytes source hash)

/-- The children of a branch, in slot order. -/
def occupied (children : Fin FANOUT → Option ChildRef) : List ChildRef :=
  (List.finRange FANOUT).filterMap children

/-- Collect the entries of every child of a branch, given `collect` one level down. -/
def collectSlots (collect : ChildRef → ℕ → List IndexEntry → Except Failure (List IndexEntry))
    (depth : ℕ) (children : Fin FANOUT → Option ChildRef) (out : List IndexEntry) :
    Except Failure (List IndexEntry) :=
  (occupied children).foldlM (fun out child => do
    let next ← nextDepth depth
    collect child next out) out

/-- Read every entry of a subtree, in key order. -/
def collect : ℕ → NodeSource → ChildRef → ℕ → List IndexEntry → Except Failure (List IndexEntry)
  | 0, _, _, _, _ => .error .bounds
  | levels + 1, source, child, depth, out => do
      match ← readNode source child.hash with
      | .leaf entries => return out ++ entries
      | .branch children => collectSlots (collect levels source) depth children out

/-- One turn of `descend`'s loop, given `descend` one level down. -/
def descendSlice (descend : Option ChildRef → ℕ → List IndexChange → NodeSink →
    Except Failure (Option ChildRef × NodeSink)) (depth : ℕ) (state : Progress)
    (piece : Fin FANOUT × List IndexChange) : Except Failure Progress := do
  let current := state.children piece.1
  let next ← nextDepth depth
  let (updated, sink) ← descend current next piece.2 state.sink
  let remaining ← checkedSub .countMismatch state.total (countOf current)
  let total ← checkedAdd .countMismatch remaining (countOf updated)
  return ⟨Function.update state.children piece.1 updated, total, sink⟩

section Descend

variable [NodeHash]

/-- Change a subtree. -/
def descend : ℕ → NodeSource → Option ChildRef → ℕ → List IndexChange → NodeSink →
    Except Failure (Option ChildRef × NodeSink)
  | 0, _, _, _, _, _ => .error .bounds
  | levels + 1, source, node, depth, changes, sink =>
      if changes = [] then .ok (node, sink)
      else
        match node with
        | none => build (levels + 1) (changes.flatMap IndexChange.entries) depth sink
        | some child => do
            match ← readNode source child.hash with
            | .leaf entries => build (levels + 1) (mergeInto entries changes) depth sink
            | .branch children =>
                -- the lower bound on what remains decides about merging
                let deletes := changes.countP (·.value.isNone)
                if child.count.toNat - deletes ≤ MAX_LEAF_ENTRIES then do
                  let entries ← collectSlots (collect levels source) depth children []
                  build (levels + 1) (mergeInto (sortByKey IndexEntry.key entries) changes) depth
                    sink
                else do
                  let pieces ← slices IndexChange.key depth changes
                  let state ← pieces.foldlM (descendSlice (descend levels source) depth)
                    ⟨children, child.count, sink⟩
                  if state.total = 0 then return (none, state.sink)
                  let (child, sink) := emit state.sink (.branch state.children) state.total
                  return (some child, sink)

/-- `dedup_by`, the later of two neighbours of one key overwriting the earlier. -/
def dedupByKey : List IndexChange → List IndexChange
  | [] => []
  | [change] => [change]
  | retained :: later :: rest =>
      if later.key ≠ retained.key then retained :: dedupByKey (later :: rest)
      else dedupByKey (later :: rest)

/-- Apply a batch of changes, rewriting only the paths they touch. -/
def apply (source : NodeSource) (root : Option ChildRef) (changes : List IndexChange)
    (sink : NodeSink) : Except Failure (Option ChildRef × NodeSink) :=
  if changes.any fun change => change.value.any (MAX_VALUE_BYTES < ·.length) then .error .bounds
  else
    let changes := dedupByKey (sortByKey IndexChange.key changes)
    if changes = [] then .ok (root, sink)
    else descend (MAX_DEPTH + 1) source root 0 changes sink

end Descend

/-! ## Merging -/

section Merge

variable {path : List (Fin FANOUT)} {entries : List IndexEntry} {changes : List IndexChange}

theorem mem_entries {change : IndexChange} {entry : IndexEntry} :
    entry ∈ change.entries ↔ change = ⟨entry.key, some entry.value⟩ := by
  obtain ⟨key, value⟩ := change
  obtain ⟨key', value'⟩ := entry
  cases value with
  | none => simp [IndexChange.entries]
  | some value => simp [IndexChange.entries, eq_comm]

theorem mergeInto_nil_right (entries : List IndexEntry) : mergeInto entries [] = entries := by
  induction entries with
  | nil => rw [mergeInto]
  | cons entry entries ih => rw [mergeInto, ih]

theorem mergeInto_nil_left (changes : List IndexChange) :
    mergeInto [] changes = changes.flatMap IndexChange.entries := by
  induction changes with
  | nil => rw [mergeInto]; rfl
  | cons change changes ih => rw [mergeInto, ih, List.flatMap_cons]

/-- **The merge is the update**: an entry stays unless its key is changed, and a change
sets its entry. -/
theorem mem_mergeInto (hentries : Sorted IndexEntry.key entries)
    (hchanges : Sorted IndexChange.key changes) {e : IndexEntry} :
    e ∈ mergeInto entries changes ↔
      (e ∈ entries ∧ ∀ change ∈ changes, change.key ≠ e.key) ∨
        (⟨e.key, some e.value⟩ : IndexChange) ∈ changes := by
  induction entries, changes using mergeInto.induct with
  | case1 => simp [mergeInto]
  | case2 entry entries _ => simp [mergeInto_nil_right]
  | case3 change changes _ => simp [mergeInto_nil_left, mem_entries, eq_comm]
  | case4 entry entries change changes hcompare ih =>
      -- the entry comes first: no change is about it
      have hlt := compare_lt_iff_lt.mp hcompare
      obtain ⟨-, hrest⟩ := List.pairwise_cons.mp hentries
      obtain ⟨hfirst, -⟩ := List.pairwise_cons.mp hchanges
      rw [mergeInto, hcompare]
      dsimp only
      rw [List.mem_cons, ih hrest hchanges, List.mem_cons (a := e) (b := entry)]
      have hfree : ∀ c ∈ change :: changes, c.key ≠ entry.key := by
        intro c hc
        rcases List.mem_cons.mp hc with rfl | hc
        · exact hlt.ne'
        · exact (hlt.trans (hfirst c hc)).ne'
      constructor
      · rintro (rfl | ⟨he, hkey⟩ | hset)
        · exact Or.inl ⟨Or.inl rfl, hfree⟩
        · exact Or.inl ⟨Or.inr he, hkey⟩
        · exact Or.inr hset
      · rintro (⟨rfl | he, hkey⟩ | hset)
        · exact Or.inl rfl
        · exact Or.inr (Or.inl ⟨he, hkey⟩)
        · exact Or.inr (Or.inr hset)
  | case5 entry entries change changes hcompare ih =>
      -- the change comes first: no entry has its key
      have hlt := compare_gt_iff_gt.mp hcompare
      obtain ⟨hfirst, -⟩ := List.pairwise_cons.mp hentries
      obtain ⟨-, hrest⟩ := List.pairwise_cons.mp hchanges
      rw [mergeInto, hcompare]
      dsimp only
      rw [List.mem_append, ih hentries hrest, mem_entries, List.forall_mem_cons,
        List.mem_cons (a := (⟨e.key, some e.value⟩ : IndexChange)), eq_comm (a := change)]
      have hfree : e ∈ entry :: entries → change.key ≠ e.key := by
        intro he
        rcases List.mem_cons.mp he with rfl | he
        · exact (ne_of_gt hlt).symm
        · exact ((show change.key < entry.key from hlt).trans (hfirst e he)).ne
      constructor
      · rintro (hset | ⟨he, hkey⟩ | hset)
        · exact Or.inr (Or.inl hset)
        · exact Or.inl ⟨he, hfree he, hkey⟩
        · exact Or.inr (Or.inr hset)
      · rintro (⟨he, -, hkey⟩ | hset | hset)
        · exact Or.inr (Or.inl ⟨he, hkey⟩)
        · exact Or.inl hset
        · exact Or.inr (Or.inr hset)
  | case6 entry entries change changes hcompare ih =>
      -- the change replaces the entry
      have heq := compare_eq_iff_eq.mp hcompare
      obtain ⟨hfirst, hrestEntries⟩ := List.pairwise_cons.mp hentries
      obtain ⟨-, hrest⟩ := List.pairwise_cons.mp hchanges
      rw [mergeInto, hcompare]
      dsimp only
      rw [List.mem_append, ih hrestEntries hrest, mem_entries, List.forall_mem_cons,
        List.mem_cons (a := (⟨e.key, some e.value⟩ : IndexChange)), eq_comm (a := change),
        List.mem_cons]
      constructor
      · rintro (hset | ⟨he, hkey⟩ | hset)
        · exact Or.inr (Or.inl hset)
        · exact Or.inl ⟨Or.inr he, heq ▸ (hfirst e he).ne, hkey⟩
        · exact Or.inr (Or.inr hset)
      · rintro (⟨rfl | he, hne, hkey⟩ | hset | hset)
        · exact absurd heq.symm hne
        · exact Or.inr (Or.inl ⟨he, hkey⟩)
        · exact Or.inl hset
        · exact Or.inr (Or.inr hset)

theorem key_of_mem_mergeInto (hentries : Sorted IndexEntry.key entries)
    (hchanges : Sorted IndexChange.key changes) {e : IndexEntry}
    (h : e ∈ mergeInto entries changes) :
    (∃ entry ∈ entries, entry.key = e.key) ∨ ∃ change ∈ changes, change.key = e.key := by
  rcases (mem_mergeInto hentries hchanges).mp h with ⟨he, -⟩ | hset
  · exact Or.inl ⟨e, he, rfl⟩
  · exact Or.inr ⟨_, hset, rfl⟩

/-- Everything a change puts in front of a sorted list comes before it. -/
theorem sorted_entries_append {change : IndexChange} {l : List IndexEntry}
    (h : Sorted IndexEntry.key l) (hlt : ∀ e ∈ l, change.key < e.key) :
    Sorted IndexEntry.key (change.entries ++ l) := by
  obtain ⟨key, value⟩ := change
  cases value with
  | none => exact h
  | some value => exact List.pairwise_cons.mpr ⟨hlt, h⟩

theorem sorted_mergeInto (hentries : Sorted IndexEntry.key entries)
    (hchanges : Sorted IndexChange.key changes) :
    Sorted IndexEntry.key (mergeInto entries changes) := by
  induction entries, changes using mergeInto.induct with
  | case1 =>
      rw [mergeInto]
      exact List.Pairwise.nil
  | case2 => rwa [mergeInto_nil_right]
  | case3 change changes ih =>
      obtain ⟨hfirst, hrest⟩ := List.pairwise_cons.mp hchanges
      rw [mergeInto]
      refine sorted_entries_append (ih hentries hrest) fun e he => ?_
      rcases key_of_mem_mergeInto hentries hrest he with ⟨_, hmem, -⟩ | ⟨c, hc, hkey⟩
      · cases hmem
      · exact hkey ▸ hfirst c hc
  | case4 entry entries change changes hcompare ih =>
      have hlt := compare_lt_iff_lt.mp hcompare
      obtain ⟨hfirst, hrest⟩ := List.pairwise_cons.mp hentries
      rw [mergeInto, hcompare]
      refine List.pairwise_cons.mpr ⟨fun e he => ?_, ih hrest hchanges⟩
      rcases key_of_mem_mergeInto hrest hchanges he with ⟨e', he', hkey⟩ | ⟨c, hc, hkey⟩
      · exact hkey ▸ hfirst e' he'
      · rcases List.mem_cons.mp hc with rfl | hc
        · exact hkey ▸ hlt
        · exact hkey ▸ hlt.trans ((List.pairwise_cons.mp hchanges).1 c hc)
  | case5 entry entries change changes hcompare ih =>
      have hlt : change.key < entry.key := compare_gt_iff_gt.mp hcompare
      obtain ⟨hfirst, hrest⟩ := List.pairwise_cons.mp hchanges
      rw [mergeInto, hcompare]
      refine sorted_entries_append (ih hentries hrest) fun e he => ?_
      rcases key_of_mem_mergeInto hentries hrest he with ⟨e', he', hkey⟩ | ⟨c, hc, hkey⟩
      · rcases List.mem_cons.mp he' with rfl | he'
        · exact hkey ▸ hlt
        · exact hkey ▸ hlt.trans ((List.pairwise_cons.mp hentries).1 e' he')
      · exact hkey ▸ hfirst c hc
  | case6 entry entries change changes hcompare ih =>
      have heq := compare_eq_iff_eq.mp hcompare
      obtain ⟨hfirstEntry, hrestEntries⟩ := List.pairwise_cons.mp hentries
      obtain ⟨hfirst, hrest⟩ := List.pairwise_cons.mp hchanges
      rw [mergeInto, hcompare]
      refine sorted_entries_append (ih hrestEntries hrest) fun e he => ?_
      rcases key_of_mem_mergeInto hrestEntries hrest he with ⟨e', he', hkey⟩ | ⟨c, hc, hkey⟩
      · exact hkey ▸ heq ▸ hfirstEntry e' he'
      · exact hkey ▸ hfirst c hc

theorem length_entries_le (change : IndexChange) : change.entries.length ≤ 1 := by
  obtain ⟨key, value⟩ := change
  cases value <;> simp [IndexChange.entries]

/-- A merge is no longer than its two lists. -/
theorem length_mergeInto_le (entries : List IndexEntry) (changes : List IndexChange) :
    (mergeInto entries changes).length ≤ entries.length + changes.length := by
  induction entries, changes using mergeInto.induct with
  | case1 =>
      rw [mergeInto]
      exact le_rfl
  | case2 => simp [mergeInto_nil_right]
  | case3 change changes ih =>
      have hchange := length_entries_le change
      rw [mergeInto, List.length_append, List.length_cons]
      omega
  | case4 entry entries change changes hcompare ih =>
      rw [mergeInto, hcompare]
      simp only [List.length_cons] at ih ⊢
      omega
  | case5 entry entries change changes hcompare ih =>
      have hchange := length_entries_le change
      rw [mergeInto, hcompare]
      simp only [List.length_cons, List.length_append] at ih ⊢
      omega
  | case6 entry entries change changes hcompare ih =>
      have hchange := length_entries_le change
      rw [mergeInto, hcompare]
      simp only [List.length_cons, List.length_append] at ih ⊢
      omega

theorem length_entries_add (change : IndexChange) :
    change.entries.length + (if change.value.isNone then 1 else 0) = 1 := by
  obtain ⟨key, value⟩ := change
  cases value <;> simp [IndexChange.entries]

/-- A merge loses at most one entry for each removal. -/
theorem le_length_mergeInto (entries : List IndexEntry) (changes : List IndexChange) :
    entries.length ≤
      (mergeInto entries changes).length + changes.countP (·.value.isNone) := by
  induction entries, changes using mergeInto.induct with
  | case1 => exact Nat.zero_le _
  | case2 => simp [mergeInto_nil_right]
  | case3 => exact Nat.zero_le _
  | case4 entry entries change changes hcompare ih =>
      rw [mergeInto, hcompare]
      simp only [List.length_cons] at ih ⊢
      omega
  | case5 entry entries change changes hcompare ih =>
      rw [mergeInto, hcompare, List.countP_cons]
      simp only [List.length_cons, List.length_append] at ih ⊢
      omega
  | case6 entry entries change changes hcompare ih =>
      have hchange := length_entries_add change
      rw [mergeInto, hcompare, List.countP_cons]
      simp only [List.length_cons, List.length_append] at ih ⊢
      omega

/-- A batch at a path: one change a key, of bounded values. -/
structure BatchAt (path : List (Fin FANOUT)) (changes : List IndexChange) : Prop where
  sorted : Sorted IndexChange.key changes
  under : AllUnder digit IndexChange.key path changes
  bounded : ∀ change ∈ changes, ∀ value, change.value = some value →
    value.length ≤ MAX_VALUE_BYTES

theorem BatchAt.slot (h : BatchAt path changes) (s : Fin FANOUT) :
    BatchAt (path ++ [s]) (slot digit IndexChange.key path.length s changes) where
  sorted := h.sorted.slot _ s
  under := h.under.slot s
  bounded _ hchange := h.bounded _ (mem_slot.mp hchange).1

/-- A set updated at a path is a set at that path. -/
theorem SetAt.merge (hset : SetAt path entries) (hbatch : BatchAt path changes)
    (hcount : entries.length + changes.length < 2 ^ 64) :
    SetAt path (mergeInto entries changes) where
  sorted := sorted_mergeInto hset.sorted hbatch.sorted
  under e he := by
    rcases key_of_mem_mergeInto hset.sorted hbatch.sorted he with ⟨e', he', hkey⟩ | ⟨c, hc, hkey⟩
    · exact hkey ▸ hset.under e' he'
    · exact hkey ▸ hbatch.under c hc
  bounded e he := by
    rcases (mem_mergeInto hset.sorted hbatch.sorted).mp he with ⟨he, -⟩ | hset'
    · exact hset.bounded e he
    · exact hbatch.bounded _ hset' _ rfl
  countable := (length_mergeInto_le _ _).trans_lt hcount

/-- **Merging slot by slot is merging.** -/
theorem slot_mergeInto (hentries : Sorted IndexEntry.key entries)
    (hchanges : Sorted IndexChange.key changes) (depth : ℕ) (s : Fin FANOUT) :
    slot digit IndexEntry.key depth s (mergeInto entries changes) =
      mergeInto (slot digit IndexEntry.key depth s entries)
        (slot digit IndexChange.key depth s changes) := by
  refine ((sorted_mergeInto hentries hchanges).slot _ s).ext
    (sorted_mergeInto (hentries.slot _ s) (hchanges.slot _ s)) fun e => ?_
  rw [mem_slot, mem_mergeInto hentries hchanges, mem_mergeInto (hentries.slot _ s)
    (hchanges.slot _ s), mem_slot, mem_slot]
  constructor
  · rintro ⟨⟨he, hkey⟩ | hset, hs⟩
    · exact Or.inl ⟨⟨he, hs⟩, fun c hc => hkey c (mem_slot.mp hc).1⟩
    · exact Or.inr ⟨hset, hs⟩
  · rintro (⟨⟨he, hs⟩, hkey⟩ | ⟨hset, hs⟩)
    · refine ⟨Or.inl ⟨he, fun c hc heq => hkey c (mem_slot.mpr ⟨hc, ?_⟩) heq⟩, hs⟩
      rw [heq]
      exact hs
    · exact ⟨Or.inr hset, hs⟩

end Merge

/-! ## Reading a canonical subtree -/

section Read

variable [NodeHash] {source : NodeSource} {levels : ℕ} {path : List (Fin FANOUT)}
  {entries : List IndexEntry} {child : ChildRef}

theorem hash_of_canonicalRef {depth : ℕ} (h : canonicalRef levels depth entries = some child) :
    entries ≠ [] ∧ child.hash = nodeHash (canonicalNode levels depth entries).encode ∧
      child.count = UInt64.ofNat entries.length := by
  unfold canonicalRef at h
  split at h
  case isTrue => cases h
  case isFalse hne =>
      cases h
      exact ⟨hne, rfl, rfl⟩

/-- A held node of a set is read as it was built. -/
theorem readNode_eq (hset : SetAt path entries)
    (hheld : Holds source (canonicalNodes (levels + 1) path.length entries))
    (hchild : canonicalRef (levels + 1) path.length entries = some child) :
    readNode source child.hash = .ok (canonicalNode (levels + 1) path.length entries) := by
  obtain ⟨hne, hhash, -⟩ := hash_of_canonicalRef hchild
  rw [readNode, hhash, nodeBytes_eq_ok.mpr (hheld _ (encode_mem_canonicalNodes hne))]
  exact hset.decode_canonicalNode hne levels

/-- The slots of a held branch are held. -/
theorem Holds.slot (hheld : Holds source (canonicalNodes (levels + 1) path.length entries))
    (hfits : fitsLeaf entries path.length = false) (s : Fin FANOUT) :
    Holds source (canonicalNodes levels (path ++ [s]).length
      (slot digit IndexEntry.key path.length s entries)) := by
  rw [List.length_append, List.length_singleton]
  exact hheld.of_subset (canonicalNodes_slot hfits s)

/-- Collecting the children of a canonical branch collects its set. -/
theorem collectSlots_eq {collect : ChildRef → ℕ → List IndexEntry →
      Except Failure (List IndexEntry)} (hset : SetAt path entries)
    (hdeep : path.length < MAX_DEPTH)
    (hcollect : ∀ s child out, canonicalRef levels (path.length + 1)
        (slot digit IndexEntry.key path.length s entries) = some child →
      collect child (path.length + 1) out =
        .ok (out ++ slot digit IndexEntry.key path.length s entries)) (out : List IndexEntry) :
    collectSlots collect path.length (fun s => canonicalRef levels (path.length + 1)
      (slot digit IndexEntry.key path.length s entries)) out = .ok (out ++ entries) := by
  have hloop : ∀ (slots : List (Fin FANOUT)) (out : List IndexEntry),
      (slots.filterMap fun s => canonicalRef levels (path.length + 1)
        (slot digit IndexEntry.key path.length s entries)).foldlM (fun out child => do
          let next ← nextDepth path.length
          collect child next out) out =
        .ok (out ++ slots.flatMap (slot digit IndexEntry.key path.length · entries)) := by
    intro slots
    induction slots with
    | nil => exact fun out => by simp [pure, Except.pure]
    | cons s slots ih =>
        intro out
        rw [List.flatMap_cons]
        by_cases hempty : slot digit IndexEntry.key path.length s entries = []
        · rw [List.filterMap_cons_none (by rw [hempty, canonicalRef_nil]), ih, hempty,
            List.nil_append]
        · have hsome := @canonicalRef_of_ne _ levels (path.length + 1) _ hempty
          simp only [List.filterMap_cons, hsome]
          refine foldlM_cons_eq_ok.mpr
            ⟨out ++ slot digit IndexEntry.key path.length s entries, ?_, ?_⟩
          · rw [nextDepth_eq hdeep]
            exact hcollect s _ out (canonicalRef_of_ne hempty)
          · rw [ih, List.append_assoc]
  rw [collectSlots, occupied, hloop, hset.sorted.flatMap_slot isRadix hset.under hdeep]

/-- **Collecting a held canonical subtree reads its set.** -/
theorem collect_eq (hset : SetAt path entries) (hlevels : levels + path.length = MAX_DEPTH + 1)
    (hpath : path.length ≤ MAX_DEPTH)
    (hheld : Holds source (canonicalNodes levels path.length entries))
    (hchild : canonicalRef levels path.length entries = some child) (out : List IndexEntry) :
    collect levels source child path.length out = .ok (out ++ entries) := by
  induction levels generalizing path entries child out with
  | zero => omega
  | succ levels ih =>
      rw [collect, readNode_eq hset hheld hchild]
      cases hfits : fitsLeaf entries path.length with
      | true =>
          rw [canonicalNode_of_fits hfits]
          rfl
      | false =>
          obtain ⟨-, hdeep, -⟩ := fitsLeaf_eq_false.mp hfits
          rw [canonicalNode_of_not_fits hfits]
          refine collectSlots_eq hset hdeep (fun s child out hchild => ?_) out
          have hbelow := @ih (path ++ [s]) _ child (hset.slot s) (by simp; omega) (by simp; omega)
            (hheld.slot hfits s)
          rw [List.length_append, List.length_singleton] at hbelow
          exact hbelow hchild out

/-- The children of a branch whose slots are held are collected. -/
theorem collectSlots_held (hset : SetAt path entries)
    (hlevels : levels + 1 + path.length = MAX_DEPTH + 1) (hdeep : path.length < MAX_DEPTH)
    (hheld : ∀ s, Holds source (canonicalNodes levels (path ++ [s]).length
      (slot digit IndexEntry.key path.length s entries))) (out : List IndexEntry) :
    collectSlots (collect levels source) path.length (fun s => canonicalRef levels
      (path.length + 1) (slot digit IndexEntry.key path.length s entries)) out =
      .ok (out ++ entries) := by
  refine collectSlots_eq hset hdeep (fun s child out hchild => ?_) out
  have hbelow := @collect_eq _ source levels (path ++ [s]) _ child (hset.slot s) (by simp; omega)
    (by simp; omega) (hheld s)
  rw [List.length_append, List.length_singleton] at hbelow
  exact hbelow hchild out

end Read

/-! ## The descent -/

section Descent

variable {depth : ℕ} {descend : Option ChildRef → ℕ → List IndexChange → NodeSink →
    Except Failure (Option ChildRef × NodeSink)}
  {before after : Fin FANOUT → List IndexEntry} {ref : List IndexEntry → Option ChildRef}
  {nodes : Fin FANOUT → List Bytes} {held : Bytes → Prop}

/-- The loop over the pieces of a batch replaces each slot a piece names by what its
subtree becomes, and keeps the count. -/
theorem foldlM_descendSlice (hdepth : depth < MAX_DEPTH)
    (pieces : List (Fin FANOUT × List IndexChange)) (hnodup : (pieces.map Prod.fst).Nodup)
    (hdescend : ∀ piece ∈ pieces, ∀ sink, ∃ written,
      descend (ref (before piece.1)) (depth + 1) piece.2 sink =
          .ok (ref (after piece.1), sink ++ written) ∧
        ∀ bytes ∈ nodes piece.1, bytes ∈ written ∨ held bytes)
    (hcount : ∀ entries, countOf (ref entries) = UInt64.ofNat entries.length)
    (hgrow : ∀ piece ∈ pieces, (after piece.1).length ≤
      (before piece.1).length + piece.2.length)
    (children : Fin FANOUT → Option ChildRef)
    (hchildren : ∀ piece ∈ pieces, children piece.1 = ref (before piece.1)) (total : ℕ)
    (sink : NodeSink)
    (hbefore : ((pieces.map Prod.fst).map fun s => (before s).length).sum ≤ total)
    (htotal : total + (pieces.flatMap Prod.snd).length < 2 ^ 64) :
    ∃ written last, pieces.foldlM (descendSlice descend depth)
        ⟨children, UInt64.ofNat total, sink⟩ =
        .ok ⟨fun s => if s ∈ pieces.map Prod.fst then ref (after s) else children s,
          UInt64.ofNat last, sink ++ written⟩ ∧
      last + ((pieces.map Prod.fst).map fun s => (before s).length).sum =
        total + ((pieces.map Prod.fst).map fun s => (after s).length).sum ∧
      ∀ piece ∈ pieces, ∀ bytes ∈ nodes piece.1, bytes ∈ written ∨ held bytes := by
  induction pieces generalizing children total sink with
  | nil => exact ⟨[], total, by simp [pure, Except.pure], rfl, by simp⟩
  | cons piece pieces ih =>
      rw [List.flatMap_cons, List.length_append] at htotal
      simp only [List.map_cons, List.sum_cons] at hbefore ⊢
      rw [List.map_cons, List.nodup_cons] at hnodup
      obtain ⟨hfresh, hrestNodup⟩ := hnodup
      have hpieceGrow := hgrow piece List.mem_cons_self
      obtain ⟨first, hfirst, hfirstNodes⟩ := hdescend piece List.mem_cons_self sink
      have hturn : descendSlice descend depth ⟨children, UInt64.ofNat total, sink⟩ piece =
          .ok ⟨Function.update children piece.1 (ref (after piece.1)),
            UInt64.ofNat (total - (before piece.1).length + (after piece.1).length),
            sink ++ first⟩ := by
        rw [descendSlice, nextDepth_eq hdepth]
        show (descend (children piece.1) (depth + 1) piece.2 sink >>= _) = _
        rw [hchildren piece List.mem_cons_self, hfirst]
        show (checkedSub .countMismatch (UInt64.ofNat total) (countOf (children piece.1)) >>=
          _) = _
        rw [hchildren piece List.mem_cons_self, hcount, checkedSub_eq (by omega) (by omega)]
        show (checkedAdd .countMismatch (UInt64.ofNat (total - (before piece.1).length))
          (countOf (ref (after piece.1))) >>= _) = _
        rw [hcount, checkedAdd_eq (by omega)]
        rfl
      obtain ⟨rest, last, hrest, hlast, hrestNodes⟩ := ih hrestNodup
        (fun piece hpiece => hdescend piece (List.mem_cons_of_mem _ hpiece))
        (fun piece hpiece => hgrow piece (List.mem_cons_of_mem _ hpiece))
        (Function.update children piece.1 (ref (after piece.1))) (fun other hother => by
          rw [Function.update_of_ne, hchildren other (List.mem_cons_of_mem _ hother)]
          rintro heq
          exact hfresh (List.mem_map.mpr ⟨other, hother, heq⟩))
        (total - (before piece.1).length + (after piece.1).length) (sink ++ first)
        (by omega) (by omega)
      refine ⟨first ++ rest, last, foldlM_cons_eq_ok.mpr ⟨_, hturn, hrest.trans ?_⟩, by omega,
        fun other hother bytes hbytes => ?_⟩
      · rw [List.append_assoc]
        congr 2
        funext s
        simp only [List.mem_cons, Function.update_apply]
        by_cases hs : s = piece.1
        · rw [if_pos hs, if_pos (Or.inl hs), hs, ite_self]
        · simp only [hs, if_false, false_or]
      · rw [List.mem_append]
        rcases List.mem_cons.mp hother with rfl | hother
        · exact (hfirstNodes bytes hbytes).imp_left Or.inl
        · exact (hrestNodes other hother bytes hbytes).imp_left Or.inr

/-- A total over all slots, from the totals over those that changed. -/
theorem total_of_changed {slots : List (Fin FANOUT)} (hnodup : slots.Nodup)
    {old new : Fin FANOUT → ℕ} (hsame : ∀ s, s ∉ slots → new s = old s) {last : ℕ}
    (h : last + (slots.map old).sum = ∑ s, old s + (slots.map new).sum) : last = ∑ s, new s := by
  have hold : (slots.map old).sum = ∑ s ∈ slots.toFinset, old s :=
    (List.sum_toFinset old hnodup).symm
  have hnew : (slots.map new).sum = ∑ s ∈ slots.toFinset, new s :=
    (List.sum_toFinset new hnodup).symm
  rw [hold, hnew, ← Finset.sum_add_sum_compl slots.toFinset old] at h
  rw [← Finset.sum_add_sum_compl slots.toFinset new]
  have hrest : ∑ s ∈ slots.toFinsetᶜ, new s = ∑ s ∈ slots.toFinsetᶜ, old s :=
    Finset.sum_congr rfl fun s hs => hsame s (by simpa using hs)
  omega

/-- A set at a path is as large as its slots together. -/
theorem SetAt.length_eq {path : List (Fin FANOUT)} {entries : List IndexEntry}
    (h : SetAt path entries) (hdeep : path.length < MAX_DEPTH) :
    entries.length = ∑ s, (Radix.slot digit IndexEntry.key path.length s entries).length := by
  rw [Fin.sum_univ_def, ← List.length_flatMap, h.sorted.flatMap_slot isRadix h.under hdeep]

theorem BatchAt.mem_runs {path : List (Fin FANOUT)} {changes : List IndexChange}
    (h : BatchAt path changes) (hdeep : path.length < MAX_DEPTH)
    {piece : Fin FANOUT × List IndexChange} :
    piece ∈ runs (fun change : IndexChange => digit change.key path.length) changes ↔
      piece.2 = Radix.slot digit IndexChange.key path.length piece.1 changes ∧ piece.2 ≠ [] :=
  h.sorted.mem_runs isRadix h.under hdeep

end Descent

section Descend

variable [NodeHash] {source : NodeSource} {levels : ℕ} {path : List (Fin FANOUT)}
  {entries : List IndexEntry} {changes : List IndexChange}

/-- The loop over a batch at a branch, given that each slot becomes the canonical subtree
of its updated set, makes the slots of the canonical branch and its count. -/
theorem descendSlices_eq {descend : Option ChildRef → ℕ → List IndexChange → NodeSink →
      Except Failure (Option ChildRef × NodeSink)} {held : Bytes → Prop} (hset : SetAt path entries)
    (hbatch : BatchAt path changes) (hcount : entries.length + changes.length < 2 ^ 64)
    (hdeep : path.length < MAX_DEPTH)
    (hdescend : ∀ s sink, ∃ written,
      descend (canonicalRef levels (path.length + 1)
          (slot digit IndexEntry.key path.length s entries)) (path.length + 1)
          (slot digit IndexChange.key path.length s changes) sink =
        .ok (canonicalRef levels (path.length + 1)
          (mergeInto (slot digit IndexEntry.key path.length s entries)
            (slot digit IndexChange.key path.length s changes)), sink ++ written) ∧
      ∀ bytes ∈ canonicalNodes levels (path.length + 1)
          (mergeInto (slot digit IndexEntry.key path.length s entries)
            (slot digit IndexChange.key path.length s changes)), bytes ∈ written ∨ held bytes)
    (sink : NodeSink) :
    ∃ written, (runs (fun change : IndexChange => digit change.key path.length) changes).foldlM
        (descendSlice descend path.length) ⟨fun s => canonicalRef levels (path.length + 1)
          (slot digit IndexEntry.key path.length s entries), UInt64.ofNat entries.length, sink⟩ =
        .ok ⟨fun s => canonicalRef levels (path.length + 1)
            (slot digit IndexEntry.key path.length s (mergeInto entries changes)),
          UInt64.ofNat (mergeInto entries changes).length, sink ++ written⟩ ∧
      ∀ s, slot digit IndexChange.key path.length s changes ≠ [] →
        ∀ bytes ∈ canonicalNodes levels (path.length + 1)
          (slot digit IndexEntry.key path.length s (mergeInto entries changes)),
          bytes ∈ written ∨ held bytes := by
  have hmerged := hset.merge hbatch hcount
  have hslot := fun s => slot_mergeInto hset.sorted hbatch.sorted path.length s
  have hflat := flatMap_runs (fun change : IndexChange => digit change.key path.length) changes
  have hnodup : ((runs (fun change : IndexChange => digit change.key path.length) changes).map
      Prod.fst).Nodup := List.pairwise_map.mpr (List.Pairwise.imp (fun hlt => hlt.ne)
        (hbatch.sorted.pairwise_runs isRadix hbatch.under hdeep))
  have hpiece : ∀ s, slot digit IndexChange.key path.length s changes ≠ [] →
      (s, slot digit IndexChange.key path.length s changes) ∈
        runs (fun change : IndexChange => digit change.key path.length) changes :=
    fun s hne => (hbatch.mem_runs hdeep).mpr ⟨rfl, hne⟩
  -- a slot no piece names has no change
  have hquiet : ∀ s, s ∉ (runs (fun change : IndexChange => digit change.key path.length)
      changes).map Prod.fst → slot digit IndexEntry.key path.length s (mergeInto entries changes) =
        slot digit IndexEntry.key path.length s entries := by
    intro s hs
    have hempty : slot digit IndexChange.key path.length s changes = [] := by
      by_contra hne
      exact hs (List.mem_map.mpr ⟨_, hpiece s hne, rfl⟩)
    rw [hslot, hempty, mergeInto_nil_right]
  obtain ⟨written, last, hfold, hlast, hnodes⟩ := @foldlM_descendSlice path.length descend
    (fun s => slot digit IndexEntry.key path.length s entries)
    (fun s => slot digit IndexEntry.key path.length s (mergeInto entries changes))
    (canonicalRef levels (path.length + 1))
    (fun s => canonicalNodes levels (path.length + 1)
      (slot digit IndexEntry.key path.length s (mergeInto entries changes))) held hdeep
    (runs (fun change : IndexChange => digit change.key path.length) changes) hnodup
    (fun piece hpiece sink => by
      rw [((hbatch.mem_runs hdeep).mp hpiece).1, hslot]
      exact hdescend piece.1 sink)
    (fun _ => countOf_canonicalRef _ _ _)
    (fun piece hpiece => by
      rw [((hbatch.mem_runs hdeep).mp hpiece).1, hslot]
      exact length_mergeInto_le _ _)
    (fun s => canonicalRef levels (path.length + 1)
      (slot digit IndexEntry.key path.length s entries))
    (fun _ _ => rfl) entries.length sink
    (by
      rw [hset.length_eq hdeep, ← List.sum_toFinset _ hnodup]
      exact Finset.sum_le_univ_sum_of_nonneg fun _ => Nat.zero_le _)
    (by rw [hflat]; exact hcount)
  have htotal : last = (mergeInto entries changes).length := by
    rw [hmerged.length_eq hdeep]
    refine total_of_changed hnodup (fun s hs => by rw [hquiet s hs]) ?_
    rw [← hset.length_eq hdeep]
    exact hlast
  refine ⟨written, ?_, fun s hne => hnodes _ (hpiece s hne)⟩
  rw [hfold, htotal]
  congr 2
  funext s
  split
  case isTrue => rfl
  case isFalse hs => rw [hquiet s hs]

/-- **The descent makes the canonical subtree of the updated set**, and every node of it
is written or held. -/
theorem descend_eq (hset : SetAt path entries) (hbatch : BatchAt path changes)
    (hcount : entries.length + changes.length < 2 ^ 64)
    (hlevels : levels + path.length = MAX_DEPTH + 1) (hpath : path.length ≤ MAX_DEPTH)
    (hheld : Holds source (canonicalNodes levels path.length entries)) (sink : NodeSink) :
    ∃ written, descend levels source (canonicalRef levels path.length entries) path.length
        changes sink =
        .ok (canonicalRef levels path.length (mergeInto entries changes), sink ++ written) ∧
      ∀ bytes ∈ canonicalNodes levels path.length (mergeInto entries changes),
        bytes ∈ written ∨ source (nodeHash bytes) = some bytes := by
  induction levels generalizing path entries changes sink with
  | zero => omega
  | succ levels ih =>
      unfold descend
      by_cases hnone : changes = []
      · rw [if_pos hnone, hnone, mergeInto_nil_right]
        exact ⟨[], by rw [List.append_nil], fun bytes hbytes => Or.inr (hheld bytes hbytes)⟩
      rw [if_neg hnone]
      -- where the set is built again, `build` decides
      have hmerged := hset.merge hbatch hcount
      obtain ⟨built, hbuilt, hbuiltNodes⟩ := build_eq hmerged hlevels hpath sink
      have hagain : ∃ written, build (levels + 1) (mergeInto entries changes) path.length sink =
          .ok (canonicalRef (levels + 1) path.length (mergeInto entries changes),
            sink ++ written) ∧
          ∀ bytes ∈ canonicalNodes (levels + 1) path.length (mergeInto entries changes),
            bytes ∈ written ∨ source (nodeHash bytes) = some bytes :=
        ⟨built, hbuilt, fun bytes hbytes => Or.inl ((hbuiltNodes bytes).mpr hbytes)⟩
      cases hchild : canonicalRef (levels + 1) path.length entries with
      | none =>
          obtain rfl := canonicalRef_eq_none.mp hchild
          dsimp only
          rw [← mergeInto_nil_left]
          exact hagain
      | some child =>
          obtain ⟨hne, hhash, hcounted⟩ := hash_of_canonicalRef hchild
          dsimp only
          rw [readNode_eq hset hheld hchild]
          cases hfits : fitsLeaf entries path.length with
          | true =>
              rw [canonicalNode_of_fits hfits]
              exact hagain
          | false =>
              obtain ⟨-, hdeep, -⟩ := fitsLeaf_eq_false.mp hfits
              rw [canonicalNode_of_not_fits hfits]
              show ∃ written, (if child.count.toNat - changes.countP (·.value.isNone) ≤
                MAX_LEAF_ENTRIES then _ else _) = _ ∧ _
              rw [hcounted, toNat_count hset.countable]
              split
              case isTrue =>
                  rw [collectSlots_held hset hlevels hdeep fun s => hheld.slot hfits s]
                  show ∃ written, build (levels + 1) (mergeInto (sortByKey IndexEntry.key
                    ([] ++ entries)) changes) path.length sink = _ ∧ _
                  rw [List.nil_append, hset.sorted.sortByKey_eq]
                  exact hagain
              case isFalse hkeep =>
                  -- more entries remain than a leaf holds: the updated set is a branch too
                  have hlength := le_length_mergeInto entries changes
                  have hstays : fitsLeaf (mergeInto entries changes) path.length = false := by
                    refine fitsLeaf_eq_false.mpr ⟨?_, hdeep, fun hle => ?_⟩
                    · unfold MAX_LEAF_ENTRIES at hkeep
                      omega
                    · omega
                  obtain ⟨written, hloop, hnodes⟩ := descendSlices_eq hset hbatch hcount hdeep
                    (fun s sink => by
                      have hfewer := (Nat.add_le_add (List.length_filter_le
                        (fun entry : IndexEntry => digit entry.key path.length = s) entries)
                          (List.length_filter_le (fun change : IndexChange =>
                            digit change.key path.length = s) changes)).trans_lt hcount
                      have hbelow := ih (hset.slot s) (hbatch.slot s) hfewer (by simp; omega)
                        (by simp; omega) (hheld.slot hfits s) sink
                      rwa [List.length_append, List.length_singleton] at hbelow) sink
                  rw [slices_eq _ hdeep]
                  refine ⟨written ++ [(canonicalNode (levels + 1) path.length
                    (mergeInto entries changes)).encode], ?_, fun bytes hbytes => ?_⟩
                  · show ((runs _ changes).foldlM (descendSlice (descend levels source)
                      path.length) ⟨_, UInt64.ofNat entries.length, sink⟩ >>= _) = _
                    have hmany : UInt64.ofNat (mergeInto entries changes).length ≠ 0 := by
                      intro hzero
                      have hval := congrArg UInt64.toNat hzero
                      rw [toNat_count hmerged.countable] at hval
                      exact ne_nil_of_not_fits hstays (List.length_eq_zero_iff.mp hval)
                    rw [hloop, canonicalRef_of_ne (ne_nil_of_not_fits hstays),
                      canonicalNode_of_not_fits hstays, ← List.append_assoc]
                    show (if UInt64.ofNat (mergeInto entries changes).length = 0 then _ else _) = _
                    rw [if_neg hmany]
                    rfl
                  · rw [canonicalNodes, if_neg (ne_nil_of_not_fits hstays),
                      if_neg (by rw [hstays]; exact Bool.false_ne_true), List.mem_append,
                      List.mem_flatMap] at hbytes
                    rw [List.mem_append]
                    rcases hbytes with ⟨s, -, hbytes⟩ | hbytes
                    · by_cases hquiet : slot digit IndexChange.key path.length s changes = []
                      · rw [slot_mergeInto hset.sorted hbatch.sorted, hquiet,
                          mergeInto_nil_right] at hbytes
                        exact Or.inr (hheld _ (canonicalNodes_slot hfits s hbytes))
                      · exact (hnodes s hquiet bytes hbytes).imp_left Or.inl
                    · exact Or.inl (Or.inr hbytes)

end Descend

end Lait.Radix
