import Lait.Radix.Reconcile

/-!
# What one comparison finds

The two trees are held: the local one where its nodes are read, the remote one by the
peer that answers.  No two nodes, one of each tree, share a hash.

A wanted node is compared with what the local side has at its path (`Wants`): nothing,
a node there, or a leaf further up that is carried down.  `compare_spec` says what comes
of it (`Asks`): the entries of a remote leaf that the local side lacks are found, and
below a remote branch every slot is asked for that leads to such an entry, and none at
which both sides have the same reference.
-/

namespace Lait.Radix

/-- What the local side has at a path of the remote tree. -/
inductive LocalAt (source : NodeSource) (root : Option ChildRef) (entries : List IndexEntry)
    (path : List (Fin FANOUT)) : Option ChildRef → Prop
  | nothing : below path entries = [] → descendTo source root path = none →
      LocalAt source root entries path none
  | node {child : ChildRef} : descendTo source root path = some child →
      LocalAt source root entries path (some child)
  | above {shorter : List (Fin FANOUT)} {child : ChildRef} : shorter <+: path →
      readNode source child.hash = .ok (.leaf (below shorter entries)) →
      descendTo source root path = none → LocalAt source root entries path (some child)

/-- A wanted node sits at a path of the remote tree. -/
structure Wants (localSource : NodeSource) (localRoot : Option ChildRef)
    (localEntries : List IndexEntry) (remoteSource : NodeSource) (remoteRoot : Option ChildRef)
    (path : List (Fin FANOUT)) (item : Wanted) : Prop where
  depth_eq : item.depth = path.length
  remote : descendTo remoteSource remoteRoot path = some item.remote
  local_at : LocalAt localSource localRoot localEntries path item.localChild

section Compare

variable [NodeHash] {localSource remoteSource : NodeSource} {localRoot remoteRoot : Option ChildRef}
  {localEntries remoteEntries : List IndexEntry} {path : List (Fin FANOUT)}
  {localChild : Option ChildRef}

omit [NodeHash] in
theorem localNode_of_readNode {source : NodeSource} {child : ChildRef} {node : IndexNode}
    (h : readNode source child.hash = .ok node) :
    Reconciliation.localNode source (some child) = .ok (some node) := by
  obtain ⟨bytes, hread, hdecode⟩ := bind_eq_ok.mp h
  rw [Reconciliation.localNode, nodeBytes_eq_ok.mp hread]
  dsimp only
  rw [hdecode]
  rfl

/-- The local node, where the local side has something. -/
theorem Tree.localNode_eq (h : Tree localSource localRoot localEntries) {child : ChildRef}
    (hchild : descendTo localSource localRoot path = some child) :
    Reconciliation.localNode localSource (some child) =
      .ok (some (canonicalNode (MAX_DEPTH + 1 - path.length) path.length
        (below path localEntries))) := by
  obtain ⟨href, hpath, hheld, -⟩ := h.of_descendTo hchild
  exact localNode_of_readNode (readNode_below h.set hpath hheld href)

omit [NodeHash] in
/-- Entries looked up one by one: those whose value is another are added. -/
theorem foldlM_lookups {lookup : IndexEntry → Except Failure (Option Bytes)}
    {value : IndexEntry → Option Bytes} (entries missing : List IndexEntry)
    (h : ∀ entry ∈ entries, lookup entry = .ok (value entry)) :
    entries.foldlM (fun missing entry => do
        let found ← lookup entry
        return if found = some entry.value then missing else missing ++ [entry]) missing =
      .ok (missing ++ entries.filter fun entry => value entry ≠ some entry.value) := by
  induction entries generalizing missing with
  | nil => simp [pure, Except.pure]
  | cons entry entries ih =>
      obtain ⟨hhead, htail⟩ := List.forall_mem_cons.mp h
      refine foldlM_cons_eq_ok.mpr ⟨_, bind_eq_ok.mpr ⟨_, hhead, rfl⟩, ?_⟩
      rw [ih _ htail, List.filter_cons]
      by_cases hvalue : value entry = some entry.value
      · rw [if_pos hvalue, if_neg (by simpa using hvalue)]
      · rw [if_neg hvalue, if_pos (by simpa using hvalue), List.append_assoc]
        rfl

/-- **A remote leaf** is read off: its entries the local side does not hold are found. -/
theorem Tree.compare_leaf (h : Tree localSource localRoot localEntries)
    (hlocal : LocalAt localSource localRoot localEntries path localChild)
    (hpath : path.length ≤ MAX_DEPTH) {entries : List IndexEntry}
    (hunder : AllUnder digit IndexEntry.key path entries) (self : Reconciliation) :
    self.compare localSource (.leaf entries) localChild path.length =
      .ok { self with missing := self.missing ++ entries.filter (· ∉ localEntries) } := by
  -- against a leaf whose path covers this one
  have hleaf : ∀ {shorter : List (Fin FANOUT)}, shorter <+: path →
      (entries.filter fun entry => !(below shorter localEntries).any fun held =>
        held.key = entry.key ∧ held.value = entry.value) = entries.filter (· ∉ localEntries) := by
    intro shorter hshorter
    refine List.filter_congr fun entry hentry => ?_
    rw [Bool.eq_iff_iff, Bool.not_eq_true', List.any_eq_false, decide_eq_true_iff]
    constructor
    · intro hnone hheld
      exact hnone entry (mem_below.mpr ⟨hheld, (hunder entry hentry).of_extends hshorter⟩) (by simp)
    · intro hheld held hmem heq
      obtain ⟨hkey, hvalue⟩ := of_decide_eq_true heq
      obtain rfl : held = entry := IndexEntry.ext hkey hvalue
      exact hheld (mem_below.mp hmem).1
  cases hlocal with
  | nothing hempty =>
      have hfold := @foldlM_lookups (fun entry => lookupFrom (MAX_DEPTH + 1 - path.length)
        localSource none entry.key path.length) (fun _ => none) entries self.missing
        fun _ _ => by rw [lookupFrom]
      refine bind_eq_ok.mpr ⟨none, rfl, bind_eq_ok.mpr ⟨_, hfold, ?_⟩⟩
      have hall : (entries.filter fun entry => (none : Option Bytes) ≠ some entry.value) =
          entries.filter (· ∉ localEntries) := by
        refine List.filter_congr fun entry hentry => ?_
        have hnot : entry ∉ localEntries := fun hmem =>
          List.ne_nil_of_mem (mem_below.mpr ⟨hmem, hunder entry hentry⟩) hempty
        simp [hnot]
      rw [hall]
      rfl
  | above hshorter hread =>
      refine bind_eq_ok.mpr ⟨_, localNode_of_readNode hread, ?_⟩
      show Except.ok _ = _
      rw [hleaf hshorter]
  | @node child hchild =>
      obtain ⟨href, -, hheld, -⟩ := h.of_descendTo hchild
      refine bind_eq_ok.mpr ⟨_, h.localNode_eq hchild, ?_⟩
      cases hfits : fitsLeaf (below path localEntries) path.length with
      | true =>
          rw [canonicalNode_of_fits hfits]
          show Except.ok _ = _
          rw [hleaf List.prefix_rfl]
      | false =>
          obtain ⟨levels, hlevels⟩ : ∃ levels, MAX_DEPTH + 1 - path.length = levels + 1 :=
            ⟨MAX_DEPTH - path.length, by omega⟩
          have hfold := @foldlM_lookups (fun entry => lookupFrom (MAX_DEPTH + 1 - path.length)
            localSource (some child) entry.key path.length)
            (fun entry => ((below path localEntries).find? (·.key = entry.key)).map
              IndexEntry.value) entries self.missing
            (fun entry _ => by
              rw [← href, refBelow]
              exact lookupFrom_eq (h.set.below path) (by omega) hpath hheld entry.key)
          rw [hlevels] at hfold
          rw [hlevels, canonicalNode_of_not_fits hfits]
          refine bind_eq_ok.mpr ⟨_, hfold, ?_⟩
          have hall : (entries.filter fun entry => ((below path localEntries).find?
              (·.key = entry.key)).map IndexEntry.value ≠ some entry.value) =
              entries.filter (· ∉ localEntries) := by
            refine List.filter_congr fun entry hentry => ?_
            rw [decide_eq_decide, ne_eq, find?_eq_value (h.set.below path).sorted, mem_below,
              and_iff_left (hunder entry hentry)]
          rw [hall]
          rfl

omit [NodeHash] in
/-- Pushing wants every item, one level down. -/
theorem push_eq {depth : ℕ} (hdeep : depth < MAX_DEPTH) (self : Reconciliation)
    (items : List (ChildRef × Option ChildRef)) :
    self.push depth items = .ok { self with
      wanted := self.wanted ++ items.map fun item => ⟨item.1, item.2, depth + 1⟩ } := by
  unfold Reconciliation.push
  induction items generalizing self with
  | nil => simp [pure, Except.pure]
  | cons item items ih =>
      refine foldlM_cons_eq_ok.mpr ⟨{ self with
        wanted := self.wanted ++ [⟨item.1, item.2, depth + 1⟩] }, ?_, ?_⟩
      · exact bind_eq_ok.mpr ⟨_, nextDepth_eq hdeep, rfl⟩
      · rw [ih, List.map_cons, List.append_assoc]
        rfl

/-- What a comparison at a path comes to: some entries found, and some slots asked for, each
with the remote reference and what the local side has there. -/
structure Asks (localSource : NodeSource) (localRoot : Option ChildRef)
    (localEntries : List IndexEntry) (remoteSource : NodeSource) (remoteRoot : Option ChildRef)
    (remoteEntries : List IndexEntry) (path : List (Fin FANOUT)) (found : List IndexEntry)
    (slots : List (Fin FANOUT)) (items : List Wanted) : Prop where
  wants : List.Forall₂ (fun s item => Wants localSource localRoot localEntries remoteSource
    remoteRoot (path ++ [s]) item) slots items
  nodup : slots.Nodup
  differs : ∀ s ∈ slots, descendTo localSource localRoot (path ++ [s]) ≠
    descendTo remoteSource remoteRoot (path ++ [s])
  sound : ∀ entry ∈ found, entry ∈ remoteEntries ∧ entry ∉ localEntries
  covers : ∀ entry ∈ below path remoteEntries, entry ∉ localEntries →
    entry ∈ found ∨ digit entry.key path.length ∈ slots

omit [NodeHash] in
/-- The slots of a branch taken by a choice, in order. -/
theorem forall₂_filterMap {f : Fin FANOUT → Option (ChildRef × Option ChildRef)} {depth : ℕ}
    {R : Fin FANOUT → Wanted → Prop} {slots : List (Fin FANOUT)}
    (h : ∀ s ∈ slots, ∀ item, f s = some item → R s ⟨item.1, item.2, depth⟩) :
    List.Forall₂ R (slots.filter fun s => (f s).isSome)
      ((slots.filterMap f).map fun item => (⟨item.1, item.2, depth⟩ : Wanted)) := by
  induction slots with
  | nil => exact .nil
  | cons s slots ih =>
      obtain ⟨hhead, htail⟩ := List.forall_mem_cons.mp h
      cases hs : f s with
      | none =>
          rw [List.filterMap_cons_none hs, List.filter_cons, hs]
          exact ih htail
      | some item =>
          rw [List.filterMap_cons_some hs, List.filter_cons, hs]
          exact .cons (hhead item hs) (ih htail)

/-- A slot with an entry has a reference. -/
theorem refBelow_ne_none {entries : List IndexEntry} {entry : IndexEntry}
    (h : entry ∈ below path entries) :
    refBelow (path ++ [digit entry.key path.length]) entries ≠ none := by
  rw [refBelow, ne_eq, canonicalRef_eq_none, below_concat]
  exact List.ne_nil_of_mem (mem_slot.mpr ⟨h, rfl⟩)

variable (hremote : Tree remoteSource remoteRoot remoteEntries) {remote : ChildRef}
  (hchild : descendTo remoteSource remoteRoot path = some remote)
  (hfits : fitsLeaf (below path remoteEntries) path.length = false)
include hremote hchild hfits

/-- Below a remote branch, with nothing of the local side there but what is carried down,
every child is asked for. -/
theorem asks_carried (hnone : ∀ s, descendTo localSource localRoot (path ++ [s]) = none)
    (hat : ∀ s, LocalAt localSource localRoot localEntries (path ++ [s]) localChild) :
    ∃ slots, Asks localSource localRoot localEntries remoteSource remoteRoot remoteEntries path
      [] slots (((occupied fun s => refBelow (path ++ [s]) remoteEntries).map fun remote =>
        (remote, localChild)).map fun item => (⟨item.1, item.2, path.length + 1⟩ : Wanted)) := by
  have hitems : ((occupied fun s => refBelow (path ++ [s]) remoteEntries).map fun remote =>
      (remote, localChild)) = (List.finRange FANOUT).filterMap fun s =>
        (refBelow (path ++ [s]) remoteEntries).map fun remote => (remote, localChild) := by
    rw [occupied, List.map_filterMap]
  rw [hitems]
  refine ⟨_, forall₂_filterMap fun s _ item hitem => ?_, (List.nodup_finRange _).filter _,
    fun s hs => ?_, fun _ h => absurd h List.not_mem_nil, fun entry hentry _ => Or.inr ?_⟩
  · obtain ⟨remote, href, rfl⟩ := Option.map_eq_some_iff.mp hitem
    exact ⟨by simp, (hremote.descendTo_concat hchild hfits s).trans href, hat s⟩
  · have hsome := (List.mem_filter.mp hs).2
    rw [hnone, hremote.descendTo_concat hchild hfits]
    intro heq
    rw [← heq] at hsome
    cases hsome
  · refine List.mem_filter.mpr ⟨List.mem_finRange _, ?_⟩
    rw [Option.isSome_map]
    exact Option.isSome_iff_ne_none.mpr (refBelow_ne_none hentry)

/-- Below branches of both sides, every child whose reference differs is asked for. -/
theorem asks_both (hlocal : Tree localSource localRoot localEntries) {child : ChildRef}
    (hlocalChild : descendTo localSource localRoot path = some child)
    (hlocalFits : fitsLeaf (below path localEntries) path.length = false)
    (hcollision : NoCollision (canonicalNodes (MAX_DEPTH + 1) 0 localEntries)
      (canonicalNodes (MAX_DEPTH + 1) 0 remoteEntries)) :
    ∃ slots, Asks localSource localRoot localEntries remoteSource remoteRoot remoteEntries path
      [] slots (((List.finRange FANOUT).filterMap fun s =>
        match refBelow (path ++ [s]) remoteEntries with
        | none => none
        | some remote =>
            if refBelow (path ++ [s]) localEntries = some remote then none
            else some (remote, refBelow (path ++ [s]) localEntries)).map fun item =>
              (⟨item.1, item.2, path.length + 1⟩ : Wanted)) := by
  have hnext := hlocal.descendTo_concat hlocalChild hlocalFits
  have hnextRemote := hremote.descendTo_concat hchild hfits
  refine ⟨_, forall₂_filterMap fun s _ item hitem => ?_, (List.nodup_finRange _).filter _,
    fun s hs => ?_, fun _ => nofun, fun entry hentry hmissing => Or.inr ?_⟩
  · split at hitem
    case h_1 => cases hitem
    case h_2 remote href =>
        split at hitem
        case isTrue => cases hitem
        case isFalse =>
            cases hitem
            refine ⟨by simp, (hnextRemote s).trans href, ?_⟩
            cases hsome : refBelow (path ++ [s]) localEntries with
            | none => exact .nothing (canonicalRef_eq_none.mp hsome) ((hnext s).trans hsome)
            | some below => exact .node ((hnext s).trans hsome)
  · have hsome := (List.mem_filter.mp hs).2
    rw [hnext, hnextRemote]
    intro heq
    split at hsome
    case h_1 => cases hsome
    case h_2 remote href =>
        rw [if_pos (heq.trans href)] at hsome
        cases hsome
  · refine List.mem_filter.mpr ⟨List.mem_finRange _, ?_⟩
    split
    case h_1 hnone => exact absurd hnone (refBelow_ne_none hentry)
    case h_2 remote href =>
        rw [if_neg]
        · rfl
        · -- an equal reference would mean the local side holds the entry
          intro hsame
          obtain ⟨-, hlen, -⟩ := hremote.of_descendTo ((hnextRemote _).trans href)
          have hsets := entries_eq_of_ref_eq (hlocal.set.below _) (hremote.set.below _) (by omega)
            hlen (fun bytes hbytes bytes' hbytes' => hcollision bytes
              (hlocal.nodes_subset ((hnext _).trans hsame) hbytes) bytes'
              (hremote.nodes_subset ((hnextRemote _).trans href) hbytes')) hsame href
          have hmem : entry ∈ below (path ++ [digit entry.key path.length]) remoteEntries := by
            rw [below_concat]
            exact mem_slot.mpr ⟨hentry, rfl⟩
          rw [← hsets] at hmem
          exact hmissing (mem_below.mp hmem).1

/-- **A remote branch** is followed where the local side may differ. -/
theorem compare_branch (hlocal : Tree localSource localRoot localEntries)
    (hat : LocalAt localSource localRoot localEntries path localChild)
    (hcollision : NoCollision (canonicalNodes (MAX_DEPTH + 1) 0 localEntries)
      (canonicalNodes (MAX_DEPTH + 1) 0 remoteEntries)) (self : Reconciliation) :
    ∃ slots items, self.compare localSource (.branch fun s => refBelow (path ++ [s]) remoteEntries)
        localChild path.length = .ok { self with wanted := self.wanted ++ items } ∧
      Asks localSource localRoot localEntries remoteSource remoteRoot remoteEntries path [] slots
        items := by
  obtain ⟨-, hdeep, -⟩ := fitsLeaf_eq_false.mp hfits
  cases hat with
  | nothing hempty hnone =>
      have hbelow := fun s => descendTo_of_none hnone (List.prefix_append path [s])
      obtain ⟨slots, hasks⟩ := asks_carried hremote hchild hfits hbelow fun s => .nothing (by
        rw [below_concat, hempty]
        rfl) (hbelow s)
      exact ⟨slots, _, bind_eq_ok.mpr ⟨none, rfl, push_eq hdeep self _⟩, hasks⟩
  | above hshorter hread hnone =>
      have hbelow := fun s => descendTo_of_none hnone (List.prefix_append path [s])
      obtain ⟨slots, hasks⟩ := asks_carried hremote hchild hfits hbelow fun s =>
        .above (hshorter.trans (List.prefix_append path [s])) hread (hbelow s)
      exact ⟨slots, _, bind_eq_ok.mpr ⟨_, localNode_of_readNode hread, push_eq hdeep self _⟩,
        hasks⟩
  | @node child hlocalChild =>
      cases hlocalFits : fitsLeaf (below path localEntries) path.length with
      | true =>
          obtain ⟨href, hpath, hheld, -⟩ := hlocal.of_descendTo hlocalChild
          have hread := readNode_below hlocal.set hpath hheld href
          rw [canonicalNode_of_fits hlocalFits] at hread
          have hbelow := hlocal.descendTo_concat_leaf hlocalChild hlocalFits
          obtain ⟨slots, hasks⟩ := asks_carried hremote hchild hfits hbelow fun s =>
            .above (List.prefix_append path [s]) hread (hbelow s)
          exact ⟨slots, _, bind_eq_ok.mpr ⟨_, localNode_of_readNode hread, push_eq hdeep self _⟩,
            hasks⟩
      | false =>
          obtain ⟨slots, hasks⟩ := asks_both hremote hchild hfits hlocal hlocalChild hlocalFits
            hcollision
          refine ⟨slots, _, bind_eq_ok.mpr ⟨_, hlocal.localNode_eq hlocalChild, ?_⟩, hasks⟩
          rw [canonicalNode_below hlocalFits]
          exact push_eq hdeep self _

end Compare

section Spec

variable [NodeHash] {localSource remoteSource : NodeSource} {localRoot remoteRoot : Option ChildRef}
  {localEntries remoteEntries : List IndexEntry} {path : List (Fin FANOUT)} {item : Wanted}

/-- **A wanted node is compared** with what the local side has there. -/
theorem compare_spec (hlocal : Tree localSource localRoot localEntries)
    (hremote : Tree remoteSource remoteRoot remoteEntries)
    (hcollision : NoCollision (canonicalNodes (MAX_DEPTH + 1) 0 localEntries)
      (canonicalNodes (MAX_DEPTH + 1) 0 remoteEntries))
    (hwants : Wants localSource localRoot localEntries remoteSource remoteRoot path item)
    (self : Reconciliation) : ∃ found slots items,
      self.compare localSource (canonicalNode (MAX_DEPTH + 1 - path.length) path.length
          (below path remoteEntries)) item.localChild item.depth =
        .ok { self with wanted := self.wanted ++ items, missing := self.missing ++ found } ∧
      Asks localSource localRoot localEntries remoteSource remoteRoot remoteEntries path found slots
        items := by
  obtain ⟨-, hpath, -⟩ := hremote.of_descendTo hwants.remote
  rw [hwants.depth_eq]
  cases hfits : fitsLeaf (below path remoteEntries) path.length with
  | true =>
      refine ⟨(below path remoteEntries).filter (· ∉ localEntries), [], [], ?_, .nil, List.nodup_nil, fun _ => nofun, fun entry hentry => ?_,
        fun entry hentry hmissing => Or.inl (List.mem_filter.mpr ⟨hentry, by simpa⟩)⟩
      · rw [canonicalNode_of_fits hfits, hlocal.compare_leaf hwants.local_at hpath
          (hremote.set.below path).under, List.append_nil]
      · obtain ⟨hmem, hmissing⟩ := List.mem_filter.mp hentry
        exact ⟨(mem_below.mp hmem).1, by simpa using hmissing⟩
  | false =>
      obtain ⟨slots, items, hcompare, hasks⟩ := compare_branch hremote hwants.remote hfits hlocal
        hwants.local_at hcollision self
      refine ⟨[], slots, items, ?_, hasks⟩
      rw [canonicalNode_below hfits, hcompare, List.append_nil]

end Spec

end Lait.Radix
