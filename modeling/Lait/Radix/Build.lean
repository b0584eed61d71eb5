import Lait.Radix.Node

/-!
# Building an index

`build` is the source's definition of the canonical subtree of a sorted entry set at a
depth: a leaf when the set fits one, else a branch over the runs of the next nibble,
each built a level deeper.  `buildIndex` checks, sorts and builds from the root.

What it computes is said once, as a function of the set alone: the canonical node, the
reference to it and the encodings below it (`canonicalNode`, `canonicalRef`,
`canonicalNodes`).  `build_eq` connects the two, and everything else about the index
compares with these three.

`levels` is the number of levels left, `MAX_DEPTH + 1 - depth`: none is left exactly
where the source finds `depth > MAX_DEPTH`.
-/

namespace Lait.Radix

/-- A `usize` as a `u64`. -/
def count (entries : ℕ) : Except Failure UInt64 :=
  if entries < 2 ^ 64 then .ok (UInt64.ofNat entries) else .error .bounds

theorem count_eq {n : ℕ} (h : n < 2 ^ 64) : count n = .ok (UInt64.ofNat n) := if_pos h

/-- `checked_add`. -/
def checkedAdd (failure : Failure) (a b : UInt64) : Except Failure UInt64 :=
  if a.toNat + b.toNat < 2 ^ 64 then .ok (a + b) else .error failure

/-- `checked_sub`. -/
def checkedSub (failure : Failure) (a b : UInt64) : Except Failure UInt64 :=
  if b.toNat ≤ a.toNat then .ok (a - b) else .error failure

theorem toNat_count {n : ℕ} (h : n < 2 ^ 64) : (UInt64.ofNat n).toNat = n :=
  UInt64.toNat_ofNat_of_lt' h

theorem checkedAdd_eq {failure : Failure} {a b : ℕ} (h : a + b < 2 ^ 64) :
    checkedAdd failure (UInt64.ofNat a) (UInt64.ofNat b) = .ok (UInt64.ofNat (a + b)) := by
  rw [checkedAdd, toNat_count (by omega), toNat_count (by omega), if_pos h, UInt64.ofNat_add]

theorem checkedSub_eq {failure : Failure} {a b : ℕ} (h : b ≤ a) (ha : a < 2 ^ 64) :
    checkedSub failure (UInt64.ofNat a) (UInt64.ofNat b) = .ok (UInt64.ofNat (a - b)) := by
  have hb : b < 2 ^ 64 := h.trans_lt ha
  have hle : UInt64.ofNat b ≤ UInt64.ofNat a := by
    rw [UInt64.le_iff_toNat_le, toNat_count hb, toNat_count ha]
    exact h
  rw [checkedSub, toNat_count hb, toNat_count ha, if_pos h]
  refine congrArg Except.ok (UInt64.toNat_inj.mp ?_)
  rw [UInt64.toNat_sub_of_le _ _ hle, toNat_count ha, toNat_count hb, toNat_count (by omega)]

/-- `next_depth`. -/
def nextDepth (depth : ℕ) : Except Failure ℕ :=
  if MAX_DEPTH < depth + 1 then .error .bounds else .ok (depth + 1)

theorem nextDepth_eq {depth : ℕ} (h : depth < MAX_DEPTH) : nextDepth depth = .ok (depth + 1) :=
  if_neg (by omega)

theorem nextDepth_eq_ok {depth next : ℕ} :
    nextDepth depth = .ok next ↔ depth < MAX_DEPTH ∧ next = depth + 1 := by
  unfold nextDepth
  split
  case isTrue h => simp only [reduceCtorEq, false_iff, not_and]; omega
  case isFalse h => simp only [Except.ok.injEq]; omega

/-- Whether a set of entries is small enough to live in one leaf at a depth. -/
def fitsLeaf (entries : List IndexEntry) (depth : ℕ) : Bool :=
  entries.length ≤ 1 || MAX_DEPTH ≤ depth ||
    (entries.length ≤ MAX_LEAF_ENTRIES &&
      (IndexNode.leaf entries).encode.length ≤ MAX_NODE_BYTES)

/-- The pieces of a sorted list with one nibble each, in order. -/
def slices {α : Type} (key : α → IndexKey) (depth : ℕ) (l : List α) :
    Except Failure (List (Fin FANOUT × List α)) := do
  let _ ← l.mapM fun a => nibble (key a) depth
  return runs (fun a => digit (key a) depth) l

theorem slices_eq {α : Type} (key : α → IndexKey) {depth : ℕ} (h : depth < MAX_DEPTH)
    (l : List α) : slices key depth l = .ok (runs (fun a => digit (key a) depth) l) := by
  have hnibbles : l.mapM (fun a => nibble (key a) depth) =
      (.ok (l.map fun a => digit (key a) depth) : Except Failure _) := by
    refine mapM_eq_ok_iff.mpr ?_
    rw [List.forall₂_map_right_iff, List.forall₂_same]
    exact fun a _ => nibble_eq (key a) h
  rw [slices, hnibbles]
  rfl

/-- The nodes an update produced. -/
abbrev NodeSink := List Bytes

/-- The count of an optional subtree. -/
def countOf : Option ChildRef → UInt64
  | some child => child.count
  | none => 0

/-- The loop state over the slots of a branch. -/
structure Progress where
  children : Fin FANOUT → Option ChildRef
  total : UInt64
  sink : NodeSink

/-- One turn of `build`'s loop, given `build` one level down. -/
def buildSlice (build : List IndexEntry → ℕ → NodeSink →
    Except Failure (Option ChildRef × NodeSink)) (depth : ℕ) (state : Progress)
    (piece : Fin FANOUT × List IndexEntry) : Except Failure Progress := do
  let next ← nextDepth depth
  let (child, sink) ← build piece.2 next state.sink
  let total ← checkedAdd .bounds state.total (countOf child)
  return ⟨Function.update state.children piece.1 child, total, sink⟩

/-! ## Sets at a path -/

section Sets

variable {depth : ℕ} {path : List (Fin FANOUT)} {entries : List IndexEntry}

theorem fitsLeaf_eq_false : fitsLeaf entries depth = false ↔ 1 < entries.length ∧ depth < MAX_DEPTH ∧
    (entries.length ≤ MAX_LEAF_ENTRIES →
      MAX_NODE_BYTES < (IndexNode.leaf entries).encode.length) := by
  simp only [fitsLeaf, Bool.or_eq_false_iff, decide_eq_false_iff_not, Bool.and_eq_false_imp,
    decide_eq_true_eq, not_le, and_assoc]

theorem ne_nil_of_not_fits (h : fitsLeaf entries depth = false) : entries ≠ [] := by
  rintro rfl
  cases h

/-- A sorted set of bounded entries under a path. -/
structure SetAt (path : List (Fin FANOUT)) (entries : List IndexEntry) : Prop where
  sorted : Sorted IndexEntry.key entries
  under : AllUnder digit IndexEntry.key path entries
  bounded : ∀ entry ∈ entries, entry.value.length ≤ MAX_VALUE_BYTES
  countable : entries.length < 2 ^ 64

theorem SetAt.slot (h : SetAt path entries) (s : Fin FANOUT) :
    SetAt (path ++ [s]) (slot digit IndexEntry.key path.length s entries) where
  sorted := h.sorted.slot _ s
  under := h.under.slot s
  bounded _ hentry := h.bounded _ (mem_slot.mp hentry).1
  countable := (List.length_filter_le _ _).trans_lt h.countable

/-- Sets at the slots of a path make a set at the path. -/
theorem SetAt.flatMap {f : Fin FANOUT → List IndexEntry} (h : ∀ s, SetAt (path ++ [s]) (f s))
    (hdeep : path.length < MAX_DEPTH)
    (hcount : ((List.finRange FANOUT).flatMap f).length < 2 ^ 64) :
    SetAt path ((List.finRange FANOUT).flatMap f) where
  sorted := sorted_flatMap isRadix hdeep (fun s => (h s).sorted) fun s => (h s).under
  under := AllUnder.flatMap fun s => (h s).under
  bounded entry hentry := by
    obtain ⟨s, -, hs⟩ := List.mem_flatMap.mp hentry
    exact (h s).bounded entry hs
  countable := hcount

theorem SetAt.nil (path : List (Fin FANOUT)) : SetAt path [] where
  sorted := List.Pairwise.nil
  under := by rintro _ ⟨⟩
  bounded := by rintro _ ⟨⟩
  countable := by decide

/-- The runs make up the list. -/
theorem flatMap_runs {α σ : Type} [LinearOrder σ] (f : α → σ) (l : List α) :
    (runs f l).flatMap Prod.snd = l := by
  induction l with
  | nil => rfl
  | cons a l ih =>
      rw [runs]
      split
      case h_1 hruns =>
          rw [hruns] at ih
          rw [← ih]
          rfl
      case h_2 hruns =>
          rw [hruns] at ih
          split
          case isTrue => rw [List.flatMap_cons, List.cons_append, ← ih, List.flatMap_cons]
          case isFalse => rw [List.flatMap_cons, ih]; rfl

/-- The pieces of a set are its slots that hold anything. -/
theorem SetAt.mem_runs (h : SetAt path entries) (hdeep : path.length < MAX_DEPTH)
    {piece : Fin FANOUT × List IndexEntry} :
    piece ∈ runs (fun entry : IndexEntry => digit entry.key path.length) entries ↔
      piece.2 = Radix.slot digit IndexEntry.key path.length piece.1 entries ∧ piece.2 ≠ [] :=
  h.sorted.mem_runs isRadix h.under hdeep

theorem SetAt.exists_piece (h : SetAt path entries) (hdeep : path.length < MAX_DEPTH)
    {s : Fin FANOUT} (hne : Radix.slot digit IndexEntry.key path.length s entries ≠ []) :
    (s, Radix.slot digit IndexEntry.key path.length s entries) ∈
      runs (fun entry : IndexEntry => digit entry.key path.length) entries :=
  (h.mem_runs hdeep).mpr ⟨rfl, hne⟩

end Sets

section Slices

variable {depth : ℕ} {build : List IndexEntry → ℕ → NodeSink → Except Failure (Option ChildRef × NodeSink)}
  {ref : Fin FANOUT → Option ChildRef} {nodes : Fin FANOUT → List Bytes}

/-- The loop over pieces of a set puts what each builds into its slot, and adds up. -/
theorem foldlM_buildSlice (hdepth : depth < MAX_DEPTH)
    (pieces : List (Fin FANOUT × List IndexEntry))
    (hbuild : ∀ piece ∈ pieces, ∀ sink, ∃ written,
      build piece.2 (depth + 1) sink = .ok (ref piece.1, sink ++ written) ∧
        ∀ bytes, bytes ∈ written ↔ bytes ∈ nodes piece.1)
    (hcount : ∀ piece ∈ pieces, countOf (ref piece.1) = UInt64.ofNat piece.2.length)
    (children : Fin FANOUT → Option ChildRef) (total : ℕ) (sink : NodeSink)
    (htotal : total + (pieces.flatMap Prod.snd).length < 2 ^ 64) :
    ∃ written, pieces.foldlM (buildSlice build depth) ⟨children, UInt64.ofNat total, sink⟩ =
        .ok ⟨fun s => if s ∈ pieces.map Prod.fst then ref s else children s,
          UInt64.ofNat (total + (pieces.flatMap Prod.snd).length), sink ++ written⟩ ∧
      ∀ bytes, bytes ∈ written ↔ ∃ piece ∈ pieces, bytes ∈ nodes piece.1 := by
  induction pieces generalizing children total sink with
  | nil => exact ⟨[], by simp [pure, Except.pure], by simp⟩
  | cons piece pieces ih =>
      rw [List.flatMap_cons, List.length_append] at htotal ⊢
      obtain ⟨first, hfirst, hfirstNodes⟩ := hbuild piece List.mem_cons_self sink
      have hturn : buildSlice build depth ⟨children, UInt64.ofNat total, sink⟩ piece =
          .ok ⟨Function.update children piece.1 (ref piece.1),
            UInt64.ofNat (total + piece.2.length), sink ++ first⟩ := by
        rw [buildSlice, nextDepth_eq hdepth]
        show (build piece.2 (depth + 1) sink >>= _) = _
        rw [hfirst]
        show (checkedAdd .bounds (UInt64.ofNat total) (countOf (ref piece.1)) >>= _) = _
        rw [hcount piece List.mem_cons_self, checkedAdd_eq (by omega)]
        rfl
      obtain ⟨rest, hrest, hrestNodes⟩ := ih
        (fun piece hpiece => hbuild piece (List.mem_cons_of_mem _ hpiece))
        (fun piece hpiece => hcount piece (List.mem_cons_of_mem _ hpiece))
        (Function.update children piece.1 (ref piece.1)) (total + piece.2.length) (sink ++ first)
        (by omega)
      refine ⟨first ++ rest, foldlM_cons_eq_ok.mpr ⟨_, hturn, hrest.trans ?_⟩, fun bytes => ?_⟩
      · rw [List.append_assoc, Nat.add_assoc]
        congr 2
        funext s
        simp only [List.map_cons, List.mem_cons, Function.update_apply]
        by_cases hs : s = piece.1
        · rw [if_pos hs, if_pos (Or.inl hs), hs, ite_self]
        · simp only [hs, if_false, false_or]
      · rw [List.mem_append, hfirstNodes, hrestNodes]
        simp

end Slices

section Build

variable [NodeHash]

/-- `NodeSink::emit`. -/
def emit (sink : NodeSink) (node : IndexNode) (count : UInt64) : ChildRef × NodeSink :=
  (⟨nodeHash node.encode, count⟩, sink ++ [node.encode])

/-- Build the canonical subtree of a sorted entry set. -/
def build : ℕ → List IndexEntry → ℕ → NodeSink → Except Failure (Option ChildRef × NodeSink)
  | 0, _, _, _ => .error .bounds
  | levels + 1, entries, depth, sink =>
      if entries = [] then .ok (none, sink)
      else if fitsLeaf entries depth then do
        let total ← count entries.length
        let (child, sink) := emit sink (.leaf entries) total
        return (some child, sink)
      else do
        let pieces ← slices IndexEntry.key depth entries
        let state ← pieces.foldlM (buildSlice (build levels) depth) ⟨fun _ => none, 0, sink⟩
        let (child, sink) := emit state.sink (.branch state.children) state.total
        return (some child, sink)

/-- Build a canonical index from scratch. -/
def buildIndex (entries : List IndexEntry) (sink : NodeSink) :
    Except Failure (Option ChildRef × NodeSink) :=
  if entries.any fun entry => MAX_VALUE_BYTES < entry.value.length then .error .bounds
  else
    let entries := sortByKey IndexEntry.key entries
    if (entries.zip entries.tail).any fun window => window.1.key = window.2.key then .error .order
    else build (MAX_DEPTH + 1) entries 0 sink

/-! ## The canonical subtree of a set -/

/-- The canonical node of a set at a depth. -/
def canonicalNode : ℕ → ℕ → List IndexEntry → IndexNode
  | 0, _, entries => .leaf entries
  | levels + 1, depth, entries =>
      if fitsLeaf entries depth then .leaf entries
      else .branch fun s =>
        let below := slot digit IndexEntry.key depth s entries
        if below = [] then none
        else some ⟨nodeHash (canonicalNode levels (depth + 1) below).encode,
          UInt64.ofNat below.length⟩

/-- The reference to it; the empty set has none. -/
def canonicalRef (levels depth : ℕ) (entries : List IndexEntry) : Option ChildRef :=
  if entries = [] then none
  else some ⟨nodeHash (canonicalNode levels depth entries).encode, UInt64.ofNat entries.length⟩

/-- Its encoding and the encodings of everything below it. -/
def canonicalNodes : ℕ → ℕ → List IndexEntry → List Bytes
  | 0, _, _ => []
  | levels + 1, depth, entries =>
      if entries = [] then []
      else if fitsLeaf entries depth then [(IndexNode.leaf entries).encode]
      else (List.finRange FANOUT).flatMap (fun s =>
        canonicalNodes levels (depth + 1) (slot digit IndexEntry.key depth s entries)) ++
          [(canonicalNode (levels + 1) depth entries).encode]

variable {levels depth : ℕ} {path : List (Fin FANOUT)} {entries : List IndexEntry}

theorem canonicalRef_nil (levels depth : ℕ) : canonicalRef levels depth [] = none := rfl

theorem canonicalRef_of_ne (h : entries ≠ []) :
    canonicalRef levels depth entries = some ⟨nodeHash (canonicalNode levels depth entries).encode,
      UInt64.ofNat entries.length⟩ := if_neg h

theorem canonicalRef_eq_none : canonicalRef levels depth entries = none ↔ entries = [] := by
  unfold canonicalRef
  split
  case isTrue h => simp [h]
  case isFalse h => simp [h]

theorem countOf_canonicalRef (levels depth : ℕ) (entries : List IndexEntry) :
    countOf (canonicalRef levels depth entries) = UInt64.ofNat entries.length := by
  unfold canonicalRef
  split
  case isTrue h =>
      subst h
      rfl
  case isFalse => rfl

theorem canonicalNode_of_fits (h : fitsLeaf entries depth = true) :
    canonicalNode levels depth entries = .leaf entries := by
  cases levels with
  | zero => rfl
  | succ levels => exact if_pos h

theorem canonicalNode_of_not_fits (h : fitsLeaf entries depth = false) :
    canonicalNode (levels + 1) depth entries = .branch fun s =>
      canonicalRef levels (depth + 1) (slot digit IndexEntry.key depth s entries) := by
  rw [canonicalNode, if_neg (by rw [h]; exact Bool.false_ne_true)]
  rfl

theorem canonicalNodes_nil (levels depth : ℕ) : canonicalNodes levels depth [] = [] := by
  cases levels with
  | zero => rfl
  | succ levels => exact if_pos rfl

/-- A node is among the nodes of its subtree. -/
theorem encode_mem_canonicalNodes (h : entries ≠ []) :
    (canonicalNode (levels + 1) depth entries).encode ∈
      canonicalNodes (levels + 1) depth entries := by
  rw [canonicalNodes, if_neg h]
  split
  case isTrue hfits => rw [canonicalNode_of_fits hfits]; exact List.mem_singleton_self _
  case isFalse => exact List.mem_append_right _ (List.mem_singleton_self _)

/-- So are the nodes of its slots. -/
theorem canonicalNodes_slot (h : fitsLeaf entries depth = false) (s : Fin FANOUT) :
    canonicalNodes levels (depth + 1) (slot digit IndexEntry.key depth s entries) ⊆
      canonicalNodes (levels + 1) depth entries := by
  intro bytes hbytes
  rw [canonicalNodes, if_neg, if_neg (by rw [h]; exact Bool.false_ne_true)]
  · exact List.mem_append_left _ (List.mem_flatMap.mpr ⟨s, List.mem_finRange s, hbytes⟩)
  · rintro rfl
    cases h

/-- The canonical node of a set fits a node. -/
theorem SetAt.length_encode_le (h : SetAt path entries) (hne : entries ≠ []) (levels : ℕ) :
    (canonicalNode (levels + 1) path.length entries).encode.length ≤ MAX_NODE_BYTES := by
  cases hfits : fitsLeaf entries path.length with
  | false =>
      rw [canonicalNode_of_not_fits hfits]
      exact length_encode_branch _
  | true =>
      rw [canonicalNode_of_fits hfits]
      by_cases hone : entries.length ≤ 1
      · obtain ⟨entry, rfl⟩ : ∃ entry, entries = [entry] := List.length_eq_one_iff.mp
          (le_antisymm hone (List.length_pos_iff.mpr hne))
        exact length_encode_singleton (h.bounded _ List.mem_cons_self)
      · have hdeep : ¬ MAX_DEPTH ≤ path.length := fun hpath =>
          hone (h.sorted.length_le_one isRadix h.under hpath)
        simp only [fitsLeaf, hone, hdeep, decide_false, Bool.false_or, Bool.and_eq_true,
          decide_eq_true_eq] at hfits
        exact hfits.2

/-- The canonical node of a set is read where the set's nodes are held. -/
theorem SetAt.decode_canonicalNode (h : SetAt path entries) (hne : entries ≠ []) (levels : ℕ) :
    decodeCanonical (canonicalNode (levels + 1) path.length entries).encode =
      .ok (canonicalNode (levels + 1) path.length entries) :=
  decodeCanonical_eq_ok.mpr ⟨rfl, h.length_encode_le hne levels⟩

/-! ## What `build` builds -/

/-- **`build` builds the canonical subtree**, and writes its nodes. -/
theorem build_eq (hset : SetAt path entries) (hlevels : levels + path.length = MAX_DEPTH + 1)
    (hpath : path.length ≤ MAX_DEPTH) (sink : NodeSink) : ∃ written,
    build levels entries path.length sink =
        .ok (canonicalRef levels path.length entries, sink ++ written) ∧
      ∀ bytes, bytes ∈ written ↔ bytes ∈ canonicalNodes levels path.length entries := by
  induction levels generalizing path entries sink with
  | zero => omega
  | succ levels ih =>
      rw [build, canonicalNodes]
      by_cases hne : entries = []
      · rw [if_pos hne, if_pos hne, hne]
        exact ⟨[], by rw [canonicalRef_nil, List.append_nil], fun _ => Iff.rfl⟩
      rw [if_neg hne, if_neg hne, canonicalRef_of_ne hne]
      cases hfits : fitsLeaf entries path.length with
      | true =>
          refine ⟨_, ?_, fun _ => Iff.rfl⟩
          rw [if_pos rfl, if_pos rfl, canonicalNode_of_fits hfits, count_eq hset.countable]
          rfl
      | false =>
          obtain ⟨-, hdeep, -⟩ := fitsLeaf_eq_false.mp hfits
          have hflat := flatMap_runs (fun entry : IndexEntry => digit entry.key path.length) entries
          obtain ⟨written, hfold, hwritten⟩ := @foldlM_buildSlice path.length (build levels)
            (fun s => canonicalRef levels (path.length + 1)
              (slot digit IndexEntry.key path.length s entries))
            (fun s => canonicalNodes levels (path.length + 1)
              (slot digit IndexEntry.key path.length s entries)) hdeep
            (runs (fun entry : IndexEntry => digit entry.key path.length) entries)
            (fun piece hpiece sink => by
              have hbelow := ih (hset.slot piece.1) (by simp; omega) (by simp; omega) sink
              rw [List.length_append, List.length_singleton] at hbelow
              rwa [((hset.mem_runs hdeep).mp hpiece).1])
            (fun piece hpiece => by
              rw [countOf_canonicalRef, ((hset.mem_runs hdeep).mp hpiece).1])
            (fun _ => none) 0 sink (by rw [hflat, Nat.zero_add]; exact hset.countable)
          rw [if_neg Bool.false_ne_true, if_neg Bool.false_ne_true, slices_eq _ hdeep]
          refine ⟨written ++ [(canonicalNode (levels + 1) path.length entries).encode], ?_,
            fun bytes => ?_⟩
          · show ((runs _ entries).foldlM (buildSlice (build levels) path.length)
              ⟨fun _ => none, UInt64.ofNat 0, sink⟩ >>= _) = _
            rw [hfold, hflat, Nat.zero_add, canonicalNode_of_not_fits hfits, ← List.append_assoc]
            have hchildren : (fun s => if s ∈ (runs (fun entry : IndexEntry =>
                digit entry.key path.length) entries).map Prod.fst then
                  canonicalRef levels (path.length + 1)
                    (slot digit IndexEntry.key path.length s entries) else none) =
                fun s => canonicalRef levels (path.length + 1)
                  (slot digit IndexEntry.key path.length s entries) := by
              funext s
              by_cases hempty : slot digit IndexEntry.key path.length s entries = []
              · rw [hempty, canonicalRef_nil, ite_self]
              · exact if_pos (List.mem_map.mpr ⟨_, hset.exists_piece hdeep hempty, rfl⟩)
            rw [hchildren]
            rfl
          · rw [List.mem_append, List.mem_append, hwritten, List.mem_flatMap]
            refine or_congr_left ⟨fun ⟨piece, _, hbytes⟩ => ⟨piece.1, List.mem_finRange _, hbytes⟩,
              fun ⟨s, _, hbytes⟩ => ⟨_, hset.exists_piece hdeep ?_, hbytes⟩⟩
            intro hempty
            rw [hempty, canonicalNodes_nil] at hbytes
            cases hbytes

/-! ## From the root -/

/-- The tree of a set: the root is the canonical one, and the source holds its nodes. -/
structure Tree (source : NodeSource) (root : Option ChildRef) (entries : List IndexEntry) :
    Prop where
  set : SetAt [] entries
  root_eq : root = canonicalRef (MAX_DEPTH + 1) 0 entries
  held : Holds source (canonicalNodes (MAX_DEPTH + 1) 0 entries)

omit [NodeHash] in
/-- Sorting strictly is sorting and finding no neighbours of one key. -/
theorem sorted_sortByKey_iff {α : Type} {key : α → IndexKey} {l : List α} :
    Sorted key (sortByKey key l) ↔ ∀ window ∈ (sortByKey key l).zip (sortByKey key l).tail,
      key window.1 ≠ key window.2 := by
  have hle := forall_windows_iff.mpr (pairwise_sortByKey key l)
  have : IsTrans α fun a b => key a < key b := ⟨fun _ _ _ => lt_trans⟩
  rw [Sorted, ← forall_windows_iff]
  exact forall₂_congr fun window hwindow => (hle window hwindow).lt_iff_ne

omit [NodeHash] in
/-- The sets an index is built from. -/
theorem setAt_root {entries : List IndexEntry} :
    SetAt [] (sortByKey IndexEntry.key entries) ↔
      (∀ entry ∈ entries, entry.value.length ≤ MAX_VALUE_BYTES) ∧
        Sorted IndexEntry.key (sortByKey IndexEntry.key entries) ∧ entries.length < 2 ^ 64 := by
  constructor
  · intro h
    refine ⟨fun entry hentry => h.bounded entry (mem_sortByKey.mpr hentry), h.sorted, ?_⟩
    rw [← length_sortByKey IndexEntry.key]
    exact h.countable
  · rintro ⟨hbounded, hsorted, hcount⟩
    exact ⟨hsorted, fun _ _ => under_nil _, fun entry hentry =>
      hbounded entry (mem_sortByKey.mp hentry), by rwa [length_sortByKey]⟩

/-- **`buildIndex` builds the canonical tree** of a set of bounded entries. -/
theorem buildIndex_eq {entries : List IndexEntry}
    (h : SetAt [] (sortByKey IndexEntry.key entries)) (sink : NodeSink) : ∃ written,
    buildIndex entries sink = .ok (canonicalRef (MAX_DEPTH + 1) 0 (sortByKey IndexEntry.key entries),
      sink ++ written) ∧
        ∀ bytes, bytes ∈ written ↔
          bytes ∈ canonicalNodes (MAX_DEPTH + 1) 0 (sortByKey IndexEntry.key entries) := by
  obtain ⟨hbounded, hsorted, -⟩ := setAt_root.mp h
  unfold buildIndex
  rw [if_neg, if_neg]
  · exact build_eq h rfl (Nat.zero_le _) sink
  · simp only [List.any_eq_true, decide_eq_true_eq, not_exists, not_and]
    exact sorted_sortByKey_iff.mp hsorted
  · simp only [List.any_eq_true, decide_eq_true_eq, not_exists, not_and, not_lt]
    exact hbounded

/-- What it builds at all is such a set. -/
theorem setAt_of_buildIndex {entries : List IndexEntry} {sink : NodeSink}
    {result : Option ChildRef × NodeSink} (hcount : entries.length < 2 ^ 64)
    (h : buildIndex entries sink = .ok result) : SetAt [] (sortByKey IndexEntry.key entries) := by
  unfold buildIndex at h
  split at h
  case isTrue => cases h
  case isFalse hbounded =>
      simp only at h
      split at h
      case isTrue => cases h
      case isFalse hsorted =>
          simp only [List.any_eq_true, decide_eq_true_eq, not_exists, not_and, not_lt] at hbounded
          simp only [List.any_eq_true, decide_eq_true_eq, not_exists, not_and] at hsorted
          exact setAt_root.mpr ⟨hbounded, sorted_sortByKey_iff.mpr hsorted, hcount⟩

section Counts

omit [NodeHash]

theorem toNat_of_count {n : ℕ} {total : UInt64} (h : count n = .ok total) : total.toNat = n := by
  unfold count at h
  split at h
  case isTrue hlt =>
      cases h
      exact toNat_count hlt
  case isFalse => cases h

theorem toNat_of_checkedAdd {failure : Failure} {a b total : UInt64}
    (h : checkedAdd failure a b = .ok total) : total.toNat = a.toNat + b.toNat := by
  unfold checkedAdd at h
  split at h
  case isTrue hlt =>
      cases h
      rw [UInt64.toNat_add, Nat.mod_eq_of_lt hlt]
  case isFalse => cases h

/-- The loop over pieces adds up what is below them. -/
theorem toNat_of_foldlM_buildSlice {build : List IndexEntry → ℕ → NodeSink →
      Except Failure (Option ChildRef × NodeSink)} {depth : ℕ}
    (hbuild : ∀ entries depth sink child sink',
      build entries depth sink = .ok (child, sink') → (countOf child).toNat = entries.length)
    {pieces : List (Fin FANOUT × List IndexEntry)} {state state' : Progress}
    (h : pieces.foldlM (buildSlice build depth) state = .ok state') :
    state'.total.toNat = state.total.toNat + (pieces.flatMap Prod.snd).length := by
  induction pieces generalizing state with
  | nil =>
      cases h
      rfl
  | cons piece pieces ih =>
      obtain ⟨middle, hturn, hrest⟩ := foldlM_cons_eq_ok.mp h
      obtain ⟨next, -, hturn⟩ := bind_eq_ok.mp hturn
      obtain ⟨⟨child, sink⟩, hpiece, hturn⟩ := bind_eq_ok.mp hturn
      obtain ⟨total, htotal, hturn⟩ := bind_eq_ok.mp hturn
      cases hturn
      rw [ih hrest, toNat_of_checkedAdd htotal, hbuild _ _ _ _ _ hpiece, List.flatMap_cons,
        List.length_append, Nat.add_assoc]

end Counts

/-- A reference counts the entries it was built from. -/
theorem toNat_of_build {levels : ℕ} {entries : List IndexEntry} {depth : ℕ} {sink sink' : NodeSink}
    {child : Option ChildRef} (h : build levels entries depth sink = .ok (child, sink')) :
    (countOf child).toNat = entries.length := by
  induction levels generalizing entries depth sink sink' child with
  | zero => cases h
  | succ levels ih =>
      rw [build] at h
      split at h
      case isTrue hempty =>
          cases h
          rw [hempty]
          rfl
      case isFalse =>
          split at h
          case isTrue =>
              obtain ⟨total, htotal, h⟩ := bind_eq_ok.mp h
              cases h
              exact toNat_of_count htotal
          case isFalse =>
              obtain ⟨pieces, hpieces, hrest⟩ := bind_eq_ok.mp h
              obtain ⟨-, -, hruns⟩ := bind_eq_ok.mp hpieces
              cases hruns
              obtain ⟨state, hstate, hemit⟩ := bind_eq_ok.mp hrest
              cases hemit
              have hsum := toNat_of_foldlM_buildSlice (fun _ _ _ _ _ => ih) hstate
              rw [flatMap_runs] at hsum
              exact hsum.trans (Nat.zero_add _)

/-- So what is built can be counted. -/
theorem countable_of_buildIndex {entries : List IndexEntry} {sink : NodeSink}
    {result : Option ChildRef × NodeSink} (h : buildIndex entries sink = .ok result) :
    entries.length < 2 ^ 64 := by
  unfold buildIndex at h
  split at h
  case isTrue => cases h
  case isFalse =>
      simp only at h
      split at h
      case isTrue => cases h
      case isFalse =>
          rw [← length_sortByKey IndexEntry.key, ← toNat_of_build h]
          exact UInt64.toNat_lt _

/-- What it writes is the nodes of its tree. -/
theorem mem_written_of_buildIndex {entries : List IndexEntry} {root : Option ChildRef}
    {written : NodeSink} (h : buildIndex entries [] = .ok (root, written)) (bytes : Bytes) :
    bytes ∈ written ↔
      bytes ∈ canonicalNodes (MAX_DEPTH + 1) 0 (sortByKey IndexEntry.key entries) := by
  obtain ⟨written', heq, hnodes⟩ :=
    buildIndex_eq (setAt_of_buildIndex (countable_of_buildIndex h) h) []
  rw [h] at heq
  cases heq
  exact hnodes bytes

/-- **What `buildIndex` built is the tree of its entries**, wherever its nodes are held. -/
theorem Tree.of_buildIndex {entries : List IndexEntry} {source : NodeSource}
    {root : Option ChildRef} {written : NodeSink} (hcount : entries.length < 2 ^ 64)
    (hbuild : buildIndex entries [] = .ok (root, written)) (hheld : Holds source written) :
    Tree source root (sortByKey IndexEntry.key entries) := by
  have hset := setAt_of_buildIndex hcount hbuild
  obtain ⟨written', heq, hnodes⟩ := buildIndex_eq hset []
  rw [hbuild] at heq
  cases heq
  exact ⟨hset, rfl, fun bytes hbytes => hheld bytes ((hnodes bytes).mpr hbytes)⟩

/-- And back: the tree of some entries is what `buildIndex` builds of them. -/
theorem Tree.buildIndex_eq {entries : List IndexEntry} {source : NodeSource}
    {root : Option ChildRef} (h : Tree source root (sortByKey IndexEntry.key entries)) :
    ∃ written, buildIndex entries [] = .ok (root, written) ∧ Holds source written := by
  obtain ⟨written, heq, hnodes⟩ := Radix.buildIndex_eq h.set []
  exact ⟨written, h.root_eq ▸ heq, fun bytes hbytes => h.held bytes ((hnodes bytes).mp hbytes)⟩

end Build

end Lait.Radix
