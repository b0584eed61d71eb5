import Lait.Paging
import Lait.Radix.Validate

/-!
# Pages of an index

`page_after` reads the first so many entries past a cursor.  It walks the tree in slot
order and stops when the page is full; along the cursor's own path, as long as it lasts,
the walk is **tight**: it starts at the cursor's slot, and a leaf it meets there leaves
out the entries the cursor has passed.

What carries the walk is where the cursor lies (`Seeking`): a tight walk is at a node the
cursor's key belongs under, wherever the tree ends above it or has nothing in its slot, and
a walk that is no longer tight is at a node all of whose entries lie past the cursor.  A
node then adds the beginning of what it holds past the cursor (`seek_eq`), so a page is
the beginning of what the index holds past it (`pageAfter_eq`).
-/

namespace Lait.Radix

section Page

variable [NodeHash]

/-- The most entries one page may ask for. -/
def MAX_PAGE : ℕ := 4097

/-- Whether a key lies after the cursor, if there is one. -/
def afterCursor (after : Option IndexKey) (entry : IndexEntry) : Bool :=
  after.all fun cursor => decide (cursor < entry.key)

/-- One turn of the loop over a leaf's entries; a full page takes no more. -/
def pageEntry (after : Option IndexKey) (limit : ℕ) (tight : Bool) (out : List IndexEntry)
    (entry : IndexEntry) : List IndexEntry :=
  if limit ≤ out.length then out
  else if !tight || afterCursor after entry then out ++ [entry]
  else out

/-- `page_after`'s walk at a leaf. -/
def pageLeaf (after : Option IndexKey) (limit : ℕ) (child : ChildRef) (depth : ℕ) (tight : Bool)
    (path : List (Fin FANOUT)) (entries out : List IndexEntry) :
    Except Failure (List IndexEntry) := do
  if entries = [] ∨ fitsLeaf entries depth = false then throw .notCanonicalShape
  let entryCount ← count entries.length
  if child.count ≠ entryCount ∨
      ((entries.zip entries.tail).any fun window => window.2.key ≤ window.1.key) = true ∨
      (entries.any fun entry => MAX_VALUE_BYTES < entry.value.length) = true then
    throw .countMismatch
  entries.forM fun entry => checkPath entry.key path
  return entries.foldl (pageEntry after limit tight) out

/-- One turn of the loop that adds up a branch's counts. -/
def addCount (sum : UInt64) (child : ChildRef) : Except Failure UInt64 := do
  if child.count = 0 then throw .countMismatch
  checkedAdd .bounds sum child.count

/-- The slot a branch is read from. -/
def startSlot (after : Option IndexKey) (tight : Bool) (depth : ℕ) : Except Failure ℕ :=
  if tight then
    match after with
    | some cursor => do return (← nibble cursor depth).val
    | none => .ok 0
  else .ok 0

/-- One turn of the loop over a branch's slots, given the walk one level down. -/
def pageSlot (seek : ChildRef → ℕ → Bool → List IndexEntry → List (Fin FANOUT) →
      Except Failure (List IndexEntry)) (limit depth : ℕ) (tight : Bool) (start : ℕ)
    (path : List (Fin FANOUT)) (children : Fin FANOUT → Option ChildRef) (out : List IndexEntry)
    (s : Fin FANOUT) : Except Failure (List IndexEntry) :=
  if limit ≤ out.length then .ok out
  else
    match children s with
    | none => .ok out
    | some next => do
        let deeper ← nextDepth depth
        seek next deeper (tight && s.val = start) out (path ++ [s])

/-- `page_after`'s walk. -/
def seek (source : NodeSource) (after : Option IndexKey) (limit : ℕ) : ℕ → ChildRef → ℕ → Bool →
    List IndexEntry → List (Fin FANOUT) → Except Failure (List IndexEntry)
  | 0, _, _, _, out, _ => if limit ≤ out.length then .ok out else .error .bounds
  | levels + 1, child, depth, tight, out, path =>
      if limit ≤ out.length then .ok out
      else do
        if child.count = 0 then throw .bounds
        let bytes ← nodeBytes source child.hash
        if nodeHash bytes ≠ child.hash then throw .nonCanonical
        match ← decodeCanonical bytes with
        | .leaf entries => pageLeaf after limit child depth tight path entries out
        | .branch children => do
            let total ← (occupied children).foldlM addCount 0
            if total ≠ child.count then throw .countMismatch
            let start ← startSlot after tight depth
            ((List.finRange FANOUT).filter (start ≤ ·.val)).foldlM
              (pageSlot (seek source after limit levels) limit depth tight start path children) out

/-- Read at most `limit` entries strictly after `after`, in canonical key order. -/
def pageAfter (source : NodeSource) (root : Option ChildRef) (after : Option IndexKey)
    (limit : ℕ) : Except Failure (List IndexEntry) :=
  if limit = 0 ∨ MAX_PAGE < limit then .error .bounds
  else
    match root with
    | none => .ok []
    | some root => seek source after limit (MAX_DEPTH + 1) root 0 after.isSome [] []

/-- Read page after page, each from the last key of the one before, until one is empty. -/
def readPages (source : NodeSource) (root : Option ChildRef) (limit : ℕ) :
    ℕ → Option IndexKey → Except Failure (List IndexEntry)
  | 0, _ => .ok []
  | turns + 1, after => do
      let page ← pageAfter source root after limit
      match page.getLast? with
      | none => return []
      | some last => return page ++ (← readPages source root limit turns (some last.key))

end Page

/-! ## Where the cursor lies -/

/-- A tight walk follows the cursor's path; one that is not is past the cursor. -/
structure Seeking (after : Option IndexKey) (tight : Bool) (path : List (Fin FANOUT))
    (entries : List IndexEntry) : Prop where
  under : tight = true → ∀ cursor ∈ after, Under digit path cursor
  past : tight = false → ∀ entry ∈ entries, afterCursor after entry = true

section Seek

variable {after : Option IndexKey} {tight : Bool} {limit : ℕ} {path : List (Fin FANOUT)}
  {entries out : List IndexEntry}

/-- At the root nothing is known of the entries, and the empty path asks nothing of the cursor. -/
theorem seeking_root (entries : List IndexEntry) : Seeking after after.isSome [] entries where
  under _ cursor _ := under_nil cursor
  past h entry _ := by
    rw [Option.isSome_eq_false_iff, Option.isNone_iff_eq_none] at h
    rw [h]
    rfl

/-- The slot the loop starts from: nothing below it lies past the cursor, and each slot from it
on is sought in turn. -/
theorem Seeking.exists_start (h : Seeking after tight path entries) (hset : SetAt path entries)
    (hdeep : path.length < MAX_DEPTH) : ∃ start, startSlot after tight path.length = .ok start ∧
      (∀ s : Fin FANOUT, s.val < start →
        (slot digit IndexEntry.key path.length s entries).filter (afterCursor after) = []) ∧
      ∀ s : Fin FANOUT, start ≤ s.val → Seeking after (tight && s.val = start) (path ++ [s])
        (slot digit IndexEntry.key path.length s entries) := by
  cases tight with
  | false =>
      refine ⟨0, rfl, fun s hs => absurd hs (Nat.not_lt_zero _), fun s _ => ⟨?_, ?_⟩⟩
      · rintro ⟨⟩
      · exact fun _ entry hentry => h.past rfl entry (mem_slot.mp hentry).1
  | true =>
      cases after with
      | none =>
          refine ⟨0, rfl, fun s hs => absurd hs (Nat.not_lt_zero _), fun s _ => ⟨?_, ?_⟩⟩
          · rintro - cursor ⟨⟩
          · exact fun _ _ _ => rfl
      | some cursor =>
          have hunder := h.under rfl cursor rfl
          refine ⟨(digit cursor path.length).val, ?_, fun s hs => ?_, fun s hs => ⟨?_, ?_⟩⟩
          · rw [startSlot, if_pos rfl, nibble_eq cursor hdeep]
            rfl
          · -- the cursor has passed the slots below its own
            refine List.filter_eq_nil_iff.mpr fun entry hentry hafter => ?_
            obtain ⟨hmem, rfl⟩ := mem_slot.mp hentry
            have hlt : entry.key < cursor :=
              isRadix.lt_of_under hdeep (hset.under entry hmem) hunder hs
            exact lt_asymm hlt (of_decide_eq_true hafter)
          · rintro hstart _ ⟨⟩
            exact under_concat.mpr ⟨hunder, (Fin.ext (of_decide_eq_true hstart)).symm⟩
          · -- and has not reached those above
            intro hbeyond entry hentry
            obtain ⟨hmem, rfl⟩ := mem_slot.mp hentry
            have hne : (digit entry.key path.length).val ≠ (digit cursor path.length).val :=
              of_decide_eq_false hbeyond
            exact decide_eq_true (isRadix.lt_of_under hdeep hunder (hset.under entry hmem)
              (Fin.lt_def.mpr (lt_of_le_of_ne hs hne.symm)))

/-- Pieces with nothing in them need not be looked at. -/
theorem flatMap_filter_of_nil {α β : Type} {p : α → Bool} {f : α → List β} {l : List α}
    (h : ∀ a, p a = false → f a = []) : (l.filter p).flatMap f = l.flatMap f := by
  induction l with
  | nil => rfl
  | cons a l ih =>
      cases hp : p a with
      | true => rw [List.filter_cons_of_pos hp, List.flatMap_cons, ih, List.flatMap_cons]
      | false =>
          rw [List.filter_cons_of_neg (by simp [hp]), ih, List.flatMap_cons, h a hp,
            List.nil_append]

/-- What a branch holds past the cursor is what its slots from the start on do. -/
theorem flatMap_filter_slots (hset : SetAt path entries) (hdeep : path.length < MAX_DEPTH)
    {start : ℕ} (hbefore : ∀ s : Fin FANOUT, s.val < start →
      (slot digit IndexEntry.key path.length s entries).filter (afterCursor after) = []) :
    ((List.finRange FANOUT).filter (start ≤ ·.val)).flatMap (fun s =>
        (slot digit IndexEntry.key path.length s entries).filter (afterCursor after)) =
      entries.filter (afterCursor after) := by
  conv_rhs => rw [← hset.sorted.flatMap_slot isRadix hset.under hdeep, List.filter_flatMap]
  exact flatMap_filter_of_nil fun s hs => hbefore s (not_le.mp (of_decide_eq_false hs))

/-- A leaf adds the beginning of what it holds past the cursor. -/
theorem foldl_pageEntry (h : Seeking after tight path entries) (out : List IndexEntry) :
    entries.foldl (pageEntry after limit tight) out =
      out ++ (entries.filter (afterCursor after)).take (limit - out.length) := by
  have hwanted : ∀ entry ∈ entries,
      (!tight || afterCursor after entry) = afterCursor after entry := by
    intro entry hentry
    cases tight with
    | true => rfl
    | false => exact (h.past rfl entry hentry).symm
  have hturn : ∀ entry ∈ entries, ∀ out, pageEntry after limit tight out entry =
      out ++ ([entry].filter (afterCursor after)).take (limit - out.length) := by
    intro entry hentry out
    unfold pageEntry
    rw [hwanted entry hentry]
    by_cases hfull : limit ≤ out.length
    · rw [if_pos hfull, Nat.sub_eq_zero_of_le hfull, List.take_zero, List.append_nil]
    · obtain ⟨room, hroom⟩ :=
        Nat.exists_eq_succ_of_ne_zero (Nat.sub_ne_zero_of_lt (not_le.mp hfull))
      rw [if_neg hfull, hroom]
      cases hafter : afterCursor after entry with
      | true =>
          rw [if_pos rfl, List.filter_cons_of_pos hafter, List.filter_nil, List.take_succ_cons,
            List.take_nil]
      | false =>
          have hnot : ¬ afterCursor after entry = true := by
            rw [hafter]
            exact Bool.false_ne_true
          rw [if_neg Bool.false_ne_true, List.filter_cons_of_neg hnot]
          exact (List.append_nil out).symm
  rw [Paging.foldl_gather hturn, ← List.filter_flatMap, List.flatMap_singleton']

end Seek

/-! ## The walk over a canonical tree -/

section Walks

variable {after : Option IndexKey} {tight : Bool} {limit levels : ℕ} {path : List (Fin FANOUT)}
  {entries : List IndexEntry} {child : ChildRef}

/-- The leaf of a set passes its checks. -/
theorem pageLeaf_eq (hset : SetAt path entries) (hpath : path.length ≤ MAX_DEPTH)
    (hne : entries ≠ []) (hfits : fitsLeaf entries path.length = true)
    (hcount : child.count = UInt64.ofNat entries.length)
    (h : Seeking after tight path entries) (out : List IndexEntry) :
    pageLeaf after limit child path.length tight path entries out =
      .ok (out ++ (entries.filter (afterCursor after)).take (limit - out.length)) := by
  have hordered : ((entries.zip entries.tail).any fun window =>
      window.2.key ≤ window.1.key) ≠ true := by
    have : IsTrans IndexEntry fun a b => a.key < b.key := ⟨fun _ _ _ => lt_trans⟩
    have hwindows := forall_windows_iff.mpr hset.sorted
    simp only [ne_eq, List.any_eq_true, decide_eq_true_eq, not_exists, not_and, not_le]
    exact hwindows
  have hbounded : (entries.any fun entry => MAX_VALUE_BYTES < entry.value.length) ≠ true := by
    simp only [ne_eq, List.any_eq_true, decide_eq_true_eq, not_exists, not_and, not_lt]
    exact hset.bounded
  unfold pageLeaf
  refine guard_eq_ok.mpr ⟨?_, bind_eq_ok.mpr ⟨_, count_eq hset.countable, guard_eq_ok.mpr ⟨?_, ?_⟩⟩⟩
  · rintro (hempty | hlarge)
    · exact hne hempty
    · rw [hfits] at hlarge
      cases hlarge
  · rintro (hmiscount | hunordered | hunbounded)
    · exact hmiscount hcount
    · exact hordered hunordered
    · exact hbounded hunbounded
  · refine bind_eq_ok.mpr ⟨(), forM_eq_ok_iff.mpr fun entry hentry => ?_, ?_⟩
    · exact (checkPath_eq_ok hpath).mpr (hset.under entry hentry)
    · rw [foldl_pageEntry h]
      rfl

/-- What is there does not count zero. -/
theorem ofNat_length_ne_zero (hne : entries ≠ []) (hcount : entries.length < 2 ^ 64) :
    UInt64.ofNat entries.length ≠ 0 := by
  intro hzero
  have hlen := congrArg UInt64.toNat hzero
  rw [toNat_count hcount] at hlen
  exact hne (List.length_eq_zero_iff.mp hlen)

/-- The children of a branch over a set count it. -/
theorem foldlM_addCount {children : Fin FANOUT → Option ChildRef}
    {below : Fin FANOUT → List IndexEntry} (hnone : ∀ s, children s = none → below s = [])
    (hsome : ∀ s reference, children s = some reference →
      below s ≠ [] ∧ reference.count = UInt64.ofNat (below s).length)
    (slots : List (Fin FANOUT)) (total : ℕ)
    (hcount : total + (slots.flatMap below).length < 2 ^ 64) :
    (slots.filterMap children).foldlM addCount (UInt64.ofNat total) =
      .ok (UInt64.ofNat (total + (slots.flatMap below).length)) := by
  induction slots generalizing total with
  | nil => rfl
  | cons s slots ih =>
      rw [List.flatMap_cons, List.length_append] at hcount ⊢
      cases hchild : children s with
      | none =>
          rw [List.filterMap_cons_none hchild, hnone s hchild, List.length_nil, Nat.zero_add]
          exact ih total (by omega)
      | some reference =>
          obtain ⟨hne, href⟩ := hsome s reference hchild
          rw [List.filterMap_cons_some hchild]
          refine foldlM_cons_eq_ok.mpr ⟨UInt64.ofNat (total + (below s).length), ?_, ?_⟩
          · unfold addCount
            rw [href]
            exact guard_eq_ok.mpr ⟨ofNat_length_ne_zero hne (by omega), checkedAdd_eq (by omega)⟩
          · rw [ih _ (by omega), Nat.add_assoc]

/-- One turn of the loop adds the beginning of what its slot holds past the cursor. -/
theorem pageSlot_eq {seek : ChildRef → ℕ → Bool → List IndexEntry → List (Fin FANOUT) →
      Except Failure (List IndexEntry)} {children : Fin FANOUT → Option ChildRef} {start : ℕ}
    {s : Fin FANOUT} {below : List IndexEntry} (hdeep : path.length < MAX_DEPTH)
    (hnone : children s = none → below = [])
    (hsome : ∀ next, children s = some next → ∀ out,
      seek next (path.length + 1) (tight && s.val = start) out (path ++ [s]) =
        .ok (out ++ (below.filter (afterCursor after)).take (limit - out.length)))
    (out : List IndexEntry) :
    pageSlot seek limit path.length tight start path children out s =
      .ok (out ++ (below.filter (afterCursor after)).take (limit - out.length)) := by
  unfold pageSlot
  by_cases hfull : limit ≤ out.length
  · rw [if_pos hfull, Nat.sub_eq_zero_of_le hfull, List.take_zero, List.append_nil]
  rw [if_neg hfull]
  cases hchild : children s with
  | none => rw [hnone hchild, List.filter_nil, List.take_nil, List.append_nil]
  | some next => exact bind_eq_ok.mpr ⟨_, nextDepth_eq hdeep, hsome next hchild out⟩

variable [NodeHash] {source : NodeSource}

/-- **The walk over the canonical subtree of a set** adds the beginning of what the set holds
past the cursor. -/
theorem seek_eq (hset : SetAt path entries) (hlevels : levels + path.length = MAX_DEPTH + 1)
    (hpath : path.length ≤ MAX_DEPTH)
    (hheld : Holds source (canonicalNodes levels path.length entries))
    (hchild : canonicalRef levels path.length entries = some child)
    (hseeking : Seeking after tight path entries) (out : List IndexEntry) :
    seek source after limit levels child path.length tight out path =
      .ok (out ++ (entries.filter (afterCursor after)).take (limit - out.length)) := by
  induction levels generalizing path entries child tight out with
  | zero => omega
  | succ levels ih =>
      obtain ⟨hne, hhash, hcount⟩ := hash_of_canonicalRef hchild
      unfold seek
      by_cases hfull : limit ≤ out.length
      · rw [if_pos hfull, Nat.sub_eq_zero_of_le hfull, List.take_zero, List.append_nil]
      rw [if_neg hfull, hhash]
      refine guard_eq_ok.mpr ⟨hcount ▸ ofNat_length_ne_zero hne hset.countable, ?_⟩
      refine bind_eq_ok.mpr ⟨_, nodeBytes_eq_ok.mpr (hheld _ (encode_mem_canonicalNodes hne)),
        guard_eq_ok.mpr ⟨not_not.mpr rfl, ?_⟩⟩
      refine bind_eq_ok.mpr ⟨_, hset.decode_canonicalNode hne levels, ?_⟩
      cases hfits : fitsLeaf entries path.length with
      | true =>
          rw [canonicalNode_of_fits hfits]
          exact pageLeaf_eq hset hpath hne hfits hcount hseeking out
      | false =>
          obtain ⟨-, hdeep, -⟩ := fitsLeaf_eq_false.mp hfits
          have hflat := hset.sorted.flatMap_slot isRadix hset.under hdeep
          rw [canonicalNode_of_not_fits hfits]
          -- the counts of the children add up
          have htotal : (occupied fun s => canonicalRef levels (path.length + 1)
              (slot digit IndexEntry.key path.length s entries)).foldlM addCount 0 =
                .ok child.count := by
            have hsum := @foldlM_addCount (fun s => canonicalRef levels (path.length + 1)
                (slot digit IndexEntry.key path.length s entries))
              (fun s => slot digit IndexEntry.key path.length s entries)
              (fun s hnone => canonicalRef_eq_none.mp hnone)
              (fun s reference hsome => by
                obtain ⟨hbelow, -, hbelowCount⟩ := hash_of_canonicalRef hsome
                exact ⟨hbelow, hbelowCount⟩)
              (List.finRange FANOUT) 0 (by rw [hflat, Nat.zero_add]; exact hset.countable)
            rw [hflat, Nat.zero_add, ← hcount] at hsum
            exact hsum
          obtain ⟨start, hstart, hbefore, hfrom⟩ := hseeking.exists_start hset hdeep
          refine bind_eq_ok.mpr ⟨_, htotal, guard_eq_ok.mpr ⟨not_not.mpr rfl,
            bind_eq_ok.mpr ⟨_, hstart, ?_⟩⟩⟩
          rw [← flatMap_filter_slots hset hdeep hbefore]
          refine Paging.foldlM_gather (fun s hs out => ?_) out
          have hge : start ≤ s.val := of_decide_eq_true (List.mem_filter.mp hs).2
          refine pageSlot_eq hdeep (fun hnone => canonicalRef_eq_none.mp hnone)
            (fun next hnext out => ?_) out
          have hdeeper := @ih (tight && s.val = start) (path ++ [s])
            (slot digit IndexEntry.key path.length s entries) next (hset.slot s)
            (by simp; omega) (by simp; omega) (hheld.slot hfits s)
          rw [List.length_append, List.length_singleton] at hdeeper
          exact hdeeper hnext (hfrom s hge) out

omit [NodeHash] in
theorem afterCursor_eq_past (after : Option IndexKey) :
    afterCursor after = Paging.past IndexEntry.key after := by
  funext entry
  cases after with
  | none => rfl
  | some cursor => exact decide_eq_decide.mpr Iff.rfl

/-- **A page is the beginning of what the tree holds past the cursor.** -/
theorem Tree.pageAfter_eq {root : Option ChildRef} (h : Tree source root entries)
    (after : Option IndexKey) (hpos : 0 < limit) (hmax : limit ≤ MAX_PAGE) :
    pageAfter source root after limit =
      .ok ((entries.filter (afterCursor after)).take limit) := by
  unfold pageAfter
  rw [if_neg (by omega)]
  cases hroot : root with
  | none =>
      have hempty := canonicalRef_eq_none.mp (h.root_eq.symm.trans hroot)
      rw [hempty, List.filter_nil, List.take_nil]
  | some child =>
      have hwalk := @seek_eq after _ limit _ [] entries child _ source h.set rfl (Nat.zero_le _)
        h.held (h.root_eq.symm.trans hroot) (seeking_root entries) []
      rwa [List.nil_append] at hwalk

/-- The pages are those of the list. -/
theorem Tree.readPages_eq {root : Option ChildRef} (h : Tree source root entries)
    (hpos : 0 < limit) (hmax : limit ≤ MAX_PAGE) (turns : ℕ) (after : Option IndexKey) :
    readPages source root limit turns after = .ok (Paging.collect IndexEntry.key
      (fun cursor => (entries.filter (afterCursor cursor)).take limit) turns after) := by
  induction turns generalizing after with
  | zero => rfl
  | succ turns ih =>
      unfold readPages Paging.collect
      refine bind_eq_ok.mpr ⟨_, h.pageAfter_eq after hpos hmax, ?_⟩
      cases hlast : ((entries.filter (afterCursor after)).take limit).getLast? with
      | none => rfl
      | some last => exact bind_eq_ok.mpr ⟨_, ih _, rfl⟩

/-- **Index paging is exact**: for every index `buildIndex` builds and every cursor, a page of
one to 4097 entries is the first so many entries with a greater key, in key order; and pages
read one after another from no cursor are all the entries, each once. -/
theorem page_after_exact {entries : List IndexEntry} {root : Option ChildRef} {written : NodeSink}
    (hbuild : buildIndex entries [] = .ok (root, written)) (hheld : Holds source written)
    {limit : ℕ} (hpos : 1 ≤ limit) (hmax : limit ≤ MAX_PAGE) :
    ∃ ordered : List IndexEntry, ordered.Perm entries ∧ Sorted IndexEntry.key ordered ∧
      (∀ after, pageAfter source root after limit =
        .ok ((ordered.filter (afterCursor after)).take limit)) ∧
      ∀ turns, entries.length < turns → readPages source root limit turns none = .ok ordered := by
  have htree := Tree.of_buildIndex (countable_of_buildIndex hbuild) hbuild hheld
  refine ⟨sortByKey IndexEntry.key entries, perm_sortByKey _ _, htree.set.sorted,
    fun after => htree.pageAfter_eq after hpos hmax, fun turns hturns => ?_⟩
  rw [htree.readPages_eq hpos hmax]
  refine congrArg Except.ok (Paging.collect_eq htree.set.sorted hpos (fun after => ?_) ?_)
  · rw [afterCursor_eq_past]
  · rwa [length_sortByKey]

end Walks

/-- The pages of a tree with a branch, a hundred entries a page: the one after a cursor, and
all of them in turn. -/
theorem spread_pages :
    let _ := plainHash
    pageAfter spreadSource spreadRoot (some (keyOf 20 1)) 100 =
        .ok ((spread.filter (afterCursor (some (keyOf 20 1)))).take 100) ∧
      readPages spreadSource spreadRoot 100 258 none = .ok spread := by
  intro _
  obtain ⟨written, hbuild, hheld⟩ := spread_buildIndex
  obtain ⟨ordered, hperm, hsorted, hpage, hpages⟩ :=
    page_after_exact hbuild hheld (by decide : 1 ≤ 100) (by decide)
  obtain rfl : ordered = spread :=
    hsorted.ext spread_setAt.sorted fun entry => hperm.mem_iff
  exact ⟨hpage _, hpages 258 (by decide +kernel)⟩

end Lait.Radix
