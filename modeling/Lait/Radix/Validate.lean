import Lait.Radix.Edits

/-!
# What validation accepts

`validate` walks a tree someone else handed over, with the path it took: every node is
read at the hash that names it and re-encoded, a leaf's entries are checked against
the path, and a branch's count against its children's.  The last check of each node is
about its **shape**: a leaf that should have split, a branch that should have merged.

A walk that succeeds has read a set at its path, and the reference it started from is
the canonical one of that set (`exists_of_walk`); a walk over the canonical subtree of
a set succeeds (`walk_eq`).  A branch that passes holds more than a leaf may hold, or
its entries, collected again, do not fit one: either way the set is one `build` splits.
-/

namespace Lait.Radix

section Walk

variable [NodeHash]

/-- Checks that the nibbles of a key are the path's. -/
def checkPath (key : IndexKey) (path : List (Fin FANOUT)) : Except Failure Unit :=
  path.zipIdx.forM fun step => do
    let s ← nibble key step.2
    if s ≠ step.1 then throw .order

/-- `validate`'s walk at a leaf. -/
def validateLeaf (child : ChildRef) (depth : ℕ) (path : List (Fin FANOUT))
    (entries : List IndexEntry) : Except Failure UInt64 := do
  if entries = [] then throw .notCanonicalShape
  if (entries.zip entries.tail).any fun window => window.2.key ≤ window.1.key then throw .order
  entries.forM fun entry => do
    if MAX_VALUE_BYTES < entry.value.length then throw .bounds
    checkPath entry.key path
  if fitsLeaf entries depth = false then throw .notCanonicalShape
  let entryCount ← count entries.length
  if child.count ≠ entryCount then throw .countMismatch
  return entryCount

/-- One turn of the walk's loop at a branch, given the walk one level down. -/
def validateSlot (walk : ChildRef → ℕ → List (Fin FANOUT) → Except Failure UInt64) (depth : ℕ)
    (path : List (Fin FANOUT)) (children : Fin FANOUT → Option ChildRef) (total : UInt64)
    (s : Fin FANOUT) : Except Failure UInt64 :=
  match children s with
  | none => .ok total
  | some reference => do
      let next ← nextDepth depth
      let below ← walk reference next (path ++ [s])
      checkedAdd .bounds total below

/-- `validate`'s walk. -/
def walk : ℕ → NodeSource → ChildRef → ℕ → List (Fin FANOUT) → Except Failure UInt64
  | 0, _, _, _, _ => .error .bounds
  | levels + 1, source, child, depth, path => do
      let bytes ← nodeBytes source child.hash
      if nodeHash bytes ≠ child.hash then throw .nonCanonical
      match ← decodeCanonical bytes with
      | .leaf entries => validateLeaf child depth path entries
      | .branch children => do
          if occupied children = [] then throw .notCanonicalShape
          let total ← (List.finRange FANOUT).foldlM
            (validateSlot (walk levels source) depth path children) 0
          if total ≠ child.count then throw .countMismatch
          if total.toNat ≤ MAX_LEAF_ENTRIES then
            let entries ← collectSlots (collect levels source) depth children []
            if fitsLeaf (sortByKey IndexEntry.key entries) depth then throw .notCanonicalShape
          return total

/-- Full structural validation of an index. -/
def validate (source : NodeSource) (root : Option ChildRef) : Except Failure UInt64 :=
  match root with
  | none => .ok 0
  | some child => walk (MAX_DEPTH + 1) source child 0 []

end Walk

/-! ## Leaves -/

section Leaves

variable {path : List (Fin FANOUT)} {entries : List IndexEntry} {child : ChildRef} {n : UInt64}

theorem checkPath_eq_ok {key : IndexKey} (hpath : path.length ≤ MAX_DEPTH) :
    checkPath key path = .ok () ↔ Under digit path key := by
  unfold checkPath
  rw [forM_eq_ok_iff]
  have hstep : ∀ step ∈ path.zipIdx, ((do
      let s ← nibble key step.2
      if s ≠ step.1 then throw .order : Except Failure Unit) = .ok ()) ↔
        digit key step.2 = step.1 := by
    rintro ⟨s, i⟩ hmem
    obtain ⟨-, hi, -⟩ := List.mem_zipIdx hmem
    rw [nibble_eq key (by omega)]
    show (if digit key i ≠ s then throw Failure.order else pure ⟨⟩ : Except Failure Unit) = _ ↔ _
    rw [check_eq_ok, not_not]
  rw [forall₂_congr hstep]
  constructor
  · intro h i hi
    have hmem : (path[i], i) ∈ path.zipIdx := by
      rw [List.mem_zipIdx_iff_getElem?]
      exact List.getElem?_eq_getElem hi
    exact h _ hmem
  · rintro h ⟨s, i⟩ hmem
    rw [List.mem_zipIdx_iff_getElem?] at hmem
    obtain ⟨hi, hs⟩ := List.getElem?_eq_some_iff.mp hmem
    exact (h i hi).trans hs

/-- **A leaf passes** when it is a set at its path that fits a leaf, and is counted. -/
theorem validateLeaf_eq_ok (hpath : path.length ≤ MAX_DEPTH) :
    validateLeaf child path.length path entries = .ok n ↔
      entries ≠ [] ∧ SetAt path entries ∧ fitsLeaf entries path.length = true ∧
        child.count = UInt64.ofNat entries.length ∧ n = UInt64.ofNat entries.length := by
  unfold validateLeaf
  rw [guard_eq_ok, guard_eq_ok, bind_eq_ok]
  have hsorted : ¬ ((entries.zip entries.tail).any fun window =>
      window.2.key ≤ window.1.key) = true ↔ Sorted IndexEntry.key entries := by
    have : IsTrans IndexEntry fun a b => a.key < b.key := ⟨fun _ _ _ => lt_trans⟩
    simp only [List.any_eq_true, decide_eq_true_eq, not_exists, not_and, not_le]
    exact forall_windows_iff (R := fun a b : IndexEntry => a.key < b.key)
  have hentries : (∀ entry ∈ entries, (do
      if MAX_VALUE_BYTES < entry.value.length then throw .bounds
      checkPath entry.key path : Except Failure Unit) = .ok ()) ↔
        (∀ entry ∈ entries, entry.value.length ≤ MAX_VALUE_BYTES) ∧
          AllUnder digit IndexEntry.key path entries := by
    rw [AllUnder, ← forall₂_and]
    refine forall₂_congr fun entry _ => ?_
    rw [guard_eq_ok, checkPath_eq_ok hpath, not_lt]
  rw [hsorted]
  constructor
  · rintro ⟨hne, hsort, ⟨⟨⟩, hloop, h⟩⟩
    obtain ⟨hbounded, hunder⟩ := hentries.mp (forM_eq_ok_iff.mp hloop)
    obtain ⟨hfits, h⟩ := guard_eq_ok.mp h
    obtain ⟨entryCount, hcount, h⟩ := bind_eq_ok.mp h
    obtain ⟨heq, h⟩ := guard_eq_ok.mp h
    unfold count at hcount
    split at hcount
    case isTrue hlt =>
        cases hcount
        cases h
        exact ⟨hne, ⟨hsort, hunder, hbounded, hlt⟩, by simpa using hfits, not_not.mp heq, rfl⟩
    case isFalse => cases hcount
  · rintro ⟨hne, hset, hfits, hcount, rfl⟩
    refine ⟨hne, hset.sorted, (), forM_eq_ok_iff.mpr (hentries.mpr ⟨hset.bounded, hset.under⟩), ?_⟩
    refine guard_eq_ok.mpr ⟨by simp [hfits], ?_⟩
    exact bind_eq_ok.mpr ⟨_, count_eq hset.countable, guard_eq_ok.mpr ⟨not_not.mpr hcount, rfl⟩⟩

end Leaves

/-! ## Branches -/

section Branches

variable {walk : ChildRef → ℕ → List (Fin FANOUT) → Except Failure UInt64} {depth : ℕ}
  {path : List (Fin FANOUT)} {children : Fin FANOUT → Option ChildRef}

/-- What the loop over the slots of a branch has read: a set for each slot, counted. -/
theorem exists_of_validateSlots {Read : Fin FANOUT → List IndexEntry → Prop}
    (hnone : ∀ s, children s = none → Read s [])
    (hsome : ∀ s reference n, children s = some reference → depth < MAX_DEPTH →
      walk reference (depth + 1) (path ++ [s]) = .ok n →
        ∃ below, Read s below ∧ n.toNat = below.length)
    {slots : List (Fin FANOUT)} (hnodup : slots.Nodup) {total last : UInt64}
    (h : slots.foldlM (validateSlot walk depth path children) total = .ok last) :
    (∃ below, (∀ s ∈ slots, Read s (below s)) ∧
      last.toNat = total.toNat + (slots.flatMap below).length) ∧
        ((∃ s ∈ slots, children s ≠ none) → depth < MAX_DEPTH) := by
  induction slots generalizing total with
  | nil =>
      cases h
      exact ⟨⟨fun _ => [], by simp, by simp⟩, by simp⟩
  | cons s slots ih =>
      obtain ⟨next, hturn, hrest⟩ := foldlM_cons_eq_ok.mp h
      rw [List.nodup_cons] at hnodup
      obtain ⟨⟨below, hread, htotal⟩, hdeep⟩ := ih hnodup.2 hrest
      -- what this turn read
      have hhere : (∃ entries, Read s entries ∧ next.toNat = total.toNat + entries.length) ∧
          (children s ≠ none → depth < MAX_DEPTH) := by
        unfold validateSlot at hturn
        cases hchild : children s with
        | none =>
            rw [hchild] at hturn
            cases hturn
            exact ⟨⟨[], hnone s hchild, rfl⟩, fun hne => absurd rfl hne⟩
        | some reference =>
            rw [hchild] at hturn
            obtain ⟨deeper, hdeeper, hturn⟩ := bind_eq_ok.mp hturn
            obtain ⟨hlt, rfl⟩ := nextDepth_eq_ok.mp hdeeper
            obtain ⟨n, hn, hadd⟩ := bind_eq_ok.mp hturn
            obtain ⟨entries, hentries, hlen⟩ := hsome s reference n hchild hlt hn
            unfold checkedAdd at hadd
            split at hadd
            case isTrue hfits =>
                cases hadd
                refine ⟨⟨entries, hentries, ?_⟩, fun _ => hlt⟩
                rw [UInt64.toNat_add, Nat.mod_eq_of_lt hfits, hlen]
            case isFalse => cases hadd
      obtain ⟨⟨entries, hentries, hnext⟩, hlt⟩ := hhere
      have hsame : slots.flatMap (Function.update below s entries) = slots.flatMap below :=
        List.flatMap_congr fun s' hs' => by
          rw [Function.update_of_ne (ne_of_mem_of_not_mem hs' hnodup.1)]
      refine ⟨⟨Function.update below s entries, fun s' hs' => ?_, ?_⟩, ?_⟩
      · rcases List.mem_cons.mp hs' with rfl | hs'
        · rw [Function.update_self]
          exact hentries
        · rw [Function.update_of_ne (ne_of_mem_of_not_mem hs' hnodup.1)]
          exact hread s' hs'
      · rw [List.flatMap_cons, List.length_append, hsame, Function.update_self]
        omega
      · rintro ⟨s', hs', hne⟩
        rcases List.mem_cons.mp hs' with rfl | hs'
        · exact hlt hne
        · exact hdeep ⟨s', hs', hne⟩

/-- The loop over the slots of a branch whose slots are walked adds up their sizes. -/
theorem foldlM_validateSlot {below : Fin FANOUT → List IndexEntry} (hdeep : depth < MAX_DEPTH)
    (hnone : ∀ s, children s = none → below s = [])
    (hsome : ∀ s reference, children s = some reference →
      walk reference (depth + 1) (path ++ [s]) = .ok (UInt64.ofNat (below s).length))
    (slots : List (Fin FANOUT)) (total : ℕ)
    (hcount : total + (slots.flatMap below).length < 2 ^ 64) :
    slots.foldlM (validateSlot walk depth path children) (UInt64.ofNat total) =
      .ok (UInt64.ofNat (total + (slots.flatMap below).length)) := by
  induction slots generalizing total with
  | nil => simp [pure, Except.pure]
  | cons s slots ih =>
      rw [List.flatMap_cons, List.length_append] at hcount ⊢
      refine foldlM_cons_eq_ok.mpr ⟨UInt64.ofNat (total + (below s).length), ?_, ?_⟩
      · unfold validateSlot
        cases hchild : children s with
        | none =>
            rw [hnone s hchild]
            rfl
        | some reference =>
            refine bind_eq_ok.mpr ⟨_, nextDepth_eq hdeep, bind_eq_ok.mpr ⟨_, hsome s _ hchild, ?_⟩⟩
            exact checkedAdd_eq (by omega)
      · rw [ih _ (by omega), Nat.add_assoc]

end Branches

/-! ## The walk -/

section Walks

variable [NodeHash] {source : NodeSource} {levels : ℕ} {path : List (Fin FANOUT)}
  {entries : List IndexEntry} {child : ChildRef}

omit [NodeHash] in
theorem occupied_ne_nil {children : Fin FANOUT → Option ChildRef} :
    occupied children ≠ [] ↔ ∃ s ∈ List.finRange FANOUT, children s ≠ none := by
  unfold occupied
  rw [ne_eq, List.filterMap_eq_nil_iff]
  push Not
  exact Iff.rfl

/-- The canonical reference to a set, from its node. -/
theorem canonicalRef_eq_some (hne : entries ≠ [])
    (hhash : nodeHash (canonicalNode levels path.length entries).encode = child.hash)
    (hcount : child.count = UInt64.ofNat entries.length) :
    canonicalRef levels path.length entries = some child := by
  rw [canonicalRef_of_ne hne, hhash, ← hcount]

/-- **A walk that succeeds read the canonical subtree of a set.** -/
theorem exists_of_walk {n : UInt64} (hlevels : levels + path.length = MAX_DEPTH + 1)
    (hpath : path.length ≤ MAX_DEPTH) (h : walk levels source child path.length path = .ok n) :
    ∃ entries, SetAt path entries ∧ canonicalRef levels path.length entries = some child ∧
      n.toNat = entries.length ∧ Holds source (canonicalNodes levels path.length entries) := by
  induction levels generalizing path child n with
  | zero => cases h
  | succ levels ih =>
      unfold walk at h
      obtain ⟨bytes, hread, h⟩ := bind_eq_ok.mp h
      have hbytes := nodeBytes_eq_ok.mp hread
      obtain ⟨hhash, h⟩ := guard_eq_ok.mp h
      rw [not_not] at hhash
      obtain ⟨node, hdecode, hcase⟩ := bind_eq_ok.mp h
      clear h
      obtain ⟨rfl, -⟩ := decodeCanonical_eq_ok.mp hdecode
      have hnode : source (nodeHash node.encode) = some node.encode := by rw [hhash, hbytes]
      cases node with
      | leaf entries =>
          obtain ⟨hne, hset, hfits, hcount, rfl⟩ := (validateLeaf_eq_ok hpath).mp hcase
          refine ⟨entries, hset, canonicalRef_eq_some hne ?_ hcount, toNat_count hset.countable, ?_⟩
          · rw [canonicalNode_of_fits hfits, hhash]
          · rw [canonicalNodes, if_neg hne, if_pos hfits]
            exact List.forall_mem_singleton.mpr hnode
      | branch children =>
          obtain ⟨hoccupied, h⟩ := guard_eq_ok.mp hcase
          obtain ⟨total, hloop, h⟩ := bind_eq_ok.mp h
          obtain ⟨htotal, h⟩ := guard_eq_ok.mp h
          rw [not_not] at htotal
          obtain ⟨⟨below, hbelow, hsum⟩, hdeep⟩ :=
            @exists_of_validateSlots (walk levels source) path.length path children
            (fun s below => SetAt (path ++ [s]) below ∧
              canonicalRef levels (path.length + 1) below = children s ∧
                Holds source (canonicalNodes levels (path ++ [s]).length below))
            (fun s hnone => ⟨SetAt.nil _, by rw [canonicalRef_nil, hnone], by
              rw [canonicalNodes_nil]
              rintro _ ⟨⟩⟩)
            (fun s reference n hsome hdeep hwalk => by
              have hlen : (path ++ [s]).length = path.length + 1 := by simp
              rw [← hlen] at hwalk
              obtain ⟨below, hset, href, hn, hheld⟩ := ih (by omega) (by omega) hwalk
              rw [hlen] at href
              exact ⟨below, ⟨hset, by rw [href, hsome], hheld⟩, hn⟩)
            _ (List.nodup_finRange FANOUT) _ _ hloop
          have hdeep := hdeep (occupied_ne_nil.mp hoccupied)
          rw [show (0 : UInt64).toNat = 0 from rfl, Nat.zero_add] at hsum
          -- the sets of the slots make the set of the branch
          have hset := SetAt.flatMap (fun s => (hbelow s (List.mem_finRange s)).1) hdeep
            (hsum ▸ total.toNat_lt)
          have hslot := slot_flatMap isRadix hdeep
            (fun s => (hbelow s (List.mem_finRange s)).1.sorted)
            fun s => (hbelow s (List.mem_finRange s)).1.under
          have hchildren : children = fun s => canonicalRef levels (path.length + 1)
              (slot digit IndexEntry.key path.length s ((List.finRange FANOUT).flatMap below)) := by
            funext s
            rw [hslot, (hbelow s (List.mem_finRange s)).2.1]
          have hheld : ∀ s, Holds source (canonicalNodes levels (path ++ [s]).length
              (slot digit IndexEntry.key path.length s
                ((List.finRange FANOUT).flatMap below))) := by
            intro s
            rw [hslot]
            exact (hbelow s (List.mem_finRange s)).2.2
          -- and the shape check found it too large for a leaf
          have hshape : fitsLeaf ((List.finRange FANOUT).flatMap below) path.length = false ∧
              n = total := by
            split at h
            case isTrue hsmall =>
                obtain ⟨entries, hcollect, h⟩ := bind_eq_ok.mp h
                rw [hchildren, collectSlots_held hset hlevels hdeep hheld, List.nil_append]
                  at hcollect
                obtain rfl := Except.ok.inj hcollect
                obtain ⟨hfits, h⟩ := guard_eq_ok.mp h
                rw [hset.sorted.sortByKey_eq, Bool.not_eq_true] at hfits
                cases h
                exact ⟨hfits, rfl⟩
            case isFalse hlarge =>
                cases h
                refine ⟨fitsLeaf_eq_false.mpr ⟨?_, hdeep, fun hle => ?_⟩, rfl⟩
                · unfold MAX_LEAF_ENTRIES at hlarge
                  omega
                · omega
          obtain ⟨hfits, rfl⟩ := hshape
          have hnodes : canonicalNode (levels + 1) path.length
              ((List.finRange FANOUT).flatMap below) = .branch children := by
            rw [canonicalNode_of_not_fits hfits, ← hchildren]
          have hcount : child.count =
              UInt64.ofNat ((List.finRange FANOUT).flatMap below).length := by
            rw [← htotal, ← hsum, UInt64.ofNat_toNat]
          refine ⟨_, hset, canonicalRef_eq_some (ne_nil_of_not_fits hfits) ?_ hcount, hsum, ?_⟩
          · rw [hnodes, hhash]
          · rw [canonicalNodes, if_neg (ne_nil_of_not_fits hfits),
              if_neg (by rw [hfits]; exact Bool.false_ne_true), holds_append]
            refine ⟨fun bytes hbytes => ?_, List.forall_mem_singleton.mpr (by rw [hnodes]; exact hnode)⟩
            obtain ⟨s, -, hbytes⟩ := List.mem_flatMap.mp hbytes
            have := hheld s
            rw [List.length_append, List.length_singleton] at this
            exact this bytes hbytes

/-- **A walk over the canonical subtree of a set succeeds.** -/
theorem walk_eq (hset : SetAt path entries) (hlevels : levels + path.length = MAX_DEPTH + 1)
    (hpath : path.length ≤ MAX_DEPTH)
    (hheld : Holds source (canonicalNodes levels path.length entries))
    (hchild : canonicalRef levels path.length entries = some child) :
    walk levels source child path.length path = .ok (UInt64.ofNat entries.length) := by
  induction levels generalizing path entries child with
  | zero => omega
  | succ levels ih =>
      obtain ⟨hne, hhash, hcount⟩ := hash_of_canonicalRef hchild
      unfold walk
      rw [hhash]
      refine bind_eq_ok.mpr ⟨_, nodeBytes_eq_ok.mpr (hheld _ (encode_mem_canonicalNodes hne)),
        guard_eq_ok.mpr ⟨not_not.mpr rfl, ?_⟩⟩
      refine bind_eq_ok.mpr ⟨_, hset.decode_canonicalNode hne levels, ?_⟩
      cases hfits : fitsLeaf entries path.length with
      | true =>
          rw [canonicalNode_of_fits hfits]
          exact (validateLeaf_eq_ok hpath).mpr ⟨hne, hset, hfits, hcount, rfl⟩
      | false =>
          obtain ⟨hmany, hdeep, -⟩ := fitsLeaf_eq_false.mp hfits
          rw [canonicalNode_of_not_fits hfits]
          have hflat := hset.sorted.flatMap_slot isRadix hset.under hdeep
          have hloop := @foldlM_validateSlot (walk levels source) path.length path
            (fun s => canonicalRef levels (path.length + 1)
              (slot digit IndexEntry.key path.length s entries))
            (fun s => slot digit IndexEntry.key path.length s entries) hdeep
            (fun s hnone => canonicalRef_eq_none.mp hnone)
            (fun s reference hsome => by
              have hbelow := @ih (path ++ [s]) _ reference (hset.slot s) (by simp; omega)
                (by simp; omega) (hheld.slot hfits s)
              rw [List.length_append, List.length_singleton] at hbelow
              exact hbelow hsome)
            (List.finRange FANOUT) 0 (by rw [hflat, Nat.zero_add]; exact hset.countable)
          rw [hflat, Nat.zero_add] at hloop
          have hoccupied : occupied (fun s => canonicalRef levels (path.length + 1)
              (slot digit IndexEntry.key path.length s entries)) ≠ [] := by
            rw [occupied_ne_nil]
            obtain ⟨entry, hentry⟩ := List.exists_mem_of_ne_nil entries hne
            refine ⟨digit entry.key path.length, List.mem_finRange _, ?_⟩
            rw [canonicalRef_of_ne (List.ne_nil_of_mem (mem_slot.mpr ⟨hentry, rfl⟩))]
            exact Option.some_ne_none _
          refine guard_eq_ok.mpr ⟨hoccupied, bind_eq_ok.mpr ⟨_, hloop, guard_eq_ok.mpr
            ⟨not_not.mpr hcount.symm, ?_⟩⟩⟩
          show (if (UInt64.ofNat entries.length).toNat ≤ MAX_LEAF_ENTRIES then _ else _) = _
          split
          case isTrue =>
              refine bind_eq_ok.mpr ⟨_, collectSlots_held hset hlevels hdeep (hheld.slot hfits) [],
                guard_eq_ok.mpr ⟨?_, rfl⟩⟩
              rw [List.nil_append, hset.sorted.sortByKey_eq, hfits]
              exact Bool.false_ne_true
          case isFalse => rfl

/-- The entries of an index, read from the root. -/
def entriesIn (source : NodeSource) (root : Option ChildRef) : Except Failure (List IndexEntry) :=
  match root with
  | none => .ok []
  | some child => collect (MAX_DEPTH + 1) source child 0 []

/-- What validation has read: a set, of which the root is the canonical one. -/
theorem exists_of_validate {root : Option ChildRef} {n : UInt64}
    (h : validate source root = .ok n) : ∃ entries, SetAt [] entries ∧
      canonicalRef (MAX_DEPTH + 1) 0 entries = root ∧ n.toNat = entries.length ∧
        Holds source (canonicalNodes (MAX_DEPTH + 1) 0 entries) := by
  cases root with
  | none =>
      cases h
      exact ⟨[], SetAt.nil _, rfl, rfl, by rw [canonicalNodes_nil]; rintro _ ⟨⟩⟩
  | some child => exact @exists_of_walk _ _ (MAX_DEPTH + 1) [] _ _ rfl (Nat.zero_le _) h

theorem validate_eq {root : Option ChildRef} (hset : SetAt [] entries)
    (hroot : canonicalRef (MAX_DEPTH + 1) 0 entries = root)
    (hheld : Holds source (canonicalNodes (MAX_DEPTH + 1) 0 entries)) :
    validate source root = .ok (UInt64.ofNat entries.length) ∧
      entriesIn source root = .ok entries := by
  cases root with
  | none =>
      obtain rfl := canonicalRef_eq_none.mp hroot
      exact ⟨rfl, rfl⟩
  | some child =>
      exact ⟨walk_eq hset rfl (Nat.zero_le _) hheld hroot,
        collect_eq hset rfl (Nat.zero_le _) hheld hroot []⟩

/-- **Validation accepts the canonical trees**: a root is valid, of a count, when a set of
that many entries builds it and every node of the build is held; and two valid roots
over the same entries are the same. -/
theorem validate_accepts_canonical :
    (∀ (source : NodeSource) (root : Option ChildRef) (n : UInt64),
      validate source root = .ok n ↔ ∃ entries written, entries.length = n.toNat ∧
        buildIndex entries [] = .ok (root, written) ∧ Holds source written) ∧
    ∀ (source source' : NodeSource) (root root' : Option ChildRef) (n n' : UInt64),
      validate source root = .ok n → validate source' root' = .ok n' → ∃ entries entries',
        entriesIn source root = .ok entries ∧ entriesIn source' root' = .ok entries' ∧
          ((∀ entry, entry ∈ entries ↔ entry ∈ entries') → root = root') := by
  constructor
  · intro source root n
    constructor
    · intro h
      obtain ⟨entries, hset, hroot, hn, hheld⟩ := exists_of_validate h
      have hsorted := hset.sorted.sortByKey_eq
      obtain ⟨written, hbuilt, hwritten⟩ := buildIndex_eq (hsorted.symm ▸ hset) []
      rw [hsorted, hroot] at hbuilt
      rw [hsorted] at hwritten
      exact ⟨entries, written, hn.symm, hbuilt,
        fun bytes hbytes => hheld bytes ((hwritten bytes).mp hbytes)⟩
    · rintro ⟨entries, written, hlen, hbuild, hheld⟩
      have hset := setAt_of_buildIndex (hlen ▸ n.toNat_lt) hbuild
      obtain ⟨written', hbuilt, hwritten⟩ := buildIndex_eq hset []
      rw [hbuild] at hbuilt
      cases hbuilt
      have hvalid := (validate_eq hset rfl fun bytes hbytes =>
        hheld bytes ((hwritten bytes).mpr hbytes)).1
      rwa [length_sortByKey, hlen, UInt64.ofNat_toNat] at hvalid
  · intro source source' root root' n n' h h'
    obtain ⟨entries, hset, hroot, -, hheld⟩ := exists_of_validate h
    obtain ⟨entries', hset', hroot', -, hheld'⟩ := exists_of_validate h'
    refine ⟨entries, entries', (validate_eq hset hroot hheld).2,
      (validate_eq hset' hroot' hheld').2, fun hsame => ?_⟩
    rw [← hroot, ← hroot', hset.sorted.ext hset'.sorted hsame]

end Walks

/-- A tree with a branch is valid, of its count. -/
theorem spread_valid :
    let _ := plainHash
    validate spreadSource spreadRoot = .ok 257 := by
  intro _
  obtain ⟨written, hbuild, hheld⟩ := spread_buildIndex
  exact (validate_accepts_canonical.1 _ _ _).mpr
    ⟨spread, written, by decide +kernel, hbuild, hheld⟩

end Lait.Radix
