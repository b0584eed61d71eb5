import Lait.Radix.Edits

/-!
# Where the nodes of a held tree sit

`descendTo` follows a path of nibbles from a root, reading a branch at each step, and
answers with the reference it arrives at.  In the tree of a set, held by the source,
what it finds at a path is the canonical reference to the entries under that path, and
it finds something exactly at the places where the tree has a node (`descendTo_cases`).

Two facts about hashes follow.  Inside one held tree a hash names one place
(`path_eq_of_hash_eq`): a node read at two places would have the same entries under both
paths.  And between two trees, equal references mean equal sets, provided no two
different nodes of them share a hash (`entries_eq_of_ref_eq`).
-/

namespace Lait.Radix

/-! ## Entries under a path -/

instance (path : List (Fin FANOUT)) (key : IndexKey) : Decidable (Under digit path key) := by
  unfold Under
  infer_instance

/-- The entries of a set under a path. -/
def below (path : List (Fin FANOUT)) (entries : List IndexEntry) : List IndexEntry :=
  entries.filter fun entry => Under digit path entry.key

section Below

variable {path path' : List (Fin FANOUT)} {entries : List IndexEntry} {entry : IndexEntry}

theorem mem_below : entry ∈ below path entries ↔ entry ∈ entries ∧ Under digit path entry.key := by
  rw [below, List.mem_filter, decide_eq_true_iff]

theorem below_nil (entries : List IndexEntry) : below [] entries = entries :=
  List.filter_eq_self.mpr fun _ _ => decide_eq_true (under_nil _)

/-- One nibble further, a slot remains. -/
theorem below_concat (path : List (Fin FANOUT)) (s : Fin FANOUT) (entries : List IndexEntry) :
    below (path ++ [s]) entries =
      slot digit IndexEntry.key path.length s (below path entries) := by
  rw [below, slot, below, List.filter_filter]
  refine List.filter_congr fun entry _ => ?_
  rw [Bool.eq_iff_iff, decide_eq_true_iff, Bool.and_eq_true, decide_eq_true_iff,
    decide_eq_true_iff, under_concat, and_comm]

theorem SetAt.below (h : SetAt [] entries) (path : List (Fin FANOUT)) :
    SetAt path (below path entries) where
  sorted := List.Pairwise.filter _ h.sorted
  under _ hentry := (mem_below.mp hentry).2
  bounded _ hentry := h.bounded _ (mem_below.mp hentry).1
  countable := (List.length_filter_le _ _).trans_lt h.countable

/-- What lies under a path lies under the paths it extends. -/
theorem Under.of_extends {key : IndexKey} (h : Under digit path key) (hpath : path' <+: path) :
    Under digit path' key := by
  intro i hi
  rw [h i (hi.trans_le hpath.length_le), hpath.getElem hi]

/-- Two paths over one key: the shorter is the start of the longer. -/
theorem Under.isPrefix {key : IndexKey} (h : Under digit path key) (h' : Under digit path' key)
    (hle : path.length ≤ path'.length) : path <+: path' := by
  refine List.prefix_iff_eq_take.mpr (List.ext_getElem (by simp [hle]) fun i hi _ => ?_)
  rw [List.getElem_take, ← h i hi, h' i (hi.trans_le hle)]

end Below

/-! ## Following a path -/

/-- The children of a node, if it is a branch. -/
def IndexNode.children : IndexNode → Fin FANOUT → Option ChildRef
  | .leaf _ => fun _ => none
  | .branch children => children

/-- The children a reference leads to. -/
def childrenOf (source : NodeSource) : Option ChildRef → Fin FANOUT → Option ChildRef
  | none => fun _ => none
  | some child =>
      match readNode source child.hash with
      | .ok node => node.children
      | .error _ => fun _ => none

/-- The reference at a path from the root. -/
def descendTo (source : NodeSource) (root : Option ChildRef) (path : List (Fin FANOUT)) :
    Option ChildRef := path.foldl (childrenOf source) root

theorem descendTo_concat (source : NodeSource) (root : Option ChildRef)
    (path : List (Fin FANOUT)) (s : Fin FANOUT) :
    descendTo source root (path ++ [s]) = childrenOf source (descendTo source root path) s :=
  List.foldl_concat ..

/-- Where there is nothing there is nothing further on. -/
theorem descendTo_of_none {source : NodeSource} {root : Option ChildRef}
    {path path' : List (Fin FANOUT)} (h : descendTo source root path = none)
    (hpath : path <+: path') : descendTo source root path' = none := by
  obtain ⟨rest, rfl⟩ := hpath
  induction rest using List.reverseRecOn with
  | nil => rw [List.append_nil, h]
  | append_singleton rest s ih =>
      rw [← List.append_assoc, descendTo_concat, ih]
      rfl

section Held

variable [NodeHash]

/-- The canonical reference to the entries under a path. -/
def refBelow (path : List (Fin FANOUT)) (entries : List IndexEntry) : Option ChildRef :=
  canonicalRef (MAX_DEPTH + 1 - path.length) path.length (below path entries)

variable {source : NodeSource} {root : Option ChildRef} {entries : List IndexEntry}
  {path : List (Fin FANOUT)} {child : ChildRef}

/-- The nodes of what lies under a path are held. -/
def HeldBelow (source : NodeSource) (path : List (Fin FANOUT)) (entries : List IndexEntry) :
    Prop :=
  Holds source (canonicalNodes (MAX_DEPTH + 1 - path.length) path.length (below path entries))

/-- A node is read as the canonical node of its entries. -/
theorem readNode_below (hset : SetAt [] entries) (hpath : path.length ≤ MAX_DEPTH)
    (hheld : HeldBelow source path entries) (hchild : refBelow path entries = some child) :
    readNode source child.hash =
      .ok (canonicalNode (MAX_DEPTH + 1 - path.length) path.length (below path entries)) := by
  obtain ⟨levels, hlevels⟩ : ∃ levels, MAX_DEPTH + 1 - path.length = levels + 1 :=
    ⟨MAX_DEPTH - path.length, by omega⟩
  rw [HeldBelow, hlevels] at hheld
  rw [refBelow, hlevels] at hchild
  rw [hlevels]
  exact readNode_eq (hset.below path) hheld hchild

/-- A node that splits has the references one nibble on. -/
theorem canonicalNode_below (hfits : fitsLeaf (below path entries) path.length = false) :
    canonicalNode (MAX_DEPTH + 1 - path.length) path.length (below path entries) =
      .branch fun s => refBelow (path ++ [s]) entries := by
  obtain ⟨-, hdeep, -⟩ := fitsLeaf_eq_false.mp hfits
  rw [show MAX_DEPTH + 1 - path.length = (MAX_DEPTH - path.length) + 1 by omega,
    canonicalNode_of_not_fits hfits]
  congr 1
  funext s
  rw [refBelow, below_concat, List.length_append, List.length_singleton,
    show MAX_DEPTH + 1 - (path.length + 1) = MAX_DEPTH - path.length by omega]

/-- The children of a node that splits are the references one nibble on; they are held. -/
theorem childrenOf_below (hset : SetAt [] entries) (hpath : path.length ≤ MAX_DEPTH)
    (hheld : HeldBelow source path entries) (hchild : refBelow path entries = some child)
    (hfits : fitsLeaf (below path entries) path.length = false) (s : Fin FANOUT) :
    childrenOf source (some child) s = refBelow (path ++ [s]) entries ∧
      HeldBelow source (path ++ [s]) entries := by
  obtain ⟨-, hdeep, -⟩ := fitsLeaf_eq_false.mp hfits
  obtain ⟨levels, hlevels⟩ : ∃ levels, MAX_DEPTH + 1 - path.length = levels + 1 :=
    ⟨MAX_DEPTH - path.length, by omega⟩
  have hnext : MAX_DEPTH + 1 - (path ++ [s]).length = levels := by
    rw [List.length_append, List.length_singleton]
    omega
  constructor
  · rw [childrenOf, readNode_below hset hpath hheld hchild, canonicalNode_below hfits]
    rfl
  · rw [HeldBelow, hlevels] at hheld
    rw [HeldBelow, hnext, below_concat]
    exact hheld.slot hfits s

/-- A leaf has no children. -/
theorem childrenOf_leaf (hset : SetAt [] entries) (hpath : path.length ≤ MAX_DEPTH)
    (hheld : HeldBelow source path entries) (hchild : refBelow path entries = some child)
    (hfits : fitsLeaf (below path entries) path.length = true) (s : Fin FANOUT) :
    childrenOf source (some child) s = none := by
  rw [childrenOf, readNode_below hset hpath hheld hchild, canonicalNode_of_fits hfits]
  rfl

/-- **What is found at a path** of a held tree: nothing, or the canonical reference to the
entries under it, held; and then every shorter path leads to a node that splits. -/
theorem Tree.descendTo_cases (h : Tree source root entries) (path : List (Fin FANOUT)) :
    descendTo source root path = none ∨
      descendTo source root path = refBelow path entries ∧ path.length ≤ MAX_DEPTH ∧
        HeldBelow source path entries ∧
          ∀ shorter, shorter <+: path → shorter ≠ path →
            fitsLeaf (below shorter entries) shorter.length = false := by
  induction path using List.reverseRecOn with
  | nil =>
      refine Or.inr ⟨?_, Nat.zero_le _, ?_, fun shorter hshorter hne => ?_⟩
      · rw [refBelow, below_nil]
        exact h.root_eq
      · rw [HeldBelow, below_nil]
        exact h.held
      · exact absurd (List.prefix_nil.mp hshorter) hne
  | append_singleton path s ih =>
      rw [descendTo_concat]
      rcases ih with hnone | ⟨href, hpath, hheld, hsplit⟩
      · rw [hnone]
        exact Or.inl rfl
      · rw [href]
        cases hchild : refBelow path entries with
        | none => exact Or.inl rfl
        | some child =>
            cases hfits : fitsLeaf (below path entries) path.length with
            | true => exact Or.inl (childrenOf_leaf h.set hpath hheld hchild hfits s)
            | false =>
                obtain ⟨-, hdeep, -⟩ := fitsLeaf_eq_false.mp hfits
                obtain ⟨hnext, hnextHeld⟩ := childrenOf_below h.set hpath hheld hchild hfits s
                refine Or.inr ⟨hnext, by simp; omega, hnextHeld, fun shorter hshorter hne => ?_⟩
                rcases List.prefix_concat_iff.mp hshorter with heq | hshorter
                · exact absurd heq hne
                · by_cases hsame : shorter = path
                  · rw [hsame, hfits]
                  · exact hsplit shorter hshorter hsame

/-- A node of a held tree. -/
theorem Tree.of_descendTo (h : Tree source root entries)
    (hchild : descendTo source root path = some child) :
    refBelow path entries = some child ∧ path.length ≤ MAX_DEPTH ∧
      HeldBelow source path entries ∧ ∀ shorter, shorter <+: path → shorter ≠ path →
        fitsLeaf (below shorter entries) shorter.length = false := by
  rcases h.descendTo_cases path with hnone | ⟨href, hrest⟩
  · rw [hnone] at hchild
    cases hchild
  · exact ⟨href.symm.trans hchild, hrest⟩

/-- The nodes below a place are nodes of the tree. -/
theorem Tree.nodes_subset (h : Tree source root entries)
    (hchild : descendTo source root path = some child) :
    canonicalNodes (MAX_DEPTH + 1 - path.length) path.length (below path entries) ⊆
      canonicalNodes (MAX_DEPTH + 1) 0 entries := by
  induction path using List.reverseRecOn generalizing child with
  | nil => rw [below_nil]; exact List.Subset.refl _
  | append_singleton path s ih =>
      rw [Radix.descendTo_concat] at hchild
      cases hparent : descendTo source root path with
      | none =>
          rw [hparent] at hchild
          cases hchild
      | some parent =>
          obtain ⟨href, hpath, hheld, -⟩ := h.of_descendTo hparent
          rw [hparent] at hchild
          cases hfits : fitsLeaf (below path entries) path.length with
          | true =>
              rw [childrenOf_leaf h.set hpath hheld href hfits] at hchild
              cases hchild
          | false =>
              have hslot := @canonicalNodes_slot _ (MAX_DEPTH - path.length) _ _ hfits s
              rw [← below_concat, show MAX_DEPTH - path.length + 1 = MAX_DEPTH + 1 - path.length by
                omega] at hslot
              refine List.Subset.trans ?_ (ih hparent)
              rw [List.length_append, List.length_singleton,
                show MAX_DEPTH + 1 - (path.length + 1) = MAX_DEPTH - path.length by omega]
              exact hslot

/-- A node that splits leads one nibble on. -/
theorem Tree.descendTo_concat (h : Tree source root entries)
    (hchild : descendTo source root path = some child)
    (hfits : fitsLeaf (below path entries) path.length = false) (s : Fin FANOUT) :
    descendTo source root (path ++ [s]) = refBelow (path ++ [s]) entries := by
  obtain ⟨href, hpath, hheld, -⟩ := h.of_descendTo hchild
  rw [Radix.descendTo_concat, hchild]
  exact (childrenOf_below h.set hpath hheld href hfits s).1

/-- A leaf leads nowhere. -/
theorem Tree.descendTo_concat_leaf (h : Tree source root entries)
    (hchild : descendTo source root path = some child)
    (hfits : fitsLeaf (below path entries) path.length = true) (s : Fin FANOUT) :
    descendTo source root (path ++ [s]) = none := by
  obtain ⟨href, hpath, hheld, -⟩ := h.of_descendTo hchild
  rw [Radix.descendTo_concat, hchild]
  exact childrenOf_leaf h.set hpath hheld href hfits s

/-- **Inside one held tree a hash names one place.** -/
theorem Tree.path_eq_of_hash_eq (h : Tree source root entries) (levels : ℕ)
    {path path' : List (Fin FANOUT)} {child child' : ChildRef}
    (hlevels : levels + path.length = MAX_DEPTH + 1)
    (hchild : descendTo source root path = some child)
    (hchild' : descendTo source root path' = some child') (hhash : child.hash = child'.hash) :
    path = path' := by
  induction levels generalizing path path' child child' with
  | zero =>
      obtain ⟨-, hpath, -⟩ := h.of_descendTo hchild
      omega
  | succ levels ih =>
      obtain ⟨href, hpath, hheld, hsplit⟩ := h.of_descendTo hchild
      obtain ⟨href', hpath', hheld', hsplit'⟩ := h.of_descendTo hchild'
      -- both places are read as the same node
      have hnode := readNode_below h.set hpath hheld href
      rw [hhash, readNode_below h.set hpath' hheld' href', Except.ok.injEq] at hnode
      obtain ⟨hne, -⟩ := hash_of_canonicalRef href
      obtain ⟨entry, hentry⟩ := List.exists_mem_of_ne_nil _ hne
      cases hfits : fitsLeaf (below path entries) path.length with
      | true =>
          rw [canonicalNode_of_fits hfits] at hnode
          have hfits' : fitsLeaf (below path' entries) path'.length = true := by
            by_contra hfits'
            rw [Bool.not_eq_true] at hfits'
            obtain ⟨-, hdeep', -⟩ := fitsLeaf_eq_false.mp hfits'
            rw [show MAX_DEPTH + 1 - path'.length = (MAX_DEPTH - path'.length) + 1 by omega,
              canonicalNode_of_not_fits hfits'] at hnode
            cases hnode
          rw [canonicalNode_of_fits hfits', IndexNode.leaf.injEq] at hnode
          -- a leaf's entries lie under both paths, and neither path leads through a leaf
          have hunder := (mem_below.mp hentry).2
          have hunder' := (mem_below.mp (hnode ▸ hentry)).2
          by_contra hpaths
          rcases le_total path.length path'.length with hle | hle
          · have hleaf := hsplit' path (hunder.isPrefix hunder' hle) hpaths
            rw [hfits] at hleaf
            cases hleaf
          · have hleaf := hsplit path' (hunder'.isPrefix hunder hle) (Ne.symm hpaths)
            rw [hfits'] at hleaf
            cases hleaf
      | false =>
          obtain ⟨-, hdeep, -⟩ := fitsLeaf_eq_false.mp hfits
          -- the nodes split alike: follow an occupied slot of both
          have hchildren : ∀ s, descendTo source root (path ++ [s]) =
              descendTo source root (path' ++ [s]) := by
            intro s
            rw [Radix.descendTo_concat, Radix.descendTo_concat, hchild, hchild', childrenOf,
              childrenOf, hhash]
          have hoccupied : descendTo source root (path ++ [digit entry.key path.length]) ≠ none := by
            rw [h.descendTo_concat hchild hfits, refBelow, below_concat,
              canonicalRef_of_ne (List.ne_nil_of_mem (mem_slot.mpr ⟨hentry, rfl⟩))]
            exact Option.some_ne_none _
          obtain ⟨next, hnext⟩ := Option.ne_none_iff_exists'.mp hoccupied
          have heq := ih (by simp; omega) hnext ((hchildren _).symm.trans hnext) rfl
          exact (List.append_inj' heq rfl).1

/-- No two different nodes, one of each list, share a hash. -/
def NoCollision (nodes nodes' : List Bytes) : Prop :=
  ∀ bytes ∈ nodes, ∀ bytes' ∈ nodes', nodeHash bytes = nodeHash bytes' → bytes = bytes'

/-- **Equal references mean equal sets**, where no two nodes collide. -/
theorem entries_eq_of_ref_eq {levels : ℕ} {entries entries' : List IndexEntry}
    (hset : SetAt path entries) (hset' : SetAt path entries')
    (hlevels : levels + path.length = MAX_DEPTH + 1) (hpath : path.length ≤ MAX_DEPTH)
    (hcollision : NoCollision (canonicalNodes levels path.length entries)
      (canonicalNodes levels path.length entries'))
    (h : canonicalRef levels path.length entries = some child)
    (h' : canonicalRef levels path.length entries' = some child) : entries = entries' := by
  induction levels generalizing path entries entries' child with
  | zero => omega
  | succ levels ih =>
      obtain ⟨hne, hhash, -⟩ := hash_of_canonicalRef h
      obtain ⟨hne', hhash', -⟩ := hash_of_canonicalRef h'
      have hnode := encode_injective (hcollision _ (encode_mem_canonicalNodes hne) _
        (encode_mem_canonicalNodes hne') (hhash.symm.trans hhash'))
      cases hfits : fitsLeaf entries path.length with
      | true =>
          cases hfits' : fitsLeaf entries' path.length with
          | true =>
              rw [canonicalNode_of_fits hfits, canonicalNode_of_fits hfits'] at hnode
              exact IndexNode.leaf.inj hnode
          | false =>
              rw [canonicalNode_of_fits hfits, canonicalNode_of_not_fits hfits'] at hnode
              cases hnode
      | false =>
          cases hfits' : fitsLeaf entries' path.length with
          | true =>
              rw [canonicalNode_of_not_fits hfits, canonicalNode_of_fits hfits'] at hnode
              cases hnode
          | false =>
              obtain ⟨-, hdeep, -⟩ := fitsLeaf_eq_false.mp hfits
              rw [canonicalNode_of_not_fits hfits, canonicalNode_of_not_fits hfits',
                IndexNode.branch.injEq] at hnode
              -- slot by slot
              have hslots : ∀ s, slot digit IndexEntry.key path.length s entries =
                  slot digit IndexEntry.key path.length s entries' := by
                intro s
                have hslot := congrFun hnode s
                cases hbelow : canonicalRef levels (path.length + 1)
                    (slot digit IndexEntry.key path.length s entries) with
                | none =>
                    rw [hbelow] at hslot
                    rw [canonicalRef_eq_none.mp hbelow, canonicalRef_eq_none.mp hslot.symm]
                | some below =>
                    rw [hbelow] at hslot
                    have hlen : (path ++ [s]).length = path.length + 1 := by simp
                    refine @ih (path ++ [s]) below _ _ (hset.slot s) (hset'.slot s) (by omega)
                      (by omega) ?_
                      (by rw [hlen]; exact hbelow) (by rw [hlen]; exact hslot.symm)
                    rw [hlen]
                    exact fun bytes hbytes bytes' hbytes' => hcollision bytes
                      (canonicalNodes_slot hfits s hbytes) bytes'
                        (canonicalNodes_slot hfits' s hbytes')
              rw [← hset.sorted.flatMap_slot isRadix hset.under hdeep,
                ← hset'.sorted.flatMap_slot isRadix hset'.under hdeep]
              exact List.flatMap_congr fun s _ => hslots s

end Held

end Lait.Radix
