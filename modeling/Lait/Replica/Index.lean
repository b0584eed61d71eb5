import Lait.Replica.Frontier

/-!
# Catalog indexes

Every catalog of the store is a canonical radix tree over 32-byte keys: one set
of entries has one encoding, whatever edits produced it, and the tree's root
hash commits to the set.  So a catalog is modelled by its entry set, and its
root by the function of that set the source calls `build`.

* `Index.apply` — a batch of changes, the last one for a key winning, refused
  whole when a value exceeds `MAX_VALUE_BYTES`.
* `Index.root` — the canonical tree's root and entry count.

Keys are nibbles of a digest; a digest here has no fixed length, so a nibble past
the end of one reads as zero.
-/

namespace Lait.Replica

/-- Nibbles in a key, and the maximum depth of any path. -/
def MAX_DEPTH : ℕ := 64
/-- Maximum entries in one leaf before it must split. -/
def MAX_LEAF_ENTRIES : ℕ := 256
/-- Maximum encoded size of any node. -/
def MAX_NODE_BYTES : ℕ := 1024 * 1024
/-- Maximum encoded size of one entry's value. -/
def MAX_VALUE_BYTES : ℕ := 64 * 1024

/-- Domain separator of the store's content addresses. -/
def OBJECT_DOMAIN : Bytes := Bytes.ofString "lait/store-object/1"

/-- The content address the store gives a byte object. -/
def objectContentHash [Crypto] (bytes : Bytes) : Bytes :=
  Crypto.blake3 (Bytes.join [OBJECT_DOMAIN, bytes])

/-- A reference to a child subtree: its node hash and how many entries it holds. -/
structure ChildRef where
  hash : Bytes
  count : ℕ
  deriving DecidableEq

/-- The source's name for the root of a catalog. -/
abbrev IndexRef := ChildRef

/-- A tree node. -/
inductive IndexNode
  | leaf (entries : List (Bytes × Bytes))
  | branch (children : List (Option ChildRef))
  deriving DecidableEq

/-- Why an index operation failed. -/
inductive IndexFailure
  | bounds
  deriving DecidableEq

namespace Index

/-- The nibble of a key at a depth. -/
def nibble (key : Bytes) (depth : ℕ) : ℕ :=
  let byte := (key.data.getD (depth / 2) 0).toNat
  if depth % 2 = 0 then byte / 16 else byte % 16

section

variable [Crypto] [Postcard IndexNode]

/-- The reference to a node. -/
def emit (node : IndexNode) (count : ℕ) : ChildRef :=
  ⟨objectContentHash (Postcard.toStdvec node), count⟩

/-- Whether a set of entries is small enough to live in one leaf. -/
def fitsLeaf (entries : List (Bytes × Bytes)) : Bool :=
  entries.length ≤ 1 ||
    (entries.length ≤ MAX_LEAF_ENTRIES &&
      (Postcard.toStdvec (IndexNode.leaf entries)).length ≤ MAX_NODE_BYTES)

/-- The canonical subtree of a sorted entry set, where `levels` counts the
nibbles still unread. -/
def build : ℕ → List (Bytes × Bytes) → Option ChildRef
  | _, [] => none
  | 0, entries => some (emit (.leaf entries) entries.length)
  | levels + 1, entries =>
      if fitsLeaf entries then some (emit (.leaf entries) entries.length)
      else
        let children := (List.range 16).map fun slot =>
          build levels (entries.filter fun entry => nibble entry.1 (MAX_DEPTH - (levels + 1)) = slot)
        some (emit (.branch children) entries.length)

variable {ν : Type} [Postcard ν]

/-- The root of a catalog. -/
def root (index : BTreeMap Bytes ν) : Option IndexRef :=
  build MAX_DEPTH (index.toList.map fun entry => (entry.1, Postcard.toStdvec entry.2))

end

/-! ## Updates -/

/-- One requested change: set a key to a value, or remove it. -/
abbrev Change (ν : Type) := Bytes × Option ν

section

variable {ν : Type}

/-- Perform one change. -/
def step (index : BTreeMap Bytes ν) (change : Change ν) : BTreeMap Bytes ν :=
  match change.2 with
  | some value => index.insert change.1 value
  | none => index.erase change.1

/-- Apply a batch of changes in order. -/
def applyAll (index : BTreeMap Bytes ν) (changes : List (Change ν)) : BTreeMap Bytes ν :=
  changes.foldl step index

/-- Whether a change's value is over the bound. -/
def oversized [Postcard ν] (change : Change ν) : Bool :=
  match change.2 with
  | some value => MAX_VALUE_BYTES < (Postcard.toStdvec value).length
  | none => false

/-- Apply a batch, or refuse it whole. -/
def apply [Postcard ν] (index : BTreeMap Bytes ν) (changes : List (Change ν)) :
    Except IndexFailure (BTreeMap Bytes ν) :=
  if changes.any oversized then .error .bounds else .ok (applyAll index changes)

theorem get_step (index : BTreeMap Bytes ν) (change : Change ν) (k : Bytes) :
    (step index change)[k]? = if change.1 = k then change.2 else index[k]? := by
  obtain ⟨key, value⟩ := change
  cases value with
  | none => exact BTreeMap.get_erase index key k
  | some value => exact BTreeMap.get_insert index key k value

@[simp] theorem applyAll_nil (index : BTreeMap Bytes ν) : applyAll index [] = index := rfl

theorem applyAll_cons (index : BTreeMap Bytes ν) (change : Change ν) (changes : List (Change ν)) :
    applyAll index (change :: changes) = applyAll (step index change) changes := rfl

/-- A key no change names keeps its value. -/
theorem get_applyAll_of_notMem {index : BTreeMap Bytes ν} {changes : List (Change ν)} {k : Bytes}
    (h : k ∉ changes.map Prod.fst) : (applyAll index changes)[k]? = index[k]? := by
  induction changes generalizing index with
  | nil => rfl
  | cons change changes ih =>
      simp only [List.map_cons, List.mem_cons, not_or] at h
      rw [applyAll_cons, ih h.2, get_step, if_neg (Ne.symm h.1)]

/-- A key that one change names takes that change's value. -/
theorem get_applyAll_of_mem {index : BTreeMap Bytes ν} {changes : List (Change ν)}
    (hnodup : (changes.map Prod.fst).Nodup) {change : Change ν} (hmem : change ∈ changes) :
    (applyAll index changes)[change.1]? = change.2 := by
  induction changes generalizing index with
  | nil => cases hmem
  | cons head changes ih =>
      simp only [List.map_cons, List.nodup_cons] at hnodup
      rw [applyAll_cons]
      rcases List.mem_cons.mp hmem with rfl | hmem
      · rw [get_applyAll_of_notMem hnodup.1, get_step, if_pos rfl]
      · exact ih hnodup.2 hmem

theorem apply_eq_ok [Postcard ν] {index index' : BTreeMap Bytes ν} {changes : List (Change ν)}
    (h : apply index changes = .ok index') : index' = applyAll index changes := by
  unfold apply at h
  split at h
  · cases h
  · exact (Except.ok.inj h).symm

end

end Index

end Lait.Replica
