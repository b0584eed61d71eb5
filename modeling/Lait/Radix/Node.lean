import Lait.Fallible
import Lait.Wire
import Lait.Radix.Digits

/-!
# The nodes of the journal index

The index is a radix tree over 32-byte keys, sixteen ways at each nibble.  A leaf holds
entries, a branch refers to its children by node hash and entry count, and a node's
address is the hash of its encoding.

Keys and hashes are exactly 32 bytes here, as in the source: a path ends after
`MAX_DEPTH` nibbles because a key does (`isRadix`), and a branch fits a node because
its references have a bounded length (`length_encode_branch`).  The hash is a parameter
about which nothing is assumed.

An encoding is canonical when it is the one its node has, so a node that is decoded is
addressed by one string only (`decodeCanonical_eq_ok`).
-/

namespace Lait.Radix

/-- A `[u8; 32]`. -/
abbrev Bytes32 := {b : Bytes // b.length = 32}

/-- The index key: a hash of the caller's logical key. -/
abbrev IndexKey := Bytes32

/-- Nibbles in a key, and the maximum depth of any path. -/
def MAX_DEPTH : ℕ := 64
/-- Maximum entries in one leaf before it must split. -/
def MAX_LEAF_ENTRIES : ℕ := 256
/-- Maximum encoded size of any node. -/
def MAX_NODE_BYTES : ℕ := 1024 * 1024
/-- Maximum encoded size of one entry's value. -/
def MAX_VALUE_BYTES : ℕ := 64 * 1024
/-- Branching factor: one nibble a level. -/
def FANOUT : ℕ := 16

/-- One entry: a key and its opaque value. -/
@[ext] structure IndexEntry where
  key : IndexKey
  value : Bytes
  deriving DecidableEq

/-- A reference to a child subtree: its node hash and how many entries it holds. -/
structure ChildRef where
  hash : Bytes32
  count : UInt64
  deriving DecidableEq

/-- A node: sorted unique entries, or up to sixteen children, one for each nibble. -/
inductive IndexNode
  | leaf (entries : List IndexEntry)
  | branch (children : Fin FANOUT → Option ChildRef)
  deriving DecidableEq

/-- Why an index operation failed. -/
inductive Failure
  /-- A node did not decode, or re-encoding it did not reproduce its bytes. -/
  | nonCanonical
  /-- A node, value, or path exceeded a protocol bound. -/
  | bounds
  /-- Entries out of order, duplicated, or misplaced for their prefix. -/
  | order
  /-- A declared child count disagreed with the subtree it names. -/
  | countMismatch
  /-- A node named by a parent could not be read. -/
  | missingNode (hash : Bytes32)
  /-- The encoding is legal but not the canonical one. -/
  | notCanonicalShape
  deriving DecidableEq

/-- Where nodes are read from. -/
abbrev NodeSource := Bytes32 → Option Bytes

/-! ## Nibbles -/

/-- The high nibble of a byte, at an even depth, or the low one. -/
def nibbleOf (byte : UInt8) (depth : ℕ) : Fin FANOUT :=
  if depth % 2 = 0 then ⟨byte.toNat / 16, Nat.div_lt_of_lt_mul byte.toNat_lt⟩
  else ⟨byte.toNat % 16, Nat.mod_lt _ (by decide)⟩

theorem val_nibbleOf (byte : UInt8) (depth : ℕ) :
    (nibbleOf byte depth).val = if depth % 2 = 0 then byte.toNat / 16 else byte.toNat % 16 := by
  unfold nibbleOf
  split <;> rfl

/-- The nibble of a key at a depth. -/
def nibble (key : IndexKey) (depth : ℕ) : Except Failure (Fin FANOUT) :=
  match key.1.data[depth / 2]? with
  | some byte => .ok (nibbleOf byte depth)
  | none => .error .bounds

/-- The nibble of a key at a depth, zero past its end. -/
def digit (key : IndexKey) (depth : ℕ) : Fin FANOUT := nibbleOf (key.1.data.getD (depth / 2) 0) depth

theorem nibble_eq (key : IndexKey) {depth : ℕ} (h : depth < MAX_DEPTH) :
    nibble key depth = .ok (digit key depth) := by
  have hlen : key.1.data.length = 32 := key.2
  have hlt : depth / 2 < key.1.data.length := by
    unfold MAX_DEPTH at h
    omega
  rw [nibble, digit, List.getElem?_eq_getElem hlt, List.getD_eq_getElem _ _ hlt]

/-- Two bytes with the same nibbles are the same. -/
theorem byte_ext {x y : UInt8} (hhigh : x.toNat / 16 = y.toNat / 16)
    (hlow : x.toNat % 16 = y.toNat % 16) : x = y := UInt8.toNat_inj.mp (by omega)

/-- Byte strings are ordered by their first difference. -/
theorem lt_of_first_difference {l l' : List UInt8} {i : ℕ} (hi : i < l.length) (hi' : i < l'.length)
    (hbefore : ∀ j (h : j < i), l[j] = l'[j]) (hat : l[i] < l'[i]) : compare l l' = .lt := by
  induction i generalizing l l' with
  | zero =>
      cases l with
      | nil => cases hi
      | cons x l =>
          cases l' with
          | nil => cases hi'
          | cons y l' =>
              have hlt : compare x y = .lt := Std.LawfulLTCmp.eq_lt_iff_lt.mpr hat
              show List.compareLex compare (x :: l) (y :: l') = .lt
              rw [List.compareLex_cons_cons, hlt]
              rfl
  | succ i ih =>
      cases l with
      | nil => cases hi
      | cons x l =>
          cases l' with
          | nil => cases hi'
          | cons y l' =>
              obtain rfl : x = y := hbefore 0 (Nat.succ_pos i)
              have hrest := ih (Nat.lt_of_succ_lt_succ hi) (Nat.lt_of_succ_lt_succ hi')
                (fun j hj => hbefore (j + 1) (Nat.succ_lt_succ hj)) hat
              show List.compareLex compare (x :: l) (x :: l') = .lt
              rw [List.compareLex_cons_cons, show compare x x = .eq from Std.ReflCmp.compare_self]
              exact hrest

/-- **A key is its nibbles**, ordered by the first difference. -/
theorem isRadix : IsRadix digit MAX_DEPTH := by
  -- the two nibbles of a byte
  have hnibbles : ∀ (a b : IndexKey) (j : ℕ), digit a (2 * j) = digit b (2 * j) →
      digit a (2 * j + 1) = digit b (2 * j + 1) → a.1.data.getD j 0 = b.1.data.getD j 0 := by
    intro a b j hhigh hlow
    simp only [digit, nibbleOf, Nat.mul_mod_right, if_true, Nat.mul_div_right j (by decide : 0 < 2),
      Fin.mk.injEq] at hhigh
    have hodd : (2 * j + 1) % 2 ≠ 0 := by omega
    have hhalf : (2 * j + 1) / 2 = j := by omega
    simp only [digit, nibbleOf, hodd, if_false, hhalf, Fin.mk.injEq] at hlow
    exact byte_ext hhigh hlow
  constructor
  · intro a b depth hdepth hbefore hat
    have hlen : a.1.data.length = 32 := a.2
    have hlen' : b.1.data.length = 32 := b.2
    unfold MAX_DEPTH at hdepth
    refine lt_of_first_difference (i := depth / 2) (by omega) (by omega) (fun j hj => ?_) ?_
    · have := hnibbles a b j (hbefore _ (by omega)) (hbefore _ (by omega))
      rwa [List.getD_eq_getElem _ _ (by omega), List.getD_eq_getElem _ _ (by omega)] at this
    · rw [UInt8.lt_iff_toNat_lt]
      rw [Fin.lt_def, digit, digit, val_nibbleOf, val_nibbleOf,
        List.getD_eq_getElem _ _ (by omega), List.getD_eq_getElem _ _ (by omega)] at hat
      by_cases heven : depth % 2 = 0
      · rw [if_pos heven, if_pos heven] at hat
        omega
      · -- the high nibbles agree
        have hhigh := congrArg Fin.val (hbefore (2 * (depth / 2)) (by omega))
        rw [digit, digit, val_nibbleOf, val_nibbleOf, if_pos (Nat.mul_mod_right _ _),
          if_pos (Nat.mul_mod_right _ _), Nat.mul_div_right _ (by decide),
          List.getD_eq_getElem _ _ (by omega), List.getD_eq_getElem _ _ (by omega)] at hhigh
        rw [if_neg heven, if_neg heven] at hat
        omega
  · intro a b h
    have hlen : a.1.data.length = 32 := a.2
    have hlen' : b.1.data.length = 32 := b.2
    refine Subtype.ext (Bytes.ext (List.ext_getElem (by omega) fun j hj hj' => ?_))
    have := hnibbles a b j (h _ (by unfold MAX_DEPTH; omega)) (h _ (by unfold MAX_DEPTH; omega))
    rwa [List.getD_eq_getElem _ _ hj, List.getD_eq_getElem _ _ hj'] at this

/-! ## Encodings -/

section Encoding

/-- An entry on the wire. -/
def entryWire : Wire IndexEntry :=
  Wire.iso (Wire.pair (Wire.byteArray 32) Wire.bytes) (fun e => (e.key, e.value))
    (fun p => ⟨p.1, p.2⟩) fun _ => rfl

/-- A reference on the wire. -/
def childWire : Wire ChildRef :=
  Wire.iso (Wire.pair (Wire.byteArray 32) Wire.u64) (fun c => (c.hash, c.count))
    (fun p => ⟨p.1, p.2⟩) fun _ => rfl

/-- The sixteen slots on the wire. -/
def childrenWire : Wire (Fin FANOUT → Option ChildRef) :=
  Wire.iso (Wire.tuple (Wire.option childWire) FANOUT)
    (fun children => ⟨List.ofFn children, List.length_ofFn⟩)
    (fun slots s => slots.1.get ⟨s, slots.2.symm ▸ s.2⟩) fun children => by
      funext s
      exact List.getElem_ofFn _

/-- A node on the wire. -/
def nodeWire : Wire IndexNode :=
  Wire.iso (Wire.sum (Wire.list entryWire) childrenWire)
    (fun | .leaf entries => .inl entries | .branch children => .inr children)
    (fun | .inl entries => .leaf entries | .inr children => .branch children)
    fun node => by cases node <;> rfl

/-- A node's encoding. -/
def IndexNode.encode (node : IndexNode) : Bytes := ⟨nodeWire.put node⟩

/-- Decode, insisting the encoding was canonical. -/
def decodeCanonical (bytes : Bytes) : Except Failure IndexNode :=
  if MAX_NODE_BYTES < bytes.length then .error .bounds
  else
    match nodeWire.get bytes.data with
    | none => .error .nonCanonical
    | some (node, _) => if node.encode ≠ bytes then .error .nonCanonical else .ok node

theorem encode_injective : Function.Injective IndexNode.encode := by
  intro a b h
  exact nodeWire.put_injective (congrArg Bytes.data h)

/-- **A node decodes from its own encoding**, and from nothing else. -/
theorem decodeCanonical_eq_ok {bytes : Bytes} {node : IndexNode} :
    decodeCanonical bytes = .ok node ↔ node.encode = bytes ∧ bytes.length ≤ MAX_NODE_BYTES := by
  unfold decodeCanonical
  constructor
  · intro h
    split at h
    case isTrue => cases h
    case isFalse hlen =>
        split at h
        case h_1 => cases h
        case h_2 =>
            split at h
            case isTrue => cases h
            case isFalse heq =>
                cases h
                exact ⟨not_not.mp heq, not_lt.mp hlen⟩
  · rintro ⟨rfl, hlen⟩
    have hget : nodeWire.get node.encode.data = some (node, []) := by
      have := nodeWire.get_put node []
      rwa [List.append_nil] at this
    rw [if_neg (not_lt.mpr hlen), hget]
    exact if_neg (not_not.mpr rfl)

theorem length_childWire_le (c : ChildRef) : (childWire.put c).length ≤ 42 := by
  have hcount : (Wire.nat.put c.count.toNat).length ≤ 10 :=
    Wire.length_put_nat_le (by decide) (c.count.toNat_lt.trans (by decide))
  have hhash : (c.hash.1.data.flatMap Wire.byte.put).length = 32 := by
    have hlen : c.hash.1.data.length = 32 := c.hash.2
    simp [Wire.byte, hlen]
  show (c.hash.1.data.flatMap Wire.byte.put ++ Wire.nat.put c.count.toNat).length ≤ 42
  rw [List.length_append]
  omega

/-- A branch fits a node. -/
theorem length_encode_branch (children : Fin FANOUT → Option ChildRef) :
    (IndexNode.branch children).encode.length ≤ MAX_NODE_BYTES := by
  have hslot : ∀ slot : Option ChildRef, ((Wire.option childWire).put slot).length ≤ 43 := by
    intro slot
    cases slot with
    | none => exact Nat.le_add_left _ _
    | some c => exact Nat.succ_le_succ (length_childWire_le c)
  have hslots : ((List.ofFn children).flatMap (Wire.option childWire).put).length ≤ 16 * 43 := by
    rw [List.length_flatMap]
    refine (List.sum_le_card_nsmul _ 43 ?_).trans ?_
    · intro n hn
      obtain ⟨slot, -, rfl⟩ := List.mem_map.mp hn
      exact hslot slot
    · rw [List.length_map, List.length_ofFn]
      exact le_rfl
  show (1 :: (List.ofFn children).flatMap (Wire.option childWire).put).length ≤ MAX_NODE_BYTES
  rw [List.length_cons]
  exact (Nat.succ_le_succ hslots).trans (by decide)

/-- So does a leaf of one entry. -/
theorem length_encode_singleton {e : IndexEntry} (h : e.value.length ≤ MAX_VALUE_BYTES) :
    (IndexNode.leaf [e]).encode.length ≤ MAX_NODE_BYTES := by
  have hkey : (e.key.1.data.flatMap Wire.byte.put).length = 32 := by
    have hlen : e.key.1.data.length = 32 := e.key.2
    simp [Wire.byte, hlen]
  have hcount : (Wire.nat.put e.value.data.length).length ≤ 3 :=
    Wire.length_put_nat_le (by decide) (lt_of_le_of_lt h (by decide))
  have hvalue : (e.value.data.flatMap Wire.byte.put).length ≤ MAX_VALUE_BYTES := by
    have hlen : e.value.data.length ≤ MAX_VALUE_BYTES := h
    simpa [Wire.byte] using hlen
  show (0 :: (1 :: ((e.key.1.data.flatMap Wire.byte.put ++ (Wire.nat.put e.value.data.length ++
    e.value.data.flatMap Wire.byte.put)) ++ []))).length ≤ MAX_NODE_BYTES
  simp only [List.length_cons, List.length_append, List.length_nil]
  unfold MAX_NODE_BYTES
  unfold MAX_VALUE_BYTES at hvalue
  omega

end Encoding

/-- `node_hash`: the store's content address of an encoded node. -/
class NodeHash where
  nodeHash : Bytes → Bytes32

export NodeHash (nodeHash)

/-- Every one of the nodes is read at its address. -/
def Holds [NodeHash] (source : NodeSource) (nodes : List Bytes) : Prop :=
  ∀ bytes ∈ nodes, source (nodeHash bytes) = some bytes

section Holds

variable [NodeHash] {source : NodeSource} {nodes nodes' : List Bytes}

theorem holds_append : Holds source (nodes ++ nodes') ↔ Holds source nodes ∧ Holds source nodes' :=
  List.forall_mem_append

theorem Holds.of_subset (h : Holds source nodes') (hsub : nodes ⊆ nodes') : Holds source nodes :=
  fun bytes hbytes => h bytes (hsub hbytes)

end Holds

end Lait.Radix
