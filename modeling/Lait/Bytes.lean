import Mathlib

/-!
# Byte strings, ordered maps, hexadecimal

Everything the authority plane hashes, signs, compares or keys a map by is a
byte string: a Rust `String` is its UTF-8 bytes, and `String`, `[u8; N]` and
`Vec<u8>` are all compared bytewise.  So one type serves them all, `Bytes`,
with the lexicographic order as its only order; `Text` is the same type where
the source has a `String`.

Digests are byte strings too, of no fixed length: an injective hash into 32
bytes does not exist, and every statement that assumes one would be empty.

`BTreeMap` is `Std.ExtTreeMap` under the source's name.  A `HashMap` is the same
type: the source never lets the iteration order of one reach a result.
-/

namespace Lait

/-- A byte string. -/
@[ext] structure Bytes where
  data : List UInt8
  deriving DecidableEq

/-- A Rust `String`, as its UTF-8 bytes. -/
abbrev Text := Bytes

namespace Bytes

instance : LinearOrder Bytes where
  le a b := (compare a.data b.data).isLE
  lt a b := compare a.data b.data = .lt
  compare a b := compare a.data b.data
  le_refl a := by simp
  le_trans _ _ _ hab hbc := Std.TransCmp.isLE_trans hab hbc
  lt_iff_le_not_ge a b := by
    have hswap : compare a.data b.data = (compare b.data a.data).swap :=
      Std.OrientedOrd.eq_swap
    cases h : compare b.data a.data <;> simp [hswap, h]
  le_antisymm a b hab hba := by
    have heq := Std.OrientedCmp.isLE_antisymm hab hba
    cases a
    cases b
    simpa using heq
  le_total a b := by
    have hswap : compare b.data a.data = (compare a.data b.data).swap :=
      Std.OrientedOrd.eq_swap
    cases h : compare a.data b.data <;> simp [hswap, h]
  toDecidableLE a b := inferInstanceAs (Decidable (_ = true))
  toDecidableLT a b := inferInstanceAs (Decidable (_ = _))
  toDecidableEq := inferInstance
  compare_eq_compareOfLessAndEq a b := by
    cases a with
    | mk a =>
    cases b with
    | mk b =>
    simp only [compareOfLessAndEq, mk.injEq]
    cases h : compare a b with
    | lt => simp
    | eq => simp [Std.LawfulEqOrd.eq_of_compare h]
    | gt =>
        have hne : a ≠ b := by
          rintro rfl
          simp at h
        simp [hne]

instance : Append Bytes := ⟨fun a b => ⟨a.data ++ b.data⟩⟩

instance : Inhabited Bytes := ⟨⟨[]⟩⟩

@[simp] theorem data_append (a b : Bytes) : (a ++ b).data = a.data ++ b.data := rfl

def length (b : Bytes) : ℕ := b.data.length

/-- The empty string. -/
def empty : Bytes := ⟨[]⟩

/-- Successive `Hasher::update`s: the concatenation, with no framing. -/
def join (parts : List Bytes) : Bytes := ⟨(parts.map Bytes.data).flatten⟩

@[simp] theorem join_cons (a : Bytes) (l : List Bytes) : join (a :: l) = a ++ join l := rfl

@[simp] theorem join_append (l l' : List Bytes) : join (l ++ l') = join l ++ join l' := by
  apply Bytes.ext
  simp [join]

@[simp] theorem append_right_inj {a b b' : Bytes} : a ++ b = a ++ b' ↔ b = b' := by
  simp [Bytes.ext_iff]

@[simp] theorem append_left_inj {a b b' : Bytes} : b ++ a = b' ++ a ↔ b = b' := by
  simp [Bytes.ext_iff]

/-- A concatenation determines its pieces once their lengths are known. -/
theorem join_injective_of_lengths {l l' : List Bytes} (hjoin : join l = join l')
    (hlen : l.map length = l'.map length) : l = l' := by
  induction l generalizing l' with
  | nil => exact (List.map_eq_nil_iff.mp hlen.symm).symm
  | cons a l ih =>
      cases l' with
      | nil => simp at hlen
      | cons a' l' =>
          obtain ⟨hhead, htail⟩ := List.cons.inj hlen
          have hdata := congrArg Bytes.data hjoin
          simp only [join_cons, data_append] at hdata
          obtain ⟨ha, hl⟩ := List.append_inj hdata hhead
          rw [Bytes.ext ha, ih (Bytes.ext hl) htail]

theorem length_append (a b : Bytes) : (a ++ b).length = a.length + b.length := by
  simp [length]

/-- A concatenation is at least as long as each of its pieces. -/
theorem length_le_join {l : List Bytes} {a : Bytes} (ha : a ∈ l) : a.length ≤ (join l).length := by
  induction l with
  | nil => cases ha
  | cons b l ih =>
      rw [join_cons, length_append]
      rcases List.mem_cons.mp ha with rfl | ha
      · exact Nat.le_add_right _ _
      · exact (ih ha).trans (Nat.le_add_left _ _)

/-- The bytes of an ASCII literal. -/
def ofString (s : String) : Bytes := ⟨s.toList.map fun c => UInt8.ofNat c.toNat⟩

/-- `sort()` on a vector of strings. -/
def sort (l : List Bytes) : List Bytes := l.insertionSort (· ≤ ·)

theorem sort_perm (l : List Bytes) : (sort l).Perm l := List.perm_insertionSort _ l

theorem mem_sort {l : List Bytes} {a : Bytes} : a ∈ sort l ↔ a ∈ l := (sort_perm l).mem_iff

/-- Sorting forgets exactly the order. -/
theorem sort_eq_sort_iff {l l' : List Bytes} : sort l = sort l' ↔ l.Perm l' := by
  constructor
  · intro h
    exact (sort_perm l).symm.trans (h ▸ sort_perm l')
  · intro h
    refine List.Perm.eq_of_pairwise' (r := (· ≤ ·)) (List.pairwise_insertionSort _ l)
      (List.pairwise_insertionSort _ l') ?_
    exact (sort_perm l).trans (h.trans (sort_perm l').symm)

/-- `(n as u16).to_be_bytes()`. -/
def be16 (n : ℕ) : Bytes := ⟨[UInt8.ofNat (n / 256), UInt8.ofNat n]⟩

/-- `(n as u32).to_be_bytes()`. -/
def be32 (n : ℕ) : Bytes := be16 (n / 65536) ++ be16 n

/-- `(n as u64).to_be_bytes()`. -/
def be64 (n : ℕ) : Bytes := be32 (n / 4294967296) ++ be32 n

/-- The low bytes of a number, the lowest first: `to_le_bytes()` of that width. -/
def leBytes : ℕ → ℕ → List UInt8
  | 0, _ => []
  | width + 1, n => UInt8.ofNat (n % 256) :: leBytes width (n / 256)

/-- The number that little-endian bytes spell. -/
def leValue : List UInt8 → ℕ
  | [] => 0
  | b :: bytes => b.toNat + 256 * leValue bytes

@[simp] theorem length_leBytes (width n : ℕ) : (leBytes width n).length = width := by
  induction width generalizing n with
  | zero => rfl
  | succ width ih => rw [leBytes, List.length_cons, ih]

theorem leValue_leBytes {width n : ℕ} (h : n < 256 ^ width) : leValue (leBytes width n) = n := by
  induction width generalizing n with
  | zero =>
      rw [pow_zero, Nat.lt_one_iff] at h
      rw [h]
      rfl
  | succ width ih =>
      have hrest : n / 256 < 256 ^ width := by
        rw [pow_succ] at h
        exact Nat.div_lt_of_lt_mul (by omega)
      rw [leBytes, leValue, ih hrest, UInt8.toNat_ofNat_of_lt' (Nat.mod_lt _ (by decide))]
      exact Nat.mod_add_div n 256

theorem leBytes_leValue (bytes : List UInt8) : leBytes bytes.length (leValue bytes) = bytes := by
  induction bytes with
  | nil => rfl
  | cons b bytes ih =>
      have hb := b.toNat_lt
      have hdiv : (b.toNat + 256 * leValue bytes) / 256 = leValue bytes := by omega
      have hmod : (b.toNat + 256 * leValue bytes) % 256 = b.toNat := by omega
      rw [List.length_cons, leValue, leBytes, hdiv, hmod, ih, UInt8.ofNat_toNat]

/-- One byte of a UTF-8 scan.  The state is how many continuation bytes are
still due and the range the next one must lie in. -/
def utf8Step : Option (ℕ × UInt8 × UInt8) → UInt8 → Option (ℕ × UInt8 × UInt8)
  | none, _ => none
  | some (due + 1, lo, hi), b => if lo ≤ b ∧ b ≤ hi then some (due, 128, 191) else none
  | some (0, _, _), b =>
      if b < 128 then some (0, 128, 191)
      else if 194 ≤ b ∧ b ≤ 223 then some (1, 128, 191)
      else if b = 224 then some (2, 160, 191)
      else if b = 237 then some (2, 128, 159)
      else if 225 ≤ b ∧ b ≤ 239 then some (2, 128, 191)
      else if b = 240 then some (3, 144, 191)
      else if b = 244 then some (3, 128, 143)
      else if 241 ≤ b ∧ b ≤ 243 then some (3, 128, 191)
      else none

/-- `str::from_utf8(..).is_ok()`: shortest forms only, no surrogates, nothing
above U+10FFFF. -/
def validUtf8 (bytes : List UInt8) : Bool :=
  match bytes.foldl utf8Step (some (0, 128, 191)) with
  | some (0, _, _) => true
  | _ => false

/-- The UTF-8 encodings of the characters `str::trim` removes. -/
def whitespace : List (List UInt8) :=
  [[9], [10], [11], [12], [13], [32], [194, 133], [194, 160], [225, 154, 128]] ++
    (List.range 11).map (fun i => [226, 128, UInt8.ofNat (128 + i)]) ++
    [[226, 128, 168], [226, 128, 169], [226, 128, 175], [226, 129, 159], [227, 128, 128]]

/-- Drop leading whitespace characters; `fuel` bounds their number. -/
def dropSpaces (space : List (List UInt8)) : ℕ → List UInt8 → List UInt8
  | 0, s => s
  | fuel + 1, s =>
      match space.find? (·.isPrefixOf s) with
      | some c => dropSpaces space fuel (s.drop c.length)
      | none => s

/-- `str::trim`. -/
def trim (s : Text) : Text :=
  let front := dropSpaces whitespace s.length s.data
  ⟨(dropSpaces (whitespace.map List.reverse) s.length front.reverse).reverse⟩

/-! ## Hexadecimal -/

/-- `u8::is_ascii_hexdigit`. -/
def isAsciiHexdigit (b : UInt8) : Bool :=
  (48 ≤ b && b ≤ 57) || (65 ≤ b && b ≤ 70) || (97 ≤ b && b ≤ 102)

/-- `u8::to_ascii_lowercase`. -/
def toAsciiLowercase (b : UInt8) : UInt8 := if 65 ≤ b && b ≤ 90 then b + 32 else b

/-- The value of one hexadecimal digit, either case. -/
def hexDigit (b : UInt8) : UInt8 :=
  if b ≤ 57 then b - 48 else if b ≤ 70 then b - 55 else b - 87

/-- `HEXLOWER_PERMISSIVE.decode` on a string of hexadecimal digits. -/
def hexDecode : List UInt8 → List UInt8
  | hi :: lo :: rest => (hexDigit hi * 16 + hexDigit lo) :: hexDecode rest
  | _ => []

/-- The lowercase digit of a value below sixteen. -/
def hexChar (v : UInt8) : UInt8 := if v < 10 then v + 48 else v + 87

/-- `HEXLOWER.encode`. -/
def hexEncode (b : Bytes) : Text := ⟨b.data.flatMap fun v => [hexChar (v / 16), hexChar (v % 16)]⟩

theorem length_hexEncode (b : Bytes) : (hexEncode b).length = 2 * b.length := by
  simp [hexEncode, length, List.length_flatMap, Nat.mul_comm]

theorem hexDecode_hexEncode (b : Bytes) : hexDecode (hexEncode b).data = b.data := by
  obtain ⟨data⟩ := b
  simp only [hexEncode]
  induction data with
  | nil => rfl
  | cons v data ih =>
      simp only [List.flatMap_cons, List.cons_append, List.nil_append, hexDecode, ih]
      congr 1
      revert v
      decide +kernel

theorem hexEncode_injective : Function.Injective hexEncode := by
  intro a b h
  have hdata := congrArg (fun s => hexDecode s.data) h
  simp only [hexDecode_hexEncode] at hdata
  exact Bytes.ext hdata

/-- The raw 32 bytes of a 64-digit hexadecimal key string, or `none` when the
string is not one. -/
def hex32 (s : Text) : Option Bytes :=
  if s.length = 64 ∧ s.data.all isAsciiHexdigit then some ⟨hexDecode s.data⟩ else none

/-- What every digit satisfies, every character of a spelling does. -/
theorem all_hexEncode {p : UInt8 → Bool}
    (h : ∀ v : UInt8, (p (hexChar (v / 16)) && p (hexChar (v % 16))) = true) (b : Bytes) :
    (hexEncode b).data.all p = true := by
  rw [List.all_eq_true]
  intro digit hdigit
  obtain ⟨v, -, hv⟩ := List.mem_flatMap.mp hdigit
  have hv' := h v
  rw [Bool.and_eq_true] at hv'
  rcases List.mem_cons.mp hv with rfl | hv
  · exact hv'.1
  · rw [List.mem_singleton.mp hv]
    exact hv'.2

theorem hex32_hexEncode {b : Bytes} (h : b.length = 32) : hex32 (hexEncode b) = some b := by
  have hdigits := all_hexEncode (by decide +kernel : ∀ v : UInt8,
    (isAsciiHexdigit (hexChar (v / 16)) && isAsciiHexdigit (hexChar (v % 16))) = true) b
  unfold hex32
  rw [if_pos ⟨by rw [length_hexEncode, h], hdigits⟩, hexDecode_hexEncode]

end Bytes

/-! ## Ordered maps -/

/-- A linear order compares transitively. -/
instance transOrd {κ : Type*} [LinearOrder κ] : Std.TransOrd κ := inferInstance

instance Bytes.lawfulBEq : LawfulBEq Bytes := inferInstance

instance Bytes.isTransLe : IsTrans Bytes fun a b => a ≤ b := inferInstance

instance Bytes.antisymmLe : Std.Antisymm fun a b : Bytes => a ≤ b := inferInstance

/-- A Rust `BTreeMap`. -/
abbrev BTreeMap (κ ν : Type*) [LinearOrder κ] := Std.ExtTreeMap κ ν compare

namespace BTreeMap

variable {κ ν : Type*} [LinearOrder κ]

theorem ext {m m' : BTreeMap κ ν} (h : ∀ k : κ, m[k]? = m'[k]?) : m = m' :=
  Std.ExtTreeMap.ext_getElem? h

@[simp] theorem get_empty (k : κ) : (∅ : BTreeMap κ ν)[k]? = none :=
  Std.ExtTreeMap.getElem?_empty

theorem get_insert (m : BTreeMap κ ν) (k a : κ) (v : ν) :
    (m.insert k v)[a]? = if k = a then some v else m[a]? := by
  rw [Std.ExtTreeMap.getElem?_insert]
  simp only [compare_eq_iff_eq]

theorem get_erase (m : BTreeMap κ ν) (k a : κ) :
    (m.erase k)[a]? = if k = a then none else m[a]? := by
  rw [Std.ExtTreeMap.getElem?_erase]
  simp only [compare_eq_iff_eq]

theorem contains_iff {m : BTreeMap κ ν} {k : κ} :
    m.contains k = true ↔ ∃ v, m[k]? = some v := by
  rw [Std.ExtTreeMap.contains_eq_isSome_getElem?, Option.isSome_iff_exists]

theorem mem_keys_iff {m : BTreeMap κ ν} {k : κ} : k ∈ m.keys ↔ ∃ v, m[k]? = some v := by
  rw [Std.ExtTreeMap.mem_keys, Std.ExtTreeMap.mem_iff_isSome_getElem?,
    Option.isSome_iff_exists]

theorem mem_toList_iff {m : BTreeMap κ ν} {k : κ} {v : ν} :
    (k, v) ∈ m.toList ↔ m[k]? = some v :=
  Std.ExtTreeMap.mem_toList_iff_getElem?_eq_some

/-- `values()`, in key order. -/
def valuesOf (m : BTreeMap κ ν) : List ν := m.toList.map Prod.snd

theorem mem_valuesOf {m : BTreeMap κ ν} {v : ν} :
    v ∈ valuesOf m ↔ ∃ k : κ, m[k]? = some v := by
  simp only [valuesOf, List.mem_map, Prod.exists, mem_toList_iff, exists_eq_right]

end BTreeMap

end Lait
