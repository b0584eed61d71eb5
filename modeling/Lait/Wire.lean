import Lait.Host
import Lait.OrderedMap

/-!
# Self-delimiting wire encodings

A `Wire α` writes a value as bytes and reads it back off the front of a longer
string, and carries the law that says so.  A structured value is written as its
parts in order, so a wire for it is put together from wires for its parts and
its round trip needs no proof of its own.

The primitives are those of a compact binary format: a variable-length integer
takes seven bits a byte, lowest first; a signed one is folded onto the naturals
by alternating signs; text, lists and maps carry their length in front; an
alternative carries its tag.

`Wire.postcard` turns a wire into a codec of the whole string.
-/

namespace Lait

/-- An encoding that knows where it ends. -/
structure Wire (α : Type) where
  put : α → List UInt8
  get : List UInt8 → Option (α × List UInt8)
  get_put : ∀ a rest, get (put a ++ rest) = some (a, rest)

namespace Wire

variable {α β γ : Type}

/-- No two values share an encoding. -/
theorem put_injective (w : Wire α) : Function.Injective w.put := by
  intro a b h
  have ha := w.get_put a []
  rw [h, w.get_put b []] at ha
  exact (Prod.mk.inj (Option.some.inj ha)).1.symm

/-! ## Integers -/

/-- Write an integer, seven bits a byte; `fuel` bounds the number of bytes. -/
def putNat : ℕ → ℕ → List UInt8
  | 0, n => [UInt8.ofNat n]
  | fuel + 1, n =>
      if n < 128 then [UInt8.ofNat n] else UInt8.ofNat (n % 128 + 128) :: putNat fuel (n / 128)

/-- Read an integer up to its first byte without a continuation bit. -/
def getNat : List UInt8 → Option (ℕ × List UInt8)
  | [] => none
  | b :: rest =>
      if b.toNat < 128 then some (b.toNat, rest)
      else
        match getNat rest with
        | some (hi, rest) => some (b.toNat - 128 + 128 * hi, rest)
        | none => none

theorem getNat_putNat {fuel n : ℕ} (h : n ≤ fuel) (rest : List UInt8) :
    getNat (putNat fuel n ++ rest) = some (n, rest) := by
  induction fuel generalizing n with
  | zero =>
      obtain rfl : n = 0 := Nat.le_zero.mp h
      rfl
  | succ fuel ih =>
      unfold putNat
      split
      case isTrue hn =>
        have hbyte : (UInt8.ofNat n).toNat = n := by
          rw [UInt8.toNat_ofNat']
          omega
        show getNat (UInt8.ofNat n :: rest) = _
        unfold getNat
        rw [hbyte, if_pos hn]
      case isFalse hn =>
        -- The first byte holds the low seven bits, the rest what is above them.
        have hbyte : (UInt8.ofNat (n % 128 + 128)).toNat = n % 128 + 128 := by
          rw [UInt8.toNat_ofNat']
          omega
        have hrest : getNat (putNat fuel (n / 128) ++ rest) = some (n / 128, rest) :=
          ih (by omega)
        show getNat (UInt8.ofNat (n % 128 + 128) :: (putNat fuel (n / 128) ++ rest)) = _
        unfold getNat
        rw [hbyte, if_neg (by omega), hrest]
        show some (n % 128 + 128 - 128 + 128 * (n / 128), rest) = some (n, rest)
        congr 2
        omega

/-- A natural number, as a variable-length integer. -/
def nat : Wire ℕ where
  put n := putNat n n
  get := getNat
  get_put _ rest := getNat_putNat le_rfl rest

/-- A number of at most `7 * k` bits takes at most `k` bytes. -/
theorem length_putNat_le {fuel n k : ℕ} (hk : 0 < k) (h : n < 128 ^ k) :
    (putNat fuel n).length ≤ k := by
  induction fuel generalizing n k with
  | zero => exact hk
  | succ fuel ih =>
      rw [putNat]
      split
      case isTrue => exact hk
      case isFalse hn =>
          cases k with
          | zero => cases hk
          | succ k =>
              rw [List.length_cons, Nat.succ_le_succ_iff]
              rw [pow_succ] at h
              refine ih (Nat.pos_of_ne_zero ?_) (Nat.div_lt_of_lt_mul (by omega))
              rintro rfl
              exact hn (by omega)

theorem length_put_nat_le {n k : ℕ} (hk : 0 < k) (h : n < 128 ^ k) : (nat.put n).length ≤ k :=
  length_putNat_le hk h

/-! ## Putting wires together -/

/-- A value seen through another type. -/
def iso (w : Wire β) (f : α → β) (g : β → α) (h : ∀ a, g (f a) = a) : Wire α where
  put a := w.put (f a)
  get s := (w.get s).map fun r => (g r.1, r.2)
  get_put a rest := by rw [w.get_put, Option.map_some, h]

/-- The only value of a type with one. -/
def unit : Wire Unit where
  put _ := []
  get s := some ((), s)
  get_put _ _ := rfl

/-- One value after another. -/
def pair (w : Wire α) (w' : Wire β) : Wire (α × β) where
  put p := w.put p.1 ++ w'.put p.2
  get s :=
    match w.get s with
    | some (a, s) => (w'.get s).map fun r => ((a, r.1), r.2)
    | none => none
  get_put p rest := by
    rw [List.append_assoc, w.get_put]
    show (w'.get (w'.put p.2 ++ rest)).map _ = _
    rw [w'.get_put]
    rfl

/-- One of two alternatives, tagged. -/
def sum (w : Wire α) (w' : Wire β) : Wire (α ⊕ β) where
  put
    | .inl a => 0 :: w.put a
    | .inr b => 1 :: w'.put b
  get
    | 0 :: s => (w.get s).map fun r => (.inl r.1, r.2)
    | 1 :: s => (w'.get s).map fun r => (.inr r.1, r.2)
    | _ => none
  get_put v rest := by
    cases v with
    | inl a =>
        show (w.get (w.put a ++ rest)).map _ = _
        rw [w.get_put]
        rfl
    | inr b =>
        show (w'.get (w'.put b ++ rest)).map _ = _
        rw [w'.get_put]
        rfl

/-- A value that may be absent. -/
def option (w : Wire α) : Wire (Option α) :=
  iso (sum unit w)
    (fun | none => .inl () | some a => .inr a)
    (fun | .inl () => none | .inr a => some a)
    (fun a => by cases a <;> rfl)

/-- Read a given number of values. -/
def getMany (w : Wire α) : ℕ → List UInt8 → Option (List α × List UInt8)
  | 0, s => some ([], s)
  | count + 1, s =>
      match w.get s with
      | some (a, s) => (getMany w count s).map fun r => (a :: r.1, r.2)
      | none => none

theorem getMany_flatMap (w : Wire α) (l : List α) (rest : List UInt8) :
    getMany w l.length (l.flatMap w.put ++ rest) = some (l, rest) := by
  induction l with
  | nil => rfl
  | cons a l ih =>
      rw [List.flatMap_cons, List.append_assoc, List.length_cons]
      unfold getMany
      rw [w.get_put]
      show (getMany w l.length (l.flatMap w.put ++ rest)).map _ = _
      rw [ih]
      rfl

/-- A list, its length in front. -/
def list (w : Wire α) : Wire (List α) where
  put l := nat.put l.length ++ l.flatMap w.put
  get s :=
    match nat.get s with
    | some (count, s) => getMany w count s
    | none => none
  get_put l rest := by
    rw [List.append_assoc, nat.get_put]
    exact getMany_flatMap w l rest

theorem length_getMany {w : Wire α} {count : ℕ} {s rest : List UInt8} {l : List α}
    (h : getMany w count s = some (l, rest)) : l.length = count := by
  induction count generalizing s l with
  | zero =>
      cases h
      rfl
  | succ count ih =>
      rw [getMany] at h
      split at h
      case h_1 a s' _ =>
          obtain ⟨⟨l', rest'⟩, hl', heq⟩ := Option.map_eq_some_iff.mp h
          cases heq
          rw [List.length_cons, ih hl']
      case h_2 => cases h

/-- A list of a fixed length, without it. -/
def tuple (w : Wire α) (count : ℕ) : Wire {l : List α // l.length = count} where
  put l := l.1.flatMap w.put
  get s :=
    match h : getMany w count s with
    | some (l, s) => some (⟨l, length_getMany h⟩, s)
    | none => none
  get_put l rest := by
    obtain ⟨l, rfl⟩ := l
    have h := getMany_flatMap w l rest
    split
    case h_1 h' =>
        rw [h] at h'
        cases h'
        rfl
    case h_2 h' =>
        rw [h] at h'
        cases h'

/-- One byte as it is. -/
def byte : Wire UInt8 where
  put b := [b]
  get
    | b :: s => some (b, s)
    | [] => none
  get_put _ _ := rfl

/-- A `u64`. -/
def u64 : Wire UInt64 := iso nat UInt64.toNat UInt64.ofNat fun _ => UInt64.ofNat_toNat

/-- A `[u8; N]`. -/
def byteArray (count : ℕ) : Wire {b : Bytes // b.length = count} :=
  iso (tuple byte count) (fun b => ⟨b.1.data, b.2⟩) (fun l => ⟨⟨l.1⟩, l.2⟩) fun _ => rfl

/-- A byte string, its length in front. -/
def bytes : Wire Bytes := iso (list byte) Bytes.data Bytes.mk fun _ => rfl

/-- A flag. -/
def bool : Wire Bool :=
  iso byte (fun b => if b then 1 else 0) (fun b => b = 1) (fun b => by cases b <;> rfl)

/-- A signed integer, folded onto the naturals by alternating signs. -/
def int : Wire ℤ :=
  iso nat Equiv.intEquivNat Equiv.intEquivNat.symm (Equiv.symm_apply_apply _)

/-! ## Maps -/

/-- A map with the given entries, the last one for a key winning. -/
def ofEntries {κ ν : Type} [LinearOrder κ] (entries : List (κ × ν)) : BTreeMap κ ν :=
  entries.foldl (fun m entry => m.insert entry.1 entry.2) ∅

theorem ofEntries_toList {κ ν : Type} [LinearOrder κ] (m : BTreeMap κ ν) :
    ofEntries m.toList = m := by
  unfold ofEntries
  rw [BTreeMap.foldl_insert_eq_overlay]
  apply BTreeMap.ext
  intro k
  rw [BTreeMap.get_overlay, BTreeMap.get_map, BTreeMap.get_empty]
  cases m[k]? <;> rfl

/-- A map, as its entries in key order. -/
def map {κ ν : Type} [LinearOrder κ] (w : Wire κ) (w' : Wire ν) : Wire (BTreeMap κ ν) :=
  iso (list (pair w w')) (fun m => m.toList) ofEntries ofEntries_toList

/-! ## Codecs -/

/-- The codec of a whole string. -/
@[reducible] def postcard (w : Wire α) : Postcard α where
  toStdvec a := ⟨w.put a⟩
  fromBytes s :=
    match w.get s.data with
    | some (a, []) => some a
    | _ => none

/-- What is written is read back. -/
theorem postcard_roundTrip (w : Wire α) (a : α) :
    w.postcard.fromBytes (w.postcard.toStdvec a) = some a := by
  show (match w.get (w.put a) with
    | some (a, []) => some a
    | _ => none) = some a
  have h := w.get_put a []
  rw [List.append_nil] at h
  rw [h]

end Wire

/-- A codec that reads back what it writes. -/
def Postcard.RoundTrips (α : Type) [Postcard α] : Prop :=
  ∀ a : α, Postcard.fromBytes (Postcard.toStdvec a) = some a

theorem Postcard.RoundTrips.injective {α : Type} [Postcard α] (h : Postcard.RoundTrips α) :
    Function.Injective (Postcard.toStdvec : α → Bytes) := by
  intro a b hab
  have ha := h a
  rw [hab, h b] at ha
  exact (Option.some.inj ha).symm

end Lait
