import Lait.Wire
import Lait.Ceremony.Redistribution

/-!
# A small curve

The field of 65537 elements over itself, with 1 as base point: small enough to
compute in, and large enough to tell all 16-bit indices apart.  Scalars and points
are written on 32 bytes, packages in the order of their fields.
-/

namespace Lait.Ceremony

open Wire

/-- Scalars, and points. -/
abbrev Small := ZMod 65537

instance prime : Fact (Nat.Prime 65537) := ⟨by norm_num⟩

namespace Small

/-- A residue on 32 bytes, the highest first. -/
def put (s : Small) : Bytes :=
  ⟨List.replicate 29 0 ++
    [UInt8.ofNat (s.val / 65536), UInt8.ofNat (s.val / 256), UInt8.ofNat s.val]⟩

/-- The number the last three of 32 bytes write. -/
def value (b : Bytes) : Option ℕ :=
  match b.data.drop 29 with
  | [x, y, z] => some (x.toNat * 65536 + y.toNat * 256 + z.toNat)
  | _ => none

/-- Read a residue, which is written one way. -/
def get (b : Bytes) : Option Small :=
  match value b with
  | some n => if n < 65537 then some n else none
  | none => none

theorem value_put (s : Small) : value (put s) = some s.val := by
  have hlt := ZMod.val_lt s
  show some ((UInt8.ofNat (s.val / 65536)).toNat * 65536 + (UInt8.ofNat (s.val / 256)).toNat * 256
    + (UInt8.ofNat s.val).toNat) = some s.val
  simp only [UInt8.toNat_ofNat']
  congr 1
  omega

theorem get_put (s : Small) : get (put s) = some s := by
  unfold get
  rw [value_put]
  simp [ZMod.val_lt s]

/-- A residue, as its number. -/
def wire : Wire Small := iso nat ZMod.val (fun n => (n : Small)) ZMod.natCast_zmod_val

/-- A key package, field after field. -/
def keyWire : Wire (KeyPackage Small Small) :=
  iso (pair nat (pair wire (pair wire (pair wire nat))))
    (fun kp => (kp.identifier, kp.signingShare, kp.verifyingShare, kp.verifyingKey, kp.minSigners))
    (fun p => ⟨p.1, p.2.1, p.2.2.1, p.2.2.2.1, p.2.2.2.2⟩) fun _ => rfl

/-- A public-key package, field after field. -/
def publicWire : Wire (PublicKeyPackage Small) :=
  iso (pair (map nat wire) (pair wire (option nat)))
    (fun pkp => (pkp.verifyingShares, pkp.verifyingKey, pkp.minSigners))
    (fun p => ⟨p.1, p.2.1, p.2.2⟩) fun _ => rfl

/-- Whether no element of a package is the identity. -/
def proper (pkp : PublicKeyPackage Small) : Bool :=
  pkp.verifyingKey ≠ 0 && (BTreeMap.valuesOf pkp.verifyingShares).all (· ≠ 0)

theorem proper_iff {pkp : PublicKeyPackage Small} : proper pkp = true ↔ pkp.Proper := by
  unfold proper PublicKeyPackage.Proper
  simp only [Bool.and_eq_true, decide_eq_true_eq, List.all_eq_true, BTreeMap.mem_valuesOf]
  constructor
  · rintro ⟨hkey, hall⟩
    exact ⟨hkey, fun index share h => hall share ⟨index, h⟩⟩
  · rintro ⟨hkey, hall⟩
    exact ⟨hkey, fun share ⟨index, h⟩ => hall index share h⟩

instance : ScalarBytes Small where
  toBytes := put
  fromCanonicalBytes := get
  fromBytesModOrderWide b := ((value b).getD 0 : ℕ)

instance : PointBytes Small where
  base := 1
  compress := put
  decompress := get

instance : Frost Small Small where
  serializeElement p := if p = 0 then none else some (put p)
  deserializeElement b := (get b).filter (· ≠ 0)
  serializeShare := put
  deserializeShare := get
  serializeKey kp :=
    if kp.verifyingShare = 0 ∨ kp.verifyingKey = 0 then none
    else some (keyWire.postcard.toStdvec kp)
  deserializeKey := keyWire.postcard.fromBytes
  serializePublic pkp := if proper pkp then some (publicWire.postcard.toStdvec pkp) else none
  deserializePublic b := (publicWire.postcard.fromBytes b).filter proper

theorem lawful : LawfulCurve Small Small where
  length_toBytes _ := rfl
  fromCanonicalBytes_toBytes := get_put
  length_compress _ := rfl
  decompress_compress := get_put
  serializeElement_eq _ := rfl
  deserializeElement_compress p := by
    show (get (put p)).filter (· ≠ 0) = _
    rw [get_put]
    by_cases hp : p = 0 <;> simp [hp]
  serializeShare_eq _ := rfl
  deserializeShare_toBytes := get_put
  serializeKey_eq package hshare hkey := by
    refine ⟨keyWire.postcard.toStdvec package, if_neg ?_⟩
    simp [hshare, hkey]
  deserializeKey_serializeKey package bytes h := by
    change (if package.verifyingShare = 0 ∨ package.verifyingKey = 0 then none
      else some (keyWire.postcard.toStdvec package)) = some bytes at h
    split at h
    · cases h
    · cases h
      exact postcard_roundTrip keyWire package
  serializePublic_eq package hproper :=
    ⟨publicWire.postcard.toStdvec package, if_pos (proper_iff.mpr hproper)⟩
  deserializePublic_serializePublic package bytes h := by
    change (if proper package then some (publicWire.postcard.toStdvec package) else none)
      = some bytes at h
    split at h
    case isTrue hproper =>
      cases h
      show (publicWire.postcard.fromBytes (publicWire.postcard.toStdvec package)).filter proper = _
      rw [postcard_roundTrip, Option.filter_some, if_pos hproper]
    case isFalse => cases h
  proper_of_deserializePublic bytes package h :=
    proper_iff.mp (Option.filter_eq_some_iff.mp h).2

theorem distinctNodes : DistinctNodes Small := by
  intro i hi j hj h
  have hi : i ≤ 65535 := hi
  have hj : j ≤ 65535 := hj
  have hmod := (ZMod.natCast_eq_natCast_iff' i j 65537).mp h
  rwa [Nat.mod_eq_of_lt (by omega), Nat.mod_eq_of_lt (by omega)] at hmod

/-- The list of commitments, on the wire. -/
@[reducible] def blobs : Postcard (List Bytes) := (list bytes).postcard

end Small

end Lait.Ceremony
