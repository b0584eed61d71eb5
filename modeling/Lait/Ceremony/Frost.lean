import Lait.Host
import Lait.OrderedMap

/-!
# The curve and its key packages

The `curve25519_dalek` and `frost_ed25519` crates are parameters: a scalar field,
a group over it with a base point, and the byte forms of scalars, points and key
packages.  `LawfulCurve` is what those crates document of the byte forms.

A FROST element is never the identity: its encoding is refused in both
directions, so a package that names one can be neither written nor read.
-/

namespace Lait.Ceremony

/-- `u16::MAX`. -/
def U16_MAX : ℕ := 65535

/-- The byte forms of scalars. -/
class ScalarBytes (F : Type) where
  /-- `Scalar::to_bytes`. -/
  toBytes : F → Bytes
  /-- `Scalar::from_canonical_bytes`. -/
  fromCanonicalBytes : Bytes → Option F
  /-- `Scalar::from_bytes_mod_order_wide`. -/
  fromBytesModOrderWide : Bytes → F

/-- The base point, and the byte forms of points. -/
class PointBytes (G : Type) where
  /-- `ED25519_BASEPOINT_POINT`. -/
  base : G
  /-- `EdwardsPoint::compress`. -/
  compress : G → Bytes
  /-- `CompressedEdwardsY::decompress`. -/
  decompress : Bytes → Option G

/-- `frost::keys::KeyPackage`. -/
structure KeyPackage (F G : Type) where
  identifier : ℕ
  signingShare : F
  verifyingShare : G
  verifyingKey : G
  minSigners : ℕ

/-- `frost::keys::PublicKeyPackage`. -/
structure PublicKeyPackage (G : Type) where
  verifyingShares : BTreeMap ℕ G
  verifyingKey : G
  minSigners : Option ℕ

/-- The byte forms of FROST packages and of what they are made of. -/
class Frost (F G : Type) where
  /-- `serialize` of a verifying share or key. -/
  serializeElement : G → Option Bytes
  /-- `deserialize` of a verifying share or key. -/
  deserializeElement : Bytes → Option G
  /-- `SigningShare::serialize`. -/
  serializeShare : F → Bytes
  /-- `SigningShare::deserialize`. -/
  deserializeShare : Bytes → Option F
  serializeKey : KeyPackage F G → Option Bytes
  deserializeKey : Bytes → Option (KeyPackage F G)
  serializePublic : PublicKeyPackage G → Option Bytes
  deserializePublic : Bytes → Option (PublicKeyPackage G)

/-- A public-key package without the identity. -/
def PublicKeyPackage.Proper {G : Type} [Zero G] (package : PublicKeyPackage G) : Prop :=
  package.verifyingKey ≠ 0 ∧
    ∀ (index : ℕ) (share : G), package.verifyingShares[index]? = some share → share ≠ 0

/-- What the crates document of these byte forms. -/
structure LawfulCurve (F G : Type) [Zero G] [DecidableEq G] [ScalarBytes F]
    [PointBytes G] [Frost F G] : Prop where
  length_toBytes : ∀ s : F, (ScalarBytes.toBytes s).length = 32
  fromCanonicalBytes_toBytes : ∀ s : F,
    ScalarBytes.fromCanonicalBytes (ScalarBytes.toBytes s) = some s
  length_compress : ∀ p : G, (PointBytes.compress p).length = 32
  decompress_compress : ∀ p : G, PointBytes.decompress (PointBytes.compress p) = some p
  serializeElement_eq : ∀ p : G, Frost.serializeElement F p
    = if p = 0 then none else some (PointBytes.compress p)
  deserializeElement_compress : ∀ p : G, Frost.deserializeElement F (PointBytes.compress p)
    = if p = 0 then none else some p
  serializeShare_eq : ∀ s : F, Frost.serializeShare G s = ScalarBytes.toBytes s
  deserializeShare_toBytes : ∀ s : F, Frost.deserializeShare G (ScalarBytes.toBytes s) = some s
  serializeKey_eq : ∀ package : KeyPackage F G, package.verifyingShare ≠ 0 →
    package.verifyingKey ≠ 0 → ∃ bytes, Frost.serializeKey package = some bytes
  deserializeKey_serializeKey : ∀ (package : KeyPackage F G) (bytes : Bytes),
    Frost.serializeKey package = some bytes → Frost.deserializeKey bytes = some package
  serializePublic_eq : ∀ package : PublicKeyPackage G, package.Proper →
    ∃ bytes, Frost.serializePublic F package = some bytes
  deserializePublic_serializePublic : ∀ (package : PublicKeyPackage G) (bytes : Bytes),
    Frost.serializePublic F package = some bytes →
      Frost.deserializePublic F bytes = some package
  proper_of_deserializePublic : ∀ (bytes : Bytes) (package : PublicKeyPackage G),
    Frost.deserializePublic F bytes = some package → package.Proper

end Lait.Ceremony
