import Lait.Space

/-!
# Arrangements of a recovery authority

A configuration says how an authority's private half is operated: by one holder,
by a flat threshold, or by a compiled policy.  Its payload is opaque to the
lifecycle; only the scheme it declares decodes it.

A flat threshold names its participants as principals, which are strings, and a
principal that spells a device key is that device (`Principal.asDevice`).
-/

namespace Lait

/-- An ownership identity in a configuration. -/
abbrev Principal := Text

/-- A cryptographic participant in a compiled access structure. -/
abbrev Holder := Text

namespace Principal

/-- Canonicalized when the argument is a device key, left alone otherwise. -/
def ofDevice (device : DeviceId) : Principal :=
  match DeviceId.parse device.asStr with
  | some canonical => canonical.asStr
  | none => device.asStr

/-- The device this principal is, when it is a direct device principal. -/
def asDevice (principal : Principal) : Option DeviceId := DeviceId.parse principal

end Principal

/-- Flat K-of-N over a fixed participant list. -/
structure FrostThresholdConfig where
  k : ℕ
  /-- Position + 1 is the FROST index. -/
  participants : List Principal
  deriving DecidableEq

namespace FrostThresholdConfig

/-- Sorted, deduped, at least two participants, `1 <= k <= n`. -/
def isWellFormed (config : FrostThresholdConfig) : Bool :=
  let n := config.participants.length
  let sorted := (Bytes.sort config.participants).eraseReps
  decide (2 ≤ n) && decide (sorted.length = n) && decide (sorted = config.participants) &&
    decide (1 ≤ config.k) && decide (config.k ≤ n)

/-- The participant devices, in index order; `none` when one is not a device. -/
def devices (config : FrostThresholdConfig) : Option (List DeviceId) :=
  config.participants.mapM Principal.asDevice

end FrostThresholdConfig

/-- A general-access authority, as far as its structural check reads it. -/
structure GeneralAccessConfig where
  leaves : List Holder
  deriving DecidableEq

/-- A nonempty, distinct leaf set. -/
def GeneralAccessConfig.isStructurallyWellFormed (config : GeneralAccessConfig) : Bool :=
  !config.leaves.isEmpty && decide (config.leaves.toFinset.card = config.leaves.length)

namespace Config

variable [Postcard FrostThresholdConfig] [Postcard GeneralAccessConfig]

/-- Decode a configuration as a flat threshold, or `none` if it is not one. -/
def asFrostThreshold (config : Config) : Option FrostThresholdConfig :=
  if config.scheme = .frostThreshold then Postcard.fromBytes config.payload else none

/-- Decode a configuration as general access, or `none`. -/
def asGeneralAccess (config : Config) : Option GeneralAccessConfig :=
  if config.scheme = .generalAccess then Postcard.fromBytes config.payload else none

/-- Whether a configuration is well formed for its declared scheme. -/
def isWellFormed (config : Config) : Bool :=
  match config.scheme with
  | .single => config.payload = Bytes.empty
  | .frostThreshold => config.asFrostThreshold.any FrostThresholdConfig.isWellFormed
  | .generalAccess => config.asGeneralAccess.any GeneralAccessConfig.isStructurallyWellFormed

end Config

/-- A public key together with the arrangement operating it. -/
structure Authority where
  publicKey : DeviceId
  configuration : ConfigId
  deriving DecidableEq

/-- The authority of a key under an arrangement. -/
def Authority.new [Crypto] [Postcard Config] (publicKey : DeviceId) (configuration : Config) :
    Authority := ⟨publicKey, configuration.id⟩

end Lait
