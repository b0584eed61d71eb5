import Lait.Bytes

/-!
# Identifiers

A **device** is an ed25519 public key, carried as the hexadecimal string that
spells it.  Two spellings of one key are one device: the source's `Eq`, `Ord`
and `Hash` fold the case, while every hash and signature covers the spelling as
written.  Hence the two faces of `DeviceId` here, `asStr` (the spelling) and
`fold` (what a set of devices is keyed by).

An **actor** is `act_` followed by the content address of its inception event.
A **space** id is opaque text on this plane.  The `Genesis` names the space and
its founding actors.
-/

namespace Lait

/-- A device key string, as spelled. -/
structure DeviceId where
  asStr : Text
  deriving DecidableEq

namespace DeviceId

/-- The case fold a `DeviceId` is compared by. -/
def fold (d : DeviceId) : Text := ⟨d.asStr.data.map Bytes.toAsciiLowercase⟩

/-- `DeviceId`'s own `==`. -/
def same (d d' : DeviceId) : Bool := d.fold = d'.fold

/-- Parse a 64-character hexadecimal public key. -/
def parse (s : Text) : Option DeviceId :=
  let s := Bytes.trim s
  if s.length = 64 ∧ s.data.all Bytes.isAsciiHexdigit then
    some ⟨⟨s.data.map Bytes.toAsciiLowercase⟩⟩
  else none

/-- The device id of raw key bytes. -/
def fromKeyBytes (raw : Bytes) : DeviceId := ⟨Bytes.hexEncode raw⟩

end DeviceId

/-- `act_` and the hash of an inception event. -/
abbrev ActorId := Text

/-- `ws_` and a ULID. -/
abbrev SpaceId := Text

namespace ActorId

/-- `act_`. -/
def PREFIX : Text := ⟨[97, 99, 116, 95]⟩

/-- Wrap the content address of an inception event. -/
def fromInceptHash (hash : Text) : ActorId := PREFIX ++ hash

theorem fromInceptHash_injective : Function.Injective fromInceptHash := by
  intro a b h
  have hdata := congrArg Bytes.data h
  simp only [fromInceptHash, Bytes.data_append, List.append_cancel_left_eq] at hdata
  cases a
  cases b
  simpa using hdata

end ActorId

/-! ## Genesis -/

/-- The space genesis: the root of trust, as public data. -/
structure Genesis where
  spaceId : SpaceId
  foundingActors : List ActorId
  /-- With the founding device key, derives `spaceId`. -/
  salt : Bytes
  /-- The break-glass recovery commitment folded into `spaceId`. -/
  recoveryRoot : Bytes
  deriving DecidableEq

/-- The founding actors as a set. -/
def Genesis.founders (genesis : Genesis) : Finset ActorId := genesis.foundingActors.toFinset

end Lait
