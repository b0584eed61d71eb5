import Lait.Host

/-!
# The authorization-demand algebra

A World asks for a mutation or a query by a bounded expression over exact
requirements; the authority plane evaluates it at a pinned frontier.  This
module is the expression, its canonical bytes and the digests bound into a
receipt.

* `AuthorizationDemand.encodeCanonical` — flatten nested nodes of one kind, sort
  the children by their own bytes, refuse duplicates and every bound overflow.
  The recursion is on the depth still allowed, which is the bound the source
  checks and not an artefact of the model.
* `AuthorizationDemand.decodeCanonical` — the strict reader, which ends by
  re-encoding.
* `policyEvidenceDigest`, `AuthorizationReceipt` — what an evaluation leaves
  behind.

A reader is a function from the bytes not yet read; `pos` of the source is the
number of bytes already gone.
-/

namespace Lait

namespace Demand

/-- Maximum resource segments. -/
def MAX_RESOURCE_SEGMENTS : ℕ := 8
/-- Maximum bytes per resource segment. -/
def MAX_SEGMENT_BYTES : ℕ := 64
/-- Maximum total resource bytes (all segments). -/
def MAX_RESOURCE_BYTES : ℕ := 512
/-- Capability and world identifier bounds. -/
def MAX_NAME_BYTES : ℕ := 64
/-- Maximum demand nesting depth. -/
def MAX_DEMAND_DEPTH : ℕ := 8
/-- `All`/`Any` child count bounds. -/
def MAX_CHILDREN : ℕ := 32
/-- Maximum `Require` leaves in one demand. -/
def MAX_REQUIRE_LEAVES : ℕ := 128
/-- Maximum canonical encoded bytes. -/
def MAX_DEMAND_BYTES : ℕ := 16 * 1024

def DEMAND_CONTEXT : Text := Bytes.ofString "lait.authorization-demand.v1"
def EVIDENCE_CONTEXT : Text := Bytes.ofString "lait.policy-evidence.v1"
def TAG_REQUIRE : UInt8 := 1
def TAG_ALL : UInt8 := 2
def TAG_ANY : UInt8 := 3

/-- Why a demand failed validation or decoding. -/
inductive Invalid
  | badIdentifier
  | badResource
  | badStructure
  | nonCanonical
  | badEncoding
  deriving DecidableEq

/-- Whether an identifier is 1..=64 bytes of lowercase `[a-z0-9._-]`. -/
def validName (s : Text) : Bool :=
  s.length ≠ 0 && s.length ≤ MAX_NAME_BYTES &&
    s.data.all fun b => (97 ≤ b && b ≤ 122) || (48 ≤ b && b ≤ 57) || b = 46 || b = 95 || b = 45

/-- The segment `*`. -/
def wildcard : Text := ⟨[42]⟩

/-- A bounded generic policy resource: a World plus exact opaque segments. -/
structure Resource where
  world : Text
  segments : List Text
  deriving DecidableEq

namespace Resource

/-- The root resource of a World. -/
def root (world : Text) : Resource := ⟨world, []⟩

/-- The per-segment checks of `validate`. -/
def validateSegment (seg : Text) : Except Invalid Unit :=
  if seg.length = 0 ∨ MAX_SEGMENT_BYTES < seg.length then .error .badResource
  else if seg = wildcard then .error .badResource
  else .ok ()

def validate (r : Resource) : Except Invalid Unit := do
  if ¬ validName r.world then throw .badIdentifier
  if MAX_RESOURCE_SEGMENTS < r.segments.length then throw .badResource
  r.segments.forM validateSegment
  if MAX_RESOURCE_BYTES < (r.segments.map Bytes.length).sum then throw .badResource

end Resource

/-- A World-namespaced capability name. -/
structure PolicyCapability where
  world : Text
  name : Text
  deriving DecidableEq

def PolicyCapability.validate (c : PolicyCapability) : Except Invalid Unit := do
  if ¬ validName c.world then throw .badIdentifier
  if ¬ validName c.name then throw .badIdentifier

/-- `validate().is_ok()`. -/
def isOk {ε α : Type} : Except ε α → Bool
  | .ok _ => true
  | .error _ => false

/-- The bounded authorization-demand expression. -/
inductive AuthorizationDemand
  | require (capability : PolicyCapability) (resource : Resource)
  | all (children : List AuthorizationDemand)
  | any (children : List AuthorizationDemand)

/-- `extend_from_slice(&(s.len() as u16).to_be_bytes())`, then the bytes. -/
def pushStr (s : Text) : Bytes := Bytes.be16 s.length ++ s

/-- `windows(2)` of a sorted list finds an equal pair. -/
def hasDuplicate : List Bytes → Bool
  | a :: b :: rest => a = b || hasDuplicate (b :: rest)
  | _ => false

namespace AuthorizationDemand

mutual

/-- Replace a node of the kind being flattened by its own children. -/
def flattenNode (isAll : Bool) : AuthorizationDemand → List AuthorizationDemand
  | require capability resource => [require capability resource]
  | all children => if isAll then flatten isAll children else [all children]
  | any children => if isAll then [any children] else flatten isAll children

/-- The children left once nested same-kind nodes are dissolved, in order: what
the source's explicit stack pops. -/
def flatten (isAll : Bool) : List AuthorizationDemand → List AuthorizationDemand
  | [] => []
  | child :: children => flattenNode isAll child ++ flatten isAll children

end

/-- Encode children one after the other, threading the leaf count. -/
def encodeEach (encode : AuthorizationDemand → ℕ → Except Invalid (Bytes × ℕ)) :
    List AuthorizationDemand → ℕ → Except Invalid (List Bytes × ℕ)
  | [], leaves => .ok ([], leaves)
  | child :: children, leaves => do
      let (bytes, leaves) ← encode child leaves
      let (rest, leaves) ← encodeEach encode children leaves
      return (bytes :: rest, leaves)

/-- The bytes of an `All`/`Any` node over its encoded children. -/
def assemble (isAll : Bool) (encoded : List Bytes) : Bytes :=
  ⟨[if isAll then TAG_ALL else TAG_ANY]⟩ ++ Bytes.be16 encoded.length ++
    Bytes.join (encoded.map fun child => Bytes.be32 child.length ++ child)

/-- `encode_node`, where `depth` counts the levels still allowed. -/
def encodeNode : ℕ → AuthorizationDemand → ℕ → Except Invalid (Bytes × ℕ)
  | 0, _, _ => .error .badStructure
  | _ + 1, require capability resource, leaves => do
      capability.validate
      resource.validate
      if capability.world ≠ resource.world then throw .badStructure
      let leaves := leaves + 1
      if MAX_REQUIRE_LEAVES < leaves then throw .badStructure
      return (⟨[TAG_REQUIRE]⟩ ++ pushStr capability.world ++ pushStr capability.name ++
        ⟨[UInt8.ofNat resource.segments.length]⟩ ++ Bytes.join (resource.segments.map pushStr),
        leaves)
  | depth + 1, all children, leaves => encodeChildren depth true children leaves
  | depth + 1, any children, leaves => encodeChildren depth false children leaves
where
  /-- The `All`/`Any` arm. -/
  encodeChildren (depth : ℕ) (isAll : Bool) (children : List AuthorizationDemand)
      (leaves : ℕ) : Except Invalid (Bytes × ℕ) := do
    let flat := flatten isAll children
    if flat.isEmpty then throw .badStructure
    if MAX_CHILDREN < flat.length then throw .badStructure
    let (encoded, leaves) ← encodeEach (encodeNode depth) flat leaves
    let encoded := Bytes.sort encoded
    if hasDuplicate encoded then throw .nonCanonical
    return (assemble isAll encoded, leaves)

/-- The canonical encoding. -/
def encodeCanonical (d : AuthorizationDemand) : Except Invalid Bytes := do
  let (bytes, _) ← encodeNode MAX_DEMAND_DEPTH d 0
  if MAX_DEMAND_BYTES < bytes.length then throw .badStructure
  return bytes

end AuthorizationDemand

/-! ## Decoding -/

/-- A length-prefixed UTF-8 string, before either grammar is checked. -/
def readUtf8 : List UInt8 → Except Invalid (Text × List UInt8)
  | hi :: lo :: rest =>
      let len := hi.toNat * 256 + lo.toNat
      if rest.length < len then .error .badEncoding
      else if ¬ Bytes.validUtf8 (rest.take len) then .error .badEncoding
      else .ok (⟨rest.take len⟩, rest.drop len)
  | _ => .error .badEncoding

/-- Read one resource segment. -/
def readSegment (bytes : List UInt8) : Except Invalid (Text × List UInt8) := do
  let (s, rest) ← readUtf8 bytes
  if s.length = 0 ∨ MAX_SEGMENT_BYTES < s.length ∨ s = wildcard then throw .badResource
  return (s, rest)

/-- Read one identifier. -/
def readStr (bytes : List UInt8) : Except Invalid (Text × List UInt8) := do
  let (s, rest) ← readUtf8 bytes
  if ¬ validName s then throw .badIdentifier
  return (s, rest)

/-- `for _ in 0..count { segments.push(read_segment(..)?) }`. -/
def readSegments : ℕ → List UInt8 → Except Invalid (List Text × List UInt8)
  | 0, bytes => .ok ([], bytes)
  | count + 1, bytes => do
      let (segment, bytes) ← readSegment bytes
      let (segments, bytes) ← readSegments count bytes
      return (segment :: segments, bytes)

namespace AuthorizationDemand

/-- What a node reader answers: the node, the bytes after it, the leaf count. -/
abbrev Read := Except Invalid (AuthorizationDemand × List UInt8 × ℕ)

/-- The children of a node with the given tag: each length-prefixed, strictly
ascending, of another kind, and read to its last byte. -/
def decodeChildren (decode : List UInt8 → ℕ → Read) (tag : UInt8) :
    ℕ → Option Bytes → List UInt8 → ℕ →
      Except Invalid (List AuthorizationDemand × List UInt8 × ℕ)
  | 0, _, bytes, leaves => .ok ([], bytes, leaves)
  | count + 1, prev, bytes, leaves => do
      match bytes with
      | b₃ :: b₂ :: b₁ :: b₀ :: rest =>
          let len := ((b₃.toNat * 256 + b₂.toNat) * 256 + b₁.toNat) * 256 + b₀.toNat
          if rest.length < len then throw .badEncoding
          let slice : Bytes := ⟨rest.take len⟩
          if prev.any (slice ≤ ·) then throw .nonCanonical
          if slice.data.head? = some tag then throw .nonCanonical
          let (child, unread, leaves) ← decode slice.data leaves
          if ¬ unread.isEmpty then throw .badEncoding
          let (children, bytes, leaves) ←
            decodeChildren decode tag count (some slice) (rest.drop len) leaves
          return (child :: children, bytes, leaves)
      | _ => throw .badEncoding

/-- `decode_node`, where `depth` counts the levels still allowed. -/
def decodeNode : ℕ → List UInt8 → ℕ → Read
  | 0, _, _ => .error .badStructure
  | _ + 1, [], _ => .error .badEncoding
  | depth + 1, tag :: bytes, leaves => do
      if tag = TAG_REQUIRE then
        let (world, bytes) ← readStr bytes
        let (name, bytes) ← readStr bytes
        match bytes with
        | [] => throw .badEncoding
        | count :: bytes =>
            if MAX_RESOURCE_SEGMENTS < count.toNat then throw .badResource
            let (segments, bytes) ← readSegments count.toNat bytes
            let leaves := leaves + 1
            if MAX_REQUIRE_LEAVES < leaves then throw .badStructure
            return (require ⟨world, name⟩ ⟨world, segments⟩, bytes, leaves)
      else if tag = TAG_ALL ∨ tag = TAG_ANY then
        match bytes with
        | hi :: lo :: bytes =>
            let count := hi.toNat * 256 + lo.toNat
            if count = 0 then throw .badStructure
            if MAX_CHILDREN < count then throw .badStructure
            let (children, bytes, leaves) ←
              decodeChildren (decodeNode depth) tag count none bytes leaves
            return (if tag = TAG_ALL then all children else any children, bytes, leaves)
        | _ => throw .badEncoding
      else throw .badEncoding

/-- The strict canonical decode. -/
def decodeCanonical (bytes : Bytes) : Except Invalid AuthorizationDemand := do
  if MAX_DEMAND_BYTES < bytes.length then throw .badEncoding
  let (demand, unread, _) ← decodeNode MAX_DEMAND_DEPTH bytes.data 0
  if ¬ unread.isEmpty then throw .badEncoding
  let re ← demand.encodeCanonical
  if re ≠ bytes then throw .nonCanonical
  return demand

/-- The demand digest over the canonical bytes. -/
def digest [Crypto] (d : AuthorizationDemand) : Except Invalid Bytes := do
  return Crypto.deriveKey DEMAND_CONTEXT (← d.encodeCanonical)

end AuthorizationDemand

/-! ## Evidence and receipts -/

/-- Digest over a canonical witness: the sorted, deduplicated effective grant
ids that satisfied the demand. -/
def policyEvidenceDigest [Crypto] (witness : List Bytes) : Bytes :=
  Crypto.deriveKey EVIDENCE_CONTEXT (Bytes.be64 witness.length ++ Bytes.join witness)

/-- The evidence an authorization leaves: every coordinate it was decided at. -/
structure AuthorizationReceipt where
  space : Text
  world : Text
  actor : Text
  device : Bytes
  authorityFrontier : Bytes
  authorityCheckpointCommitment : Bytes
  policyEvidenceDigest : Bytes
  parentManifestRoot : Bytes
  implementationId : Bytes
  intentDigest : Bytes
  demandDigest : Bytes
  effectOperationsDigest : Bytes
  bodyTransactionCoreDigest : Bytes
  decision : UInt8
  deriving DecidableEq

end Demand

end Lait
