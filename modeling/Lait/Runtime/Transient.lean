import Lait.OrderedMap
import Lait.Workflow
import Lait.Replica.Transaction

/-!
# Transient collaboration state

What a peer currently says about its cursors, its previews and its presence, in a table of
slots keyed by scope and kind.  A slot is replaced by an item of a higher sequence, retired by
its peer, swept when it is old and forgotten with its session; none of it is durable.

A retirement leaves a watermark behind for a grace window, because a datagram already on the
wire would otherwise rebuild the slot.  Slots and watermarks are two maps whose keys leave the
session out, and a sequence means something only within one session: what follows from that is
the subject of `Lait.Runtime.Retirement`.

An `Instant` is in nanoseconds, and `duration_since` stops at zero.  Sequences are `u64`.
-/

namespace Lait.Runtime.Transient

open Replica (BodyId SchemaId WorldId Version)

def MAX_PREVIEW_INSERT_BYTES : ℕ := 2 * 1024
def TEXT_REVISION_HEX_BYTES : ℕ := 32
def MAX_SCOPE_FIELD_BYTES : ℕ := 128
def MAX_ANCHOR_BYTES : ℕ := 2 * 1024
def MAX_RESIDENCY_CHUNKS : ℕ := 256
def MAX_TRANSIENT_SLOTS : ℕ := 4096

/-- `deadline::PRESENCE_TTL`, of ninety seconds. -/
def PRESENCE_TTL : ℕ := 90000000000

/-- `deadline::CURSOR_TTL`, of thirty. -/
def CURSOR_TTL : ℕ := 30000000000

/-- `deadline::CARET_GRACE`, of two. -/
def CARET_GRACE : ℕ := 2000000000

/-! ## Items -/

/-- Why an item was refused. -/
inductive Invalid
  | tooLarge
  | malformed
  | nonCanonical
  | bounds
  | illegalForScope
  | anchorOutsideScope
  | notDeclared
  deriving DecidableEq

/-- What a transient item is about. -/
inductive Target
  | body (world : Text) (body : BodyId)
  | material (world : Text) (body : BodyId)
  | field (world : Text) (body : BodyId) (field : Text)
  | preview (world : Text) (body : BodyId) (field : Text)
  | typing (world : Text) (body : BodyId) (field : Text)
  | content (content : Bytes)
  | world (world schema key : Text)
  deriving DecidableEq

namespace Target

/-- What the derived order compares. -/
def fields : Target → ℕ ×ₗ Text ×ₗ Bytes ×ₗ Text ×ₗ Text
  | .body w b => toLex (0, toLex (w, toLex (b, toLex (⟨[]⟩, ⟨[]⟩))))
  | .material w b => toLex (1, toLex (w, toLex (b, toLex (⟨[]⟩, ⟨[]⟩))))
  | .field w b f => toLex (2, toLex (w, toLex (b, toLex (f, ⟨[]⟩))))
  | .preview w b f => toLex (3, toLex (w, toLex (b, toLex (f, ⟨[]⟩))))
  | .typing w b f => toLex (4, toLex (w, toLex (b, toLex (f, ⟨[]⟩))))
  | .content c => toLex (5, toLex (⟨[]⟩, toLex (c, toLex (⟨[]⟩, ⟨[]⟩))))
  | .world w schema key => toLex (6, toLex (w, toLex (⟨[]⟩, toLex (schema, key))))

theorem fields_injective : Function.Injective fields := by
  intro a b h
  cases a <;> cases b <;> simp_all [fields]

instance : LinearOrder Target := LinearOrder.lift' fields fields_injective

/-- The field this scope names, when it names one. -/
def fieldOf : Target → Option Text
  | .field _ _ f => some f
  | .preview _ _ f => some f
  | .typing _ _ f => some f
  | _ => none

/-- `SchemaId::parse`. -/
def parseSchemaId (s : Text) : Option SchemaId :=
  let lower (c : UInt8) : Bool := (97 ≤ c && c ≤ 122) || (48 ≤ c && c ≤ 57)
  if s.length = 0 ∨ 63 < s.length then none
  else if (s.data.head?.any lower && s.data.all fun c => lower c || c = 46 || c = 95 || c = 45) = true
  then some s
  else none

/-- A name that is neither empty nor long. -/
def bounded (value : Text) : Except Invalid Unit :=
  if MAX_SCOPE_FIELD_BYTES < value.length ∨ value.length = 0 then .error .bounds else .ok ()

def worldId (value : Text) : Except Invalid Unit :=
  if Workflow.parseWorldId value = none then .error .malformed else .ok ()

def validate : Target → Except Invalid Unit
  | .body w _ => worldId w
  | .material w _ => worldId w
  | .field w _ f => do
      worldId w
      bounded f
  | .preview w _ f => do
      worldId w
      bounded f
  | .typing w _ f => do
      worldId w
      bounded f
  | .content _ => .ok ()
  | .world w schema key => do
      worldId w
      if parseSchemaId schema = none then .error .malformed
      bounded key

end Target

/-- One cumulative, display-only splice from a durable text revision. -/
structure TextPreview where
  base : Text
  result : Text
  index : ℕ
  delete : ℕ
  insert : Text
  anchor : Option ℕ
  focus : Option ℕ
  deriving DecidableEq

/-- The kind of a payload, for the legality table. -/
inductive TransientKind
  | presence
  | caret
  | selection
  | preview
  | typing
  | residency
  deriving DecidableEq

/-- `kind as u8`. -/
def TransientKind.asU8 : TransientKind → ℕ
  | .presence => 0
  | .caret => 1
  | .selection => 2
  | .preview => 3
  | .typing => 4
  | .residency => 5

/-- What is being said about a scope. -/
inductive TransientPayload
  | presence
  | caret (anchor : Bytes)
  | selection (anchor focus : Bytes)
  | preview (preview : TextPreview)
  | typing
  | residency (chunks : List UInt32)
  deriving DecidableEq

/-- A position inside a collaborative value. -/
structure Anchor where
  formatVersion : ℕ
  body : Bytes
  path : Text
  anchoredTo : Option Replica.OpHead
  offset : ℕ
  after : Bool
  takenAt : Version
  deriving DecidableEq

/-- `fabric::Anchor::decode_canonical`; its error is not looked at. -/
def Anchor.decodeCanonical [Postcard Anchor] (bytes : Bytes) : Option Anchor :=
  match Postcard.fromBytes bytes with
  | none => none
  | some (anchor : Anchor) =>
      match anchor.takenAt.validate with
      | .error _ => none
      | .ok () => if Postcard.toStdvec anchor ≠ bytes then none else some anchor

namespace TransientPayload

def kind : TransientPayload → TransientKind
  | .presence => .presence
  | .caret _ => .caret
  | .selection _ _ => .selection
  | .preview _ => .preview
  | .typing => .typing
  | .residency _ => .residency

/-- The legality table. -/
def legal : Target → TransientKind → Bool
  | .body _ _, .presence => true
  | .material _ _, .presence => true
  | .field _ _ _, .caret => true
  | .field _ _ _, .selection => true
  | .preview _ _ _, .preview => true
  | .typing _ _ _, .typing => true
  | .content _, .residency => true
  | .world _ _ _, .presence => true
  | _, _ => false

def anchors : TransientPayload → List Bytes
  | .caret anchor => [anchor]
  | .selection anchor focus => [anchor, focus]
  | _ => []

/-- The path inside an anchor has to be the field the scope names. -/
def validateAnchor [Postcard Anchor] (scope : Target) (anchor : Bytes) : Except Invalid Unit :=
  if MAX_ANCHOR_BYTES < anchor.length then .error .bounds
  else
    match Anchor.decodeCanonical anchor with
    | none => .error .malformed
    | some decoded =>
        if MAX_SCOPE_FIELD_BYTES < decoded.path.length then .error .bounds
        else if scope.fieldOf = some decoded.path then .ok ()
        else .error .anchorOutsideScope

/-- A browser text revision: lowercase hex. -/
def revision (value : Text) : Bool :=
  value.length = TEXT_REVISION_HEX_BYTES &&
    value.data.all fun byte => (48 ≤ byte && byte ≤ 57) || (97 ≤ byte && byte ≤ 102)

/-- What a payload has to meet past its anchors. -/
def validateBounds : TransientPayload → Except Invalid Unit
  | .residency chunks => if MAX_RESIDENCY_CHUNKS < chunks.length then .error .bounds else .ok ()
  | .preview p =>
      if !revision p.base || !revision p.result || MAX_PREVIEW_INSERT_BYTES < p.insert.length ||
          2 ^ 64 ≤ p.index + p.delete then .error .bounds
      else .ok ()
  | _ => .ok ()

def validate [Postcard Anchor] (self : TransientPayload) (scope : Target) : Except Invalid Unit :=
  if !legal scope self.kind then .error .illegalForScope
  else do
    self.anchors.forM (validateAnchor scope)
    self.validateBounds

end TransientPayload

/-- The table key: a scope and a kind. -/
abbrev SlotKey := Target ×ₗ ℕ

instance transOrdSlotKey : Std.TransOrd SlotKey := inferInstance

/-- The key of a scope and a kind. -/
def slotKey (scope : Target) (kind : TransientKind) : SlotKey := toLex (scope, kind.asU8)

/-- One thing a peer said, as it arrives. -/
structure TransientItem where
  connectionEpoch : Bytes
  seq : ℕ
  scope : Target
  payload : TransientPayload
  deriving DecidableEq

namespace TransientItem

def validate [Postcard Anchor] (self : TransientItem) : Except Invalid Unit := do
  self.scope.validate
  self.payload.validate self.scope

def slotKey (self : TransientItem) : SlotKey := Transient.slotKey self.scope self.payload.kind

end TransientItem

/-! ## The store -/

/-- One live entry. -/
structure TransientSlot where
  connectionEpoch : Bytes
  seq : ℕ
  arrivedAt : ℕ
  retiredAt : Option ℕ
  payload : TransientPayload
  deriving DecidableEq

/-- What happened to an admitted item. -/
inductive AdmitOutcome
  | stored
  | stale
  | wrongEpoch
  | retired
  | evicted
  | refused (invalid : Invalid)
  deriving DecidableEq

/-- What a retirement covered, and when it came. -/
structure Watermark where
  epoch : Bytes
  seq : ℕ
  at_ : ℕ
  deriving DecidableEq

/-- The table of what peers currently believe. -/
structure TransientStore where
  slots : BTreeMap SlotKey TransientSlot
  retired : BTreeMap SlotKey Watermark
  capacity : ℕ

namespace TransientStore

def withCapacity (capacity : ℕ) : TransientStore where
  slots := ∅
  retired := ∅
  capacity := max capacity 1

def new : TransientStore := withCapacity MAX_TRANSIENT_SLOTS

/-- What is stored of an item. -/
def slotOf (item : TransientItem) (now : ℕ) : TransientSlot where
  connectionEpoch := item.connectionEpoch
  seq := item.seq
  arrivedAt := now
  retiredAt := none
  payload := item.payload

/-- A watermark that covers an item. -/
def covers (mark : Watermark) (item : TransientItem) : Bool :=
  mark.epoch = item.connectionEpoch && decide (item.seq ≤ mark.seq)

/-- What becomes of an item no watermark covers. -/
def place (self : TransientStore) (item : TransientItem) (now : ℕ) : AdmitOutcome × TransientStore :=
  let stored := { self with slots := self.slots.insert item.slotKey (slotOf item now) }
  match self.slots[item.slotKey]? with
  | some existing => if item.seq ≤ existing.seq then (.stale, self) else (.stored, stored)
  | none => if self.capacity ≤ self.slots.size then (.evicted, self) else (.stored, stored)

/-- Offer one item, from a session admitted at `admittedEpoch`. -/
def admitItem [Postcard Anchor] (self : TransientStore) (item : TransientItem)
    (admittedEpoch : Bytes) (now : ℕ) : AdmitOutcome × TransientStore :=
  match item.validate with
  | .error invalid => (.refused invalid, self)
  | .ok () =>
      if item.connectionEpoch ≠ admittedEpoch then (.wrongEpoch, self)
      else if self.retired[item.slotKey]?.any fun mark => covers mark item then (.retired, self)
      else self.place item now

/-- Whether a retirement lets go of a slot. -/
def letsGo (slot : TransientSlot) (connectionEpoch : Bytes) (seq : ℕ) : Bool :=
  slot.connectionEpoch ≠ connectionEpoch || decide (slot.seq ≤ seq)

/-- Record that a peer is finished with a scope. -/
def retire (self : TransientStore) (scope : Target) (kind : TransientKind)
    (connectionEpoch : Bytes) (seq now : ℕ) : TransientStore :=
  let key := slotKey scope kind
  { self with
    slots :=
      if self.slots[key]?.all fun slot => letsGo slot connectionEpoch seq then self.slots.erase key
      else self.slots
    retired := self.retired.insert key ⟨connectionEpoch, seq, now⟩ }

/-- How long a slot is believed. -/
def ttl : Target → ℕ
  | .body _ _ => PRESENCE_TTL
  | .material _ _ => PRESENCE_TTL
  | .world _ _ _ => PRESENCE_TTL
  | _ => CURSOR_TTL

/-- Drop what has expired. -/
def sweep (self : TransientStore) (now : ℕ) : ℕ × TransientStore :=
  let slots := self.slots.filter fun key slot => now - slot.arrivedAt < ttl (ofLex key).1
  (self.slots.size - slots.size, {
    self with
    slots
    retired := self.retired.filter fun _ mark => now - mark.at_ < CARET_GRACE })

/-- Drop everything a session held. -/
def forgetSession (self : TransientStore) (connectionEpoch : Bytes) : ℕ × TransientStore :=
  let slots := self.slots.filter fun _ slot => slot.connectionEpoch ≠ connectionEpoch
  (self.slots.size - slots.size, { self with slots })

end TransientStore

end Lait.Runtime.Transient
