import Lait.Replica.Record

/-!
# Object ownership

An object stays required while something owns it: a live Body record, a
generation delta, a receipt, or the current manifest root.  The ownership index
counts owners by object.

* `recordOwnedObjects` — what one owner names, once per object however often the
  owner repeats it.
* `adjustOwnership` — gather the owners a commit gains and loses into signed
  deltas.
* `applyOwnershipChanges` — move the index by those deltas, and report the
  objects whose count reaches zero, by class.

An object is owned under one class; an owner naming it under another, or under
another length, is corruption.
-/

namespace Lait.Replica

/-- How an object is required. -/
inductive OwnedObjectClass
  | eager
  | deferredArtifact (epoch : Bytes)
  | deferredReceipt
  deriving DecidableEq

/-- The objects one owner names. -/
abbrev OwnedObjects := BTreeMap Bytes (Object × OwnedObjectClass)

/-- The owners a commit gains and loses, by object. -/
abbrev OwnershipChanges := BTreeMap Bytes (Object × OwnedObjectClass × ℤ)

/-- One entry of the ownership index. -/
structure IndexedOwnership where
  object : Object
  cls : OwnedObjectClass
  owners : ℕ
  deriving DecidableEq

/-- The ownership index. -/
abbrev OwnershipIndex := BTreeMap Bytes IndexedOwnership

/-- The catalog key of an owned object. -/
def ownershipIndexKey [Crypto] (hash : Bytes) : Bytes :=
  Crypto.blake3 (Bytes.join [Bytes.ofString "lait/replica/object-ownership/1", hash])

/-- Name one object. -/
def insertOwned (out : OwnedObjects) (object : Object) (cls : OwnedObjectClass) :
    Except Failure OwnedObjects :=
  match out[object.hash]? with
  | some held => if held = (object, cls) then .ok out else .error (.integrity .corruptMaterial)
  | none => .ok (out.insert object.hash (object, cls))

/-- Name several objects. -/
def insertAllOwned (out : OwnedObjects) (objects : List (Object × OwnedObjectClass)) :
    Except Failure OwnedObjects :=
  objects.foldlM (fun out entry => insertOwned out entry.1 entry.2) out

/-- An artifact as an owner names it. -/
def ownedArtifact (reference : ArtifactRef) : Object × OwnedObjectClass :=
  (artifactObject reference, .deferredArtifact reference.epoch)

namespace BodyRecord

/-- What one head names: its transaction record, then its artifacts. -/
def headOwned (record : BodyRecord) (head : BodyHead) : List (Object × OwnedObjectClass) :=
  (head.transaction.map fun r => (r, OwnedObjectClass.eager)).toList ++
    (record.artifacts head).map ownedArtifact

/-- Everything a record names, with repetitions. -/
def owned (record : BodyRecord) : List (Object × OwnedObjectClass) :=
  record.heads.flatMap record.headOwned ++ record.closure.map ownedArtifact

/-- One live record is one owner of each object it names. -/
def recordOwnedObjects (record : BodyRecord) : Except Failure OwnedObjects :=
  insertAllOwned ∅ record.owned

end BodyRecord

/-- `i64` bounds. -/
def isI64 (n : ℤ) : Bool := -9223372036854775808 ≤ n && n ≤ 9223372036854775807

/-- Add one owner's objects to the deltas, `amount` times. -/
def adjustOne (amount : ℤ) (changes : OwnershipChanges)
    (entry : Bytes × Object × OwnedObjectClass) : Except Failure OwnershipChanges :=
  let (hash, object, cls) := entry
  match changes[hash]? with
  | some (held, heldClass, delta) =>
      if held = object ∧ heldClass = cls then
        if isI64 (delta + amount) then .ok (changes.insert hash (held, heldClass, delta + amount))
        else .error (.integrity .index)
      else .error (.integrity .corruptMaterial)
  | none => .ok (changes.insert hash (object, cls, amount))

/-- `adjust_ownership`. -/
def adjustOwnership (changes : OwnershipChanges) (objects : OwnedObjects) (amount : ℤ) :
    Except Failure OwnershipChanges :=
  objects.toList.foldlM (adjustOne amount) changes

/-- What moving the index leaves: the index, and the objects nothing owns any
more, by class. -/
structure OwnershipOutcome where
  index : OwnershipIndex
  eagerRemoved : List Bytes
  deferredRemoved : List Bytes

/-- The owners before and after a delta. -/
def countAfter (before : ℕ) (delta : ℤ) : Except Failure ℕ :=
  match (if 0 < delta then checkedAdd before delta.toNat else checkedSub before delta.natAbs) with
  | some after => .ok after
  | none => .error (.integrity .index)

/-- Move one object's count.  Reads go to the index as it was before the commit. -/
def applyOne [Crypto] (prior : OwnershipIndex) (acc : List (Index.Change IndexedOwnership) ×
    List Bytes × List Bytes) (entry : Bytes × Object × OwnedObjectClass × ℤ) :
    Except Failure (List (Index.Change IndexedOwnership) × List Bytes × List Bytes) := do
  let (hash, object, cls, delta) := entry
  let (changes, eager, deferred) := acc
  if delta = 0 then return acc
  let held := prior[ownershipIndexKey hash]?
  if let some held := held then
    if held.object.hash ≠ hash ∨ held.owners = 0 then throw (.integrity .index)
    if held.object ≠ object ∨ held.cls ≠ cls then throw (.integrity .corruptMaterial)
  let after ← countAfter ((held.map IndexedOwnership.owners).getD 0) delta
  if after = 0 then
    let change : Index.Change IndexedOwnership := (ownershipIndexKey hash, none)
    match cls with
    | .eager => return (changes ++ [change], eager ++ [hash], deferred)
    | _ => return (changes ++ [change], eager, deferred ++ [hash])
  else
    return (changes ++ [(ownershipIndexKey hash, some ⟨object, cls, after⟩)], eager, deferred)

/-- `apply_ownership_changes`. -/
def applyOwnershipChanges [Crypto] [Postcard IndexedOwnership] (prior : OwnershipIndex)
    (changes : OwnershipChanges) : Except Failure OwnershipOutcome := do
  let (indexChanges, eagerRemoved, deferredRemoved) ←
    changes.toList.foldlM (applyOne prior) ([], [], [])
  match Index.apply prior indexChanges with
  | .ok index => return ⟨index, eagerRemoved, deferredRemoved⟩
  | .error _ => throw (.integrity .index)

end Lait.Replica
