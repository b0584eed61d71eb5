import Lait.Replica.State

/-!
# Looking up receipts

A request is answered from one of three places: the receipts of a non-durable
Replica, the cache every reader shares, or the receipt catalog of one commit
point.  A `ReceiptReader` pins such a point and outlives it; what it finds in the
cache may be newer than its catalog.

A reader that finds nothing mints a `ReceiptAbsence`, which names the commit
point and the scope it was proved for.
-/

namespace Lait.Replica

/-- The four coordinates of a request, and the payload it carries. -/
structure RequestScope where
  space : SpaceId
  world : WorldId
  device : Text
  request : Bytes
  deriving DecidableEq

variable [Crypto] [ReceiptCodecs] [ReceiptMemory]

/-- The idempotency key of a scope. -/
def RequestScope.key (scope : RequestScope) : Bytes :=
  scopeKey scope.space scope.world scope.device scope.request

/-- A reader pinned at one commit point. -/
structure ReceiptReader where
  store : Store
  receiptIndex : BTreeMap Bytes IndexedReceipt
  sequence : ℕ

/-- A proof that one scope was absent at one commit point. -/
structure ReceiptAbsence where
  sequence : ℕ
  receiptIndexRoot : Option IndexRef
  scope : Bytes
  deriving DecidableEq

/-- What checking a request finds. -/
inductive ReceiptCheck
  | replayed (receipt : RequestReceipt)
  | absent (absence : ReceiptAbsence)

/-- `read_deferred_object_bounded`: an object the store requires as deferred, at
the committed length. -/
def readDeferred (store : Store) (object : Object) (maxLen : ℕ) : Except Failure Bytes :=
  match store.deferred[object.hash]? with
  | none => .error (.integrity .store)
  | some len =>
      if len ≠ object.len then .error (.integrity .store)
      else if maxLen < object.len then .error (.integrity .store)
      else okOr (.integrity .store) (store.readObject object)

namespace ReceiptReader

/-- The receipt the catalog holds for a scope. -/
def lookupIndex (reader : ReceiptReader) (scope : Bytes) :
    Except Failure (Option RequestReceipt) :=
  match reader.receiptIndex[receiptIndexKey scope]? with
  | none => .ok none
  | some indexed =>
      if indexed.scope ≠ scope then .error (.integrity .index)
      else do
        let bytes ← readDeferred reader.store indexed.object MAX_RECEIPT_OBJECT_BYTES
        let receipt ← validateReceiptMaterial scope bytes
        return some receipt

/-- `lookup_scope`: the cache first, then the catalog. -/
def lookupScope (reader : ReceiptReader) (cache : ReceiptCache) (scope : Bytes) :
    ReceiptCache × Except Failure (Option RequestReceipt) :=
  match cache.get scope with
  | (cache, some receipt) => (cache, .ok (some receipt))
  | (cache, none) =>
      match reader.lookupIndex scope with
      | .error failure => (cache, .error failure)
      | .ok none => (cache, .ok none)
      | .ok (some receipt) => (cache.insert scope receipt, .ok (some receipt))

variable [Postcard IndexNode] [Postcard IndexedReceipt]

/-- `check_action`. -/
def checkAction (reader : ReceiptReader) (cache : ReceiptCache) (scope : RequestScope)
    (payloadHash : Bytes) : ReceiptCache × Except Failure ReceiptCheck :=
  match reader.lookupScope cache scope.key with
  | (cache, .error failure) => (cache, .error failure)
  | (cache, .ok (some receipt)) =>
      if receipt.payloadHash = payloadHash then (cache, .ok (.replayed receipt))
      else (cache, .error .requestIdConflict)
  | (cache, .ok none) =>
      (cache, .ok (.absent
        { sequence := reader.sequence
          receiptIndexRoot := Index.root reader.receiptIndex
          scope := scope.key }))

/-- `ReceiptReader::lookup_action`. -/
def lookupAction (reader : ReceiptReader) (cache : ReceiptCache) (scope : RequestScope)
    (payloadHash : Bytes) : ReceiptCache × Except Failure (Option RequestReceipt) :=
  match reader.checkAction cache scope payloadHash with
  | (cache, .error failure) => (cache, .error failure)
  | (cache, .ok (.replayed receipt)) => (cache, .ok (some receipt))
  | (cache, .ok (.absent _)) => (cache, .ok none)

end ReceiptReader

variable [Loro] [Postcard IndexNode] [Postcard IndexedReceipt]

/-- The current journal sequence, zero before the first commit. -/
def currentSequence (self : Replica) : ℕ := (self.durable.map Store.sequence).getD 0

/-- `receipt_reader`: a reader pinned at the current commit point. -/
def receiptReader (self : Replica) : Option ReceiptReader :=
  self.durable.map fun store =>
    { store
      receiptIndex := self.catalogs.receiptIndex
      sequence := store.sequence }

/-- `lookup_action`. -/
def lookupAction (self : Replica) (scope : RequestScope) (payloadHash : Bytes) :
    Replica × Except Failure (Option RequestReceipt) :=
  match self.receiptReader with
  | some reader =>
      let (receiptCache, found) := reader.lookupAction self.receiptCache scope payloadHash
      ({ self with receiptCache }, found)
  | none =>
      match self.receipts[scope.key]? with
      | none => (self, .ok none)
      | some receipt =>
          if receipt.payloadHash = payloadHash then (self, .ok (some receipt))
          else (self, .error .requestIdConflict)

/-- Whether an absence proof still describes the current commit point. -/
def absenceCurrent (self : Replica) (scope : RequestScope) (absence : ReceiptAbsence) : Bool :=
  self.durable.isSome && absence.sequence = self.currentSequence &&
    absence.receiptIndexRoot = Index.root self.catalogs.receiptIndex && absence.scope = scope.key

end Lait.Replica
