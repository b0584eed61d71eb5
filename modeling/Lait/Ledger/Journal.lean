import Lait.Ceremony.MaterialLog
import Lait.OrderedMap

/-!
# A journal whose caller names all it keeps

The store below a ledger holds immutable objects under their content addresses
and one record of the caller's, replaced at every commit.  A commit names the
objects to write and, in full, the older ones to keep: what is not named is no
longer required, and may be collected at any time.

* `Objects` — the required objects.  Every one lies at its own address.
* `commitRequiredSet` — a commit either lands whole or leaves the store as it
  was; what its medium does is the `CommitOutcome`.  When the flush of a commit
  fails, the handle goes on seeing the store before it, every later commit is
  refused, and only `recover` decides.
-/

namespace Lait.Ledger

open Ceremony (Object objectContentHash OBJECT_DOMAIN)

/-- `u64::MAX`, where the commit sequence ends. -/
def LAST_SEQUENCE : ℕ := 18446744073709551615

/-- Why the journal refuses. -/
inductive JournalFailure
  /-- The operation failed; the store is as it was. -/
  | operation
  /-- An object is missing or damaged, or the sequence is used up. -/
  | integrity
  /-- The flush failed: the commit may have landed. -/
  | outcomeUnknown
  deriving DecidableEq

/-- What the medium does with a commit. -/
inductive CommitOutcome
  /-- Sealed and flushed. -/
  | sealed
  /-- Failed before the seal. -/
  | failed
  /-- The flush failed after the seal; recovery finds the commit, or does not. -/
  | unknown (landed : Bool)
  deriving DecidableEq

/-! ## Objects at their addresses -/

section Objects

variable [Crypto]

/-- Objects, each at its content address. -/
structure Objects where
  entries : BTreeMap Bytes Bytes
  addressed : ∀ address bytes, entries[address]? = some bytes → objectContentHash bytes = address

namespace Objects

def empty : Objects where
  entries := ∅
  addressed _ _ h := by
    rw [BTreeMap.get_empty] at h
    cases h

/-- Write one object. -/
def insert (objects : Objects) (bytes : Bytes) : Objects where
  entries := objects.entries.insert (objectContentHash bytes) bytes
  addressed address bytes' h := by
    rw [BTreeMap.get_insert] at h
    split at h
    case isTrue haddress =>
      cases h
      exact haddress
    case isFalse => exact objects.addressed address bytes' h

/-- Write objects. -/
def insertAll (objects : Objects) (added : List Bytes) : Objects := added.foldl insert objects

/-- Give up every object that is not named. -/
def keep (objects : Objects) (addresses : Finset Bytes) : Objects where
  entries := objects.entries.filter fun address _ => address ∈ addresses
  addressed address bytes h := by
    rw [BTreeMap.get_filter_mem] at h
    split at h
    case isTrue => exact objects.addressed address bytes h
    case isFalse => cases h

/-- `read_object`: an object's bytes, at the length named. -/
def read (objects : Objects) (object : Object) : Option Bytes :=
  match objects.entries[object.hash]? with
  | some bytes => if bytes.length = object.len then some bytes else none
  | none => none

/-- The reference to bytes. -/
def reference (bytes : Bytes) : Object := ⟨objectContentHash bytes, bytes.length⟩

end Objects

end Objects

/-! ## Commits -/

/-- The material of one commit: what to write, what to keep, the caller's record. -/
structure Commit (μ : Type) where
  added : List Bytes
  required : List Object
  record : μ

/-- A journaled store, as its open handle sees it. -/
structure Journal [Crypto] (μ : Type) where
  objects : Objects
  /-- The last sealed sequence, zero before the first commit. -/
  sequence : ℕ
  record : Option μ
  /-- A flush failed, and the writer refuses every later commit; the commit the
  medium holds all the same, if it does. -/
  unsettled : Option (Option (Commit μ))

namespace Journal

variable [Crypto] {μ : Type}

def empty : Journal μ := ⟨.empty, 0, none, none⟩

/-- The store a sealed commit leaves. -/
def sealCommit (journal : Journal μ) (commit : Commit μ) : Journal μ where
  objects := (journal.objects.keep (commit.required.map Object.hash).toFinset).insertAll commit.added
  sequence := journal.sequence + 1
  record := some commit.record
  unsettled := none

/-- `commit_required_set`.  An object to keep must be there, unless it arrives. -/
def commitRequiredSet (journal : Journal μ) (outcome : CommitOutcome) (commit : Commit μ) :
    Journal μ × Except JournalFailure Unit :=
  let arriving := commit.added.map objectContentHash
  if commit.required.any fun r => r.hash ∉ arriving && (journal.objects.read r).isNone then
    (journal, .error .integrity)
  else if LAST_SEQUENCE ≤ journal.sequence then (journal, .error .integrity)
  else if journal.unsettled.isSome then (journal, .error .outcomeUnknown)
  else
    match outcome with
    | .sealed => (journal.sealCommit commit, .ok ())
    | .failed => (journal, .error .operation)
    | .unknown landed =>
        ({ journal with unsettled := some (if landed then some commit else none) },
          .error .outcomeUnknown)

/-- The store a reopen recovers: the newest seal that verifies decides. -/
def recover (journal : Journal μ) : Journal μ :=
  match journal.unsettled with
  | some (some commit) => journal.sealCommit commit
  | _ => { journal with unsettled := none }

end Journal

end Lait.Ledger
