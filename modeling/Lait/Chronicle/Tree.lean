import Lait.Bytes
import Lait.Merkle

/-!
# The chronicle's tree

A chronicle is an append-only list of leaf hashes.  Its root splits the leaves at the
largest power of two strictly below their number; an entry proves its place with an
inclusion path, a newer head proves that it extends an older one with a consistency
path.  The provers recurse over the splits, the verifiers walk the levels from below
with two counters that they shift.

Digests are a type of their own.  `node_hash` hashes two digests one after the other,
which is injective for 32-byte digests under an ideal hash and for byte strings of no
fixed length under none; so a digest is left abstract, with the bytes it is hashed as.

The two sides meet on the levels of `Lait.Merkle`: `subtreeRoot_pairUp`,
`auditPath_eq_siblings` and `subproof_even`/`subproof_odd` say what the provers produce
there, `walkPath_eq_ok_iff` says that the verifiers' loop is a climb.
-/

namespace Lait

namespace Chronicle

/-- The digests of `blake3::derive_key`, 32 bytes each in the source. -/
class Digests (H : Type) where
  /-- `blake3::derive_key(context, input)`. -/
  deriveKey : Text → Bytes → H
  /-- The digest as bytes. -/
  bytes : H → Bytes

/-- Key-derivation context for an interior node over two child roots. -/
def NODE_CONTEXT : Text := Bytes.ofString "lait.chronicle-node.v1"

/-- Key-derivation context for the root of the empty chronicle. -/
def EMPTY_CONTEXT : Text := Bytes.ofString "lait.chronicle-empty.v1"

/-- Cap on entries one chronicle holds. -/
def MAX_CHRONICLE_ENTRIES : ℕ := 2 ^ 20

/-- Cap on hashes in one proof. -/
def MAX_PROOF_HASHES : ℕ := 64

/-- A typed refusal. -/
inductive Refusal
  | badSignature
  | unaddressable
  | semantics
  | outOfRange
  | rollback
  | diverged
  | unproven
  | wrongSigner
  | bound (what : String)
  | malformed (what : String)
  deriving DecidableEq

section Tree

variable {H : Type} [Digests H]

/-- The root of the empty chronicle. -/
def emptyRoot : H := Digests.deriveKey EMPTY_CONTEXT Bytes.empty

def nodeHash (left right : H) : H :=
  Digests.deriveKey NODE_CONTEXT (Digests.bytes left ++ Digests.bytes right)

/-- The largest power of two strictly below `n`.  Callers guarantee `n ≥ 2`. -/
def splitPoint (n : ℕ) : ℕ := 1 <<< Nat.log2 (n - 1)

/-- The first half of `leaves.split_at(split_point(leaves.len()))`. -/
def leftOf {α : Type} (leaves : List α) : List α := leaves.take (splitPoint leaves.length)

/-- The second half. -/
def rightOf {α : Type} (leaves : List α) : List α := leaves.drop (splitPoint leaves.length)

theorem splitPoint_eq (n : ℕ) : splitPoint n = 2 ^ Nat.log 2 (n - 1) := by
  rw [splitPoint, Nat.one_shiftLeft, Nat.log2_eq_log_two]

theorem splitPoint_pos (n : ℕ) : 0 < splitPoint n := by
  rw [splitPoint_eq]
  exact Nat.two_pow_pos _

theorem splitPoint_lt {n : ℕ} (h : 2 ≤ n) : splitPoint n < n := by
  have hle : 2 ^ Nat.log 2 (n - 1) ≤ n - 1 := Nat.pow_log_le_self 2 (by omega)
  rw [splitPoint_eq]
  omega

/-- A level is split where the one above it is. -/
theorem splitPoint_half {n : ℕ} (h : 3 ≤ n) : splitPoint n = 2 * splitPoint ((n + 1) / 2) := by
  have hhalf : (n + 1) / 2 - 1 = (n - 1) / 2 := by omega
  rw [splitPoint_eq, splitPoint_eq, hhalf, Nat.log_of_one_lt_of_le one_lt_two (by omega), pow_succ,
    Nat.mul_comm]

section Halves

variable {α : Type} {leaves : List α}

theorem length_leftOf (h : 2 ≤ leaves.length) :
    (leftOf leaves).length = splitPoint leaves.length :=
  List.length_take_of_le (splitPoint_lt h).le

theorem length_rightOf : (rightOf leaves).length = leaves.length - splitPoint leaves.length :=
  List.length_drop

theorem leftOf_append_rightOf : leftOf leaves ++ rightOf leaves = leaves :=
  List.take_append_drop _ _

theorem length_leftOf_lt (h : 2 ≤ leaves.length) : (leftOf leaves).length < leaves.length := by
  rw [length_leftOf h]
  exact splitPoint_lt h

theorem length_rightOf_lt (h : 2 ≤ leaves.length) : (rightOf leaves).length < leaves.length := by
  have hpos := splitPoint_pos leaves.length
  rw [length_rightOf]
  omega

end Halves

/-- The root over a slice of leaves. -/
def subtreeRoot (leaves : List H) : H :=
  match leaves with
  | [] => emptyRoot
  | [one] => one
  | a :: b :: rest =>
      nodeHash (subtreeRoot (leftOf (a :: b :: rest))) (subtreeRoot (rightOf (a :: b :: rest)))
termination_by leaves.length
decreasing_by
  · exact length_leftOf_lt (by simp)
  · exact length_rightOf_lt (by simp)

/-- The inclusion path of an index, from the leaf up. -/
def auditPath (index : ℕ) (leaves : List H) : List H :=
  if leaves.length ≤ 1 then []
  else if index < (leftOf leaves).length then
    auditPath index (leftOf leaves) ++ [subtreeRoot (rightOf leaves)]
  else
    auditPath (index - (leftOf leaves).length) (rightOf leaves) ++ [subtreeRoot (leftOf leaves)]
termination_by leaves.length
decreasing_by
  · exact length_leftOf_lt (by omega)
  · exact length_rightOf_lt (by omega)

/-- The consistency path from the first leaves to all of them.  It is called with a
`first` between one and the number of leaves, and asks no split of a single leaf. -/
def subproof (first : ℕ) (leaves : List H) (whole : Bool) : List H :=
  if first = leaves.length then
    if whole then [] else [subtreeRoot leaves]
  else if leaves.length ≤ 1 then []
  else if first ≤ (leftOf leaves).length then
    subproof first (leftOf leaves) whole ++ [subtreeRoot (rightOf leaves)]
  else
    subproof (first - (leftOf leaves).length) (rightOf leaves) false ++
      [subtreeRoot (leftOf leaves)]
termination_by leaves.length
decreasing_by
  · exact length_leftOf_lt (by omega)
  · exact length_rightOf_lt (by omega)

/-! ## The verifiers -/

/-- `while fnode & 1 == 0 && fnode != 0 { fnode >>= 1; snode >>= 1; }`. -/
def pastZeros (fnode snode : ℕ) : ℕ × ℕ :=
  if fnode % 2 = 0 ∧ fnode ≠ 0 then pastZeros (fnode / 2) (snode / 2) else (fnode, snode)
termination_by fnode

/-- `while fnode & 1 == 1 { fnode >>= 1; snode >>= 1; }`. -/
def pastOnes (fnode snode : ℕ) : ℕ × ℕ :=
  if fnode % 2 = 1 then pastOnes (fnode / 2) (snode / 2) else (fnode, snode)
termination_by fnode

/-- The loop over a path's hashes, the same in both verifiers but for what runs along:
`left` takes in a hash from the left, `right` one from the right. -/
def walkPath {σ : Type} (tooLong : String) (left right : H → σ → σ) :
    ℕ → ℕ → σ → List H → Except Refusal (ℕ × σ)
  | _, snode, running, [] => .ok (snode, running)
  | fnode, snode, running, part :: path =>
      if snode = 0 then .error (.malformed tooLong)
      else if fnode % 2 = 1 ∨ fnode = snode then
        let at_ := if fnode % 2 = 0 then pastZeros fnode snode else (fnode, snode)
        walkPath tooLong left right (at_.1 / 2) (at_.2 / 2) (left part running) path
      else walkPath tooLong left right (fnode / 2) (snode / 2) (right part running) path

/-- Verify that `leaf` sits at `index` in the tree of `size` leaves whose root is
`root`, along `path`. -/
def verifyInclusion [DecidableEq H] (leaf : H) (index size : ℕ) (root : H) (path : List H) :
    Except Refusal Unit := do
  if path.length > MAX_PROOF_HASHES then throw (.bound "inclusion path hashes")
  if index ≥ size then throw .outOfRange
  let walked ← walkPath "inclusion path too long" nodeHash
    (fun part running => nodeHash running part) index (size - 1) leaf path
  if walked.1 = 0 ∧ walked.2 = root then return () else throw .unproven

/-- `u64::is_power_of_two`. -/
def isPowerOfTwo (n : ℕ) : Bool := 2 ^ Nat.log2 n = n

/-- Verify that the tree of `firstSize` leaves under `firstRoot` is a prefix of the
tree of `secondSize` leaves under `secondRoot`, along `proof`. -/
def verifyConsistency [DecidableEq H] (firstSize : ℕ) (firstRoot : H) (secondSize : ℕ)
    (secondRoot : H) (proof : List H) : Except Refusal Unit := do
  if proof.length > MAX_PROOF_HASHES then throw (.bound "consistency path hashes")
  if firstSize = 0 ∨ firstSize > secondSize then throw .outOfRange
  if firstSize = secondSize then
    if firstRoot = secondRoot ∧ proof = [] then return () else throw .unproven
  else
    match (if isPowerOfTwo firstSize then [firstRoot] else []) ++ proof with
    | [] => throw (.malformed "empty consistency path")
    | seed :: parts =>
        let at_ := pastOnes (firstSize - 1) (secondSize - 1)
        let walked ← walkPath "consistency path too long"
          (fun part running => (nodeHash part running.1, nodeHash part running.2))
          (fun part running => (running.1, nodeHash running.2 part)) at_.1 at_.2 (seed, seed) parts
        if walked.1 = 0 ∧ walked.2.1 = firstRoot ∧ walked.2.2 = secondRoot then return ()
        else throw .unproven

end Tree

end Chronicle

/-! ## The log -/

/-- The log itself: leaf hashes only. -/
structure Chronicle (H : Type) where
  leaves : List H
  bounded : leaves.length ≤ Chronicle.MAX_CHRONICLE_ENTRIES

namespace Chronicle

section Log

variable {H : Type} [Digests H]

def size (log : Chronicle H) : ℕ := log.leaves.length

def root (log : Chronicle H) : H := subtreeRoot log.leaves

/-- The inclusion path for the entry at `index` under the current head. -/
def inclusion (log : Chronicle H) (index : ℕ) : Except Refusal (List H) :=
  if index ≥ log.leaves.length then .error .outOfRange else .ok (auditPath index log.leaves)

/-- The consistency path from the head at `firstSize` to the current one. -/
def consistency (log : Chronicle H) (firstSize : ℕ) : Except Refusal (List H) :=
  if firstSize = 0 ∨ firstSize > log.leaves.length then .error .outOfRange
  else if firstSize = log.leaves.length then .ok []
  else .ok (subproof firstSize log.leaves true)

end Log

/-! ## Digests one after the other -/

/-- A byte string that says where it ends: a one before each byte, a zero after the
last. -/
def selfDelimited : List UInt8 → List UInt8
  | [] => [0]
  | v :: l => 1 :: v :: selfDelimited l

theorem selfDelimited_append_injective {l l' m m' : List UInt8}
    (h : selfDelimited l ++ m = selfDelimited l' ++ m') : l = l' ∧ m = m' := by
  induction l generalizing l' with
  | nil =>
      cases l' with
      | nil => exact ⟨rfl, by simpa [selfDelimited] using h⟩
      | cons v' l' => simp [selfDelimited] at h
  | cons v l ih =>
      cases l' with
      | nil => simp [selfDelimited] at h
      | cons v' l' =>
          simp only [selfDelimited, List.cons_append, List.cons.injEq, true_and] at h
          obtain ⟨rfl, rfl⟩ := ih h.2
          exact ⟨by rw [h.1], rfl⟩

/-- Digests that keep their input, as a computable witness that `node_hash` can be
injective. -/
@[reducible] def plainDigests : Digests Bytes where
  deriveKey context input := context ++ input
  bytes digest := ⟨selfDelimited digest.data⟩

theorem plainDigests_nodeHash :
    Function.Injective2 (@nodeHash Bytes plainDigests) := by
  intro left left' right right' h
  have hjoined := congrArg Bytes.data (Bytes.append_right_inj.mp h)
  obtain ⟨hleft, hrest⟩ := selfDelimited_append_injective hjoined
  have hright : selfDelimited right.data ++ [] = selfDelimited right'.data ++ [] :=
    congrArg (· ++ []) hrest
  exact ⟨Bytes.ext hleft, Bytes.ext (selfDelimited_append_injective hright).1⟩

end Chronicle

end Lait
