import Lait.Host

/-!
# Replica frontiers and Body chains

A `ReplicaFrontier` commits an accepted history: a root and the number of
transactions under it.  Two chains of hashes are built from it.

* The **replica frontier** of a store is moved by `advance`, once per accepted
  transaction, and by `advancePublished`, which moves the root alone: content
  changes the signed manifest root without adding a transaction.
* The **chain frontier** of one Body is moved by `advanceChain` at each local
  write, compared by `chainOrder`, and merged by `combineChains` when two
  collaborative histories join.

Integers are the source's `u64`: naturals, with saturation and overflow written
where the source has them.
-/

namespace Lait.Replica

/-- `u64::MAX`. -/
def U64_MAX : ℕ := 18446744073709551615

/-- `saturating_add` on `u64`. -/
def saturatingAdd (a b : ℕ) : ℕ := min (a + b) U64_MAX

/-- `checked_add` on `u64`. -/
def checkedAdd (a b : ℕ) : Option ℕ := if a + b ≤ U64_MAX then some (a + b) else none

/-- `checked_sub` on `u64`. -/
def checkedSub (a b : ℕ) : Option ℕ := if b ≤ a then some (a - b) else none

theorem checkedAdd_eq_some {a b c : ℕ} (h : checkedAdd a b = some c) : c = a + b := by
  unfold checkedAdd at h
  split at h
  · exact (Option.some.inj h).symm
  · cases h

/-- A commitment to an accepted history: a root over it and its size. -/
structure ReplicaFrontier where
  root : Bytes
  transactionCount : ℕ
  deriving DecidableEq

namespace ReplicaFrontier

/-- The zero root, committing zero transactions. -/
def EMPTY : ReplicaFrontier := ⟨⟨List.replicate 32 0⟩, 0⟩

end ReplicaFrontier

/-- An opaque commitment to authority material, compared for equality. -/
abbrev AuthorityFrontier := Bytes

/-- Domain separator for advancing the semantic frontier. -/
def FRONTIER_DOMAIN : Bytes := Bytes.ofString "lait/replica-frontier/1"

/-- Domain separator for advancing a Body's chain frontier. -/
def BODY_CHAIN_DOMAIN : Bytes := Bytes.ofString "lait/body-chain/1"

section Advance

variable [Crypto]

/-- Advance the Replica frontier from a commit's causal evidence. -/
def advance (prev : ReplicaFrontier) (causal : Bytes) : ReplicaFrontier :=
  ⟨Crypto.blake3 (Bytes.join [FRONTIER_DOMAIN, prev.root, causal]),
    saturatingAdd prev.transactionCount 1⟩

/-- Move the published coordinate without claiming a transaction. -/
def advancePublished (prev : ReplicaFrontier) (causal : Bytes) : ReplicaFrontier :=
  ⟨Crypto.blake3 (Bytes.join [FRONTIER_DOMAIN, prev.root, Bytes.ofString "published", causal]),
    prev.transactionCount⟩

/-- Advance a Body's chain frontier from the transaction that wrote it. -/
def advanceChain (prev : ReplicaFrontier) (tx : Bytes) : ReplicaFrontier :=
  ⟨Crypto.blake3 (Bytes.join [BODY_CHAIN_DOMAIN, prev.root, tx]),
    saturatingAdd prev.transactionCount 1⟩

/-- The deterministic atomic-conflict order: height first, then root bytes. -/
def chainOrder (a b : ReplicaFrontier) : Ordering :=
  (compare a.transactionCount b.transactionCount).then (compare a.root b.root)

/-- Combine two collaborative chain frontiers deterministically. -/
def combineChains (a b : ReplicaFrontier) : ReplicaFrontier :=
  let (lo, hi) := if a.root ≤ b.root then (a, b) else (b, a)
  ⟨Crypto.blake3 (Bytes.join [BODY_CHAIN_DOMAIN, lo.root, hi.root]),
    max a.transactionCount b.transactionCount⟩

end Advance

end Lait.Replica
