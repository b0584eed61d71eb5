import Lait.Ceremony.Configuration
import Lait.Fallible
import Lait.ThresholdTree

/-!
# Ownership policies

An ownership rule is written with four kinds of node and reduced to one canonical form
of keys and thresholds.  Children are reduced first.  A node of the kind that asks for
all, or for any, takes over the members of children of its own kind; members are then
sorted by their encoding, and one that occurs twice is refused.

What is left is bounded: no gate asks for more members than it has, or for none, and no
gate has fewer than two (`gates_of_normalize`).  A threshold is a 16-bit number, and so
is the count of members it is compared with; that the count is not cut short follows
from the bound on the leaves of the whole, which is checked last.
-/

namespace Lait.Policy

/-- The authoring surface for an ownership policy. -/
inductive OwnershipPolicy
  | key (principal : Principal)
  | threshold (k : ℕ) (members : List OwnershipPolicy)
  | allOf (members : List OwnershipPolicy)
  | anyOf (members : List OwnershipPolicy)

/-- A policy of keys and thresholds. -/
abbrev PolicyTree := ThresholdTree Principal

/-- Why a policy could not be canonicalized. -/
inductive Invalid
  | empty
  | zeroThreshold
  | unsatisfiable (k members : ℕ)
  | duplicateMember
  | tooDeep
  | tooManyLeaves (leaves : ℕ)
  | tooLarge (size : ℕ)
  deriving DecidableEq

def MAX_DEPTH : ℕ := 32

def MAX_LEAVES : ℕ := 256

def MAX_ENCODED_BYTES : ℕ := 65536

/-- The gate an authoring node reduces through. -/
inductive Gate
  | all
  | any
  | fixed (k : ℕ)
  deriving DecidableEq

/-- Whether a node asks for all of its members. -/
def isAllGate : PolicyTree → Bool
  | .leaf _ => false
  | .threshold k members => k = members.length

/-- Whether a node asks for any one of its members. -/
def isAnyGate : PolicyTree → Bool
  | .leaf _ => false
  | .threshold k _ => k = 1

/-- Inline the members of any child of the same gate, leaving others in place. -/
def flattenInto (sameGate : PolicyTree → Bool) (members : List PolicyTree) : List PolicyTree :=
  members.flatMap fun member =>
    match member with
    | .leaf a => [.leaf a]
    | .threshold k inner => if sameGate member then inner else [.threshold k inner]

/-- What a gate does to its reduced members before they are compared. -/
def Gate.flatten : Gate → List PolicyTree → List PolicyTree
  | all, members => flattenInto isAllGate members
  | any, members => flattenInto isAnyGate members
  | fixed _, members => members

/-- The threshold of a gate over so many members, a count of 16 bits. -/
def Gate.effective : Gate → ℕ → ℕ
  | all, n => n
  | any, _ => 1
  | fixed k, _ => k

section Normalize

variable [Postcard PolicyTree]

/-- Sort the reduced members of a gate, refuse repeated ones, and settle the threshold. -/
def closeGate (gate : Gate) (members : List PolicyTree) : Except Invalid PolicyTree :=
  let sorted := (gate.flatten members).insertionSort fun a b =>
    Postcard.toStdvec a ≤ Postcard.toStdvec b
  let distinct := sorted.destutter (· ≠ ·)
  if distinct.length ≠ sorted.length then .error .duplicateMember
  else
    let n := distinct.length % 65536
    if n < gate.effective n then .error (.unsatisfiable (gate.effective n) n)
    else
      match distinct with
      | [member] => .ok member
      | _ => .ok (.threshold (gate.effective n) distinct)

mutual

/-- Bottom-up normalization. -/
def normalize (policy : OwnershipPolicy) (depth : ℕ) : Except Invalid PolicyTree :=
  if MAX_DEPTH < depth then .error .tooDeep
  else
    match policy with
    | .key principal => .ok (.leaf principal)
    | .allOf members => normalizeGate .all members depth
    | .anyOf members => normalizeGate .any members depth
    | .threshold k members => normalizeGate (.fixed k) members depth

/-- A gate: its children first. -/
def normalizeGate (gate : Gate) (members : List OwnershipPolicy) (depth : ℕ) :
    Except Invalid PolicyTree :=
  if members.isEmpty then .error .empty
  else if gate = .fixed 0 then .error .zeroThreshold
  else do
    let reduced ← normalizeMembers members (depth + 1)
    closeGate gate reduced

/-- The children, in order. -/
def normalizeMembers (members : List OwnershipPolicy) (depth : ℕ) :
    Except Invalid (List PolicyTree) :=
  match members with
  | [] => .ok []
  | member :: members => do
      let first ← normalize member depth
      let rest ← normalizeMembers members depth
      return first :: rest

end

/-! ## What normalization leaves -/

/-- A gate of two members or more that asks for no more than it has.  That it asks for one at
least is known only where the count of its members is not cut short. -/
def Loose (k n : ℕ) : Prop := 2 ≤ n ∧ k ≤ n ∧ (n < 65536 → 1 ≤ k)

omit [Postcard PolicyTree] in
theorem gates_flatten {gate : Gate} {members : List PolicyTree}
    (h : ∀ t ∈ members, t.Gates Loose) : ∀ t ∈ gate.flatten members, t.Gates Loose := by
  have hinto : ∀ sameGate, ∀ t ∈ flattenInto sameGate members, t.Gates Loose := by
    intro sameGate t ht
    obtain ⟨member, hmember, ht⟩ := List.mem_flatMap.mp ht
    have hgates := h member hmember
    cases member with
    | leaf a =>
        rw [List.mem_singleton.mp ht]
        exact hgates
    | threshold k inner =>
        dsimp only at ht
        split at ht
        · exact ThresholdTree.gatesOf_iff.mp hgates.2 t ht
        · rw [List.mem_singleton.mp ht]
          exact hgates
  cases gate with
  | all => exact hinto isAllGate
  | any => exact hinto isAnyGate
  | fixed k => exact h

omit [Postcard PolicyTree] in
theorem flatten_ne_nil {gate : Gate} {members : List PolicyTree} (hne : members ≠ [])
    (h : ∀ t ∈ members, t.Gates Loose) : gate.flatten members ≠ [] := by
  obtain ⟨member, hmember⟩ := List.exists_mem_of_ne_nil members hne
  have hinto : ∀ sameGate, flattenInto sameGate members ≠ [] := by
    intro sameGate hnil
    have hone := List.flatMap_eq_nil_iff.mp hnil member hmember
    cases member with
    | leaf a => cases hone
    | threshold k inner =>
        dsimp only at hone
        split at hone
        · have htwo := (h _ hmember).1.1
          rw [hone] at htwo
          exact absurd htwo (by decide)
        · cases hone
  cases gate with
  | all => exact hinto isAllGate
  | any => exact hinto isAnyGate
  | fixed k => exact hne

/-- The members of a closed gate are two or more. -/
theorem gates_closeGate {gate : Gate} (hgate : gate ≠ .fixed 0) {members : List PolicyTree}
    (hne : members ≠ []) (h : ∀ t ∈ members, t.Gates Loose) {t : PolicyTree}
    (hclose : closeGate gate members = .ok t) : t.Gates Loose := by
  have hflat : ∀ t ∈ gate.flatten members, t.Gates Loose := gates_flatten h
  have hnonempty : gate.flatten members ≠ [] := flatten_ne_nil hne h
  rw [closeGate] at hclose
  generalize hsorted : (gate.flatten members).insertionSort
    (fun a b => Postcard.toStdvec a ≤ Postcard.toStdvec b) = sorted at hclose
  have hperm : sorted.Perm (gate.flatten members) := hsorted ▸ List.perm_insertionSort _ _
  dsimp only at hclose
  split at hclose
  next => cases hclose
  next hlength =>
    have hdistinct : ∀ t ∈ sorted.destutter (· ≠ ·), t.Gates Loose := fun t ht =>
      hflat t (hperm.mem_iff.mp ((List.destutter_sublist _ _).subset ht))
    have hpos : 0 < (sorted.destutter (· ≠ ·)).length := by
      rw [not_not.mp hlength, hperm.length_eq]
      exact List.length_pos_iff.mpr hnonempty
    generalize sorted.destutter (· ≠ ·) = distinct at hclose hdistinct hpos
    split at hclose
    next => cases hclose
    next hle =>
      split at hclose
      next member =>
        cases hclose
        exact hdistinct t (List.mem_singleton_self t)
      next hmany =>
        cases hclose
        have htwo : 2 ≤ distinct.length := by
          rcases distinct with _ | ⟨a, _ | ⟨b, rest⟩⟩
          · exact absurd hpos (lt_irrefl _)
          · exact absurd rfl (hmany a)
          · simp
        refine ⟨⟨htwo, ?_, fun hsmall => ?_⟩, ThresholdTree.gatesOf_iff.mpr hdistinct⟩
        · exact (not_lt.mp hle).trans (Nat.mod_le _ _)
        · rw [Nat.mod_eq_of_lt hsmall]
          cases gate with
          | all => exact hpos
          | any => exact le_refl _
          | fixed k =>
              have hk : k ≠ 0 := fun hzero => hgate (hzero ▸ rfl)
              exact Nat.one_le_iff_ne_zero.mpr hk

mutual

/-- **Normalization bounds every gate.** -/
theorem gates_of_normalize (policy : OwnershipPolicy) (depth : ℕ) {t : PolicyTree}
    (h : normalize policy depth = .ok t) : t.Gates Loose := by
  unfold normalize at h
  split at h
  next => cases h
  next =>
    cases policy with
    | key principal =>
        cases h
        trivial
    | threshold k members => exact gates_of_normalizeGate _ members depth h
    | allOf members => exact gates_of_normalizeGate _ members depth h
    | anyOf members => exact gates_of_normalizeGate _ members depth h

theorem gates_of_normalizeGate (gate : Gate) (members : List OwnershipPolicy) (depth : ℕ)
    {t : PolicyTree} (h : normalizeGate gate members depth = .ok t) : t.Gates Loose := by
  unfold normalizeGate at h
  split at h
  next => cases h
  next hne =>
    split at h
    next => cases h
    next hgate =>
      obtain ⟨reduced, hreduced, hclose⟩ := bind_eq_ok.mp h
      obtain ⟨hlength, hgates⟩ := gates_of_normalizeMembers members (depth + 1) hreduced
      refine gates_closeGate hgate ?_ hgates hclose
      rintro rfl
      exact hne (List.isEmpty_iff.mpr (List.length_eq_zero_iff.mp hlength.symm))

theorem gates_of_normalizeMembers (members : List OwnershipPolicy) (depth : ℕ)
    {reduced : List PolicyTree} (h : normalizeMembers members depth = .ok reduced) :
    reduced.length = members.length ∧ ∀ t ∈ reduced, t.Gates Loose := by
  cases members with
  | nil =>
      unfold normalizeMembers at h
      cases h
      exact ⟨rfl, fun t ht => absurd ht List.not_mem_nil⟩
  | cons member members =>
      unfold normalizeMembers at h
      obtain ⟨first, hfirst, h⟩ := bind_eq_ok.mp h
      obtain ⟨rest, hrest, h⟩ := bind_eq_ok.mp h
      cases h
      have hhead := gates_of_normalize member depth hfirst
      obtain ⟨hlength, htail⟩ := gates_of_normalizeMembers members depth hrest
      exact ⟨by simp [hlength], List.forall_mem_cons.mpr ⟨hhead, htail⟩⟩

end

end Normalize

/-! ## Canonical policies -/

/-- A gate of a canonical policy: two members or more, and a threshold among them. -/
def Normal (k n : ℕ) : Prop := 2 ≤ n ∧ 1 ≤ k ∧ k ≤ n

/-- The normal form. -/
structure CanonicalPolicy where
  tree : PolicyTree
  normal : tree.Gates Normal

mutual

/-- A gate has no more members than the formula has leaves. -/
theorem gates_small {t : PolicyTree} (h : t.Gates Loose) {n : ℕ} (hleaves : t.leaves.length ≤ n) :
    t.Gates fun _ members => members ≤ n := by
  cases t with
  | leaf a => trivial
  | threshold k members =>
      refine ⟨?_, gatesOf_small h.2 hleaves⟩
      refine (ThresholdTree.length_le_leavesOf ?_).trans hleaves
      exact h.2.mono fun _ _ hloose => lt_of_lt_of_le Nat.two_pos hloose.1

theorem gatesOf_small {l : List PolicyTree} (h : ThresholdTree.GatesOf Loose l) {n : ℕ}
    (hleaves : (ThresholdTree.leavesOf l).length ≤ n) :
    ThresholdTree.GatesOf (fun _ members => members ≤ n) l := by
  cases l with
  | nil => trivial
  | cons t l =>
      rw [ThresholdTree.leavesOf, List.length_append] at hleaves
      exact ⟨gates_small h.1 (by omega), gatesOf_small h.2 (by omega)⟩

end

/-- With few leaves no count is cut short. -/
theorem gates_normal {t : PolicyTree} (h : t.Gates Loose) (hleaves : t.leaves.length ≤ MAX_LEAVES) :
    t.Gates Normal := by
  refine (ThresholdTree.Gates.and h (gates_small h hleaves)).mono fun k n hboth => ?_
  obtain ⟨⟨htwo, hle, hone⟩, hsmall⟩ := hboth
  unfold MAX_LEAVES at hsmall
  exact ⟨htwo, hone (by omega), hle⟩

/-- Reduce to canonical normal form, or reject a malformed policy. -/
def OwnershipPolicy.canonicalize [Postcard PolicyTree] (policy : OwnershipPolicy) :
    Except Invalid CanonicalPolicy :=
  match hnormalize : normalize policy 0 with
  | .error e => .error e
  | .ok t =>
      if hleaves : MAX_LEAVES < t.leaves.length then .error (.tooManyLeaves t.leaves.length)
      else if MAX_ENCODED_BYTES < (Postcard.toStdvec t).length then
        .error (.tooLarge (Postcard.toStdvec t).length)
      else .ok ⟨t, gates_normal (gates_of_normalize policy 0 hnormalize) (not_lt.mp hleaves)⟩

/-- The content address of a canonical policy. -/
abbrev PolicyId := Bytes

/-- The domain of policy ids. -/
def POLICY_DOMAIN : Bytes := Bytes.ofString "lait/space/1/policy/1"

/-- The content address, domain-separated and grammar-versioned. -/
def CanonicalPolicy.id [Crypto] [Postcard PolicyTree] (policy : CanonicalPolicy) : PolicyId :=
  Crypto.blake3 (Bytes.join [POLICY_DOMAIN, Postcard.toStdvec policy.tree])

end Lait.Policy
