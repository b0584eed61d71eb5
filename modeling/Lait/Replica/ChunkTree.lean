import Lait.Fallible
import Lait.Chronicle.Tree
import Lait.Replica.Protected

/-!
# The tree over sealed chunks

A content's descriptor carries one root over the leaves of its sealed chunks.  Three
loops must agree on the tree's shape: `merkleRoot` reduces level by level and promotes
an odd last node, `chunkProof` walks the same levels and collects siblings, and
`proofDepth` counts, from a position and a count alone, how many there will be.

A leaf carries its chunk's index *inside* the hash.  The prover looks a leaf up by that
index and the verifier reads it from the leaf it is handed, so neither knows where in
the list a leaf sits; they are about positions only on a list whose leaves carry their
positions (`Positional`), as every sealing writes them.

Digests are a type of their own, with the bytes they are hashed as: no injective hash
into byte strings of one length exists.  `ContentDigests.Ideal` is what the soundness
half needs of them, and the separation of leaves from nodes is proved from the two
domains.
-/

namespace Lait.Replica

/-- Domain for a Merkle leaf over one sealed chunk. -/
def CONTENT_LEAF_DOMAIN : Bytes := Bytes.ofString "lait/content-leaf/1"

/-- Domain for an interior Merkle node. -/
def CONTENT_NODE_DOMAIN : Bytes := Bytes.ofString "lait/content-node/1"

/-- Maximum Merkle proof depth at the frozen geometry. -/
def MAX_PROOF_DEPTH : ℕ := 22

/-- The largest a sealed chunk can be. -/
def maxCiphertextLen : ℕ := CHUNK_PLAINTEXT_LEN + BODY_ENVELOPE_OVERHEAD

/-- Why a descriptor, chunk or proof was refused. -/
inductive ContentInvalid
  | unsupportedVersion (version : ℕ)
  | geometry
  | nonCanonical
  | badSpaceId
  | proofMismatch
  | chunkMismatch
  | protection
  deriving DecidableEq

/-- The digests of `blake3::hash`, 32 bytes each in the source. -/
class ContentDigests (H : Type) where
  /-- `blake3::hash(input)`. -/
  hash : Bytes → H
  /-- The digest as bytes. -/
  bytes : H → Bytes

/-- An ideal hash, and digests of one length: the front of a string is cut off as a
digest in one way. -/
structure ContentDigests.Ideal (H : Type) [ContentDigests H] : Prop where
  hash_injective : Function.Injective (hash : Bytes → H)
  cut : ∀ {h h' : H} {rest rest' : Bytes}, bytes h ++ rest = bytes h' ++ rest' →
    h = h' ∧ rest = rest'

/-- The Merkle leaf over one sealed chunk. -/
structure ChunkLeaf (H : Type) where
  chunkIndex : UInt32
  ciphertextLen : UInt32
  ciphertextHash : H
  deriving DecidableEq

/-- One step of a sibling path. -/
structure ProofStep (H : Type) where
  sibling : H
  siblingIsLeft : Bool
  deriving DecidableEq

/-- The sidecar that proves one chunk against a descriptor's root. -/
structure ChunkProof (H : Type) where
  leaf : ChunkLeaf H
  /-- Sibling hashes from the leaf upward. -/
  path : List (ProofStep H)
  deriving DecidableEq

section Tree

variable {H : Type} [ContentDigests H]

namespace ChunkLeaf

def of (chunkIndex : UInt32) (ciphertext : Bytes) : Except ContentInvalid (ChunkLeaf H) :=
  if ciphertext.length < 4294967296 then
    .ok { chunkIndex, ciphertextLen := UInt32.ofNat ciphertext.length,
          ciphertextHash := ContentDigests.hash ciphertext }
  else .error .chunkMismatch

def hash (leaf : ChunkLeaf H) : H :=
  ContentDigests.hash (framed CONTENT_LEAF_DOMAIN [Bytes.be32 leaf.chunkIndex.toNat,
    Bytes.be32 leaf.ciphertextLen.toNat, ContentDigests.bytes leaf.ciphertextHash])

end ChunkLeaf

/-- An interior node. -/
def contentNodeHash (left right : H) : H :=
  ContentDigests.hash
    (framed CONTENT_NODE_DOMAIN [ContentDigests.bytes left, ContentDigests.bytes right])

/-- The root of no leaves. -/
def emptyMerkleRoot : H := ContentDigests.hash (framed CONTENT_NODE_DOMAIN [])

/-- The Merkle root over an ordered leaf set. -/
def merkleRoot (leaves : List (ChunkLeaf H)) : H :=
  (Merkle.rise contentNodeHash (leaves.map ChunkLeaf.hash)).getD emptyMerkleRoot

/-- One level of a proof: the pair that holds the position contributes the other half,
a promoted node nothing. -/
def levelSteps (position leftPosition : ℕ) : List H → List (ProofStep H)
  | left :: right :: rest =>
      (if position = leftPosition then [⟨right, false⟩]
        else if position = leftPosition + 1 then [⟨left, true⟩]
        else []) ++ levelSteps position (leftPosition + 2) rest
  | _ => []

/-- The levels of a proof. -/
def proofPath (position : ℕ) (level : List H) : List (ProofStep H) :=
  if level.length ≤ 1 then []
  else levelSteps position 0 level ++
    proofPath (position / 2) (Merkle.pairUp contentNodeHash level)
termination_by level.length
decreasing_by
  rw [Merkle.length_pairUp]
  omega

/-- Build the proof sidecar for `chunkIndex`. -/
def chunkProof (leaves : List (ChunkLeaf H)) (chunkIndex : UInt32) : Option (ChunkProof H) :=
  match leaves.findIdx? fun leaf => leaf.chunkIndex = chunkIndex with
  | none => none
  | some position =>
      leaves[position]?.map fun leaf =>
        { leaf, path := proofPath position (leaves.map ChunkLeaf.hash) }

namespace ChunkProof

/-- One step from the leaf upward. -/
def climbStep (acc : H) (step : ProofStep H) : H :=
  if step.siblingIsLeft then contentNodeHash step.sibling acc else contentNodeHash acc step.sibling

/-- Recompute this chunk's root. -/
def root (proof : ChunkProof H) : Except ContentInvalid H :=
  if MAX_PROOF_DEPTH < proof.path.length then .error .proofMismatch
  else .ok (proof.path.foldl climbStep proof.leaf.hash)

end ChunkProof

/-- How many steps prove a leaf of a level. -/
def proofDepthFrom (width position : ℕ) : ℕ :=
  if width ≤ 1 then 0
  else (if width % 2 = 1 ∧ position = width - 1 then 0 else 1) +
    proofDepthFrom ((width + 1) / 2) (position / 2)
termination_by width

/-- How many path steps prove one leaf. -/
def proofDepth (chunkCount chunkIndex : ℕ) : ℕ := proofDepthFrom (max chunkCount 1) chunkIndex

namespace ContentDescriptor

/-- Verify a proof against this descriptor without having the bytes. -/
def verifyLeaf (self : ContentDescriptor) (proof : ChunkProof H) : Except ContentInvalid Unit := do
  if self.chunkCount ≤ proof.leaf.chunkIndex.toNat then throw .geometry
  if maxCiphertextLen < proof.leaf.ciphertextLen.toNat then throw .chunkMismatch
  if proof.path.length ≠ proofDepth self.chunkCount proof.leaf.chunkIndex.toNat then
    throw .proofMismatch
  let root ← proof.root
  if ContentDigests.bytes root ≠ self.ciphertextMerkleRoot then throw .proofMismatch

/-- Everything opening a chunk checks except the decryption. -/
def verifyChunk [DecidableEq H] (self : ContentDescriptor) (proof : ChunkProof H)
    (ciphertext : Bytes) : Except ContentInvalid Unit := do
  if self.chunkCount ≤ proof.leaf.chunkIndex.toNat then throw .geometry
  if proof.leaf.ciphertextLen.toNat ≠ ciphertext.length then throw .chunkMismatch
  if maxCiphertextLen < ciphertext.length then throw .chunkMismatch
  if ContentDigests.hash ciphertext ≠ proof.leaf.ciphertextHash then throw .chunkMismatch
  if proof.path.length ≠ proofDepth self.chunkCount proof.leaf.chunkIndex.toNat then
    throw .proofMismatch
  let root ← proof.root
  if ContentDigests.bytes root ≠ self.ciphertextMerkleRoot then throw .proofMismatch

end ContentDescriptor

end Tree

/-! ## The prover's levels -/

section Complete

variable {H : Type} [ContentDigests H]

open Merkle

omit [ContentDigests H] in
theorem levelSteps_of_lt {position leftPosition : ℕ} (level : List H)
    (h : position < leftPosition) : levelSteps position leftPosition level = [] := by
  fun_induction levelSteps position leftPosition level with
  | case1 leftPosition left right rest ih =>
      rw [if_neg (by omega), if_neg (by omega), ih (by omega), List.append_nil]
  | case2 => rfl

omit [ContentDigests H] in
/-- A level contributes what stands beside the position. -/
theorem levelSteps_eq {leftPosition : ℕ} (i : ℕ) (level : List H) (hi : i < level.length) :
    levelSteps (leftPosition + i) leftPosition level =
      (beside i level).toList.map fun sibling => ⟨sibling, i % 2 = 1⟩ := by
  induction level using List.twoStepInduction generalizing i leftPosition with
  | nil => cases hi
  | singleton a =>
      obtain rfl : i = 0 := by simpa using hi
      rfl
  | cons_cons left right rest ih _ =>
      rw [levelSteps]
      match i with
      | 0 => rw [if_pos (by omega), levelSteps_of_lt rest (by omega)]; rfl
      | 1 => rw [if_neg (by omega), if_pos rfl, levelSteps_of_lt rest (by omega)]; rfl
      | i + 2 =>
          have hplace : leftPosition + (i + 2) = leftPosition + 2 + i := by omega
          have hbeside : beside (i + 2) (left :: right :: rest) = beside i rest := by
            unfold beside
            rw [Nat.add_mod_right]
            split
            case isTrue hodd =>
                obtain ⟨j, rfl⟩ : ∃ j, i = j + 1 := ⟨i - 1, by omega⟩
                rfl
            case isFalse => rfl
          rw [if_neg (by omega), if_neg (by omega), hplace, List.nil_append,
            ih i (by simpa using hi), hbeside, Nat.add_mod_right]

/-- **One level of a proof**: its steps take the value at the position to the value
above it, and there is one of them unless the value is promoted. -/
theorem climb_levelSteps {level : List H} {position : ℕ} {a : H}
    (ha : level[position]? = some a) :
    (pairUp contentNodeHash level)[position / 2]? =
        some ((levelSteps position 0 level).foldl ChunkProof.climbStep a) ∧
      (levelSteps position 0 level).length =
        if level.length % 2 = 1 ∧ position = level.length - 1 then 0 else 1 := by
  obtain ⟨hlt, rfl⟩ := List.getElem?_eq_some_iff.mp ha
  have hsteps := @levelSteps_eq H 0 position level hlt
  rw [Nat.zero_add] at hsteps
  rw [hsteps, beside]
  rcases Nat.even_or_odd' position with ⟨j, rfl | rfl⟩
  · have hj : 2 * j / 2 = j := by omega
    rw [hj, if_neg (by omega)]
    by_cases hlast : level.length = 2 * j + 1
    · -- an odd last value is carried up as it is
      have hnone : level[2 * j + 1]? = none := List.getElem?_eq_none (by omega)
      rw [if_pos ⟨by omega, by omega⟩, hnone, getElem?_pairUp_last contentNodeHash hlast, ha]
      exact ⟨rfl, rfl⟩
    · have hnext : 2 * j + 1 < level.length := by omega
      rw [if_neg (by omega), List.getElem?_eq_getElem hnext,
        getElem?_pairUp_pair contentNodeHash ha (List.getElem?_eq_getElem hnext)]
      simp [ChunkProof.climbStep]
  · have hj : (2 * j + 1) / 2 = j := by omega
    have hbefore : 2 * j < level.length := by omega
    rw [hj, if_pos (by omega), if_neg (by omega), Nat.add_sub_cancel,
      List.getElem?_eq_getElem hbefore,
      getElem?_pairUp_pair contentNodeHash (List.getElem?_eq_getElem hbefore) ha]
    simp [ChunkProof.climbStep]

theorem proofPath_of_length_le {level : List H} (h : level.length ≤ 1) (position : ℕ) :
    proofPath position level = [] := by
  rw [proofPath, if_pos h]

theorem proofPath_of_lt_length {level : List H} (h : 1 < level.length) (position : ℕ) :
    proofPath position level = levelSteps position 0 level ++
      proofPath (position / 2) (pairUp contentNodeHash level) := by
  rw [proofPath, if_neg (by omega)]

/-- A path takes the value it starts from to the root. -/
theorem rise_eq_foldl_proofPath (level : List H) {position : ℕ} {a : H}
    (ha : level[position]? = some a) :
    rise contentNodeHash level = some ((proofPath position level).foldl ChunkProof.climbStep a) := by
  induction level using level_induction (contentNodeHash : H → H → H) generalizing position a with
  | short level hshort =>
      obtain ⟨hlt, rfl⟩ := List.getElem?_eq_some_iff.mp ha
      obtain ⟨b, rfl⟩ : ∃ b, level = [b] := List.length_eq_one_iff.mp (by omega)
      rw [rise_singleton, proofPath_of_length_le hshort]
      simp
  | down level hlong ih =>
      rw [← rise_pairUp, ih (climb_levelSteps ha).1, proofPath_of_lt_length hlong,
        List.foldl_append]

/-- The three loops agree on the length of a path. -/
theorem length_proofPath (level : List H) {position : ℕ} (h : position < level.length) :
    (proofPath position level).length = proofDepthFrom level.length position := by
  induction level using level_induction (contentNodeHash : H → H → H) generalizing position with
  | short level hshort => rw [proofPath_of_length_le hshort, proofDepthFrom, if_pos hshort]; rfl
  | down level hlong ih =>
      have habove : position / 2 < (pairUp contentNodeHash level).length := by
        rw [length_pairUp]
        omega
      rw [proofPath_of_lt_length hlong, List.length_append, ih habove, length_pairUp,
        (climb_levelSteps (List.getElem?_eq_getElem h)).2]
      conv_rhs => rw [proofDepthFrom, if_neg (by omega)]

/-- A level of at most `2 ^ d` values is proved in at most `d` steps. -/
theorem proofDepthFrom_le {d width : ℕ} (position : ℕ) (h : width ≤ 2 ^ d) :
    proofDepthFrom width position ≤ d := by
  induction d generalizing width position with
  | zero => rw [proofDepthFrom, if_pos (by simpa using h)]
  | succ d ih =>
      rw [proofDepthFrom]
      rw [pow_succ] at h
      have habove := @ih ((width + 1) / 2) (position / 2) (by omega)
      split
      · omega
      · split <;> omega

theorem proofDepth_eq {leaves : List (ChunkLeaf H)} {i : ℕ} (hi : i < leaves.length) :
    proofDepth leaves.length i = (proofPath i (leaves.map ChunkLeaf.hash)).length := by
  rw [length_proofPath _ (by simpa using hi), List.length_map, proofDepth,
    max_eq_left (by omega)]

/-- The declared maximum covers every content within the chunk limit. -/
theorem proofDepth_le {chunkCount : ℕ} (i : ℕ) (h : chunkCount ≤ MAX_CHUNK_COUNT) :
    proofDepth chunkCount i ≤ MAX_PROOF_DEPTH :=
  proofDepthFrom_le i (show max chunkCount 1 ≤ 2 ^ 22 by rw [MAX_CHUNK_COUNT] at h; omega)

/-- What a prover builds climbs to the root, wherever the leaf was found. -/
theorem root_of_position {leaves : List (ChunkLeaf H)} {i : ℕ} {leaf : ChunkLeaf H}
    (hleaf : leaves[i]? = some leaf) (hcount : leaves.length ≤ MAX_CHUNK_COUNT) :
    (ChunkProof.mk leaf (proofPath i (leaves.map ChunkLeaf.hash))).root =
      .ok (merkleRoot leaves) := by
  obtain ⟨hlt, -⟩ := List.getElem?_eq_some_iff.mp hleaf
  have hhash : (leaves.map ChunkLeaf.hash)[i]? = some leaf.hash := by
    rw [List.getElem?_map, hleaf]
    rfl
  have hshort := proofDepth_le i hcount
  rw [proofDepth_eq hlt] at hshort
  rw [ChunkProof.root, if_neg (by simpa using hshort), merkleRoot, rise_eq_foldl_proofPath _ hhash]
  rfl

/-- Each leaf carries its position, as every sealing writes them. -/
def Positional (leaves : List (ChunkLeaf H)) : Prop :=
  ∀ (i : ℕ) (leaf : ChunkLeaf H), leaves[i]? = some leaf → leaf.chunkIndex.toNat = i

omit [ContentDigests H] in
/-- In such a list the lookup by index is the lookup by position. -/
theorem Positional.findIdx {leaves : List (ChunkLeaf H)} (h : Positional leaves) {i : UInt32}
    (hi : i.toNat < leaves.length) :
    (leaves.findIdx? fun leaf => leaf.chunkIndex = i) = some i.toNat := by
  rw [List.findIdx?_eq_some_iff_getElem]
  refine ⟨hi, ?_, fun j hj => ?_⟩
  · have hindex := h i.toNat _ (List.getElem?_eq_getElem hi)
    simpa using UInt32.toNat_inj.mp hindex
  · have hindex := h j _ (List.getElem?_eq_getElem (hj.trans hi))
    intro hsame
    rw [decide_eq_true_eq] at hsame
    rw [hsame] at hindex
    omega

theorem Positional.chunkProof_eq {leaves : List (ChunkLeaf H)} (h : Positional leaves) {i : UInt32}
    (hi : i.toNat < leaves.length) :
    chunkProof leaves i =
      some ⟨leaves[i.toNat], proofPath i.toNat (leaves.map ChunkLeaf.hash)⟩ := by
  simp only [chunkProof, h.findIdx hi, List.getElem?_eq_getElem hi, Option.map_some]

end Complete

/-! ## What an accepted path starts from -/

/-- A number below `2 ^ 32` is read back from its four bytes. -/
theorem be32_toNat_injective : Function.Injective fun n : UInt32 => Bytes.be32 n.toNat := by
  intro n m h
  have hn := n.toNat_lt
  have hm := m.toNat_lt
  have hdata := congrArg Bytes.data h
  simp only [Bytes.be32, Bytes.be16, Bytes.data_append, List.cons_append, List.nil_append,
    List.cons.injEq, ← UInt8.toNat_inj, UInt8.toNat_ofNat'] at hdata
  exact UInt32.toNat_inj.mp (by omega)

/-- A concatenation whose fronts have one length comes apart. -/
theorem append_inj_of_length {a a' b b' : Bytes} (h : a ++ b = a' ++ b')
    (hlen : a.length = a'.length) : a = a' ∧ b = b' := by
  have hdata := congrArg Bytes.data h
  rw [Bytes.data_append, Bytes.data_append] at hdata
  obtain ⟨ha, hb⟩ := List.append_inj hdata hlen
  exact ⟨Bytes.ext ha, Bytes.ext hb⟩

theorem framed_eq (domain : Bytes) (parts : List Bytes) : framed domain parts =
    Bytes.be16 (min domain.length 65535) ++ (domain ++ Bytes.join (parts.flatMap fun part =>
      [Bytes.be32 (min part.length 4294967295), part])) := by
  rw [framed, Bytes.join_cons, Bytes.join_cons]

/-- Domains of one length separate what is hashed under them. -/
theorem framed_inj {domain domain' : Bytes} {parts parts' : List Bytes}
    (hlen : domain.length = domain'.length) (h : framed domain parts = framed domain' parts') :
    domain = domain' ∧
      Bytes.join (parts.flatMap fun part => [Bytes.be32 (min part.length 4294967295), part]) =
        Bytes.join
          (parts'.flatMap fun part => [Bytes.be32 (min part.length 4294967295), part]) := by
  rw [framed_eq, framed_eq] at h
  exact append_inj_of_length (append_inj_of_length h rfl).2 hlen

section Sound

variable {H : Type} [ContentDigests H]

namespace ContentDigests.Ideal

open ContentDigests

/-- A leaf's hash determines the leaf. -/
theorem leaf_injective (hideal : Ideal H) :
    Function.Injective (ChunkLeaf.hash : ChunkLeaf H → H) := by
  intro leaf leaf' h
  have hparts := (framed_inj rfl (hideal.hash_injective h)).2
  simp only [List.flatMap_cons, List.flatMap_nil, List.cons_append, List.nil_append,
    Bytes.join_cons] at hparts
  have hindex := append_inj_of_length (append_inj_of_length hparts rfl).2 rfl
  have hlen := append_inj_of_length (append_inj_of_length hindex.2 rfl).2 rfl
  have hcipher := hideal.cut (append_inj_of_length hlen.2 rfl).2
  cases leaf
  cases leaf'
  simp only [ChunkLeaf.mk.injEq]
  exact ⟨be32_toNat_injective hindex.1, be32_toNat_injective hlen.1, hcipher.1⟩

/-- A node's hash determines both children. -/
theorem node_injective (hideal : Ideal H) :
    Function.Injective2 (contentNodeHash : H → H → H) := by
  intro left left' right right' h
  have hparts := (framed_inj rfl (hideal.hash_injective h)).2
  simp only [List.flatMap_cons, List.flatMap_nil, List.cons_append, List.nil_append,
    Bytes.join_cons] at hparts
  obtain ⟨hleft, hrest⟩ := hideal.cut (append_inj_of_length hparts rfl).2
  exact ⟨hleft, (hideal.cut (append_inj_of_length hrest rfl).2).1⟩

/-- No leaf is hashed as a node. -/
theorem leaf_ne_node (hideal : Ideal H) (leaf : ChunkLeaf H) (left right : H) :
    leaf.hash ≠ contentNodeHash left right := by
  intro h
  have hdomain := (framed_inj (by decide) (hideal.hash_injective h)).1
  revert hdomain
  decide

/-- A digest is its bytes. -/
theorem bytes_injective (hideal : Ideal H) : Function.Injective (bytes : H → Bytes) :=
  fun _ _ h => (hideal.cut (congrArg (· ++ Bytes.empty) h)).1

end ContentDigests.Ideal

/-- The values that nodes build over some leaves. -/
inductive OverLeaves (leaves : List (ChunkLeaf H)) : H → Prop
  | leaf {leaf : ChunkLeaf H} : leaf ∈ leaves → OverLeaves leaves leaf.hash
  | node {left right : H} : OverLeaves leaves left → OverLeaves leaves right →
      OverLeaves leaves (contentNodeHash left right)

/-- Pairing keeps a level over its leaves. -/
theorem OverLeaves.pairUp {leaves : List (ChunkLeaf H)} {level : List H}
    (h : ∀ a ∈ level, OverLeaves leaves a) :
    ∀ a ∈ Merkle.pairUp contentNodeHash level, OverLeaves leaves a := by
  fun_induction Merkle.pairUp contentNodeHash level with
  | case1 left right rest ih =>
      obtain ⟨hleft, hrest⟩ := List.forall_mem_cons.mp h
      obtain ⟨hright, hrest⟩ := List.forall_mem_cons.mp hrest
      exact List.forall_mem_cons.mpr ⟨.node hleft hright, ih hrest⟩
  | case2 a => exact h
  | case3 => exact h

theorem OverLeaves.rise {leaves : List (ChunkLeaf H)} (level : List H)
    (h : ∀ a ∈ level, OverLeaves leaves a) {root : H}
    (hroot : Merkle.rise contentNodeHash level = some root) : OverLeaves leaves root := by
  induction level using Merkle.level_induction (contentNodeHash : H → H → H) with
  | short level hshort =>
      rcases level with _ | ⟨a, _ | ⟨b, rest⟩⟩
      · rw [Merkle.rise] at hroot
        cases hroot
      · rw [Merkle.rise_singleton] at hroot
        obtain rfl := Option.some.inj hroot
        exact h a List.mem_cons_self
      · simp at hshort
  | down level hlong ih =>
      rw [← Merkle.rise_pairUp] at hroot
      exact ih (OverLeaves.pairUp h) hroot

/-- The root of some leaves is built over them. -/
theorem overLeaves_merkleRoot {leaves : List (ChunkLeaf H)} (h : 0 < leaves.length) :
    OverLeaves leaves (merkleRoot leaves) := by
  obtain ⟨leaf, hleaf⟩ : ∃ leaf, leaves[0]? = some leaf := ⟨_, List.getElem?_eq_getElem h⟩
  have hhash : (leaves.map ChunkLeaf.hash)[0]? = some leaf.hash := by
    rw [List.getElem?_map, hleaf]
    rfl
  have hrise := rise_eq_foldl_proofPath _ hhash
  rw [merkleRoot, hrise, Option.getD_some]
  refine OverLeaves.rise (leaves.map ChunkLeaf.hash) (fun a ha => ?_) hrise
  obtain ⟨leaf', hmem, rfl⟩ := List.mem_map.mp ha
  exact .leaf hmem

/-- **What climbs to a value built over some leaves is one of them**, along whatever
path: backwards from the root, each step of the path is a node, and a node has one pair
of children. -/
theorem mem_of_overLeaves (hideal : ContentDigests.Ideal H) {leaves : List (ChunkLeaf H)}
    {leaf : ChunkLeaf H} (path : List (ProofStep H))
    (h : OverLeaves leaves (path.foldl ChunkProof.climbStep leaf.hash)) : leaf ∈ leaves := by
  induction path using List.reverseRecOn with
  | nil =>
      rw [List.foldl_nil] at h
      generalize hvalue : leaf.hash = value at h
      cases h with
      | leaf hmem => exact hideal.leaf_injective hvalue ▸ hmem
      | node _ _ => exact absurd hvalue (hideal.leaf_ne_node _ _ _)
  | append_singleton path step ih =>
      refine ih ?_
      rw [List.foldl_append, List.foldl_cons, List.foldl_nil] at h
      generalize path.foldl ChunkProof.climbStep leaf.hash = acc at h ⊢
      generalize hvalue : ChunkProof.climbStep acc step = value at h
      cases h with
      | @leaf leaf' _ =>
          unfold ChunkProof.climbStep at hvalue
          split at hvalue
          · exact absurd hvalue.symm (hideal.leaf_ne_node _ _ _)
          · exact absurd hvalue.symm (hideal.leaf_ne_node _ _ _)
      | node hleft hright =>
          unfold ChunkProof.climbStep at hvalue
          split at hvalue
          · exact (hideal.node_injective hvalue).2 ▸ hright
          · exact (hideal.node_injective hvalue).1 ▸ hleft

end Sound

/-! ## The descriptor's checks -/

section Verify

variable {H : Type} [ContentDigests H] {self : ContentDescriptor} {proof : ChunkProof H}

/-- What a verified leaf passed. -/
theorem ContentDescriptor.verifyLeaf_eq_ok :
    self.verifyLeaf proof = .ok () ↔
      proof.leaf.chunkIndex.toNat < self.chunkCount ∧
        proof.leaf.ciphertextLen.toNat ≤ maxCiphertextLen ∧
        proof.path.length = proofDepth self.chunkCount proof.leaf.chunkIndex.toNat ∧
        ∃ root, proof.root = .ok root ∧ ContentDigests.bytes root = self.ciphertextMerkleRoot := by
  rw [verifyLeaf, guard_eq_ok, guard_eq_ok, guard_eq_ok, bind_eq_ok, not_le, not_lt, not_not]
  simp only [check_eq_ok, not_not]

/-- A verified chunk is the bytes of a verified leaf. -/
theorem ContentDescriptor.verifyChunk_eq_ok [DecidableEq H] {ciphertext : Bytes} :
    self.verifyChunk proof ciphertext = .ok () ↔
      self.verifyLeaf proof = .ok () ∧ proof.leaf.ciphertextLen.toNat = ciphertext.length ∧
        ContentDigests.hash ciphertext = proof.leaf.ciphertextHash := by
  rw [verifyLeaf_eq_ok, verifyChunk, guard_eq_ok, guard_eq_ok, guard_eq_ok, guard_eq_ok,
    guard_eq_ok, bind_eq_ok, not_le, not_lt, not_not, not_not, not_not]
  simp only [check_eq_ok, not_not]
  constructor
  · rintro ⟨hindex, hlen, hmax, hhash, hrest⟩
    exact ⟨⟨hindex, hlen ▸ hmax, hrest⟩, hlen, hhash⟩
  · rintro ⟨⟨hindex, hmax, hrest⟩, hlen, hhash⟩
    exact ⟨hindex, hlen, hlen ▸ hmax, hhash, hrest⟩

/-- **A chunk's proof is complete and sound.**  Over leaves that carry their positions,
what `chunkProof` builds for an index is the leaf there with a path of the declared
length, and the descriptor's checks accept it.  Whatever those checks accept against the
root of some leaves is one of them, and the one at its index where the leaves carry
their positions. -/
theorem chunkProof_complete_and_sound [DecidableEq H] :
    (∀ leaves : List (ChunkLeaf H), Positional leaves → leaves.length ≤ MAX_CHUNK_COUNT →
      ∀ i : UInt32, i.toNat < leaves.length → ∃ proof, chunkProof leaves i = some proof ∧
        leaves[i.toNat]? = some proof.leaf ∧
        proof.path.length = proofDepth leaves.length i.toNat ∧
        proof.path.length ≤ MAX_PROOF_DEPTH ∧ proof.root = .ok (merkleRoot leaves) ∧
        ∀ descriptor : ContentDescriptor, descriptor.chunkCount = leaves.length →
          descriptor.ciphertextMerkleRoot = ContentDigests.bytes (merkleRoot leaves) →
          proof.leaf.ciphertextLen.toNat ≤ maxCiphertextLen →
          descriptor.verifyLeaf proof = .ok () ∧ ∀ ciphertext,
            ChunkLeaf.of i ciphertext = .ok proof.leaf →
              descriptor.verifyChunk proof ciphertext = .ok ()) ∧
    (ContentDigests.Ideal H → ∀ (leaves : List (ChunkLeaf H)) (descriptor : ContentDescriptor)
      (proof : ChunkProof H), descriptor.chunkCount = leaves.length →
        descriptor.ciphertextMerkleRoot = ContentDigests.bytes (merkleRoot leaves) →
        descriptor.verifyLeaf proof = .ok () →
        proof.leaf ∈ leaves ∧
          (Positional leaves → leaves[proof.leaf.chunkIndex.toNat]? = some proof.leaf)) := by
  constructor
  · intro leaves hpositional hcount i hi
    have hleaf := List.getElem?_eq_getElem hi
    have hdepth := proofDepth_eq hi
    have hindex := hpositional _ _ hleaf
    have hroot := root_of_position hleaf hcount
    refine ⟨_, hpositional.chunkProof_eq hi, hleaf, hdepth.symm,
      hdepth ▸ proofDepth_le _ hcount, hroot, fun descriptor hchunks hrootbytes hshort => ?_⟩
    have hverified : descriptor.verifyLeaf
        ⟨leaves[i.toNat], proofPath i.toNat (leaves.map ChunkLeaf.hash)⟩ = .ok () := by
      refine ContentDescriptor.verifyLeaf_eq_ok.mpr ⟨?_, hshort, ?_, _, hroot, hrootbytes.symm⟩
      · rw [hchunks, hindex]
        exact hi
      · rw [hchunks, hindex, hdepth]
    refine ⟨hverified, fun ciphertext hof => ?_⟩
    refine ContentDescriptor.verifyChunk_eq_ok.mpr ⟨hverified, ?_⟩
    unfold ChunkLeaf.of at hof
    split at hof
    case isTrue hlen =>
        rw [← Except.ok.inj hof]
        exact ⟨UInt32.toNat_ofNat_of_lt' hlen, rfl⟩
    case isFalse => cases hof
  · intro hideal leaves descriptor proof hchunks hrootbytes hverified
    obtain ⟨hindex, -, -, root, hroot, hbytes⟩ :=
      ContentDescriptor.verifyLeaf_eq_ok.mp hverified
    obtain rfl : root = merkleRoot leaves :=
      hideal.bytes_injective (hbytes.trans hrootbytes)
    have hover : OverLeaves leaves (proof.path.foldl ChunkProof.climbStep proof.leaf.hash) := by
      unfold ChunkProof.root at hroot
      split at hroot
      case isTrue => cases hroot
      case isFalse =>
          rw [Except.ok.inj hroot]
          exact overLeaves_merkleRoot (by omega)
    have hmem := mem_of_overLeaves hideal proof.path hover
    refine ⟨hmem, fun hpositional => ?_⟩
    obtain ⟨j, hj⟩ := List.mem_iff_getElem?.mp hmem
    rw [hpositional j _ hj, hj]

end Verify

/-- Digests that keep their input, as a computable witness that the hash can be ideal. -/
@[reducible] def plainContentDigests : ContentDigests Bytes where
  hash input := input
  bytes digest := ⟨Chronicle.selfDelimited digest.data⟩

theorem plainContentDigests_ideal : @ContentDigests.Ideal Bytes plainContentDigests := by
  let _ := plainContentDigests
  refine ⟨Function.injective_id, fun {h h' rest rest'} heq => ?_⟩
  obtain ⟨hdigest, hrest⟩ := Chronicle.selfDelimited_append_injective (congrArg Bytes.data heq)
  exact ⟨Bytes.ext hdigest, Bytes.ext hrest⟩

/-- Three leaves in their places. -/
def threeLeaves : List (ChunkLeaf Bytes) :=
  [⟨0, 1, ⟨[5]⟩⟩, ⟨1, 1, ⟨[6]⟩⟩, ⟨2, 1, ⟨[7]⟩⟩]

/-- A descriptor over some leaves. -/
def leavesDescriptor (leaves : List (ChunkLeaf Bytes)) : ContentDescriptor :=
  let _ := plainContentDigests
  { formatVersion := CONTENT_FORMAT_VERSION, space := Bytes.empty, contentNonce := Bytes.empty,
    plaintextLen := 0, chunkPlaintextLen := CHUNK_PLAINTEXT_LEN, chunkCount := leaves.length,
    ciphertextMerkleRoot := ContentDigests.bytes (merkleRoot leaves), epoch := Bytes.empty }

theorem threeLeaves_positional : Positional threeLeaves := by
  intro i leaf hleaf
  match i with
  | 0 | 1 | 2 => simp [threeLeaves] at hleaf; subst hleaf; rfl
  | i + 3 => simp [threeLeaves] at hleaf

/-- The promoted last leaf of three is proved in one step, and what is accepted in its
place is that leaf. -/
theorem threeLeaves_proof :
    (∃ proof, @chunkProof Bytes plainContentDigests threeLeaves 2 = some proof ∧
      proof.path.length = 1) ∧
    ∀ proof : ChunkProof Bytes, proof.leaf.chunkIndex = 2 →
      @ContentDescriptor.verifyLeaf Bytes plainContentDigests (leavesDescriptor threeLeaves) proof =
        .ok () → threeLeaves[2]? = some proof.leaf := by
  let _ := plainContentDigests
  obtain ⟨hcomplete, hsound⟩ := chunkProof_complete_and_sound (H := Bytes)
  constructor
  · obtain ⟨proof, hproof, -, hlen, -⟩ := hcomplete threeLeaves threeLeaves_positional (by decide) 2
      (by decide)
    exact ⟨proof, hproof, hlen.trans (by decide +kernel)⟩
  · intro proof hindex hverified
    have hat := (hsound plainContentDigests_ideal threeLeaves (leavesDescriptor threeLeaves) proof
      rfl rfl hverified).2 threeLeaves_positional
    rwa [hindex] at hat

/-- Two leaves in each other's places. -/
def crossedLeaves : List (ChunkLeaf Bytes) := [⟨1, 1, ⟨[5]⟩⟩, ⟨0, 1, ⟨[6]⟩⟩]

/-- Where leaves do not carry their positions, the proof of an index is accepted and
proves another leaf than the one at that index. -/
theorem crossedLeaves_proof :
    ∃ proof : ChunkProof Bytes, @chunkProof Bytes plainContentDigests crossedLeaves 0 = some proof ∧
      @ContentDescriptor.verifyLeaf Bytes plainContentDigests (leavesDescriptor crossedLeaves)
        proof = .ok () ∧ proof.leaf.chunkIndex = 0 ∧ crossedLeaves[0]? ≠ some proof.leaf := by
  let _ := plainContentDigests
  refine ⟨⟨⟨0, 1, ⟨[6]⟩⟩, [⟨ChunkLeaf.hash ⟨1, 1, ⟨[5]⟩⟩, true⟩]⟩, ?_, ?_, rfl, ?_⟩
  · decide +kernel
  · decide +kernel
  · decide

end Lait.Replica
