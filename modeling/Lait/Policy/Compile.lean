import Lait.RowReduction
import Lait.Policy.Expansion

/-!
# Compiling a policy to a linear access structure

An expanded policy becomes a matrix with one row for each leaf, over the field of the
scalars, and the target `(1, 0, …, 0)`.  The root stands for the target itself.  A gate
of threshold `k` takes `k - 1` columns of its own, and its member at index `j` stands for
the gate's row, continued there by the powers of `j + 1`.

A set of leaves reconstructs when the target is a combination of its rows, found by row
reduction; a witness carries the coefficients, and is verified without them being found
again.  `AccessStructure` proves that the sets that reconstruct are the ones that
satisfy the policy.

A serialized structure is untrusted.  One that was validated carries what was checked,
and the arithmetic is defined on these alone.
-/

namespace Lait.Policy.Compile

open RowReduction

/-! ## Solving -/

section Solve

variable {F : Type} [Field F] [DecidableEq F]

/-- Each pivot's coefficient is the last entry of its row. -/
def readOff (rows : List (List F)) (m : ℕ) : List ℕ → ℕ → List F → List F
  | [], _, lambda => lambda
  | pc :: pivots, i, lambda =>
      readOff rows m pivots (i + 1) (lambda.set pc ((rows.getD i []).getD m 0))

/-- The equations of a combination: one for each column, with a coefficient for each row and
the target's entry last. -/
def equations (rows : List (List F)) (target : List F) : List (List F) :=
  (List.range target.length).map fun c => rows.map (fun row => row.getD c 0) ++ [target.getD c 0]

/-- Solve `λ · rows = target`, or `none` if the rows do not span the target. -/
def solveRowCombination (rows : List (List F)) (target : List F) : Option (List F) :=
  let m := rows.length
  if m = 0 then
    if target.all fun t => t = 0 then some [] else none
  else
    let solved := (⟨equations rows target, []⟩ : Elimination F).run (List.range m)
    if solved.rows.any fun row => (row.take m).all (fun x => x = 0) && row.getD m 0 ≠ 0 then none
    else some (readOff solved.rows m solved.pivots 0 (List.replicate m 0))

end Solve

/-! ## Building the rows -/

section Build

variable {F : Type} [Field F]

/-- The powers of a point, from a given one on. -/
def powers (point : F) : ℕ → F → List F
  | 0, _ => []
  | n + 1, power => power :: powers point n (power * point)

/-- `Vec::resize`, with zeros. -/
def resize (row : List F) (n : ℕ) : List F := row.take n ++ List.replicate (n - row.length) 0

/-- What the member at an index stands for. -/
def memberRow (row : List F) (new j : ℕ) : List F :=
  row ++ powers ((j + 1 : ℕ) : F) new ((j + 1 : ℕ) : F)

mutual

/-- The rows of a node's leaves, after those built before it, and the columns used. -/
def build (node : ExpandedPolicy) (row : List F) (state : ℕ × List (Holder × List F)) :
    ℕ × List (Holder × List F) :=
  match node with
  | .leaf id => (state.1, state.2 ++ [(id, row)])
  | .threshold k members =>
      buildMembers members 0 (resize row state.1) (k - 1) (state.1 + (k - 1), state.2)

/-- Those of the members of a gate, from an index on. -/
def buildMembers (members : List ExpandedPolicy) (j : ℕ) (row : List F) (new : ℕ)
    (state : ℕ × List (Holder × List F)) : ℕ × List (Holder × List F) :=
  match members with
  | [] => state
  | member :: members =>
      buildMembers members (j + 1) row new (build member (memberRow row new j) state)

end

end Build

/-! ## The compiled artifact -/

/-- A serialized field element. -/
abbrev Fe := Bytes

namespace Fe

variable {p : ℕ}

/-- 32 little-endian bytes. -/
def fromScalar (s : ZMod p) : Fe := ⟨Bytes.leBytes 32 s.val⟩

/-- The scalar the bytes encode canonically, if any. -/
def asScalar (p : ℕ) (f : Fe) : Option (ZMod p) :=
  if f.length = 32 ∧ Bytes.leValue f.data < p then some (Bytes.leValue f.data : ZMod p) else none

theorem asScalar_fromScalar [NeZero p] (hp : p ≤ 256 ^ 32) (s : ZMod p) :
    asScalar p (fromScalar s) = some s := by
  have hvalue : Bytes.leValue (fromScalar s).data = s.val :=
    Bytes.leValue_leBytes (lt_of_lt_of_le s.val_lt hp)
  have hlength : (fromScalar s).length = 32 := Bytes.length_leBytes 32 s.val
  rw [asScalar, hvalue, if_pos ⟨hlength, s.val_lt⟩, ZMod.natCast_zmod_val]

end Fe

/-- The domain of commitments. -/
def COMMITMENT_DOMAIN : Bytes := Bytes.ofString "lait/space/1/policy/1/access-structure"

def COMPILER_VERSION : ℕ := 1

def MAX_MATRIX_ROWS : ℕ := 512

def MAX_MATRIX_COLS : ℕ := 512

def MAX_MATRIX_CELLS : ℕ := MAX_MATRIX_ROWS * MAX_MATRIX_COLS

/-- One row for each leaf. -/
structure AccessMatrix where
  rows : List (List Fe)
  cols : ℕ
  deriving DecidableEq

/-- A compiled access structure, not to be trusted. -/
structure CompiledPolicy where
  version : ℕ
  policy : PolicyId
  /-- In row order. -/
  leaves : List Holder
  matrix : AccessMatrix
  /-- The target vector. -/
  target : List Fe
  deriving DecidableEq

/-- The content address of a compiled access structure. -/
abbrev AccessStructureCommitment := Bytes

/-- The coefficients a qualified set applies. -/
structure ReconstructionWitness where
  structure_ : AccessStructureCommitment
  /-- The leaves used, in row order. -/
  leaves : List Holder
  /-- Parallel to the leaves. -/
  coefficients : List Fe
  deriving DecidableEq

/-- Why a compiled policy failed validation. -/
inductive Invalid
  | unsupportedVersion (version : ℕ)
  | dimensionMismatch
  | noncanonicalScalar
  | badTarget
  | duplicateLeaf
  | tooLarge
  deriving DecidableEq

/-- The dimensions of a structure agree. -/
def CompiledPolicy.Consistent (c : CompiledPolicy) : Prop :=
  c.matrix.cols ≠ 0 ∧ c.matrix.rows.length = c.leaves.length ∧ c.target.length = c.matrix.cols ∧
    ∀ row ∈ c.matrix.rows, row.length = c.matrix.cols

/-- They are within the limits. -/
def CompiledPolicy.Bounded (c : CompiledPolicy) : Prop :=
  c.matrix.rows.length ≤ MAX_MATRIX_ROWS ∧ c.matrix.cols ≤ MAX_MATRIX_COLS ∧
    c.matrix.rows.length * c.matrix.cols ≤ MAX_MATRIX_CELLS

/-- Every stored element is a scalar. -/
def CompiledPolicy.Canonical (p : ℕ) (c : CompiledPolicy) : Prop :=
  ∀ f ∈ c.matrix.rows.flatten ++ c.target, (Fe.asScalar p f).isSome = true

/-- The target is the first unit vector. -/
def CompiledPolicy.Targets (p : ℕ) (c : CompiledPolicy) : Prop :=
  c.target.head? = some (Fe.fromScalar (1 : ZMod p)) ∧
    ∀ f ∈ c.target.tail, f = Fe.fromScalar (0 : ZMod p)

instance (c : CompiledPolicy) : Decidable c.Consistent := inferInstanceAs (Decidable (_ ∧ _))

instance (c : CompiledPolicy) : Decidable c.Bounded := inferInstanceAs (Decidable (_ ∧ _))

instance (p : ℕ) (c : CompiledPolicy) : Decidable (c.Canonical p) :=
  inferInstanceAs (Decidable (∀ f ∈ c.matrix.rows.flatten ++ c.target, _))

instance (p : ℕ) (c : CompiledPolicy) : Decidable (c.Targets p) :=
  inferInstanceAs (Decidable (_ ∧ _))

/-- A compiled policy with every structural check it passed. -/
structure StructurallyValidatedCompiledPolicy (p : ℕ) where
  inner : CompiledPolicy
  version_eq : inner.version = COMPILER_VERSION
  consistent : inner.Consistent
  bounded : inner.Bounded
  canonical : inner.Canonical p
  targets : inner.Targets p
  nodup : inner.leaves.Nodup

/-- Check every structural invariant. -/
def CompiledPolicy.validateStructure (p : ℕ) (c : CompiledPolicy) :
    Except Invalid (StructurallyValidatedCompiledPolicy p) :=
  if hversion : c.version = COMPILER_VERSION then
    if hconsistent : c.Consistent then
      if hbounded : c.Bounded then
        if hcanonical : c.Canonical p then
          if htargets : c.Targets p then
            if hnodup : c.leaves.Nodup then
              .ok ⟨c, hversion, hconsistent, hbounded, hcanonical, htargets, hnodup⟩
            else .error .duplicateLeaf
          else .error .badTarget
        else .error .noncanonicalScalar
      else .error .tooLarge
    else .error .dimensionMismatch
  else .error (.unsupportedVersion c.version)

namespace StructurallyValidatedCompiledPolicy

variable {p : ℕ} (v : StructurallyValidatedCompiledPolicy p)

/-- The content address over the whole committed structure. -/
def commitment [Crypto] [Postcard CompiledPolicy] : AccessStructureCommitment :=
  Crypto.blake3 (Bytes.join [COMMITMENT_DOMAIN, ⟨Bytes.leBytes 2 v.inner.version⟩,
    Postcard.toStdvec v.inner])

/-- The row of a leaf. -/
def indexOf (leaf : Holder) : Option ℕ := v.inner.leaves.idxOf? leaf

/-- The scalars of stored elements; validation proved that there are such. -/
def scalars (row : List Fe) : List (ZMod p) := row.map fun f => (Fe.asScalar p f).getD 0

/-- A row of the matrix. -/
def scalarRow (i : ℕ) : List (ZMod p) := scalars (v.inner.matrix.rows.getD i [])

/-- The rows at the indices given. -/
def scalarRows (idxs : List ℕ) : List (List (ZMod p)) := idxs.map v.scalarRow

/-- The target. -/
def targetScalars : List (ZMod p) := scalars v.inner.target

/-- The rows of the leaves given, in order, each once. -/
def indicesOf (subset : List Holder) : List ℕ :=
  (subset.filterMap v.indexOf).toFinset.sort (· ≤ ·)

variable [Crypto] [Postcard CompiledPolicy]

/-- Reconstruction coefficients for a set of leaves, without the ones that are zero. -/
def reconstruct [Fact p.Prime] (subset : List Holder) : Option ReconstructionWitness :=
  let idxs := v.indicesOf subset
  (solveRowCombination (v.scalarRows idxs) v.targetScalars).map fun lambda =>
    let used := (idxs.zip lambda).filter fun term => term.2 ≠ 0
    { structure_ := v.commitment
      leaves := used.map fun term => v.inner.leaves.getD term.1 Bytes.empty
      coefficients := used.map fun term => Fe.fromScalar term.2 }

/-- Add a multiple of a row. -/
def addTerm (acc : List (ZMod p)) (i : ℕ) (c : ZMod p) : List (ZMod p) :=
  List.zipWith (fun a cell => a + c * cell) acc (v.scalarRow i)

/-- The combination that the terms of a witness spell; `none` when one is not a leaf of the
structure, out of order, not a scalar, or zero. -/
def combine : List (Holder × Fe) → Option ℕ → List (ZMod p) → Option (List (ZMod p))
  | [], _, acc => some acc
  | (leaf, coeff) :: terms, prev, acc =>
      match v.indexOf leaf with
      | none => none
      | some i =>
          if prev.any fun before => i ≤ before then none
          else
            match Fe.asScalar p coeff with
            | none => none
            | some c => if c = 0 then none else combine terms (some i) (v.addTerm acc i c)

/-- Verify a witness against the structure. -/
def verifyWitness (w : ReconstructionWitness) : Bool :=
  if w.structure_ ≠ v.commitment ∨ w.leaves.length ≠ w.coefficients.length then false
  else
    match v.combine (w.leaves.zip w.coefficients) none (List.replicate v.inner.matrix.cols 0) with
    | none => false
    | some acc => acc = v.targetScalars

end StructurallyValidatedCompiledPolicy

/-- What the compiler writes down for an expansion. -/
def assemble (p : ℕ) [Fact p.Prime] (expansion : Expansion) : CompiledPolicy :=
  let built := build (F := ZMod p) expansion.tree [1] (1, [])
  let cols := built.1
  { version := COMPILER_VERSION
    policy := expansion.id
    leaves := built.2.map Prod.fst
    matrix :=
      { rows := built.2.map fun row => (resize row.2 cols).map Fe.fromScalar
        cols }
    target := (List.replicate cols (Fe.fromScalar (0 : ZMod p))).set 0
      (Fe.fromScalar (1 : ZMod p)) }

/-- Compile an expansion into its validated access structure. -/
def compile (p : ℕ) [Fact p.Prime] (expansion : Expansion) :
    Except Invalid (StructurallyValidatedCompiledPolicy p) :=
  (assemble p expansion).validateStructure p

end Lait.Policy.Compile
