import Lait.Replica.Encodings

/-!
# Admission of a Body's material

Material is decoded from bytes a peer chose, checked against the bounds of the
protocol, and compared with its own encoding.  The bound on the tail is a bound
on a sum of 64-bit lengths, none of which is bounded alone.  What the sum comes to
when it does not fit depends on the build: with overflow checks the decoder
panics, without them the sum wraps, and a tail of any length can pass for a short
one.

The sum is right in both builds exactly where it fits 64 bits
(`addAll_eq`), so the bytes that decode safely are those that are refused before
the sum is taken, and those whose tail adds up below `2 ^ 64`.
-/

namespace Lait.Replica

/-- What a build does with a sum that does not fit. -/
inductive Overflow
  | checked
  | wrapping
  deriving DecidableEq

/-- Addition on `u64`. -/
def Overflow.add : Overflow → ℕ → ℕ → Option ℕ
  | checked, a, b => if a + b < 2 ^ 64 then some (a + b) else none
  | wrapping, a, b => some ((a + b) % 2 ^ 64)

/-- `iter().sum()`: one addition after another. -/
def Overflow.addAll (overflow : Overflow) (lens : List ℕ) : Option ℕ :=
  lens.foldlM overflow.add 0

/-- How decoding ends. -/
inductive Decoded
  | ok (material : Material)
  | invalid (reason : CausalInvalid)
  | panicked
  deriving DecidableEq

namespace Material

/-- The lengths of the tail. -/
def tailLens (material : Material) : List ℕ := material.deltaTail.map ArtifactRef.len

/-- `validate`, in a build that checks its sums or in one that does not. -/
def validateIn (overflow : Overflow) (material : Material) : Option (Except CausalInvalid Unit) :=
  if material.formatVersion ≠ CAUSAL_FORMAT_VERSION then some (.error .nonCanonical)
  else if MAX_MATERIAL_PLAINTEXT_BYTES < material.plaintextSize then some (.error .bounds)
  else do
    let tailBytes ← overflow.addAll material.tailLens
    if CheckpointPolicy.default.admits material.deltaTail.length tailBytes then
      some material.version.validate
    else some (.error .bounds)

/-- `decode_canonical`. -/
def decodeCanonical [Postcard Material] (overflow : Overflow) (bytes : Bytes) : Decoded :=
  match (Postcard.fromBytes bytes : Option Material) with
  | none => .invalid .nonCanonical
  | some material =>
      match material.validateIn overflow with
      | none => .panicked
      | some (.error reason) => .invalid reason
      | some (.ok ()) =>
          if Postcard.toStdvec material ≠ bytes then .invalid .nonCanonical else .ok material

end Material

/-! ## Sums -/

theorem foldlM_wrapping (lens : List ℕ) (start : ℕ) :
    lens.foldlM Overflow.wrapping.add (start % 2 ^ 64) = some ((start + lens.sum) % 2 ^ 64) := by
  induction lens generalizing start with
  | nil => rfl
  | cons len lens ih =>
      rw [List.foldlM_cons, List.sum_cons, ← Nat.add_assoc, ← ih (start + len)]
      show lens.foldlM Overflow.wrapping.add ((start % 2 ^ 64 + len) % 2 ^ 64) = _
      rw [Nat.mod_add_mod]

theorem addAll_wrapping (lens : List ℕ) :
    Overflow.wrapping.addAll lens = some (lens.sum % 2 ^ 64) := by
  have h := foldlM_wrapping lens 0
  rwa [Nat.zero_add] at h

/-- Additions that are checked come to the sum or, where it does not fit, to nothing. -/
theorem foldlM_checked (lens : List ℕ) {start : ℕ} (hstart : start < 2 ^ 64) :
    lens.foldlM Overflow.checked.add start =
      if start + lens.sum < 2 ^ 64 then some (start + lens.sum) else none := by
  induction lens generalizing start with
  | nil => rw [List.sum_nil, Nat.add_zero, if_pos hstart]; rfl
  | cons len lens ih =>
      rw [List.foldlM_cons, List.sum_cons, ← Nat.add_assoc]
      by_cases hlen : start + len < 2 ^ 64
      · rw [show Overflow.checked.add start len = some (start + len) from if_pos hlen]
        exact ih hlen
      · rw [show Overflow.checked.add start len = none from if_neg hlen, if_neg (by omega)]
        rfl

/-- **A sum that fits is right in every build.** -/
theorem addAll_eq {lens : List ℕ} (h : lens.sum < 2 ^ 64) (overflow : Overflow) :
    overflow.addAll lens = some lens.sum := by
  cases overflow with
  | wrapping => rw [addAll_wrapping, Nat.mod_eq_of_lt h]
  | checked =>
      have hchecked := foldlM_checked lens (show 0 < 2 ^ 64 by decide)
      rw [Nat.zero_add, if_pos h] at hchecked
      exact hchecked

/-- One that does not fit is a panic where it is checked. -/
theorem addAll_checked_eq_none {lens : List ℕ} (h : 2 ^ 64 ≤ lens.sum) :
    Overflow.checked.addAll lens = none := by
  have hchecked := foldlM_checked lens (show 0 < 2 ^ 64 by decide)
  rwa [Nat.zero_add, if_neg (not_lt.mpr h)] at hchecked

/-! ## Which bytes decode safely -/

section Decoding

variable [Postcard Material]

/-- What admission promises about a byte string: in no build does decoding it panic, and what it
decodes to is inside the bounds, its tail summed exactly. -/
def AdmittedSafely (bytes : Bytes) : Prop :=
  ∀ overflow, Material.decodeCanonical overflow bytes ≠ .panicked ∧
    ∀ material, Material.decodeCanonical overflow bytes = .ok material →
      material.tailLens.sum ≤ CheckpointPolicy.default.maxTailBytes ∧
        material.deltaTail.length ≤ CheckpointPolicy.default.maxTailDeltas

/-- Material in the bytes that is not refused before its tail is summed has a tail that sums
below `2 ^ 64`. -/
def TailFits (bytes : Bytes) : Prop :=
  ∀ material : Material, Postcard.fromBytes bytes = some material →
    material.formatVersion = CAUSAL_FORMAT_VERSION →
    material.plaintextSize ≤ MAX_MATERIAL_PLAINTEXT_BYTES → material.tailLens.sum < 2 ^ 64

omit [Postcard Material] in
/-- A tail that fits is admitted by its exact sum, whatever the build. -/
theorem Material.validateIn_eq_ok {material : Material} (overflow : Overflow)
    (hfits : material.formatVersion = CAUSAL_FORMAT_VERSION →
      material.plaintextSize ≤ MAX_MATERIAL_PLAINTEXT_BYTES → material.tailLens.sum < 2 ^ 64) :
    ∃ result, material.validateIn overflow = some result ∧ (result = .ok () →
      CheckpointPolicy.default.admits material.deltaTail.length material.tailLens.sum = true) := by
  unfold validateIn
  split
  next => exact ⟨_, rfl, fun h => (nomatch h)⟩
  next hformat =>
    split
    next => exact ⟨_, rfl, fun h => (nomatch h)⟩
    next hplaintext =>
      rw [addAll_eq (hfits (not_not.mp hformat) (not_lt.mp hplaintext)) overflow,
        Option.bind_eq_bind, Option.bind_some]
      split
      next hadmits => exact ⟨_, rfl, fun _ => hadmits⟩
      next => exact ⟨_, rfl, fun h => (nomatch h)⟩

/-- **Decoding is safe exactly where the tail's lengths sum below `2 ^ 64`.** -/
theorem admittedSafely_iff (bytes : Bytes) : AdmittedSafely bytes ↔ TailFits bytes := by
  constructor
  · intro h material hmaterial hformat hplaintext
    by_contra hsum
    refine (h .checked).1 ?_
    have hpanic : material.validateIn .checked = none := by
      unfold Material.validateIn
      rw [if_neg (not_not.mpr hformat), if_neg (not_lt.mpr hplaintext),
        addAll_checked_eq_none (not_lt.mp hsum)]
      rfl
    unfold Material.decodeCanonical
    simp only [hmaterial, hpanic]
  · intro h overflow
    unfold Material.decodeCanonical
    cases hmaterial : (Postcard.fromBytes bytes : Option Material) with
    | none => exact ⟨fun h => (nomatch h), fun _ h => (nomatch h)⟩
    | some material =>
        obtain ⟨result, hresult, hadmits⟩ :=
          Material.validateIn_eq_ok overflow (h material hmaterial)
        simp only [hresult]
        cases result with
        | error reason => exact ⟨fun h => (nomatch h), fun _ h => (nomatch h)⟩
        | ok _ =>
            have hbounds := hadmits rfl
            unfold CheckpointPolicy.admits at hbounds
            rw [Bool.and_eq_true, decide_eq_true_iff, decide_eq_true_iff] at hbounds
            dsimp only
            split
            next => exact ⟨fun h => (nomatch h), fun _ h => (nomatch h)⟩
            next =>
              refine ⟨fun h => (nomatch h), fun material' heq => ?_⟩
              cases heq
              exact hbounds.symm

end Decoding

/-- Material whose tail is two deltas of `2 ^ 63` bytes each. -/
def halvesMaterial : Material where
  formatVersion := CAUSAL_FORMAT_VERSION
  checkpoint := ⟨⟨[]⟩, 0, ⟨[]⟩⟩
  deltaTail := [⟨⟨[]⟩, 2 ^ 63, ⟨[]⟩⟩, ⟨⟨[]⟩, 2 ^ 63, ⟨[]⟩⟩]
  historyRoot := none
  historyCount := 0
  version := Version.empty
  plaintextSize := 0

/-- Its lengths sum to zero modulo `2 ^ 64`, so a build without checks accepts it and a build with
them panics. -/
theorem not_admittedSafely_halves :
    let _ : Postcard Material := Encodings.material.postcard
    ∃ bytes : Bytes, Material.decodeCanonical .checked bytes = .panicked ∧
      Material.decodeCanonical .wrapping bytes = .ok halvesMaterial ∧
      CheckpointPolicy.default.maxTailBytes < halvesMaterial.tailLens.sum ∧
      ¬ AdmittedSafely bytes := by
  intro _
  have hread : Postcard.fromBytes (Postcard.toStdvec halvesMaterial) = some halvesMaterial :=
    Encodings.material.postcard_roundTrip halvesMaterial
  have hchecked : halvesMaterial.validateIn .checked = none := by decide +kernel
  have hwrapping : halvesMaterial.validateIn .wrapping = some (.ok ()) := by decide +kernel
  have hpanics : Material.decodeCanonical .checked (Postcard.toStdvec halvesMaterial) =
      .panicked := by
    unfold Material.decodeCanonical
    simp only [hread, hchecked]
  have haccepts : Material.decodeCanonical .wrapping (Postcard.toStdvec halvesMaterial) =
      .ok halvesMaterial := by
    unfold Material.decodeCanonical
    simp only [hread, hwrapping]
    exact if_neg (not_not.mpr rfl)
  exact ⟨_, hpanics, haccepts, by decide +kernel, fun h => (h .checked).1 hpanics⟩

end Lait.Replica
