import Lait.Ceremony.SmallCurve

/-!
# Redistribution keeps the key

Honest dealers share their own shares anew, with coefficients that redistribute
the old polynomial (`Coefficients`).  What they deal passes every check of
`reshareFinalize` but one that no dealer can pass for everybody: FROST has no
verifying share for zero, so a participant finishes exactly when **no** new
participant's combined share is zero.  The new shares are the values of one
polynomial of the new degree with the old secret as constant term, so any of them
that are enough recover it (`reshare_keeps_key`).
-/

namespace Lait.Ceremony

open Sharing Polynomial

section Spec

variable {F G : Type} [Field F] [AddCommGroup G] [Module F G] [DecidableEq F] [DecidableEq G]
variable [ScalarBytes F] [PointBytes G] [Frost F G] [Postcard (List Bytes)]
variable (hcurve : LawfulCurve F G)
include hcurve

/-! ## Honest dealing -/

omit hcurve in
/-- An old sharing of `p.eval 0`, as its public package publishes it. -/
structure Shares (k n : ℕ) (p : F[X]) (pkp : PublicKeyPackage G) : Prop where
  degree : p.degree < k
  key : pkp.verifyingKey = p.eval 0 • (PointBytes.base : G)
  shares : ∀ i : ℕ, i ≠ 0 → i ≤ n →
    pkp.verifyingShares[i]? = some (p.eval (node i) • (PointBytes.base : G))

omit hcurve in
/-- A holder that dealt its real share. -/
structure Deals (p : F[X]) (newK newN i : ℕ) (blob : Bytes) (subs : BTreeMap ℕ Bytes) : Prop where
  dealt : ∃ keyShare draw, reshareDeal (F := F) (G := G) keyShare newK newN draw = .ok (blob, subs) ∧
    ∃ kp : KeyPackage F G, Frost.deserializeKey keyShare = some kp ∧
      kp.signingShare = p.eval (node i)

omit hcurve in
/-- The scalar dealt to a new participant. -/
def dealtTo (subs : BTreeMap ℕ Bytes) (m : ℕ) : F :=
  ((subs[m]?).bind ScalarBytes.fromCanonicalBytes).getD 0

omit hcurve in
/-- The share a new participant is dealt in all. -/
noncomputable def newShare (q : List ℕ) (subs : ℕ → BTreeMap ℕ Bytes) (m : ℕ) : F :=
  (q.map fun i => weight (node : ℕ → F) q i * dealtTo (subs i) m).sum

omit hcurve in
/-- One entry for every index of a list, and no other. -/
def Covers (q : List ℕ) (m : BTreeMap ℕ Bytes) (f : ℕ → Option Bytes) : Prop :=
  ∀ i : ℕ, m[i]? = if i ∈ q then f i else none

omit hcurve in
/-- The commitment lists are read back as they were written. -/
def BlobsRoundTrip : Prop :=
  ∀ raw : List Bytes, (∀ bytes ∈ raw, bytes.length = 32) →
    Postcard.fromBytes (Postcard.toStdvec raw) = some raw

omit hcurve [Field F] [AddCommGroup G] [Module F G] [DecidableEq F] [DecidableEq G] [ScalarBytes F]
  [PointBytes G] [Frost F G] [Postcard (List Bytes)] in
/-- A map that covers a list has its keys. -/
theorem Covers.keys_eq {q : List ℕ} {m : BTreeMap ℕ Bytes} {f : ℕ → Option Bytes}
    (h : Covers q m f) (hf : ∀ i ∈ q, ∃ bytes, f i = some bytes) :
    m.keys.toFinset = q.toFinset := by
  ext i
  rw [List.mem_toFinset, List.mem_toFinset, BTreeMap.mem_keys_iff, h i]
  constructor
  · rintro ⟨bytes, hbytes⟩
    by_contra hi
    rw [if_neg hi] at hbytes
    cases hbytes
  · intro hi
    rw [if_pos hi]
    exact hf i hi

omit [Field F] [Module F G] [DecidableEq F] in
theorem decodeCommitments_encodeCommitments (hblobs : BlobsRoundTrip) (points : List G) :
    decodeCommitments (encodeCommitments points) points.length = .ok points := by
  have hraw : Postcard.fromBytes (Postcard.toStdvec (points.map (PointBytes.compress (G := G))))
      = some (points.map PointBytes.compress) := by
    refine hblobs _ fun bytes hbytes => ?_
    obtain ⟨point, -, rfl⟩ := List.mem_map.mp hbytes
    exact hcurve.length_compress point
  have hpoints : (points.map PointBytes.compress).mapM pointOf = .ok points := by
    rw [mapM_eq_ok_iff, List.forall₂_map_left_iff, List.forall₂_same]
    intro point _
    rw [pointOf, hcurve.decompress_compress]
    rfl
  unfold decodeCommitments encodeCommitments
  simp only [bind_eq_ok, ser_eq_ok, guard_eq_ok]
  exact ⟨_, hraw, by simp, hpoints⟩

omit [Field F] [Module F G] [DecidableEq F] [Postcard (List Bytes)] in
theorem scalarOf_toBytes (s : F) : scalarOf (ScalarBytes.toBytes s) = .ok s := by
  unfold scalarOf
  rw [if_neg (not_not.mpr (hcurve.length_toBytes s)), hcurve.fromCanonicalBytes_toBytes]
  rfl

omit [DecidableEq F] [Postcard (List Bytes)] hcurve in
theorem get_subShares (sigma : List F) {newN m : ℕ} (hm : m ∈ List.range' 1 newN) :
    (subShares sigma newN)[m]? = some (ScalarBytes.toBytes (evalAt sigma (node m : F))) := by
  obtain ⟨v, hv⟩ := BTreeMap.exists_get_foldl_insert (f := fun m : ℕ => m)
    (g := fun m => ScalarBytes.toBytes (evalAt sigma (node m : F))) (l := List.range' 1 newN)
    (m := ∅) (k := m) (.inl ⟨m, hm, rfl⟩)
  rcases BTreeMap.exists_of_get_foldl_insert hv with ⟨_, _, rfl, rfl⟩ | hempty
  · exact hv
  · simp at hempty

omit [DecidableEq F] in
/-- **What dealing leaves**: commitments to a fresh polynomial with the share as
its constant term, and that polynomial's values. -/
theorem Deals.exists_coefficients {p : F[X]} {newK newN i : ℕ} {blob : Bytes}
    {subs : BTreeMap ℕ Bytes} (h : Deals (G := G) p newK newN i blob subs) :
    ∃ drawn : List F, newK ≠ 0 ∧ newK ≤ newN ∧ drawn.length = newK - 1 ∧
      blob = encodeCommitments ((p.eval (node i) :: drawn).map (· • (PointBytes.base : G))) ∧
      subs = subShares (p.eval (node i) :: drawn) newN := by
  obtain ⟨keyShare, draw, hdeal, kp, hkp, hshare⟩ := h.dealt
  unfold reshareDeal at hdeal
  simp only [guard_eq_ok, bind_eq_ok, ser_eq_ok, hkp] at hdeal
  obtain ⟨hparams, _, ⟨⟩, share, hscalar, drawn, hdrawn, hreturn⟩ := hdeal
  cases hreturn
  rw [hcurve.serializeShare_eq, scalarOf_toBytes hcurve] at hscalar
  cases hscalar
  simp only [not_or, not_lt] at hparams
  refine ⟨drawn, hparams.1, hparams.2.2, ?_, by rw [hshare], by rw [hshare]⟩
  have := (mapM_eq_ok_iff.mp hdrawn).length_eq
  simpa using this.symm

omit [DecidableEq F] [DecidableEq G] [ScalarBytes F] [Frost F G] [Postcard (List Bytes)] hcurve in
/-- Committing commutes with evaluating. -/
theorem evalCommitments_map (sigma : List F) (m : ℕ) :
    evalCommitments (F := F) (sigma.map (· • (PointBytes.base : G))) m
      = evalAt sigma (node m : F) • PointBytes.base :=
  evalAt_map (LinearMap.toSpanSingleton F G PointBytes.base) sigma (node m)

omit [DecidableEq F] hcurve in
/-- Dealing succeeds when its parameters are sound and the entropy source answers. -/
theorem reshareDeal_eq (hcurve : LawfulCurve F G) {oldKeyShare : Bytes} {kp : KeyPackage F G}
    (hkp : Frost.deserializeKey oldKeyShare = some kp) {newK newN : ℕ}
    (hparams : newK ≠ 0 ∧ newK ≤ newN) {draw : ℕ → Option Bytes} {drawn : List F}
    (hdrawn : (List.range' 1 (newK - 1)).mapM (drawCoefficient draw) = .ok drawn) :
    reshareDeal (F := F) (G := G) oldKeyShare newK newN draw = .ok
      (encodeCommitments ((kp.signingShare :: drawn).map (· • (PointBytes.base : G))),
        subShares (kp.signingShare :: drawn) newN) := by
  unfold reshareDeal
  simp only [guard_eq_ok, bind_eq_ok, ser_eq_ok]
  refine ⟨by omega, kp, hkp, kp.signingShare, ?_, drawn, hdrawn, rfl⟩
  rw [hcurve.serializeShare_eq, scalarOf_toBytes hcurve]

/-- The coefficients every dealer of a set dealt. -/
structure Coefficients (p : F[X]) (newK newN : ℕ) (q : List ℕ) (blob : ℕ → Bytes)
    (subs : ℕ → BTreeMap ℕ Bytes) (sigma : ℕ → List F) : Prop where
  length : ∀ i ∈ q, (sigma i).length = newK
  constant : ∀ i ∈ q, (sigma i).head? = some (p.eval (node i))
  blobs : ∀ i ∈ q, blob i
    = encodeCommitments ((sigma i).map (· • (PointBytes.base : G)))
  subs : ∀ i ∈ q, subs i = subShares (sigma i) newN

omit [DecidableEq F] in
theorem exists_coefficients {p : F[X]} {newK newN : ℕ} {q : List ℕ} {blob : ℕ → Bytes}
    {subs : ℕ → BTreeMap ℕ Bytes}
    (hdeals : ∀ i ∈ q, Deals (G := G) p newK newN i (blob i) (subs i)) :
    ∃ sigma, Coefficients (G := G) p newK newN q blob subs sigma := by
  have hall : ∀ i, ∃ drawn : List F, i ∈ q → newK ≠ 0 ∧ drawn.length = newK - 1 ∧
      blob i = encodeCommitments ((p.eval (node i) :: drawn).map (· • (PointBytes.base : G))) ∧
      subs i = subShares (p.eval (node i) :: drawn) newN := by
    intro i
    by_cases hi : i ∈ q
    · obtain ⟨drawn, hnewK, -, hlength, hblob, hsubs⟩ := (hdeals i hi).exists_coefficients hcurve
      exact ⟨drawn, fun _ => ⟨hnewK, hlength, hblob, hsubs⟩⟩
    · exact ⟨[], fun h => absurd h hi⟩
  choose drawn hdrawn using hall
  refine ⟨fun i => p.eval (node i) :: drawn i, ?_, fun _ _ => rfl, ?_, ?_⟩
  · intro i hi
    obtain ⟨hnewK, hlength, -, -⟩ := hdrawn i hi
    show (drawn i).length + 1 = newK
    omega
  · exact fun i hi => (hdrawn i hi).2.2.1
  · exact fun i hi => (hdrawn i hi).2.2.2

section Coefficients

omit hcurve
variable {p : F[X]} {newK newN : ℕ} {q : List ℕ} {blob : ℕ → Bytes}
  {subs : ℕ → BTreeMap ℕ Bytes} {sigma : ℕ → List F}
  (h : Coefficients (G := G) p newK newN q blob subs sigma)
include h

omit [DecidableEq F] in
/-- What a participant is dealt is the value of the dealt polynomial. -/
theorem Coefficients.dealtTo_eq (hcurve : LawfulCurve F G) {i m : ℕ} (hi : i ∈ q)
    (hm : m ∈ List.range' 1 newN) : dealtTo (subs i) m = evalAt (sigma i) (node m : F) := by
  unfold dealtTo
  rw [h.subs i hi, get_subShares (sigma i) hm, Option.bind_some, hcurve.fromCanonicalBytes_toBytes]
  rfl

omit [DecidableEq F] in
/-- The new shares are the values of the redistributed polynomial. -/
theorem Coefficients.newShare_eq (hcurve : LawfulCurve F G) {m : ℕ} (hm : m ∈ List.range' 1 newN) :
    newShare q subs m = (redistributed (node : ℕ → F) q sigma).eval (node m) := by
  rw [eval_redistributed]
  unfold newShare
  congr 1
  refine List.map_congr_left fun i hi => ?_
  rw [h.dealtTo_eq hcurve hi hm]

omit [DecidableEq F] in
theorem Coefficients.sharePoint_eq (hcurve : LawfulCurve F G) {held : ℕ → Contribution F G}
    (hheld : ∀ i ∈ q, (held i).1 = (sigma i).map (· • (PointBytes.base : G))) {m : ℕ}
    (hm : m ∈ List.range' 1 newN) :
    sharePoint q held m = (newShare q subs m : F) • (PointBytes.base : G) := by
  unfold sharePoint newShare
  rw [List.sum_smul, List.map_map]
  congr 1
  refine List.map_congr_left fun i hi => ?_
  show weight node q i • evalCommitments (F := F) (held i).1 m
    = (weight node q i * dealtTo (subs i) m) • PointBytes.base
  rw [hheld i hi, evalCommitments_map, h.dealtTo_eq hcurve hi hm, mul_smul]

omit [DecidableEq F] [DecidableEq G] [Frost F G] in
theorem Coefficients.recombinedKey_eq (hq : Qualified q) (hnodes : DistinctNodes F)
    (hdegree : p.degree < q.length) {held : ℕ → Contribution F G}
    (hheld : ∀ i ∈ q, (held i).1 = (sigma i).map (· • (PointBytes.base : G))) :
    recombinedKey q held = p.eval 0 • (PointBytes.base : G) := by
  unfold recombinedKey
  rw [← sum_weight_eval hq.nodup (hq.injOn hnodes) hdegree, List.sum_smul, List.map_map]
  congr 1
  refine List.map_congr_left fun i hi => ?_
  show weight node q i • (held i).1.headD 0 = (weight node q i * p.eval (node i)) • PointBytes.base
  rw [hheld i hi, List.headD_eq_head?_getD, List.head?_map, h.constant i hi, mul_smul]
  rfl

omit [DecidableEq F] in
/-- **An honest contribution verifies.** -/
theorem Coefficients.contributes (hcurve : LawfulCurve F G) (hblobs : BlobsRoundTrip)
    {n k : ℕ} {pkp : PublicKeyPackage G} (hshares : Shares k n p pkp) (hn : ∀ i ∈ q, i ≤ n)
    (hq : Qualified q) {commitments mySubShares : BTreeMap ℕ Bytes} {j : ℕ}
    (hj : j ∈ List.range' 1 newN) (hcommitments : Covers q commitments fun i => some (blob i))
    (hsubs : Covers q mySubShares fun i => (subs i)[j]?) {i : ℕ} (hi : i ∈ q) :
    Contributes pkp j newK commitments mySubShares i
      ((sigma i).map (· • (PointBytes.base : G)), evalAt (sigma i) (node j : F)) := by
  have hpositive : i ≠ 0 := fun hzero => hq.positive (hzero ▸ hi)
  refine ⟨⟨blob i, ?_, ?_⟩, ⟨ScalarBytes.toBytes (evalAt (sigma i) (node j : F)), ?_, ?_⟩,
    ⟨?_, ?_⟩, (evalCommitments_map (sigma i) j).symm⟩
  · rw [hcommitments i, if_pos hi]
  · have hdecoded := decodeCommitments_encodeCommitments hcurve hblobs
      ((sigma i).map (· • (PointBytes.base : G)))
    rwa [List.length_map, h.length i hi, ← h.blobs i hi] at hdecoded
  · rw [hsubs i, if_pos hi]
    show (subs i)[j]? = _
    rw [h.subs i hi, get_subShares (sigma i) hj]
  · exact scalarOf_toBytes hcurve _
  · rw [List.head?_map, h.constant i hi, hshares.shares i hpositive (hn i hi)]
    rfl
  · intro hnil
    have hconstant := h.constant i hi
    rw [List.map_eq_nil_iff.mp hnil] at hconstant
    cases hconstant

end Coefficients

/-! ## The results -/

omit hcurve in
/-- An old sharing, and a qualified set of its holders that each dealt its real
share. -/
structure Redistributes (k n newK newN : ℕ) (p : F[X]) (oldPkp : Bytes) (q : List ℕ)
    (blob : ℕ → Bytes) (subs : ℕ → BTreeMap ℕ Bytes) : Prop where
  shares : ∃ pkp : PublicKeyPackage G, Frost.deserializePublic F oldPkp = some pkp ∧
    Shares k n p pkp
  qualified : Qualified q
  members : ∀ i ∈ q, i ≤ n
  enough : k ≤ q.length
  deals : ∀ i ∈ q, Deals (G := G) p newK newN i (blob i) (subs i)

omit hcurve in
/-- Every new participant's share is one FROST has a verifying share for. -/
def NoZeroShare (newN : ℕ) (q : List ℕ) (subs : ℕ → BTreeMap ℕ Bytes) : Prop :=
  ∀ m : ℕ, m ≠ 0 → m ≤ newN → (newShare q subs m : F) ≠ 0

/-- **Over honest dealing a participant finishes when no new share is zero**, and
then with its own. -/
theorem Redistributes.finalize_iff (hnodes : DistinctNodes F) (hblobs : BlobsRoundTrip)
    (hbase : (PointBytes.base : G) ≠ 0) {k n newK newN : ℕ} {p : F[X]} {oldPkp : Bytes}
    {q : List ℕ} {blob : ℕ → Bytes} {subs : ℕ → BTreeMap ℕ Bytes}
    (h : Redistributes (G := G) k n newK newN p oldPkp q blob subs) {j : ℕ}
    (hj : j ≠ 0 ∧ j ≤ newN) {commitments mySubShares : BTreeMap ℕ Bytes}
    (hcommitments : Covers q commitments fun i => some (blob i))
    (hsubs : Covers q mySubShares fun i => (subs i)[j]?) :
    ((∃ out, reshareFinalize (F := F) (G := G) j newK newN q commitments mySubShares oldPkp
        = .ok out) ↔ NoZeroShare (F := F) newN q subs) ∧
      ∀ out, reshareFinalize (F := F) (G := G) j newK newN q commitments mySubShares oldPkp
          = .ok out →
        ∃ kp : KeyPackage F G, Frost.deserializeKey out.1 = some kp ∧
          kp.signingShare = newShare q subs j := by
  obtain ⟨pkp, hpkp, hshares⟩ := h.shares
  obtain ⟨sigma, hsigma⟩ := exists_coefficients hcurve h.deals
  have hmem : ∀ {m : ℕ}, m ∈ List.range' 1 newN ↔ m ≠ 0 ∧ m ≤ newN := by
    intro m
    rw [List.mem_range'_1]
    omega
  have hcontributes := fun i (hi : i ∈ q) => hsigma.contributes hcurve hblobs hshares h.members
    h.qualified (hmem.mpr hj) hcommitments hsubs hi
  set held := contributed (F := F) (G := G) j newK commitments mySubShares oldPkp with hheld
  have hsame : ∀ i ∈ q, held i
      = ((sigma i).map (· • (PointBytes.base : G)), evalAt (sigma i) (node j : F)) := by
    intro i hi
    have hpositive : i ≠ 0 := fun hzero => h.qualified.positive (hzero ▸ hi)
    exact contributed_eq_of_contribution
      ((contribution_eq_ok hcurve hpkp hpositive).mpr (hcontributes i hi))
  have hpoints : ∀ i ∈ q, (held i).1 = (sigma i).map (· • (PointBytes.base : G)) :=
    fun i hi => by rw [hsame i hi]
  have hpoint := fun m (hm : m ∈ List.range' 1 newN) => hsigma.sharePoint_eq hcurve hpoints hm
  have hcombined : combinedShare q held = newShare q subs j := by
    unfold combinedShare newShare
    congr 1
    refine List.map_congr_left fun i hi => ?_
    rw [hsame i hi, hsigma.dealtTo_eq hcurve hi (hmem.mpr hj)]
  have hfinalize : ∀ out,
      reshareFinalize (F := F) (G := G) j newK newN q commitments mySubShares oldPkp = .ok out ↔
        ∃ pkp, Frost.deserializePublic F oldPkp = some pkp ∧
          Accepts j newK newN q commitments mySubShares pkp held ∧
          Finishes j newK newN q pkp held out :=
    fun _ => reshareFinalize_eq_ok hcurve hnodes h.qualified.bounded hheld
  refine ⟨⟨?_, fun hzero => ?_⟩, fun out hout => ?_⟩
  · rintro ⟨out, hout⟩ m hm hle hzero
    obtain ⟨_, _, haccepts, -⟩ := (hfinalize out).mp hout
    refine haccepts.shares m (hmem.mpr ⟨hm, hle⟩) ?_
    rw [hpoint m (hmem.mpr ⟨hm, hle⟩), hzero, zero_smul]
  · have hdegree : p.degree < q.length :=
      lt_of_lt_of_le hshares.degree (by exact_mod_cast h.enough)
    have haccepts : Accepts j newK newN q commitments mySubShares pkp held := by
      refine ⟨hj, h.qualified, ⟨?_, ?_⟩, ?_, ?_, ?_⟩
      · exact hcommitments.keys_eq fun i _ => ⟨blob i, rfl⟩
      · refine hsubs.keys_eq fun i hi => ⟨ScalarBytes.toBytes (evalAt (sigma i) (node j : F)), ?_⟩
        show (subs i)[j]? = _
        rw [hsigma.subs i hi, get_subShares (sigma i) (hmem.mpr hj)]
      · exact fun i hi => by rw [hsame i hi]; exact hcontributes i hi
      · rw [hsigma.recombinedKey_eq h.qualified hnodes hdegree hpoints, hshares.key]
      · intro m hm
        rw [hpoint m hm]
        exact smul_ne_zero (hzero m (hmem.mp hm).1 (hmem.mp hm).2) hbase
    obtain ⟨out, hfinishes⟩ := haccepts.exists_finishes hcurve
      (hcurve.proper_of_deserializePublic oldPkp pkp hpkp)
    exact ⟨out, (hfinalize out).mpr ⟨pkp, hpkp, haccepts, hfinishes⟩⟩
  · obtain ⟨_, _, -, hfinishes⟩ := (hfinalize out).mp hout
    exact ⟨_, (hfinishes.deserialize hcurve).1, hcombined⟩

omit [DecidableEq F] hcurve in
/-- **Enough new shares recover the old secret.** -/
theorem Redistributes.recovers (hcurve : LawfulCurve F G) (hnodes : DistinctNodes F)
    {k n newK newN : ℕ} {p : F[X]} {oldPkp : Bytes} {q : List ℕ} {blob : ℕ → Bytes}
    {subs : ℕ → BTreeMap ℕ Bytes}
    (h : Redistributes (G := G) k n newK newN p oldPkp q blob subs) {s : List ℕ} (hs : Qualified s)
    (hmembers : ∀ m ∈ s, m ≤ newN) (henough : newK ≤ s.length) :
    (s.map fun m => weight (node : ℕ → F) s m * newShare q subs m).sum = p.eval 0 := by
  obtain ⟨pkp, -, hshares⟩ := h.shares
  obtain ⟨sigma, hsigma⟩ := exists_coefficients hcurve h.deals
  have hvalues : (s.map fun m => weight (node : ℕ → F) s m * newShare q subs m)
      = s.map fun m => weight (node : ℕ → F) s m
          * (redistributed (node : ℕ → F) q sigma).eval (node m) := by
    refine List.map_congr_left fun m hm => ?_
    have hpositive : m ≠ 0 := fun hzero => hs.positive (hzero ▸ hm)
    rw [hsigma.newShare_eq hcurve
      (List.mem_range'_1.mpr ⟨by omega, by have := hmembers m hm; omega⟩)]
  have hnew : (redistributed (node : ℕ → F) q sigma).degree < s.length :=
    lt_of_lt_of_le (degree_redistributed_lt node q hsigma.length) (by exact_mod_cast henough)
  have hold : p.degree < q.length := lt_of_lt_of_le hshares.degree (by exact_mod_cast h.enough)
  calc (s.map fun m => weight (node : ℕ → F) s m * newShare q subs m).sum
      = (redistributed (node : ℕ → F) q sigma).eval 0 := by
        rw [hvalues, sum_weight_eval hs.nodup (hs.injOn hnodes) hnew]
    _ = p.eval 0 := by
        refine redistributed_eval_zero h.qualified.nodup (h.qualified.injOn hnodes) hold ?_
        intro i hi
        obtain ⟨coefficient, coefficients, hcoefficients⟩ : ∃ c cs, sigma i = c :: cs := by
          cases hlist : sigma i with
          | nil =>
              have := hsigma.constant i hi
              rw [hlist] at this
              cases this
          | cons c cs => exact ⟨c, cs, rfl⟩
        have hconstant := hsigma.constant i hi
        rw [hcoefficients] at hconstant ⊢
        rw [evalAt_cons, zero_smul, add_zero]
        exact Option.some.inj hconstant

omit hcurve in
/-- Completeness: when the dealers are honest, every new participant finishes
exactly under a condition on what was dealt, each with its own share, and any
`newK` of the new shares interpolate to the old secret. -/
def Complete (F G : Type) [Field F] [AddCommGroup G] [Module F G] [DecidableEq F] [DecidableEq G]
    [ScalarBytes F] [PointBytes G] [Frost F G]
    (condition : ℕ → List ℕ → (ℕ → BTreeMap ℕ Bytes) → Prop) : Prop :=
  ∀ (k n newK newN : ℕ) (p : F[X]) (oldPkp : Bytes) (q : List ℕ) (blob : ℕ → Bytes)
    (subs : ℕ → BTreeMap ℕ Bytes), Redistributes (G := G) k n newK newN p oldPkp q blob subs →
    (∀ (j : ℕ) (commitments mySubShares : BTreeMap ℕ Bytes), j ≠ 0 ∧ j ≤ newN →
      Covers q commitments (fun i => some (blob i)) → Covers q mySubShares (fun i => (subs i)[j]?) →
      ((∃ out, reshareFinalize (F := F) (G := G) j newK newN q commitments mySubShares oldPkp
          = .ok out) ↔ condition newN q subs) ∧
        ∀ out, reshareFinalize (F := F) (G := G) j newK newN q commitments mySubShares oldPkp
            = .ok out →
          ∃ kp : KeyPackage F G, Frost.deserializeKey out.1 = some kp ∧
            kp.signingShare = newShare q subs j) ∧
    ∀ s : List ℕ, Qualified s → (∀ m ∈ s, m ≤ newN) → newK ≤ s.length →
      ∃ weights : ℕ → F, (∀ m ∈ s, lagrangeAtZero m s = .ok (weights m)) ∧
        (s.map fun m => weights m * newShare q subs m).sum = p.eval 0

omit hcurve in
/-- A finished participant's own key package: its share opens its published
verifying share, under the standing key. -/
def Holds (j : ℕ) (old new : PublicKeyPackage G) (keyBytes : Bytes) : Prop :=
  ∃ kp : KeyPackage F G, Frost.deserializeKey keyBytes = some kp ∧ kp.identifier = j ∧
    kp.verifyingKey = old.verifyingKey ∧ kp.signingShare • (PointBytes.base : G) = kp.verifyingShare ∧
    new.verifyingShares[j]? = some kp.verifyingShare

omit hcurve in
/-- Soundness: whatever the dealers sent, two participants that finish over the
same qualified set and commitments hold one public package under the old key, and
each share opens its published verifying share. -/
def Sound (F G : Type) [Field F] [AddCommGroup G] [Module F G] [DecidableEq F] [DecidableEq G]
    [ScalarBytes F] [PointBytes G] [Frost F G] : Prop :=
  ∀ (newK newN : ℕ) (q : List ℕ) (commitments : BTreeMap ℕ Bytes) (oldPkp : Bytes) (j j' : ℕ)
    (mySubShares mySubShares' : BTreeMap ℕ Bytes) (out out' : Bytes × Bytes × DeviceId),
    (∀ i ∈ q, i ≤ U16_MAX) →
    reshareFinalize (F := F) (G := G) j newK newN q commitments mySubShares oldPkp = .ok out →
    reshareFinalize (F := F) (G := G) j' newK newN q commitments mySubShares' oldPkp = .ok out' →
    out.2 = out'.2 ∧ ∃ old new : PublicKeyPackage G, Frost.deserializePublic F oldPkp = some old ∧
      Frost.deserializePublic F out.2.1 = some new ∧ new.verifyingKey = old.verifyingKey ∧
      Holds (F := F) j old new out.1 ∧ Holds (F := F) j' old new out'.1

omit [DecidableEq F] in
theorem Finishes.holds {j newK newN : ℕ} {q : List ℕ} {old : PublicKeyPackage G}
    {commitments mySubShares : BTreeMap ℕ Bytes} {held : ℕ → Contribution F G}
    {out : Bytes × Bytes × DeviceId}
    (haccepts : Accepts j newK newN q commitments mySubShares old held)
    (h : Finishes j newK newN q old held out) :
    Holds (F := F) j old ⟨sharePoints q held newN, old.verifyingKey, some newK⟩ out.1 := by
  have hmine : j ∈ List.range' 1 newN := by
    have := haccepts.index
    exact List.mem_range'_1.mpr ⟨by omega, by omega⟩
  refine ⟨_, (h.deserialize hcurve).1, rfl, rfl, ?_, get_sharePoints hmine⟩
  exact combinedShare_smul_base fun i hi => (haccepts.contributes i hi).feldman

/-- Over the same commitments everybody computes the same verifying shares. -/
theorem sound (hnodes : DistinctNodes F) : Sound F G := by
  intro newK newN q commitments oldPkp j j' mySubShares mySubShares' out out' hbounded hout hout'
  obtain ⟨old, hold, haccepts, hfinishes⟩ :=
    (reshareFinalize_eq_ok hcurve hnodes hbounded rfl).mp hout
  obtain ⟨old', hold', haccepts', hfinishes'⟩ :=
    (reshareFinalize_eq_ok hcurve hnodes hbounded rfl).mp hout'
  cases hold.symm.trans hold'
  set held := contributed (F := F) (G := G) j newK commitments mySubShares oldPkp
  set held' := contributed (F := F) (G := G) j' newK commitments mySubShares' oldPkp
  have hpoint : ∀ m, sharePoint (F := F) q held m = sharePoint q held' m := by
    intro m
    unfold sharePoint
    congr 1
    refine List.map_congr_left fun i hi => ?_
    rw [points_eq_of_contributes (haccepts.contributes i hi) (haccepts'.contributes i hi)]
  have hpoints : sharePoints (F := F) q held newN = sharePoints q held' newN := by
    unfold sharePoints
    simp only [hpoint]
  have hpub : out.2.1 = out'.2.1 := by
    have := hfinishes.pub
    rw [hpoints, hfinishes'.pub] at this
    exact (Option.some.inj this).symm
  refine ⟨Prod.ext hpub (hfinishes.group.trans hfinishes'.group.symm), old, _, hold,
    (hfinishes.deserialize hcurve).2, rfl, hfinishes.holds hcurve haccepts, ?_⟩
  rw [hpoints]
  exact hfinishes'.holds hcurve haccepts'

/-- **Same-key resharing keeps the key.**  Honest dealing finishes for every new
participant exactly when no new share is zero, and its shares interpolate to the
old secret; and whatever the dealers sent, participants that finish agree, under
the old key. -/
theorem reshare_keeps_key (hnodes : DistinctNodes F) (hblobs : BlobsRoundTrip)
    (hbase : (PointBytes.base : G) ≠ 0) :
    Complete F G (NoZeroShare (F := F)) ∧ Sound F G := by
  refine ⟨?_, sound hcurve hnodes⟩
  intro k n newK newN p oldPkp q blob subs h
  refine ⟨fun j commitments mySubShares hj hcommitments hsubs =>
    h.finalize_iff hcurve hnodes hblobs hbase hj hcommitments hsubs, fun s hs hmembers henough => ?_⟩
  exact ⟨weight (node : ℕ → F) s, fun m hm => lagrangeAtZero_eq hs hnodes hm,
    h.recovers hcurve hnodes hs hmembers henough⟩

end Spec

/-! ## Two holders -/

namespace Small

/-- The package of a holder of the line that is 1 at zero. -/
def pairKey (i : ℕ) : KeyPackage Small Small := ⟨i, i + 1, i + 1, 1, 2⟩

/-- The public package of its two holders. -/
def pairPublic : PublicKeyPackage Small := ⟨((∅ : BTreeMap ℕ Small).insert 1 2).insert 2 3, 1, some 2⟩

/-- The coefficients a holder deals to two participants, at a threshold of two: its
share, and what it drew. -/
def pairCoefficients (drawn : ℕ → Small) (i : ℕ) : List Small := [i + 1, drawn i]

/-- What it posts. -/
def pairBlob (drawn : ℕ → Small) (i : ℕ) : Bytes :=
  let _ := blobs
  encodeCommitments ((pairCoefficients drawn i).map (· • (PointBytes.base : Small)))

/-- What it deals. -/
def pairSubs (drawn : ℕ → Small) (i : ℕ) : BTreeMap ℕ Bytes := subShares (pairCoefficients drawn i) 2

theorem qualified_pair : Qualified [1, 2] :=
  ⟨by simp, by simp, by simp, by simp [U16_MAX]⟩

theorem redistributes_pair (drawn : ℕ → Small) :
    let _ := blobs
    Redistributes (F := Small) (G := Small) 2 2 2 2 (X + C 1)
      (publicWire.postcard.toStdvec pairPublic) [1, 2] (pairBlob drawn) (pairSubs drawn) := by
  intro _
  refine ⟨⟨pairPublic, ?_, ?_⟩, qualified_pair, by simp, le_rfl, ?_⟩
  · refine lawful.deserializePublic_serializePublic pairPublic _ (if_pos ?_)
    decide +kernel
  · refine ⟨?_, ?_, ?_⟩
    · rw [degree_X_add_C]
      exact_mod_cast Nat.one_lt_two
    · simp [pairPublic, PointBytes.base]
    · intro i hi hle
      obtain rfl | rfl : i = 1 ∨ i = 2 := by omega
      · simp [pairPublic, PointBytes.base, node]
        decide
      · simp [pairPublic, PointBytes.base, node]
        decide
  · intro i _
    have hkey : Frost.deserializeKey (F := Small) (G := Small)
        (keyWire.postcard.toStdvec (pairKey i)) = some (pairKey i) :=
      Wire.postcard_roundTrip keyWire (pairKey i)
    have hdrawn : (List.range' 1 (2 - 1)).mapM
        (drawCoefficient fun _ => some (put (drawn i))) = .ok [drawn i] := by
      rw [mapM_eq_ok_iff]
      refine .cons ?_ .nil
      show Except.ok (((value (put (drawn i))).getD 0 : ℕ) : Small) = .ok (drawn i)
      rw [value_put]
      simp
    refine ⟨⟨keyWire.postcard.toStdvec (pairKey i), fun _ => some (put (drawn i)), ?_, pairKey i,
      hkey, ?_⟩⟩
    · exact reshareDeal_eq lawful hkey (by decide) hdrawn
    · simp [pairKey, node]

/-- The weights of the two holders are 2 and -1. -/
theorem weight_pair : weight (node : ℕ → Small) [1, 2] 1 = 2 ∧
    weight (node : ℕ → Small) [1, 2] 2 = -1 := by
  have hinj := qualified_pair.injOn distinctNodes
  have hone := sum_weight_eval qualified_pair.nodup hinj (p := (C 1 : Small[X]))
    (by rw [degree_C one_ne_zero]; exact_mod_cast Nat.zero_lt_two)
  have hline := sum_weight_eval qualified_pair.nodup hinj (p := (X : Small[X]))
    (by rw [degree_X]; exact_mod_cast Nat.one_lt_two)
  simp [node] at hone hline
  constructor
  · linear_combination 2 * hone - hline
  · linear_combination hline - hone

/-- The two new shares are the values of one line. -/
theorem newShare_pair (drawn : ℕ → Small) {m : ℕ} (hm : m ∈ List.range' 1 2) :
    newShare [1, 2] (pairSubs drawn) m = 1 + (m : Small) * (2 * drawn 1 - drawn 2) := by
  have hdealt : ∀ i, dealtTo (pairSubs drawn i) m = ((i : Small) + 1) + (m : Small) * drawn i := by
    intro i
    unfold dealtTo pairSubs
    rw [get_subShares _ hm, Option.bind_some, lawful.fromCanonicalBytes_toBytes]
    simp [pairCoefficients, node]
  obtain ⟨hfirst, hsecond⟩ := weight_pair
  simp only [newShare, List.map_cons, List.map_nil, List.sum_cons, List.sum_nil, hdealt, hfirst,
    hsecond]
  push_cast
  ring

theorem base_ne_zero : (PointBytes.base : Small) ≠ 0 := one_ne_zero

theorem blobs_roundTrip : @BlobsRoundTrip blobs :=
  fun raw _ => Wire.postcard_roundTrip (Wire.list Wire.bytes) raw

/-- One entry for each of the two. -/
theorem covers_pair {b b' : Bytes} {f : ℕ → Option Bytes} (hb : f 1 = some b)
    (hb' : f 2 = some b') :
    Covers [1, 2] (((∅ : BTreeMap ℕ Bytes).insert 1 b).insert 2 b') f := by
  intro i
  rw [BTreeMap.get_insert, BTreeMap.get_insert]
  by_cases htwo : 2 = i
  · simp [← htwo, hb']
  · by_cases hone : 1 = i
    · simp [← hone, hb]
    · simp [htwo, hone, Ne.symm htwo, Ne.symm hone]

/-- What a holder dealt to the first participant. -/
theorem get_pairSubs (drawn : ℕ → Small) (i : ℕ) :
    (pairSubs drawn i)[1]? = some (put (i + 1 + drawn i)) := by
  unfold pairSubs
  rw [get_subShares _ (by decide)]
  simp [pairCoefficients, node, ScalarBytes.toBytes]

/-- The first participant, given everything the two dealt. -/
def pairFinalize (drawn : ℕ → Small) : Except String (Bytes × Bytes × DeviceId) :=
  let _ := blobs
  reshareFinalize (F := Small) (G := Small) 1 2 2 [1, 2]
    (((∅ : BTreeMap ℕ Bytes).insert 1 (pairBlob drawn 1)).insert 2 (pairBlob drawn 2))
    (((∅ : BTreeMap ℕ Bytes).insert 1 (put ((1 : ℕ) + 1 + drawn 1))).insert 2
      (put ((2 : ℕ) + 1 + drawn 2)))
    (publicWire.postcard.toStdvec pairPublic)

/-- When both draw 1 the new shares are 2 and 3, the first participant finishes, and the two
recover the old secret. -/
theorem pairFinalize_one : (∃ out, pairFinalize (fun _ => 1) = .ok out) ∧
    ∃ weights : ℕ → Small, (∀ m ∈ [1, 2], lagrangeAtZero m [1, 2] = .ok (weights m)) ∧
      ([1, 2].map fun m => weights m * newShare [1, 2] (pairSubs fun _ => 1) m).sum = 1 := by
  let _ := blobs
  obtain ⟨hfinalize, hrecovers⟩ :=
    (reshare_keeps_key lawful distinctNodes blobs_roundTrip base_ne_zero).1
      2 2 2 2 (X + C 1) _ [1, 2] _ _ (redistributes_pair fun _ => 1)
  have hiff := (hfinalize 1 _ _ (by decide)
    (covers_pair (f := fun i => some (pairBlob (fun _ => 1) i)) rfl rfl)
    (covers_pair (get_pairSubs _ 1) (get_pairSubs _ 2))).1
  constructor
  · refine hiff.mpr fun m hm hle => ?_
    rw [newShare_pair _ (List.mem_range'_1.mpr ⟨by omega, by omega⟩)]
    obtain rfl | rfl : m = 1 ∨ m = 2 := by omega
    all_goals decide +kernel
  · obtain ⟨weights, hweights, hsum⟩ := hrecovers [1, 2] qualified_pair (by simp) le_rfl
    exact ⟨weights, hweights, hsum.trans (by simp)⟩

/-- When only the second draws 1 the first share is zero, and honest dealing does not finish. -/
theorem not_complete : ¬ @Complete blobs Small Small _ _ _ _ _ _ _ _ fun _ _ _ => True := by
  let _ := blobs
  intro hcomplete
  let drawn : ℕ → Small := fun i => i - 1
  have hpair := redistributes_pair drawn
  have hblob := covers_pair (f := fun i => some (pairBlob drawn i)) rfl rfl
  have hsubs := covers_pair (f := fun i => (pairSubs drawn i)[1]?) (get_pairSubs drawn 1)
    (get_pairSubs drawn 2)
  obtain ⟨hfinalize, -⟩ := hcomplete 2 2 2 2 (X + C 1) _ [1, 2] _ _ hpair
  have hdone := (hfinalize 1 _ _ (by decide) hblob hsubs).1.mpr trivial
  have hzero := (hpair.finalize_iff lawful distinctNodes blobs_roundTrip base_ne_zero (by decide)
    hblob hsubs).1.mp hdone
  refine hzero 1 (by decide) (by decide) ?_
  rw [newShare_pair drawn (by decide)]
  decide +kernel

end Small

end Lait.Ceremony
