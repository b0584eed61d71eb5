import Lait.Ceremony.Reshare

/-!
# What a new participant checks

`reshareFinalize_eq_ok` says once what a new participant has checked when it
finishes: every dealer's constant commitment is the verifying share the old
package publishes, what was dealt agrees with the commitments, and the weighed
constants are the standing key.

What the checks say of the packages is `Finishes`: a participant's share opens its
own verifying share, and the verifying shares are a function of the commitments
(`points_eq_of_contributes`).
-/

namespace Lait.Ceremony

open Sharing Polynomial

theorem ser_eq_ok {α : Type} {what : String} {o : Option α} {a : α} :
    ser what o = .ok a ↔ o = some a := by
  cases o <;> simp [ser]

/-- A fold that adds is a sum. -/
theorem foldl_add_eq {M : Type} [AddCommMonoid M] (l : List ℕ) (f : ℕ → M) (a : M) :
    l.foldl (fun acc i => acc + f i) a = a + (l.map f).sum := by
  induction l generalizing a with
  | nil => simp
  | cons i l ih => rw [List.foldl_cons, ih, List.map_cons, List.sum_cons, add_assoc]

/-- A fold of a pair is a pair of folds. -/
theorem foldl_pair_eq {α β : Type} (l : List ℕ) (f : α → ℕ → α) (g : β → ℕ → β) (a : α) (b : β) :
    l.foldl (fun acc i => (f acc.1 i, g acc.2 i)) (a, b) = (l.foldl f a, l.foldl g b) := by
  induction l generalizing a b with
  | nil => rfl
  | cons i l ih => exact ih _ _

/-- The contributions decoded, by dealer. -/
def decodedOf {F G : Type} (q : List ℕ) (held : ℕ → Contribution F G) :
    BTreeMap ℕ (Contribution F G) :=
  q.foldl (fun decoded i => decoded.insert i (held i)) ∅

theorem get_decodedOf {F G : Type} {q : List ℕ} (held : ℕ → Contribution F G) {i : ℕ} (hi : i ∈ q) :
    (decodedOf q held)[i]? = some (held i) := by
  obtain ⟨v, hv⟩ := BTreeMap.exists_get_foldl_insert (f := fun i : ℕ => i) (g := held) (l := q)
    (m := ∅) (k := i) (.inl ⟨i, hi, rfl⟩)
  rcases BTreeMap.exists_of_get_foldl_insert hv with ⟨_, _, rfl, rfl⟩ | hempty
  · exact hv
  · simp at hempty

section Spec

variable {F G : Type} [Field F] [AddCommGroup G] [Module F G] [DecidableEq F] [DecidableEq G]
variable [ScalarBytes F] [PointBytes G] [Frost F G] [Postcard (List Bytes)]

/-! ## Qualified sets -/

/-- Two participants never share a node: the field is larger than an index. -/
def DistinctNodes (F : Type) [Field F] : Prop :=
  Set.InjOn (node : ℕ → F) {i | i ≤ U16_MAX}

/-- A sorted, unique and 1-based list of indices. -/
structure Qualified (q : List ℕ) : Prop where
  nonempty : q ≠ []
  sorted : q.IsChain (· < ·)
  positive : 0 ∉ q
  bounded : ∀ i ∈ q, i ≤ U16_MAX

omit [Postcard (List Bytes)] in
theorem Qualified.nodup {q : List ℕ} (h : Qualified q) : q.Nodup :=
  (List.isChain_iff_pairwise.mp h.sorted).imp fun hlt => hlt.ne

omit [DecidableEq F] [ScalarBytes F] [Postcard (List Bytes)] in
theorem Qualified.injOn {q : List ℕ} (h : Qualified q) (hnodes : DistinctNodes F) :
    Set.InjOn (node : ℕ → F) {i | i ∈ q} :=
  hnodes.mono fun i hi => h.bounded i hi

omit [ScalarBytes F] [Postcard (List Bytes)] in
theorem lagrangeAtZero_eq {q : List ℕ} (h : Qualified q) (hnodes : DistinctNodes F) {i : ℕ}
    (hi : i ∈ q) : lagrangeAtZero i q = .ok (weight (node : ℕ → F) q i) :=
  ser_eq_ok.mpr (Sharing.lagrangeAtZero_eq h.nodup (h.injOn hnodes) hi)

/-! ## Contributions -/

/-- What a verified contribution is: the dealer's commitments open with its
published verifying share, and commit to what it dealt. -/
structure Contributes (pkp : PublicKeyPackage G) (myIndex newK : ℕ)
    (commitments mySubShares : BTreeMap ℕ Bytes) (i : ℕ) (held : Contribution F G) : Prop where
  points : ∃ blob, commitments[i]? = some blob ∧ decodeCommitments blob newK = .ok held.1
  share : ∃ sub, mySubShares[i]? = some sub ∧ scalarOf sub = .ok held.2
  opens : held.1.head? = pkp.verifyingShares[i]? ∧ held.1 ≠ []
  feldman : held.2 • (PointBytes.base : G) = evalCommitments (F := F) held.1 myIndex

variable (hcurve : LawfulCurve F G)
include hcurve

omit [Field F] [Module F G] [DecidableEq F] [Postcard (List Bytes)] in
theorem standingKey_eq {pkp : PublicKeyPackage G} (hproper : pkp.Proper) :
    standingKey (F := F) pkp = .ok pkp.verifyingKey := by
  have hserialized := hcurve.serializeElement_eq pkp.verifyingKey
  rw [if_neg hproper.1] at hserialized
  unfold standingKey
  rw [hserialized]
  simp [ser, bind, Except.bind, hcurve.length_compress, pointOf, hcurve.decompress_compress]

omit [Field F] [Module F G] [DecidableEq F] [Postcard (List Bytes)] in
theorem oldVerifyingShare_eq_ok {oldPkp : Bytes} {pkp : PublicKeyPackage G}
    (hpkp : Frost.deserializePublic F oldPkp = some pkp) {i : ℕ} (hi : i ≠ 0) {bytes : Bytes} :
    oldVerifyingShare (F := F) (G := G) oldPkp i = .ok bytes ↔
      ∃ share, pkp.verifyingShares[i]? = some share ∧ bytes = PointBytes.compress share := by
  unfold oldVerifyingShare
  simp only [bind_eq_ok, ser_eq_ok, hpkp, ident, if_neg hi, guard_eq_ok]
  constructor
  · rintro ⟨_, ⟨⟩, _, ⟨⟩, share, hshare, serialized, hserialized, -, hreturn⟩
    cases hreturn
    rw [hcurve.serializeElement_eq] at hserialized
    split at hserialized
    · cases hserialized
    · cases hserialized
      exact ⟨share, hshare, rfl⟩
  · rintro ⟨share, hshare, rfl⟩
    have hne := (hcurve.proper_of_deserializePublic oldPkp pkp hpkp).2 i share hshare
    refine ⟨pkp, rfl, i, rfl, share, hshare, PointBytes.compress share, ?_, ?_, rfl⟩
    · rw [hcurve.serializeElement_eq, if_neg hne]
    · simp [hcurve.length_compress]

omit [DecidableEq F] in
/-- **What verifying one contribution checks.** -/
theorem contribution_eq_ok {oldPkp : Bytes} {pkp : PublicKeyPackage G}
    (hpkp : Frost.deserializePublic F oldPkp = some pkp) {myIndex newK : ℕ}
    {commitments mySubShares : BTreeMap ℕ Bytes} {i : ℕ} (hi : i ≠ 0) {held : Contribution F G} :
    contribution myIndex newK commitments mySubShares oldPkp i = .ok held ↔
      Contributes pkp myIndex newK commitments mySubShares i held := by
  unfold contribution reshareVerify indexed
  simp only [bind_eq_ok, ser_eq_ok, guard_eq_ok, check_eq_ok,
    oldVerifyingShare_eq_ok hcurve hpkp hi]
  constructor
  · rintro ⟨blob, hblob, _, ⟨share, hshare, rfl⟩, sub, hsub, _, ⟨points, hpoints, expected,
      hexpected, first, hfirst, hopens, u, hu, hfeldman⟩, points', hpoints', u', hu', hreturn⟩
    cases hreturn
    cases hpoints.symm.trans hpoints'
    cases hu.symm.trans hu'
    rw [pointOf, hcurve.decompress_compress] at hexpected
    cases hexpected
    rw [not_not] at hopens hfeldman
    subst hopens
    refine ⟨⟨blob, hblob, hpoints⟩, ⟨sub, hsub, hu⟩, ⟨hfirst.trans hshare.symm, ?_⟩, hfeldman⟩
    rintro rfl
    cases hfirst
  · rintro ⟨⟨blob, hblob, hpoints⟩, ⟨sub, hsub, hu⟩, ⟨hopens, hnonempty⟩, hfeldman⟩
    obtain ⟨share, hshare⟩ : ∃ share, held.1.head? = some share := by
      cases hpoints : held.1 with
      | nil => exact absurd hpoints hnonempty
      | cons point points => exact ⟨point, rfl⟩
    refine ⟨blob, hblob, _, ⟨share, hopens.symm.trans hshare, rfl⟩, sub, hsub, ⟨⟩,
      ⟨held.1, hpoints, share, ?_, share, hshare, not_not.mpr rfl, held.2, hu,
        not_not.mpr hfeldman⟩, held.1, hpoints, held.2, hu, rfl⟩
    rw [pointOf, hcurve.decompress_compress]
    rfl

/-! ## The loops -/

omit hcurve in
/-- What a dealer contributed, once it is verified. -/
def contributed (myIndex newK : ℕ) (commitments mySubShares : BTreeMap ℕ Bytes) (oldPkp : Bytes)
    (i : ℕ) : Contribution F G :=
  ((contribution myIndex newK commitments mySubShares oldPkp i).toOption).getD ([], 0)

omit [DecidableEq F] hcurve in
theorem contributed_eq_of_contribution {myIndex newK : ℕ}
    {commitments mySubShares : BTreeMap ℕ Bytes} {oldPkp : Bytes} {i : ℕ} {held : Contribution F G}
    (h : contribution myIndex newK commitments mySubShares oldPkp i = .ok held) :
    contributed myIndex newK commitments mySubShares oldPkp i = held := by
  unfold contributed
  rw [h]
  rfl

omit hcurve in
/-- The verifying share of a new participant. -/
noncomputable def sharePoint (q : List ℕ) (held : ℕ → Contribution F G) (m : ℕ) : G :=
  (q.map fun i => weight (node : ℕ → F) q i • evalCommitments (F := F) (held i).1 m).sum

omit hcurve in
/-- The share a new participant combines. -/
noncomputable def combinedShare (q : List ℕ) (held : ℕ → Contribution F G) : F :=
  (q.map fun i => weight (node : ℕ → F) q i * (held i).2).sum

omit hcurve in
/-- The constant commitments, weighed. -/
noncomputable def recombinedKey (q : List ℕ) (held : ℕ → Contribution F G) : G :=
  (q.map fun i => weight (node : ℕ → F) q i • (held i).1.headD 0).sum

omit hcurve in
/-- Everybody's verifying share. -/
noncomputable def sharePoints (q : List ℕ) (held : ℕ → Contribution F G) (newN : ℕ) : BTreeMap ℕ G :=
  (List.range' 1 newN).foldl (fun shares m => shares.insert m (sharePoint q held m)) ∅

omit [AddCommGroup G] [Module F G] [DecidableEq G] [ScalarBytes F] [PointBytes G] [Frost F G]
  [Postcard (List Bytes)] hcurve in
/-- Something of every contribution, weighed and added up. -/
theorem combine_eq {M : Type} [AddCommGroup M] [Module F M] {q : List ℕ} (hq : Qualified q)
    (hnodes : DistinctNodes F) {decoded : BTreeMap ℕ (Contribution F G)}
    {held : ℕ → Contribution F G} (hdecoded : ∀ i ∈ q, decoded[i]? = some (held i))
    (f : Contribution F G → M) :
    combine q decoded f = .ok (q.map fun i => weight (node : ℕ → F) q i • f (held i)).sum := by
  unfold combine
  rw [foldlM_eq_ok_iff (p := fun _ => True)
    (g := fun acc i => acc + weight (node : ℕ → F) q i • f (held i))]
  · refine ⟨fun _ _ => trivial, ?_⟩
    rw [foldl_add_eq, zero_add]
  · intro acc i c hi
    rw [lagrangeAtZero_eq hq hnodes hi]
    unfold indexed
    simp only [bind_eq_ok, ser_eq_ok, hdecoded i hi, true_and]
    constructor
    · rintro ⟨_, ⟨⟩, _, ⟨⟩, hreturn⟩
      cases hreturn
      rfl
    · rintro rfl
      exact ⟨_, rfl, _, rfl, rfl⟩

/-- **The verifying loop** accepts when every contribution is verified. -/
theorem foldlM_contribute_eq_ok {q : List ℕ} (hq : Qualified q) (hnodes : DistinctNodes F)
    {oldPkp : Bytes} {pkp : PublicKeyPackage G}
    (hpkp : Frost.deserializePublic F oldPkp = some pkp) {myIndex newK : ℕ}
    {commitments mySubShares : BTreeMap ℕ Bytes} {held : ℕ → Contribution F G}
    (hheld : held = contributed myIndex newK commitments mySubShares oldPkp)
    {result : BTreeMap ℕ (Contribution F G) × G} :
    q.foldlM (contribute (F := F) (G := G) myIndex newK q commitments mySubShares oldPkp) (∅, 0)
        = .ok result ↔
      (∀ i ∈ q, Contributes pkp myIndex newK commitments mySubShares i (held i)) ∧
        result = (decodedOf q held, recombinedKey q held) := by
  rw [foldlM_eq_ok_iff
    (p := fun i => Contributes pkp myIndex newK commitments mySubShares i (held i))
    (g := fun acc i => (acc.1.insert i (held i),
      acc.2 + weight (node : ℕ → F) q i • (held i).1.headD 0))]
  · refine and_congr_right fun _ => ?_
    rw [foldl_pair_eq q
      (fun (decoded : BTreeMap ℕ (Contribution F G)) i => decoded.insert i (held i))
      (fun acc i => acc + weight (node : ℕ → F) q i • (held i).1.headD 0), foldl_add_eq, zero_add]
    rfl
  · intro acc i c hi
    have hpositive : i ≠ 0 := fun h => hq.positive (h ▸ hi)
    unfold contribute
    rw [lagrangeAtZero_eq hq hnodes hi]
    simp only [bind_eq_ok, ser_eq_ok, contribution_eq_ok hcurve hpkp hpositive]
    constructor
    · rintro ⟨h, hcontributes, first, hfirst, _, ⟨⟩, hreturn⟩
      have hsame : held i = h := by
        rw [hheld]
        exact contributed_eq_of_contribution
          ((contribution_eq_ok hcurve hpkp hpositive).mpr hcontributes)
      cases hreturn
      rw [hsame]
      refine ⟨hcontributes, ?_⟩
      rw [List.headD_eq_head?_getD, hfirst]
      rfl
    · rintro ⟨hcontributes, rfl⟩
      obtain ⟨first, hfirst⟩ : ∃ first, (held i).1.head? = some first := by
        cases hpoints : (held i).1 with
        | nil => exact absurd hpoints hcontributes.opens.2
        | cons point points => exact ⟨point, rfl⟩
      refine ⟨held i, hcontributes, first, hfirst, _, rfl, ?_⟩
      rw [List.headD_eq_head?_getD, hfirst]
      rfl

omit [Postcard (List Bytes)] in
/-- Every verifying share exists when none is the identity. -/
theorem newVerifyingShares_eq_ok {q : List ℕ} (hq : Qualified q) (hnodes : DistinctNodes F)
    {decoded : BTreeMap ℕ (Contribution F G)} {held : ℕ → Contribution F G}
    (hdecoded : ∀ i ∈ q, decoded[i]? = some (held i)) {newN : ℕ} {shares : BTreeMap ℕ G} :
    newVerifyingShares (F := F) q decoded newN = .ok shares ↔
      (∀ m ∈ List.range' 1 newN, sharePoint q held m ≠ 0) ∧ shares = sharePoints q held newN := by
  unfold newVerifyingShares
  rw [foldlM_eq_ok_iff (p := fun m => sharePoint q held m ≠ 0)
    (g := fun shares m => shares.insert m (sharePoint q held m))]
  · rfl
  · intro shares m shares' hm
    have hpositive : m ≠ 0 := by
      have := (List.mem_range'_1.mp hm).1
      omega
    unfold newVerifyingShare
    rw [combine_eq hq hnodes hdecoded]
    simp only [bind_eq_ok, ser_eq_ok, ident, if_neg hpositive]
    constructor
    · rintro ⟨_, ⟨_, ⟨⟩, share, hshare, _, ⟨⟩, hreturn⟩, hinsert⟩
      cases hreturn
      cases hinsert
      rw [hcurve.deserializeElement_compress] at hshare
      split at hshare
      · cases hshare
      case isFalse hne =>
        cases hshare
        exact ⟨hne, rfl⟩
    · rintro ⟨hne, rfl⟩
      refine ⟨_, ⟨_, rfl, sharePoint q held m, ?_, _, rfl, rfl⟩, rfl⟩
      rw [hcurve.deserializeElement_compress]
      exact if_neg hne

/-! ## Finishing -/

omit hcurve in
/-- What a new participant checks before it finishes. -/
structure Accepts (myIndex newK newN : ℕ) (q : List ℕ) (commitments mySubShares : BTreeMap ℕ Bytes)
    (pkp : PublicKeyPackage G) (held : ℕ → Contribution F G) : Prop where
  index : myIndex ≠ 0 ∧ myIndex ≤ newN
  qualified : Qualified q
  keys : commitments.keys.toFinset = q.toFinset ∧ mySubShares.keys.toFinset = q.toFinset
  contributes : ∀ i ∈ q, Contributes pkp myIndex newK commitments mySubShares i (held i)
  recombines : recombinedKey q held = pkp.verifyingKey
  shares : ∀ m ∈ List.range' 1 newN, sharePoint q held m ≠ 0

omit hcurve in
/-- What a new participant finishes with. -/
structure Finishes (myIndex newK newN : ℕ) (q : List ℕ) (pkp : PublicKeyPackage G)
    (held : ℕ → Contribution F G) (out : Bytes × Bytes × DeviceId) : Prop where
  key : Frost.serializeKey
    (⟨myIndex, combinedShare q held, sharePoint q held myIndex, pkp.verifyingKey, newK⟩ :
      KeyPackage F G) = some out.1
  pub : Frost.serializePublic F
    (⟨sharePoints q held newN, pkp.verifyingKey, some newK⟩ : PublicKeyPackage G) = some out.2.1
  group : out.2.2 = ⟨Bytes.hexEncode (PointBytes.compress pkp.verifyingKey)⟩

omit [DecidableEq F] [DecidableEq G] [ScalarBytes F] [PointBytes G] [Frost F G]
  [Postcard (List Bytes)] hcurve in
theorem get_sharePoints {q : List ℕ} {held : ℕ → Contribution F G} {newN m : ℕ}
    (hm : m ∈ List.range' 1 newN) :
    (sharePoints q held newN)[m]? = some (sharePoint q held m) := by
  obtain ⟨v, hv⟩ := BTreeMap.exists_get_foldl_insert (f := fun m : ℕ => m)
    (g := sharePoint q held) (l := List.range' 1 newN) (m := ∅) (k := m) (.inl ⟨m, hm, rfl⟩)
  rcases BTreeMap.exists_of_get_foldl_insert hv with ⟨_, _, rfl, rfl⟩ | hempty
  · exact hv
  · simp at hempty

omit [DecidableEq F] [DecidableEq G] [ScalarBytes F] [PointBytes G] [Frost F G]
  [Postcard (List Bytes)] hcurve in
theorem mem_of_get_sharePoints {q : List ℕ} {held : ℕ → Contribution F G} {newN m : ℕ} {share : G}
    (h : (sharePoints q held newN)[m]? = some share) :
    m ∈ List.range' 1 newN ∧ share = sharePoint q held m := by
  rcases BTreeMap.exists_of_get_foldl_insert h with ⟨a, ha, rfl, rfl⟩ | hempty
  · exact ⟨ha, rfl⟩
  · simp at hempty

omit [DecidableEq F] [Postcard (List Bytes)] in
theorem packages_eq_ok {myIndex newK newN : ℕ} {q : List ℕ} {pkp : PublicKeyPackage G}
    {held : ℕ → Contribution F G} (hproper : pkp.Proper)
    (hindex : myIndex ≠ 0 ∧ myIndex ≤ newN) {out : Bytes × Bytes × DeviceId} :
    packages myIndex newK pkp.verifyingKey (sharePoints q held newN) (combinedShare q held) = .ok out
      ↔ Finishes myIndex newK newN q pkp held out := by
  have hmine : (sharePoints q held newN)[myIndex]? = some (sharePoint q held myIndex) :=
    get_sharePoints (List.mem_range'_1.mpr ⟨Nat.one_le_iff_ne_zero.mpr hindex.1, by omega⟩)
  have hgroup := hcurve.serializeElement_eq pkp.verifyingKey
  rw [if_neg hproper.1] at hgroup
  unfold packages groupKeyOf indexed ident
  rw [if_neg hindex.1]
  simp only [bind_eq_ok, ser_eq_ok, hcurve.deserializeShare_toBytes, hgroup]
  constructor
  · rintro ⟨_, ⟨⟩, _, ⟨⟩, share, hshare, group, ⟨_, ⟨⟩, hgroup⟩, key, hkey, pub, hpub, hreturn⟩
    cases hreturn
    cases hgroup
    cases hmine.symm.trans hshare
    exact ⟨hkey, hpub, rfl⟩
  · rintro ⟨hkey, hpub, hgroup⟩
    obtain ⟨key, pub, group⟩ := out
    dsimp only at hkey hpub hgroup
    subst hgroup
    exact ⟨_, rfl, _, rfl, _, hmine, _, ⟨_, rfl, rfl⟩, key, hkey, pub, hpub, rfl⟩

omit [DecidableEq F] [DecidableEq G] [ScalarBytes F] [Frost F G] [Postcard (List Bytes)] hcurve in
/-- A combined share opens its own verifying share: the last check never fails. -/
theorem combinedShare_smul_base {q : List ℕ} {myIndex : ℕ} {held : ℕ → Contribution F G}
    (hfeldman : ∀ i ∈ q,
      (held i).2 • (PointBytes.base : G) = evalCommitments (F := F) (held i).1 myIndex) :
    combinedShare q held • (PointBytes.base : G) = sharePoint q held myIndex := by
  unfold combinedShare sharePoint
  rw [List.sum_smul, List.map_map]
  congr 1
  refine List.map_congr_left fun i hi => ?_
  show (weight node q i * (held i).2) • PointBytes.base = _
  rw [mul_smul, hfeldman i hi]

/-- **What finishing checks, and what it leaves.** -/
theorem reshareFinalize_eq_ok (hnodes : DistinctNodes F) {myIndex newK newN : ℕ} {q : List ℕ}
    (hbounded : ∀ i ∈ q, i ≤ U16_MAX) {commitments mySubShares : BTreeMap ℕ Bytes}
    {oldPkp : Bytes} {held : ℕ → Contribution F G}
    (hheld : held = contributed myIndex newK commitments mySubShares oldPkp)
    {out : Bytes × Bytes × DeviceId} :
    reshareFinalize (F := F) (G := G) myIndex newK newN q commitments mySubShares oldPkp = .ok out ↔
      ∃ pkp, Frost.deserializePublic F oldPkp = some pkp ∧
        Accepts myIndex newK newN q commitments mySubShares pkp held ∧
        Finishes myIndex newK newN q pkp held out := by
  unfold reshareFinalize
  dsimp only
  simp only [guard_eq_ok, bind_eq_ok, ser_eq_ok]
  constructor
  · rintro ⟨hindex, hqualified, hkeys, pkp, hpkp, key, hkey, result, hloop, hrecombines, share,
      hshare, shares, hshares, mine, hmine, -, hpackages⟩
    simp only [not_or, not_not, not_lt, List.isEmpty_iff] at hindex hqualified hkeys hrecombines
    have hq : Qualified q := ⟨hqualified.1, hqualified.2.1, hqualified.2.2, hbounded⟩
    have hproper := hcurve.proper_of_deserializePublic oldPkp pkp hpkp
    obtain ⟨hcontributes, rfl⟩ := (foldlM_contribute_eq_ok hcurve hq hnodes hpkp hheld).mp hloop
    have hdecoded := fun i => get_decodedOf (q := q) held (i := i)
    obtain ⟨hne, rfl⟩ := (newVerifyingShares_eq_ok hcurve hq hnodes hdecoded).mp hshares
    cases (standingKey_eq hcurve hproper).symm.trans hkey
    cases (combine_eq hq hnodes hdecoded Prod.snd).symm.trans hshare
    exact ⟨pkp, hpkp, ⟨hindex, hq, hkeys, hcontributes, hrecombines, hne⟩,
      (packages_eq_ok hcurve hproper hindex).mp hpackages⟩
  · rintro ⟨pkp, hpkp, ⟨hindex, hq, hkeys, hcontributes, hrecombines, hne⟩, hfinishes⟩
    have hproper := hcurve.proper_of_deserializePublic oldPkp pkp hpkp
    have hdecoded := fun i => get_decodedOf (q := q) held (i := i)
    simp only [not_or, not_not, not_lt, List.isEmpty_iff]
    refine ⟨hindex, ⟨hq.nonempty, hq.sorted, hq.positive⟩, hkeys, pkp, hpkp, pkp.verifyingKey,
      standingKey_eq hcurve hproper, (decodedOf q held, recombinedKey q held), ?_, hrecombines,
      combinedShare q held, combine_eq hq hnodes hdecoded Prod.snd, sharePoints q held newN, ?_,
      sharePoint q held myIndex, ?_, ?_, ?_⟩
    · exact (foldlM_contribute_eq_ok hcurve hq hnodes hpkp hheld).mpr ⟨hcontributes, rfl⟩
    · exact (newVerifyingShares_eq_ok hcurve hq hnodes hdecoded).mpr ⟨hne, rfl⟩
    · exact combine_eq hq hnodes hdecoded fun held => evalCommitments (F := F) held.1 myIndex
    · exact combinedShare_smul_base fun i hi => (hcontributes i hi).feldman
    · exact (packages_eq_ok hcurve hproper hindex).mpr hfinishes

/-! ## What is finished with -/

omit [DecidableEq F] [Postcard (List Bytes)] in
/-- A finished participant's package is read back as it was written. -/
theorem Finishes.deserialize {myIndex newK newN : ℕ} {q : List ℕ} {pkp : PublicKeyPackage G}
    {held : ℕ → Contribution F G} {out : Bytes × Bytes × DeviceId}
    (h : Finishes myIndex newK newN q pkp held out) :
    Frost.deserializeKey out.1 = some (⟨myIndex, combinedShare q held, sharePoint q held myIndex,
        pkp.verifyingKey, newK⟩ : KeyPackage F G) ∧
      Frost.deserializePublic F out.2.1
        = some (⟨sharePoints q held newN, pkp.verifyingKey, some newK⟩ : PublicKeyPackage G) :=
  ⟨hcurve.deserializeKey_serializeKey _ _ h.key,
    hcurve.deserializePublic_serializePublic _ _ h.pub⟩

omit [DecidableEq F] in
/-- What a participant checked lets it finish. -/
theorem Accepts.exists_finishes {myIndex newK newN : ℕ} {q : List ℕ}
    {commitments mySubShares : BTreeMap ℕ Bytes} {pkp : PublicKeyPackage G}
    {held : ℕ → Contribution F G}
    (h : Accepts myIndex newK newN q commitments mySubShares pkp held) (hproper : pkp.Proper) :
    ∃ out, Finishes myIndex newK newN q pkp held out := by
  have hmine : myIndex ∈ List.range' 1 newN := by
    have := h.index
    exact List.mem_range'_1.mpr ⟨by omega, by omega⟩
  obtain ⟨key, hkey⟩ := hcurve.serializeKey_eq
    (⟨myIndex, combinedShare q held, sharePoint q held myIndex, pkp.verifyingKey, newK⟩ :
      KeyPackage F G) (h.shares myIndex hmine) hproper.1
  obtain ⟨pub, hpub⟩ := hcurve.serializePublic_eq
    (⟨sharePoints q held newN, pkp.verifyingKey, some newK⟩ : PublicKeyPackage G)
    ⟨hproper.1, fun m share hshare => by
      obtain ⟨hm, rfl⟩ := mem_of_get_sharePoints hshare
      exact h.shares m hm⟩
  exact ⟨(key, pub, ⟨Bytes.hexEncode (PointBytes.compress pkp.verifyingKey)⟩), hkey, hpub, rfl⟩

omit [DecidableEq F] [DecidableEq G] [Frost F G] hcurve in
/-- **The commitments decide the public package.**  Participants that verified the
same commitments agree on what every dealer committed to. -/
theorem points_eq_of_contributes {pkp : PublicKeyPackage G} {j j' newK : ℕ}
    {commitments mySubShares mySubShares' : BTreeMap ℕ Bytes} {i : ℕ} {held held' : Contribution F G}
    (h : Contributes pkp j newK commitments mySubShares i held)
    (h' : Contributes pkp j' newK commitments mySubShares' i held') : held.1 = held'.1 := by
  obtain ⟨blob, hblob, hpoints⟩ := h.points
  obtain ⟨blob', hblob', hpoints'⟩ := h'.points
  cases hblob.symm.trans hblob'
  exact Except.ok.inj (hpoints.symm.trans hpoints')

end Spec

end Lait.Ceremony
