import Lait.Fallible
import Lait.Replica.Protected

/-!
# What an artifact pack holds

A pack is a version byte, a count and the sealed artifacts one after the other, each
behind its length.  The encoder writes exactly that string (`packBytes`), and refuses
where it would be longer than a Body may be; the reader of the envelopes reads it back and
nothing else (`readEnvelopes_eq_ok`).

The decoder also holds what it read against a signed descriptor: every envelope answers to
a reference of it, no two to the same, and a complete pack has as many as there are
references (`OfClosure`).  So it accepts a string exactly when the encoder writes it for
some list of that kind (`decodeArtifactPackInner_eq_ok`), and answers with the list in the
order of the references, whatever order it was packed in.
-/

namespace Lait.Replica

/-! ## Numbers in eight bytes -/

theorem be16_of_bytes (hi lo : UInt8) :
    Bytes.be16 (hi.toNat * 256 + lo.toNat) = ⟨[hi, lo]⟩ := by
  have hlo := lo.toNat_lt
  have hhi := hi.toNat_lt
  unfold Bytes.be16
  congr 2
  · rw [← UInt8.toNat_inj, UInt8.toNat_ofNat']
    omega
  · congr 1
    rw [← UInt8.toNat_inj, UInt8.toNat_ofNat']
    omega

theorem be16_toNat {n : ℕ} (h : n ≤ 65535) :
    (UInt8.ofNat (n / 256)).toNat * 256 + (UInt8.ofNat n).toNat = n := by
  rw [UInt8.toNat_ofNat', UInt8.toNat_ofNat']
  omega

/-- Eight bytes are those of the number they spell. -/
theorem be64_beNat {l : List UInt8} (h : l.length = 8) : (Bytes.be64 (beNat l)).data = l := by
  obtain ⟨a, b, c, d, e, f, g, i, rfl⟩ : ∃ a b c d e f g i, l = [a, b, c, d, e, f, g, i] := by
    match l, h with
    | [a, b, c, d, e, f, g, i], _ => exact ⟨a, b, c, d, e, f, g, i, rfl⟩
  have ha := a.toNat_lt
  have hb := b.toNat_lt
  have hc := c.toNat_lt
  have hd := d.toNat_lt
  have he := e.toNat_lt
  have hf := f.toNat_lt
  have hg := g.toNat_lt
  have hi := i.toNat_lt
  simp only [beNat, List.foldl_cons, List.foldl_nil, Bytes.be64, Bytes.be32, Bytes.be16,
    Bytes.data_append, List.cons_append, List.nil_append, List.cons.injEq, ← UInt8.toNat_inj,
    UInt8.toNat_ofNat', and_true]
  refine ⟨?_, ?_, ?_, ?_, ?_, ?_, ?_, ?_⟩ <;> omega

theorem beNat_be64 {n : ℕ} (h : n < 2 ^ 64) : beNat (Bytes.be64 n).data = n := by
  simp only [beNat, Bytes.be64, Bytes.be32, Bytes.be16, Bytes.data_append, List.cons_append,
    List.nil_append, List.foldl_cons, List.foldl_nil, UInt8.toNat_ofNat']
  omega

/-! ## The string of a pack -/

/-- An artifact behind its length. -/
def prefixed (artifact : Bytes) : List UInt8 := (Bytes.be64 artifact.length).data ++ artifact.data

/-- The pack of a list of artifacts. -/
def packBytes (packed : List Bytes) : Bytes :=
  ⟨ARTIFACT_PACK_VERSION :: (Bytes.be16 packed.length).data ++ packed.flatMap prefixed⟩

theorem length_prefixed (artifact : Bytes) : (prefixed artifact).length = 8 + artifact.length := by
  rw [prefixed, List.length_append]
  rfl

theorem length_packBytes (packed : List Bytes) :
    (packBytes packed).length = 3 + (packed.map fun a => 8 + a.length).sum := by
  show (ARTIFACT_PACK_VERSION :: (Bytes.be16 packed.length).data ++
    packed.flatMap prefixed).length = _
  have hhead : (ARTIFACT_PACK_VERSION :: (Bytes.be16 packed.length).data).length = 3 := rfl
  rw [List.length_append, hhead, List.length_flatMap]
  simp only [length_prefixed]

/-- A loop that appends artifacts as long as they fit appends them all, or fails. -/
theorem foldlM_prefixed_eq_ok {packed : List Bytes} {acc bytes : Bytes}
    (hacc : acc.length ≤ MAX_BODY_BYTES) :
    packed.foldlM (fun (bytes : Bytes) artifact =>
      if MAX_BODY_BYTES < bytes.length + 8 + artifact.length then
        (.error .quotaExceeded : Except Failure Bytes)
      else .ok (Bytes.join [bytes, Bytes.be64 artifact.length, artifact])) acc = .ok bytes ↔
      acc.length + (packed.map fun a => 8 + a.length).sum ≤ MAX_BODY_BYTES ∧
        bytes = ⟨acc.data ++ packed.flatMap prefixed⟩ := by
  induction packed generalizing acc with
  | nil =>
      rw [List.foldlM_nil, List.flatMap_nil, List.append_nil, List.map_nil, List.sum_nil]
      constructor
      · rintro ⟨⟩
        exact ⟨hacc, rfl⟩
      · rintro ⟨-, rfl⟩
        rfl
  | cons artifact packed ih =>
      have hjoin : Bytes.join [acc, Bytes.be64 artifact.length, artifact] =
          ⟨acc.data ++ prefixed artifact⟩ := by
        refine Bytes.ext ?_
        simp only [Bytes.join_cons, Bytes.data_append, prefixed]
        exact congrArg _ (congrArg _ (List.append_nil _))
      have hlen : (⟨acc.data ++ prefixed artifact⟩ : Bytes).length =
          acc.length + 8 + artifact.length := by
        show (acc.data ++ prefixed artifact).length = acc.data.length + 8 + artifact.length
        rw [List.length_append, length_prefixed]
        omega
      rw [foldlM_cons_eq_ok, List.map_cons, List.sum_cons, List.flatMap_cons]
      constructor
      · rintro ⟨next, hnext, hrest⟩
        split at hnext
        case isTrue => cases hnext
        case isFalse hfits =>
            cases hnext
            rw [hjoin] at hrest
            obtain ⟨hsum, rfl⟩ := (ih (by rw [hlen]; omega)).mp hrest
            rw [hlen] at hsum
            exact ⟨by omega, by rw [List.append_assoc]⟩
      · rintro ⟨hsum, rfl⟩
        refine ⟨_, if_neg (by omega), ?_⟩
        rw [hjoin, ih (by rw [hlen]; omega), hlen]
        exact ⟨by omega, by rw [List.append_assoc]⟩

/-- **What the encoder writes**, and when it refuses. -/
theorem encodeArtifactPack_eq_ok {packed : List Bytes} {bytes : Bytes} :
    encodeArtifactPack packed = .ok bytes ↔ packed.length ≤ 65535 ∧
      (packBytes packed).length ≤ MAX_BODY_BYTES ∧ bytes = packBytes packed := by
  unfold encodeArtifactPack
  rw [guard_eq_ok, not_lt]
  refine and_congr_right fun _ => ?_
  have hheader : 3 ≤ MAX_BODY_BYTES := by decide
  rw [length_packBytes]
  exact foldlM_prefixed_eq_ok hheader

/-- A pack of some of the artifacts of a pack can be written. -/
theorem encodeArtifactPack_of_sublist {packed part : List Bytes} {bytes : Bytes}
    (h : encodeArtifactPack packed = .ok bytes) (hsub : part.Subperm packed) :
    encodeArtifactPack part = .ok (packBytes part) := by
  obtain ⟨hcount, hlen, -⟩ := encodeArtifactPack_eq_ok.mp h
  rw [length_packBytes] at hlen
  obtain ⟨l, hperm, hsublist⟩ := hsub
  have hsum : (part.map fun a => 8 + a.length).sum ≤ (packed.map fun a => 8 + a.length).sum := by
    rw [← (hperm.map fun a => 8 + a.length).sum_eq]
    exact (hsublist.map _).sum_le_sum fun _ _ => Nat.zero_le _
  have hshort := hperm.length_eq ▸ hsublist.length_le
  exact encodeArtifactPack_eq_ok.mpr
    ⟨hshort.trans hcount, by rw [length_packBytes]; omega, rfl⟩

/-- **The reader reads exactly what was written.** -/
theorem readEnvelopes_eq_ok {count : ℕ} {bytes rest : List UInt8} {artifacts : List Bytes} :
    readEnvelopes count bytes = .ok (artifacts, rest) ↔ artifacts.length = count ∧
      (∀ a ∈ artifacts, a.length ≤ MAX_BODY_BYTES) ∧
        bytes = artifacts.flatMap prefixed ++ rest := by
  induction count generalizing bytes artifacts with
  | zero =>
      rw [readEnvelopes]
      constructor
      · rintro ⟨⟩
        exact ⟨rfl, by rintro a ⟨⟩, rfl⟩
      · rintro ⟨hlen, -, rfl⟩
        obtain rfl := List.length_eq_zero_iff.mp hlen
        rfl
  | succ count ih =>
      rw [readEnvelopes, guard_eq_ok]
      constructor
      · rintro ⟨hwidth, h⟩
        obtain ⟨hshort, h⟩ := guard_eq_ok.mp h
        obtain ⟨htail, h⟩ := guard_eq_ok.mp h
        obtain ⟨⟨others, last⟩, hothers, hpure⟩ := bind_eq_ok.mp h
        cases hpure
        obtain ⟨rfl, hbounded, hrest⟩ := ih.mp hothers
        have hlen : (bytes.take 8).length = 8 := by rw [List.length_take]; omega
        have hfirst : ((bytes.drop 8).take (beNat (bytes.take 8))).length =
            beNat (bytes.take 8) := by
          rw [List.length_take]
          omega
        refine ⟨rfl, List.forall_mem_cons.mpr ⟨?_, hbounded⟩, ?_⟩
        · show ((bytes.drop 8).take (beNat (bytes.take 8))).length ≤ MAX_BODY_BYTES
          omega
        · have hprefixed : prefixed ⟨(bytes.drop 8).take (beNat (bytes.take 8))⟩ =
              bytes.take 8 ++ (bytes.drop 8).take (beNat (bytes.take 8)) := by
            show (Bytes.be64 ((bytes.drop 8).take (beNat (bytes.take 8))).length).data ++ _ = _
            rw [hfirst, be64_beNat hlen]
          rw [List.flatMap_cons, hprefixed, List.append_assoc, ← hrest, List.append_assoc,
            List.take_append_drop, List.take_append_drop]
      · rintro ⟨hcount, hbounded, rfl⟩
        cases artifacts with
        | nil => cases hcount
        | cons artifact artifacts =>
            obtain ⟨hfirst, hothers⟩ := List.forall_mem_cons.mp hbounded
            have hsmall : artifact.length < 2 ^ 64 := hfirst.trans_lt (by decide)
            have hlen : (Bytes.be64 artifact.length).data.length = 8 := rfl
            rw [List.flatMap_cons, prefixed]
            simp only [List.append_assoc, List.take_left' hlen, List.drop_left' hlen,
              beNat_be64 hsmall]
            refine ⟨by simp [hlen], guard_eq_ok.mpr ⟨not_lt.mpr hfirst, guard_eq_ok.mpr ⟨?_, ?_⟩⟩⟩
            · rw [List.length_append]
              exact not_lt.mpr (Nat.le_add_right _ _)
            · have hdata : artifact.data.length = artifact.length := rfl
              rw [List.take_left' hdata, List.drop_left' hdata]
              have hrest := ih.mpr ⟨Nat.succ.inj hcount, hothers, rfl⟩
              exact bind_eq_ok.mpr ⟨(artifacts, rest), hrest, rfl⟩

/-- The reader finds what was packed behind the header. -/
theorem readEnvelopes_packed {packed : List Bytes}
    (h : (packBytes packed).length ≤ MAX_BODY_BYTES) :
    readEnvelopes packed.length (packed.flatMap prefixed) = .ok (packed, []) := by
  refine readEnvelopes_eq_ok.mpr ⟨rfl, fun a ha => ?_, (List.append_nil _).symm⟩
  rw [length_packBytes] at h
  have hsum := List.single_le_sum (fun _ _ => Nat.zero_le _) _
    (List.mem_map_of_mem (f := fun a : Bytes => 8 + a.length) ha)
  omega

/-- A pack tells which artifacts it holds. -/
theorem encodeArtifactPack_injective {packed packed' : List Bytes} {bytes : Bytes}
    (h : encodeArtifactPack packed = .ok bytes) (h' : encodeArtifactPack packed' = .ok bytes) :
    packed = packed' := by
  obtain ⟨hsmall, hsize, rfl⟩ := encodeArtifactPack_eq_ok.mp h
  obtain ⟨hsmall', hsize', heq⟩ := encodeArtifactPack_eq_ok.mp h'
  have hdata := congrArg Bytes.data heq
  simp only [packBytes, Bytes.be16, List.cons_append, List.nil_append, List.cons.injEq,
    true_and] at hdata
  obtain ⟨hhi, hlo, hrest⟩ := hdata
  have hlen : packed.length = packed'.length := by
    rw [← be16_toNat hsmall, ← be16_toNat hsmall', hhi, hlo]
  have hread := readEnvelopes_packed hsize
  rw [hlen, hrest, readEnvelopes_packed hsize'] at hread
  exact (Prod.mk.inj (Except.ok.inj hread)).1.symm

/-! ## Packs of a descriptor -/

section Decode

variable [Crypto] {refs : List ArtifactRef} {packed : List Bytes}

/-- The artifacts a pack may hold for the references of a descriptor: each answers to one of
them, no two to the same, and a complete pack has as many as there are. -/
structure OfClosure (refs : List ArtifactRef) (requireComplete : Bool) (packed : List Bytes) :
    Prop where
  named : ∀ artifact ∈ packed, ∃ reference ∈ refs, envelopeRef artifact = some reference
  once : (packed.map envelopeRef).Nodup
  whole : requireComplete = true → packed.length = refs.length

/-- The artifacts in the order of the references. -/
def inSignedOrder (refs : List ArtifactRef) (packed : List Bytes) : List Bytes :=
  refs.eraseDups.filterMap fun reference =>
    packed.find? fun artifact => envelopeRef artifact = some reference

/-- Each artifact with the reference it answers to. -/
def answering (packed : List Bytes) : List (ArtifactRef × Bytes) :=
  packed.filterMap fun artifact => (envelopeRef artifact).map (·, artifact)

theorem answering_cons {artifact : Bytes} {reference : ArtifactRef}
    (h : envelopeRef artifact = some reference) :
    answering (artifact :: packed) = (reference, artifact) :: answering packed :=
  List.filterMap_cons_some (by rw [h]; rfl)

/-- **What the matching asks of the envelopes.** -/
theorem matchEnvelopes_eq_ok {delivered out : List (ArtifactRef × Bytes)} :
    matchEnvelopes refs packed delivered = .ok out ↔
      (∀ artifact ∈ packed, ∃ reference ∈ refs, envelopeRef artifact = some reference ∧
        reference ∉ delivered.map Prod.fst) ∧
      (packed.map envelopeRef).Nodup ∧ out = delivered ++ answering packed := by
  induction packed generalizing delivered with
  | nil =>
      rw [matchEnvelopes]
      constructor
      · rintro ⟨⟩
        exact ⟨by rintro a ⟨⟩, List.nodup_nil, (List.append_nil _).symm⟩
      · rintro ⟨-, -, rfl⟩
        exact congrArg Except.ok (List.append_nil _).symm
  | cons artifact packed ih =>
      rw [matchEnvelopes, List.map_cons, List.nodup_cons]
      cases href : envelopeRef artifact with
      | none =>
          constructor
          · rintro ⟨⟩
          · rintro ⟨hnamed, -, -⟩
            obtain ⟨reference, -, heq, -⟩ := hnamed artifact List.mem_cons_self
            rw [href] at heq
            cases heq
      | some reference =>
          have hlater : ∀ other, other ∉ (delivered ++ [(reference, artifact)]).map Prod.fst ↔
              other ∉ delivered.map Prod.fst ∧ other ≠ reference := fun other => by
            rw [List.map_append, List.mem_append, not_or]
            simp
          simp only
          constructor
          · intro h
            split at h
            case isTrue => cases h
            case isFalse hok =>
                push Not at hok
                obtain ⟨hnamed, honce, rfl⟩ := ih.mp h
                refine ⟨List.forall_mem_cons.mpr ⟨⟨reference, hok.1, href, hok.2⟩, ?_⟩,
                  ⟨?_, honce⟩, ?_⟩
                · intro other hother
                  obtain ⟨r, hr, heq, hfresh⟩ := hnamed other hother
                  exact ⟨r, hr, heq, ((hlater r).mp hfresh).1⟩
                · intro hmem
                  obtain ⟨other, hother, heq⟩ := List.mem_map.mp hmem
                  obtain ⟨r, -, hr, hfresh⟩ := hnamed other hother
                  exact ((hlater r).mp hfresh).2 (Option.some.inj (hr.symm.trans heq))
                · rw [answering_cons href, List.append_assoc]
                  rfl
          · rintro ⟨hnamed, ⟨hfresh, honce⟩, rfl⟩
            obtain ⟨⟨r, hr, heq, hnew⟩, hothers⟩ := List.forall_mem_cons.mp hnamed
            obtain rfl := Option.some.inj (href.symm.trans heq)
            rw [if_neg (by push Not; exact ⟨hr, hnew⟩)]
            refine ih.mpr ⟨fun other hother => ?_, honce, ?_⟩
            · obtain ⟨s, hs, hother', hnew'⟩ := hothers other hother
              refine ⟨s, hs, hother', (hlater s).mpr ⟨hnew', fun hsame => ?_⟩⟩
              exact hfresh (List.mem_map.mpr ⟨other, hother, by rw [hother', hsame]⟩)
            · rw [answering_cons href, List.append_assoc]
              rfl

/-- The artifact that answers to a reference. -/
theorem find?_answering (reference : ArtifactRef) :
    ((answering packed).find? fun entry => entry.1 = reference).map Prod.snd =
      packed.find? fun artifact => envelopeRef artifact = some reference := by
  induction packed with
  | nil => rfl
  | cons artifact packed ih =>
      cases href : envelopeRef artifact with
      | none =>
          have hskip : answering (artifact :: packed) = answering packed :=
            List.filterMap_cons_none (by rw [href]; rfl)
          rw [hskip, ih, List.find?_cons_of_neg (by simp [href])]
      | some r =>
          rw [answering_cons href]
          by_cases hr : r = reference
          · rw [List.find?_cons_of_pos (by simp [hr]), List.find?_cons_of_pos (by simp [href, hr])]
            rfl
          · rw [List.find?_cons_of_neg (by simp [hr]),
              List.find?_cons_of_neg (by simp [href, hr]), ih]

theorem map_fst_answering (h : ∀ artifact ∈ packed, ∃ reference ∈ refs,
    envelopeRef artifact = some reference) :
    ((answering packed).map Prod.fst).map some = packed.map envelopeRef := by
  induction packed with
  | nil => rfl
  | cons artifact packed ih =>
      obtain ⟨⟨r, -, href⟩, hrest⟩ := List.forall_mem_cons.mp h
      rw [answering_cons href, List.map_cons, List.map_cons, ih hrest, List.map_cons, href]

/-- The references a list of the closure answers to. -/
theorem OfClosure.references {requireComplete : Bool} (h : OfClosure refs requireComplete packed) :
    ((answering packed).map Prod.fst).Nodup ∧ (answering packed).map Prod.fst ⊆ refs ∧
      ((answering packed).map Prod.fst).length = packed.length := by
  have hmap := map_fst_answering h.named
  refine ⟨?_, fun reference hmem => ?_, ?_⟩
  · exact List.Nodup.of_map some (hmap ▸ h.once)
  · have hsome := List.mem_map_of_mem (f := some) hmem
    rw [hmap] at hsome
    obtain ⟨artifact, hartifact, href⟩ := List.mem_map.mp hsome
    obtain ⟨r, hr, heq⟩ := h.named artifact hartifact
    obtain rfl := Option.some.inj (heq.symm.trans href)
    exact hr
  · simpa using congrArg List.length hmap

theorem OfClosure.length_le {requireComplete : Bool} (h : OfClosure refs requireComplete packed) :
    packed.length ≤ refs.length := by
  obtain ⟨hnodup, hsub, hlen⟩ := h.references
  rw [← hlen]
  exact (hnodup.subperm hsub).length_le

/-- A complete pack answers to every reference, and there are no two alike. -/
theorem OfClosure.perm (h : OfClosure refs true packed) :
    ((answering packed).map Prod.fst).Perm refs := by
  obtain ⟨hnodup, hsub, hlen⟩ := h.references
  exact (hnodup.subperm hsub).perm_of_length_le (by rw [hlen, h.whole rfl])

/-- Some of the artifacts of the closure. -/
theorem OfClosure.of_subperm {requireComplete : Bool} {part : List Bytes}
    (h : OfClosure refs requireComplete packed) (hsub : part.Subperm packed) :
    OfClosure refs false part where
  named artifact hmem := h.named artifact (hsub.subset hmem)
  once := by
    obtain ⟨l, hperm, hsublist⟩ := hsub
    exact (hperm.map envelopeRef).nodup_iff.mp (h.once.sublist (hsublist.map envelopeRef))
  whole := by rintro ⟨⟩

/-- The artifacts of the closure in another order. -/
theorem OfClosure.of_perm {part : List Bytes} (h : OfClosure refs true packed)
    (hperm : part.Perm packed) : OfClosure refs true part where
  named := (h.of_subperm hperm.subperm).named
  once := (h.of_subperm hperm.subperm).once
  whole := fun hwhole => hperm.length_eq.trans (h.whole hwhole)

/-- What the decoder answers with, once every envelope is matched to its reference. -/
theorem filterMap_answering (refs : List ArtifactRef) (packed : List Bytes) :
    (refs.eraseDups.filterMap fun reference =>
      ((answering packed).find? fun entry => entry.1 = reference).map Prod.snd) =
      inSignedOrder refs packed :=
  List.filterMap_congr fun reference _ => find?_answering reference

/-- The checks of the decoder after the envelopes are read. -/
theorem matched_eq_ok {requireComplete : Bool} {artifacts : List Bytes}
    (hcount : ¬ (refs.length < packed.length ∨
      (requireComplete = true ∧ packed.length ≠ refs.length))) :
    (do
      let delivered ← matchEnvelopes refs packed []
      if requireComplete = true ∧ ¬ (refs.all (· ∈ delivered.map Prod.fst)) = true then
        throw (Failure.illegitimate .binding)
      return refs.eraseDups.filterMap fun reference =>
        (delivered.find? fun entry => entry.1 = reference).map Prod.snd :
        Except Failure (List Bytes)) = .ok artifacts ↔
      OfClosure refs requireComplete packed ∧ artifacts = inSignedOrder refs packed := by
  rw [bind_eq_ok]
  constructor
  · rintro ⟨delivered, hmatch, h⟩
    obtain ⟨hnamed, honce, rfl⟩ := matchEnvelopes_eq_ok.mp hmatch
    obtain ⟨-, h⟩ := guard_eq_ok.mp h
    cases h
    refine ⟨⟨fun artifact hmem => ?_, honce, fun hwhole => ?_⟩, filterMap_answering refs packed⟩
    · obtain ⟨reference, hreference, heq, -⟩ := hnamed artifact hmem
      exact ⟨reference, hreference, heq⟩
    · push Not at hcount
      exact hcount.2 hwhole
  · rintro ⟨hclosure, rfl⟩
    refine ⟨answering packed, matchEnvelopes_eq_ok.mpr ⟨fun artifact hmem => ?_, hclosure.once,
      rfl⟩, guard_eq_ok.mpr ⟨?_, congrArg Except.ok (filterMap_answering refs packed)⟩⟩
    · obtain ⟨reference, hreference, heq⟩ := hclosure.named artifact hmem
      exact ⟨reference, hreference, heq, List.not_mem_nil⟩
    · rintro ⟨rfl, hall⟩
      exact hall (List.all_eq_true.mpr fun reference hmem =>
        decide_eq_true (hclosure.perm.mem_iff.mpr hmem))

/-- **The decoder accepts what the encoder writes**, for the lists a descriptor allows, and
nothing else; it answers with the artifacts in signed order. -/
theorem decodeArtifactPackInner_eq_ok {descriptor : Descriptor} {bytes : Bytes}
    {requireComplete : Bool} {artifacts : List Bytes} :
    decodeArtifactPackInner descriptor bytes requireComplete = .ok artifacts ↔
      ∃ packed, encodeArtifactPack packed = .ok bytes ∧
        OfClosure descriptor.artifactRefs requireComplete packed ∧
        artifacts = inSignedOrder descriptor.artifactRefs packed := by
  unfold decodeArtifactPackInner
  rw [guard_eq_ok, not_lt]
  constructor
  · rintro ⟨hsize, h⟩
    split at h
    case h_2 => cases h
    case h_1 version hi lo remaining hdata =>
        obtain ⟨hversion, h⟩ := guard_eq_ok.mp h
        obtain ⟨hcount, h⟩ := guard_eq_ok.mp h
        obtain ⟨⟨packed, rest⟩, hread, h⟩ := bind_eq_ok.mp h
        obtain ⟨hrest, h⟩ := guard_eq_ok.mp h
        obtain ⟨hlen, -, hbytes⟩ := readEnvelopes_eq_ok.mp hread
        have hwritten : bytes = packBytes packed := by
          refine Bytes.ext ?_
          obtain rfl : rest = [] := by simpa using hrest
          rw [hdata, hbytes, packBytes, hlen, be16_of_bytes, not_not.mp hversion]
          simp
        obtain ⟨hclosure, rfl⟩ := (matched_eq_ok (by rw [hlen]; exact hcount)).mp h
        have hsmall : packed.length ≤ 65535 := by
          have hhi := hi.toNat_lt
          have hlo := lo.toNat_lt
          omega
        exact ⟨packed, encodeArtifactPack_eq_ok.mpr ⟨hsmall, hwritten ▸ hsize, hwritten⟩,
          hclosure, rfl⟩
  · rintro ⟨packed, hencode, hclosure, rfl⟩
    obtain ⟨hsmall, hsize, rfl⟩ := encodeArtifactPack_eq_ok.mp hencode
    have hnumber : ¬ (descriptor.artifactRefs.length < packed.length ∨
        (requireComplete = true ∧ packed.length ≠ descriptor.artifactRefs.length)) := by
      rintro (hmore | ⟨rfl, hother⟩)
      · exact absurd hclosure.length_le (not_le.mpr hmore)
      · exact hother (hclosure.whole rfl)
    have hread := readEnvelopes_packed hsize
    refine ⟨hsize, ?_⟩
    simp only [packBytes, Bytes.be16, List.cons_append, List.nil_append, be16_toNat hsmall]
    refine guard_eq_ok.mpr ⟨not_not.mpr rfl, guard_eq_ok.mpr ⟨hnumber, ?_⟩⟩
    refine bind_eq_ok.mpr ⟨_, hread, guard_eq_ok.mpr ⟨by simp, ?_⟩⟩
    exact (matched_eq_ok hnumber).mpr ⟨hclosure, rfl⟩

/-! ## In signed order -/

theorem envelopeRef_object {artifact : Bytes} {reference : ArtifactRef}
    (h : envelopeRef artifact = some reference) :
    objectRef artifact = artifactObject reference := by
  unfold envelopeRef at h
  split at h
  case h_1 => cases h
  case h_2 =>
      split at h
      case isTrue => cases h
      case isFalse =>
          cases h
          rfl

/-- A reference is answered by the one artifact that answers to it. -/
theorem OfClosure.find? {requireComplete : Bool} {artifact : Bytes} {reference : ArtifactRef}
    (h : OfClosure refs requireComplete packed) (hmem : artifact ∈ packed)
    (href : envelopeRef artifact = some reference) :
    packed.find? (fun artifact => envelopeRef artifact = some reference) = some artifact := by
  cases hfind : packed.find? fun artifact => envelopeRef artifact = some reference with
  | none => exact absurd (decide_eq_true href) (List.find?_eq_none.mp hfind artifact hmem)
  | some other =>
      have hother : envelopeRef other = some reference := by simpa using List.find?_some hfind
      exact congrArg some (List.inj_on_of_nodup_map h.once (List.mem_of_find?_eq_some hfind)
        hmem (hother.trans href.symm))

/-- The decoder answers with the artifacts it read. -/
theorem mem_inSignedOrder {requireComplete : Bool} {artifact : Bytes}
    (h : OfClosure refs requireComplete packed) :
    artifact ∈ inSignedOrder refs packed ↔ artifact ∈ packed := by
  unfold inSignedOrder
  rw [List.mem_filterMap]
  constructor
  · rintro ⟨reference, -, hfind⟩
    exact List.mem_of_find?_eq_some hfind
  · intro hmem
    obtain ⟨reference, hreference, href⟩ := h.named artifact hmem
    exact ⟨reference, List.mem_eraseDups.mpr hreference, h.find? hmem href⟩

omit [Crypto] in
theorem eraseDups_of_nodup {α : Type} [DecidableEq α] {l : List α} (h : l.Nodup) :
    l.eraseDups = l := by
  induction l with
  | nil => rfl
  | cons a l ih =>
      obtain ⟨hnew, hnodup⟩ := List.nodup_cons.mp h
      have hkeep : l.filter (fun b => !b == a) = l :=
        List.filter_eq_self.mpr fun b hb => by
          have hne : b ≠ a := fun heq => hnew (heq ▸ hb)
          simpa using hne
      rw [List.eraseDups_cons, hkeep, ih hnodup]

/-- A complete pack answers to the references one by one. -/
theorem OfClosure.forall₂ (h : OfClosure refs true packed) :
    List.Forall₂ (fun reference artifact => envelopeRef artifact = some reference) refs
      (inSignedOrder refs packed) := by
  have hnodup : refs.Nodup := h.perm.nodup_iff.mp h.references.1
  unfold inSignedOrder
  rw [eraseDups_of_nodup hnodup]
  have hfound : ∀ reference ∈ refs, ∃ artifact,
      packed.find? (fun artifact => envelopeRef artifact = some reference) = some artifact ∧
        envelopeRef artifact = some reference := by
    intro reference hmem
    have hsome := List.mem_map_of_mem (f := some) (h.perm.mem_iff.mpr hmem)
    rw [map_fst_answering h.named] at hsome
    obtain ⟨artifact, hartifact, href⟩ := List.mem_map.mp hsome
    exact ⟨artifact, h.find? hartifact href, href⟩
  clear h hnodup
  induction refs with
  | nil => exact .nil
  | cons reference refs ih =>
      obtain ⟨⟨artifact, hfind, href⟩, hrest⟩ := List.forall_mem_cons.mp hfound
      rw [List.filterMap_cons, hfind]
      exact .cons href (ih hrest)

/-- The signed order keeps every artifact of a complete pack. -/
theorem OfClosure.inSignedOrder_perm (h : OfClosure refs true packed) :
    (inSignedOrder refs packed).Perm packed := by
  have hanswers : (inSignedOrder refs packed).map envelopeRef = refs.map some := by
    have hforall := h.forall₂
    rw [← List.forall₂_eq_eq_eq, List.forall₂_map_left_iff, List.forall₂_map_right_iff]
    exact hforall.flip
  have hnodup : refs.Nodup := h.perm.nodup_iff.mp h.references.1
  have hdistinct : (inSignedOrder refs packed).Nodup :=
    List.Nodup.of_map envelopeRef (hanswers ▸ hnodup.map (Option.some_injective _))
  have hlen : (inSignedOrder refs packed).length = refs.length := by
    simpa using congrArg List.length hanswers
  exact (hdistinct.subperm fun a ha => (mem_inSignedOrder h).mp ha).perm_of_length_le
    (by rw [hlen, h.whole rfl])

theorem objectRef_injective (hblake : Blake3Injective) : Function.Injective objectRef := by
  intro a b hab
  have hjoin := hblake (congrArg Object.hash hab)
  rw [Bytes.join_cons, Bytes.join_cons, Bytes.join_cons, Bytes.join_cons] at hjoin
  simpa using Bytes.append_right_inj.mp hjoin

/-- **One closure, one list.**  Two complete packs of one descriptor hold the same artifacts. -/
theorem OfClosure.inSignedOrder_unique (hblake : Blake3Injective) {other : List Bytes}
    (h : OfClosure refs true packed) (hother : OfClosure refs true other) :
    inSignedOrder refs packed = inSignedOrder refs other := by
  have hforall := h.forall₂
  have hforall' := hother.forall₂
  generalize inSignedOrder refs packed = l at hforall
  generalize inSignedOrder refs other = l' at hforall'
  clear h hother
  induction hforall generalizing l' with
  | nil =>
      cases hforall'
      rfl
  | cons href _ ih =>
      cases hforall' with
      | cons href' hrest =>
          rw [ih _ hrest, objectRef_injective hblake
            ((envelopeRef_object href).trans (envelopeRef_object href').symm)]

end Decode

end Lait.Replica
