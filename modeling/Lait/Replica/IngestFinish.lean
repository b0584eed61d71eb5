import Lait.Replica.Ingest

/-!
# Streaming equals sealing the whole

What is left after any pushes is the tail and the filing.  A tail is sealed when
something is buffered or nothing was sealed yet, and that is exactly when the whole
plaintext has one chunk more (`tail_iff`): an exact multiple of the chunk length gets no
empty chunk and an empty plaintext gets one.  Filing reads every staged chunk back,
compares it with its leaf and installs it with its proof (`fileChunks_spec`).

`ingest_eq_sealContent` compares the outcomes.  An ingest can fail where sealing the
whole does not, namely in the local cache; over a cache that works the two succeed and
fail together, with the same refusal.
-/

namespace Lait.Replica

/-! ## The tail -/

section Tail

variable {chunkLen : ℕ}

/-- Whole chunks and a tail that is not empty. -/
theorem chunkCountOf_tail {plaintextLen chunks : ℕ} (hcovered : chunks * chunkLen < plaintextLen)
    (hshort : plaintextLen < chunks * chunkLen + chunkLen) :
    chunkCountOf chunkLen plaintextLen = chunks + 1 := by
  rw [chunkCountOf, if_neg (by omega)]
  refine Nat.div_eq_of_lt_le ?_ ?_
  · rw [Nat.succ_mul]
    omega
  · rw [Nat.succ_mul, Nat.succ_mul]
    omega

/-- Whole chunks alone. -/
theorem chunkCountOf_whole {chunks : ℕ} (hchunks : 0 < chunks) (hpos : 0 < chunkLen) :
    chunkCountOf chunkLen (chunks * chunkLen) = chunks := by
  have hle := Nat.mul_pos hchunks hpos
  rw [chunkCountOf, if_neg (by omega)]
  refine Nat.div_eq_of_lt_le ?_ ?_
  · omega
  · rw [Nat.succ_mul]
    omega

/-- The chunks take in the whole plaintext. -/
theorem le_chunkCount_mul (hpos : 0 < chunkLen) (plaintextLen : ℕ) :
    plaintextLen ≤ chunkCountOf chunkLen plaintextLen * chunkLen := by
  unfold chunkCountOf
  split
  · omega
  · have hceil := Nat.lt_div_mul_add hpos (a := plaintextLen + chunkLen - 1)
    omega

/-- At the chunk length of the format, contents within the length limit keep the chunk limit. -/
theorem chunkCountOf_frozen_le {plaintextLen : ℕ} (h : plaintextLen ≤ MAX_CONTENT_LEN) :
    chunkCountOf CHUNK_PLAINTEXT_LEN plaintextLen ≤ MAX_CHUNK_COUNT := by
  unfold MAX_CONTENT_LEN at h
  unfold chunkCountOf CHUNK_PLAINTEXT_LEN MAX_CHUNK_COUNT
  split
  · omega
  · omega

/-- Every chunk starts inside the plaintext. -/
theorem chunk_start_le {plaintextLen index : ℕ} (h : index < chunkCountOf chunkLen plaintextLen) :
    index * chunkLen ≤ plaintextLen := by
  unfold chunkCountOf at h
  split at h
  · obtain rfl : index = 0 := by omega
    omega
  · have hle := Nat.mul_le_of_le_div chunkLen (index + 1) _ h
    rw [Nat.succ_mul] at hle
    omega

/-- Whole chunks of a plaintext are among its chunks. -/
theorem whole_le_count (hpos : 0 < chunkLen) (plaintextLen : ℕ) {count : ℕ}
    (h : count * chunkLen ≤ plaintextLen) : count ≤ chunkCountOf chunkLen plaintextLen :=
  Nat.le_of_mul_le_mul_right (h.trans (le_chunkCount_mul hpos plaintextLen)) hpos

variable {H : Type} [ContentDigests H]

namespace ContentIngest

variable {start self self' : ContentIngest H} {fed : Bytes} {chunks : List (ChunkLeaf H × Bytes)}

/-- What the tail comes to: a chunk more exactly when the count has one more. -/
theorem tail_iff (h : Between chunkLen start fed chunks self) :
    (self.buffer.length ≠ 0 ∨ self.leaves = [] →
        chunkCountOf chunkLen fed.length = chunks.length + 1) ∧
      (¬ (self.buffer.length ≠ 0 ∨ self.leaves = []) →
        chunkCountOf chunkLen fed.length = chunks.length) := by
  have hbuffer := length_buffer h.toFed
  have hcovered := h.covered
  have hshort := h.short
  have hpos : 0 < chunkLen := by omega
  have hleaves : self.leaves = [] ↔ chunks = [] := by rw [h.leaves, List.map_eq_nil_iff]
  constructor
  · intro htail
    by_cases hempty : self.buffer.length = 0
    · have hnone : chunks = [] := hleaves.mp (htail.resolve_left (not_not.mpr hempty))
      subst hnone
      rw [List.length_nil, Nat.zero_mul] at hbuffer
      rw [chunkCountOf, if_pos (by omega)]
      rfl
    · exact chunkCountOf_tail (by omega) (by omega)
  · intro hnone
    rw [not_or, not_not, hleaves] at hnone
    have hfed : fed.length = chunks.length * chunkLen := by omega
    rw [hfed]
    exact chunkCountOf_whole (List.length_pos_of_ne_nil hnone.2) hpos

/-- **Closing the tail** completes the chunks of what was fed. -/
theorem sealTail_spec (h : Pushed chunkLen start fed chunks self) :
    (∀ self', self.sealTail = .ok self' → ∃ chunks', Fed chunkLen start fed chunks' self' ∧
      chunks'.length = chunkCountOf chunkLen fed.length ∧ self'.plaintextLen = fed.length) ∧
    (start.cache.Ready start.operation →
      chunkCountOf chunkLen fed.length ≤ MAX_CHUNK_COUNT → ∀ refusal,
        self.sealTail = .error refusal →
        start.sealed H chunkLen fed (chunkCountOf chunkLen fed.length) = .error refusal) := by
  obtain ⟨htail, hwhole⟩ := tail_iff h.toBetween
  unfold sealTail
  split
  case isTrue hmore =>
      rw [htail hmore]
      constructor
      · intro self' hself
        obtain ⟨chunk, hchunk, hplain⟩ := sealBuffered_ok h.toFed h.covered h.short.le hself
        exact ⟨chunks ++ [chunk], hchunk, by simp, hplain.trans h.counted⟩
      · intro hready hcount refusal hself
        exact sealBuffered_error h.toFed h.covered h.short.le hready (by omega) hself
  case isFalse hmore =>
      rw [hwhole hmore]
      refine ⟨fun self' hself => ?_, fun _ _ refusal hself => by cases hself⟩
      obtain rfl := Except.ok.inj hself
      exact ⟨chunks, h.toFed, rfl, h.counted⟩

end ContentIngest

end Tail

/-! ## Filing the chunks -/

section Filing

variable {H : Type} [ContentDigests H] {chunkLen : ℕ}

/-- The proof of a leaf at its own index. -/
def proofOf (leaves : List (ChunkLeaf H)) (leaf : ChunkLeaf H) : ChunkProof H :=
  ⟨leaf, proofPath leaf.chunkIndex.toNat (leaves.map ChunkLeaf.hash)⟩

/-- In place, that is what `chunkProof` builds. -/
theorem Positional.chunkProof_of_mem {leaves : List (ChunkLeaf H)} (h : Positional leaves)
    {leaf : ChunkLeaf H} (hleaf : leaf ∈ leaves) :
    chunkProof leaves leaf.chunkIndex = some (proofOf leaves leaf) := by
  obtain ⟨i, hi⟩ := List.mem_iff_getElem?.mp hleaf
  obtain ⟨hlt, hget⟩ := List.getElem?_eq_some_iff.mp hi
  have hindex := h i leaf hi
  rw [h.chunkProof_eq (by rw [hindex]; exact hlt)]
  simp only [hindex, hget, proofOf]

variable [DecidableEq H] [Postcard (ChunkProof H)]

/-- One filed chunk. -/
def filedEntry (descriptor : ContentDescriptor) (leaves : List (ChunkLeaf H))
    (chunk : ChunkLeaf H × Bytes) : H × Bytes × Bytes :=
  (chunkSlot descriptor chunk.1.chunkIndex, chunk.2, Postcard.toStdvec (proofOf leaves chunk.1))

/-- What `finish` finds of a chunk: it is staged, it is its leaf's, and it has a proof. -/
structure Filable (now : ContentIngest H) (staged : BTreeMap (Bytes ×ₗ ℕ) Bytes)
    (chunk : ChunkLeaf H × Bytes) : Prop where
  staged : staged[toLex (now.operation, chunk.1.chunkIndex.toNat)]? = some chunk.2
  leaf : ChunkLeaf.of chunk.1.chunkIndex chunk.2 = .ok chunk.1
  proof : chunkProof now.leaves chunk.1.chunkIndex = some (proofOf now.leaves chunk.1)

namespace ContentIngest

variable {self : ContentIngest H} {descriptor : ContentDescriptor}
  {state state' : Residency H × List H} {chunk : ChunkLeaf H × Bytes}

/-- One turn of the filing loop. -/
theorem fileChunk_eq (h : Filable self state.1.staged chunk) :
    self.fileChunk descriptor state chunk.1 =
      if state.1.fails (.readStaged chunk.1.chunkIndex) then .error .chunkMismatch
      else (refuseNone .chunkMismatch (state.1.install self.operation self.contentNonce
        chunk.1.chunkIndex (chunkSlot descriptor chunk.1.chunkIndex) chunk.2
        (Postcard.toStdvec (proofOf self.leaves chunk.1)))).map fun cache =>
          (cache, state.2 ++ [chunkSlot descriptor chunk.1.chunkIndex]) := by
  have hfile : self.fileChunk descriptor state chunk.1 =
      refuseNone .chunkMismatch (state.1.readStaged self.operation chunk.1.chunkIndex) >>=
        fun ciphertext => ChunkLeaf.of chunk.1.chunkIndex ciphertext >>= fun staged =>
          if staged ≠ chunk.1 then .error .chunkMismatch
          else refuseNone .proofMismatch (chunkProof self.leaves chunk.1.chunkIndex) >>=
            fun proof => (refuseNone .chunkMismatch (state.1.install self.operation
              self.contentNonce chunk.1.chunkIndex (chunkSlot descriptor chunk.1.chunkIndex)
              ciphertext (Postcard.toStdvec proof))) >>= fun cache =>
                .ok (cache, state.2 ++ [chunkSlot descriptor chunk.1.chunkIndex]) := by
    simp only [fileChunk]
    rfl
  rw [hfile, Residency.readStaged]
  split
  case isTrue => rfl
  case isFalse =>
      rw [h.staged, refuseNone]
      show (ChunkLeaf.of chunk.1.chunkIndex chunk.2 >>= _) = _
      rw [h.leaf]
      show (if chunk.1 ≠ chunk.1 then _ else _) = _
      rw [if_neg (not_not.mpr rfl), h.proof]
      show (refuseNone ContentInvalid.chunkMismatch _ >>= _) = _
      cases state.1.install self.operation self.contentNonce chunk.1.chunkIndex
        (chunkSlot descriptor chunk.1.chunkIndex) chunk.2
        (Postcard.toStdvec (proofOf self.leaves chunk.1)) with
      | none => rfl
      | some cache => rfl

/-- **The filing loop** files every chunk, in order, or fails with the cache. -/
theorem fileChunks_spec (rest : List (ChunkLeaf H × Bytes))
    (h : ∀ chunk ∈ rest, Filable self state.1.staged chunk) :
    (∀ state', (rest.map Prod.fst).foldlM (self.fileChunk descriptor) state = .ok state' →
      state'.1.entries = state.1.entries ++ rest.map (filedEntry descriptor self.leaves) ∧
      state'.2 = state.2 ++ rest.map fun chunk => chunkSlot descriptor chunk.1.chunkIndex) ∧
    ((∀ call, state.1.fails call = false) →
      ∃ state', (rest.map Prod.fst).foldlM (self.fileChunk descriptor) state = .ok state') := by
  induction rest generalizing state with
  | nil =>
      refine ⟨fun state' hstate => ?_, fun _ => ⟨state, rfl⟩⟩
      obtain rfl := Except.ok.inj hstate
      simp
  | cons chunk rest ih =>
      obtain ⟨hchunk, hrest⟩ := List.forall_mem_cons.mp h
      rw [List.map_cons, List.foldlM_cons, fileChunk_eq hchunk]
      constructor
      · intro state' hstate
        obtain ⟨next, hnext, hloop⟩ := bind_eq_ok.mp hstate
        split at hnext
        case isTrue => cases hnext
        case isFalse =>
            cases hinstall : state.1.install self.operation self.contentNonce
                chunk.1.chunkIndex (chunkSlot descriptor chunk.1.chunkIndex) chunk.2
                (Postcard.toStdvec (proofOf self.leaves chunk.1)) with
            | none => rw [hinstall] at hnext; cases hnext
            | some cache =>
                rw [hinstall] at hnext
                obtain rfl := Except.ok.inj hnext
                obtain ⟨hstaged, hentries, -⟩ := Residency.install_eq_some hinstall
                obtain ⟨hfiled, hleases⟩ := (@ih (cache, _) fun chunk' hmem => by
                  rw [hstaged]
                  exact hrest chunk' hmem).1 state' hloop
                rw [hfiled, hleases, hentries]
                simp [filedEntry]
      · intro hfails
        obtain ⟨cache, hinstall⟩ := @Residency.install_isSome _ state.1 self.operation
          self.contentNonce chunk.2 (Postcard.toStdvec (proofOf self.leaves chunk.1))
          chunk.1.chunkIndex (chunkSlot descriptor chunk.1.chunkIndex) hfails
        obtain ⟨hstaged, -, hsame⟩ := Residency.install_eq_some hinstall
        rw [if_neg (by simp [hfails]), hinstall]
        refine (@ih (cache, _) fun chunk' hmem => ?_).2 fun call => ?_
        · rw [hstaged]
          exact hrest chunk' hmem
        · rw [hsame]
          exact hfails call

end ContentIngest

end Filing

/-! ## Both ends together -/

section Together

variable {H : Type} [ContentDigests H] {chunkLen : ℕ} {space : SpaceId} {key : AuthorizedChunkKey}
  {contentNonce : Bytes} {plaintext : Bytes} {chunks : List (ChunkLeaf H × Bytes)}

theorem proofs_eq (hsealed : sealUpTo H chunkLen space key contentNonce plaintext chunks.length =
      .ok chunks) (hcount : chunks.length ≤ MAX_CHUNK_COUNT) :
    ((List.range chunks.length).mapM fun index =>
        refuseNone .proofMismatch (chunkProof (chunks.map Prod.fst) (UInt32.ofNat index))) =
      .ok ((chunks.map Prod.fst).map (proofOf (chunks.map Prod.fst))) := by
  have hpositional := sealUpTo_positional hsealed hcount
  refine mapM_eq_ok_iff.mpr (List.forall₂_iff_get.mpr ⟨by simp, fun i hi hi' => ?_⟩)
  have hlt : i < (chunks.map Prod.fst).length := by simpa using hi
  have hchunk := List.getElem?_eq_getElem (l := chunks) (i := i) (by simpa using hi)
  have hindex := of_chunkIndex (sealUpTo_leaf hsealed hchunk)
  rw [refuseNone_eq_ok]
  simp only [List.get_eq_getElem, List.getElem_range, List.getElem_map]
  rw [← hindex]
  exact hpositional.chunkProof_of_mem (List.mem_map_of_mem (List.getElem_mem _))

/-- A sealing whose chunks all succeed. -/
theorem sealContent_eq (hlen : plaintext.length ≤ MAX_CONTENT_LEN)
    (hlength : chunks.length = chunkCountOf chunkLen plaintext.length)
    (hsealed : sealUpTo H chunkLen space key contentNonce plaintext chunks.length = .ok chunks)
    (hcount : chunks.length ≤ MAX_CHUNK_COUNT) :
    sealContent (H := H) chunkLen space key contentNonce plaintext =
      let descriptor := descriptorOf chunkLen space key contentNonce plaintext.length
        (chunks.map Prod.fst)
      (descriptor.validateAt chunkLen).map fun _ =>
        { descriptor, ciphertexts := chunks.map Prod.snd,
          proofs := (chunks.map Prod.fst).map (proofOf (chunks.map Prod.fst)) } := by
  have hsmall : ¬ 4294967296 ≤ chunks.length := by
    unfold MAX_CHUNK_COUNT at hcount
    omega
  simp only [sealContent, if_neg (Nat.not_lt.mpr hlen), ← hlength, if_neg hsmall]
  show (sealUpTo H chunkLen space key contentNonce plaintext chunks.length >>= _) = _
  rw [hsealed]
  show (ContentDescriptor.validateAt chunkLen _ >>= _) = _
  cases ContentDescriptor.validateAt chunkLen (descriptorOf chunkLen space key contentNonce
    plaintext.length (chunks.map Prod.fst)) with
  | error refusal => rfl
  | ok checked =>
      show (((List.range chunks.length).mapM fun index => refuseNone .proofMismatch
        (chunkProof (chunks.map Prod.fst) (UInt32.ofNat index))) >>= _) = _
      rw [proofs_eq hsealed hcount]
      rfl

/-- A sealing one of whose chunks fails. -/
theorem sealContent_error (hlen : plaintext.length ≤ MAX_CONTENT_LEN) {refusal : ContentInvalid}
    (hcount : chunkCountOf chunkLen plaintext.length ≤ MAX_CHUNK_COUNT)
    (hsealed : sealUpTo H chunkLen space key contentNonce plaintext
      (chunkCountOf chunkLen plaintext.length) = .error refusal) :
    sealContent (H := H) chunkLen space key contentNonce plaintext = .error refusal := by
  have hsmall : ¬ 4294967296 ≤ chunkCountOf chunkLen plaintext.length := by
    unfold MAX_CHUNK_COUNT at hcount
    omega
  simp only [sealContent, if_neg (Nat.not_lt.mpr hlen), if_neg hsmall]
  show (sealUpTo H chunkLen space key contentNonce plaintext _ >>= _) = _
  rw [hsealed]
  rfl

/-- A sealed content's descriptor passes its own validation. -/
theorem validateAt_of_sealContent {content : SealedContent H}
    (h : sealContent chunkLen space key contentNonce plaintext = .ok content) :
    content.descriptor.validateAt chunkLen = .ok () := by
  rw [sealContent] at h
  obtain ⟨-, h⟩ := guard_eq_ok.mp h
  obtain ⟨-, h⟩ := guard_eq_ok.mp h
  obtain ⟨_, -, h⟩ := bind_eq_ok.mp h
  obtain ⟨⟨⟩, hchecked, h⟩ := bind_eq_ok.mp h
  obtain ⟨_, -, h⟩ := bind_eq_ok.mp h
  obtain rfl := Except.ok.inj h
  exact hchecked

/-- A key that seals every chunk seals every content within the limits. -/
theorem exists_sealContent (hspace : (SpaceId.parse space).isSome = true)
    (hseals : ∀ binding slice, ∃ ciphertext, key.contentChunkSeal binding slice = .ok ciphertext ∧
      ciphertext.length < 4294967296) (hlen : plaintext.length ≤ MAX_CONTENT_LEN)
    (hcount : chunkCountOf chunkLen plaintext.length ≤ MAX_CHUNK_COUNT) :
    ∃ content : SealedContent H,
      sealContent chunkLen space key contentNonce plaintext = .ok content := by
  -- Every slice exists and is sealed.
  have hslices : ∀ count, count ≤ chunkCountOf chunkLen plaintext.length →
      ∃ chunks, sealUpTo H chunkLen space key contentNonce plaintext count = .ok chunks := by
    intro count
    induction count with
    | zero => exact fun _ => ⟨[], rfl⟩
    | succ count ih =>
        intro hle
        obtain ⟨chunks, hchunks⟩ := ih (by omega)
        have hstart : count * chunkLen ≤ plaintext.length := chunk_start_le hle
        rw [sealUpTo_succ hchunks, sealSlice, chunkSlice]
        simp only [le_min_iff, Nat.le_add_right, hstart, and_self, if_true]
        obtain ⟨ciphertext, hciphertext, hshort⟩ := hseals
          { space, contentNonce, chunkIndex := UInt32.ofNat count }
          ⟨(plaintext.data.drop (count * chunkLen)).take
            (min (count * chunkLen + chunkLen) plaintext.length - count * chunkLen)⟩
        show ∃ chunks, Except.map _ (sealChunk space key contentNonce _ _) = .ok chunks
        rw [sealChunk, hciphertext]
        show ∃ chunks, Except.map _ (ChunkLeaf.of _ ciphertext >>= _) = .ok chunks
        rw [ChunkLeaf.of, if_pos hshort]
        exact ⟨_, rfl⟩
  obtain ⟨chunks, hchunks⟩ := hslices _ le_rfl
  have hlength := length_sealUpTo hchunks
  rw [← hlength] at hchunks hcount
  have hchecked : (descriptorOf chunkLen space key contentNonce plaintext.length
      (chunks.map Prod.fst)).validateAt chunkLen = .ok () := by
    refine ContentDescriptor.validateAt_eq_ok.mpr ⟨rfl, hspace, rfl, hlen, ?_, ?_⟩
    · show (chunks.map Prod.fst).length ≤ _
      rwa [List.length_map]
    · show (chunks.map Prod.fst).length = _
      rw [List.length_map, hlength]
      rfl
  rw [sealContent_eq hlen hlength hchunks hcount]
  simp only [hchecked]
  exact ⟨_, rfl⟩

variable [DecidableEq H] [Crypto] [Postcard ContentDescriptor] [Postcard (ChunkProof H)]

/-- The chunks of a sealed content as an ingest files them. -/
def SealedContent.entries (self : SealedContent H) : List (H × Bytes × Bytes) :=
  List.zipWith (fun ciphertext proof =>
    (chunkSlot self.descriptor proof.leaf.chunkIndex, ciphertext, Postcard.toStdvec proof))
    self.ciphertexts self.proofs

/-- An ingest produced what sealing the whole plaintext produces: the descriptor, and
every chunk in its slot with its proof. -/
structure IngestedContent.Of (before : Residency H) (sealed : SealedContent H)
    (ingested : IngestedContent H) : Prop where
  descriptor : ingested.descriptor = sealed.descriptor
  contentRef : ingested.contentRef = sealed.descriptor.contentRef
  entries : ingested.cache.entries = before.entries ++ sealed.entries
  leases : ingested.leases = sealed.entries.map Prod.fst

namespace ContentIngest

variable {start self : ContentIngest H} {fed : Bytes}

omit [DecidableEq H] [Crypto] [Postcard ContentDescriptor] [Postcard (ChunkProof H)] in
/-- Once the tail is closed, every chunk can be filed. -/
theorem filable (h : Fed chunkLen start fed chunks self) {chunk : ChunkLeaf H × Bytes}
    (hchunk : chunk ∈ chunks) : Filable self self.cache.staged chunk := by
  obtain ⟨i, hi⟩ := List.mem_iff_getElem?.mp hchunk
  have hof := sealUpTo_leaf h.sealed hi
  have hindex := of_chunkIndex hof
  have hpositional := sealUpTo_positional h.sealed h.count
  have hleaf : chunk.1 ∈ chunks.map Prod.fst := List.mem_map_of_mem hchunk
  have hplace : chunk.1.chunkIndex.toNat = i :=
    hpositional i chunk.1 (by rw [List.getElem?_map, hi]; rfl)
  have hoperation : self.operation = start.operation := congrArg IngestRequest.operation h.request
  refine ⟨?_, ?_, ?_⟩
  · rw [hplace, hoperation]
    exact h.staged i chunk hi
  · rw [hindex]
    exact hof
  · rw [h.leaves]
    exact hpositional.chunkProof_of_mem hleaf

/-- **Finishing a closed ingest** validates the whole content's descriptor and files its
chunks, and fails with the cache alone. -/
theorem file_spec (h : Fed chunkLen start fed chunks self)
    (hcounted : self.plaintextLen = fed.length) (hlen : fed.length ≤ MAX_CONTENT_LEN)
    (hlength : chunks.length = chunkCountOf chunkLen fed.length) :
    (∀ ingested, self.fileAll chunkLen = .ok ingested → ∃ sealed,
      sealContent chunkLen start.space start.key start.contentNonce fed = .ok sealed ∧
        IngestedContent.Of start.cache sealed ingested) ∧
    (start.cache.Ready start.operation → ∀ refusal, self.fileAll chunkLen = .error refusal →
      sealContent (H := H) chunkLen start.space start.key start.contentNonce fed =
        .error refusal) := by
  have hspace : self.space = start.space := congrArg IngestRequest.space h.request
  have hkey : self.key = start.key := congrArg IngestRequest.key h.request
  have hnonce : self.contentNonce = start.contentNonce :=
    congrArg IngestRequest.contentNonce h.request
  have hsealing := sealContent_eq hlen hlength h.sealed h.count
  obtain ⟨hfiles, htotal⟩ := @fileChunks_spec _ _ _ _ self (descriptorOf chunkLen self.space
    self.key self.contentNonce self.plaintextLen self.leaves) (self.cache, []) chunks fun chunk hchunk => filable h hchunk
  rw [← h.leaves] at hfiles htotal
  have hfile : self.fileAll chunkLen =
      (descriptorOf chunkLen self.space self.key self.contentNonce self.plaintextLen
        self.leaves).validateAt chunkLen >>= fun _ =>
      self.leaves.foldlM (self.fileChunk (descriptorOf chunkLen self.space self.key
        self.contentNonce self.plaintextLen self.leaves)) (self.cache, []) >>= fun filed =>
          .ok ⟨descriptorOf chunkLen self.space self.key self.contentNonce self.plaintextLen
            self.leaves, (descriptorOf chunkLen self.space self.key self.contentNonce
            self.plaintextLen self.leaves).contentRef, filed.2,
            filed.1.discardStaged self.operation⟩ := rfl
  have hdescriptor : descriptorOf chunkLen self.space self.key self.contentNonce self.plaintextLen
      self.leaves = descriptorOf chunkLen start.space start.key start.contentNonce fed.length
        (chunks.map Prod.fst) := by
    rw [hspace, hkey, hnonce, hcounted, h.leaves]
  rw [hdescriptor] at hfile hfiles htotal
  simp only at hsealing
  rw [hfile, hsealing]
  generalize hchecked : descriptorOf chunkLen start.space start.key start.contentNonce fed.length
    (chunks.map Prod.fst) = descriptor at hfiles htotal ⊢
  cases descriptor.validateAt chunkLen with
  | error refused =>
      refine ⟨fun ingested hingested => (by cases hingested), fun _ refusal hrefusal => ?_⟩
      cases hrefusal
      rfl
  | ok checked =>
      constructor
      · intro ingested hingested
        obtain ⟨-, -, hrest⟩ := bind_eq_ok.mp hingested
        obtain ⟨⟨cache, leases⟩, hfiled, hresult⟩ := bind_eq_ok.mp hrest
        obtain ⟨hentries, hleases⟩ := hfiles _ hfiled
        obtain rfl := Except.ok.inj hresult
        refine ⟨_, rfl, rfl, rfl, ?_, ?_⟩
        · show cache.entries = _
          rw [show cache.entries = _ from hentries, h.entries, h.leaves, SealedContent.entries,
            List.map_map, List.zipWith_map, List.zipWith_self]
          rfl
        · show leases = _
          rw [show leases = _ from hleases, SealedContent.entries, List.map_map, List.zipWith_map,
            List.zipWith_self, List.map_map]
          rfl
      · intro hready refusal hrefusal
        exfalso
        obtain ⟨filed, hfiled⟩ := htotal fun call => by
          rw [h.fails]
          exact hready.succeeds call
        rcases bind_eq_error.mp hrefusal with hchecked | ⟨_, -, hrest⟩
        · cases hchecked
        rcases bind_eq_error.mp hrest with hfold | ⟨_, _, hpure⟩
        · rw [hfiled] at hfold
          cases hfold
        · cases hpure

/-- **A whole ingest**, over whatever pushes. -/
theorem run_spec (pushes : List Bytes) (hpos : 0 < chunkLen) {operation : Bytes}
    {cache : Residency H} {maxLen : ℕ} (hstart : start =
      begin_ space key contentNonce operation cache maxLen) :
    (∀ ingested, start.run chunkLen pushes = .ok ingested → ∃ sealed,
      sealContent chunkLen space key contentNonce (Bytes.join pushes) = .ok sealed ∧
        IngestedContent.Of cache sealed ingested) ∧
    (cache.Ready operation → (Bytes.join pushes).length ≤ min maxLen MAX_CONTENT_LEN →
      chunkCountOf chunkLen (Bytes.join pushes).length ≤ MAX_CHUNK_COUNT → ∀ refusal,
        start.run chunkLen pushes = .error refusal →
        sealContent (H := H) chunkLen space key contentNonce (Bytes.join pushes) =
          .error refusal) := by
  subst hstart
  have hbegin : Pushed chunkLen (begin_ space key contentNonce operation cache maxLen) Bytes.empty
      [] (begin_ space key contentNonce operation cache maxLen) :=
    ⟨⟨fed_start space key contentNonce operation cache maxLen, by simp, hpos⟩, rfl, Nat.zero_le _⟩
  have hfed : Bytes.empty ++ Bytes.join pushes = Bytes.join pushes := Bytes.ext rfl
  obtain ⟨hpushes, hpusherror⟩ := pushes_spec pushes hbegin
  rw [hfed] at hpushes hpusherror
  constructor
  · intro ingested hingested
    obtain ⟨pushed, hpushed, hfinish⟩ := bind_eq_ok.mp hingested
    obtain ⟨closed, hclosed, hfile⟩ := bind_eq_ok.mp hfinish
    obtain ⟨chunks, hchunks⟩ := hpushes pushed hpushed
    obtain ⟨chunks', hdone, hlength, hcounted⟩ := (sealTail_spec hchunks).1 closed hclosed
    have hmax : pushed.maxLen = min maxLen MAX_CONTENT_LEN :=
      congrArg IngestRequest.maxLen hchunks.request
    have hlimit := hchunks.limit
    exact (file_spec hdone hcounted (by omega) hlength).1 ingested hfile
  · intro hready hlimit hcount refusal hrefusal
    have hlen : (Bytes.join pushes).length ≤ MAX_CONTENT_LEN := by omega
    rcases bind_eq_error.mp hrefusal with hpush | ⟨pushed, hpushed, hfinish⟩
    · obtain ⟨count, hle, hseal⟩ := hpusherror hready hlimit
        ((le_chunkCount_mul hpos _).trans (Nat.mul_le_mul_right chunkLen hcount)) refusal hpush
      exact sealContent_error hlen hcount (sealUpTo_error hseal (whole_le_count hpos _ hle))
    · obtain ⟨chunks, hchunks⟩ := hpushes pushed hpushed
      rcases bind_eq_error.mp hfinish with htail | ⟨closed, hclosed, hfile⟩
      · exact sealContent_error hlen hcount
          ((sealTail_spec hchunks).2 hready hcount refusal htail)
      · obtain ⟨chunks', hdone, hlength, hcounted⟩ := (sealTail_spec hchunks).1 closed hclosed
        exact (file_spec hdone hcounted hlen hlength).2 hready refusal hfile

/-- **Streaming equals sealing the whole.**  For every chunk length, every plaintext and
every way of splitting it into pushes, an ingest that succeeds has produced the
descriptor, the chunks and the proofs of `sealContent` over the whole string; within the
limits and over a cache that works it succeeds and fails exactly as `sealContent` does;
the descriptor passes its validation; and a key that seals its chunks seals every content
within the limits. -/
theorem ingest_eq_sealContent (hpos : 0 < chunkLen) (operation : Bytes) (cache : Residency H)
    (maxLen : ℕ) (pushes : List Bytes) :
    (∀ ingested,
      (begin_ space key contentNonce operation cache maxLen).run chunkLen pushes = .ok ingested →
        ∃ content,
          sealContent chunkLen space key contentNonce (Bytes.join pushes) = .ok content ∧
            IngestedContent.Of cache content ingested) ∧
    (cache.Ready operation → (Bytes.join pushes).length ≤ min maxLen MAX_CONTENT_LEN →
      chunkCountOf chunkLen (Bytes.join pushes).length ≤ MAX_CHUNK_COUNT →
        (∀ content,
          sealContent chunkLen space key contentNonce (Bytes.join pushes) = .ok content →
            ∃ ingested, (begin_ space key contentNonce operation cache maxLen).run chunkLen pushes =
              .ok ingested ∧ IngestedContent.Of cache content ingested) ∧
        ∀ refusal, (begin_ space key contentNonce operation cache maxLen).run chunkLen pushes =
            .error refusal ↔
          sealContent (H := H) chunkLen space key contentNonce (Bytes.join pushes) =
            .error refusal) ∧
    (∀ content : SealedContent H,
      sealContent chunkLen space key contentNonce (Bytes.join pushes) = .ok content →
        content.descriptor.validateAt chunkLen = .ok ()) ∧
    ((SpaceId.parse space).isSome = true →
      (∀ binding slice, ∃ ciphertext, key.contentChunkSeal binding slice = .ok ciphertext ∧
        ciphertext.length < 4294967296) → (Bytes.join pushes).length ≤ MAX_CONTENT_LEN →
      chunkCountOf chunkLen (Bytes.join pushes).length ≤ MAX_CHUNK_COUNT →
        ∃ content : SealedContent H,
          sealContent chunkLen space key contentNonce (Bytes.join pushes) = .ok content) := by
  obtain ⟨hok, herror⟩ := @run_spec H _ chunkLen space key contentNonce _ _ _ _ _ pushes hpos operation
    cache maxLen rfl
  refine ⟨hok, fun hready hlimit hcount => ?_, fun content => validateAt_of_sealContent,
    exists_sealContent⟩
  have herror := herror hready hlimit hcount
  have hboth : ∀ content,
      sealContent chunkLen space key contentNonce (Bytes.join pushes) = .ok content →
        ∃ ingested, (begin_ space key contentNonce operation cache maxLen).run chunkLen pushes =
          .ok ingested ∧ IngestedContent.Of cache content ingested := by
    intro content hcontent
    cases hrun : (begin_ space key contentNonce operation cache maxLen).run chunkLen pushes with
    | error refusal =>
        rw [herror refusal hrun] at hcontent
        cases hcontent
    | ok ingested =>
        obtain ⟨content', hcontent', hof⟩ := hok ingested hrun
        obtain rfl := Except.ok.inj (hcontent.symm.trans hcontent')
        exact ⟨ingested, rfl, hof⟩
  refine ⟨hboth, fun refusal => ⟨herror refusal, fun hcontent => ?_⟩⟩
  cases hrun : (begin_ space key contentNonce operation cache maxLen).run chunkLen pushes with
  | error refusal' =>
      rw [herror refusal' hrun] at hcontent
      cases hcontent
      rfl
  | ok ingested =>
      obtain ⟨content, hcontent', -⟩ := hok ingested hrun
      rw [hcontent'] at hcontent
      cases hcontent

end ContentIngest

end Together

/-- A cache that works and holds nothing. -/
def emptyResidency : Residency Bytes where
  staged := ∅
  entries := []
  leases := []
  fails _ := false

theorem emptyResidency_ready (operation : Bytes) : emptyResidency.Ready operation where
  succeeds _ := rfl
  fresh _ := BTreeMap.get_empty _

/-- A key that puts the index before the plaintext. -/
def plainKey : AuthorizedChunkKey where
  epochId := Bytes.empty
  contentChunkSeal binding plaintext := .ok
    ⟨(Bytes.be32 binding.chunkIndex.toNat ++ plaintext).data.take 4096⟩

/-- Four bytes in chunks of two, pushed as one, none and three. -/
theorem ingest_of_four_bytes :
    let _ := plainContentDigests
    let _ := idealCrypto
    let _ : Postcard ContentDescriptor := tableCodec []
    let _ : Postcard (ChunkProof Bytes) := tableCodec []
    ∃ (content : SealedContent Bytes) (ingested : IngestedContent Bytes),
      sealContent 2 (Bytes.ofString "ws_00000000000000000000000000") plainKey Bytes.empty
        ⟨[1, 2, 3, 4]⟩ = .ok content ∧
      (ContentIngest.begin_ (Bytes.ofString "ws_00000000000000000000000000") plainKey Bytes.empty
        Bytes.empty emptyResidency 4).run 2 [⟨[1]⟩, ⟨[]⟩, ⟨[2, 3, 4]⟩] = .ok ingested ∧
      IngestedContent.Of emptyResidency content ingested := by
  let _ := plainContentDigests
  let _ := idealCrypto
  let _ : Postcard ContentDescriptor := tableCodec []
  let _ : Postcard (ChunkProof Bytes) := tableCodec []
  obtain ⟨-, hworks, -, hexists⟩ := @ContentIngest.ingest_eq_sealContent Bytes _ 2
    (Bytes.ofString "ws_00000000000000000000000000") plainKey Bytes.empty _ _ _ _ (by decide)
    Bytes.empty emptyResidency 4
    [⟨[1]⟩, ⟨[]⟩, ⟨[2, 3, 4]⟩]
  obtain ⟨content, hcontent⟩ := hexists (by decide +kernel) (fun binding slice => ⟨_, rfl, by
    show (List.take 4096 _).length < 4294967296
    rw [List.length_take]
    omega⟩) (by decide) (by decide)
  obtain ⟨ingested, hingested, hof⟩ := (hworks (emptyResidency_ready _) (by decide)
    (by decide)).1 content hcontent
  exact ⟨content, ingested, hcontent, hingested, hof⟩

end Lait.Replica
