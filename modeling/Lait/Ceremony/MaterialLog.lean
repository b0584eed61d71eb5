import Lait.Fallible
import Lait.SigningDomains

/-!
# The log of ceremony material

A ledger keeps ceremony events beside the authority planes, in a log of its own:
each event once, in the order it was appended.  `commitCeremonyBatch` validates a
whole batch before it appends any of it, skips what is held, and takes the append
back when the store refuses.

`CeremonyLog.Reached` is the logs any order and batching of such calls lead to.
They are exactly the lists of events that verify, encode canonically and have
different hashes (`reached_nodes`, `exists_reached`): a log says nothing about
its events but their order.
-/

namespace Lait.Ceremony

/-- Why the ledger refuses a batch. -/
inductive Failure
  | invalidRecord
  | journal
  deriving DecidableEq

/-- The material-class tag of ceremony records. -/
def CEREMONY_MATERIAL_TAG : ℕ := 3

/-- One replicated ceremony record. -/
structure CeremonyMaterial where
  tag : ℕ
  node : SignedNode
  deriving DecidableEq

/-- A stored object, by content. -/
structure Object where
  hash : Bytes
  len : ℕ

/-- The domain of stored objects. -/
def OBJECT_DOMAIN : Bytes := Bytes.ofString "lait/store-object/1"

/-- `object_content_hash`. -/
def objectContentHash [Crypto] (bytes : Bytes) : Bytes :=
  Crypto.blake3 (Bytes.join [OBJECT_DOMAIN, bytes])

section Material

variable [Crypto] [Postcard CeremonyMaterial]

namespace CeremonyMaterial

def new (node : SignedNode) : CeremonyMaterial := ⟨CEREMONY_MATERIAL_TAG, node⟩

def encode (material : CeremonyMaterial) : Bytes := Postcard.toStdvec material

/-- Canonical decode: tag check and exact re-encode equality. -/
def decode (bytes : Bytes) : Except Failure CeremonyMaterial :=
  match Postcard.fromBytes bytes with
  | none => .error .invalidRecord
  | some material =>
      if material.tag ≠ CEREMONY_MATERIAL_TAG then .error .invalidRecord
      else if material.encode ≠ bytes then .error .invalidRecord
      else .ok material

/-- Verify under the ceremony signing domain only. -/
def verify (material : CeremonyMaterial) (space : SpaceId) : Bool :=
  material.node.verifySig CEREMONY_DOMAIN space

omit [Crypto] in
/-- What decodes is the one encoding of its node. -/
theorem decode_eq_ok {bytes : Bytes} {material : CeremonyMaterial}
    (h : decode bytes = .ok material) :
    material = new material.node ∧ bytes = (new material.node).encode := by
  unfold decode at h
  split at h
  case h_1 => cases h
  case h_2 m hm =>
    split at h
    case isTrue => cases h
    case isFalse htag =>
      split at h
      case isTrue => cases h
      case isFalse henc =>
        cases h
        have hnew : material = new material.node := by
          cases material
          simp only [not_not] at htag
          rw [htag]
          rfl
        rw [← hnew]
        exact ⟨rfl, (not_not.mp henc).symm⟩

end CeremonyMaterial

/-- A node the ledger can take: it verifies, and its record reads back. -/
structure Admissible (space : SpaceId) (node : SignedNode) : Prop where
  verifies : node.verifySig CEREMONY_DOMAIN space = true
  decodes : CeremonyMaterial.decode (CeremonyMaterial.new node).encode
    = .ok (CeremonyMaterial.new node)

/-! ## Appending -/

/-- The ceremony part of a ledger. -/
structure CeremonyLog where
  ceremony : List (ℕ × Text × SignedNode) := []
  ceremonyRefs : BTreeMap Text (ℕ × Object) := ∅
  ceremonyNextSeq : ℕ := 0

/-- A record found new: its hash, node and bytes. -/
abbrev FreshRecord := Text × SignedNode × Bytes

namespace CeremonyLog

/-- The board nodes, in append order. -/
def ceremonyNodes (log : CeremonyLog) : List SignedNode := log.ceremony.map fun e => e.2.2

/-- Validate one record of a batch against the log and the records before it. -/
def admitRecord (space : SpaceId) (log : CeremonyLog) (fresh : List FreshRecord) (record : Bytes) :
    Except Failure (List FreshRecord) := do
  let material ← CeremonyMaterial.decode record
  if ¬ material.verify space then throw .invalidRecord
  let hash := material.node.hash
  if log.ceremonyRefs.contains hash then return fresh
  else if fresh.any fun item => item.1 = hash then return fresh
  else return fresh ++ [(hash, material.node, record)]

/-- Assign a sequence number and an object to a new record. -/
def stage (log : CeremonyLog) (item : FreshRecord) : CeremonyLog :=
  let obj : Object := ⟨objectContentHash item.2.2, item.2.2.length⟩
  { ceremony := log.ceremony ++ [(log.ceremonyNextSeq, item.1, item.2.1)]
    ceremonyRefs := log.ceremonyRefs.insert item.1 (log.ceremonyNextSeq, obj)
    ceremonyNextSeq := log.ceremonyNextSeq + 1 }

/-- Take a staged batch back. -/
def unwind (staged : CeremonyLog) (fresh : List FreshRecord) (priorNext : ℕ) : CeremonyLog where
  ceremony := staged.ceremony.filter fun e => e.1 < priorNext
  ceremonyRefs := fresh.foldl (fun refs item => refs.erase item.1) staged.ceremonyRefs
  ceremonyNextSeq := priorNext

/-- Append one batch; `stored` is the store's answer to the commit. -/
def commitCeremonyBatch (space : SpaceId) (log : CeremonyLog) (stored : Bool)
    (records : List Bytes) : Except Failure ℕ × CeremonyLog :=
  match records.foldlM (admitRecord space log) [] with
  | .error e => (.error e, log)
  | .ok fresh =>
      if fresh.isEmpty then (.ok log.ceremonyNextSeq, log)
      else
        let staged := fresh.foldl stage log
        if stored then (.ok staged.ceremonyNextSeq, staged)
        else (.error .journal, staged.unwind fresh log.ceremonyNextSeq)

/-- The logs any order and batching of commits lead to. -/
inductive Reached (space : SpaceId) : CeremonyLog → Prop
  | empty : Reached space {}
  | commit {log : CeremonyLog} (stored : Bool) (records : List Bytes) (h : Reached space log) :
      Reached space (log.commitCeremonyBatch space stored records).2

/-! ## What a log keeps -/

/-- The hashes held, in append order. -/
def hashes (log : CeremonyLog) : List Text := log.ceremony.map fun e => e.2.1

/-- Every entry is admissible and stands once, under its hash; the references are
those of the entries, and no sequence number is ahead. -/
structure Sound (space : SpaceId) (log : CeremonyLog) : Prop where
  entries : ∀ e ∈ log.ceremony, Admissible space e.2.2 ∧ e.2.1 = e.2.2.hash
  nodup : log.hashes.Nodup
  refs : ∀ h : Text, (∃ ref, log.ceremonyRefs[h]? = some ref) ↔ h ∈ log.hashes
  seq : ∀ e ∈ log.ceremony, e.1 < log.ceremonyNextSeq

/-- New records for a log: admissible, of different hashes, none of them held. -/
structure New (space : SpaceId) (log : CeremonyLog) (fresh : List FreshRecord) : Prop where
  items : ∀ item ∈ fresh, Admissible space item.2.1 ∧ item.1 = item.2.1.hash
  nodup : (fresh.map Prod.fst).Nodup
  absent : ∀ item ∈ fresh, item.1 ∉ log.hashes

variable {space : SpaceId} {log : CeremonyLog} {fresh : List FreshRecord}

theorem New.of_admit (hsound : log.Sound space) {record : Bytes} {fresh' : List FreshRecord}
    (hnew : New space log fresh) (h : log.admitRecord space fresh record = .ok fresh') :
    New space log fresh' := by
  unfold admitRecord at h
  obtain ⟨material, hdecode, h⟩ := bind_eq_ok.mp h
  obtain ⟨hverify, h⟩ := guard_eq_ok.mp h
  obtain ⟨hmaterial, hrecord⟩ := CeremonyMaterial.decode_eq_ok hdecode
  dsimp only at h
  split at h
  case isTrue =>
    cases h
    exact hnew
  case isFalse hheld =>
    split at h
    case isTrue =>
      cases h
      exact hnew
    case isFalse hdup =>
      cases h
      rw [BTreeMap.contains_iff, hsound.refs] at hheld
      have hdup' : material.node.hash ∉ fresh.map Prod.fst := by
        intro hmem
        obtain ⟨item, hitem, heq⟩ := List.mem_map.mp hmem
        exact hdup (List.any_eq_true.mpr ⟨item, hitem, decide_eq_true heq⟩)
      have hadmissible : Admissible space material.node := by
        refine ⟨not_not.mp hverify, ?_⟩
        rw [← hrecord, hdecode, ← hmaterial]
      constructor
      · intro item hitem
        rcases List.mem_append.mp hitem with hitem | hitem
        · exact hnew.items item hitem
        · rw [List.mem_singleton.mp hitem]
          exact ⟨hadmissible, rfl⟩
      · rw [List.map_append, List.nodup_append]
        refine ⟨hnew.nodup, List.nodup_singleton _, ?_⟩
        rintro a ha b hb rfl
        rw [List.mem_singleton.mp hb] at ha
        exact hdup' ha
      · intro item hitem
        rcases List.mem_append.mp hitem with hitem | hitem
        · exact hnew.absent item hitem
        · rw [List.mem_singleton.mp hitem]
          exact hheld

/-- What a batch validates to is new. -/
theorem New.of_batch (hsound : log.Sound space) {records : List Bytes}
    (h : records.foldlM (log.admitRecord space) [] = .ok fresh) : New space log fresh := by
  refine foldlM_invariant (fun fresh fresh' record _ hnew hstep => hnew.of_admit hsound hstep) h ?_
  exact ⟨by simp, by simp, by simp⟩

omit [Postcard CeremonyMaterial] in
theorem hashes_stage (log : CeremonyLog) (item : FreshRecord) :
    (log.stage item).hashes = log.hashes ++ [item.1] := by
  simp [hashes, stage]

/-- One new record keeps the log sound. -/
theorem Sound.stage (hsound : log.Sound space) {item : FreshRecord}
    (hitem : Admissible space item.2.1 ∧ item.1 = item.2.1.hash) (habsent : item.1 ∉ log.hashes) :
    (log.stage item).Sound space := by
  constructor
  · intro e he
    rcases List.mem_append.mp he with he | he
    · exact hsound.entries e he
    · rw [List.mem_singleton.mp he]
      exact hitem
  · rw [hashes_stage, List.nodup_append]
    refine ⟨hsound.nodup, List.nodup_singleton _, ?_⟩
    rintro a ha b hb rfl
    rw [List.mem_singleton.mp hb] at ha
    exact habsent ha
  · intro h
    rw [hashes_stage, List.mem_append, List.mem_singleton, ← hsound.refs h]
    show (∃ ref, (log.ceremonyRefs.insert _ _)[h]? = some ref) ↔ _
    rw [BTreeMap.get_insert]
    by_cases hh : item.1 = h
    · simp [hh]
    · simp [hh, Ne.symm hh]
  · intro e he
    rcases List.mem_append.mp he with he | he
    · exact (hsound.seq e he).trans (Nat.lt_succ_self _)
    · rw [List.mem_singleton.mp he]
      exact Nat.lt_succ_self _

/-- New records keep the log sound, and are appended in their order. -/
theorem Sound.stage_all (hsound : log.Sound space) (hnew : New space log fresh) :
    (fresh.foldl CeremonyLog.stage log).Sound space
      ∧ (fresh.foldl CeremonyLog.stage log).ceremonyNodes
        = log.ceremonyNodes ++ fresh.map fun item => item.2.1 := by
  induction fresh generalizing log with
  | nil => exact ⟨hsound, by simp⟩
  | cons item fresh ih =>
      have habsent := hnew.absent item List.mem_cons_self
      have hstage := hsound.stage (hnew.items item List.mem_cons_self) habsent
      have hnodup := hnew.nodup
      rw [List.map_cons, List.nodup_cons] at hnodup
      obtain ⟨hrest, hnodes⟩ := ih hstage {
        items := fun item' hitem' => hnew.items item' (List.mem_cons_of_mem _ hitem')
        nodup := hnodup.2
        absent := by
          intro item' hitem' hmem
          rw [hashes_stage, List.mem_append, List.mem_singleton] at hmem
          rcases hmem with hmem | hmem
          · exact hnew.absent item' (List.mem_cons_of_mem _ hitem') hmem
          · exact hnodup.1 (List.mem_map.mpr ⟨item', hitem', hmem⟩) }
      refine ⟨hrest, ?_⟩
      rw [List.foldl_cons, hnodes]
      simp [ceremonyNodes, CeremonyLog.stage]

/-! ## Taking a batch back -/

omit [Postcard CeremonyMaterial] in
theorem refs_stage_all (log : CeremonyLog) (fresh : List FreshRecord) {h : Text}
    (hh : h ∉ fresh.map Prod.fst) :
    (fresh.foldl stage log).ceremonyRefs[h]? = log.ceremonyRefs[h]? := by
  induction fresh generalizing log with
  | nil => rfl
  | cons item fresh ih =>
      rw [List.map_cons, List.mem_cons, not_or] at hh
      rw [List.foldl_cons, ih _ hh.2]
      show (log.ceremonyRefs.insert _ _)[h]? = _
      rw [BTreeMap.get_insert, if_neg (Ne.symm hh.1)]

omit [Postcard CeremonyMaterial] in
/-- What is staged has sequence numbers from the log's next one on. -/
theorem ceremony_stage_all (log : CeremonyLog) (fresh : List FreshRecord) :
    log.ceremonyNextSeq ≤ (fresh.foldl stage log).ceremonyNextSeq ∧
      ∃ staged, (fresh.foldl stage log).ceremony = log.ceremony ++ staged ∧
        ∀ e ∈ staged, log.ceremonyNextSeq ≤ e.1 := by
  induction fresh generalizing log with
  | nil => exact ⟨le_rfl, [], by simp⟩
  | cons item fresh ih =>
      obtain ⟨hle, staged, hstaged, hseq⟩ := ih (log.stage item)
      have hnext : log.ceremonyNextSeq ≤ (log.stage item).ceremonyNextSeq := Nat.le_succ _
      refine ⟨hnext.trans hle, (log.ceremonyNextSeq, item.1, item.2.1) :: staged, ?_, ?_⟩
      · rw [List.foldl_cons, hstaged]
        simp [stage]
      · intro e he
        rcases List.mem_cons.mp he with rfl | he
        · exact le_rfl
        · exact hnext.trans (hseq e he)

omit [Crypto] [Postcard CeremonyMaterial] in
theorem get_foldl_erase {ν : Type} (refs : BTreeMap Text ν) (fresh : List FreshRecord) (h : Text) :
    (fresh.foldl (fun refs item => refs.erase item.1) refs)[h]?
      = if h ∈ fresh.map Prod.fst then none else refs[h]? := by
  induction fresh generalizing refs with
  | nil => simp
  | cons item fresh ih =>
      rw [List.foldl_cons, ih, BTreeMap.get_erase]
      simp only [List.map_cons, List.mem_cons]
      by_cases hh : h = item.1
      · simp [hh]
      · simp only [hh, Ne.symm hh, false_or, if_false]

/-- **A refused commit leaves the log as it was.** -/
theorem unwind_stage_all (hsound : log.Sound space) (hnew : New space log fresh) :
    (fresh.foldl stage log).unwind fresh log.ceremonyNextSeq = log := by
  obtain ⟨-, staged, hstaged, hseq⟩ := ceremony_stage_all log fresh
  have hceremony : (log.ceremony ++ staged).filter (fun e => e.1 < log.ceremonyNextSeq)
      = log.ceremony := by
    rw [List.filter_append, List.filter_eq_self.mpr, List.filter_eq_nil_iff.mpr,
      List.append_nil]
    · intro e he
      simpa using hseq e he
    · intro e he
      simpa using hsound.seq e he
  have hrefs : fresh.foldl (fun refs item => refs.erase item.1)
      (fresh.foldl stage log).ceremonyRefs = log.ceremonyRefs := by
    refine BTreeMap.ext fun h => ?_
    rw [get_foldl_erase]
    split
    case isTrue hh =>
      obtain ⟨item, hitem, rfl⟩ := List.mem_map.mp hh
      have habsent := hnew.absent item hitem
      rw [← hsound.refs] at habsent
      exact (Option.eq_none_iff_forall_ne_some.mpr fun ref href => habsent ⟨ref, href⟩).symm
    case isFalse hh => exact refs_stage_all log fresh hh
  unfold unwind
  rw [hstaged, hceremony, hrefs]

/-! ## The logs commits lead to -/

/-- One commit keeps the log sound. -/
theorem Sound.commit (hsound : log.Sound space) (stored : Bool) (records : List Bytes) :
    (log.commitCeremonyBatch space stored records).2.Sound space := by
  unfold commitCeremonyBatch
  split
  case h_1 => exact hsound
  case h_2 fresh hbatch =>
    have hnew := New.of_batch hsound hbatch
    split
    case isTrue => exact hsound
    case isFalse =>
      dsimp only
      split
      case isTrue => exact (hsound.stage_all hnew).1
      case isFalse =>
        rw [unwind_stage_all hsound hnew]
        exact hsound

theorem Reached.sound (h : Reached space log) : log.Sound space := by
  induction h with
  | empty => exact ⟨by simp, by simp [hashes], by simp [hashes], by simp⟩
  | commit stored records _ ih => exact ih.commit stored records

/-- The nodes of a log are admissible and have different hashes. -/
theorem Reached.nodes (h : Reached space log) :
    (log.ceremonyNodes.map SignedNode.hash).Nodup
      ∧ ∀ node ∈ log.ceremonyNodes, Admissible space node := by
  have hsound := h.sound
  constructor
  · have hhashes : log.ceremonyNodes.map SignedNode.hash = log.hashes := by
      rw [ceremonyNodes, hashes, List.map_map]
      exact List.map_congr_left fun e he => ((hsound.entries e he).2).symm
    rw [hhashes]
    exact hsound.nodup
  · intro node hnode
    obtain ⟨e, he, rfl⟩ := List.mem_map.mp hnode
    exact (hsound.entries e he).1

/-- The record a node is exported as. -/
def recordOf (node : SignedNode) : FreshRecord :=
  (node.hash, node, (CeremonyMaterial.new node).encode)

/-- Admissible nodes of different hashes validate against the empty log. -/
theorem foldlM_admit_empty {nodes done : List SignedNode}
    (hall : ∀ node ∈ nodes, Admissible space node)
    (hnodup : ((done ++ nodes).map SignedNode.hash).Nodup) :
    (nodes.map fun node => (CeremonyMaterial.new node).encode).foldlM
        (admitRecord space {}) (done.map recordOf) = .ok ((done ++ nodes).map recordOf) := by
  induction nodes generalizing done with
  | nil => simp [pure, Except.pure]
  | cons node nodes ih =>
      have hnode := hall node List.mem_cons_self
      have hdup : node.hash ∉ done.map SignedNode.hash := by
        intro hmem
        rw [List.map_append, List.nodup_append] at hnodup
        exact hnodup.2.2 _ hmem _ (by simp) rfl
      have hstep : admitRecord space {} (done.map recordOf) (CeremonyMaterial.new node).encode
          = .ok ((done ++ [node]).map recordOf) := by
        unfold admitRecord
        refine bind_eq_ok.mpr ⟨_, hnode.decodes, ?_⟩
        refine guard_eq_ok.mpr ⟨?_, ?_⟩
        · rw [not_not]
          exact hnode.verifies
        · have hany : ((done.map recordOf).any fun item => item.1 = node.hash) = false := by
            rw [List.any_eq_false]
            intro item hitem
            obtain ⟨node', hnode', rfl⟩ := List.mem_map.mp hitem
            simp only [decide_eq_true_eq]
            intro heq
            exact hdup (List.mem_map.mpr ⟨node', hnode', heq⟩)
          dsimp only [CeremonyMaterial.new]
          rw [if_neg (by simp), hany, if_neg Bool.false_ne_true, List.map_append]
          rfl
      rw [List.map_cons, foldlM_cons_eq_ok]
      refine ⟨_, hstep, ?_⟩
      have hrest := @ih (done ++ [node])
        (fun node' hnode' => hall node' (List.mem_cons_of_mem _ hnode')) (by simpa using hnodup)
      rw [hrest, List.append_assoc]
      rfl

/-- **Every list of admissible nodes with different hashes is the content of a
log**: one batch, in that order. -/
theorem exists_reached {nodes : List SignedNode} (hall : ∀ node ∈ nodes, Admissible space node)
    (hnodup : (nodes.map SignedNode.hash).Nodup) :
    ∃ log, Reached space log ∧ log.ceremonyNodes = nodes := by
  have hbatch : (nodes.map fun node => (CeremonyMaterial.new node).encode).foldlM
      (admitRecord space {}) [] = .ok (nodes.map recordOf) :=
    @foldlM_admit_empty _ _ _ _ [] hall (by simpa using hnodup)
  have hempty : Sound space ({} : CeremonyLog) := Reached.empty.sound
  have hnew := New.of_batch hempty hbatch
  refine ⟨_, Reached.commit true (nodes.map fun node => (CeremonyMaterial.new node).encode)
    Reached.empty, ?_⟩
  unfold commitCeremonyBatch
  rw [hbatch]
  dsimp only
  split
  case isTrue hnil =>
    have hnodes : nodes = [] := by simpa using hnil
    rw [hnodes]
    rfl
  case isFalse =>
    rw [if_pos rfl, (hempty.stage_all hnew).2]
    show ([] : List SignedNode) ++ (nodes.map recordOf).map (fun item => item.2.1) = nodes
    rw [List.nil_append, List.map_map]
    exact List.map_id _

end CeremonyLog

end Material

end Lait.Ceremony
