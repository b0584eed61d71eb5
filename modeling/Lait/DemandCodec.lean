import Lait.AllAny
import Lait.Fallible
import Lait.Demand

/-!
# The canonical bytes of a demand

Two demands are the same policy when they differ only in the order of children and in
nesting of one kind, `AllAny.Equivalent` on their trees.  The encoder dissolves the
nesting and sorts the children, so its bytes should name the policy and nothing else.

The encoder threads a count of leaves through a recursion that dissolves and sorts at
every node.  `encodeNode_eq_ok_iff` takes the two apart: whether a demand has bytes of
so many levels, and which, is a `fold` of its tree; the count is that of the tree.  The
fold cannot tell equivalent trees apart.  In the other direction `decodeNode_encodeTree`
reads the bytes back, into a demand whose children are sorted and dissolved and which
is therefore equivalent; so the bytes determine the policy.

A text is a byte string here, and a `String` of the source is valid UTF-8.  The decoder
checks that of segments, so a statement about what is read back says it of them
(`AuthorizationDemand.Utf8`); names are ASCII by their grammar.
-/

namespace Lait

namespace Demand

open AllAny

/-- A capability on a resource. -/
abbrev Requirement := PolicyCapability × Resource

namespace AuthorizationDemand

/-! ## Trees -/

mutual

/-- The expression a demand is. -/
def tree : AuthorizationDemand → AllAny Requirement
  | require capability resource => .leaf (capability, resource)
  | all children => .node true (trees children)
  | any children => .node false (trees children)

def trees : List AuthorizationDemand → List (AllAny Requirement)
  | [] => []
  | child :: children => tree child :: trees children

end

theorem trees_eq_map (l : List AuthorizationDemand) : trees l = l.map tree := by
  induction l with
  | nil => rfl
  | cons d l ih => rw [trees, ih, List.map_cons]

theorem trees_append (l l' : List AuthorizationDemand) : trees (l ++ l') = trees l ++ trees l' := by
  simp only [trees_eq_map, List.map_append]

mutual

theorem trees_flattenNode (isAll : Bool) (d : AuthorizationDemand) :
    trees (flattenNode isAll d) = AllAny.flattenNode isAll d.tree := by
  cases d with
  | require capability resource => rfl
  | all children =>
      cases isAll with
      | true => exact trees_flatten true children
      | false => rfl
  | any children =>
      cases isAll with
      | true => rfl
      | false => exact trees_flatten false children

/-- The encoder dissolves what the tree dissolves. -/
theorem trees_flatten (isAll : Bool) (l : List AuthorizationDemand) :
    trees (flatten isAll l) = AllAny.flatten isAll (trees l) := by
  cases l with
  | nil => rfl
  | cons d l =>
      rw [flatten, trees_append, trees_flattenNode isAll d, trees_flatten isAll l, trees,
        AllAny.flatten]

end

/-! ## Encoding -/

/-- The bytes of a requirement. -/
def requireBytes (capability : PolicyCapability) (resource : Resource) : Bytes :=
  ⟨[TAG_REQUIRE]⟩ ++ pushStr capability.world ++ pushStr capability.name ++
    ⟨[UInt8.ofNat resource.segments.length]⟩ ++ Bytes.join (resource.segments.map pushStr)

/-- What a leaf is encoded as, when both of its parts are valid and of one World. -/
def leafBytes (requirement : Requirement) : Option Bytes :=
  if requirement.1.validate = .ok () ∧ requirement.2.validate = .ok () ∧
      requirement.1.world = requirement.2.world then
    some (requireBytes requirement.1 requirement.2)
  else none

/-- What a node is encoded as, from the bytes of its dissolved children. -/
def nodeBytes (isAll : Bool) (encoded : List Bytes) : Option Bytes :=
  if encoded = [] ∨ MAX_CHILDREN < encoded.length ∨ hasDuplicate (Bytes.sort encoded) = true then
    none
  else some (assemble isAll (Bytes.sort encoded))

/-- The bytes of a tree of so many levels. -/
def encodeTree : ℕ → AllAny Requirement → Option Bytes := fold leafBytes nodeBytes

theorem nodeBytes_perm (isAll : Bool) (l l' : List Bytes) (h : l.Perm l') :
    nodeBytes isAll l = nodeBytes isAll l' := by
  have hempty : l = [] ↔ l' = [] := by
    rw [← List.length_eq_zero_iff, ← List.length_eq_zero_iff, h.length_eq]
  unfold nodeBytes
  rw [Bytes.sort_eq_sort_iff.mpr h, h.length_eq]
  simp only [hempty]

theorem encodeTree_node (depth : ℕ) (isAll : Bool) (l : List (AllAny Requirement)) :
    encodeTree (depth + 1) (.node isAll l) =
      ((AllAny.flatten isAll l).mapM (encodeTree depth)).bind (nodeBytes isAll) := rfl

/-- Equivalent demands have the same bytes. -/
theorem encodeTree_congr {t t' : AllAny Requirement} (h : Equivalent t t') (depth : ℕ) :
    encodeTree depth t = encodeTree depth t' := (fold_congr nodeBytes_perm h depth).1

/-- Children one after the other, with a count that has an upper bound. -/
theorem encodeEach_eq_ok_iff {encode : AuthorizationDemand → ℕ → Except Invalid (Bytes × ℕ)}
    {value : AuthorizationDemand → Option Bytes} {count : AuthorizationDemand → ℕ}
    (hencode : ∀ d leaves b leaves', leaves ≤ MAX_REQUIRE_LEAVES →
      (encode d leaves = .ok (b, leaves') ↔
        value d = some b ∧ leaves' = leaves + count d ∧ leaves' ≤ MAX_REQUIRE_LEAVES))
    {l : List AuthorizationDemand} {leaves leaves' : ℕ} {bs : List Bytes}
    (hleaves : leaves ≤ MAX_REQUIRE_LEAVES) :
    encodeEach encode l leaves = .ok (bs, leaves') ↔
      l.mapM value = some bs ∧ leaves' = leaves + (l.map count).sum ∧
        leaves' ≤ MAX_REQUIRE_LEAVES := by
  induction l generalizing leaves leaves' bs with
  | nil =>
      simp only [encodeEach, List.mapM_nil, List.map_nil, List.sum_nil, Except.ok.injEq,
        Prod.mk.injEq, Nat.add_zero]
      constructor
      · rintro ⟨rfl, rfl⟩
        exact ⟨rfl, rfl, hleaves⟩
      · rintro ⟨h, rfl, -⟩
        exact ⟨Option.some.inj h, rfl⟩
  | cons d l ih =>
      rw [encodeEach, bind_eq_ok, List.mapM_cons, List.map_cons, List.sum_cons]
      constructor
      · rintro ⟨⟨b, after⟩, hhead, hrest⟩
        obtain ⟨⟨rest, last⟩, htail, hpure⟩ := bind_eq_ok.mp hrest
        cases hpure
        obtain ⟨hb, hafter, hbound⟩ := (hencode d leaves b after hleaves).mp hhead
        obtain ⟨hbs, hlast, hbound'⟩ := (ih hbound).mp htail
        rw [hb, hbs]
        exact ⟨rfl, by omega, hbound'⟩
      · rintro ⟨hvalues, hleaves', hbound⟩
        obtain ⟨b, hb, hrest⟩ := Option.bind_eq_some_iff.mp hvalues
        obtain ⟨rest, hbs, hpure⟩ := Option.bind_eq_some_iff.mp hrest
        cases hpure
        refine ⟨(b, leaves + count d), (hencode d leaves b _ hleaves).mpr ⟨hb, rfl, by omega⟩, ?_⟩
        refine bind_eq_ok.mpr ⟨(rest, leaves'), ?_, rfl⟩
        exact (ih (by omega)).mpr ⟨hbs, by omega, hbound⟩

/-- **What the encoder computes**: the bytes of the tree, and its leaves on top of those
already counted. -/
theorem encodeNode_eq_ok_iff {depth : ℕ} {d : AuthorizationDemand} {leaves leaves' : ℕ} {b : Bytes}
    (hleaves : leaves ≤ MAX_REQUIRE_LEAVES) :
    encodeNode depth d leaves = .ok (b, leaves') ↔
      encodeTree depth d.tree = some b ∧ leaves' = leaves + d.tree.leafCount ∧
        leaves' ≤ MAX_REQUIRE_LEAVES := by
  induction depth generalizing d leaves leaves' b with
  | zero =>
      have hnone : encodeTree 0 d.tree = none := rfl
      rw [encodeNode, hnone]
      simp
  | succ depth ih =>
      have hnode : ∀ isAll children,
          encodeNode.encodeChildren depth isAll children leaves = .ok (b, leaves') ↔
            encodeTree (depth + 1) (.node isAll (trees children)) = some b ∧
              leaves' = leaves + leafCounts (trees children) ∧ leaves' ≤ MAX_REQUIRE_LEAVES := by
        intro isAll children
        have hcount : leafCounts (trees children) =
            ((flatten isAll children).map fun d => d.tree.leafCount).sum := by
          rw [← leafCounts_flatten isAll, ← trees_flatten, leafCounts_eq_sum, trees_eq_map,
            List.map_map]
          rfl
        have hvalues : (AllAny.flatten isAll (trees children)).mapM (encodeTree depth) =
            (flatten isAll children).mapM fun d => encodeTree depth d.tree := by
          rw [← trees_flatten, trees_eq_map, List.mapM_map]
          rfl
        have heach : ∀ encoded after,
            encodeEach (encodeNode depth) (flatten isAll children) leaves = .ok (encoded, after) ↔
              (flatten isAll children).mapM (fun d => encodeTree depth d.tree) = some encoded ∧
                after = leaves + ((flatten isAll children).map fun d => d.tree.leafCount).sum ∧
                after ≤ MAX_REQUIRE_LEAVES := fun encoded after =>
          encodeEach_eq_ok_iff (fun d leaves b leaves' h => ih (d := d) h) hleaves
        rw [encodeTree_node, hvalues, hcount, encodeNode.encodeChildren, guard_eq_ok, guard_eq_ok,
          bind_eq_ok]
        constructor
        · rintro ⟨hempty, hmax, ⟨encoded, after⟩, hencoded, hend⟩
          obtain ⟨hbs, hafter, hbound⟩ := (heach encoded after).mp hencoded
          rw [guard_eq_ok] at hend
          obtain ⟨hdup, hpure⟩ := hend
          cases hpure
          have hlength : encoded.length = (flatten isAll children).length :=
            (mapM_eq_some_iff.mp hbs).length_eq.symm
          refine ⟨?_, hafter, hbound⟩
          rw [hbs, Option.bind_some, nodeBytes, if_neg]
          rintro (hnil | hlong | hdup')
          · rw [hnil, List.length_nil] at hlength
            exact hempty (List.isEmpty_iff.mpr (List.length_eq_zero_iff.mp hlength.symm))
          · exact hmax (by omega)
          · exact hdup hdup'
        · rintro ⟨hvalue, hleaves', hbound⟩
          obtain ⟨encoded, hbs, hassemble⟩ := Option.bind_eq_some_iff.mp hvalue
          have hlength : encoded.length = (flatten isAll children).length :=
            (mapM_eq_some_iff.mp hbs).length_eq.symm
          rw [nodeBytes] at hassemble
          split at hassemble
          case isTrue => cases hassemble
          case isFalse hok =>
            cases hassemble
            refine ⟨?_, ?_, (encoded, leaves'), ?_, ?_⟩
            · intro hempty
              refine hok (Or.inl (List.length_eq_zero_iff.mp ?_))
              rw [hlength, List.isEmpty_iff.mp hempty, List.length_nil]
            · exact fun hmax => hok (Or.inr (Or.inl (by omega)))
            · exact (heach encoded leaves').mpr ⟨hbs, hleaves', hbound⟩
            · exact guard_eq_ok.mpr ⟨fun hdup => hok (Or.inr (Or.inr hdup)), rfl⟩
      cases d with
      | require capability resource =>
          have htree : encodeTree (depth + 1) (tree (require capability resource)) =
            leafBytes (capability, resource) := rfl
          have hcount : leafCount (tree (require capability resource)) = 1 := rfl
          rw [encodeNode, bind_eq_ok, htree, hcount, leafBytes]
          constructor
          · rintro ⟨⟨⟩, hcapability, hrest⟩
            obtain ⟨⟨⟩, hresource, hrest⟩ := bind_eq_ok.mp hrest
            rw [guard_eq_ok] at hrest
            obtain ⟨hworld, hrest⟩ := hrest
            rw [guard_eq_ok] at hrest
            obtain ⟨hbound, hpure⟩ := hrest
            cases hpure
            refine ⟨?_, rfl, Nat.not_lt.mp hbound⟩
            rw [if_pos ⟨hcapability, hresource, Decidable.not_not.mp hworld⟩]
            rfl
          · rintro ⟨hbytes, rfl, hbound⟩
            split at hbytes
            case isFalse => cases hbytes
            case isTrue hok =>
              cases hbytes
              refine ⟨(), hok.1, bind_eq_ok.mpr ⟨(), hok.2.1, ?_⟩⟩
              refine guard_eq_ok.mpr ⟨not_not_intro hok.2.2, ?_⟩
              exact guard_eq_ok.mpr ⟨Nat.not_lt.mpr hbound, rfl⟩
      | all children =>
          rw [encodeNode]
          exact hnode true children
      | any children =>
          rw [encodeNode]
          exact hnode false children

/-- The canonical bytes of a demand are those of its tree, within the bounds on its
leaves and on the bytes. -/
theorem encodeCanonical_eq_ok_iff {d : AuthorizationDemand} {b : Bytes} :
    d.encodeCanonical = .ok b ↔ encodeTree MAX_DEMAND_DEPTH d.tree = some b ∧
      d.tree.leafCount ≤ MAX_REQUIRE_LEAVES ∧ b.length ≤ MAX_DEMAND_BYTES := by
  unfold encodeCanonical
  rw [bind_eq_ok]
  constructor
  · rintro ⟨⟨b', leaves⟩, hnode, hrest⟩
    obtain ⟨hbytes, hcount, hbound⟩ := (encodeNode_eq_ok_iff (Nat.zero_le _)).mp hnode
    obtain ⟨hlength, hpure⟩ := guard_eq_ok.mp hrest
    cases hpure
    exact ⟨hbytes, by omega, Nat.not_lt.mp hlength⟩
  · rintro ⟨hbytes, hcount, hlength⟩
    refine ⟨(b, d.tree.leafCount), ?_, guard_eq_ok.mpr ⟨Nat.not_lt.mpr hlength, rfl⟩⟩
    exact (encodeNode_eq_ok_iff (Nat.zero_le _)).mpr ⟨hbytes, (Nat.zero_add _).symm, hcount⟩

end AuthorizationDemand

/-! ## Reading back -/

/-- A sorted list without equal neighbours ascends strictly. -/
theorem pairwise_lt_of_hasDuplicate {l : List Bytes} (hsorted : l.Pairwise (· ≤ ·))
    (h : hasDuplicate l = false) : l.Pairwise (· < ·) := by
  induction l with
  | nil => exact List.Pairwise.nil
  | cons a l ih =>
      obtain ⟨hle, hsorted⟩ := List.pairwise_cons.mp hsorted
      cases l with
      | nil => exact List.pairwise_singleton _ _
      | cons c l =>
          rw [hasDuplicate, Bool.or_eq_false_iff, decide_eq_false_iff_not] at h
          have hlt : a < c := lt_of_le_of_ne (hle c List.mem_cons_self) h.1
          refine List.pairwise_cons.mpr ⟨fun b hb => ?_, ih hsorted h.2⟩
          rcases List.mem_cons.mp hb with rfl | hb
          · exact hlt
          · exact hlt.trans_le ((List.pairwise_cons.mp hsorted).1 b hb)

/-- ASCII is UTF-8. -/
theorem validUtf8_of_ascii {s : List UInt8} (h : ∀ b ∈ s, b < 128) : Bytes.validUtf8 s = true := by
  have hscan : s.foldl Bytes.utf8Step (some (0, 128, 191)) = some (0, 128, 191) := by
    induction s with
    | nil => rfl
    | cons b s ih =>
        rw [List.foldl_cons, Bytes.utf8Step, if_pos (h b List.mem_cons_self)]
        exact ih fun b hb => h b (List.mem_cons_of_mem _ hb)
  unfold Bytes.validUtf8
  rw [hscan]
  rfl

/-- A name is of at most 64 ASCII characters. -/
theorem ascii_of_validName {s : Text} (h : validName s = true) :
    s.length ≤ MAX_NAME_BYTES ∧ Bytes.validUtf8 s.data = true := by
  unfold validName at h
  rw [Bool.and_eq_true, Bool.and_eq_true, decide_eq_true_eq] at h
  refine ⟨of_decide_eq_true h.1.2, validUtf8_of_ascii fun b hb => ?_⟩
  have hchar : ∀ b : UInt8, ((97 ≤ b && b ≤ 122) || (48 ≤ b && b ≤ 57) || b = 46 || b = 95 ||
      b = 45) = true → b < 128 := by
    decide +kernel
  exact hchar b (List.all_eq_true.mp h.2 b hb)

/-- A text that was pushed is read back. -/
theorem readUtf8_pushStr {s : Text} (rest : List UInt8) (hlen : s.length < 65536)
    (hutf8 : Bytes.validUtf8 s.data = true) :
    readUtf8 ((pushStr s).data ++ rest) = .ok (s, rest) := by
  have hdata : (pushStr s).data ++ rest =
      UInt8.ofNat (s.length / 256) :: UInt8.ofNat s.length :: (s.data ++ rest) := rfl
  have hlength : (UInt8.ofNat (s.length / 256)).toNat * 256 + (UInt8.ofNat s.length).toNat =
      s.data.length := by
    simp only [UInt8.toNat_ofNat']
    unfold Bytes.length at hlen ⊢
    omega
  rw [hdata, readUtf8]
  simp only [hlength, List.take_left, List.drop_left, hutf8, List.length_append]
  rw [if_neg (by omega), if_neg (by simp)]

theorem readStr_pushStr {s : Text} (rest : List UInt8) (hname : validName s = true) :
    readStr ((pushStr s).data ++ rest) = .ok (s, rest) := by
  obtain ⟨hlen, hutf8⟩ := ascii_of_validName hname
  unfold MAX_NAME_BYTES at hlen
  refine bind_eq_ok.mpr ⟨(s, rest), readUtf8_pushStr rest (by omega) hutf8, ?_⟩
  exact guard_eq_ok.mpr ⟨not_not_intro hname, rfl⟩

theorem readSegment_pushStr {s : Text} (rest : List UInt8) (hutf8 : Bytes.validUtf8 s.data = true)
    (h : Resource.validateSegment s = .ok ()) :
    readSegment ((pushStr s).data ++ rest) = .ok (s, rest) := by
  unfold Resource.validateSegment at h
  split at h
  case isTrue => cases h
  case isFalse hlen =>
    split at h
    case isTrue => cases h
    case isFalse hwild =>
      have hmax : s.length ≤ MAX_SEGMENT_BYTES := by omega
      unfold MAX_SEGMENT_BYTES at hmax
      refine bind_eq_ok.mpr ⟨(s, rest), readUtf8_pushStr rest (by omega) hutf8, ?_⟩
      refine guard_eq_ok.mpr ⟨?_, rfl⟩
      rintro (hzero | hlong | hstar)
      · exact hlen (Or.inl hzero)
      · exact hlen (Or.inr hlong)
      · exact hwild hstar

theorem readSegments_pushStr {segments : List Text} (rest : List UInt8)
    (hutf8 : ∀ s ∈ segments, Bytes.validUtf8 s.data = true)
    (h : ∀ s ∈ segments, Resource.validateSegment s = .ok ()) :
    readSegments segments.length ((Bytes.join (segments.map pushStr)).data ++ rest) =
      .ok (segments, rest) := by
  induction segments with
  | nil => rfl
  | cons s segments ih =>
      have hdata : (Bytes.join ((s :: segments).map pushStr)).data ++ rest =
          (pushStr s).data ++ ((Bytes.join (segments.map pushStr)).data ++ rest) := by
        rw [List.map_cons, Bytes.join_cons, Bytes.data_append, List.append_assoc]
      rw [hdata]
      refine bind_eq_ok.mpr ⟨_, readSegment_pushStr _ (hutf8 s List.mem_cons_self)
        (h s List.mem_cons_self), ?_⟩
      refine bind_eq_ok.mpr ⟨(segments, rest), ?_, rfl⟩
      exact ih (fun s hs => hutf8 s (List.mem_cons_of_mem _ hs))
        fun s hs => h s (List.mem_cons_of_mem _ hs)

/-- What a valid resource and a valid capability are. -/
theorem Resource.validate_eq_ok_iff {r : Resource} :
    r.validate = .ok () ↔ validName r.world = true ∧
      r.segments.length ≤ MAX_RESOURCE_SEGMENTS ∧
      (∀ s ∈ r.segments, Resource.validateSegment s = .ok ()) ∧
      (r.segments.map Bytes.length).sum ≤ MAX_RESOURCE_BYTES := by
  unfold Resource.validate
  rw [guard_eq_ok, guard_eq_ok, bind_eq_ok, Decidable.not_not, Nat.not_lt]
  constructor
  · rintro ⟨hname, hcount, ⟨⟩, hsegments, hend⟩
    exact ⟨hname, hcount, forM_eq_ok_iff.mp hsegments, Nat.not_lt.mp (check_eq_ok.mp hend)⟩
  · rintro ⟨hname, hcount, hsegments, htotal⟩
    exact ⟨hname, hcount, (), forM_eq_ok_iff.mpr hsegments, check_eq_ok.mpr (Nat.not_lt.mpr htotal)⟩

theorem PolicyCapability.validate_eq_ok_iff {c : PolicyCapability} :
    c.validate = .ok () ↔ validName c.world = true ∧ validName c.name = true := by
  unfold PolicyCapability.validate
  rw [guard_eq_ok, check_eq_ok, Decidable.not_not, Decidable.not_not]

namespace AuthorizationDemand

/-- The segments a demand names are UTF-8, as every `String` is. -/
def Utf8Segments (requirement : Requirement) : Prop :=
  ∀ s ∈ requirement.2.segments, Bytes.validUtf8 s.data = true

/-- The segments of all requirements of a demand are UTF-8. -/
def Utf8 (d : AuthorizationDemand) : Prop := d.tree.AllLeaves Utf8Segments

/-- A requirement is read back. -/
theorem decodeNode_leafBytes {depth leaves : ℕ} {requirement : Requirement} {b : Bytes}
    (hutf8 : Utf8Segments requirement) (hbytes : leafBytes requirement = some b)
    (hleaves : leaves + 1 ≤ MAX_REQUIRE_LEAVES) :
    decodeNode (depth + 1) b.data leaves =
      .ok (require requirement.1 requirement.2, [], leaves + 1) := by
  obtain ⟨⟨world, name⟩, ⟨world', segments⟩⟩ := requirement
  unfold leafBytes at hbytes
  split at hbytes
  case isFalse => cases hbytes
  case isTrue hok =>
    cases hbytes
    obtain ⟨hcapability, hresource, hworld⟩ := hok
    obtain ⟨hworldname, hname⟩ := PolicyCapability.validate_eq_ok_iff.mp hcapability
    obtain ⟨-, hcount, hsegments, -⟩ := Resource.validate_eq_ok_iff.mp hresource
    dsimp only at hworld hworldname hname hcount hsegments
    subst hworld
    have hdata : (requireBytes ⟨world, name⟩ ⟨world, segments⟩).data =
        TAG_REQUIRE :: ((pushStr world).data ++ ((pushStr name).data ++
          (UInt8.ofNat segments.length ::
            ((Bytes.join (segments.map pushStr)).data ++ [])))) := by
      simp [requireBytes]
    have hsmall : (UInt8.ofNat segments.length).toNat = segments.length := by
      unfold MAX_RESOURCE_SEGMENTS at hcount
      rw [UInt8.toNat_ofNat']
      omega
    rw [hdata]
    unfold decodeNode
    rw [if_pos rfl]
    refine bind_eq_ok.mpr ⟨_, readStr_pushStr _ hworldname, ?_⟩
    refine bind_eq_ok.mpr ⟨_, readStr_pushStr _ hname, ?_⟩
    dsimp only
    rw [hsmall]
    refine guard_eq_ok.mpr ⟨Nat.not_lt.mpr hcount, ?_⟩
    refine bind_eq_ok.mpr ⟨_, readSegments_pushStr [] hutf8 hsegments, ?_⟩
    exact guard_eq_ok.mpr ⟨Nat.not_lt.mpr hleaves, rfl⟩

/-- A length that was pushed is read back. -/
theorem toNat_be32 {n : ℕ} (h : n < 4294967296) :
    (((UInt8.ofNat (n / 65536 / 256)).toNat * 256 + (UInt8.ofNat (n / 65536)).toNat) * 256 +
      (UInt8.ofNat (n / 256)).toNat) * 256 + (UInt8.ofNat n).toNat = n := by
  simp only [UInt8.toNat_ofNat']
  omega

/-- Children that were assembled are read back one after the other. -/
theorem decodeChildren_join {decode : List UInt8 → ℕ → Read} {tag : UInt8}
    {ts : List (AllAny Requirement)} {encoded : List Bytes}
    (hdecode : List.Forall₂ (fun t e => ∀ leaves, leaves + t.leafCount ≤ MAX_REQUIRE_LEAVES →
      ∃ d, decode e.data leaves = .ok (d, [], leaves + t.leafCount) ∧ Equivalent t d.tree) ts encoded)
    (htag : ∀ e ∈ encoded, e.data.head? ≠ some tag) (hlen : ∀ e ∈ encoded, e.length < 4294967296)
    (prev : Option Bytes) (hsorted : (prev.toList ++ encoded).Pairwise (· < ·)) (leaves : ℕ)
    (hleaves : leaves + leafCounts ts ≤ MAX_REQUIRE_LEAVES) :
    ∃ ds, decodeChildren decode tag encoded.length prev
        (Bytes.join (encoded.map fun child => Bytes.be32 child.length ++ child)).data leaves =
          .ok (ds, [], leaves + leafCounts ts) ∧ List.Forall₂ Equivalent ts (trees ds) := by
  induction hdecode generalizing prev leaves with
  | nil => exact ⟨[], rfl, List.Forall₂.nil⟩
  | @cons t e ts encoded hhead _ ih =>
      have hlen' : e.data.length < 4294967296 := hlen e List.mem_cons_self
      rw [leafCounts] at hleaves
      have hdata : (Bytes.join ((e :: encoded).map fun child =>
          Bytes.be32 child.length ++ child)).data =
          UInt8.ofNat (e.length / 65536 / 256) :: UInt8.ofNat (e.length / 65536) ::
            UInt8.ofNat (e.length / 256) :: UInt8.ofNat e.length :: (e.data ++
              (Bytes.join (encoded.map fun child => Bytes.be32 child.length ++ child)).data) := rfl
      obtain ⟨d, hd, hequiv⟩ := hhead leaves (by omega)
      obtain ⟨ds, hds, hequivs⟩ := ih (fun e he => htag e (List.mem_cons_of_mem _ he))
        (fun e he => hlen e (List.mem_cons_of_mem _ he)) (some e)
        (List.Pairwise.sublist (List.sublist_append_right _ _) hsorted) (leaves + t.leafCount)
        (by omega)
      refine ⟨d :: ds, ?_, ?_⟩
      · have htotal : leaves + leafCounts (t :: ts) = leaves + t.leafCount + leafCounts ts := by
          rw [leafCounts, Nat.add_assoc]
        rw [hdata, htotal, List.length_cons, decodeChildren]
        simp only [toNat_be32 (show e.length < 4294967296 from hlen')]
        have htake : (e.data ++ (Bytes.join (encoded.map fun child =>
            Bytes.be32 child.length ++ child)).data).take e.length = e.data := List.take_left
        have hdrop : (e.data ++ (Bytes.join (encoded.map fun child =>
            Bytes.be32 child.length ++ child)).data).drop e.length =
            (Bytes.join (encoded.map fun child => Bytes.be32 child.length ++ child)).data :=
          List.drop_left
        rw [htake, hdrop]
        refine guard_eq_ok.mpr ⟨?_, guard_eq_ok.mpr ⟨?_, guard_eq_ok.mpr ⟨?_, ?_⟩⟩⟩
        · rw [List.length_append]
          have : e.length = e.data.length := rfl
          omega
        · intro hprev
          cases prev with
          | none => cases hprev
          | some p =>
              have hlt : p < e := (List.pairwise_cons.mp hsorted).1 e List.mem_cons_self
              exact absurd (of_decide_eq_true hprev) hlt.not_ge
        · exact htag e List.mem_cons_self
        · refine bind_eq_ok.mpr ⟨_, hd, guard_eq_ok.mpr ⟨by simp, ?_⟩⟩
          exact bind_eq_ok.mpr ⟨_, hds, rfl⟩
      · exact List.Forall₂.cons hequiv hequivs

/-- The tag of an expression. -/
def tagOf : AllAny Requirement → UInt8
  | .leaf _ => TAG_REQUIRE
  | .node isAll _ => if isAll then TAG_ALL else TAG_ANY

/-- The first byte is the tag. -/
theorem head_encodeTree {depth : ℕ} {t : AllAny Requirement} {b : Bytes}
    (h : encodeTree depth t = some b) : b.data.head? = some (tagOf t) := by
  cases depth with
  | zero => cases h
  | succ depth =>
      cases t with
      | leaf requirement =>
          have hleaf : leafBytes requirement = some b := h
          unfold leafBytes at hleaf
          split at hleaf
          case isTrue =>
            cases hleaf
            rfl
          case isFalse => cases hleaf
      | node isAll l =>
          obtain ⟨encoded, -, hnode⟩ := Option.bind_eq_some_iff.mp h
          unfold nodeBytes at hnode
          split at hnode
          case isTrue => cases hnode
          case isFalse =>
            cases hnode
            rfl

/-- The dissolved children of a node have other tags. -/
theorem tagOf_ne {isAll : Bool} {t : AllAny Requirement} (h : Dissolved isAll t) :
    tagOf t ≠ if isAll then TAG_ALL else TAG_ANY := by
  cases t with
  | leaf requirement =>
      cases isAll
      · exact (by decide : TAG_REQUIRE ≠ TAG_ANY)
      · exact (by decide : TAG_REQUIRE ≠ TAG_ALL)
  | node kind inner =>
      have hkind : kind ≠ isAll := h
      cases kind <;> cases isAll
      · exact absurd rfl hkind
      · exact (by decide : TAG_ANY ≠ TAG_ALL)
      · exact (by decide : TAG_ALL ≠ TAG_ANY)
      · exact absurd rfl hkind

/-- A child is no longer than the node it is in. -/
theorem length_le_assemble {isAll : Bool} {encoded : List Bytes} {e : Bytes} (he : e ∈ encoded) :
    e.length ≤ (assemble isAll encoded).length := by
  have hchild : Bytes.be32 e.length ++ e ∈ encoded.map fun child => Bytes.be32 child.length ++ child :=
    List.mem_map_of_mem he
  have hjoin := Bytes.length_le_join hchild
  unfold assemble
  rw [Bytes.length_append, Bytes.length_append]
  rw [Bytes.length_append] at hjoin
  omega

/-- A node that was assembled is read back once its children are. -/
theorem decodeNode_assemble {depth leaves leaves' : ℕ} {isAll : Bool} {encoded : List Bytes}
    {ds : List AuthorizationDemand} (hempty : encoded ≠ []) (hmax : encoded.length ≤ MAX_CHILDREN)
    (hds : decodeChildren (decodeNode depth) (if isAll then TAG_ALL else TAG_ANY) encoded.length none
      (Bytes.join (encoded.map fun child => Bytes.be32 child.length ++ child)).data leaves =
        .ok (ds, [], leaves')) :
    decodeNode (depth + 1) (assemble isAll encoded).data leaves =
      .ok (if isAll then all ds else any ds, [], leaves') := by
  have hdata : (assemble isAll encoded).data = (if isAll then TAG_ALL else TAG_ANY) ::
      UInt8.ofNat (encoded.length / 256) :: UInt8.ofNat encoded.length ::
        (Bytes.join (encoded.map fun child => Bytes.be32 child.length ++ child)).data := rfl
  have hcount : (UInt8.ofNat (encoded.length / 256)).toNat * 256 +
      (UInt8.ofNat encoded.length).toNat = encoded.length := by
    unfold MAX_CHILDREN at hmax
    simp only [UInt8.toNat_ofNat']
    omega
  have hpos : encoded.length ≠ 0 := fun h => hempty (List.length_eq_zero_iff.mp h)
  rw [hdata]
  unfold decodeNode
  rw [if_neg (by cases isAll <;> decide), if_pos (by cases isAll <;> decide)]
  dsimp only
  rw [hcount]
  refine guard_eq_ok.mpr ⟨hpos, guard_eq_ok.mpr ⟨Nat.not_lt.mpr hmax, ?_⟩⟩
  refine bind_eq_ok.mpr ⟨_, hds, ?_⟩
  cases isAll <;> rfl

/-- **The bytes of a tree are read back**, as a demand equivalent to it. -/
theorem decodeNode_encodeTree {depth leaves : ℕ} {t : AllAny Requirement} {b : Bytes}
    (hutf8 : t.AllLeaves Utf8Segments) (hbytes : encodeTree depth t = some b)
    (hlen : b.length ≤ MAX_DEMAND_BYTES) (hleaves : leaves + t.leafCount ≤ MAX_REQUIRE_LEAVES) :
    ∃ d, decodeNode depth b.data leaves = .ok (d, [], leaves + t.leafCount) ∧
      Equivalent t d.tree := by
  induction depth generalizing t b leaves with
  | zero => cases hbytes
  | succ depth ih =>
      cases t with
      | leaf requirement =>
          exact ⟨_, decodeNode_leafBytes hutf8 hbytes hleaves, .refl _⟩
      | node isAll l =>
          obtain ⟨values, hvalues, hnode⟩ := Option.bind_eq_some_iff.mp hbytes
          unfold nodeBytes at hnode
          split at hnode
          case isTrue => cases hnode
          case isFalse hok =>
            cases hnode
            have hperm : (Bytes.sort values).Perm values := Bytes.sort_perm values
            -- the dissolved children, in the order of their bytes
            obtain ⟨ts, hts, htsperm⟩ := List.perm_comp_forall₂ hperm
              (List.Forall₂.flip (mapM_eq_some_iff.mp hvalues))
            have hcounts : leafCounts ts = leafCounts l := by
              rw [← leafCounts_flatten isAll l, leafCounts_eq_sum, leafCounts_eq_sum]
              exact (htsperm.map _).sum_eq
            have hequiv : Equivalent (.node isAll l) (.node isAll ts) :=
              (Equivalent.dissolved isAll l).trans (.reorder htsperm.symm)
            have hutf8' : ∀ t ∈ ts, t.AllLeaves Utf8Segments := by
              intro t ht
              exact allLeavesOf_iff.mp (allLeavesOf_flatten.mpr hutf8) t (htsperm.mem_iff.mp ht)
            have hshort : ∀ e ∈ Bytes.sort values, e.length ≤ MAX_DEMAND_BYTES := fun e he =>
              (length_le_assemble he).trans hlen
            have htag : ∀ e ∈ Bytes.sort values,
                e.data.head? ≠ some (if isAll then TAG_ALL else TAG_ANY) := by
              intro e he
              obtain ⟨t, ht, hvalue⟩ := exists_of_mapM_eq_some hvalues (Bytes.mem_sort.mp he)
              have hkind : Dissolved isAll t := dissolved_of_mem_flatten t ht
              rw [head_encodeTree hvalue]
              exact fun h => tagOf_ne hkind (Option.some.inj h)
            have hchildren : List.Forall₂ (fun t e => ∀ leaves,
                leaves + t.leafCount ≤ MAX_REQUIRE_LEAVES → ∃ d,
                  decodeNode depth e.data leaves = .ok (d, [], leaves + t.leafCount) ∧
                    Equivalent t d.tree) ts (Bytes.sort values) := by
              have hboth := List.forall₂_and_left _ _ |>.mpr ⟨hutf8', hts.flip⟩
              have hall := List.forall₂_and_left _ _ |>.mpr ⟨hshort, hboth.flip⟩
              refine hall.flip.imp fun t e h leaves hleaves => ?_
              exact ih h.2.1 h.2.2 h.1 hleaves
            have hstrict : (Bytes.sort values).Pairwise (· < ·) := by
              refine pairwise_lt_of_hasDuplicate (List.pairwise_insertionSort _ _) ?_
              exact Bool.eq_false_iff.mpr fun hdup => hok (Or.inr (Or.inr hdup))
            have hlarge : ∀ e ∈ Bytes.sort values, e.length < 4294967296 := by
              intro e he
              have := hshort e he
              unfold MAX_DEMAND_BYTES at this
              omega
            have hleaves' : leaves + leafCounts ts ≤ MAX_REQUIRE_LEAVES := by
              rw [hcounts]
              exact hleaves
            obtain ⟨ds, hds, hequivs⟩ := decodeChildren_join hchildren htag hlarge none hstrict
              leaves hleaves'
            rw [hcounts] at hds
            have hlength := hperm.length_eq
            refine ⟨_, decodeNode_assemble (fun hnil => hok (Or.inl ?_))
              (Nat.not_lt.mp fun hlong => hok (Or.inr (Or.inl (by omega)))) hds, ?_⟩
            · rw [hnil, List.length_nil] at hlength
              exact List.length_eq_zero_iff.mp hlength.symm
            · have htree : tree (if isAll then all ds else any ds) = .node isAll (trees ds) := by
                cases isAll <;> rfl
              rw [htree]
              exact hequiv.trans (Equivalent.children hequivs)

/-! ## Which demands encode -/

/-- Trees of the same bytes are equivalent. -/
theorem equivalent_of_encodeTree_eq {depth : ℕ} {t t' : AllAny Requirement} {b : Bytes}
    (hutf8 : t.AllLeaves Utf8Segments) (hutf8' : t'.AllLeaves Utf8Segments)
    (h : encodeTree depth t = some b) (h' : encodeTree depth t' = some b)
    (hlen : b.length ≤ MAX_DEMAND_BYTES) (hcount : t.leafCount ≤ MAX_REQUIRE_LEAVES)
    (hcount' : t'.leafCount ≤ MAX_REQUIRE_LEAVES) : Equivalent t t' := by
  have hleaves : 0 + t.leafCount ≤ MAX_REQUIRE_LEAVES := by omega
  have hleaves' : 0 + t'.leafCount ≤ MAX_REQUIRE_LEAVES := by omega
  obtain ⟨d, hd, hequiv⟩ := decodeNode_encodeTree hutf8 h hlen hleaves
  obtain ⟨d', hd', hequiv'⟩ := decodeNode_encodeTree hutf8' h' hlen hleaves'
  rw [hd] at hd'
  obtain rfl : d = d' := congrArg Prod.fst (Except.ok.inj hd')
  exact hequiv.trans hequiv'.symm

/-- The number of bytes a requirement takes. -/
def requirementSize (requirement : Requirement) : ℕ :=
  6 + requirement.1.world.length + requirement.1.name.length +
    (requirement.2.segments.map fun s => 2 + s.length).sum

/-- The number of bytes an expression takes: three for the head of a node, four for the
length of a child. -/
def treeSize : AllAny Requirement → ℕ := weight requirementSize 3 4

/-- Both parts of a requirement are valid and of one World. -/
def ValidRequirement (requirement : Requirement) : Prop :=
  requirement.1.validate = .ok () ∧ requirement.2.validate = .ok () ∧
    requirement.1.world = requirement.2.world

theorem length_join (l : List Bytes) : (Bytes.join l).length = (l.map Bytes.length).sum := by
  induction l with
  | nil => rfl
  | cons b l ih => rw [Bytes.join_cons, Bytes.length_append, ih, List.map_cons, List.sum_cons]

theorem length_requireBytes {requirement : Requirement} :
    (requireBytes requirement.1 requirement.2).length = requirementSize requirement := by
  have hsegments : (requirement.2.segments.map pushStr).map Bytes.length =
      requirement.2.segments.map fun s => 2 + s.length := by
    rw [List.map_map]
    refine List.map_congr_left fun s _ => ?_
    exact Bytes.length_append _ _
  have hpush : ∀ s, (pushStr s).length = 2 + s.length := fun s => Bytes.length_append _ _
  have hone : ∀ b : UInt8, (⟨[b]⟩ : Bytes).length = 1 := fun _ => rfl
  unfold requireBytes requirementSize
  simp only [Bytes.length_append, length_join, hsegments, hpush, hone]
  omega

theorem length_assemble {isAll : Bool} {encoded : List Bytes} :
    (assemble isAll encoded).length = 3 + (encoded.map fun e => 4 + e.length).sum := by
  have hchildren : (encoded.map fun child => Bytes.be32 child.length ++ child).map Bytes.length =
      encoded.map fun e => 4 + e.length := by
    rw [List.map_map]
    refine List.map_congr_left fun e _ => ?_
    exact Bytes.length_append _ _
  have hhead : ∀ b : UInt8, (⟨[b]⟩ ++ Bytes.be16 encoded.length : Bytes).length = 3 := fun _ => rfl
  unfold assemble
  rw [Bytes.length_append, length_join, hchildren, hhead]

/-- Neighbours of a list without duplicates differ. -/
theorem hasDuplicate_of_nodup {l : List Bytes} (h : l.Nodup) : hasDuplicate l = false := by
  induction l with
  | nil => rfl
  | cons a l ih =>
      obtain ⟨ha, hl⟩ := List.nodup_cons.mp h
      cases l with
      | nil => rfl
      | cons c l =>
          rw [hasDuplicate, ih hl, Bool.or_false, decide_eq_false_iff_not]
          rintro rfl
          exact ha List.mem_cons_self

/-- A node has bytes exactly when its children are few enough, not none, and no two of
them have the same. -/
theorem nodeBytes_eq_some_iff {isAll : Bool} {values : List Bytes} {b : Bytes} :
    nodeBytes isAll values = some b ↔ values ≠ [] ∧ values.length ≤ MAX_CHILDREN ∧
      values.Nodup ∧ b = assemble isAll (Bytes.sort values) := by
  have hperm := Bytes.sort_perm values
  unfold nodeBytes
  constructor
  · intro h
    split at h
    case isTrue => cases h
    case isFalse hok =>
      cases h
      have hdup : hasDuplicate (Bytes.sort values) = false :=
        Bool.eq_false_iff.mpr fun hdup => hok (Or.inr (Or.inr hdup))
      have hstrict := pairwise_lt_of_hasDuplicate (List.pairwise_insertionSort _ _) hdup
      exact ⟨fun h => hok (Or.inl h), Nat.not_lt.mp fun h => hok (Or.inr (Or.inl h)),
        hperm.nodup_iff.mp (hstrict.imp fun h => h.ne), rfl⟩
  · rintro ⟨hnil, hmax, hnodup, rfl⟩
    refine if_neg ?_
    rintro (h | h | h)
    · exact hnil h
    · omega
    · rw [hasDuplicate_of_nodup (hperm.nodup_iff.mpr hnodup)] at h
      cases h

/-- The values of a list, as options. -/
theorem map_of_mapM {α β : Type} {f : α → Option β} {l : List α} {bs : List β}
    (h : l.mapM f = some bs) : l.map f = bs.map some := by
  have hall := mapM_eq_some_iff.mp h
  induction hall with
  | nil => rfl
  | cons hhead htail ih =>
      rw [List.map_cons, List.map_cons, hhead, ih (mapM_eq_some_iff.mpr htail)]

theorem nodup_iff_of_mapM {α β : Type} {f : α → Option β} {l : List α} {bs : List β}
    (h : l.mapM f = some bs) : bs.Nodup ↔ l.Pairwise fun a a' => f a ≠ f a' := by
  rw [← List.nodup_map_iff (Option.some_injective β), ← map_of_mapM h, List.Nodup, List.pairwise_map]

theorem sum_length_of_mapM {α : Type} {f : α → Option Bytes} {size : α → ℕ} {l : List α}
    {values : List Bytes} (h : l.mapM f = some values)
    (hsize : ∀ a e, f a = some e → e.length = size a) :
    (values.map fun e => 4 + e.length).sum = (l.map fun a => 4 + size a).sum := by
  have hall := mapM_eq_some_iff.mp h
  induction hall with
  | nil => rfl
  | cons hhead htail ih =>
      rw [List.map_cons, List.map_cons, List.sum_cons, List.sum_cons,
        ih (mapM_eq_some_iff.mpr htail), hsize _ _ hhead]

/-- **What has bytes fits**: its levels, its children and its leaves are as the encoder
asks, and its bytes are as many as the tree says. -/
theorem fits_of_encodeTree {depth : ℕ} {t : AllAny Requirement} {b : Bytes}
    (h : encodeTree depth t = some b) :
    t.Fits MAX_CHILDREN depth ∧ t.AllLeaves ValidRequirement ∧ b.length = treeSize t := by
  induction depth generalizing t b with
  | zero => cases h
  | succ depth ih =>
      cases t with
      | leaf requirement =>
          have hleaf : leafBytes requirement = some b := h
          unfold leafBytes at hleaf
          split at hleaf
          case isFalse => cases hleaf
          case isTrue hok =>
            cases hleaf
            exact ⟨trivial, hok, length_requireBytes⟩
      | node isAll l =>
          obtain ⟨values, hvalues, hnode⟩ := Option.bind_eq_some_iff.mp h
          obtain ⟨hnil, hmax, hnodup, rfl⟩ := nodeBytes_eq_some_iff.mp hnode
          have hlength := (mapM_eq_some_iff.mp hvalues).length_eq
          have heach : ∀ t ∈ AllAny.flatten isAll l, ∃ e, encodeTree depth t = some e := by
            intro t ht
            have hmem : encodeTree depth t ∈ values.map some := by
              rw [← map_of_mapM hvalues]
              exact List.mem_map_of_mem ht
            obtain ⟨e, -, he⟩ := List.mem_map.mp hmem
            exact ⟨e, he.symm⟩
          refine ⟨⟨?_, by omega, ?_, ?_⟩, ?_, ?_⟩
          · intro hempty
            rw [hempty, List.length_nil] at hlength
            exact hnil (List.length_eq_zero_iff.mp hlength.symm)
          · refine ((nodup_iff_of_mapM hvalues).mp hnodup).imp fun hne hequiv => ?_
            exact hne (encodeTree_congr hequiv depth)
          · intro t ht
            obtain ⟨e, he⟩ := heach t ht
            exact (ih he).1
          · have hvalid : AllLeavesOf ValidRequirement (AllAny.flatten isAll l) := by
              refine allLeavesOf_iff.mpr fun t ht => ?_
              obtain ⟨e, he⟩ := heach t ht
              exact (ih he).2.1
            exact allLeavesOf_flatten.mp hvalid
          · have hsum := sum_length_of_mapM hvalues fun t e he => (ih he).2.2
            have hsort := ((Bytes.sort_perm values).map fun e => 4 + e.length).sum_eq
            rw [length_assemble, hsort, hsum]
            unfold treeSize
            rw [weight, weightsIn_eq_sum]

/-- **What fits has bytes.** -/
theorem exists_encodeTree_of_fits {depth : ℕ} {t : AllAny Requirement}
    (hfits : t.Fits MAX_CHILDREN depth) (hvalid : t.AllLeaves ValidRequirement)
    (hutf8 : t.AllLeaves Utf8Segments) (hcount : t.leafCount ≤ MAX_REQUIRE_LEAVES)
    (hsize : treeSize t ≤ MAX_DEMAND_BYTES) : ∃ b, encodeTree depth t = some b := by
  induction depth generalizing t with
  | zero => exact absurd hfits id
  | succ depth ih =>
      cases t with
      | leaf requirement => exact ⟨_, if_pos hvalid⟩
      | node isAll l =>
          obtain ⟨hnil, hmax, hdistinct, heach⟩ := hfits
          have hvalid' : AllLeavesOf ValidRequirement (AllAny.flatten isAll l) :=
            allLeavesOf_flatten.mpr hvalid
          have hutf8' : AllLeavesOf Utf8Segments (AllAny.flatten isAll l) :=
            allLeavesOf_flatten.mpr hutf8
          rw [allLeavesOf_iff] at hvalid' hutf8'
          have hcounts : ∀ t ∈ AllAny.flatten isAll l, t.leafCount ≤ MAX_REQUIRE_LEAVES :=
            fun t ht => (leafCount_le_of_mem_flatten ht).trans hcount
          have hsizes : ∀ t ∈ AllAny.flatten isAll l, treeSize t ≤ MAX_DEMAND_BYTES :=
            fun t ht => (weight_le_of_mem_flatten ht).trans hsize
          obtain ⟨values, hvalues⟩ := exists_mapM_eq_some fun t ht =>
            ih (heach t ht) (hvalid' t ht) (hutf8' t ht) (hcounts t ht) (hsizes t ht)
          have hlength := (mapM_eq_some_iff.mp hvalues).length_eq
          have hnodup : values.Nodup := by
            refine (nodup_iff_of_mapM hvalues).mpr (hdistinct.imp_of_mem ?_)
            intro t t' ht ht' hne heq
            obtain ⟨e, he⟩ := ih (heach t ht) (hvalid' t ht) (hutf8' t ht) (hcounts t ht) (hsizes t ht)
            have hlen : e.length ≤ MAX_DEMAND_BYTES := by
              rw [(fits_of_encodeTree he).2.2]
              exact hsizes t ht
            exact hne (equivalent_of_encodeTree_eq (hutf8' t ht) (hutf8' t' ht') he (heq ▸ he) hlen
              (hcounts t ht) (hcounts t' ht'))
          refine ⟨assemble isAll (Bytes.sort values), ?_⟩
          rw [encodeTree_node, hvalues, Option.bind_some]
          refine nodeBytes_eq_some_iff.mpr ⟨?_, by omega, hnodup, rfl⟩
          rintro rfl
          exact hnil (List.length_eq_zero_iff.mp hlength)

/-- **A demand encodes** exactly when its requirements are valid and its dissolved tree
is within every bound, with no two equivalent children on a node. -/
theorem exists_encodeCanonical_iff {d : AuthorizationDemand} (hutf8 : d.Utf8) :
    (∃ b, d.encodeCanonical = .ok b) ↔ d.tree.AllLeaves ValidRequirement ∧
      d.tree.Fits MAX_CHILDREN MAX_DEMAND_DEPTH ∧ d.tree.leafCount ≤ MAX_REQUIRE_LEAVES ∧
      treeSize d.tree ≤ MAX_DEMAND_BYTES := by
  constructor
  · rintro ⟨b, hb⟩
    obtain ⟨hbytes, hcount, hlen⟩ := encodeCanonical_eq_ok_iff.mp hb
    obtain ⟨hfits, hvalid, hsize⟩ := fits_of_encodeTree hbytes
    exact ⟨hvalid, hfits, hcount, hsize ▸ hlen⟩
  · rintro ⟨hvalid, hfits, hcount, hsize⟩
    obtain ⟨b, hb⟩ := exists_encodeTree_of_fits hfits hvalid hutf8 hcount hsize
    refine ⟨b, encodeCanonical_eq_ok_iff.mpr ⟨hb, hcount, ?_⟩⟩
    rw [(fits_of_encodeTree hb).2.2]
    exact hsize

/-! ## The codec -/

/-- What a demand is encoded as decodes to an equivalent demand. -/
theorem decodeCanonical_of_encodeCanonical {d : AuthorizationDemand} {b : Bytes} (hutf8 : d.Utf8)
    (h : d.encodeCanonical = .ok b) :
    ∃ d', decodeCanonical b = .ok d' ∧ d'.encodeCanonical = .ok b ∧
      Equivalent d.tree d'.tree := by
  obtain ⟨hbytes, hcount, hlen⟩ := encodeCanonical_eq_ok_iff.mp h
  have hleaves : 0 + d.tree.leafCount ≤ MAX_REQUIRE_LEAVES := by rwa [Nat.zero_add]
  obtain ⟨d', hd', hequiv⟩ := decodeNode_encodeTree hutf8 hbytes hlen hleaves
  have hencode : d'.encodeCanonical = .ok b := encodeCanonical_eq_ok_iff.mpr
    ⟨encodeTree_congr hequiv _ ▸ hbytes, hequiv.leafCount_eq ▸ hcount, hlen⟩
  refine ⟨d', ?_, hencode, hequiv⟩
  unfold decodeCanonical
  refine guard_eq_ok.mpr ⟨Nat.not_lt.mpr hlen, bind_eq_ok.mpr ⟨_, hd', ?_⟩⟩
  refine guard_eq_ok.mpr ⟨by simp, bind_eq_ok.mpr ⟨b, hencode, ?_⟩⟩
  exact guard_eq_ok.mpr ⟨not_not_intro rfl, rfl⟩

/-- What is decoded encodes to what it was decoded from. -/
theorem encodeCanonical_of_decodeCanonical {d : AuthorizationDemand} {b : Bytes}
    (h : decodeCanonical b = .ok d) : d.encodeCanonical = .ok b := by
  unfold decodeCanonical at h
  obtain ⟨-, h⟩ := guard_eq_ok.mp h
  obtain ⟨⟨demand, unread, leaves⟩, -, h⟩ := bind_eq_ok.mp h
  obtain ⟨-, h⟩ := guard_eq_ok.mp h
  obtain ⟨re, hre, h⟩ := bind_eq_ok.mp h
  obtain ⟨heq, hpure⟩ := guard_eq_ok.mp h
  cases hpure
  rw [hre, Decidable.not_not.mp heq]

/-- **The codec is a bijection** between demands up to the order of children and nesting
of one kind and the byte strings that decode.  Every demand that encodes is read back as
an equivalent one, of the same bytes; a demand has the bytes of one that encodes exactly
when it is equivalent to it; and what decodes has the bytes it was decoded from. -/
theorem codec_bijective :
    (∀ (d : AuthorizationDemand) (b : Bytes), d.Utf8 → d.encodeCanonical = .ok b →
      ∃ d', decodeCanonical b = .ok d' ∧ d'.encodeCanonical = .ok b ∧
        Equivalent d.tree d'.tree) ∧
    (∀ (d d' : AuthorizationDemand) (b : Bytes), d.Utf8 → d'.Utf8 → d.encodeCanonical = .ok b →
      (d'.encodeCanonical = .ok b ↔ Equivalent d.tree d'.tree)) ∧
    ∀ (b : Bytes) (d : AuthorizationDemand), decodeCanonical b = .ok d →
      d.encodeCanonical = .ok b := by
  refine ⟨fun d b => decodeCanonical_of_encodeCanonical, fun d d' b hutf8 hutf8' h => ?_,
    fun b d => encodeCanonical_of_decodeCanonical⟩
  constructor
  · intro h'
    obtain ⟨read, hread, -, hequiv⟩ := decodeCanonical_of_encodeCanonical hutf8 h
    obtain ⟨read', hread', -, hequiv'⟩ := decodeCanonical_of_encodeCanonical hutf8' h'
    obtain rfl : read = read' := Except.ok.inj (hread.symm.trans hread')
    exact hequiv.trans hequiv'.symm
  · intro hequiv
    obtain ⟨hbytes, hcount, hlen⟩ := encodeCanonical_eq_ok_iff.mp h
    exact encodeCanonical_eq_ok_iff.mpr
      ⟨encodeTree_congr hequiv _ ▸ hbytes, hequiv.leafCount_eq ▸ hcount, hlen⟩

/-- To read and to write, said in one order and in the other inside a further `All`: one
policy, one byte string. -/
theorem two_spellings_encode_alike :
    let read := require ⟨Bytes.ofString "app", Bytes.ofString "read"⟩ (Resource.root (Bytes.ofString "app"))
    let write := require ⟨Bytes.ofString "app", Bytes.ofString "write"⟩
      ⟨Bytes.ofString "app", [Bytes.ofString "prj"]⟩
    ∃ b, (all [read, write]).encodeCanonical = .ok b ∧
      (∃ d', decodeCanonical b = .ok d' ∧ d'.encodeCanonical = .ok b ∧
        Equivalent (all [read, write]).tree d'.tree) ∧
      (all [write, all [read]]).encodeCanonical = .ok b := by
  intro read write
  have hutf8 : (all [read, write]).Utf8 := by
    refine ⟨?_, ?_, trivial⟩
    · exact fun s hs => absurd hs List.not_mem_nil
    · intro s hs
      rw [List.mem_singleton.mp hs]
      decide
  have hutf8' : (all [write, all [read]]).Utf8 := ⟨hutf8.2.1, ⟨hutf8.1, trivial⟩, trivial⟩
  have hdissolve : Equivalent (AllAny.node true ([write.tree] ++ AllAny.node true [read.tree] :: []))
      (AllAny.node true ([write.tree] ++ [read.tree] ++ [])) := .dissolve
  have hequiv : Equivalent (all [read, write]).tree (all [write, all [read]]).tree :=
    (Equivalent.reorder (List.Perm.swap _ _ _)).trans hdissolve.symm
  have hbytes : ∃ b, encodeTree MAX_DEMAND_DEPTH (all [read, write]).tree = some b ∧
      b.length ≤ MAX_DEMAND_BYTES :=
    ⟨_, rfl, by decide⟩
  obtain ⟨b, hb, hlen⟩ := hbytes
  have hencode : (all [read, write]).encodeCanonical = .ok b :=
    encodeCanonical_eq_ok_iff.mpr ⟨hb, by decide, hlen⟩
  obtain ⟨d', hd', -, hequiv'⟩ := codec_bijective.1 _ b hutf8 hencode
  exact ⟨b, hencode, ⟨d', hd', codec_bijective.2.2 b d' hd', hequiv'⟩,
    (codec_bijective.2.1 _ _ b hutf8 hutf8' hencode).mpr hequiv⟩

end AuthorizationDemand

end Demand

end Lait
