import Lait.Host
import Lait.Ids
import Lait.Graph.KahnRun

/-!
# The signed hash-DAG envelope

One node is one signed op: ed25519 by `author` over
`blake3(domain ‖ op ‖ author ‖ sorted(parents) ‖ space)`.  Its content address,
`SignedNode.hash`, is `blake3(op ‖ author ‖ sorted(parents))`: domain- and
space-free, and free of the signature.

Two functions read the graph the hashes span, and every replay starts from
them:

* `computeAncestors` — a depth-first search per node, which is
  `ParentGraph.ancestors`; `has_computeAncestors` says it finds exactly the
  present ancestors.
* `topoOrder` — Kahn's algorithm over in-degrees and a sorted ready set, with
  the leftovers of a parent cycle appended in hash order.  On an acyclic graph
  there are none, and the loop is `ParentGraph.KahnRun` (`topoOrder_kahnRun`),
  so its order is a function of the node set.
-/

namespace Lait

/-- A signed op with its causal parents. -/
structure SignedNode where
  op : Bytes
  author : DeviceId
  sig : Bytes
  parents : List Text
  deriving DecidableEq

namespace SignedNode

variable [Crypto]

/-- The content address of a node: `op ‖ author ‖ sorted(parents)`, hashed and
spelled in hexadecimal. -/
def hash (n : SignedNode) : Text :=
  Bytes.hexEncode (Crypto.blake3
    (Bytes.join (n.op :: n.author.asStr :: Bytes.sort n.parents)))

end SignedNode

/-- The canonical bytes a node's signature covers. -/
def signingPayload [Crypto] (domain op : Bytes) (author : DeviceId) (parents : List Text)
    (spaceId : Text) : Bytes :=
  Crypto.blake3 (Bytes.join (domain :: op :: author.asStr :: (Bytes.sort parents ++ [spaceId])))

/-- Verify the signature under `domain` for `space_id`. -/
def SignedNode.verifySig [Crypto] (n : SignedNode) (domain : Bytes) (spaceId : Text) : Bool :=
  match Bytes.hex32 n.author.asStr with
  | none => false
  | some pkBytes =>
      Crypto.verifyingKey pkBytes && Crypto.signature n.sig &&
        Crypto.verifyStrict pkBytes
          (signingPayload domain n.op n.author n.parents spaceId) n.sig

/-- Sign canonical op bytes with the author's seed. -/
def signNode [Crypto] (domain seed opBytes : Bytes) (parents : List Text) (spaceId : Text) :
    SignedNode :=
  let author := DeviceId.fromKeyBytes (Crypto.publicKey seed)
  { op := opBytes
    author
    sig := Crypto.sign seed (signingPayload domain opBytes author parents spaceId)
    parents }

/-- The nodes of one plane, by content address. -/
abbrev Nodes := BTreeMap Text SignedNode

/-- The nodes of a list that pass a test, by content address. -/
def indexWhere [Crypto] (keep : SignedNode → Bool) (l : List SignedNode) : Nodes :=
  l.foldl (fun nodes so => if keep so then nodes.insert so.hash so else nodes) ∅

/-- The signature-valid nodes of a list.  Every replay of a plane starts with
this loop. -/
def indexVerified [Crypto] (domain : Bytes) (spaceId : Text) (l : List SignedNode) : Nodes :=
  indexWhere (fun so => so.verifySig domain spaceId) l

/-- Ancestor sets, by content address. -/
abbrev Ancestors := BTreeMap Text (Finset Text)

/-- `ancestors.get(h).is_some_and(|anc| anc.contains(a))`. -/
def Ancestors.has (ancestors : Ancestors) (h a : Text) : Bool :=
  match ancestors[h]? with
  | some anc => a ∈ anc
  | none => false

namespace Nodes

/-- The parents a present node names; none for an absent one. -/
def parentsOf (nodes : Nodes) (h : Text) : List Text :=
  match nodes[h]? with
  | some node => node.parents
  | none => []

/-- The parent graph the nodes span. -/
def graph (nodes : Nodes) : ParentGraph Text where
  nodes := nodes.keys.toFinset
  parents := nodes.parentsOf

theorem mem_graph {nodes : Nodes} {h : Text} :
    h ∈ nodes.graph.nodes ↔ ∃ node, nodes[h]? = some node := by
  rw [graph, List.mem_toFinset, BTreeMap.mem_keys_iff]

theorem mem_graph_iff_contains {nodes : Nodes} {h : Text} :
    h ∈ nodes.graph.nodes ↔ nodes.contains h = true := by
  rw [mem_graph, BTreeMap.contains_iff]

/-- The decoded op of a present node.  The source keeps a map `decoded` beside
`nodes`, written under the same key each time; it is this function of `nodes`. -/
def opOf {α : Type} [Postcard α] (nodes : Nodes) (h : Text) : Option α :=
  nodes[h]?.bind fun so => Postcard.fromBytes so.op

theorem parentsOf_eq {nodes : Nodes} {h : Text} {node : SignedNode}
    (hnode : nodes[h]? = some node) : nodes.graph.parents h = node.parents := by
  simp [graph, parentsOf, hnode]

end Nodes

/-- An indexed node was in the list, passed, and stands under its own hash. -/
theorem get_indexWhere [Crypto] {keep : SignedNode → Bool} {l : List SignedNode} {h : Text}
    {so : SignedNode} (hget : (indexWhere keep l)[h]? = some so) :
    so ∈ l ∧ keep so = true ∧ so.hash = h := by
  induction l using List.reverseRecOn with
  | nil => simp [indexWhere] at hget
  | append_singleton l n ih =>
      rw [indexWhere, List.foldl_append, List.foldl_cons, List.foldl_nil, ← indexWhere] at hget
      split at hget
      next hkeep =>
        rw [BTreeMap.get_insert] at hget
        split at hget
        next hh =>
          obtain rfl := Option.some.inj hget
          exact ⟨by simp, hkeep, hh⟩
        next =>
          obtain ⟨hmem, hrest⟩ := ih hget
          exact ⟨List.mem_append_left _ hmem, hrest⟩
      next =>
        obtain ⟨hmem, hrest⟩ := ih hget
        exact ⟨List.mem_append_left _ hmem, hrest⟩

/-- The hash of every node that passes is indexed. -/
theorem exists_indexWhere [Crypto] {keep : SignedNode → Bool} {l : List SignedNode}
    {so : SignedNode} (hmem : so ∈ l) (hkeep : keep so = true) :
    ∃ so', (indexWhere keep l)[so.hash]? = some so' := by
  induction l using List.reverseRecOn with
  | nil => simp at hmem
  | append_singleton l n ih =>
      rw [indexWhere, List.foldl_append, List.foldl_cons, List.foldl_nil, ← indexWhere]
      by_cases hn : n.hash = so.hash ∧ keep n = true
      · rw [if_pos hn.2, BTreeMap.get_insert, if_pos hn.1]
        exact ⟨n, rfl⟩
      · have hl : so ∈ l := by
          rcases List.mem_append.mp hmem with hl | hl
          · exact hl
          · rw [List.mem_singleton] at hl
            subst hl
            exact absurd ⟨rfl, hkeep⟩ hn
        obtain ⟨so', hso'⟩ := ih hl
        split
        next hkeep' =>
          rw [BTreeMap.get_insert, if_neg fun hh => hn ⟨hh, hkeep'⟩]
          exact ⟨so', hso'⟩
        next => exact ⟨so', hso'⟩

/-- What stands under a hash depends on how the nodes of that hash fare. -/
theorem indexWhere_congr [Crypto] {keep keep' : SignedNode → Bool} {l : List SignedNode}
    {h : Text} (hkeep : ∀ so ∈ l, so.hash = h → keep so = keep' so) :
    (indexWhere keep l)[h]? = (indexWhere keep' l)[h]? := by
  have hturn : ∀ (test : SignedNode → Bool) (nodes : Nodes) (n : SignedNode),
      (if test n then nodes.insert n.hash n else nodes)[h]? =
        if n.hash = h ∧ test n = true then some n else nodes[h]? := by
    intro test nodes n
    by_cases htest : test n = true
    · simp [htest, BTreeMap.get_insert]
    · simp [htest]
  induction l using List.reverseRecOn with
  | nil => rfl
  | append_singleton l n ih =>
      rw [indexWhere, indexWhere, List.foldl_append, List.foldl_append, List.foldl_cons,
        List.foldl_cons, List.foldl_nil, List.foldl_nil, ← indexWhere, ← indexWhere, hturn, hturn,
        ih fun so hso => hkeep so (List.mem_append_left _ hso)]
      by_cases hn : n.hash = h
      · rw [hkeep n (by simp) hn]
      · simp [hn]

theorem get_indexVerified [Crypto] {domain : Bytes} {spaceId : Text} {l : List SignedNode}
    {h : Text} {so : SignedNode} (hget : (indexVerified domain spaceId l)[h]? = some so) :
    so ∈ l ∧ so.verifySig domain spaceId = true ∧ so.hash = h := get_indexWhere hget

theorem exists_indexVerified [Crypto] {domain : Bytes} {spaceId : Text} {l : List SignedNode}
    {so : SignedNode} (hmem : so ∈ l) (hverify : so.verifySig domain spaceId = true) :
    ∃ so', (indexVerified domain spaceId l)[so.hash]? = some so' :=
  exists_indexWhere hmem (show (fun so => so.verifySig domain spaceId) so = true from hverify)

/-- What a replay reads of a node: all but the signature, and the parents up to
order. -/
def SignedNode.content (n : SignedNode) : Bytes × DeviceId × List Text :=
  (n.op, n.author, Bytes.sort n.parents)

theorem SignedNode.op_of_content {n n' : SignedNode} (h : n.content = n'.content) :
    n.op = n'.op := (Prod.mk.inj h).1

theorem SignedNode.author_of_content {n n' : SignedNode} (h : n.content = n'.content) :
    n.author = n'.author := (Prod.mk.inj (Prod.mk.inj h).2).1

theorem SignedNode.mem_parents_of_content {n n' : SignedNode} (h : n.content = n'.content)
    {p : Text} : p ∈ n.parents ↔ p ∈ n'.parents := by
  rw [← Bytes.mem_sort, (Prod.mk.inj (Prod.mk.inj h).2).2, Bytes.mem_sort]

/-- Equal hashes come with equal contents. -/
def ContentPerHash [Crypto] (l : List SignedNode) : Prop :=
  ∀ so ∈ l, ∀ so' ∈ l, so.hash = so'.hash → so.content = so'.content

instance [Crypto] (l : List SignedNode) : Decidable (ContentPerHash l) :=
  inferInstanceAs (Decidable (∀ so ∈ l, ∀ so' ∈ l, _))

/-- Where two maps hold alike what a replay reads. -/
def Nodes.SameAt (nodes nodes' : Nodes) (h : Text) : Prop :=
  nodes[h]?.map SignedNode.content = nodes'[h]?.map SignedNode.content

theorem Nodes.sameAt_of_eq {nodes nodes' : Nodes} {h : Text} (heq : nodes[h]? = nodes'[h]?) :
    nodes.SameAt nodes' h := congrArg (Option.map SignedNode.content) heq

theorem Nodes.SameAt.present_iff {nodes nodes' : Nodes} {h : Text}
    (hsame : nodes.SameAt nodes' h) : h ∈ nodes.graph.nodes ↔ h ∈ nodes'.graph.nodes := by
  rw [Nodes.mem_graph, Nodes.mem_graph]
  rw [Nodes.SameAt] at hsame
  cases hn : nodes[h]? <;> cases hn' : nodes'[h]? <;> simp [hn, hn'] at hsame ⊢

theorem Nodes.SameAt.parents_iff {nodes nodes' : Nodes} {h : Text}
    (hsame : nodes.SameAt nodes' h) {p : Text} :
    p ∈ nodes.graph.parents h ↔ p ∈ nodes'.graph.parents h := by
  show p ∈ nodes.parentsOf h ↔ p ∈ nodes'.parentsOf h
  rw [Nodes.SameAt] at hsame
  cases hn : nodes[h]? <;> cases hn' : nodes'[h]? <;> simp only [hn, hn', Option.map_some,
    Option.map_none, Option.some.injEq, reduceCtorEq] at hsame
  · simp [Nodes.parentsOf, hn, hn']
  · simpa [Nodes.parentsOf, hn, hn'] using SignedNode.mem_parents_of_content hsame

/-- Two maps hold a hash alike when both hold it or neither does, with equal
contents. -/
theorem Nodes.sameAt_of {nodes nodes' : Nodes} {h : Text}
    (hpresent : h ∈ nodes.graph.nodes ↔ h ∈ nodes'.graph.nodes)
    (hcontent : ∀ so so', nodes[h]? = some so → nodes'[h]? = some so' →
      so.content = so'.content) : nodes.SameAt nodes' h := by
  rw [Nodes.mem_graph, Nodes.mem_graph] at hpresent
  rw [Nodes.SameAt]
  cases hn : nodes[h]? <;> cases hn' : nodes'[h]? <;> simp [hn, hn'] at hpresent ⊢
  exact hcontent _ _ hn hn'

theorem Nodes.SameAt.opOf_eq {α : Type} [Postcard α] {nodes nodes' : Nodes} {h : Text}
    (hsame : nodes.SameAt nodes' h) : nodes.opOf (α := α) h = nodes'.opOf h := by
  rw [Nodes.SameAt] at hsame
  rw [Nodes.opOf, Nodes.opOf]
  cases hn : nodes[h]? <;> cases hn' : nodes'[h]? <;> simp only [hn, hn', Option.map_some,
    Option.map_none, Option.some.injEq, reduceCtorEq] at hsame
  · rfl
  · rw [Option.bind_some, Option.bind_some, SignedNode.op_of_content hsame]

/-- Transitive causal ancestors of each node, over present parents only. -/
def computeAncestors (nodes : Nodes) : Ancestors :=
  nodes.map fun h _ => nodes.graph.ancestors h

/-- `compute_ancestors` finds exactly the present ancestors of a present
node. -/
theorem has_computeAncestors {nodes : Nodes} {h a : Text} :
    (computeAncestors nodes).has h a = true ↔ nodes.graph.Ancestor a h := by
  have hget : (computeAncestors nodes)[h]? =
      nodes[h]?.map fun _ => nodes.graph.ancestors h := by
    rw [computeAncestors, Std.ExtTreeMap.getElem?_map]
  rw [Ancestors.has, hget]
  cases hnode : nodes[h]? with
  | none =>
      simp only [Option.map_none, Bool.false_eq_true, false_iff]
      intro ha
      obtain ⟨node, hsome⟩ := Nodes.mem_graph.mp ha.mem_right
      rw [hnode] at hsome
      cases hsome
  | some node =>
      simp only [Option.map_some, decide_eq_true_eq]
      exact ParentGraph.mem_ancestors (Nodes.mem_graph.mpr ⟨node, hnode⟩)

/-- Acyclicity, as a check on the present nodes. -/
theorem Nodes.acyclic_iff {nodes : Nodes} :
    nodes.graph.Acyclic ↔ ∀ h ∈ nodes.keys, (computeAncestors nodes).has h h = false := by
  simp only [← Bool.not_eq_true, has_computeAncestors]
  refine ⟨fun hacyc h _ => hacyc h, fun hall h hh => ?_⟩
  exact hall h (List.mem_toFinset.mp hh.mem_left) hh

instance (nodes : Nodes) : Decidable nodes.graph.Acyclic :=
  decidable_of_iff _ Nodes.acyclic_iff.symm

/-- Maps that hold everything alike have the same ancestor sets. -/
theorem computeAncestors_congr {nodes nodes' : Nodes} (hsame : ∀ h, nodes.SameAt nodes' h) :
    computeAncestors nodes = computeAncestors nodes' := by
  have hnodes : nodes.graph.nodes = nodes'.graph.nodes :=
    Finset.ext fun h => (hsame h).present_iff
  refine BTreeMap.ext fun h => ?_
  rw [computeAncestors, computeAncestors, Std.ExtTreeMap.getElem?_map,
    Std.ExtTreeMap.getElem?_map]
  have hpresent := (hsame h).present_iff
  rw [Nodes.mem_graph, Nodes.mem_graph] at hpresent
  cases hn : nodes[h]? with
  | none =>
      cases hn' : nodes'[h]? with
      | none => rfl
      | some so' =>
          obtain ⟨so, hso⟩ := hpresent.mpr ⟨so', hn'⟩
          rw [hn] at hso
          cases hso
  | some so =>
      obtain ⟨so', hn'⟩ := hpresent.mp ⟨so, hn⟩
      rw [hn', Option.map_some, Option.map_some]
      congr 1
      refine Finset.ext fun a => ?_
      rw [ParentGraph.mem_ancestors (Nodes.mem_graph.mpr ⟨so, hn⟩),
        ParentGraph.mem_ancestors (Nodes.mem_graph.mpr ⟨so', hn'⟩)]
      exact ParentGraph.ancestor_congr hnodes fun k _ p => (hsame k).parents_iff

/-! ## A hash graph has no cycles -/

/-- BLAKE3 admits no cycle of verified nodes: a node's address is made from the
addresses of its parents. -/
def HashesAcyclic [Crypto] : Prop :=
  ∀ (domain : Bytes) (spaceId : Text) (l : List SignedNode),
    (indexVerified domain spaceId l).graph.Acyclic

/-- A verified node is authored by a key of 64 digits. -/
theorem SignedNode.length_author [Crypto] {n : SignedNode} {domain : Bytes} {spaceId : Text}
    (hverify : n.verifySig domain spaceId = true) : n.author.asStr.length = 64 := by
  rw [verifySig, Bytes.hex32] at hverify
  split at hverify
  next => cases hverify
  next hhex =>
    split at hhex
    next hlen => exact hlen.1
    next => cases hhex

/-- Under the ideal hash a node's address is longer than its parents'. -/
theorem idealCrypto_hashesAcyclic : @HashesAcyclic idealCrypto := by
  let _ := idealCrypto
  intro domain spaceId l h hcycle
  have hedge : ∀ p k, (indexVerified domain spaceId l).graph.Edge p k →
      Bytes.length p < Bytes.length k := by
    rintro p k ⟨-, hk, hp⟩
    obtain ⟨so, hso⟩ := Nodes.mem_graph.mp hk
    obtain ⟨-, hverify, rfl⟩ := get_indexVerified hso
    rw [Nodes.parentsOf_eq hso] at hp
    have hlen := SignedNode.length_author hverify
    have hjoin := Bytes.length_le_join (Bytes.mem_sort.mpr hp)
    have hhash : (SignedNode.hash so).length =
        2 * (so.op.length + (so.author.asStr.length +
          (Bytes.join (Bytes.sort so.parents)).length)) := by
      rw [SignedNode.hash, Bytes.length_hexEncode, Bytes.join_cons, Bytes.join_cons]
      show 2 * (so.op ++ (so.author.asStr ++ Bytes.join (Bytes.sort so.parents))).length = _
      rw [Bytes.length_append, Bytes.length_append]
    omega
  have hlt : ∀ a, Relation.TransGen (indexVerified domain spaceId l).graph.Edge a h →
      Bytes.length a < Bytes.length h := by
    intro a ha
    induction ha using Relation.TransGen.head_induction_on with
    | single he => exact hedge _ _ he
    | head he _ ih => exact (hedge _ _ he).trans ih
  exact lt_irrefl _ (hlt h hcycle)

/-! ## The topological order -/

/-- How many of a node's listed parents are present: one count per listing. -/
def indegrees (nodes : Nodes) : BTreeMap Text ℕ :=
  nodes.map fun _ node => (node.parents.filter fun p => nodes.contains p).length

/-- The nodes that list `p` as a parent, once per listing. -/
def childrenOf (nodes : Nodes) (p : Text) : List Text :=
  nodes.toList.flatMap fun entry => (entry.2.parents.filter (· = p)).map fun _ => entry.1

/-- `*degree -= 1`, and the child is ready when it reaches zero. -/
def releaseChild (state : Finset Text × BTreeMap Text ℕ) (c : Text) :
    Finset Text × BTreeMap Text ℕ :=
  match state.2[c]? with
  | some degree =>
      let degree := degree - 1
      (if degree = 0 then insert c state.1 else state.1, state.2.insert c degree)
  | none => state

/-- `while let Some(h) = ready.iter().next()`: emit the smallest ready node and
release its children.  Each turn emits one node, so the node count is fuel
enough. -/
def kahnLoop (nodes : Nodes) : ℕ → Finset Text → BTreeMap Text ℕ → List Text
  | 0, _, _ => []
  | fuel + 1, ready, indeg =>
      match ready.min with
      | ⊤ => []
      | (h : Text) =>
          let next := (Bytes.sort (childrenOf nodes h)).foldl releaseChild (ready.erase h, indeg)
          h :: kahnLoop nodes fuel next.1 next.2

/-- Deterministic topological order (Kahn) over the present-parent DAG; parent
cycle remnants append in hash order. -/
def topoOrder (nodes : Nodes) : List Text :=
  let indeg := indegrees nodes
  let ready := (indeg.keys.filter fun h => indeg[h]? = some 0).toFinset
  let order := kahnLoop nodes nodes.size ready indeg
  order ++ Bytes.sort (nodes.keys.filter fun h => h ∉ order)

/-! ### The loop is a Kahn run

The invariant of the loop has two halves.  `indeg` counts, for every node, its
listings of present parents not yet emitted; `ready` holds exactly the nodes
whose count is zero and which are not yet emitted. -/

/-- A node's listings of present parents outside `done`. -/
def Nodes.waiting (nodes : Nodes) (done : Finset Text) (h : Text) : ℕ :=
  (nodes.parentsOf h).countP fun p => nodes.contains p && decide (p ∉ done)

namespace Nodes

theorem ready_iff {nodes : Nodes} {done : Finset Text} {h : Text} :
    nodes.graph.Ready done h ↔
      (∃ node, nodes[h]? = some node) ∧ h ∉ done ∧ nodes.waiting done h = 0 := by
  simp only [ParentGraph.Ready, waiting, List.countP_eq_zero, Bool.and_eq_true,
    decide_eq_true_eq, not_and, not_not, ← mem_graph_iff_contains, ← mem_graph]
  rfl

/-- Emitting `h` takes its listings off every count. -/
theorem waiting_insert {nodes : Nodes} {done : Finset Text} {h : Text}
    (hh : nodes.contains h = true) (hnew : h ∉ done) (c : Text) :
    nodes.waiting (insert h done) c + (nodes.parentsOf c).count h = nodes.waiting done c := by
  simp only [waiting]
  induction nodes.parentsOf c with
  | nil => rfl
  | cons p ps ih =>
      simp only [List.countP_cons, List.count_cons, Finset.mem_insert, not_or]
      by_cases hp : p = h
      · subst hp
        simp only [not_true_eq_false, false_and, decide_false, Bool.and_false, if_false, hh,
          hnew, not_false_eq_true, decide_true, Bool.and_true, beq_self_eq_true, if_true,
          Finset.mem_insert, not_or, Bool.false_eq_true] at ih ⊢
        omega
      · have hbeq : (p == h) = false := by simpa using hp
        simp only [hp, hbeq, not_false_eq_true, true_and, Bool.false_eq_true, if_false,
          Finset.mem_insert, not_or] at ih ⊢
        omega

theorem getElem?_indegrees {nodes : Nodes} (h : Text) :
    (indegrees nodes)[h]? = nodes[h]?.map fun _ => nodes.waiting ∅ h := by
  rw [indegrees, Std.ExtTreeMap.getElem?_map]
  cases hnode : nodes[h]? with
  | none => rfl
  | some node => simp [waiting, parentsOf, hnode, List.countP_eq_length_filter]

/-- A node appears among the children of `p` once per listing of `p`. -/
theorem count_childrenOf {nodes : Nodes} {p c : Text} :
    (childrenOf nodes p).count c = (nodes.parentsOf c).count p := by
  have hone : ∀ entry : Text × SignedNode,
      ((entry.2.parents.filter (· = p)).map fun _ => entry.1).count c =
        if entry.1 = c then entry.2.parents.count p else 0 := by
    intro entry
    rw [List.map_const', List.count_replicate, List.count_eq_countP,
      List.countP_eq_length_filter]
    by_cases hc : entry.1 = c <;> simp [hc, BEq.beq]
  rw [childrenOf, List.count_flatMap]
  have hsum : (List.map (List.count c ∘ fun entry : Text × SignedNode =>
      (entry.2.parents.filter (· = p)).map fun _ => entry.1) nodes.toList).sum =
      (nodes.toList.map fun entry =>
        if entry.1 = c then entry.2.parents.count p else 0).sum := by
    congr 1
    exact List.map_congr_left fun entry _ => hone entry
  rw [hsum]
  cases hnode : nodes[c]? with
  | none =>
      have hzero : ∀ entry ∈ nodes.toList,
          (if entry.1 = c then entry.2.parents.count p else 0) = 0 := by
        intro entry hentry
        refine if_neg fun hc => ?_
        have := BTreeMap.mem_toList_iff.mp hentry
        rw [hc, hnode] at this
        cases this
      rw [List.map_congr_left hzero]
      simp [parentsOf, hnode]
  | some node =>
      have hmem : (c, node) ∈ nodes.toList := BTreeMap.mem_toList_iff.mpr hnode
      have hnd : nodes.toList.Nodup :=
        (nodes.distinct_keys_toList.imp fun hne heq => hne (by simp [heq]))
      have hother : ∀ entry, entry ≠ (c, node) → entry ∈ nodes.toList →
          (if entry.1 = c then entry.2.parents.count p else 0) = 0 := by
        intro entry hne hentry
        refine if_neg fun hc => hne ?_
        have := BTreeMap.mem_toList_iff.mp hentry
        rw [hc, hnode] at this
        exact Prod.ext hc (Option.some.inj this).symm
      rw [List.sum_map_eq_nsmul_single (c, node) _ hother,
        @List.count_eq_one_of_mem _ instBEqOfDecidableEq _ _ _ hnd hmem]
      simp [parentsOf, hnode]

end Nodes

/-- Releasing a list of children takes each one's count down by its number of
occurrences, and readies the ones that reach zero. -/
theorem foldl_releaseChild (cs : List Text) (ready : Finset Text) (indeg : BTreeMap Text ℕ) :
    (∀ c : Text, (cs.foldl releaseChild (ready, indeg)).2[c]? =
      indeg[c]?.map fun degree => degree - cs.count c) ∧
    ∀ c : Text, c ∈ (cs.foldl releaseChild (ready, indeg)).1 ↔
      c ∈ ready ∨ c ∈ cs ∧ ∃ degree, indeg[c]? = some degree ∧ degree ≤ cs.count c := by
  induction cs generalizing ready indeg with
  | nil => simp
  | cons k cs ih =>
      rw [List.foldl_cons]
      cases hk : indeg[k]? with
      | none =>
          have hstep : releaseChild (ready, indeg) k = (ready, indeg) := by
            simp [releaseChild, hk]
          rw [hstep]
          refine ⟨fun c => ?_, fun c => ?_⟩
          · rw [(ih ready indeg).1]
            by_cases hkc : k = c
            · subst hkc
              simp [hk]
            · rw [List.count_cons_of_ne hkc]
          · rw [(ih ready indeg).2]
            by_cases hkc : k = c
            · subst hkc
              simp [hk]
            · rw [List.count_cons_of_ne hkc, List.mem_cons]
              simp [Ne.symm hkc]
      | some degree =>
          have hstep : releaseChild (ready, indeg) k =
              (if degree - 1 = 0 then insert k ready else ready, indeg.insert k (degree - 1)) := by
            simp [releaseChild, hk]
          rw [hstep]
          refine ⟨fun c => ?_, fun c => ?_⟩
          · rw [(ih _ _).1, BTreeMap.get_insert]
            by_cases hkc : k = c
            · subst hkc
              rw [if_pos rfl, hk, List.count_cons_self]
              simp only [Option.map_some, Option.some.injEq]
              omega
            · rw [if_neg hkc, List.count_cons_of_ne hkc]
          · rw [(ih _ _).2, BTreeMap.get_insert]
            by_cases hkc : k = c
            · subst hkc
              rw [if_pos rfl, hk, List.count_cons_self]
              simp only [Option.some.injEq, exists_eq_left', List.mem_cons, true_or, true_and]
              have hcount : k ∈ cs ↔ 0 < cs.count k := List.count_pos_iff.symm
              by_cases hzero : degree - 1 = 0
              · simp only [hzero, if_true, Finset.mem_insert, true_or, true_iff]
                exact Or.inr (by omega)
              · simp only [hzero, if_false]
                rw [hcount]
                constructor
                · rintro (hr | ⟨-, hle⟩)
                  · exact Or.inl hr
                  · exact Or.inr (by omega)
                · rintro (hr | hle)
                  · exact Or.inl hr
                  · exact Or.inr (by omega)
            · rw [if_neg hkc, List.count_cons_of_ne hkc]
              have hmem : c ∈ (if degree - 1 = 0 then insert k ready else ready) ↔ c ∈ ready := by
                split <;> simp [Ne.symm hkc]
              rw [hmem, List.mem_cons]
              simp [Ne.symm hkc]

/-- The invariant of `kahnLoop`. -/
structure KahnInv (nodes : Nodes) (done ready : Finset Text) (indeg : BTreeMap Text ℕ) :
    Prop where
  closed : nodes.graph.ParentClosed done
  indeg : ∀ h : Text, indeg[h]? = nodes[h]?.map fun _ => nodes.waiting done h
  ready : ∀ h, h ∈ ready ↔ nodes.graph.Ready done h

/-- One turn of the loop keeps the invariant. -/
theorem KahnInv.emit {nodes : Nodes} {done ready : Finset Text} {indeg : BTreeMap Text ℕ}
    (hinv : KahnInv nodes done ready indeg) {h : Text} (hh : h ∈ ready) :
    let next := (Bytes.sort (childrenOf nodes h)).foldl releaseChild (ready.erase h, indeg)
    KahnInv nodes (insert h done) next.1 next.2 := by
  obtain ⟨hnode, hnew, hpar⟩ := (hinv.ready h).mp hh
  have hcontains := Nodes.mem_graph_iff_contains.mp hnode
  obtain ⟨hdeg, hready⟩ := foldl_releaseChild (Bytes.sort (childrenOf nodes h))
    (ready.erase h) indeg
  have hcount : ∀ c, (Bytes.sort (childrenOf nodes h)).count c = (nodes.parentsOf c).count h :=
    fun c => ((Bytes.sort_perm _).count_eq c).trans Nodes.count_childrenOf
  have hwait := Nodes.waiting_insert hcontains hnew
  refine ⟨fun c hc p he => ?_, fun c => ?_, fun c => ?_⟩
  · rcases Finset.mem_insert.mp hc with rfl | hc
    · exact Finset.mem_insert_of_mem (hpar p he.2.2 he.1)
    · exact Finset.mem_insert_of_mem (hinv.closed c hc p he)
  · rw [hdeg, hinv.indeg, hcount]
    cases nodes[c]? with
    | none => rfl
    | some node =>
        rw [Option.map_some, Option.map_some, Option.map_some, ← hwait c, Nat.add_sub_cancel]
  · have hc := hwait c
    rw [hready, hinv.indeg, ← List.count_pos_iff, hcount, Finset.mem_erase, hinv.ready,
      Nodes.ready_iff, Nodes.ready_iff, Finset.mem_insert, not_or]
    constructor
    · rintro (⟨hne, hcn, hcd, hzero⟩ | ⟨hpos, degree, hsome, hle⟩)
      · exact ⟨hcn, ⟨hne, hcd⟩, Nat.eq_zero_of_add_eq_zero_right (hc.trans hzero)⟩
      · obtain ⟨node, hcnode, rfl⟩ := Option.map_eq_some_iff.mp hsome
        have hcn := Nodes.mem_graph.mpr ⟨node, hcnode⟩
        have hhc : h ∈ nodes.graph.parents c := List.count_pos_iff.mp hpos
        -- A node that still waits for `h` is neither `h` nor emitted.
        refine ⟨⟨node, hcnode⟩,
          ⟨?_, fun hcd => hnew (hinv.closed c hcd h ⟨hnode, hcn, hhc⟩)⟩, by omega⟩
        rintro rfl
        exact hnew (hpar c hhc hnode)
    · rintro ⟨⟨node, hcnode⟩, ⟨hne, hcd⟩, hzero⟩
      by_cases hpos : 0 < (nodes.parentsOf c).count h
      · refine Or.inr ⟨hpos, nodes.waiting done c, by rw [hcnode, Option.map_some], by omega⟩
      · exact Or.inl ⟨hne, ⟨node, hcnode⟩, hcd, by omega⟩

/-- With fuel for every node not yet emitted, the loop is a Kahn run. -/
theorem kahnLoop_kahnRun {nodes : Nodes} (fuel : ℕ) {done ready : Finset Text}
    {indeg : BTreeMap Text ℕ} (hinv : KahnInv nodes done ready indeg)
    (hfuel : (nodes.graph.nodes \ done).card ≤ fuel) :
    nodes.graph.KahnRun done (kahnLoop nodes fuel ready indeg) := by
  induction fuel generalizing done ready indeg with
  | zero =>
      refine .stuck fun h hr => ?_
      have hempty := Finset.card_eq_zero.mp (Nat.le_zero.mp hfuel)
      have hmem := Finset.mem_sdiff.mpr ⟨hr.1, hr.2.1⟩
      rw [hempty] at hmem
      exact Finset.notMem_empty _ hmem
  | succ fuel ih =>
      rw [kahnLoop]
      cases hmin : ready.min with
      | top =>
          refine .stuck fun h hr => ?_
          have := (hinv.ready h).mpr hr
          rw [Finset.min_eq_top.mp hmin] at this
          exact Finset.notMem_empty _ this
      | coe h =>
          have hh : h ∈ ready := Finset.mem_of_min hmin
          have hr := (hinv.ready h).mp hh
          refine .emit hr (fun k hk => ?_) (ih (hinv.emit hh) ?_)
          · have hle := Finset.min_le ((hinv.ready k).mpr hk)
            rw [hmin] at hle
            exact WithTop.coe_le_coe.mp hle
          · have hmem := Finset.mem_sdiff.mpr ⟨hr.1, hr.2.1⟩
            rw [Finset.sdiff_insert, Finset.card_erase_of_mem hmem]
            omega

/-- The emitted part of `topoOrder`. -/
def kahnOrder (nodes : Nodes) : List Text :=
  kahnLoop nodes nodes.size
    ((indegrees nodes).keys.filter fun h => (indegrees nodes)[h]? = some 0).toFinset
    (indegrees nodes)

/-- **The loop of `topo_order` is the Kahn run of the parent graph.** -/
theorem kahnOrder_kahnRun (nodes : Nodes) : nodes.graph.KahnRun ∅ (kahnOrder nodes) := by
  refine kahnLoop_kahnRun _ ⟨fun h hh => absurd hh (Finset.notMem_empty h),
    Nodes.getElem?_indegrees, fun h => ?_⟩ ?_
  · rw [List.mem_toFinset, List.mem_filter, BTreeMap.mem_keys_iff, decide_eq_true_eq,
      Nodes.getElem?_indegrees, Nodes.ready_iff]
    cases nodes[h]? <;> simp
  · rw [Finset.sdiff_empty, ← Std.ExtTreeMap.length_keys]
    exact List.toFinset_card_le _

theorem topoOrder_eq (nodes : Nodes) : topoOrder nodes =
    kahnOrder nodes ++ Bytes.sort (nodes.keys.filter fun h => h ∉ kahnOrder nodes) := rfl

/-- The order lists every present node, and nothing else. -/
theorem mem_topoOrder {nodes : Nodes} {h : Text} :
    h ∈ topoOrder nodes ↔ h ∈ nodes.graph.nodes := by
  rw [topoOrder_eq, List.mem_append, Bytes.mem_sort, List.mem_filter, decide_eq_true_eq]
  constructor
  · rintro (hrun | ⟨hkey, -⟩)
    · exact ((kahnOrder_kahnRun nodes).mem hrun).1
    · exact List.mem_toFinset.mpr hkey
  · intro hh
    by_cases hrun : h ∈ kahnOrder nodes
    · exact Or.inl hrun
    · exact Or.inr ⟨List.mem_toFinset.mp hh, hrun⟩

theorem nodup_topoOrder (nodes : Nodes) : (topoOrder nodes).Nodup := by
  rw [topoOrder_eq, List.nodup_append']
  refine ⟨(kahnOrder_kahnRun nodes).nodup, ?_, fun h hrun hrest => ?_⟩
  · rw [(Bytes.sort_perm _).nodup_iff]
    exact nodes.nodup_keys.filter _
  · rw [Bytes.mem_sort, List.mem_filter, decide_eq_true_eq] at hrest
    exact hrest.2 hrun

/-- On an acyclic graph there are no remnants: the order *is* the Kahn run. -/
theorem topoOrder_kahnRun {nodes : Nodes} (hacyc : nodes.graph.Acyclic) :
    nodes.graph.KahnRun ∅ (topoOrder nodes) := by
  have hnone : nodes.keys.filter (fun h => h ∉ kahnOrder nodes) = [] := by
    refine List.filter_eq_nil_iff.mpr fun h hh => ?_
    have := ((kahnOrder_kahnRun nodes).complete hacyc (List.mem_toFinset.mpr hh)).resolve_left
      (Finset.notMem_empty _)
    simpa using this
  rw [topoOrder_eq, hnone]
  simpa [Bytes.sort] using kahnOrder_kahnRun nodes

/-- No node stands before one of its ancestors. -/
theorem pairwise_topoOrder {nodes : Nodes} (hacyc : nodes.graph.Acyclic) :
    (topoOrder nodes).Pairwise fun h k => ¬ nodes.graph.Ancestor k h :=
  (topoOrder_kahnRun hacyc).pairwise

/-! ## Shared histories -/

/-- A set of hashes two node maps hold alike, with all present parents. -/
structure SharedHistory (nodes nodes' : Nodes) (A : Finset Text) : Prop where
  same : ∀ k ∈ A, nodes.SameAt nodes' k
  closed : nodes.graph.ParentClosed A
  closed' : nodes'.graph.ParentClosed A

namespace SharedHistory

variable {nodes nodes' : Nodes} {A : Finset Text}

theorem symm (hA : SharedHistory nodes nodes' A) : SharedHistory nodes' nodes A :=
  ⟨fun k hk => Eq.symm (hA.same k hk), hA.closed', hA.closed⟩

theorem restrict_nodes (hA : SharedHistory nodes nodes' A) :
    (nodes.graph.restrict A).nodes = (nodes'.graph.restrict A).nodes := by
  refine Finset.ext fun k => ?_
  rw [ParentGraph.mem_restrict_nodes, ParentGraph.mem_restrict_nodes]
  exact and_congr_left fun hk => (hA.same k hk).present_iff

theorem restrict_parents (hA : SharedHistory nodes nodes' A) :
    ∀ k ∈ (nodes.graph.restrict A).nodes, ∀ p,
      p ∈ (nodes.graph.restrict A).parents k ↔ p ∈ (nodes'.graph.restrict A).parents k :=
  fun k hk _ => (hA.same k (ParentGraph.mem_restrict_nodes.mp hk).2).parents_iff

/-- A shared history has the same ancestors on both sides. -/
theorem has_eq (hA : SharedHistory nodes nodes' A) {h : Text} (hh : h ∈ A) (a : Text) :
    (computeAncestors nodes).has h a = (computeAncestors nodes').has h a := by
  rw [Bool.eq_iff_iff, has_computeAncestors, has_computeAncestors,
    ← hA.closed.ancestor_restrict_iff hh, ← hA.closed'.ancestor_restrict_iff hh]
  exact ParentGraph.ancestor_congr hA.restrict_nodes hA.restrict_parents

theorem mem_of_has (hA : SharedHistory nodes nodes' A) {h a : Text} (hh : h ∈ A)
    (ha : (computeAncestors nodes).has h a = true) : a ∈ A :=
  hA.closed.ancestor_mem hh (has_computeAncestors.mp ha)

theorem kahnOrder_filter (hA : SharedHistory nodes nodes' A) :
    (kahnOrder nodes).filter (· ∈ A) = (kahnOrder nodes').filter (· ∈ A) := by
  have hrun := (kahnOrder_kahnRun nodes).filter_closed hA.closed
  have hrun' := (kahnOrder_kahnRun nodes').filter_closed hA.closed'
  exact (hrun.congr_graph hA.restrict_nodes hA.restrict_parents).unique hrun'

/-- **A shared history is ordered alike on both sides**, remnants of cycles
included. -/
theorem topoOrder_filter (hA : SharedHistory nodes nodes' A) :
    (topoOrder nodes).filter (· ∈ A) = (topoOrder nodes').filter (· ∈ A) := by
  have hmem : ∀ {m m' : Nodes}, SharedHistory m m' A → ∀ {k : Text}, k ∈ A →
      k ∈ kahnOrder m → k ∈ kahnOrder m' := by
    intro m m' h k hk hrun
    have hkf : k ∈ (kahnOrder m).filter (· ∈ A) := List.mem_filter.mpr ⟨hrun, by simpa using hk⟩
    rw [h.kahnOrder_filter] at hkf
    exact (List.mem_filter.mp hkf).1
  have hkeys : ∀ k ∈ A, k ∈ nodes.keys ↔ k ∈ nodes'.keys := by
    intro k hk
    rw [BTreeMap.mem_keys_iff, BTreeMap.mem_keys_iff, ← Nodes.mem_graph, ← Nodes.mem_graph]
    exact (hA.same k hk).present_iff
  rw [topoOrder_eq, topoOrder_eq, List.filter_append, List.filter_append, hA.kahnOrder_filter]
  congr 1
  have hsorted : ∀ l : List Text, ((Bytes.sort l).filter (· ∈ A)).Pairwise (· ≤ ·) := fun l =>
    (List.pairwise_insertionSort (· ≤ ·) l).sublist List.filter_sublist
  have hnodup : ∀ m : Nodes, ((Bytes.sort (m.keys.filter fun h => h ∉ kahnOrder m)).filter
      (· ∈ A)).Nodup := fun m =>
    ((Bytes.sort_perm _).nodup_iff.mpr (m.nodup_keys.filter _)).filter _
  refine List.Perm.eq_of_pairwise' (hsorted _) (hsorted _) ?_
  refine (List.perm_ext_iff_of_nodup (hnodup _) (hnodup _)).mpr fun k => ?_
  simp only [List.mem_filter, Bytes.mem_sort, decide_eq_true_eq]
  refine and_congr_left fun hk => and_congr (hkeys k hk) (not_congr ?_)
  exact ⟨hmem hA hk, hmem hA.symm hk⟩

end SharedHistory

/-- Maps that hold everything alike are ordered alike. -/
theorem topoOrder_congr {nodes nodes' : Nodes} (hsame : ∀ h, nodes.SameAt nodes' h) :
    topoOrder nodes = topoOrder nodes' := by
  have hnodes : ∀ {h}, h ∈ nodes.graph.nodes ↔ h ∈ nodes'.graph.nodes :=
    fun {h} => (hsame h).present_iff
  have hshared : SharedHistory nodes nodes' nodes.graph.nodes :=
    { same := fun k _ => hsame k
      closed := fun _ _ p hedge => hedge.1
      closed' := fun _ _ p hedge => hnodes.mpr hedge.1 }
  have hfilter := hshared.topoOrder_filter
  rw [List.filter_eq_self.mpr fun h hh => by simpa using mem_topoOrder.mp hh,
    List.filter_eq_self.mpr fun h hh => by simpa using hnodes.mpr (mem_topoOrder.mp hh)] at hfilter
  exact hfilter

/-! ## What the signature binds

The preimages of `hash` and `signing_payload` are concatenations without
framing, so what they fix of the parents is the concatenation of the sorted
list and not the list.  Where a parent ends is not part of it: the lengths are
exactly what is missing. -/

/-- Two parent lists that split their bytes at the same places, once sorted. -/
def SameLengths (ps ps' : List Text) : Prop :=
  (Bytes.sort ps).map Bytes.length = (Bytes.sort ps').map Bytes.length

instance (ps ps' : List Text) : Decidable (SameLengths ps ps') :=
  inferInstanceAs (Decidable (_ = _))

/-- Equal concatenations name the same parents exactly when they are split
alike. -/
theorem perm_iff_sameLengths {ps ps' : List Text}
    (hjoin : Bytes.join (Bytes.sort ps) = Bytes.join (Bytes.sort ps')) :
    ps.Perm ps' ↔ SameLengths ps ps' := by
  rw [← Bytes.sort_eq_sort_iff]
  exact ⟨fun h => congrArg (List.map Bytes.length) h, Bytes.join_injective_of_lengths hjoin⟩

theorem signingPayload_eq_iff [Crypto] (hblake : Blake3Injective) {domain op : Bytes}
    {author : DeviceId} {spaceId : Text} {ps ps' : List Text} :
    signingPayload domain op author ps spaceId = signingPayload domain op author ps' spaceId ↔
      Bytes.join (Bytes.sort ps) = Bytes.join (Bytes.sort ps') := by
  rw [signingPayload, signingPayload, hblake.eq_iff]
  simp only [Bytes.join_cons, Bytes.join_append, Bytes.append_right_inj, Bytes.append_left_inj]

theorem SignedNode.hash_eq_iff [Crypto] (hblake : Blake3Injective) {n n' : SignedNode}
    (hop : n.op = n'.op) (hauthor : n.author = n'.author) :
    n.hash = n'.hash ↔
      Bytes.join (Bytes.sort n.parents) = Bytes.join (Bytes.sort n'.parents) := by
  rw [SignedNode.hash, SignedNode.hash, Bytes.hexEncode_injective.eq_iff, hblake.eq_iff, hop,
    hauthor]
  simp only [Bytes.join_cons, Bytes.append_right_inj]

/-- A verified signature fixes the payload, and with it the concatenated
parents. -/
theorem SignedNode.join_parents_eq [Crypto] (hblake : Blake3Injective)
    (hsig : OnePayloadPerSignature) {n n' : SignedNode} {domain : Bytes} {spaceId : Text}
    (hop : n.op = n'.op) (hauthor : n.author = n'.author) (hs : n.sig = n'.sig)
    (hn : n.verifySig domain spaceId = true) (hn' : n'.verifySig domain spaceId = true) :
    Bytes.join (Bytes.sort n.parents) = Bytes.join (Bytes.sort n'.parents) := by
  rw [SignedNode.verifySig] at hn hn'
  rw [← hauthor, ← hop, ← hs] at hn'
  cases hkey : Bytes.hex32 n.author.asStr with
  | none => simp [hkey] at hn
  | some key =>
      simp only [hkey, Bool.and_eq_true] at hn hn'
      exact (signingPayload_eq_iff hblake).mp (hsig _ _ _ _ hn.2 hn'.2)

/-- **When a signed node cannot be re-parented.**  Two verifying nodes with the
same op, author and signature name the same parents exactly when their sorted
parents have the same lengths; and that is exactly how far the payload and the
address determine the sorted parents. -/
theorem SignedNode.reparented_iff [Crypto] (hblake : Blake3Injective)
    (hsig : OnePayloadPerSignature) :
    (∀ (n n' : SignedNode) (domain : Bytes) (spaceId : Text),
      n.op = n'.op → n.author = n'.author → n.sig = n'.sig →
      n.verifySig domain spaceId = true → n'.verifySig domain spaceId = true →
      (n.parents.Perm n'.parents ↔ SameLengths n.parents n'.parents)) ∧
    (∀ (domain op : Bytes) (author : DeviceId) (spaceId : Text) (ps ps' : List Text),
      signingPayload domain op author ps spaceId = signingPayload domain op author ps' spaceId →
      (Bytes.sort ps = Bytes.sort ps' ↔ SameLengths ps ps')) ∧
    (∀ n n' : SignedNode, n.op = n'.op → n.author = n'.author → n.hash = n'.hash →
      (Bytes.sort n.parents = Bytes.sort n'.parents ↔ SameLengths n.parents n'.parents)) := by
  refine ⟨fun n n' domain spaceId hop hauthor hs hn hn' => ?_,
    fun domain op author spaceId ps ps' h => ?_, fun n n' hop hauthor h => ?_⟩
  · exact perm_iff_sameLengths (join_parents_eq hblake hsig hop hauthor hs hn hn')
  · rw [Bytes.sort_eq_sort_iff]
    exact perm_iff_sameLengths ((signingPayload_eq_iff hblake).mp h)
  · rw [Bytes.sort_eq_sort_iff]
    exact perm_iff_sameLengths ((SignedNode.hash_eq_iff hblake hop hauthor).mp h)

/-- A node signed by the all-zero seed, naming one parent `ab`. -/
def oneParent : SignedNode :=
  letI := idealCrypto
  signNode ⟨[2]⟩ ⟨List.replicate 32 0⟩ ⟨[1]⟩ [⟨[97, 98]⟩] ⟨[119]⟩

/-- The same node with the parent cut in two. -/
def twoParents : SignedNode := { oneParent with parents := [⟨[97]⟩, ⟨[98]⟩] }

/-- A signature over one parent verifies over its two halves. -/
theorem SignedNode.reparented_oneParent :
    letI := idealCrypto
    Blake3Injective ∧ OnePayloadPerSignature ∧
      oneParent.op = twoParents.op ∧ oneParent.author = twoParents.author ∧
      oneParent.sig = twoParents.sig ∧
      oneParent.verifySig ⟨[2]⟩ ⟨[119]⟩ = true ∧ twoParents.verifySig ⟨[2]⟩ ⟨[119]⟩ = true ∧
      oneParent.hash = twoParents.hash ∧
      ¬ oneParent.parents.Perm twoParents.parents := by
  refine ⟨idealCrypto_blake3, idealCrypto_onePayload, ?_⟩
  decide +kernel

theorem SignedNode.reparented_iff_idealCrypto :
    letI := idealCrypto
    (oneParent.parents.Perm twoParents.parents ↔
      SameLengths oneParent.parents twoParents.parents) := by
  let _ := idealCrypto
  exact (SignedNode.reparented_iff idealCrypto_blake3 idealCrypto_onePayload).1 oneParent
    twoParents ⟨[2]⟩ ⟨[119]⟩ rfl rfl rfl (by decide +kernel) (by decide +kernel)

end Lait
