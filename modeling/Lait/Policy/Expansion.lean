import Lait.Policy.Ownership

/-!
# Principal-to-leaf expansion

A canonical policy is expanded leaf by leaf.  A principal that one device operates
becomes one leaf; a principal that is itself a group is canonicalized and expanded in
its place.  A leaf is named by a hash of its path from the root of the expanded tree, of
the principal and of the device.

`Expands` is what an expansion adds to the leaves found before it: the leaves of its
tree in order, each under its own path, no two paths alike.  As the names are hashes of
the paths, among other things, no leaf occurs twice (`nodup_leaves`).
-/

namespace Lait.Policy

/-- The domain of leaf ids. -/
def LEAF_DOMAIN : Bytes := Bytes.ofString "lait/space/1/policy/1/leaf"

def MAX_FEDERATION_DEPTH : ℕ := 16

def MAX_EXPANDED_LEAVES : ℕ := 512

def MAX_EXPANDED_DEPTH : ℕ := 64

/-- How a principal is realized cryptographically. -/
inductive PrincipalCustody
  /-- One leaf, operated by the device. -/
  | direct (device : DeviceId)
  /-- The principal is itself a group. -/
  | federated (policy : OwnershipPolicy)

/-- A principal and how it expands. -/
structure PrincipalDescriptor where
  id : Principal
  custody : PrincipalCustody

/-- The provenance of a leaf. -/
structure LeafDescriptor where
  leaf : Holder
  principal : Principal
  device : DeviceId
  /-- Child indices, of 32 bits, from the expanded root. -/
  path : List ℕ

/-- A policy expanded to leaves. -/
abbrev ExpandedPolicy := ThresholdTree Holder

/-- The result of expanding a policy. -/
structure Expansion where
  id : PolicyId
  tree : ExpandedPolicy
  leaves : List LeafDescriptor

/-- Why expansion failed. -/
inductive Failure
  | unknownPrincipal (principal : Principal)
  | cycle (principal : Principal)
  | tooDeep
  | tooManyLeaves
  | tooDeepExpanded
  | policy (invalid : Invalid)
  deriving DecidableEq

section Expand

variable [Crypto]

/-- A leaf id bound to its occurrence path and provenance. -/
def leafId (path : List ℕ) (principal : Principal) (device : DeviceId) : Holder :=
  Bytes.hexEncode (Crypto.blake3 (Bytes.join [LEAF_DOMAIN, ⟨Bytes.leBytes 8 path.length⟩,
    ⟨path.flatMap (Bytes.leBytes 4)⟩, principal, device.asStr]))

/-- What an expansion answers: a tree, and the leaves found so far. -/
abbrev Expanded := Except Failure (ExpandedPolicy × List LeafDescriptor)

section Tree

variable (resolve : Principal → Option PrincipalDescriptor)
  (federate : Principal → OwnershipPolicy → List ℕ → List LeafDescriptor → Expanded)

mutual

/-- Expand a tree at a path, given how a federated principal is expanded. -/
def expandTree (path : List ℕ) (found : List LeafDescriptor) (policy : PolicyTree) : Expanded :=
  if MAX_EXPANDED_DEPTH < path.length then .error .tooDeepExpanded
  else
    match policy with
    | .leaf principal =>
        match resolve principal with
        | none => .error (.unknownPrincipal principal)
        | some descriptor =>
            match descriptor.custody with
            | .direct device =>
                if MAX_EXPANDED_LEAVES ≤ found.length then .error .tooManyLeaves
                else
                  .ok (.leaf (leafId path principal device),
                    found ++ [⟨leafId path principal device, principal, device, path⟩])
            | .federated sub => federate principal sub path found
    | .threshold k members => do
        let (expanded, found) ← expandMembers path 0 found members
        return (.threshold k expanded, found)

/-- Expand the members of a gate, from an index on. -/
def expandMembers (path : List ℕ) (i : ℕ) (found : List LeafDescriptor)
    (members : List PolicyTree) : Except Failure (List ExpandedPolicy × List LeafDescriptor) :=
  match members with
  | [] => .ok ([], found)
  | member :: members => do
      let (first, found) ← expandTree (path ++ [i % 4294967296]) found member
      let (rest, found) ← expandMembers path (i + 1) found members
      return (first :: rest, found)

end

end Tree

/-- Expand a tree below the principals on the stack.  What is left of the federation depth
bounds the recursion. -/
def expandRec [Postcard PolicyTree] (resolve : Principal → Option PrincipalDescriptor) :
    ℕ → List Principal → List ℕ → List LeafDescriptor → PolicyTree → Expanded
  | 0, _, _, _, _ => .error .tooDeep
  | depth + 1, stack, path, found, policy =>
      expandTree resolve (fun principal sub path found =>
        if stack.contains principal then .error (.cycle principal)
        else
          match sub.canonicalize with
          | .error invalid => .error (.policy invalid)
          | .ok canonical =>
              expandRec resolve depth (stack ++ [principal]) path found canonical.tree)
        path found policy

/-- Expand a policy to leaves, resolving each principal. -/
def expand [Postcard PolicyTree] (policy : CanonicalPolicy)
    (resolve : Principal → Option PrincipalDescriptor) : Except Failure Expansion := do
  let (tree, leaves) ← expandRec resolve (MAX_FEDERATION_DEPTH + 1) [] [] [] policy.tree
  return ⟨policy.id, tree, leaves⟩

/-! ## What an expansion adds -/

/-- What the expansion of a tree at a path adds to the leaves found before it. -/
structure Expands (path : List ℕ) (found : List LeafDescriptor) (t : ExpandedPolicy)
    (all added : List LeafDescriptor) : Prop where
  all_eq : all = found ++ added
  bounded : all.length ≤ MAX_EXPANDED_LEAVES
  leaves_eq : added.map LeafDescriptor.leaf = t.leaves
  normal : t.Gates Normal
  below : ∀ d ∈ added, path <+: d.path ∧ d.path.length ≤ MAX_EXPANDED_DEPTH
  small : (∀ i ∈ path, i < 4294967296) → ∀ d ∈ added, ∀ i ∈ d.path, i < 4294967296
  named : ∀ d ∈ added, d.leaf = leafId d.path d.principal d.device
  distinct : (added.map LeafDescriptor.path).Nodup

/-- What the expansion of the members of a gate adds, from an index on. -/
structure ExpandsMembers (path : List ℕ) (i : ℕ) (found : List LeafDescriptor)
    (l : List ExpandedPolicy) (all added : List LeafDescriptor) : Prop where
  all_eq : all = found ++ added
  bounded : all.length ≤ MAX_EXPANDED_LEAVES
  leaves_eq : added.map LeafDescriptor.leaf = ThresholdTree.leavesOf l
  normal : ThresholdTree.GatesOf Normal l
  below : ∀ d ∈ added, (∃ j, i ≤ j ∧ path ++ [j] <+: d.path) ∧
    d.path.length ≤ MAX_EXPANDED_DEPTH
  small : (∀ i ∈ path, i < 4294967296) → ∀ d ∈ added, ∀ i ∈ d.path, i < 4294967296
  named : ∀ d ∈ added, d.leaf = leafId d.path d.principal d.device
  distinct : (added.map LeafDescriptor.path).Nodup

/-- How a federated principal is expanded, as far as the expansion around it relies on it. -/
def Federates (federate : Principal → OwnershipPolicy → List ℕ → List LeafDescriptor → Expanded) :
    Prop :=
  ∀ principal sub path found t all, found.length ≤ MAX_EXPANDED_LEAVES →
    federate principal sub path found = .ok (t, all) → ∃ added, Expands path found t all added

/-- An expansion adds a leaf. -/
theorem Expands.added_pos {path : List ℕ} {found : List LeafDescriptor} {t : ExpandedPolicy}
    {all added : List LeafDescriptor} (h : Expands path found t all added) : 0 < added.length := by
  rw [← List.length_map LeafDescriptor.leaf, h.leaves_eq]
  exact ThresholdTree.leaves_pos (h.normal.mono fun k n hn => lt_of_lt_of_le Nat.two_pos hn.1)

/-- The first member and the others add leaves under paths of their own. -/
theorem ExpandsMembers.cons {path : List ℕ} {i : ℕ} (hi : i < 4294967296)
    {found found' all : List LeafDescriptor} {t : ExpandedPolicy} {l : List ExpandedPolicy}
    {first rest : List LeafDescriptor} (hfirst : Expands (path ++ [i]) found t found' first)
    (hrest : ExpandsMembers path (i + 1) found' l all rest) :
    ExpandsMembers path i found (t :: l) all (first ++ rest) where
  all_eq := by rw [hrest.all_eq, hfirst.all_eq, List.append_assoc]
  bounded := hrest.bounded
  leaves_eq := by
    rw [List.map_append, hfirst.leaves_eq, hrest.leaves_eq, ThresholdTree.leavesOf]
  normal := ⟨hfirst.normal, hrest.normal⟩
  below d hd := by
    rcases List.mem_append.mp hd with hd | hd
    · exact ⟨⟨i, le_refl i, (hfirst.below d hd).1⟩, (hfirst.below d hd).2⟩
    · obtain ⟨⟨j, hj, hprefix⟩, hdepth⟩ := hrest.below d hd
      exact ⟨⟨j, by omega, hprefix⟩, hdepth⟩
  small hpath d hd := by
    rcases List.mem_append.mp hd with hd | hd
    · refine hfirst.small (fun k hk => ?_) d hd
      rcases List.mem_append.mp hk with hk | hk
      · exact hpath k hk
      · rw [List.mem_singleton.mp hk]
        exact hi
    · exact hrest.small hpath d hd
  named d hd := by
    rcases List.mem_append.mp hd with hd | hd
    · exact hfirst.named d hd
    · exact hrest.named d hd
  distinct := by
    rw [List.map_append]
    refine List.Nodup.append hfirst.distinct hrest.distinct fun p hp hp' => ?_
    obtain ⟨d, hd, rfl⟩ := List.mem_map.mp hp
    obtain ⟨d', hd', hsame⟩ := List.mem_map.mp hp'
    obtain ⟨⟨j, hj, hprefix⟩, -⟩ := hrest.below d' hd'
    rw [hsame] at hprefix
    have hle : (path ++ [i]).length ≤ (path ++ [j]).length := by simp
    have hboth := List.prefix_of_prefix_length_le (hfirst.below d hd).1 hprefix hle
    have heq := hboth.eq_of_length (by simp)
    rw [List.append_cancel_left_eq, List.cons.injEq] at heq
    omega

section Tree

variable {resolve : Principal → Option PrincipalDescriptor}
  {federate : Principal → OwnershipPolicy → List ℕ → List LeafDescriptor → Expanded}

mutual

/-- **One level of expansion**, given what the federated principals add. -/
theorem expandTree_expands (hfederate : Federates federate) {path : List ℕ}
    {found : List LeafDescriptor} (hfound : found.length ≤ MAX_EXPANDED_LEAVES)
    {policy : PolicyTree} (hpolicy : policy.Gates Normal) {t : ExpandedPolicy}
    {all : List LeafDescriptor} (h : expandTree resolve federate path found policy = .ok (t, all)) :
    ∃ added, Expands path found t all added := by
  unfold expandTree at h
  split at h
  next => cases h
  next hdepth =>
    rw [not_lt] at hdepth
    cases policy with
    | leaf principal =>
        dsimp only at h
        split at h
        next => cases h
        next descriptor _ =>
          split at h
          next device _ =>
            split at h
            next => cases h
            next hroom =>
              cases h
              refine ⟨_, rfl, ?_, rfl, trivial, ?_, ?_, ?_, List.nodup_singleton _⟩
              · rw [List.length_append, List.length_singleton]
                omega
              · intro d hd
                rw [List.mem_singleton.mp hd]
                exact ⟨List.prefix_refl _, hdepth⟩
              · intro hpath d hd
                rw [List.mem_singleton.mp hd]
                exact hpath
              · intro d hd
                rw [List.mem_singleton.mp hd]
          next sub _ => exact hfederate principal sub path found t all hfound h
    | threshold k members =>
        obtain ⟨⟨expanded, all'⟩, hmembers, hpure⟩ := bind_eq_ok.mp h
        cases hpure
        obtain ⟨hlength, added, hadded⟩ :=
          expandMembers_expands hfederate hfound hpolicy.2 (Nat.zero_le _) hmembers
        refine ⟨added, hadded.all_eq, hadded.bounded, hadded.leaves_eq, ⟨?_, hadded.normal⟩,
          fun d hd => ?_, hadded.small, hadded.named, hadded.distinct⟩
        · rw [hlength]
          exact hpolicy.1
        · obtain ⟨⟨j, -, hprefix⟩, hdeep⟩ := hadded.below d hd
          exact ⟨(List.prefix_append _ _).trans hprefix, hdeep⟩

theorem expandMembers_expands (hfederate : Federates federate) {path : List ℕ} {i : ℕ}
    {found : List LeafDescriptor} (hfound : found.length ≤ MAX_EXPANDED_LEAVES)
    {members : List PolicyTree} (hmembers : ThresholdTree.GatesOf Normal members)
    (hi : i ≤ found.length) {l : List ExpandedPolicy} {all : List LeafDescriptor}
    (h : expandMembers resolve federate path i found members = .ok (l, all)) :
    l.length = members.length ∧ ∃ added, ExpandsMembers path i found l all added := by
  cases members with
  | nil =>
      unfold expandMembers at h
      cases h
      refine ⟨rfl, [], by simp, hfound, rfl, trivial, ?_, ?_, ?_, List.nodup_nil⟩
      · exact fun d hd => absurd hd List.not_mem_nil
      · exact fun _ d hd => absurd hd List.not_mem_nil
      · exact fun d hd => absurd hd List.not_mem_nil
  | cons member members =>
      unfold expandMembers at h
      obtain ⟨⟨t, found'⟩, hfirst, h⟩ := bind_eq_ok.mp h
      obtain ⟨⟨rest, all'⟩, hrest, hpure⟩ := bind_eq_ok.mp h
      cases hpure
      obtain ⟨first, hexpands⟩ := expandTree_expands hfederate hfound hmembers.1 hfirst
      -- Each member before this one added a leaf, so the index is a small one.
      have hgrown : found'.length = found.length + first.length := by
        rw [hexpands.all_eq, List.length_append]
      have hpos := hexpands.added_pos
      have hbound := hexpands.bounded
      have hindex : i < 4294967296 := by
        unfold MAX_EXPANDED_LEAVES at hbound
        omega
      rw [Nat.mod_eq_of_lt hindex] at hexpands
      obtain ⟨hlength, added, hadded⟩ :=
        expandMembers_expands hfederate hbound hmembers.2 (i := i + 1) (by omega) hrest
      refine ⟨by rw [List.length_cons, List.length_cons, hlength], first ++ added, ?_⟩
      exact ExpandsMembers.cons hindex hexpands hadded

end

end Tree

/-- Every level of federation adds what one level does. -/
theorem expandRec_expands [Postcard PolicyTree] {resolve : Principal → Option PrincipalDescriptor}
    {depth : ℕ} {stack : List Principal} {path : List ℕ} {found : List LeafDescriptor}
    (hfound : found.length ≤ MAX_EXPANDED_LEAVES) {policy : PolicyTree}
    (hpolicy : policy.Gates Normal) {t : ExpandedPolicy} {all : List LeafDescriptor}
    (h : expandRec resolve depth stack path found policy = .ok (t, all)) :
    ∃ added, Expands path found t all added := by
  induction depth generalizing stack path found policy t all with
  | zero => cases h
  | succ depth ih =>
      rw [expandRec] at h
      refine expandTree_expands ?_ hfound hpolicy h
      intro principal sub path found t all hfound h
      dsimp only at h
      split at h
      next => cases h
      next =>
        split at h
        next => cases h
        next canonical _ => exact ih hfound canonical.normal h

/-- **What an expansion is made of.** -/
theorem expand_expands [Postcard PolicyTree] {policy : CanonicalPolicy}
    {resolve : Principal → Option PrincipalDescriptor} {expansion : Expansion}
    (h : expand policy resolve = .ok expansion) :
    Expands [] [] expansion.tree expansion.leaves expansion.leaves := by
  obtain ⟨⟨tree, leaves⟩, hexpand, hpure⟩ := bind_eq_ok.mp h
  cases hpure
  obtain ⟨added, hadded⟩ := expandRec_expands (Nat.zero_le _) policy.normal hexpand
  have hall := hadded.all_eq
  rw [List.nil_append] at hall
  rw [hall] at hadded ⊢
  exact hadded

/-! ## Names of leaves -/

omit [Crypto] in
/-- The bytes of a path spell it. -/
theorem flatMap_leBytes_injective {path path' : List ℕ} (hlength : path.length = path'.length)
    (hsmall : ∀ i ∈ path, i < 4294967296) (hsmall' : ∀ i ∈ path', i < 4294967296)
    (h : path.flatMap (Bytes.leBytes 4) = path'.flatMap (Bytes.leBytes 4)) : path = path' := by
  induction path generalizing path' with
  | nil => exact (List.length_eq_zero_iff.mp hlength.symm).symm
  | cons i path ih =>
      cases path' with
      | nil => cases hlength
      | cons i' path' =>
          rw [List.flatMap_cons, List.flatMap_cons] at h
          obtain ⟨hhead, htail⟩ := List.append_inj h (by simp)
          rw [List.forall_mem_cons] at hsmall hsmall'
          have hvalue := congrArg Bytes.leValue hhead
          rw [Bytes.leValue_leBytes hsmall.1, Bytes.leValue_leBytes hsmall'.1] at hvalue
          rw [hvalue, ih (Nat.succ.inj hlength) hsmall.2 hsmall'.2 htail]

/-- A leaf id names a path. -/
theorem path_eq_of_leafId (hblake : Blake3Injective) {d d' : LeafDescriptor}
    (hdepth : d.path.length ≤ MAX_EXPANDED_DEPTH) (hdepth' : d'.path.length ≤ MAX_EXPANDED_DEPTH)
    (hsmall : ∀ i ∈ d.path, i < 4294967296) (hsmall' : ∀ i ∈ d'.path, i < 4294967296)
    (h : leafId d.path d.principal d.device = leafId d'.path d'.principal d'.device) :
    d.path = d'.path := by
  have hbytes := hblake (Bytes.hexEncode_injective h)
  simp only [Bytes.join_cons, Bytes.append_right_inj] at hbytes
  have hdata := congrArg Bytes.data hbytes
  simp only [Bytes.data_append] at hdata
  obtain ⟨hcount, hrest⟩ := List.append_inj hdata (by simp)
  unfold MAX_EXPANDED_DEPTH at hdepth hdepth'
  have hlength : d.path.length = d'.path.length := by
    have hvalue := congrArg Bytes.leValue hcount
    rw [Bytes.leValue_leBytes (by omega), Bytes.leValue_leBytes (by omega)] at hvalue
    exact hvalue
  obtain ⟨hsteps, -⟩ := List.append_inj hrest (by simp [List.length_flatMap, hlength])
  exact flatMap_leBytes_injective hlength hsmall hsmall' hsteps

/-- **No leaf occurs twice in an expanded tree.** -/
theorem nodup_leaves [Postcard PolicyTree] (hblake : Blake3Injective) {policy : CanonicalPolicy}
    {resolve : Principal → Option PrincipalDescriptor} {expansion : Expansion}
    (h : expand policy resolve = .ok expansion) : expansion.tree.leaves.Nodup := by
  have hexpands := expand_expands h
  have hsmall := hexpands.small fun i hi => absurd hi List.not_mem_nil
  rw [← hexpands.leaves_eq]
  refine List.Nodup.map_on (fun d hd d' hd' hleaf => ?_) (List.Nodup.of_map _ hexpands.distinct)
  rw [hexpands.named d hd, hexpands.named d' hd'] at hleaf
  have hpath := path_eq_of_leafId hblake (hexpands.below d hd).2 (hexpands.below d' hd').2
    (hsmall d hd) (hsmall d' hd') hleaf
  exact List.inj_on_of_nodup_map hexpands.distinct hd hd' hpath

end Expand

end Lait.Policy
