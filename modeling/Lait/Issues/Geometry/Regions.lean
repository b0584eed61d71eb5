import Lait.Issues.Geometry.Slack
import Lait.Issues.Geometry.Forest

/-!
# Regions and their layers

The regions are the containment trees with more than one member, in the order of their roots,
and one region is before another when a member of the first blocks a member of the second.
Their layers are left as the drain of that graph leaves them.

A region that does not drain, being on a cycle of regions or behind one, is to have no layer.
It keeps the one a drained region directly before it has given it, since nothing takes it
back as the layering of the issues does.  So the layers of the regions are exact where no
region clear of cycles is directly before one that is not.
-/

namespace Lait.Issues.Geometry

open Lait (Text Crypto)
open Lait.Graph

/-! ## The regions of a forest -/

section Sets

variable {count : ℕ} {root : Fin count → Fin count}

theorem mem_regionSets {members : List (Fin count)} :
    members ∈ regionSets root ↔ ∃ top,
      members = (List.finRange count).filter (fun node => root node = top) ∧
        1 < members.length := by
  simp only [regionSets, List.mem_filterMap, List.mem_finRange, true_and,
    Option.ite_none_right_eq_some, Option.some_inj]
  constructor
  · rintro ⟨top, hlen, rfl⟩
    exact ⟨top, rfl, hlen⟩
  · rintro ⟨top, rfl, hlen⟩
    exact ⟨top, hlen, rfl⟩

/-- Whoever shares a root with a member is one. -/
theorem mem_members_iff {members : List (Fin count)} (h : members ∈ regionSets root)
    {a b : Fin count} (ha : a ∈ members) : b ∈ members ↔ root b = root a := by
  obtain ⟨top, rfl, -⟩ := mem_regionSets.mp h
  simp only [List.mem_filter, List.mem_finRange, true_and, decide_eq_true_eq] at ha ⊢
  rw [ha]

/-- Regions of different roots are apart, and no root comes twice. -/
theorem disjoint_regionSets (root : Fin count → Fin count) :
    (regionSets root).Pairwise List.Disjoint := by
  refine List.Pairwise.filterMap _ (R := fun a b : Fin count => a ≠ b) ?_
    (List.nodup_finRange count)
  intro a b hne first hfirst second hsecond node hnode hnode'
  obtain rfl := Option.some.inj (Option.ite_none_right_eq_some.mp hfirst).2
  obtain rfl := Option.some.inj (Option.ite_none_right_eq_some.mp hsecond).2
  rw [List.mem_filter, decide_eq_true_eq] at hnode hnode'
  exact hne (hnode.2.symm.trans hnode'.2)

theorem length_regionSets (root : Fin count → Fin count) : (regionSets root).length ≤ count :=
  (List.length_filterMap_le _ _).trans List.length_finRange.le

theorem regionOf_eq_some_iff {sets : List (List (Fin count))}
    (hapart : sets.Pairwise List.Disjoint) {node : Fin count} {i : Fin sets.length} :
    regionOf sets node = some i ↔ node ∈ sets.get i := by
  rw [regionOf, List.findFinIdx?_eq_some_iff]
  simp only [decide_eq_true_eq, List.get_eq_getElem]
  refine ⟨And.left, fun h => ⟨h, fun j hj hmem => ?_⟩⟩
  exact List.pairwise_iff_get.mp hapart j i hj hmem h

end Sets

/-! ## The region graph -/

section Links

variable {count : ℕ} {sets : List (List (Fin count))}

/-- One region is before another. -/
def Before (r : Fin count → Fin count → Prop) (sets : List (List (Fin count)))
    (R S : Fin sets.length) : Prop :=
  R ≠ S ∧ ∃ a ∈ sets.get R, ∃ b ∈ sets.get S, r a b

/-- Links hold a relation and how many are before each region. -/
structure RegionLinks.Hold {regions : ℕ} (links : RegionLinks regions)
    (edge : Fin regions → Fin regions → Prop) : Prop where
  onward_iff : ∀ R S, S ∈ links.onward R ↔ edge R S
  indegree_eq : ∀ S, links.indegree S = (Finset.univ.filter fun R => S ∈ links.onward R).card

/-- One blocking edge more. -/
theorem RegionLinks.Hold.link {regions : ℕ} (hregions : regions ≤ U32_MAX)
    {region : Fin count → Option (Fin regions)} {links : RegionLinks regions}
    {edge : Fin regions → Fin regions → Prop} (h : links.Hold edge) (pair : Fin count × Fin count) :
    (linkRegions region links pair).Hold fun R S =>
      edge R S ∨ R ≠ S ∧ region pair.1 = some R ∧ region pair.2 = some S := by
  have hsame : (∀ R S, R ≠ S → region pair.1 = some R → region pair.2 = some S →
      S ∈ links.onward R) → links.Hold fun R S =>
        edge R S ∨ R ≠ S ∧ region pair.1 = some R ∧ region pair.2 = some S := by
    refine fun hold => ⟨fun R S => (h.onward_iff R S).trans ?_, h.indegree_eq⟩
    exact ⟨Or.inl, fun hor => hor.elim id fun ⟨hne, hR, hS⟩ =>
      (h.onward_iff R S).mp (hold R S hne hR hS)⟩
  rw [linkRegions]
  split
  case h_2 hnot => exact hsame fun R S _ hR hS => (hnot R S hR hS).elim
  case h_1 source destination hsource hdestination =>
      split
      case isFalse hold =>
          refine hsame fun R S hne hR hS => ?_
          obtain rfl := Option.some.inj (hsource.symm.trans hR)
          obtain rfl := Option.some.inj (hdestination.symm.trans hS)
          by_contra hmem
          exact hold ⟨hne, hmem⟩
      case isTrue hnew =>
          obtain ⟨hne, hmem⟩ := hnew
          have honward : ∀ R S, S ∈ Function.update links.onward source
              (insert destination (links.onward source)) R ↔
                S ∈ links.onward R ∨ R = source ∧ S = destination := by
            intro R S
            by_cases hR : R = source
            · subst hR
              rw [Function.update_self, Finset.mem_insert]
              tauto
            · rw [Function.update_of_ne hR]
              tauto
          have hiff : ∀ R S, (R ≠ S ∧ region pair.1 = some R ∧ region pair.2 = some S) ↔
              R = source ∧ S = destination := by
            intro R S
            rw [hsource, hdestination, Option.some_inj, Option.some_inj]
            constructor
            · rintro ⟨-, rfl, rfl⟩
              exact ⟨rfl, rfl⟩
            · rintro ⟨rfl, rfl⟩
              exact ⟨hne, rfl, rfl⟩
          refine ⟨fun R S => ?_, fun S => ?_⟩
          · rw [honward, h.onward_iff, hiff]
          · dsimp only
            simp only [honward]
            by_cases hS : S = destination
            · subst hS
              have hinsert : (Finset.univ.filter fun R => S ∈ links.onward R ∨ R = source ∧ S = S) =
                  insert source (Finset.univ.filter fun R => S ∈ links.onward R) := by
                ext R
                simp only [Finset.mem_filter, Finset.mem_univ, true_and, and_true,
                  Finset.mem_insert]
                exact or_comm
              have hcard : (insert source (Finset.univ.filter fun R => S ∈ links.onward R)).card ≤
                  regions := (Finset.card_le_univ _).trans (Fintype.card_fin regions).le
              have hword : U32_MAX ≤ U64_MAX := by decide
              rw [Finset.card_insert_of_notMem (by simpa using hmem)] at hcard
              rw [Function.update_self, h.indegree_eq, hinsert,
                Finset.card_insert_of_notMem (by simpa using hmem)]
              exact min_eq_left (by omega)
            · rw [Function.update_of_ne hS, h.indegree_eq]
              simp [hS]

/-- The region graph links the regions that are before one another. -/
theorem regionLinks_hold (blocks : Fin count → List (Fin count)) (hcount : sets.length ≤ U32_MAX)
    (hapart : sets.Pairwise List.Disjoint) :
    (regionLinks blocks sets).Hold (Before (fun a b => b ∈ blocks a) sets) := by
  have hfold : ∀ (pairs : List (Fin count × Fin count)) (links : RegionLinks sets.length)
      (edge : Fin sets.length → Fin sets.length → Prop), links.Hold edge →
        (pairs.foldl (linkRegions (regionOf sets)) links).Hold fun R S => edge R S ∨
          R ≠ S ∧ ∃ pair ∈ pairs, regionOf sets pair.1 = some R ∧
            regionOf sets pair.2 = some S := by
    intro pairs
    induction pairs with
    | nil => exact fun links edge h => by simpa using h
    | cons pair pairs ih =>
        intro links edge h
        have hstep := ih _ _ (@RegionLinks.Hold.link _ _ hcount (regionOf sets) _ _ h pair)
        refine ⟨fun R S => (hstep.onward_iff R S).trans ?_, hstep.indegree_eq⟩
        simp only [List.exists_mem_cons_iff, or_assoc, and_or_left]
  have hstart : (⟨fun _ => ∅, fun _ => 0⟩ : RegionLinks sets.length).Hold fun _ _ => False :=
    ⟨fun _ _ => by simp, fun _ => by simp⟩
  have hlinks := hfold ((List.finRange count).flatMap fun source =>
    (blocks source).map fun target => (source, target)) _ _ hstart
  refine ⟨fun R S => (hlinks.onward_iff R S).trans ?_, hlinks.indegree_eq⟩
  simp only [false_or, Before, regionOf_eq_some_iff hapart, List.mem_flatMap, List.mem_finRange,
    true_and, List.mem_map]
  refine and_congr_right fun _ => ⟨?_, ?_⟩
  · rintro ⟨-, ⟨a, b, hab, rfl⟩, ha, hb⟩
    exact ⟨a, ha, b, hb, hab⟩
  · rintro ⟨a, ha, b, hb, hab⟩
    exact ⟨(a, b), ⟨a, b, hab, rfl⟩, ha, hb⟩

/-- **When the layers of regions are right.** -/
theorem regionLayers_exact_iff (blocks : Fin count → List (Fin count))
    (hcount : sets.length ≤ U32_MAX) (hapart : sets.Pairwise List.Disjoint)
    {edge : Fin sets.length → Fin sets.length → Prop}
    (hedge : edge = Before (fun a b => b ∈ blocks a) sets) :
    ((∀ R k, regionLayers blocks sets R = some k ↔
        ¬ CycleReaches edge R ∧ LongestInto edge k R) ∧
      ∀ R, regionLayers blocks sets R = none ↔ CycleReaches edge R) ↔
      ∀ R S, edge R S → CycleReaches edge S → CycleReaches edge R := by
  have hlinks := regionLinks_hold blocks hcount hapart
  have hmem : ∀ R S, S ∈ regionSuccessors (regionLinks blocks sets) R ↔ edge R S := by
    intro R S
    rw [hedge, ← hlinks.onward_iff, regionSuccessors, List.mem_filter]
    simp
  have hrelation : (fun R S => S ∈ regionSuccessors (regionLinks blocks sets) R) = edge := by
    funext R S
    exact propext (hmem R S)
  have hcounts : Drain.Counts (regionSuccessors (regionLinks blocks sets))
      (regionLinks blocks sets).indegree := by
    intro S
    rw [hlinks.indegree_eq]
    congr 1
    ext R
    simp [regionSuccessors]
  have hnodup : ∀ R, (regionSuccessors (regionLinks blocks sets) R).Nodup :=
    fun R => (List.nodup_finRange _).filter _
  have hexact := Drain.layers_exact_iff hnodup
    (show Fintype.card (Fin sets.length) ≤ U32_MAX by simpa using hcount) hcounts
  rw [hrelation] at hexact
  simp only [hmem] at hexact
  exact hexact

end Links

/-! ## What the regions should be -/

section Law

variable {count : ℕ}

/-- Nothing contains the node. -/
def IsTop (contains : Fin count → Fin count → Prop) (top : Fin count) : Prop :=
  ∀ p, ¬ contains p top

/-- Some member of one region blocks some member of another. -/
def RegionBefore (regions : List (CompactRegion count)) (r : Fin count → Fin count → Prop)
    (i j : ℕ) : Prop :=
  i ≠ j ∧ ∃ R S, regions[i]? = some R ∧ regions[j]? = some S ∧
    ∃ a ∈ R.members, ∃ b ∈ S.members, r a b

/-- What the regions say: the containment relation is a forest, the regions are its trees with
at least two members, each once, and their layers are those of the region graph. -/
structure RegionLaw (contains r : Fin count → Fin count → Prop)
    (regions : List (CompactRegion count)) (column : Fin count → Option ℕ) : Prop where
  single : ∀ a b c, contains a c → contains b c → a = b
  forest : ∀ node, ∃! top, IsTop contains top ∧ Relation.ReflTransGen contains top node
  tree : ∀ region ∈ regions, region.members.Nodup ∧ 1 < region.members.length ∧
    ∃ top, region.root = some top ∧ IsTop contains top ∧
      ∀ node, node ∈ region.members ↔ Relation.ReflTransGen contains top node
  all : ∀ a b, contains a b → ∃ region ∈ regions, a ∈ region.members ∧ b ∈ region.members
  apart : regions.Pairwise fun R S => R.members.Disjoint S.members
  column_iff : ∀ node i, column node = some i ↔
    ∃ region, regions[i]? = some region ∧ node ∈ region.members
  layer_iff : ∀ i region k, regions[i]? = some region → (region.layer = some k ↔
    ¬ CycleReaches (RegionBefore regions r) i ∧ LongestInto (RegionBefore regions r) k i)
  layer_none_iff : ∀ i region, regions[i]? = some region →
    (region.layer = none ↔ CycleReaches (RegionBefore regions r) i)

theorem getElem?_map_finRange {β : Type*} {n : ℕ} {f : Fin n → β} {i : ℕ} {b : β} :
    ((List.finRange n).map f)[i]? = some b ↔ ∃ R : Fin n, R.val = i ∧ f R = b := by
  rw [List.getElem?_eq_some_iff]
  constructor
  · rintro ⟨hlt, rfl⟩
    exact ⟨⟨i, by simpa using hlt⟩, rfl, by simp⟩
  · rintro ⟨R, rfl, rfl⟩
    exact ⟨by simp, by simp⟩

/-- The rows of the regions. -/
def regionRows (root : Fin count → Fin count) (blocks : Fin count → List (Fin count))
    (ordinal : Fin (regionSets root).length → ℕ) : List (CompactRegion count) :=
  (List.finRange (regionSets root).length).map fun R =>
    ⟨((regionSets root).get R).head?.map root, (regionSets root).get R,
      regionLayers blocks (regionSets root) R, ordinal R⟩

variable {root : Fin count → Fin count} {blocks : Fin count → List (Fin count)}
  {ordinal : Fin (regionSets root).length → ℕ} {contains r : Fin count → Fin count → Prop}

/-- The numbers of the regions name them. -/
theorem names_regionBefore : Names (RegionBefore (regionRows root blocks ordinal) r)
    (Fin.val : Fin (regionSets root).length → ℕ) := by
  refine ⟨Fin.val_injective, fun i j h => ?_⟩
  obtain ⟨-, R, S, hR, hS, -⟩ := h
  obtain ⟨i, rfl, -⟩ := getElem?_map_finRange.mp hR
  obtain ⟨j, rfl, -⟩ := getElem?_map_finRange.mp hS
  exact ⟨⟨i, rfl⟩, ⟨j, rfl⟩⟩

theorem through_regionBefore :
    Through (RegionBefore (regionRows root blocks ordinal) r)
      (Fin.val : Fin (regionSets root).length → ℕ) = Before r (regionSets root) := by
  funext i j
  refine propext ⟨?_, ?_⟩
  · rintro ⟨hne, R, S, hR, hS, hab⟩
    obtain ⟨i', hi, rfl⟩ := getElem?_map_finRange.mp hR
    obtain ⟨j', hj, rfl⟩ := getElem?_map_finRange.mp hS
    obtain rfl := Fin.val_injective hi
    obtain rfl := Fin.val_injective hj
    exact ⟨fun heq => hne (congrArg Fin.val heq), hab⟩
  · rintro ⟨hne, hab⟩
    exact ⟨fun heq => hne (Fin.val_injective heq), _, _,
      getElem?_map_finRange.mpr ⟨i, rfl, rfl⟩, getElem?_map_finRange.mpr ⟨j, rfl, rfl⟩, hab⟩

/-- The members of a region are what lies below one node without a container. -/
theorem exists_top
    (hroot : ∀ node top, root node = top ↔
      IsTop contains top ∧ Relation.ReflTransGen contains top node)
    {members : List (Fin count)} (h : members ∈ regionSets root) :
    ∃ top, members.head?.map root = some top ∧ IsTop contains top ∧
      ∀ node, node ∈ members ↔ Relation.ReflTransGen contains top node := by
  have hlen : 1 < members.length := (mem_regionSets.mp h).choose_spec.2
  obtain ⟨first, rest, hmembers⟩ := List.exists_cons_of_ne_nil (List.ne_nil_of_length_pos
    (Nat.zero_lt_of_lt hlen))
  have hfirst : first ∈ members := hmembers ▸ List.mem_cons_self
  obtain ⟨htop, -⟩ := (hroot first (root first)).mp rfl
  refine ⟨root first, by rw [hmembers]; rfl, htop, fun node => ?_⟩
  rw [mem_members_iff h hfirst, hroot]
  exact and_iff_right htop

/-- A container and what it contains are in one region. -/
theorem exists_region (hsingle : ∀ a b c, contains a c → contains b c → a = b)
    (hroot : ∀ node top, root node = top ↔
      IsTop contains top ∧ Relation.ReflTransGen contains top node)
    {a b : Fin count} (hab : contains a b) : ∃ R : Fin (regionSets root).length,
      a ∈ (regionSets root).get R ∧ b ∈ (regionSets root).get R := by
  obtain ⟨htop, hbelow⟩ := (hroot a (root a)).mp rfl
  have hb : root b = root a := (hroot b (root a)).mpr ⟨htop, hbelow.tail hab⟩
  have hne : a ≠ b := by
    rintro rfl
    -- Containing itself, it would be its own root.
    have hself : ∀ node, Relation.ReflTransGen contains (root a) node → node = a →
        root a = a := by
      intro node hreach
      induction hreach with
      | refl => exact id
      | tail _ edge ih =>
          rintro rfl
          exact ih (hsingle _ _ _ edge hab)
    exact htop a ((hself a hbelow rfl).symm ▸ hab)
  have hmem : (List.finRange count).filter (fun node => root node = root a) ∈
      regionSets root := by
    refine mem_regionSets.mpr ⟨root a, rfl, ?_⟩
    rw [← List.toFinset_card_of_nodup ((List.nodup_finRange count).filter _)]
    exact Finset.one_lt_card.mpr ⟨a, by simp, b, by simp [hb], hne⟩
  obtain ⟨R, hR⟩ := List.get_of_mem hmem
  exact ⟨R, by rw [hR]; simp, by rw [hR]; simp [hb]⟩

/-- **When the regions are right**: where no region clear of cycles is directly before one that
is not. -/
theorem regionLaw_iff (hcount : count ≤ U32_MAX) (hr : r = fun a b => b ∈ blocks a)
    (hsingle : ∀ a b c, contains a c → contains b c → a = b)
    (hroot : ∀ node top, root node = top ↔
      IsTop contains top ∧ Relation.ReflTransGen contains top node)
    {column : Fin count → Option ℕ}
    (hcolumn : column = fun node => (regionOf (regionSets root) node).map Fin.val) :
    RegionLaw contains r (regionRows root blocks ordinal) column ↔
      ∀ R S, Before r (regionSets root) R S → CycleReaches (Before r (regionSets root)) S →
        CycleReaches (Before r (regionSets root)) R := by
  have hapart := disjoint_regionSets root
  have hnames := @names_regionBefore _ root blocks ordinal r
  have hthrough := @through_regionBefore _ root blocks ordinal r
  have hcycle : ∀ R : Fin (regionSets root).length,
      CycleReaches (RegionBefore (regionRows root blocks ordinal) r) R.val ↔
        CycleReaches (Before r (regionSets root)) R := by
    intro R
    rw [← hnames.cycleReaches_iff, hthrough]
  have hlongest : ∀ (R : Fin (regionSets root).length) k,
      LongestInto (RegionBefore (regionRows root blocks ordinal) r) k R.val ↔
        LongestInto (Before r (regionSets root)) k R := by
    intro R k
    rw [← hnames.longestInto_iff, hthrough]
  rw [← regionLayers_exact_iff blocks ((length_regionSets root).trans hcount) hapart
    (by rw [hr])]
  constructor
  · intro h
    refine ⟨fun R k => ?_, fun R => ?_⟩
    · rw [← hcycle, ← hlongest]
      exact h.layer_iff R.val _ k (getElem?_map_finRange.mpr ⟨R, rfl, rfl⟩)
    · rw [← hcycle]
      exact h.layer_none_iff R.val _ (getElem?_map_finRange.mpr ⟨R, rfl, rfl⟩)
  · rintro ⟨hsome, hnone⟩
    refine ⟨hsingle, fun node => ?_, fun region hregion => ?_, fun a b hab => ?_, ?_, fun node i => ?_,
      fun i region k hregion => ?_, fun i region hregion => ?_⟩
    · exact ⟨root node, (hroot node _).mp rfl, fun top htop => ((hroot node top).mpr htop).symm⟩
    · obtain ⟨R, -, rfl⟩ := List.mem_map.mp hregion
      have hmem : (regionSets root).get R ∈ regionSets root := List.get_mem _ _
      obtain ⟨top, hmembers, hlen⟩ := mem_regionSets.mp hmem
      refine ⟨?_, hlen, exists_top hroot hmem⟩
      exact hmembers ▸ (List.nodup_finRange count).filter _
    · obtain ⟨R, ha, hb⟩ := exists_region hsingle hroot hab
      exact ⟨_, List.mem_map.mpr ⟨R, List.mem_finRange R, rfl⟩, ha, hb⟩
    · rw [regionRows, List.pairwise_map]
      exact (List.pairwise_lt_finRange _).imp fun hlt =>
        List.pairwise_iff_get.mp hapart _ _ hlt
    · rw [hcolumn]
      simp only [Option.map_eq_some_iff, regionOf_eq_some_iff hapart]
      constructor
      · rintro ⟨R, hmem, rfl⟩
        exact ⟨_, getElem?_map_finRange.mpr ⟨R, rfl, rfl⟩, hmem⟩
      · rintro ⟨region, hregion, hmem⟩
        obtain ⟨R, rfl, rfl⟩ := getElem?_map_finRange.mp hregion
        exact ⟨R, hmem, rfl⟩
    · obtain ⟨R, rfl, rfl⟩ := getElem?_map_finRange.mp hregion
      rw [hcycle, hlongest]
      exact hsome R k
    · obtain ⟨R, rfl, rfl⟩ := getElem?_map_finRange.mp hregion
      rw [hcycle]
      exact hnone R

end Law

/-! ## The trees of a relation -/

section Trees

variable {α : Type*} {C B : α → α → Prop}

/-- The top of a containment tree with at least two members. -/
def TreeTop (C : α → α → Prop) (top : α) : Prop := (∀ p, ¬ C p top) ∧ ∃ child, C top child

/-- Some member of one such tree blocks some member of another. -/
def TreeBefore (C B : α → α → Prop) (R S : α) : Prop :=
  R ≠ S ∧ TreeTop C R ∧ TreeTop C S ∧
    ∃ a b, Relation.ReflTransGen C R a ∧ Relation.ReflTransGen C S b ∧ B a b

/-- The tops of the trees name the regions. -/
theorem exists_names_treeBefore {count : ℕ} {root : Fin count → Fin count}
    {contains r : Fin count → Fin count → Prop} {name : Fin count → α} (hC : Names C name)
    (hcontains : contains = Through C name) (hr : r = Through B name)
    (hsingle : ∀ a b c, contains a c → contains b c → a = b)
    (hroot : ∀ node top, root node = top ↔
      IsTop contains top ∧ Relation.ReflTransGen contains top node) :
    ∃ f : Fin (regionSets root).length → α, Names (TreeBefore C B) f ∧
      Through (TreeBefore C B) f = Before r (regionSets root) := by
  subst hr
  have htops : ∀ R : Fin (regionSets root).length, ∃ top, IsTop contains top ∧
      ∀ node, node ∈ (regionSets root).get R ↔ Relation.ReflTransGen contains top node := by
    intro R
    obtain ⟨top, -, htop, hmembers⟩ := exists_top hroot (List.get_mem (regionSets root) R)
    exact ⟨top, htop, hmembers⟩
  choose top htop hmembers using htops
  have hinj : ∀ R S, top R = top S → R = S := by
    intro R S heq
    have hR : top R ∈ (regionSets root).get R := (hmembers R _).mpr .refl
    have hS : top R ∈ (regionSets root).get S := (hmembers S _).mpr (heq ▸ .refl)
    have hapart := List.pairwise_iff_get.mp (disjoint_regionSets root)
    rcases lt_trichotomy R S with hlt | heq | hlt
    · exact absurd hS (hapart R S hlt hR)
    · exact heq
    · exact absurd hR (hapart S R hlt hS)
  have hreach : ∀ a b, Relation.ReflTransGen contains a b ↔
      Relation.ReflTransGen C (name a) (name b) := by
    intro a b
    rw [hcontains, hC.reflTransGen_iff]
  have hnamed : ∀ id, TreeTop C id → ∃ R, name (top R) = id := by
    rintro id ⟨htopmost, child, hchild⟩
    obtain ⟨⟨node, rfl⟩, ⟨child, rfl⟩⟩ := hC.2 _ _ hchild
    obtain ⟨R, hnode, -⟩ := exists_region hsingle hroot (hcontains ▸ hchild : contains node child)
    refine ⟨R, ?_⟩
    rcases Relation.ReflTransGen.cases_tail ((hmembers R node).mp hnode) with heq | ⟨p, -, edge⟩
    · rw [heq]
    · rw [hcontains] at edge
      exact absurd edge (htopmost (name p))
  have htree : ∀ R, TreeTop C (name (top R)) := by
    intro R
    constructor
    · intro p hp
      obtain ⟨q, rfl⟩ := (hC.2 _ _ hp).1
      exact htop R q (hcontains ▸ hp)
    · -- A second member is reached by a first step down.
      obtain ⟨_, hfilter, hlen⟩ := mem_regionSets.mp (List.get_mem (regionSets root) R)
      have hnodup : ((regionSets root).get R).Nodup :=
        hfilter ▸ (List.nodup_finRange count).filter _
      rw [← List.toFinset_card_of_nodup hnodup] at hlen
      obtain ⟨other, hother, hne⟩ := Finset.exists_mem_ne hlen (top R)
      rw [List.mem_toFinset] at hother
      rcases Relation.ReflTransGen.cases_head ((hmembers R other).mp hother) with heq | ⟨c, edge, -⟩
      · exact absurd heq.symm hne
      · rw [hcontains] at edge
        exact ⟨name c, edge⟩
  refine ⟨fun R => name (top R), ⟨fun R S heq => hinj R S (hC.1 heq), fun X Y hXY =>
    ⟨hnamed X hXY.2.1, hnamed Y hXY.2.2.1⟩⟩, ?_⟩
  funext R S
  refine propext ⟨?_, ?_⟩
  · rintro ⟨hne, -, -, a, b, ha, hb, hab⟩
    obtain ⟨a, rfl⟩ := hC.exists_of_reach ha
    obtain ⟨b, rfl⟩ := hC.exists_of_reach hb
    exact ⟨fun heq => hne (by rw [heq]), a, (hmembers R a).mpr ((hreach _ _).mpr ha), b,
      (hmembers S b).mpr ((hreach _ _).mpr hb), hab⟩
  · rintro ⟨hne, a, ha, b, hb, hab⟩
    exact ⟨fun heq => hne (hinj R S (hC.1 heq)), htree R, htree S, name a, name b,
      (hreach _ _).mp ((hmembers R a).mp ha), (hreach _ _).mp ((hmembers S b).mp hb), hab⟩

end Trees

/-! ## The regions of a readable geometry -/

/-- The containment relation of the facts among the selected issues. -/
def ContainsAmong (request : GeometryRequest) (facts : GeometryFacts) (a b : Text) : Prop :=
  Selected request facts a ∧ Selected request facts b ∧ Related facts .contains a b

/-- The containment relation of the facts between nodes. -/
def ContainsIn (facts : GeometryFacts) (store : CompactGeometry) (a b : Fin store.count) : Prop :=
  Related facts .contains (store.name a) (store.name b)

section Readable

variable [Crypto] {request : GeometryRequest} {facts : GeometryFacts} {store : CompactGeometry}

/-- **When the regions are right.**  The regions of a readable geometry are its containment
trees with at least two members and their layers are those of the region graph, if and only
if no tree that no cycle of trees leads to is directly before one that a cycle leads to. -/
theorem regions_exact_iff (request : GeometryRequest) (facts : GeometryFacts)
    (store : CompactGeometry) (h : Ready request facts store) :
    RegionLaw (ContainsIn facts store) (BlocksIn facts store) store.regions store.nodes.region ↔
      ∀ R S, TreeBefore (ContainsAmong request facts) (BlocksAmong request facts) R S →
        CycleReaches (TreeBefore (ContainsAmong request facts) (BlocksAmong request facts)) S →
        CycleReaches (TreeBefore (ContainsAmong request facts) (BlocksAmong request facts)) R := by
  have hC : Names (ContainsAmong request facts) store.name :=
    ⟨h.names.1, fun a b hab => ⟨h.exists_node hab.1, h.exists_node hab.2.1⟩⟩
  have hcontains : ContainsIn facts store = Through (ContainsAmong request facts) store.name := by
    funext a b
    exact propext ⟨fun hab => ⟨h.selected a, h.selected b, hab⟩, fun hab => hab.2.2⟩
  have hr := h.blocksIn_eq
  obtain ⟨prepared, parent, missing, dictionary, project, roots, hassembly, rfl, hname⟩ :=
    h.exists_assembly
  have hparent : ∀ a b : Fin prepared.count, parent b = some a ↔
      ContainsIn facts (assembled prepared parent missing dictionary project roots) a b := by
    intro a b
    rw [parents_iff hassembly.parents_eq, hassembly.faithful.mem_edges, ← hname a, ← hname b]
    exact Iff.rfl
  have hbelow : Below parent =
      ContainsIn facts (assembled prepared parent missing dictionary project roots) := by
    funext a b
    exact propext (hparent a b)
  have hsingle : ∀ a b c : Fin prepared.count, Below parent a c → Below parent b c → a = b :=
    fun a b c ha hb => Option.some.inj (Eq.trans (Eq.symm ha) hb)
  have hroot : ∀ node top : Fin prepared.count, hierarchyRoot parent node = top ↔
      IsTop (Below parent) top ∧ Relation.ReflTransGen (Below parent) top node := by
    intro node top
    rw [hierarchyRoot_eq_iff hassembly.validated, Option.eq_none_iff_forall_ne_some]
    exact Iff.rfl
  rw [hbelow] at hsingle hroot
  obtain ⟨f, hf, hthrough⟩ := exists_names_treeBefore hC hcontains hr hsingle hroot
  have hrelation : BlocksIn facts (assembled prepared parent missing dictionary project roots) =
      fun a b : Fin prepared.count => b ∈ blocks prepared.edges a := by
    funext a b
    exact propext (hassembly.blocksIn_iff hname a b)
  have hcondition : (∀ R S : Fin (regionSets (hierarchyRoot parent)).length,
      Through (TreeBefore (ContainsAmong request facts) (BlocksAmong request facts)) f R S →
      CycleReaches (Through (TreeBefore (ContainsAmong request facts) (BlocksAmong request facts))
        f) S → CycleReaches (Through (TreeBefore (ContainsAmong request facts)
          (BlocksAmong request facts)) f) R) ↔
      ∀ R S, TreeBefore (ContainsAmong request facts) (BlocksAmong request facts) R S →
        CycleReaches (TreeBefore (ContainsAmong request facts) (BlocksAmong request facts)) S →
        CycleReaches (TreeBefore (ContainsAmong request facts) (BlocksAmong request facts)) R := by
    constructor
    · intro hall R S hRS hS
      obtain ⟨⟨R, rfl⟩, ⟨S, rfl⟩⟩ := hf.2 _ _ hRS
      exact hf.cycleReaches_iff.mp (hall R S hRS (hf.cycleReaches_iff.mpr hS))
    · intro hall R S hRS hS
      exact hf.cycleReaches_iff.mpr (hall _ _ hRS (hf.cycleReaches_iff.mp hS))
  rw [hthrough] at hcondition
  exact (regionLaw_iff hassembly.faithful.count_le hrelation hsingle hroot rfl).trans hcondition

end Readable

/-- Two regions one after the other, and an issue in neither. -/
theorem regions_exact_iff_sample :
    letI := idealCrypto
    ∃ store, Ready sampleRequest (sampleFacts ["a", "b", "c", "d", "e"]
        [("a", "contains", "b"), ("c", "contains", "d"), ("b", "blocks", "c")]) store ∧
      store.regions.map CompactRegion.layer = [some 0, some 1] ∧
      (RegionLaw (ContainsIn (sampleFacts ["a", "b", "c", "d", "e"]
            [("a", "contains", "b"), ("c", "contains", "d"), ("b", "blocks", "c")]) store)
          (BlocksIn (sampleFacts ["a", "b", "c", "d", "e"]
            [("a", "contains", "b"), ("c", "contains", "d"), ("b", "blocks", "c")]) store)
          store.regions store.nodes.region ↔
        ∀ R S, TreeBefore
            (ContainsAmong sampleRequest (sampleFacts ["a", "b", "c", "d", "e"]
              [("a", "contains", "b"), ("c", "contains", "d"), ("b", "blocks", "c")]))
            (BlocksAmong sampleRequest (sampleFacts ["a", "b", "c", "d", "e"]
              [("a", "contains", "b"), ("c", "contains", "d"), ("b", "blocks", "c")])) R S →
          CycleReaches (TreeBefore
            (ContainsAmong sampleRequest (sampleFacts ["a", "b", "c", "d", "e"]
              [("a", "contains", "b"), ("c", "contains", "d"), ("b", "blocks", "c")]))
            (BlocksAmong sampleRequest (sampleFacts ["a", "b", "c", "d", "e"]
              [("a", "contains", "b"), ("c", "contains", "d"), ("b", "blocks", "c")]))) S →
          CycleReaches (TreeBefore
            (ContainsAmong sampleRequest (sampleFacts ["a", "b", "c", "d", "e"]
              [("a", "contains", "b"), ("c", "contains", "d"), ("b", "blocks", "c")]))
            (BlocksAmong sampleRequest (sampleFacts ["a", "b", "c", "d", "e"]
              [("a", "contains", "b"), ("c", "contains", "d"), ("b", "blocks", "c")]))) R) := by
  let := idealCrypto
  have hmap : (materialize sampleRequest (sampleFacts ["a", "b", "c", "d", "e"]
      [("a", "contains", "b"), ("c", "contains", "d"), ("b", "blocks", "c")])).store.map
        (fun store => store.regions.map CompactRegion.layer) = some [some 0, some 1] := by
    decide +kernel
  obtain ⟨store, hready, hlayers⟩ := exists_ready hmap
  exact ⟨store, hready, hlayers, regions_exact_iff _ _ store hready⟩

/-- Two regions that block each other, one of them behind a third: it keeps the layer the third
gave it. -/
theorem region_layer_on_cycle :
    letI := idealCrypto
    ∃ store, Ready sampleRequest (sampleFacts ["p", "q", "s", "t", "u", "v"]
        [("p", "contains", "q"), ("s", "contains", "t"), ("u", "contains", "v"),
          ("p", "blocks", "s"), ("s", "blocks", "u"), ("v", "blocks", "t")]) store ∧
      ¬ RegionLaw (ContainsIn (sampleFacts ["p", "q", "s", "t", "u", "v"]
          [("p", "contains", "q"), ("s", "contains", "t"), ("u", "contains", "v"),
            ("p", "blocks", "s"), ("s", "blocks", "u"), ("v", "blocks", "t")]) store)
        (BlocksIn (sampleFacts ["p", "q", "s", "t", "u", "v"]
          [("p", "contains", "q"), ("s", "contains", "t"), ("u", "contains", "v"),
            ("p", "blocks", "s"), ("s", "blocks", "u"), ("v", "blocks", "t")]) store)
        store.regions store.nodes.region := by
  let := idealCrypto
  have hmap : (materialize sampleRequest (sampleFacts ["p", "q", "s", "t", "u", "v"]
      [("p", "contains", "q"), ("s", "contains", "t"), ("u", "contains", "v"),
        ("p", "blocks", "s"), ("s", "blocks", "u"), ("v", "blocks", "t")])).store.map
        (fun store => store.regions[1]?.any fun R => store.regions[2]?.any fun S =>
          decide (R.layer = some 1 ∧
            (∃ a ∈ R.members, ∃ b ∈ S.members, b ∈ store.nodes.blocks a) ∧
            ∃ b ∈ S.members, ∃ a ∈ R.members, a ∈ store.nodes.blocks b)) = some true := by
    decide +kernel
  obtain ⟨store, hready, hany⟩ := exists_ready hmap
  obtain ⟨R, hR, hany⟩ := (Option.any_eq_true _ _).mp hany
  obtain ⟨S, hS, hdecide⟩ := (Option.any_eq_true _ _).mp hany
  obtain ⟨hlayer, ⟨a, ha, b, hb, hab⟩, ⟨c, hc, d, hd, hcd⟩⟩ := of_decide_eq_true hdecide
  refine ⟨store, hready, fun hlaw => ?_⟩
  have hcycle := ((hlaw.layer_iff 1 R 1 hR).mp hlayer).1
  refine hcycle (OnCycle.cycleReaches (Relation.TransGen.tail (b := 2) (.single ?_) ?_))
  · exact ⟨by decide, R, S, hR, hS, a, ha, b, hb, (hready.mem_blocks a b).mp hab⟩
  · exact ⟨by decide, S, R, hS, hR, c, hc, d, hd, (hready.mem_blocks c d).mp hcd⟩

end Lait.Issues.Geometry
