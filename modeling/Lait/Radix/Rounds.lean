import Lait.Radix.Difference

/-!
# Reconciliation finds the difference

`Outstanding` is the invariant.  The nodes absorbed so far and the ones still wanted sit
at different paths of the remote tree, a wanted node's parent is absorbed, none of them
is a node the local side has in the same place, and every entry that is to be found is
missing already or lies under a wanted path.  A node is absorbed once because a hash
names one place (`Tree.path_eq_of_hash_eq`), so the rounds that supply anything are no
more than the remote nodes (`Rounds.outstanding`).
-/

namespace Lait.Radix

section Rounds

variable [NodeHash] {localSource remoteSource : NodeSource} {localRoot remoteRoot : Option ChildRef}
  {localEntries remoteEntries : List IndexEntry} {path : List (Fin FANOUT)} {item : Wanted}

/-- The invariant: the nodes absorbed and the nodes wanted, by their places. -/
structure Outstanding (localSource : NodeSource) (localRoot : Option ChildRef)
    (localEntries : List IndexEntry) (remoteSource : NodeSource) (remoteRoot : Option ChildRef)
    (remoteEntries : List IndexEntry) (absorbed paths : List (List (Fin FANOUT)))
    (items : List Wanted) (state : Reconciliation) : Prop where
  wants : List.Forall₂ (Wants localSource localRoot localEntries remoteSource remoteRoot) paths
    items
  nodup : (paths ++ absorbed).Nodup
  parent : ∀ path s, path ++ [s] ∈ paths ++ absorbed → path ∈ absorbed
  differs : ∀ path ∈ paths ++ absorbed,
    descendTo localSource localRoot path ≠ descendTo remoteSource remoteRoot path
  remote : ∀ path ∈ absorbed, ∃ child, descendTo remoteSource remoteRoot path = some child ∧
    child.hash ∈ state.seen
  seen : ∀ hash ∈ state.seen, ∃ path ∈ absorbed, ∃ child,
    descendTo remoteSource remoteRoot path = some child ∧ child.hash = hash
  fetched : state.fetched = absorbed.length
  sound : ∀ entry ∈ state.missing, entry ∈ remoteEntries ∧ entry ∉ localEntries
  covers : ∀ entry ∈ remoteEntries, entry ∉ localEntries →
    entry ∈ state.missing ∨ ∃ path ∈ paths, Under digit path entry.key

omit [NodeHash] in
/-- A node is absorbed: its place moves, and its slots are wanted. -/
theorem Outstanding.absorbed {absorbed front back : List (List (Fin FANOUT))}
    {before rest items : List Wanted} {self : Reconciliation} {found : List IndexEntry}
    {slots : List (Fin FANOUT)}
    (h : Outstanding localSource localRoot localEntries remoteSource remoteRoot remoteEntries
      absorbed (front ++ path :: back) (before ++ item :: rest) self)
    (hfront : List.Forall₂ (Wants localSource localRoot localEntries remoteSource remoteRoot) front
      before)
    (hback : List.Forall₂ (Wants localSource localRoot localEntries remoteSource remoteRoot) back
      rest)
    (hwants : Wants localSource localRoot localEntries remoteSource remoteRoot path item)
    (hasks : Asks localSource localRoot localEntries remoteSource remoteRoot remoteEntries path
      found slots items) (wanted : List Wanted) :
    Outstanding localSource localRoot localEntries remoteSource remoteRoot remoteEntries
      (path :: absorbed) (front ++ slots.map (path ++ [·]) ++ back) (before ++ items ++ rest)
      { self with
        wanted
        missing := self.missing ++ found
        seen := insert item.remote.hash self.seen
        fetched := self.fetched + 1 } := by
  have hperm : (front ++ slots.map (path ++ [·]) ++ back ++ path :: absorbed).Perm
      (slots.map (path ++ [·]) ++ (front ++ path :: back ++ absorbed)) := by
    refine List.perm_iff_count.mpr fun place => ?_
    simp only [List.count_append, List.count_cons]
    omega
  have hmem : ∀ place, place ∈ front ++ slots.map (path ++ [·]) ++ back ++ path :: absorbed ↔
      (∃ s ∈ slots, path ++ [s] = place) ∨ place ∈ front ++ path :: back ++ absorbed := by
    intro place
    rw [hperm.mem_iff, List.mem_append, List.mem_map]
  have hnot : path ∉ absorbed := fun habsorbed =>
    (List.nodup_append.mp h.nodup).2.2 path (by simp) path habsorbed rfl
  refine ⟨?_, hperm.nodup_iff.mpr (List.nodup_append.mpr ⟨?_, h.nodup, ?_⟩), fun place s hplace => ?_,
    fun place hplace => ?_, fun place hplace => ?_, fun hash hhash => ?_, ?_, fun entry hentry => ?_,
    fun entry hentry hmissing => ?_⟩
  · exact List.rel_append (List.rel_append hfront
      (List.forall₂_map_left_iff.mpr hasks.wants)) hback
  · exact hasks.nodup.map fun s s' heq => (List.append_inj' heq rfl).2 |> List.singleton_inj.mp
  · -- a slot's place was not there: its parent would have been absorbed
    rintro place hplace _ hold rfl
    obtain ⟨s, -, rfl⟩ := List.mem_map.mp hplace
    exact hnot (h.parent path s hold)
  · rcases (hmem _).mp hplace with ⟨s', -, heq⟩ | hold
    · exact List.mem_cons.mpr (Or.inl (List.append_inj' heq rfl).1.symm)
    · exact List.mem_cons_of_mem _ (h.parent place s hold)
  · rcases (hmem _).mp hplace with ⟨s, hs, rfl⟩ | hold
    · exact hasks.differs s hs
    · exact h.differs place hold
  · rcases List.mem_cons.mp hplace with rfl | hold
    · exact ⟨_, hwants.remote, Finset.mem_insert_self _ _⟩
    · obtain ⟨child, hchild, hseen⟩ := h.remote place hold
      exact ⟨child, hchild, Finset.mem_insert_of_mem hseen⟩
  · rcases Finset.mem_insert.mp hhash with rfl | hold
    · exact ⟨path, List.mem_cons_self, _, hwants.remote, rfl⟩
    · obtain ⟨place, hplace, hchild⟩ := h.seen hash hold
      exact ⟨place, List.mem_cons_of_mem _ hplace, hchild⟩
  · exact congrArg (· + 1) h.fetched
  · rcases List.mem_append.mp hentry with hold | hnew
    · exact h.sound entry hold
    · exact hasks.sound entry hnew
  · rcases h.covers entry hentry hmissing with hold | ⟨place, hplace, hunder⟩
    · exact Or.inl (List.mem_append_left _ hold)
    · simp only [List.mem_append, List.mem_cons] at hplace ⊢
      rcases hplace with hplace | rfl | hplace
      · exact Or.inr ⟨place, Or.inl (Or.inl hplace), hunder⟩
      · rcases hasks.covers entry (mem_below.mpr ⟨hentry, hunder⟩) hmissing with hfound | hslot
        · exact Or.inl (Or.inr hfound)
        · exact Or.inr ⟨_, Or.inl (Or.inr (List.mem_map_of_mem hslot)),
            under_concat.mpr ⟨hunder, rfl⟩⟩
      · exact Or.inr ⟨place, Or.inr hplace, hunder⟩

/-- The places of a held tree with a node are no more than its nodes. -/
theorem Tree.length_places_le {source : NodeSource} {root : Option ChildRef}
    {entries : List IndexEntry} {places : List (List (Fin FANOUT))} {written : List Bytes}
    (h : Tree source root entries) (hnodup : places.Nodup)
    (hplaces : ∀ path ∈ places, ∃ child, descendTo source root path = some child)
    (hwritten : canonicalNodes (MAX_DEPTH + 1) 0 entries ⊆ written) :
    places.length ≤ written.length := by
  let encodeAt (path : List (Fin FANOUT)) : Bytes :=
    (canonicalNode (MAX_DEPTH + 1 - path.length) path.length (below path entries)).encode
  have hinj : (places.map encodeAt).Nodup := by
    refine hnodup.map_on fun path hpath path' hpath' heq => ?_
    obtain ⟨child, hchild⟩ := hplaces path hpath
    obtain ⟨child', hchild'⟩ := hplaces path' hpath'
    obtain ⟨href, hlen, -⟩ := h.of_descendTo hchild
    obtain ⟨href', -⟩ := h.of_descendTo hchild'
    obtain ⟨-, hhash, -⟩ := hash_of_canonicalRef href
    obtain ⟨-, hhash', -⟩ := hash_of_canonicalRef href'
    exact h.path_eq_of_hash_eq (MAX_DEPTH + 1 - path.length) (by omega) hchild hchild'
      (hhash.trans ((congrArg nodeHash heq).trans hhash'.symm))
  have hsub : places.map encodeAt ⊆ written := by
    intro bytes hbytes
    obtain ⟨path, hpath, rfl⟩ := List.mem_map.mp hbytes
    obtain ⟨child, hchild⟩ := hplaces path hpath
    obtain ⟨href, hlen, -⟩ := h.of_descendTo hchild
    obtain ⟨hne, -⟩ := hash_of_canonicalRef href
    refine hwritten (h.nodes_subset hchild ?_)
    show (canonicalNode _ _ _).encode ∈ _
    rw [show MAX_DEPTH + 1 - path.length = (MAX_DEPTH - path.length) + 1 by omega]
    exact encode_mem_canonicalNodes hne
  have hle := (hinj.subperm hsub).length_le
  rwa [List.length_map] at hle

/-- The bytes of a node of a held tree. -/
theorem Tree.bytes_at {source : NodeSource} {root : Option ChildRef} {entries : List IndexEntry}
    {child : ChildRef} (h : Tree source root entries)
    (hchild : descendTo source root path = some child) : ∃ bytes,
      source child.hash = some bytes ∧ nodeHash bytes = child.hash ∧ decodeCanonical bytes =
        .ok (canonicalNode (MAX_DEPTH + 1 - path.length) path.length (below path entries)) := by
  obtain ⟨href, hpath, hheld, -⟩ := h.of_descendTo hchild
  obtain ⟨hne, hhash, -⟩ := hash_of_canonicalRef href
  obtain ⟨levels, hlevels⟩ : ∃ levels, MAX_DEPTH + 1 - path.length = levels + 1 :=
    ⟨MAX_DEPTH - path.length, by omega⟩
  rw [HeldBelow, hlevels] at hheld
  rw [hlevels] at hhash ⊢
  refine ⟨_, ?_, hhash.symm, (h.set.below path).decode_canonicalNode hne levels⟩
  rw [hhash]
  exact hheld _ (encode_mem_canonicalNodes hne)

variable (hlocal : Tree localSource localRoot localEntries)
  (hremote : Tree remoteSource remoteRoot remoteEntries)
  (hcollision : NoCollision (canonicalNodes (MAX_DEPTH + 1) 0 localEntries)
    (canonicalNodes (MAX_DEPTH + 1) 0 remoteEntries))
  {written : List Bytes} (hwritten : canonicalNodes (MAX_DEPTH + 1) 0 remoteEntries ⊆ written)

include hremote hwritten in
/-- The places absorbed and wanted are no more than the remote nodes. -/
theorem Outstanding.length_le {absorbed paths : List (List (Fin FANOUT))} {items : List Wanted}
    {state : Reconciliation}
    (h : Outstanding localSource localRoot localEntries remoteSource remoteRoot remoteEntries
      absorbed paths items state) : items.length + state.fetched ≤ written.length := by
  have hle := hremote.length_places_le h.nodup (fun path hpath => ?_) hwritten
  · rwa [List.length_append, h.wants.length_eq, ← h.fetched] at hle
  · rcases List.mem_append.mp hpath with hpath | hpath
    · obtain ⟨i, hi, rfl⟩ := List.getElem_of_mem hpath
      exact ⟨_, ((List.forall₂_iff_get.mp h.wants).2 i hi (h.wants.length_eq ▸ hi)).remote⟩
    · obtain ⟨child, hchild, -⟩ := h.remote path hpath
      exact ⟨child, hchild⟩

include hlocal hremote hcollision hwritten in
/-- **One node of a round**: supplied, it is absorbed; not supplied, it is wanted again. -/
theorem absorbOne_spec {supply : NodeSource} {absorbed paths : List (List (Fin FANOUT))}
    {rest : List Wanted} {state : Reconciliation} (hbudget : written.length ≤ state.maxNodes)
    (h : Outstanding localSource localRoot localEntries remoteSource remoteRoot remoteEntries
      absorbed paths (state.wanted ++ item :: rest) state)
    (hsupply : supply item.remote.hash = none ∨
      supply item.remote.hash = remoteSource item.remote.hash) :
    ∃ next absorbed' paths', state.absorbOne localSource supply item = .ok next ∧
      Outstanding localSource localRoot localEntries remoteSource remoteRoot remoteEntries
        absorbed' paths' (next.wanted ++ rest) next ∧ next.maxNodes = state.maxNodes ∧
          next.fetched = state.fetched + if (supply item.remote.hash).isSome then 1 else 0 := by
  have hle := h.length_le hremote hwritten
  obtain ⟨front, path, back, hfront, hwants, hback, rfl⟩ : ∃ front path back,
      List.Forall₂ (Wants localSource localRoot localEntries remoteSource remoteRoot) front
        state.wanted ∧
      Wants localSource localRoot localEntries remoteSource remoteRoot path item ∧
      List.Forall₂ (Wants localSource localRoot localEntries remoteSource remoteRoot) back rest ∧
      paths = front ++ path :: back := by
    obtain ⟨path, back, hwants, hback, hsplit⟩ :=
      List.forall₂_cons_right_iff.mp (List.forall₂_drop_append _ _ _ h.wants)
    exact ⟨_, path, back, List.forall₂_take_append _ _ _ h.wants, hwants, hback, by
      rw [← hsplit, List.take_append_drop]⟩
  obtain ⟨bytes, hbytes, hhash, hdecode⟩ := hremote.bytes_at hwants.remote
  obtain ⟨-, hpath, -⟩ := hremote.of_descendTo hwants.remote
  unfold Reconciliation.absorbOne
  rcases hsupply with hnone | hsome
  · rw [hnone]
    refine ⟨{ state with wanted := state.wanted ++ [item] }, absorbed, front ++ path :: back, rfl,
      ?_, rfl, rfl⟩
    rw [List.append_assoc, List.singleton_append]
    exact ⟨h.wants, h.nodup, h.parent, h.differs, h.remote, h.seen, h.fetched, h.sound, h.covers⟩
  · have hfresh : item.remote.hash ∉ state.seen := by
      intro hseen
      obtain ⟨place, hplace, child, hchild, hsame⟩ := h.seen _ hseen
      obtain rfl := hremote.path_eq_of_hash_eq (MAX_DEPTH + 1 - path.length) (by omega)
        hwants.remote hchild hsame.symm
      exact (List.nodup_append.mp h.nodup).2.2 path (by simp) path hplace rfl
    have hroom : ¬ (state.maxNodes < state.fetched + 1 ∨ MAX_DEPTH < item.depth) := by
      rw [List.length_append, List.length_cons] at hle
      rw [hwants.depth_eq]
      omega
    obtain ⟨found, slots, items, hcompare, hasks⟩ := compare_spec hlocal hremote hcollision hwants
      { state with seen := insert item.remote.hash state.seen, fetched := state.fetched + 1 }
    rw [hsome, hbytes]
    let next : Reconciliation :=
      { state with
        wanted := state.wanted ++ items
        missing := state.missing ++ found
        seen := insert item.remote.hash state.seen
        fetched := state.fetched + 1 }
    refine ⟨next, _, _, guard_eq_ok.mpr ⟨not_not.mpr hhash, ?_⟩,
      h.absorbed hfront hback hwants hasks next.wanted, rfl, rfl⟩
    rw [if_neg hfresh]
    exact guard_eq_ok.mpr ⟨hroom, bind_eq_ok.mpr ⟨_, hdecode, hcompare⟩⟩

include hlocal hremote hcollision hwritten in
/-- **A round absorbs what is supplied.** -/
theorem absorb_spec {supply : NodeSource} {absorbed paths : List (List (Fin FANOUT))}
    {rest : List Wanted} {state : Reconciliation} (hbudget : written.length ≤ state.maxNodes)
    (h : Outstanding localSource localRoot localEntries remoteSource remoteRoot remoteEntries
      absorbed paths (state.wanted ++ rest) state)
    (hsupply : ∀ item ∈ rest, supply item.remote.hash = none ∨
      supply item.remote.hash = remoteSource item.remote.hash) :
    ∃ next absorbed' paths',
      rest.foldlM (Reconciliation.absorbOne localSource supply) state = .ok next ∧
      Outstanding localSource localRoot localEntries remoteSource remoteRoot remoteEntries
        absorbed' paths' next.wanted next ∧ next.maxNodes = state.maxNodes ∧
          next.fetched = state.fetched +
            rest.countP fun item => (supply item.remote.hash).isSome := by
  induction rest generalizing absorbed paths state with
  | nil =>
      rw [List.append_nil] at h
      exact ⟨state, absorbed, paths, rfl, h, rfl, rfl⟩
  | cons item rest ih =>
      obtain ⟨hhead, htail⟩ := List.forall_mem_cons.mp hsupply
      obtain ⟨middle, absorbed', paths', hone, hmiddle, hmax, hfetched⟩ :=
        absorbOne_spec hlocal hremote hcollision hwritten hbudget h hhead
      obtain ⟨next, absorbed'', paths'', hfold, hnext, hmax', hfetched'⟩ :=
        ih (hmax ▸ hbudget) hmiddle htail
      refine ⟨next, absorbed'', paths'', foldlM_cons_eq_ok.mpr ⟨middle, hone, hfold⟩, hnext,
        hmax'.trans hmax, ?_⟩
      rw [hfetched', hfetched, List.countP_cons, Nat.add_assoc, Nat.add_comm (List.countP _ _)]

include hlocal hremote hcollision in
/-- Where it begins, the remote root is wanted, unless the local root is the same. -/
theorem outstanding_begin (maxNodes : ℕ) : ∃ paths,
    Outstanding localSource localRoot localEntries remoteSource remoteRoot remoteEntries [] paths
      (Reconciliation.begin_ localRoot remoteRoot maxNodes).wanted
      (Reconciliation.begin_ localRoot remoteRoot maxNodes) := by
  cases hroot : remoteRoot with
  | none =>
      have hempty : remoteEntries = [] :=
        canonicalRef_eq_none.mp (hremote.root_eq.symm.trans hroot)
      refine ⟨[], .nil, List.nodup_nil, nofun, nofun, nofun, nofun, rfl, nofun, fun entry hentry => ?_⟩
      rw [hempty] at hentry
      cases hentry
  | some remote =>
      by_cases hsame : some remote = localRoot
      · have hsets : localEntries = remoteEntries :=
          entries_eq_of_ref_eq hlocal.set hremote.set rfl (Nat.zero_le _) hcollision
            (hlocal.root_eq.symm.trans hsame.symm) (hremote.root_eq.symm.trans hroot)
        have hwanted : (Reconciliation.begin_ localRoot (some remote) maxNodes).wanted = [] :=
          if_neg (not_not.mpr hsame)
        rw [hwanted]
        exact ⟨[], .nil, List.nodup_nil, nofun, nofun, nofun, nofun, rfl, nofun,
          fun entry hentry hmissing => absurd (hsets ▸ hentry) hmissing⟩
      · have hwanted : (Reconciliation.begin_ localRoot (some remote) maxNodes).wanted =
            [⟨remote, localRoot, 0⟩] := if_pos hsame
        rw [hwanted]
        refine ⟨[[]], .cons ⟨rfl, rfl, ?_⟩ .nil, List.nodup_singleton _, fun path s hpath => ?_,
          fun path hpath => ?_, nofun, nofun, rfl, nofun,
          fun entry _ _ => Or.inr ⟨[], List.mem_singleton_self _, under_nil _⟩⟩
        · cases hlocalRoot : localRoot with
          | none =>
              refine .nothing ?_ rfl
              rw [below_nil]
              exact canonicalRef_eq_none.mp (hlocal.root_eq.symm.trans hlocalRoot)
          | some child => exact .node rfl
        · rw [List.append_nil, List.mem_singleton] at hpath
          exact absurd hpath (List.append_ne_nil_of_right_ne_nil _ (List.cons_ne_nil _ _))
        · rw [List.append_nil, List.mem_singleton] at hpath
          rw [hpath]
          exact Ne.symm hsame

/-! ### Any schedule of rounds -/

omit [NodeHash] in
/-- Neighbours of one key dropped, a list ordered by key is strictly sorted; where a key
names one entry, nothing is lost. -/
theorem dedupEntries_spec {entries : List IndexEntry}
    (hle : entries.Pairwise fun a b => a.key ≤ b.key)
    (hkey : ∀ a ∈ entries, ∀ b ∈ entries, a.key = b.key → a = b) :
    Sorted IndexEntry.key (dedupEntries entries) ∧
      ∀ entry, entry ∈ dedupEntries entries ↔ entry ∈ entries := by
  induction entries with
  | nil => exact ⟨List.Pairwise.nil, fun _ => Iff.rfl⟩
  | cons entry entries ih =>
      obtain ⟨hhead, htail⟩ := List.pairwise_cons.mp hle
      obtain ⟨hsorted, hmem⟩ := ih htail fun a ha b hb =>
        hkey a (List.mem_cons_of_mem _ ha) b (List.mem_cons_of_mem _ hb)
      unfold dedupEntries
      cases hdedup : dedupEntries entries with
      | nil =>
          rw [hdedup] at hmem
          refine ⟨List.pairwise_singleton _ _, fun other => ?_⟩
          rw [List.mem_cons, List.mem_cons, hmem]
      | cons next more =>
          rw [hdedup] at hmem hsorted
          have hnext : next ∈ entries := (hmem next).mp List.mem_cons_self
          by_cases hsame : next.key = entry.key
          · obtain rfl := hkey next (List.mem_cons_of_mem _ hnext) entry List.mem_cons_self hsame
            simp only [if_true]
            refine ⟨hsorted, fun other => ?_⟩
            rw [hmem, List.mem_cons, or_iff_right_of_imp]
            rintro rfl
            exact hnext
          · simp only [hsame, if_false]
            refine ⟨List.pairwise_cons.mpr ⟨fun other hother => ?_, hsorted⟩, fun other => ?_⟩
            · have hlt := lt_of_le_of_ne (hhead next hnext) (Ne.symm hsame)
              rcases List.mem_cons.mp hother with rfl | hother
              · exact hlt
              · exact hlt.trans ((List.pairwise_cons.mp hsorted).1 other hother)
            · rw [List.mem_cons, hmem, List.mem_cons]

/-- A peer supplies some of the nodes it was asked for. -/
def Supplies (remoteSource supply : NodeSource) (hashes : List Bytes32) : Prop :=
  ∀ hash ∈ hashes, supply hash = none ∨ supply hash = remoteSource hash

/-- Rounds of fetching, each supplied with any part of what it asked for; the number is of
those that were supplied anything. -/
inductive Rounds (localSource remoteSource : NodeSource) (start : Reconciliation) :
    ℕ → Reconciliation → Prop
  | start : Rounds localSource remoteSource start 0 start
  | round {n : ℕ} {state next : Reconciliation} {hashes : List Bytes32} {supply : NodeSource} :
      Rounds localSource remoteSource start n state → state.step.1 = .fetch hashes →
      Supplies remoteSource supply hashes → state.step.2.absorb localSource supply = .ok next →
      Rounds localSource remoteSource start
        (if hashes.any fun hash => (supply hash).isSome then n + 1 else n) next

omit [NodeHash] in
/-- The start of a path wanted or absorbed was wanted before it. -/
theorem Outstanding.mem_of_shorter {absorbed paths : List (List (Fin FANOUT))} {items : List Wanted}
    {state : Reconciliation}
    (h : Outstanding localSource localRoot localEntries remoteSource remoteRoot remoteEntries
      absorbed paths items state) {shorter : List (Fin FANOUT)} (hpath : path ∈ paths ++ absorbed)
    (hshorter : shorter <+: path) : shorter ∈ paths ++ absorbed := by
  induction path using List.reverseRecOn with
  | nil => rwa [List.prefix_nil.mp hshorter]
  | append_singleton path s ih =>
      rcases List.prefix_concat_iff.mp hshorter with rfl | hshorter
      · exact hpath
      · exact ih (List.mem_append_right _ (h.parent path s hpath)) hshorter

omit [NodeHash] in
/-- What is asked for differs from what the local side has there, and all the way there. -/
theorem Outstanding.asked {absorbed paths : List (List (Fin FANOUT))} {items : List Wanted}
    {state : Reconciliation}
    (h : Outstanding localSource localRoot localEntries remoteSource remoteRoot remoteEntries
      absorbed paths items state) (hitem : item ∈ items) :
    ∃ path, descendTo remoteSource remoteRoot path = some item.remote ∧ ∀ shorter, shorter <+: path →
      descendTo localSource localRoot shorter ≠ descendTo remoteSource remoteRoot shorter := by
  obtain ⟨i, hi, rfl⟩ := List.getElem_of_mem hitem
  have hlen : i < paths.length := h.wants.length_eq ▸ hi
  refine ⟨paths[i], ((List.forall₂_iff_get.mp h.wants).2 i hlen hi).remote, fun shorter hshorter => ?_⟩
  exact h.differs _ (h.mem_of_shorter (List.mem_append_left _ (List.getElem_mem hlen)) hshorter)

include hremote in
/-- **With nothing wanted the difference is complete.** -/
theorem Outstanding.complete {absorbed paths : List (List (Fin FANOUT))} {state : Reconciliation}
    (h : Outstanding localSource localRoot localEntries remoteSource remoteRoot remoteEntries
      absorbed paths [] state) :
    Sorted IndexEntry.key (dedupEntries (sortByKey IndexEntry.key state.missing)) ∧
      ∀ entry, entry ∈ dedupEntries (sortByKey IndexEntry.key state.missing) ↔
        entry ∈ remoteEntries ∧ entry ∉ localEntries := by
  obtain ⟨hsorted, hmem⟩ := dedupEntries_spec (pairwise_sortByKey IndexEntry.key state.missing)
    fun a ha b hb => hremote.set.sorted.key_inj (h.sound a (mem_sortByKey.mp ha)).1
      (h.sound b (mem_sortByKey.mp hb)).1
  refine ⟨hsorted, fun entry => (hmem entry).trans (mem_sortByKey.trans ⟨h.sound entry, ?_⟩)⟩
  rintro ⟨hentry, hmissing⟩
  rcases h.covers entry hentry hmissing with hfound | ⟨path, hpath, -⟩
  · exact hfound
  · rw [List.forall₂_nil_right_iff.mp h.wants] at hpath
    cases hpath

include hlocal hremote hcollision hwritten in
/-- A round from an outstanding state that is within its budget succeeds. -/
theorem Outstanding.round {absorbed paths : List (List (Fin FANOUT))} {state : Reconciliation}
    {supply : NodeSource} (hbudget : written.length ≤ state.maxNodes)
    (h : Outstanding localSource localRoot localEntries remoteSource remoteRoot remoteEntries
      absorbed paths state.wanted state)
    (hsupply : Supplies remoteSource supply (state.wanted.map fun item => item.remote.hash)) :
    ∃ next absorbed' paths', state.absorb localSource supply = .ok next ∧
      Outstanding localSource localRoot localEntries remoteSource remoteRoot remoteEntries
        absorbed' paths' next.wanted next ∧ next.maxNodes = state.maxNodes ∧
          next.fetched = state.fetched +
            state.wanted.countP fun item => (supply item.remote.hash).isSome :=
  @absorb_spec _ _ _ _ _ _ _ hlocal hremote hcollision _ hwritten supply absorbed paths
    state.wanted { state with wanted := [] } hbudget
    ⟨h.wants, h.nodup, h.parent, h.differs, h.remote, h.seen, h.fetched, h.sound, h.covers⟩
    fun _ hitem => hsupply _ (List.mem_map_of_mem hitem)

omit [NodeHash] in
/-- What a step asks for is what is wanted. -/
theorem Reconciliation.step_eq_fetch {state : Reconciliation} {hashes : List Bytes32}
    (h : state.step.1 = .fetch hashes) :
    hashes = (state.wanted.map fun item => item.remote.hash) ∧ state.step.2 = state := by
  unfold Reconciliation.step at h ⊢
  split at h
  case isTrue => cases h
  case isFalse hwanted =>
      cases h
      rw [if_neg hwanted]
      exact ⟨rfl, rfl⟩

include hlocal hremote hcollision hwritten in
/-- **Every schedule of rounds keeps the invariant**, and every round that was supplied
anything has absorbed a node more. -/
theorem Rounds.outstanding {maxNodes : ℕ} (hbudget : written.length ≤ maxNodes) {n : ℕ}
    {state : Reconciliation} (h : Rounds localSource remoteSource
      (Reconciliation.begin_ localRoot remoteRoot maxNodes) n state) :
    (∃ absorbed paths, Outstanding localSource localRoot localEntries remoteSource remoteRoot
      remoteEntries absorbed paths state.wanted state) ∧ state.maxNodes = maxNodes ∧
        n ≤ state.fetched := by
  induction h with
  | start =>
      obtain ⟨paths, hbegin⟩ := outstanding_begin hlocal hremote hcollision maxNodes
      exact ⟨⟨[], paths, hbegin⟩, rfl, Nat.zero_le _⟩
  | @round n state next hashes supply _ hstep hsupply habsorb ih =>
      obtain ⟨⟨absorbed, paths, hstate⟩, hmax, hn⟩ := ih
      obtain ⟨rfl, hsame⟩ := Reconciliation.step_eq_fetch hstep
      obtain ⟨next', absorbed', paths', hok, hnext, hmax', hfetched⟩ :=
        hstate.round hlocal hremote hcollision hwritten (hmax ▸ hbudget) hsupply
      rw [hsame, hok, Except.ok.injEq] at habsorb
      subst habsorb
      refine ⟨⟨absorbed', paths', hnext⟩, hmax'.trans hmax, ?_⟩
      split
      case isTrue hany =>
          rw [List.any_map] at hany
          have hpos := List.countP_pos_iff.mpr (List.any_eq_true.mp hany)
          simp only [Function.comp_def] at hpos
          omega
      case isFalse => omega

end Rounds

/-! ## The difference -/

section Schedule

variable [NodeHash]

/-- **Reconciliation finds exactly the difference.**  Whatever part of what is asked for a
round is supplied with, no round fails; the rounds that are supplied anything are no more
than the remote nodes, and while a node is wanted they are fewer; and with none wanted the
answer is the remote entries that are not local ones, each once and in key order.  What is
asked for sits where the local side has another reference, or none, all the way down. -/
theorem reconciliation_finds_difference {localEntries remoteEntries : List IndexEntry}
    {localSource remoteSource : NodeSource} {localRoot remoteRoot : Option ChildRef}
    {localWritten remoteWritten : NodeSink} {maxNodes : ℕ}
    (hlocal : buildIndex localEntries [] = .ok (localRoot, localWritten))
    (hlocalHeld : Holds localSource localWritten)
    (hremote : buildIndex remoteEntries [] = .ok (remoteRoot, remoteWritten))
    (hremoteHeld : Holds remoteSource remoteWritten)
    (hcollision : NoCollision localWritten remoteWritten)
    (hbudget : remoteWritten.length ≤ maxNodes) {n : ℕ} {state : Reconciliation}
    (hrounds : Rounds localSource remoteSource
      (Reconciliation.begin_ localRoot remoteRoot maxNodes) n state) :
    n ≤ remoteWritten.length ∧
      ((∃ entries, state.step.1 = .complete entries ∧ Sorted IndexEntry.key entries ∧
          ∀ entry, entry ∈ entries ↔ entry ∈ remoteEntries ∧ entry ∉ localEntries) ∨
        ∃ hashes, state.step.1 = .fetch hashes ∧ hashes ≠ [] ∧ n < remoteWritten.length ∧
          (∀ hash ∈ hashes, ∃ path child,
            descendTo remoteSource remoteRoot path = some child ∧ child.hash = hash ∧
              ∀ shorter, shorter <+: path →
                descendTo localSource localRoot shorter ≠
                  descendTo remoteSource remoteRoot shorter) ∧
          ∀ supply, Supplies remoteSource supply hashes →
            ∃ next, state.step.2.absorb localSource supply = .ok next) := by
  have hlocalTree := Tree.of_buildIndex (countable_of_buildIndex hlocal) hlocal hlocalHeld
  have hremoteTree := Tree.of_buildIndex (countable_of_buildIndex hremote) hremote hremoteHeld
  have hlocalNodes := mem_written_of_buildIndex hlocal
  have hremoteNodes := mem_written_of_buildIndex hremote
  have hnodes : NoCollision (canonicalNodes (MAX_DEPTH + 1) 0 (sortByKey IndexEntry.key localEntries))
      (canonicalNodes (MAX_DEPTH + 1) 0 (sortByKey IndexEntry.key remoteEntries)) :=
    fun bytes hbytes bytes' hbytes' => hcollision bytes ((hlocalNodes bytes).mpr hbytes) bytes'
      ((hremoteNodes bytes').mpr hbytes')
  have hwritten := fun bytes hbytes => (hremoteNodes bytes).mpr hbytes
  obtain ⟨⟨absorbed, paths, hstate⟩, hmax, hn⟩ :=
    Rounds.outstanding hlocalTree hremoteTree hnodes hwritten hbudget hrounds
  have hle := hstate.length_le hremoteTree hwritten
  refine ⟨by omega, ?_⟩
  by_cases hwanted : state.wanted = []
  · left
    rw [hwanted] at hstate
    obtain ⟨hsorted, hmem⟩ := hstate.complete hremoteTree
    refine ⟨_, ?_, hsorted, fun entry => (hmem entry).trans ?_⟩
    · rw [Reconciliation.step, if_pos hwanted]
    · rw [mem_sortByKey, mem_sortByKey]
  · right
    have hstep : state.step =
        (.fetch (state.wanted.map fun item => item.remote.hash), state) := if_neg hwanted
    refine ⟨state.wanted.map fun item => item.remote.hash, congrArg Prod.fst hstep,
      fun hnil => hwanted (List.map_eq_nil_iff.mp hnil), ?_, fun hash hhash => ?_,
      fun supply hsupply => ?_⟩
    · have hpos := List.length_pos_iff.mpr hwanted
      omega
    · obtain ⟨item, hitem, rfl⟩ := List.mem_map.mp hhash
      obtain ⟨path, hpath, hdiffers⟩ := hstate.asked hitem
      exact ⟨path, item.remote, hpath, rfl, hdiffers⟩
    · obtain ⟨next, -, -, hok, -⟩ :=
        hstate.round hlocalTree hremoteTree hnodes hwritten (hmax ▸ hbudget) hsupply
      exact ⟨next, by rw [hstep]; exact hok⟩

end Schedule

/-- The key of ones. -/
def onesKey : IndexKey := ⟨⟨List.replicate 32 255⟩, rfl⟩

/-- A peer with an entry more: one round finds it. -/
theorem onesEntry_found :
    let _ := plainHash
    let here : List IndexEntry := [⟨zeroKey, ⟨[7]⟩⟩]
    let there : List IndexEntry := [⟨zeroKey, ⟨[7]⟩⟩, ⟨onesKey, ⟨[9]⟩⟩]
    let state : Reconciliation :=
      ⟨[], [⟨onesKey, ⟨[9]⟩⟩], insert (nodeHash (IndexNode.leaf there).encode) ∅, 1, 1⟩
    1 ≤ 1 ∧ ((∃ entries, state.step.1 = .complete entries ∧ Sorted IndexEntry.key entries ∧
        ∀ entry, entry ∈ entries ↔ entry ∈ there ∧ entry ∉ here) ∨
      ∃ hashes, state.step.1 = .fetch hashes ∧ hashes ≠ [] ∧ 1 < 1 ∧
        (∀ hash ∈ hashes, ∃ path child,
          descendTo (sourceOf [(IndexNode.leaf there).encode])
              (some ⟨nodeHash (IndexNode.leaf there).encode, 2⟩) path = some child ∧
            child.hash = hash ∧ ∀ shorter, shorter <+: path →
              descendTo (sourceOf [(IndexNode.leaf here).encode])
                  (some ⟨nodeHash (IndexNode.leaf here).encode, 1⟩) shorter ≠
                descendTo (sourceOf [(IndexNode.leaf there).encode])
                  (some ⟨nodeHash (IndexNode.leaf there).encode, 2⟩) shorter) ∧
        ∀ supply, Supplies (sourceOf [(IndexNode.leaf there).encode]) supply hashes →
          ∃ next, state.step.2.absorb (sourceOf [(IndexNode.leaf here).encode]) supply =
            .ok next) := by
  let _ := plainHash
  have hheld : ∀ entries : List IndexEntry, Holds (sourceOf [(IndexNode.leaf entries).encode])
      [(IndexNode.leaf entries).encode] := by
    intro entries bytes hbytes
    obtain rfl := List.mem_singleton.mp hbytes
    exact List.find?_cons_of_pos (decide_eq_true rfl)
  have hstart : Rounds (sourceOf [(IndexNode.leaf [⟨zeroKey, ⟨[7]⟩⟩]).encode])
      (sourceOf [(IndexNode.leaf [⟨zeroKey, ⟨[7]⟩⟩, ⟨onesKey, ⟨[9]⟩⟩]).encode]) _ 0
      (Reconciliation.begin_ (some ⟨nodeHash (IndexNode.leaf [⟨zeroKey, ⟨[7]⟩⟩]).encode, 1⟩)
        (some ⟨nodeHash (IndexNode.leaf [⟨zeroKey, ⟨[7]⟩⟩, ⟨onesKey, ⟨[9]⟩⟩]).encode, 2⟩) 1) :=
    .start
  have hround := @Rounds.round _ _ _ _ _ _ ⟨[], [⟨onesKey, ⟨[9]⟩⟩],
    insert (nodeHash (IndexNode.leaf [⟨zeroKey, ⟨[7]⟩⟩, ⟨onesKey, ⟨[9]⟩⟩]).encode) ∅, 1, 1⟩ _ _
      hstart rfl (fun _ _ => Or.inr rfl) rfl
  rw [if_pos (by decide +kernel)] at hround
  exact reconciliation_finds_difference rfl (hheld _) rfl (hheld _)
    (fun bytes hbytes bytes' hbytes' heq => by
      obtain rfl := List.mem_singleton.mp hbytes
      obtain rfl := List.mem_singleton.mp hbytes'
      exact absurd heq (by decide +kernel)) le_rfl hround

end Lait.Radix
