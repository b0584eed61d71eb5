import Lait.Graph.Walks

/-!
# Strongly connected components in two passes

The first pass explores forwards with an explicit stack of nodes and the successors they
have left, and lists nodes as they are finished.  The second takes the nodes latest first
and collects, over reversed edges, what is not collected yet.  Both look at the active
nodes only.

The invariant of the first pass, `Exploring`, is about the list of finished nodes: what a
finished node leads to stands at or before it, unless a node mutually reached with it
stands later or is still on the stack.  Only finishing a node has anything to show, and
there the stack is a path to it, so a successor that is still on the stack is mutually
reached.  With the stack empty, the last listed node of each component stands at or behind
everything the component leads to (`exists_last`).  So when the second pass takes the
latest node left, whoever leads to it and is left belongs to its component.
-/

namespace Lait.Graph

variable {α : Type*}

/-- The edges between active nodes. -/
def ActiveEdge (succ : α → List α) (active : α → Bool) (a b : α) : Prop :=
  active a = true ∧ active b = true ∧ b ∈ succ a

section Definitions

variable [LinearOrder α] [Fintype α] (nodes : List α) (succ : α → List α) (active : α → Bool)

/-- The active nodes with an edge to a node, in listing order. -/
def reversed (target : α) : List α :=
  nodes.flatMap fun source =>
    if active source then
      ((succ source).filter fun next => active next && next = target).map fun _ => source
    else []

/-- What a forward exploration has left to do, counting two for every node not seen. -/
def effort (stack : List (α × List α)) (seen : Finset α) : ℕ :=
  ∑ v ∈ Finset.univ \ seen, ((succ v).length + 2) +
    (stack.map fun entry => entry.2.length + 1).sum

/-- A forward exploration: a stack of nodes with the successors left to look at, top first,
the nodes seen and the nodes finished. -/
def explore {α : Type*} [LinearOrder α] [Fintype α] (succ : α → List α) (active : α → Bool) :
    List (α × List α) → Finset α → List α → Finset α × List α
  | [], seen, order => (seen, order)
  | (node, []) :: stack, seen, order => explore succ active stack seen (order ++ [node])
  | (node, next :: rest) :: stack, seen, order =>
      if active next = true ∧ next ∉ seen then
        explore succ active ((next, succ next) :: (node, rest) :: stack) (insert next seen) order
      else explore succ active ((node, rest) :: stack) seen order
termination_by stack seen => effort succ stack seen
decreasing_by
  · simp [effort]
  · rename_i h
    have hsum := Finset.add_sum_erase (Finset.univ \ seen) (fun v => (succ v).length + 2)
      (Finset.mem_sdiff.mpr ⟨Finset.mem_univ next, h.2⟩)
    simp only [effort, Finset.sdiff_insert, List.map_cons, List.sum_cons, List.length_cons]
    omega
  · simp [effort]

/-- The first pass: every active node finished, in finishing order. -/
def finishing : Finset α × List α :=
  nodes.foldl
    (fun state start =>
      if active start = true ∧ start ∉ state.1 then
        explore succ active [(start, succ start)] (insert start state.1) state.2
      else state)
    (∅, [])

/-- One reversed edge of the second pass. -/
def mark (state : Finset α × List α) (next : α) : Finset α × List α :=
  if next ∈ state.1 then state else (insert next state.1, next :: state.2)

omit [Fintype α] in
/-- What marking reversed edges puts on the stack is what it newly sees. -/
theorem foldl_mark (edges : List α) (state : Finset α × List α) :
    ∃ fresh : List α, fresh.Nodup ∧ (∀ v ∈ fresh, v ∈ edges ∧ v ∉ state.1) ∧
      (edges.foldl mark state).2 = fresh ++ state.2 ∧
      (∀ v, v ∈ (edges.foldl mark state).1 ↔ v ∈ state.1 ∨ v ∈ fresh) ∧
      ∀ v ∈ edges, v ∈ (edges.foldl mark state).1 := by
  induction edges generalizing state with
  | nil => exact ⟨[], by simp⟩
  | cons next edges ih =>
      obtain ⟨fresh, hnodup, hfresh, hstack, hseen, hall⟩ := ih (mark state next)
      rw [List.foldl_cons]
      by_cases hnext : next ∈ state.1
      · have hmark : mark state next = state := if_pos hnext
        rw [hmark] at hfresh hstack hseen hall ⊢
        refine ⟨fresh, hnodup, fun v hv => ?_, hstack, hseen, fun v hv => ?_⟩
        · exact ⟨List.mem_cons_of_mem _ (hfresh v hv).1, (hfresh v hv).2⟩
        · rcases List.mem_cons.mp hv with rfl | hv
          · exact (hseen v).mpr (Or.inl hnext)
          · exact hall v hv
      · have hmark : mark state next = (insert next state.1, next :: state.2) := if_neg hnext
        rw [hmark] at hfresh hstack hseen hall ⊢
        have hnot : next ∉ fresh := fun hv =>
          (hfresh next hv).2 (Finset.mem_insert_self next state.1)
        refine ⟨fresh ++ [next], hnodup.append (List.nodup_singleton next) (by simpa using hnot),
          fun v hv => ?_, by simp [hstack], fun v => ?_, fun v hv => ?_⟩
        · rcases List.mem_append.mp hv with hv | hv
          · exact ⟨List.mem_cons_of_mem _ (hfresh v hv).1,
              fun hmem => (hfresh v hv).2 (Finset.mem_insert_of_mem hmem)⟩
          · obtain rfl := List.mem_singleton.mp hv
            exact ⟨List.mem_cons_self, hnext⟩
        · rw [hseen v]
          simp only [Finset.mem_insert, List.mem_append, List.mem_singleton]
          tauto
        · rcases List.mem_cons.mp hv with rfl | hv
          · exact (hseen v).mpr (Or.inl (Finset.mem_insert_self _ _))
          · exact hall v hv

/-- A backward collection: the stack, the nodes seen and the component so far. -/
def collect {α : Type*} [LinearOrder α] [Fintype α] (reverse : α → List α) :
    List α → Finset α → List α → Finset α × List α
  | [], seen, component => (seen, component)
  | node :: stack, seen, component =>
      let marked := (reverse node).reverse.foldl mark (seen, stack)
      collect reverse marked.2 marked.1 (component ++ [node])
termination_by stack seen => (Finset.univ \ seen).card + stack.length
decreasing_by
  obtain ⟨fresh, hnodup, hfresh, hstack, hseen, -⟩ := foldl_mark (reverse node).reverse (seen, stack)
  have hunion : ((reverse node).reverse.foldl mark (seen, stack)).1 = seen ∪ fresh.toFinset := by
    ext v
    rw [Finset.mem_union, List.mem_toFinset]
    exact hseen v
  have hdisjoint : fresh.toFinset ⊆ Finset.univ \ seen := fun v hv =>
    Finset.mem_sdiff.mpr ⟨Finset.mem_univ v, (hfresh v (List.mem_toFinset.mp hv)).2⟩
  have hcard := Finset.card_sdiff_add_card_eq_card hdisjoint
  rw [List.toFinset_card_of_nodup hnodup] at hcard
  have hlen : ((reverse node).reverse.foldl mark (seen, stack)).2.length
      = fresh.length + stack.length := by
    rw [hstack, List.length_append]
  rw [hlen, hunion, Finset.sdiff_union_distrib, ← Finset.sdiff_sdiff_left', List.length_cons]
  omega

/-- One start of the second pass. -/
def gather (reverse : α → List α) (state : Finset α × List (List α)) (start : α) :
    Finset α × List (List α) :=
  if start ∈ state.1 then state
  else
    let collected := collect reverse [start] (insert start state.1) []
    (collected.1, state.2 ++ [collected.2.insertionSort (· ≤ ·)])

/-- The strongly connected components of the active nodes. -/
def stronglyConnected : List (List α) :=
  ((finishing nodes succ active).2.reverse.foldl (gather (reversed nodes succ active)) (∅, [])).2

end Definitions

/-! ## The first pass -/

section Forward

variable {succ : α → List α} {active : α → Bool} {stack : List (α × List α)} {seen : Finset α}
  {order : List α}

/-- What a forward exploration keeps.  `split` is the property the second pass lives on: what a
finished node leads to stands at or before it, unless its component reaches further. -/
structure Exploring (succ : α → List α) (active : α → Bool) (stack : List (α × List α))
    (seen : Finset α) (order : List α) : Prop where
  nodup : (order ++ stack.map Prod.fst).Nodup
  seen_iff : ∀ v, v ∈ seen ↔ v ∈ order ∨ v ∈ stack.map Prod.fst
  all_active : ∀ v ∈ seen, active v = true
  path : (stack.map Prod.fst).IsChain fun upper lower => ActiveEdge succ active lower upper
  remaining : ∀ entry ∈ stack, entry.2 ⊆ succ entry.1
  cursor : ∀ entry ∈ stack, ∀ y, ActiveEdge succ active entry.1 y → y ∈ seen ∨ y ∈ entry.2
  finished : ∀ f ∈ order, ∀ y, ActiveEdge succ active f y → y ∈ seen
  split : ∀ before f after, order = before ++ f :: after → ∀ y,
    Relation.ReflTransGen (ActiveEdge succ active) f y →
      y ∈ before ∨ y = f ∨
        ∃ s ∈ after ++ stack.map Prod.fst, Mutual (ActiveEdge succ active) s f

/-- Every node of the stack leads to the top one. -/
theorem Exploring.leads_to_top {node : α} {rest : List α}
    (h : Exploring succ active ((node, rest) :: stack) seen order) {s : α}
    (hs : s ∈ stack.map Prod.fst) : Relation.ReflTransGen (ActiveEdge succ active) s node := by
  have hchain : (node :: stack.map Prod.fst).IsChain fun upper lower =>
      Relation.ReflTransGen (ActiveEdge succ active) lower upper :=
    h.path.imp fun _ _ edge => .single edge
  have htrans : IsTrans α fun upper lower =>
      Relation.ReflTransGen (ActiveEdge succ active) lower upper :=
    ⟨fun _ _ _ hab hbc => hbc.trans hab⟩
  exact (List.pairwise_cons.mp (List.isChain_iff_pairwise.mp hchain)).1 s hs

/-- A node with no successors left is finished. -/
theorem Exploring.finish {node : α} (h : Exploring succ active ((node, []) :: stack) seen order) :
    Exploring succ active stack seen (order ++ [node]) where
  nodup := by
    simpa using h.nodup
  seen_iff v := by
    rw [h.seen_iff v]
    simp [or_assoc]
  all_active := h.all_active
  path := (List.isChain_cons.mp h.path).2
  remaining entry hentry := h.remaining entry (List.mem_cons_of_mem _ hentry)
  cursor entry hentry := h.cursor entry (List.mem_cons_of_mem _ hentry)
  finished f hf y edge := by
    rcases List.mem_append.mp hf with hf | hf
    · exact h.finished f hf y edge
    · obtain rfl := List.mem_singleton.mp hf
      exact (h.cursor (f, []) List.mem_cons_self y edge).resolve_right (by simp)
  split before f after heq y hreach := by
    rcases List.eq_nil_or_concat' after with rfl | ⟨after, last, rfl⟩
    · obtain ⟨rfl, hlast⟩ := List.append_inj' heq rfl
      obtain rfl := List.singleton_inj.mp hlast
      -- Everything the node leads to is listed, or closes a loop through the stack.
      rw [List.nil_append]
      induction hreach with
      | refl => exact Or.inr (Or.inl rfl)
      | @tail w y hw edge ih =>
          have hseen : y ∈ seen ∨ ∃ s ∈ stack.map Prod.fst,
              Mutual (ActiveEdge succ active) s node := by
            rcases ih with hlisted | rfl | hmutual
            · exact Or.inl (h.finished w hlisted y edge)
            · exact Or.inl ((h.cursor (w, []) List.mem_cons_self y edge).resolve_right (by simp))
            · exact Or.inr hmutual
          rcases hseen with hseen | hmutual
          · rcases (h.seen_iff y).mp hseen with hy | hy
            · exact Or.inl hy
            · rcases List.mem_cons.mp hy with rfl | hy
              · exact Or.inr (Or.inl rfl)
              · exact Or.inr (Or.inr ⟨y, hy, h.leads_to_top hy, hw.tail edge⟩)
          · exact Or.inr (Or.inr hmutual)
    · rw [← List.cons_append, ← List.append_assoc] at heq
      obtain ⟨horder, hlast⟩ := List.append_inj' heq rfl
      obtain rfl := List.singleton_inj.mp hlast
      rcases h.split before f after horder y hreach with hy | hy | ⟨s, hs, hmutual⟩
      · exact Or.inl hy
      · exact Or.inr (Or.inl hy)
      · exact Or.inr (Or.inr ⟨s, by simpa using hs, hmutual⟩)

/-- A successor that is not followed is dropped. -/
theorem Exploring.skip {node next : α} {rest : List α}
    (h : Exploring succ active ((node, next :: rest) :: stack) seen order)
    (hskip : active next = true → next ∈ seen) :
    Exploring succ active ((node, rest) :: stack) seen order where
  nodup := h.nodup
  seen_iff := h.seen_iff
  all_active := h.all_active
  path := h.path
  remaining entry hentry := by
    rcases List.mem_cons.mp hentry with rfl | hentry
    · exact (List.cons_subset.mp (h.remaining _ List.mem_cons_self)).2
    · exact h.remaining entry (List.mem_cons_of_mem _ hentry)
  cursor entry hentry y edge := by
    rcases List.mem_cons.mp hentry with rfl | hentry
    · rcases h.cursor _ List.mem_cons_self y edge with hy | hy
      · exact Or.inl hy
      · rcases List.mem_cons.mp hy with rfl | hy
        · exact Or.inl (hskip edge.2.1)
        · exact Or.inr hy
    · exact h.cursor entry (List.mem_cons_of_mem _ hentry) y edge
  finished := h.finished
  split := h.split

variable [DecidableEq α]

/-- A successor not seen before goes on top of the stack. -/
theorem Exploring.push {node next : α} {rest : List α}
    (h : Exploring succ active ((node, next :: rest) :: stack) seen order)
    (hactive : active next = true) (hnew : next ∉ seen) :
    Exploring succ active ((next, succ next) :: (node, rest) :: stack) (insert next seen) order where
  nodup := by
    have hfresh : next ∉ order ++ ((node, next :: rest) :: stack).map Prod.fst := fun hmem =>
      hnew ((h.seen_iff next).mpr (List.mem_append.mp hmem))
    exact (List.nodup_middle).mpr (List.nodup_cons.mpr ⟨hfresh, h.nodup⟩)
  seen_iff v := by
    rw [Finset.mem_insert, h.seen_iff v]
    simp only [List.map_cons, List.mem_cons]
    tauto
  all_active v hv := by
    rcases Finset.mem_insert.mp hv with rfl | hv
    · exact hactive
    · exact h.all_active v hv
  path := by
    have hnode : active node = true := h.all_active node ((h.seen_iff node).mpr (by simp))
    have hedge : next ∈ succ node := h.remaining _ List.mem_cons_self List.mem_cons_self
    exact List.isChain_cons_cons.mpr ⟨⟨hnode, hactive, hedge⟩, h.path⟩
  remaining entry hentry := by
    rcases List.mem_cons.mp hentry with rfl | hentry
    · exact List.Subset.refl _
    · rcases List.mem_cons.mp hentry with rfl | hentry
      · exact (List.cons_subset.mp (h.remaining _ List.mem_cons_self)).2
      · exact h.remaining entry (List.mem_cons_of_mem _ hentry)
  cursor entry hentry y edge := by
    rcases List.mem_cons.mp hentry with rfl | hentry
    · exact Or.inr edge.2.2
    · rcases List.mem_cons.mp hentry with rfl | hentry
      · rcases h.cursor _ List.mem_cons_self y edge with hy | hy
        · exact Or.inl (Finset.mem_insert_of_mem hy)
        · rcases List.mem_cons.mp hy with rfl | hy
          · exact Or.inl (Finset.mem_insert_self _ _)
          · exact Or.inr hy
      · exact (h.cursor entry (List.mem_cons_of_mem _ hentry) y edge).imp_left
          Finset.mem_insert_of_mem
  finished f hf y edge := Finset.mem_insert_of_mem (h.finished f hf y edge)
  split before f after heq y hreach := by
    rcases h.split before f after heq y hreach with hy | hy | ⟨s, hs, hmutual⟩
    · exact Or.inl hy
    · exact Or.inr (Or.inl hy)
    · refine Or.inr (Or.inr ⟨s, ?_, hmutual⟩)
      simp only [List.map_cons, List.mem_append, List.mem_cons] at hs ⊢
      tauto

end Forward

section Passes

variable [LinearOrder α] [Fintype α] {nodes : List α} {succ : α → List α} {active : α → Bool}

/-- **An exploration finishes what it saw**, and keeps what was seen and finished. -/
theorem Exploring.explore {stack : List (α × List α)} {seen : Finset α} {order : List α}
    (h : Exploring succ active stack seen order) :
    Exploring succ active [] (explore succ active stack seen order).1
        (explore succ active stack seen order).2 ∧
      seen ⊆ (explore succ active stack seen order).1 := by
  fun_induction Graph.explore succ active stack seen order with
  | case1 seen order => exact ⟨h, subset_rfl⟩
  | case2 node stack seen order ih => exact ih h.finish
  | case3 node next rest stack seen order hnew ih =>
      obtain ⟨hexplored, hgrown⟩ := ih (h.push hnew.1 hnew.2)
      exact ⟨hexplored, (Finset.subset_insert _ _).trans hgrown⟩
  | case4 node next rest stack seen order hskip ih =>
      refine ih (h.skip fun hactive => ?_)
      by_contra hnew
      exact hskip ⟨hactive, hnew⟩

omit [Fintype α] in
/-- Between explorations a fresh active node may be started. -/
theorem Exploring.root {seen : Finset α} {order : List α} {start : α}
    (h : Exploring succ active [] seen order) (hactive : active start = true)
    (hnew : start ∉ seen) :
    Exploring succ active [(start, succ start)] (insert start seen) order where
  nodup := by
    have hfresh : start ∉ order := fun hmem => hnew ((h.seen_iff start).mpr (Or.inl hmem))
    have hnodup : order.Nodup := by simpa using h.nodup
    exact hnodup.append (List.nodup_singleton start) (by simpa using hfresh)
  seen_iff v := by
    have hv : v ∈ seen ↔ v ∈ order := by simpa using h.seen_iff v
    rw [Finset.mem_insert, hv]
    simp [or_comm]
  all_active v hv := by
    rcases Finset.mem_insert.mp hv with rfl | hv
    · exact hactive
    · exact h.all_active v hv
  path := List.isChain_singleton start
  remaining entry hentry := by
    obtain rfl := List.mem_singleton.mp hentry
    exact List.Subset.refl _
  cursor entry hentry y edge := by
    obtain rfl := List.mem_singleton.mp hentry
    exact Or.inr edge.2.2
  finished f hf y edge := Finset.mem_insert_of_mem (h.finished f hf y edge)
  split before f after heq y hreach := by
    rcases h.split before f after heq y hreach with hy | hy | ⟨s, hs, hmutual⟩
    · exact Or.inl hy
    · exact Or.inr (Or.inl hy)
    · exact Or.inr (Or.inr ⟨s, List.mem_append_left _ (by simpa using hs), hmutual⟩)

omit [LinearOrder α] [Fintype α] in
theorem exploring_nil : Exploring succ active [] (∅ : Finset α) [] := by
  constructor <;> simp

/-- **The first pass finishes every active node.** -/
theorem finishing_spec (hnodes : ∀ v, v ∈ nodes) :
    Exploring succ active [] (finishing nodes succ active).1 (finishing nodes succ active).2 ∧
      ∀ v, v ∈ (finishing nodes succ active).2 ↔ active v = true := by
  let next : Finset α × List α → α → Finset α × List α := fun state start =>
    if active start = true ∧ start ∉ state.1 then
      explore succ active [(start, succ start)] (insert start state.1) state.2
    else state
  have hrun : ∀ (starts : List α) (state : Finset α × List α),
      Exploring succ active [] state.1 state.2 →
        Exploring succ active [] (starts.foldl next state).1 (starts.foldl next state).2 ∧
          state.1 ⊆ (starts.foldl next state).1 ∧
          ∀ v ∈ starts, active v = true → v ∈ (starts.foldl next state).1 := by
    intro starts
    induction starts with
    | nil => exact fun state h => ⟨h, subset_rfl, by simp⟩
    | cons start starts ih =>
        intro state h
        have hstep : Exploring succ active [] (next state start).1 (next state start).2 ∧
            state.1 ⊆ (next state start).1 ∧
            (active start = true → start ∈ (next state start).1) := by
          by_cases hnew : active start = true ∧ start ∉ state.1
          · obtain ⟨hexplored, hgrown⟩ := (h.root hnew.1 hnew.2).explore
            simp only [next, if_pos hnew]
            exact ⟨hexplored, (Finset.subset_insert _ _).trans hgrown,
              fun _ => hgrown (Finset.mem_insert_self _ _)⟩
          · simp only [next, if_neg hnew]
            exact ⟨h, subset_rfl, fun hactive => by_contra fun hmem => hnew ⟨hactive, hmem⟩⟩
        obtain ⟨hrest, hgrown, hall⟩ := ih _ hstep.1
        refine ⟨hrest, hstep.2.1.trans hgrown, fun v hv hactive => ?_⟩
        rcases List.mem_cons.mp hv with rfl | hv
        · exact hgrown (hstep.2.2 hactive)
        · exact hall v hv hactive
  obtain ⟨hexplored, -, hall⟩ := hrun nodes (∅, []) exploring_nil
  change Exploring succ active [] (finishing nodes succ active).1
    (finishing nodes succ active).2 at hexplored
  refine ⟨hexplored, fun v => ?_⟩
  have hv : v ∈ (finishing nodes succ active).1 ↔ v ∈ (finishing nodes succ active).2 := by
    simpa using hexplored.seen_iff v
  exact ⟨fun hmem => hexplored.all_active v (hv.mpr hmem),
    fun hactive => hv.mp (hall v (hnodes v) hactive)⟩

omit [LinearOrder α] [Fintype α] in
/-- The last element of a list with a property. -/
theorem exists_last_of_mem {P : α → Prop} {l : List α} (h : ∃ x ∈ l, P x) :
    ∃ before z after, l = before ++ z :: after ∧ P z ∧ ∀ w ∈ after, ¬ P w := by
  induction l with
  | nil => simp at h
  | cons a l ih =>
      by_cases hrest : ∃ x ∈ l, P x
      · obtain ⟨before, z, after, heq, hz, hafter⟩ := ih hrest
        exact ⟨a :: before, z, after, by rw [heq, List.cons_append], hz, hafter⟩
      · push Not at hrest
        obtain ⟨x, hx, hPx⟩ := h
        rcases List.mem_cons.mp hx with rfl | hx
        · exact ⟨[], x, l, rfl, hPx, hrest⟩
        · exact absurd hPx (hrest x hx)

/-- **The last of a component stands at or behind all the component leads to.** -/
theorem exists_last (hnodes : ∀ v, v ∈ nodes) {x : α} (hx : active x = true) :
    ∃ before z after, (finishing nodes succ active).2 = before ++ z :: after ∧
      Mutual (ActiveEdge succ active) z x ∧
      ∀ y, Relation.ReflTransGen (ActiveEdge succ active) x y → y ∈ before ∨ y = z := by
  obtain ⟨hexplored, hall⟩ := @finishing_spec _ _ _ _ succ active hnodes
  obtain ⟨before, z, after, heq, hz, hlast⟩ := exists_last_of_mem
    (P := fun v => Mutual (ActiveEdge succ active) v x) ⟨x, (hall x).mpr hx, .refl x⟩
  refine ⟨before, z, after, heq, hz, fun y hy => ?_⟩
  rcases hexplored.split before z after heq y (hz.1.trans hy) with hbefore | heq' | ⟨s, hs, hmutual⟩
  · exact Or.inl hbefore
  · exact Or.inr heq'
  · exact absurd (hmutual.trans hz) (hlast s (by simpa using hs))

/-! ## The second pass -/

omit [Fintype α] in
theorem mem_reversed (hnodes : ∀ v, v ∈ nodes) {source target : α} :
    source ∈ reversed nodes succ active target ↔ ActiveEdge succ active source target := by
  simp only [reversed, List.mem_flatMap, ActiveEdge]
  constructor
  · rintro ⟨v, -, hv⟩
    split at hv
    case isTrue hactive =>
        obtain ⟨next, hnext, rfl⟩ := List.mem_map.mp hv
        simp only [List.mem_filter, Bool.and_eq_true, decide_eq_true_eq] at hnext
        obtain ⟨hmem, hactive', rfl⟩ := hnext
        exact ⟨hactive, hactive', hmem⟩
    case isFalse => cases hv
  · rintro ⟨hsource, htarget, hmem⟩
    refine ⟨source, hnodes source, ?_⟩
    rw [if_pos hsource]
    exact List.mem_map.mpr ⟨target, by simp [hmem, htarget], rfl⟩

/-- What a backward collection keeps. -/
structure Collecting (edge : α → α → Prop) (start : α) (before : Finset α) (stack : List α)
    (seen : Finset α) (component : List α) : Prop where
  nodup : (component ++ stack).Nodup
  seen_iff : ∀ v, v ∈ seen ↔ v ∈ before ∨ v ∈ component ++ stack
  fresh : ∀ v ∈ component ++ stack, v ∉ before
  leads : ∀ v ∈ component ++ stack, Relation.ReflTransGen edge v start
  closed : ∀ x ∈ component, ∀ w, edge w x → w ∈ seen
  start_mem : start ∈ component ++ stack

/-- **A collection ends with what leads to its start through nodes not seen before.** -/
theorem Collecting.collect {edge : α → α → Prop} {reverse : α → List α}
    (hreverse : ∀ w x, w ∈ reverse x ↔ edge w x) {start : α} {before : Finset α}
    {stack : List α} {seen : Finset α} {component : List α}
    (h : Collecting edge start before stack seen component) :
    Collecting edge start before [] (collect reverse stack seen component).1
      (collect reverse stack seen component).2 := by
  fun_induction Graph.collect reverse stack seen component with
  | case1 seen component => exact h
  | case2 node stack seen component marked ih =>
      obtain ⟨fresh, hnodup, hfresh, hstack, hseen, hall⟩ :=
        foldl_mark (reverse node).reverse (seen, stack)
      have hperm : (component ++ [node] ++ marked.2).Perm
          (fresh ++ (component ++ node :: stack)) := by
        rw [show marked.2 = fresh ++ stack from hstack]
        simpa using List.perm_append_comm_assoc (component ++ [node]) fresh stack
      have hmem : ∀ v, v ∈ component ++ [node] ++ marked.2 ↔
          v ∈ fresh ∨ v ∈ component ++ node :: stack := fun v => by
        rw [hperm.mem_iff, List.mem_append]
      have hseen' : ∀ v, v ∈ marked.1 ↔ v ∈ seen ∨ v ∈ fresh := hseen
      have hnew : ∀ v ∈ fresh, edge v node ∧ v ∉ seen := fun v hv =>
        ⟨(hreverse v node).mp (List.mem_reverse.mp (hfresh v hv).1), (hfresh v hv).2⟩
      have hnode : node ∈ component ++ node :: stack := by simp
      refine ih ⟨?_, fun v => ?_, fun v hv => ?_, fun v hv => ?_, fun x hx w hw => ?_, ?_⟩
      · refine hperm.nodup_iff.mpr (hnodup.append h.nodup fun v hv hold => ?_)
        exact (hnew v hv).2 ((h.seen_iff v).mpr (Or.inr hold))
      · rw [hseen' v, h.seen_iff v, hmem v]
        tauto
      · rcases (hmem v).mp hv with hv | hv
        · exact fun hbefore => (hnew v hv).2 ((h.seen_iff v).mpr (Or.inl hbefore))
        · exact h.fresh v hv
      · rcases (hmem v).mp hv with hv | hv
        · exact .head (hnew v hv).1 (h.leads node hnode)
        · exact h.leads v hv
      · rcases List.mem_append.mp hx with hx | hx
        · exact (hseen' w).mpr (Or.inl (h.closed x hx w hw))
        · obtain rfl := List.mem_singleton.mp hx
          exact hall w (List.mem_reverse.mpr ((hreverse w x).mpr hw))
      · exact (hmem start).mpr (Or.inr h.start_mem)

omit [LinearOrder α] [Fintype α] in
/-- Where everything that leads to the start and was not seen is mutually reached with it, the
collection is the start's component. -/
theorem Collecting.component_iff {edge : α → α → Prop} {start : α} {before : Finset α}
    {seen : Finset α} {component : List α}
    (h : Collecting edge start before [] seen component)
    (hclosed : ∀ v w, v ∈ before → Mutual edge v w → w ∈ before)
    (hmutual : ∀ w, w ∉ before → Relation.ReflTransGen edge w start → Mutual edge start w)
    (w : α) : w ∈ component ↔ Mutual edge start w := by
  have hfresh : ∀ v ∈ component, v ∉ before := fun v hv => h.fresh v (by simpa using hv)
  constructor
  · exact fun hw => hmutual w (hfresh w hw) (h.leads w (by simpa using hw))
  · intro hw
    have hstart : start ∈ component := by simpa using h.start_mem
    obtain ⟨hto, hfrom⟩ := hw
    -- Everything on the way back to the start is in the start's component too.
    induction hfrom using Relation.ReflTransGen.head_induction_on with
    | refl => exact hstart
    | @head v next hedge hnext ih =>
        have hin := ih (hto.tail hedge)
        have hseen := h.closed next hin v hedge
        refine (List.append_nil component) ▸ ((h.seen_iff v).mp hseen).resolve_left fun hv => ?_
        exact hfresh start hstart (hclosed v start hv ⟨.head hedge hnext, hto⟩)

/-- The components listed so far: whole components, apart from one another, that hold what is
seen and every start taken. -/
structure Listed (edge : α → α → Prop) (taken : List α) (seen : Finset α)
    (components : List (List α)) : Prop where
  seen_iff : ∀ v, v ∈ seen ↔ ∃ component ∈ components, v ∈ component
  taken_seen : ∀ v ∈ taken, v ∈ seen
  whole : ∀ component ∈ components, component.Nodup ∧ component.Pairwise (· ≤ ·) ∧
    ∃ x ∈ taken, ∀ y, y ∈ component ↔ Mutual edge x y
  apart : components.Pairwise List.Disjoint

omit [Fintype α] in
theorem Listed.closed {edge : α → α → Prop} {taken : List α} {seen : Finset α}
    {components : List (List α)} (h : Listed edge taken seen components) {v w : α}
    (hv : v ∈ seen) (hvw : Mutual edge v w) : w ∈ seen := by
  obtain ⟨component, hmem, hv⟩ := (h.seen_iff v).mp hv
  obtain ⟨-, -, x, -, hx⟩ := h.whole component hmem
  exact (h.seen_iff w).mpr ⟨component, hmem, (hx w).mpr (((hx v).mp hv).trans hvw)⟩

theorem Listed.gather {edge : α → α → Prop} {reverse : α → List α}
    (hreverse : ∀ w x, w ∈ reverse x ↔ edge w x) {taken : List α}
    {state : Finset α × List (List α)} (h : Listed edge taken state.1 state.2) {start : α}
    (hmutual : ∀ w, w ∉ state.1 → Relation.ReflTransGen edge w start → Mutual edge start w) :
    Listed edge (taken ++ [start]) (Graph.gather reverse state start).1
      (Graph.gather reverse state start).2 := by
  unfold Graph.gather
  split
  case isTrue hstart =>
      refine ⟨h.seen_iff, fun v hv => ?_, fun component hmem => ?_, h.apart⟩
      · rcases List.mem_append.mp hv with hv | hv
        · exact h.taken_seen v hv
        · exact List.mem_singleton.mp hv ▸ hstart
      · obtain ⟨hnodup, hsorted, x, hx, hclass⟩ := h.whole component hmem
        exact ⟨hnodup, hsorted, x, List.mem_append_left _ hx, hclass⟩
  case isFalse hstart =>
      have hfirst : Collecting edge start state.1 [start] (insert start state.1) [] :=
        ⟨by simp, by simp [or_comm], by simpa using hstart, by simp [Relation.ReflTransGen.refl],
          by simp, by simp⟩
      have hcollect : Collecting edge start state.1 [] _ _ := Collecting.collect hreverse hfirst
      have hclass := hcollect.component_iff (fun v w hv hvw => h.closed hv hvw) hmutual
      have hmem : ∀ v, v ∈ (collect reverse [start] (insert start state.1) []).2.insertionSort
          (· ≤ ·) ↔ Mutual edge start v := fun v => by
        rw [List.mem_insertionSort, hclass v]
      refine ⟨fun v => ?_, fun v hv => ?_, fun component hcomponent => ?_, ?_⟩
      · rw [hcollect.seen_iff v, h.seen_iff v]
        simp only [List.append_nil, List.mem_append, List.mem_singleton, or_and_right, exists_or,
          exists_eq_left, List.mem_insertionSort]
      · rcases List.mem_append.mp hv with hv | hv
        · exact (hcollect.seen_iff v).mpr (Or.inl (h.taken_seen v hv))
        · obtain rfl := List.mem_singleton.mp hv
          exact (hcollect.seen_iff v).mpr (Or.inr hcollect.start_mem)
      · rcases List.mem_append.mp hcomponent with hcomponent | hcomponent
        · obtain ⟨hnodup, hsorted, x, hx, hclass'⟩ := h.whole component hcomponent
          exact ⟨hnodup, hsorted, x, List.mem_append_left _ hx, hclass'⟩
        · obtain rfl := List.mem_singleton.mp hcomponent
          refine ⟨?_, List.pairwise_insertionSort _ _, start, by simp, hmem⟩
          exact (List.perm_insertionSort _ _).nodup_iff.mpr (by simpa using hcollect.nodup)
      · refine List.pairwise_append.mpr ⟨h.apart, List.pairwise_singleton _ _, ?_⟩
        intro component hcomponent other hother v hv hv'
        obtain rfl := List.mem_singleton.mp hother
        have hseen : v ∈ state.1 := (h.seen_iff v).mpr ⟨component, hcomponent, hv⟩
        exact hstart (h.closed hseen ((hmem v).mp hv').symm)

/-- **The two passes list the strongly connected components** of the active nodes: each listed
list is sorted, without repetition and one component, they are apart, and every active node
is in one. -/
theorem stronglyConnected_spec (hnodes : ∀ v, v ∈ nodes) :
    (∀ component ∈ stronglyConnected nodes succ active, component.Nodup ∧
      component.Pairwise (· ≤ ·) ∧ ∃ x, active x = true ∧
        ∀ y, y ∈ component ↔ Mutual (ActiveEdge succ active) x y) ∧
      (stronglyConnected nodes succ active).Pairwise List.Disjoint ∧
      ∀ x, active x = true → ∃ component ∈ stronglyConnected nodes succ active, x ∈ component := by
  obtain ⟨hexplored, hall⟩ := @finishing_spec _ _ _ _ succ active hnodes
  have hnodup : (finishing nodes succ active).2.Nodup := by simpa using hexplored.nodup
  have hreverse : ∀ w x, w ∈ reversed nodes succ active x ↔ ActiveEdge succ active w x :=
    fun w x => mem_reversed hnodes
  -- The starts still to take are the earlier finished ones.
  have hrun : ∀ (left taken : List α) (state : Finset α × List (List α)),
      (finishing nodes succ active).2.reverse = taken ++ left →
      Listed (ActiveEdge succ active) taken state.1 state.2 →
        Listed (ActiveEdge succ active) (taken ++ left)
          (left.foldl (gather (reversed nodes succ active)) state).1
          (left.foldl (gather (reversed nodes succ active)) state).2 := by
    intro left
    induction left with
    | nil => exact fun taken state _ h => by simpa using h
    | cons start left ih =>
        intro taken state heq h
        have hstep : Listed (ActiveEdge succ active) (taken ++ [start])
            (gather (reversed nodes succ active) state start).1
            (gather (reversed nodes succ active) state start).2 := by
          refine h.gather hreverse fun w hw hlead => ?_
          have hactive : active w = true := by
            rcases Relation.ReflTransGen.cases_head hlead with rfl | ⟨_, edge, _⟩
            · refine (hall w).mp (List.mem_reverse.mp (heq ▸ ?_))
              simp
            · exact edge.1
          obtain ⟨before, z, after, horder, hz, hbehind⟩ := @exists_last _ _ _ _ succ _ hnodes _ hactive
          rcases hbehind start hlead with hstart | rfl
          · -- Then the component's last node was taken before, and the component is seen.
            have htaken : z ∈ taken := by
              obtain ⟨before, middle, rfl⟩ := List.append_of_mem hstart
              have horder' : (finishing nodes succ active).2 =
                  left.reverse ++ start :: taken.reverse := by
                rw [← List.reverse_reverse (finishing nodes succ active).2, heq]
                simp
              rw [horder', List.append_assoc, List.cons_append] at horder
              rw [horder'] at hnodup
              have hnot := (List.nodup_middle.mp hnodup).notMem
              rw [List.mem_append, not_or] at hnot
              have hsplit := ((List.append_cons_inj_of_notMem hnot.1 hnot.2).mp horder).2.2
              exact List.mem_reverse.mp (hsplit ▸ by simp)
            exact absurd (h.closed (h.taken_seen z htaken) hz) hw
          · exact hz
        have hrest := ih (taken ++ [start]) _ (by simpa using heq) hstep
        simpa using hrest
  have hlisted := hrun _ [] (∅, []) rfl ⟨by simp, by simp, by simp, by simp⟩
  refine ⟨fun component hmem => ?_, hlisted.apart, fun x hx => ?_⟩
  · obtain ⟨hnodup', hsorted, x, hx, hclass⟩ := hlisted.whole component hmem
    exact ⟨hnodup', hsorted, x, (hall x).mp (by simpa using hx), hclass⟩
  · exact (hlisted.seen_iff x).mp (hlisted.taken_seen x (by simpa using (hall x).mpr hx))

/-! ## Loops -/

/-- Whether a component holds a cycle: more than one node, or one with an edge to itself. -/
def isLoop (succ : α → List α) (component : List α) : Bool :=
  decide (1 < component.length) || component.head?.any fun node => (succ node).contains node

omit [Fintype α] in
/-- A component holds a cycle exactly if its nodes lie on one. -/
theorem isLoop_iff {component : List α} {x : α} (hnodup : component.Nodup)
    (hx : active x = true)
    (hclass : ∀ y, y ∈ component ↔ Mutual (ActiveEdge succ active) x y) :
    isLoop succ component = true ↔ OnCycle (ActiveEdge succ active) x := by
  have hself : x ∈ component := (hclass x).mpr (.refl x)
  rw [isLoop, Bool.or_eq_true, decide_eq_true_eq]
  constructor
  · intro h
    match component, hnodup, hclass, hself, h with
    | [], _, _, hself, _ => cases hself
    | [node], _, hclass, hself, h =>
        obtain rfl := List.mem_singleton.mp hself
        have hloop : x ∈ succ x := by simpa using h
        exact .single ⟨hx, hx, hloop⟩
    | a :: b :: rest, hnodup, hclass, _, _ =>
        have hab : a ≠ b := fun heq => by simp [heq] at hnodup
        have ha := (hclass a).mp (by simp)
        exact ((ha.symm.trans ((hclass b).mp (by simp))).onCycle hab).of_mutual ha.symm
  · intro hcycle
    obtain ⟨y, hxy, hyx⟩ := Relation.TransGen.head'_iff.mp hcycle
    have hy : y ∈ component := (hclass y).mpr ⟨.single hxy, hyx⟩
    by_cases heq : x = y
    · subst heq
      rcases Nat.lt_or_ge 1 component.length with hlen | hlen
      · exact Or.inl hlen
      · refine Or.inr ?_
        obtain ⟨node, rfl⟩ := List.length_eq_one_iff.mp
          (le_antisymm hlen (List.length_pos_of_mem hself))
        obtain rfl := List.mem_singleton.mp hself
        simpa using hxy.2.2
    · refine Or.inl ?_
      by_contra hlen
      obtain ⟨node, rfl⟩ := List.length_eq_one_iff.mp
        (le_antisymm (Nat.not_lt.mp hlen) (List.length_pos_of_mem hself))
      exact heq ((List.mem_singleton.mp hself).trans (List.mem_singleton.mp hy).symm)

omit [LinearOrder α] [Fintype α] in
/-- Where the active nodes are closed under successors, what an active node leads to it leads
to over active nodes. -/
theorem reflTransGen_activeEdge_iff (hclosed : ∀ a b, active a = true → b ∈ succ a →
    active b = true) {a b : α} (ha : active a = true) :
    Relation.ReflTransGen (ActiveEdge succ active) a b ↔
      Relation.ReflTransGen (fun a b => b ∈ succ a) a b := by
  constructor
  · exact fun h => h.lift id fun _ _ edge => edge.2.2
  · intro h
    have hreach : Relation.ReflTransGen (ActiveEdge succ active) a b ∧ active b = true := by
      induction h with
      | refl => exact ⟨.refl, ha⟩
      | tail _ edge ih =>
          have hnext := hclosed _ _ ih.2 edge
          exact ⟨ih.1.tail ⟨ih.2, hnext, edge⟩, hnext⟩
    exact hreach.1

omit [LinearOrder α] [Fintype α] in
theorem onCycle_activeEdge_iff (hclosed : ∀ a b, active a = true → b ∈ succ a →
    active b = true) {a : α} (ha : active a = true) :
    OnCycle (ActiveEdge succ active) a ↔ OnCycle (fun a b => b ∈ succ a) a := by
  rw [OnCycle, OnCycle, Relation.TransGen.head'_iff, Relation.TransGen.head'_iff]
  constructor
  · rintro ⟨b, edge, h⟩
    exact ⟨b, edge.2.2, (reflTransGen_activeEdge_iff hclosed edge.2.1).mp h⟩
  · rintro ⟨b, edge, h⟩
    have hb := hclosed a b ha edge
    exact ⟨b, ⟨ha, hb, edge⟩, (reflTransGen_activeEdge_iff hclosed hb).mpr h⟩

/-- The lists of a graph's loops: each sorted and without repetition, one whole component with
a cycle; they are apart, and every node on a cycle is in one. -/
structure AreLoops (r : α → α → Prop) (loops : List (List α)) : Prop where
  whole : ∀ nodes ∈ loops, nodes.Nodup ∧ nodes.Pairwise (· ≤ ·) ∧
    ∃ x, OnCycle r x ∧ ∀ y, y ∈ nodes ↔ Mutual r x y
  apart : loops.Pairwise List.Disjoint
  all : ∀ x, OnCycle r x → ∃ nodes ∈ loops, x ∈ nodes

/-- **The components with a cycle are the loops**, when the active nodes hold every cycle and
what it leads to. -/
theorem areLoops_stronglyConnected (hnodes : ∀ v, v ∈ nodes)
    (hactive : ∀ v, active v = true ↔ CycleReaches (fun a b => b ∈ succ a) v) :
    AreLoops (fun a b => b ∈ succ a)
      ((stronglyConnected nodes succ active).filter (isLoop succ)) := by
  have hclosed : ∀ a b, active a = true → b ∈ succ a → active b = true := fun a b ha edge =>
    (hactive b).mpr (((hactive a).mp ha).mono (.single edge))
  obtain ⟨hwhole, hapart, hall⟩ := @stronglyConnected_spec _ _ _ _ succ active hnodes
  have hclass : ∀ x y, active x = true →
      (Mutual (ActiveEdge succ active) x y ↔ Mutual (fun a b => b ∈ succ a) x y) := by
    intro x y hx
    have hy : Relation.ReflTransGen (fun a b => b ∈ succ a) x y → active y = true := fun h =>
      (hactive y).mpr (((hactive x).mp hx).mono h)
    constructor
    · rintro ⟨hxy, hyx⟩
      have hxy' := (reflTransGen_activeEdge_iff hclosed hx).mp hxy
      exact ⟨hxy', (reflTransGen_activeEdge_iff hclosed (hy hxy')).mp hyx⟩
    · rintro ⟨hxy, hyx⟩
      exact ⟨(reflTransGen_activeEdge_iff hclosed hx).mpr hxy,
        (reflTransGen_activeEdge_iff hclosed (hy hxy)).mpr hyx⟩
  refine ⟨fun component hmem => ?_, hapart.filter _, fun x hx => ?_⟩
  · obtain ⟨hmem, hloop⟩ := List.mem_filter.mp hmem
    obtain ⟨hnodup, hsorted, x, hx, hmembers⟩ := hwhole component hmem
    refine ⟨hnodup, hsorted, x, ?_, fun y => (hmembers y).trans (hclass x y hx)⟩
    exact (onCycle_activeEdge_iff hclosed hx).mp ((isLoop_iff hnodup hx hmembers).mp hloop)
  · have hxa : active x = true := (hactive x).mpr hx.cycleReaches
    obtain ⟨component, hmem, hin⟩ := hall x hxa
    obtain ⟨hnodup, -, z, hz, hmembers⟩ := hwhole component hmem
    refine ⟨component, List.mem_filter.mpr ⟨hmem, (isLoop_iff hnodup hz hmembers).mpr ?_⟩, hin⟩
    exact ((onCycle_activeEdge_iff hclosed hxa).mpr hx).of_mutual ((hmembers x).mp hin).symm

end Passes

end Lait.Graph
