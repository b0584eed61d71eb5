import Lait.Fallible

/-!
# Paging through an ordered list

A page is the first so many elements past a cursor; the next page starts past the last
element of the one before.  In a strictly ascending list what lies past the last element
of a page is the rest of the list (`filter_past_take`), so turning pages until one is empty
collects every element once, in order (`collect_eq`).

The rule asks of a page only what it contains: whatever finds its elements can be paged.
A page that is gathered piece by piece contains the beginning of the pieces put together
(`foldlM_gather`), whether or not the later pieces are looked at once it is full.
-/

namespace Lait.Paging

variable {α κ : Type} [LinearOrder κ] {key : α → κ}

/-- Whether an element lies past the cursor; without one they all do. -/
def past (key : α → κ) (cursor : Option κ) (a : α) : Bool := cursor.all fun k => decide (k < key a)

/-- Turn pages until one is empty; the fuel bounds how many. -/
def collect (key : α → κ) (page : Option κ → List α) : ℕ → Option κ → List α
  | 0, _ => []
  | fuel + 1, cursor =>
      match (page cursor).getLast? with
      | none => []
      | some last => page cursor ++ collect key page fuel (some (key last))

theorem past_some {k : κ} {a : α} : past key (some k) a = true ↔ k < key a := by
  simp [past]

theorem filter_past_none (l : List α) : l.filter (past key none) = l :=
  List.filter_eq_self.mpr fun _ _ => rfl

/-- Past the last element of a beginning lies the rest. -/
theorem filter_past_append {before after : List α} {last : α}
    (h : (before ++ last :: after).Pairwise fun a b => key a < key b) :
    (before ++ last :: after).filter (past key (some (key last))) = after := by
  obtain ⟨-, hlast, hcross⟩ := List.pairwise_append.mp h
  rw [List.filter_append, List.filter_cons_of_neg (by simp [past]),
    List.filter_eq_nil_iff.mpr, List.nil_append, List.filter_eq_self.mpr]
  · intro a ha
    exact past_some.mpr ((List.pairwise_cons.mp hlast).1 a ha)
  · intro a ha hpast
    exact lt_asymm (past_some.mp hpast) (hcross a ha last List.mem_cons_self)

/-- A cursor further on leaves less. -/
theorem filter_past_filter {l : List α} {cursor : Option κ} {a : α}
    (ha : past key cursor a = true) :
    (l.filter (past key cursor)).filter (past key (some (key a))) =
      l.filter (past key (some (key a))) := by
  rw [List.filter_filter]
  refine List.filter_congr fun b _ => ?_
  cases cursor with
  | none => simp [past]
  | some k =>
      have hk := past_some.mp ha
      rw [Bool.and_eq_left_iff_imp, past_some, past_some]
      exact hk.trans

variable {l : List α} {page : Option κ → List α} {limit : ℕ}

theorem collect_filter (hsorted : l.Pairwise fun a b => key a < key b) (hlimit : 0 < limit)
    (hpage : ∀ cursor, page cursor = (l.filter (past key cursor)).take limit)
    {fuel : ℕ} {cursor : Option κ} (hfuel : (l.filter (past key cursor)).length < fuel) :
    collect key page fuel cursor = l.filter (past key cursor) := by
  induction fuel generalizing cursor with
  | zero => exact absurd hfuel (Nat.not_lt_zero _)
  | succ fuel ih =>
      unfold collect
      rw [hpage]
      generalize hrest : l.filter (past key cursor) = rest at hfuel ⊢
      cases hlast : (rest.take limit).getLast? with
      | none =>
          have hnil := List.getLast?_eq_none_iff.mp hlast
          rw [List.take_eq_nil_iff] at hnil
          exact (hnil.resolve_left hlimit.ne').symm
      | some last =>
          obtain ⟨before, hbefore⟩ := List.getLast?_eq_some_iff.mp hlast
          have hsplit : rest = before ++ last :: rest.drop limit := by
            rw [← List.singleton_append, ← List.append_assoc, ← hbefore, List.take_append_drop]
          have hpast : past key cursor last = true := by
            have hmem : last ∈ l.filter (past key cursor) := by
              rw [hrest, hsplit]
              exact List.mem_append_right _ List.mem_cons_self
            exact (List.mem_filter.mp hmem).2
          have hnext : l.filter (past key (some (key last))) = rest.drop limit := by
            have hordered : rest.Pairwise fun a b => key a < key b :=
              hrest ▸ hsorted.sublist List.filter_sublist
            rw [← filter_past_filter hpast, hrest]
            generalize rest.drop limit = after at hsplit ⊢
            subst hsplit
            exact filter_past_append hordered
          show rest.take limit ++ collect key page fuel (some (key last)) = rest
          rw [ih, hnext, List.take_append_drop]
          rw [hnext, List.length_drop]
          have hpos : 0 < rest.length := by rw [hsplit]; simp
          omega

/-- **Turning pages collects every element once, in order.** -/
theorem collect_eq (hsorted : l.Pairwise fun a b => key a < key b) (hlimit : 0 < limit)
    (hpage : ∀ cursor, page cursor = (l.filter (past key cursor)).take limit)
    {fuel : ℕ} (hfuel : l.length < fuel) : collect key page fuel none = l := by
  have h : collect key page fuel none = l.filter (past key none) :=
    collect_filter hsorted hlimit hpage (by rwa [filter_past_none])
  rw [h, filter_past_none]

/-! ## Gathering a page -/

section Gather

variable {ε σ : Type} {limit : ℕ} {piece : σ → List α} {pieces : List σ}

/-- A loop each turn of which appends what fits of one piece appends what fits of them all. -/
theorem foldlM_gather {turn : List α → σ → Except ε (List α)}
    (hturn : ∀ s ∈ pieces, ∀ out,
      turn out s = .ok (out ++ (piece s).take (limit - out.length))) (out : List α) :
    pieces.foldlM turn out = .ok (out ++ (pieces.flatMap piece).take (limit - out.length)) := by
  induction pieces generalizing out with
  | nil => simp [pure, Except.pure]
  | cons s pieces ih =>
      refine foldlM_cons_eq_ok.mpr ⟨_, hturn s List.mem_cons_self out, ?_⟩
      rw [ih fun s' hs' => hturn s' (List.mem_cons_of_mem _ hs'), List.flatMap_cons,
        List.take_append, List.append_assoc, List.length_append, List.length_take]
      -- what the first piece left of the room
      have hroom : limit - (out.length + min (limit - out.length) (piece s).length) =
          limit - out.length - (piece s).length := by omega
      rw [hroom]

theorem foldl_gather {turn : List α → σ → List α}
    (hturn : ∀ s ∈ pieces, ∀ out, turn out s = out ++ (piece s).take (limit - out.length))
    (out : List α) :
    pieces.foldl turn out = out ++ (pieces.flatMap piece).take (limit - out.length) := by
  have h : pieces.foldlM (fun out s => (pure (turn out s) : Except Unit (List α))) out =
      .ok (out ++ (pieces.flatMap piece).take (limit - out.length)) :=
    foldlM_gather (fun s hs out => congrArg Except.ok (hturn s hs out)) out
  rw [List.foldlM_pure] at h
  exact Except.ok.inj h

end Gather

end Lait.Paging
