import Mathlib

/-!
# Reaching through links

Pairs link elements, and elements are compared by a key.  From some roots a list is
grown, pass after pass over the links: whenever a link touches the list, both of its
ends are put on it, and the passes stop at the first that put nothing on.

* `Reaches` — what the links connect with the roots, without mentioning any pass.
* `spread` — the passes.  A pass that grows the list closes a link that was open
  before, so one pass more than there are links is always enough, and
  `holds_spread_iff` is exact.
-/

namespace Linkage

variable {α κ : Type*} (key : α → κ)

/-- The keys that the links connect with the roots. -/
inductive Reaches (links : List (α × α)) (roots : List α) : κ → Prop
  | root {a : α} : a ∈ roots → Reaches links roots (key a)
  | forth {a b : α} : (a, b) ∈ links → Reaches links roots (key a) → Reaches links roots (key b)
  | back {a b : α} : (a, b) ∈ links → Reaches links roots (key b) → Reaches links roots (key a)

variable {key} in
/-- Whatever is reached is the key of a root or of an end of a link. -/
theorem Reaches.named {links : List (α × α)} {roots : List α} {k : κ}
    (h : Reaches key links roots k) :
    (∃ a ∈ roots, key a = k) ∨ ∃ link ∈ links, key link.1 = k ∨ key link.2 = k := by
  cases h with
  | root ha => exact Or.inl ⟨_, ha, rfl⟩
  | forth hab _ => exact Or.inr ⟨_, hab, Or.inr rfl⟩
  | back hab _ => exact Or.inr ⟨_, hab, Or.inl rfl⟩

variable [DecidableEq κ]

/-- Whether a list holds an element of the same key. -/
def holds (l : List α) (a : α) : Bool := l.any fun b => key b = key a

theorem holds_iff {l : List α} {a : α} : holds key l a = true ↔ ∃ b ∈ l, key b = key a := by
  simp [holds]

theorem holds_of_grown {l m : List α} (h : l <+: m) {a : α} (ha : holds key l a = true) :
    holds key m a = true := by
  obtain ⟨b, hb, hkey⟩ := (holds_iff key).mp ha
  exact (holds_iff key).mpr ⟨b, h.subset hb, hkey⟩

/-- Put an element on the list unless one of its key is there, and record whether
the list grew. -/
def enlist (state : List α × Bool) (a : α) : List α × Bool :=
  if holds key state.1 a then state else (state.1 ++ [a], true)

/-- One link of a pass. -/
def join (state : List α × Bool) (link : α × α) : List α × Bool :=
  if holds key state.1 link.1 || holds key state.1 link.2 then
    enlist key (enlist key state link.1) link.2
  else state

/-- One pass over the links. -/
def pass (links : List (α × α)) (l : List α) : List α × Bool := links.foldl (join key) (l, false)

/-- Passes until one puts nothing on. -/
def spread (links : List (α × α)) : ℕ → List α → List α
  | 0, l => l
  | fuel + 1, l =>
      match pass key links l with
      | (l, true) => spread links fuel l
      | (l, false) => l

section Steps

variable {key} {links : List (α × α)} {roots : List α}

theorem prefix_enlist (state : List α × Bool) (a : α) : state.1 <+: (enlist key state a).1 := by
  unfold enlist
  split
  · exact List.prefix_rfl
  · exact List.prefix_append _ _

theorem holds_enlist_self (state : List α × Bool) (a : α) :
    holds key (enlist key state a).1 a = true := by
  unfold enlist
  split
  case isTrue h => exact h
  case isFalse => exact (holds_iff key).mpr ⟨a, by simp, rfl⟩

/-- An element admitted in vain is held already. -/
theorem enlist_snd_eq_false {state : List α × Bool} {a : α} (h : (enlist key state a).2 = false) :
    enlist key state a = state ∧ holds key state.1 a = true := by
  unfold enlist at h ⊢
  split
  case isTrue hheld => exact ⟨rfl, hheld⟩
  case isFalse hheld => simp [hheld] at h

theorem prefix_join (state : List α × Bool) (link : α × α) :
    state.1 <+: (join key state link).1 := by
  unfold join
  split
  · exact (prefix_enlist state _).trans (prefix_enlist _ _)
  · exact List.prefix_rfl

theorem prefix_pass (links : List (α × α)) (state : List α × Bool) :
    state.1 <+: (links.foldl (join key) state).1 := by
  induction links generalizing state with
  | nil => exact List.prefix_rfl
  | cons link links ih => exact (prefix_join state link).trans (ih _)

/-- Both ends of a link are on the list. -/
def Closed (key : α → κ) (l : List α) (link : α × α) : Prop :=
  holds key l link.1 = true ∧ holds key l link.2 = true

instance (l : List α) (link : α × α) : Decidable (Closed key l link) :=
  inferInstanceAs (Decidable (_ ∧ _))

theorem Closed.of_grown {l m : List α} {link : α × α} (h : Closed key l link) (hlm : l <+: m) :
    Closed key m link :=
  ⟨holds_of_grown key hlm h.1, holds_of_grown key hlm h.2⟩

/-- A link either leaves the state as it is, closed if it was touched, or is open
before and closed after. -/
theorem join_cases (state : List α × Bool) (link : α × α) :
    (join key state link = state ∧
        (holds key state.1 link.1 = true ∨ holds key state.1 link.2 = true →
          Closed key state.1 link)) ∨
      ((join key state link).2 = true ∧ ¬ Closed key state.1 link ∧
        Closed key (join key state link).1 link) := by
  unfold join
  split
  case isFalse h =>
      rw [Bool.or_eq_true] at h
      exact Or.inl ⟨rfl, fun htouch => absurd htouch h⟩
  case isTrue h =>
      have hclosed : Closed key (enlist key (enlist key state link.1) link.2).1 link :=
        ⟨holds_of_grown key (prefix_enlist _ _) (holds_enlist_self state link.1),
          holds_enlist_self _ link.2⟩
      by_cases hbefore : Closed key state.1 link
      · have hfirst : enlist key state link.1 = state := if_pos hbefore.1
        have hsecond : enlist key state link.2 = state := if_pos hbefore.2
        rw [hfirst, hsecond]
        exact Or.inl ⟨rfl, fun _ => hbefore⟩
      · refine Or.inr ⟨?_, hbefore, hclosed⟩
        by_contra hgrew
        obtain ⟨hsecond, hheld⟩ := enlist_snd_eq_false (Bool.not_eq_true _ ▸ hgrew)
        obtain ⟨hfirst, hheld'⟩ := enlist_snd_eq_false (hsecond ▸ Bool.not_eq_true _ ▸ hgrew)
        exact hbefore ⟨hheld', hfirst ▸ hheld⟩

/-- A flag that is up stays up. -/
theorem join_snd_of_true {state : List α × Bool} (h : state.2 = true) (link : α × α) :
    (join key state link).2 = true := by
  rcases @join_cases _ _ key _ state link with ⟨heq, -⟩ | ⟨hgrew, -⟩
  · rw [heq, h]
  · exact hgrew

theorem pass_snd_of_true (links : List (α × α)) {state : List α × Bool} (h : state.2 = true) :
    (links.foldl (join key) state).2 = true := by
  induction links generalizing state with
  | nil => exact h
  | cons link links ih => exact ih (join_snd_of_true h link)

/-- A pass that puts nothing on leaves the list as it is, and every link it touches
is closed. -/
theorem pass_eq_of_not_grew (links : List (α × α)) {state : List α × Bool}
    (h : (links.foldl (join key) state).2 = false) :
    links.foldl (join key) state = state ∧
      ∀ link ∈ links, holds key state.1 link.1 = true ∨ holds key state.1 link.2 = true →
        Closed key state.1 link := by
  induction links generalizing state with
  | nil => exact ⟨rfl, by simp⟩
  | cons link links ih =>
      rw [List.foldl_cons] at h ⊢
      rcases @join_cases _ _ key _ state link with ⟨heq, hclosed⟩ | ⟨hgrew, -⟩
      · rw [heq] at h ⊢
        obtain ⟨hrest, hlinks⟩ := ih h
        exact ⟨hrest, List.forall_mem_cons.mpr ⟨hclosed, hlinks⟩⟩
      · rw [pass_snd_of_true links hgrew] at h
        cases h

/-- A pass that grows the list closes a link that was open. -/
theorem exists_closed_of_grew (links : List (α × α)) {state : List α × Bool}
    (hstart : state.2 = false) (h : (links.foldl (join key) state).2 = true) :
    ∃ link ∈ links, ¬ Closed key state.1 link ∧
      Closed key (links.foldl (join key) state).1 link := by
  induction links generalizing state with
  | nil => rw [List.foldl_nil, hstart] at h; cases h
  | cons link links ih =>
      rw [List.foldl_cons] at h ⊢
      rcases @join_cases _ _ key _ state link with ⟨heq, -⟩ | ⟨-, hopen, hclosed⟩
      · rw [heq] at h ⊢
        obtain ⟨link', hmem, hlink'⟩ := ih hstart h
        exact ⟨link', List.mem_cons_of_mem _ hmem, hlink'⟩
      · exact ⟨link, List.mem_cons_self, hopen, hclosed.of_grown (prefix_pass links _)⟩

/-- The links that are not closed yet. -/
def openLinks (key : α → κ) (links : List (α × α)) (l : List α) : List (α × α) :=
  links.filter fun link => ¬ Closed key l link

/-- What every grown pass spends. -/
theorem length_openLinks_lt {l : List α} (h : (pass key links l).2 = true) :
    (openLinks key links (pass key links l).1).length < (openLinks key links l).length := by
  have hsub : (openLinks key links (pass key links l).1).Sublist (openLinks key links l) := by
    refine List.monotone_filter_right links fun link hopen => ?_
    simp only [decide_eq_true_eq] at hopen ⊢
    exact fun hclosed => hopen (hclosed.of_grown (prefix_pass links (l, false)))
  refine lt_of_le_of_ne hsub.length_le fun hlen => ?_
  obtain ⟨link, hmem, hopen, hclosed⟩ := exists_closed_of_grew links rfl h
  have hbefore : link ∈ openLinks key links l :=
    List.mem_filter.mpr ⟨hmem, decide_eq_true hopen⟩
  rw [← hsub.eq_of_length hlen] at hbefore
  exact absurd hclosed (of_decide_eq_true (List.mem_filter.mp hbefore).2)

/-- Everything on the list is reached. -/
def Sound (key : α → κ) (links : List (α × α)) (roots l : List α) : Prop :=
  ∀ a ∈ l, Reaches key links roots (key a)

theorem Sound.holds {l : List α} (h : Sound key links roots l) {a : α}
    (ha : holds key l a = true) : Reaches key links roots (key a) := by
  obtain ⟨b, hb, hkey⟩ := (holds_iff key).mp ha
  exact hkey ▸ h b hb

theorem Sound.enlist {state : List α × Bool} (h : Sound key links roots state.1) {a : α}
    (ha : Reaches key links roots (key a)) : Sound key links roots (enlist key state a).1 := by
  unfold Linkage.enlist
  split
  · exact h
  · exact List.forall_mem_append.mpr ⟨h, by simpa using ha⟩

theorem Sound.join {state : List α × Bool} (h : Sound key links roots state.1) {link : α × α}
    (hlink : link ∈ links) : Sound key links roots (join key state link).1 := by
  unfold Linkage.join
  split
  case isFalse => exact h
  case isTrue htouch =>
      -- Whichever end touches the list, the link carries the other along.
      have hends : Reaches key links roots (key link.1) ∧ Reaches key links roots (key link.2) := by
        rcases Bool.or_eq_true _ _ ▸ htouch with hleft | hright
        · exact ⟨h.holds hleft, .forth hlink (h.holds hleft)⟩
        · exact ⟨.back hlink (h.holds hright), h.holds hright⟩
      exact (h.enlist hends.1).enlist hends.2

theorem Sound.pass {l : List α} (h : Sound key links roots l) :
    Sound key links roots (pass key links l).1 := by
  have hfold : ∀ (rest : List (α × α)) (state : List α × Bool), rest ⊆ links →
      Sound key links roots state.1 →
        Sound key links roots (rest.foldl (Linkage.join key) state).1 := by
    intro rest
    induction rest with
    | nil => exact fun _ _ hstate => hstate
    | cons link rest ih =>
        intro state hsub hstate
        rw [List.cons_subset] at hsub
        exact ih _ hsub.2 (hstate.join hsub.1)
  exact hfold links (l, false) (List.Subset.refl _) h

end Steps

variable {key} in
/-- A reached key is on a list that holds the roots and closes every link it touches. -/
theorem Reaches.exists_mem {links : List (α × α)} {roots l : List α} {k : κ}
    (h : Reaches key links roots k) (hroots : roots ⊆ l)
    (hclosed : ∀ link ∈ links, holds key l link.1 = true ∨ holds key l link.2 = true →
      Closed key l link) : ∃ b ∈ l, key b = k := by
  induction h with
  | root ha => exact ⟨_, hroots ha, rfl⟩
  | forth hab _ ih =>
      have hleft := (holds_iff key).mpr ih
      exact (holds_iff key).mp (hclosed _ hab (Or.inl hleft)).2
  | back hab _ ih =>
      have hright := (holds_iff key).mpr ih
      exact (holds_iff key).mp (hclosed _ hab (Or.inr hright)).1

/-- With fuel for the open links the passes end at a list that closes every link it
touches, holds everything it started with and nothing that is not reached. -/
theorem spread_spec {links : List (α × α)} {roots : List α} (fuel : ℕ) {l : List α}
    (hfuel : (openLinks key links l).length < fuel) (hsound : Sound key links roots l) :
    l <+: spread key links fuel l ∧ Sound key links roots (spread key links fuel l) ∧
      ∀ link ∈ links, holds key (spread key links fuel l) link.1 = true ∨
        holds key (spread key links fuel l) link.2 = true →
          Closed key (spread key links fuel l) link := by
  induction fuel generalizing l with
  | zero => cases hfuel
  | succ fuel ih =>
      have hgrown : l <+: (pass key links l).1 := prefix_pass links (l, false)
      have hpass : Sound key links roots (pass key links l).1 := hsound.pass
      rw [spread]
      split
      next m hm =>
          have hlt := @length_openLinks_lt _ _ key _ links l (by rw [hm])
          rw [hm] at hgrown hpass hlt
          obtain ⟨hmore, hrest⟩ := ih (by omega) hpass
          exact ⟨hgrown.trans hmore, hrest⟩
      next m hm =>
          obtain ⟨heq, hclosed⟩ := @pass_eq_of_not_grew _ _ key _ links (l, false)
            (show (pass key links l).2 = false by rw [hm])
          obtain rfl : m = l := by
            rw [← show (pass key links l).1 = m by rw [hm]]
            exact congrArg Prod.fst heq
          exact ⟨List.prefix_rfl, hsound, hclosed⟩

/-- **The passes compute reachability**, given one more of them than there are links. -/
theorem holds_spread_iff {links : List (α × α)} {roots : List α} {fuel : ℕ}
    (hfuel : links.length < fuel) {a : α} :
    holds key (spread key links fuel roots) a = true ↔ Reaches key links roots (key a) := by
  obtain ⟨hgrown, hsound, hclosed⟩ := @spread_spec _ _ key _ links roots fuel roots
    ((List.length_filter_le _ _).trans_lt hfuel) fun a ha => .root ha
  constructor
  · exact hsound.holds
  · intro h
    exact (holds_iff key).mpr (h.exists_mem hgrown.subset hclosed)

end Linkage
