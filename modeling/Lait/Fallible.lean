import Mathlib

/-!
# Computations that can fail

What a successful computation in `Except` says about its parts: a bind
succeeded in both steps, a `mapM` succeeded at every element, a `foldlM` kept
whatever each of its steps keeps.
-/

namespace Lait

variable {ε α β γ : Type}

/-- A bind succeeds when both of its steps do. -/
theorem bind_eq_ok {x : Except ε α} {f : α → Except ε β} {b : β} :
    (x >>= f) = .ok b ↔ ∃ a, x = .ok a ∧ f a = .ok b := by
  cases x with
  | error e => simp [bind, Except.bind]
  | ok a => simp [bind, Except.bind]

/-- A guard that throws succeeds when it does not. -/
theorem guard_eq_ok {c : Prop} [Decidable c] {e : ε} {k : PUnit → Except ε α} {a : α} :
    (if c then (throw e : Except ε PUnit) >>= k else k ⟨⟩) = .ok a ↔ ¬ c ∧ k ⟨⟩ = .ok a := by
  split
  case isTrue h => simp [h, throw, throwThe, MonadExceptOf.throw, bind, Except.bind]
  case isFalse h => simp [h]

/-- So does a guard that ends a computation. -/
theorem check_eq_ok {c : Prop} [Decidable c] {e : ε} {u : PUnit} :
    (if c then (throw e : Except ε PUnit) else pure ⟨⟩) = .ok u ↔ ¬ c := by
  split
  case isTrue h => simp [h, throw, throwThe, MonadExceptOf.throw]
  case isFalse h => simp [h, pure, Except.pure]

/-- A bind fails where one of its steps does. -/
theorem bind_eq_error {x : Except ε α} {f : α → Except ε β} {e : ε} :
    (x >>= f) = .error e ↔ x = .error e ∨ ∃ a, x = .ok a ∧ f a = .error e := by
  cases x with
  | error e' => simp [bind, Except.bind]
  | ok a => simp [bind, Except.bind]

/-- A guard that throws fails when it throws, or after it. -/
theorem guard_eq_error {c : Prop} [Decidable c] {e e' : ε} {k : PUnit → Except ε α} :
    (if c then (throw e : Except ε PUnit) >>= k else k ⟨⟩) = .error e' ↔
      c ∧ e = e' ∨ ¬ c ∧ k ⟨⟩ = .error e' := by
  split
  case isTrue h => simp [h, throw, throwThe, MonadExceptOf.throw, bind, Except.bind]
  case isFalse h => simp [h]

/-- A check of every element succeeds when each does. -/
theorem forM_eq_ok_iff {check : α → Except ε Unit} {l : List α} :
    l.forM check = .ok () ↔ ∀ a ∈ l, check a = .ok () := by
  induction l with
  | nil => simp [pure, Except.pure]
  | cons a l ih =>
      show (check a >>= fun _ => l.forM check) = .ok () ↔ _
      rw [bind_eq_ok, List.forall_mem_cons]
      constructor
      · rintro ⟨⟨⟩, hhead, htail⟩
        exact ⟨hhead, ih.mp htail⟩
      · rintro ⟨hhead, htail⟩
        exact ⟨(), hhead, ih.mpr htail⟩

/-- Every element is mapped, in place. -/
theorem mapM_eq_ok_iff {f : α → Except ε β} {l : List α} {l' : List β} :
    l.mapM f = .ok l' ↔ List.Forall₂ (fun a b => f a = .ok b) l l' := by
  induction l generalizing l' with
  | nil => simp [pure, Except.pure, eq_comm]
  | cons a l ih =>
      rw [List.mapM_cons, bind_eq_ok, List.forall₂_cons_left_iff]
      constructor
      · rintro ⟨b, hb, hrest⟩
        obtain ⟨bs, hbs, hpure⟩ := bind_eq_ok.mp hrest
        cases hpure
        exact ⟨b, bs, hb, ih.mp hbs, rfl⟩
      · rintro ⟨b, bs, hb, hbs, rfl⟩
        exact ⟨b, hb, bind_eq_ok.mpr ⟨bs, ih.mpr hbs, rfl⟩⟩

/-- Mapping succeeds where every element can be mapped. -/
theorem exists_mapM_eq_ok {f : α → Except ε β} {l : List α} (h : ∀ a ∈ l, ∃ b, f a = .ok b) :
    ∃ l', l.mapM f = .ok l' := by
  induction l with
  | nil => exact ⟨[], rfl⟩
  | cons a l ih =>
      obtain ⟨⟨b, hb⟩, hrest⟩ := List.forall_mem_cons.mp h
      obtain ⟨l', hl'⟩ := ih hrest
      exact ⟨b :: l', mapM_eq_ok_iff.mpr (.cons hb (mapM_eq_ok_iff.mp hl'))⟩

theorem mapM_congr {f g : α → Except ε β} {l : List α} (h : ∀ a ∈ l, f a = g a) :
    l.mapM f = l.mapM g := by
  induction l with
  | nil => rfl
  | cons a l ih =>
      rw [List.mapM_cons, List.mapM_cons, h a List.mem_cons_self,
        ih fun a ha => h a (List.mem_cons_of_mem _ ha)]

/-- A function that only reads part of its input maps lists with equal parts alike. -/
theorem mapM_congr_of_map_eq {φ : α → γ} {f : α → Except ε β} {l l' : List α}
    (hf : ∀ a b, φ a = φ b → f a = f b) (h : l.map φ = l'.map φ) : l.mapM f = l'.mapM f := by
  induction l generalizing l' with
  | nil =>
      rw [List.map_nil, eq_comm, List.map_eq_nil_iff] at h
      rw [h]
  | cons a l ih =>
      cases l' with
      | nil => cases h
      | cons b l' =>
          rw [List.map_cons, List.map_cons, List.cons.injEq] at h
          rw [List.mapM_cons, List.mapM_cons, hf a b h.1, ih h.2]

/-- What is on the right of a pairing has a partner on the left. -/
theorem exists_of_mem_right {R : α → β → Prop} {l : List α} {l' : List β}
    (h : List.Forall₂ R l l') {b : β} (hb : b ∈ l') : ∃ a ∈ l, R a b := by
  induction h with
  | nil => exact absurd hb List.not_mem_nil
  | cons hab _ ih =>
      rcases List.mem_cons.mp hb with rfl | hb
      · exact ⟨_, List.mem_cons_self, hab⟩
      · obtain ⟨a, ha, hab⟩ := ih hb
        exact ⟨a, List.mem_cons_of_mem _ ha, hab⟩

/-- The outputs of a successful `mapM` come from its inputs. -/
theorem exists_of_mem_mapM {f : α → Except ε β} {l : List α} {l' : List β}
    (h : l.mapM f = .ok l') {b : β} (hb : b ∈ l') : ∃ a ∈ l, f a = .ok b :=
  exists_of_mem_right (mapM_eq_ok_iff.mp h) hb

/-- The inputs of a successful `mapM` all have outputs. -/
theorem exists_mapM_of_mem {f : α → Except ε β} {l : List α} {l' : List β}
    (h : l.mapM f = .ok l') {a : α} (ha : a ∈ l) : ∃ b ∈ l', f a = .ok b :=
  exists_of_mem_right (mapM_eq_ok_iff.mp h).flip ha

theorem foldlM_cons_eq_ok {f : β → α → Except ε β} {a : α} {l : List α} {b b' : β} :
    (a :: l).foldlM f b = .ok b' ↔ ∃ b₁, f b a = .ok b₁ ∧ l.foldlM f b₁ = .ok b' := by
  rw [List.foldlM_cons, bind_eq_ok]

/-- **What every step of a successful fold keeps, the fold keeps.** -/
theorem foldlM_invariant {f : β → α → Except ε β} {P : β → Prop} {l : List α}
    (hstep : ∀ b b' a, a ∈ l → P b → f b a = .ok b' → P b') {b b' : β}
    (h : l.foldlM f b = .ok b') (hb : P b) : P b' := by
  induction l generalizing b with
  | nil =>
      cases h
      exact hb
  | cons a l ih =>
      obtain ⟨b₁, hfirst, hrest⟩ := foldlM_cons_eq_ok.mp h
      refine ih (fun b b' a ha => hstep b b' a (List.mem_cons_of_mem _ ha)) hrest ?_
      exact hstep b b₁ a List.mem_cons_self hb hfirst

/-- A fold whose steps all succeed under a condition on the element alone is a
fold of what the steps do. -/
theorem foldlM_eq_ok_iff {f : β → α → Except ε β} {p : α → Prop} {g : β → α → β} {l : List α}
    (hstep : ∀ b a c, a ∈ l → (f b a = .ok c ↔ p a ∧ c = g b a)) {b c : β} :
    l.foldlM f b = .ok c ↔ (∀ a ∈ l, p a) ∧ c = l.foldl g b := by
  induction l generalizing b with
  | nil => simp [pure, Except.pure, eq_comm]
  | cons a l ih =>
      have ih := fun b => ih (b := b) fun b a c ha => hstep b a c (List.mem_cons_of_mem _ ha)
      rw [foldlM_cons_eq_ok, List.forall_mem_cons, List.foldl_cons]
      constructor
      · rintro ⟨b₁, hfirst, hrest⟩
        obtain ⟨hp, rfl⟩ := (hstep b a b₁ List.mem_cons_self).mp hfirst
        obtain ⟨hall, hc⟩ := (ih _).mp hrest
        exact ⟨⟨hp, hall⟩, hc⟩
      · rintro ⟨⟨hp, hall⟩, hc⟩
        exact ⟨_, (hstep b a _ List.mem_cons_self).mpr ⟨hp, rfl⟩, (ih _).mpr ⟨hall, hc⟩⟩

end Lait
