import Mathlib

/-!
# Two parties that take turns

Two parties hold a value under every key and tell each other what they hold, in a
published form.  A party takes over what its peer publishes under a key, if it
listens there and the peer is not silent.  Nothing orders the values, so nothing
decides between two that differ.

When the parties take turns, each telling what it holds at that moment, this
settles after three turns (`Learned.fixed`, `Learned.echoes`,
`Learned.both_fixed`), and what is settled agrees wherever a party listens to one
that is not silent.  When they speak at the same time, they swap (`Crossed.swap`).
-/

namespace Lait

/-- The sides of an exchange. -/
inductive Side
  | left
  | right
  deriving DecidableEq

namespace Side

def other : Side → Side
  | left => right
  | right => left

@[simp] theorem other_other (s : Side) : s.other.other = s := by cases s <;> rfl

theorem other_ne (s : Side) : s.other ≠ s := by cases s <;> simp [other]

theorem eq_or_eq_other (s t : Side) : s = t ∨ s = t.other := by
  cases s <;> cases t <;> simp [other]

end Side

namespace Turns

variable {κ α : Type*}

/-- What both parties hold under every key. -/
abbrev Views (κ α : Type*) := Side → κ → α

section Rules

variable (publish : α → α) (silent : α → Prop) (listens : Side → κ → Prop)

/-- A party has something to take over under a key. -/
def Teaches (v : Views κ α) (s : Side) (k : κ) : Prop :=
  listens s k ∧ ¬ silent (publish (v s.other k))

/-- A turn: one party takes over what its peer publishes. -/
structure Learned (v v' : Views κ α) (s : Side) : Prop where
  taken : ∀ k, Teaches publish silent listens v s k → v' s k = publish (v s.other k)
  kept : ∀ k, ¬ Teaches publish silent listens v s k → v' s k = v s k
  peer : v' s.other = v s.other

/-- Both at once: each takes over what the other held before. -/
structure Crossed (v v' : Views κ α) : Prop where
  taken : ∀ s k, Teaches publish silent listens v s k → v' s k = publish (v s.other k)
  kept : ∀ s k, ¬ Teaches publish silent listens v s k → v' s k = v s k

/-- A party has nothing left to take over. -/
def Fixed (v : Views κ α) (s : Side) : Prop :=
  ∀ k, Teaches publish silent listens v s k → v s k = publish (v s.other k)

/-- Where a party has something to take over, it publishes it already. -/
def Echoes (v : Views κ α) (s : Side) : Prop :=
  ∀ k, Teaches publish silent listens v s k → publish (v s k) = publish (v s.other k)

end Rules

variable {publish : α → α} {silent : α → Prop} {listens : Side → κ → Prop} {v v' : Views κ α}
  {s : Side}

/-- Whether there is something to take over depends on the peer alone. -/
theorem Learned.teaches_iff (h : Learned publish silent listens v v' s) {k : κ} :
    Teaches publish silent listens v' s k ↔ Teaches publish silent listens v s k := by
  unfold Teaches
  rw [h.peer]

/-- **The first turn**: a party that took its turn has nothing left to take over. -/
theorem Learned.fixed (h : Learned publish silent listens v v' s) :
    Fixed publish silent listens v' s := by
  intro k hk
  rw [h.peer]
  exact h.taken k (h.teaches_iff.mp hk)

/-- **The second turn**: after its peer's turn, what a party could take over is
its own value come back. -/
theorem Learned.echoes (hidem : ∀ a, publish (publish a) = publish a)
    (h : Learned publish silent listens v v' s.other) (hfixed : Fixed publish silent listens v s) :
    Echoes publish silent listens v' s := by
  intro k hk
  have hpeer : v' s = v s := by simpa using h.peer
  rw [hpeer]
  by_cases htaught : Teaches publish silent listens v s.other k
  · have htaken := h.taken k htaught
    rw [Side.other_other] at htaken
    rw [htaken, hidem]
  · have hkept := h.kept k htaught
    unfold Teaches at hk
    rw [hkept] at hk ⊢
    rw [hfixed k hk, hidem]

/-- A turn of a party that echoes changes what it publishes nowhere. -/
theorem Learned.publish_eq (hidem : ∀ a, publish (publish a) = publish a)
    (h : Learned publish silent listens v v' s) (hechoes : Echoes publish silent listens v s)
    (k : κ) : publish (v' s k) = publish (v s k) := by
  by_cases hk : Teaches publish silent listens v s k
  · rw [h.taken k hk, hidem, hechoes k hk]
  · rw [h.kept k hk]

/-- **The third turn**: then neither has anything left to take over. -/
theorem Learned.both_fixed (hidem : ∀ a, publish (publish a) = publish a)
    (h : Learned publish silent listens v v' s) (hechoes : Echoes publish silent listens v s)
    (hfixed : Fixed publish silent listens v s.other) :
    Fixed publish silent listens v' s.other := by
  intro k hk
  unfold Teaches at hk
  rw [Side.other_other, h.publish_eq hidem hechoes] at hk
  have hold := hfixed k (by rwa [Teaches, Side.other_other])
  rw [Side.other_other] at hold ⊢
  rw [h.peer, h.publish_eq hidem hechoes, hold]

/-- **What is settled agrees**, wherever a party listens to a peer that is not
silent. -/
theorem Fixed.agree (hidem : ∀ a, publish (publish a) = publish a)
    (h : Fixed publish silent listens v s) {k : κ}
    (hk : Teaches publish silent listens v s k) : publish (v s k) = publish (v s.other k) := by
  rw [h k hk, hidem]

/-- **Two that speak at once swap**, wherever both listen and neither is silent. -/
theorem Crossed.swap (hidem : ∀ a, publish (publish a) = publish a)
    (h : Crossed publish silent listens v v') {k : κ}
    (hk : ∀ s, Teaches publish silent listens v s k) :
    publish (v' s k) = publish (v s.other k) ∧ ∀ s, Teaches publish silent listens v' s k := by
  have hswap : ∀ s, publish (v' s k) = publish (v s.other k) := by
    intro s
    rw [h.taken s k (hk s), hidem]
  refine ⟨hswap s, fun t => ⟨(hk t).1, ?_⟩⟩
  rw [hswap t.other]
  exact (hk t.other).2

end Turns

end Lait
