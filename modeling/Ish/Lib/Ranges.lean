import Mathlib

set_option autoImplicit false

/-! # Closed ranges of integers

A range is given by its two ends, both included; it is empty when they are the wrong way round.
Two ranges *touch* when they overlap or one begins right after the other ends. The range that
reaches from one to the other (`hull`) then has no point of its own.
-/

namespace Ish.Lib

structure Range where
  lo : Int
  hi : Int

namespace Range

variable {a b : Range} {x : Int}

instance : Membership Int Range := ⟨fun r x => r.lo ≤ x ∧ x ≤ r.hi⟩

theorem mem_def (r : Range) (x : Int) : x ∈ r ↔ r.lo ≤ x ∧ x ≤ r.hi := Iff.rfl

instance (r : Range) (x : Int) : Decidable (x ∈ r) := inferInstanceAs (Decidable (_ ∧ _))

/-- The two ranges overlap. -/
def Overlaps (a b : Range) : Prop := a.lo ≤ b.hi ∧ b.lo ≤ a.hi

/-- The two ranges overlap, or one begins right after the other ends. -/
def Touches (a b : Range) : Prop := a.Overlaps b ∨ a.hi + 1 = b.lo ∨ b.hi + 1 = a.lo

/-- The smallest range that covers both. -/
def hull (a b : Range) : Range := ⟨min a.lo b.lo, max a.hi b.hi⟩

instance (a b : Range) : Decidable (a.Overlaps b) := inferInstanceAs (Decidable (_ ∧ _))

instance (a b : Range) : Decidable (a.Touches b) := inferInstanceAs (Decidable (_ ∨ _))

theorem overlaps_comm : a.Overlaps b ↔ b.Overlaps a := and_comm

theorem mem_hull_left (hx : x ∈ a) : x ∈ a.hull b := by
  rw [mem_def] at hx ⊢
  simp only [hull]
  omega

theorem mem_hull_right (hx : x ∈ b) : x ∈ a.hull b := by
  rw [mem_def] at hx ⊢
  simp only [hull]
  omega

/-- **Joining ranges that touch adds no point.** -/
theorem mem_hull (ha : a.lo ≤ a.hi) (h : a.Touches b) (x : Int) : x ∈ a.hull b ↔ x ∈ a ∨ x ∈ b := by
  constructor
  · intro hx
    simp only [mem_def, hull, Touches, Overlaps] at *
    omega
  rintro (hx | hx)
  · exact mem_hull_left hx
  · exact mem_hull_right hx

end Range

end Ish.Lib
