import Mathlib

set_option autoImplicit false

/-! # Slots

A list of slots that are free or taken, seen as a function on all numbers: the slots behind the end
of the list are free. A slot is set inside the list, and a list is made longer with free slots; the
function says what either does. `FirstFree l start f` is that `f` is the first free slot from
`start` on, inside the list or behind it.
-/

namespace Ish.Lib

open List

section Slots

variable {α : Type} {l : List (Option α)} {i j start f : Nat} {x : Option α}

def slot (l : List (Option α)) (i : Nat) : Option α := (l[i]?).join

theorem slot_of_length_le (h : l.length ≤ i) : slot l i = none := by
  rw [slot, getElem?_eq_none h]
  rfl

theorem slot_set (hi : i < l.length) (x : Option α) (j : Nat) :
    slot (l.set i x) j = if j = i then x else slot l j := by
  unfold slot
  by_cases hj : j = i
  · subst hj
    rw [getElem?_set_self hi, if_pos rfl]
    rfl
  · rw [getElem?_set_ne (Ne.symm hj), if_neg hj]

theorem slot_append_free (l : List (Option α)) (n i : Nat) :
    slot (l ++ replicate n none) i = slot l i := by
  by_cases hi : i < l.length
  · rw [slot, getElem?_append_left hi]
    rfl
  have hle := Nat.le_of_not_lt hi
  rw [slot_of_length_le hle, slot, getElem?_append_right hle, getElem?_replicate]
  split <;> rfl

/-- The first free slot from `start` on. -/
structure FirstFree (l : List (Option α)) (start f : Nat) : Prop where
  start_le : start ≤ f
  free : slot l f = none
  taken : ∀ g, start ≤ g → g < f → slot l g ≠ none

theorem exists_firstFree (l : List (Option α)) (start : Nat) : ∃ f, FirstFree l start f := by
  classical
  have hex : ∃ f, start ≤ f ∧ slot l f = none :=
    ⟨max start l.length, Nat.le_max_left _ _, slot_of_length_le (Nat.le_max_right _ _)⟩
  refine ⟨Nat.find hex, (Nat.find_spec hex).1, (Nat.find_spec hex).2, ?_⟩
  intro g hg hlt hfree
  exact Nat.find_min hex hlt ⟨hg, hfree⟩

namespace FirstFree

theorem le (h : FirstFree l start f) {g : Nat} (hg : start ≤ g) (hfree : slot l g = none) :
    f ≤ g := by
  by_contra hlt
  exact h.taken g hg (Nat.lt_of_not_le hlt) hfree

theorem le_max (h : FirstFree l start f) : f ≤ max start l.length :=
  h.le (Nat.le_max_left _ _) (slot_of_length_le (Nat.le_max_right _ _))

/-- With the first slot taken, the search goes on at the next one. -/
theorem succ (h : FirstFree l start f) (htaken : slot l start ≠ none) :
    FirstFree l (start + 1) f := by
  have hne : start ≠ f := by
    rintro rfl
    exact htaken h.free
  have hle := h.start_le
  refine ⟨by omega, h.free, ?_⟩
  intro g hg hlt
  exact h.taken g (by omega) hlt

end FirstFree

end Slots

end Ish.Lib
