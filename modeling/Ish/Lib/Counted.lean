import Mathlib

set_option autoImplicit false

/-! # Objects with reference counts

A store of objects, each with the number of references to it. An object is there as long as the
number is positive, which is a field of it: `release` of the last reference takes the object out
and hands back what it held.

The rules say that taking a reference and giving it back leaves the store as it was, for one object
(`release_retain`, `release_alloc`) and for a list of them (`releaseAll_retainAll`).
-/

namespace Ish.Lib

open Function

structure Counted (α : Type) where
  refcount : Nat
  held : α
  pos : 0 < refcount

abbrev Store (α : Type) := Nat → Option (Counted α)

namespace Store

variable {α : Type}

/-- A new object at a free address, with one reference. -/
def alloc (h : Store α) (i : Nat) (a : α) : Store α :=
  update h i (some ⟨1, a, Nat.one_pos⟩)

def retain (h : Store α) (i : Nat) : Store α :=
  update h i ((h i).map fun c => ⟨c.refcount + 1, c.held, Nat.succ_pos _⟩)

/-- The store without the reference, and what the object held if it was the last one. -/
def release (h : Store α) (i : Nat) : Store α × Option α :=
  match h i with
  | none => (h, none)
  | some c =>
    if hlast : c.refcount = 1 then (update h i none, some c.held)
    else
      (update h i
        (some ⟨c.refcount - 1, c.held, by have := c.pos; omega⟩), none)

def retainAll (h : Store α) (l : List Nat) : Store α := l.foldl retain h

def releaseAll (h : Store α) (l : List Nat) : Store α := l.foldl (fun h i => (h.release i).1) h

theorem release_alloc {h : Store α} {i : Nat} (hi : h i = none) (a : α) :
    (h.alloc i a).release i = (h, some a) := by
  unfold release alloc
  rw [update_self]
  simp only [dite_true, update_idem, Prod.mk.injEq, and_true]
  rw [← hi, update_eq_self]

theorem release_retain (h : Store α) (i : Nat) : (h.retain i).release i = (h, none) := by
  unfold release retain
  rw [update_self]
  rcases hi : h i with _ | c
  · simp only [Option.map_none, Prod.mk.injEq, and_true]
    rw [← hi, update_eq_self]
  have hpos := c.pos
  have hne : ¬ c.refcount + 1 = 1 := by omega
  simp only [Option.map_some, hne, dite_false, Nat.add_sub_cancel, update_idem,
    Prod.mk.injEq, and_true]
  rw [← hi, update_eq_self]

theorem retain_comm (h : Store α) (i j : Nat) : (h.retain i).retain j = (h.retain j).retain i := by
  by_cases hij : i = j
  · rw [hij]
  unfold retain
  rw [update_of_ne hij, update_of_ne (Ne.symm hij), update_comm hij]

theorem retainAll_cons (h : Store α) (i : Nat) (l : List Nat) :
    h.retainAll (i :: l) = (h.retainAll l).retain i := by
  induction l generalizing h with
  | nil => rfl
  | cons j l ih =>
    calc
      h.retainAll (i :: j :: l) = ((h.retain i).retain j).retainAll l := rfl
      _ = ((h.retain j).retain i).retainAll l := by rw [retain_comm]
      _ = (h.retain j).retainAll (i :: l) := rfl
      _ = ((h.retain j).retainAll l).retain i := ih (h.retain j)
      _ = (h.retainAll (j :: l)).retain i := rfl

/-- One reference to each object of a list, taken and given back in the same order. -/
theorem releaseAll_retainAll (h : Store α) (l : List Nat) : (h.retainAll l).releaseAll l = h := by
  induction l with
  | nil => rfl
  | cons i l ih =>
    calc
      (h.retainAll (i :: l)).releaseAll (i :: l)
          = ((h.retainAll l).retain i).releaseAll (i :: l) := by rw [retainAll_cons]
      _ = (((h.retainAll l).retain i).release i).1.releaseAll l := rfl
      _ = (h.retainAll l).releaseAll l := by rw [release_retain]
      _ = h := ih

end Store

/-! ## Counting references

Each of finitely many owners holds a list of references to objects, with an object as often as the
owner holds it. `references` is the number of references to one object. The rules say how the
number changes when one owner's list does, and that the lists of two owners are both counted.
-/

open Finset

section References

variable {α β : Type} [DecidableEq β]
variable {S : Finset α} {r r' : α → List β} {t : α}

def references (S : Finset α) (r : α → List β) (d : β) : Nat := ∑ t ∈ S, (r t).count d

theorem references_congr {d : β} (h : ∀ t ∈ S, (r' t).count d = (r t).count d) :
    references S r' d = references S r d :=
  sum_congr rfl h

theorem references_pos_iff {d : β} : 0 < references S r d ↔ ∃ t ∈ S, d ∈ r t := by
  simp [references, sum_pos_iff, List.count_pos_iff]

variable [DecidableEq α]

theorem references_eq_erase (r : α → List β) (d : β) (ht : t ∈ S) :
    references S r d = (r t).count d + references (S.erase t) r d :=
  (add_sum_erase S (fun t => (r t).count d) ht).symm

theorem references_insert (r : α → List β) (d : β) (ht : t ∉ S) :
    references (insert t S) r d = (r t).count d + references S r d :=
  sum_insert ht

/-- One owner's list changes. -/
theorem references_change (ht : t ∈ S) (hother : ∀ u, u ≠ t → r' u = r u) (d : β) :
    references S r' d + (r t).count d = references S r d + (r' t).count d := by
  have hrest : references (S.erase t) r' d = references (S.erase t) r d := by
    apply references_congr
    intro u hu
    rw [hother u (ne_of_mem_erase hu)]
  rw [references_eq_erase r' d ht, references_eq_erase r d ht, hrest]
  omega

theorem count_le_references (r : α → List β) (d : β) (ht : t ∈ S) :
    (r t).count d ≤ references S r d := by
  rw [references_eq_erase r d ht]
  omega

theorem count_add_count_le_references (r : α → List β) (d : β) {u : α} (ht : t ∈ S) (hu : u ∈ S)
    (hne : u ≠ t) : (r t).count d + (r u).count d ≤ references S r d := by
  rw [references_eq_erase r d ht]
  have hle := count_le_references r d (mem_erase.mpr ⟨hne, hu⟩)
  omega

end References

/-! ## Counting the holders of a shared object

A reference count is meant to be the number of places that hold the object. Here the places
are a finite set of slots, `f s` is what slot `s` holds, and `holders S f d` is the number of
slots that hold `d`. Writing one slot moves the count of at most two objects, which is
`holders_update`; the other lemmas are its cases.
-/

variable {α β : Type} [DecidableEq β]

/-- The number of slots of `S` that hold `d`. -/
def holders (S : Finset α) (f : α → Option β) (d : β) : Nat :=
  (S.filter (fun s => f s = some d)).card

theorem holders_pos_iff (S : Finset α) (f : α → Option β) (d : β) :
    0 < holders S f d ↔ ∃ s ∈ S, f s = some d := by
  rw [holders, card_pos]
  constructor
  · rintro ⟨s, hs⟩
    exact ⟨s, (mem_filter.mp hs).1, (mem_filter.mp hs).2⟩
  rintro ⟨s, hs, hd⟩
  exact ⟨s, mem_filter.mpr ⟨hs, hd⟩⟩

theorem holders_congr (S : Finset α) {f g : α → Option β} (h : ∀ s ∈ S, f s = g s) (d : β) :
    holders S f d = holders S g d := by
  unfold holders
  congr 1
  exact filter_congr (fun s hs => by rw [h s hs])

variable [DecidableEq α]

/-- The holders of `d` are those outside slot `s`, and slot `s` if it holds `d`. -/
theorem holders_eq_erase (S : Finset α) (f : α → Option β) (d : β) {s : α} (hs : s ∈ S) :
    holders S f d = holders (S.erase s) f d + if f s = some d then 1 else 0 := by
  unfold holders
  rw [filter_erase]
  by_cases h : f s = some d
  · have hmem : s ∈ S.filter (fun t => f t = some d) := mem_filter.mpr ⟨hs, h⟩
    have hpos := card_pos.mpr ⟨s, hmem⟩
    rw [if_pos h, card_erase_of_mem hmem]
    omega
  · have hmem : s ∉ S.filter (fun t => f t = some d) := fun hc => h (mem_filter.mp hc).2
    rw [if_neg h, erase_eq_of_notMem hmem, Nat.add_zero]

/-- **Writing one slot.** The count of `d` loses what the slot held and gains what it gets. -/
theorem holders_update (S : Finset α) (f : α → Option β) (d : β) {s : α} (hs : s ∈ S)
    (v : Option β) :
    holders S (update f s v) d + (if f s = some d then 1 else 0)
      = holders S f d + if v = some d then 1 else 0 := by
  have hrest : holders (S.erase s) (update f s v) d = holders (S.erase s) f d :=
    holders_congr _ (fun t ht => update_of_ne (ne_of_mem_erase ht) v f) d
  rw [holders_eq_erase S (update f s v) d hs, holders_eq_erase S f d hs, hrest, update_self]
  omega

end Ish.Lib
