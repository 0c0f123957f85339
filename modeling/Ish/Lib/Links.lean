import Mathlib

set_option autoImplicit false

/-! # Intrusive lists

A table of lists whose nodes sit inside the members, so that a member is in one list at most and
is moved without a search: `link` puts a member at the head of a list, `linkAfter` right after
another member, in whichever list that is, and `unlink` takes it out.

What such a table says is a partial function from members to keys. `Records L f` is that the
lists of `L` are those of `f`, and there is one rule for each of the three operations.
-/

namespace Ish.Lib

open List Function

section Links

variable {κ α : Type} [DecidableEq α]

def link [DecidableEq κ] (L : κ → List α) (k : κ) (x : α) : κ → List α :=
  update L k (x :: L k)

def unlink (L : κ → List α) (x : α) : κ → List α := fun k => (L k).filter (fun y => y ≠ x)

/-- The new member right after an old one. -/
def insertAfter (x y : α) : List α → List α
  | [] => []
  | z :: l => if z = x then z :: y :: l else z :: insertAfter x y l

def linkAfter (L : κ → List α) (x y : α) : κ → List α := fun k => insertAfter x y (L k)

theorem mem_insertAfter {x y z : α} {l : List α} :
    z ∈ insertAfter x y l ↔ z ∈ l ∨ (z = y ∧ x ∈ l) := by
  induction l with
  | nil => simp [insertAfter]
  | cons a l ih =>
    rw [insertAfter]
    split
    · rename_i hax
      simp only [mem_cons, hax, true_or, and_true]
      tauto
    rename_i hax
    simp only [mem_cons, ih, Ne.symm hax, false_or]
    tauto

theorem nodup_insertAfter {x y : α} {l : List α} (hl : l.Nodup) (hy : y ∉ l) :
    (insertAfter x y l).Nodup := by
  induction l with
  | nil => simp [insertAfter]
  | cons a l ih =>
    rw [nodup_cons] at hl
    rw [mem_cons, not_or] at hy
    rw [insertAfter]
    split
    · rw [nodup_cons, nodup_cons, mem_cons, not_or]
      exact ⟨⟨Ne.symm hy.1, hl.1⟩, hy.2, hl.2⟩
    rw [nodup_cons, mem_insertAfter, not_or]
    refine ⟨⟨hl.1, ?_⟩, ih hl.2 hy.2⟩
    rintro ⟨rfl, -⟩
    exact hy.1 rfl

/-- The lists of the table are those of the function: each member in the list of its key, once,
and no others. -/
structure Records (L : κ → List α) (f : α → Option κ) : Prop where
  mem_iff : ∀ x k, x ∈ L k ↔ f x = some k
  nodup : ∀ k, (L k).Nodup

variable {L : κ → List α} {f : α → Option κ}

theorem unlink_head {k : κ} {x : α} {l : List α} (hl : L k = x :: l) (hnodup : (L k).Nodup) :
    unlink L x k = l := by
  rw [hl, nodup_cons] at hnodup
  have hkeep : ∀ y ∈ l, y ≠ x := by
    rintro y hy rfl
    exact hnodup.1 hy
  show (L k).filter (fun y => decide (y ≠ x)) = l
  rw [hl, filter_cons_of_neg (by simp), filter_eq_self]
  simpa using hkeep

theorem Records.unlink (h : Records L f) (x : α) : Records (unlink L x) (update f x none) := by
  constructor
  · intro y k
    simp only [Ish.Lib.unlink, mem_filter, h.mem_iff, decide_eq_true_eq]
    by_cases hy : y = x
    · simp [hy]
    · simp [hy]
  · intro k
    exact (h.nodup k).filter _

theorem Records.linkAfter (h : Records L f) {x y : α} {k : κ} (hx : f x = some k)
    (hy : f y = none) : Records (linkAfter L x y) (update f y (some k)) := by
  constructor
  · intro z k'
    simp only [Ish.Lib.linkAfter, mem_insertAfter, h.mem_iff, hx, Option.some.injEq]
    by_cases hz : z = y
    · subst hz
      simp [hy]
    · simp [hz]
  intro k'
  apply nodup_insertAfter (h.nodup k')
  rw [h.mem_iff, hy]
  simp

variable [DecidableEq κ]

theorem Records.link (h : Records L f) {x : α} (hx : f x = none) (k : κ) :
    Records (link L k x) (update f x (some k)) := by
  have hnot : ∀ k', x ∉ L k' := by
    intro k' hmem
    rw [h.mem_iff, hx] at hmem
    simp at hmem
  constructor
  · intro y k'
    unfold Ish.Lib.link
    by_cases hk : k' = k
    · subst hk
      rw [update_self, mem_cons, h.mem_iff]
      by_cases hy : y = x
      · simp [hy]
      · simp [hy]
    rw [update_of_ne hk, h.mem_iff]
    by_cases hy : y = x
    · subst hy
      simp [hx, Ne.symm hk]
    · simp [hy]
  · intro k'
    unfold Ish.Lib.link
    by_cases hk : k' = k
    · subst hk
      rw [update_self, nodup_cons]
      exact ⟨hnot k', h.nodup k'⟩
    · rw [update_of_ne hk]
      exact h.nodup k'

/-- A member moved to another list. -/
theorem Records.move (h : Records L f) (x : α) (k : κ) :
    Records (Ish.Lib.link (Ish.Lib.unlink L x) k x) (update f x (some k)) := by
  have hmoved := (h.unlink x).link (update_self x none f) k
  rwa [update_idem] at hmoved

end Links

end Ish.Lib
