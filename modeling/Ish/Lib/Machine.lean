import Mathlib

set_option autoImplicit false

/-! # Labelled machines, their runs and their simulations

A machine takes one step under a label, giving the next state and an output; a label that is
not possible in a state gives nothing. Sequences of calls are runs of such a machine under the
list of calls, and interleavings of threads are runs under the list of scheduling choices.

The two rules are `Machine.run_inv` (what one step preserves, a whole run preserves) and
`Machine.run_sim` (a simulation of steps is one of runs, with the same outputs). Both are relative
to a condition `P` on the steps of the run, read in the state before each step (`Machine.Along`).
-/

namespace Ish.Lib

open Option

/-- A value of a function that was changed in one place: the new value, or an old one. -/
theorem update_cases {α β : Type} [DecidableEq α] {f : α → β} {a b : α} {v y : β}
    (h : Function.update f a v b = y) : (b = a ∧ v = y) ∨ (b ≠ a ∧ f b = y) := by
  by_cases hb : b = a
  · rw [hb, Function.update_self] at h
    exact .inl ⟨hb, h⟩
  rw [Function.update_of_ne hb] at h
  exact .inr ⟨hb, h⟩

/-- A machine with states `σ`, labels `α` and outputs `ω`. -/
structure Machine (σ α ω : Type) where
  /-- One step under a label, if the label is possible in the state. -/
  step : σ → α → Option (σ × ω)

namespace Machine

variable {σ τ α ω : Type}
variable {M : Machine σ α ω} {P Q : σ → α → Prop} {s s' s1 : σ} {a : α} {o : ω} {as : List α}
  {I : σ → Prop} {os : List ω}

/-- The run of a list of labels: the last state and the outputs in order. -/
def run (M : Machine σ α ω) : σ → List α → Option (σ × List ω)
  | s, [] => some (s, [])
  | s, a :: as =>
    match M.step s a with
    | none => none
    | some (s1, o) =>
      match M.run s1 as with
      | none => none
      | some (s2, os) => some (s2, o :: os)

/-- Every step of the run meets the condition `P` in the state before it. -/
def Along (M : Machine σ α ω) (P : σ → α → Prop) : σ → List α → Prop
  | _, [] => True
  | s, a :: as => P s a ∧ ∀ s1 o, M.step s a = some (s1, o) → M.Along P s1 as

@[simp] theorem run_nil (M : Machine σ α ω) (s : σ) : M.run s [] = some (s, []) := rfl

@[simp] theorem along_nil (M : Machine σ α ω) (P : σ → α → Prop) (s : σ) : M.Along P s [] :=
  trivial

theorem along_cons (M : Machine σ α ω) (P : σ → α → Prop) (s : σ) (a : α) (as : List α) :
    M.Along P s (a :: as) ↔ P s a ∧ ∀ s1 o, M.step s a = some (s1, o) → M.Along P s1 as :=
  Iff.rfl

theorem along_cons_of_step (h : M.step s a = some (s1, o)) (as : List α) :
    M.Along P s (a :: as) ↔ P s a ∧ M.Along P s1 as := by
  rw [along_cons]
  constructor
  · rintro ⟨hP, hrest⟩
    exact ⟨hP, hrest s1 o h⟩
  rintro ⟨hP, hrest⟩
  refine ⟨hP, ?_⟩
  intro s2 o2 h2
  obtain ⟨rfl, rfl⟩ := Prod.mk.inj (some.inj (h.symm.trans h2))
  exact hrest

theorem along_of_forall (h : ∀ a ∈ as, ∀ s, P s a) (s : σ) : M.Along P s as := by
  induction as generalizing s with
  | nil => trivial
  | cons a as ih =>
    refine ⟨h a List.mem_cons_self s, ?_⟩
    intro s1 o _
    exact ih (fun a' ha' => h a' (List.mem_cons_of_mem a ha')) s1

theorem Along.append {bs : List α} (h : M.Along P s as) (hbs : ∀ s, M.Along P s bs) :
    M.Along P s (as ++ bs) := by
  induction as generalizing s with
  | nil => exact hbs s
  | cons a as ih =>
    refine ⟨h.1, ?_⟩
    intro s1 o h1
    exact ih (h.2 s1 o h1)

theorem along_and (hP : M.Along P s as) (hQ : M.Along Q s as) :
    M.Along (fun s a => P s a ∧ Q s a) s as := by
  induction as generalizing s with
  | nil => trivial
  | cons a as ih =>
    refine ⟨⟨hP.1, hQ.1⟩, ?_⟩
    intro s1 o h1
    exact ih (hP.2 s1 o h1) (hQ.2 s1 o h1)

/-- A condition that another one gives in the states of an invariant, which the steps that meet
the other one keep, holds along every run on which the other one does. -/
theorem along_imp (himp : ∀ s a, I s → Q s a → P s a)
    (hinv : ∀ s a s1 o, I s → Q s a → M.step s a = some (s1, o) → I s1) (hs : I s)
    (h : M.Along Q s as) : M.Along P s as := by
  induction as generalizing s with
  | nil => trivial
  | cons a as ih =>
    obtain ⟨hQ, hrest⟩ := h
    refine ⟨himp s a hs hQ, ?_⟩
    intro s1 o h1
    exact ih (hinv s a s1 o hs hQ h1) (hrest s1 o h1)

/-- Conditions that agree in the states of an invariant, which the steps that meet them keep,
agree along every run. -/
theorem along_congr (hiff : ∀ s a, I s → (P s a ↔ Q s a))
    (hinv : ∀ s a s1 o, I s → Q s a → M.step s a = some (s1, o) → I s1) (hs : I s) (as : List α) :
    M.Along P s as ↔ M.Along Q s as := by
  induction as generalizing s with
  | nil => exact Iff.rfl
  | cons a as ih =>
    rw [along_cons, along_cons, hiff s a hs]
    constructor
    · rintro ⟨hQ, hrest⟩
      exact ⟨hQ, fun s1 o h1 => (ih (hinv s a s1 o hs hQ h1)).mp (hrest s1 o h1)⟩
    rintro ⟨hQ, hrest⟩
    exact ⟨hQ, fun s1 o h1 => (ih (hinv s a s1 o hs hQ h1)).mpr (hrest s1 o h1)⟩

/-- When a step keeps an invariant exactly if it meets a condition, the invariant holds all along a
run exactly if all its steps meet the condition. -/
theorem along_inv_iff (hkeeps : ∀ s a s1 o, I s → M.step s a = some (s1, o) → (I s1 ↔ P s a))
    (hs : I s) (as : List α) :
    M.Along (fun s a => ∀ s1 o, M.step s a = some (s1, o) → I s1) s as ↔
      M.Along (fun s a => (M.step s a).isSome → P s a) s as := by
  refine along_congr ?_ ?_ hs as
  · intro s a hs
    cases hstep : M.step s a with
    | none => simp
    | some r =>
      rw [← hkeeps s a r.1 r.2 hs hstep]
      simp [Prod.ext_iff]
  · intro s a s1 o hs hmeets hstep
    exact (hkeeps s a s1 o hs hstep).mpr (hmeets (by rw [hstep]; rfl))

/-- A run splits at its first step. -/
theorem run_cons_eq_some : M.run s (a :: as) = some (s', os) ↔
      ∃ s1 o os', M.step s a = some (s1, o) ∧ M.run s1 as = some (s', os') ∧ os = o :: os' := by
  rw [run]
  constructor
  · intro h
    rcases hstep : M.step s a with _ | p
    · simp [hstep] at h
    obtain ⟨s1, o⟩ := p
    cases hrun : M.run s1 as with
    | none => simp [hstep, hrun] at h
    | some q =>
      obtain ⟨s2, os'⟩ := q
      simp only [hstep, hrun, some.injEq, Prod.mk.injEq] at h
      exact ⟨s1, o, os', rfl, by rw [hrun, h.1], h.2.symm⟩
  · rintro ⟨s1, o, os', hstep, hrun, rfl⟩
    simp only [hstep, hrun]

theorem run_cons (hstep : M.step s a = some (s1, o)) (hrun : M.run s1 as = some (s', os)) :
    M.run s (a :: as) = some (s', o :: os) :=
  run_cons_eq_some.mpr ⟨s1, o, os, hstep, hrun, rfl⟩

theorem run_append {bs : List α} {os' : List ω} {s2 : σ} (h : M.run s as = some (s1, os))
    (h' : M.run s1 bs = some (s2, os')) : M.run s (as ++ bs) = some (s2, os ++ os') := by
  induction as generalizing s os with
  | nil =>
    rw [run_nil, some.injEq, Prod.mk.injEq] at h
    obtain ⟨rfl, rfl⟩ := h
    exact h'
  | cons a as ih =>
    obtain ⟨s3, o, os3, hstep, hrest, rfl⟩ := run_cons_eq_some.mp h
    exact run_cons hstep (ih hrest)

/-- The outputs of a run, without its last state. -/
def outputs (M : Machine σ α ω) (s : σ) (as : List α) : Option (List ω) :=
  (M.run s as).map Prod.snd

theorem outputs_cons (h : M.step s a = some (s1, o)) (as : List α) :
    M.outputs s (a :: as) = (M.outputs s1 as).map (o :: ·) := by
  unfold outputs
  rw [run]
  cases hrun : M.run s1 as with
  | none => simp only [h, hrun, map_none]
  | some p => simp only [h, hrun, map_some]

/-- **The invariant rule.** What every step meeting `P` preserves, every run whose steps all
meet `P` preserves. -/
theorem run_inv (hstep : ∀ s a s1 o, I s → P s a → M.step s a = some (s1, o) → I s1) (hs : I s)
    (hP : M.Along P s as) (hrun : M.run s as = some (s', os)) : I s' := by
  induction as generalizing s os with
  | nil =>
    rw [run_nil, some.injEq, Prod.mk.injEq] at hrun
    exact hrun.1 ▸ hs
  | cons a as ih =>
    obtain ⟨s1, o, os', hs1, hrest, -⟩ := run_cons_eq_some.mp hrun
    have hI : I s1 := hstep s a s1 o hs hP.1 hs1
    exact ih hI (hP.2 s1 o hs1) hrest

/-- What the output of every step meeting `P` has in the states of an invariant, all outputs of a
run have. -/
theorem run_outs {Q : ω → Prop}
    (hstep : ∀ s a s1 o, I s → P s a → M.step s a = some (s1, o) → I s1 ∧ Q o) (hs : I s)
    (hP : M.Along P s as) (hrun : M.run s as = some (s', os)) : ∀ o ∈ os, Q o := by
  induction as generalizing s os with
  | nil =>
    rw [run_nil, some.injEq, Prod.mk.injEq] at hrun
    intro o ho
    rw [← hrun.2] at ho
    cases ho
  | cons a as ih =>
    obtain ⟨s1, o, os', hs1, hrest, rfl⟩ := run_cons_eq_some.mp hrun
    obtain ⟨hI, ho⟩ := hstep s a s1 o hs hP.1 hs1
    intro o' ho'
    rcases List.mem_cons.mp ho' with rfl | hlater
    · exact ho
    · exact ih hI (hP.2 s1 o hs1) hrest o' hlater

/-- The outputs that no step meeting `P` gives in the states of an invariant are not among those
of a run. -/
theorem run_out {bad : ω}
    (hstep : ∀ s a s1 o, I s → P s a → M.step s a = some (s1, o) → I s1 ∧ o ≠ bad) (hs : I s)
    (hP : M.Along P s as) (hrun : M.run s as = some (s', os)) : bad ∉ os := by
  intro hbad
  exact run_outs (Q := fun o => o ≠ bad) hstep hs hP hrun bad hbad rfl

/-- **The simulation rule.** When every step of `M` that meets `P` from related states is
answered by a step of `N` with the same output, every run of `M` whose steps all meet `P` is
answered by a run of `N` with the same outputs. -/
theorem run_sim {M : Machine σ α ω} {N : Machine τ α ω} {P : σ → α → Prop} {R : σ → τ → Prop}
    (hstep : ∀ s t a s1 o, R s t → P s a → M.step s a = some (s1, o) →
      ∃ t1, N.step t a = some (t1, o) ∧ R s1 t1)
    {s s' : σ} {t : τ} {as : List α} {os : List ω}
    (hR : R s t) (hP : M.Along P s as) (hrun : M.run s as = some (s', os)) :
    ∃ t', N.run t as = some (t', os) ∧ R s' t' := by
  induction as generalizing s t os with
  | nil =>
    rw [run_nil, some.injEq, Prod.mk.injEq] at hrun
    obtain ⟨rfl, rfl⟩ := hrun
    exact ⟨t, rfl, hR⟩
  | cons a as ih =>
    obtain ⟨s1, o, os', hs1, hrest, rfl⟩ := run_cons_eq_some.mp hrun
    obtain ⟨t1, ht1, hR1⟩ := hstep s t a s1 o hR hP.1 hs1
    obtain ⟨t', ht', hR'⟩ := ih hR1 (hP.2 s1 o hs1) hrest
    exact ⟨t', run_cons_eq_some.mpr ⟨t1, o, os', ht1, ht', rfl⟩, hR'⟩

/-! ## Histories -/

/-- The machine with a history beside its state: `note` says what a step adds to it, and the steps
do not depend on it. -/
def record {η : Type} (M : Machine σ α ω) (note : η → σ → α → η) : Machine (σ × η) α ω :=
  ⟨fun s a => (M.step s.1 a).map fun r => ((r.1, note s.2 s.1 a), r.2)⟩

theorem record_step {η : Type} {note : η → σ → α → η} {s s' : σ × η} :
    (M.record note).step s a = some (s', o) ↔
      M.step s.1 a = some (s'.1, o) ∧ s'.2 = note s.2 s.1 a := by
  obtain ⟨s', h'⟩ := s'
  simp only [record, map_eq_some_iff, Prod.mk.injEq]
  constructor
  · rintro ⟨r, hr, ⟨rfl, rfl⟩, rfl⟩
    exact ⟨hr, rfl⟩
  rintro ⟨hr, rfl⟩
  exact ⟨(s', o), hr, ⟨rfl, rfl⟩, rfl⟩

/-- A machine whose every label is possible in every state has a run under every list. -/
theorem run_total (htot : ∀ s a, ∃ p, M.step s a = some p) (s : σ) (as : List α) :
    ∃ s' os, M.run s as = some (s', os) := by
  induction as generalizing s with
  | nil => exact ⟨s, [], rfl⟩
  | cons a as ih =>
    obtain ⟨⟨s1, o⟩, hs1⟩ := htot s a
    obtain ⟨s', os, hrun⟩ := ih s1
    exact ⟨s', o :: os, run_cons_eq_some.mpr ⟨s1, o, os, hs1, hrun, rfl⟩⟩

end Machine

end Ish.Lib
