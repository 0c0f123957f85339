import Ish.Lib.Machine

set_option autoImplicit false

/-! # `vfork`

The end of `sys_clone` with `CLONE_VFORK` (`kernel/fork.c`), `vfork_notify` of the child, which is
called when it executes a program and when it exits, and a `wait` in another thread of the parent's
group. The parent's `vfork_info` is on its stack and is gone when `sys_clone` returns. The child's
task is freed when it is reaped.

`sys_clone` takes the child's `general_lock` before it returns, so it does not return while
`vfork_notify` has that lock: that half holds in every run. Nothing keeps the child's task for
`sys_clone` until then.
-/

namespace Ish.Process.Vfork

open Ish.Lib

inductive Who where
  | parent
  | child
deriving DecidableEq

inductive ParentPc where
  /-- Before `lock(&vfork.lock)`, at first or after a wait. -/
  | lock
  /-- At the test of `vfork.done`. -/
  | test
  /-- Before `lock(&task->general_lock)`, and after it. -/
  | general
  | clear
  /-- Before `unlock(&task->general_lock)`. -/
  | unlock
  | returned
deriving DecidableEq

/-- `exits` is whether `vfork_notify` is called by `do_exit`. -/
inductive ChildPc where
  | running
  | lockGeneral (exits : Bool)
  | test (exits : Bool)
  | lockInfo (exits : Bool)
  | store (exits : Bool)
  | unlock (exits : Bool)
  | zombie
  | reaped
deriving DecidableEq

structure State where
  parent : ParentPc
  child : ChildPc
  /-- Who has `vfork.lock` and the child's `general_lock`. -/
  info : Option Who
  general : Option Who
  /-- Whether `task->vfork` is not null. -/
  vfork : Bool
  done : Bool

inductive Label where
  | parent
  /-- The child calls `vfork_notify`, or goes on in it. -/
  | call (exits : Bool)
  | child
  | reap

/-- Where the child is after `vfork_notify`. -/
def afterNotify (exits : Bool) : ChildPc := if exits then .zombie else .running

def parentStep (s : State) : Option State :=
  match s.parent with
  | .lock => if s.info = none then some { s with info := some .parent, parent := .test } else none
  | .test => some { s with info := none, parent := if s.done then .general else .lock }
  | .general =>
    if s.general = none then some { s with general := some .parent, parent := .clear } else none
  | .clear => some { s with vfork := false, parent := .unlock }
  | .unlock => some { s with general := none, parent := .returned }
  | .returned => none

def childStep (s : State) : Option State :=
  match s.child with
  | .lockGeneral e =>
    if s.general = none then some { s with general := some .child, child := .test e } else none
  | .test e =>
    if s.vfork then some { s with child := .lockInfo e }
    else some { s with general := none, child := afterNotify e }
  | .lockInfo e =>
    if s.info = none then some { s with info := some .child, child := .store e } else none
  | .store e => some { s with done := true, info := none, child := .unlock e }
  | .unlock e => some { s with general := none, child := afterNotify e }
  | _ => none

def step (s : State) : Label → Option State
  | .parent => parentStep s
  | .call exits => if s.child = .running then some { s with child := .lockGeneral exits } else none
  | .child => childStep s
  | .reap => if s.child = .zombie then some { s with child := .reaped } else none

def machine : Machine State Label Unit := ⟨fun s l => (step s l).map fun s' => (s', ())⟩

/-- After `task_start`. -/
def init : State := ⟨.lock, .running, none, none, true, false⟩

/-- The next step of `sys_clone` uses the child's task. -/
@[simp] def ParentPc.UsesTask : ParentPc → Prop
  | .general | .clear | .unlock => True
  | _ => False

/-- The next step of `vfork_notify` uses the parent's `vfork_info`. -/
@[simp] def ChildPc.UsesInfo : ChildPc → Prop
  | .lockInfo _ | .store _ => True
  | _ => False

/-- `sys_clone` uses the child's task only while it has not been reaped. -/
def TaskThere (s : State) : Label → Prop
  | .parent => s.parent.UsesTask → s.child ≠ .reaped
  | _ => True

/-- `vfork_notify` uses the parent's `vfork_info` only while `sys_clone` has not returned. -/
def InfoThere (s : State) : Label → Prop
  | .child => s.child.UsesInfo → s.parent ≠ .returned
  | _ => True

/-- **The condition.** `reap_if_zombie` finds `task->vfork` null and the task's `general_lock`
free. -/
def ReapsCleared (s : State) : Label → Prop
  | .reap => s.vfork = false ∧ s.general = none
  | _ => True

/-- The child has its `general_lock`. -/
@[simp] def ChildPc.HasGeneral : ChildPc → Prop
  | .test _ | .lockInfo _ | .store _ | .unlock _ => True
  | _ => False

/-- The child has `vfork.lock`. -/
@[simp] def ChildPc.HasInfo : ChildPc → Prop
  | .store _ => True
  | _ => False

/-- The call of `vfork_notify` in which the child exits is over, or about to be. -/
@[simp] def ChildPc.Notified : ChildPc → Prop
  | .unlock _ | .zombie | .reaped => True
  | _ => False

theorem ChildPc.hasGeneral_of_usesInfo (pc : ChildPc) : pc.UsesInfo → pc.HasGeneral := by
  cases pc <;> simp

/-- What holds in every run: who has the locks, and what `task->vfork` says. -/
structure Inv (s : State) : Prop where
  infoParent : s.info = some .parent ↔ s.parent = .test
  infoChild : s.info = some .child ↔ s.child.HasInfo
  generalParent : s.general = some .parent ↔ s.parent = .clear ∨ s.parent = .unlock
  generalChild : s.general = some .child ↔ s.child.HasGeneral
  cleared : s.vfork = false ↔ s.parent = .unlock ∨ s.parent = .returned
  uses : s.child.UsesInfo → s.vfork = true
  notified : s.child.Notified → s.vfork = true → s.done = true

/-- **The step.** The pointer to `vfork_info` is cleared under the lock that `vfork_notify` has
while it follows it. -/
theorem Inv.step {s s' : State} {l : Label} (h : Inv s) (hstep : Vfork.step s l = some s') :
    Inv s' := by
  obtain ⟨p, c, i, g, v, d⟩ := s
  obtain ⟨hinfoParent, hinfoChild, hgeneralParent, hgeneralChild, hcleared, huses, hnotified⟩ := h
  dsimp only at *
  cases l with
  | parent =>
    -- the parent clears the pointer with the lock in hand, so the child does not have it
    have hlock := c.hasGeneral_of_usesInfo
    cases p <;> simp only [Vfork.step, parentStep, Option.ite_none_right_eq_some,
      Option.some.injEq, reduceCtorEq] at hstep
    case lock => obtain ⟨rfl, rfl⟩ := hstep; constructor <;> simp_all
    case general => obtain ⟨rfl, rfl⟩ := hstep; constructor <;> simp_all
    case test => subst hstep; cases d <;> constructor <;> simp_all
    all_goals subst hstep; constructor <;> simp_all
  | call _ | reap =>
    simp only [Vfork.step, Option.ite_none_right_eq_some, Option.some.injEq] at hstep
    obtain ⟨rfl, rfl⟩ := hstep
    constructor <;> simp_all
  | child =>
    -- the child follows the pointer that it has just tested
    cases c <;> simp only [Vfork.step, childStep, Option.ite_none_right_eq_some, reduceCtorEq,
      Option.some.injEq] at hstep
    case lockGeneral | lockInfo => obtain ⟨rfl, rfl⟩ := hstep; constructor <;> simp_all
    case test e =>
      cases v <;> simp only [reduceIte, Bool.false_eq_true, Option.some.injEq] at hstep <;>
        subst hstep
      · cases e <;> constructor <;> simp_all [afterNotify]
      · constructor <;> simp_all
    case store e => subst hstep; constructor <;> simp_all
    case unlock e => subst hstep; cases e <;> constructor <;> simp_all [afterNotify]

theorem inv_init : Inv init := by
  constructor <;> simp [init]

theorem machine_step {s s' : State} {l : Label} {o : Unit} :
    machine.step s l = some (s', o) ↔ step s l = some s' := by
  simp [machine]

theorem Inv.infoThere {s : State} (h : Inv s) (l : Label) : InfoThere s l := by
  cases l with
  | child =>
    intro huses hreturned
    have hnull : s.vfork = false := h.cleared.mpr (.inr hreturned)
    rw [h.uses huses] at hnull
    cases hnull
  | _ => trivial

/-! ## The child's task -/

/-- The child is reaped only when `sys_clone` has returned. -/
def Late (s : State) : Prop := Inv s ∧ (s.child = .reaped → s.parent = .returned)

theorem Late.step {s s' : State} {l : Label} (h : Late s) (hcleared : ReapsCleared s l)
    (hstep : Vfork.step s l = some s') : Late s' := by
  obtain ⟨hinv, hlate⟩ := h
  refine ⟨hinv.step hstep, ?_⟩
  cases l with
  | parent => unfold Vfork.step parentStep at hstep; grind
  | call exits => unfold Vfork.step at hstep; grind
  | child => unfold Vfork.step childStep afterNotify at hstep; grind
  | reap =>
    obtain ⟨hnull, hfree⟩ := hcleared
    have hparent := hinv.cleared.mp hnull
    have hgeneral := hinv.generalParent
    unfold Vfork.step at hstep
    grind

theorem Late.taskThere {s : State} (h : Late s) (l : Label) : TaskThere s l := by
  cases l with
  | parent =>
    intro huses hreaped
    rw [h.2 hreaped] at huses
    exact huses
  | _ => trivial

/-- The child is reaped while `sys_clone` is on its way to use its task. -/
structure Early (s : State) : Prop where
  reaped : s.child = .reaped
  done : s.parent.UsesTask ∨ s.done = true
  running : s.parent ≠ .returned
  free : s.parent = .lock → s.info = none

/-- `sys_clone` uses the task at its next step, or the step brings it nearer to that. -/
theorem Early.step {s : State} (h : Early s) :
    ¬ TaskThere s .parent ∨ (s.parent = .test ∧ ∃ s', step s .parent = some s' ∧ Early s' ∧
      s'.parent.UsesTask) ∨ (s.parent = .lock ∧ ∃ s', step s .parent = some s' ∧ Early s' ∧
      s'.parent = .test) := by
  obtain ⟨hreaped, hdone, hrunning, hfree⟩ := h
  by_cases huses : s.parent.UsesTask
  · exact .inl fun hthere => hthere huses hreaped
  have hdone : s.done = true := hdone.resolve_left huses
  cases hpc : s.parent with
  | lock =>
    refine .inr (.inr ⟨rfl, { s with info := some .parent, parent := .test }, ?_, ?_, rfl⟩)
    · simp [Vfork.step, parentStep, hpc, hfree hpc]
    · exact ⟨hreaped, .inr hdone, nofun, nofun⟩
  | test =>
    refine .inr (.inl ⟨rfl, { s with info := none, parent := .general }, ?_, ?_, trivial⟩)
    · simp [Vfork.step, parentStep, hpc, hdone]
    · exact ⟨hreaped, .inl trivial, nofun, nofun⟩
  | returned => exact absurd hpc hrunning
  | _ => simp [hpc] at huses

/-- Nobody but `sys_clone` takes a step any more, and its next three steps reach the use. -/
theorem Early.used {s s' : State} {labels : List Label} {os : List Unit} (h : Early s)
    (hrun : machine.run s labels = some (s', os)) :
    ¬ machine.Along TaskThere s (labels ++ List.replicate 3 .parent) := by
  induction labels generalizing s os with
  | nil =>
    rintro ⟨hfirst, hsecond⟩
    rcases h.step with hnot | ⟨-, s1, hs1, hearly, huses⟩ | ⟨-, s1, hs1, hearly, htest⟩
    · exact hnot hfirst
    · exact (hsecond s1 () (machine_step.mpr hs1)).1 huses hearly.reaped
    obtain ⟨hsecond, hthird⟩ := hsecond s1 () (machine_step.mpr hs1)
    rcases hearly.step with hnot | ⟨-, s2, hs2, hearly, huses⟩ | ⟨hlock, -⟩
    · exact hnot hsecond
    · exact (hthird s2 () (machine_step.mpr hs2)).1 huses hearly.reaped
    · rw [htest] at hlock
      cases hlock
  | cons l labels ih =>
    rintro ⟨hfirst, hrest⟩
    obtain ⟨s1, o, os', hs1, hrun, -⟩ := Machine.run_cons_eq_some.mp hrun
    have hearly : Early s1 := by
      have hstep := machine_step.mp hs1
      cases l with
      | parent =>
        rcases h.step with hnot | ⟨-, s2, hs2, hearly, -⟩ | ⟨-, s2, hs2, hearly, -⟩
        · exact absurd hfirst hnot
        all_goals
          rw [hs2] at hstep
          exact Option.some.inj hstep ▸ hearly
      | call exits => simp [Vfork.step, h.reaped] at hstep
      | child => simp [Vfork.step, childStep, h.reaped] at hstep
      | reap => simp [Vfork.step, h.reaped] at hstep
    exact ih hearly hrun (hrest s1 o hs1)

/-- A reap that does not meet the condition is too early. -/
theorem Inv.early {s s' : State} (h : Inv s) (hstep : Vfork.step s .reap = some s')
    (hnot : ¬ ReapsCleared s .reap) : Early s' := by
  simp only [Vfork.step, Option.ite_none_right_eq_some, Option.some.injEq] at hstep
  obtain ⟨hzombie, rfl⟩ := hstep
  obtain ⟨hinfoParent, hinfoChild, hgeneralParent, hgeneralChild, hcleared, -, hnotified⟩ := h
  rw [hzombie] at hinfoChild hgeneralChild hnotified
  have hrunning : s.parent ≠ .returned := by
    intro hreturned
    refine hnot ⟨hcleared.mpr (.inr hreturned), ?_⟩
    rcases hg : s.general with _ | _ | _ <;> simp_all
  refine ⟨rfl, ?_, hrunning, ?_⟩
  · cases hv : s.vfork with
    | false => simp [(hcleared.mp hv).resolve_right hrunning]
    | true => exact .inr (hnotified trivial hv)
  · intro hlock
    rcases hi : s.info with _ | _ | _ <;> simp_all

theorem Inv.reapsCleared {s s' : State} {labels : List Label} {os : List Unit} (h : Inv s)
    (hrun : machine.run s labels = some (s', os))
    (hthere : machine.Along TaskThere s (labels ++ List.replicate 3 .parent)) :
    machine.Along ReapsCleared s labels := by
  induction labels generalizing s os with
  | nil => trivial
  | cons l labels ih =>
    obtain ⟨s1, o, os', hs1, hrest, -⟩ := Machine.run_cons_eq_some.mp hrun
    have hstep := machine_step.mp hs1
    rw [Machine.along_cons_of_step hs1]
    refine ⟨?_, ih (h.step hstep) hrest (hthere.2 s1 o hs1)⟩
    cases l with
    | reap =>
      by_contra hnot
      exact (h.early hstep hnot).used hrest (hthere.2 s1 o hs1)
    | _ => trivial

/-- **`vfork`.** In every run `vfork_notify` uses the parent's `vfork_info` while it is there. The
child's task is there for `sys_clone`, however long it goes on, exactly if every reap of the run
finds the pointer to `vfork_info` cleared and the lock free. -/
theorem vfork_safe_iff (labels : List Label) (s : State) (os : List Unit)
    (hrun : machine.run init labels = some (s, os)) :
    machine.Along InfoThere init labels ∧
      ((∀ n, machine.Along TaskThere init (labels ++ List.replicate n .parent)) ↔
        machine.Along ReapsCleared init labels) := by
  refine ⟨?_, ?_, ?_⟩
  · exact Machine.along_imp (I := Inv) (Q := fun _ _ => True) (fun s l h _ => h.infoThere l)
      (fun s l s1 o h _ hs1 => h.step (machine_step.mp hs1)) inv_init
      (Machine.along_of_forall (fun _ _ _ => trivial) init)
  · intro hthere
    exact inv_init.reapsCleared hrun (hthere 3)
  · intro hcleared n
    have hall : machine.Along ReapsCleared init (labels ++ List.replicate n .parent) :=
      hcleared.append (Machine.along_of_forall (fun l hl _ => by
        rw [(List.mem_replicate.mp hl).2]
        trivial))
    exact Machine.along_imp (I := Late) (fun s l h _ => h.taskThere l)
      (fun s l s1 o h hP hs1 => h.step hP (machine_step.mp hs1)) ⟨inv_init, nofun⟩ hall

/-- The child exits, and the parent has seen it. -/
def exitLabels : List Label :=
  .call true :: (List.replicate 5 .child ++ [.parent, .parent])

/-- The parent returns, and then the child is reaped. -/
theorem vfork_safe_iff_exit :
    ∃ s os, machine.run init (exitLabels ++ List.replicate 3 .parent ++ [.reap]) = some (s, os) ∧
      s.child = .reaped ∧ s.parent = .returned ∧ ∀ n, machine.Along TaskThere init
        (exitLabels ++ List.replicate 3 .parent ++ [.reap] ++ List.replicate n .parent) := by
  refine (fun hrun => ⟨_, _, hrun, rfl, rfl, (vfork_safe_iff _ _ _ hrun).2.mpr ?_⟩) rfl
  repeat' refine (Machine.along_cons_of_step rfl _).mpr ⟨?_, ?_⟩
  all_goals trivial

/-- Another thread of the parent's group reaps the child then. `sys_clone` takes the lock of a task
that has been freed. -/
theorem vfork_uses_freed_task :
    ∃ s os, machine.run init (exitLabels ++ [.reap]) = some (s, os) ∧ ¬ TaskThere s .parent :=
  ⟨_, _, rfl, fun h => h trivial rfl⟩

end Ish.Process.Vfork
