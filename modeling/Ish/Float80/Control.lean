import Ish.Lib.Machine
import Ish.Float80.Basic

set_option autoImplicit false

/-! # The rounding mode of a thread

The operations of `emu/float80.c` read their mode from the host thread's `f80_rounding_mode`, and
the guest sets it in the field `rc` of the task's control word. `fpu_ldcw16` is the only place that
copies the one to the other. `fpu_ldenv32`, which `fldenv` and `frstor` share, loads a control word
without that; the thread of a new task begins with `round_to_nearest` and a copy of its parent's
control word; and `elf_exec` writes `0x37f` into the control word of a thread that keeps its mode.
The helpers `fpu_prem` and `fpu_scale` set another mode and put the old one back.
-/

namespace Ish.Float80

open Function Option Ish.Lib

/-- The field `rc` of a control word, as a mode. -/
def rc (fcw : UInt16) : Mode :=
  match (fcw >>> 10 &&& 3).toNat with
  | 0 => .nearest
  | 1 => .down
  | 2 => .up
  | _ => .chop

/-- A task: `cpu.fcw`, and `f80_rounding_mode` of its host thread. -/
structure FpuTask where
  fcw : UInt16
  mode : Mode
deriving DecidableEq

abbrev FpuTasks (τ : Type) := τ → Option FpuTask

inductive FpuOp (τ : Type) where
  | ldcw16 (word : UInt16)
  | ldenv32 (control : UInt16)
  | restore32 (control : UInt16)
  /-- `task_create_` and `task_start`, for a process or for a thread. -/
  | start (child : τ)
  | exec
  /-- An arithmetic helper. -/
  | helper

section Model

variable {τ : Type} [DecidableEq τ]

/-- A step of the task `t`. The output of a helper is the mode that it runs in and the one that the
control word asks for. -/
def FpuTasks.step (s : FpuTasks τ) (l : τ × FpuOp τ) : Option (FpuTasks τ × Option (Mode × Mode)) :=
  (s l.1).bind fun T =>
    match l.2 with
    | .ldcw16 word => some (update s l.1 (some ⟨word, rc word⟩), none)
    | .ldenv32 control | .restore32 control =>
      some (update s l.1 (some { T with fcw := control }), none)
    | .start child =>
      if (s child).isSome then none else some (update s child (some ⟨T.fcw, .nearest⟩), none)
    | .exec => some (update s l.1 (some { T with fcw := 0x37f }), none)
    | .helper => some (s, some (T.mode, rc T.fcw))

def fpuMachine : Machine (FpuTasks τ) (τ × FpuOp τ) (Option (Mode × Mode)) := ⟨FpuTasks.step⟩

/-- A helper that is executed now rounds as the control word of its task says. -/
def FpuTasks.Coherent (s : FpuTasks τ) : Prop :=
  ∀ t s' mode word, fpuMachine.step s (t, .helper) = some (s', some (mode, word)) → mode = word

/-- The condition on a step of a task: a control word that is loaded without the mode rounds like
the old one, and tasks start and execute programs while they round to nearest. -/
def FpuOp.Keeps (T : FpuTask) : FpuOp τ → Prop
  | .ldenv32 control | .restore32 control => rc control = rc T.fcw
  | .start _ | .exec => rc T.fcw = .nearest
  | .ldcw16 _ | .helper => True

variable {s s' : FpuTasks τ} {l : τ × FpuOp τ} {o : Option (Mode × Mode)}

theorem coherent_iff_mode : s.Coherent ↔ ∀ t T, s t = some T → T.mode = rc T.fcw := by
  constructor
  · intro h t T hT
    apply h t s
    simp [fpuMachine, FpuTasks.step, hT]
  intro h t s' mode word hstep
  obtain ⟨T, hT, hout⟩ := bind_eq_some_iff.mp hstep
  cases hout
  exact h t T hT

/-- When one task changes, it alone decides whether the states stay coherent. -/
theorem coherent_update (h : s.Coherent) (t : τ) (T : FpuTask) :
    FpuTasks.Coherent (update s t (some T)) ↔ T.mode = rc T.fcw := by
  rw [coherent_iff_mode] at h ⊢
  constructor
  · intro hall
    exact hall t T (update_self ..)
  intro hT t' T' hT'
  rcases update_cases hT' with ⟨-, hnew⟩ | ⟨-, hold⟩
  · cases hnew
    exact hT
  · exact h t' T' hold

/-- **One step** keeps the states coherent exactly if it meets the condition. -/
theorem coherent_step (h : s.Coherent) (hstep : fpuMachine.step s l = some (s', o)) :
    s'.Coherent ↔ ∀ T, s l.1 = some T → l.2.Keeps T := by
  obtain ⟨t, op⟩ := l
  obtain ⟨T, hT, hop⟩ := bind_eq_some_iff.mp hstep
  have hmode : T.mode = rc T.fcw := coherent_iff_mode.mp h t T hT
  simp only [hT, some.injEq, forall_eq']
  cases op with
  | ldcw16 word =>
    cases hop
    exact iff_of_true ((coherent_update h t _).mpr rfl) trivial
  | ldenv32 control | restore32 control =>
    cases hop
    rw [coherent_update h, hmode]
    exact eq_comm
  | start child =>
    obtain ⟨-, hop⟩ := ite_none_left_eq_some.mp hop
    cases hop
    rw [coherent_update h]
    exact eq_comm
  | exec =>
    cases hop
    have hword : rc 0x37f = .nearest := by decide
    rw [coherent_update h, hmode]
    exact Eq.congr_right hword
  | helper =>
    cases hop
    exact iff_of_true h trivial

/-- **When the mode follows the control word.** In every run from a coherent state, all states are
coherent exactly if all steps meet the condition. -/
theorem coherent_iff (s : FpuTasks τ) (as : List (τ × FpuOp τ)) (h : s.Coherent) :
    fpuMachine.Along (fun s l => ∀ s' o, fpuMachine.step s l = some (s', o) → s'.Coherent) s as ↔
      fpuMachine.Along (fun s l => (fpuMachine.step s l).isSome →
        ∀ T, s l.1 = some T → l.2.Keeps T) s as :=
  Machine.along_inv_iff (fun _ _ _ _ hs hstep => coherent_step hs hstep) h as

end Model

/-- The first process, which `task_create_` has zeroed. -/
def firstTask : FpuTasks Nat := fun t => if t = 1 then some ⟨0, .nearest⟩ else none

theorem firstTask_coherent : firstTask.Coherent := by
  rw [coherent_iff_mode]
  intro t T hT
  unfold firstTask at hT
  split at hT
  · cases hT
    rfl
  · cases hT

/-- The first process forks, its child rounds up from then on, and both compute. -/
def forkAndRound : List (Nat × FpuOp Nat) :=
  [(1, .start 2), (2, .ldcw16 0xb7f), (2, .helper), (1, .helper)]

theorem coherent_iff_fork :
    fpuMachine.outputs firstTask forkAndRound =
        some [none, none, some (.up, .up), some (.nearest, .nearest)] ∧
      fpuMachine.Along (fun s l => ∀ s' o, fpuMachine.step s l = some (s', o) → s'.Coherent)
        firstTask forkAndRound := by
  refine ⟨by decide, (coherent_iff firstTask _ firstTask_coherent).mpr ⟨?_, ?_⟩⟩
  · rintro - T ⟨⟩
    rfl
  -- the other steps ask for nothing
  intro s' o _
  refine ⟨fun _ _ _ => trivial, fun _ _ _ => ⟨fun _ _ _ => trivial, fun _ _ _ => ?_⟩⟩
  exact ⟨fun _ _ _ => trivial, fun _ _ _ => trivial⟩

/-- A process that rounds up forks, and the child rounds to nearest; a process that rounds up
executes a program, which rounds up too; and `fldenv` does not change how a process rounds. -/
theorem mode_not_followed :
    fpuMachine.outputs firstTask [(1, .ldcw16 0xb7f), (1, .start 2), (2, .helper)] =
      some [none, none, some (.nearest, .up)] ∧
    fpuMachine.outputs firstTask [(1, .ldcw16 0xb7f), (1, .exec), (1, .helper)] =
      some [none, none, some (.up, .nearest)] ∧
    fpuMachine.outputs firstTask [(1, .ldenv32 0xf7f), (1, .helper)] =
      some [none, some (.nearest, .chop)] := by
  decide

end Ish.Float80
