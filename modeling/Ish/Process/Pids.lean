import Ish.Process.Groups

set_option autoImplicit false

/-! # Giving out pids

`pid_get` and `task_create_` (`kernel/task.c`). `pid_get` compares a number with the size of the
table, which is one more than its last index. `task_create_` goes round the numbers until it finds
an entry that is empty, however often it has to, and when there is no memory for the task it returns
without giving back `pids_lock`.

An empty entry is one whose number nobody has, as long as every group is in the lists of its own
numbers.
-/

namespace Ish.Process

open Ish.Lib

/-- The index into `pids` of `pid_get`, if there is one. -/
def pidIndex (id : BitVec 32) : Option Nat :=
  if MAX_PID + 1 < id.toNat then none else some id.toNat

/-- `cur_pid` after a turn. -/
def nextPid (cur : Nat) : Nat := if MAX_PID < cur + 1 then 1 else cur + 1

/-- What `task_create_` returns, and whether it has `pids_lock` then. -/
structure Created where
  pid : Option Pid
  locked : Bool

namespace Procs

/-- The turns of the loop in `task_create_`. -/
def pidLoop (s : Procs) : Nat → Nat → Option Pid
  | 0, _ => none
  | k + 1, cur =>
    if s.pidEmpty (nextPid cur) then some (nextPid cur) else s.pidLoop k (nextPid cur)

/-- `task_create_` after at most `k` turns; `alloc` is whether there is memory. -/
def createTask (s : Procs) (k cur : Nat) (alloc : Bool) : Option Created :=
  (s.pidLoop k cur).map fun p => if alloc then ⟨some p, false⟩ else ⟨none, true⟩

/-- The number of no task, session or process group. -/
def Unused (s : Procs) (p : Pid) : Prop :=
  s.task p = none ∧ ∀ g G, s.group g = some G → G.sid ≠ p ∧ G.pgid ≠ p

/-- What is promised of the numbers. -/
structure PidsRight (s : Procs) (id : BitVec 32) (cur : Nat) (alloc : Bool) : Prop where
  index : ∀ i, pidIndex id = some i → i ≤ MAX_PID
  created : ∃ k r, s.createTask k cur alloc = some r ∧ r.locked = false ∧
    (r.pid = none ↔ alloc = false ∨ ∀ p, 1 ≤ p → p ≤ MAX_PID → s.pidEmpty p = false) ∧
    ∀ p, r.pid = some p → s.Unused p

variable {s : Procs} {cur p : Nat}

theorem nextPid_range (cur : Nat) : 1 ≤ nextPid cur ∧ nextPid cur ≤ MAX_PID := by
  unfold nextPid MAX_PID
  split <;> omega

theorem pidLoop_spec {k : Nat} (h : s.pidLoop k cur = some p) :
    1 ≤ p ∧ p ≤ MAX_PID ∧ s.pidEmpty p = true := by
  induction k generalizing cur with
  | zero => cases h
  | succ k ih =>
    unfold pidLoop at h
    split at h
    · next hempty =>
      cases h
      exact ⟨(nextPid_range cur).1, (nextPid_range cur).2, hempty⟩
    · exact ih h

/-- The loop comes to an end. -/
def Ends (s : Procs) (cur : Nat) : Prop := ∃ k p, s.pidLoop k cur = some p

theorem ends_of_next (h : s.pidEmpty (nextPid cur) = true ∨ s.Ends (nextPid cur)) : s.Ends cur := by
  by_cases hempty : s.pidEmpty (nextPid cur) = true
  · exact ⟨1, nextPid cur, if_pos hempty⟩
  obtain ⟨k, p, hk⟩ := h.resolve_left hempty
  exact ⟨k + 1, p, (if_neg hempty).trans hk⟩

/-- Up to a number that is free. -/
theorem ends_below (hle : p ≤ MAX_PID) (hp : s.pidEmpty p = true) (hlt : cur < p) : s.Ends cur := by
  induction hn : p - cur generalizing cur with
  | zero => omega
  | succ n ih =>
    have hnext : nextPid cur = cur + 1 := if_neg (by omega)
    refine ends_of_next ?_
    rw [hnext]
    rcases Nat.lt_or_eq_of_le hlt with hmore | rfl
    · exact .inr (ih hmore (by omega))
    · exact .inl hp

/-- **The loop ends** if a number is free: after the last number it goes on with the first. -/
theorem ends_of_free (hpos : 1 ≤ p) (hle : p ≤ MAX_PID) (hp : s.pidEmpty p = true)
    (hcur : cur ≤ MAX_PID) : s.Ends cur := by
  by_cases hlt : cur < p
  · exact ends_below hle hp hlt
  -- on the distance to the last number
  induction hn : MAX_PID - cur generalizing cur with
  | zero =>
    have hnext : nextPid cur = 1 := if_pos (by omega)
    refine ends_of_next ?_
    rw [hnext]
    rcases Nat.lt_or_eq_of_le hpos with hmore | rfl
    · exact .inr (ends_below hle hp hmore)
    · exact .inl hp
  | succ n ih =>
    have hnext : nextPid cur = cur + 1 := if_neg (by omega)
    refine ends_of_next (.inr ?_)
    rw [hnext]
    exact ih (by omega) (by omega) (by omega)

/-- An empty entry has a number that nobody has. -/
theorem Grouped.unused (h : s.Grouped) (hp : s.pidEmpty p = true) : s.Unused p := by
  simp only [pidEmpty, Bool.and_eq_true, Option.isNone_iff_eq_none, List.isEmpty_iff] at hp
  obtain ⟨⟨htask, hsession⟩, hpgroup⟩ := hp
  refine ⟨htask, fun g G hG => ⟨?_, ?_⟩⟩
  · intro hsid
    have hmem := (h.session.mem_iff g p).mpr (by simp [sidOf, hG, hsid])
    simp [hsession] at hmem
  intro hpgid
  have hmem := (h.pgroup.mem_iff g p).mpr (by simp [pgidOf, hG, hpgid])
  simp [hpgroup] at hmem

end Procs

namespace Sys

open Procs

/-- **Pids.** In the states of a run in which every group is put into the lists of its own numbers,
the numbers are used as promised exactly when `pid_get` is not asked for the number after the last
one, there is memory for the task, and a number is free. -/
theorem pids_right_iff (ops : List Op) (hown : machine.Along StepOwn init ops) (σ : Sys)
    (answers : List Answer) (hrun : machine.run init ops = some (σ, answers)) (id : BitVec 32)
    (cur : Fin (MAX_PID + 1)) (alloc : Bool) :
    σ.procs.PidsRight id cur alloc ↔
      id.toNat ≠ MAX_PID + 1 ∧ alloc = true ∧
        ∃ p, 1 ≤ p ∧ p ≤ MAX_PID ∧ σ.procs.pidEmpty p = true := by
  have hgrouped : σ.procs.Grouped :=
    Machine.run_inv (I := fun σ => σ.procs.Grouped)
      (fun _ _ _ _ h hown hstep => step_grouped h hown hstep) init_grouped hown hrun
  constructor
  · rintro ⟨hindex, k, r, hr, hlocked, -⟩
    obtain ⟨p, hp, rfl⟩ := Option.map_eq_some_iff.mp hr
    refine ⟨?_, ?_, p, pidLoop_spec hp⟩
    · intro hid
      have := hindex (MAX_PID + 1) (by simp [pidIndex, hid])
      omega
    cases alloc with
    | false => cases hlocked
    | true => rfl
  rintro ⟨hid, rfl, p, hpos, hle, hp⟩
  obtain ⟨k, q, hq⟩ := ends_of_free hpos hle hp (Nat.le_of_lt_succ cur.isLt)
  refine ⟨?_, k, ⟨some q, false⟩, by simp [createTask, hq], rfl, ?_, ?_⟩
  · intro i hi
    unfold pidIndex at hi
    split at hi
    · cases hi
    cases hi
    omega
  · simp only [reduceCtorEq, false_iff, false_or]
    intro hall
    rw [hall p hpos hle] at hp
    cases hp
  · rintro _ ⟨⟩
    exact hgrouped.unused (pidLoop_spec hq).2.2

/-- Two children, of which the first is put into a process group of its own, exits and is reaped. -/
theorem pids_right_job :
    ∃ σ answers, machine.run init [.clone 1 2 false, .clone 1 3 false, .setpgid 1 2 2, .exit 2 0,
        .wait 1 ⟨.all, 0, ⟨true, false, true, false, false, false⟩⟩] = some (σ, answers) ∧
      answers = [.done, .done, .done, .done, .child 2 0] ∧ σ.procs.PidsRight 1 1 true := by
  refine (fun hrun => ⟨_, _, hrun, rfl, (pids_right_iff _ ?_ _ _ hrun 1 1 true).mpr ?_⟩) rfl
  · repeat' refine (Machine.along_cons_of_step rfl _).mpr ⟨?_, ?_⟩
    all_goals first | trivial | exact fun _ _ _ => .inr rfl
  · exact ⟨by decide, rfl, 2, by decide, by decide, by decide +kernel⟩

/-- A table without a free entry. -/
def full : Procs :=
  { init.procs with task := fun _ => some ⟨1, none, [], 0, false, false, false, 0⟩ }

theorem full_pidLoop (k cur : Nat) : full.pidLoop k cur = none := by
  induction k generalizing cur with
  | zero => rfl
  | succ k ih => exact ih (nextPid cur)

/-- The index for 32769 is past the end of `pids`. Without memory the lock stays taken, and without
a free number the loop goes on for ever. And the second process of a job outlives the first, whose
number is given to a new task while it is still that of the process group. -/
theorem pids_wrong :
    pidIndex 32769 = some (MAX_PID + 1) ∧ init.procs.createTask 2 0 false = some ⟨none, true⟩ ∧
      (∀ k cur, full.createTask k cur true = none) ∧
      ∃ σ answers, machine.run init [.clone 1 2 false, .clone 1 3 false, .setpgid 1 2 2,
          .setpgid 1 3 2, .exit 2 0, .wait 1 ⟨.all, 0, ⟨true, false, true, false, false, false⟩⟩] =
          some (σ, answers) ∧
        σ.procs.createTask 1 1 true = some ⟨some 2, false⟩ ∧ ¬ σ.procs.Unused 2 := by
  refine ⟨by decide, rfl, fun k cur => by simp [createTask, full_pidLoop], _, _, rfl, rfl, ?_⟩
  intro hunused
  exact (hunused.2 3 _ rfl).2 rfl

end Sys

end Ish.Process
