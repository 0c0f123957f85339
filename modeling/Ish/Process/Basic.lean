import Ish.Lib.Machine
import Ish.Lib.Links

set_option autoImplicit false

/-! # Tasks, thread groups and their tables

The process table of `kernel/task.c`, and the functions of `kernel/fork.c`, `kernel/group.c` and
`kernel/exit.c` that change it under `pids_lock`.

A task is named by its pid, which it keeps until it is destroyed, and a thread group by the pid of
its leader: the group and its leader's task are freed together, when the leader is reaped. The
entry of a pid in the table also holds the lists of the thread groups whose process group, or
session, has that number. The lists are intrusive ones, and `tgroup_copy` puts a new group next to
its parent's.
-/

namespace Ish.Process

open Function Ish.Lib

abbrev Pid := Nat

def MAX_PID : Nat := 2 ^ 15

inductive Errno where
  | eperm
  | esrch
  | echild
  | eintr
deriving DecidableEq

/-! ## The state -/

structure Task where
  /-- The leader of `task->group`. -/
  group : Pid
  parent : Option Pid
  children : List Pid
  exitCode : Nat
  zombie : Bool
  exiting : Bool
  ptraceStopped : Bool
  ptraceSignal : Nat

structure TGroup where
  threads : List Pid
  sid : Pid
  pgid : Pid
  stopped : Bool
  doingGroupExit : Bool
  groupExitCode : Nat

structure Procs where
  task : Pid → Option Task
  group : Pid → Option TGroup
  /-- The lists of `struct pid`. -/
  session : Pid → List Pid
  pgroup : Pid → List Pid

namespace Procs

def modTask (s : Procs) (p : Pid) (f : Task → Task) : Procs :=
  { s with task := update s.task p ((s.task p).map f) }

def modGroup (s : Procs) (g : Pid) (f : TGroup → TGroup) : Procs :=
  { s with group := update s.group g ((s.group g).map f) }

/-- The group that a task is in. -/
def groupOf (s : Procs) (t : Pid) : Option Pid := (s.task t).map Task.group

/-! ## Looking up -/

def pidEmpty (s : Procs) (p : Pid) : Bool :=
  (s.task p).isNone && (s.session p).isEmpty && (s.pgroup p).isEmpty

/-- Whether `pid_get` finds an entry. -/
def pidGet (s : Procs) (p : Pid) : Bool := decide (p ≤ MAX_PID + 1) && !s.pidEmpty p

def pidGetTaskZombie (s : Procs) (p : Pid) : Option Task :=
  if s.pidGet p then s.task p else none

def pidGetTask (s : Procs) (p : Pid) : Option Task :=
  (s.pidGetTaskZombie p).filter (fun T => !T.zombie)

/-! ## `fork` -/

/-- `task_create_`: a copy of the calling task `T`, as its child. -/
def taskCreate (s : Procs) (t p : Pid) (T : Task) (g : Pid) : Procs :=
  let s1 := s.modTask t (fun T => { T with children := p :: T.children })
  { s1 with
    task :=
      update s1.task p (some { T with group := g, parent := some t, children := [] }) }

/-- `tgroup_copy`: the new group goes next to the old one in both lists. -/
def tgroupCopy (s : Procs) (g p : Pid) (G : TGroup) : Procs :=
  { s with
    group := update s.group p (some { G with threads := [p], doingGroupExit := false })
    pgroup := linkAfter s.pgroup g p
    session := linkAfter s.session g p }

/-- A `sys_clone` that returns a free pid `p`: a new thread of the caller's group, or a group of its
own. (`Kernel.copyTask` has the ways to fail.) -/
def clone (s : Procs) (t p : Pid) (thread : Bool) : Option Procs :=
  if p = 0 ∨ MAX_PID < p ∨ s.pidEmpty p = false then none
  else
    match s.task t with
    | none => none
    | some T =>
      match s.group T.group with
      | none => none
      | some G =>
        if thread then
          some ((s.taskCreate t p T T.group).modGroup T.group
            (fun G => { G with threads := p :: G.threads }))
        else some ((s.taskCreate t p T p).tgroupCopy T.group p G)

/-- What a successful `sys_clone` has found, and its two outcomes. -/
theorem clone_cases {s s' : Procs} {t p : Pid} {thread : Bool}
    (h : s.clone t p thread = some s') :
    ∃ T G, 1 ≤ p ∧ p ≤ MAX_PID ∧ s.task p = none ∧ s.task t = some T ∧
      s.group T.group = some G ∧
      ((thread = true ∧
          s' = (s.taskCreate t p T T.group).modGroup T.group
            (fun G => { G with threads := p :: G.threads })) ∨
        (thread = false ∧ s' = (s.taskCreate t p T p).tgroupCopy T.group p G)) := by
  unfold clone at h
  split at h
  · simp at h
  rename_i hfree
  push Not at hfree
  obtain ⟨hpos, hle, hempty⟩ := hfree
  have hp : s.task p = none := by
    have hempty : s.pidEmpty p = true := by simpa using hempty
    simp only [pidEmpty, Bool.and_eq_true, Option.isNone_iff_eq_none] at hempty
    exact hempty.1.1
  split at h
  · cases h
  rename_i T hT
  split at h
  · cases h
  rename_i G hG
  refine ⟨T, G, Nat.one_le_iff_ne_zero.mpr hpos, hle, hp, hT, hG, ?_⟩
  cases thread with
  | true => exact .inl ⟨rfl, (Option.some.inj h).symm⟩
  | false => exact .inr ⟨rfl, (Option.some.inj h).symm⟩

/-! ## Process groups and sessions -/

/-- The numbers that `sys_setpgid` works with. -/
def setpgidIds (t : Pid) (id pgid : Nat) : Nat × Nat :=
  let id' := if id = 0 then t else id
  (id', if pgid = 0 then id' else pgid)

/-- The checks of `sys_setpgid`: an error, or the thread group that is to be moved. -/
def setpgidCheck (s : Procs) (t : Pid) (id pgid : Nat) : Except Errno Pid :=
  match s.pidGetTaskZombie id with
  | none => .error .esrch
  | some T =>
    match s.group T.group with
    | none => .error .esrch
    | some G =>
      -- the first group of the list has to be in the same session
      let joins :=
        id = pgid ∨
          (s.pidGet pgid = true ∧
            ∃ g ∈ (s.pgroup pgid).head?, (s.group g).map TGroup.sid = some G.sid)
      if ¬ joins then .error .eperm
      else if id ≠ t ∧ T.parent ≠ some t then .error .esrch
      else if G.sid = T.group then .error .eperm
      else .ok T.group

/-- The group is put into the list of `pid`, the entry of `id`. -/
def setpgid (s : Procs) (t : Pid) (id pgid : Nat) : Except Errno Procs :=
  let ids := setpgidIds t id pgid
  match s.setpgidCheck t ids.1 ids.2 with
  | .error e => .error e
  | .ok g =>
    if (s.group g).map TGroup.pgid = some ids.2 then .ok s
    else
      .ok
        { s.modGroup g (fun G => { G with pgid := ids.2 }) with
          pgroup := link (unlink s.pgroup g) ids.1 g }

/-- The check of `task_setsid`. -/
def setsidCheck (s : Procs) (t : Pid) : Except Errno Pid :=
  match s.task t with
  | none => .error .esrch
  | some T =>
    match s.group T.group with
    | none => .error .esrch
    | some G => if G.pgid = T.group ∨ G.sid = T.group then .error .eperm else .ok T.group

/-- The group is put into the lists of the calling task's entry, under the leader's number. -/
def setsid (s : Procs) (t : Pid) : Except Errno Procs :=
  match s.setsidCheck t with
  | .error e => .error e
  | .ok g =>
    .ok
      { s.modGroup g (fun G => { G with sid := g, pgid := g }) with
        session := link (unlink s.session g) t g
        pgroup := link (unlink s.pgroup g) t g }

/-- The leaders that `send_group_signal` and `kill_group` go through; `none` is `_ESRCH`. -/
def groupSignal (s : Procs) (p : Pid) : Option (List Pid) :=
  if s.pidGet p then some (s.pgroup p) else none

/-! ## `exit` -/

/-- The first thread of the group that is not exiting, else `init`. -/
def findNewParent (s : Procs) (g : Pid) : Option Pid :=
  let threads := ((s.group g).map TGroup.threads).getD []
  let alive := threads.find? fun p => ((s.task p).map Task.exiting) == some false
  match alive with
  | some p => some p
  | none => if (s.pidGetTask 1).isSome then some 1 else none

/-- One turn of the loop over the children of `t`. -/
def reparent (t np : Pid) (s : Procs) (c : Pid) : Procs :=
  ((s.modTask c (fun C => { C with parent := some np })).modTask t
    (fun T => { T with children := T.children.erase c })).modTask np
      (fun N => { N with children := c :: N.children })

def taskDestroy (s : Procs) (t : Pid) : Procs :=
  let s1 :=
    match (s.task t).bind Task.parent with
    | none => s
    | some q => s.modTask q (fun Q => { Q with children := Q.children.erase t })
  { s1 with task := update s1.task t none }

def markExiting (s : Procs) (t : Pid) (status : Nat) : Procs :=
  s.modTask t (fun T => { T with exiting := true, exitCode := status })

/-- `do_exit` up to the end of `exit_tgroup`: the children go to `np`, and the thread leaves its
group. -/
def leaveGroup (s : Procs) (t : Pid) (T : Task) (status : Nat) (np : Pid) : Procs :=
  (T.children.foldl (reparent t np) (s.markExiting t status)).modGroup T.group
    (fun G => { G with threads := G.threads.erase t })

def groupDead (s : Procs) (g : Pid) : Bool := (s.group g).map TGroup.threads == some []

/-- The end of `do_exit`: the task of a leader stays until it is reaped. -/
def dropThread (s : Procs) (t g : Pid) : Procs := if t = g then s else s.taskDestroy t

/-- `do_exit` under the lock, with the group that is notified. It does not come to an end when the
last thread of `init` exits. -/
def doExit (s : Procs) (t : Pid) (status : Nat) : Option (Procs × Option Pid) :=
  match s.task t with
  | none => none
  | some T =>
    match (s.markExiting t status).findNewParent T.group with
    | none => none
    | some np =>
      let s1 := s.leaveGroup t T status np
      if s1.groupDead T.group then
        match (s1.task T.group).bind Task.parent with
        | none => none
        | some q =>
          let s2 := s1.modTask T.group (fun L => { L with zombie := true })
          some (s2.dropThread t T.group, s2.groupOf q)
      else some (s1.dropThread t T.group, none)

/-- The ways in which a thread exits. -/
theorem doExit_cases {s s' : Procs} {t : Pid} {status : Nat} {g : Option Pid}
    (h : s.doExit t status = some (s', g)) :
    ∃ T np, s.task t = some T ∧ (s.markExiting t status).findNewParent T.group = some np ∧
      let s1 := s.leaveGroup t T status np
      (s1.groupDead T.group = true ∧ ∃ q, (s1.task T.group).bind Task.parent = some q ∧
        let s2 := s1.modTask T.group (fun L => { L with zombie := true })
        s' = s2.dropThread t T.group ∧ g = s2.groupOf q) ∨
      (s1.groupDead T.group = false ∧ s' = s1.dropThread t T.group ∧ g = none) := by
  unfold doExit at h
  split at h
  · cases h
  rename_i T hT
  split at h
  · cases h
  rename_i np hnp
  refine ⟨T, np, hT, hnp, ?_⟩
  dsimp only at h ⊢
  split at h
  · rename_i hdead
    split at h
    · cases h
    rename_i q hq
    cases h
    exact .inl ⟨hdead, q, hq, rfl, rfl⟩
  rename_i hdead
  cases h
  exact .inr ⟨by simpa using hdead, rfl, rfl⟩

end Procs

end Ish.Process
