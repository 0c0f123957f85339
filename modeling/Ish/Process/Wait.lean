import Ish.Process.Basic

set_option autoImplicit false

/-! # Waiting for children

`do_wait` (`kernel/exit.c`) and the machine of the whole process table. A step is what one thread
does between taking `pids_lock` and giving it up. A call of `do_wait` that finds nothing gives it up
inside `wait_for`, so it ends asleep and takes one more step each time it wakes up.

The condition variable `child_exit` of a group is a mark on each of its sleepers: whether it was
notified since the sleeper last looked.

A `clone` of these runs is one that returns a pid. One that fails after the new task was put into
its group leaves it there when it is freed (`Kernel.copyTask`).
-/

namespace Ish.Process

open Option Function Ish.Lib Procs

inductive IdType where
  | all
  | pid
  | pgid
deriving DecidableEq

structure WaitOptions where
  nohang : Bool
  untraced : Bool
  exited : Bool
  continued : Bool
  nowait : Bool
  wall : Bool
deriving DecidableEq

/-- The arguments of `do_wait`. -/
structure WaitCall where
  idtype : IdType
  id : Nat
  options : WaitOptions
deriving DecidableEq

namespace Procs

/-! ## One child -/

def isLeader (s : Procs) (t : Pid) : Bool := s.groupOf t == some t

/-- The end of `reap_if_zombie`: the group leaves its lists, and the task its parent. -/
def reap (s : Procs) (z : Pid) : Procs :=
  taskDestroy
    { s with
      group := update s.group z none
      session := unlink s.session z
      pgroup := unlink s.pgroup z } z

/-- The status of the child, and what is left. -/
def reapIfZombie (s : Procs) (z : Pid) (options : WaitOptions) : Option (Nat × Procs) :=
  match s.task z, s.group z with
  | some Z, some G =>
    if Z.zombie then
      some (if G.doingGroupExit then G.groupExitCode else Z.exitCode,
        if options.nowait then s else s.reap z)
    else none
  | _, _ => none

def notifyIfStopped (s : Procs) (z : Pid) : Option (Nat × Procs) :=
  match s.group z with
  | some G =>
    if G.stopped = false ∨ G.groupExitCode = 0 then none
    else some (G.groupExitCode, s.modGroup z (fun G => { G with groupExitCode := 0 }))
  | none => none

/-- The last part of `reap_if_needed`. -/
def reportTrace (s : Procs) (z : Pid) : Option (Nat × Procs) :=
  match s.task z with
  | some Z =>
    if Z.ptraceStopped ∧ Z.ptraceSignal ≠ 0 then
      some (Z.ptraceSignal <<< 8 ||| 0x7f, s.modTask z (fun Z => { Z with ptraceSignal := 0 }))
    else none
  | none => none

def reapIfNeeded (s : Procs) (z : Pid) (options : WaitOptions) : Option (Nat × Procs) :=
  ((if options.untraced then s.notifyIfStopped z else none).or
    (if options.exited then s.reapIfZombie z options else none)).or (s.reportTrace z)

/-! ## The loop of `do_wait` -/

/-- Whether the loop takes the child into account. -/
def selects (s : Procs) (call : WaitCall) (c : Pid) : Bool :=
  s.isLeader c && (call.idtype != .pgid || (s.group c).map TGroup.pgid == some call.id)

/-- The children in the order of the two loops. The inner one goes through the list of the calling
thread, once for each thread of its group. -/
def candidates (s : Procs) (t : Pid) (call : WaitCall) : List Pid :=
  match s.task t with
  | none => []
  | some T =>
    match s.group T.group with
    | none => []
    | some G => G.threads.flatMap fun _ => T.children.filter (s.selects call)

inductive Scan where
  | found (pid status : Nat) (s : Procs)
  | noChild
  | nothing

/-- From `retry` to `wait_for`. -/
def scan (s : Procs) (t : Pid) (call : WaitCall) : Scan :=
  match call.idtype with
  | .pid =>
    match s.pidGetTaskZombie call.id with
    | none => .noChild
    | some X =>
      if X.parent.bind s.groupOf ≠ s.groupOf t then .noChild
      else
        match s.reapIfNeeded X.group call.options with
        | some (status, s') => .found call.id status s'
        | none => .nothing
  | _ =>
    match (s.candidates t call).findSome? fun c =>
        (s.reapIfNeeded c call.options).map (fun r => (c, r)) with
    | some (c, status, s') => .found c status s'
    | none => if s.candidates t call = [] then .noChild else .nothing

section One

variable {s s' : Procs} {z : Pid} {options : WaitOptions} {status : Nat}

/-! What the parts of `reap_if_needed` have done when they say that they found something. -/

theorem notifyIfStopped_effect (h : s.notifyIfStopped z = some (status, s')) :
    ∃ G, s.group z = some G ∧ G.stopped = true ∧
      s' = s.modGroup z (fun G => { G with groupExitCode := 0 }) := by
  unfold notifyIfStopped at h
  split at h
  · rename_i G hG
    simp only [ite_none_left_eq_some, some.injEq, Prod.mk.injEq] at h
    obtain ⟨hnot, -, rfl⟩ := h
    push Not at hnot
    exact ⟨G, hG, by simpa using hnot.1, rfl⟩
  · simp at h

theorem reapIfZombie_effect (h : s.reapIfZombie z options = some (status, s')) :
    ∃ Z G, s.task z = some Z ∧ s.group z = some G ∧ Z.zombie = true ∧
      status = (if G.doingGroupExit then G.groupExitCode else Z.exitCode) ∧
      s' = if options.nowait then s else s.reap z := by
  unfold reapIfZombie at h
  split at h
  · rename_i Z G hZ hG
    simp only [ite_none_right_eq_some, some.injEq, Prod.mk.injEq] at h
    exact ⟨Z, G, hZ, hG, h.1, h.2.1.symm, h.2.2.symm⟩
  · simp at h

theorem reportTrace_effect (h : s.reportTrace z = some (status, s')) :
    s' = s.modTask z (fun Z => { Z with ptraceSignal := 0 }) := by
  unfold reportTrace at h
  split at h
  · simp only [ite_none_right_eq_some, some.injEq, Prod.mk.injEq] at h
    exact h.2.2.symm
  · simp at h

theorem reapIfNeeded_cases (h : s.reapIfNeeded z options = some (status, s')) :
    s.notifyIfStopped z = some (status, s') ∨
      ((if options.untraced then s.notifyIfStopped z else none) = none ∧ options.exited = true ∧
        s.reapIfZombie z options = some (status, s')) ∨
      s.reportTrace z = some (status, s') := by
  unfold reapIfNeeded at h
  rw [or_eq_some_iff, or_eq_some_iff, ite_none_right_eq_some, ite_none_right_eq_some] at h
  rcases h with (h | h) | ⟨-, h⟩
  · exact .inl h.2
  · exact .inr (.inl h)
  · exact .inr (.inr h)

/-- It has taken note of a stop, reaped a zombie and reported its status, or left everything as it
was. -/
theorem reapIfNeeded_effect (h : s.reapIfNeeded z options = some (status, s')) :
    s' = s ∨
    (∃ G, s.group z = some G ∧ G.stopped = true ∧
      s' = s.modGroup z (fun G => { G with groupExitCode := 0 })) ∨
    s' = s.modTask z (fun Z => { Z with ptraceSignal := 0 }) ∨
    (∃ Z G, s.task z = some Z ∧ s.group z = some G ∧ Z.zombie = true ∧
      status = (if G.doingGroupExit then G.groupExitCode else Z.exitCode) ∧ s' = s.reap z) := by
  rcases reapIfNeeded_cases h with hstop | ⟨-, -, hreap⟩ | htrace
  · exact .inr (.inl (notifyIfStopped_effect hstop))
  · obtain ⟨Z, G, hZ, hG, hzombie, hstatus, rfl⟩ := reapIfZombie_effect hreap
    split
    · exact .inl rfl
    · exact .inr (.inr (.inr ⟨Z, G, hZ, hG, hzombie, hstatus, rfl⟩))
  · exact .inr (.inr (.inl (reportTrace_effect htrace)))

end One

/-- The child at which the scan of `do_wait` ends. -/
def scanned (s : Procs) (t : Pid) (call : WaitCall) : Option Pid :=
  match call.idtype with
  | .pid =>
    match s.pidGetTaskZombie call.id with
    | none => none
    | some X =>
      if X.parent.bind s.groupOf ≠ s.groupOf t then none
      else if (s.reapIfNeeded X.group call.options).isSome then some X.group else none
  | _ => (s.candidates t call).find? fun c => (s.reapIfNeeded c call.options).isSome

/-- A search that keeps what it found at an element is one for the element. -/
theorem findSome_map_mk {α β : Type} (f : α → Option β) (l : List α) :
    (l.findSome? fun a => (f a).map fun b => (a, b)) =
      (l.find? fun a => (f a).isSome).bind fun a => (f a).map fun b => (a, b) := by
  induction l with
  | nil => rfl
  | cons a t ih =>
    cases hfa : f a with
    | none =>
      rw [List.findSome?_cons_of_isNone (by simp [hfa]), List.find?_cons_of_neg (by simp [hfa]), ih]
    | some b =>
      rw [List.find?_cons_of_pos (by simp [hfa]), List.findSome?_cons, bind_some, hfa]
      rfl

/-- The scan ends at one child, and the pid that it reports is one of a task. -/
theorem scan_cases (s : Procs) (t : Pid) (call : WaitCall) :
    (∃ z st s' pid, s.scanned t call = some z ∧ s.reapIfNeeded z call.options = some (st, s') ∧
      s.scan t call = .found pid st s' ∧ (pid = z ∨ s.task pid ≠ none)) ∨
    (s.scanned t call = none ∧ ∀ pid st s', s.scan t call ≠ .found pid st s') := by
  unfold scanned scan
  cases call.idtype with
  | pid =>
    dsimp only
    rcases hX : s.pidGetTaskZombie call.id with _ | X
    · simp
    dsimp only
    split
    · simp
    cases hreap : s.reapIfNeeded X.group call.options with
    | none => simp
    | some r =>
      have htask : s.task call.id = some X := (ite_none_right_eq_some.mp hX).2
      exact .inl ⟨X.group, r.1, r.2, call.id, rfl, hreap, rfl, .inr (by simp [htask])⟩
  | all | pgid =>
    dsimp only
    rw [findSome_map_mk]
    cases hz : (s.candidates t call).find? fun c => (s.reapIfNeeded c call.options).isSome with
    | none =>
      right
      refine ⟨rfl, ?_⟩
      simp only [bind_none]
      split <;> simp
    | some z =>
      have hsome := List.find?_some (p := fun c => (s.reapIfNeeded c call.options).isSome) hz
      obtain ⟨r, hreap⟩ := isSome_iff_exists.mp hsome
      exact .inl ⟨z, r.1, r.2, z, rfl, hreap, by simp [hreap], .inl rfl⟩

theorem scanned_of_scan {s s' : Procs} {t : Pid} {call : WaitCall} {pid st : Nat}
    (h : s.scan t call = .found pid st s') :
    ∃ z, s.scanned t call = some z ∧ s.reapIfNeeded z call.options = some (st, s') ∧
      (pid = z ∨ s.task pid ≠ none) := by
  rcases s.scan_cases t call with ⟨z, st, s', pid, hz, hreap, hscan, hpid⟩ | ⟨-, hnot⟩
  · cases h.symm.trans hscan
    exact ⟨z, hz, hreap, hpid⟩
  · exact absurd h (hnot _ _ _)

/-! ## Stops -/

/-- What signals and the tracer do to the state that `do_wait` reports. -/
inductive Report where
  /-- The stop in `receive_signal`. -/
  | groupStop (code : Nat)
  /-- The end of a `receive_signals` that found the group running at first and stopped at last. It
  has read both by now, and another thread may have changed the group again. -/
  | stopSeen
  | groupCont
  | groupExit (status : Nat)
  | traceStop (sig : Nat)
  | traceCont

/-- The state after, and the group that is notified. -/
def report (s : Procs) (t : Pid) (r : Report) : Option (Procs × Option Pid) :=
  match s.task t with
  | none => none
  | some T =>
    match r with
    | .groupStop code =>
      some (s.modGroup T.group (fun G => { G with stopped := true, groupExitCode := code }), none)
    | .stopSeen => some (s, T.parent.bind s.groupOf)
    | .groupCont => some (s.modGroup T.group (fun G => { G with stopped := false }), none)
    | .groupExit status =>
      some
        (s.modGroup T.group fun G =>
          { G with
            doingGroupExit := true
            groupExitCode := if G.doingGroupExit then G.groupExitCode else status
            stopped := false },
          none)
    | .traceStop sig =>
      some (s.modTask t (fun T => { T with ptraceStopped := true, ptraceSignal := sig }),
        T.parent.bind s.groupOf)
    | .traceCont => some (s.modTask t (fun T => { T with ptraceStopped := false }), none)

/-- A report changes what there is to report, of one group or of one task. -/
theorem report_effect {s s' : Procs} {t : Pid} {r : Report} {g : Option Pid}
    (h : s.report t r = some (s', g)) :
    s' = s ∨ (∃ p f, s' = s.modGroup p f ∧
      ∀ G, (f G).threads = G.threads ∧ (f G).pgid = G.pgid ∧ (f G).sid = G.sid) ∨
    (∃ (stopped : Bool) (sig : Task → Nat), s' = s.modTask t fun T =>
      { T with ptraceStopped := stopped, ptraceSignal := sig T }) := by
  unfold report at h
  rcases hT : s.task t with _ | T
  · simp [hT] at h
  cases r with
  | groupStop code | groupCont | groupExit status =>
    simp only [hT, some.injEq, Prod.mk.injEq] at h
    exact .inr (.inl ⟨T.group, _, h.1.symm, fun _ => ⟨rfl, rfl, rfl⟩⟩)
  | stopSeen =>
    simp only [hT, some.injEq, Prod.mk.injEq] at h
    exact .inl h.1.symm
  | traceStop sig =>
    simp only [hT, some.injEq, Prod.mk.injEq] at h
    exact .inr (.inr ⟨true, fun _ => sig, h.1.symm⟩)
  | traceCont =>
    simp only [hT, some.injEq, Prod.mk.injEq] at h
    exact .inr (.inr ⟨false, fun T => T.ptraceSignal, h.1.symm⟩)

end Procs

/-! ## The machine -/

/-- A thread asleep in `do_wait`. -/
structure Wait where
  call : WaitCall
  notified : Bool

structure Sys where
  procs : Procs
  waits : Pid → Option Wait

namespace Sys

/-- The thread is in no system call that sleeps. -/
def runs (σ : Sys) (t : Pid) : Bool :=
  ((σ.procs.task t).map Task.exiting) == some false && (σ.waits t).isNone

/-- `notify` on the `child_exit` of a group. -/
def notify (waits : Pid → Option Wait) (s : Procs) (g : Option Pid) : Pid → Option Wait :=
  fun t =>
    (waits t).map fun w =>
      if g.isSome ∧ s.groupOf t = g then { w with notified := true } else w

inductive Answer where
  | done
  | error (e : Errno)
  | child (pid status : Nat)
  | noHang
  | asleep
deriving DecidableEq

/-- `do_wait` from `retry` on. -/
def waitScan (σ : Sys) (t : Pid) (call : WaitCall) (gotSignal : Bool) : Sys × Answer :=
  match σ.procs.scan t call with
  | .found pid status s => (⟨s, update σ.waits t none⟩, .child pid status)
  | .noChild => (⟨σ.procs, update σ.waits t none⟩, .error .echild)
  | .nothing =>
    if call.options.nohang then (⟨σ.procs, update σ.waits t none⟩, .noHang)
    else if gotSignal then (⟨σ.procs, update σ.waits t none⟩, .error .eintr)
    else (⟨σ.procs, update σ.waits t (some ⟨call, false⟩)⟩, .asleep)

inductive Op where
  | clone (t p : Pid) (thread : Bool)
  | setpgid (t : Pid) (id pgid : Nat)
  | setsid (t : Pid)
  | exit (t : Pid) (status : Nat)
  | report (t : Pid) (r : Procs.Report)
  | wait (t : Pid) (call : WaitCall)
  /-- A sleeper goes through the loop again, after a notification or a signal or without one. -/
  | wake (t : Pid) (gotSignal : Bool)

/-- One step under the lock. -/
def step (σ : Sys) : Op → Option (Sys × Answer)
  | .clone t p thread =>
    if σ.runs t then
      (σ.procs.clone t p thread).map (fun s => (⟨s, σ.waits⟩, .done))
    else none
  | .setpgid t id pgid =>
    if σ.runs t then
      match σ.procs.setpgid t id pgid with
      | .error e => some (σ, .error e)
      | .ok s => some (⟨s, σ.waits⟩, .done)
    else none
  | .setsid t =>
    if σ.runs t then
      match σ.procs.setsid t with
      | .error e => some (σ, .error e)
      | .ok s => some (⟨s, σ.waits⟩, .done)
    else none
  | .exit t status =>
    if σ.runs t then
      (σ.procs.doExit t status).map (fun r => (⟨r.1, notify σ.waits r.1 r.2⟩, .done))
    else none
  | .report t r =>
    (σ.procs.report t r).map (fun r => (⟨r.1, notify σ.waits r.1 r.2⟩, .done))
  | .wait t call => if σ.runs t then some (σ.waitScan t call false) else none
  | .wake t gotSignal => (σ.waits t).map (fun w => σ.waitScan t w.call gotSignal)

def machine : Machine Sys Op Answer := ⟨step⟩

theorem machine_step (σ : Sys) (op : Op) : machine.step σ op = σ.step op := rfl

/-! ## What a step can do -/

/-- The thread goes through the loop of `do_wait`, for the first time or again. -/
def Scans (σ : Sys) (op : Op) (t : Pid) (call : WaitCall) : Prop :=
  (op = .wait t call ∧ σ.runs t = true) ∨
    ∃ gotSignal w, op = .wake t gotSignal ∧ σ.waits t = some w ∧ w.call = call

inductive Moves (σ : Sys) : Op → Sys → Prop where
  /-- A call that fails, or that finds things as they should be. -/
  | same (op : Op) : Moves σ op σ
  | clone {t p : Pid} {thread : Bool} {s : Procs} (hruns : σ.runs t = true)
      (hs : σ.procs.clone t p thread = some s) : Moves σ (.clone t p thread) ⟨s, σ.waits⟩
  | setpgid {t g : Pid} {id pgid : Nat} (hruns : σ.runs t = true)
      (hcheck : σ.procs.setpgidCheck t (setpgidIds t id pgid).1
        (setpgidIds t id pgid).2 = .ok g)
      (hother : (σ.procs.group g).map TGroup.pgid ≠ some (setpgidIds t id pgid).2) :
      Moves σ (.setpgid t id pgid)
        ⟨{ σ.procs.modGroup g (fun G => { G with pgid := (setpgidIds t id pgid).2 }) with
            pgroup := link (unlink σ.procs.pgroup g) (setpgidIds t id pgid).1 g }, σ.waits⟩
  | setsid {t g : Pid} (hruns : σ.runs t = true) (hcheck : σ.procs.setsidCheck t = .ok g) :
      Moves σ (.setsid t)
        ⟨{ σ.procs.modGroup g (fun G => { G with sid := g, pgid := g }) with
            session := link (unlink σ.procs.session g) t g
            pgroup := link (unlink σ.procs.pgroup g) t g }, σ.waits⟩
  | exit {t : Pid} {status : Nat} {s : Procs} {g : Option Pid} (hruns : σ.runs t = true)
      (hs : σ.procs.doExit t status = some (s, g)) :
      Moves σ (.exit t status) ⟨s, notify σ.waits s g⟩
  | report {t : Pid} {r : Procs.Report} {s : Procs} {g : Option Pid}
      (hs : σ.procs.report t r = some (s, g)) : Moves σ (.report t r) ⟨s, notify σ.waits s g⟩
  | found {op : Op} {t : Pid} {call : WaitCall} {pid status : Nat} {s : Procs}
      (hcall : σ.Scans op t call) (hscan : σ.procs.scan t call = .found pid status s) :
      Moves σ op ⟨s, update σ.waits t none⟩
  | leaves {op : Op} {t : Pid} {call : WaitCall} (hcall : σ.Scans op t call) :
      Moves σ op ⟨σ.procs, update σ.waits t none⟩
  | sleeps {op : Op} {t : Pid} {call : WaitCall} (hcall : σ.Scans op t call)
      (hscan : σ.procs.scan t call = .nothing) (hnohang : call.options.nohang = false) :
      Moves σ op ⟨σ.procs, update σ.waits t (some ⟨call, false⟩)⟩

/-- The ways out of the loop of `do_wait`. -/
theorem moves_waitScan {σ : Sys} {op : Op} {t : Pid} {call : WaitCall} (hcall : σ.Scans op t call)
    (gotSignal : Bool) : Moves σ op (σ.waitScan t call gotSignal).1 := by
  unfold waitScan
  cases hscan : σ.procs.scan t call with
  | found pid status s => exact .found hcall hscan
  | noChild => exact .leaves hcall
  | nothing =>
    dsimp only
    split
    · exact .leaves hcall
    rename_i hnohang
    split
    · exact .leaves hcall
    · exact .sleeps hcall hscan (by simpa using hnohang)

theorem step_moves {σ σ' : Sys} {op : Op} {answer : Answer}
    (h : machine.step σ op = some (σ', answer)) : Moves σ op σ' := by
  rw [machine_step] at h
  have hret : ∀ {s : Sys} {a : Answer}, Moves σ op s → some (s, a) = some (σ', answer) →
      Moves σ op σ' := by
    rintro s a hmoves ⟨⟩
    exact hmoves
  cases op with
  | clone t p thread =>
    simp only [step, ite_none_right_eq_some, map_eq_some_iff, Prod.mk.injEq] at h
    obtain ⟨hruns, s, hs, rfl, -⟩ := h
    exact .clone hruns hs
  | setpgid t id pgid =>
    simp only [step, ite_none_right_eq_some] at h
    obtain ⟨hruns, h⟩ := h
    unfold setpgid at h
    cases hcheck : σ.procs.setpgidCheck t (setpgidIds t id pgid).1
        (setpgidIds t id pgid).2 with
    | error e =>
      simp only [hcheck] at h
      exact hret (.same _) h
    | ok g =>
      simp only [hcheck] at h
      split_ifs at h with hsame
      · exact hret (.same _) h
      · exact hret (.setpgid hruns hcheck hsame) h
  | setsid t =>
    simp only [step, ite_none_right_eq_some] at h
    obtain ⟨hruns, h⟩ := h
    unfold setsid at h
    cases hcheck : σ.procs.setsidCheck t with
    | error e =>
      simp only [hcheck] at h
      exact hret (.same _) h
    | ok g =>
      simp only [hcheck] at h
      exact hret (.setsid hruns hcheck) h
  | exit t status =>
    simp only [step, ite_none_right_eq_some, map_eq_some_iff, Prod.mk.injEq] at h
    obtain ⟨hruns, ⟨s, g⟩, hs, rfl, -⟩ := h
    exact .exit hruns hs
  | report t r =>
    simp only [step, map_eq_some_iff, Prod.mk.injEq] at h
    obtain ⟨⟨s, g⟩, hs, rfl, -⟩ := h
    exact .report hs
  | wait t call =>
    simp only [step, ite_none_right_eq_some, some.injEq] at h
    exact hret (moves_waitScan (.inl ⟨rfl, h.1⟩) false) (congrArg some h.2)
  | wake t gotSignal =>
    simp only [step, map_eq_some_iff] at h
    obtain ⟨w, hw, h⟩ := h
    have hcall : σ.Scans (.wake t gotSignal) t w.call := .inr ⟨gotSignal, w, rfl, hw, rfl⟩
    exact hret (moves_waitScan hcall gotSignal) (congrArg some h)

theorem step_clone {σ σ' : Sys} {t p : Pid} {thread : Bool} {answer : Answer}
    (h : machine.step σ (.clone t p thread) = some (σ', answer)) :
    σ.procs.clone t p thread = some σ'.procs := by
  rw [machine_step, step, ite_none_right_eq_some, map_eq_some_iff] at h
  obtain ⟨-, s, hs, heq⟩ := h
  rw [hs, ← (Prod.mk.inj heq).1]

theorem step_report {σ σ' : Sys} {t : Pid} {r : Procs.Report} {answer : Answer}
    (h : machine.step σ (.report t r) = some (σ', answer)) :
    ∃ n, σ.procs.report t r = some (σ'.procs, n) := by
  rw [machine_step, Sys.step, map_eq_some_iff] at h
  obtain ⟨⟨s, n⟩, hs, heq⟩ := h
  exact ⟨n, by rw [hs, ← (Prod.mk.inj heq).1]⟩

/-- The answer of a wait is what its scan found. -/
theorem step_child {σ σ' : Sys} {op : Op} {pid st : Nat}
    (h : machine.step σ op = some (σ', .child pid st)) :
    ∃ t call, σ.Scans op t call ∧ σ.procs.scan t call = .found pid st σ'.procs := by
  -- the other calls have other answers
  have hscan : ∀ t call gotSignal, σ.waitScan t call gotSignal = (σ', .child pid st) →
      σ.procs.scan t call = .found pid st σ'.procs := by
    intro t call gotSignal hscan
    unfold waitScan at hscan
    cases hs : σ.procs.scan t call with
    | found pid' st' s =>
      simp only [hs, Prod.mk.injEq, Answer.child.injEq] at hscan
      obtain ⟨rfl, rfl, rfl⟩ := hscan
      rfl
    | noChild => simp [hs] at hscan
    | nothing =>
      simp only [hs] at hscan
      split at hscan
      · simp at hscan
      · split at hscan <;> simp at hscan
  rw [machine_step] at h
  cases op with
  | clone t p thread => simp [step] at h
  | setpgid t id pgid | setsid t =>
    simp only [step, ite_none_right_eq_some] at h
    obtain ⟨-, h⟩ := h
    split at h <;> simp at h
  | exit t status => simp [step] at h
  | report t r => simp [step] at h
  | wait t call =>
    simp only [step, ite_none_right_eq_some, some.injEq] at h
    exact ⟨t, call, .inl ⟨rfl, h.1⟩, hscan t call false h.2⟩
  | wake t gotSignal =>
    simp only [step, map_eq_some_iff] at h
    obtain ⟨w, hw, h⟩ := h
    exact ⟨t, w.call, .inr ⟨gotSignal, w, rfl, hw, rfl⟩, hscan t w.call gotSignal h⟩

/-- `init` alone, as `become_first_process` leaves it. -/
def init : Sys where
  procs :=
    { task := fun p => if p = 1 then some ⟨1, none, [], 0, false, false, false, 0⟩ else none
      group := fun p => if p = 1 then some ⟨[1], 1, 1, false, false, 0⟩ else none
      session := fun p => if p = 1 then [1] else []
      pgroup := fun p => if p = 1 then [1] else [] }
  waits := fun _ => none

end Sys

end Ish.Process
