import Ish.Process.Wakeup
import Ish.Process.Status

set_option autoImplicit false

/-! # Reaping a child once

`reap_if_zombie` (`kernel/exit.c`) serves two kinds of call. Without `WNOWAIT` it adds the resource
usage of the child to the children's usage of the caller's group and destroys the child. With
`WNOWAIT` it only looks. A thread adds what it has used to its group before it exits.

The ledger is the process table with both sums of each group. However the threads interleave, the
exit of a child is reported without `WNOWAIT` once. Its usage is added at that call, and no scan
of any thread finds the child afterwards.
-/

namespace Ish.Process

open Option List Function Ish.Lib

/-! ## Resource usage -/

structure Timeval where
  sec : UInt32
  usec : UInt32
deriving DecidableEq

/-- Of `struct rusage_`, the fields that are in use. -/
structure Rusage where
  utime : Timeval
  stime : Timeval
deriving DecidableEq

def timevalAdd (dst src : Timeval) : Timeval :=
  let sec := dst.sec + src.sec
  let usec := dst.usec + src.usec
  if 1000000 ≤ usec then ⟨sec + 1, usec - 1000000⟩ else ⟨sec, usec⟩

def rusageAdd (dst src : Rusage) : Rusage :=
  ⟨timevalAdd dst.utime src.utime, timevalAdd dst.stime src.stime⟩

def noRusage : Rusage := ⟨⟨0, 0⟩, ⟨0, 0⟩⟩

namespace Procs

/-! ## The child that a scan reports -/

/-- What `reap_if_needed` reports of the child is its exit. -/
def reportsExit (s : Procs) (z : Pid) (options : WaitOptions) : Bool :=
  !(options.untraced && (s.notifyIfStopped z).isSome) &&
    (options.exited && (s.reapIfZombie z options).isSome)

/-- The child that the scan reports as exited. -/
def exitOf (s : Procs) (t : Pid) (call : WaitCall) : Option Pid :=
  (s.scanned t call).filter fun z => s.reportsExit z call.options

section Scanned

variable {s s' : Procs} {t z : Pid} {call : WaitCall} {options : WaitOptions}

theorem scan_of_scanned (h : s.scanned t call = some z) :
    ∃ st s' pid, s.reapIfNeeded z call.options = some (st, s') ∧
      s.scan t call = .found pid st s' := by
  rcases s.scan_cases t call with ⟨z', st, s', pid, hz', hreap, hscan, -⟩ | ⟨hnone, -⟩
  · cases h.symm.trans hz'
    exact ⟨st, s', pid, hreap, hscan⟩
  · cases h.symm.trans hnone

/-- What is done when the exit is reported. -/
theorem reapIfNeeded_exit (h : s.reportsExit z options = true) {st : Nat}
    (hreap : s.reapIfNeeded z options = some (st, s')) :
    s.isZombie z ∧ s' = if options.nowait then s else s.reap z := by
  simp only [reportsExit, Bool.and_eq_true, Bool.not_eq_true', Bool.and_eq_false_iff,
    isSome_eq_false_iff, isNone_iff_eq_none] at h
  obtain ⟨hstop, hexited, hsome⟩ := h
  have hfirst : (if options.untraced then s.notifyIfStopped z else none) = none := by
    rcases hstop with huntraced | hnone
    · simp [huntraced]
    · simp [hnone]
  obtain ⟨r, hr⟩ := isSome_iff_exists.mp hsome
  have hr' : r = (st, s') := by
    simpa [reapIfNeeded, hfirst, hexited, hr] using hreap
  rw [hr'] at hr
  obtain ⟨Z, -, hZ, -, hzombie, -, hs'⟩ := reapIfZombie_effect hr
  exact ⟨⟨Z, hZ, hzombie⟩, hs'⟩

/-- Nothing is reaped when something else is reported. -/
theorem reapIfNeeded_other (h : s.reportsExit z options = false) {st : Nat}
    (hreap : s.reapIfNeeded z options = some (st, s')) :
    SameKin s s' := by
  rcases reapIfNeeded_cases hreap with hstop | ⟨hstop, hexited, hzombie⟩ | htrace
  · obtain ⟨-, -, -, rfl⟩ := notifyIfStopped_effect hstop
    exact sameKin_modGroup s z fun _ => rfl
  · have huntraced : (options.untraced && (s.notifyIfStopped z).isSome) = false := by
      cases hun : options.untraced with
      | false => rfl
      | true => simpa [hun] using hstop
    simp [reportsExit, huntraced, hexited, hzombie] at h
  · rw [reportTrace_effect htrace]
    exact sameKin_modTask s z fun _ => ⟨rfl, rfl⟩

/-- Nothing is reported of a process that is not there. -/
theorem reapIfNeeded_gone (htask : s.task z = none) (hgroup : s.group z = none) :
    s.reapIfNeeded z options = none := by
  simp [reapIfNeeded, notifyIfStopped, reapIfZombie, reportTrace, htask, hgroup]

end Scanned

end Procs

/-! ## The ledger -/

/-- The process table with the two sums of each group. -/
structure Ledger where
  sys : Sys
  rusage : Pid → Rusage
  childrenRusage : Pid → Rusage

inductive Act where
  /-- `do_exit` before it takes `pids_lock`. -/
  | account (t : Pid) (used : Rusage)
  | op (op : Sys.Op)

namespace Ledger

open Procs

/-- The thread that goes through the loop of `do_wait`, with its call. -/
def scanCall (ℓ : Ledger) : Act → Option (Pid × WaitCall)
  | .op (.wait t call) => some (t, call)
  | .op (.wake t _) => (ℓ.sys.waits t).map fun w => (t, w.call)
  | _ => none

/-- The thread, its call and the child that it reports as exited. -/
def exitReport (ℓ : Ledger) (a : Act) : Option (Pid × WaitCall × Pid) :=
  (ℓ.scanCall a).bind fun c => (ℓ.sys.procs.exitOf c.1 c.2).map fun z => (c.1, c.2, z)

/-- `tgroup_copy` copies the sum of the old group. -/
def rusageAfter (ℓ : Ledger) : Act → Pid → Rusage
  | .account t used =>
    match ℓ.sys.procs.groupOf t with
    | some g => update ℓ.rusage g (rusageAdd (ℓ.rusage g) used)
    | none => ℓ.rusage
  | .op (.clone t p false) =>
    match ℓ.sys.procs.groupOf t with
    | some g => update ℓ.rusage p (ℓ.rusage g)
    | none => ℓ.rusage
  | _ => ℓ.rusage

/-- `reap_if_zombie` adds to the sum of the caller's group. -/
def charged (ℓ : Ledger) (a : Act) : Pid → Rusage :=
  match ℓ.exitReport a with
  | some (t, call, z) =>
    match ℓ.sys.procs.groupOf t with
    | some g =>
      if call.options.nowait then ℓ.childrenRusage
      else
        update ℓ.childrenRusage g (rusageAdd (ℓ.childrenRusage g) (ℓ.rusage z))
    | none => ℓ.childrenRusage
  | none => ℓ.childrenRusage

/-- `tgroup_copy` starts a new sum. -/
def childrenRusageAfter (ℓ : Ledger) : Act → Pid → Rusage
  | .op (.clone _ p false) => update ℓ.childrenRusage p noRusage
  | a => ℓ.charged a

/-- The answer of the call, and what `reap_if_zombie` stores in `rusage_out`. -/
def step (ℓ : Ledger) (a : Act) : Option (Ledger × Sys.Answer × Option Rusage) :=
  match a with
  | .account t _ =>
    if ℓ.sys.runs t then some (⟨ℓ.sys, ℓ.rusageAfter a, ℓ.childrenRusage⟩, .done, none)
    else none
  | .op op =>
    (ℓ.sys.step op).map fun r =>
      (⟨r.1, ℓ.rusageAfter a, ℓ.childrenRusageAfter a⟩, r.2,
        (ℓ.exitReport a).map fun e => ℓ.rusage e.2.2)

def machine : Machine Ledger Act (Sys.Answer × Option Rusage) := ⟨step⟩

def init : Ledger := ⟨.init, fun _ => noRusage, fun _ => noRusage⟩

/-! ## One step -/

section Step

variable {ℓ ℓ' : Ledger} {a : Act} {out : Sys.Answer × Option Rusage}
variable {op : Sys.Op} {t z : Pid} {call : WaitCall} {s : Procs}

theorem machine_step (ℓ : Ledger) (a : Act) : machine.step ℓ a = ℓ.step a := rfl

theorem step_op (h : machine.step ℓ (.op op) = some (ℓ', out)) :
    Sys.machine.step ℓ.sys op = some (ℓ'.sys, out.1) ∧ ℓ'.rusage = ℓ.rusageAfter (.op op) ∧
      ℓ'.childrenRusage = ℓ.childrenRusageAfter (.op op) ∧
      out.2 = (ℓ.exitReport (.op op)).map fun e => ℓ.rusage e.2.2 := by
  rw [machine_step, step, map_eq_some_iff] at h
  obtain ⟨r, hr, heq⟩ := h
  obtain ⟨rfl, rfl⟩ := heq
  exact ⟨hr, rfl, rfl, rfl⟩

theorem step_account {used : Rusage} (h : machine.step ℓ (.account t used) = some (ℓ', out)) :
    ℓ.sys.runs t = true ∧ ℓ'.sys = ℓ.sys ∧ ℓ'.rusage = ℓ.rusageAfter (.account t used) ∧
      ℓ'.childrenRusage = ℓ.childrenRusage ∧ out = (.done, none) := by
  rw [machine_step, step, ite_none_right_eq_some, some.injEq, Prod.mk.injEq] at h
  obtain ⟨hruns, rfl, hout⟩ := h
  exact ⟨hruns, rfl, rfl, rfl, hout.symm⟩

theorem step_asleep (h : Sys.Asleep ℓ.sys) (hstep : machine.step ℓ a = some (ℓ', out)) :
    Sys.Asleep ℓ'.sys := by
  cases a with
  | account t used =>
    rw [(step_account hstep).2.1]
    exact h
  | op op => exact Sys.step_asleep h (Sys.step_moves (step_op hstep).1)

theorem exitReport_eq_some (h : ℓ.exitReport a = some (t, call, z)) :
    ℓ.scanCall a = some (t, call) ∧ ℓ.sys.procs.exitOf t call = some z := by
  obtain ⟨c, hc, hmap⟩ := bind_eq_some_iff.mp h
  obtain ⟨z', hz', heq⟩ := map_eq_some_iff.mp hmap
  obtain ⟨rfl, rfl, rfl⟩ := heq
  exact ⟨hc, hz'⟩

/-- The act of a thread that scans. -/
theorem scans_of_scanCall (hcall : ℓ.scanCall a = some (t, call))
    (hstep : machine.step ℓ a = some (ℓ', out)) : ∃ op, a = .op op ∧ ℓ.sys.Scans op t call ∧
      ∃ gotSignal, ℓ.sys.waitScan t call gotSignal = (ℓ'.sys, out.1) := by
  unfold scanCall at hcall
  split at hcall
  · simp only [some.injEq, Prod.mk.injEq] at hcall
    obtain ⟨rfl, rfl⟩ := hcall
    have hsys := (step_op hstep).1
    rw [Sys.machine_step, Sys.step, ite_none_right_eq_some, some.injEq] at hsys
    exact ⟨_, rfl, .inl ⟨rfl, hsys.1⟩, false, hsys.2⟩
  · obtain ⟨w, hw, heq⟩ := map_eq_some_iff.mp hcall
    obtain ⟨rfl, rfl⟩ := heq
    have hsys := (step_op hstep).1
    rw [Sys.machine_step, Sys.step, hw, map_some, some.injEq] at hsys
    exact ⟨_, rfl, .inr ⟨_, w, rfl, hw, rfl⟩, _, hsys⟩
  · simp at hcall

theorem scanCall_of_scans (h : ℓ.sys.Scans op t call) : ℓ.scanCall (.op op) = some (t, call) := by
  rcases h with ⟨rfl, -⟩ | ⟨gotSignal, w, rfl, hw, rfl⟩
  · rfl
  · simp [scanCall, hw]

/-- **A step that reports an exit.** -/
theorem step_exitReport (hreport : ℓ.exitReport a = some (t, call, z))
    (hstep : machine.step ℓ a = some (ℓ', out)) :
    ℓ.sys.procs.isZombie z ∧ (∃ pid st, out = (.child pid st, some (ℓ.rusage z))) ∧
      ℓ'.sys.procs =
        if call.options.nowait then ℓ.sys.procs else ℓ.sys.procs.reap z := by
  obtain ⟨hcall, hexit⟩ := exitReport_eq_some hreport
  obtain ⟨hscanned, hreports⟩ := filter_eq_some_iff.mp hexit
  obtain ⟨st, s', pid, hreap, hscan⟩ := scan_of_scanned hscanned
  obtain ⟨hzombie, hs'⟩ := reapIfNeeded_exit hreports hreap
  obtain ⟨op, rfl, -, gotSignal, hwait⟩ := scans_of_scanCall hcall hstep
  simp only [Sys.waitScan, hscan, Prod.mk.injEq] at hwait
  obtain ⟨hsys, hanswer⟩ := hwait
  refine ⟨hzombie, ⟨pid, st, ?_⟩, ?_⟩
  · have hout := (step_op hstep).2.2.2
    rw [hreport, map_some] at hout
    exact Prod.ext hanswer.symm hout
  · rw [← hsys, hs']

/-- A scan that reports no exit leaves the tasks where they are. -/
theorem sameKin_of_noReport {pid st : Nat} (hreport : ℓ.exitReport (.op op) = none)
    (hcall : ℓ.sys.Scans op t call) (hscan : ℓ.sys.procs.scan t call = .found pid st s) :
    SameKin ℓ.sys.procs s := by
  obtain ⟨z, hscanned, hreap, -⟩ := scanned_of_scan hscan
  have hexit : ℓ.sys.procs.exitOf t call = none := by
    simpa [exitReport, scanCall_of_scans hcall] using hreport
  have hother : ℓ.sys.procs.reportsExit z call.options = false := by
    simpa [exitOf, hscanned] using hexit
  exact reapIfNeeded_other hother hreap

/-- The leaders that are there after a step that reports no exit. -/
theorem leader_of_noReport (h : Sys.Asleep ℓ.sys) (hreport : ℓ.exitReport (.op op) = none)
    {σ' : Sys} (hmoves : Sys.Moves ℓ.sys op σ') {x : Pid} {X : Task}
    (hX : ℓ.sys.procs.task x = some X) (hlead : X.group = x) :
    ∃ X', σ'.procs.task x = some X' ∧ X'.group = x ∧ (X.zombie = true → X'.zombie = true) := by
  have hsame : SameRow ℓ.sys.procs σ'.procs x →
      ∃ X', σ'.procs.task x = some X' ∧ X'.group = x ∧ (X.zombie = true → X'.zombie = true) := by
    intro hrow
    obtain ⟨X', hX', hgroup, -, hzombie, -⟩ := SameRow.get (.symm hrow) hX
    exact ⟨X', hX', hgroup.trans hlead, fun hz => hzombie.trans hz⟩
  cases hmoves with
  | same => exact hsame rfl
  | clone hruns hs =>
    rcases h.wf.clone_row (Sys.exiting_of_runs hruns) hs x with hrow | ⟨hnone, -⟩
    · exact hsame hrow
    · simp [hX] at hnone
  | setpgid => exact hsame rfl
  | setsid => exact hsame rfl
  | exit hruns hs =>
    rename_i t status s g
    obtain ⟨T, hT, hlive⟩ := map_eq_some_iff.mp (Sys.exiting_of_runs hruns)
    have hrow := h.wf.doExit_row hT hlive hs x
    -- the thread is destroyed only when it does not lead its group
    have hstays : ¬ (x = t ∧ t ≠ T.group) := by
      rintro ⟨rfl, hne⟩
      obtain rfl := Option.mem_unique hT hX
      exact hne hlead.symm
    rw [if_neg hstays, hX, map_some] at hrow
    obtain ⟨X', hX', heq⟩ := map_eq_some_iff.mp hrow
    simp only [row, Prod.mk.injEq] at heq
    obtain ⟨hgroup, -, hzombie, -⟩ := heq
    refine ⟨X', hX', hgroup.trans hlead, ?_⟩
    intro hz
    rw [hzombie, hz, Bool.true_or]
  | report hs => exact hsame ((sameKin_report hs).row x)
  | found hcall hscan => exact hsame ((sameKin_of_noReport hreport hcall hscan).row x)
  | leaves => exact hsame rfl
  | sleeps => exact hsame rfl

theorem group_ne_none_iff (h : s.Wf) {g : Pid} :
    s.group g ≠ none ↔ ∃ X, s.task g = some X ∧ X.group = g := by
  constructor
  · intro hne
    obtain ⟨G, hG⟩ := ne_none_iff_exists'.mp hne
    exact map_eq_some_iff.mp (h.leader g G hG)
  rintro ⟨X, hX, hlead⟩
  obtain ⟨G, hG⟩ := h.group g X hX
  rw [hlead] at hG
  simp [hG]

/-- Nothing is reaped in the steps that report no exit. -/
theorem step_noReport (h : Sys.Asleep ℓ.sys) (hreport : ℓ.exitReport a = none)
    (hstep : machine.step ℓ a = some (ℓ', out)) :
    (∀ z, ℓ.sys.procs.isZombie z → ℓ'.sys.procs.isZombie z) ∧
      ∀ g, ℓ.sys.procs.group g ≠ none → ℓ'.sys.procs.group g ≠ none := by
  have h' := step_asleep h hstep
  cases a with
  | account t used =>
    rw [(step_account hstep).2.1]
    exact ⟨fun _ hz => hz, fun _ hg => hg⟩
  | op op =>
    have hmoves := Sys.step_moves (step_op hstep).1
    constructor
    · rintro z ⟨Z, hZ, hzombie⟩
      obtain ⟨Z', hZ', -, hz'⟩ :=
        leader_of_noReport h hreport hmoves hZ (h.wf.zombie z Z hZ hzombie).1
      exact ⟨Z', hZ', hz' hzombie⟩
    intro g hg
    obtain ⟨X, hX, hlead⟩ := (group_ne_none_iff h.wf).mp hg
    obtain ⟨X', hX', hlead', -⟩ := leader_of_noReport h hreport hmoves hX hlead
    exact (group_ne_none_iff h'.wf).mpr ⟨X', hX', hlead'⟩

/-- Of the groups that are there, the sum of the caller's is the one that changes, at a reaping. -/
theorem childrenRusageAfter_eq (h : Sys.Asleep ℓ.sys)
    (hstep : machine.step ℓ (.op op) = some (ℓ', out)) :
    (ℓ.exitReport (.op op) = none → ∀ g, ℓ.sys.procs.group g ≠ none →
        ℓ'.childrenRusage g = ℓ.childrenRusage g) ∧
      ∀ t call z, ℓ.exitReport (.op op) = some (t, call, z) →
        ∃ g, ℓ.sys.procs.groupOf t = some g ∧
          ℓ'.childrenRusage =
            if call.options.nowait then ℓ.childrenRusage
            else update ℓ.childrenRusage g
              (rusageAdd (ℓ.childrenRusage g) (ℓ.rusage z)) := by
  obtain ⟨hsys, -, hchildren, -⟩ := step_op hstep
  constructor
  · intro hreport g hg
    rw [hchildren]
    have hcharged : ℓ.charged (.op op) g = ℓ.childrenRusage g := by
      simp only [charged, hreport]
    cases op with
    | clone t p thread =>
      cases thread with
      | true => exact hcharged
      | false =>
        -- the group of the new process was not there
        obtain ⟨-, -, -, -, hp, -⟩ := clone_cases (Sys.step_clone hsys)
        obtain ⟨X, hX, -⟩ := (group_ne_none_iff h.wf).mp hg
        have hne : g ≠ p := by
          rintro rfl
          simp [hp] at hX
        simp only [childrenRusageAfter, update_of_ne hne]
    | _ => exact hcharged
  · intro t call z hreport
    obtain ⟨hcall, -⟩ := exitReport_eq_some hreport
    obtain ⟨op', hop, hscans, -⟩ := scans_of_scanCall hcall hstep
    obtain rfl := Act.op.inj hop
    obtain ⟨T, hT, -⟩ := map_eq_some_iff.mp (h.live_of_scans hscans)
    have hgroupOf : ℓ.sys.procs.groupOf t = some T.group := by simp [groupOf, hT]
    refine ⟨T.group, hgroupOf, ?_⟩
    have hcharged : ℓ.childrenRusageAfter (.op op) = ℓ.charged (.op op) := by
      rcases hscans with ⟨rfl, -⟩ | ⟨gotSignal, w, rfl, -⟩ <;> rfl
    rw [hchildren, hcharged]
    simp only [charged, hreport, hgroupOf]

/-- The usage of a zombie is final. -/
theorem rusage_zombie (h : Sys.Asleep ℓ.sys) (hstep : machine.step ℓ a = some (ℓ', out))
    (hz : ℓ.sys.procs.isZombie z) : ℓ'.rusage z = ℓ.rusage z := by
  obtain ⟨Z, hZ, hzombie⟩ := hz
  cases a with
  | account t used =>
    obtain ⟨hruns, -, hrusage, -⟩ := step_account hstep
    rw [hrusage]
    obtain ⟨T, hT, hlive⟩ := map_eq_some_iff.mp (Sys.exiting_of_runs hruns)
    have hgroupOf : ℓ.sys.procs.groupOf t = some T.group := by simp [groupOf, hT]
    -- a zombie has no threads left that could add to it
    have hne : z ≠ T.group := by
      intro heq
      obtain ⟨-, -, G, hG, hnil⟩ := h.wf.zombie z Z hZ hzombie
      have hmem := (h.wf.thread t T G hT (heq ▸ hG)).mpr hlive
      simp [hnil] at hmem
    simp only [rusageAfter, hgroupOf, update_of_ne hne]
  | op op =>
    obtain ⟨hsys, hrusage, -⟩ := step_op hstep
    rw [hrusage]
    cases op with
    | clone t p thread =>
      cases thread with
      | true => rfl
      | false =>
        obtain ⟨T, -, -, -, hp, hT, -⟩ := clone_cases (Sys.step_clone hsys)
        have hne : z ≠ p := by
          rintro rfl
          simp [hp] at hZ
        have hgroupOf : ℓ.sys.procs.groupOf t = some T.group := by simp [groupOf, hT]
        simp only [rusageAfter, hgroupOf, update_of_ne hne]
    | _ => rfl

end Step

/-! ## After the child is gone -/

/-- No scan gets to the process, whoever makes it. -/
def Unseen (s : Procs) (z : Pid) : Prop :=
  s.pidGetTaskZombie z = none ∧ ∀ t call, z ∉ s.candidates t call ∧ s.scanned t call ≠ some z

theorem unseen_of_gone {s : Procs} (h : s.Wf) {z : Pid} (hz : s.task z = none) : Unseen s z := by
  have hgroup : s.group z = none := by
    by_contra hne
    obtain ⟨G, hG⟩ := ne_none_iff_exists'.mp hne
    have hlead := h.leader z G hG
    simp [groupOf, hz] at hlead
  refine ⟨by simp [pidGetTaskZombie, hz], ?_⟩
  intro t call
  constructor
  · intro hmem
    unfold candidates at hmem
    split at hmem
    · simp at hmem
    split at hmem
    · simp at hmem
    obtain ⟨-, -, hmem⟩ := mem_flatMap.mp hmem
    have hselects := (mem_filter.mp hmem).2
    simp [selects, isLeader, groupOf, hz] at hselects
  intro hscanned
  obtain ⟨st, s', -, hreap, -⟩ := scan_of_scanned hscanned
  simp [reapIfNeeded_gone hz hgroup] at hreap

/-- A task appears by `fork` only. -/
theorem moves_task_none {σ σ' : Sys} {op : Sys.Op} {z : Pid} (h : Sys.Asleep σ)
    (hmoves : Sys.Moves σ op σ') (hz : σ.procs.task z = none)
    (hclone : ∀ t thread, op ≠ .clone t z thread) : σ'.procs.task z = none := by
  have hsame : SameRow σ.procs σ'.procs z → σ'.procs.task z = none := by
    intro hrow
    unfold SameRow at hrow
    simpa [hz] using hrow
  cases hmoves with
  | same => exact hz
  | clone hruns hs =>
    rename_i t p thread s
    have hne : z ≠ p := by
      rintro rfl
      exact hclone t thread rfl
    obtain ⟨T, G, -, -, -, -, -, hcases⟩ := clone_cases hs
    rcases hcases with ⟨-, rfl⟩ | ⟨-, rfl⟩
    · show (σ.procs.taskCreate t p T T.group).task z = none
      rw [taskCreate_task, if_neg hne, hz]
      rfl
    show (σ.procs.taskCreate t p T p).task z = none
    rw [taskCreate_task, if_neg hne, hz]
    rfl
  | setpgid => exact hz
  | setsid => exact hz
  | exit hruns hs =>
    obtain ⟨T, hT, hlive⟩ := map_eq_some_iff.mp (Sys.exiting_of_runs hruns)
    by_contra hne
    obtain ⟨Z', hZ'⟩ := ne_none_iff_exists'.mp hne
    obtain ⟨Z, hZ, -⟩ := h.wf.doExit_get hT hlive hs hZ'
    simp [hz] at hZ
  | report hs => exact hsame ((sameKin_report hs).row z)
  | found hcall hscan =>
    obtain ⟨z0, -, hreap, -⟩ := scanned_of_scan hscan
    rcases reapIfNeeded_kin hreap with hkin | ⟨Z, hZ, hzombie, rfl⟩
    · exact hsame (hkin.row z)
    rcases h.wf.reap_row ⟨Z, hZ, hzombie⟩ z with hrow | ⟨-, hnone⟩
    · exact hsame hrow
    · exact hnone
  | leaves => exact hz
  | sleeps => exact hz

section Gone

variable {ℓ ℓ' : Ledger} {z : Pid}

theorem step_gone {a : Act} {out : Sys.Answer × Option Rusage} (h : Sys.Asleep ℓ.sys)
    (hz : ℓ.sys.procs.task z = none) (hclone : ∀ t thread, a ≠ .op (.clone t z thread))
    (hstep : machine.step ℓ a = some (ℓ', out)) :
    ℓ'.sys.procs.task z = none ∧ ∀ st, out.1 ≠ .child z st := by
  cases a with
  | account t used =>
    obtain ⟨-, hsys, -, -, hout⟩ := step_account hstep
    rw [hsys, hout]
    exact ⟨hz, fun _ => by simp⟩
  | op op =>
    have hsys := (step_op hstep).1
    refine ⟨moves_task_none h (Sys.step_moves hsys) hz ?_, ?_⟩
    · rintro t thread rfl
      exact hclone t thread rfl
    intro st hanswer
    rw [hanswer] at hsys
    obtain ⟨t, call, -, hscan⟩ := Sys.step_child hsys
    obtain ⟨z0, hscanned, -, hpid⟩ := scanned_of_scan hscan
    rcases hpid with rfl | hne
    · exact ((unseen_of_gone h.wf hz).2 t call).2 hscanned
    · exact hne hz

/-- In every run in which the pid is not given to a new task. -/
theorem run_gone {acts : List Act} {outs : List (Sys.Answer × Option Rusage)}
    (h : Sys.Asleep ℓ.sys) (hz : ℓ.sys.procs.task z = none)
    (hclone : ∀ t thread, .op (.clone t z thread) ∉ acts)
    (hrun : machine.run ℓ acts = some (ℓ', outs)) :
    Unseen ℓ'.sys.procs z ∧ ∀ st r, (.child z st, r) ∉ outs := by
  induction acts generalizing ℓ outs with
  | nil =>
    rw [Machine.run_nil, some.injEq, Prod.mk.injEq] at hrun
    obtain ⟨rfl, rfl⟩ := hrun
    exact ⟨unseen_of_gone h.wf hz, fun _ _ => not_mem_nil⟩
  | cons a acts ih =>
    obtain ⟨ℓ₁, o, os, hstep, hrest, rfl⟩ := Machine.run_cons_eq_some.mp hrun
    have ha : ∀ t thread, a ≠ .op (.clone t z thread) := by
      rintro t thread rfl
      exact hclone t thread mem_cons_self
    obtain ⟨hz1, ho⟩ := step_gone h hz ha hstep
    obtain ⟨hunseen, hos⟩ := ih (step_asleep h hstep) hz1
      (fun t thread hmem => hclone t thread (mem_cons_of_mem a hmem)) hrest
    refine ⟨hunseen, ?_⟩
    intro st r hmem
    rcases mem_cons.mp hmem with rfl | hmem
    · exact ho st rfl
    · exact hos st r hmem

end Gone

/-! ## Whole runs -/

/-- What a step that reports the exit of `z` to the thread `t` does. -/
structure Reported (ℓ ℓ' : Ledger) (out : Sys.Answer × Option Rusage) (t : Pid) (call : WaitCall)
    (z : Pid) : Prop where
  zombie : ℓ.sys.procs.isZombie z
  answer : ∃ pid st, out = (.child pid st, some (ℓ.rusage z))
  /-- With `WNOWAIT` nothing changes. -/
  peek : call.options.nowait = true →
    ℓ'.sys.procs = ℓ.sys.procs ∧ ℓ'.childrenRusage = ℓ.childrenRusage
  /-- Without it the usage of the child is added to the caller's group. -/
  charged : call.options.nowait = false →
    ∃ g, ℓ.sys.procs.groupOf t = some g ∧
      ℓ'.childrenRusage =
        update ℓ.childrenRusage g (rusageAdd (ℓ.childrenRusage g) (ℓ.rusage z))
  /-- And the child is not found again, until its pid is that of a new task. -/
  gone : call.options.nowait = false → ∀ acts ℓ₁ outs, machine.run ℓ' acts = some (ℓ₁, outs) →
    (∀ t thread, .op (.clone t z thread) ∉ acts) →
      Unseen ℓ₁.sys.procs z ∧ ∀ st r, (.child z st, r) ∉ outs

/-- What the other steps do. -/
structure Unreported (ℓ ℓ' : Ledger) : Prop where
  zombie : ∀ z, ℓ.sys.procs.isZombie z → ℓ'.sys.procs.isZombie z
  group : ∀ g, ℓ.sys.procs.group g ≠ none →
    ℓ'.sys.procs.group g ≠ none ∧ ℓ'.childrenRusage g = ℓ.childrenRusage g

theorem init_asleep : Sys.Asleep init.sys := Sys.init_asleep

/-- In every state of every run, a step reports the exit of a zombie and reaps it, looks at a zombie
with `WNOWAIT` and changes nothing, or leaves the zombies and the sums as they are. -/
theorem reaped_once {acts : List Act} {ℓ ℓ' : Ledger} {outs : List (Sys.Answer × Option Rusage)}
    {a : Act} {out : Sys.Answer × Option Rusage} (hrun : machine.run init acts = some (ℓ, outs))
    (hstep : machine.step ℓ a = some (ℓ', out)) :
    (∀ t call z, ℓ.exitReport a = some (t, call, z) → Reported ℓ ℓ' out t call z) ∧
      (ℓ.exitReport a = none → Unreported ℓ ℓ') ∧
      ∀ z, ℓ.sys.procs.isZombie z → ℓ'.rusage z = ℓ.rusage z := by
  have h : Sys.Asleep ℓ.sys :=
    Machine.run_inv (P := fun _ _ => True) (I := fun ℓ => Sys.Asleep ℓ.sys)
      (fun _ _ _ _ hI _ hs => step_asleep hI hs) init_asleep
      (Machine.along_of_forall (fun _ _ _ => trivial) init) hrun
  refine ⟨?_, ?_, fun z hz => rusage_zombie h hstep hz⟩
  · intro t call z hreport
    obtain ⟨hzombie, hanswer, hprocs⟩ := step_exitReport hreport hstep
    obtain ⟨op, rfl, -⟩ := scans_of_scanCall (exitReport_eq_some hreport).1 hstep
    obtain ⟨g, hg, hchildren⟩ := (childrenRusageAfter_eq h hstep).2 t call z hreport
    refine ⟨hzombie, hanswer, ?peek, ?charged, ?gone⟩
    case peek =>
      intro hnowait
      rw [if_pos hnowait] at hprocs hchildren
      exact ⟨hprocs, hchildren⟩
    case charged =>
      intro hnowait
      rw [if_neg (by simp [hnowait])] at hchildren
      exact ⟨g, hg, hchildren⟩
    case gone =>
      intro hnowait acts1 ℓ₁ outs1 hrun1 hclone
      rw [if_neg (by simp [hnowait])] at hprocs
      refine run_gone (step_asleep h hstep) ?_ hclone hrun1
      rw [hprocs, h.wf.reap_task hzombie, if_pos rfl]
  · intro hreport
    obtain ⟨hzombies, hgroups⟩ := step_noReport h hreport hstep
    refine ⟨hzombies, ?_⟩
    intro g hg
    refine ⟨hgroups g hg, ?_⟩
    cases a with
    | account t used => rw [(step_account hstep).2.2.2.1]
    | op op => exact (childrenRusageAfter_eq h hstep).1 hreport g hg

/-- Two children exit. `init` has looked at one of them with `WNOWAIT`, and now reaps it. -/
theorem reaped_once_by_init :
    let used : Rusage := ⟨⟨1, 600000⟩, ⟨0, 20000⟩⟩
    let call : WaitCall := ⟨.pid, 3, ⟨false, false, true, false, false, false⟩⟩
    let peek : WaitCall := ⟨.all, 0, ⟨false, false, true, false, true, false⟩⟩
    let acts : List Act :=
      [.op (.clone 1 2 false), .op (.clone 1 3 false), .account 3 used, .account 3 used,
        .op (.exit 3 0), .account 2 used, .op (.exit 2 0), .op (.wait 1 peek)]
    ∃ ℓ ℓ' outs out, machine.run init acts = some (ℓ, outs) ∧
      machine.step ℓ (.op (.wait 1 call)) = some (ℓ', out) ∧
      ℓ.exitReport (.op (.wait 1 call)) = some (1, call, 3) ∧ Reported ℓ ℓ' out 1 call 3 ∧
      ℓ'.childrenRusage 1 = ⟨⟨3, 200000⟩, ⟨0, 40000⟩⟩ := by
  intro used call peek acts
  exact (fun hrun => (fun hstep => ⟨_, _, _, _, hrun, hstep, by rfl,
    (reaped_once hrun hstep).1 1 call 3 (by rfl), by decide +kernel⟩) rfl) rfl

end Ledger

end Ish.Process
