import Ish.Process.Rows

set_option autoImplicit false

/-! # The status of a group that exits

`do_exit_group` (`kernel/exit.c`) keeps its status in `group_exit_code`, and only the first call of
a group does. The field also holds the status of a stop, which `receive_signal`
(`kernel/signal.c`) writes and a wait with `WUNTRACED` clears.

The history of a run says which status the first `do_exit_group` of each group was called with.
The stop does not ask whether the group is exiting. A thread that has a stop signal in its queue
ahead of the `SIGKILL` that `do_exit_group` sends acts on it first, and the status of the exit is
lost.
-/

namespace Ish.Process

open Option Function Ish.Lib Machine

namespace Procs

/-! ## The fields that the status comes from -/

def ending (G : TGroup) : Bool × Bool × Nat := (G.stopped, G.doingGroupExit, G.groupExitCode)

/-- The group was there before, with the same fields. -/
def KeepsEnding (s s' : Procs) (g : Pid) : Prop :=
  ∀ G', s'.group g = some G' → ∃ G, s.group g = some G ∧ ending G = ending G'

section Keeps

variable {s s' : Procs} {g : Pid}

theorem keepsEnding_of_group (hgroup : s'.group g = s.group g) : KeepsEnding s s' g := by
  intro G' hG'
  exact ⟨G', hgroup ▸ hG', rfl⟩

theorem keepsEnding_of_map {f : TGroup → TGroup} (hf : ∀ G, ending (f G) = ending G)
    (hgroup : s'.group g = (s.group g).map f) : KeepsEnding s s' g := by
  intro G' hG'
  obtain ⟨G, hG, rfl⟩ := map_eq_some_iff.mp (hgroup.symm.trans hG')
  exact ⟨G, hG, (hf G).symm⟩

theorem keepsEnding_modGroup (s : Procs) (p g : Pid) {f : TGroup → TGroup}
    (hf : ∀ G, ending (f G) = ending G) : KeepsEnding s (s.modGroup p f) g := by
  by_cases hg : g = p
  · exact keepsEnding_of_map hf (by rw [modGroup_group, if_pos hg])
  · exact keepsEnding_of_group (by rw [modGroup_group, if_neg hg])

theorem clone_keepsEnding {t p : Pid} {thread : Bool} (hclone : s.clone t p thread = some s')
    (hg : thread = false → g ≠ p) : KeepsEnding s s' g := by
  obtain ⟨T, G, -, -, -, -, -, hcases⟩ := clone_cases hclone
  rcases hcases with ⟨-, rfl⟩ | ⟨hthread, rfl⟩
  · exact keepsEnding_modGroup (s.taskCreate t p T T.group) T.group g
      (f := fun G => { G with threads := p :: G.threads }) fun _ => rfl
  refine keepsEnding_of_group ?_
  show update s.group p _ g = s.group g
  rw [update_of_ne (hg hthread)]

/-- `tgroup_copy` starts the new group outside `do_exit_group`. -/
theorem clone_doingGroupExit {t p : Pid} (hclone : s.clone t p false = some s') {G' : TGroup}
    (hG' : s'.group p = some G') : G'.doingGroupExit = false := by
  obtain ⟨T, G, -, -, -, -, -, hcases⟩ := clone_cases hclone
  rcases hcases with ⟨hthread, -⟩ | ⟨-, rfl⟩
  · exact absurd hthread (by decide)
  have hp : some { G with threads := [p], doingGroupExit := false } = some G' := by
    simpa [tgroupCopy] using hG'
  rw [← some.inj hp]

theorem doExit_keepsEnding {t : Pid} {status : Nat} {h : Option Pid}
    (hexit : s.doExit t status = some (s', h)) : KeepsEnding s s' g := by
  obtain ⟨T, np, -, hgroup⟩ := doExit_group hexit
  by_cases hg : g = T.group
  · refine keepsEnding_of_map (f := fun G => { G with threads := G.threads.erase t })
      (fun _ => rfl) ?_
    rw [hgroup, leaveGroup_group, if_pos hg]
  · refine keepsEnding_of_group ?_
    rw [hgroup, leaveGroup_group, if_neg hg]

theorem reap_keepsEnding (s : Procs) (z : Pid) : KeepsEnding s (s.reap z) g := by
  intro G' hG'
  rw [reap_group] at hG'
  rcases update_cases hG' with ⟨-, hnew⟩ | ⟨-, hold⟩
  · cases hnew
  · exact ⟨G', hold, rfl⟩

end Keeps

/-- What a wait that finds something leaves of a group that is not stopped. -/
theorem reapIfNeeded_keepsEnding {s s' : Procs} {z : Pid} {options : WaitOptions} {status : Nat}
    (h : s.reapIfNeeded z options = some (status, s')) {g : Pid}
    (hstopped : ∀ G, s.group g = some G → G.stopped = false) : KeepsEnding s s' g := by
  rcases reapIfNeeded_effect h with rfl | ⟨G, hG, hstop, rfl⟩ | rfl | ⟨-, -, -, -, -, -, rfl⟩
  · exact keepsEnding_of_group rfl
  · refine keepsEnding_of_group ?_
    rw [modGroup_group, if_neg]
    rintro rfl
    simp [hstopped G hG] at hstop
  · exact keepsEnding_of_group rfl
  · exact reap_keepsEnding s z

end Procs

namespace Sys

open Procs

variable {first : Option Nat} {G G' : TGroup} {s s' : Procs} {g z : Pid} {options : WaitOptions}

/-! ## The history -/

/-- The status of the first `do_exit_group` of each group. A new group starts without one. -/
def noteExit (first : Pid → Option Nat) (σ : Sys) : Op → Pid → Option Nat
  | .report t (.groupExit status) =>
    match σ.procs.groupOf t with
    | some g => if (first g).isNone then update first g (some status) else first
    | none => first
  | .clone _ p false => update first p none
  | _ => first

def toldMachine : Machine (Sys × (Pid → Option Nat)) Op Answer := machine.record noteExit

/-- A wait that reaps a group reports the status of its first `do_exit_group`. -/
def StepTells (τ : Sys × (Pid → Option Nat)) (op : Op) : Prop :=
  ∀ τ' pid st, toldMachine.step τ op = some (τ', .child pid st) →
    ∀ z, τ.1.procs.group z ≠ none → τ'.1.procs.group z = none →
      ∀ status, τ.2 z = some status → st = status

/-- A stop signal is acted upon in a group that has not begun to exit. -/
def StepStops (τ : Sys × (Pid → Option Nat)) : Op → Prop
  | .report t (.groupStop _) =>
    ((τ.1.procs.groupOf t).bind τ.1.procs.group).map TGroup.doingGroupExit ≠ some true
  | _ => True

/-! ## What holds of a group that exits -/

/-- What the history says of the group. -/
def Agrees (first : Option Nat) (G : TGroup) : Prop :=
  match first with
  | none => G.doingGroupExit = false
  | some status => G.doingGroupExit = true ∧ G.groupExitCode = status ∧ G.stopped = false

def Told (τ : Sys × (Pid → Option Nat)) : Prop :=
  ∀ g G, τ.1.procs.group g = some G → Agrees (τ.2 g) G

theorem Agrees.congr (h : Agrees first G) (hending : ending G = ending G') : Agrees first G' := by
  simp only [ending, Prod.mk.injEq] at hending
  obtain ⟨hstopped, hdoing, hcode⟩ := hending
  cases first with
  | none => exact hdoing.symm.trans h
  | some status => exact ⟨hdoing.symm.trans h.1, hcode.symm.trans h.2.1, hstopped.symm.trans h.2.2⟩

/-- The one thing that a wait changes is the code of a stopped group. -/
theorem Agrees.reapIfNeeded {status : Nat} (hreap : s.reapIfNeeded z options = some (status, s'))
    (h : ∀ G, s.group g = some G → Agrees first G) (hG' : s'.group g = some G') :
    Agrees first G' := by
  cases first with
  | some st =>
    obtain ⟨G, hG, hending⟩ := reapIfNeeded_keepsEnding hreap (fun G hG => (h G hG).2.2) G' hG'
    exact (h G hG).congr hending
  | none =>
    rcases reapIfNeeded_effect hreap with rfl | ⟨G, hG, -, rfl⟩ | rfl | ⟨-, -, -, -, -, -, rfl⟩
    · exact h G' hG'
    · rw [modGroup_group] at hG'
      split at hG'
      · obtain ⟨G, hG, rfl⟩ := map_eq_some_iff.mp hG'
        exact h G hG
      · exact h G' hG'
    · exact h G' hG'
    · obtain ⟨G, hG, hending⟩ := reap_keepsEnding s z G' hG'
      exact (h G hG).congr hending

section Step

variable {τ τ' : Sys × (Pid → Option Nat)} {op : Op}

/-- A step after which the history is the same, and with it every group that is left. -/
theorem Told.of_keeps (h : Told τ) (hfirst : τ'.2 = τ.2)
    (hkeeps : ∀ g, KeepsEnding τ.1.procs τ'.1.procs g) : Told τ' := by
  intro g G' hG'
  obtain ⟨G, hG, hending⟩ := hkeeps g G' hG'
  rw [hfirst]
  exact (h g G hG).congr hending

theorem Told.clone {t p : Pid} {thread : Bool} (h : Told τ)
    (hclone : τ.1.procs.clone t p thread = some τ'.1.procs)
    (hfirst : τ'.2 = noteExit τ.2 τ.1 (.clone t p thread)) : Told τ' := by
  cases thread with
  | true => exact h.of_keeps hfirst fun g => clone_keepsEnding hclone (by simp)
  | false =>
    intro g G' hG'
    rw [hfirst]
    by_cases hg : g = p
    · subst hg
      simp only [noteExit, update_self]
      exact clone_doingGroupExit hclone hG'
    obtain ⟨G, hG, hending⟩ := clone_keepsEnding hclone (fun _ => hg) G' hG'
    simp only [noteExit, update_of_ne hg]
    exact (h g G hG).congr hending

/-- A report in one group. -/
theorem Told.report_own (h : Told τ) {T : Task} {f : TGroup → TGroup}
    (hgroup : τ'.1.procs.group = (τ.1.procs.modGroup T.group f).group)
    (hfirst : ∀ g, g ≠ T.group → τ'.2 g = τ.2 g)
    (hown : ∀ G, τ.1.procs.group T.group = some G → Agrees (τ.2 T.group) G →
      Agrees (τ'.2 T.group) (f G)) : Told τ' := by
  intro g G' hG'
  rw [hgroup, modGroup_group] at hG'
  split at hG'
  · rename_i hg
    subst hg
    obtain ⟨G, hG, rfl⟩ := map_eq_some_iff.mp hG'
    exact hown G hG (h T.group G hG)
  rename_i hg
  rw [hfirst g hg]
  exact h g G' hG'

theorem Told.report {t : Pid} {r : Procs.Report} {n : Option Pid} (h : Told τ)
    (hstops : StepStops τ (.report t r))
    (hreport : τ.1.procs.report t r = some (τ'.1.procs, n))
    (hfirst : τ'.2 = noteExit τ.2 τ.1 (.report t r)) : Told τ' := by
  rcases hT : τ.1.procs.task t with _ | T
  · simp [Procs.report, hT] at hreport
  have hgroupOf : τ.1.procs.groupOf t = some T.group := by simp [groupOf, hT]
  cases r with
  | groupStop _ | groupCont =>
    simp only [Procs.report, hT, some.injEq, Prod.mk.injEq] at hreport
    refine h.report_own (T := T) (by rw [← hreport.1]) (fun g _ => by rw [hfirst]; rfl) ?_
    intro G hG hagrees
    rw [hfirst]
    show Agrees (τ.2 T.group) _
    rcases hnone : τ.2 T.group with _ | status
    · rw [hnone] at hagrees; exact hagrees
    rw [hnone] at hagrees
    -- a stop of a group that is exiting is what the condition rules out
    first
    | exact ⟨hagrees.1, hagrees.2.1, rfl⟩
    | simp [StepStops, hgroupOf, hG, hagrees.1] at hstops
  | groupExit status =>
    simp only [Procs.report, hT, some.injEq, Prod.mk.injEq] at hreport
    simp only [noteExit, hgroupOf] at hfirst
    refine h.report_own (T := T) (by rw [← hreport.1]) ?_ ?_
    · intro g hg
      rw [hfirst]
      split
      · rw [update_of_ne hg]
      · rfl
    intro G hG hagrees
    rw [hfirst]
    cases hnone : τ.2 T.group with
    | none =>
      rw [hnone] at hagrees
      have hdoing : G.doingGroupExit = false := hagrees
      simp [Agrees, hdoing]
    | some st =>
      rw [hnone] at hagrees
      simp [Agrees, hnone, hagrees.1, hagrees.2.1]
  | stopSeen | traceStop sig | traceCont =>
    simp only [Procs.report, hT, some.injEq, Prod.mk.injEq] at hreport
    exact h.of_keeps hfirst fun g =>
      keepsEnding_of_group (congrArg (fun P : Procs => P.group g) hreport.1).symm

/-- The thread is in a wait, so the history does not change. -/
theorem noteExit_of_scans {σ : Sys} {t : Pid} {call : WaitCall} (hcall : σ.Scans op t call)
    (first : Pid → Option Nat) : noteExit first σ op = first := by
  rcases hcall with ⟨rfl, -⟩ | ⟨gotSignal, w, rfl, -⟩ <;> rfl

/-- **One step.** -/
theorem Told.step (h : Told τ) (hstops : StepStops τ op) {answer : Answer}
    (hstep : toldMachine.step τ op = some (τ', answer)) : Told τ' := by
  obtain ⟨hstep, hfirst⟩ := record_step.mp hstep
  obtain ⟨σ', first'⟩ := τ'
  cases step_moves hstep with
  | same =>
    cases op with
    | clone t p thread => exact h.clone (step_clone hstep) hfirst
    | report t r =>
      obtain ⟨n, hs⟩ := step_report hstep
      exact h.report hstops hs hfirst
    | _ => exact h.of_keeps hfirst fun g => keepsEnding_of_group rfl
  | clone hruns hs => exact h.clone hs hfirst
  | setpgid hruns hcheck hother | setsid hruns hcheck =>
    exact h.of_keeps hfirst fun g => keepsEnding_modGroup τ.1.procs _ g fun _ => rfl
  | exit hruns hs => exact h.of_keeps hfirst fun g => doExit_keepsEnding hs
  | report hs => exact h.report hstops hs hfirst
  | found hcall hscan =>
    obtain ⟨z, -, hreap, -⟩ := scanned_of_scan hscan
    intro g G' hG'
    rw [hfirst, noteExit_of_scans hcall]
    exact Agrees.reapIfNeeded hreap (h g) hG'
  | leaves hcall | sleeps hcall hscan hnohang =>
    exact h.of_keeps (hfirst.trans (noteExit_of_scans hcall τ.2)) fun g =>
      keepsEnding_of_group rfl

end Step

/-- The group that a wait reaps is the one whose status it reports. -/
theorem reapIfNeeded_reaped {st : Nat} (h : s.reapIfNeeded z options = some (st, s'))
    (hG : s.group g = some G) (hgone : s'.group g = none) :
    ∃ Z, s.task g = some Z ∧ st = if G.doingGroupExit then G.groupExitCode else Z.exitCode := by
  rcases reapIfNeeded_effect h with rfl | ⟨-, -, -, rfl⟩ | rfl | ⟨Z, G1, hZ, hG1, -, hst, rfl⟩
  · simp [hG] at hgone
  · rw [modGroup_group] at hgone
    split at hgone <;> simp [hG] at hgone
  · simp [modTask, hG] at hgone
  have hg : g = z := by
    by_contra hne
    rw [reap_group, update_of_ne hne, hG] at hgone
    simp at hgone
  subst hg
  obtain rfl := Option.mem_unique hG hG1
  exact ⟨Z, hZ, hst⟩

theorem Told.stepTells {τ : Sys × (Pid → Option Nat)} (h : Told τ) (op : Op) : StepTells τ op := by
  intro τ' pid st hstep z hz hgone status hfirst
  obtain ⟨hstep, -⟩ := record_step.mp hstep
  obtain ⟨t, call, -, hscan⟩ := step_child hstep
  obtain ⟨x, -, hreap, -⟩ := scanned_of_scan hscan
  obtain ⟨G, hG⟩ := ne_none_iff_exists'.mp hz
  obtain ⟨Z, -, hst⟩ := reapIfNeeded_reaped hreap hG hgone
  have hagrees := h z G hG
  rw [hfirst] at hagrees
  obtain ⟨hdoing, hcode, -⟩ := hagrees
  calc
    st = if G.doingGroupExit then G.groupExitCode else Z.exitCode := hst
    _ = G.groupExitCode := by rw [if_pos hdoing]
    _ = status := hcode

/-! ## Whole runs -/

/-- `init` has not called `do_exit_group`. -/
def toldInit : Sys × (Pid → Option Nat) := (init, fun _ => none)

theorem told_init : Told toldInit := by
  intro g G hG
  simp only [toldInit, init] at hG
  split at hG
  · rw [← some.inj hG]
    rfl
  · simp at hG

/-- In a run in which no group stops after its first `do_exit_group`, every group that calls it is
reaped with the status of that call. -/
theorem run_tells (ops : List Op) (hstops : toldMachine.Along StepStops toldInit ops) :
    toldMachine.Along StepTells toldInit ops :=
  along_imp (I := Told) (fun _ op h _ => h.stepTells op)
    (fun _ _ _ _ h hstop hstep => h.step hstop hstep) told_init hstops

/-- A wait for any child, without `WNOHANG`. -/
def waitAny : WaitCall := ⟨.all, 0, ⟨false, true, true, false, false, false⟩⟩

/-- A process with two threads stops and goes on, and one of them exits with the status 3. -/
theorem run_tells_exit_three : let ops : List Op :=
      [.clone 1 2 false, .clone 2 3 true, .report 3 (.groupStop 4991), .report 2 .groupCont,
        .report 2 (.groupExit 768), .exit 2 768, .report 3 (.groupExit 9), .exit 3 768,
        .wait 1 waitAny]
    toldMachine.outputs toldInit ops =
        some [.done, .done, .done, .done, .done, .done, .done, .done, .child 2 768] ∧
      toldMachine.Along StepTells toldInit ops := by
  refine ⟨by decide +kernel, run_tells _ ?_⟩
  rw [along_cons_of_step rfl, along_cons_of_step rfl, along_cons_of_step rfl]
  refine ⟨trivial, trivial, (show some false ≠ some true by decide), ?_⟩
  -- the steps that are left are no stops
  refine along_of_forall ?_ _
  intro op hop τ
  fin_cases hop <;> trivial

/-- The other thread has `SIGSTOP` in its queue when the `SIGKILL` of `exit_group(3)` comes. Its
own `do_exit_group` then finds the status of the stop, and the parent is told it was stopped. -/
theorem stop_overwrites_exit_status : let ops : List Op :=
      [.clone 1 2 false, .clone 2 3 true, .report 2 (.groupExit 768), .exit 2 768,
        .report 3 (.groupStop 4991), .report 3 (.groupExit 9), .exit 3 4991]
    ∃ τ τ' answers, toldMachine.run toldInit ops = some (τ, answers) ∧
      toldMachine.step τ (.wait 1 waitAny) = some (τ', .child 2 4991) ∧
      τ.2 2 = some 768 ∧ ¬ StepTells τ (.wait 1 waitAny) := by
  refine ⟨_, _, _, rfl, rfl, rfl, ?_⟩
  intro h
  have hst : 4991 = 768 := h _ 2 4991 rfl 2 (by decide +kernel) rfl 768 rfl
  exact absurd hst (by decide)

end Sys

end Ish.Process
