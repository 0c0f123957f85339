import Ish.Process.Exit

set_option autoImplicit false

/-! # The children that `do_wait` goes through

Children hang from the single threads of a process. With `P_PID` the loop of `do_wait` accepts a
child whose parent is any thread of the caller's group. With `P_ALL` and `P_PGID` it goes once
through a list of children for each thread of the group, but the list is `current->children` each
time: the variable of the outer loop is not used, and the children of the other threads are not
seen.
-/

namespace Ish.Process

open List Ish.Lib

namespace Procs

/-! ## Calls and children -/

/-- The call is one for this child: `P_ALL`, `P_PID` with its pid, or `P_PGID` with its process
group. -/
def asks (s : Procs) (call : WaitCall) (c : Pid) : Prop :=
  match call.idtype with
  | .all => True
  | .pid => call.id = c
  | .pgid => s.pgidOf c = some call.id

/-- A process that is a child of the thread `t`. -/
def ownChild (s : Procs) (t c : Pid) : Prop :=
  ∃ C, s.task c = some C ∧ C.group = c ∧ C.parent = some t

/-- A process that is a child of some thread of the group of `t`. -/
def groupChild (s : Procs) (t c : Pid) : Prop :=
  ∃ C q, s.task c = some C ∧ C.group = c ∧ C.parent = some q ∧ s.groupOf q = s.groupOf t

/-- What the loop of `do_wait` goes through. -/
def considers (s : Procs) (t : Pid) (call : WaitCall) (c : Pid) : Prop :=
  s.asks call c ∧ if call.idtype = .pid then s.groupChild t c else s.ownChild t c

theorem ownChild.groupChild {s : Procs} {t c : Pid} (h : s.ownChild t c) : s.groupChild t c := by
  obtain ⟨C, hC, hlead, hparent⟩ := h
  exact ⟨C, t, hC, hlead, hparent, rfl⟩

theorem considers.groupChild {s : Procs} {t c : Pid} {call : WaitCall}
    (h : s.considers t call c) : s.groupChild t c := by
  have hchild := h.2
  split at hchild
  · exact hchild
  · exact ownChild.groupChild hchild

/-! ## The loop -/

section Scan

variable {s s' : Procs} {t c : Pid} {T : Task} {call : WaitCall} {status : Nat}

theorem Family.pidGetTaskZombie (h : s.Family) (hT : s.task t = some T) :
    s.pidGetTaskZombie t = some T := by
  have hget : s.pidGet t = true := by
    have hle : t ≤ MAX_PID + 1 := Nat.le_succ_of_le (h.range t T hT)
    simp [pidGet, pidEmpty, hT, hle]
  unfold Procs.pidGetTaskZombie
  rw [if_pos hget]
  exact hT

/-- The candidates of the two loops are the children that are considered. -/
theorem Family.mem_candidates (h : s.Family) (hT : s.task t = some T) (hlive : T.exiting = false)
    (hid : call.idtype ≠ .pid) : c ∈ s.candidates t call ↔ s.considers t call c := by
  obtain ⟨G, hG⟩ := h.group t T hT
  -- the outer loop makes at least one turn, for the caller
  have hturn : t ∈ G.threads := (h.thread t T G hT hG).mpr hlive
  have hmem : c ∈ s.candidates t call ↔ c ∈ T.children ∧ s.selects call c = true := by
    simp only [candidates, hT, hG, mem_flatMap, mem_filter]
    exact ⟨fun ⟨_, _, hc⟩ => hc, fun hc => ⟨t, hturn, hc⟩⟩
  have hselects : s.selects call c = true ↔ s.groupOf c = some c ∧ s.asks call c := by
    unfold selects isLeader asks pgidOf
    cases hidtype : call.idtype with
    | all => simp
    | pid => exact absurd hidtype hid
    | pgid => simp
  rw [hmem, hselects, h.child t T c hT, considers, if_neg hid]
  constructor
  · rintro ⟨⟨C, hC, hparent⟩, hlead, hasks⟩
    exact ⟨hasks, C, hC, by simpa [groupOf, hC] using hlead, hparent⟩
  rintro ⟨hasks, C, hC, hlead, hparent⟩
  exact ⟨⟨C, hC, hparent⟩, by simp [groupOf, hC, hlead], hasks⟩

/-- With `P_PID` the scan is a look at the one child. -/
theorem Family.scan_pid (h : s.Family) (hid : call.idtype = .pid) (hc : s.considers t call c) :
    s.scan t call =
      ((s.reapIfNeeded c call.options).map fun r => Scan.found c r.1 r.2).getD .nothing := by
  obtain ⟨hasks, hchild⟩ := hc
  rw [if_pos hid] at hchild
  obtain ⟨C, q, hC, hlead, hparent, hq⟩ := hchild
  simp only [asks, hid] at hasks
  cases hreap : s.reapIfNeeded c call.options with
  | none | some r => simp [scan, hid, hasks, h.pidGetTaskZombie hC, hparent, hq, hlead, hreap]

theorem Family.scan_ne_noChild (h : s.Family) (hT : s.task t = some T) (hlive : T.exiting = false)
    (hc : s.considers t call c) : s.scan t call ≠ .noChild := by
  by_cases hid : call.idtype = .pid
  · rw [h.scan_pid hid hc]
    cases s.reapIfNeeded c call.options <;> simp
  have hne : s.candidates t call ≠ [] := ne_nil_of_mem ((h.mem_candidates hT hlive hid).mpr hc)
  unfold scan
  split
  · rename_i hpid
    exact absurd hpid hid
  split
  · simp
  · simp [hne]

theorem Family.exists_considers (h : s.Family) (hT : s.task t = some T) (hlive : T.exiting = false)
    (hid : call.idtype ≠ .pid) (hscan : s.scan t call ≠ .noChild) :
    ∃ c, s.considers t call c := by
  have hne : s.candidates t call ≠ [] := by
    intro hnil
    refine hscan ?_
    unfold scan
    split
    · rename_i hpid
      exact absurd hpid hid
    · simp [hnil]
  obtain ⟨c, hc⟩ := exists_mem_of_ne_nil _ hne
  exact ⟨c, (h.mem_candidates hT hlive hid).mp hc⟩

/-- A scan that ends at `wait_for` has found nothing at any child that it considers. -/
theorem Family.reapIfNeeded_of_nothing (h : s.Family) (hT : s.task t = some T)
    (hlive : T.exiting = false) (hscan : s.scan t call = .nothing) (hc : s.considers t call c) :
    s.reapIfNeeded c call.options = none := by
  by_cases hid : call.idtype = .pid
  · rw [h.scan_pid hid hc] at hscan
    cases hreap : s.reapIfNeeded c call.options with
    | none => rfl
    | some r => simp [hreap] at hscan
  have hmem := (h.mem_candidates hT hlive hid).mpr hc
  unfold scan at hscan
  split at hscan
  · rename_i hpid
    exact absurd hpid hid
  split at hscan
  · simp at hscan
  rename_i hfind
  simpa using findSome?_eq_none_iff.mp hfind c hmem

/-- A child that is the only one considered is the one that is reported. -/
theorem Family.scan_found_of_only (h : s.Family) (hT : s.task t = some T)
    (hlive : T.exiting = false) (hc : s.considers t call c)
    (hreap : s.reapIfNeeded c call.options = some (status, s'))
    (honly : ∀ d, s.considers t call d → d = c) : s.scan t call = .found c status s' := by
  by_cases hid : call.idtype = .pid
  · rw [h.scan_pid hid hc, hreap]
    rfl
  have hmem := (h.mem_candidates hT hlive hid).mpr hc
  unfold scan
  split
  · rename_i hpid
    exact absurd hpid hid
  split
  · rename_i d st s1 hfind
    obtain ⟨d', hd', hsome⟩ := exists_of_findSome?_eq_some hfind
    obtain rfl := honly d' ((h.mem_candidates hT hlive hid).mp hd')
    simp only [hreap, Option.map_some, Option.some.injEq, Prod.mk.injEq] at hsome
    obtain ⟨rfl, rfl, rfl⟩ := hsome
    rfl
  rename_i hfind
  have hnone := findSome?_eq_none_iff.mp hfind c hmem
  simp [hreap] at hnone

end Scan

/-! ## Zombies -/

def isZombie (s : Procs) (c : Pid) : Prop := ∃ C, s.task c = some C ∧ C.zombie = true

/-- The group has no stop that `notify_if_stopped` would report. -/
def noStop (s : Procs) (c : Pid) : Prop :=
  ∀ G, s.group c = some G → G.stopped = false ∨ G.groupExitCode = 0

theorem notifyIfStopped_eq_none {s : Procs} {c : Pid} :
    s.notifyIfStopped c = none ↔ s.noStop c := by
  unfold notifyIfStopped noStop
  cases hG : s.group c with
  | none => simp
  | some G => cases hstopped : G.stopped <;> simp [hstopped]

section Zombie

variable {s : Procs} {c : Pid} (options : WaitOptions)

theorem Family.reapIfZombie (h : s.Family) (hz : s.isZombie c) :
    ∃ status, s.reapIfZombie c options =
      some (status, if options.nowait then s else s.reap c) := by
  obtain ⟨C, hC, hzombie⟩ := hz
  obtain ⟨-, -, G, hG, -⟩ := h.zombie c C hC hzombie
  simp [Procs.reapIfZombie, hC, hG, hzombie]

/-- A zombie is reaped, unless a stop of its group is reported first. -/
theorem Family.reapIfNeeded_zombie (h : s.Family) (hz : s.isZombie c)
    (hexited : options.exited = true) (hstop : s.noStop c) :
    ∃ status, s.reapIfNeeded c options =
      some (status, if options.nowait then s else s.reap c) := by
  obtain ⟨status, hreap⟩ := h.reapIfZombie options hz
  refine ⟨status, ?_⟩
  simp [reapIfNeeded, notifyIfStopped_eq_none.mpr hstop, hexited, hreap]

theorem Family.reapIfNeeded_ne_none (h : s.Family) (hz : s.isZombie c)
    (hexited : options.exited = true) : s.reapIfNeeded c options ≠ none := by
  obtain ⟨status, hreap⟩ := h.reapIfZombie options hz
  simp [reapIfNeeded, hexited, hreap]

/-- A stop that is reported leaves the zombie in the table. -/
theorem reapIfNeeded_stop (hstop : ¬ s.noStop c) (huntraced : options.untraced = true) :
    ∃ status, s.reapIfNeeded c options =
      some (status, s.modGroup c (fun G => { G with groupExitCode := 0 })) := by
  unfold noStop at hstop
  push Not at hstop
  obtain ⟨G, hG, hstopped, hcode⟩ := hstop
  refine ⟨G.groupExitCode, ?_⟩
  simp [reapIfNeeded, huntraced, notifyIfStopped, hG, hstopped, hcode]

end Zombie

end Procs

/-! ## The three kinds of calls -/

namespace Sys

open Procs

/-- What every call for the child is to do: not to say that there are no children, and to reap the
child if it is a zombie and the only child of the process that the call is for. -/
structure WaitedFor (σ : Sys) (t c : Pid) : Prop where
  child : ∀ call gotSignal, σ.procs.asks call c →
    (σ.waitScan t call gotSignal).2 ≠ .error .echild
  zombie : σ.procs.isZombie c → ∀ call gotSignal, σ.procs.asks call c →
    call.options.exited = true → (∀ d, σ.procs.groupChild t d → σ.procs.asks call d → d = c) →
      ∃ status, σ.waitScan t call gotSignal =
        (⟨if call.options.nowait then σ.procs else σ.procs.reap c,
          Function.update σ.waits t none⟩, .child c status)

/-- The calling thread has a child of its own in the process group of the child, which may be this
one, and a zombie has no stop left to report. -/
structure Seen (s : Procs) (t c : Pid) : Prop where
  own : ∃ d, s.ownChild t d ∧ s.pgidOf d = s.pgidOf c
  stop : s.isZombie c → s.noStop c

section Wait

variable {σ : Sys} {t c : Pid} {T : Task}

theorem waitScan_echild_iff (call : WaitCall) (gotSignal : Bool) :
    (σ.waitScan t call gotSignal).2 = .error .echild ↔ σ.procs.scan t call = .noChild := by
  unfold waitScan
  cases hscan : σ.procs.scan t call with
  | found pid status s => simp
  | noChild => simp
  | nothing =>
    dsimp only
    split
    · simp
    · split <;> simp

/-- In the process group of `c` the call asks for `c` where it asks for `d`. -/
theorem asks_congr {s : Procs} {call : WaitCall} {d : Pid} (hid : call.idtype ≠ .pid)
    (hpgid : s.pgidOf d = s.pgidOf c) : s.asks call d ↔ s.asks call c := by
  unfold asks
  cases hidtype : call.idtype with
  | all => rfl
  | pid => exact absurd hidtype hid
  | pgid => simp [hpgid]

theorem Seen.considers (hseen : Seen σ.procs t c) (hchild : σ.procs.groupChild t c)
    {call : WaitCall} (hasks : σ.procs.asks call c) :
    ∃ d, σ.procs.considers t call d := by
  by_cases hid : call.idtype = .pid
  · exact ⟨c, hasks, by rw [if_pos hid]; exact hchild⟩
  obtain ⟨d, hd, hpgid⟩ := hseen.own
  exact ⟨d, (asks_congr hid hpgid).mpr hasks, by rw [if_neg hid]; exact hd⟩

theorem Seen.waitedFor (h : σ.procs.Family) (hT : σ.procs.task t = some T)
    (hlive : T.exiting = false) (hchild : σ.procs.groupChild t c) (hseen : Seen σ.procs t c) :
    WaitedFor σ t c := by
  constructor
  · intro call gotSignal hasks
    rw [Ne, waitScan_echild_iff]
    obtain ⟨d, hd⟩ := hseen.considers hchild hasks
    exact h.scan_ne_noChild hT hlive hd
  intro hz call gotSignal hasks hexited honly
  -- what is considered is a child of the process, so it is `c`
  have honly' : ∀ d, σ.procs.considers t call d → d = c := fun d hd => honly d hd.groupChild hd.1
  obtain ⟨d, hd⟩ := hseen.considers hchild hasks
  obtain rfl := honly' d hd
  obtain ⟨status, hreap⟩ := h.reapIfNeeded_zombie call.options hz hexited (hseen.stop hz)
  refine ⟨status, ?_⟩
  simp only [waitScan, h.scan_found_of_only hT hlive hd hreap honly']

theorem WaitedFor.seen (h : σ.procs.Family) (hT : σ.procs.task t = some T)
    (hlive : T.exiting = false) (hchild : σ.procs.groupChild t c) (hwait : WaitedFor σ t c) :
    Seen σ.procs t c := by
  obtain ⟨C, q, hC, hlead, hparent, hq⟩ := hchild
  obtain ⟨G, hG⟩ := h.group c C hC
  rw [hlead] at hG
  have hpgid : σ.procs.pgidOf c = some G.pgid := by simp [pgidOf, hG]
  constructor
  · -- the call for the process group sees one of its members
    let call : WaitCall := ⟨.pgid, G.pgid, ⟨false, false, true, false, false, false⟩⟩
    have hscan := hwait.child call false hpgid
    rw [Ne, waitScan_echild_iff] at hscan
    obtain ⟨d, hasks, hown⟩ := h.exists_considers hT hlive (by simp [call]) hscan
    refine ⟨d, hown, ?_⟩
    rw [hpgid]
    exact hasks
  -- the call for the pid reports the stop and leaves the zombie
  intro hz
  by_contra hstop
  let call : WaitCall := ⟨.pid, c, ⟨false, true, true, false, false, false⟩⟩
  obtain ⟨st, hreap⟩ := hwait.zombie hz call false rfl rfl (fun d _ hd => hd.symm)
  obtain ⟨code, hreport⟩ := reapIfNeeded_stop call.options hstop rfl
  have hc : σ.procs.considers t call c := ⟨rfl, C, q, hC, hlead, hparent, hq⟩
  simp only [waitScan, h.scan_pid rfl hc, hreport, Option.map_some, Option.getD_some,
    Prod.mk.injEq, Sys.mk.injEq] at hreap
  have htask := congrArg (fun s : Procs => s.task c) hreap.1.1
  simp [call, hC, reap, taskDestroy] at htask

end Wait

/-- **Which children are waited for.** In every reachable state, the calls with `P_ALL`, with
`P_PGID` and with `P_PID` treat a child of the process alike exactly when the calling thread has a
child of its own in the same process group, and a zombie has no stop left to report. -/
theorem waitedFor_iff {ops : List Op} {σ : Sys} {answers : List Answer}
    (hrun : machine.run init ops = some (σ, answers)) {t c : Pid} {T : Task}
    (hT : σ.procs.task t = some T) (hlive : T.exiting = false)
    (hchild : σ.procs.groupChild t c) : WaitedFor σ t c ↔ Seen σ.procs t c := by
  have hwf := (run_wf hrun).toFamily
  exact ⟨fun h => h.seen hwf hT hlive hchild, fun h => h.waitedFor hwf hT hlive hchild⟩

/-- Process 2 has the threads 2 and 3. Thread 2 has forked process 4, which has exited, and thread 3
has forked process 5. -/
theorem waitedFor_child_of_thread :
    ∃ σ, machine.run init [.clone 1 2 false, .clone 2 3 true, .clone 2 4 false, .clone 3 5 false,
        .exit 4 0] = some (σ, [.done, .done, .done, .done, .done]) ∧
      σ.procs.isZombie 4 ∧ WaitedFor σ 3 4 := by
  obtain ⟨σ, hrun, T, hT, hlive, hchild, hown, hgroup, hz, hstop⟩ :
      ∃ σ, machine.run init [.clone 1 2 false, .clone 2 3 true, .clone 2 4 false, .clone 3 5 false,
          .exit 4 0] = some (σ, [.done, .done, .done, .done, .done]) ∧
        ∃ T, σ.procs.task 3 = some T ∧ T.exiting = false ∧ σ.procs.groupChild 3 4 ∧
          σ.procs.ownChild 3 5 ∧ σ.procs.pgidOf 5 = σ.procs.pgidOf 4 ∧ σ.procs.isZombie 4 ∧
          (σ.procs.group 4).map TGroup.stopped = some false :=
    ⟨_, rfl, _, rfl, rfl, ⟨_, 2, rfl, rfl, rfl, rfl⟩, ⟨_, rfl, rfl, rfl⟩, rfl, ⟨_, rfl, rfl⟩, rfl⟩
  refine ⟨σ, hrun, hz, (waitedFor_iff hrun hT hlive hchild).mpr ⟨⟨5, hown, hgroup⟩, ?_⟩⟩
  intro _ G hG
  exact .inl (by simpa [hG] using hstop)

/-- **A thread that waits for a child of another thread.** Process 2 has the threads 2 and 3, and
thread 2 has forked process 4, which has exited. In thread 3 `P_ALL` and `P_PGID` say that there
are no children, and `P_PID` reaps the zombie. -/
theorem wait_misses_child_of_thread :
    ∃ σ, machine.run init
        [.clone 1 2 false, .clone 2 3 true, .clone 2 4 false, .exit 4 0] =
        some (σ, [.done, .done, .done, .done]) ∧
      σ.procs.groupChild 3 4 ∧ σ.procs.isZombie 4 ∧ σ.procs.pgidOf 4 = some 1 ∧
      (σ.waitScan 3 ⟨.all, 0, ⟨false, false, true, false, false, false⟩⟩ false).2 =
        .error .echild ∧
      (σ.waitScan 3 ⟨.pgid, 1, ⟨false, false, true, false, false, false⟩⟩ false).2 =
        .error .echild ∧
      (σ.waitScan 3 ⟨.pid, 4, ⟨false, false, true, false, false, false⟩⟩ false).2 =
        .child 4 0 ∧
      ¬ WaitedFor σ 3 4 :=
  ⟨_, rfl, ⟨_, 2, rfl, rfl, rfl, rfl⟩, ⟨_, rfl, rfl⟩, rfl, by decide +kernel, by decide +kernel,
    by decide +kernel, fun h =>
      h.child ⟨.all, 0, ⟨false, false, true, false, false, false⟩⟩ false trivial
        (by decide +kernel)⟩

end Sys

end Ish.Process
