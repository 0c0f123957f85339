import Ish.Process.Clone
import Ish.Signal.Receive

set_option autoImplicit false

/-! # The numbers of signals

`sig_mask` asserts that it is given a number from 1 to `NUM_SIGS - 1`, and the table of actions has
`NUM_SIGS` entries. This module is about how a number of the guest becomes a `Sig`: by
`rt_sigaction` and the three calls that kill, which use it at once, and by `clone` and
`timer_create`, which store it in a task or in a timer for another thread to send.

The machine is the whole system: the process table, the signal state of every task, the exit signal
of every task and the timers of every group. A step that lets a number out of range through ends in
a fault; what the program does from there on is not modelled.
-/

namespace Ish.Signal

open Option Function Ish.Lib

open Ish.Process (Pid Procs MAX_PID CSIGNAL CLONE_SIGHAND CLONE_THREAD has accepts)

/-! ## A number where a signal is wanted -/

inductive Fault where
  /-- A number that `sig_mask` does not accept is given to `signal_action`. -/
  | number (n : Int)
  /-- An index outside of `sighand->action`. -/
  | index (n : Int)
deriving DecidableEq

inductive Errno where
  | eperm
  | esrch
  | einval
  | enomem
  | efault
deriving DecidableEq

theorem sigOf_pos {n : Int} (h : 1 ≤ n ∧ n < NUM_SIGS) : 1 ≤ n.toNat := by omega

theorem sigOf_lt {n : Int} (h : 1 ≤ n ∧ n < NUM_SIGS) : n.toNat < NUM_SIGS := by omega

def sigOf (n : Int) : Option Sig :=
  if h : 1 ≤ n ∧ n < NUM_SIGS then some ⟨n.toNat, sigOf_pos h, sigOf_lt h⟩ else none

theorem sigOf_num (sig : Sig) : sigOf sig.num = some sig := by
  have hpos := sig.pos
  have hlt := sig.lt
  have hrange : (1 : Int) ≤ sig.num ∧ (sig.num : Int) < NUM_SIGS := by omega
  unfold sigOf
  rw [dif_pos hrange]
  rfl

def SI_USER : UInt32 := 0
def SI_TIMER : UInt32 := 0xfffffffe
def SI_KERNEL : UInt32 := 128

/-- `send_signal` with the number as it comes. -/
def sendNumber (t : SigTask) (n : Int) (code : UInt32) (fields : List UInt32) :
    Except Fault SigTask :=
  if n = 0 then .ok t
  else if t.exiting then .ok t
  else
    match sigOf n with
    | none => .error (.number n)
    | some sig => .ok (sendSignal t (some sig) ⟨sig, 0, code, fields⟩)

/-- For the numbers of signals this is `send_signal` on signals. -/
theorem sendNumber_num (t : SigTask) (sig : Sig) (code : UInt32) (fields : List UInt32) :
    sendNumber t sig.num code fields = .ok (sendSignal t (some sig) ⟨sig, 0, code, fields⟩) := by
  have hpos := sig.pos
  have hne : (sig.num : Int) ≠ 0 := by omega
  unfold sendNumber
  rw [if_neg hne, sigOf_num]
  split
  · rename_i hexiting
    simp [sendSignal, hexiting]
  · rfl

def InRange (n : Int) : Prop := 0 ≤ n ∧ n < NUM_SIGS

instance (n : Int) : Decidable (InRange n) := inferInstanceAs (Decidable (_ ∧ _))

/-- The numbers that are sent are those of signals and zero. -/
theorem sendNumber_ok_iff (t : SigTask) (n : Int) (code : UInt32) (fields : List UInt32) :
    (∃ t', sendNumber t n code fields = .ok t') ↔ InRange n ∨ t.exiting = true := by
  unfold sendNumber
  split
  · rename_i hzero
    refine iff_of_true ⟨t, rfl⟩ (.inl ?_)
    rw [hzero]
    decide
  split
  · rename_i hexiting
    exact iff_of_true ⟨t, rfl⟩ (.inr hexiting)
  rename_i hexiting
  by_cases hrange : 1 ≤ n ∧ n < NUM_SIGS
  · simp only [sigOf, dif_pos hrange]
    refine iff_of_true ⟨_, rfl⟩ (.inl ⟨?_, hrange.2⟩)
    omega
  simp only [sigOf, dif_neg hrange]
  refine iff_of_false ?_ ?_
  · rintro ⟨t', ht'⟩
    simp at ht'
  rintro (⟨hnonneg, hlt⟩ | hexiting')
  · omega
  · exact hexiting hexiting'

/-- `do_sigaction` with the number as it comes; `old` is whether the old action is asked for. The
entry of index 0 belongs to no signal. -/
def doSigactionNumber (action : Sig → SigAction) (n : Int) (new : Option SigAction) (old : Bool) :
    Except Fault (Except Errno (Sig → SigAction)) :=
  if (NUM_SIGS : Int) ≤ n then .ok (.error .einval)
  else if n = SIGKILL.num ∨ n = SIGSTOP.num then .ok (.error .einval)
  else if n < 0 ∧ (old = true ∨ new.isSome = true) then .error (.index n)
  else
    match sigOf n, new with
    | some sig, some a => .ok (.ok (update action sig a))
    | _, _ => .ok (.ok action)

/-- For the numbers of signals this is `do_sigaction` on signals. -/
theorem doSigactionNumber_num (t : SigTask) (sig : Sig) (a : SigAction) (old : Bool) :
    doSigactionNumber t.action sig.num (some a) old =
      .ok ((doSigaction t sig a).elim (.error .einval) fun t' => .ok t'.action) := by
  have hpos := sig.pos
  have hlt := sig.lt
  have hbound : ¬ ((NUM_SIGS : Int) ≤ sig.num) := by omega
  have hnonneg : ¬ ((sig.num : Int) < 0 ∧ (old = true ∨ (some a).isSome = true)) := by omega
  have hsame : ∀ sig' : Sig, (sig.num : Int) = sig'.num ↔ sig = sig' := by
    intro sig'
    constructor
    · intro h
      cases sig
      cases sig'
      simp only [Sig.mk.injEq] at *
      omega
    · rintro rfl
      rfl
  unfold doSigactionNumber doSigaction signalIsBlockable
  rw [if_neg hbound, if_neg hnonneg, sigOf_num]
  simp only [hsame]
  by_cases hunblockable : sig = SIGKILL ∨ sig = SIGSTOP
  · rw [if_pos hunblockable]
    rcases hunblockable with rfl | rfl
    · simp
    · simp
  rw [if_neg hunblockable]
  push Not at hunblockable
  simp [hunblockable.1, hunblockable.2]

/-- What `rt_sigaction` must not be asked: to read or write the entry of a negative number. -/
def NoEntryBelow (n : Int) (new : Option SigAction) (old : Bool) : Prop :=
  n < 0 → new = none ∧ old = false

theorem doSigactionNumber_ok_iff (action : Sig → SigAction) (n : Int) (new : Option SigAction)
    (old : Bool) :
    (∃ r, doSigactionNumber action n new old = .ok r) ↔ NoEntryBelow n new old := by
  unfold doSigactionNumber NoEntryBelow
  by_cases hneg : n < 0
  · have hbound : ¬ ((NUM_SIGS : Int) ≤ n) := by
      have : NUM_SIGS = 64 := rfl
      omega
    have hunblockable : ¬ (n = SIGKILL.num ∨ n = SIGSTOP.num) := by omega
    rw [if_neg hbound, if_neg hunblockable]
    cases new with
    | none =>
      cases old with
      | false => simp [hneg, sigOf]
      | true => simp [hneg]
    | some a => simp [hneg]
  · refine iff_of_true ?_ (fun h => absurd h hneg)
    split
    · exact ⟨_, rfl⟩
    split
    · exact ⟨_, rfl⟩
    rw [if_neg (fun h => hneg h.1)]
    split
    · exact ⟨_, rfl⟩
    · exact ⟨_, rfl⟩

/-! ## The system -/

/-- `struct posix_timer`: the number it sends, and the task it sends it to; no task when `tgroup`
is null. -/
structure PosixTimer where
  signal : Int
  threadPid : Option Pid

def TIMERS_MAX : Nat := 16

structure Mail where
  sys : Process.Sys
  exitSignal : Pid → Nat
  /-- The address of the table of actions of each task. -/
  sighand : Pid → Nat
  sig : Pid → SigTask
  /-- The timers of each group. -/
  timers : Pid → Nat → Option PosixTimer

/-- The calling thread: its user, and the tasks that `kill_task` lets it send signals to. -/
structure Caller where
  task : Pid
  uid : UInt32
  allowed : Pid → Bool

/-- What `timer_create` reads from the guest. -/
structure SigEvent where
  signo : BitVec 32
  method : BitVec 32
  tid : BitVec 32

def SIGEV_SIGNAL : BitVec 32 := 0
def SIGEV_NONE : BitVec 32 := 1
def SIGEV_THREAD_ID : BitVec 32 := 4

namespace Mail

variable {m m' : Mail} {n : Nat} {t : Pid} {r : Except Fault Mail}

def procs (m : Mail) : Procs := m.sys.procs

/-- `send_signal` to a task. -/
def sendTo (m : Mail) (q : Pid) (n : Int) (code : UInt32) (fields : List UInt32) :
    Except Fault Mail :=
  match sendNumber (m.sig q) n code fields with
  | .error f => .error f
  | .ok t => .ok { m with sig := update m.sig q t }

/-- The tasks that share the table of actions of `p` have the one that `p` has. -/
def publish (m : Mail) (p : Pid) (action : Sig → SigAction) : Mail :=
  { m with
    sig := fun q =>
      if m.sighand q = m.sighand p then { m.sig q with action := action } else m.sig q }

/-! ### `rt_sigaction` -/

/-- `new` is the action at the address that the guest gives, if it gives one and if it can be
read. -/
def sysRtSigaction (m : Mail) (t : Pid) (signum : BitVec 32) (new : Option SigAction)
    (readable old : Bool) (sigsetSize : BitVec 32) : Except Fault (Mail × Option Errno) :=
  if sigsetSize ≠ 8 then .ok (m, some .einval)
  else if new.isSome = true ∧ readable = false then .ok (m, some .efault)
  else
    match doSigactionNumber (m.sig t).action signum.toInt new old with
    | .error f => .error f
    | .ok (.error e) => .ok (m, some e)
    | .ok (.ok action) => .ok (m.publish t action, none)

/-! ### `kill` -/

def killTask (m : Mail) (c : Caller) (q : Pid) (n : Nat) : Except Fault (Mail × Option Errno) :=
  if c.allowed q then
    match m.sendTo q n SI_USER [.ofNat c.task, c.uid] with
    | .error f => .error f
    | .ok m' => .ok (m', none)
  else .ok (m, some .eperm)

/-- The loops of `kill_group` and `kill_everything`: an error only if nobody can be signaled. -/
def killEach (c : Caller) (n : Nat) :
    List Pid → Mail → Option Errno → Except Fault (Mail × Option Errno)
  | [], m, err => .ok (m, err)
  | q :: qs, m, err =>
    match m.killTask c q n with
    | .error f => .error f
    | .ok (m', killErr) => killEach c n qs m' (if err = some .eperm then killErr else err)

/-- The processes that `kill_everything` goes through. -/
def everything (s : Procs) (t : Pid) : List Pid :=
  ((List.range MAX_PID).drop 2).filter fun i =>
    (s.pidGetTask i).isSome && i != t && s.isLeader i

/-- A `pid` of zero is the process group of the caller. -/
def killPid (m : Mail) (t : Pid) (pid : Int) : Int :=
  if pid = 0 then
    -(((m.procs.groupOf t).bind m.procs.group).elim 0 (fun G => (G.pgid : Int)))
  else pid

def doKill (m : Mail) (c : Caller) (pid : Int) (sig : BitVec 32) (tgid : Int) :
    Except Fault (Mail × Option Errno) :=
  if NUM_SIGS ≤ sig.toNat then .ok (m, some .einval)
  else
    let pid := m.killPid c.task pid
    if pid = -1 then killEach c sig.toNat (everything m.procs c.task) m (some .eperm)
    else if pid < 0 then
      match m.procs.groupSignal (-pid).toNat with
      | none => .ok (m, some .esrch)
      | some leaders => killEach c sig.toNat leaders m (some .eperm)
    else
      match m.procs.pidGetTask pid.toNat with
      | none => .ok (m, some .esrch)
      | some T =>
        if tgid ≠ 0 ∧ (T.group : Int) ≠ tgid then .ok (m, some .esrch)
        else m.killTask c pid.toNat sig.toNat

def sysKill (m : Mail) (c : Caller) (pid sig : BitVec 32) : Except Fault (Mail × Option Errno) :=
  m.doKill c pid.toInt sig 0

def sysTgkill (m : Mail) (c : Caller) (tgid tid sig : BitVec 32) :
    Except Fault (Mail × Option Errno) :=
  if tid.toInt ≤ 0 ∨ tgid.toInt ≤ 0 then .ok (m, some .einval)
  else m.doKill c tid.toInt sig tgid.toInt

def sysTkill (m : Mail) (c : Caller) (tid sig : BitVec 32) : Except Fault (Mail × Option Errno) :=
  if tid.toInt ≤ 0 then .ok (m, some .einval) else m.doKill c tid.toInt sig 0

/-! ### Timers -/

/-- `pid_get_task(id)`, which takes the number as it comes. -/
def finds (m : Mail) (id : BitVec 32) : Bool := (m.procs.pidGetTask id.toNat).isSome

/-- The number and the task of a new timer of the group `g`. -/
def newTimer (g : Pid) (ev : SigEvent) : PosixTimer :=
  ⟨ev.signo.toInt,
    if ev.method = SIGEV_SIGNAL then some 0
    else if ev.method = SIGEV_THREAD_ID then some g
    else none⟩

/-- The clock may be an unknown one, the event unreadable, and the place of the answer not
writable. -/
def sysTimerCreate (m : Mail) (t : Pid) (clock : Bool) (event : Option SigEvent) (written : Bool) :
    Mail × Option Errno :=
  if clock = false then (m, some .einval)
  else
    match event, m.procs.groupOf t with
    | some ev, some g =>
      if ev.method ≠ SIGEV_SIGNAL ∧ ev.method ≠ SIGEV_NONE ∧ ev.method ≠ SIGEV_THREAD_ID then
        (m, some .einval)
      else if ev.method = SIGEV_THREAD_ID ∧ m.finds ev.tid = false then (m, some .einval)
      else
        match (List.range TIMERS_MAX).find? (fun i => (m.timers g i).isNone) with
        | none => (m, some .enomem)
        | some i =>
          if written then
            ({ m with
              timers := update m.timers g
                (update (m.timers g) i (some (newTimer g ev))) }, none)
          else (m, some .efault)
    | _, _ => (m, some .efault)

def posixTimerCallback (m : Mail) (timer : PosixTimer) : Except Fault Mail :=
  match timer.threadPid with
  | none => .ok m
  | some q =>
    match m.procs.pidGetTask q with
    | none => .ok m
    | some _ => m.sendTo q timer.signal SI_TIMER []

def sysTimerDelete (m : Mail) (t : Pid) (id : Nat) : Mail × Option Errno :=
  match m.procs.groupOf t with
  | none => (m, some .einval)
  | some g =>
    if (m.timers g id).isNone then (m, some .einval)
    else
      ({ m with timers := update m.timers g (update (m.timers g) id none) },
        none)

/-! ### Exit signals -/

/-- A new task has its own signals and shares or copies the table of actions. `tgroup_copy` copies
the timers with everything else of the group. -/
def clone (m : Mail) (t p : Pid) (flags : BitVec 32) (copy : Nat) : Option (Mail × Option Errno) :=
  if accepts flags then
    (m.sys.step (.clone t p (has flags CLONE_THREAD))).map fun r =>
      ({ sys := r.1
         exitSignal := update m.exitSignal p (flags &&& CSIGNAL).toNat
         sighand :=
           update m.sighand p (if has flags CLONE_SIGHAND then m.sighand t else copy)
         sig :=
           update m.sig p
             { m.sig t with
               pending := 0
               queue := []
               pc := .running
               parentShares := has flags CLONE_SIGHAND }
         timers :=
           if has flags CLONE_THREAD then m.timers
           else update m.timers p (((m.procs.groupOf t).map m.timers).getD (m.timers p)) },
        none)
  else some (m, some .einval)

/-- The task that is told of the end of a group, when `t` is its last thread: the parent of the
leader, after the children of `t` have been handed over. -/
def exitParent (s : Procs) (t : Pid) (status : Nat) : Option (Pid × Pid) :=
  match s.task t with
  | none => none
  | some T =>
    match (s.markExiting t status).findNewParent T.group with
    | none => none
    | some np =>
      let s1 := s.leaveGroup t T status np
      if s1.groupDead T.group then
        ((s1.task T.group).bind Process.Task.parent).map fun q => (T.group, q)
      else none

def exit (m : Mail) (t : Pid) (status : Nat) (fields : List UInt32) : Option (Except Fault Mail) :=
  (m.sys.step (.exit t status)).map fun r =>
    let m1 :=
      { m with
        sys := r.1
        sig := update m.sig t { m.sig t with exiting := true, queue := [] } }
    match exitParent m.procs t status with
    | none => .ok m1
    | some (g, q) =>
      if m.exitSignal g = 0 then .ok m1
      else m1.sendTo q (m.exitSignal g) SI_KERNEL fields

/-- Whether the parent is told of what happens to the thread: at a stop, in `receive_signals` and in
`signal_delivery_stop`. -/
def tellsParent : Procs.Report → Bool
  | .stopSeen => true
  | .traceStop _ => true
  | _ => false

def report (m : Mail) (t : Pid) (r : Procs.Report) : Option (Except Fault Mail) :=
  (m.sys.step (.report t r)).map fun r' =>
    let m1 := { m with sys := r'.1 }
    match m.procs.task t with
    | none => .ok m1
    | some T =>
      match T.parent with
      | none => .ok m1
      | some q =>
        if tellsParent r then m1.sendTo q (m.exitSignal T.group) SI_KERNEL [] else .ok m1

/-! ### The machine -/

inductive Call where
  | rtSigaction (t : Pid) (signum : BitVec 32) (new : Option SigAction) (readable old : Bool)
      (sigsetSize : BitVec 32)
  | kill (c : Caller) (pid sig : BitVec 32)
  | tgkill (c : Caller) (tgid tid sig : BitVec 32)
  | tkill (c : Caller) (tid sig : BitVec 32)
  | clone (t p : Pid) (flags : BitVec 32) (copy : Nat)
  | timerCreate (t : Pid) (clock : Bool) (event : Option SigEvent) (written : Bool)
  | timerDelete (t : Pid) (id : Fin TIMERS_MAX)
  /-- A timer goes off. -/
  | expire (g : Pid) (id : Nat)
  | exit (t : Pid) (status : Nat) (fields : List UInt32)
  | report (t : Pid) (r : Procs.Report)
  /-- A call of the process table that sends nothing. -/
  | process (op : Process.Sys.Op)
  /-- What a task does with its own signals, and what is sent to it by number of the source. -/
  | own (p : Pid) (op : Op)

inductive Outcome where
  | ret (e : Option Errno)
  | fault (f : Fault)
deriving DecidableEq

/-- After a fault nothing is said about the state. -/
def settle (m : Mail) : Except Fault (Mail × Option Errno) → Mail × Outcome
  | .error f => (m, .fault f)
  | .ok (m', e) => (m', .ret e)

/-- A call without an answer of its own. -/
def quiet : Except Fault Mail → Except Fault (Mail × Option Errno)
  | .error f => .error f
  | .ok m => .ok (m, none)

def step (m : Mail) : Call → Option (Mail × Outcome)
  | .rtSigaction t signum new readable old size =>
    some (m.settle (m.sysRtSigaction t signum new readable old size))
  | .kill c pid sig => some (m.settle (m.sysKill c pid sig))
  | .tgkill c tgid tid sig => some (m.settle (m.sysTgkill c tgid tid sig))
  | .tkill c tid sig => some (m.settle (m.sysTkill c tid sig))
  | .clone t p flags copy => (m.clone t p flags copy).map fun r => m.settle (.ok r)
  | .timerCreate t clock event written =>
    some (m.settle (.ok (m.sysTimerCreate t clock event written)))
  | .timerDelete t id => some (m.settle (.ok (m.sysTimerDelete t id)))
  | .expire g id =>
    (m.timers g id).map fun timer => m.settle (quiet (m.posixTimerCallback timer))
  | .exit t status fields => (m.exit t status fields).map fun r => m.settle (quiet r)
  | .report t r => (m.report t r).map fun r => m.settle (quiet r)
  | .process op =>
    match op with
    | .clone _ _ _ => none
    | .exit _ _ => none
    | .report _ _ => none
    | _ => (m.sys.step op).map fun r => m.settle (.ok ({ m with sys := r.1 }, none))
  | .own p op =>
    match op with
    | .sigaction _ _ => none
    | _ =>
      (sigStep (m.sig p) op).map fun r =>
        m.settle
          (.ok ({ m with sig := update m.sig p r.1 }.publish p r.1.action, none))

def machine : Machine Mail Call Outcome := ⟨step⟩

/-- The first process alone. -/
def init : Mail where
  sys := Process.Sys.init
  exitSignal := fun _ => 0
  sighand := fun _ => 0
  sig := fun _ => initTask
  timers := fun _ _ => none

theorem machine_step (m : Mail) (call : Call) : machine.step m call = m.step call := rfl

/-! ## The stored numbers -/

/-- Every number that is stored for later is one that may be sent. -/
structure Stored (m : Mail) : Prop where
  exit : ∀ p, m.exitSignal p < NUM_SIGS
  timer : ∀ g i tm, m.timers g i = some tm → tm.threadPid ≠ none → InRange tm.signal

theorem init_stored : init.Stored := by
  refine ⟨?_, ?_⟩
  · intro p
    exact show 0 < NUM_SIGS by decide
  intro g i tm h
  cases h

/-- The numbers stored in `m'` are those in `m`. -/
structure SameStored (m m' : Mail) : Prop where
  exit : m'.exitSignal = m.exitSignal
  timer : m'.timers = m.timers

theorem SameStored.refl (m : Mail) : SameStored m m := ⟨rfl, rfl⟩

theorem SameStored.trans {m1 m2 m3 : Mail} (h : SameStored m1 m2) (h' : SameStored m2 m3) :
    SameStored m1 m3 :=
  ⟨h'.exit.trans h.exit, h'.timer.trans h.timer⟩

theorem SameStored.stored (h : SameStored m m') (hm : m.Stored) : m'.Stored := by
  refine ⟨?_, ?_⟩
  · rw [h.exit]
    exact hm.exit
  rw [h.timer]
  exact hm.timer

/-- The outcome is an answer, and the stored numbers are as they were. -/
def Answers (m : Mail) (r : Except Fault (Mail × Option Errno)) : Prop :=
  ∃ m' e, r = .ok (m', e) ∧ SameStored m m'

theorem answers_same (m : Mail) (e : Option Errno) : m.Answers (.ok (m, e)) := ⟨m, e, rfl, .refl m⟩

/-! ## Sending a number that may be sent -/

theorem sendTo_ok {n : Int} (hn : InRange n) (q : Pid) (code : UInt32) (fields : List UInt32) :
    ∃ m', m.sendTo q n code fields = .ok m' ∧ SameStored m m' := by
  obtain ⟨t, ht⟩ := (sendNumber_ok_iff (m.sig q) n code fields).mpr (.inl hn)
  unfold sendTo
  rw [ht]
  exact ⟨_, rfl, rfl, rfl⟩

theorem inRange_of_lt (h : n < NUM_SIGS) : InRange n := ⟨by omega, by omega⟩

theorem killTask_answers (hn : n < NUM_SIGS) (c : Caller) (q : Pid) :
    m.Answers (m.killTask c q n) := by
  unfold killTask
  split
  · obtain ⟨m', hm', hsame⟩ := sendTo_ok (m := m) (inRange_of_lt hn) q SI_USER
      [.ofNat c.task, c.uid]
    rw [hm']
    exact ⟨m', none, rfl, hsame⟩
  · exact answers_same m _

theorem killEach_answers (hn : n < NUM_SIGS) (c : Caller) (qs : List Pid) (m : Mail)
    (err : Option Errno) : m.Answers (killEach c n qs m err) := by
  induction qs generalizing m err with
  | nil => exact answers_same m err
  | cons q qs ih =>
    obtain ⟨m1, e, hm1, hsame⟩ := killTask_answers (m := m) hn c q
    obtain ⟨m2, e2, hm2, hsame2⟩ := ih m1 (if err = some .eperm then e else err)
    rw [killEach, hm1]
    exact ⟨m2, e2, hm2, hsame.trans hsame2⟩

/-- The calls that kill check the number, whoever they are for. -/
theorem doKill_answers (m : Mail) (c : Caller) (pid : Int) (sig : BitVec 32) (tgid : Int) :
    m.Answers (m.doKill c pid sig tgid) := by
  unfold doKill
  split
  · exact answers_same m _
  rename_i hbound
  have hn : sig.toNat < NUM_SIGS := Nat.lt_of_not_le hbound
  dsimp only
  split
  · exact killEach_answers hn c _ m _
  split
  · split
    · exact answers_same m _
    · exact killEach_answers hn c _ m _
  split
  · exact answers_same m _
  split
  · exact answers_same m _
  · exact killTask_answers hn c _

theorem Stored.posixTimerCallback (h : m.Stored) {g : Pid} {i : Nat} {tm : PosixTimer}
    (htm : m.timers g i = some tm) : ∃ m', m.posixTimerCallback tm = .ok m' ∧ SameStored m m' := by
  unfold Mail.posixTimerCallback
  split
  · exact ⟨m, rfl, .refl m⟩
  rename_i q hq
  have hn := h.timer g i tm htm (by simp [hq])
  split
  · exact ⟨m, rfl, .refl m⟩
  · exact sendTo_ok hn q SI_TIMER []

theorem Stored.exitRuns (h : m.Stored) {status : Nat} {fields : List UInt32}
    (hr : m.exit t status fields = some r) : ∃ m', r = .ok m' ∧ SameStored m m' := by
  obtain ⟨r', -, rfl⟩ := map_eq_some_iff.mp hr
  split
  · exact ⟨_, rfl, rfl, rfl⟩
  rename_i g q _
  split
  · exact ⟨_, rfl, rfl, rfl⟩
  obtain ⟨m', hm', hsame⟩ := sendTo_ok
    (m := { m with
      sys := r'.1
      sig := update m.sig t { m.sig t with exiting := true, queue := [] } })
    (inRange_of_lt (h.exit g)) q SI_KERNEL fields
  exact ⟨m', hm', hsame.exit, hsame.timer⟩

theorem Stored.reportRuns (h : m.Stored) {rep : Procs.Report} (hr : m.report t rep = some r) :
    ∃ m', r = .ok m' ∧ SameStored m m' := by
  obtain ⟨r', -, rfl⟩ := map_eq_some_iff.mp hr
  split
  · exact ⟨_, rfl, rfl, rfl⟩
  rename_i T _
  split
  · exact ⟨_, rfl, rfl, rfl⟩
  rename_i q _
  split
  · obtain ⟨m', hm', hsame⟩ := sendTo_ok (m := { m with sys := r'.1 })
      (inRange_of_lt (h.exit T.group)) q SI_KERNEL []
    exact ⟨m', hm', hsame.exit, hsame.timer⟩
  · exact ⟨_, rfl, rfl, rfl⟩

/-! ## Storing numbers -/

/-- A slot gets no timer, or one with a number that may be sent. -/
theorem Stored.setTimer (h : m.Stored) (g : Pid) (i : Nat) {slot : Option PosixTimer}
    (hslot : ∀ tm, slot = some tm → tm.threadPid ≠ none → InRange tm.signal) :
    { m with timers := update m.timers g (update (m.timers g) i slot) }.Stored := by
  refine ⟨h.exit, ?_⟩
  intro g' i' tm htm hpid
  dsimp only at htm
  by_cases hg : g' = g
  · subst hg
    rw [update_self] at htm
    by_cases hi : i' = i
    · rw [hi, update_self] at htm
      exact hslot tm htm hpid
    rw [update_of_ne hi] at htm
    exact h.timer g' i' tm htm hpid
  · rw [update_of_ne hg] at htm
    exact h.timer g' i' tm htm hpid

/-- The timer that a `timer_create` sets up sends a number that may be sent. -/
def TimerOk (clock : Bool) (event : Option SigEvent) (written : Bool) : Prop :=
  ∀ ev, clock = true → event = some ev → written = true →
    ev.method = SIGEV_SIGNAL ∨ ev.method = SIGEV_THREAD_ID → InRange ev.signo.toInt

theorem Stored.sysTimerCreate (h : m.Stored) (t : Pid) {clock written : Bool}
    {event : Option SigEvent} (hev : TimerOk clock event written) :
    (m.sysTimerCreate t clock event written).1.Stored := by
  unfold Mail.sysTimerCreate
  split
  · exact h
  rename_i hclock
  split
  · rename_i ev g _
    split
    · exact h
    split
    · exact h
    split
    · exact h
    rename_i i _
    split
    · rename_i hwritten
      apply h.setTimer g i
      intro tm htm hpid
      cases htm
      refine hev ev (by simpa using hclock) rfl hwritten ?_
      by_contra hmethod
      push Not at hmethod
      exact hpid (by simp [newTimer, hmethod])
    · exact h
  · exact h

theorem Stored.sysTimerDelete (h : m.Stored) (t : Pid) (id : Nat) :
    (m.sysTimerDelete t id).1.Stored := by
  unfold Mail.sysTimerDelete
  split
  · exact h
  rename_i g _
  split
  · exact h
  exact h.setTimer g id nofun

theorem Stored.clone (h : m.Stored) {p : Pid} {flags : BitVec 32} {copy : Nat} {e : Option Errno}
    (hflags : accepts flags = true → (flags &&& CSIGNAL).toNat < NUM_SIGS)
    (hr : m.clone t p flags copy = some (m', e)) : m'.Stored := by
  unfold Mail.clone at hr
  split at hr
  · rename_i haccepts
    obtain ⟨r, -, hm'⟩ := map_eq_some_iff.mp hr
    obtain ⟨rfl, -⟩ := hm'
    refine ⟨?_, ?_⟩
    · intro q
      dsimp only
      by_cases hq : q = p
      · subst hq
        rw [update_self]
        exact hflags haccepts
      · rw [update_of_ne hq]
        exact h.exit q
    intro g i tm htm hpid
    dsimp only at htm
    split at htm
    · exact h.timer g i tm htm hpid
    by_cases hg : g = p
    · -- the timers are those of the caller's group
      subst hg
      rw [update_self] at htm
      cases hgroup : m.procs.groupOf t with
      | none => exact h.timer g i tm (by simpa [hgroup] using htm) hpid
      | some g' => exact h.timer g' i tm (by simpa [hgroup] using htm) hpid
    · rw [update_of_ne hg] at htm
      exact h.timer g i tm htm hpid
  · simp only [some.injEq, Prod.mk.injEq] at hr
    exact hr.1 ▸ h

/-! ## Runs -/

/-- What has to hold of the numbers that the guest gives, in the calls that get as far as using
them. -/
def CallOk : Call → Prop
  | .rtSigaction _ signum new readable old size =>
    size = 8 → (new.isSome = true → readable = true) → NoEntryBelow signum.toInt new old
  | .clone _ _ flags _ => accepts flags = true → (flags &&& CSIGNAL).toNat < NUM_SIGS
  | .timerCreate _ clock event written => TimerOk clock event written
  | _ => True

/-- `rt_sigaction` is right as long as it is not asked for an entry below the table. -/
theorem sysRtSigaction_answers {signum size : BitVec 32} {new : Option SigAction}
    {readable old : Bool} (h : CallOk (.rtSigaction t signum new readable old size)) :
    m.Answers (m.sysRtSigaction t signum new readable old size) := by
  unfold sysRtSigaction
  split
  · exact answers_same m _
  rename_i hsize
  split
  · exact answers_same m _
  rename_i hread
  have hentry := h (not_not.mp hsize) (by simpa using hread)
  obtain ⟨r, hr⟩ := (doSigactionNumber_ok_iff (m.sig t).action signum.toInt new old).mpr hentry
  rw [hr]
  cases r with
  | error e => exact answers_same m _
  | ok action => exact ⟨m.publish t action, none, rfl, rfl, rfl⟩

theorem Answers.settle {r : Except Fault (Mail × Option Errno)} (h : m.Answers r) (hm : m.Stored) :
    (m.settle r).1.Stored ∧ ∃ e, (m.settle r).2 = .ret e := by
  obtain ⟨m', e, rfl, hsame⟩ := h
  exact ⟨hsame.stored hm, e, rfl⟩

theorem answers_quiet (h : ∃ m', r = .ok m' ∧ SameStored m m') : m.Answers (quiet r) := by
  obtain ⟨m', rfl, hsame⟩ := h
  exact ⟨m', none, rfl, hsame⟩

/-- **One step.** A call with numbers in range keeps the stored ones in range and has no fault. -/
theorem step_stored {call : Call} {o : Outcome} (h : m.Stored) (hcall : CallOk call)
    (hstep : machine.step m call = some (m', o)) : m'.Stored ∧ ∃ e, o = .ret e := by
  -- a call whose answer is known settles the step
  have hsettle : ∀ r, m.Answers r → m.settle r = (m', o) → m'.Stored ∧ ∃ e, o = .ret e := by
    intro r hr heq
    have hres := hr.settle h
    rw [heq] at hres
    exact hres
  rw [machine_step] at hstep
  cases call with
  | rtSigaction t signum new readable old size =>
    exact hsettle _ (sysRtSigaction_answers hcall) (some.inj hstep)
  | kill c pid sig => exact hsettle _ (doKill_answers m c _ sig 0) (some.inj hstep)
  | tgkill c tgid tid sig =>
    refine hsettle _ ?_ (some.inj hstep)
    unfold sysTgkill
    split
    · exact answers_same m _
    · exact doKill_answers m c _ sig _
  | tkill c tid sig =>
    refine hsettle _ ?_ (some.inj hstep)
    unfold sysTkill
    split
    · exact answers_same m _
    · exact doKill_answers m c _ sig 0
  | clone t p flags copy =>
    obtain ⟨r, hr, heq⟩ := map_eq_some_iff.mp hstep
    obtain ⟨rfl, rfl⟩ := heq
    exact ⟨h.clone hcall hr, _, rfl⟩
  | timerCreate t clock event written =>
    cases hstep
    exact ⟨h.sysTimerCreate t hcall, _, rfl⟩
  | timerDelete t id =>
    cases hstep
    exact ⟨h.sysTimerDelete t id, _, rfl⟩
  | expire g id =>
    obtain ⟨tm, htm, heq⟩ := map_eq_some_iff.mp hstep
    exact hsettle _ (answers_quiet (h.posixTimerCallback htm)) heq
  | exit t status fields =>
    obtain ⟨r, hr, heq⟩ := map_eq_some_iff.mp hstep
    exact hsettle _ (answers_quiet (h.exitRuns hr)) heq
  | report t rep =>
    obtain ⟨r, hr, heq⟩ := map_eq_some_iff.mp hstep
    exact hsettle _ (answers_quiet (h.reportRuns hr)) heq
  | process op =>
    have hsome : ∃ r, m.settle (.ok ({ m with sys := r }, none)) = (m', o) := by
      cases op with
      | clone _ _ _ => cases hstep
      | exit _ _ => cases hstep
      | report _ _ => cases hstep
      | setpgid _ _ _ | setsid _ | wait _ _ | wake _ _ =>
        obtain ⟨r, -, heq⟩ := map_eq_some_iff.mp hstep
        exact ⟨r.1, heq⟩
    obtain ⟨r, heq⟩ := hsome
    refine hsettle _ ?_ heq
    exact ⟨_, none, rfl, rfl, rfl⟩
  | own p op =>
    have hsome : ∃ sig, m.settle (.ok ({ m with sig := sig }, none)) = (m', o) := by
      cases op with
      | sigaction _ _ => cases hstep
      | _ =>
        obtain ⟨r, -, heq⟩ := map_eq_some_iff.mp hstep
        exact ⟨_, heq⟩
    obtain ⟨sig, heq⟩ := hsome
    refine hsettle _ ?_ heq
    exact ⟨_, none, rfl, rfl, rfl⟩

/-- **Every number that is used is one of a signal.** In a run in which the guest gives
`rt_sigaction` no negative number with an action to read or write, `clone` an exit signal below
`NUM_SIGS`, and `timer_create` a number from 0 to `NUM_SIGS - 1` whenever the timer is to send it,
no call ends in a fault. A call that is refused before it uses the number may have any. -/
theorem run_numbers_ok {calls : List Call} {m : Mail} {outs : List Outcome}
    (hcalls : ∀ call ∈ calls, CallOk call) (hrun : machine.run init calls = some (m, outs)) :
    m.Stored ∧ ∀ o ∈ outs, ∃ e, o = .ret e := by
  have halong : machine.Along (fun _ call => CallOk call) init calls :=
    Machine.along_of_forall (fun call hcall _ => hcalls call hcall) init
  refine ⟨?_, ?_⟩
  · exact Machine.run_inv (fun m call m' o hm hcall hstep => (step_stored hm hcall hstep).1)
      init_stored halong hrun
  exact Machine.run_outs (fun m call m' o hm hcall hstep => step_stored hm hcall hstep)
    init_stored halong hrun

/-- The first process starts another with `SIGCHLD` as its exit signal, which exits, and a timer of
its own for `SIGUSR1` goes off. -/
theorem run_numbers_ok_child :
    (∀ o ∈ [Outcome.ret none, .ret none, .ret none, .ret none], ∃ e, o = Outcome.ret e) ∧
      machine.outputs init
          [.clone 1 2 17 1, .exit 2 0 [], .timerCreate 1 true (some ⟨10, SIGEV_THREAD_ID, 1⟩) true,
            .expire 1 0] =
        some [.ret none, .ret none, .ret none, .ret none] := by
  have hout : machine.outputs init
      [.clone 1 2 17 1, .exit 2 0 [], .timerCreate 1 true (some ⟨10, SIGEV_THREAD_ID, 1⟩) true,
        .expire 1 0] = some [.ret none, .ret none, .ret none, .ret none] := by
    decide
  obtain ⟨⟨m, outs⟩, hrun, houts⟩ := map_eq_some_iff.mp hout
  obtain rfl : outs = [.ret none, .ret none, .ret none, .ret none] := houts
  refine ⟨(run_numbers_ok ?_ hrun).2, hout⟩
  intro call hcall
  simp only [List.mem_cons, List.not_mem_nil, or_false] at hcall
  rcases hcall with rfl | rfl | rfl | rfl
  · intro _
    exact show ((17 : BitVec 32) &&& CSIGNAL).toNat < NUM_SIGS by decide
  · trivial
  · intro ev _ hev _ _
    cases hev
    exact show InRange (10 : BitVec 32).toInt by decide
  · trivial

/-- The three ways in. `rt_sigaction` for signal -1 writes below the table of actions. A child
whose exit signal is 200 exits, and a timer for signal 100 goes off: `signal_action` is given the
number. -/
theorem numbers_out_of_range :
    machine.outputs init [.rtSigaction 1 0xffffffff (some SigAction.default) true false 8] =
        some [.fault (.index (-1))] ∧
      machine.outputs init [.clone 1 2 200 1, .exit 2 0 []] =
        some [.ret none, .fault (.number 200)] ∧
      machine.outputs init
          [.timerCreate 1 true (some ⟨100, SIGEV_THREAD_ID, 1⟩) true, .expire 1 0] =
        some [.ret none, .fault (.number 100)] := by
  refine ⟨?_, ?_, ?_⟩
  · decide
  · decide
  · decide

end Mail

end Ish.Signal
