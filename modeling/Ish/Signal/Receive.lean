import Ish.Signal.Basic

set_option autoImplicit false

/-! # Receiving signals

The loop of `receive_signals` (`kernel/signal.c`) and the machine of one task: its own calls, the
signals it is sent, and the actions that the threads of its process set.

The loop runs under the lock of the signal handlers and gives it up only when the task is traced and
stops. So a call is one step up to such a stop, and one step from it on. The list may grow behind
the loop's next pointer in between; if that was the head already, the loop ends without seeing what
came.

The lock is a plain mutex, and there are two ways to take it again under the loop: a handler frame
that cannot be written makes `receive_signal` call `deliver_signal`, and a traced task sends a
signal to its parent before it stops, who may share its handlers. The thread then waits for itself.
-/

namespace Ish.Signal

open Option Ish.Lib

/-- What the loop does with a signal, as far as others can see it. -/
inductive Event where
  /-- A handler frame was built; `current->blocked` at that moment, and what the handlers entered
  before it in the same call have added to it. -/
  | frame (sig : Sig) (blocked entered : Sigset)
  | stop (sig : Sig)
  | exit (sig : Sig)
  | traceStop (sig : Sig)
deriving DecidableEq

/-- What a handler adds to the mask. -/
def handlerMask (action : SigAction) (sig : Sig) : Sigset :=
  (if action.flags &&& SA_NODEFER = 0 then sigMask sig else 0) ||| action.mask

/-- `SA_RESETHAND`. -/
def resetHandler (action : Sig → SigAction) (sig : Sig) : Sig → SigAction :=
  if (action sig).flags &&& SA_RESETHAND = 0 then action
  else Function.update action sig SigAction.default

inductive Received where
  | goOn (t : SigTask) (entered : Sigset) (events : List Event)
  | exit
  | deadlock (t : SigTask) (events : List Event)

/-- `receive_signal`; `written` is whether the frame can be written. -/
def receiveSignal (t : SigTask) (info : SigInfo) (written : Bool) (entered : Sigset) : Received :=
  match signalAction t.action info.sig with
  | .ignore => .goOn t entered []
  | .stop =>
    .goOn { t with stopped := true, groupExitCode := info.sig.num <<< 8 ||| 0x7f } entered
      [.stop info.sig]
  | .kill => .exit
  | .callHandler =>
    let action := t.action info.sig
    let t1 := { t with blocked := t.blocked ||| handlerMask action info.sig }
    let events := [.frame info.sig t.blocked entered]
    if written then
      .goOn { t1 with action := resetHandler t.action info.sig }
        (entered ||| handlerMask action info.sig) events
    else .deadlock t1 events

/-- The loop, with `passed` left in the queue and the given entries still to visit. -/
def receiveLoop (blocked : Sigset) (written : SigInfo → Bool) :
    List SigInfo → List SigInfo → SigTask → Sigset → SigTask × List Event
  | passed, [], t, _ => ({ t with queue := passed, pc := .running }, [])
  | passed, e :: todo, t, entered =>
    if sigsetHas blocked e.sig then receiveLoop blocked written (passed ++ [e]) todo t entered
    else
      let t1 := { t with pending := sigsetDel t.pending e.sig, queue := passed ++ todo }
      if t1.traced ∧ e.sig ≠ SIGKILL then
        if t1.parentShares then ({ t1 with pc := .deadlocked }, [])
        else ({ t1 with pc := .inStop blocked passed.length todo.isEmpty }, [.traceStop e.sig])
      else
        match receiveSignal t1 e (written e) entered with
        | .goOn t2 entered2 events =>
          let r := receiveLoop blocked written passed todo t2 entered2
          (r.1, events ++ r.2)
        | .exit => ({ t1 with pc := .exit }, [.exit e.sig])
        | .deadlock t2 events => ({ t2 with pc := .deadlocked }, events)

/-- The mask that the loop tests. -/
def callMask (t : SigTask) : Sigset :=
  if t.hasSavedMask then t.blocked &&& t.savedMask else t.blocked

/-- The mask is the saved one again. -/
def restoreSaved (t : SigTask) : SigTask :=
  if t.hasSavedMask then { t with hasSavedMask := false, blocked := t.savedMask } else t

def receiveSignals (t : SigTask) (written : SigInfo → Bool) : SigTask × List Event :=
  receiveLoop (callMask t) written [] t.queue (restoreSaved t) 0

/-- The rest of `receive_signals` after a stop. -/
def resumeSignals (t : SigTask) (blocked : Sigset) (passed : Nat) (atEnd : Bool)
    (written : SigInfo → Bool) : SigTask × List Event :=
  if atEnd then ({ t with pc := .running }, [])
  else receiveLoop blocked written (t.queue.take passed) (t.queue.drop passed) t 0

/-! ## Waiting for a signal -/

/-- `sys_rt_sigtimedwait` up to `wait_for`. -/
def sigtimedwaitEnter (t : SigTask) (set : Sigset) : SigTask :=
  { t with waiting := set, pc := .inWait set }

/-- The rest of it. `wait_for` has returned `_ETIMEDOUT`, or another number but zero. The entry is
taken from the queue; its bit in `pending` is not cleared. -/
def sigtimedwaitLeave (t : SigTask) (set : Sigset) (timedOut : Bool) : SigTask × Option SigInfo :=
  let t1 := { t with waiting := 0, pc := .running }
  if timedOut then (t1, none)
  else
    match t.queue.find? (fun e => sigsetHas set e.sig) with
    | none => (t1, none)
    | some info =>
      ({ t1 with queue := t.queue.eraseP (fun e => sigsetHas set e.sig) }, some info)

/-! ## The machine -/

inductive Op where
  /-- Done by any thread. -/
  | send (sig : Option Sig) (info : SigInfo)
  | deliver (sig : Sig) (info : SigInfo)
  | sigaction (sig : Sig) (action : SigAction)
  /-- Done by the task itself. -/
  | trySelf (sig : Sig)
  | sigprocmask (how : How) (set : Sigset)
  | setTemp (mask : Sigset)
  /-- The mask that `sys_sigreturn` or `sys_rt_sigreturn` reads from the frame. -/
  | sigreturn (mask : Sigset)
  | sigtimedwait (set : Sigset)
  | sigtimedwaitDone (timedOut : Bool)
  | receive (written : SigInfo → Bool)
  | resume (written : SigInfo → Bool)
  /-- `PTRACE_TRACEME`, `exit`, or the loss of the parent. -/
  | becomes (traced parentShares exiting : Bool)
  /-- `SIGKILL` found pending during a stop. -/
  | killedInStop

/-- One step. A thread that waits for a lock that it holds holds up everybody. -/
def sigStep (t : SigTask) : Op → Option (SigTask × List Event)
  | .send sig info => if t.pc = .deadlocked then none else some (sendSignal t sig info, [])
  | .deliver sig info => if t.pc = .deadlocked then none else some (deliverSignal t sig info, [])
  | .sigaction sig action =>
    if t.pc = .deadlocked then none else (doSigaction t sig action).map (fun t' => (t', []))
  | .trySelf sig =>
    if t.pc = .running ∧ (sig = SIGTTIN ∨ sig = SIGTTOU) then some ((trySelfSignal t sig).1, [])
    else none
  | .sigprocmask how set =>
    if t.pc = .running then some (doSigprocmask t how set, []) else none
  | .setTemp mask => if t.pc = .running then some (sigmaskSetTemp t mask, []) else none
  | .sigreturn mask => if t.pc = .running then some (sigmaskSet t mask, []) else none
  | .sigtimedwait set =>
    if t.pc = .running ∧ t.waiting = 0 then some (sigtimedwaitEnter t set, []) else none
  | .sigtimedwaitDone timedOut =>
    match t.pc with
    | .inWait set => some ((sigtimedwaitLeave t set timedOut).1, [])
    | _ => none
  | .receive written => if t.pc = .running then some (receiveSignals t written) else none
  | .becomes traced parentShares exiting =>
    if t.pc = .running then
      some ({ t with traced := traced, parentShares := parentShares, exiting := exiting }, [])
    else none
  | .resume written =>
    match t.pc with
    | .inStop blocked passed atEnd => some (resumeSignals t blocked passed atEnd written)
    | _ => none
  | .killedInStop =>
    match t.pc with
    | .inStop _ _ _ =>
      if sigsetHas t.pending SIGKILL then some ({ t with pc := .exit }, [.exit SIGKILL])
      else none
    | _ => none

def sigMachine : Machine SigTask Op (List Event) := ⟨sigStep⟩

theorem sigMachine_step (t : SigTask) (op : Op) : sigMachine.step t op = sigStep t op := rfl

/-! ## What one signal does -/

section ReceiveSignal

variable {t t' : SigTask} {e : SigInfo} {w : Bool} {entered entered' : Sigset}
  {events : List Event}

/-- The three ways in which the loop goes on after a signal. -/
theorem receiveSignal_goOn (h : receiveSignal t e w entered = .goOn t' entered' events) :
    (signalAction t.action e.sig = .ignore ∧ t' = t ∧ entered' = entered ∧ events = []) ∨
    (signalAction t.action e.sig = .stop ∧
      t' = { t with stopped := true, groupExitCode := e.sig.num <<< 8 ||| 0x7f } ∧
      entered' = entered ∧ events = [.stop e.sig]) ∨
    (signalAction t.action e.sig = .callHandler ∧ w = true ∧
      t' = { t with
        blocked := t.blocked ||| handlerMask (t.action e.sig) e.sig
        action := resetHandler t.action e.sig } ∧
      entered' = entered ||| handlerMask (t.action e.sig) e.sig ∧
      events = [.frame e.sig t.blocked entered]) := by
  unfold receiveSignal at h
  cases hact : signalAction t.action e.sig with
  | ignore =>
    simp only [hact, Received.goOn.injEq] at h
    exact .inl ⟨rfl, h.1.symm, h.2.1.symm, h.2.2.symm⟩
  | kill => simp [hact] at h
  | stop =>
    simp only [hact, Received.goOn.injEq] at h
    exact .inr (.inl ⟨rfl, h.1.symm, h.2.1.symm, h.2.2.symm⟩)
  | callHandler =>
    simp only [hact] at h
    split at h
    · rename_i hw
      simp only [Received.goOn.injEq] at h
      exact .inr (.inr ⟨rfl, hw, h.1.symm, h.2.1.symm, h.2.2.symm⟩)
    · simp at h

theorem receiveSignal_deadlock (h : receiveSignal t e w entered = .deadlock t' events) :
    signalAction t.action e.sig = .callHandler ∧ w = false ∧
      t' = { t with blocked := t.blocked ||| handlerMask (t.action e.sig) e.sig } ∧
      events = [.frame e.sig t.blocked entered] := by
  unfold receiveSignal at h
  cases hact : signalAction t.action e.sig with
  | kill => simp [hact] at h
  | ignore => simp [hact] at h
  | stop => simp [hact] at h
  | callHandler =>
    simp only [hact] at h
    split at h
    · simp at h
    rename_i hw
    simp only [Received.deadlock.injEq] at h
    exact ⟨rfl, by simpa using hw, h.1.symm, h.2.symm⟩

/-- A signal touches neither the pending set nor the list of the loop. -/
theorem receiveSignal_frame (h : receiveSignal t e w entered = .goOn t' entered' events) :
    t'.pending = t.pending ∧ t'.queue = t.queue ∧ t'.traced = t.traced := by
  rcases receiveSignal_goOn h with ⟨-, rfl, -⟩ | ⟨-, rfl, -⟩ | ⟨-, -, rfl, -⟩ <;>
    exact ⟨rfl, rfl, rfl⟩

end ReceiveSignal

/-- **The steps of the machine.** -/
inductive Step (t : SigTask) : Op → SigTask → List Event → Prop
  | send (sig : Option Sig) (info : SigInfo) : Step t (.send sig info) (sendSignal t sig info) []
  | deliver (sig : Sig) (info : SigInfo) :
    Step t (.deliver sig info) (deliverSignalUnlocked t sig info) []
  | sigaction (sig : Sig) (action : SigAction) :
    Step t (.sigaction sig action) { t with action := Function.update t.action sig action } []
  | trySelf (sig : Sig) (hpc : t.pc = .running) : Step t (.trySelf sig) (trySelfSignal t sig).1 []
  | sigprocmask (how : How) (set : Sigset) (hpc : t.pc = .running) :
    Step t (.sigprocmask how set) (doSigprocmask t how set) []
  | setTemp (mask : Sigset) (hpc : t.pc = .running) :
    Step t (.setTemp mask) (sigmaskSetTemp t mask) []
  | sigreturn (mask : Sigset) (hpc : t.pc = .running) :
    Step t (.sigreturn mask) (sigmaskSet t mask) []
  | sigtimedwait (set : Sigset) (hpc : t.pc = .running) :
    Step t (.sigtimedwait set) (sigtimedwaitEnter t set) []
  | sigtimedwaitDone {set : Sigset} (timedOut : Bool) (hpc : t.pc = .inWait set) :
    Step t (.sigtimedwaitDone timedOut) (sigtimedwaitLeave t set timedOut).1 []
  | receive (written : SigInfo → Bool) (hpc : t.pc = .running) :
    Step t (.receive written) (receiveSignals t written).1 (receiveSignals t written).2
  | resume {copy : Sigset} {passed : Nat} {atEnd : Bool} (written : SigInfo → Bool)
    (hpc : t.pc = .inStop copy passed atEnd) :
    Step t (.resume written) (resumeSignals t copy passed atEnd written).1
      (resumeSignals t copy passed atEnd written).2
  | becomes (traced parentShares exiting : Bool) (hpc : t.pc = .running) :
    Step t (.becomes traced parentShares exiting)
      { t with traced := traced, parentShares := parentShares, exiting := exiting } []
  | killedInStop : Step t .killedInStop { t with pc := .exit } [.exit SIGKILL]

theorem sigMachine_cases {t t' : SigTask} {op : Op} {events : List Event}
    (h : sigMachine.step t op = some (t', events)) : Step t op t' events := by
  rw [sigMachine_step] at h
  cases op with
  | send sig info | deliver sig info =>
    simp only [sigStep, ite_none_left_eq_some, some.injEq, Prod.mk.injEq] at h
    obtain ⟨-, rfl, rfl⟩ := h
    constructor
  | sigaction sig action =>
    simp only [sigStep, ite_none_left_eq_some, map_eq_some_iff, doSigaction,
      ite_none_right_eq_some, some.injEq, Prod.mk.injEq] at h
    obtain ⟨-, t1, ⟨-, rfl⟩, rfl, rfl⟩ := h
    constructor
  | trySelf _ | sigprocmask _ _ | setTemp _ | sigreturn _ | sigtimedwait _ | receive _
  | becomes _ _ _ =>
    simp only [sigStep, ite_none_right_eq_some, some.injEq] at h
    obtain ⟨rfl, rfl⟩ := Prod.ext_iff.mp h.2
    constructor
    first | exact h.1 | exact h.1.1
  | sigtimedwaitDone _ | resume _ =>
    simp only [sigStep] at h
    split at h
    · obtain ⟨rfl, rfl⟩ := Prod.ext_iff.mp (some.inj h)
      constructor
      assumption
    · cases h
  | killedInStop =>
    simp only [sigStep] at h
    split at h
    · simp only [ite_none_right_eq_some, some.injEq, Prod.mk.injEq] at h
      obtain ⟨-, rfl, rfl⟩ := h
      constructor
    · cases h

end Ish.Signal
