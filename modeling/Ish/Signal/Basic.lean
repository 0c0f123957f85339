import Ish.Lib.Machine

set_option autoImplicit false

/-! # Signals of a task

The signal state of one task (`kernel/task.h`) and the functions of `kernel/signal.c` that change
it: sending, the actions of the process, and the masks. Sets of signals are the 64-bit words of
the source.

Every other task reaches this state only by sending a signal or, in the same process, by changing
an action, each under the lock of the signal handlers. So the interleavings of a whole system are,
seen from one task, the sequences of its own calls and of what others do to it.
-/

namespace Ish.Signal

open Ish.Lib BitVec

def NUM_SIGS : Nat := 64

/-- A signal number that `sig_mask` accepts. -/
structure Sig where
  num : Nat
  pos : 1 ≤ num
  lt : num < NUM_SIGS
deriving DecidableEq

/-! ## Sets of signals -/

abbrev Sigset := BitVec 64

def sigMask (sig : Sig) : Sigset := 1#64 <<< (sig.num - 1)

def sigsetHas (set : Sigset) (sig : Sig) : Bool := set &&& sigMask sig != 0

def sigsetAdd (set : Sigset) (sig : Sig) : Sigset := set ||| sigMask sig

def sigsetDel (set : Sigset) (sig : Sig) : Sigset := set &&& ~~~ sigMask sig

theorem sigsetHas_eq (set : Sigset) (sig : Sig) :
    sigsetHas set sig = set.getLsbD (sig.num - 1) := by
  have hlt : sig.num - 1 < 64 := by
    have := sig.lt
    simp only [NUM_SIGS] at this
    omega
  have hmask : sigMask sig = twoPow 64 (sig.num - 1) := (twoPow_eq 64 _).symm
  have hne : twoPow 64 (sig.num - 1) ≠ 0#64 := by
    intro h
    have hbit := congrArg (fun x => x.getLsbD (sig.num - 1)) h
    simp [hlt] at hbit
  unfold sigsetHas
  rw [hmask, and_twoPow]
  cases h : set.getLsbD (sig.num - 1) with
  | false => simp
  | true => simpa using hne

theorem sigMask_getLsbD (a b : Sig) : (sigMask a).getLsbD (b.num - 1) = decide (a = b) := by
  have ha := a.pos
  have hb := b.pos
  have hlt : a.num - 1 < 64 := by
    have := a.lt
    simp only [NUM_SIGS] at this
    omega
  have hmask : sigMask a = twoPow 64 (a.num - 1) := (twoPow_eq 64 _).symm
  have hiff : a.num - 1 = b.num - 1 ↔ a = b := by
    constructor
    · intro h
      cases a
      cases b
      simp only [Sig.mk.injEq] at *
      omega
    · rintro rfl
      rfl
  rw [hmask, getLsbD_twoPow]
  simp [hlt, hiff]

@[simp] theorem sigsetHas_zero (sig : Sig) : sigsetHas 0#64 sig = false := by
  simp [sigsetHas_eq]

@[simp] theorem sigsetHas_or (x y : Sigset) (sig : Sig) :
    sigsetHas (x ||| y) sig = (sigsetHas x sig || sigsetHas y sig) := by
  simp [sigsetHas_eq]

@[simp] theorem sigsetHas_and (x y : Sigset) (sig : Sig) :
    sigsetHas (x &&& y) sig = (sigsetHas x sig && sigsetHas y sig) := by
  simp [sigsetHas_eq]

@[simp] theorem sigsetHas_not (x : Sigset) (sig : Sig) :
    sigsetHas (~~~ x) sig = !sigsetHas x sig := by
  have hlt : sig.num - 1 < 64 := by
    have := sig.lt
    simp only [NUM_SIGS] at this
    omega
  simp [sigsetHas_eq, hlt]

@[simp] theorem sigsetHas_sigMask (a b : Sig) : sigsetHas (sigMask a) b = decide (a = b) := by
  rw [sigsetHas_eq, sigMask_getLsbD]

@[simp] theorem sigsetHas_add (set : Sigset) (a b : Sig) :
    sigsetHas (sigsetAdd set a) b = (sigsetHas set b || decide (a = b)) := by
  simp [sigsetAdd]

@[simp] theorem sigsetHas_del (set : Sigset) (a b : Sig) :
    sigsetHas (sigsetDel set a) b = (sigsetHas set b && !decide (a = b)) := by
  simp [sigsetDel]

/-! ## Actions -/

def SIGKILL : Sig := ⟨9, by decide, by decide⟩
def SIGUSR1 : Sig := ⟨10, by decide, by decide⟩
def SIGUSR2 : Sig := ⟨12, by decide, by decide⟩
def SIGCHLD : Sig := ⟨17, by decide, by decide⟩
def SIGCONT : Sig := ⟨18, by decide, by decide⟩
def SIGSTOP : Sig := ⟨19, by decide, by decide⟩
def SIGTSTP : Sig := ⟨20, by decide, by decide⟩
def SIGTTIN : Sig := ⟨21, by decide, by decide⟩
def SIGTTOU : Sig := ⟨22, by decide, by decide⟩
def SIGURG : Sig := ⟨23, by decide, by decide⟩
def SIGWINCH : Sig := ⟨28, by decide, by decide⟩
def SIGIO : Sig := ⟨29, by decide, by decide⟩

def signalIsBlockable (sig : Sig) : Bool := sig != SIGKILL && sig != SIGSTOP

def UNBLOCKABLE_MASK : Sigset := sigMask SIGKILL ||| sigMask SIGSTOP

def SIG_DFL : UInt32 := 0
def SIG_IGN : UInt32 := 1

def SA_SIGINFO : UInt32 := 4
def SA_NODEFER : UInt32 := 0x40000000
def SA_RESETHAND : UInt32 := 0x80000000

structure SigAction where
  handler : UInt32
  flags : UInt32
  restorer : UInt32
  mask : Sigset

/-- What a zeroed `struct sigaction_` with a default handler is. -/
def SigAction.default : SigAction := ⟨SIG_DFL, 0, 0, 0⟩

inductive Action where
  | ignore
  | kill
  | callHandler
  | stop
deriving DecidableEq

/-- The `switch` of `signal_action`. -/
def defaultAction (sig : Sig) : Action :=
  if sig = SIGURG ∨ sig = SIGCONT ∨ sig = SIGCHLD ∨ sig = SIGIO ∨ sig = SIGWINCH then .ignore
  else if sig = SIGSTOP ∨ sig = SIGTSTP ∨ sig = SIGTTIN ∨ sig = SIGTTOU then .stop
  else .kill

def signalAction (action : Sig → SigAction) (sig : Sig) : Action :=
  if signalIsBlockable sig then
    if (action sig).handler = SIG_IGN then .ignore
    else if (action sig).handler ≠ SIG_DFL then .callHandler
    else defaultAction sig
  else defaultAction sig

theorem signalAction_sigkill (action : Sig → SigAction) : signalAction action SIGKILL = .kill := by
  simp [signalAction, signalIsBlockable, defaultAction, SIGKILL, SIGURG, SIGCONT, SIGCHLD, SIGIO,
    SIGWINCH, SIGSTOP, SIGTSTP, SIGTTIN, SIGTTOU]

theorem signalAction_sigstop (action : Sig → SigAction) : signalAction action SIGSTOP = .stop := by
  simp [signalAction, signalIsBlockable, defaultAction, SIGKILL, SIGURG, SIGCONT, SIGCHLD, SIGIO,
    SIGWINCH, SIGSTOP]

theorem defaultAction_ne_callHandler (sig : Sig) : defaultAction sig ≠ .callHandler := by
  unfold defaultAction
  split
  · simp
  split
  · simp
  · simp

/-! ## The state -/

/-- `struct siginfo_`; the union is its words. -/
structure SigInfo where
  sig : Sig
  sigErrno : UInt32
  code : UInt32
  fields : List UInt32

/-- Where the thread of the task is, as far as its signals are concerned. -/
inductive Pc where
  | running
  /-- In `signal_delivery_stop`, called from the loop of `receive_signals`: the copy of the mask
  that the loop tests, the number of entries of the queue that it has passed, and whether its
  next pointer is the head. -/
  | inStop (blocked : Sigset) (passed : Nat) (atEnd : Bool)
  /-- Asleep in `sys_rt_sigtimedwait`. -/
  | inWait (set : Sigset)
  /-- In `do_exit_group`. -/
  | exit
  /-- Waiting for a lock that it holds itself. -/
  | deadlocked
deriving DecidableEq

structure SigTask where
  action : Sig → SigAction
  blocked : Sigset
  pending : Sigset
  waiting : Sigset
  queue : List SigInfo
  savedMask : Sigset
  hasSavedMask : Bool
  traced : Bool
  /-- To send the exit signal to the parent takes the lock of the task's own handlers: the parent
  has the same ones, by `CLONE_SIGHAND`. -/
  parentShares : Bool
  /-- `zombie || exiting`. -/
  exiting : Bool
  /-- `group->stopped` and `group->group_exit_code`. -/
  stopped : Bool
  groupExitCode : Nat
  pc : Pc

/-- A task as `task_create_` leaves it, with any mask and actions of its parent. -/
structure SigTask.Fresh (t : SigTask) : Prop where
  pending : t.pending = 0
  queue : t.queue = []
  waiting : t.waiting = 0
  hasSavedMask : t.hasSavedMask = false
  pc : t.pc = .running

/-- The first task: every action is the default and nothing is blocked. -/
def initTask : SigTask where
  action := fun _ => SigAction.default
  blocked := 0
  pending := 0
  waiting := 0
  queue := []
  savedMask := 0
  hasSavedMask := false
  traced := false
  parentShares := false
  exiting := false
  stopped := false
  groupExitCode := 0
  pc := .running

theorem initTask_fresh : initTask.Fresh := ⟨rfl, rfl, rfl, rfl, rfl⟩

/-! ## Sending -/

def deliverSignalUnlocked (t : SigTask) (sig : Sig) (info : SigInfo) : SigTask :=
  if sigsetHas t.pending sig then t
  else
    { t with
      pending := sigsetAdd t.pending sig
      queue := t.queue ++ [{ info with sig := sig }] }

def deliverSignal (t : SigTask) (sig : Sig) (info : SigInfo) : SigTask :=
  deliverSignalUnlocked t sig info

/-- Signal zero, `none`, only tests whether the process exists. -/
def sendSignal (t : SigTask) (sig : Option Sig) (info : SigInfo) : SigTask :=
  match sig with
  | none => t
  | some sig =>
    if t.exiting then t
    else
      let t1 :=
        if signalAction t.action sig ≠ .ignore then deliverSignalUnlocked t sig info else t
      if sig = SIGCONT ∨ sig = SIGKILL then { t1 with stopped := false } else t1

/-- `SIGINFO_NIL`. -/
def sigInfoNil (sig : Sig) : SigInfo := ⟨sig, 0, 128, []⟩

def trySelfSignal (t : SigTask) (sig : Sig) : SigTask × Bool :=
  if signalAction t.action sig ≠ .ignore ∧ sigsetHas t.blocked sig = false then
    (deliverSignalUnlocked t sig (sigInfoNil sig), true)
  else (t, false)

/-! ## Actions and masks -/

/-- `none` is `_EINVAL`. -/
def doSigaction (t : SigTask) (sig : Sig) (action : SigAction) : Option SigTask :=
  if signalIsBlockable sig then some { t with action := Function.update t.action sig action }
  else none

def sigmaskSet (t : SigTask) (set : Sigset) : SigTask :=
  { t with blocked := set &&& ~~~ UNBLOCKABLE_MASK }

def sigmaskSetTemp (t : SigTask) (mask : Sigset) : SigTask :=
  sigmaskSet { t with savedMask := t.blocked, hasSavedMask := true } mask

inductive How where
  | block
  | unblock
  | setMask

def doSigprocmask (t : SigTask) (how : How) (set : Sigset) : SigTask :=
  match how with
  | .block => sigmaskSet t (t.blocked ||| set)
  | .unblock => sigmaskSet t (t.blocked &&& ~~~ set)
  | .setMask => sigmaskSet t set

end Ish.Signal
