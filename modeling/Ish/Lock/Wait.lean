import Ish.Lib.Machine
import Ish.Lock.Flock

set_option autoImplicit false

/-! # Processes that wait for locks

The record-lock calls of any number of threads on one inode, interleaved: `fcntl_setlk` under the
inode's lock, the sleep on `posix_unlock` and the test after it, and `file_lock_remove_owned_by`
when a descriptor is closed. One step is one stretch of code under the inode's lock, which is
given up only in `wait_for`. A sleeping thread is marked when `notify` is called; it may wake up
at any time, as `pthread_cond_wait` allows.

Whether a call may sleep is an argument of `fcntl_setlk`, and `sys_fcntl` computes it from the
command by comparing with the wrong constant in both branches (`mayBlock`). So nobody ever
sleeps. The machine takes that argument as a parameter.
-/

namespace Ish.Lock

open Function Ish.Lib

/-! ## The commands -/

def F_SETLK : Nat := 6
def F_SETLKW : Nat := 7
def F_SETLK64 : Nat := 13
def F_SETLKW64 : Nat := 14

/-- A command of `sys_fcntl` that sets a lock, with the structure it reads. -/
inductive SetlkCmd where
  | setlk (f : Flock32)
  | setlkw (f : Flock32)
  | setlk64 (f : Flock)
  | setlkw64 (f : Flock)

namespace SetlkCmd

def number : SetlkCmd → Nat
  | .setlk _ => F_SETLK
  | .setlkw _ => F_SETLKW
  | .setlk64 _ => F_SETLK64
  | .setlkw64 _ => F_SETLKW64

/-- The structure `sys_fcntl` passes on. -/
def flock : SetlkCmd → Flock
  | .setlk f => f.toFlock
  | .setlkw f => f.toFlock
  | .setlk64 f => f
  | .setlkw64 f => f

/-- The argument `blocking` that `sys_fcntl` passes on. -/
def mayBlock (cmd : SetlkCmd) : Bool :=
  match cmd with
  | .setlk _ => cmd.number == F_SETLKW64
  | .setlkw _ => cmd.number == F_SETLKW64
  | .setlk64 _ => cmd.number == F_SETLKW
  | .setlkw64 _ => cmd.number == F_SETLKW

/-- The command is one that waits: `F_SETLKW` or `F_SETLKW64`. -/
def waits : SetlkCmd → Bool
  | .setlk _ => false
  | .setlkw _ => true
  | .setlk64 _ => false
  | .setlkw64 _ => true

end SetlkCmd

/-! ## The machine -/

/-- A thread in `wait_for`: what it asked for, and whether `notify` was called since it last
tested. -/
structure Waiter (ω : Type) where
  request : FileLock ω
  notified : Bool
  deriving DecidableEq

/-- An inode: its locks and the threads asleep on `posix_unlock`. -/
structure Inode (τ ω : Type) where
  locks : List (FileLock ω)
  asleep : τ → Option (Waiter ω)

def Inode.start {τ ω : Type} (locks : List (FileLock ω)) : Inode τ ω :=
  { locks := locks, asleep := fun _ => none }

inductive LockAct (τ : Type) where
  | call (i : τ) (cmd : SetlkCmd) (fd : FdInfo)
  | wake (i : τ)
  | close (i : τ)

inductive LockOut where
  | ret (code : Int)
  | sleeps
  | closed
  deriving DecidableEq

section Machine

variable {τ ω : Type} [DecidableEq τ] [DecidableEq ω]

/-- `notify`. -/
def Inode.notify (s : Inode τ ω) (b : Bool) : Inode τ ω :=
  { s with asleep := fun j => (s.asleep j).map (fun w => { w with notified := w.notified || b }) }

/-- The loop of `fcntl_setlk` from a test on: it returns or sleeps. -/
def Inode.attempt (s : Inode τ ω) (i : τ) (request : FileLock ω) (blocking : Bool) :
    Inode τ ω × LockOut :=
  let r := fileLockAcquire s.locks request
  if r.err = EAGAIN then
    if blocking then
      let waiter : Waiter ω := { request := request, notified := false }
      ({ s with asleep := update s.asleep i (some waiter) }, .sleeps)
    else ({ s with asleep := update s.asleep i none }, .ret EAGAIN)
  else
    let s := { s with asleep := update s.asleep i none }
    ({ s.notify r.notified with locks := r.locks }, .ret r.err)

variable (table : τ → ω) (pid : τ → Int) (blocking : SetlkCmd → Bool)

/-- One step. Thread `i` has the descriptor table `table i`. -/
def Inode.step (s : Inode τ ω) : LockAct τ → Option (Inode τ ω × LockOut)
  | .call i cmd fd =>
    if (s.asleep i).isSome then none
    else
      match setlkRequest fd cmd.flock (table i) (pid i) with
      | .error e => some (s, .ret e)
      | .ok request => some (s.attempt i request (blocking cmd))
  | .wake i =>
    match s.asleep i with
    | none => none
    | some waiter => some (s.attempt i waiter.request true)
  | .close i => some ({ s with locks := s.locks.filter (fun l => l.owner ≠ table i) }, .closed)

def lockMachine : Machine (Inode τ ω) (LockAct τ) LockOut where
  step := Inode.step table pid blocking

variable {table pid blocking}

/-- A call by a thread that is awake. -/
theorem Inode.step_call {s : Inode τ ω} {i : τ} (hi : s.asleep i = none) (cmd : SetlkCmd)
    (fd : FdInfo) :
    s.step table pid blocking (.call i cmd fd)
      = match setlkRequest fd cmd.flock (table i) (pid i) with
        | .error e => some (s, .ret e)
        | .ok request => some (s.attempt i request (blocking cmd)) := by
  show (if (s.asleep i).isSome then none else _) = _
  rw [hi]
  rfl

theorem Inode.step_wake_none {s : Inode τ ω} {i : τ} (hi : s.asleep i = none) :
    s.step table pid blocking (.wake i) = none := by
  show (match s.asleep i with
    | none => none
    | some waiter => some (s.attempt i waiter.request true)) = _
  rw [hi]

end Machine

/-! ## What the calls promise -/

section Promises

variable {τ ω : Type}

/-- A waiting command does not return `_EAGAIN`, and the others do not sleep. -/
def LockAct.OutOk : LockAct τ → LockOut → Prop
  | .call _ cmd _, o => if cmd.waits then o ≠ .ret EAGAIN else o ≠ .sleeps
  | .wake _, o => o ≠ .ret EAGAIN
  | .close _, _ => True

variable [DecidableEq ω]

/-- Nobody sleeps, not notified since the last test, for a request that conflicts with no lock. -/
def Inode.NoLostWakeup (s : Inode τ ω) : Prop :=
  ∀ i w, s.asleep i = some w → w.notified = false →
    ∃ l ∈ s.locks, fileLocksConflict l w.request = true

variable [DecidableEq τ] (table : τ → ω) (pid : τ → Int)

/-- The step keeps the promises. -/
def Inode.StepKept (s : Inode τ ω) (a : LockAct τ) : Prop :=
  ∀ s' o, s.step table pid SetlkCmd.mayBlock a = some (s', o) → a.OutOk o ∧ s'.NoLostWakeup

/-- A waiting command that is not refused for another reason finds no conflicting lock. -/
def Inode.WaitFinds (s : Inode τ ω) : LockAct τ → Prop
  | .call i cmd fd =>
    cmd.waits = true →
      match setlkRequest fd cmd.flock (table i) (pid i) with
      | .error e => e ≠ EAGAIN
      | .ok request => ¬ Refused s.locks request
  | _ => True

/-- Nobody is asleep. -/
def Inode.Awake (s : Inode τ ω) : Prop := ∀ i, s.asleep i = none

variable {table pid}

omit [DecidableEq ω] [DecidableEq τ] in
theorem SetlkCmd.mayBlock_eq_false (cmd : SetlkCmd) : cmd.mayBlock = false := by
  cases cmd <;> rfl

theorem fileLockAcquire_err (locks : List (FileLock ω)) (request : FileLock ω) :
    (fileLockAcquire locks request).err = EAGAIN ↔ Refused locks request := by
  by_cases href : Refused locks request
  · rw [fileLockAcquire_refused href]
    exact ⟨fun _ => href, fun _ => rfl⟩
  have herr : (fileLockAcquire locks request).err = 0 := by rw [fileLockAcquire_granted href]
  rw [herr]
  exact ⟨fun h => absurd h (by decide), fun h => absurd h href⟩

/-- An attempt that may not block. -/
theorem Inode.attempt_false {s : Inode τ ω} (hs : s.Awake) (i : τ) (request : FileLock ω) :
    (s.attempt i request false).1.Awake ∧ (s.attempt i request false).2 ≠ .sleeps ∧
      ((s.attempt i request false).2 = .ret EAGAIN ↔ Refused s.locks request) := by
  have hawake : ∀ j, update s.asleep i none j = none := by
    intro j
    by_cases hj : j = i
    · rw [hj, update_self]
    rw [update_of_ne hj]
    exact hs j
  rw [← fileLockAcquire_err]
  unfold Inode.attempt
  simp only [Bool.false_eq_true, if_false]
  split
  · next herr => exact ⟨hawake, LockOut.noConfusion, ⟨fun _ => herr, fun _ => rfl⟩⟩
  rename_i herr
  refine ⟨?_, LockOut.noConfusion, ?_⟩
  · intro j
    show (update s.asleep i none j).map _ = none
    rw [hawake j]
    rfl
  constructor
  · intro h
    exact LockOut.ret.inj h
  intro h
  exact absurd h herr

/-- Nobody ever falls asleep. -/
theorem Inode.Awake.step {s s' : Inode τ ω} {a : LockAct τ} {o : LockOut} (hs : s.Awake)
    (hstep : s.step table pid SetlkCmd.mayBlock a = some (s', o)) : s'.Awake := by
  cases a with
  | call i cmd fd =>
    rw [Inode.step_call (hs i)] at hstep
    split at hstep
    · cases hstep
      exact hs
    rename_i request _
    rw [SetlkCmd.mayBlock_eq_false] at hstep
    have h := (Inode.attempt_false hs i request).1
    rw [Option.some.inj hstep] at h
    exact h
  | wake i =>
    rw [Inode.step_wake_none (hs i)] at hstep
    cases hstep
  | close i =>
    cases hstep
    exact hs

omit [DecidableEq τ] in
theorem Inode.Awake.noLostWakeup {s : Inode τ ω} (hs : s.Awake) : s.NoLostWakeup := by
  intro i w hw
  rw [hs i] at hw
  cases hw

/-- **One step keeps the promises** exactly when a waiting command has nothing to wait for. -/
theorem Inode.stepKept_iff {s : Inode τ ω} (hs : s.Awake) (a : LockAct τ) :
    s.StepKept table pid a ↔ s.WaitFinds table pid a := by
  have hrest : ∀ {s' : Inode τ ω} {o : LockOut},
      s.step table pid SetlkCmd.mayBlock a = some (s', o) → s'.NoLostWakeup :=
    fun hstep => (hs.step hstep).noLostWakeup
  cases a with
  | call i cmd fd =>
    have hstep : s.step table pid SetlkCmd.mayBlock (.call i cmd fd) = _ :=
      Inode.step_call (hs i) cmd fd
    rw [SetlkCmd.mayBlock_eq_false] at hstep
    show (∀ (s' : Inode τ ω) (o : LockOut), _ →
      (if cmd.waits then o ≠ .ret EAGAIN else o ≠ .sleeps) ∧ s'.NoLostWakeup) ↔
        (cmd.waits = true → _)
    cases hreq : setlkRequest fd cmd.flock (table i) (pid i) with
    | error e =>
      rw [hreq] at hstep
      constructor
      · intro h hw he
        have hout := (h s (.ret e) hstep).1
        rw [if_pos hw, he] at hout
        exact hout rfl
      intro h s' o hs'
      refine ⟨?_, hrest hs'⟩
      rw [hstep] at hs'
      cases hs'
      split
      · next hw => exact fun heq => h hw (LockOut.ret.inj heq)
      · exact LockOut.noConfusion
    | ok request =>
      rw [hreq] at hstep
      obtain ⟨-, hsleep, hret⟩ := Inode.attempt_false hs i request
      constructor
      · intro h hw href
        have hout := (h _ _ hstep).1
        rw [if_pos hw] at hout
        exact hout (hret.mpr href)
      intro h s' o hs'
      refine ⟨?_, hrest hs'⟩
      rw [hstep] at hs'
      have ho : (s.attempt i request false).2 = o := congrArg Prod.snd (Option.some.inj hs')
      rw [← ho]
      split
      · next hw => exact fun heq => h hw (hret.mp heq)
      · exact hsleep
  | wake i =>
    refine ⟨fun _ => trivial, fun _ s' o hs' => ?_⟩
    rw [Inode.step_wake_none (hs i)] at hs'
    cases hs'
  | close i => exact ⟨fun _ => trivial, fun _ s' o hs' => ⟨trivial, hrest hs'⟩⟩

/-- **The promises hold along a run** exactly when every waiting command finds nothing to wait
for. -/
theorem setlk_promises_iff (locks : List (FileLock ω)) (acts : List (LockAct τ)) :
    (lockMachine table pid SetlkCmd.mayBlock).Along (Inode.StepKept table pid)
        (.start locks) acts ↔
      (lockMachine table pid SetlkCmd.mayBlock).Along (Inode.WaitFinds table pid)
        (.start locks) acts := by
  apply Machine.along_congr (I := Inode.Awake)
  · intro s a hs
    exact Inode.stepKept_iff hs a
  · intro s a s1 o hs _ hstep
    exact hs.step hstep
  intro i
  rfl

end Promises

section TwoWriters

/-- A write lock on the first byte of a file. -/
def firstByte : Flock := { type := 1, whence := 0, start := 0, len := 1, pid := 0 }

/-- One process locks the byte; another asks for it with a command that waits. -/
def twoWriters : List (LockAct Bool) :=
  [.call false (.setlk64 firstByte) emptyFile, .call true (.setlkw64 firstByte) emptyFile]

/-- The second call returns `_EAGAIN`. -/
theorem setlkw_returns_eagain :
    (lockMachine id (fun _ => 1) SetlkCmd.mayBlock).outputs (.start []) twoWriters
        = some [.ret 0, .ret EAGAIN] ∧
      ¬ (lockMachine id (fun _ => 1) SetlkCmd.mayBlock).Along (Inode.StepKept id (fun _ => 1))
        (.start []) twoWriters := by
  have hout : (lockMachine id (fun _ => 1) SetlkCmd.mayBlock).outputs (.start []) twoWriters
      = some [.ret 0, .ret EAGAIN] := by decide
  refine ⟨hout, ?_⟩
  rintro ⟨-, hrest⟩
  obtain ⟨⟨s, os⟩, hrun, hos⟩ := Option.map_eq_some_iff.mp hout
  obtain ⟨s1, o1, os1, hs1, hrun1, hos1⟩ := Machine.run_cons_eq_some.mp hrun
  obtain ⟨s2, o2, os2, hs2, -, hos2⟩ := Machine.run_cons_eq_some.mp hrun1
  have ho2 : o2 = .ret EAGAIN := by
    have hlist : [LockOut.ret 0, .ret EAGAIN] = o1 :: o2 :: os2 := by
      rw [← hos2, ← hos1]
      exact hos.symm
    injection hlist with _ htail
    injection htail with h _
    exact h.symm
  exact ((hrest s1 o1 hs1).1 s2 o2 hs2).1 ho2

end TwoWriters

end Ish.Lock
