import Ish.Lib.Locks
import Ish.Signal.Numbers

set_option autoImplicit false

/-! # The locks of the kernel

The locks that the calls in these modules take, and the one path that almost all of them share: a
signal that is sent takes the lock of the handlers of its target. That lock is given up for a moment
to look for a condition that the target waits for. No task ever has one: nothing but `task_create_`
assigns to `waiting_cond`, and it assigns a null pointer.
-/

namespace Ish.Locking

open Ish.Lib Ish.Lib.LockEvent

open Ish.Process (Pid)

open Ish.Signal (Mail Sig)

inductive Lk where
  | pids
  | sighand (addr : Nat)
  | group (g : Pid)
  | waitingCond (t : Pid)
  | ptrace (t : Pid)
  | general (t : Pid)
  | vforkInfo (t : Pid)
  | mem (addr : Nat)
  /-- The lock of a table of open files, and those of an open file and of its list of polls. -/
  | files (f : Nat)
  | fd (f : Nat)
  | pollLock (f : Nat)
  | poll (p : Nat)
  | timer (x : Nat)
  | ttys
  /-- The lock of a terminal and that of its list of open files. -/
  | tty (y : Nat)
  | ttyFds (y : Nat)
deriving DecidableEq

def groupLock (m : Mail) (q : Pid) : Lk := .group ((m.procs.groupOf q).getD q)

section Send

variable {A : Type}

/-- `deliver_signal_unlocked` by `cur` to `q`, under the lock of the handlers. -/
def deliverPath (m : Mail) (cur q : Pid) (sig : Sig) : List (LockEvent Lk A) :=
  let t := m.sig q
  if Signal.sigsetHas t.pending sig then []
  else if Signal.sigsetHas (t.blocked &&& ~~~ t.waiting) sig && Signal.signalIsBlockable sig then []
  else if q ≠ cur then
    .release (.sighand (m.sighand q)) ::
      (locked (.waitingCond q) [] ++ [.acquire (.sighand (m.sighand q))])
  else []

def sendPath (m : Mail) (cur q : Pid) (sig : Option Sig) : List (LockEvent Lk A) :=
  match sig with
  | none => []
  | some sig =>
    if (m.sig q).exiting then []
    else
      locked (.sighand (m.sighand q))
          (if Signal.signalAction (m.sig q).action sig ≠ .ignore then deliverPath m cur q sig
            else []) ++
        if sig = Signal.SIGCONT ∨ sig = Signal.SIGKILL then locked (groupLock m q) [] else []

variable {ok : Set Lk → Lk → Prop} {act : Set Lk → A → Prop} {H : Set Lk}

/-- A lock that is taken and given back at once. -/
theorem neutral_locked_nil {l : Lk} (hok : ok H l) (h : l ∉ H) : Neutral ok act H (locked l []) :=
  Neutral.locked hok h neutral_nil

/-- The lock may be taken, and the thread does not have it. -/
structure Takes (ok : Set Lk → Lk → Prop) (H : Set Lk) (l : Lk) : Prop where
  ok : ok H l
  new : l ∉ H

theorem Takes.neutral {l : Lk} (h : Takes ok H l) : Neutral ok act H (locked l []) :=
  neutral_locked_nil h.ok h.new

theorem Takes.locked {l : Lk} (h : Takes ok H l) {es : List (LockEvent Lk A)}
    (hes : Neutral ok act (insert l H) es) : Neutral ok act H (locked l es) :=
  Neutral.locked h.ok h.new hes

theorem neutral_deliverPath {m : Mail} {q : Pid} (hsighand : Takes ok H (.sighand (m.sighand q)))
    (hwaiting : Takes ok H (.waitingCond q)) (cur : Pid) (sig : Sig) :
    Neutral ok act (insert (.sighand (m.sighand q)) H) (deliverPath m cur q sig) := by
  unfold deliverPath
  dsimp only
  split
  · exact neutral_nil
  split
  · exact neutral_nil
  split
  · -- without the lock of the handlers the locks are those from before
    have hout : next (insert (Lk.sighand (m.sighand q)) H)
        (.release (.sighand (m.sighand q)) : LockEvent Lk A) = H :=
      Set.insert_sdiff_self_of_notMem hsighand.new
    refine ⟨Set.mem_insert _ _, ?_⟩
    rw [hout, hwaiting.neutral.append_iff]
    exact ⟨hsighand.ok, rfl⟩
  · exact neutral_nil

/-- What is asked of the locks in hand for a signal to be sent. -/
theorem neutral_sendPath {m : Mail} {q : Pid} {sig : Option Sig}
    (hsighand : Takes ok H (.sighand (m.sighand q))) (hwaiting : Takes ok H (.waitingCond q))
    (hgroup : sig = some Signal.SIGCONT ∨ sig = some Signal.SIGKILL → Takes ok H (groupLock m q))
    (cur : Pid) : Neutral ok act H (sendPath m cur q sig) := by
  cases sig with
  | none => exact neutral_nil
  | some sig =>
    unfold sendPath
    dsimp only
    split
    · exact neutral_nil
    refine Neutral.append (hsighand.locked ?_) ?_
    · split
      · exact neutral_deliverPath hsighand hwaiting cur sig
      · exact neutral_nil
    split
    · rename_i hwakes
      refine (hgroup ?_).neutral
      rcases hwakes with rfl | rfl
      · exact .inl rfl
      · exact .inr rfl
    · exact neutral_nil

end Send

end Ish.Locking
