import Ish.Locking.Basic
import Ish.Signal.Frame

set_option autoImplicit false

/-! # The locks of a system call

The locks that `kill`, `timer_create` and `sigaltstack` take and give back, on every path through
them. A path is decided by the arguments of the guest, by the state of the system, and by which
copies from and to the guest and which allocations fail. Every access to the memory of a task takes
the lock of its memory for its time.
-/

namespace Ish.Locking

open Option Ish.Lib Ish.Lib.LockEvent

open Ish.Process (Pid Procs)

open Ish.Signal (Word Mail Caller Sig SigEvent StackT FrameTask)

abbrev Ev := LockEvent Lk Empty

/-- A lock may be taken by a thread that does not hold it. -/
def notHeld (H : Set Lk) (l : Lk) : Prop := l ∉ H

theorem takes_notHeld {H : Set Lk} {l : Lk} (h : l ∉ H) : Takes notHeld H l := ⟨h, h⟩

theorem takes_empty (l : Lk) : Takes notHeld ∅ l := takes_notHeld (Set.notMem_empty l)

def noWork (_ : Set Lk) (_ : Empty) : Prop := True

/-- From the locks `H` on, each lock is given back once, none is given back that is not held, and
none is taken twice. -/
def GivesBack (H : Set Lk) (es : List Ev) : Prop := Follows notHeld noWork (fun H' => H' = ∅) H es

/-- Each lock that the call takes is given back once before it returns. -/
def GivenBack (es : List Ev) : Prop := GivesBack ∅ es

/-- The path leaves the locks as they are. -/
def Keeps (H : Set Lk) (es : List Ev) : Prop := Neutral notHeld noWork H es

theorem Keeps.append_iff {H : Set Lk} {es es' : List Ev} (h : Keeps H es) :
    GivesBack H (es ++ es') ↔ GivesBack H es' :=
  Neutral.append_iff h

/-- With one lock in hand, to give it back is to end well. -/
theorem givesBack_release (l : Lk) : GivesBack {l} [.release l] := by
  refine ⟨rfl, ?_⟩
  simp [Follows, next]

theorem not_givesBack_nil (l : Lk) : ¬ GivesBack {l} [] := by
  intro h
  exact Set.singleton_ne_empty l h

theorem not_givesBack_twice (l : Lk) : ¬ GivesBack {l} [.release l, .release l] := by
  rintro ⟨-, h, -⟩
  exact h.2 rfl

theorem givesBack_acquire_iff (l : Lk) (es : List Ev) :
    GivesBack ∅ (.acquire l :: es) ↔ GivesBack {l} es := by
  have hinsert : next (∅ : Set Lk) (.acquire l : Ev) = {l} := by simp [next]
  unfold GivesBack
  rw [Follows, hinsert]
  exact and_iff_right (show notHeld ∅ l from Set.notMem_empty l)

/-- The system as the calls see it: the process table with the signals, and the address of the
memory of each task. -/
structure View where
  mail : Mail
  mm : Pid → Nat

/-- `user_read_task`, `user_write_task` and the other accesses to the memory of a task. -/
def userAccess (k : View) (t : Pid) : List Ev := locked (.mem (k.mm t)) []

theorem keeps_userAccess {H : Set Lk} (h : ∀ addr, Lk.mem addr ∉ H) (k : View) (t : Pid) :
    Keeps H (userAccess k t) :=
  (takes_notHeld (h _)).neutral

/-- The locks that are held where a signal is sent. -/
def Outer (H : Set Lk) : Prop := H = {Lk.pids} ∨ ∃ c, H = {Lk.ptrace c}

theorem keeps_sendPath {H : Set Lk} (h : Outer H) (m : Mail) (cur q : Pid) (sig : Option Sig) :
    Keeps H (sendPath m cur q sig) := by
  rcases h with rfl | ⟨c, rfl⟩
  · exact neutral_sendPath (takes_notHeld (by simp)) (takes_notHeld (by simp))
      (fun _ => takes_notHeld (by simp [groupLock])) cur
  exact neutral_sendPath (takes_notHeld (by simp)) (takes_notHeld (by simp))
    (fun _ => takes_notHeld (by simp [groupLock])) cur

/-! ## `kill` -/

def killTaskPath (m : Mail) (c : Caller) (q : Pid) (n : Nat) : List Ev :=
  if c.allowed q then sendPath m c.task q (Signal.sigOf n) else []

/-- What is left of the system after a signal was sent. -/
def killed (m : Mail) (c : Caller) (q : Pid) (n : Nat) : Mail :=
  ((m.killTask c q n).toOption.map Prod.fst).getD m

def killEachPath (c : Caller) (n : Nat) : List Pid → Mail → List Ev
  | [], _ => []
  | q :: qs, m => killTaskPath m c q n ++ killEachPath c n qs (killed m c q n)

/-- The part of `do_kill` under `pids_lock`; `kill_group` gives the lock back itself when there is
no such group. -/
def killUnderLock (m : Mail) (c : Caller) (pid : Int) (n : Nat) (tgid : Int) : List Ev :=
  if pid = -1 then killEachPath c n (Mail.everything m.procs c.task) m ++ [.release .pids]
  else if pid < 0 then
    match m.procs.groupSignal (-pid).toNat with
    | none => [.release .pids, .release .pids]
    | some leaders => killEachPath c n leaders m ++ [.release .pids]
  else
    match m.procs.pidGetTask pid.toNat with
    | none => [.release .pids]
    | some T =>
      if tgid ≠ 0 ∧ (T.group : Int) ≠ tgid then [.release .pids]
      else killTaskPath m c pid.toNat n ++ [.release .pids]

def doKillPath (m : Mail) (c : Caller) (pid : Int) (sig : BitVec 32) (tgid : Int) : List Ev :=
  if Signal.NUM_SIGS ≤ sig.toNat then []
  else .acquire .pids :: killUnderLock m c (m.killPid c.task pid) sig.toNat tgid

/-- The process group that is asked for is there. -/
def GroupFound (m : Mail) (pid : Int) : Prop :=
  pid < 0 → pid ≠ -1 → m.procs.groupSignal (-pid).toNat ≠ none

section Kill

variable {H : Set Lk}

theorem keeps_killTaskPath (h : Outer H) (m : Mail) (c : Caller) (q : Pid) (n : Nat) :
    Keeps H (killTaskPath m c q n) := by
  unfold killTaskPath
  split
  · exact keeps_sendPath h m c.task q _
  · exact neutral_nil

theorem keeps_killEachPath (h : Outer H) (c : Caller) (n : Nat) (qs : List Pid) (m : Mail) :
    Keeps H (killEachPath c n qs m) := by
  induction qs generalizing m with
  | nil => exact neutral_nil
  | cons q qs ih => exact (keeps_killTaskPath h m c q n).append (ih (killed m c q n))

theorem outer_pids : Outer {Lk.pids} := .inl rfl

theorem killUnderLock_iff (m : Mail) (c : Caller) (pid : Int) (n : Nat) (tgid : Int) :
    GivesBack {Lk.pids} (killUnderLock m c pid n tgid) ↔
      GroupFound m pid := by
  have hlast := givesBack_release .pids
  unfold killUnderLock GroupFound
  split
  · rename_i hpid
    rw [(keeps_killEachPath outer_pids c n _ m).append_iff]
    exact iff_of_true hlast fun _ hne => absurd hpid hne
  rename_i hpid
  split
  · rename_i hneg
    cases hgroup : m.procs.groupSignal (-pid).toNat with
    | none =>
      refine iff_of_false (not_givesBack_twice .pids) ?_
      intro h
      exact h hneg hpid rfl
    | some leaders =>
      rw [(keeps_killEachPath outer_pids c n leaders m).append_iff]
      exact iff_of_true hlast fun _ _ h => by cases h
  rename_i hnonneg
  have hfound : pid < 0 → pid ≠ -1 → m.procs.groupSignal (-pid).toNat ≠ none :=
    fun hneg => absurd hneg hnonneg
  split
  · exact iff_of_true hlast hfound
  split
  · exact iff_of_true hlast hfound
  rw [(keeps_killTaskPath outer_pids m c pid.toNat n).append_iff]
  exact iff_of_true hlast hfound

/-- **`kill`.** The locks are right unless a process group is asked for that is not there. -/
theorem givenBack_doKillPath_iff (m : Mail) (c : Caller) (pid : Int) (sig : BitVec 32)
    (tgid : Int) :
    GivenBack (doKillPath m c pid sig tgid) ↔
      Signal.NUM_SIGS ≤ sig.toNat ∨ GroupFound m (m.killPid c.task pid) := by
  unfold doKillPath GivenBack
  split
  · rename_i hsig
    exact iff_of_true rfl (.inl hsig)
  rename_i hsig
  rw [givesBack_acquire_iff, killUnderLock_iff]
  exact ⟨.inr, fun h => h.resolve_left hsig⟩

end Kill

/-! ## `timer_create` -/

/-- From the search for a free timer on. -/
def newTimerPath (k : View) (t : Pid) : List Ev :=
  let g := (k.mail.procs.groupOf t).getD t
  locked (.group g)
    (if ((List.range Signal.TIMERS_MAX).find? fun i => (k.mail.timers g i).isNone).isSome then
      userAccess k t
    else [])

def timerCreatePath (k : View) (t : Pid) (clock : Bool) (event : Option SigEvent) : List Ev :=
  if clock = false then []
  else
    userAccess k t ++
      match event with
      | none => []
      | some ev =>
        if ev.method ≠ Signal.SIGEV_SIGNAL ∧ ev.method ≠ Signal.SIGEV_NONE ∧
            ev.method ≠ Signal.SIGEV_THREAD_ID then []
        else if ev.method = Signal.SIGEV_THREAD_ID then
          if k.mail.finds ev.tid then locked .pids [] ++ newTimerPath k t else [.acquire .pids]
        else newTimerPath k t

/-- The thread that the timer is for is there. -/
def ThreadFound (k : View) (clock : Bool) (event : Option SigEvent) : Prop :=
  ∀ ev, clock = true → event = some ev → ev.method = Signal.SIGEV_THREAD_ID →
    k.mail.finds ev.tid = true

theorem keeps_newTimerPath (k : View) (t : Pid) : Keeps ∅ (newTimerPath k t) := by
  refine (takes_empty _).locked ?_
  split
  · exact keeps_userAccess (by simp) k t
  · exact neutral_nil

/-- **`timer_create`.** The locks are right unless the thread that it names is not there. -/
theorem givenBack_timerCreatePath_iff (k : View) (t : Pid) (clock : Bool)
    (event : Option SigEvent) :
    GivenBack (timerCreatePath k t clock event) ↔ ThreadFound k clock event := by
  have hnew : GivesBack ∅ (newTimerPath k t) := keeps_newTimerPath k t
  unfold timerCreatePath ThreadFound GivenBack
  split
  · rename_i hclock
    refine iff_of_true rfl ?_
    intro ev htrue
    rw [hclock] at htrue
    cases htrue
  rename_i hclock
  have hclock : clock = true := by simpa using hclock
  rw [(keeps_userAccess (fun _ => Set.notMem_empty _) k t).append_iff]
  cases event with
  | none => exact iff_of_true rfl fun ev _ h => by cases h
  | some ev =>
    dsimp only
    split
    · rename_i hmethod
      refine iff_of_true rfl ?_
      intro ev' _ heq
      obtain rfl := some.inj heq
      exact fun h => absurd h hmethod.2.2
    split
    · rename_i hthread
      cases hfinds : k.mail.finds ev.tid with
      | true =>
        have hpids : Keeps ∅ (locked .pids []) := (takes_empty .pids).neutral
        rw [if_pos rfl, hpids.append_iff]
        refine iff_of_true hnew ?_
        intro ev' _ heq _
        obtain rfl := some.inj heq
        exact hfinds
      | false =>
        -- the call returns with the lock in hand
        rw [if_neg (by simp), givesBack_acquire_iff]
        refine iff_of_false (not_givesBack_nil .pids) ?_
        · intro h
          have := h ev hclock rfl hthread
          rw [hfinds] at this
          cases this
    · rename_i hother
      refine iff_of_true hnew ?_
      intro ev' _ heq
      obtain rfl := some.inj heq
      exact fun h => absurd h hother

/-! ## `sigaltstack` -/

/-- What the guest gives: for the old stack whether it can be written, for the new one what can be
read of it. An address that is zero is `none`. -/
structure AltstackCall where
  old : Option Bool
  new : Option (Option StackT)

/-- From the new stack on. -/
def newStackPath (k : View) (t : Pid) (ft : FrameTask) (l : Lk) (new : Option (Option StackT)) :
    List Ev :=
  match new with
  | none => [.release l]
  | some read =>
    if Signal.isOnAltstack ft.cpu.esp ft then [.release l]
    else
      userAccess k t ++
        match read with
        | none => [.release l]
        | some ss =>
          if ss.flags &&& Signal.SS_DISABLE ≠ 0 then [.release l]
          else if ss.size < Signal.MINSIGSTKSZ then []
          else [.release l]

def sigaltstackPath (k : View) (t : Pid) (ft : FrameTask) (call : AltstackCall) : List Ev :=
  let l := .sighand (k.mail.sighand t)
  .acquire l ::
    match call.old with
    | none => newStackPath k t ft l call.new
    | some written =>
      userAccess k t ++ if written then newStackPath k t ft l call.new else [.release l]

/-- The new stack is not refused for its size. -/
def StackFits (ft : FrameTask) (call : AltstackCall) : Prop :=
  ∀ ss, call.old ≠ some false → call.new = some (some ss) →
    Signal.isOnAltstack ft.cpu.esp ft = false → ss.flags &&& Signal.SS_DISABLE = 0 →
      Signal.MINSIGSTKSZ ≤ ss.size

theorem mem_notMem_sighand (a addr : Nat) : Lk.mem addr ∉ ({Lk.sighand a} : Set Lk) := by simp

theorem newStackPath_iff (k : View) (t : Pid) (ft : FrameTask) (a : Nat)
    (new : Option (Option StackT)) :
    GivesBack {Lk.sighand a} (newStackPath k t ft (.sighand a) new) ↔
      ∀ ss, new = some (some ss) → Signal.isOnAltstack ft.cpu.esp ft = false →
        ss.flags &&& Signal.SS_DISABLE = 0 → Signal.MINSIGSTKSZ ≤ ss.size := by
  have hlast := givesBack_release (.sighand a)
  unfold newStackPath
  cases new with
  | none => exact iff_of_true hlast fun ss h => by cases h
  | some read =>
    dsimp only
    split
    · rename_i hon
      refine iff_of_true hlast ?_
      intro ss _ hoff
      rw [hon] at hoff
      cases hoff
    rename_i hoff
    have hoff : Signal.isOnAltstack ft.cpu.esp ft = false := by simpa using hoff
    rw [(keeps_userAccess (mem_notMem_sighand a) k t).append_iff]
    cases read with
    | none => exact iff_of_true hlast fun ss h => by cases h
    | some ss =>
      dsimp only
      split
      · rename_i hdisable
        refine iff_of_true hlast ?_
        intro ss' heq _ h
        obtain rfl := some.inj (some.inj heq)
        exact absurd h hdisable
      rename_i hdisable
      have hdisable : ss.flags &&& Signal.SS_DISABLE = 0 := by simpa using hdisable
      split
      · rename_i hsmall
        refine iff_of_false (not_givesBack_nil _) ?_
        intro h
        exact absurd (h ss rfl hoff hdisable) (BitVec.not_le.mpr hsmall)
      rename_i hlarge
      refine iff_of_true hlast ?_
      intro ss' heq _ _
      obtain rfl := some.inj (some.inj heq)
      exact BitVec.not_lt.mp hlarge

/-- **`sigaltstack`.** The lock is given back unless the new stack is too small. -/
theorem givenBack_sigaltstackPath_iff (k : View) (t : Pid) (ft : FrameTask)
    (call : AltstackCall) : GivenBack (sigaltstackPath k t ft call) ↔ StackFits ft call := by
  have hnew := newStackPath_iff k t ft (k.mail.sighand t) call.new
  unfold sigaltstackPath GivenBack StackFits
  rw [givesBack_acquire_iff]
  rcases hold : call.old with _ | written
  · rw [hnew]
    exact ⟨fun h ss _ => h ss, fun h ss => h ss (by simp)⟩
  rw [(keeps_userAccess (mem_notMem_sighand _) k t).append_iff]
  cases written with
  | true =>
    rw [if_pos rfl, hnew]
    exact ⟨fun h ss _ => h ss, fun h ss => h ss (by simp)⟩
  | false => exact iff_of_true (givesBack_release _) fun ss h => absurd rfl h

end Ish.Locking
