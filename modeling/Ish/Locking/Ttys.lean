import Ish.Locking.Timers

set_option autoImplicit false

/-! # Terminals and their locks

The calls on terminals and pseudoterminals (`fs/tty.c`, `fs/pty.c`), as the paths of locks they
take. `tty_read`, `tty_open`, `TIOCSCTTY` and `TIOCSPGRP` take `pids_lock` before the lock of the
terminal, and whatever looks from a master at its slave takes the master's lock before the slave's.

Two places have it the other way round. `TIOCSWINSZ` signals the foreground group with the lock of
the terminal in hand. Input to a slave is echoed with the slave's lock in hand, and the echo is
input to the master. The flags of a master are zero, so input to it is neither echoed nor makes
signals.
-/

namespace Ish.Locking

open Ish.Lib Ish.Lib.LockEvent Neutral Threads

open Ish.Process (Pid)

open Ish.Signal (Mail Sig)

/-- What drives a terminal, with the other end of a pair. -/
inductive Side where
  | console
  | master (slave : Nat)
  | slave (master : Nat)

structure Ttys where
  side : Nat → Side
  pair : ∀ m z, side m = .master z ↔ side z = .slave m

/-- The calling task with what it finds in the rest of the system. -/
structure TtyCaller where
  mail : Mail
  task : Pid
  group : Pid

/-- What `tty_input` does for a character under the lock. -/
inductive Typed where
  | echo (polls : List (Nat × List Nat))
  | wake (polls : List (Nat × List Nat))
  | wait

/-- A signal for the leaders of a process group. -/
structure GroupSignal where
  sig : Option Sig
  leaders : List Pid

/-- What becomes of a terminal that was found: the driver's `open` fails, and this may have been the
last reference; or it is open, and may become the controlling terminal. -/
inductive Opened where
  | refused (freed : Bool) (polls : List (Nat × List Nat))
  | opened (noctty sets : Bool)

inductive TtyOp where
  /-- `ended` if the terminal is hung up or half closed; `signal` if the caller is in the
  background; `turns` is how often it waits. -/
  | read (y : Nat) (ended : Bool) (signal : Option Sig) (turns : Nat)
  /-- A device, `/dev/tty` if `current` is set; not `found` if the caller has no controlling
  terminal or `tty_get` fails. -/
  | device (y : Nat) (current found : Bool) (outcome : Opened)
  /-- Not `reserved` if every pair is in use. -/
  | ptmx (y : Nat) (reserved found noctty sets : Bool)
  | sctty (y : Nat) (hungUp : Bool) (groups : List Pid)
  | spgrp (y : Nat) (hungUp : Bool)
  /-- `fg` is the foreground group's signal, if the terminal or the slave has such a group. -/
  | swinsz (y : Nat) (hungUp : Bool) (fg : Option GroupSignal)
  | input (y : Nat) (typed : List Typed) (signals : List GroupSignal)
  | write (y : Nat) (ended : Bool) (typed : List Typed) (signals : List GroupSignal)

section Paths

variable (T : Ttys) (c : TtyCaller)

/-- `send_group_signal`. -/
def groupSignalPath (n : GroupSignal) : List TimerEv :=
  locked .pids (n.leaders.flatMap fun q => sendPath c.mail c.task q n.sig)

/-- `pty_is_half_closed_master`. -/
def halfClosedPath (y : Nat) : List TimerEv :=
  match T.side y with
  | .master z => locked (.tty z) []
  | _ => []

def waitPath (y : Nat) : List TimerEv := [.release (.tty y), .acquire (.tty y)]

/-- `tty_poll_wakeup`. -/
def ttyPollWakeupPath (y : Nat) (polls : List (Nat × List Nat)) : List TimerEv :=
  .release (.tty y) ::
    (locked (.ttyFds y) (polls.flatMap fun f => pollsPath f.1 f.2) ++ [.acquire (.tty y)])

/-- `try_self_signal`, after `tty_is_current`. -/
def backgroundPath (signal : Option Sig) : List TimerEv :=
  locked (.group c.group) [] ++
    signal.elim [] fun sig =>
      locked (.sighand (c.mail.sighand c.task)) (deliverPath c.mail c.task c.task sig)

def ttyReadPath (y : Nat) (ended : Bool) (signal : Option Sig) (turns : Nat) : List TimerEv :=
  handOver .pids (.tty y) (halfClosedPath T y)
    (if ended then []
      else backgroundPath c signal ++
        (List.replicate turns ()).flatMap fun _ => halfClosedPath T y ++ waitPath y)

def ttyGetPath (y : Nat) (found : Bool) : List TimerEv :=
  locked .ttys (if found then locked (.tty y) [] else [])

/-- `tty_release`, with `pty_master_cleanup` if a master is freed. A slave that is freed has lost
its master before. -/
def ttyReleasePath (y : Nat) (freed : Bool) (polls : List (Nat × List Nat)) : List TimerEv :=
  locked (.tty y)
    (if freed then
      match T.side y with
      | .master z => locked (.tty z) (ttyPollWakeupPath z polls) ++ locked (.tty z) []
      | _ => []
    else [])

def ttyOpenPath (y : Nat) (noctty sets : Bool) : List TimerEv :=
  locked (.ttyFds y) [] ++
    if noctty then []
    else locked .pids (locked (.tty y) (if sets then locked (.group c.group) [] else []))

def ttyDeviceOpenPath (y : Nat) (current found : Bool) (outcome : Opened) : List TimerEv :=
  (if current then
      locked .ttys (locked (.group c.group) [] ++ if found then locked (.tty y) [] else [])
    else ttyGetPath y found) ++
    if found then
      match outcome with
      | .refused freed polls => locked .ttys (ttyReleasePath T y freed polls)
      | .opened noctty sets => ttyOpenPath c y noctty sets
    else []

def ptmxOpenPath (y : Nat) (reserved found noctty sets : Bool) : List TimerEv :=
  locked .ttys [] ++
    if reserved then ttyGetPath y found ++ if found then ttyOpenPath c y noctty sets else []
    else []

/-- `TIOCSCTTY`; the groups are those of the session that loses the terminal, and the caller's. -/
def scttyPath (y : Nat) (hungUp : Bool) (groups : List Pid) : List TimerEv :=
  locked (.tty y) [] ++
    if hungUp then []
    else handOver .pids (.tty y) (groups.flatMap fun g => locked (.group g) []) []

def spgrpPath (y : Nat) (hungUp : Bool) : List TimerEv :=
  locked (.tty y) [] ++
    if hungUp then [] else handOver .pids (.tty y) [] (locked (.group c.group) [])

/-- `TIOCSWINSZ`, on the slave if the terminal is a master. -/
def swinszPath (y : Nat) (hungUp : Bool) (fg : Option GroupSignal) : List TimerEv :=
  let setWinsize := fg.elim [] (groupSignalPath c)
  locked (.tty y)
    (if hungUp then []
      else
        match T.side y with
        | .master z => locked (.tty z) setWinsize
        | _ => setWinsize)

def typedPath (y : Nat) : Typed → List TimerEv
  | .echo polls =>
    match T.side y with
    | .slave m => locked (.tty m) (ttyPollWakeupPath m polls)
    | _ => []
  | .wake polls => ttyPollWakeupPath y polls
  | .wait => waitPath y

def ttyInputPath (y : Nat) (typed : List Typed) (signals : List GroupSignal) : List TimerEv :=
  locked (.tty y) (typed.flatMap (typedPath T y)) ++ signals.flatMap (groupSignalPath c)

/-- What is written to one end of a pair is input to the other one. -/
def ttyWritePath (y : Nat) (ended : Bool) (typed : List Typed) (signals : List GroupSignal) :
    List TimerEv :=
  locked (.tty y) (halfClosedPath T y) ++
    if ended then []
    else
      match T.side y with
      | .console => []
      | .master z => ttyInputPath T c z typed signals
      | .slave m => ttyInputPath T c m typed signals

def ttyPath : TtyOp → List TimerEv
  | .read y ended signal turns => ttyReadPath T c y ended signal turns
  | .device y current found outcome => ttyDeviceOpenPath T c y current found outcome
  | .ptmx y reserved found noctty sets => ptmxOpenPath c y reserved found noctty sets
  | .sctty y hungUp groups => scttyPath y hungUp groups
  | .spgrp y hungUp => spgrpPath c y hungUp
  | .swinsz y hungUp fg => swinszPath T c y hungUp fg
  | .input y typed signals => ttyInputPath T c y typed signals
  | .write y ended typed signals => ttyWritePath T c y ended typed signals

end Paths

/-- No input to a slave is echoed. -/
def Ttys.NoEcho (T : Ttys) (y : Nat) (typed : List Typed) : Prop :=
  ∀ m polls, T.side y = .slave m → Typed.echo polls ∉ typed

/-- **The condition.** `TIOCSWINSZ` finds no foreground group, and what is typed into a slave is not
echoed. -/
def TtyOp.Quiet (T : Ttys) : TtyOp → Prop
  | .swinsz _ _ fg => fg = none
  | .input y typed _ => T.NoEcho y typed
  | .write y _ typed _ => ∀ z, T.side y = .master z → T.NoEcho z typed
  | _ => True

/-! ## The order -/

section Order

variable (T : Ttys)
variable {l : Lk} {y : Nat} {es : List TimerEv}

@[simp]
def ttyRank : Lk → ℕ
  | .pids => 0
  | .ttys => 1
  | .tty y =>
    match T.side y with
    | .master _ => 2
    | _ => 3
  | .group _ => 4
  | .sighand _ => 5
  | .waitingCond _ => 6
  | .ttyFds _ => 7
  | .pollLock _ => 8
  | .poll _ => 9
  | _ => 10

/-- The path takes its locks in order and ends with those that it started with. -/
abbrev Ordered (act : Set Lk → Nat → Prop) (H : Set Lk) (es : List TimerEv) : Prop :=
  Neutral (Above (ttyRank T)) act H es

variable {T} {c : TtyCaller} {H : Set Lk} {act : Set Lk → Nat → Prop}

theorem ttyRank_tty (y : Nat) : 2 ≤ ttyRank T (.tty y) ∧ ttyRank T (.tty y) ≤ 3 := by
  unfold ttyRank
  dsimp only
  split <;> omega

theorem ttyRank_master {m z : Nat} (h : T.side m = .master z) :
    ttyRank T (.tty m) < ttyRank T (.tty z) := by
  simp [h, (T.pair m z).mp h]

theorem take (h : Above (ttyRank T) H l) : Takes (Above (ttyRank T)) H l := ⟨h, h.not_mem⟩

/-- With `pids_lock` or nothing in hand. -/
theorem above_of_pids (hH : H ⊆ {.pids}) (hl : 0 < ttyRank T l) : Above (ttyRank T) H l :=
  fun m hm => by rwa [show m = .pids from hH hm]

/-- With the lock of a terminal in hand and what comes before it. -/
theorem above_of_tty (h : Above (ttyRank T) H (.tty y)) (hl : 4 ≤ ttyRank T l) :
    Above (ttyRank T) (insert (.tty y) H) l := by
  have hrank := (ttyRank_tty (T := T) y).2
  exact Above.insert (by omega) (h.le (by omega))

theorem groupSignalPath_neutral (n : GroupSignal) : Ordered T act ∅ (groupSignalPath c n) := by
  refine (take (above_empty _)).locked (neutral_flatMap fun q _ => ?_)
  have hpids : insert Lk.pids (∅ : Set Lk) ⊆ {Lk.pids} := (insert_empty_eq Lk.pids).subset
  exact neutral_sendPath (take (above_of_pids hpids (by simp)))
    (take (above_of_pids hpids (by simp)))
    (fun _ => take (above_of_pids hpids (by simp [groupLock]))) c.task

theorem halfClosedPath_neutral (h : Above (ttyRank T) H (.tty y)) :
    Ordered T act (insert (.tty y) H) (halfClosedPath T y) := by
  unfold halfClosedPath
  split
  · rename_i z hz
    have hlt := ttyRank_master hz
    exact (take (Above.insert hlt (h.le hlt.le))).neutral
  · exact neutral_nil

/-- The lock is given up in between. -/
theorem givenUp_neutral (h : Above (ttyRank T) H (.tty y))
    (hes : Ordered T act H es) :
    Ordered T act (insert (.tty y) H)
      (.release (.tty y) :: (es ++ [.acquire (.tty y)])) := by
  refine ⟨Set.mem_insert _ _, ?_⟩
  rw [next, Set.insert_sdiff_self_of_notMem h.not_mem, hes.append_iff]
  exact ⟨h, rfl⟩

theorem ttyPollWakeupPath_neutral (h : Above (ttyRank T) H (.tty y))
    (polls : List (Nat × List Nat)) :
    Ordered T act (insert (.tty y) H) (ttyPollWakeupPath y polls) := by
  have hle := (ttyRank_tty (T := T) y).2
  have hfds : Above (ttyRank T) H (.ttyFds y) := h.le (hle.trans (by simp))
  refine givenUp_neutral h ((take hfds).locked (neutral_flatMap fun f _ => ?_))
  have hlock : Above (ttyRank T) (insert (.ttyFds y) H) (.pollLock f.1) :=
    Above.insert (by simp) (hfds.le (by simp))
  refine (take hlock).locked (neutral_flatMap fun p _ => ?_)
  exact (take (Above.insert (by simp) (hlock.le (by simp)))).neutral

theorem above_tty_pids (y : Nat) : Above (ttyRank T) {Lk.pids} (.tty y) :=
  above_of_pids subset_rfl (by have := ttyRank_tty (T := T) y; omega)

/-- `pids_lock`, then the terminal, then without `pids_lock`. -/
theorem ttyHandOver_neutral {es' : List TimerEv}
    (h : Ordered T act (insert (.tty y) {.pids}) es)
    (h' : Ordered T act (insert (.tty y) ∅) es') :
    Ordered T act ∅ (handOver .pids (.tty y) es es') := by
  have hpids : insert Lk.pids (∅ : Set Lk) = {Lk.pids} := insert_empty_eq _
  refine handOver (above_empty _) ?_ (by simp) (by simp) ?_ h'
  · rw [hpids]
    exact above_tty_pids y
  rw [hpids]
  exact h

theorem group_neutral (h : Above (ttyRank T) H (.tty y)) (g : Pid) :
    Ordered T act (insert (.tty y) H) (locked (.group g) []) :=
  (take (above_of_tty h (by simp))).neutral

theorem ttyReadPath_neutral (y : Nat) (ended : Bool) (signal : Option Sig) (turns : Nat) :
    Ordered T act ∅ (ttyReadPath T c y ended signal turns) := by
  have hy : Above (ttyRank T) ∅ (.tty y) := above_empty _
  refine ttyHandOver_neutral (halfClosedPath_neutral (above_tty_pids y)) ?_
  split
  · exact neutral_nil
  refine append (append (group_neutral hy _) ?_) (neutral_flatMap fun _ _ => ?_)
  · cases signal with
    | none => exact neutral_nil
    | some sig =>
      have hsighand : Takes (Above (ttyRank T)) (insert (.tty y) ∅)
          (.sighand (c.mail.sighand c.task)) := take (above_of_tty hy (by simp))
      exact hsighand.locked (neutral_deliverPath hsighand (take (above_of_tty hy (by simp))) _ _)
  · exact (halfClosedPath_neutral hy).append (givenUp_neutral hy neutral_nil)

/-- With `ttys_lock` in hand. -/
theorem above_of_ttys (y : Nat) : Above (ttyRank T) (insert .ttys ∅) (.tty y) :=
  Above.insert (ttyRank_tty (T := T) y).1 (above_empty _)

theorem found_neutral (y : Nat) (found : Bool) :
    Ordered T act (insert .ttys ∅) (if found then locked (.tty y) [] else []) := by
  split
  · exact (take (above_of_ttys y)).neutral
  · exact neutral_nil

theorem ttyGetPath_neutral (y : Nat) (found : Bool) : Ordered T act ∅ (ttyGetPath y found) :=
  (take (above_empty _)).locked (found_neutral y found)

theorem ttyReleasePath_neutral (h : Above (ttyRank T) H (.tty y)) (freed : Bool)
    (polls : List (Nat × List Nat)) : Ordered T act H (ttyReleasePath T y freed polls) := by
  refine (take h).locked ?_
  split
  · split
    · rename_i z hz
      have hlt := ttyRank_master hz
      have hslave := Above.insert hlt (h.le hlt.le)
      exact append ((take hslave).locked (ttyPollWakeupPath_neutral hslave polls))
        (take hslave).neutral
    · exact neutral_nil
  · exact neutral_nil

theorem ttyOpenPath_neutral (y : Nat) (noctty sets : Bool) :
    Ordered T act ∅ (ttyOpenPath c y noctty sets) := by
  refine append (take (above_empty _)).neutral ?_
  split
  · exact neutral_nil
  refine (take (above_empty _)).locked ?_
  rw [insert_empty_eq]
  refine (take (above_tty_pids y)).locked ?_
  split
  · exact group_neutral (above_tty_pids y) _
  · exact neutral_nil

theorem typedPath_neutral {e : Typed} (h : ∀ m polls, T.side y = .slave m → e ≠ .echo polls) :
    Ordered T act (insert (.tty y) ∅) (typedPath T y e) := by
  cases e with
  | echo polls =>
    unfold typedPath
    dsimp only
    split
    · next m hm => exact absurd rfl (h m polls hm)
    · exact neutral_nil
  | wake polls => exact ttyPollWakeupPath_neutral (above_empty _) polls
  | wait => exact givenUp_neutral (above_empty _) neutral_nil

theorem ttyInputPath_neutral {typed : List Typed} (h : T.NoEcho y typed)
    (signals : List GroupSignal) :
    Ordered T act ∅ (ttyInputPath T c y typed signals) := by
  refine append ?_ (neutral_flatMap fun n _ => groupSignalPath_neutral n)
  refine (take (above_empty _)).locked (neutral_flatMap fun e he => typedPath_neutral ?_)
  rintro m polls hm rfl
  exact h m polls hm he

/-- **The calls.** A call that meets the condition takes its locks in order. -/
theorem ttyPath_neutral (op : TtyOp) (h : op.Quiet T) : Ordered T act ∅ (ttyPath T c op) := by
  have hlock : ∀ y, Ordered T act ∅ (locked (.tty y) []) := fun y => (take (above_empty _)).neutral
  cases op with
  | read y ended signal turns => exact ttyReadPath_neutral y ended signal turns
  | device y current found outcome =>
    refine append ?_ ?_
    · split
      · refine (take (above_empty _)).locked (append ?_ (found_neutral y found))
        exact (take (Above.insert (by simp) (above_empty _))).neutral
      · exact ttyGetPath_neutral y found
    split
    · cases outcome with
      | refused freed polls =>
        exact (take (above_empty _)).locked (ttyReleasePath_neutral (above_of_ttys y) freed polls)
      | opened noctty sets => exact ttyOpenPath_neutral y noctty sets
    · exact neutral_nil
  | ptmx y reserved found noctty sets =>
    refine append (take (above_empty _)).neutral ?_
    split
    · refine append (ttyGetPath_neutral y found) ?_
      split
      · exact ttyOpenPath_neutral y noctty sets
      · exact neutral_nil
    · exact neutral_nil
  | sctty y hungUp groups =>
    refine append (hlock y) ?_
    split
    · exact neutral_nil
    refine ttyHandOver_neutral (neutral_flatMap fun g _ => ?_) neutral_nil
    exact group_neutral (above_tty_pids y) g
  | spgrp y hungUp =>
    refine append (hlock y) ?_
    split
    · exact neutral_nil
    · exact ttyHandOver_neutral neutral_nil (group_neutral (above_empty _) _)
  | swinsz y hungUp fg =>
    obtain rfl : fg = none := h
    refine (take (above_empty _)).locked ?_
    split
    · exact neutral_nil
    · exact halfClosedPath_neutral (above_empty _)
  | input y typed signals => exact ttyInputPath_neutral h signals
  | write y ended typed signals =>
    refine append ?_ ?_
    · exact (take (above_empty _)).locked (halfClosedPath_neutral (above_empty _))
    split
    · exact neutral_nil
    split
    · exact neutral_nil
    · next z hz => exact ttyInputPath_neutral (h z hz) signals
    rename_i m hm
    refine ttyInputPath_neutral (fun m' polls hm' => ?_) signals
    -- the other end of a slave is a master
    rw [(T.pair m y).mpr hm] at hm'
    cases hm'

end Order

/-- Threads that make any calls on terminals. -/
def ttyMachine (T : Ttys) :
    Machine (Threads Nat Lk Nat) (Threads.Sched Nat (TtyCaller × TtyOp)) (Option Nat) :=
  callMachine fun _ call => ttyPath T call.1 call.2

/-- **Terminals and their locks.** In a run of any calls that meet the condition no threads ever
wait for each other in a circle. Nobody who has the lock of a terminal asks for `pids_lock`, and
nobody who has that of a slave asks for its master's. -/
theorem ttys_not_deadlocked (T : Ttys) (sched : List (Threads.Sched Nat (TtyCaller × TtyOp)))
    (s : Threads Nat Lk Nat) (os : List (Option Nat))
    (hrun : (ttyMachine T).run idle sched = some (s, os))
    (hquiet : ∀ i call, Threads.Sched.call i call ∈ sched → call.2.Quiet T) :
    ¬ s.Deadlocked ∧
      (∀ i es y, s.todo i = .acquire .pids :: es → Lk.tty y ∉ s.held i) ∧
      ∀ i es m z, T.side m = .master z → s.todo i = .acquire (.tty m) :: es →
        Lk.tty z ∉ s.held i := by
  have hpath : ∀ (i : Nat) (call : TtyCaller × TtyOp), call.2.Quiet T →
      Follows (Above (ttyRank T)) (fun _ _ => True) (fun H => H = ∅) ∅
        (ttyPath T call.1 call.2) := fun _ call h => ttyPath_neutral call.2 h
  have hdisciplined := run_disciplined hpath hquiet hrun
  refine ⟨hdisciplined.not_deadlocked (ttyRank T) (fun _ _ _ h => h), ?_, ?_⟩
  · intro i es y hi hmem
    exact absurd (hdisciplined.ok_of_wants hi _ hmem) (Nat.not_lt_zero _)
  intro i es m z hm hi hmem
  exact absurd (hdisciplined.ok_of_wants hi _ hmem) (Nat.not_lt.mpr (ttyRank_master hm).le)

def pairSide (y : Nat) : Side :=
  if y = 0 then .master 1 else if y = 1 then .slave 0 else .console

theorem pairSide_pair (m z : Nat) : pairSide m = .master z ↔ pairSide z = .slave m := by
  unfold pairSide
  by_cases hm : m = 0
  · by_cases hz : z = 0
    · simp [hm, hz]
    · by_cases hz' : z = 1 <;> simp [hm, hz, hz', eq_comm]
  by_cases hz : z = 0
  · by_cases hm' : m = 1 <;> simp [hm, hz, hm']
  · by_cases hz' : z = 1 <;> by_cases hm' : m = 1 <;> simp [hm, hz, hz', hm', eq_comm]

/-- Terminal 0 is the master of terminal 1. -/
def onePair : Ttys := ⟨pairSide, pairSide_pair⟩

/-- A master is read while its slave is opened. -/
def readAndOpen : List (Threads.Sched Nat (TtyCaller × TtyOp)) :=
  [.call 0 (⟨Mail.init, 1, 1⟩, .read 0 false none 1),
    .call 1 (⟨Mail.init, 1, 1⟩, .device 1 false true (.opened false true)),
    .run 0, .run 1, .run 0, .run 0]

theorem ttys_not_deadlocked_read :
    ∃ s os, (ttyMachine onePair).run idle readAndOpen = some (s, os) ∧
      Lk.tty 1 ∈ s.held 0 ∧ ¬ s.Deadlocked := by
  refine ⟨_, _, rfl, rfl, (ttys_not_deadlocked onePair readAndOpen _ _ rfl ?_).1⟩
  rintro i call h
  simp only [readAndOpen, List.mem_cons, Threads.Sched.call.injEq, reduceCtorEq, List.not_mem_nil,
    or_false] at h
  rcases h with ⟨rfl, rfl⟩ | ⟨rfl, rfl⟩
  · trivial
  · trivial

/-- A window is given its size while the terminal is read: the first has the terminal and wants
`pids_lock`, the second has `pids_lock` and wants the terminal. And a character is typed into a
slave while the master is read: the echo has the slave and wants the master, the reader has the
master and wants to look at the slave. -/
theorem ttys_deadlock :
    let init : TtyCaller := ⟨Mail.init, 1, 1⟩
    (∃ s os, (ttyMachine onePair).run idle
        [.call 0 (init, .swinsz 2 false (some ⟨none, [1]⟩)), .call 1 (init, .read 2 false none 1),
          .run 0, .run 1] = some (s, os) ∧ s.Deadlocked) ∧
      ∃ s os, (ttyMachine onePair).run idle
        [.call 0 (init, .write 0 false [.echo []] []), .call 1 (init, .read 0 false none 1),
          .run 0, .run 0, .run 0, .run 0, .run 0, .run 1, .run 1] = some (s, os) ∧
        s.Deadlocked := by
  refine ⟨⟨_, _, rfl, ?_⟩, ⟨_, _, rfl, ?_⟩⟩
  · exact deadlocked_of_two (i := 0) (j := 1) ⟨_, _, rfl, rfl⟩ ⟨_, _, rfl, rfl⟩
  · exact deadlocked_of_two (i := 0) (j := 1) ⟨_, _, rfl, rfl⟩ ⟨_, _, rfl, rfl⟩

end Ish.Locking
