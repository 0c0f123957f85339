import Ish.Locking.Basic

set_option autoImplicit false

/-! # Timers and their locks

A timer (`util/timer.c`) has a thread of its own while it is armed. The thread holds the lock of the
timer while it calls back, and the callback takes the lock of the open file of a `timerfd`, or
`pids_lock` and the locks of the task that gets a signal. The calls that arm or delete a timer take
its lock while they hold that of the open file or of the thread group. So there are two circles:
`fd->lock` and the lock of the timer, and `group->lock`, the lock of the timer and `pids_lock`, of
which `exit_group` takes the first and last.

`tgroup_copy` copies `posix_timers`, so after a `fork` the same timer is set and deleted in several
groups, each time under the lock of another one.

The threads here are those of the guest, which make any calls in any order, and those of the timers.
What a call finds in the rest of the system is any state of it.
-/

namespace Ish.Locking

open Ish.Lib Ish.Lib.LockEvent Lk Neutral

open Ish.Process (Pid)

open Ish.Signal (Mail Sig)

/-- What a timer belongs to: an open file, with the number of the timer, the groups that have it in
`posix_timers`, or the group whose `itimer` it is. -/
inductive Owner where
  | timerfd
  | posix
  | itimer (g : Pid)
deriving DecidableEq

inductive Thread where
  | guest (n : Nat)
  | timer (x : Nat)
deriving DecidableEq

/-- The work of a path is to arm a timer. -/
abbrev TimerEv := LockEvent Lk Nat

theorem SIGALRM_pos : 1 ≤ 14 := by decide

theorem SIGALRM_lt : 14 < Signal.NUM_SIGS := by decide

def SIGALRM : Sig := ⟨14, SIGALRM_pos, SIGALRM_lt⟩

section Paths

variable (owner : Nat → Owner)

/-- The locks of which a call holds one when it takes that of the timer. -/
def guards (x : Nat) : Set Lk :=
  match owner x with
  | .timerfd => {.fd x}
  | .posix => Set.range .group
  | .itimer g => {.group g}

/-! ## The calls -/

/-- `timer_set`, with a time that is not zero or with one that is. -/
def timerSetPath (x : Nat) (arms : Bool) : List TimerEv :=
  locked (.timer x) (if arms then [.work x] else [])

def timerFreePath (x : Nat) : List TimerEv := locked (.timer x) []

/-- `f_get`. -/
def fGetPath (f : Nat) : List TimerEv := locked (.files f) []

def timerfdSettimePath (f x : Nat) (arms : Bool) : List TimerEv :=
  fGetPath f ++
    match owner x with
    | .timerfd => locked (.fd x) (timerSetPath x arms)
    | _ => []

/-- By a thread of the group `g`. -/
def timerSettimePath (g : Pid) (x : Nat) (arms : Bool) : List TimerEv :=
  match owner x with
  | .posix => locked (.group g) (timerSetPath x arms)
  | _ => []

/-- `there` is whether the group has such a timer. -/
def timerDeletePath (g : Pid) (x : Nat) (there : Bool) : List TimerEv :=
  match owner x with
  | .posix => locked (.group g) (if there then timerFreePath x else [])
  | _ => []

def setitimerPath (x : Nat) (arms : Bool) : List TimerEv :=
  match owner x with
  | .itimer g => locked (.group g) (timerSetPath x arms)
  | _ => []

/-- The polls that an open file is in. -/
def pollsPath (x : Nat) (polls : List Nat) : List TimerEv :=
  locked (.pollLock x) (polls.flatMap fun p => locked (.poll p) [])

/-- `fd_close` of a `timerfd` that nobody else has open. -/
def fdClosePath (closed : Nat × List Nat) : List TimerEv :=
  pollsPath closed.1 closed.2 ++
    match owner closed.1 with
    | .timerfd => timerFreePath closed.1
    | _ => []

/-- `sys_close`. -/
def closePath (f : Nat) (closed : Option (Nat × List Nat)) : List TimerEv :=
  locked (.files f) (closed.elim [] (fdClosePath owner))

/-- What `exit_group` finds: the system, the caller with its group and its open files, the threads
of the group, the files that nobody else has open, the timer of the group, the parent with the
signal for it, and whether it was started by `vfork`. -/
structure Exiting where
  mail : Mail
  task : Pid
  group : Pid
  files : Nat
  threads : List Pid
  closed : List (Nat × List Nat)
  timer : Option Nat
  notified : Option (Pid × Option Sig)
  vfork : Bool

/-- `deliver_signal` of `SIGKILL` to a thread of the group. -/
def killThreadPath (e : Exiting) (q : Pid) : List TimerEv :=
  locked (.sighand (e.mail.sighand q)) (deliverPath e.mail e.task q Signal.SIGKILL)

/-- `do_exit_group` up to `do_exit`. -/
def exitGroupPath (e : Exiting) : List TimerEv :=
  locked .pids (locked (.group e.group) (e.threads.flatMap (killThreadPath e)))

/-- `timer_free` of the timer of a group. -/
def exitTimerPath (e : Exiting) : List TimerEv :=
  match e.timer with
  | none => []
  | some x =>
    match owner x with
    | .itimer _ => timerFreePath x
    | _ => []

/-- `do_exit`. -/
def doExitPath (e : Exiting) : List TimerEv :=
  locked (.files e.files) (e.closed.flatMap (fdClosePath owner)) ++
    locked (.group e.group) [] ++
      locked .pids
        (exitTimerPath owner e ++
          e.notified.elim [] (fun n => sendPath e.mail e.task n.1 n.2) ++
            locked (.general e.task)
              (if e.vfork then locked (.vforkInfo e.task) [] else []))

inductive TimerCall where
  | timerfdSettime (f x : Nat) (arms : Bool)
  | timerSettime (g : Pid) (x : Nat) (arms : Bool)
  | timerDelete (g : Pid) (x : Nat) (there : Bool)
  | setitimer (x : Nat) (arms : Bool)
  | close (f : Nat) (closed : Option (Nat × List Nat))
  | exitGroup (e : Exiting)

def timerCallPath : TimerCall → List TimerEv
  | .timerfdSettime f x arms => timerfdSettimePath owner f x arms
  | .timerSettime g x arms => timerSettimePath owner g x arms
  | .timerDelete g x there => timerDeletePath owner g x there
  | .setitimer x arms => setitimerPath owner x arms
  | .close f closed => closePath owner f closed
  | .exitGroup e => exitGroupPath e ++ doExitPath owner e

/-! ## The thread of a timer -/

/-- What the thread of a timer finds when the timer goes off: the polls that the open file is in, or
the system with the task that gets the signal, if it is there. A timer thread is no task. -/
structure Expiry where
  polls : List Nat
  mail : Mail
  target : Option (Pid × Option Sig)

/-- `timer->callback`: `timerfd_callback`, `posix_timer_callback` or `itimer_notify`. -/
def callbackPath (x : Nat) (e : Expiry) : List TimerEv :=
  match owner x with
  | .timerfd => locked (.fd x) [] ++ pollsPath x e.polls
  | .posix => locked .pids (e.target.elim [] fun n => sendPath e.mail 0 n.1 n.2)
  | .itimer _ => e.target.elim [] fun n => sendPath e.mail 0 n.1 (some SIGALRM)

/-- A turn of the loops of `timer_thread`, under the lock. -/
inductive Turn where
  | sleep
  | expire (e : Expiry)
  | finish

def turnPath (x : Nat) : Turn → List TimerEv
  | .sleep => [.release (.timer x), .acquire (.timer x)]
  | .expire e => callbackPath owner x e
  | .finish => [.release (.timer x)]

/-- The thread that finishes clears `thread_running` first. -/
def Turn.running (running : Nat → Bool) (x : Nat) : Turn → Nat → Bool
  | .finish => Function.update running x false
  | _ => running

/-! ## The machine -/

structure TimerSys where
  threads : Threads Thread Lk Nat
  /-- `thread_running`. -/
  running : Nat → Bool

namespace TimerSys

inductive Label where
  | call (n : Nat) (c : TimerCall)
  | run (i : Thread)
  | turn (x : Nat) (c : Turn)

/-- `timer_set` with a time that is not zero: the thread of the timer is started if it does not
run. -/
def arm (s : TimerSys) (x : Nat) : TimerSys :=
  if s.running x then s
  else
    ⟨s.threads.start (.timer x) [.acquire (.timer x)], Function.update s.running x true⟩

/-- The thread of the timer is in its loop and holds the lock. -/
def atLoop (s : TimerSys) (x : Nat) : Bool :=
  s.running x && (s.threads.todo (.timer x)).isEmpty &&
    s.threads.holder (.timer x) == some (.timer x)

def step (s : TimerSys) : Label → Option (TimerSys × Unit)
  | .call n c =>
    if (s.threads.todo (.guest n)).isEmpty then
      some ({ s with threads := s.threads.start (.guest n) (timerCallPath owner c) }, ())
    else none
  | .run i =>
    (s.threads.exec i).map fun r =>
      (r.2.elim { s with threads := r.1 } (fun x => arm { s with threads := r.1 } x), ())
  | .turn x c =>
    if s.atLoop x then
      some
        (⟨s.threads.start (.timer x) (turnPath owner x c), c.running s.running x⟩, ())
    else none

def machine : Machine TimerSys Label Unit := ⟨step owner⟩

def init : TimerSys := ⟨Threads.idle, fun _ => false⟩

end TimerSys

end Paths

/-! ## The order of the locks -/

section Order

variable (owner : Nat → Owner)

/-- The order in which the threads of the timers take their locks, and almost all calls. -/
@[simp]
def timerRank : Lk → ℕ
  | .files _ => 0
  | .timer x =>
    match owner x with
    | .itimer _ => 7
    | _ => 1
  | .pollLock _ => 2
  | .poll _ => 3
  | .fd _ => 4
  | .pids => 5
  | .group _ => 6
  | .sighand _ => 8
  | .waitingCond _ => 9
  | .general _ => 10
  | .vforkInfo _ => 11
  | _ => 12

theorem timerRank_le (l : Lk) : timerRank owner l ≤ 12 := by
  cases l with
  | timer x => cases howner : owner x <;> simp [howner]
  | _ => simp

/-- A guest takes its locks in order, and nothing after that of a timer. It takes the lock of a
timer also under that of what the timer belongs to, whatever the order says. -/
def guestOk (H : Set Lk) (l : Lk) : Prop :=
  (∀ x, timer x ∉ H) ∧
    (Above (timerRank owner) H l ∨ ∃ x, l = .timer x ∧ ∃ o ∈ guards owner x, H = {o})

/-- The thread of a timer takes its locks in order, and that of no other timer. -/
def timerOk (x : Nat) (H : Set Lk) (l : Lk) : Prop :=
  Above (timerRank owner) H l ∧ ∀ y, l = .timer y → y = x

def threadOk : Thread → Set Lk → Lk → Prop
  | .guest _ => guestOk owner
  | .timer x => timerOk owner x

/-- A timer is armed by a guest that has its lock. -/
def threadAct : Thread → Set Lk → Nat → Prop
  | .guest _ => fun H x => timer x ∈ H
  | .timer _ => fun _ _ => False

/-- Between its calls a guest has no lock; the thread of a timer has none or that of its timer. -/
def threadRest : Thread → Set Lk → Prop
  | .guest _ => fun H => H = ∅
  | .timer x => fun H => H ⊆ {timer x}

/-- What the two rules have in common: in the sets of locks of which `P` holds, a lock that is not
that of a timer may be taken in order. -/
structure InOrder (ok : Set Lk → Lk → Prop) (P : Set Lk → Prop) : Prop where
  takes : ∀ H l, P H → (∀ x, l ≠ .timer x) → Above (timerRank owner) H l → ok H l
  keep : ∀ H l, P H → (∀ x, l ≠ .timer x) → P (insert l H)

variable {owner}

theorem guestOk_inOrder : InOrder owner (guestOk owner) fun H => ∀ x, timer x ∉ H := by
  refine ⟨?_, ?_⟩
  · intro H l hP _ hunder
    exact ⟨hP, .inl hunder⟩
  rintro H l hP hl x (heq | hmem)
  · exact hl x heq.symm
  · exact hP x hmem

theorem timerOk_inOrder (x : Nat) : InOrder owner (timerOk owner x) fun _ => True := by
  refine ⟨?_, fun _ _ _ _ => trivial⟩
  intro H l _ hl hunder
  exact ⟨hunder, fun y hy => absurd hy (hl y)⟩

section Common

variable {ok : Set Lk → Lk → Prop} {act : Set Lk → Nat → Prop} {P : Set Lk → Prop} {H : Set Lk}

theorem InOrder.take (h : InOrder owner ok P) (hP : P H) {l : Lk} (hl : ∀ x, l ≠ .timer x)
    (hunder : Above (timerRank owner) H l) : Takes ok H l :=
  ⟨h.takes H l hP hl hunder, hunder.not_mem⟩

theorem InOrder.pollsPath (h : InOrder owner ok P) (hP : P H) {x : Nat}
    (hunder : Above (timerRank owner) H (.pollLock x)) (polls : List Nat) :
    Neutral ok act H (pollsPath x polls) := by
  have hP' : P (insert (.pollLock x) H) := h.keep H _ hP (by simp)
  refine (h.take hP (by simp) hunder).locked (neutral_flatMap ?_)
  intro p _
  have hpoll : Above (timerRank owner) H (.poll p) := hunder.le (by simp)
  exact (h.take hP' (by simp) (hpoll.insert (by simp))).neutral

/-- A signal, with locks in hand that come before `pids_lock` or are it. -/
theorem InOrder.sendPath (h : InOrder owner ok P) (hP : P H) {m : Mail} {q : Pid}
    {sig : Option Sig} (hsighand : ∀ a, Above (timerRank owner) H (.sighand a))
    (hgroup : sig = some Signal.SIGCONT ∨ sig = some Signal.SIGKILL →
      ∀ g, Above (timerRank owner) H (.group g)) (cur : Pid) :
    Neutral ok act H (sendPath m cur q sig) := by
  have hwaiting : Above (timerRank owner) H (.waitingCond q) := (hsighand 0).le (by simp)
  exact neutral_sendPath (h.take hP (by simp) (hsighand _)) (h.take hP (by simp) hwaiting)
    (fun hsig => h.take hP (by simp [groupLock]) (hgroup hsig _)) cur

end Common

/-! ## The calls keep to the order -/

section Guest

variable {H : Set Lk}

variable (owner) in
/-- The path keeps to the rule of the guests, and ends with the locks that it started with. -/
abbrev GuestKeeps (n : Nat) (H : Set Lk) (es : List TimerEv) : Prop :=
  Neutral (threadOk owner (.guest n)) (threadAct (.guest n)) H es

theorem guards_ne_timer {x : Nat} {o : Lk} (ho : o ∈ guards owner x) (y : Nat) : o ≠ .timer y := by
  unfold guards at ho
  split at ho
  · obtain rfl : o = .fd x := ho
    simp
  · obtain ⟨g, rfl⟩ := ho
    simp
  · next g _ =>
    obtain rfl : o = .group g := ho
    simp

/-- The lock of a timer under that of what it belongs to. -/
theorem timerSetPath_neutral (n : Nat) {x : Nat} {o : Lk} (ho : o ∈ guards owner x) (arms : Bool) :
    GuestKeeps owner n {o} (timerSetPath x arms) := by
  have hnot : ∀ y, timer y ∉ ({o} : Set Lk) := fun y hy => guards_ne_timer ho y hy.symm
  refine locked ⟨hnot, .inr ⟨x, rfl, o, ho, rfl⟩⟩ (hnot x) ?_
  cases arms with
  | false => exact neutral_nil
  | true => exact ⟨Set.mem_insert _ _, rfl⟩

/-- A lock that a guest takes with nothing in hand. -/
theorem guest_locked {n : Nat} {l : Lk} (hl : ∀ x, l ≠ .timer x) {es : List TimerEv}
    (hes : GuestKeeps owner n {l} es) :
    GuestKeeps owner n ∅ (locked l es) := by
  have hinsert : insert l (∅ : Set Lk) = {l} := by simp
  refine (guestOk_inOrder.take ?_ hl (above_empty l)).locked ?_
  · intro x hx
    cases hx
  rw [hinsert]
  exact hes

theorem fdClosePath_neutral (n f : Nat) (closed : Nat × List Nat) :
    GuestKeeps owner n {files f} (fdClosePath owner closed) := by
  have hnot : ∀ x, timer x ∉ ({files f} : Set Lk) := by simp
  refine append (guestOk_inOrder.pollsPath hnot (above_singleton (by simp)) _) ?_
  cases howner : owner closed.1 with
  | timerfd =>
    have hunder : Above (timerRank owner) {files f} (.timer closed.1) :=
      above_singleton (by simp [howner])
    exact neutral_locked_nil ⟨hnot, .inl hunder⟩ (hnot _)
  | posix | itimer g => exact neutral_nil

theorem killThreadPath_neutral (n : Nat) (e : Exiting) (q : Pid) :
    GuestKeeps owner n {group e.group, pids} (killThreadPath e q) := by
  have hnot : ∀ x, timer x ∉ ({group e.group, pids} : Set Lk) := by simp
  have hsighand : Above (timerRank owner) {group e.group, pids} (.sighand (e.mail.sighand q)) :=
    Above.insert (by simp) (above_singleton (by simp))
  have htake : Takes (threadOk owner (.guest n)) {group e.group, pids}
      (.sighand (e.mail.sighand q)) := guestOk_inOrder.take hnot (by simp) hsighand
  refine htake.locked (neutral_deliverPath htake ?_ _ _)
  exact guestOk_inOrder.take hnot (by simp) (hsighand.le (by simp))

theorem exitGroupPath_neutral (n : Nat) (e : Exiting) : GuestKeeps owner n ∅ (exitGroupPath e) := by
  refine guest_locked (by simp) ?_
  have hgroup : Takes (threadOk owner (.guest n)) {pids} (.group e.group) :=
    guestOk_inOrder.take (by simp) (by simp) (above_singleton (by simp))
  exact hgroup.locked (neutral_flatMap fun q _ => killThreadPath_neutral n e q)

theorem exitTimerPath_neutral (n : Nat) (e : Exiting) :
    GuestKeeps owner n {pids} (exitTimerPath owner e) := by
  have hnot : ∀ x, timer x ∉ ({pids} : Set Lk) := by simp
  unfold exitTimerPath
  rcases e.timer with _ | x
  · exact neutral_nil
  dsimp only
  cases howner : owner x with
  | timerfd | posix => exact neutral_nil
  | itimer g =>
    have hunder : Above (timerRank owner) {pids} (.timer x) := above_singleton (by simp [howner])
    exact neutral_locked_nil ⟨hnot, .inl hunder⟩ (hnot _)

theorem doExitPath_neutral (n : Nat) (e : Exiting) : GuestKeeps owner n ∅ (doExitPath owner e) := by
  have hnot : ∀ x, timer x ∉ ({pids} : Set Lk) := by simp
  refine append (append ?_ ?_) ?_
  · exact guest_locked (by simp) (neutral_flatMap fun c _ => fdClosePath_neutral n _ c)
  · exact guest_locked (by simp) neutral_nil
  refine guest_locked (by simp) (append (append ?_ ?_) ?_)
  · exact exitTimerPath_neutral n e
  · cases e.notified with
    | none => exact neutral_nil
    | some note =>
      exact guestOk_inOrder.sendPath hnot (fun a => above_singleton (by simp))
        (fun _ g => above_singleton (by simp)) e.task
  have hgeneral : Takes (threadOk owner (.guest n)) {pids} (.general e.task) :=
    guestOk_inOrder.take hnot (by simp) (above_singleton (by simp))
  refine hgeneral.locked ?_
  rcases e.vfork with _ | _
  · exact neutral_nil
  have hunder : Above (timerRank owner) {general e.task, pids} (.vforkInfo e.task) :=
    Above.insert (by simp) (above_singleton (by simp))
  have htake : Takes (threadOk owner (.guest n)) {general e.task, pids}
      (.vforkInfo e.task) := guestOk_inOrder.take (by simp) (by simp) hunder
  exact htake.neutral

/-- **The calls.** Every path of a call keeps to the rule of the guests. -/
theorem timerCallPath_neutral (n : Nat) (c : TimerCall) :
    GuestKeeps owner n ∅ (timerCallPath owner c) := by
  cases c with
  | timerfdSettime f x arms =>
    refine append (guest_locked (by simp) neutral_nil) ?_
    cases howner : owner x with
    | timerfd =>
      have hfd : Lk.fd x ∈ guards owner x := by simp [guards, howner]
      exact guest_locked (by simp) (timerSetPath_neutral n hfd arms)
    | posix | itimer g => exact neutral_nil
  | timerSettime g x arms =>
    change Neutral _ _ ∅ (timerSettimePath owner g x arms)
    unfold timerSettimePath
    cases howner : owner x with
    | posix =>
      have hgroup : Lk.group g ∈ guards owner x := by simp [guards, howner]
      exact guest_locked (by simp) (timerSetPath_neutral n hgroup arms)
    | timerfd | itimer g => exact neutral_nil
  | timerDelete g x there =>
    change Neutral _ _ ∅ (timerDeletePath owner g x there)
    unfold timerDeletePath
    cases howner : owner x with
    | posix =>
      have hgroup : Lk.group g ∈ guards owner x := by simp [guards, howner]
      refine guest_locked (guards_ne_timer hgroup) ?_
      cases there with
      | false => exact neutral_nil
      | true => exact timerSetPath_neutral n hgroup false
    | timerfd | itimer g => exact neutral_nil
  | setitimer x arms =>
    change Neutral _ _ ∅ (setitimerPath owner x arms)
    unfold setitimerPath
    cases howner : owner x with
    | timerfd | posix => exact neutral_nil
    | itimer g =>
      have hgroup : Lk.group g ∈ guards owner x := by simp [guards, howner]
      exact guest_locked (by simp) (timerSetPath_neutral n hgroup arms)
  | close f closed =>
    refine guest_locked (by simp) ?_
    cases closed with
    | none => exact neutral_nil
    | some c => exact fdClosePath_neutral n f c
  | exitGroup e => exact (exitGroupPath_neutral n e).append (doExitPath_neutral n e)

end Guest

/-! ## The thread of a timer keeps to the order -/

theorem callbackPath_neutral (x : Nat) (e : Expiry) :
    Neutral (threadOk owner (.timer x)) (threadAct (.timer x)) {timer x}
      (callbackPath owner x e) := by
  have horder : InOrder owner (threadOk owner (.timer x)) fun _ => True := timerOk_inOrder x
  unfold callbackPath
  cases howner : owner x with
  | timerfd =>
    have hfd : Above (timerRank owner) {timer x} (.fd x) := above_singleton (by simp [howner])
    have hpollLock : Above (timerRank owner) {timer x} (.pollLock x) :=
      above_singleton (by simp [howner])
    exact append (horder.take trivial (by simp) hfd).neutral
      (horder.pollsPath trivial hpollLock e.polls)
  | posix =>
    have hpids : Above (timerRank owner) {timer x} .pids := above_singleton (by simp [howner])
    refine (horder.take trivial (by simp) hpids).locked ?_
    cases e.target with
    | none => exact neutral_nil
    | some note =>
      refine horder.sendPath trivial (fun a => ?_) (fun _ g' => ?_) 0
      · exact Above.insert (by simp) (hpids.le (by simp))
      · exact Above.insert (by simp) (hpids.le (by simp))
  | itimer g =>
    rcases e.target with _ | note
    · exact neutral_nil
    -- `SIGALRM` neither kills nor continues, so the lock of the group is not taken.
    change Neutral _ _ _ (sendPath e.mail 0 note.1 (some SIGALRM))
    refine horder.sendPath trivial (fun a => ?_) (fun hsig => ?_) 0
    · exact above_singleton (by simp [howner])
    · exact absurd hsig (by decide)

/-- **The turns.** The thread of a timer keeps to its rule, and has no lock but that of its timer
when the turn is over. -/
theorem turnPath_follows (x : Nat) (c : Turn) :
    Follows (threadOk owner (.timer x)) (threadAct (.timer x)) (threadRest (.timer x))
      {timer x} (turnPath owner x c) := by
  have hempty : ({timer x} : Set Lk) \ {timer x} = ∅ := Set.sdiff_self
  cases c with
  | sleep =>
    refine ⟨rfl, ⟨?_, fun y hy => (timer.inj hy).symm⟩, ?_⟩
    · change Above (timerRank owner) ({timer x} \ {timer x}) _
      rw [hempty]
      exact above_empty _
    change insert (timer x) (({timer x} : Set Lk) \ {timer x}) ⊆ _
    rw [hempty]
    simp
  | expire e =>
    refine (callbackPath_neutral x e).imp ?_
    rintro H rfl
    exact subset_rfl
  | finish =>
    refine ⟨rfl, ?_⟩
    exact Set.sdiff_subset

end Order

end Ish.Locking
