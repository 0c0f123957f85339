import Ish.Lib.Machine
import Ish.Lib.Links

set_option autoImplicit false

/-! # Futexes

`FUTEX_WAIT`, `FUTEX_WAKE` and `FUTEX_REQUEUE` (`kernel/futex.c`), as a machine of threads that
interleave. A step ends where something that does not need `futex_lock` can come in: another
thread's store to the word, a timeout, a wakeup without a cause. Each turn of a loop is a step.

`wait_for` gives up the lock and sleeps in one step. A thread comes out of the condition variable
when it is notified, when its time is up or for no reason, which settles what it returns, and it
has then to get the lock back.

A futex is known by its address in memory, which a later futex can have again once it is freed.
The `struct futex_wait` of a thread is on its stack, so a waiter is known by the thread. A thread
that has executed another program has another address space and counts as another thread. The
counters do not wrap: there are fewer than `2 ^ 15` threads, and each holds two references at most.
-/

namespace Ish.Futexes

open Option Function Ish.Lib

abbrev FId := Nat

/-! ## The state -/

structure Futex (μ : Type) where
  refcount : Nat
  mem : μ
  addr : UInt32

/-- The arguments of `futex_wait`. -/
structure WaitCall where
  uaddr : UInt32
  val : UInt32
  timed : Bool
deriving DecidableEq

/-- `FUTEX_REQUEUE`'s `requeue_max` and `requeue_addr`. -/
structure Requeue where
  max : UInt32
  addr : UInt32
deriving DecidableEq

/-- The arguments of `futex_wakelike`. -/
structure WakeCall where
  uaddr : UInt32
  wakeMax : UInt32
  requeue : Option Requeue
deriving DecidableEq

inductive Call where
  | wait (c : WaitCall)
  | wake (c : WakeCall)
deriving DecidableEq

inductive WaitResult where
  | ok
  | timedOut
  | eagain
  | efault
deriving DecidableEq

inductive Result where
  | wait (r : WaitResult)
  | count (n : Nat)
deriving DecidableEq

/-- Where a thread is. -/
inductive Pc (τ : Type) where
  | idle
  /-- Before `lock(&futex_lock)`. -/
  | start (c : Call)
  /-- `futex_wait` before and after `futex_load`. -/
  | load (f : FId) (c : WaitCall)
  | loaded (f : FId) (c : WaitCall) (word : Option UInt32)
  /-- In the condition variable. -/
  | asleep (c : WaitCall)
  /-- Out of it, and without the lock. -/
  | waking (c : WaitCall) (r : WaitResult)
  /-- After `wait_for`. -/
  | back (c : WaitCall) (r : WaitResult)
  | putWait (f : FId) (c : WaitCall) (r : WaitResult)
  /-- The first loop of `futex_wakelike`, with its two pointers. -/
  | wakeLoop (f : FId) (c : WakeCall) (wait tmp : Option τ) (woken : Nat)
  | requeueGet (f : FId) (c : WakeCall) (q : Requeue) (woken : Nat)
  | requeueLoop (f f2 : FId) (c : WakeCall) (q : Requeue) (wait tmp : Option τ)
      (woken requeued : Nat)
  | put2 (f f2 : FId) (c : WakeCall) (woken : Nat)
  | put (f : FId) (c : WakeCall) (woken : Nat)

structure State (τ μ : Type) where
  futexes : FId → Option (Futex μ)
  /-- The chains of `futex_hash`. -/
  buckets : Nat → List FId
  queue : FId → List τ
  /-- `wait.futex` of a thread in `futex_wait`. -/
  wait : τ → Option FId
  /-- Who has `futex_lock`. -/
  lock : Option τ
  /-- The threads that are in a call. -/
  calls : Finset τ
  pc : τ → Pc τ
  memory : μ → UInt32 → Option UInt32
  /-- An assertion has failed, or a freed futex was used. -/
  failed : Bool

/-- What happens next. The address is the one that `malloc` returns, if it is called. -/
inductive Label (τ μ : Type) where
  | call (t : τ) (c : Call)
  | step (t : τ) (fresh : FId)
  | timeout (t : τ)
  | spurious (t : τ)
  | store (m : μ) (a : UInt32) (v : Option UInt32)

section Model

variable {τ μ : Type} [DecidableEq τ] [DecidableEq μ]
  -- the address space of each thread, and the hash of an address in it
  (mem : τ → μ) (hash : μ → UInt32 → Nat)

/-! ## Getting and putting a futex -/

/-- The futex of the address, in the chain of its hash. -/
def State.lookup (σ : State τ μ) (m : μ) (a : UInt32) : Option FId :=
  (σ.buckets (hash m a)).find? fun f =>
    (σ.futexes f).any fun F => decide (F.addr = a) && decide (F.mem = m)

/-- `futex_get_unlocked`. -/
def State.get (σ : State τ μ) (m : μ) (a : UInt32) (fresh : FId) : Option (FId × State τ μ) :=
  match σ.lookup hash m a with
  | some f =>
    some (f,
      { σ with
        futexes := update σ.futexes f
          ((σ.futexes f).map fun F => { F with refcount := F.refcount + 1 }) })
  | none =>
    if (σ.futexes fresh).isSome then none
    else
      some (fresh,
        { σ with
          futexes := update σ.futexes fresh (some ⟨1, m, a⟩)
          queue := update σ.queue fresh []
          buckets := link σ.buckets (hash m a) fresh })

/-- `futex_put_unlocked`. -/
def State.put (σ : State τ μ) (f : FId) : State τ μ :=
  match σ.futexes f with
  | none => { σ with failed := true }
  | some F =>
    if F.refcount = 1 then
      { σ with
        futexes := update σ.futexes f none
        buckets := unlink σ.buckets f
        failed := σ.failed || !(σ.queue f).isEmpty }
    else
      { σ with
        futexes := update σ.futexes f
          (some { F with refcount := F.refcount - 1 }) }

/-! ## The steps -/

def State.goto (σ : State τ μ) (t : τ) (pc : Pc τ) : State τ μ :=
  { σ with pc := update σ.pc t pc }

/-- The begin of a call. -/
def State.enter (σ : State τ μ) (t : τ) (c : Call) : State τ μ :=
  { σ with pc := update σ.pc t (.start c), calls := insert t σ.calls }

/-- The end of a call, with the lock. -/
def State.leave (σ : State τ μ) (t : τ) : State τ μ :=
  { σ with pc := update σ.pc t .idle, lock := none, calls := σ.calls.erase t }

/-- `item->next`; `none` is the head of the list. -/
def nextOf (l : List τ) : Option τ → Option τ
  | none => l.head?
  | some w => (l.dropWhile fun x => decide (x ≠ w)).tail.head?

/-- `notify(&wait->cond)`: it reaches the waiter if it is still in the condition variable. -/
def Pc.notified : Pc τ → Pc τ
  | .asleep c => .waking c .ok
  | p => p

def State.notify (σ : State τ μ) (w : τ) : State τ μ := σ.goto w (σ.pc w).notified

/-- What `futex_wait` does with the word: `none` is to go to sleep. -/
def verdict (c : WaitCall) : Option UInt32 → Option WaitResult
  | none => some .efault
  | some word => if word ≠ c.val then some .eagain else none

/-- The turn of the second loop: the waiter and one reference go to the other futex. -/
def State.move (σ : State τ μ) (f f2 : FId) (w : τ) : State τ μ :=
  let queue := unlink σ.queue w
  let dec : Futex μ → Futex μ := fun F => { F with refcount := F.refcount - 1 }
  let inc : Futex μ → Futex μ := fun F => { F with refcount := F.refcount + 1 }
  let futexes := update σ.futexes f ((σ.futexes f).map dec)
  { σ with
    queue := update queue f2 (queue f2 ++ [w])
    futexes := update futexes f2 ((futexes f2).map inc)
    wait := update σ.wait w (some f2)
    failed := σ.failed || !((σ.futexes f).any fun F => decide (1 < F.refcount)) }

/-- Where the first loop leads. -/
def afterWake (f : FId) (c : WakeCall) (woken : Nat) : Pc τ :=
  match c.requeue with
  | some q => .requeueGet f c q woken
  | none => .put f c woken

/-- The next step of a thread, and what its call returns if it ends. -/
def State.advance (σ : State τ μ) (t : τ) (fresh : FId) :
    Option (State τ μ × Option (τ × Result)) :=
  match σ.pc t with
  | .idle => none
  | .start (.wait c) =>
    if σ.lock.isSome then none
    else
      (σ.get hash (mem t) c.uaddr fresh).map fun r =>
        ({ r.2 with lock := some t }.goto t (.load r.1 c), none)
  | .start (.wake c) =>
    if σ.lock.isSome then none
    else
      (σ.get hash (mem t) c.uaddr fresh).map fun r =>
        let first := nextOf (r.2.queue r.1) none
        ({ r.2 with lock := some t }.goto t
          (.wakeLoop r.1 c first (nextOf (r.2.queue r.1) first) 0), none)
  | .load f c =>
    match σ.futexes f with
    | none => some ({ σ with failed := true }, none)
    | some F =>
      some ({ σ with failed := σ.failed || !decide (F.mem = mem t) }.goto t
        (.loaded f c (σ.memory (mem t) F.addr)), none)
  | .loaded f c word =>
    match verdict c word with
    | some r => some (σ.goto t (.putWait f c r), none)
    | none =>
      some
        ({ σ with
            wait := update σ.wait t (some f)
            queue := update σ.queue f (σ.queue f ++ [t])
            lock := none }.goto t (.asleep c), none)
  | .asleep _ => none
  | .waking c r =>
    if σ.lock.isSome then none
    else some ({ σ with lock := some t }.goto t (.back c r), none)
  | .back c r =>
    (σ.wait t).map fun f =>
      ({ σ with
          wait := update σ.wait t none
          queue := unlink σ.queue t }.goto t (.putWait f c r), none)
  | .putWait f _ r => some ((σ.put f).leave t, some (t, .wait r))
  | .wakeLoop f c wait tmp woken =>
    match wait with
    | some w =>
      if c.wakeMax.toNat ≤ woken then some (σ.goto t (afterWake f c woken), none)
      else
        let σ1 := { σ.notify w with queue := unlink σ.queue w }
        some (σ1.goto t (.wakeLoop f c tmp (nextOf (σ1.queue f) tmp) (woken + 1)), none)
    | none => some (σ.goto t (afterWake f c woken), none)
  | .requeueGet f c q woken =>
    (σ.get hash (mem t) q.addr fresh).map fun r =>
      let first := nextOf (r.2.queue f) none
      (r.2.goto t (.requeueLoop f r.1 c q first (nextOf (r.2.queue f) first) woken 0), none)
  | .requeueLoop f f2 c q wait tmp woken requeued =>
    match wait with
    | some w =>
      if q.max.toNat ≤ requeued then some (σ.goto t (.put2 f f2 c (woken + requeued)), none)
      else
        let σ1 := σ.move f f2 w
        some (σ1.goto t
          (.requeueLoop f f2 c q tmp (nextOf (σ1.queue f) tmp) woken (requeued + 1)), none)
    | none => some (σ.goto t (.put2 f f2 c (woken + requeued)), none)
  | .put2 f f2 c woken => some ((σ.put f2).goto t (.put f c woken), none)
  | .put f _ woken => some ((σ.put f).leave t, some (t, .count (woken % 2 ^ 32)))

def State.step (σ : State τ μ) : Label τ μ → Option (State τ μ × Option (τ × Result))
  | .call t c =>
    match σ.pc t with
    | .idle => some (σ.enter t c, none)
    | _ => none
  | .step t fresh => σ.advance mem hash t fresh
  | .timeout t =>
    match σ.pc t with
    | .asleep c => if c.timed then some (σ.goto t (.waking c .timedOut), none) else none
    | _ => none
  | .spurious t =>
    match σ.pc t with
    | .asleep c => some (σ.goto t (.waking c .ok), none)
    | _ => none
  | .store m a v =>
    some ({ σ with
      memory := update σ.memory m (update (σ.memory m) a v) }, none)

def machine : Machine (State τ μ) (Label τ μ) (Option (τ × Result)) := ⟨State.step mem hash⟩

/-- Nobody is in a call. -/
def State.init (memory : μ → UInt32 → Option UInt32) : State τ μ where
  futexes := fun _ => none
  buckets := fun _ => []
  queue := fun _ => []
  wait := fun _ => none
  lock := none
  calls := ∅
  pc := fun _ => .idle
  memory := memory
  failed := false

/-! ## What a step can be -/

/-- The steps, with what they find and what they leave. -/
inductive Moves (σ : State τ μ) : Label τ μ → State τ μ → Option (τ × Result) → Prop where
  | call {t : τ} {c : Call} (hpc : σ.pc t = .idle) :
      Moves σ (.call t c) (σ.enter t c) none
  | getWait {t : τ} {fresh f : FId} {c : WaitCall} {σ1 : State τ μ}
      (hpc : σ.pc t = .start (.wait c)) (hlock : σ.lock = none)
      (hget : σ.get hash (mem t) c.uaddr fresh = some (f, σ1)) :
      Moves σ (.step t fresh) ({ σ1 with lock := some t }.goto t (.load f c)) none
  | getWake {t : τ} {fresh f : FId} {c : WakeCall} {σ1 : State τ μ}
      (hpc : σ.pc t = .start (.wake c)) (hlock : σ.lock = none)
      (hget : σ.get hash (mem t) c.uaddr fresh = some (f, σ1)) :
      Moves σ (.step t fresh)
        ({ σ1 with lock := some t }.goto t
          (.wakeLoop f c (nextOf (σ1.queue f) none)
            (nextOf (σ1.queue f) (nextOf (σ1.queue f) none)) 0)) none
  | load {t : τ} {fresh f : FId} {c : WaitCall} {F : Futex μ} (hpc : σ.pc t = .load f c)
      (hF : σ.futexes f = some F) :
      Moves σ (.step t fresh)
        ({ σ with failed := σ.failed || !decide (F.mem = mem t) }.goto t
          (.loaded f c (σ.memory (mem t) F.addr))) none
  | loadFreed {t : τ} {fresh f : FId} {c : WaitCall} (hpc : σ.pc t = .load f c)
      (hF : σ.futexes f = none) : Moves σ (.step t fresh) { σ with failed := true } none
  | declines {t : τ} {fresh f : FId} {c : WaitCall} {word : Option UInt32} {r : WaitResult}
      (hpc : σ.pc t = .loaded f c word) (hword : verdict c word = some r) :
      Moves σ (.step t fresh) (σ.goto t (.putWait f c r)) none
  | sleeps {t : τ} {fresh f : FId} {c : WaitCall} {word : Option UInt32}
      (hpc : σ.pc t = .loaded f c word) (hword : verdict c word = none) :
      Moves σ (.step t fresh)
        ({ σ with
            wait := update σ.wait t (some f)
            queue := update σ.queue f (σ.queue f ++ [t])
            lock := none }.goto t (.asleep c)) none
  | relock {t : τ} {fresh : FId} {c : WaitCall} {r : WaitResult} (hpc : σ.pc t = .waking c r)
      (hlock : σ.lock = none) :
      Moves σ (.step t fresh) ({ σ with lock := some t }.goto t (.back c r)) none
  | unqueue {t : τ} {fresh f : FId} {c : WaitCall} {r : WaitResult} (hpc : σ.pc t = .back c r)
      (hwait : σ.wait t = some f) :
      Moves σ (.step t fresh)
        ({ σ with
            wait := update σ.wait t none
            queue := unlink σ.queue t }.goto t (.putWait f c r)) none
  | putWait {t : τ} {fresh f : FId} {c : WaitCall} {r : WaitResult}
      (hpc : σ.pc t = .putWait f c r) :
      Moves σ (.step t fresh) ((σ.put f).leave t) (some (t, .wait r))
  | wakeTurn {t w : τ} {fresh f : FId} {c : WakeCall} {tmp : Option τ} {woken : Nat}
      (hpc : σ.pc t = .wakeLoop f c (some w) tmp woken) (hmax : woken < c.wakeMax.toNat) :
      Moves σ (.step t fresh)
        ({ σ.notify w with queue := unlink σ.queue w }.goto t
          (.wakeLoop f c tmp (nextOf (unlink σ.queue w f) tmp) (woken + 1))) none
  | wakeDone {t : τ} {fresh f : FId} {c : WakeCall} {wait tmp : Option τ} {woken : Nat}
      (hpc : σ.pc t = .wakeLoop f c wait tmp woken)
      (hend : wait = none ∨ c.wakeMax.toNat ≤ woken) :
      Moves σ (.step t fresh) (σ.goto t (afterWake f c woken)) none
  | requeueGet {t : τ} {fresh f f2 : FId} {c : WakeCall} {q : Requeue} {woken : Nat}
      {σ1 : State τ μ} (hpc : σ.pc t = .requeueGet f c q woken)
      (hget : σ.get hash (mem t) q.addr fresh = some (f2, σ1)) :
      Moves σ (.step t fresh)
        (σ1.goto t
          (.requeueLoop f f2 c q (nextOf (σ1.queue f) none)
            (nextOf (σ1.queue f) (nextOf (σ1.queue f) none)) woken 0)) none
  | requeueTurn {t w : τ} {fresh f f2 : FId} {c : WakeCall} {q : Requeue} {tmp : Option τ}
      {woken requeued : Nat} (hpc : σ.pc t = .requeueLoop f f2 c q (some w) tmp woken requeued)
      (hmax : requeued < q.max.toNat) :
      Moves σ (.step t fresh)
        ((σ.move f f2 w).goto t
          (.requeueLoop f f2 c q tmp (nextOf ((σ.move f f2 w).queue f) tmp) woken
            (requeued + 1))) none
  | requeueDone {t : τ} {fresh f f2 : FId} {c : WakeCall} {q : Requeue} {wait tmp : Option τ}
      {woken requeued : Nat} (hpc : σ.pc t = .requeueLoop f f2 c q wait tmp woken requeued)
      (hend : wait = none ∨ q.max.toNat ≤ requeued) :
      Moves σ (.step t fresh) (σ.goto t (.put2 f f2 c (woken + requeued))) none
  | put2 {t : τ} {fresh f f2 : FId} {c : WakeCall} {woken : Nat}
      (hpc : σ.pc t = .put2 f f2 c woken) :
      Moves σ (.step t fresh) ((σ.put f2).goto t (.put f c woken)) none
  | put {t : τ} {fresh f : FId} {c : WakeCall} {woken : Nat} (hpc : σ.pc t = .put f c woken) :
      Moves σ (.step t fresh) ((σ.put f).leave t) (some (t, .count (woken % 2 ^ 32)))
  | timeout {t : τ} {c : WaitCall} (hpc : σ.pc t = .asleep c) (htimed : c.timed = true) :
      Moves σ (.timeout t) (σ.goto t (.waking c .timedOut)) none
  | spurious {t : τ} {c : WaitCall} (hpc : σ.pc t = .asleep c) :
      Moves σ (.spurious t) (σ.goto t (.waking c .ok)) none
  | store {m : μ} {a : UInt32} {v : Option UInt32} :
      Moves σ (.store m a v)
        { σ with memory := update σ.memory m (update (σ.memory m) a v) } none

variable {mem hash}

theorem advance_moves {σ σ' : State τ μ} {t : τ} {fresh : FId} {out : Option (τ × Result)}
    (h : σ.advance mem hash t fresh = some (σ', out)) :
    Moves mem hash σ (.step t fresh) σ' out := by
  unfold State.advance at h
  cases hpc : σ.pc t with
  | idle => simp [hpc] at h
  | start c =>
    cases c with
    | wait c =>
      simp only [hpc, ite_none_left_eq_some, map_eq_some_iff] at h
      obtain ⟨hlock, ⟨f, σ1⟩, hget, heq⟩ := h
      cases heq
      exact .getWait hpc (by simpa using hlock) hget
    | wake c =>
      simp only [hpc, ite_none_left_eq_some, map_eq_some_iff] at h
      obtain ⟨hlock, ⟨f, σ1⟩, hget, heq⟩ := h
      cases heq
      exact .getWake hpc (by simpa using hlock) hget
  | load f c =>
    cases hF : σ.futexes f with
    | none =>
      simp only [hpc, hF] at h
      cases h
      exact .loadFreed hpc hF
    | some F =>
      simp only [hpc, hF] at h
      cases h
      exact .load hpc hF
  | loaded f c word =>
    cases hword : verdict c word with
    | some r =>
      simp only [hpc, hword] at h
      cases h
      exact .declines hpc hword
    | none =>
      simp only [hpc, hword] at h
      cases h
      exact .sleeps hpc hword
  | asleep c => simp [hpc] at h
  | waking c r =>
    simp only [hpc, ite_none_left_eq_some, some.injEq] at h
    obtain ⟨hlock, heq⟩ := h
    cases heq
    exact .relock hpc (by simpa using hlock)
  | back c r =>
    simp only [hpc, map_eq_some_iff] at h
    obtain ⟨f, hwait, heq⟩ := h
    cases heq
    exact .unqueue hpc hwait
  | putWait f c r =>
    simp only [hpc] at h
    cases h
    exact .putWait hpc
  | wakeLoop f c wait tmp woken =>
    cases wait with
    | none =>
      simp only [hpc] at h
      cases h
      exact .wakeDone hpc (.inl rfl)
    | some w =>
      by_cases hmax : c.wakeMax.toNat ≤ woken
      · simp only [hpc, hmax, if_true] at h
        cases h
        exact .wakeDone hpc (.inr hmax)
      simp only [hpc, hmax, if_false] at h
      cases h
      exact .wakeTurn hpc (Nat.lt_of_not_le hmax)
  | requeueGet f c q woken =>
    simp only [hpc, map_eq_some_iff] at h
    obtain ⟨⟨f2, σ1⟩, hget, heq⟩ := h
    cases heq
    exact .requeueGet hpc hget
  | requeueLoop f f2 c q wait tmp woken requeued =>
    cases wait with
    | none =>
      simp only [hpc] at h
      cases h
      exact .requeueDone hpc (.inl rfl)
    | some w =>
      by_cases hmax : q.max.toNat ≤ requeued
      · simp only [hpc, hmax, if_true] at h
        cases h
        exact .requeueDone hpc (.inr hmax)
      simp only [hpc, hmax, if_false] at h
      cases h
      exact .requeueTurn hpc (Nat.lt_of_not_le hmax)
  | put2 f f2 c woken =>
    simp only [hpc] at h
    cases h
    exact .put2 hpc
  | put f c woken =>
    simp only [hpc] at h
    cases h
    exact .put hpc

theorem step_moves {σ σ' : State τ μ} {l : Label τ μ} {out : Option (τ × Result)}
    (h : (machine mem hash).step σ l = some (σ', out)) : Moves mem hash σ l σ' out := by
  change σ.step mem hash l = some (σ', out) at h
  cases l with
  | call t c =>
    cases hpc : σ.pc t with
    | idle =>
      simp only [State.step, hpc] at h
      cases h
      exact .call hpc
    | _ => simp [State.step, hpc] at h
  | step t fresh => exact advance_moves h
  | timeout t =>
    cases hpc : σ.pc t with
    | asleep c =>
      simp only [State.step, hpc, ite_none_right_eq_some, some.injEq] at h
      obtain ⟨htimed, heq⟩ := h
      cases heq
      exact .timeout hpc htimed
    | _ => simp [State.step, hpc] at h
  | spurious t =>
    cases hpc : σ.pc t with
    | asleep c =>
      simp only [State.step, hpc] at h
      cases h
      exact .spurious hpc
    | _ => simp [State.step, hpc] at h
  | store m a v =>
    cases h
    exact .store

end Model

end Ish.Futexes
