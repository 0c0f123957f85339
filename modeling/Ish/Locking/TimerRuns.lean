import Ish.Locking.Timers

set_option autoImplicit false

/-! # Who waits for whom while timers go off

The order of the locks of `Locking/Timers.lean` is kept by everybody but for one step: a call that
arms or deletes the timer of an open file or of a thread group has the lock of the owner and takes
that of the timer. That step is safe while the thread of the timer does not run and nobody else
arms the timer, which can be in another group after a `fork`. It is not safe otherwise: the
counterexample at the end has a call and a thread that wait for each other, and a call, a thread and
an `exit_group` that wait in a circle.
-/

namespace Ish.Locking.TimerSys

open List Function Ish.Lib Ish.Lib.LockEvent Threads

open Ish.Signal (Mail)

variable {owner : Nat → Owner}

section Invariant

variable (owner)

/-- The timer of an open file or one of `timer_create`, whose lock comes before that of the
owner. -/
def Early (x : Nat) : Prop := ∀ g, owner x ≠ .itimer g

/-- The guest has the lock of an owner and wants that of its timer. -/
structure InWindow (s : TimerSys) (n x : Nat) : Prop where
  early : Early owner x
  wants : ∃ es, s.threads.todo (.guest n) = .acquire (.timer x) :: es
  has : ∃ o ∈ guards owner x, o ∈ s.threads.held (.guest n)

/-- What every state of a run has. -/
structure Inv (s : TimerSys) : Prop where
  disciplined : s.threads.Disciplined (threadOk owner) threadAct threadRest
  window : ∀ n x, InWindow owner s n x → s.running x = false
  /-- A thread that does not run has at most to give back the lock of its timer. -/
  stopped : ∀ x, s.running x = false → s.threads.todo (.timer x) = [] ∨
    s.threads.todo (.timer x) = [.release (.timer x)]
  own : ∀ x y, .timer x ∈ s.threads.held (.timer y) → x = y

/-- **The condition.** A guest takes the lock of an owner, with that of its timer next, only while
the thread of the timer does not run; and the thread is not started while another guest has the
lock of an owner and wants that of the timer. -/
def Unhurried (s : TimerSys) : Label → Prop
  | .run (.guest n) =>
      (∀ e x es, Early owner x → s.threads.todo (.guest n) = e :: .acquire (.timer x) :: es →
        (∃ o ∈ guards owner x, o ∈ next (s.threads.held (.guest n)) e) → s.running x = false) ∧
      ∀ x es, s.threads.todo (.guest n) = .work x :: es → s.running x = false →
        ∀ m, ¬ InWindow owner s m x
  | _ => True

end Invariant

/-- The lock of an owner is out of order with that of its timer only for an early timer. -/
theorem early_of_not_under {x : Nat} {o : Lk} (ho : o ∈ guards owner x)
    (h : ¬ Above (timerRank owner) {o} (.timer x)) : Early owner x := by
  intro g hg
  rw [guards, hg] at ho
  obtain rfl : o = .group g := ho
  exact h (above_singleton (by simp [timerRank, hg]))

/-! ## Nobody waits in a circle -/

section Waiting

variable {s : TimerSys} {i j : Thread} {l : Lk} {es : List TimerEv}

open Classical in
/-- The place of the lock that a thread wants, if that is in order. -/
noncomputable def place (owner : Nat → Owner) (s : TimerSys) (i : Thread) : ℕ :=
  if ∀ l es, s.threads.todo i = .acquire l :: es → Above (timerRank owner) (s.threads.held i) l then
    s.threads.wants (timerRank owner) i
  else 13

theorem place_of_under (hi : s.threads.todo i = .acquire l :: es)
    (h : Above (timerRank owner) (s.threads.held i) l) : place owner s i = timerRank owner l := by
  unfold place
  rw [if_pos, wants_eq hi]
  intro l' es' hi'
  obtain ⟨heq, -⟩ := cons.inj (hi.symm.trans hi')
  cases heq
  exact h

theorem place_of_not_under (hi : s.threads.todo i = .acquire l :: es)
    (h : ¬ Above (timerRank owner) (s.threads.held i) l) : place owner s i = 13 := by
  unfold place
  rw [if_neg]
  intro hall
  exact h (hall l es hi)

/-- A thread that wants a lock out of order is a guest, about to take the lock of an early timer
with nothing in hand but that of the owner. -/
theorem Inv.out_of_order (hinv : Inv owner s) (hi : s.threads.todo i = .acquire l :: es)
    (h : ¬ Above (timerRank owner) (s.threads.held i) l) :
    ∃ x, l = .timer x ∧ (∃ o ∈ guards owner x, s.threads.held i = {o}) ∧ s.running x = false := by
  have hok := hinv.disciplined.ok_of_wants hi
  cases i with
  | timer y => exact absurd hok.1 h
  | guest n =>
    obtain ⟨-, hunder | ⟨x, rfl, o, ho, hheld⟩⟩ := hok
    · exact absurd hunder h
    have hearly : Early owner x := early_of_not_under ho (hheld ▸ h)
    have hhas : o ∈ s.threads.held (.guest n) := by
      rw [hheld]
      rfl
    exact ⟨x, rfl, ⟨o, ho, hheld⟩, hinv.window n x ⟨hearly, ⟨es, hi⟩, ⟨o, ho, hhas⟩⟩⟩

/-- Who holds the lock of a timer whose thread is stopped waits for nothing. -/
theorem Inv.not_waiting (hinv : Inv owner s) {x : Nat} (hstop : s.running x = false)
    (hl : Lk.timer x ∈ s.threads.held j) {l' : Lk} {es' : List TimerEv} :
    s.threads.todo j ≠ .acquire l' :: es' := by
  intro hj
  cases j with
  | guest n => exact (hinv.disciplined.ok_of_wants hj).1 x hl
  | timer y =>
    obtain rfl := hinv.own x y hl
    rcases hinv.stopped x hstop with hnil | hrelease
    · rw [hnil] at hj
      cases hj
    rw [hrelease] at hj
    cases hj

/-- **No circle.** In a state of the invariant no threads wait for each other in a circle. -/
theorem Inv.not_deadlocked (hinv : Inv owner s) : ¬ s.threads.Deadlocked := by
  refine not_deadlocked_of_rank (place owner s) ?_
  rintro i j k ⟨l, es, hi, hl⟩ ⟨l', es', hj, -⟩
  have hmem : l ∈ s.threads.held j := hl
  by_cases hunderj : Above (timerRank owner) (s.threads.held j) l'
  · rw [place_of_under hj hunderj]
    by_cases hunderi : Above (timerRank owner) (s.threads.held i) l
    · rw [place_of_under hi hunderi]
      exact hunderj l hmem
    -- the lock of a stopped timer, whose holder does not wait
    obtain ⟨x, rfl, -, hstop⟩ := hinv.out_of_order hi hunderi
    exact absurd hj (hinv.not_waiting hstop hmem)
  rw [place_of_not_under hj hunderj]
  obtain ⟨x, -, ⟨o, ho, hheld⟩, -⟩ := hinv.out_of_order hj hunderj
  rw [hheld] at hmem
  obtain rfl : l = o := hmem
  have hunderi : Above (timerRank owner) (s.threads.held i) l := by
    by_contra hnot
    obtain ⟨y, hy, -⟩ := hinv.out_of_order hi hnot
    exact guards_ne_timer ho y hy
  rw [place_of_under hi hunderi]
  exact Nat.lt_succ_of_le (timerRank_le owner _)

end Waiting

/-! ## The steps -/

section Steps

variable {s s' : TimerSys}
variable {n x y : Nat} {running : Nat → Bool} {c : Turn}

/-- A guest between two calls has no lock. -/
theorem Inv.guest_held (hinv : Inv owner s) (h : s.threads.todo (.guest n) = []) :
    s.threads.held (.guest n) = ∅ := by
  have hrest := hinv.disciplined (.guest n)
  rw [h] at hrest
  exact hrest

theorem Inv.call (hinv : Inv owner s) {c : TimerCall} (htodo : s.threads.todo (.guest n) = []) :
    Inv owner { s with threads := s.threads.start (.guest n) (timerCallPath owner c) } := by
  have hheld : s.threads.held (.guest n) = ∅ := hinv.guest_held htodo
  refine ⟨?_, ?_, ?_, hinv.own⟩
  · refine hinv.disciplined.start ?_
    rw [hheld]
    exact timerCallPath_neutral n c
  · rintro m x ⟨hearly, ⟨es, hm⟩, o, ho, hhas⟩
    by_cases hmn : m = n
    · subst hmn
      rw [start_held, hheld] at hhas
      cases hhas
    · rw [start_todo_of_ne _ (by simpa using hmn)] at hm
      exact hinv.window m x ⟨hearly, ⟨es, hm⟩, o, ho, hhas⟩
  intro x hx
  rw [start_todo_of_ne _ (by simp)]
  exact hinv.stopped x hx

/-- The thread of a timer at the head of its loop has the lock of the timer and no other. -/
theorem Inv.timer_held (hinv : Inv owner s) (htodo : s.threads.todo (.timer x) = [])
    (hholder : s.threads.holder (.timer x) = some (.timer x)) :
    s.threads.held (.timer x) = {Lk.timer x} := by
  have hrest := hinv.disciplined (.timer x)
  rw [htodo] at hrest
  refine Set.Subset.antisymm hrest ?_
  rintro l rfl
  exact hholder

theorem atLoop_iff : s.atLoop x = true ↔ s.running x = true ∧ s.threads.todo (.timer x) = [] ∧
      s.threads.holder (.timer x) = some (.timer x) := by
  simp [atLoop, and_assoc]

theorem running_of_turn (h : c.running running x y = false) :
    running y = false ∨ y = x ∧ c = .finish := by
  cases c with
  | sleep => exact .inl h
  | expire e => exact .inl h
  | finish =>
    by_cases hy : y = x
    · exact .inr ⟨hy, rfl⟩
    left
    rwa [Turn.running, update_of_ne hy] at h

theorem turn_of_running (h : running y = false) : c.running running x y = false := by
  cases c with
  | sleep => exact h
  | expire e => exact h
  | finish =>
    by_cases hy : y = x
    · rw [Turn.running, hy, update_self]
    · rwa [Turn.running, update_of_ne hy]

theorem Inv.turn (hinv : Inv owner s) (hloop : s.atLoop x = true) : Inv owner
      ⟨s.threads.start (.timer x) (turnPath owner x c), c.running s.running x⟩ := by
  obtain ⟨hrun, htodo, hholder⟩ := atLoop_iff.mp hloop
  refine ⟨?_, ?_, ?_, hinv.own⟩
  · refine hinv.disciplined.start ?_
    rw [hinv.timer_held htodo hholder]
    exact turnPath_follows x c
  · rintro n y ⟨hearly, ⟨es, hn⟩, hhas⟩
    rw [start_todo_of_ne _ (by simp)] at hn
    exact turn_of_running (hinv.window n y ⟨hearly, ⟨es, hn⟩, hhas⟩)
  intro y hy
  by_cases hyx : y = x
  · subst hyx
    rw [start_todo_self]
    rcases running_of_turn hy with hstop | ⟨-, rfl⟩
    · rw [hrun] at hstop
      cases hstop
    · exact .inr rfl
  rw [start_todo_of_ne _ (by simpa using hyx)]
  rcases running_of_turn hy with hstop | ⟨heq, -⟩
  · exact hinv.stopped y hstop
  · exact absurd heq hyx

/-- The thread of the timer that a guest arms has nothing to do and no lock. -/
theorem Inv.fresh (hinv : Inv owner s) (hlock : Lk.timer x ∈ s.threads.held (.guest n))
    (hstop : s.running x = false) : s.threads.held (.timer x) = ∅ := by
  have hnot : Lk.timer x ∉ s.threads.held (.timer x) := by
    intro hmem
    cases held_unique hlock hmem
  have hrest := hinv.disciplined (.timer x)
  rcases hinv.stopped x hstop with hnil | hrelease
  · rw [hnil] at hrest
    refine Set.eq_empty_of_forall_notMem ?_
    intro l hl
    obtain rfl : l = .timer x := hrest hl
    exact hnot hl
  · exact absurd (hinv.disciplined.mem_of_release _ _ hrelease) hnot

/-- A guest arms a timer with its lock in hand, and nobody is about to take that under the lock of
an owner. -/
theorem Inv.arm (hinv : Inv owner s) (hlock : Lk.timer x ∈ s.threads.held (.guest n))
    (halone : s.running x = false → ∀ m, ¬ InWindow owner s m x) : Inv owner (s.arm x) := by
  unfold TimerSys.arm
  cases hrun : s.running x with
  | true => exact hinv
  | false =>
    refine ⟨?_, ?_, ?_, hinv.own⟩
    · refine hinv.disciplined.start ?_
      rw [hinv.fresh hlock hrun]
      refine ⟨⟨above_empty _, fun y hy => (Lk.timer.inj hy).symm⟩, ?_⟩
      exact (insert_empty_eq (Lk.timer x)).subset
    · rintro m y ⟨hearly, ⟨es, hm⟩, hhas⟩
      change (s.threads.start _ _).todo (.guest m) = _ at hm
      rw [start_todo_of_ne _ (by simp)] at hm
      have hin : InWindow owner s m y := ⟨hearly, ⟨es, hm⟩, hhas⟩
      have hne : y ≠ x := by
        rintro rfl
        exact halone hrun m hin
      exact (update_of_ne hne _ _).trans (hinv.window m y hin)
    intro y hy
    change update s.running x true y = false at hy
    change (s.threads.start _ _).todo (.timer y) = [] ∨ (s.threads.start _ _).todo (.timer y) = _
    by_cases hne : y = x
    · rw [hne, update_self] at hy
      cases hy
    rw [update_of_ne hne] at hy
    rw [start_todo_of_ne _ (by simpa using hne)]
    exact hinv.stopped y hy

/-- A step of a thread, before a timer is armed by it. -/
theorem Inv.exec (hinv : Inv owner s) {i : Thread} (hun : Unhurried owner s (.run i))
    {t : Threads Thread Lk Nat} {o : Option Nat} (h : s.threads.exec i = some (t, o)) :
    Inv owner { s with threads := t } := by
  obtain ⟨e, es, htodo, htodo', -, hheld⟩ := exec_frame h hinv.disciplined.mem_of_release
  have hallowed := hinv.disciplined i
  rw [htodo] at hallowed
  refine ⟨hinv.disciplined.exec h, ?_, ?_, ?_⟩
  · rintro n x ⟨hearly, ⟨es', hn⟩, o', ho, hhas⟩
    rw [htodo'] at hn
    rw [hheld] at hhas
    by_cases hi : Thread.guest n = i
    · subst hi
      rw [update_self] at hn
      rw [if_pos rfl] at hhas
      rw [hn] at htodo
      exact hun.1 e x es' hearly htodo ⟨o', ho, hhas⟩
    rw [update_of_ne hi] at hn
    rw [if_neg hi] at hhas
    exact hinv.window n x ⟨hearly, ⟨es', hn⟩, o', ho, hhas⟩
  · intro x hx
    rw [htodo']
    by_cases hi : Thread.timer x = i
    · subst hi
      rw [update_self]
      rcases hinv.stopped x hx with hnil | hrelease
      · rw [hnil] at htodo
        cases htodo
      rw [hrelease] at htodo
      exact .inl (cons.inj htodo).2.symm
    · rw [update_of_ne hi]
      exact hinv.stopped x hx
  · intro x y hmem
    rw [hheld] at hmem
    by_cases hi : Thread.timer y = i
    · subst hi
      rw [if_pos rfl] at hmem
      cases e with
      | acquire l =>
        rcases hmem with rfl | hmem
        · exact hallowed.1.2 x rfl
        · exact hinv.own x y hmem
      | release l => exact hinv.own x y hmem.1
      | work z => exact hallowed.1.elim
    · rw [if_neg hi] at hmem
      exact hinv.own x y hmem

/-- **The step.** A step that keeps to the condition keeps the invariant. -/
theorem Inv.step (hinv : Inv owner s) {label : Label} (hun : Unhurried owner s label) {o : Unit}
    (h : TimerSys.step owner s label = some (s', o)) : Inv owner s' := by
  cases label with
  | call n c =>
    unfold TimerSys.step at h
    rw [Option.ite_none_right_eq_some] at h
    obtain ⟨hidle, heq⟩ := h
    rw [← (Prod.mk.inj (Option.some.inj heq)).1]
    exact hinv.call (isEmpty_iff.mp hidle)
  | turn x c =>
    unfold TimerSys.step at h
    rw [Option.ite_none_right_eq_some] at h
    obtain ⟨hloop, heq⟩ := h
    rw [← (Prod.mk.inj (Option.some.inj heq)).1]
    exact hinv.turn hloop
  | run i =>
    unfold TimerSys.step at h
    rw [Option.map_eq_some_iff] at h
    obtain ⟨⟨t, work⟩, hexec, heq⟩ := h
    rw [← (Prod.mk.inj heq).1]
    have hinv' := hinv.exec hun hexec
    cases work with
    | none => exact hinv'
    | some x =>
      -- the work was allowed, so a guest did it, and it still has the lock
      obtain ⟨e, es, htodo, htodo', hwork, hheld⟩ :=
        exec_frame hexec hinv.disciplined.mem_of_release
      obtain rfl := (hwork x).mp rfl
      have hallowed := hinv.disciplined i
      rw [htodo] at hallowed
      cases i with
      | timer y => exact hallowed.1.elim
      | guest n =>
        have hsame : t.held (.guest n) = s.threads.held (.guest n) := by
          rw [hheld, if_pos rfl]
          rfl
        have hlock : Lk.timer x ∈ t.held (.guest n) := hsame ▸ hallowed.1
        refine hinv'.arm hlock ?_
        rintro hstop m ⟨hearly, ⟨es', hm⟩, o, ho, hhas⟩
        by_cases hmn : Thread.guest m = .guest n
        · cases hmn
          exact (hinv'.disciplined.ok_of_wants hm).1 x hlock
        · change t.todo (.guest m) = _ at hm
          change o ∈ t.held (.guest m) at hhas
          rw [htodo', update_of_ne hmn] at hm
          rw [hheld, if_neg hmn] at hhas
          exact hun.2 x es htodo hstop m ⟨hearly, ⟨es', hm⟩, o, ho, hhas⟩

theorem inv_init : Inv owner init := by
  refine ⟨?_, ?_, fun _ _ => .inl rfl, ?_⟩
  · intro i
    change threadRest i (idle.held i)
    rw [idle_held]
    cases i with
    | guest n => rfl
    | timer x => exact Set.empty_subset _
  · rintro n x ⟨-, ⟨es, hn⟩, -⟩
    cases hn
  intro x y hmem
  change Lk.timer x ∈ idle.held (Thread.timer y) at hmem
  rw [idle_held] at hmem
  cases hmem

end Steps

/-- **Timers and their locks.** In a run of any calls and of any timers that go off, no threads
ever wait for each other in a circle if a guest takes the lock of an open file or of a thread group,
with that of its timer next, only while the thread of the timer does not run, and starts the thread
only while no other guest has come that far. -/
theorem run_not_deadlocked (owner : Nat → Owner) (labels : List Label) (s : TimerSys)
    (os : List Unit) (hrun : (machine owner).run init labels = some (s, os))
    (hun : (machine owner).Along (Unhurried owner) init labels) : ¬ s.threads.Deadlocked := by
  have hinv : Inv owner s :=
    Machine.run_inv (I := Inv owner) (fun _ _ _ _ hinv hun h => hinv.step hun h) inv_init hun hrun
  exact hinv.not_deadlocked

/-- `timer_settime` of a timer of two groups: in the one, and in the other when the thread of the
timer is over. -/
def settimeLabels : List Label :=
  [.call 0 (.timerSettime 1 7 true), .run (.guest 0), .run (.guest 0), .run (.guest 0),
    .run (.guest 0), .run (.guest 0), .run (.timer 7), .turn 7 .finish, .run (.timer 7),
    .call 1 (.timerSettime 2 7 true), .run (.guest 1), .run (.guest 1), .run (.guest 1),
    .run (.guest 1), .run (.timer 7)]

theorem run_not_deadlocked_settime :
    ∃ s os, (machine fun _ => .posix).run init settimeLabels = some (s, os) ∧
      s.atLoop 7 = true ∧ ¬ s.threads.Deadlocked := by
  have hun : (machine fun _ => .posix).Along (Unhurried fun _ => .posix) init settimeLabels := by
    repeat' refine (Machine.along_cons_of_step rfl _).mpr ⟨?_, ?_⟩
    all_goals try trivial
    all_goals
      refine ⟨?_, ?_⟩
      -- the lock of the group is taken while the thread does not run
      · rintro _ _ _ - h -
        cases h <;> rfl
      -- the thread is started while no other guest is in a call
      rintro x es h - m ⟨-, ⟨es', hm⟩, -⟩
      rcases m with _ | _ | m <;> cases h <;> cases hm
  exact ⟨_, _, rfl, rfl, run_not_deadlocked (fun _ => .posix) settimeLabels _ _ rfl hun⟩

/-- `timerfd_settime` of a timer that goes off: the call has `fd->lock` and wants the lock of the
timer, whose thread has it and wants `fd->lock`. And `timer_settime` with `exit_group` in another
thread: the call has `group->lock` and wants the lock of the timer, the thread of the timer has it
and wants `pids_lock`, and `exit_group` has that and wants `group->lock`. The same happens to a
`timer_settime` that has begun before the thread was started from another group. -/
theorem settime_deadlocks :
    (∃ s os, (machine fun _ => .timerfd).run init
        ([.call 0 (.timerfdSettime 1 7 true)] ++ replicate 7 (.run (.guest 0)) ++
          [.run (.timer 7), .turn 7 (.expire ⟨[], .init, none⟩),
            .call 0 (.timerfdSettime 1 7 true)] ++ replicate 3 (.run (.guest 0))) =
          some (s, os) ∧ s.threads.Deadlocked) ∧
      (∃ s os, (machine fun _ => .posix).run init
        ([.call 0 (.timerSettime 1 7 true)] ++ replicate 5 (.run (.guest 0)) ++
          [.run (.timer 7), .turn 7 (.expire ⟨[], .init, none⟩), .call 0 (.timerSettime 1 7 true),
            .run (.guest 0), .call 2 (.exitGroup ⟨.init, 2, 1, 0, [], [], none, none, false⟩),
            .run (.guest 2)]) = some (s, os) ∧ s.threads.Deadlocked) ∧
      ∃ s os, (machine fun _ => .posix).run init
        ([.call 0 (.timerSettime 1 7 true), .run (.guest 0), .run (.guest 0),
          .call 1 (.timerSettime 2 7 true), .run (.guest 1)] ++ replicate 3 (.run (.guest 0)) ++
          [.run (.timer 7), .turn 7 (.expire ⟨[], .init, none⟩),
            .call 2 (.exitGroup ⟨.init, 2, 2, 0, [], [], none, none, false⟩),
            .run (.guest 2)]) = some (s, os) ∧ s.threads.Deadlocked := by
  refine ⟨⟨_, _, rfl, ?_⟩, ⟨_, _, rfl, ?_⟩, ⟨_, _, rfl, ?_⟩⟩
  · exact deadlocked_of_two (i := .guest 0) (j := .timer 7) ⟨_, _, rfl, rfl⟩ ⟨_, _, rfl, rfl⟩
  · exact deadlocked_of_three (i := .guest 0) (j := .timer 7) (k := .guest 2)
      ⟨_, _, rfl, rfl⟩ ⟨_, _, rfl, rfl⟩ ⟨_, _, rfl, rfl⟩
  · exact deadlocked_of_three (i := .guest 1) (j := .timer 7) (k := .guest 2)
      ⟨_, _, rfl, rfl⟩ ⟨_, _, rfl, rfl⟩ ⟨_, _, rfl, rfl⟩

end Ish.Locking.TimerSys
