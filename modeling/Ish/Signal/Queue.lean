import Ish.Signal.Receive

set_option autoImplicit false

/-! # Pending bits and queue entries

The pending set of a task and its queue say the same thing twice: a signal's bit is set exactly
when the queue holds one entry for it. `deliver_signal_unlocked` relies on it, since it drops a
signal whose bit is set, and the loop of `receive_signals` keeps it, also over the stops of a
traced task.

`sys_rt_sigtimedwait` does not: it takes an entry from the queue and leaves the bit. From then on
every further instance of that signal is dropped.
-/

namespace Ish.Signal

open Option List Ish.Lib

variable {queue : List SigInfo} {t : SigTask} {pending : Sigset} {e : SigInfo}

/-! ## Counting entries -/

/-- The number of queued instances of a signal. -/
def entries (queue : List SigInfo) (sig : Sig) : Nat := queue.countP (fun e => e.sig = sig)

@[simp] theorem entries_nil (sig : Sig) : entries [] sig = 0 := rfl

@[simp] theorem entries_cons (e : SigInfo) (queue : List SigInfo) (sig : Sig) :
    entries (e :: queue) sig = entries queue sig + if e.sig = sig then 1 else 0 := by
  simp [entries, countP_cons]

@[simp] theorem entries_append (xs ys : List SigInfo) (sig : Sig) :
    entries (xs ++ ys) sig = entries xs sig + entries ys sig := by
  simp [entries]

theorem entries_pos {sig : Sig} : 0 < entries queue sig ↔ ∃ e ∈ queue, e.sig = sig := by
  simp [entries, countP_pos_iff]

/-- **The pending set and the queue agree.** -/
def SigTask.Agrees (t : SigTask) : Prop :=
  ∀ sig, sigsetHas t.pending sig = true ↔ entries t.queue sig = 1

/-- No signal is queued twice, and the bits say which ones are queued. -/
def Matched (pending : Sigset) (queue : List SigInfo) : Prop :=
  ∀ sig, entries queue sig = if sigsetHas pending sig then 1 else 0

theorem Matched.agrees (h : Matched t.pending t.queue) : t.Agrees := by
  intro sig
  rw [h sig]
  cases sigsetHas t.pending sig <;> simp

theorem SigTask.Fresh.matched (h : t.Fresh) : Matched t.pending t.queue := by
  intro sig
  rw [h.pending, h.queue]
  simp

theorem Matched.pending_iff (h : Matched pending queue) (sig : Sig) :
    sigsetHas pending sig = true ↔ ∃ e ∈ queue, e.sig = sig := by
  rw [← entries_pos, h sig]
  cases sigsetHas pending sig <;> simp

theorem Matched.add (h : Matched pending queue) (hnew : sigsetHas pending e.sig = false) :
    Matched (sigsetAdd pending e.sig) (queue ++ [e]) := by
  intro sig
  by_cases hsig : e.sig = sig
  · subst hsig
    simp [h e.sig, hnew]
  · simp [h sig, hsig]

/-- Taking an entry out and clearing its bit. -/
theorem Matched.remove {xs ys : List SigInfo} (h : Matched pending (xs ++ e :: ys)) :
    Matched (sigsetDel pending e.sig) (xs ++ ys) := by
  intro sig
  have hsig := h sig
  rw [entries_append, entries_cons] at hsig
  rw [entries_append]
  by_cases heq : e.sig = sig
  · subst heq
    have hle : entries xs e.sig + (entries ys e.sig + 1) ≤ 1 := by
      rw [if_pos rfl] at hsig
      rw [hsig]
      split <;> omega
    have hzero : entries xs e.sig + entries ys e.sig = 0 := by omega
    simpa using hzero
  · simpa [heq] using hsig

/-! ## The steps that keep them matched -/

section Steps

variable {t : SigTask}

theorem deliverSignalUnlocked_matched (h : Matched t.pending t.queue) (sig : Sig)
    (info : SigInfo) :
    Matched (deliverSignalUnlocked t sig info).pending
      (deliverSignalUnlocked t sig info).queue := by
  unfold deliverSignalUnlocked
  split
  · exact h
  rename_i hnew
  exact h.add (e := { info with sig := sig }) (by simpa using hnew)

/-- After a delivery the signal is queued: either it was, or it is now the last. -/
theorem deliverSignalUnlocked_queued (h : Matched t.pending t.queue) (sig : Sig)
    (info : SigInfo) : ∃ e ∈ (deliverSignalUnlocked t sig info).queue, e.sig = sig := by
  unfold deliverSignalUnlocked
  split
  · rename_i hold
    exact (h.pending_iff sig).mp hold
  · exact ⟨{ info with sig := sig }, by simp, rfl⟩

theorem sendSignal_matched (h : Matched t.pending t.queue) (sig : Option Sig) (info : SigInfo) :
    Matched (sendSignal t sig info).pending (sendSignal t sig info).queue := by
  cases sig with
  | none => exact h
  | some sig =>
    have hdeliver := deliverSignalUnlocked_matched h sig info
    unfold sendSignal
    dsimp only
    -- the flag of the group is all that the last test changes
    split
    · exact h
    split
    · split
      · exact hdeliver
      · exact h
    split
    · exact hdeliver
    · exact h

theorem sendSignal_queued (h : Matched t.pending t.queue) {sig : Sig}
    (hact : signalAction t.action sig ≠ .ignore) (halive : t.exiting = false) (info : SigInfo) :
    ∃ e ∈ (sendSignal t (some sig) info).queue, e.sig = sig := by
  have hqueued := deliverSignalUnlocked_queued h sig info
  unfold sendSignal
  simp only [halive, hact, ne_eq, not_false_eq_true, if_true, Bool.false_eq_true, if_false]
  split
  · exact hqueued
  · exact hqueued

/-- The loop clears a bit with every entry it takes. -/
theorem receiveLoop_matched (blocked : Sigset) (written : SigInfo → Bool)
    (passed todo : List SigInfo) (t : SigTask) (entered : Sigset)
    (h : Matched t.pending (passed ++ todo)) :
    Matched (receiveLoop blocked written passed todo t entered).1.pending
      (receiveLoop blocked written passed todo t entered).1.queue := by
  fun_induction receiveLoop blocked written passed todo t entered with
  | case1 => simpa using h
  | case2 passed e todo t entered hskip ih => exact ih (by simpa using h)
  | case3 | case4 | case6 => exact h.remove
  | case5 passed e todo t entered hopen t1 hstop t2 entered2 events hgo r ih =>
    obtain ⟨hpending, -, -⟩ := receiveSignal_frame hgo
    exact ih (by rw [hpending]; exact h.remove)
  | case7 passed e todo t entered hopen t1 hstop t2 events hdead =>
    obtain ⟨-, -, rfl, -⟩ := receiveSignal_deadlock hdead
    exact h.remove

theorem receiveSignals_matched (h : Matched t.pending t.queue) (written : SigInfo → Bool) :
    Matched (receiveSignals t written).1.pending (receiveSignals t written).1.queue := by
  apply receiveLoop_matched
  unfold restoreSaved
  split
  · exact h
  · exact h

theorem resumeSignals_matched (h : Matched t.pending t.queue) (blocked : Sigset) (passed : Nat)
    (atEnd : Bool) (written : SigInfo → Bool) :
    Matched (resumeSignals t blocked passed atEnd written).1.pending
      (resumeSignals t blocked passed atEnd written).1.queue := by
  unfold resumeSignals
  split
  · exact h
  apply receiveLoop_matched
  rw [take_append_drop]
  exact h

end Steps

/-! ## Waiting for a signal -/

section Wait

variable {t : SigTask} {set : Sigset}

theorem sigtimedwaitLeave_matched {timedOut : Bool} (h : Matched t.pending t.queue)
    (hnone : timedOut = true ∨ ∀ e ∈ t.queue, sigsetHas set e.sig = false) :
    Matched (sigtimedwaitLeave t set timedOut).1.pending
      (sigtimedwaitLeave t set timedOut).1.queue := by
  unfold sigtimedwaitLeave
  split
  · exact h
  rename_i htimed
  have hfind : t.queue.find? (fun e => sigsetHas set e.sig) = none := by
    rw [find?_eq_none]
    intro e he
    have := (hnone.resolve_left htimed) e he
    simp [this]
  rw [hfind]
  exact h

/-- A call that takes an entry leaves a bit for which nothing is queued. -/
theorem sigtimedwaitLeave_not_agrees (h : Matched t.pending t.queue) {e : SigInfo}
    (he : e ∈ t.queue) (hset : sigsetHas set e.sig = true) :
    ¬ (sigtimedwaitLeave t set false).1.Agrees := by
  intro hagree
  have hsome : t.queue.find? (fun e => sigsetHas set e.sig) ≠ none := by
    intro hnone
    rw [find?_eq_none] at hnone
    exact hnone e he hset
  obtain ⟨info, hinfo⟩ := ne_none_iff_exists'.mp hsome
  obtain ⟨hinset, xs, ys, hqueue, hxs⟩ := find?_eq_some_iff_append.mp hinfo
  -- the queue without the entry that was found
  have herase : t.queue.eraseP (fun e => sigsetHas set e.sig) = xs ++ ys := by
    rw [hqueue, eraseP_append_right _ (by simpa using hxs)]
    simp [hinset]
  have hbit : sigsetHas t.pending info.sig = true :=
    (h.pending_iff info.sig).mpr ⟨info, mem_of_find?_eq_some hinfo, rfl⟩
  have hcount : entries (xs ++ info :: ys) info.sig = 1 := by
    rw [← hqueue, h info.sig, if_pos hbit]
  have hone := (hagree info.sig).mp (by simpa [sigtimedwaitLeave, hinfo] using hbit)
  simp only [sigtimedwaitLeave, hinfo, herase, Bool.false_eq_true, if_false] at hone
  rw [entries_append] at hone
  rw [entries_append, entries_cons, if_pos rfl] at hcount
  omega

end Wait

/-! ## Runs -/

/-- What a step is to do: the pending set and the queue agree after it, and a signal that was sent
and is not ignored is in the queue. -/
def StepAgrees (t : SigTask) (op : Op) : Prop :=
  ∀ t' events, sigMachine.step t op = some (t', events) →
    t'.Agrees ∧
    ∀ sig info, op = .send (some sig) info → signalAction t.action sig ≠ .ignore →
      t.exiting = false → ∃ e ∈ t'.queue, e.sig = sig

/-- The step is not the end of a wait that finds a signal of its set in the queue. -/
def TakesNone (t : SigTask) (op : Op) : Prop :=
  op = .sigtimedwaitDone false →
    ∀ set, t.pc = .inWait set → ∀ e ∈ t.queue, sigsetHas set e.sig = false

theorem step_matched {t' : SigTask} {op : Op} {events : List Event} (h : Matched t.pending t.queue)
    (hnone : TakesNone t op) (hstep : sigMachine.step t op = some (t', events)) :
    Matched t'.pending t'.queue := by
  cases sigMachine_cases hstep with
  | send sig info => exact sendSignal_matched h sig info
  | deliver sig info => exact deliverSignalUnlocked_matched h sig info
  | trySelf sig _ =>
    unfold trySelfSignal
    split
    · exact deliverSignalUnlocked_matched h sig (sigInfoNil sig)
    · exact h
  | sigprocmask how set _ => cases how <;> exact h
  | sigaction | setTemp | sigreturn | sigtimedwait | becomes | killedInStop => exact h
  | @sigtimedwaitDone set timedOut hpc =>
    apply sigtimedwaitLeave_matched h
    cases timedOut with
    | true => exact .inl rfl
    | false => exact .inr (hnone rfl set hpc)
  | receive written _ => exact receiveSignals_matched h written
  | resume written _ => exact resumeSignals_matched h _ _ _ written

theorem stepAgrees_iff (h : Matched t.pending t.queue) (op : Op) :
    StepAgrees t op ↔ TakesNone t op := by
  constructor
  · rintro hagrees rfl set hpc e he
    by_contra hin
    have hin : sigsetHas set e.sig = true := by simpa using hin
    have hstep : sigMachine.step t (.sigtimedwaitDone false) =
        some ((sigtimedwaitLeave t set false).1, []) := by
      simp [sigMachine, sigStep, hpc]
    exact sigtimedwaitLeave_not_agrees h he hin (hagrees _ _ hstep).1
  intro hnone t' events hstep
  refine ⟨(step_matched h hnone hstep).agrees, ?_⟩
  rintro sig info rfl hact halive
  simp only [sigMachine_step, sigStep, ite_none_left_eq_some, some.injEq, Prod.mk.injEq] at hstep
  rw [← hstep.2.1]
  exact sendSignal_queued h hact halive info

/-- **No signal is lost as long as no wait takes one.** From a new task on, the pending set and
the queue agree after every step, and every signal sent is queued, exactly when no
`sys_rt_sigtimedwait` ever finds one. -/
theorem run_agrees_iff {t : SigTask} (h : t.Fresh) (ops : List Op) :
    sigMachine.Along StepAgrees t ops ↔ sigMachine.Along TakesNone t ops :=
  Machine.along_congr (I := fun t => Matched t.pending t.queue)
    (fun _ op hs => stepAgrees_iff hs op)
    (fun _ _ _ _ hs hnone hstep => step_matched hs hnone hstep) h.matched ops

/-- A wait that searches the queue, with a signal outside its set queued. -/
theorem run_agrees_otherSignal :
    initTask.Fresh ∧
    sigMachine.Along StepAgrees initTask
      [.send (some SIGUSR1) (sigInfoNil SIGUSR1), .sigtimedwait (sigMask SIGUSR2),
        .sigtimedwaitDone false, .receive (fun _ => true)] := by
  refine ⟨initTask_fresh, (run_agrees_iff initTask_fresh _).mpr ?_⟩
  refine (Machine.along_cons_of_step rfl _).mpr ⟨nofun, (Machine.along_cons_of_step rfl _).mpr
    ⟨nofun, (Machine.along_cons_of_step rfl _).mpr ⟨?done, nofun, fun _ _ _ => trivial⟩⟩⟩
  case done =>
    rintro - set hset e he
    cases hset
    have hqueue : ∀ e ∈ [sigInfoNil SIGUSR1], sigsetHas (sigMask SIGUSR2) e.sig = false := by
      decide +kernel
    exact hqueue e he

/-- **A signal that is waited for is never received again.** `SIGUSR1` is blocked, sent, and taken
by `sys_rt_sigtimedwait`. Its bit stays, and the next `SIGUSR1` is dropped though nothing is
queued. -/
theorem sigtimedwait_loses_next :
    initTask.Fresh ∧
    ∃ t t', sigMachine.run initTask
        [.sigprocmask .block (sigMask SIGUSR1), .send (some SIGUSR1) (sigInfoNil SIGUSR1),
          .sigtimedwait (sigMask SIGUSR1), .sigtimedwaitDone false] = some (t, [[], [], [], []]) ∧
      ¬ t.Agrees ∧ t.exiting = false ∧ signalAction t.action SIGUSR1 ≠ .ignore ∧
      sigMachine.step t (.send (some SIGUSR1) (sigInfoNil SIGUSR1)) = some (t', []) ∧
      t.queue = [] ∧ t'.queue = [] := by
  refine ⟨initTask_fresh, _, _, rfl, ?_, rfl, by decide +kernel, rfl, rfl, rfl⟩
  intro hagree
  have hentry := (hagree SIGUSR1).mp (by decide +kernel)
  exact absurd hentry (by decide +kernel)

end Ish.Signal
