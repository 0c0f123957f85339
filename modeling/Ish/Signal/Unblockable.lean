import Ish.Signal.Queue

set_option autoImplicit false

/-! # `SIGKILL` and `SIGSTOP`

Neither signal can be blocked, and a pending one is acted on by the next `receive_signals`. Every
system call that sets the mask goes through `sigmask_set`, which takes the two out. The mask of a
handler does not: `do_sigaction` stores what the guest gives, and `receive_signal` adds it to
`current->blocked` as it is. The loop of `receive_signals` then passes over a pending `SIGKILL`.

The runs here have handlers whose masks leave the two signals out, and the thread does not wait for
itself under the loop: frames can be written, and the parent of a traced task has handlers of its
own.
-/

namespace Ish.Signal

open Option List Ish.Lib Machine

variable {x copy : Sigset} {action : Sig → SigAction} {sig : Sig} {written : SigInfo → Bool}
  {e : SigInfo} {todo : List SigInfo} {t t' : SigTask} {passed : Nat} {atEnd : Bool} {op : Op}

/-- Neither `SIGKILL` nor `SIGSTOP` is in the set. -/
def KillFree (set : Sigset) : Prop :=
  sigsetHas set SIGKILL = false ∧ sigsetHas set SIGSTOP = false

theorem KillFree.or {y : Sigset} (hx : KillFree x) (hy : KillFree y) : KillFree (x ||| y) := by
  simp [KillFree, hx.1, hx.2, hy.1, hy.2]

theorem KillFree.and_left (hx : KillFree x) (y : Sigset) : KillFree (x &&& y) := by
  simp [KillFree, hx.1, hx.2]

/-- What `sigmask_set` stores. -/
theorem killFree_sigmaskSet (set : Sigset) : KillFree (set &&& ~~~ UNBLOCKABLE_MASK) := by
  simp [KillFree, UNBLOCKABLE_MASK]

theorem doSigprocmask_killFree (t : SigTask) (how : How) (set : Sigset) :
    KillFree (doSigprocmask t how set).blocked := by
  cases how <;> exact killFree_sigmaskSet _

/-! ## The loop -/

/-- The handlers of these entries, as far as `copy` leaves them open, have masks without the two
signals, and their frames can be written. -/
def HandlersFit (copy : Sigset) (written : SigInfo → Bool) (action : Sig → SigAction)
    (todo : List SigInfo) : Prop :=
  ∀ e ∈ todo, sigsetHas copy e.sig = false → signalAction action e.sig = .callHandler →
    KillFree (action e.sig).mask ∧ written e = true

theorem signalAction_default (h : action sig = SigAction.default) :
    signalAction action sig ≠ .callHandler := by
  have hdef := defaultAction_ne_callHandler sig
  unfold signalAction
  rw [h]
  split
  · simpa [SigAction.default, SIG_DFL, SIG_IGN] using hdef
  · exact hdef

/-- A handler that is still there after a reset is the one that was there before. -/
theorem resetHandler_eq {sig' : Sig}
    (h : signalAction (resetHandler action sig) sig' = .callHandler) :
    resetHandler action sig sig' = action sig' ∧ signalAction action sig' = .callHandler := by
  have heq : resetHandler action sig sig' = action sig' := by
    by_contra hne
    refine signalAction_default ?_ h
    unfold resetHandler at hne ⊢
    split
    · rename_i hflag
      simp [hflag] at hne
    rename_i hflag
    by_cases hsig : sig' = sig
    · simp [hsig]
    · simp [hflag, hsig] at hne
  refine ⟨heq, ?_⟩
  unfold signalAction at h ⊢
  rw [heq] at h
  exact h

theorem HandlersFit.tail (h : HandlersFit copy written action (e :: todo)) :
    HandlersFit copy written action todo :=
  fun e' he' => h e' (mem_cons_of_mem e he')

theorem HandlersFit.reset (h : HandlersFit copy written action todo) (sig : Sig) :
    HandlersFit copy written (resetHandler action sig) todo := by
  intro e he hopen hact
  obtain ⟨heq, hact'⟩ := resetHandler_eq hact
  rw [heq]
  exact h e he hopen hact'

theorem handlerMask_killFree {action : SigAction} (h : KillFree action.mask)
    (hsig : signalIsBlockable sig = true) : KillFree (handlerMask action sig) := by
  simp only [signalIsBlockable, Bool.and_eq_true, bne_iff_ne] at hsig
  refine .or ?_ h
  split
  · simp [KillFree, hsig.1, hsig.2]
  · simp [KillFree]

theorem signalIsBlockable_of_callHandler (h : signalAction action sig = .callHandler) :
    signalIsBlockable sig = true := by
  by_contra hne
  unfold signalAction at h
  rw [if_neg hne] at h
  exact defaultAction_ne_callHandler sig h

/-- A traced task gets to `receive_signal` with `SIGKILL` only, which has no handler. -/
theorem untraced_of_callHandler (hstop : ¬ (t.traced = true ∧ e.sig ≠ SIGKILL))
    (hact : signalAction t.action e.sig = .callHandler) : t.traced = false := by
  by_contra hne
  have hkill : e.sig = SIGKILL := by
    by_contra hsig
    exact hstop ⟨by simpa using hne, hsig⟩
  rw [hkill, signalAction_sigkill] at hact
  simp at hact

theorem HandlersFit.of_callHandler
    (hfit : t.traced = false → HandlersFit copy written t.action (e :: todo))
    (hopen : ¬ sigsetHas copy e.sig = true) (hstop : ¬ (t.traced = true ∧ e.sig ≠ SIGKILL))
    (hact : signalAction t.action e.sig = .callHandler) :
    KillFree (t.action e.sig).mask ∧ written e = true :=
  hfit (untraced_of_callHandler hstop hact) e mem_cons_self (by simpa using hopen) hact

theorem receiveLoop_killFree (copy : Sigset) (written : SigInfo → Bool)
    (passed todo : List SigInfo) (t : SigTask) (entered : Sigset) (hblocked : KillFree t.blocked)
    (hfit : t.traced = false → HandlersFit copy written t.action todo) :
    KillFree (receiveLoop copy written passed todo t entered).1.blocked := by
  fun_induction receiveLoop copy written passed todo t entered with
  | case1 | case3 | case4 | case6 => exact hblocked
  | case2 passed e todo t entered hskip ih => exact ih hblocked fun ht => (hfit ht).tail
  | case5 passed e todo t entered hopen t1 hstop t2 entered2 events hgo r ih =>
    rcases receiveSignal_goOn hgo with ⟨-, rfl, -⟩ | ⟨-, rfl, -⟩ | ⟨hact, -, rfl, -⟩
    · exact ih hblocked fun ht => (hfit ht).tail
    · exact ih hblocked fun ht => (hfit ht).tail
    have hmask := (HandlersFit.of_callHandler hfit hopen hstop hact).1
    refine ih ?_ fun ht => (hfit ht).tail.reset e.sig
    exact hblocked.or (handlerMask_killFree hmask (signalIsBlockable_of_callHandler hact))
  | case7 passed e todo t entered hopen t1 hstop t2 events hdead =>
    obtain ⟨hact, hw, -, -⟩ := receiveSignal_deadlock hdead
    have hwritten := (HandlersFit.of_callHandler hfit hopen hstop hact).2
    simp [hw] at hwritten

/-- What the loop leaves as it was; it stops in the middle only for a traced task, with its own
copy of the mask. -/
theorem receiveLoop_kept (copy : Sigset) (written : SigInfo → Bool)
    (passed todo : List SigInfo) (t : SigTask) (entered : Sigset) :
    let t' := (receiveLoop copy written passed todo t entered).1
    t'.savedMask = t.savedMask ∧ t'.hasSavedMask = t.hasSavedMask ∧ t'.traced = t.traced ∧
      t'.parentShares = t.parentShares ∧
      ∀ b k atEnd, t'.pc = .inStop b k atEnd →
        b = copy ∧ t.traced = true ∧ t.parentShares = false := by
  fun_induction receiveLoop copy written passed todo t entered with
  | case1 | case3 | case6 => exact ⟨rfl, rfl, rfl, rfl, by simp⟩
  | case2 passed e todo t entered hskip ih => exact ih
  | case4 passed e todo t entered hopen t1 hstop hshare =>
    refine ⟨rfl, rfl, rfl, rfl, ?_⟩
    intro b k atEnd hpc
    simp only [Pc.inStop.injEq] at hpc
    exact ⟨hpc.1.symm, hstop.1, by simpa using hshare⟩
  | case5 passed e todo t entered hopen t1 hstop t2 entered2 events hgo r ih =>
    rcases receiveSignal_goOn hgo with ⟨-, rfl, -⟩ | ⟨-, rfl, -⟩ | ⟨-, -, rfl, -⟩ <;> exact ih
  | case7 passed e todo t entered hopen t1 hstop t2 events hdead =>
    obtain ⟨-, -, rfl, -⟩ := receiveSignal_deadlock hdead
    simp [t1]

/-! ## Acting on the two signals -/

/-- The call has dealt with the signal: the process exits, or it is stopped, or the tracer has
the stop. -/
def ActedOn (sig : Sig) (t : SigTask) (events : List Event) : Prop :=
  t.pc = .exit ∨ sig = SIGSTOP ∧ (t.stopped = true ∨ Event.traceStop SIGSTOP ∈ events)

/-- The call is stopped for the tracer, and has the signal before it. -/
def Ahead (sig : Sig) (t : SigTask) : Prop :=
  ∃ copy passed, t.pc = .inStop copy passed false ∧ ∃ e ∈ t.queue.drop passed, e.sig = sig

/-- **The loop does not pass over them.** -/
theorem receiveLoop_acts (hsig : sig = SIGKILL ∨ sig = SIGSTOP) (copy : Sigset)
    (hcopy : KillFree copy) (written : SigInfo → Bool) (passed todo : List SigInfo) (t : SigTask)
    (entered : Sigset) (hshare : t.traced = true → t.parentShares = false)
    (hfit : t.traced = false → HandlersFit copy written t.action todo)
    (hdue : (∃ e ∈ todo, e.sig = sig) ∨ (sig = SIGSTOP ∧ t.stopped = true)) :
    ActedOn sig (receiveLoop copy written passed todo t entered).1
        (receiveLoop copy written passed todo t entered).2 ∨
      Ahead sig (receiveLoop copy written passed todo t entered).1 := by
  have hopen : sigsetHas copy sig = false := by
    rcases hsig with rfl | rfl
    · exact hcopy.1
    · exact hcopy.2
  -- the signal is the next entry, or one behind it, or was dealt with before
  have hcons : ∀ {e : SigInfo} {todo : List SigInfo} {due : Prop},
      (∃ e' ∈ e :: todo, e'.sig = sig) ∨ due → e.sig = sig ∨ (∃ e' ∈ todo, e'.sig = sig) ∨ due := by
    intro e todo due h
    rw [exists_mem_cons_iff] at h
    exact or_assoc.mp h
  fun_induction receiveLoop copy written passed todo t entered with
  | case1 =>
    rcases hdue with ⟨e, he, -⟩ | ⟨hstop, hstopped⟩
    · simp at he
    · exact .inl (.inr ⟨hstop, .inl hstopped⟩)
  | case2 passed e todo t entered hskip ih =>
    have hrest := (hcons hdue).resolve_left (by rintro rfl; simp [hopen] at hskip)
    exact ih hshare (fun ht => (hfit ht).tail) hrest
  | case3 passed e todo t entered hnot t1 hstop hparent =>
    rw [show t1.parentShares = false from hshare hstop.1] at hparent
    cases hparent
  | case4 passed e todo t entered hnot t1 hstop hparent =>
    rcases hcons hdue with heq | ⟨e', he', heq⟩ | hstopped
    · -- the entry itself; it is not `SIGKILL`
      have hsigstop : sig = SIGSTOP := hsig.resolve_left (heq ▸ hstop.2)
      refine .inl (.inr ⟨hsigstop, .inr ?_⟩)
      simp [heq, hsigstop]
    · have hne : todo.isEmpty = false := by
        cases todo with
        | nil => simp at he'
        | cons _ _ => rfl
      refine .inr ⟨copy, passed.length, by simp [hne], e', ?_, heq⟩
      simpa [t1] using he'
    · exact .inl (.inr ⟨hstopped.1, .inl hstopped.2⟩)
  | case5 passed e todo t entered hnot t1 hstop t2 entered2 events hgo r ih =>
    -- one more signal received, the rest by induction
    have hacts : ActedOn sig r.1 r.2 ∨ Ahead sig r.1 := by
      have hother : ∀ {action : Action}, signalAction t.action e.sig = action →
          action ≠ .kill → action ≠ .stop → e.sig ≠ sig := by
        rintro action hact hkill hstop rfl
        rcases hsig with hk | hk <;> simp_all [signalAction_sigkill, signalAction_sigstop]
      rcases receiveSignal_goOn hgo with ⟨hact, rfl, -⟩ | ⟨hact, rfl, -⟩ | ⟨hact, -, rfl, -⟩
      · exact ih hshare (fun ht => (hfit ht).tail)
          ((hcons hdue).resolve_left (hother hact (by decide) (by decide)))
      · refine ih hshare (fun ht => (hfit ht).tail) ?_
        rcases hcons hdue with rfl | hrest
        · refine .inr ⟨hsig.resolve_left ?_, rfl⟩
          intro hk
          simp [hk, signalAction_sigkill] at hact
        · exact hrest.imp_right fun h => ⟨h.1, rfl⟩
      · exact ih hshare (fun ht => (hfit ht).tail.reset e.sig)
          ((hcons hdue).resolve_left (hother hact (by decide) (by decide)))
    rcases hacts with (hexit | ⟨hs, hacted⟩) | hahead
    · exact .inl (.inl hexit)
    · exact .inl (.inr ⟨hs, hacted.imp_right (mem_append_right events)⟩)
    · exact .inr hahead
  | case6 => exact .inl (.inl rfl)
  | case7 passed e todo t entered hnot t1 hstop t2 events hdead =>
    obtain ⟨hact, hw, -, -⟩ := receiveSignal_deadlock hdead
    have hwritten := (HandlersFit.of_callHandler hfit hnot hstop hact).2
    simp [hw] at hwritten

/-! ## What the others do -/

/-- All that others change of a task: its queue grows, with the pending set, and its process may
go on. -/
structure SentTo (t t' : SigTask) : Prop where
  blocked : t'.blocked = t.blocked
  savedMask : t'.savedMask = t.savedMask
  hasSavedMask : t'.hasSavedMask = t.hasSavedMask
  traced : t'.traced = t.traced
  parentShares : t'.parentShares = t.parentShares
  pc : t'.pc = t.pc
  queue : ∃ more, t'.queue = t.queue ++ more

theorem SentTo.refl (t : SigTask) : SentTo t t :=
  ⟨rfl, rfl, rfl, rfl, rfl, rfl, [], by simp⟩

theorem deliverSignalUnlocked_sentTo (t : SigTask) (sig : Sig) (info : SigInfo) :
    SentTo t (deliverSignalUnlocked t sig info) := by
  unfold deliverSignalUnlocked
  split
  · exact .refl t
  · exact ⟨rfl, rfl, rfl, rfl, rfl, rfl, _, rfl⟩

theorem sendSignal_sentTo (t : SigTask) (sig : Option Sig) (info : SigInfo) :
    SentTo t (sendSignal t sig info) := by
  cases sig with
  | none => exact .refl t
  | some sig =>
    obtain ⟨hb, hs, hh, ht, hps, hp, more, hq⟩ := deliverSignalUnlocked_sentTo t sig info
    unfold sendSignal
    dsimp only
    split
    · exact .refl t
    split
    · split
      · exact ⟨hb, hs, hh, ht, hps, hp, more, hq⟩
      · exact ⟨rfl, rfl, rfl, rfl, rfl, rfl, [], by simp⟩
    split
    · exact ⟨hb, hs, hh, ht, hps, hp, more, hq⟩
    · exact .refl t

/-- Nothing that is sent gets before the signal. -/
theorem Ahead.sentTo (h : Ahead sig t) (hsent : SentTo t t') : Ahead sig t' := by
  obtain ⟨copy, passed, hpc, e, he, heq⟩ := h
  obtain ⟨more, hmore⟩ := hsent.queue
  refine ⟨copy, passed, by rw [hsent.pc, hpc], e, ?_, heq⟩
  rw [hmore, drop_append]
  exact mem_append_left _ he

/-! ## Runs -/

/-- What holds of a task whose handlers have all been entered with fitting masks. -/
structure SigTask.Guarded (t : SigTask) : Prop where
  matched : Matched t.pending t.queue
  blocked : KillFree t.blocked
  saved : t.hasSavedMask = true → KillFree t.savedMask
  inStop : ∀ copy passed atEnd, t.pc = .inStop copy passed atEnd →
    KillFree copy ∧ t.traced = true ∧ t.parentShares = false

theorem SigTask.Guarded.sentTo (h : t.Guarded) (hsent : SentTo t t')
    (hmatched : Matched t'.pending t'.queue) : t'.Guarded := by
  refine ⟨hmatched, ?_, ?_, ?_⟩
  · rw [hsent.blocked]
    exact h.blocked
  · rw [hsent.hasSavedMask, hsent.savedMask]
    exact h.saved
  rw [hsent.pc, hsent.traced, hsent.parentShares]
  exact h.inStop

/-- The calls in question: all but `sys_rt_sigtimedwait`. -/
def Op.Listed : Op → Prop
  | .sigtimedwait _ => False
  | .sigtimedwaitDone _ => False
  | _ => True

/-- When the step is a call of `receive_signals`, the handlers of the queued signals that it does
not pass over have masks without the two signals, and frames that can be written. A traced task
enters no handler; its parent has handlers of its own. -/
def StepFits (t : SigTask) (op : Op) : Prop :=
  ∀ written, op = .receive written →
    (t.traced = true → t.parentShares = false) ∧
    (t.traced = false → HandlersFit (callMask t) written t.action t.queue)

/-- What a step is to do: neither signal is blocked after it, and one that was pending at the
start of a call of `receive_signals` is dealt with when the call is over. -/
def StepActs (t : SigTask) (op : Op) : Prop :=
  ∀ t' events, sigMachine.step t op = some (t', events) →
    KillFree t'.blocked ∧
    ∀ sig, sig = SIGKILL ∨ sig = SIGSTOP →
      ((∃ written, op = .receive written) ∧ sigsetHas t.pending sig = true) ∨ Ahead sig t →
      ActedOn sig t' events ∨ Ahead sig t'

theorem callMask_killFree (h : t.Guarded) : KillFree (callMask t) := by
  unfold callMask
  split
  · exact h.blocked.and_left _
  · exact h.blocked

theorem restoreSaved_killFree (h : t.Guarded) : KillFree (restoreSaved t).blocked := by
  unfold restoreSaved
  split
  · rename_i hsaved
    exact h.saved hsaved
  · exact h.blocked

/-- The loop, from the start or after a stop, keeps the masks as they should be. -/
theorem receiveLoop_guarded (hcopy : KillFree copy) (written : SigInfo → Bool)
    (passed todo : List SigInfo) (entered : Sigset) (hmatched : Matched t.pending (passed ++ todo))
    (hblocked : KillFree t.blocked) (hsaved : t.hasSavedMask = true → KillFree t.savedMask)
    (hfit : t.traced = false → HandlersFit copy written t.action todo) :
    (receiveLoop copy written passed todo t entered).1.Guarded := by
  obtain ⟨hmask, hhas, htraced, hshare, hpc⟩ := receiveLoop_kept copy written passed todo t entered
  refine ⟨receiveLoop_matched copy written passed todo t entered hmatched,
    receiveLoop_killFree copy written passed todo t entered hblocked hfit, ?_, ?_⟩
  · rw [hhas, hmask]
    exact hsaved
  intro b k atEnd hin
  obtain ⟨rfl, ht, hs⟩ := hpc b k atEnd hin
  exact ⟨hcopy, by rw [htraced, ht], by rw [hshare, hs]⟩

theorem receiveSignals_guarded (h : t.Guarded)
    (hfit : t.traced = false → HandlersFit (callMask t) written t.action t.queue) :
    (receiveSignals t written).1.Guarded := by
  apply receiveLoop_guarded (callMask_killFree h)
  · unfold restoreSaved
    split <;> exact h.matched
  · exact restoreSaved_killFree h
  · unfold restoreSaved
    split
    · simp
    · exact h.saved
  · unfold restoreSaved
    split <;> exact hfit

theorem resumeSignals_guarded (h : t.Guarded) (hpc : t.pc = .inStop copy passed atEnd)
    (written : SigInfo → Bool) : (resumeSignals t copy passed atEnd written).1.Guarded := by
  obtain ⟨hcopy, htraced, -⟩ := h.inStop copy passed atEnd hpc
  unfold resumeSignals
  split
  · exact ⟨h.matched, h.blocked, h.saved, by simp⟩
  apply receiveLoop_guarded hcopy
  · rw [take_append_drop]
    exact h.matched
  · exact h.blocked
  · exact h.saved
  · simp [htraced]

theorem step_guarded {events : List Event} (h : t.Guarded) (hlisted : op.Listed)
    (hfit : StepFits t op) (hstep : sigMachine.step t op = some (t', events)) : t'.Guarded := by
  have hmatched : Matched t'.pending t'.queue := by
    refine step_matched h.matched ?_ hstep
    rintro rfl
    exact absurd hlisted (by simp [Op.Listed])
  cases sigMachine_cases hstep with
  | send sig info => exact h.sentTo (sendSignal_sentTo t sig info) hmatched
  | deliver sig info => exact h.sentTo (deliverSignalUnlocked_sentTo t sig info) hmatched
  | sigaction => exact ⟨h.matched, h.blocked, h.saved, h.inStop⟩
  | trySelf sig _ =>
    refine h.sentTo ?_ hmatched
    unfold trySelfSignal
    split
    · exact deliverSignalUnlocked_sentTo t sig _
    · exact .refl t
  | sigprocmask how set _ =>
    refine ⟨hmatched, doSigprocmask_killFree t how set, ?_, ?_⟩
    · cases how <;> exact h.saved
    · cases how <;> exact h.inStop
  | setTemp mask _ => exact ⟨hmatched, killFree_sigmaskSet mask, fun _ => h.blocked, h.inStop⟩
  | sigreturn mask _ => exact ⟨hmatched, killFree_sigmaskSet mask, h.saved, h.inStop⟩
  | sigtimedwait | sigtimedwaitDone => exact absurd hlisted (by simp [Op.Listed])
  | receive written _ => exact receiveSignals_guarded h (hfit written rfl).2
  | resume written hpc => exact resumeSignals_guarded h hpc written
  | becomes _ _ _ hpc => exact ⟨h.matched, h.blocked, h.saved, by simp [hpc]⟩
  | killedInStop => exact ⟨h.matched, h.blocked, h.saved, by simp⟩

/-- A call that has stopped is not running. -/
theorem Ahead.not_running (h : Ahead sig t) : t.pc ≠ .running := by
  obtain ⟨copy, passed, hpc, -⟩ := h
  simp [hpc]

theorem receiveSignals_acts (h : t.Guarded) (hshare : t.traced = true → t.parentShares = false)
    (hfit : t.traced = false → HandlersFit (callMask t) written t.action t.queue)
    (hsig : sig = SIGKILL ∨ sig = SIGSTOP) (hpending : sigsetHas t.pending sig = true) :
    ActedOn sig (receiveSignals t written).1 (receiveSignals t written).2 ∨
      Ahead sig (receiveSignals t written).1 := by
  apply receiveLoop_acts hsig (callMask t) (callMask_killFree h)
  · unfold restoreSaved
    split <;> exact hshare
  · unfold restoreSaved
    split <;> exact hfit
  · exact .inl ((h.matched.pending_iff sig).mp hpending)

theorem resumeSignals_acts (h : t.Guarded) (hpc : t.pc = .inStop copy passed atEnd)
    (written : SigInfo → Bool) (hsig : sig = SIGKILL ∨ sig = SIGSTOP) (hahead : Ahead sig t) :
    ActedOn sig (resumeSignals t copy passed atEnd written).1
        (resumeSignals t copy passed atEnd written).2 ∨
      Ahead sig (resumeSignals t copy passed atEnd written).1 := by
  obtain ⟨hcopy, htraced, hshare⟩ := h.inStop copy passed atEnd hpc
  obtain ⟨copy', passed', hpc', e, he, heq⟩ := hahead
  simp only [hpc, Pc.inStop.injEq] at hpc'
  obtain ⟨rfl, rfl, rfl⟩ := hpc'
  exact receiveLoop_acts hsig copy hcopy written _ _ t 0 (fun _ => hshare) (by simp [htraced])
    (.inl ⟨e, he, heq⟩)

theorem stepActs_of_fits (h : t.Guarded) (hlisted : op.Listed) (hfit : StepFits t op) :
    StepActs t op := by
  intro t' events hstep
  refine ⟨(step_guarded h hlisted hfit hstep).blocked, ?_⟩
  intro sig hsig hdue
  -- a call begins; everything else finds the signal ahead of a stopped call
  have hahead : (∀ written, op ≠ .receive written) → Ahead sig t :=
    fun hne => hdue.resolve_left fun ⟨⟨written, hop⟩, _⟩ => hne written hop
  cases sigMachine_cases hstep with
  | send s info => exact .inr ((hahead nofun).sentTo (sendSignal_sentTo t s info))
  | deliver s info => exact .inr ((hahead nofun).sentTo (deliverSignalUnlocked_sentTo t s info))
  | sigaction => exact .inr (hahead nofun)
  | trySelf _ hpc | sigprocmask _ _ hpc | setTemp _ hpc | sigreturn _ hpc | sigtimedwait _ hpc
  | becomes _ _ _ hpc => exact absurd hpc (hahead nofun).not_running
  | sigtimedwaitDone => exact absurd hlisted (by simp [Op.Listed])
  | receive written hpc =>
    have hpending : sigsetHas t.pending sig = true := by
      rcases hdue with hdue | hahead
      · exact hdue.2
      · exact absurd hpc hahead.not_running
    exact receiveSignals_acts h (hfit written rfl).1 (hfit written rfl).2 hsig hpending
  | resume written hpc => exact resumeSignals_acts h hpc written hsig (hahead nofun)
  | killedInStop => exact .inl (.inl rfl)

/-- **`SIGKILL` and `SIGSTOP` stay open and are acted on.** In every run of a new task whose
handlers are entered with masks that leave the two out, and which does not wait for itself,
neither is ever blocked, and one that is pending when `receive_signals` is called is dealt with
before the call is over. -/
theorem run_acts_of_fits {t : SigTask} (h : t.Fresh) (hblocked : KillFree t.blocked)
    {ops : List Op} (hlisted : ∀ op ∈ ops, op.Listed) (hfit : sigMachine.Along StepFits t ops) :
    sigMachine.Along StepActs t ops := by
  have hguarded : t.Guarded := by
    refine ⟨h.matched, hblocked, ?_, ?_⟩
    · simp [h.hasSavedMask]
    · simp [h.pc]
  have hall : sigMachine.Along (fun t op => op.Listed ∧ StepFits t op) t ops :=
    along_and (along_of_forall (fun op hop _ => hlisted op hop) t) hfit
  exact along_imp (I := SigTask.Guarded)
    (fun _ _ hs hop => stepActs_of_fits hs hop.1 hop.2)
    (fun _ _ _ _ hs hop hstep => step_guarded hs hop.1 hop.2 hstep) hguarded hall

/-- A handler for `SIGUSR1` that blocks `SIGUSR2`, and a `SIGKILL` that comes while it runs. -/
theorem run_acts_usr1 :
    initTask.Fresh ∧ KillFree initTask.blocked ∧
    sigMachine.Along StepActs initTask
      [.sigaction SIGUSR1 ⟨0x1000, 0, 0, sigMask SIGUSR2⟩,
        .send (some SIGUSR1) (sigInfoNil SIGUSR1), .receive (fun _ => true),
        .send (some SIGKILL) (sigInfoNil SIGKILL), .receive (fun _ => true)] := by
  have hblocked : KillFree initTask.blocked := by
    constructor <;> decide +kernel
  refine ⟨initTask_fresh, hblocked, run_acts_of_fits initTask_fresh hblocked ?_ ?_⟩
  · intro op hop
    simp only [mem_cons, not_mem_nil, or_false] at hop
    rcases hop with rfl | rfl | rfl | rfl | rfl <;> trivial
  -- the two calls: one finds `SIGUSR1` queued, the other `SIGKILL`
  have hother : ∀ (t : SigTask) (op : Op), (∀ written, op ≠ .receive written) →
      StepFits t op := fun t op h written hop => absurd hop (h written)
  rw [along_cons_of_step rfl, along_cons_of_step rfl,
    along_cons_of_step rfl, along_cons_of_step rfl,
    along_cons_of_step rfl]
  refine ⟨hother _ _ (by simp), hother _ _ (by simp), ?_, hother _ _ (by simp), ?_, trivial⟩
  · intro written hop
    refine ⟨by decide +kernel, ?_⟩
    rintro - e he - -
    obtain rfl : (fun _ => true) = written := Op.receive.inj hop
    obtain rfl : e = sigInfoNil SIGUSR1 := mem_singleton.mp he
    exact ⟨by constructor <;> decide +kernel, rfl⟩
  intro written _
  refine ⟨by decide +kernel, ?_⟩
  rintro - e he - hact
  obtain rfl : e = sigInfoNil SIGKILL := mem_singleton.mp he
  exact absurd ((signalAction_sigkill _).symm.trans hact) (by decide)

/-- **A handler that blocks `SIGKILL`.** The guest gives `SIGUSR1` a handler whose `sa_mask` has
`SIGKILL` in it. While it runs, a `SIGKILL` is pending, `receive_signals` is called, and the task
goes on. -/
theorem sigkill_blocked_by_handler :
    initTask.Fresh ∧ KillFree initTask.blocked ∧
    ∃ t t', sigMachine.run initTask
        [.sigaction SIGUSR1 ⟨0x1000, 0, 0, sigMask SIGKILL⟩,
          .send (some SIGUSR1) (sigInfoNil SIGUSR1), .receive (fun _ => true),
          .send (some SIGKILL) (sigInfoNil SIGKILL)] =
        some (t, [[], [], [.frame SIGUSR1 0#64 0#64], []]) ∧
      sigsetHas t.blocked SIGKILL = true ∧ sigsetHas t.pending SIGKILL = true ∧
      sigMachine.step t (.receive (fun _ => true)) = some (t', []) ∧
      t'.pc = .running ∧ sigsetHas t'.pending SIGKILL = true := by
  refine ⟨initTask_fresh, ?_, _, _, rfl, by decide +kernel, by decide +kernel, rfl, rfl,
    by decide +kernel⟩
  constructor <;> decide +kernel

end Ish.Signal
