import Ish.Signal.Receive

set_option autoImplicit false

/-! # Handlers entered in one call

A call of `receive_signals` builds a frame for every queued signal with a handler, one inside the
other: the last one built is the first to run. Each handler adds its `sa_mask`, and its own number
without `SA_NODEFER`, to `current->blocked`. The loop tests a copy of the mask that it made before
the first of them, so it builds a frame also for a signal that an earlier handler of the same call
blocks.

`receiveLoop_frames` says which frames a call builds and under which masks.
-/

namespace Ish.Signal

open List Event

variable {written : SigInfo → Bool} {blocked entered : Sigset} {p : Sig × Sigset} {sig : Sig}

/-! ## The frames of a call -/

def Event.isFrame : Event → Bool
  | .frame _ _ _ => true
  | _ => false

/-- The handlers that are entered for these entries, in order: the signal and what its handler
adds to the mask. The first signal that kills is the end, and so is a frame that cannot be
written. -/
def caught (written : SigInfo → Bool) : (Sig → SigAction) → List SigInfo → List (Sig × Sigset)
  | _, [] => []
  | action, e :: es =>
    match signalAction action e.sig with
    | .kill => []
    | .callHandler =>
      (e.sig, handlerMask (action e.sig) e.sig) ::
        if written e then caught written (resetHandler action e.sig) es else []
    | .ignore => caught written action es
    | .stop => caught written action es

/-- The entries of the queue that the call acts on. -/
def openEntries (blocked : Sigset) (queue : List SigInfo) : List SigInfo :=
  queue.filter (fun e => !sigsetHas blocked e.sig)

/-- The frames of these handlers, the mask being `base` and what the handlers before have added. -/
def framesOf (base : Sigset) : Sigset → List (Sig × Sigset) → List Event
  | _, [] => []
  | entered, (sig, mask) :: rest =>
    .frame sig (base ||| entered) entered :: framesOf base (entered ||| mask) rest

theorem caught_open {action : Sig → SigAction} {queue : List SigInfo}
    (hp : p ∈ caught written action (openEntries blocked queue)) :
    sigsetHas blocked p.1 = false := by
  -- every entry of a list is open if those of the queue are
  have hmem : ∀ (es : List SigInfo) (action : Sig → SigAction),
      p ∈ caught written action es → ∃ e ∈ es, e.sig = p.1 := by
    intro es
    induction es with
    | nil => simp [caught]
    | cons e es ih =>
      intro action hp
      have hrest : ∀ action', p ∈ caught written action' es → ∃ e' ∈ e :: es, e'.sig = p.1 := by
        intro action' hp'
        obtain ⟨e', he', heq⟩ := ih action' hp'
        exact ⟨e', mem_cons_of_mem e he', heq⟩
      rw [caught] at hp
      cases hact : signalAction action e.sig with
      | kill => simp [hact] at hp
      | ignore | stop => exact hrest action (by simpa [hact] using hp)
      | callHandler =>
        simp only [hact, mem_cons] at hp
        rcases hp with rfl | hp
        · exact ⟨e, by simp, rfl⟩
        split at hp
        · exact hrest _ hp
        · simp at hp
  obtain ⟨e, he, heq⟩ := hmem _ _ hp
  have hopen := (mem_filter.mp he).2
  rw [← heq]
  simpa using hopen

/-- **The frames of the loop.** A task that is not traced gets a frame for each handler that its
open entries call, and `current->blocked` grows from one to the next. -/
theorem receiveLoop_frames (copy : Sigset) (written : SigInfo → Bool) (base : Sigset)
    (passed todo : List SigInfo) (t : SigTask) (entered : Sigset) (htraced : t.traced = false)
    (hblocked : t.blocked = base ||| entered) :
    (receiveLoop copy written passed todo t entered).2.filter isFrame =
      framesOf base entered (caught written t.action (openEntries copy todo)) := by
  induction todo generalizing passed t entered with
  | nil => simp [receiveLoop, openEntries, caught, framesOf]
  | cons e todo ih =>
    rw [receiveLoop]
    by_cases hcopy : sigsetHas copy e.sig = true
    · have hskip : openEntries copy (e :: todo) = openEntries copy todo := by
        simp [openEntries, hcopy]
      rw [if_pos hcopy, hskip]
      exact ih (passed ++ [e]) t entered htraced hblocked
    have hkeep : openEntries copy (e :: todo) = e :: openEntries copy todo := by
      simp [openEntries, hcopy]
    rw [if_neg hcopy, hkeep, caught]
    simp only [htraced, Bool.false_eq_true, false_and, if_false]
    -- one case for each way in which the signal is received
    cases hact : signalAction t.action e.sig with
    | kill => simp [receiveSignal, hact, isFrame, framesOf]
    | ignore =>
      simp only [receiveSignal, hact, nil_append]
      exact ih passed _ entered rfl hblocked
    | stop =>
      simp only [receiveSignal, hact, cons_append, nil_append, isFrame,
        Bool.false_eq_true, not_false_eq_true, filter_cons_of_neg]
      exact ih passed _ entered rfl hblocked
    | callHandler =>
      cases hw : written e with
      | false => simp [receiveSignal, hact, isFrame, framesOf, hblocked]
      | true =>
        simp only [receiveSignal, hact, if_true, cons_append, nil_append, framesOf, hblocked]
        rw [filter_cons_of_pos rfl, ih]
        · rfl
        · exact BitVec.or_assoc _ _ _

/-- A traced task stops at every signal but `SIGKILL`, and enters no handler. -/
theorem receiveLoop_traced (copy : Sigset) (written : SigInfo → Bool)
    (passed todo : List SigInfo) (t : SigTask) (entered : Sigset) (htraced : t.traced = true) :
    (receiveLoop copy written passed todo t entered).2.filter isFrame = [] := by
  induction todo generalizing passed t entered with
  | nil => simp [receiveLoop]
  | cons e todo ih =>
    rw [receiveLoop]
    split
    · exact ih (passed ++ [e]) t entered htraced
    by_cases hkill : e.sig = SIGKILL
    · simp [htraced, hkill, receiveSignal, signalAction_sigkill, isFrame]
    · cases t.parentShares <;> simp [htraced, hkill, isFrame]

/-! ## Nesting -/

/-- No signal of the list is blocked by a handler before it. -/
def NoneNested (cs : List (Sig × Sigset)) : Prop :=
  cs.Pairwise (fun p q => sigsetHas p.2 q.1 = false)

/-- The signals are outside `mask` and what the handlers before have added. -/
theorem framesOf_open_iff (base mask entered : Sigset) (cs : List (Sig × Sigset)) :
    (∀ sig blocked before, frame sig blocked before ∈ framesOf base entered cs →
        sigsetHas (mask ||| before) sig = false) ↔
      (∀ p ∈ cs, sigsetHas (mask ||| entered) p.1 = false) ∧ NoneNested cs := by
  induction cs generalizing entered with
  | nil => simp [framesOf, NoneNested]
  | cons p cs ih =>
    obtain ⟨sig, m⟩ := p
    have hrest := ih (entered ||| m)
    unfold NoneNested at hrest ⊢
    rw [pairwise_cons]
    constructor
    · intro h
      have hhead : sigsetHas (mask ||| entered) sig = false :=
        h sig (base ||| entered) entered (by simp [framesOf])
      have htail := hrest.mp fun s b e he => h s b e (by simp [framesOf, he])
      refine ⟨?_, ?_, htail.2⟩
      · intro q hq
        rcases mem_cons.mp hq with rfl | hq
        · exact hhead
        have := htail.1 q hq
        simp only [sigsetHas_or, Bool.or_eq_false_iff] at this ⊢
        exact ⟨this.1, this.2.1⟩
      intro q hq
      have := htail.1 q hq
      simp only [sigsetHas_or, Bool.or_eq_false_iff] at this
      exact this.2.2
    · rintro ⟨hmask, hhead, hpair⟩ s b e he
      simp only [framesOf, mem_cons, frame.injEq] at he
      rcases he with ⟨rfl, -, rfl⟩ | he
      · exact hmask (s, m) (by simp)
      refine hrest.mpr ⟨?_, hpair⟩ s b e he
      intro q hq
      have hq1 := hmask q (mem_cons_of_mem _ hq)
      have hq2 := hhead q hq
      simp only [sigsetHas_or, Bool.or_eq_false_iff] at hq1 ⊢
      exact ⟨hq1.1, hq1.2, hq2⟩

/-- `current->blocked` at a frame is `base` and what the handlers before have added. -/
theorem framesOf_blocked {base : Sigset} {cs : List (Sig × Sigset)} {before : Sigset}
    (h : frame sig blocked before ∈ framesOf base entered cs) :
    blocked = base ||| before := by
  induction cs generalizing entered with
  | nil => simp [framesOf] at h
  | cons p cs ih =>
    obtain ⟨s, m⟩ := p
    simp only [framesOf, mem_cons, frame.injEq] at h
    rcases h with ⟨-, rfl, rfl⟩ | h
    · rfl
    · exact ih h

/-! ## Calls -/

/-- Every signal that got a frame was outside the mask that the call tests and outside what the
handlers entered before in the call had added. -/
def NotMasked (mask : Sigset) (events : List Event) : Prop :=
  ∀ sig blocked entered, frame sig blocked entered ∈ events →
    sigsetHas (mask ||| entered) sig = false

/-- Every signal that got a frame was outside `current->blocked` at that moment. -/
def NotBlocked (events : List Event) : Prop :=
  ∀ sig blocked entered, frame sig blocked entered ∈ events → sigsetHas blocked sig = false

/-- The handlers that a call enters. -/
def SigTask.handlers (t : SigTask) (written : SigInfo → Bool) : List (Sig × Sigset) :=
  if t.traced then [] else caught written t.action (openEntries (callMask t) t.queue)

theorem mem_frames_iff {events : List Event} : frame sig blocked entered ∈ events ↔
      frame sig blocked entered ∈ events.filter isFrame := by
  simp [mem_filter, isFrame]

theorem receiveSignals_frames (t : SigTask) (written : SigInfo → Bool) :
    (receiveSignals t written).2.filter isFrame =
      framesOf (restoreSaved t).blocked 0#64 (t.handlers written) := by
  have htraced : (restoreSaved t).traced = t.traced := by
    unfold restoreSaved
    split <;> rfl
  have haction : (restoreSaved t).action = t.action := by
    unfold restoreSaved
    split <;> rfl
  unfold receiveSignals SigTask.handlers
  cases ht : t.traced with
  | true =>
    rw [receiveLoop_traced _ _ _ _ _ _ (htraced.trans ht)]
    rfl
  | false =>
    have hbase : (restoreSaved t).blocked = (restoreSaved t).blocked ||| 0#64 := by simp
    rw [← haction]
    exact receiveLoop_frames _ _ _ _ _ _ _ (htraced.trans ht) hbase

theorem handlers_open {t : SigTask} (hp : p ∈ t.handlers written) :
    sigsetHas (callMask t) p.1 = false := by
  unfold SigTask.handlers at hp
  split at hp
  · simp at hp
  · exact caught_open hp

/-- **When no handler starts inside one that blocks it.** In any state, the signals that get a
frame in a call are open at that moment, by the mask of the call and the handlers entered before
them, exactly when none is blocked by the handler of an earlier one. They are outside
`current->blocked` itself exactly when, besides, none is in a saved mask that the call restores
before it builds the frames. -/
theorem receiveSignals_open_iff (t : SigTask) (written : SigInfo → Bool) :
    (NotMasked (callMask t) (receiveSignals t written).2 ↔ NoneNested (t.handlers written)) ∧
    (NotBlocked (receiveSignals t written).2 ↔
      NoneNested (t.handlers written) ∧
      (t.hasSavedMask = true → ∀ p ∈ t.handlers written, sigsetHas t.savedMask p.1 = false)) := by
  have hframes := receiveSignals_frames t written
  have hiff := fun mask =>
    framesOf_open_iff (restoreSaved t).blocked mask 0#64 (t.handlers written)
  simp only [← hframes, ← mem_frames_iff] at hiff
  refine ⟨?_, ?_⟩
  · rw [NotMasked, hiff]
    refine and_iff_right ?_
    intro p hp
    simpa using handlers_open hp
  -- the mask at a frame is the one restored and what the handlers have added
  have hmask : NotBlocked (receiveSignals t written).2 ↔
      ∀ sig blocked entered, frame sig blocked entered ∈ (receiveSignals t written).2 →
        sigsetHas ((restoreSaved t).blocked ||| entered) sig = false := by
    refine forall₄_congr fun sig blocked entered he => ?_
    rw [mem_frames_iff, hframes] at he
    rw [framesOf_blocked he]
  rw [hmask, hiff, and_comm]
  refine and_congr_right fun _ => ?_
  cases hsaved : t.hasSavedMask with
  | true => simp [restoreSaved, hsaved]
  | false =>
    have hcall : callMask t = t.blocked := by simp [callMask, hsaved]
    have hopen : ∀ p ∈ t.handlers written, sigsetHas t.blocked p.1 = false := by
      intro p hp
      rw [← hcall]
      exact handlers_open hp
    simp only [restoreSaved, hsaved, Bool.false_eq_true, if_false, BitVec.or_zero,
      false_implies, iff_true]
    exact hopen

/-- A process with a handler for `SIGUSR1` that blocks `SIGUSR2` and one for `SIGUSR2`, both
signals being queued. -/
def twoHandlers : SigTask :=
  { initTask with
    action := fun sig =>
      if sig = SIGUSR1 then ⟨0x1000, 0, 0, sigMask SIGUSR2⟩
      else if sig = SIGUSR2 then ⟨0x2000, 0, 0, 0⟩
      else SigAction.default
    pending := sigMask SIGUSR1 ||| sigMask SIGUSR2
    queue := [sigInfoNil SIGUSR1, sigInfoNil SIGUSR2] }

/-- **The blocked handler runs first.** The frame for `SIGUSR2` is built while `SIGUSR2` is in
`current->blocked`, put there by the handler of `SIGUSR1` in the same call. -/
theorem frame_for_blocked_signal :
    twoHandlers.hasSavedMask = false ∧
    (receiveSignals twoHandlers (fun _ => true)).2 =
      [.frame SIGUSR1 0#64 0#64,
        .frame SIGUSR2 (sigMask SIGUSR1 ||| sigMask SIGUSR2)
          (sigMask SIGUSR1 ||| sigMask SIGUSR2)] ∧
    ¬ NotBlocked (receiveSignals twoHandlers (fun _ => true)).2 := by
  have hevents : (receiveSignals twoHandlers (fun _ => true)).2 =
      [.frame SIGUSR1 0#64 0#64,
        .frame SIGUSR2 (sigMask SIGUSR1 ||| sigMask SIGUSR2)
          (sigMask SIGUSR1 ||| sigMask SIGUSR2)] := by decide +kernel
  refine ⟨rfl, hevents, ?_⟩
  intro h
  rw [hevents] at h
  have hopen := h SIGUSR2 _ _ (mem_cons_of_mem _ mem_cons_self)
  exact absurd hopen (by decide +kernel)

end Ish.Signal
