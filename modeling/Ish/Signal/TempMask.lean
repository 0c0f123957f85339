import Ish.Signal.Frame
import Ish.Signal.Unblockable

set_option autoImplicit false

/-! # Temporary masks

`sigsuspend`, `ppoll`, `pselect` and `epoll_pwait` set another mask for the time of the call
(`sigmask_set_temp`), and the `receive_signals` at its end puts the old one back. The loop passes
over what both masks block. The handlers are entered under the old mask, so the frame of the first
one has it, and `sigreturn` brings it back.

A traced task stops inside the loop, and others may send signals meanwhile. `leftQueue` is the queue
as the call will leave it if nobody does; from the start of the call to its end it only grows, by
what is sent.
-/

namespace Ish.Signal

open Option List Ish.Lib

variable {copy orig : Sigset} {t t' : SigTask} {events : List Event} {op : Op} {more : List SigInfo}

/-- The mask that a frame is built from. -/
def Event.mask : Event → Option Sigset
  | .frame _ blocked _ => some blocked
  | _ => none

def firstMask (events : List Event) : Option Sigset := events.findSome? Event.mask

/-- The mask that the guest finds in a frame. -/
def UserFrame.mask : UserFrame → Sigset
  | .plain frame => (frame.extramask.setWidth 64 <<< 32) ||| frame.sc.oldmask.setWidth 64
  | .rt frame => frame.uc.sigmask

theorem enterHandler_mask (env : FrameEnv) (action : SigAction) (info : SigInfo) (ft : FrameTask) :
    ∃ frame, (enterHandler env action info ft).mem (handlerSp env action ft) = some frame ∧
      frame.mask = ft.blocked := by
  unfold enterHandler
  cases needSiginfo action with
  | true => exact ⟨_, Function.update_self .., rfl⟩
  | false => exact ⟨_, Function.update_self .., mask_halves ft.blocked⟩

/-! ## The loop -/

def leftQueue (copy : Sigset) (t : SigTask) : List SigInfo :=
  match t.pc with
  | .inStop _ passed false =>
    t.queue.take passed ++ (t.queue.drop passed).filter fun e => sigsetHas copy e.sig
  | _ => t.queue

/-- The first frame has the mask `orig`, or else the task has it. -/
def Restores (orig : Sigset) (t : SigTask) (events : List Event) : Prop :=
  firstMask events = none ∧ t.blocked = orig ∨ firstMask events = some orig

theorem Restores.append {out : List Event} (h : Restores orig t events)
    (h' : Restores t.blocked t' out) : Restores orig t' (events ++ out) := by
  unfold Restores firstMask at *
  rw [findSome?_append]
  rcases h with ⟨hnone, rfl⟩ | hsome
  · rwa [hnone, none_or]
  rw [hsome]
  exact .inr rfl

theorem receiveLoop_restores (copy : Sigset) (written : SigInfo → Bool)
    (passed todo : List SigInfo) (t : SigTask) (entered : Sigset) :
    Restores t.blocked (receiveLoop copy written passed todo t entered).1
      (receiveLoop copy written passed todo t entered).2 := by
  fun_induction receiveLoop copy written passed todo t entered with
  | case1 | case3 | case4 | case6 => exact .inl ⟨rfl, rfl⟩
  | case2 passed e todo t entered hskip ih => exact ih
  | case5 passed e todo t entered hopen t1 hstop t2 entered2 events hgo r ih =>
    rcases receiveSignal_goOn hgo with ⟨-, rfl, -, rfl⟩ | ⟨-, rfl, -, rfl⟩ | ⟨-, -, rfl, -, rfl⟩
    · exact ih
    · exact ih
    · exact .inr rfl
  | case7 passed e todo t entered hopen t1 hstop t2 events hdead =>
    obtain ⟨-, -, rfl, rfl⟩ := receiveSignal_deadlock hdead
    exact .inr rfl

/-- **The loop leaves what the mask blocks**, when it ends and when it stops. -/
theorem receiveLoop_leftQueue (copy : Sigset) (written : SigInfo → Bool)
    (passed todo : List SigInfo) (t : SigTask) (entered : Sigset) :
    let t' := (receiveLoop copy written passed todo t entered).1
    (t'.pc ≠ .exit → t'.pc ≠ .deadlocked →
      leftQueue copy t' = passed ++ todo.filter fun e => sigsetHas copy e.sig) ∧
    ∀ b n atEnd, t'.pc = .inStop b n atEnd → n ≤ t'.queue.length := by
  fun_induction receiveLoop copy written passed todo t entered with
  | case1 => simp [leftQueue]
  | case2 passed e todo t entered hskip ih => simpa [hskip] using ih
  | case3 | case6 => simp
  | case4 passed e todo t entered hopen t1 hstop hshare =>
    cases todo <;> simp [leftQueue, t1, hopen]
  | case5 passed e todo t entered hopen t1 hstop t2 entered2 events hgo r ih =>
    simpa [hopen] using ih
  | case7 => simp

/-! ## The call -/

/-- What others do to the task. -/
def Op.ByOthers : Op → Prop
  | .send _ _ | .deliver _ _ | .sigaction _ _ => True
  | _ => False

/-- A step between the start of `receive_signals` and its end. -/
def Op.Meanwhile : Op → Prop
  | .resume _ | .killedInStop => True
  | op => op.ByOthers

/-- The step sends this entry. -/
def Op.Sends (op : Op) (e : SigInfo) : Prop :=
  ∃ info, (op = .send (some e.sig) info ∨ op = .deliver e.sig info) ∧ e = { info with sig := e.sig }

theorem deliverSignalUnlocked_queue (t : SigTask) (sig : Sig) (info : SigInfo) :
    ∃ more, (deliverSignalUnlocked t sig info).queue = t.queue ++ more ∧
      ∀ e ∈ more, e = { info with sig := sig } := by
  unfold deliverSignalUnlocked
  split
  · exact ⟨[], by simp, nofun⟩
  · exact ⟨_, rfl, forall_mem_singleton.mpr rfl⟩

theorem sendSignal_queue (t : SigTask) (sig : Sig) (info : SigInfo) :
    (sendSignal t (some sig) info).queue = t.queue ∨
      (sendSignal t (some sig) info).queue = (deliverSignalUnlocked t sig info).queue := by
  unfold sendSignal
  dsimp only
  split_ifs <;> simp

theorem step_of_byOthers (hop : op.ByOthers) (hstep : sigMachine.step t op = some (t', events)) :
    SentTo t t' ∧ events = [] ∧ ∃ more, t'.queue = t.queue ++ more ∧ ∀ e ∈ more, op.Sends e := by
  cases sigMachine_cases hstep with
  | send sig info =>
    refine ⟨sendSignal_sentTo t sig info, rfl, ?_⟩
    cases sig with
    | none => exact ⟨[], by simp [sendSignal], nofun⟩
    | some sig =>
      rcases sendSignal_queue t sig info with h | h
      · exact ⟨[], by simp [h], nofun⟩
      obtain ⟨more, hmore, hall⟩ := deliverSignalUnlocked_queue t sig info
      refine ⟨more, h.trans hmore, fun e he => ⟨info, ?_⟩⟩
      rw [hall e he]
      exact ⟨.inl rfl, rfl⟩
  | deliver sig info =>
    refine ⟨deliverSignalUnlocked_sentTo t sig info, rfl, ?_⟩
    obtain ⟨more, hmore, hall⟩ := deliverSignalUnlocked_queue t sig info
    refine ⟨more, hmore, fun e he => ⟨info, ?_⟩⟩
    rw [hall e he]
    exact ⟨.inr rfl, rfl⟩
  | sigaction =>
    exact ⟨⟨rfl, rfl, rfl, rfl, rfl, rfl, [], by simp⟩, rfl, [], by simp, nofun⟩
  | _ => exact hop.elim

/-- What holds from the start of the call on: `kept` is what both masks block, and `Sent` holds of
all that is sent meanwhile. -/
structure InCall (copy orig : Sigset) (kept : List SigInfo) (Sent : SigInfo → Prop) (t : SigTask)
    (events : List Event) : Prop where
  saved : t.hasSavedMask = false
  mask : Restores orig t events
  stop : ∀ b n atEnd, t.pc = .inStop b n atEnd → b = copy ∧ n ≤ t.queue.length
  queue : t.pc ≠ .exit → t.pc ≠ .deadlocked →
    ∃ arrived, leftQueue copy t = kept ++ arrived ∧ ∀ e ∈ arrived, Sent e

namespace InCall

variable {kept : List SigInfo} {Sent : SigInfo → Prop}

theorem sentTo (h : InCall copy orig kept Sent t events) (hsent : SentTo t t')
    (hqueue : t'.queue = t.queue ++ more) (hmore : ∀ e ∈ more, Sent e) :
    InCall copy orig kept Sent t' events := by
  obtain ⟨hsaved, hmask, hstop, hleft⟩ := h
  refine ⟨hsent.hasSavedMask.trans hsaved, ?_, ?_, ?_⟩
  · rwa [Restores, hsent.blocked]
  · rw [hsent.pc, hqueue, length_append]
    intro b n atEnd hpc
    obtain ⟨hb, hn⟩ := hstop b n atEnd hpc
    exact ⟨hb, hn.trans (Nat.le_add_right _ _)⟩
  rw [hsent.pc]
  intro hexit hdead
  obtain ⟨arrived, hq, harrived⟩ := hleft hexit hdead
  obtain ⟨added, hadded, hmem⟩ : ∃ added, leftQueue copy t' = leftQueue copy t ++ added ∧
      ∀ e ∈ added, e ∈ more := by
    unfold leftQueue
    rw [hsent.pc, hqueue]
    split
    · have hn := (hstop _ _ _ ‹_›).2
      rw [take_append_of_le_length hn, drop_append_of_le_length hn, filter_append, ← append_assoc]
      exact ⟨_, rfl, fun e he => (mem_filter.mp he).1⟩
    · exact ⟨more, rfl, fun e he => he⟩
  refine ⟨arrived ++ added, by rw [hadded, hq, append_assoc], ?_⟩
  exact forall_mem_append.mpr ⟨harrived, fun e he => hmore e (hmem e he)⟩

/-- The loop, from the start or after a stop. -/
theorem loop (written : SigInfo → Bool) {passed todo : List SigInfo}
    (hsaved : t.hasSavedMask = false) (hmask : Restores orig t events)
    (hqueue : ∃ arrived, passed ++ (todo.filter fun e => sigsetHas copy e.sig) = kept ++ arrived ∧
      ∀ e ∈ arrived, Sent e) :
    InCall copy orig kept Sent (receiveLoop copy written passed todo t 0).1
      (events ++ (receiveLoop copy written passed todo t 0).2) := by
  obtain ⟨-, hhas, -, -, hstop⟩ := receiveLoop_kept copy written passed todo t 0
  obtain ⟨hleft, hlen⟩ := receiveLoop_leftQueue copy written passed todo t 0
  refine ⟨hhas.trans hsaved, hmask.append (receiveLoop_restores copy written passed todo t 0),
    fun b n atEnd hpc => ⟨(hstop b n atEnd hpc).1, hlen b n atEnd hpc⟩, ?_⟩
  intro hexit hdead
  rwa [hleft hexit hdead]

theorem step {out : List Event} (h : InCall copy orig kept Sent t events) (hop : op.Meanwhile)
    (hsends : ∀ e, op.Sends e → Sent e) (hstep : sigMachine.step t op = some (t', out)) :
    InCall copy orig kept Sent t' (events ++ out) := by
  have hothers : op.ByOthers → InCall copy orig kept Sent t' (events ++ out) := by
    intro hop
    obtain ⟨hsent, rfl, more, hqueue, hmore⟩ := step_of_byOthers hop hstep
    rw [append_nil]
    exact h.sentTo hsent hqueue fun e he => hsends e (hmore e he)
  cases sigMachine_cases hstep with
  | send | deliver | sigaction => exact hothers trivial
  | @resume b n atEnd written hpc =>
    obtain ⟨rfl, -⟩ := h.stop b n atEnd hpc
    obtain ⟨arrived, hleft, hsent⟩ := h.queue (by simp [hpc]) (by simp [hpc])
    rw [leftQueue, hpc] at hleft
    unfold resumeSignals
    cases atEnd with
    | true =>
      rw [if_pos rfl, append_nil]
      exact ⟨h.saved, h.mask, nofun, fun _ _ => ⟨arrived, hleft, hsent⟩⟩
    | false => exact loop written h.saved h.mask ⟨arrived, hleft, hsent⟩
  | killedInStop =>
    exact ⟨h.saved, h.mask.append (.inl ⟨rfl, rfl⟩), nofun, fun hexit => absurd rfl hexit⟩
  | _ => exact hop.elim

theorem run {during : List Op} {outs : List (List Event)}
    (h : InCall copy orig kept Sent t events)
    (hduring : ∀ op ∈ during, op.Meanwhile ∧ ∀ e, op.Sends e → Sent e)
    (hrun : sigMachine.run t during = some (t', outs)) :
    InCall copy orig kept Sent t' (events ++ outs.flatten) := by
  induction during generalizing t events outs with
  | nil =>
    obtain ⟨rfl, rfl⟩ := Prod.mk.inj (some.inj hrun)
    simpa using h
  | cons op during ih =>
    obtain ⟨hop, hrest⟩ := forall_mem_cons.mp hduring
    obtain ⟨t1, out, outs, hstep, hlater, rfl⟩ := Machine.run_cons_eq_some.mp hrun
    have hnext := ih (h.step hop.1 hop.2 hstep) hrest hlater
    rwa [append_assoc] at hnext

end InCall

/-- The masks while the system call sleeps. -/
theorem masks_of_run {mask : Sigset} {before : List Op} {outs : List (List Event)}
    (hbefore : ∀ op ∈ before, op.ByOthers)
    (hrun : sigMachine.run t (.setTemp mask :: before) = some (t', outs)) :
    t'.hasSavedMask = true ∧ t'.savedMask = t.blocked ∧
      t'.blocked = mask &&& ~~~ UNBLOCKABLE_MASK := by
  obtain ⟨t1, out, outs, hset, hlater, -⟩ := Machine.run_cons_eq_some.mp hrun
  cases sigMachine_cases hset with
  | setTemp _ hpc =>
    refine Machine.run_inv (P := fun _ op => op.ByOthers) (I := fun s => s.hasSavedMask = true ∧
      s.savedMask = t.blocked ∧ s.blocked = mask &&& ~~~ UNBLOCKABLE_MASK) ?_ ⟨rfl, rfl, rfl⟩
      (Machine.along_of_forall (fun op hop _ => hbefore op hop) _) hlater
    intro s op s1 out hs hop hstep
    obtain ⟨hsent, -⟩ := step_of_byOthers hop hstep
    rwa [hsent.hasSavedMask, hsent.savedMask, hsent.blocked]

/-- **A temporary mask is undone.** Whatever others do meanwhile, when `receive_signals` returns
after a call that set the mask, no mask is saved; of the signals that were queued, those are left
that both masks block; the first handler frame has the original mask; and without a handler the
task has it. -/
theorem tempMask_undone {mask : Sigset} {before during : List Op} {written : SigInfo → Bool}
    {s : SigTask} {outs0 outs : List (List Event)} (hbefore : ∀ op ∈ before, op.ByOthers)
    (hduring : ∀ op ∈ during, op.Meanwhile)
    (hstart : sigMachine.run t (.setTemp mask :: before) = some (s, outs0))
    (hcall : sigMachine.run s (.receive written :: during) = some (t', outs))
    (hreturn : t'.pc = .running) :
    t'.hasSavedMask = false ∧
    (∃ arrived, t'.queue = (s.queue.filter fun e =>
        sigsetHas (mask &&& ~~~ UNBLOCKABLE_MASK) e.sig && sigsetHas t.blocked e.sig) ++ arrived ∧
      ∀ e ∈ arrived, ∃ op ∈ during, op.Sends e) ∧
    (∀ m, firstMask outs.flatten = some m → ∀ env action info (ft : FrameTask), ft.blocked = m →
      ∃ frame, (enterHandler env action info ft).mem (handlerSp env action ft) = some frame ∧
        frame.mask = t.blocked) ∧
    (firstMask outs.flatten = none → t'.blocked = t.blocked) := by
  obtain ⟨hhas, hsaved, hblocked⟩ := masks_of_run hbefore hstart
  obtain ⟨s1, out, outs, hreceive, hlater, rfl⟩ := Machine.run_cons_eq_some.mp hcall
  have hmask : callMask s = mask &&& ~~~ UNBLOCKABLE_MASK &&& t.blocked := by
    rw [callMask, if_pos hhas, hblocked, hsaved]
  have hrestored : restoreSaved s = { s with hasSavedMask := false, blocked := t.blocked } := by
    rw [restoreSaved, if_pos hhas, hsaved]
  cases sigMachine_cases hreceive with
  | receive _ _ =>
    have hbegin : InCall (callMask s) t.blocked
        (s.queue.filter fun e => sigsetHas (callMask s) e.sig) (fun e => ∃ op ∈ during, op.Sends e)
        (receiveSignals s written).1 ([] ++ (receiveSignals s written).2) := by
      unfold receiveSignals
      rw [hrestored]
      exact InCall.loop written rfl (.inl ⟨rfl, rfl⟩) ⟨[], by simp, nofun⟩
    have hend := hbegin.run (fun op hop => ⟨hduring op hop, fun e he => ⟨op, hop, he⟩⟩) hlater
    rw [nil_append] at hend
    have hqueue := hend.queue (by simp [hreturn]) (by simp [hreturn])
    refine ⟨hend.saved, ?_, ?_, ?_⟩
    · simpa only [leftQueue, hreturn, hmask, sigsetHas_and] using hqueue
    · rintro m hm env action info ft rfl
      obtain ⟨frame, hmem, hframe⟩ := enterHandler_mask env action info ft
      refine ⟨frame, hmem, hframe.trans ?_⟩
      rcases hend.mask with ⟨hnone, -⟩ | hsome
      · exact absurd (hnone.symm.trans hm) (by simp)
      · exact some.inj (hm.symm.trans hsome)
    intro hnone
    rcases hend.mask with ⟨-, hblocked⟩ | hsome
    · exact hblocked
    · exact absurd (hnone.symm.trans hsome) (by simp)

/-- A task that blocks `SIGCHLD` calls `sigsuspend` with a mask that blocks `SIGUSR2`, and a handler
for `SIGUSR1` ends the call. -/
theorem tempMask_undone_usr1 :
    ∃ t', t'.hasSavedMask = false ∧ sigMachine.run { initTask with blocked := sigMask SIGCHLD }
        [.setTemp (sigMask SIGUSR2), .sigaction SIGUSR1 ⟨0x1000, 0, 0, 0⟩,
          .send (some SIGUSR1) (sigInfoNil SIGUSR1), .receive fun _ => true] =
      some (t', [[], [], [], [.frame SIGUSR1 (sigMask SIGCHLD) 0#64]]) := by
  have hothers : ∀ op ∈ [.sigaction SIGUSR1 ⟨0x1000, 0, 0, 0⟩,
      .send (some SIGUSR1) (sigInfoNil SIGUSR1)], Op.ByOthers op := by simp [Op.ByOthers]
  have h := tempMask_undone hothers (show ∀ op ∈ [], Op.Meanwhile op from nofun)
    (show sigMachine.run { initTask with blocked := sigMask SIGCHLD }
      (.setTemp (sigMask SIGUSR2) :: _) = some (_, _) from rfl)
    (show sigMachine.run _ [.receive fun _ => true] = some (_, _) from rfl) rfl
  exact ⟨_, h.1, rfl⟩

end Ish.Signal
