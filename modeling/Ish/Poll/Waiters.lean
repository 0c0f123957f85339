import Ish.Lib.Machine

set_option autoImplicit false

/-! # The pipe of a poll

`poll_wait` (`fs/poll.c`) counts its callers in `waiters`. The first one makes `notify_pipe` and
gives its read end to the host poll, the last one closes it, and `poll_wakeup` writes a byte to it.
The lock of the poll is free only while a call sleeps in `real_poll_wait`, so a step goes from the
entry of a call or from the end of its sleep to the next sleep or to the return.

A call whose `pipe` fails returns without taking itself off `waiters`. All calls after it find the
counter above 0 and sleep without a pipe.
-/

namespace Ish.Polling

open Option Ish.Lib

/-- `notify_pipe`: how many bytes are in it, and whether the host poll has been given it. -/
structure NotifyPipe where
  bytes : Nat
  watched : Bool
deriving DecidableEq

/-- A poll, while its lock is free; `pipe` is `none` if both ends are -1. -/
structure Waiters (τ : Type) where
  waiters : Int
  pipe : Option NotifyPipe
  /-- The calls in `real_poll_wait`. -/
  asleep : Finset τ
  /-- The assertion has failed. -/
  failed : Bool

/-- How `real_poll_wait` returns: there may be an event of the pipe, and `read` of it may fail. -/
inductive Woken where
  | failed
  | timeout
  | events (ofPipe readFails : Bool)

/-- A call `ends` if its next turn finds something or a signal is pending. -/
inductive WaitStep (τ : Type) where
  /-- `made` is `none` if `pipe` fails, or whether the host poll takes it. -/
  | enter (t : τ) (made : Option Bool) (ends : Bool)
  | resume (t : τ) (woken : Woken) (ends : Bool)
  | wakeup

section Model

variable {τ : Type} [DecidableEq τ]

namespace Waiters

def release (s : Waiters τ) : Waiters τ :=
  { s with
    waiters := s.waiters - 1
    pipe := if s.waiters - 1 = 0 then none else s.pipe }

def turn (s : Waiters τ) (t : τ) (ends : Bool) : Waiters τ :=
  if ends then s.release else { s with asleep := insert t s.asleep }

def enter (s : Waiters τ) (t : τ) (made : Option Bool) (ends : Bool) : Waiters τ :=
  if s.waiters = 0 then
    let first := { s with waiters := 1, failed := s.failed || s.pipe.isSome }
    match made with
    | none => first
    | some watched => { first with pipe := some ⟨0, watched⟩ }.turn t ends
  else { s with waiters := s.waiters + 1 }.turn t ends

def resume (s : Waiters τ) (t : τ) (woken : Woken) (ends : Bool) : Waiters τ :=
  match woken, s.pipe with
  | .events _ false, some p => { s with pipe := some { p with bytes := p.bytes - 1 } }.turn t ends
  -- an error, a timeout, or `read` fails, as it does for the descriptor -1
  | _, _ => s.release

/-- The host reports an event of the pipe. -/
def reports (s : Waiters τ) : Woken → Bool
  | .events true _ => s.pipe.any fun p => p.watched && decide (0 < p.bytes)
  | _ => true

/-- The pipe does not block, and holds `2 ^ 16` bytes. -/
def wakeup (s : Waiters τ) : Waiters τ :=
  { s with pipe := s.pipe.map fun p => { p with bytes := min (p.bytes + 1) (2 ^ 16) } }

def step (s : Waiters τ) : WaitStep τ → Option (Waiters τ × Unit)
  | .enter t made ends => if t ∈ s.asleep then none else some (s.enter t made ends, ())
  | .resume t woken ends =>
    if t ∈ s.asleep ∧ s.reports woken then
      some ({ s with asleep := s.asleep.erase t }.resume t woken ends, ())
    else none
  | .wakeup => some (s.wakeup, ())

/-- **What the counter and the pipe are for.** After a wakeup, every call that sleeps can be resumed
by an event of the pipe. -/
structure Right (s : Waiters τ) : Prop where
  count : s.waiters = s.asleep.card
  opened : s.pipe.isSome ↔ 0 < s.waiters
  asserts : s.failed = false
  reached : ∀ t ∈ s.asleep, (s.wakeup.step (.resume t (.events true false) true)).isSome

end Waiters

def waitMachine : Machine (Waiters τ) (WaitStep τ) Unit := ⟨Waiters.step⟩

/-- **The condition.** A first caller gets its pipe, and does not sleep if the host poll has refused
it. -/
def WaitStep.Keeps (s : Waiters τ) : WaitStep τ → Prop
  | .enter _ none _ => s.waiters ≠ 0
  | .enter _ (some watched) ends => s.waiters = 0 → watched = false → ends = true
  | _ => True

/-- `poll_create`. -/
def Waiters.init : Waiters τ := ⟨0, none, ∅, false⟩

/-! ## Steps -/

namespace Waiters

variable {s s' : Waiters τ} {t : τ}

theorem right_iff : s.Right ↔ s.failed = false ∧ s.waiters = s.asleep.card ∧
    (s.asleep = ∅ ∧ s.pipe = none ∨ s.asleep.Nonempty ∧ ∃ n, s.pipe = some ⟨n, true⟩) := by
  have hreached : ∀ t ∈ s.asleep,
      ((s.wakeup.step (.resume t (.events true false) true)).isSome ↔
        ∃ n, s.pipe = some ⟨n, true⟩) := by
    intro t ht
    rcases hp : s.pipe with _ | ⟨n, _ | _⟩ <;> simp [step, wakeup, reports, ht, hp]
  constructor
  · intro h
    refine ⟨h.asserts, h.count, s.asleep.eq_empty_or_nonempty.imp (fun hnone => ⟨hnone, ?_⟩) ?_⟩
    · simpa [h.count, hnone] using h.opened
    rintro ⟨t, ht⟩
    exact ⟨⟨t, ht⟩, (hreached t ht).mp (h.reached t ht)⟩
  rintro ⟨hasserts, hcount, ⟨hnone, hpipe⟩ | ⟨hsome, hpipe⟩⟩
  · exact ⟨hcount, by simp [hcount, hnone, hpipe], hasserts, by simp [hnone]⟩
  refine ⟨hcount, ?_, hasserts, fun t ht => (hreached t ht).mpr hpipe⟩
  obtain ⟨n, hn⟩ := hpipe
  simp [hn, hcount, hsome]

/-- A call has the lock, and all others sleep. -/
structure Busy (s : Waiters τ) (t : τ) (n : Nat) (watched : Bool) : Prop where
  out : t ∉ s.asleep
  count : s.waiters = s.asleep.card + 1
  pipe : s.pipe = some ⟨n, watched⟩
  asserts : s.failed = false
  others : s.asleep.Nonempty → watched = true

theorem Busy.release {n : Nat} {watched : Bool} (h : s.Busy t n watched) : s.release.Right := by
  have hcount : s.waiters - 1 = s.asleep.card := by
    rw [h.count, add_sub_cancel_right]
  rw [right_iff]
  rcases s.asleep.eq_empty_or_nonempty with hnone | hsome
  · exact ⟨h.asserts, hcount, .inl ⟨hnone, if_pos (by rw [hcount, hnone]; rfl)⟩⟩
  refine ⟨h.asserts, hcount, .inr ⟨hsome, n, ?_⟩⟩
  rw [← h.others hsome, ← h.pipe]
  exact if_neg (by simpa [hcount] using hsome.ne_empty)

theorem Busy.turn {n : Nat} {watched : Bool} (h : s.Busy t n watched) (ends : Bool) :
    (s.turn t ends).Right ↔ (watched = false → ends = true) := by
  cases ends with
  | true => exact iff_of_true h.release fun _ => rfl
  | false =>
    have hcount : s.waiters = (insert t s.asleep).card := by
      rw [Finset.card_insert_of_notMem h.out, h.count, Nat.cast_add, Nat.cast_one]
    rw [right_iff]
    simp [Waiters.turn, h.asserts, h.pipe, hcount]

theorem Right.enter (h : s.Right) (ht : t ∉ s.asleep) (made : Option Bool) (ends : Bool) :
    (s.enter t made ends).Right ↔ (WaitStep.enter t made ends).Keeps s := by
  unfold Waiters.enter WaitStep.Keeps
  obtain ⟨hasserts, hcount, ⟨hnone, hpipe⟩ | ⟨hsome, n, hpipe⟩⟩ := right_iff.mp h
  · have hzero : s.waiters = 0 := by rw [hcount, hnone]; rfl
    have hbusy : ∀ watched, Busy ⟨1, some ⟨0, watched⟩, s.asleep, s.failed || s.pipe.isSome⟩ t 0
        watched := by
      intro watched
      exact ⟨ht, by simp [hnone], rfl, by simp [hasserts, hpipe], by simp [hnone]⟩
    rw [if_pos hzero]
    cases made with
    | none =>
      refine iff_of_false (fun hright => ?_) (not_not_intro hzero)
      have hone := hright.count
      simp [hnone] at hone
    | some watched => simpa [hzero] using (hbusy watched).turn ends
  · have hne : s.waiters ≠ 0 := by
      rw [hcount]
      simpa using hsome.ne_empty
    have hbusy : Busy { s with waiters := s.waiters + 1 } t n true :=
      ⟨ht, by rw [hcount], hpipe, hasserts, fun _ => rfl⟩
    rw [if_neg hne, hbusy.turn]
    cases made <;> simp [hne]

theorem Right.resume (h : s.Right) (ht : t ∈ s.asleep) (woken : Woken) (ends : Bool) :
    ({ s with asleep := s.asleep.erase t }.resume t woken ends).Right := by
  obtain ⟨hasserts, hcount, ⟨hnone, -⟩ | ⟨-, n, hpipe⟩⟩ := right_iff.mp h
  · rw [hnone] at ht
    cases ht
  have hbusy : ∀ m, Busy ⟨s.waiters, some ⟨m, true⟩, s.asleep.erase t, s.failed⟩ t m true := by
    intro m
    refine ⟨Finset.notMem_erase t _, ?_, rfl, hasserts, fun _ => rfl⟩
    rw [hcount, ← Finset.card_erase_add_one ht]
    rfl
  unfold Waiters.resume
  rw [hpipe]
  split
  · next p hp =>
    cases hp
    exact ((hbusy (n - 1)).turn ends).mpr (by simp)
  · exact (hbusy n).release

/-- **One step** keeps the counter and the pipe right exactly if it meets the condition. -/
theorem Right.step {l : WaitStep τ} (h : s.Right) (hstep : waitMachine.step s l = some (s', ())) :
    s'.Right ↔ l.Keeps s := by
  cases l with
  | enter t made ends =>
    obtain ⟨ht, hs'⟩ := ite_none_left_eq_some.mp hstep
    cases hs'
    exact h.enter ht made ends
  | resume t woken ends =>
    obtain ⟨ht, hs'⟩ := ite_none_right_eq_some.mp hstep
    cases hs'
    exact iff_of_true (h.resume ht.1 woken ends) trivial
  | wakeup =>
    cases hstep
    refine iff_of_true (right_iff.mpr ?_) trivial
    obtain ⟨hasserts, hcount, ⟨hnone, hpipe⟩ | ⟨hsome, n, hpipe⟩⟩ := right_iff.mp h
    · exact ⟨hasserts, hcount, .inl ⟨hnone, by rw [wakeup, hpipe]; rfl⟩⟩
    · exact ⟨hasserts, hcount, .inr ⟨hsome, _, by rw [wakeup, hpipe]; rfl⟩⟩

end Waiters

/-- **The counter and the pipe.** In every interleaving of calls and wakeups, `waiters` and the pipe
are right in all states exactly if all steps meet the condition. -/
theorem waiters_right_iff (as : List (WaitStep τ)) :
    waitMachine.Along (fun s l => ∀ s' o, waitMachine.step s l = some (s', o) → s'.Right)
        Waiters.init as ↔
      waitMachine.Along (fun s l => (waitMachine.step s l).isSome → l.Keeps s) Waiters.init as :=
  Machine.along_inv_iff (fun _ _ _ _ hs hstep => hs.step hstep)
    (Waiters.right_iff.mpr ⟨rfl, rfl, .inl ⟨rfl, rfl⟩⟩) as

end Model

/-- A call finds no descriptors for its pipe. The next one sleeps, and a wakeup does not reach
it. -/
theorem waiters_wrong :
    ∃ (s : Waiters Nat) (os : List Unit),
      waitMachine.run Waiters.init [.enter 1 none true, .enter 2 (some true) false] = some (s, os) ∧
        s.waiters = 2 ∧ s.asleep = {2} ∧ s.pipe = none ∧
        s.wakeup.step (.resume 2 (.events true false) true) = none :=
  ⟨_, _, rfl, rfl, rfl, rfl, rfl⟩

end Ish.Polling
