import Ish.Lib.Masks

set_option autoImplicit false

/-! # Waiting for files

`struct poll` and `poll_wait` (`fs/poll.c`), which `epoll_wait` and `poll` share. The loop of
`poll_wait` takes turns under the lock of the poll: a turn asks every file on the list what is
ready, calls the caller's function for the entries that have something to report, and has the
effects of edge-triggered and one-shot entries. If no call has returned 1 it waits and takes another
turn.

Whether an event goes anywhere is the caller's decision, and the effects do not depend on it.
`turn_entries` and `turn_calls` say what a turn does; nothing below them unfolds `turn`.
-/

namespace Ish.Polling

open List Ish.Lib

def POLL_READ : UInt32 := 1
def POLL_WRITE : UInt32 := 4
def POLL_ERR : UInt32 := 8
def POLL_HUP : UInt32 := 16
def POLL_NVAL : UInt32 := 32
def POLL_ONESHOT : UInt32 := 0x40000000
def POLL_EDGETRIGGERED : UInt32 := 0x80000000

def EINTR : Int := -4
def EFAULT : Int := -14
def EINVAL : Int := -22

abbrev Errno := { e : Int // e < 0 }

/-- `struct poll_fd`, for files `φ` and information `ι` of the caller. -/
structure PollFd (φ ι : Type) where
  fd : φ
  types : UInt32
  info : ι
  triggered : UInt32
deriving DecidableEq

section Model

variable {φ ι κ : Type}

namespace PollFd

def Edge (e : PollFd φ ι) : Prop := e.types &&& POLL_EDGETRIGGERED ≠ 0

def Oneshot (e : PollFd φ ι) : Prop := e.types &&& POLL_ONESHOT ≠ 0

instance (e : PollFd φ ι) : Decidable e.Edge := inferInstanceAs (Decidable (_ ≠ _))

instance (e : PollFd φ ι) : Decidable e.Oneshot := inferInstanceAs (Decidable (_ ≠ _))

/-- What is to be reported for an entry, if the operations `poll` of the files give `poll`. A file
without that operation gives 0. -/
def pollTypes (poll : φ → UInt32) (e : PollFd φ ι) : UInt32 :=
  let types := poll e.fd &&& (e.types ||| POLL_HUP ||| POLL_ERR)
  if e.Edge then types &&& ~~~e.triggered else types

def Pending (poll : φ → UInt32) (e : PollFd φ ι) : Prop := e.pollTypes poll ≠ 0

instance (poll : φ → UInt32) (e : PollFd φ ι) : Decidable (e.Pending poll) :=
  inferInstanceAs (Decidable (_ ≠ _))

/-- The entry after its types have been reported. The source reads the flags of a one-shot entry
once more after `free`. -/
def reported (e : PollFd φ ι) (types : UInt32) : Option (PollFd φ ι) :=
  if e.Oneshot then none
  else if e.Edge then some { e with triggered := e.triggered ||| types }
  else some e

/-- An edge-triggered entry is told that there is something new. -/
def clear (events : UInt32) (e : PollFd φ ι) : PollFd φ ι :=
  if e.Edge then { e with triggered := e.triggered &&& ~~~events } else e

end PollFd

/-- What a turn leaves: the list, the caller's context and `res`. -/
structure Turn (φ ι κ : Type) where
  entries : List (PollFd φ ι)
  ctx : κ
  res : Nat

/-- The caller's function; `true` is that it returns 1. -/
abbrev Callback (ι κ : Type) := κ → UInt32 → ι → κ × Bool

/-- One turn of `poll_wait` over the list. -/
def turn (poll : φ → UInt32) (callback : Callback ι κ) :
    List (PollFd φ ι) → κ → Nat → Turn φ ι κ
  | [], c, res => ⟨[], c, res⟩
  | e :: es, c, res =>
    let types := e.pollTypes poll
    if types = 0 then
      let rest := turn poll callback es c res
      { rest with entries := e :: rest.entries }
    else
      let called := callback c types e.info
      let rest := turn poll callback es called.1 (if called.2 then res + 1 else res)
      { rest with entries := (e.reported types).toList ++ rest.entries }

def woken [DecidableEq φ] (fd : φ) (events : UInt32) (e : PollFd φ ι) : PollFd φ ι :=
  if e.fd = fd then e.clear events else e

/-- `poll_wakeup` for a file of this list, and what a notification from the host does. -/
def wakeup [DecidableEq φ] (fd : φ) (events : UInt32) (es : List (PollFd φ ι)) :
    List (PollFd φ ι) :=
  es.map (woken fd events)

/-- What comes after a turn that has found nothing. -/
inductive Wake (φ : Type) where
  | signal
  | timeout
  /-- `real_poll_wait` fails. -/
  | failed (err : Errno)
  /-- The host reports files. Then the pipe is read, which may fail. -/
  | notified (events : List (φ × UInt32)) (err : Option Errno)

/-- One turn's share of the world. -/
structure Round (φ : Type) where
  poll : φ → UInt32
  wake : Wake φ

/-- What `poll_wait` leaves; `waits` counts the calls of `real_poll_wait`. -/
structure Waited (φ ι κ : Type) where
  ret : Int
  entries : List (PollFd φ ι)
  ctx : κ
  waits : Nat

/-- The loop of `poll_wait`; `none` if it has not returned after these rounds. -/
def pollWait [DecidableEq φ] (callback : Callback ι κ) :
    List (Round φ) → List (PollFd φ ι) → κ → Nat → Option (Waited φ ι κ)
  | [], _, _, _ => none
  | r :: rs, es, c, waits =>
    let t := turn r.poll callback es c 0
    if 0 < t.res then some ⟨t.res, t.entries, t.ctx, waits⟩
    else
      match r.wake with
      | .signal => some ⟨EINTR, t.entries, t.ctx, waits⟩
      | .timeout => some ⟨0, t.entries, t.ctx, waits + 1⟩
      | .failed err => some ⟨err, t.entries, t.ctx, waits + 1⟩
      | .notified events err =>
        let es1 := events.foldl (fun l p => wakeup p.1 p.2 l) t.entries
        match err with
        | some err => some ⟨err, es1, t.ctx, waits + 1⟩
        | none => pollWait callback rs es1 t.ctx (waits + 1)

end Model

/-! ## What a turn does -/

section Turn

variable {φ ι κ : Type} {poll : φ → UInt32} {callback : Callback ι κ}
variable {e e' : PollFd φ ι}

/-- What a turn leaves of an entry. -/
def PollFd.left (poll : φ → UInt32) (e : PollFd φ ι) : Option (PollFd φ ι) :=
  if e.Pending poll then e.reported (e.pollTypes poll) else some e

/-- The effects of a turn are the same for every caller. -/
theorem turn_entries (es : List (PollFd φ ι)) (c : κ) (res : Nat) :
    (turn poll callback es c res).entries = es.filterMap (PollFd.left poll) := by
  induction es generalizing c res with
  | nil => rfl
  | cons e es ih =>
    unfold turn
    by_cases h : e.pollTypes poll = 0
    · have hleft : e.left poll = some e := if_neg (not_not_intro h)
      rw [filterMap_cons_some hleft, if_pos h]
      exact congrArg _ (ih c res)
    have hleft : e.left poll = e.reported (e.pollTypes poll) := if_pos h
    rw [if_neg h, filterMap_cons, hleft]
    cases e.reported (e.pollTypes poll) with
    | none => exact ih _ _
    | some e' => exact congrArg _ (ih _ _)

/-- The calls of a turn, in order. -/
def calls (poll : φ → UInt32) (es : List (PollFd φ ι)) : List (UInt32 × ι) :=
  (es.filter (fun e => e.Pending poll)).map fun e => (e.pollTypes poll, e.info)

/-- The caller's context and `res` after one more call. -/
def call (callback : Callback ι κ) (s : κ × Nat) (a : UInt32 × ι) : κ × Nat :=
  ((callback s.1 a.1 a.2).1, if (callback s.1 a.1 a.2).2 then s.2 + 1 else s.2)

theorem turn_calls (es : List (PollFd φ ι)) (c : κ) (res : Nat) :
    ((turn poll callback es c res).ctx, (turn poll callback es c res).res) =
      (calls poll es).foldl (call callback) (c, res) := by
  induction es generalizing c res with
  | nil => rfl
  | cons e es ih =>
    unfold turn calls
    by_cases h : e.pollTypes poll = 0
    · have hnot : ¬ e.Pending poll := not_not_intro h
      rw [if_pos h, filter_cons_of_neg (by simpa using hnot)]
      exact ih c res
    have hpending : e.Pending poll := h
    rw [if_neg h, filter_cons_of_pos (by simpa using hpending)]
    exact ih _ _

/-- What is left of an entry is the entry, with more triggered bits if at all. -/
theorem PollFd.left_eq_some (h : e.left poll = some e') :
    ∃ triggered, e' = { e with triggered := triggered } := by
  unfold PollFd.left PollFd.reported at h
  split at h
  · split at h
    · cases h
    split at h
    · cases h
      exact ⟨_, rfl⟩
    cases h
    exact ⟨e.triggered, rfl⟩
  · cases h
    exact ⟨e.triggered, rfl⟩

theorem PollFd.fd_of_left (h : e.left poll = some e') : e'.fd = e.fd := by
  obtain ⟨t, rfl⟩ := PollFd.left_eq_some h
  rfl

theorem PollFd.info_of_left (h : e.left poll = some e') : e'.info = e.info := by
  obtain ⟨t, rfl⟩ := PollFd.left_eq_some h
  rfl

theorem PollFd.left_of_plain (hedge : ¬ e.Edge) (hone : ¬ e.Oneshot) : e.left poll = some e := by
  unfold PollFd.left PollFd.reported
  rw [if_neg hone, if_neg hedge, ite_self]

theorem woken_fd [DecidableEq φ] (fd : φ) (events : UInt32) (e : PollFd φ ι) :
    (woken fd events e).fd = e.fd := by
  unfold woken PollFd.clear
  split
  · split <;> rfl
  · rfl

theorem woken_info [DecidableEq φ] (fd : φ) (events : UInt32) (e : PollFd φ ι) :
    (woken fd events e).info = e.info := by
  unfold woken PollFd.clear
  split
  · split <;> rfl
  · rfl

theorem woken_of_plain [DecidableEq φ] (hedge : ¬ e.Edge) (fd : φ) (events : UInt32) :
    woken fd events e = e := by
  unfold woken PollFd.clear
  rw [if_neg hedge, ite_self]

end Turn

/-! ## A list without effects

Entries that are neither edge-triggered nor for one shot, and a caller that takes every event: the
turns before the last one leave no trace, and the result is the number of entries that are pending
in the last one. -/

section Plain

variable {φ ι κ : Type} {callback : Callback ι κ} {es : List (PollFd φ ι)} {c : κ}

theorem turn_entries_of_plain (hplain : ∀ e ∈ es, ¬ e.Edge ∧ ¬ e.Oneshot) (poll : φ → UInt32)
    (res : Nat) : (turn poll callback es c res).entries = es := by
  rw [turn_entries]
  induction es with
  | nil => rfl
  | cons e es ih =>
    obtain ⟨hedge, hone⟩ := hplain e mem_cons_self
    rw [filterMap_cons_some (PollFd.left_of_plain hedge hone),
      ih fun e' he' => hplain e' (mem_cons_of_mem e he')]

theorem turn_ctx (poll : φ → UInt32) (c : κ) (res : Nat) :
    (turn poll callback es c res).ctx = ((calls poll es).foldl (call callback) (c, res)).1 :=
  congrArg Prod.fst (turn_calls es c res)

theorem turn_res (poll : φ → UInt32) (c : κ) (res : Nat) :
    (turn poll callback es c res).res = ((calls poll es).foldl (call callback) (c, res)).2 :=
  congrArg Prod.snd (turn_calls es c res)

variable [DecidableEq φ]

theorem wakeup_of_plain (hplain : ∀ e ∈ es, ¬ e.Edge ∧ ¬ e.Oneshot) (fd : φ) (events : UInt32) :
    wakeup fd events es = es := by
  have hsame : ∀ e ∈ es, woken fd events e = e :=
    fun e he => woken_of_plain (hplain e he).1 fd events
  exact (map_congr_left hsame).trans (map_id _)

theorem foldl_wakeup_of_plain (hplain : ∀ e ∈ es, ¬ e.Edge ∧ ¬ e.Oneshot)
    (events : List (φ × UInt32)) : events.foldl (fun l p => wakeup p.1 p.2 l) es = es := by
  induction events with
  | nil => rfl
  | cons p events ih => rw [foldl_cons, wakeup_of_plain hplain, ih]

/-- **The result of a wait** on such a list, with the readiness of its last turn. -/
theorem pollWait_last (hplain : ∀ e ∈ es, ¬ e.Edge ∧ ¬ e.Oneshot)
    (htakes : ∀ poll, (turn poll callback es c 0).res = (calls poll es).length)
    {idle : List (Round φ)} {last : Round φ} {waits : Nat} {r : Waited φ ι κ}
    (hidle : pollWait callback idle es c waits = none)
    (h : pollWait callback (idle ++ [last]) es c waits = some r) (hret : 0 ≤ r.ret) :
    r.ret = (calls last.poll es).length ∧
      r.ctx = ((calls last.poll es).foldl (call callback) (c, 0)).1 := by
  induction idle generalizing waits with
  | nil =>
    rw [nil_append, pollWait] at h
    by_cases hres : 0 < (turn last.poll callback es c 0).res
    · rw [if_pos hres, Option.some.injEq] at h
      rw [← h]
      exact ⟨congrArg _ (htakes last.poll), turn_ctx last.poll c 0⟩
    -- a timeout, or an error
    rw [if_neg hres] at h
    have hnone : (calls last.poll es).length = 0 := by
      rw [← htakes last.poll]
      omega
    have hctx : (turn last.poll callback es c 0).ctx = _ := turn_ctx last.poll c 0
    cases hwake : last.wake with
    | timeout =>
      rw [hwake, Option.some.injEq] at h
      rw [← h]
      exact ⟨by rw [hnone]; rfl, hctx⟩
    | signal =>
      rw [hwake, Option.some.injEq] at h
      rw [← h] at hret
      exact absurd hret (show ¬ 0 ≤ EINTR by decide)
    | failed err =>
      rw [hwake, Option.some.injEq] at h
      rw [← h] at hret
      exact absurd hret (not_le.mpr err.2)
    | notified events err =>
      rw [hwake] at h
      cases err with
      | none => cases h
      | some err =>
        rw [Option.some.injEq] at h
        rw [← h] at hret
        exact absurd hret (not_le.mpr err.2)
  | cons round idle ih =>
    rw [cons_append, pollWait] at h
    rw [pollWait] at hidle
    by_cases hres : 0 < (turn round.poll callback es c 0).res
    · rw [if_pos hres] at hidle
      cases hidle
    rw [if_neg hres] at h hidle
    have hcalls : calls round.poll es = [] := by
      rw [← length_eq_zero_iff, ← htakes round.poll]
      omega
    have hctx : (turn round.poll callback es c 0).ctx = c := by
      rw [turn_ctx, hcalls]
      rfl
    cases hwake : round.wake with
    | timeout | signal | failed err =>
      rw [hwake] at hidle
      cases hidle
    | notified events err =>
      rw [hwake] at h hidle
      cases err with
      | some err => cases hidle
      | none =>
        dsimp only at h hidle
        rw [turn_entries_of_plain hplain, foldl_wakeup_of_plain hplain, hctx] at h hidle
        exact ih hidle h

end Plain

end Ish.Polling
