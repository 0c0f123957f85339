import Ish.Lib.Machine
import Ish.Poll.Basic

set_option autoImplicit false

/-! # Events through epoll

`epoll_ctl` and `epoll_wait` (`kernel/epoll.c`) on one poll, with the files becoming ready and their
calls of `poll_wakeup`, as a machine. A turn of `poll_wait` that has nothing to report changes
nothing, so a call of `epoll_wait` that returns events is its last turn, and what other threads do
in between are steps of their own.

`epoll_callback` refuses an event that has no place in the caller's array. The turn sets the
triggered bits of an edge-triggered entry and drops a one-shot entry all the same; when the array
cannot be written to the whole report is lost that way. `EPOLL_CTL_MOD`, which is there to arm a
one-shot entry that has fired, does not find it. And an entry that it makes level-triggered keeps
its triggered bits, which `poll_wakeup` does not clear then: made edge-triggered again, it holds
back what is new.

`Along Keeps` is that no event is used up without being returned and that fired one-shot entries can
be armed again; `Along Fits` says which runs are like that.
-/

namespace Ish.Polling

open List Function Ish.Lib PollFd

def ENOENT : Int := -2
def EEXIST : Int := -17

/-- The guest's `data`. The file is in no structure of the source; it tells apart events with the
same data. -/
structure Info (φ : Type) where
  data : UInt64
  file : φ
deriving DecidableEq

/-- `struct epoll_event_`. -/
structure Event (φ : Type) where
  events : UInt32
  info : Info φ
deriving DecidableEq

abbrev Entry (φ : Type) := PollFd φ (Info φ)

/-- A list of a poll that `epoll_ctl` has made. -/
structure Registered {φ : Type} (es : List (Entry φ)) : Prop where
  distinct : (es.map fd).Nodup
  file : ∀ e ∈ es, e.info.file = e.fd

/-- The epoll and what the operations `poll` of the files give. -/
structure Epoll (φ : Type) where
  entries : List (Entry φ)
  registered : Registered entries
  poll : φ → UInt32

inductive Op (φ : Type) where
  /-- `host` is negative if there is no memory or the host refuses the file. -/
  | add (fd : φ) (events : UInt32) (data : UInt64) (host : Int)
  | mod (fd : φ) (events : UInt32) (data : UInt64) (host : Int)
  | del (fd : φ) (host : Int)
  /-- The file has other things ready than before. -/
  | ready (fd : φ) (types : UInt32)
  /-- `poll_wakeup`, or a notification from the host for the file. -/
  | wakeup (fd : φ) (events : UInt32)
  /-- The last turn of an `epoll_wait`. -/
  | wait (max : Int) (writable : Bool)

/-- What the call returns, and the events that the guest finds in its array. -/
structure Ret (φ : Type) where
  ret : Int
  events : List (Event φ)

/-! ## Lists that `epoll_ctl` makes -/

namespace Registered

variable {φ : Type} {es : List (Entry φ)}

theorem nil : Registered ([] : List (Entry φ)) := ⟨nodup_nil, fun _ he => nomatch he⟩

variable (h : Registered es)

include h

theorem cons {e : Entry φ} (hnew : ¬ ∃ e' ∈ es, e'.fd = e.fd) (hfile : e.info.file = e.fd) :
    Registered (e :: es) := by
  constructor
  · rw [map_cons, nodup_cons]
    refine ⟨?_, h.distinct⟩
    rw [mem_map]
    exact hnew
  intro e' he'
  rcases mem_cons.mp he' with rfl | hold
  · exact hfile
  · exact h.file e' hold

theorem filter (p : Entry φ → Bool) : Registered (es.filter p) := by
  constructor
  · exact h.distinct.sublist (filter_sublist.map _)
  intro e he
  exact h.file e (mem_filter.mp he).1

/-- An operation on entries that keeps the file. -/
theorem map {g : Entry φ → Entry φ} (hfd : ∀ e, (g e).fd = e.fd)
    (hfile : ∀ e ∈ es, (g e).info.file = e.fd) : Registered (es.map g) := by
  constructor
  · rw [map_map, show fd ∘ g = fd from funext hfd]
    exact h.distinct
  intro e he
  obtain ⟨e0, he0, rfl⟩ := mem_map.mp he
  rw [hfile e0 he0, hfd e0]

theorem wakeup [DecidableEq φ] (fd : φ) (events : UInt32) :
    Registered (Polling.wakeup fd events es) := by
  apply h.map (woken_fd fd events)
  intro e he
  rw [woken_info, h.file e he]

theorem left (poll : φ → UInt32) : Registered (es.filterMap (left poll)) := by
  constructor
  · have hsub : List.Sublist ((es.filterMap (PollFd.left poll)).map PollFd.fd)
        (es.map PollFd.fd) := by
      clear h
      induction es with
      | nil => exact .slnil
      | cons e es ih =>
        cases hleft : e.left poll with
        | none =>
          rw [filterMap_cons_none hleft]
          exact ih.cons _
        | some e' =>
          rw [filterMap_cons_some hleft, map_cons, map_cons, fd_of_left hleft]
          exact ih.cons_cons _
    exact h.distinct.sublist hsub
  · intro e' he'
    obtain ⟨e, he, hleft⟩ := mem_filterMap.mp he'
    rw [fd_of_left hleft, info_of_left hleft]
    exact h.file e he

theorem turn {κ : Type} (poll : φ → UInt32) (callback : Callback (Info φ) κ) (c : κ) (res : Nat) :
    Registered (Polling.turn poll callback es c res).entries := by
  rw [turn_entries]
  exact h.left poll

/-- The file has one entry at most. -/
theorem eq_of_fd {e e' : Entry φ} (he : e ∈ es) (he' : e' ∈ es) (hfd : e.fd = e'.fd) : e = e' :=
  inj_on_of_nodup_map h.distinct he he' hfd

end Registered

/-! ## The calls -/

/-- `epoll_callback`. -/
def epollCallback {φ : Type} (max : Int) : Callback (Info φ) (List (Event φ)) :=
  fun c types info =>
    if max ≤ c.length then (c, false) else (c ++ [⟨types, info⟩], true)

namespace Epoll

variable {φ : Type}
variable {s : Epoll φ} {e : Entry φ} {poll : φ → UInt32} {max : Int} {writable : Bool}

section Model

variable [DecidableEq φ]

/-- `poll_has_fd`. -/
def Has (s : Epoll φ) (fd : φ) : Prop := ∃ e ∈ s.entries, e.fd = fd

instance (s : Epoll φ) (fd : φ) : Decidable (s.Has fd) := inferInstanceAs (Decidable (∃ _ ∈ _, _))

/-- `EPOLL_CTL_ADD`. -/
def add (s : Epoll φ) (fd : φ) (events : UInt32) (data : UInt64) (host : Int) : Epoll φ × Ret φ :=
  if h : s.Has fd then (s, ⟨EEXIST, []⟩)
  else if host < 0 then (s, ⟨host, []⟩)
  else
    ({ s with
        entries := ⟨fd, events, ⟨data, fd⟩, 0⟩ :: s.entries
        registered := s.registered.cons h rfl }, ⟨0, []⟩)

/-- The entry of `fd` as `poll_mod_fd` leaves it. -/
def modified (fd : φ) (events : UInt32) (data : UInt64) (e : Entry φ) : Entry φ :=
  if e.fd = fd then ⟨e.fd, events, ⟨data, e.fd⟩, e.triggered &&& events⟩ else e

theorem modified_fd (fd : φ) (events : UInt32) (data : UInt64) (e : Entry φ) :
    (modified fd events data e).fd = e.fd := by
  unfold modified
  split <;> rfl

/-- `EPOLL_CTL_MOD`. The entry that `poll_find_fd` finds is the only one of the file. -/
def mod (s : Epoll φ) (fd : φ) (events : UInt32) (data : UInt64) (host : Int) : Epoll φ × Ret φ :=
  if ¬ s.Has fd then (s, ⟨ENOENT, []⟩)
  else if host < 0 then (s, ⟨host, []⟩)
  else
    ({ s with
        entries := s.entries.map (modified fd events data)
        registered := s.registered.map (modified_fd fd events data) (by
          intro e he
          unfold modified
          split
          · rfl
          · exact s.registered.file e he) }, ⟨0, []⟩)

/-- `EPOLL_CTL_DEL`. -/
def del (s : Epoll φ) (fd : φ) (host : Int) : Epoll φ × Ret φ :=
  if ¬ s.Has fd then (s, ⟨ENOENT, []⟩)
  else if host < 0 then (s, ⟨host, []⟩)
  else
    ({ s with
        entries := s.entries.filter (fun e => e.fd ≠ fd)
        registered := s.registered.filter _ }, ⟨0, []⟩)

/-- The epoll after a turn of `epoll_wait`. -/
def turned (s : Epoll φ) (max : Int) : Epoll φ :=
  { s with
    entries := (turn s.poll (epollCallback max) s.entries [] 0).entries
    registered := s.registered.turn _ _ _ _ }

/-- `sys_epoll_wait`, from its last turn on. -/
def epollWait (s : Epoll φ) (max : Int) (writable : Bool) : Epoll φ × Ret φ :=
  let t := turn s.poll (epollCallback max) s.entries [] 0
  if max ≤ 0 then (s, ⟨EINVAL, []⟩)
  else if t.res = 0 ∨ writable = true then (s.turned max, ⟨t.res, t.ctx⟩)
  else (s.turned max, ⟨EFAULT, []⟩)

def apply (s : Epoll φ) : Op φ → Epoll φ × Ret φ
  | .add fd events data host => s.add fd events data host
  | .mod fd events data host => s.mod fd events data host
  | .del fd host => s.del fd host
  | .ready fd types => ({ s with poll := update s.poll fd types }, ⟨0, []⟩)
  | .wakeup fd events =>
    ({ s with
        entries := wakeup fd events s.entries
        registered := s.registered.wakeup fd events }, ⟨0, []⟩)
  | .wait max writable => s.epollWait max writable

/-- What a run remembers of the files. -/
structure History (φ : Type) where
  /-- The one-shot entry has fired, its event was returned, and the file has not been added,
  modified or deleted with success since. -/
  fired : φ → Bool
  /-- The types that no call has returned since the file was added, or since the last `poll_wakeup`
  for them. -/
  owed : φ → UInt32

/-- The types that are returned for the file. -/
def returned (events : List (Event φ)) (fd : φ) : UInt32 :=
  ((events.filter (fun ev => ev.info.file = fd)).map Event.events).foldl (· ||| ·) 0

def note (H : History φ) (s : Epoll φ) : Op φ → History φ
  | .add fd events data host =>
    if (s.add fd events data host).2.ret = 0 then
      ⟨update H.fired fd false, update H.owed fd (~~~0)⟩
    else H
  | .mod fd events data host =>
    if (s.mod fd events data host).2.ret = 0 then { H with fired := update H.fired fd false } else H
  | .del fd _ => { H with fired := update H.fired fd false }
  | .ready _ _ => H
  | .wakeup fd events => { H with owed := update H.owed fd (H.owed fd ||| events) }
  | .wait max writable =>
    { fired := fun fd =>
        H.fired fd || decide (∃ e ∈ s.entries, e.fd = fd ∧ e.Oneshot ∧
          ∃ ev ∈ (s.epollWait max writable).2.events, ev.info.file = fd)
      owed := fun fd => H.owed fd &&& ~~~returned (s.epollWait max writable).2.events fd }

def machine (φ : Type) [DecidableEq φ] : Machine (Epoll φ × History φ) (Op φ) (Ret φ) :=
  Machine.record ⟨fun s op => some (s.apply op)⟩ note

/-- Nothing is registered; the files may be ready already. -/
def init (poll : φ → UInt32) : Epoll φ × History φ :=
  (⟨[], .nil, poll⟩, ⟨fun _ => false, fun _ => ~~~0⟩)

end Model

/-! ## What a call returns -/

/-- What `epoll_wait` stores for an entry. -/
def event (poll : φ → UInt32) (e : Entry φ) : Event φ := ⟨e.pollTypes poll, e.info⟩

/-- The entries that a turn reports, in its order. -/
def pending (s : Epoll φ) : List (Entry φ) := s.entries.filter (fun e => e.Pending s.poll)

theorem mem_pending : e ∈ s.pending ↔ e ∈ s.entries ∧ e.Pending s.poll := by
  unfold pending
  rw [mem_filter, decide_eq_true_eq]

/-- The array takes what fits. -/
theorem foldl_epollCallback (max : Int) (l : List (UInt32 × Info φ)) (c : List (Event φ))
    (n : Nat) :
    l.foldl (call (epollCallback max)) (c, n) =
      (c ++ (l.map fun a => (⟨a.1, a.2⟩ : Event φ)).take (max.toNat - c.length),
        n + min l.length (max.toNat - c.length)) := by
  induction l generalizing c n with
  | nil => simp
  | cons a l ih =>
    rw [foldl_cons, call]
    by_cases hfull : max ≤ c.length
    · have hzero : max.toNat - c.length = 0 := by omega
      have hcall : epollCallback max c a.1 a.2 = (c, false) := if_pos hfull
      simp [hcall, ih, hzero]
    have hcall : epollCallback max c a.1 a.2 = (c ++ [⟨a.1, a.2⟩], true) := if_neg hfull
    obtain ⟨k, hk⟩ : ∃ k, max.toNat - c.length = k + 1 := ⟨max.toNat - c.length - 1, by omega⟩
    have hrest : max.toNat - (c ++ [(⟨a.1, a.2⟩ : Event φ)]).length = k := by
      rw [length_append, length_singleton]
      omega
    simp only [hcall, if_true]
    rw [ih, hrest, hk, map_cons, take_succ_cons, length_cons, append_assoc]
    refine Prod.ext rfl ?_
    omega

theorem turn_epollCallback (s : Epoll φ) (max : Int) :
    (turn s.poll (epollCallback max) s.entries [] 0).ctx =
        (s.pending.take max.toNat).map (event s.poll) ∧
      (turn s.poll (epollCallback max) s.entries [] 0).res = min s.pending.length max.toNat := by
  have hturn : ((turn s.poll (epollCallback max) s.entries [] 0).ctx,
      (turn s.poll (epollCallback max) s.entries [] 0).res) = _ := turn_calls s.entries [] 0
  rw [foldl_epollCallback, Prod.mk.injEq] at hturn
  obtain ⟨hctx, hres⟩ := hturn
  constructor
  · rw [hctx, calls, map_map, map_take]
    rfl
  rw [hres, calls, length_map, Nat.zero_add]
  rfl

/-! ## Calls with a place in the array -/

section Wait

variable {s : Epoll φ} {max : Int} {writable : Bool}

theorem epollWait_entries (hmax : 0 < max) :
    (s.epollWait max writable).1.entries = s.entries.filterMap (left s.poll) := by
  unfold epollWait
  rw [if_neg (by omega)]
  split <;> exact turn_entries s.entries [] 0

theorem epollWait_poll : (s.epollWait max writable).1.poll = s.poll := by
  unfold epollWait
  dsimp only
  split
  · rfl
  · split <;> rfl

theorem epollWait_events (hmax : 0 < max) :
    (s.epollWait max writable).2.events =
      if writable then (s.pending.take max.toNat).map (event s.poll) else [] := by
  obtain ⟨hctx, hres⟩ := turn_epollCallback s max
  unfold epollWait
  rw [if_neg (by omega)]
  cases writable with
  | true =>
    rw [if_pos (.inr rfl)]
    exact hctx
  | false =>
    by_cases hzero : (turn s.poll (epollCallback max) s.entries [] 0).res = 0
    · -- nothing was pending, for there was a place in the array
      have hnil : s.pending.take max.toNat = [] := by
        rw [take_eq_nil_iff, ← length_eq_zero_iff]
        omega
      rw [if_pos (.inl hzero), hctx, hnil]
      rfl
    · rw [if_neg (by simpa using hzero)]
      rfl

/-- An entry is known by its event. -/
theorem eq_of_event (poll : φ → UInt32) {e e' : Entry φ} (he : e ∈ s.entries)
    (he' : e' ∈ s.entries) (h : event poll e = event poll e') : e = e' := by
  have hinfo : e.info = e'.info := congrArg Event.info h
  apply s.registered.eq_of_fd he he'
  rw [← s.registered.file e he, ← s.registered.file e' he', hinfo]

/-- **What is returned**: the event of an entry, if the entry is among the first that are pending
and the array can be written to. -/
theorem event_mem_epollWait (writable : Bool) (hmax : 0 < max) {e : Entry φ} (he : e ∈ s.entries) :
    event s.poll e ∈ (s.epollWait max writable).2.events ↔
      writable = true ∧ e ∈ s.pending.take max.toNat := by
  rw [epollWait_events hmax]
  cases writable with
  | false => simp
  | true =>
    rw [if_pos rfl, mem_map]
    constructor
    · rintro ⟨e', he', heq⟩
      have hold := (mem_pending.mp (mem_of_mem_take he')).1
      rw [← eq_of_event s.poll hold he heq]
      exact ⟨rfl, he'⟩
    · rintro ⟨-, hmem⟩
      exact ⟨e, hmem, rfl⟩

end Wait

/-! ## Keeping events -/

/-- The entries whose events are used up by a turn. -/
def Latched (e : Entry φ) : Prop := e.Edge ∨ e.Oneshot

instance (e : Entry φ) : Decidable (Latched e) := inferInstanceAs (Decidable (_ ∨ _))

/-- The entry is still there, and nothing new is held back. -/
def Kept (e : Entry φ) (es : List (Entry φ)) : Prop :=
  ∃ e' ∈ es, e'.fd = e.fd ∧ e'.types = e.types ∧ e'.info = e.info ∧
    e'.triggered &&& ~~~e.triggered = 0

theorem kept_of_mem {es : List (Entry φ)} (h : e ∈ es) : Kept e es :=
  ⟨e, h, rfl, rfl, rfl, UInt32.and_not_self⟩

/-- The file whose entry the guest changes with the call. -/
def target : Op φ → Option φ
  | .mod fd _ _ _ => some fd
  | .del fd host => if host < 0 then none else some fd
  | _ => none

section Steps

variable [DecidableEq φ]

/-- What an entry has to report and no call has returned. -/
def owing (s : Epoll φ × History φ) (e : Entry φ) : UInt32 := e.pollTypes s.1.poll &&& s.2.owed e.fd

/-- What is asked of a step. An event is returned or kept, unless the guest changes the entry
itself. When the guest modifies the entry, what it had to report, has not been returned and is still
asked for is still to be reported. One that `epoll_wait` does not return is returned by the next
call with enough room. A one-shot entry that has fired can be modified, and cannot be added. -/
structure Keeps (s : Epoll φ × History φ) (op : Op φ) : Prop where
  used : ∀ e ∈ s.1.entries, e.Pending s.1.poll → target op ≠ some e.fd →
    event s.1.poll e ∈ (s.1.apply op).2.events ∨ Kept e (s.1.apply op).1.entries
  held : ∀ fd events data host, op = .mod fd events data host → ∀ e ∈ s.1.entries, e.fd = fd →
    ∃ e' ∈ (s.1.apply op).1.entries, e'.fd = fd ∧
      owing s e &&& (e'.types ||| POLL_HUP ||| POLL_ERR) &&& ~~~e'.pollTypes s.1.poll = 0
  later : ∀ max writable, op = .wait max writable → 0 < max →
    ∀ e ∈ s.1.entries, e.Pending s.1.poll →
      event s.1.poll e ∈ (s.1.apply op).2.events ∨
        ∀ room, 0 < room → ((s.1.apply op).1.entries.length : Int) ≤ room →
          event s.1.poll e ∈ ((s.1.apply op).1.epollWait room true).2.events
  mod : ∀ fd events data host, op = .mod fd events data host → 0 ≤ host → s.2.fired fd = true →
    (s.1.apply op).2.ret = 0 ∧ ∃ e ∈ (s.1.apply op).1.entries, e.fd = fd ∧ e.types = events
  add : ∀ fd events data host, op = .add fd events data host → s.2.fired fd = true →
    (s.1.apply op).2.ret = EEXIST ∧ (s.1.apply op).1.Has fd

/-- The condition on a step: the pending entries that have no place in the array are not latched,
nor is any if the array cannot be written to; the guest leaves a one-shot entry that has fired
alone, or deletes it; and a modified entry is not made edge-triggered with triggered bits of types
that are owed. -/
def Fits (s : Epoll φ × History φ) : Op φ → Prop
  | .wait max writable => 0 < max →
      (∀ e ∈ s.1.pending.drop max.toNat, ¬ Latched e) ∧
        (writable = false → ∀ e ∈ s.1.pending, ¬ Latched e)
  | .mod fd events _ host => 0 ≤ host → s.2.fired fd = false ∧
      ∀ e ∈ s.1.entries, e.fd = fd → events &&& POLL_EDGETRIGGERED ≠ 0 →
        owing s e &&& (e.triggered &&& events) = 0
  | .add fd _ _ _ => s.2.fired fd = false
  | _ => True

end Steps

/-! ### Turns -/

theorem left_of_not_latched (h : ¬ Latched e) : e.left poll = some e :=
  left_of_plain (fun hedge => h (.inl hedge)) (fun hone => h (.inr hone))

theorem triggered_of_edge (hedge : e.Edge) :
    (e.triggered ||| e.pollTypes poll) &&& ~~~e.triggered = e.pollTypes poll := by
  apply Masks.or_and_not
  unfold pollTypes
  rw [if_pos hedge, UInt32.and_assoc, UInt32.not_and_self, UInt32.and_zero]

/-- A turn uses up what a latched entry has to report, whatever becomes of the report. -/
theorem not_kept_left (he : e ∈ s.entries) (hlatched : Latched e) (hpending : e.Pending s.poll) :
    ¬ Kept e (s.entries.filterMap (left s.poll)) := by
  rintro ⟨e', he', hfd, -, -, htriggered⟩
  obtain ⟨e0, he0, hleft⟩ := mem_filterMap.mp he'
  have hsame : e0 = e := by
    apply s.registered.eq_of_fd he0 he
    rw [← fd_of_left hleft, hfd]
  subst hsame
  unfold left reported at hleft
  rw [if_pos hpending] at hleft
  by_cases hone : e0.Oneshot
  · rw [if_pos hone] at hleft
    cases hleft
  have hedge : e0.Edge := hlatched.resolve_right hone
  rw [if_neg hone, if_pos hedge] at hleft
  cases hleft
  rw [triggered_of_edge hedge] at htriggered
  exact hpending htriggered

/-- An entry that is not latched is there for the next call. -/
theorem later_of_not_latched {room : Int} (hmax : 0 < max) (he : e ∈ s.entries)
    (hpending : e.Pending s.poll) (hlatched : ¬ Latched e) (hpos : 0 < room)
    (hroom : ((s.epollWait max writable).1.entries.length : Int) ≤ room) :
    event s.poll e ∈ ((s.epollWait max writable).1.epollWait room true).2.events := by
  have hpoll : (s.epollWait max writable).1.poll = s.poll := epollWait_poll
  have hmem : e ∈ (s.epollWait max writable).1.entries := by
    rw [epollWait_entries hmax]
    exact mem_filterMap.mpr ⟨e, he, left_of_not_latched hlatched⟩
  have hreport := (event_mem_epollWait true hpos hmem).mpr
  rw [hpoll] at hreport
  apply hreport
  refine ⟨rfl, ?_⟩
  have hlen : (s.epollWait max writable).1.pending.length ≤ room.toNat := by
    have hle : (s.epollWait max writable).1.pending.length ≤
      (s.epollWait max writable).1.entries.length := length_filter_le _ _
    omega
  rw [take_of_length_le hlen, mem_pending, hpoll]
  exact ⟨hmem, hpending⟩

/-- A turn keeps no one-shot entry that it reports. -/
theorem not_has_of_fired {ev : Event φ} (he : e ∈ s.entries) (hone : e.Oneshot)
    (hev : ev ∈ (s.epollWait max writable).2.events) (hfile : ev.info.file = e.fd) :
    ¬ (s.epollWait max writable).1.Has e.fd := by
  have hmax : 0 < max := by
    by_contra hle
    unfold epollWait at hev
    rw [if_pos (by omega)] at hev
    cases hev
  -- the event is that of a pending entry of the file, and there is only one
  have hpending : e.Pending s.poll := by
    rw [epollWait_events hmax] at hev
    cases writable with
    | false => cases hev
    | true =>
      obtain ⟨e', he', rfl⟩ := mem_map.mp hev
      obtain ⟨hmem, hpending⟩ := mem_pending.mp (mem_of_mem_take he')
      have hsame : e' = e := by
        apply s.registered.eq_of_fd hmem he
        rw [← s.registered.file e' hmem]
        exact hfile
      exact hsame ▸ hpending
  rintro ⟨e', he', hfd⟩
  rw [epollWait_entries hmax] at he'
  obtain ⟨e0, he0, hleft⟩ := mem_filterMap.mp he'
  have hsame : e0 = e := by
    apply s.registered.eq_of_fd he0 he
    rw [← fd_of_left hleft, hfd]
  rw [hsame, left, if_pos hpending, reported, if_pos hone] at hleft
  cases hleft

/-- A pending entry has a place in the array, or comes after those that have one. -/
theorem mem_take_or_drop (n : Nat) (he : e ∈ s.entries) (hpending : e.Pending s.poll) :
    e ∈ s.pending.take n ∨ e ∈ s.pending.drop n := by
  rw [← mem_append, take_append_drop]
  exact mem_pending.mpr ⟨he, hpending⟩

theorem not_mem_take_of_mem_drop {n : Nat} (h : e ∈ s.pending.drop n) : e ∉ s.pending.take n := by
  have hnodup : s.pending.Nodup := (List.Nodup.of_map _ s.registered.distinct).filter _
  intro htake
  exact disjoint_take_drop hnodup (le_refl n) htake h

/-! ### Steps -/

section StepLemmas

variable [DecidableEq φ] {s : Epoll φ × History φ}

/-- The condition is what `epoll_wait` needs. -/
theorem keeps_wait_iff (max : Int) (writable : Bool) :
    Keeps s (.wait max writable) ↔ Fits s (.wait max writable) := by
  constructor
  · intro h hmax
    -- a latched entry is never kept, so its event must be in the array
    have hreturned : ∀ e ∈ s.1.pending, Latched e →
        writable = true ∧ e ∈ s.1.pending.take max.toNat := by
      intro e hmem hlatched
      obtain ⟨he, hpending⟩ := mem_pending.mp hmem
      rcases h.used e he hpending nofun with hevent | hkept
      · exact (event_mem_epollWait writable hmax he).mp hevent
      rw [show (s.1.apply (.wait max writable)).1.entries = _ from epollWait_entries hmax] at hkept
      exact absurd hkept (not_kept_left he hlatched hpending)
    constructor
    · intro e hdrop hlatched
      exact not_mem_take_of_mem_drop hdrop (hreturned e (mem_of_mem_drop hdrop) hlatched).2
    intro hfalse e hmem hlatched
    have htrue := (hreturned e hmem hlatched).1
    rw [hfalse] at htrue
    cases htrue
  · intro h
    have hreturned : 0 < max → ∀ e ∈ s.1.entries, e.Pending s.1.poll → Latched e →
        event s.1.poll e ∈ (s.1.epollWait max writable).2.events := by
      intro hmax e he hpending hlatched
      obtain ⟨hroom, hwritable⟩ := h hmax
      refine (event_mem_epollWait writable hmax he).mpr ⟨?_, ?_⟩
      · cases hw : writable with
        | true => rfl
        | false => exact absurd hlatched (hwritable hw e (mem_pending.mpr ⟨he, hpending⟩))
      rcases mem_take_or_drop max.toNat he hpending with htake | hdrop
      · exact htake
      · exact absurd hlatched (hroom e hdrop)
    refine ⟨?used, nofun, ?later, nofun, nofun⟩
    case used =>
      intro e he hpending _
      by_cases hmax : 0 < max
      · by_cases hlatched : Latched e
        · exact .inl (hreturned hmax e he hpending hlatched)
        · right
          rw [show (s.1.apply (.wait max writable)).1.entries = _ from epollWait_entries hmax]
          exact kept_of_mem (mem_filterMap.mpr ⟨e, he, left_of_not_latched hlatched⟩)
      -- `EINVAL`
      right
      show Kept e (s.1.epollWait max writable).1.entries
      unfold epollWait
      rw [if_pos (by omega)]
      exact kept_of_mem he
    case later =>
      intro max' writable' hop hmax e he hpending
      cases hop
      by_cases hlatched : Latched e
      · exact .inl (hreturned hmax e he hpending hlatched)
      right
      intro room hpos hroom
      exact later_of_not_latched hmax he hpending hlatched hpos hroom

/-- No step but `epoll_wait` and the guest's own changes uses up an event. -/
theorem kept_apply {op : Op φ} (hop : ∀ max writable, op ≠ .wait max writable) {e : Entry φ}
    (he : e ∈ s.1.entries) (htarget : target op ≠ some e.fd) : Kept e (s.1.apply op).1.entries := by
  cases op with
  | add fd events data host =>
    show Kept e (s.1.add fd events data host).1.entries
    unfold add
    split
    · exact kept_of_mem he
    split
    · exact kept_of_mem he
    · exact kept_of_mem (mem_cons_of_mem _ he)
  | mod fd events data host =>
    have hne : e.fd ≠ fd := fun h => htarget (congrArg some h.symm)
    show Kept e (s.1.mod fd events data host).1.entries
    unfold mod
    split
    · exact kept_of_mem he
    split
    · exact kept_of_mem he
    · exact kept_of_mem (mem_map.mpr ⟨e, he, if_neg hne⟩)
  | del fd host =>
    show Kept e (s.1.del fd host).1.entries
    unfold del
    split
    · exact kept_of_mem he
    split
    · exact kept_of_mem he
    · rename_i hhost
      have hne : e.fd ≠ fd := fun h => htarget ((if_neg hhost).trans (congrArg some h.symm))
      exact kept_of_mem (mem_filter.mpr ⟨he, decide_eq_true hne⟩)
  | ready fd types => exact kept_of_mem he
  | wakeup fd events =>
    refine ⟨_, mem_map.mpr ⟨e, he, rfl⟩, ?_⟩
    unfold woken clear
    split
    · split
      · refine ⟨rfl, rfl, rfl, ?_⟩
        rw [UInt32.and_comm e.triggered, UInt32.and_assoc, UInt32.and_not_self, UInt32.and_zero]
      · exact ⟨rfl, rfl, rfl, UInt32.and_not_self⟩
    · exact ⟨rfl, rfl, rfl, UInt32.and_not_self⟩
  | wait max writable => exact absurd rfl (hop max writable)

omit [DecidableEq φ] in
/-- What is owed is ready, and not held back. -/
theorem owing_sub (s : Epoll φ × History φ) (e : Entry φ) :
    owing s e &&& s.1.poll e.fd = owing s e ∧ (e.Edge → owing s e &&& e.triggered = 0) := by
  unfold owing pollTypes
  constructor
  · apply Masks.ext_has
    intro i
    split <;> simp only [Masks.has_and] <;> cases Masks.has (s.1.poll e.fd) i <;> simp
  · intro hedge
    rw [if_pos hedge, Masks.eq_zero_iff]
    intro i
    simp only [Masks.has_and, Masks.has_not]
    cases Masks.has e.triggered i <;> simp

omit [DecidableEq φ] in
/-- An entry of the file holds nothing back exactly if it is not edge-triggered, or the triggered
bits are not of types that are owed. -/
theorem held_back_iff {e e' : Entry φ} (hfd : e'.fd = e.fd) :
    owing s e &&& (e'.types ||| POLL_HUP ||| POLL_ERR) &&& ~~~e'.pollTypes s.1.poll = 0 ↔
      (e'.Edge → owing s e &&& (e'.types ||| POLL_HUP ||| POLL_ERR) &&& e'.triggered = 0) := by
  have hready := (owing_sub s e).1
  unfold pollTypes
  rw [hfd]
  by_cases hedge : e'.Edge
  · rw [if_pos hedge, forall_prop_of_true hedge, Masks.and_not_and hready]
  · rw [if_neg hedge, forall_prop_of_false hedge, iff_true]
    exact Masks.and_not_self_and hready

/-- The steps other than `epoll_wait` and `EPOLL_CTL_MOD` are asked for the one-shot entries that
have fired. -/
theorem keeps_of_ne_wait {op : Op φ} (hop : ∀ max writable, op ≠ .wait max writable)
    (hmod : ∀ fd events data host, op ≠ .mod fd events data host)
    (hadd : ∀ fd events data host, op = .add fd events data host → s.2.fired fd = false) :
    Keeps s op where
  used := fun _ he _ htarget => .inr (kept_apply hop he htarget)
  held := fun fd events data host h => absurd h (hmod fd events data host)
  later := fun max writable h => absurd h (hop max writable)
  mod := fun fd events data host h => absurd h (hmod fd events data host)
  add := by
    intro fd events data host h hfired
    rw [hadd fd events data host h] at hfired
    cases hfired

/-- The entries that have fired are gone. -/
def Gone (s : Epoll φ × History φ) : Prop := ∀ fd, s.2.fired fd = true → ¬ s.1.Has fd

/-- The entry that `EPOLL_CTL_MOD` leaves holds back triggered bits of the types it is asked for. -/
theorem held_modified_iff {e : Entry φ} (events : UInt32) (data : UInt64) :
    owing s e &&& ((modified e.fd events data e).types ||| POLL_HUP ||| POLL_ERR) &&&
        ~~~(modified e.fd events data e).pollTypes s.1.poll = 0 ↔
      (events &&& POLL_EDGETRIGGERED ≠ 0 → owing s e &&& (e.triggered &&& events) = 0) := by
  have hmod : modified e.fd events data e = ⟨e.fd, events, ⟨data, e.fd⟩, e.triggered &&& events⟩ :=
    if_pos rfl
  rw [held_back_iff (modified_fd e.fd events data e), hmod]
  refine imp_congr Iff.rfl ?_
  -- the triggered bits that are left are among the types
  have hsame : owing s e &&& (events ||| POLL_HUP ||| POLL_ERR) &&& (e.triggered &&& events) =
      owing s e &&& (e.triggered &&& events) := by
    apply Masks.ext_has
    intro i
    simp only [Masks.has_and, Masks.has_or]
    cases Masks.has events i <;> simp
  rw [hsame]

/-- The condition is what `EPOLL_CTL_MOD` needs. -/
theorem keeps_mod_iff (hgone : Gone s) (fd : φ) (events : UInt32) (data : UInt64) (host : Int) :
    Keeps s (.mod fd events data host) ↔ Fits s (.mod fd events data host) := by
  have happly : ∀ {e}, e ∈ s.1.entries → e.fd = fd → 0 ≤ host →
      (s.1.apply (.mod fd events data host)).1.entries
        = s.1.entries.map (modified fd events data) := by
    intro e he hfd hhost
    show (s.1.mod fd events data host).1.entries = _
    unfold mod
    rw [if_neg (not_not_intro ⟨e, he, hfd⟩), if_neg (by omega)]
  constructor
  · intro h hhost
    refine ⟨?_, ?_⟩
    · apply Bool.eq_false_iff.mpr
      intro hfired
      have hret := (h.mod fd events data host rfl hhost hfired).1
      rw [show s.1.apply (.mod fd events data host) = _ from if_pos (hgone fd hfired)] at hret
      exact absurd hret (show ENOENT ≠ 0 by decide)
    · intro e he hfd
      obtain ⟨e', he', hfd', hheld⟩ := h.held fd events data host rfl e he hfd
      rw [happly he hfd hhost] at he'
      obtain ⟨e0, he0, rfl⟩ := mem_map.mp he'
      -- the file has one entry only
      obtain rfl : e0 = e := by
        apply s.1.registered.eq_of_fd he0 he
        rw [← modified_fd fd events data e0, hfd', hfd]
      subst hfd
      exact (held_modified_iff events data).mp hheld
  · intro h
    refine ⟨fun _ he _ htarget => .inr (kept_apply (by simp) he htarget), ?held, nofun, ?mod, nofun⟩
    case held =>
      rintro fd' events' data' host' ⟨⟩ e he rfl
      by_cases hhost : 0 ≤ host
      · refine ⟨modified e.fd events data e, ?_, modified_fd _ _ _ _, ?_⟩
        · rw [happly he rfl hhost]
          exact mem_map.mpr ⟨e, he, rfl⟩
        · exact (held_modified_iff events data).mpr ((h hhost).2 e he rfl)
      -- the host refuses, and the entry stays as it is
      refine ⟨e, ?_, rfl, ?_⟩
      · show e ∈ (s.1.mod e.fd events data host).1.entries
        unfold mod
        rw [if_neg (not_not_intro ⟨e, he, rfl⟩), if_pos (by omega)]
        exact he
      · refine (held_back_iff rfl).mpr fun hedge => ?_
        rw [UInt32.and_assoc, UInt32.and_comm (_ ||| _), ← UInt32.and_assoc,
          (owing_sub s e).2 hedge, UInt32.zero_and]
    case mod =>
      rintro fd' events' data' host' ⟨⟩ hhost hfired
      rw [(h hhost).1] at hfired
      cases hfired

/-- **What one step needs**, in the states that runs reach. -/
theorem keeps_iff_fits_step (hgone : Gone s) (op : Op φ) : Keeps s op ↔ Fits s op := by
  cases op with
  | wait max writable => exact keeps_wait_iff max writable
  | mod fd events data host => exact keeps_mod_iff hgone fd events data host
  | add fd events data host =>
    constructor
    · intro h
      apply Bool.eq_false_iff.mpr
      intro hfired
      obtain ⟨hret, hhas⟩ := h.add fd events data host rfl hfired
      have hadd : s.1.apply (.add fd events data host) = _ := dif_neg (hgone fd hfired)
      rw [hadd] at hret hhas
      by_cases hhost : host < 0
      · rw [if_pos hhost] at hhas
        exact hgone fd hfired hhas
      rw [if_neg hhost] at hret
      exact absurd hret (show (0 : Int) ≠ EEXIST by decide)
    · intro h
      apply keeps_of_ne_wait (by simp) (by simp)
      intro fd' events' data' host' hop
      cases hop
      exact h
  | del fd host | ready fd types | wakeup fd events =>
    exact iff_of_true (keeps_of_ne_wait (by simp) (by simp) (by simp)) trivial

/-! ### Runs -/

/-- No step but `EPOLL_CTL_ADD` makes an entry. -/
theorem has_of_apply {s : Epoll φ} {op : Op φ} {fd : φ} (h : (s.apply op).1.Has fd) :
    s.Has fd ∨ ∃ events data host, op = .add fd events data host ∧ (s.apply op).2.ret = 0 := by
  cases op with
  | add fd' events data host =>
    change (s.add fd' events data host).1.Has fd at h
    show _ ∨ ∃ events' data' host', _ ∧ (s.add fd' events data host).2.ret = 0
    unfold add at h ⊢
    split at h
    · exact .inl h
    split at h
    · exact .inl h
    rename_i hhas hhost
    obtain ⟨e, he, hfd⟩ := h
    rcases mem_cons.mp he with rfl | hold
    · subst hfd
      exact .inr ⟨events, data, host, rfl, by rw [dif_neg hhas, if_neg hhost]⟩
    · exact .inl ⟨e, hold, hfd⟩
  | mod fd' events data host =>
    change (s.mod fd' events data host).1.Has fd at h
    unfold mod at h
    left
    split at h
    · exact h
    split at h
    · exact h
    obtain ⟨e, he, hfd⟩ := h
    obtain ⟨e0, he0, rfl⟩ := mem_map.mp he
    exact ⟨e0, he0, (modified_fd fd' events data e0).symm.trans hfd⟩
  | del fd' host =>
    change (s.del fd' host).1.Has fd at h
    unfold del at h
    left
    split at h
    · exact h
    split at h
    · exact h
    obtain ⟨e, he, hfd⟩ := h
    exact ⟨e, (mem_filter.mp he).1, hfd⟩
  | ready fd' types => exact .inl h
  | wakeup fd' events =>
    obtain ⟨e, he, hfd⟩ := h
    obtain ⟨e0, he0, rfl⟩ := mem_map.mp he
    exact .inl ⟨e0, he0, (woken_fd fd' events e0).symm.trans hfd⟩
  | wait max writable =>
    obtain ⟨e, he, hfd⟩ := h
    left
    by_cases hmax : 0 < max
    · rw [show (s.apply (.wait max writable)).1.entries = _ from epollWait_entries hmax] at he
      obtain ⟨e0, he0, hleft⟩ := mem_filterMap.mp he
      exact ⟨e0, he0, (fd_of_left hleft).symm.trans hfd⟩
    change e ∈ (s.epollWait max writable).1.entries at he
    unfold epollWait at he
    rw [if_pos (by omega)] at he
    exact ⟨e, he, hfd⟩

/-- A file that has fired after a step had fired before it, or fires in it; and it has not been
added in it. -/
theorem note_cases {s : Epoll φ} {H : History φ} {op : Op φ} {fd : φ}
    (h : (note H s op).fired fd = true) :
    (H.fired fd = true ∧ ¬ ∃ events data host,
        op = .add fd events data host ∧ (s.apply op).2.ret = 0) ∨
      ¬ (s.apply op).1.Has fd := by
  -- a file whose history is cleared has not fired
  have hcleared : ∀ {fd'}, update H.fired fd' false fd = true → fd ≠ fd' ∧ H.fired fd = true := by
    intro fd' h
    by_cases hfd : fd = fd'
    · rw [hfd, update_self] at h
      cases h
    · exact ⟨hfd, by rwa [update_of_ne hfd] at h⟩
  cases op with
  | add fd' events data host =>
    left
    dsimp only [note] at h
    by_cases hret : (s.add fd' events data host).2.ret = 0
    · rw [if_pos hret] at h
      obtain ⟨hne, hbefore⟩ := hcleared h
      refine ⟨hbefore, ?_⟩
      rintro ⟨_, _, _, hop, -⟩
      cases hop
      exact hne rfl
    rw [if_neg hret] at h
    refine ⟨h, ?_⟩
    rintro ⟨_, _, _, -, hzero⟩
    exact hret hzero
  | mod fd' events data host =>
    left
    dsimp only [note] at h
    refine ⟨?_, by simp⟩
    split at h
    · exact (hcleared h).2
    · exact h
  | del fd' host => exact .inl ⟨(hcleared h).2, by simp⟩
  | ready fd' types | wakeup fd' events => exact .inl ⟨h, by simp⟩
  | wait max writable =>
    rcases (Bool.or_eq_true _ _).mp h with hbefore | hnow
    · exact .inl ⟨hbefore, by simp⟩
    obtain ⟨e, he, rfl, hone, ev, hev, hfile⟩ := of_decide_eq_true hnow
    exact .inr (not_has_of_fired he hone hev hfile)

theorem gone_step {op : Op φ} {s' : Epoll φ × History φ} {o : Ret φ} (hgone : Gone s)
    (h : (machine φ).step s op = some (s', o)) : Gone s' := by
  obtain ⟨hstep, hnote⟩ := Machine.record_step.mp h
  have hs' : s'.1 = (s.1.apply op).1 := (congrArg Prod.fst (Option.some.inj hstep)).symm
  intro fd hfired
  rw [hnote] at hfired
  rw [hs']
  rcases note_cases hfired with ⟨hbefore, hadd⟩ | hnot
  · intro hhas
    rcases has_of_apply hhas with hold | hnew
    · exact hgone fd hbefore hold
    · exact hadd hnew
  · exact hnot

/-- **Which runs keep their events.** In every run from an empty epoll: no event of an
edge-triggered or one-shot entry is used up without being returned, and one-shot entries that have
fired can be armed again, at all steps, exactly if all steps meet the condition. -/
theorem keeps_iff_fits (poll : φ → UInt32) (ops : List (Op φ)) :
    (machine φ).Along Keeps (init poll) ops ↔ (machine φ).Along Fits (init poll) ops := by
  apply Machine.along_congr (I := Gone)
  · intro s op hgone
    exact keeps_iff_fits_step hgone op
  · intro s op s' o hgone _ hstep
    exact gone_step hgone hstep
  intro fd hfired
  cases hfired

/-- Two edge-triggered files are ready and the array has one place. The first call returns the event
of one file, and uses up that of the other: the second call finds nothing. A one-shot entry that has
fired cannot be modified, and can be added. And an entry that is level-triggered for a while when
there is something new loses it when it is edge-triggered again. -/
theorem event_lost_and_oneshot_gone :
    let et := POLL_READ ||| POLL_EDGETRIGGERED
    let once := POLL_READ ||| POLL_ONESHOT
    (machine Nat).outputs (init fun _ => POLL_READ)
        [.add 3 et 30 0, .add 4 et 40 0, .wait 1 true, .wait 1 true] =
      some [⟨0, []⟩, ⟨0, []⟩, ⟨1, [⟨POLL_READ, ⟨40, 4⟩⟩]⟩, ⟨0, []⟩] ∧
    ¬ (machine Nat).Along Keeps (init fun _ => POLL_READ)
        [.add 3 et 30 0, .add 4 et 40 0, .wait 1 true] ∧
    (machine Nat).outputs (init fun _ => POLL_READ)
        [.add 3 once 30 0, .wait 8 true, .mod 3 once 30 0, .add 3 once 30 0] =
      some [⟨0, []⟩, ⟨1, [⟨POLL_READ, ⟨30, 3⟩⟩]⟩, ⟨ENOENT, []⟩, ⟨0, []⟩] ∧
    ¬ (machine Nat).Along Keeps (init fun _ => POLL_READ)
        [.add 3 once 30 0, .wait 8 true, .mod 3 once 30 0] ∧
    (machine Nat).outputs (init fun _ => POLL_READ)
        [.add 3 et 30 0, .wait 8 true, .mod 3 POLL_READ 30 0, .wakeup 3 POLL_READ, .mod 3 et 30 0,
          .wait 8 true] =
      some [⟨0, []⟩, ⟨1, [⟨POLL_READ, ⟨30, 3⟩⟩]⟩, ⟨0, []⟩, ⟨0, []⟩, ⟨0, []⟩, ⟨0, []⟩] ∧
    ¬ (machine Nat).Along Keeps (init fun _ => POLL_READ)
        [.add 3 et 30 0, .wait 8 true, .mod 3 POLL_READ 30 0, .wakeup 3 POLL_READ,
          .mod 3 et 30 0] := by
  refine ⟨rfl, ?edge, rfl, ?oneshot, rfl, ?level⟩
  case edge =>
    intro h
    have hwait := ((h.2 _ _ rfl).2 _ _ rfl).1
    have hroom := ((keeps_wait_iff 1 true).mp hwait (by decide)).1
    exact absurd hroom (by decide +kernel)
  case oneshot =>
    intro h
    have hmod := ((h.2 _ _ rfl).2 _ _ rfl).1
    have hret := (hmod.mod 3 _ 30 0 rfl (by decide) (by decide +kernel)).1
    exact absurd hret (by decide +kernel)
  case level =>
    intro h
    have hmod := ((((h.2 _ _ rfl).2 _ _ rfl).2 _ _ rfl).2 _ _ rfl).1
    obtain ⟨e', he', -, hheld⟩ := hmod.held 3 _ 30 0 rfl _ (mem_singleton_self _) rfl
    obtain rfl := mem_singleton.mp he'
    exact absurd hheld (by decide +kernel)

end StepLemmas

end Epoll

end Ish.Polling
