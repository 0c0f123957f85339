import Ish.Lib.Loop
import Ish.Fd.Calls
import Ish.Poll.Basic

set_option autoImplicit false

/-! # The system call poll

`sys_poll` (`kernel/poll.c`) on an array of descriptors. The entries that name the same file are
merged: the loop over the array uses `revents` as a mark, adds every file once, with the events of
all its entries, and `poll_event_callback` gives the report of a file back to each of them. An entry
with a negative number gets 0, and one with the number of a closed descriptor gets `POLLNVAL`.

The call returns what `poll_wait` returns, the number of *files* it has reported. It differs from
the number of entries with something in `revents` when a file is reported to two of them, and when
an entry has `POLLNVAL`, which `poll_wait` does not know of: it even waits then. What `poll_add_fd`
returns is not looked at; a file that cannot be added, such as a regular file on a host with
`epoll`, is never reported.
-/

namespace Ish.Polling

open List Option Ish.Lib Ish.Descriptors Masks

def POLL_ALWAYS_LISTENING : UInt32 := POLL_ERR ||| POLL_HUP ||| POLL_NVAL

/-- `struct pollfd_`. -/
structure Pollfd where
  fd : Int32
  events : UInt16
  revents : UInt16
deriving DecidableEq

/-- An entry of the array and its entry of `files`. -/
structure Slot (φ : Type) extends Pollfd where
  file : Option φ

/-- What an entry listens for. -/
def asked (events : UInt16) : UInt32 := events.toUInt32 ||| POLL_ALWAYS_LISTENING

/-- What the call meets: whether the array can be read and written to, what else can fail, and the
files that `poll_add_fd` takes. -/
structure World (φ : Type) where
  readable : Bool
  writable : Bool
  create : Option Errno
  pipe : Option Errno
  ok : φ → Bool

/-- What the call returns, the array after it, and how often it has waited. -/
structure Polled where
  ret : Int
  polls : List Pollfd
  waits : Nat

section Model

variable {φ : Type} [DecidableEq φ]

/-- `f_get`. -/
def fGet (T : Table φ) (f : Int32) : Option φ :=
  match T.get T.size f.toInt with
  | .ok r => r
  | .error _ => none

def opened (T : Table φ) (p : Pollfd) : Slot φ := ⟨⟨p.fd, p.events, 0⟩, fGet T p.fd⟩

/-- `revents` as the mark that an entry has been dealt with. -/
def mark (p : Slot φ) : Slot φ := { p with revents := 1 }

/-- The inner loop: the entries of the file that are not marked yet are marked, and their events
are merged. -/
def merge (f : φ) : List (Slot φ) → UInt32 → List (Slot φ) × UInt32
  | [], events => ([], events)
  | p :: ps, events =>
    if p.revents = 0 ∧ p.file = some f then
      let rest := merge f ps (events ||| p.events.toUInt32)
      (mark p :: rest.1, rest.2)
    else
      let rest := merge f ps events
      (p :: rest.1, rest.2)

/-- `poll_add_fd`. -/
def addFd (ok : φ → Bool) (es : List (PollFd φ φ)) (f : φ) (types : UInt32) : List (PollFd φ φ) :=
  if ok f then ⟨f, types, f, 0⟩ :: es else es

/-- The outer loop at an entry that is there. -/
def addSlot (ok : φ → Bool) (s : List (Slot φ) × List (PollFd φ φ)) (i : Nat) (p : Slot φ) :
    List (Slot φ) × List (PollFd φ φ) :=
  if p.fd < 0 ∨ p.revents ≠ 0 then s
  else
    let ps := s.1.set i (mark p)
    match p.file with
    | none => (ps, s.2)
    | some f =>
      let merged := merge f ps p.events.toUInt32
      (merged.1, addFd ok s.2 f (merged.2 ||| POLL_ALWAYS_LISTENING))

def addTurn (ok : φ → Bool) (s : List (Slot φ) × List (PollFd φ φ)) (i : Nat) :
    List (Slot φ) × List (PollFd φ φ) :=
  match s.1[i]? with
  | none => s
  | some p => addSlot ok s i p

/-- The list of the poll after the loop over the array. -/
def register (ok : φ → Bool) (ps : List (Slot φ)) : List (PollFd φ φ) :=
  (foldUp (addTurn ok) (ps, []) 0 ps.length).2

/-- `revents` before the wait. -/
def marked (p : Slot φ) : Slot φ :=
  { p with revents := if 0 ≤ p.fd ∧ p.file = none then POLL_NVAL.toUInt16 else 0 }

/-- An entry in `poll_event_callback`. -/
def report (types : UInt32) (f : φ) (p : Slot φ) : Slot φ :=
  if p.file = some f then { p with revents := (types &&& asked p.events).toUInt16 } else p

def pollEventCallback : Callback φ (List (Slot φ)) := fun ps types f =>
  (ps.map (report types f), ps.any fun p => p.file = some f)

/-- `sys_poll`; `none` if it has not returned after these rounds. -/
def sysPoll (w : World φ) (T : Table φ) (polls : List Pollfd) (rounds : List (Round φ)) :
    Option Polled :=
  if w.readable = false then some ⟨EFAULT, polls, 0⟩
  else
    match w.create, w.pipe with
    | some err, _ => some ⟨err, polls, 0⟩
    | none, some err => some ⟨err, polls, 0⟩
    | none, none =>
      let ps := polls.map (opened T)
      (pollWait pollEventCallback rounds (register w.ok ps) (ps.map marked) 0).map fun r =>
        if r.ret < 0 then ⟨r.ret, polls, r.waits⟩
        else if w.writable = false then ⟨EFAULT, polls, r.waits⟩
        else ⟨r.ret, r.ctx.map Slot.toPollfd, r.waits⟩

end Model

/-! ## Looking up and merging -/

section Merging

variable {φ : Type}

theorem fGet_of_neg (T : Table φ) {f : Int32} (h : f < 0) : fGet T f = none := by
  have h31 : f.toInt < 2 ^ 31 := f.toInt_lt
  have hneg : f.toInt < 0 := Int32.lt_iff_toInt_lt.mp h
  unfold fGet
  rw [Table.get_self h31, if_neg (by omega)]

variable [DecidableEq φ]

theorem merge_slots (f : φ) (ps : List (Slot φ)) (events : UInt32) :
    (merge f ps events).1 =
      ps.map fun p => if p.revents = 0 ∧ p.file = some f then mark p else p := by
  induction ps generalizing events with
  | nil => rfl
  | cons p ps ih =>
    unfold merge
    by_cases h : p.revents = 0 ∧ p.file = some f
    · rw [if_pos h, map_cons, if_pos h]
      exact congrArg _ (ih _)
    rw [if_neg h, map_cons, if_neg h]
    exact congrArg _ (ih _)

/-- A mask misses the merged events when it misses those of each entry. -/
theorem and_merge_eq_zero (f : φ) (ps : List (Slot φ)) (events r : UInt32) :
    r &&& (merge f ps events).2 = 0 ↔
      r &&& events = 0 ∧
        ∀ p ∈ ps, p.revents = 0 → p.file = some f → r &&& p.events.toUInt32 = 0 := by
  induction ps generalizing events with
  | nil => simp [merge]
  | cons p ps ih =>
    unfold merge
    by_cases h : p.revents = 0 ∧ p.file = some f
    · rw [if_pos h, ih, and_or_eq_zero, forall_mem_cons, and_assoc]
      simp only [h.1, h.2, forall_const]
    rw [if_neg h, ih, forall_mem_cons]
    have hskip : p.revents = 0 → p.file = some f → r &&& p.events.toUInt32 = 0 :=
      fun hmark hfile => absurd ⟨hmark, hfile⟩ h
    exact and_congr_right fun _ => ⟨fun hrest => ⟨hskip, hrest⟩, And.right⟩

end Merging

/-! ## The loop over the array -/

section Register

variable {φ : Type} {ok : φ → Bool} {ps0 : List (Slot φ)} {i : Nat}
variable {s : List (Slot φ) × List (PollFd φ φ)}

def unmark (p : Slot φ) : Slot φ := { p with revents := 0 }

/-- The file has an entry before `i`. -/
def Seen (ps0 : List (Slot φ)) (i : Nat) (f : φ) : Prop :=
  ∃ k, k < i ∧ ∃ p, ps0[k]? = some p ∧ p.file = some f

theorem seen_succ {p : Slot φ} (hp : ps0[i]? = some p) (f : φ) :
    Seen ps0 (i + 1) f ↔ Seen ps0 i f ∨ p.file = some f := by
  constructor
  · rintro ⟨k, hk, q, hq, hfile⟩
    by_cases hki : k = i
    · rw [hki, hp] at hq
      cases hq
      exact .inr hfile
    · exact .inl ⟨k, by omega, q, hq, hfile⟩
  rintro (⟨k, hk, q, hq, hfile⟩ | hfile)
  · exact ⟨k, by omega, q, hq, hfile⟩
  · exact ⟨i, by omega, p, hp, hfile⟩

/-- An entry of the poll: it listens for what the entries of its file ask for. -/
structure Added (ps0 : List (Slot φ)) (e : PollFd φ φ) : Prop where
  info : e.info = e.fd
  types : ∀ r, r &&& e.types = 0 ↔
    r &&& POLL_ALWAYS_LISTENING = 0 ∧
      ∀ p ∈ ps0, p.file = some e.fd → r &&& p.events.toUInt32 = 0

/-- The loop before index `i`: the marks are on the entries of the files that it has seen, and of
these it has added each one that can be added. -/
structure Adding (ok : φ → Bool) (ps0 : List (Slot φ)) (i : Nat)
    (s : List (Slot φ) × List (PollFd φ φ)) : Prop where
  slots : s.1.map unmark = ps0
  marks : ∀ p ∈ s.1, ∀ f, p.file = some f → (p.revents ≠ 0 ↔ Seen ps0 i f)
  distinct : (s.2.map PollFd.fd).Nodup
  added : ∀ e ∈ s.2, Added ps0 e
  files : ∀ f, (∃ e ∈ s.2, e.fd = f) ↔ Seen ps0 i f ∧ ok f = true

namespace Adding

theorem getElem? (h : Adding ok ps0 i s) {p : Slot φ} {j : Nat} (hp : s.1[j]? = some p) :
    ps0[j]? = some (unmark p) := by
  rw [← h.slots, getElem?_map, hp]
  rfl

/-- An entry of no file, or of a file that has been seen: only its mark changes. -/
theorem skip (h : Adding ok ps0 i s) {p : Slot φ} (hp : s.1[i]? = some p)
    (hseen : ∀ f, p.file = some f → Seen ps0 i f) {ps : List (Slot φ)}
    (hslots : ps.map unmark = ps0)
    (hmem : ∀ q ∈ ps, ∀ f, q.file = some f → q ∈ s.1) : Adding ok ps0 (i + 1) (ps, s.2) := by
  have hsame : ∀ f, Seen ps0 (i + 1) f ↔ Seen ps0 i f := by
    intro f
    rw [seen_succ (h.getElem? hp)]
    exact or_iff_left_of_imp (hseen f)
  refine ⟨hslots, ?_, h.distinct, h.added, ?_⟩
  · intro q hq f hfile
    rw [hsame]
    exact h.marks q (hmem q hq f hfile) f hfile
  intro f
  rw [hsame]
  exact h.files f

theorem set_slots (h : Adding ok ps0 i s) {p : Slot φ} (hp : s.1[i]? = some p) :
    (s.1.set i (mark p)).map unmark = ps0 := by
  rw [map_set, h.slots]
  apply ext_getElem?
  intro j
  by_cases hj : i = j
  · subst hj
    rw [h.getElem? hp, getElem?_set_self', h.getElem? hp]
    rfl
  · rw [getElem?_set_ne hj]

theorem mem_set_or_eq {p q x : Slot φ} (hp : s.1[i]? = some p) (hq : q ∈ s.1) :
    q ∈ s.1.set i x ∨ q = p := by
  obtain ⟨j, hj⟩ := mem_iff_getElem?.mp hq
  by_cases hij : i = j
  · rw [← hij, hp] at hj
    exact .inr (some.inj hj.symm)
  left
  exact mem_iff_getElem?.mpr ⟨j, by rw [getElem?_set_ne hij, hj]⟩

variable [DecidableEq φ]

/-- The merged events are those of all entries of a file that has not been seen. -/
theorem merged_types (h : Adding ok ps0 i s) {p : Slot φ} (hp : s.1[i]? = some p) {f : φ}
    (hfile : p.file = some f) (hnew : ¬ Seen ps0 i f) (r : UInt32) :
    r &&& (merge f (s.1.set i (mark p)) p.events.toUInt32).2 = 0 ↔
      ∀ q ∈ ps0, q.file = some f → r &&& q.events.toUInt32 = 0 := by
  rw [and_merge_eq_zero]
  constructor
  · rintro ⟨hown, hothers⟩ q hq hqfile
    rw [← h.slots] at hq
    obtain ⟨q, hqs, rfl⟩ := mem_map.mp hq
    rcases mem_set_or_eq hp hqs with hset | rfl
    · refine hothers q hset ?_ hqfile
      by_contra hmark
      exact hnew ((h.marks q hqs f hqfile).mp hmark)
    · exact hown
  intro hall
  have hmem : unmark p ∈ ps0 := mem_of_getElem? (h.getElem? hp)
  refine ⟨hall (unmark p) hmem hfile, ?_⟩
  intro q hq hmark hqfile
  rcases mem_or_eq_of_mem_set hq with hqs | rfl
  · refine hall (unmark q) ?_ hqfile
    rw [← h.slots]
    exact mem_map_of_mem hqs
  · exact absurd hmark (show (1 : UInt16) ≠ 0 by decide)

/-- An entry of a new file: its entries are marked, and the file is added. -/
theorem add (h : Adding ok ps0 i s) {p : Slot φ} (hp : s.1[i]? = some p) {f : φ}
    (hfile : p.file = some f) (hnew : ¬ Seen ps0 i f) :
    Adding ok ps0 (i + 1)
      ((merge f (s.1.set i (mark p)) p.events.toUInt32).1,
        addFd ok s.2 f ((merge f (s.1.set i (mark p)) p.events.toUInt32).2 |||
          POLL_ALWAYS_LISTENING)) := by
  have hsucc : ∀ f', Seen ps0 (i + 1) f' ↔ Seen ps0 i f' ∨ p.file = some f' :=
    fun f' => seen_succ (h.getElem? hp) f'
  have htypes := h.merged_types hp hfile hnew
  generalize (merge f (s.1.set i (mark p)) p.events.toUInt32).2 = types at htypes ⊢
  rw [merge_slots]
  refine ⟨?slots, ?marks, ?distinct, ?added, ?files⟩
  case slots =>
    rw [List.map_map, ← h.set_slots hp]
    apply map_congr_left
    intro q _
    dsimp only [Function.comp]
    split <;> rfl
  case marks =>
    intro q' hq' f' hqfile
    obtain ⟨q, hq, rfl⟩ := mem_map.mp hq'
    rw [hsucc]
    by_cases hmark : q.revents = 0 ∧ q.file = some f
    · rw [if_pos hmark] at hqfile ⊢
      have hf : p.file = some f' := by
        rw [hfile, ← hmark.2]
        exact hqfile
      exact iff_of_true (show (1 : UInt16) ≠ 0 by decide) (.inr hf)
    rw [if_neg hmark] at hqfile ⊢
    rcases mem_or_eq_of_mem_set hq with hqs | rfl
    · have hne : p.file ≠ some f' := by
        intro hf
        apply hmark
        refine ⟨?_, by rw [hqfile, ← hf, hfile]⟩
        by_contra hmarked
        rw [hfile] at hf
        cases hf
        exact hnew ((h.marks q hqs f hqfile).mp hmarked)
      rw [h.marks q hqs f' hqfile]
      exact (or_iff_left hne).symm
    · exact iff_of_true (show (1 : UInt16) ≠ 0 by decide) (.inr hqfile)
  case distinct =>
    unfold addFd
    split
    · rw [List.map_cons, List.nodup_cons, List.mem_map]
      refine ⟨?_, h.distinct⟩
      intro hold
      exact hnew ((h.files f).mp hold).1
    · exact h.distinct
  case added =>
    have hadded : Added ps0 (⟨f, types ||| POLL_ALWAYS_LISTENING, f, 0⟩ : PollFd φ φ) := by
      refine ⟨rfl, ?_⟩
      intro r
      rw [and_or_eq_zero, htypes, and_comm]
    intro e he
    unfold addFd at he
    split at he
    · rcases mem_cons.mp he with rfl | hold
      · exact hadded
      · exact h.added e hold
    · exact h.added e he
  case files =>
    intro f'
    rw [hsucc, hfile, some.injEq, or_and_right, ← h.files f']
    unfold addFd
    by_cases hok : ok f = true
    · rw [if_pos hok]
      simp only [mem_cons, exists_eq_or_imp]
      constructor
      · rintro (rfl | hold)
        · exact .inr ⟨rfl, hok⟩
        · exact .inl hold
      rintro (hold | ⟨rfl, -⟩)
      · exact .inr hold
      · exact .inl rfl
    rw [if_neg hok]
    refine (or_iff_left ?_).symm
    rintro ⟨rfl, hok'⟩
    exact hok hok'

/-- **One turn of the loop.** -/
theorem addTurn (hneg : ∀ p ∈ ps0, p.fd < 0 → p.file = none) (hi : i < ps0.length)
    (h : Adding ok ps0 i s) : Adding ok ps0 (i + 1) (addTurn ok s i) := by
  have hlen : i < s.1.length := by rwa [← h.slots, length_map] at hi
  obtain ⟨p, hp⟩ : ∃ p, s.1[i]? = some p := ⟨_, getElem?_eq_getElem hlen⟩
  have hmem : p ∈ s.1 := mem_of_getElem? hp
  have hmem0 : unmark p ∈ ps0 := mem_of_getElem? (h.getElem? hp)
  unfold Polling.addTurn addSlot
  rw [hp]
  dsimp only
  by_cases hpass : p.fd < 0 ∨ p.revents ≠ 0
  · rw [if_pos hpass]
    refine h.skip hp ?_ h.slots (fun q hq _ _ => hq)
    intro f hfile
    rcases hpass with hfd | hmark
    · have hnone : p.file = none := hneg (unmark p) hmem0 hfd
      rw [hnone] at hfile
      cases hfile
    · exact (h.marks p hmem f hfile).mp hmark
  rw [if_neg hpass]
  cases hfile : p.file with
  | none =>
    refine h.skip hp ?_ (h.set_slots hp) ?_
    · intro f hf
      rw [hfile] at hf
      cases hf
    intro q hq f hf
    rcases mem_or_eq_of_mem_set hq with hold | rfl
    · exact hold
    change p.file = some f at hf
    rw [hfile] at hf
    cases hf
  | some f =>
    apply h.add hp hfile
    intro hseen
    exact hpass (.inr ((h.marks p hmem f hfile).mpr hseen))

end Adding

/-- **What the loop has added**: every file of the array that can be added, once. -/
theorem register_adding [DecidableEq φ] (ok : φ → Bool) (hclear : ps0.map unmark = ps0)
    (hneg : ∀ p ∈ ps0, p.fd < 0 → p.file = none) :
    ∃ ps, Adding ok ps0 ps0.length (ps, register ok ps0) := by
  have hstart : Adding ok ps0 0 (ps0, []) := by
    refine ⟨hclear, ?_, nodup_nil, nofun, ?_⟩
    · intro p hp f _
      rw [← hclear] at hp
      obtain ⟨q, -, rfl⟩ := mem_map.mp hp
      refine iff_of_false (fun h => h rfl) ?_
      rintro ⟨k, hk, -⟩
      omega
    intro f
    refine iff_of_false nofun ?_
    rintro ⟨⟨k, hk, -⟩, -⟩
    omega
  have hloop : Adding ok ps0 (0 + ps0.length) (foldUp (addTurn ok) (ps0, []) 0 ps0.length) :=
    foldUp_inv (I := Adding ok ps0) hstart (fun k s _ hk h => h.addTurn hneg (by omega))
  rw [Nat.zero_add] at hloop
  exact ⟨_, hloop⟩

end Register

/-! ## What a file is asked for -/

section Added

variable {φ : Type} {ps0 : List (Slot φ)} {e : PollFd φ φ}

/-- The events of an entry have 16 bits, so none of them is a flag of the poll. -/
theorem flag_and_events (k : Nat) (hk : 16 ≤ k) (m : UInt32) (hm : m.toNat = 2 ^ k)
    (events : UInt16) : m &&& events.toUInt32 = 0 := by
  apply UInt32.toNat_inj.mp
  rw [UInt32.toNat_and, UInt16.toNat_toUInt32, hm, Nat.two_pow_and]
  have hbit : events.toNat.testBit k = false := by
    apply Nat.testBit_lt_two_pow
    calc events.toNat < 2 ^ 16 := events.toNat_lt
      _ ≤ 2 ^ k := Nat.pow_le_pow_right (by omega) hk
  rw [hbit]
  rfl

namespace Added

variable (h : Added ps0 e)

include h

theorem not_edge : ¬ e.Edge := by
  intro hedge
  apply hedge
  rw [UInt32.and_comm, h.types]
  exact ⟨by decide, fun p _ _ => flag_and_events 31 (by omega) _ (by decide) p.events⟩

theorem not_oneshot : ¬ e.Oneshot := by
  intro hone
  apply hone
  rw [UInt32.and_comm, h.types]
  exact ⟨by decide, fun p _ _ => flag_and_events 30 (by omega) _ (by decide) p.events⟩

/-- What the turn adds to the types of the entry is there already. -/
theorem and_listened (r : UInt32) :
    r &&& (e.types ||| POLL_HUP ||| POLL_ERR) = 0 ↔
      r &&& POLL_ALWAYS_LISTENING = 0 ∧
        ∀ p ∈ ps0, p.file = some e.fd → r &&& p.events.toUInt32 = 0 := by
  rw [and_or_eq_zero, and_or_eq_zero, h.types]
  constructor
  · rintro ⟨⟨hlisten, -⟩, -⟩
    exact hlisten
  rintro ⟨halways, hevents⟩
  have hparts := halways
  unfold POLL_ALWAYS_LISTENING at hparts
  rw [and_or_eq_zero, and_or_eq_zero] at hparts
  exact ⟨⟨⟨halways, hevents⟩, hparts.1.2⟩, hparts.1.1⟩

theorem pollTypes_eq (poll : φ → UInt32) :
    e.pollTypes poll = poll e.fd &&& (e.types ||| POLL_HUP ||| POLL_ERR) :=
  if_neg h.not_edge

/-- A file is reported when one of its entries has something to report. -/
theorem pollTypes_eq_zero (poll : φ → UInt32) (hsome : ∃ p ∈ ps0, p.file = some e.fd) :
    e.pollTypes poll = 0 ↔
      ∀ p ∈ ps0, p.file = some e.fd → poll e.fd &&& asked p.events = 0 := by
  rw [h.pollTypes_eq, h.and_listened]
  constructor
  · rintro ⟨halways, hevents⟩ p hp hfile
    exact and_or_eq_zero.mpr ⟨hevents p hp hfile, halways⟩
  intro hall
  obtain ⟨q, hq, hqfile⟩ := hsome
  refine ⟨(and_or_eq_zero.mp (hall q hq hqfile)).2, ?_⟩
  intro p hp hfile
  exact (and_or_eq_zero.mp (hall p hp hfile)).1

/-- Merging and splitting again loses nothing. -/
theorem pollTypes_and_asked (poll : φ → UInt32) {p : Slot φ} (hp : p ∈ ps0)
    (hfile : p.file = some e.fd) :
    e.pollTypes poll &&& asked p.events = poll e.fd &&& asked p.events := by
  rw [h.pollTypes_eq]
  apply and_and_of_sub
  apply and_eq_left_of_forall
  intro r hr
  obtain ⟨halways, hevents⟩ := (h.and_listened r).mp hr
  exact and_or_eq_zero.mpr ⟨hevents p hp hfile, halways⟩

end Added

end Added

/-! ## Reports to the entries -/

section Report

variable {φ : Type} [DecidableEq φ]

theorem report_file (types : UInt32) (f : φ) (p : Slot φ) : (report types f p).file = p.file := by
  unfold report
  split <;> rfl

theorem foldl_callback_ctx (l : List (UInt32 × φ)) (ps : List (Slot φ)) (n : Nat) :
    (l.foldl (call pollEventCallback) (ps, n)).1 =
      ps.map fun p => l.foldl (fun p a => report a.1 a.2 p) p := by
  induction l generalizing ps n with
  | nil => simp
  | cons a l ih =>
    rw [foldl_cons]
    refine (ih _ _).trans ?_
    show (ps.map (report a.1 a.2)).map _ = _
    rw [List.map_map]
    rfl

/-- Every call returns 1 if its file is one of the array. -/
theorem foldl_callback_res (l : List (UInt32 × φ)) (ps : List (Slot φ)) (n : Nat)
    (hfiles : ∀ a ∈ l, ∃ p ∈ ps, p.file = some a.2) :
    (l.foldl (call pollEventCallback) (ps, n)).2 = n + l.length := by
  induction l generalizing ps n with
  | nil => rfl
  | cons a l ih =>
    have hone : (ps.any fun p => p.file = some a.2) = true := by
      obtain ⟨p, hp, hfile⟩ := hfiles a mem_cons_self
      exact any_eq_true.mpr ⟨p, hp, decide_eq_true hfile⟩
    have hcall : call pollEventCallback (ps, n) a = (ps.map (report a.1 a.2), n + 1) := by
      unfold call pollEventCallback
      rw [if_pos hone]
    rw [foldl_cons, hcall, ih, length_cons]
    · omega
    intro b hb
    obtain ⟨p, hp, hfile⟩ := hfiles b (mem_cons_of_mem a hb)
    exact ⟨_, mem_map_of_mem hp, (report_file a.1 a.2 p).trans hfile⟩

theorem foldl_report_of_not_mem {l : List (UInt32 × φ)} {p : Slot φ}
    (h : ∀ a ∈ l, p.file ≠ some a.2) : l.foldl (fun p a => report a.1 a.2 p) p = p := by
  induction l with
  | nil => rfl
  | cons a l ih =>
    have hsame : report a.1 a.2 p = p := if_neg (h a mem_cons_self)
    rw [foldl_cons, hsame, ih fun b hb => h b (mem_cons_of_mem a hb)]

/-- Files are reported once, so an entry has the report of its file at the end. -/
theorem foldl_report_of_mem {l : List (UInt32 × φ)} (hnodup : (l.map Prod.snd).Nodup)
    {a : UInt32 × φ} (ha : a ∈ l) {p : Slot φ} (hfile : p.file = some a.2) :
    l.foldl (fun p a => report a.1 a.2 p) p =
      { p with revents := (a.1 &&& asked p.events).toUInt16 } := by
  induction l with
  | nil => cases ha
  | cons b l ih =>
    rw [List.map_cons, List.nodup_cons, List.mem_map] at hnodup
    obtain ⟨hnew, hnodup⟩ := hnodup
    rw [foldl_cons]
    rcases mem_cons.mp ha with rfl | hlater
    · have hreport : report a.1 a.2 p = _ := if_pos hfile
      rw [hreport, foldl_report_of_not_mem]
      intro c hc hcfile
      have hsame : a.2 = c.2 := some.inj (hfile.symm.trans hcfile)
      exact hnew ⟨c, hc, hsame.symm⟩
    have hother : p.file ≠ some b.2 := by
      intro hb
      have hsame : a.2 = b.2 := some.inj (hfile.symm.trans hb)
      exact hnew ⟨a, hlater, hsame⟩
    rw [show report b.1 b.2 p = p from if_neg hother]
    exact ih hnodup hlater

end Report

/-! ## The result -/

section Result

variable {φ : Type}

/-- The entry names a closed descriptor. -/
def Closed (T : Table φ) (p : Pollfd) : Prop := 0 ≤ p.fd ∧ fGet T p.fd = none

instance (T : Table φ) (p : Pollfd) : Decidable (Closed T p) := inferInstanceAs (Decidable (_ ∧ _))

/-- What `revents` should be when the files have `poll` ready. -/
def expected (T : Table φ) (poll : φ → UInt32) (p : Pollfd) : UInt16 :=
  if p.fd < 0 then 0
  else
    match fGet T p.fd with
    | none => POLL_NVAL.toUInt16
    | some f => (poll f &&& asked p.events).toUInt16

/-- **What is asked of the result**, where `poll` is what the files have ready when the call
returns. -/
structure Reports (T : Table φ) (timeout : Int32) (poll : φ → UInt32) (polls : List Pollfd)
    (o : Polled) : Prop where
  count : o.ret = ((o.polls.filter fun p => p.revents ≠ 0).length : Int)
  revents : o.polls = polls.map fun p => { p with revents := expected T poll p }
  atOnce : (∃ p ∈ polls, Closed T p) → timeout ≠ 0 → o.waits = 0

/-- The entry has a file with something to report to it. -/
def Active (T : Table φ) (poll : φ → UInt32) (p : Pollfd) : Prop :=
  ∃ f ∈ fGet T p.fd, poll f &&& asked p.events ≠ 0

instance (T : Table φ) (poll : φ → UInt32) (p : Pollfd) : Decidable (Active T poll p) :=
  inferInstanceAs (Decidable (∃ f ∈ fGet T p.fd, _))

/-- The condition: no entry names a closed descriptor, files with something to report can be added,
and each of them reports to one entry. -/
structure Single (w : World φ) (T : Table φ) (poll : φ → UInt32) (polls : List Pollfd) : Prop where
  opened : ∀ p ∈ polls, ¬ Closed T p
  added : ∀ p ∈ polls, Active T poll p → ∀ f ∈ fGet T p.fd, w.ok f = true
  distinct : ((polls.filter fun p => Active T poll p).map fun p => fGet T p.fd).Nodup

/-- What `revents` is. -/
def shown (w : World φ) (T : Table φ) (poll : φ → UInt32) (p : Pollfd) : UInt16 :=
  match fGet T p.fd with
  | none => if 0 ≤ p.fd then POLL_NVAL.toUInt16 else 0
  | some f => if w.ok f then (poll f &&& asked p.events).toUInt16 else 0

theorem asked_lt (events : UInt16) : (asked events).toNat < 2 ^ 16 := by
  unfold asked
  rw [UInt32.toNat_or, UInt16.toNat_toUInt32]
  exact Nat.or_lt_two_pow events.toNat_lt (by decide)

/-- Nothing is cut off when a report is stored. -/
theorem toUInt16_and_asked (r : UInt32) (events : UInt16) :
    (r &&& asked events).toUInt16 = 0 ↔ r &&& asked events = 0 := by
  apply toUInt16_eq_zero
  rw [UInt32.toNat_and]
  exact lt_of_le_of_lt Nat.and_le_right (asked_lt events)

section Array

variable (w : World φ) (T : Table φ) (poll : φ → UInt32) (polls : List Pollfd)

/-- What the loop over the array leaves, said about the array of the guest. -/
structure Listening (es : List (PollFd φ φ)) : Prop where
  distinct : (es.map PollFd.fd).Nodup
  added : ∀ e ∈ es, Added (polls.map (opened T)) e
  files : ∀ f, (∃ e ∈ es, e.fd = f) ↔ (∃ p ∈ polls, fGet T p.fd = some f) ∧ w.ok f = true

theorem register_listening [DecidableEq φ] :
    Listening w T polls (register w.ok (polls.map (opened T))) := by
  have hclear : (polls.map (opened T)).map unmark = polls.map (opened T) := by
    rw [List.map_map]
    rfl
  have hneg : ∀ p ∈ polls.map (opened T), p.fd < 0 → p.file = none := by
    intro p hp hfd
    obtain ⟨q, -, rfl⟩ := mem_map.mp hp
    exact fGet_of_neg T hfd
  obtain ⟨ps, h⟩ := register_adding w.ok hclear hneg
  refine ⟨h.distinct, h.added, ?_⟩
  intro f
  rw [h.files f]
  refine and_congr_left fun _ => ?_
  -- every index of the array has been seen
  constructor
  · rintro ⟨k, -, p, hp, hfile⟩
    obtain ⟨q, hq, rfl⟩ := mem_map.mp (mem_of_getElem? hp)
    exact ⟨q, hq, hfile⟩
  rintro ⟨q, hq, hfile⟩
  obtain ⟨k, hk⟩ := mem_iff_getElem?.mp (mem_map_of_mem (f := opened T) hq)
  exact ⟨k, (List.getElem?_eq_some_iff.mp hk).1, opened T q, hk, hfile⟩

end Array

namespace Listening

variable {w : World φ} {T : Table φ} {poll : φ → UInt32} {polls : List Pollfd}
  {es : List (PollFd φ φ)}

variable (h : Listening w T polls es)

include h

theorem exists_slot {e : PollFd φ φ} (he : e ∈ es) :
    ∃ p ∈ polls.map (opened T), p.file = some e.fd := by
  obtain ⟨p, hp, hfile⟩ := ((h.files e.fd).mp ⟨e, he, rfl⟩).1
  exact ⟨opened T p, mem_map_of_mem hp, hfile⟩

theorem pending_iff {e : PollFd φ φ} (he : e ∈ es) :
    e.Pending poll ↔ ∃ p ∈ polls, fGet T p.fd = some e.fd ∧ poll e.fd &&& asked p.events ≠ 0 := by
  unfold PollFd.Pending
  rw [Ne, (h.added e he).pollTypes_eq_zero poll (h.exists_slot he)]
  simp only [List.forall_mem_map, not_forall, exists_prop]
  rfl

theorem calls_files :
    (calls poll es).map Prod.snd = (es.filter fun e => e.Pending poll).map PollFd.fd := by
  unfold calls
  rw [List.map_map]
  apply List.map_congr_left
  intro e he
  exact (h.added e (mem_filter.mp he).1).info

theorem calls_nodup : ((calls poll es).map Prod.snd).Nodup := by
  rw [h.calls_files]
  exact h.distinct.sublist (List.filter_sublist.map _)

/-- The files that are called for. -/
theorem mem_calls_files (f : φ) :
    f ∈ (calls poll es).map Prod.snd ↔
      w.ok f = true ∧ ∃ p ∈ polls, fGet T p.fd = some f ∧ poll f &&& asked p.events ≠ 0 := by
  rw [h.calls_files, List.mem_map]
  constructor
  · rintro ⟨e, he, rfl⟩
    obtain ⟨he, hpending⟩ := mem_filter.mp he
    have hok := ((h.files e.fd).mp ⟨e, he, rfl⟩).2
    exact ⟨hok, (h.pending_iff he).mp (of_decide_eq_true hpending)⟩
  rintro ⟨hok, p, hp, hfile, hready⟩
  obtain ⟨e, he, rfl⟩ := (h.files f).mpr ⟨⟨p, hp, hfile⟩, hok⟩
  have hpending := (h.pending_iff he).mpr ⟨p, hp, hfile, hready⟩
  exact ⟨e, mem_filter.mpr ⟨he, decide_eq_true hpending⟩, rfl⟩

/-- An entry of the array after the last turn. -/
theorem foldl_report_eq [DecidableEq φ] {p : Pollfd} (hp : p ∈ polls) :
    ((calls poll es).foldl (fun p a => report a.1 a.2 p) (marked (opened T p))).toPollfd =
      { p with revents := shown w T poll p } := by
  cases hfile : fGet T p.fd with
  | none =>
    rw [foldl_report_of_not_mem]
    · simp [marked, opened, shown, hfile]
    intro a _
    show fGet T p.fd ≠ _
    rw [hfile]
    nofun
  | some f =>
    have hmark : marked (opened T p) = ⟨⟨p.fd, p.events, 0⟩, some f⟩ := by
      simp [marked, opened, hfile]
    rw [hmark]
    by_cases hin : f ∈ (calls poll es).map Prod.snd
    · -- the file has been reported
      have hok := ((h.mem_calls_files f).mp hin).1
      rw [h.calls_files, List.mem_map] at hin
      obtain ⟨e, he, rfl⟩ := hin
      have hmem : e ∈ es := (mem_filter.mp he).1
      have hcall : (e.pollTypes poll, e.info) ∈ calls poll es := mem_map.mpr ⟨e, he, rfl⟩
      have hslot : opened T p ∈ polls.map (opened T) := mem_map_of_mem hp
      have htypes := (h.added e hmem).pollTypes_and_asked poll hslot hfile
      rw [foldl_report_of_mem h.calls_nodup hcall (congrArg some (h.added e hmem).info.symm)]
      simp only [shown, hfile, hok, if_true]
      exact congrArg (fun r => (⟨p.fd, p.events, UInt32.toUInt16 r⟩ : Pollfd)) htypes
    · have hzero : shown w T poll p = 0 := by
        unfold shown
        rw [hfile]
        dsimp only
        split
        · rename_i hok
          rw [toUInt16_and_asked]
          by_contra hready
          exact hin ((h.mem_calls_files f).mpr ⟨hok, p, hp, hfile, hready⟩)
        · rfl
      rw [hzero, foldl_report_of_not_mem]
      intro a ha hfa
      apply hin
      rw [some.inj hfa]
      exact mem_map_of_mem ha

theorem plain : ∀ e ∈ es, ¬ e.Edge ∧ ¬ e.Oneshot :=
  fun e he => ⟨(h.added e he).not_edge, (h.added e he).not_oneshot⟩

/-- The callback takes every event. -/
theorem turn_res_eq [DecidableEq φ] (poll : φ → UInt32) :
    (turn poll pollEventCallback es ((polls.map (opened T)).map marked) 0).res =
      (calls poll es).length := by
  rw [turn_res, foldl_callback_res, Nat.zero_add]
  intro a ha
  obtain ⟨-, p, hp, hfile, -⟩ := (h.mem_calls_files a.2).mp (mem_map_of_mem ha)
  exact ⟨marked (opened T p), mem_map_of_mem (mem_map_of_mem hp), hfile⟩

end Listening

/-! ### Counting -/

section Count

variable {w : World φ} {T : Table φ} {poll : φ → UInt32} {p : Pollfd}

/-- Closed entries are shown something, and active ones whose file could be added. -/
theorem shown_ne_zero : shown w T poll p ≠ 0 ↔
    Closed T p ∨ ∃ f ∈ fGet T p.fd, w.ok f = true ∧ poll f &&& asked p.events ≠ 0 := by
  have hnval : POLL_NVAL.toUInt16 ≠ 0 := by decide
  unfold shown Closed
  cases fGet T p.fd with
  | none => simp [hnval]
  | some f => simp [← toUInt16_and_asked]

theorem shown_of_active (h : Active T poll p) (hok : ∀ f ∈ fGet T p.fd, w.ok f = true) :
    shown w T poll p ≠ 0 := by
  obtain ⟨f, hfile, hready⟩ := h
  exact shown_ne_zero.mpr (.inr ⟨f, hfile, hok f hfile, hready⟩)

theorem expected_of_active (h : Active T poll p) : expected T poll p ≠ 0 := by
  obtain ⟨f, hfile, hready⟩ := h
  have hfd : ¬ p.fd < 0 := by
    intro hneg
    rw [fGet_of_neg T hneg] at hfile
    cases hfile
  unfold expected
  rw [if_neg hfd, mem_def.mp hfile]
  rw [Ne, toUInt16_and_asked]
  exact hready

/-- The two differ at most where a file could not be added. -/
theorem shown_eq_expected (hok : Active T poll p → ∀ f ∈ fGet T p.fd, w.ok f = true) :
    shown w T poll p = expected T poll p := by
  unfold shown expected
  by_cases hfd : p.fd < 0
  · have hnot : ¬ 0 ≤ p.fd := Int32.not_le.mpr hfd
    rw [if_pos hfd, fGet_of_neg T hfd]
    rw [if_neg hnot]
  rw [if_neg hfd]
  rcases hfile : fGet T p.fd with _ | f
  · exact if_pos (Int32.not_lt.mp hfd)
  dsimp only
  split
  · rfl
  rename_i hnot
  symm
  rw [toUInt16_and_asked]
  by_contra hready
  exact hnot (hok ⟨f, hfile, hready⟩ f hfile)

/-- If the files of the active entries have been added, those that are reported are the different
ones among them. -/
theorem length_files [DecidableEq φ] {polls : List Pollfd} {files : List φ} (hnodup : files.Nodup)
    (hfiles : ∀ f, f ∈ files ↔ w.ok f = true ∧
      ∃ p ∈ polls, fGet T p.fd = some f ∧ poll f &&& asked p.events ≠ 0)
    (hadded : ∀ p ∈ polls, Active T poll p → ∀ f ∈ fGet T p.fd, w.ok f = true) :
    files.length =
      ((polls.filter fun p => Active T poll p).map fun p => fGet T p.fd).dedup.length := by
  have hperm : (files.map some).Perm
      ((polls.filter fun p => Active T poll p).map fun p => fGet T p.fd).dedup := by
    refine (perm_ext_iff_of_nodup (hnodup.map (some_injective φ)) (nodup_dedup _)).mpr ?_
    intro x
    rw [List.mem_dedup, List.mem_map, List.mem_map]
    constructor
    · rintro ⟨f, hf, rfl⟩
      obtain ⟨-, p, hp, hfile, hready⟩ := (hfiles f).mp hf
      exact ⟨p, mem_filter.mpr ⟨hp, decide_eq_true ⟨f, hfile, hready⟩⟩, hfile⟩
    rintro ⟨p, hp, rfl⟩
    obtain ⟨hp, hactive⟩ := mem_filter.mp hp
    have hactive := of_decide_eq_true hactive
    obtain ⟨f, hfile, hready⟩ := hactive
    refine ⟨f, (hfiles f).mpr ⟨hadded p hp ⟨f, hfile, hready⟩ f hfile, p, hp, hfile, hready⟩, ?_⟩
    exact hfile.symm
  rw [← hperm.length_eq, List.length_map]

theorem length_nonzero (polls : List Pollfd) :
    ((polls.map fun p => { p with revents := shown w T poll p }).filter
        fun p => p.revents ≠ 0).length =
      (polls.filter fun p => shown w T poll p ≠ 0).length := by
  rw [List.filter_map, List.length_map]
  rfl

/-- Active entries are among those with something in `revents`. -/
theorem active_sublist_shown {polls : List Pollfd}
    (hadded : ∀ p ∈ polls, Active T poll p → ∀ f ∈ fGet T p.fd, w.ok f = true) :
    List.Sublist (polls.filter fun p => Active T poll p)
      (polls.filter fun p => shown w T poll p ≠ 0) := by
  have hsplit : (polls.filter fun p => Active T poll p) =
      (polls.filter fun p => shown w T poll p ≠ 0).filter fun p => Active T poll p := by
    rw [List.filter_filter]
    apply filter_congr
    intro p hp
    by_cases hactive : Active T poll p
    · have hshown := shown_of_active hactive (hadded p hp hactive)
      simp [hactive, hshown]
    · simp [hactive]
  rw [hsplit]
  exact filter_sublist

end Count

section Call

variable [DecidableEq φ] {w : World φ} {T : Table φ} {polls : List Pollfd}
  {idle : List (Round φ)} {last : Round φ} {o : Polled}

/-- **What the call gives**: the number of files with something to report, and every entry with
what is shown to it. -/
theorem sysPoll_eq (hidle : sysPoll w T polls idle = none)
    (h : sysPoll w T polls (idle ++ [last]) = some o) (hret : 0 ≤ o.ret) :
    ∃ files : List φ, files.Nodup ∧ o.ret = files.length ∧
      (∀ f, f ∈ files ↔ w.ok f = true ∧
        ∃ p ∈ polls, fGet T p.fd = some f ∧ last.poll f &&& asked p.events ≠ 0) ∧
      o.polls = polls.map fun p => { p with revents := shown w T last.poll p } := by
  have hlisten := register_listening w T polls
  unfold sysPoll at hidle h
  split at hidle
  · cases hidle
  rename_i hread
  split at hidle
  · cases hidle
  · cases hidle
  rename_i hcreate hpipe
  rw [if_neg hread, hcreate, hpipe] at h
  rw [map_eq_none_iff] at hidle
  obtain ⟨r, hr, rfl⟩ := map_eq_some_iff.mp h
  by_cases hneg : r.ret < 0
  · rw [if_pos hneg] at hret
    exact absurd hret (not_le.mpr hneg)
  rw [if_neg hneg] at hret ⊢
  by_cases hwrite : w.writable = false
  · rw [if_pos hwrite] at hret
    exact absurd hret (show ¬ 0 ≤ EFAULT by decide)
  rw [if_neg hwrite]
  obtain ⟨hres, hctx⟩ := pollWait_last hlisten.plain hlisten.turn_res_eq hidle hr (by omega)
  refine ⟨_, hlisten.calls_nodup, ?_, hlisten.mem_calls_files, ?_⟩
  · rw [length_map]
    exact hres
  rw [hctx, foldl_callback_ctx, List.map_map, List.map_map, List.map_map]
  apply map_congr_left
  intro p hp
  exact hlisten.foldl_report_eq hp

/-- **When the result is right.** For every call that returns without an error, after any number of
turns: the count, the events and the return at once are as they should be exactly if no entry names
a closed descriptor, every file with something to report could be added, and no two entries with
something to report name the same file. -/
theorem sysPoll_reports_iff (timeout : Int32) (hidle : sysPoll w T polls idle = none)
    (h : sysPoll w T polls (idle ++ [last]) = some o) (hret : 0 ≤ o.ret) :
    Reports T timeout last.poll polls o ↔ Single w T last.poll polls := by
  obtain ⟨files, hnodup, hcount, hfiles, hpolls⟩ := sysPoll_eq hidle h hret
  constructor
  · intro hreports
    have hsame : ∀ p ∈ polls, shown w T last.poll p = expected T last.poll p := by
      have hmaps := hpolls.symm.trans hreports.revents
      intro p hp
      exact congrArg Pollfd.revents (map_inj_left.mp hmaps p hp)
    have hadded : ∀ p ∈ polls, Active T last.poll p → ∀ f ∈ fGet T p.fd, w.ok f = true := by
      intro p hp hactive f hfile
      by_contra hnot
      apply expected_of_active hactive
      rw [← hsame p hp, shown, mem_def.mp hfile]
      exact if_neg hnot
    -- the files that are reported, the active entries and the entries with something in `revents`
    have hlength := length_files hnodup hfiles hadded
    have hreported : files.length = (polls.filter fun p => shown w T last.poll p ≠ 0).length := by
      have hnonzero := hreports.count
      rw [hpolls, length_nonzero, hcount] at hnonzero
      exact Int.ofNat.inj hnonzero
    have hsub := active_sublist_shown hadded
    have hle := hsub.length_le
    have hdedup := List.Sublist.length_le (dedup_sublist
      ((polls.filter fun p => Active T last.poll p).map fun p => fGet T p.fd))
    rw [length_map] at hdedup
    refine ⟨?opened, hadded, ?distinct⟩
    case opened =>
      intro p hp hclosed
      have hall := hsub.eq_of_length (by omega)
      have hshown : p ∈ polls.filter fun p => shown w T last.poll p ≠ 0 :=
        mem_filter.mpr ⟨hp, decide_eq_true (shown_ne_zero.mpr (.inl hclosed))⟩
      rw [← hall] at hshown
      obtain ⟨f, hfile, -⟩ := of_decide_eq_true (mem_filter.mp hshown).2
      rw [hclosed.2] at hfile
      cases hfile
    case distinct =>
      apply dedup_eq_self.mp
      apply (dedup_sublist _).eq_of_length
      rw [length_map]
      omega
  · intro hsingle
    have hexpected : o.polls = polls.map fun p => { p with revents := expected T last.poll p } := by
      rw [hpolls]
      apply map_congr_left
      intro p hp
      rw [shown_eq_expected (hsingle.added p hp)]
    have hactive : (polls.filter fun p => shown w T last.poll p ≠ 0) =
        polls.filter fun p => Active T last.poll p := by
      apply filter_congr
      intro p hp
      rw [decide_eq_decide]
      refine ⟨fun h => ?_, fun h => shown_of_active h (hsingle.added p hp h)⟩
      obtain ⟨f, hfile, -, hready⟩ := (shown_ne_zero.mp h).resolve_left (hsingle.opened p hp)
      exact ⟨f, hfile, hready⟩
    refine ⟨?_, hexpected, ?_⟩
    · rw [hcount, hpolls, length_nonzero, hactive, length_files hnodup hfiles hsingle.added,
        dedup_eq_self.mpr hsingle.distinct, length_map]
    rintro ⟨p, hp, hclosed⟩
    exact absurd hclosed (hsingle.opened p hp)

end Call

/-- A pipe and a file, at the descriptors 0 and 1. -/
def twoFiles : Table Nat := ⟨[some 7, some 8], [false, false], rfl, by decide⟩

/-- Everything works. -/
def works : World Nat := ⟨true, true, none, none, fun _ => true⟩

/-- A call that waits once: the pipe is ready for reading in the second turn, and the entries are
for two files. -/
theorem sysPoll_reports_iff_pipe :
    ∃ o, sysPoll works twoFiles [⟨0, 1, 0⟩, ⟨-1, 1, 5⟩, ⟨1, 1, 0⟩]
        ([⟨fun _ => 0, .notified [] none⟩] ++
          [⟨fun f => if f = 7 then POLL_READ else 0, .timeout⟩]) = some o ∧
      Reports twoFiles 1000 (fun f => if f = 7 then POLL_READ else 0)
        [⟨0, 1, 0⟩, ⟨-1, 1, 5⟩, ⟨1, 1, 0⟩] o := by
  refine (fun h => ⟨_, h, (sysPoll_reports_iff 1000 rfl h (by decide +kernel)).mpr
    ⟨?_, ?_, ?_⟩⟩) rfl
  · decide +kernel
  · intro p _ _ f _
    rfl
  · decide +kernel

/-- The pipe is named twice and ready: two entries have `revents` and the call returns 1. A closed
descriptor beside a file that is not ready: the call waits until the time is over and returns 0, and
one entry has `revents`. A regular file that the host does not add: it is ready and not reported. -/
theorem poll_counts_files_not_entries :
    (∃ o, sysPoll works twoFiles [⟨0, 1, 0⟩, ⟨0, 1, 0⟩] [⟨fun _ => POLL_READ, .timeout⟩] = some o ∧
      o.ret = 1 ∧ o.polls = [⟨0, 1, 1⟩, ⟨0, 1, 1⟩] ∧
      ¬ Reports twoFiles 1000 (fun _ => POLL_READ) [⟨0, 1, 0⟩, ⟨0, 1, 0⟩] o) ∧
    (∃ o, sysPoll works twoFiles [⟨5, 1, 0⟩, ⟨0, 1, 0⟩] [⟨fun _ => 0, .timeout⟩] = some o ∧
      o.ret = 0 ∧ o.waits = 1 ∧ o.polls = [⟨5, 1, 32⟩, ⟨0, 1, 0⟩] ∧
      ¬ Reports twoFiles 1000 (fun _ => 0) [⟨5, 1, 0⟩, ⟨0, 1, 0⟩] o) ∧
    ∃ o, sysPoll { works with ok := fun f => f ≠ 8 } twoFiles [⟨1, 1, 0⟩]
        [⟨fun _ => POLL_READ, .timeout⟩] = some o ∧
      o.ret = 0 ∧ o.polls = [⟨1, 1, 0⟩] ∧
      ¬ Reports twoFiles 1000 (fun _ => POLL_READ) [⟨1, 1, 0⟩] o := by
  refine ⟨⟨_, rfl, rfl, rfl, ?twice⟩, ⟨_, rfl, rfl, rfl, rfl, ?closed⟩,
    ⟨_, rfl, rfl, rfl, ?refused⟩⟩
  case twice =>
    intro h
    exact absurd h.count (by decide +kernel)
  case closed =>
    intro h
    exact absurd h.count (by decide +kernel)
  case refused =>
    intro h
    exact absurd h.revents (by decide +kernel)

end Result

end Ish.Polling
