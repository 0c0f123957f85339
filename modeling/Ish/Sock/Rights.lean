import Ish.Lib.Machine

set_option autoImplicit false

/-! # Descriptors in messages

`sys_sendmsg` and `sys_recvmsg` (`fs/sock.c`) on one direction of a connected pair of unix sockets.
The descriptors of a message do not go through the host: they are put into the queue `unix_scm` of
the receiving socket, and the message has one descriptor of the host as a sign that there are some.
Whoever receives the sign takes the first entry of the queue.

The queue and the host are two steps of each call, between which other calls come. A message that
is received by `read`, or without a buffer for control data, loses the sign, and its entry stays in
the queue. So does one whose data cannot be written to the guest: the call returns `_EFAULT` before
it looks at the sign. `MSG_PEEK` shows the sign a second time.
-/

namespace Ish.Sock

open Option List Function Ish.Lib

/-- A message; the number tells it from the others. -/
structure Msg (φ : Type) where
  id : Nat
  fds : List φ
deriving DecidableEq

structure Channel (τ φ : Type) where
  /-- The messages in the host and the entries of `unix_scm`. -/
  host : List (Msg φ)
  scm : List (Msg φ)
  /-- Calls that have put their entry into the queue and not yet called the host, and calls that
  have the sign and not yet an entry. -/
  sending : τ → Option (Msg φ)
  receiving : τ → Option (Msg φ)
  next : Nat

inductive Op (τ φ : Type) where
  | send (t : τ) (fds : List φ)
  /-- The host takes the message, or refuses it. -/
  | sent (t : τ) (ok : Bool)
  /-- `faults` is that the data cannot be written to the buffers of the caller. -/
  | recv (t : τ) (control peek faults : Bool)
  | take (t : τ)

inductive Out (φ : Type) where
  | quiet
  /-- `assert(!list_empty(&sock->socket.unix_scm))` fails. -/
  | asserts
  /-- The descriptors of an entry are installed for a message. -/
  | installs (m entry : Msg φ)

variable {τ φ : Type} [DecidableEq τ] [DecidableEq φ]

def Msg.carries (m : Msg φ) : Bool := !m.fds.isEmpty

def step (s : Channel τ φ) : Op τ φ → Option (Channel τ φ × Out φ)
  | .send t fds =>
    match s.sending t with
    | some _ => none
    | none =>
      let m : Msg φ := ⟨s.next, fds⟩
      some ({ s with
              scm := s.scm ++ if m.carries then [m] else []
              sending := update s.sending t (some m)
              next := s.next + 1 }, .quiet)
  | .sent t ok =>
    (s.sending t).map fun m =>
      ({ s with
         sending := update s.sending t none
         host := if ok then s.host ++ [m] else s.host
         scm := if ok || !m.carries then s.scm else s.scm.erase m }, .quiet)
  | .recv t control peek faults =>
    match s.receiving t, s.host with
    | none, m :: rest =>
      some ({ s with
              host := if peek then s.host else rest
              receiving :=
                if control && !faults && m.carries then update s.receiving t (some m)
                else s.receiving }, .quiet)
    | _, _ => none
  | .take t =>
    (s.receiving t).map fun m =>
      match s.scm with
      | [] => (s, .asserts)
      | e :: rest =>
        ({ s with scm := rest, receiving := update s.receiving t none }, .installs m e)

def machine : Machine (Channel τ φ) (Op τ φ) (Out φ) := ⟨step⟩

def init : Channel τ φ := ⟨[], [], fun _ => none, fun _ => none, 0⟩

/-- The entry is that of the message. -/
def Out.Right : Out φ → Prop
  | .quiet => True
  | .asserts => False
  | .installs m e => e = m

/-- **The condition.** No two calls that send descriptors overlap, and a message with descriptors is
received by `recvmsg` with a control buffer and buffers that can be written, without `MSG_PEEK`,
while no other call is about to take an entry. -/
def Calm (s : Channel τ φ) : Op τ φ → Prop
  | .send _ fds => fds ≠ [] → ∀ u m, s.sending u = some m → m.carries = false
  | .recv _ control peek faults => ∀ m ∈ s.host.head?, m.carries = true →
      control = true ∧ peek = false ∧ faults = false ∧ ∀ u, s.receiving u = none
  | _ => True

/-- The queue has the entry of a call that is about to take it, those of the messages in the host,
and that of a call that is about to send. -/
structure Inv (s : Channel τ φ) : Prop where
  scm : ∃ r w : Option (τ × Msg φ),
    s.scm = r.toList.map Prod.snd ++ s.host.filter Msg.carries ++ w.toList.map Prod.snd ∧
    (∀ t m, s.receiving t = some m ↔ r = some (t, m)) ∧
    ∀ t m, w = some (t, m) ↔ s.sending t = some m ∧ m.carries = true
  fresh : ∀ m, m ∈ s.scm ∨ m ∈ s.host ∨ (∃ t, s.sending t = some m) → m.id < s.next
  nodup : s.scm.Nodup

omit [DecidableEq φ] in
theorem Inv.send {s : Channel τ φ} (h : Inv s) {t : τ} {fds : List φ} (hidle : s.sending t = none)
    (hcalm : Calm s (.send t fds)) :
    Inv { s with
          scm := s.scm ++ if (⟨s.next, fds⟩ : Msg φ).carries then [⟨s.next, fds⟩] else []
          sending := update s.sending t (some ⟨s.next, fds⟩)
          next := s.next + 1 } := by
  obtain ⟨⟨r, w, hscm, hr, hw⟩, hfresh, hnodup⟩ := h
  have hnew : (⟨s.next, fds⟩ : Msg φ) ∉ s.scm := fun hmem => by
    simpa using hfresh _ (.inl hmem)
  refine ⟨?_, ?_, ?_⟩
  · rcases hc : (⟨s.next, fds⟩ : Msg φ).carries with _ | _
    · exact ⟨r, w, by simpa using hscm, hr, by grind [update_apply]⟩
    have hnone : w = none := by
      have hne : fds ≠ [] := by simpa [Msg.carries] using hc
      rcases w with - | ⟨u, m⟩
      · rfl
      obtain ⟨hu, hm⟩ := (hw u m).mp rfl
      simp [hcalm hne u m hu] at hm
    refine ⟨r, some (t, ⟨s.next, fds⟩), by simp [hscm, hnone], hr, ?_⟩
    grind [update_apply]
  · grind [update_apply]
  · split
    · exact nodup_append.mpr ⟨hnodup, by simp, by grind⟩
    · simpa using hnodup

theorem Inv.sent {s : Channel τ φ} (h : Inv s) {t : τ} {m : Msg φ} (hm : s.sending t = some m)
    (ok : Bool) :
    Inv { s with
          sending := update s.sending t none
          host := if ok then s.host ++ [m] else s.host
          scm := if ok || !m.carries then s.scm else s.scm.erase m } := by
  obtain ⟨⟨r, w, hscm, hr, hw⟩, hfresh, hnodup⟩ := h
  refine ⟨?_, ?_, ?_⟩
  · rcases hc : m.carries with _ | _
    · refine ⟨r, w, ?_, hr, by grind [update_apply]⟩
      cases ok <;> simp [hscm, hc, filter_append]
    -- the entry of the call is the last one
    obtain rfl : w = some (t, m) := (hw t m).mpr ⟨hm, hc⟩
    have hidle : ∀ u m', update s.sending t none u = some m' → m'.carries = false := by
      intro u m' hu
      by_contra hcarries
      by_cases hut : u = t
      · simp [hut] at hu
      rw [update_of_ne hut] at hu
      have hsame := (hw u m').mpr ⟨hu, by simpa using hcarries⟩
      exact hut (Prod.mk.inj (some.inj hsame)).1.symm
    refine ⟨r, none, ?_, hr, by simpa using hidle⟩
    cases ok with
    | true => simp [hscm, hc, filter_append]
    | false =>
      have hlast : m ∉ r.toList.map Prod.snd ++ s.host.filter Msg.carries := by
        rw [hscm] at hnodup
        intro hmem
        exact disjoint_of_nodup_append hnodup hmem (by simp)
      have herase : s.scm.erase m = r.toList.map Prod.snd ++ s.host.filter Msg.carries := by
        rw [hscm, erase_append_right _ hlast]
        simp
      simpa [hc] using herase
  · intro m' hm'
    refine hfresh m' ?_
    grind [update_apply, mem_of_mem_erase]
  · change (if _ then s.scm else s.scm.erase m).Nodup
    split
    · exact hnodup
    · exact hnodup.erase m

omit [DecidableEq φ] in
theorem Inv.recv {s : Channel τ φ} (h : Inv s) {t : τ} {control peek faults : Bool} {m : Msg φ}
    {rest : List (Msg φ)} (hhost : s.host = m :: rest)
    (hcalm : Calm s (.recv t control peek faults)) :
    Inv { s with
          host := if peek then s.host else rest
          receiving :=
            if control && !faults && m.carries then update s.receiving t (some m)
            else s.receiving } := by
  obtain ⟨⟨r, w, hscm, hr, hw⟩, hfresh, hnodup⟩ := h
  refine ⟨?_, ?_, hnodup⟩
  · rcases hc : m.carries with _ | _
    · refine ⟨r, w, ?_, by simpa using hr, hw⟩
      cases peek <;> simp [hscm, hhost, hc]
    obtain ⟨rfl, rfl, rfl, hall⟩ := hcalm m (by simp [hhost]) hc
    have hnone : r = none := by
      rcases r with - | ⟨u, m'⟩
      · rfl
      · simpa [hall u] using (hr u m').mpr rfl
    refine ⟨some (t, m), w, by simp [hscm, hhost, hc, hnone], ?_, hw⟩
    grind [update_apply]
  · intro m' hm'
    refine hfresh m' ?_
    grind

/-- **The step.** A step that meets the condition keeps the queue in the order of the messages, and
what it installs is the entry of its message. -/
theorem Inv.step {s s' : Channel τ φ} {op : Op τ φ} {o : Out φ} (h : Inv s) (hcalm : Calm s op)
    (hstep : Sock.step s op = some (s', o)) : Inv s' ∧ o.Right := by
  cases op with
  | send t fds =>
    unfold Sock.step at hstep
    dsimp only at hstep
    split at hstep
    · cases hstep
    next hidle =>
    obtain ⟨rfl, rfl⟩ := Prod.mk.inj (some.inj hstep)
    exact ⟨h.send hidle hcalm, trivial⟩
  | sent t ok =>
    obtain ⟨m, hm, heq⟩ := map_eq_some_iff.mp hstep
    obtain ⟨rfl, rfl⟩ := Prod.mk.inj heq
    exact ⟨h.sent hm ok, trivial⟩
  | recv t control peek faults =>
    unfold Sock.step at hstep
    dsimp only at hstep
    split at hstep
    · next m rest _ hhost =>
      obtain ⟨rfl, rfl⟩ := Prod.mk.inj (some.inj hstep)
      exact ⟨h.recv hhost hcalm, trivial⟩
    · cases hstep
  | take t =>
    obtain ⟨m, hm, heq⟩ := map_eq_some_iff.mp hstep
    obtain ⟨⟨r, w, hscm, hr, hw⟩, hfresh, hnodup⟩ := h
    -- the first entry is that of the only call that is about to take one
    obtain rfl := (hr t m).mp hm
    simp only [toList_some, map_cons, map_nil, cons_append] at hscm
    rw [hscm] at heq hnodup
    cases heq
    refine ⟨⟨⟨none, w, by simp, ?_, hw⟩, ?_, hnodup.tail⟩, rfl⟩
    · grind [update_apply]
    intro m' hm'
    refine hfresh m' ?_
    grind

omit [DecidableEq τ] [DecidableEq φ] in
theorem inv_init : Inv (init : Channel τ φ) :=
  ⟨⟨none, none, rfl, by simp [init], by simp [init]⟩, by simp [init], nodup_nil⟩

end Ish.Sock
