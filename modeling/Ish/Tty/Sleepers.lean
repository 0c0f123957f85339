import Ish.Tty.Input

set_option autoImplicit false

/-! # Sleeping readers and writers of a terminal

A writer of input waits for room on `consumed`, and a reader waits on `produced`: for a flag in
canonical mode, for enough characters in raw mode. `notify` wakes all who sleep, so a sleeper is
its call and a mark whether it has been notified since it last looked.

A reader notifies the writers, and so does a flush. A character with a flag notifies the readers,
and so does the end of a raw `tty_input`. But a character without a flag notifies nobody, and
neither does one that erases or sends a signal, although these two make room. A line that fills the
buffer has no flag yet: its reader and its writer wait for each other. So do a reader and a writer
who was not told that a signal has emptied the buffer.
-/

namespace Ish.Ttys

open Function List Ish.Lib

/-- What a thread sleeps in. -/
inductive Call where
  /-- A turn of `tty_input` that is to store the character, without a flag in raw mode. -/
  | store (ch : UInt8) (flag : Option Bool)
  | readLine (size : ℕ)
  | readChars (size : ℕ) (min : UInt8)
deriving DecidableEq

namespace Call

def isRead : Call → Bool
  | .store _ _ => false
  | _ => true

/-- The loops around `wait_for`. -/
def Waits (t : Tty) : Call → Prop
  | .store _ _ => TTY_BUF_SIZE ≤ t.bufsize
  | .readLine _ => t.ttyCanonSize = none
  | .readChars _ min => t.bufsize < min.toNat

instance (t : Tty) : (c : Call) → Decidable (c.Waits t)
  | .store _ _ => inferInstanceAs (Decidable (_ ≤ _))
  | .readLine _ => inferInstanceAs (Decidable (_ = _))
  | .readChars _ _ => inferInstanceAs (Decidable (_ < _))

/-- What follows the loop. -/
def step : Call → TtyStep
  | .store ch flag => .waited ch flag
  | .readLine size => .read true size
  | .readChars size _ => .read false size

/-- Whom the call notifies then. -/
def notifies : Call → Call → Bool
  | .store _ flag, other => flag == some true && other.isRead
  | _, other => !other.isRead

end Call

/-- A terminal and the threads that sleep in its calls. -/
structure Terminal (τ : Type) where
  tty : Tty
  /-- The call, and whether it was notified since it last looked. -/
  asleep : τ → Option (Call × Bool)

inductive TermStep (τ : Type) where
  /-- A turn of a blocking `tty_input`, with the flags that it has read at its start. -/
  | input (u : τ) (start : Termios) (ch : UInt8)
  /-- A blocking `tty_read`. -/
  | read (u : τ) (size : ℕ)
  /-- A sleeper looks again. -/
  | again (u : τ)
  /-- A sleeper gives up, at a signal or a timeout. -/
  | leave (u : τ)
  /-- The end of a `tty_input` in raw mode. -/
  | inputEnd
  | setTermios (termios : Termios) (flush : Bool)
  | flush
  | setGroup (fgGroup : ℕ)

namespace Terminal

variable {τ : Type}

def notify (asleep : τ → Option (Call × Bool)) (who : Call → Bool) : τ → Option (Call × Bool) :=
  fun u => (asleep u).map fun s => (s.1, s.2 || who s.1)

section Model

variable [DecidableEq τ]

def sleep (σ : Terminal τ) (u : τ) (c : Call) : Terminal τ :=
  { σ with asleep := update σ.asleep u (some (c, false)) }

/-- From the loop of a call on. -/
def look (σ : Terminal τ) (u : τ) (c : Call) : Terminal τ :=
  if c.Waits σ.tty then σ.sleep u c
  else ⟨σ.tty.after c.step, notify (update σ.asleep u none) c.notifies⟩

/-- The character that a turn of `tty_input` stores, with its flag. -/
def stores (t : Tty) (start : Termios) (ch : UInt8) : Option Call :=
  if start.lflags &&& ICANON_ ≠ 0 then
    (t.canonStores start.iflags ch).map fun s => .store s.1 (some s.2)
  else if t.isSignal ch then none else some (.store ch none)

/-- What `tty_read` waits for in the mode of the terminal. -/
def reads (t : Tty) (size : ℕ) : Call :=
  if t.termios.lflags &&& ICANON_ ≠ 0 then .readLine size
  else .readChars size (t.termios.cc VMIN_)

/-- A turn of a blocking `tty_input`. -/
def input (σ : Terminal τ) (u : τ) (start : Termios) (ch : UInt8) : Terminal τ :=
  match stores σ.tty start ch with
  | some c =>
    if c.Waits σ.tty then σ.sleep u c
    else ⟨σ.tty.inputTurn start ch, notify σ.asleep c.notifies⟩
  | none => { σ with tty := σ.tty.inputTurn start ch }

def step (σ : Terminal τ) : TermStep τ → Option (Terminal τ)
  | .input u start ch => if (σ.asleep u).isSome then none else some (σ.input u start ch)
  | .read u size => if (σ.asleep u).isSome then none else some (σ.look u (reads σ.tty size))
  | .again u => (σ.asleep u).map fun s => σ.look u s.1
  | .leave u => some { σ with asleep := update σ.asleep u none }
  | .inputEnd =>
    some { σ with asleep := if 0 < σ.tty.bufsize then notify σ.asleep Call.isRead else σ.asleep }
  | .setTermios termios flush =>
    some ⟨σ.tty.after (.setTermios termios flush),
      if flush then notify σ.asleep (!Call.isRead ·) else σ.asleep⟩
  | .flush => some ⟨σ.tty.after .flush, notify σ.asleep (!Call.isRead ·)⟩
  | .setGroup fgGroup => some { σ with tty := σ.tty.after (.setGroup fgGroup) }

def machine (τ : Type) [DecidableEq τ] : Machine (Terminal τ) (TermStep τ) Unit :=
  ⟨fun σ a => (σ.step a).map fun σ' => (σ', ())⟩

/-- A new terminal. -/
def alloc : Terminal τ := ⟨Tty.alloc, fun _ => none⟩

end Model

end Terminal

/-! ## What is to hold -/

def Tty.Canonical (t : Tty) : Prop := t.termios.lflags &&& ICANON_ ≠ 0

namespace Terminal

variable {τ : Type}

/-- **No mutual wait.** In canonical mode a full buffer holds a line that a read can return, and no
reader and writer are asleep without having been notified. -/
structure Served (σ : Terminal τ) : Prop where
  line : TTY_BUF_SIZE ≤ σ.tty.bufsize → σ.tty.ttyCanonSize ≠ none
  both : ∀ u v c d, σ.asleep u = some (c, false) → σ.asleep v = some (d, false) →
    c.isRead = d.isRead

/-- In canonical mode nobody sleeps for something that is there, without having been notified, and
a full buffer holds a line. -/
structure Awake (σ : Terminal τ) : Prop where
  size : σ.tty.bufsize ≤ TTY_BUF_SIZE
  min : ∀ u size m n, σ.asleep u = some (.readChars size m, n) → 0 < m.toNat
  line : σ.tty.Canonical → TTY_BUF_SIZE ≤ σ.tty.bufsize → σ.tty.ttyCanonSize ≠ none
  waits : σ.tty.Canonical → ∀ u c, σ.asleep u = some (c, false) → c.Waits σ.tty

end Terminal

/-! ## The condition -/

/-- The last place can be taken without a flag. -/
def Tty.Spare (t : Tty) : Prop := t.bufsize + 1 = TTY_BUF_SIZE → t.ttyCanonSize ≠ none

/-- The flag that a character gets: in raw mode the one that is left there. -/
def Tty.flagFor (t : Tty) (flag : Option Bool) : Bool := flag.getD (t.bufFlag t.bufsize)

/-- A reader goes on waiting when a character with the flag is stored. -/
def Call.WaitsOn (t : Tty) (flag : Bool) : Call → Prop
  | .store _ _ => True
  | .readLine _ => flag = false
  | .readChars _ min => t.bufsize + 1 < min.toNat

namespace Terminal

variable {τ : Type}

/-- A call that finds what it waits for. A character without a flag that takes the last place finds
a flag in the buffer; and one that notifies nobody finds no sleeper, not notified, for whom it is
enough. -/
def Fits (σ : Terminal τ) (u : τ) : Call → Prop
  | .store _ flag => σ.tty.bufsize < TTY_BUF_SIZE →
      (σ.tty.flagFor flag = false → σ.tty.Spare) ∧
        (flag ≠ some true → ∀ v c, v ≠ u → σ.asleep v = some (c, false) →
          c.WaitsOn σ.tty (σ.tty.flagFor flag))
  | _ => True

/-- **The condition.** In canonical mode: characters are stored as above, and one that erases or
sends a signal takes nothing off the buffer while a writer sleeps who has not been notified. A
switch to that mode without a flush finds no full buffer without a flag, and nobody asleep for
something that is there, without having been notified. -/
def Serves (σ : Terminal τ) : TermStep τ → Prop
  | .input u start ch => σ.tty.Canonical →
      match stores σ.tty start ch with
      | some c => σ.Fits u c
      | none => ∀ v ch' flag, σ.asleep v = some (.store ch' flag, false) →
          (σ.tty.inputTurn start ch).bufsize = σ.tty.bufsize
  | .again u => σ.tty.Canonical → ∀ s, σ.asleep u = some s → σ.Fits u s.1
  | .setTermios termios flush => termios.lflags &&& ICANON_ ≠ 0 → flush = false →
      (TTY_BUF_SIZE ≤ σ.tty.bufsize → σ.tty.ttyCanonSize ≠ none) ∧
        ∀ u c, σ.asleep u = some (c, false) → c.Waits σ.tty
  | _ => True

end Terminal

/-! ## The buffer -/

namespace Tty

variable {t u : Tty}

theorem ttyCanonSize_eq_none : t.ttyCanonSize = none ↔ ∀ i < t.bufsize, t.bufFlag i = false := by
  simp [ttyCanonSize]

/-- What is taken off the ends of the buffer. -/
structure Shorter (t u : Tty) : Prop where
  termios : u.termios = t.termios
  size : u.bufsize ≤ t.bufsize
  flags : t.ttyCanonSize = none → u.ttyCanonSize = none
  same : u.bufsize = t.bufsize → t.ttyCanonSize ≠ none → u.ttyCanonSize ≠ none

theorem shorter_of_less (hsize : t.bufsize ≤ TTY_BUF_SIZE) (h : Less t u) : Shorter t u := by
  induction h with
  | refl => exact ⟨rfl, le_rfl, id, fun _ => id⟩
  | @cut u n hn _ ih =>
    refine ⟨ih.termios, hn.trans ih.size, fun hnone => ?_, fun hsame => ?_⟩
    · have hflags := ttyCanonSize_eq_none.mp (ih.flags hnone)
      exact ttyCanonSize_eq_none.mpr fun i hi => hflags i (hi.trans_le hn)
    · obtain rfl : n = u.bufsize := hn.antisymm (ih.size.trans hsame.ge)
      exact ih.same hsame
  | @shift u n hn _ ih =>
    have hsub := sizeSub_eq hn (ih.size.trans hsize)
    rw [ttyReadIntoBuf, hsub]
    refine ⟨ih.termios, (Nat.sub_le _ _).trans ih.size, fun hnone => ?_, fun hsame => ?_⟩
    · have hflags := ttyCanonSize_eq_none.mp (ih.flags hnone)
      refine ttyCanonSize_eq_none.mpr fun i hi => ?_
      dsimp only at hi ⊢
      rw [memmove, if_pos hi]
      exact hflags (n + i) (by omega)
    · -- nothing is taken off
      dsimp only at hsame
      obtain rfl : n = 0 := by
        have := ih.size
        have : u.bufsize = 0 ∨ n = 0 := by omega
        omega
      have hkept : memmove u.bufFlag 0 (u.bufsize - 0) = u.bufFlag := by
        funext i
        simp [memmove]
      rw [hkept]
      exact ih.same hsame

/-- A character is stored. -/
theorem after_waited (hroom : t.bufsize < TTY_BUF_SIZE) (ch : UInt8) (flag : Option Bool) :
    (t.after (.waited ch flag)).termios = t.termios ∧
      (t.after (.waited ch flag)).bufsize = t.bufsize + 1 ∧
      ((t.after (.waited ch flag)).ttyCanonSize = none ↔
        t.ttyCanonSize = none ∧ t.flagFor flag = false) := by
  obtain ⟨flags, mark, hafter, hkept, hlast⟩ : ∃ flags mark,
      t.after (.waited ch flag) = t.append ch flags mark ∧
      (∀ i < t.bufsize, flags i = t.bufFlag i) ∧ flags t.bufsize = t.flagFor flag := by
    cases flag with
    | none => exact ⟨t.bufFlag, false, if_neg (not_le.mpr hroom), fun _ _ => rfl, rfl⟩
    | some f =>
      exact ⟨update t.bufFlag t.bufsize f, f, if_neg (not_le.mpr hroom),
        fun i hi => update_of_ne hi.ne .., update_self ..⟩
  rw [hafter]
  refine ⟨rfl, rfl, ?_⟩
  rw [ttyCanonSize_eq_none, ttyCanonSize_eq_none]
  show (∀ i < t.bufsize + 1, flags i = false) ↔ _
  constructor
  · intro hall
    refine ⟨fun i hi => ?_, ?_⟩
    · rw [← hkept i hi]
      exact hall i (Nat.lt_succ_of_lt hi)
    · rw [← hlast]
      exact hall t.bufsize (Nat.lt_succ_self _)
  · rintro ⟨hnone, hflag⟩ i hi
    rcases Nat.lt_succ_iff_lt_or_eq.mp hi with hlt | rfl
    · rw [hkept i hlt]
      exact hnone i hlt
    · rw [hlast]
      exact hflag

end Tty

namespace Terminal

variable {τ : Type} {σ : Terminal τ} {t : Tty}

/-- A turn stores a character, or it takes characters off. -/
theorem stores_cases (hsize : t.bufsize ≤ TTY_BUF_SIZE) (start : Termios) (ch : UInt8) :
    (stores t start ch = none ∧ Tty.Less t (t.inputTurn start ch)) ∨
      ∃ c flag, stores t start ch = some (.store c flag) ∧
        t.inputTurn start ch = t.after (.waited c flag) := by
  unfold stores Tty.inputTurn
  split
  · rcases Tty.canonTurn_cases hsize start.iflags ch with ⟨hnone, hless⟩ | ⟨c, flag, hsome, heq⟩
    · exact .inl ⟨by rw [hnone]; rfl, hless⟩
    · exact .inr ⟨c, some flag, by rw [hsome]; rfl, heq⟩
  · rcases Tty.signal_cases ch (t.rawStore ch) with ⟨hsig, hless⟩ | ⟨hsig, heq⟩
    · exact .inl ⟨if_pos hsig, hless⟩
    · exact .inr ⟨ch, none, if_neg (by simp [hsig]), heq⟩

/-! ## Who is told -/

theorem notify_iff {asleep : τ → Option (Call × Bool)} {who : Call → Bool} {u : τ} {c : Call} :
    notify asleep who u = some (c, false) ↔ asleep u = some (c, false) ∧ who c = false := by
  unfold notify
  cases asleep u with
  | none => simp
  | some s =>
    obtain ⟨d, n⟩ := s
    simp only [Option.map_some, Option.some.injEq, Prod.mk.injEq, Bool.or_eq_false_iff]
    constructor
    · rintro ⟨rfl, rfl, hwho⟩
      exact ⟨⟨rfl, rfl⟩, hwho⟩
    · rintro ⟨⟨rfl, rfl⟩, hwho⟩
      exact ⟨rfl, rfl, hwho⟩

/-- Nobody new sleeps, and nobody forgets that it was notified. -/
def Calmer (before asleep : τ → Option (Call × Bool)) : Prop :=
  ∀ u c n, asleep u = some (c, n) → ∃ n', before u = some (c, n') ∧ (n = false → n' = false)

theorem Calmer.refl (asleep : τ → Option (Call × Bool)) : Calmer asleep asleep :=
  fun _ _ n hu => ⟨n, hu, id⟩

theorem Calmer.notify {before asleep : τ → Option (Call × Bool)} (h : Calmer before asleep)
    (who : Call → Bool) : Calmer before (Terminal.notify asleep who) := by
  intro u c n hu
  obtain ⟨⟨d, m⟩, hs, heq⟩ := Option.map_eq_some_iff.mp hu
  obtain ⟨rfl, rfl⟩ := Prod.mk.inj heq
  obtain ⟨n', hn', hnot⟩ := h u d m hs
  exact ⟨n', hn', fun hfalse => hnot (Bool.or_eq_false_iff.mp hfalse).1⟩

theorem leave_iff [DecidableEq τ] {asleep : τ → Option (Call × Bool)} {u v : τ} {s : Call × Bool} :
    update asleep u none v = some s ↔ v ≠ u ∧ asleep v = some s := by
  by_cases hvu : v = u
  · simp [hvu]
  · simp [hvu, update_of_ne]

theorem calmer_leave [DecidableEq τ] (asleep : τ → Option (Call × Bool)) (u : τ) :
    Calmer asleep (update asleep u none) :=
  fun _ _ n hv => ⟨n, (leave_iff.mp hv).2, id⟩

theorem Awake.min_of_calmer (h : σ.Awake) {asleep : τ → Option (Call × Bool)}
    (hb : Calmer σ.asleep asleep) (u : τ) (size : ℕ) (m : UInt8) (n : Bool)
    (hu : asleep u = some (.readChars size m, n)) : 0 < m.toNat := by
  obtain ⟨n', hn', -⟩ := hb u _ n hu
  exact h.min u size m n' hn'

/-- Sleepers who have not been notified and wait for what is not there are not on both sides of a
full buffer that holds a line. -/
theorem Awake.served (h : σ.Awake) (hcanon : σ.tty.Canonical) : σ.Served := by
  -- the readers are those who sleep before a buffer with room
  have hroom : ∀ {u c}, σ.asleep u = some (c, false) →
      (c.isRead = true ↔ σ.tty.bufsize < TTY_BUF_SIZE) := by
    intro u c hu
    have hwaits := h.waits hcanon u c hu
    cases c with
    | store ch flag => exact iff_of_false Bool.false_ne_true (not_lt.mpr hwaits)
    | readLine size => exact iff_of_true rfl (not_le.mp fun hfull => h.line hcanon hfull hwaits)
    | readChars size m =>
      have hlt := m.toNat_lt
      change _ < m.toNat at hwaits
      refine iff_of_true rfl ?_
      unfold TTY_BUF_SIZE
      omega
  exact ⟨h.line hcanon, fun u v c d hu hv =>
    Bool.eq_iff_iff.mpr ((hroom hu).trans (hroom hv).symm)⟩

/-! ## The steps -/

/-- Characters are taken off: the writers have to be told. -/
theorem awake_shorter (h : σ.Awake) {b : τ → Option (Call × Bool)} (hs : Tty.Shorter σ.tty t)
    (hb : Calmer σ.asleep b) :
    (⟨t, b⟩ : Terminal τ).Awake ↔ (σ.tty.Canonical → ∀ v ch flag,
      b v = some (.store ch flag, false) → t.bufsize = σ.tty.bufsize) := by
  have hmode : t.Canonical ↔ σ.tty.Canonical := by rw [Tty.Canonical, Tty.Canonical, hs.termios]
  constructor
  · intro h' hcanon v ch flag hv
    have hfull : TTY_BUF_SIZE ≤ t.bufsize := h'.waits (hmode.mpr hcanon) v _ hv
    exact hs.size.antisymm (h.size.trans hfull)
  · intro hsame
    refine ⟨hs.size.trans h.size, h.min_of_calmer hb, ?_, ?_⟩
    · intro hcanon hfull
      have heq : t.bufsize = σ.tty.bufsize := hs.size.antisymm (h.size.trans hfull)
      exact hs.same heq (h.line (hmode.mp hcanon) (heq ▸ hfull))
    · intro hcanon v c hv
      obtain ⟨n', hn', hnot⟩ := hb v c false hv
      have hwaits := h.waits (hmode.mp hcanon) v c (hnot rfl ▸ hn')
      cases c with
      | store ch flag =>
        show TTY_BUF_SIZE ≤ t.bufsize
        rw [hsame (hmode.mp hcanon) v ch flag hv]
        exact hwaits
      | readLine size => exact hs.flags hwaits
      | readChars size m => exact hs.size.trans_lt hwaits

/-- A character is stored: the readers have to be told. -/
theorem awake_stored (h : σ.Awake) (hroom : σ.tty.bufsize < TTY_BUF_SIZE)
    {b : τ → Option (Call × Bool)} (hb : Calmer σ.asleep b) (ch : UInt8) (flag : Option Bool) :
    (⟨σ.tty.after (.waited ch flag), notify b (Call.store ch flag).notifies⟩ : Terminal τ).Awake ↔
      (σ.tty.Canonical → (σ.tty.flagFor flag = false → σ.tty.Spare) ∧
        (flag ≠ some true → ∀ v c, b v = some (c, false) →
          c.WaitsOn σ.tty (σ.tty.flagFor flag))) := by
  obtain ⟨htermios, hsize, hnone⟩ := Tty.after_waited hroom ch flag
  generalize σ.tty.after (.waited ch flag) = t at htermios hsize hnone ⊢
  have hmode : t.Canonical ↔ σ.tty.Canonical := by rw [Tty.Canonical, Tty.Canonical, htermios]
  -- who sleeps on is a reader
  have hreader : σ.tty.Canonical → ∀ v c, b v = some (c, false) →
      c.isRead = true ∧ (c.Waits t ↔ c.WaitsOn σ.tty (σ.tty.flagFor flag)) := by
    intro hcanon v c hv
    obtain ⟨n', hn', hnot⟩ := hb v c false hv
    have hwaits := h.waits hcanon v c (hnot rfl ▸ hn')
    cases c with
    | store ch flag => exact absurd hwaits (not_le.mpr hroom)
    | readLine size => exact ⟨rfl, hnone.trans (and_iff_right hwaits)⟩
    | readChars size m =>
      refine ⟨rfl, ?_⟩
      show t.bufsize < m.toNat ↔ _
      rw [hsize]
      rfl
  have htold : ∀ c : Call, c.isRead = true →
      ((Call.store ch flag).notifies c = false ↔ flag ≠ some true) := by
    intro c hc
    simp [Call.notifies, hc]
  constructor
  · intro h' hcanon
    refine ⟨fun hflag hlast hempty => ?_, fun hquiet v c hv => ?_⟩
    · exact h'.line (hmode.mpr hcanon) (by rw [hsize, hlast]) (hnone.mpr ⟨hempty, hflag⟩)
    · obtain ⟨hread, hiff⟩ := hreader hcanon v c hv
      have htold := notify_iff.mpr ⟨hv, (htold c hread).mpr hquiet⟩
      exact hiff.mp (h'.waits (hmode.mpr hcanon) v c htold)
  · intro hfits
    refine ⟨?_, h.min_of_calmer (hb.notify _), ?_, ?_⟩
    · show t.bufsize ≤ _
      rw [hsize]
      exact hroom
    · intro hcanon hfull hempty
      obtain ⟨hnoline, hflag⟩ := hnone.mp hempty
      have hlast : σ.tty.bufsize + 1 = TTY_BUF_SIZE :=
        le_antisymm hroom (hsize ▸ hfull)
      exact (hfits (hmode.mp hcanon)).1 hflag hlast hnoline
    · intro hcanon v c hv
      obtain ⟨hv, hquiet⟩ := notify_iff.mp hv
      obtain ⟨hread, hiff⟩ := hreader (hmode.mp hcanon) v c hv
      exact hiff.mpr ((hfits (hmode.mp hcanon)).2 ((htold c hread).mp hquiet) v c hv)

/-- A flush tells every writer, whatever else becomes of the terminal. -/
theorem awake_flushed (h : σ.Awake) (hempty : t.bufsize = 0) :
    (⟨t, notify σ.asleep (!Call.isRead ·)⟩ : Terminal τ).Awake := by
  have hcalmer := (Calmer.refl σ.asleep).notify (!Call.isRead ·)
  refine ⟨hempty ▸ Nat.zero_le _, h.min_of_calmer hcalmer, ?_, ?_⟩ <;> dsimp only
  · intro _ hfull
    rw [hempty] at hfull
    cases hfull
  · intro _ v c hv
    obtain ⟨hv, hread⟩ := notify_iff.mp hv
    cases c with
    | store ch flag => cases hread
    | readLine size =>
      refine Tty.ttyCanonSize_eq_none.mpr fun i hi => ?_
      rw [hempty] at hi
      cases hi
    | readChars size m =>
      show t.bufsize < m.toNat
      rw [hempty]
      exact h.min v size m false hv

theorem awake_alloc : (alloc : Terminal τ).Awake := by
  refine ⟨Nat.zero_le _, ?_, ?_, ?_⟩
  · intro u size m n hu
    cases hu
  · intro _ hfull
    cases hfull
  · intro _ u c hu
    cases hu

section Steps

variable [DecidableEq τ]

/-- Who goes to sleep waits for what is not there. -/
theorem awake_sleep (h : σ.Awake) (u : τ) {c : Call} (hwaits : c.Waits σ.tty) :
    (σ.sleep u c).Awake := by
  refine ⟨h.size, ?_, h.line, ?_⟩
  · intro v size m n hv
    rcases update_cases hv with ⟨-, heq⟩ | ⟨-, hv⟩
    · cases heq
      exact Nat.zero_lt_of_lt hwaits
    · exact h.min v size m n hv
  · intro hcanon v d hv
    rcases update_cases hv with ⟨-, heq⟩ | ⟨-, hv⟩
    · cases heq
      exact hwaits
    · exact h.waits hcanon v d hv

/-- A call from its loop on. -/
theorem awake_look (h : σ.Awake) (u : τ) (c : Call) :
    (σ.look u c).Awake ↔ (σ.tty.Canonical → σ.Fits u c) := by
  unfold look
  split
  next hwaits =>
    refine iff_of_true (awake_sleep h u hwaits) fun _ => ?_
    cases c with
    | store ch flag => exact fun hroom => absurd hwaits (not_le.mpr hroom)
    | readLine | readChars => trivial
  next hwaits =>
    -- a read tells every writer
    have hread : ∀ canon size, (⟨σ.tty.after (.read canon size),
        notify (update σ.asleep u none) (!Call.isRead ·)⟩ : Terminal τ).Awake := by
      intro canon size
      refine (awake_shorter h (Tty.shorter_of_less h.size (Tty.less_ttyRead canon size))
        ((calmer_leave σ.asleep u).notify _)).mpr fun _ v ch flag hv => ?_
      cases (notify_iff.mp hv).2
    cases c with
    | store ch flag =>
      have hroom := not_le.mp hwaits
      refine (awake_stored h hroom (calmer_leave σ.asleep u) ch flag).trans ?_
      simp only [leave_iff, and_imp, Fits, hroom, forall_const]
    | readLine size => exact iff_of_true (hread true size) fun _ => trivial
    | readChars size m => exact iff_of_true (hread false size) fun _ => trivial

theorem input_eq_look {u : τ} {start : Termios} {ch c : UInt8} {flag : Option Bool}
    (hu : σ.asleep u = none) (hstores : stores σ.tty start ch = some (.store c flag))
    (hturn : σ.tty.inputTurn start ch = σ.tty.after (.waited c flag)) :
    σ.input u start ch = σ.look u (.store c flag) := by
  have hgone : update σ.asleep u none = σ.asleep := by rw [← hu, update_eq_self]
  simp only [input, hstores, hturn, look, hgone]
  rfl

theorem awake_input (h : σ.Awake) {u : τ} (hu : σ.asleep u = none) (start : Termios) (ch : UInt8) :
    (σ.input u start ch).Awake ↔ σ.Serves (.input u start ch) := by
  rcases stores_cases h.size start ch with ⟨hnone, hless⟩ | ⟨c, flag, hstores, hturn⟩
  · simp only [input, Serves, hnone]
    exact awake_shorter h (Tty.shorter_of_less h.size hless) (Calmer.refl _)
  · rw [input_eq_look hu hstores hturn, awake_look h]
    simp only [Serves, hstores]

theorem awake_step {σ' : Terminal τ} (h : σ.Awake) {a : TermStep τ} (hstep : σ.step a = some σ') :
    σ'.Awake ↔ σ.Serves a := by
  -- a step that leaves the buffer as it is
  have hkept : ∀ {t : Tty} {b}, Tty.Shorter σ.tty t → t.bufsize = σ.tty.bufsize →
      Calmer σ.asleep b → (⟨t, b⟩ : Terminal τ).Awake :=
    fun hs hsame hb => (awake_shorter h hs hb).mpr fun _ _ _ _ _ => hsame
  have hsame : Tty.Shorter σ.tty σ.tty := ⟨rfl, le_rfl, id, fun _ => id⟩
  cases a with
  | input u start ch =>
    simp only [step] at hstep
    split at hstep
    · cases hstep
    · next hu =>
      cases hstep
      exact awake_input h (by simpa using hu) start ch
  | read u size =>
    simp only [step] at hstep
    split at hstep
    · cases hstep
    · cases hstep
      refine (awake_look h u _).trans (iff_of_true (fun _ => ?_) trivial)
      unfold reads
      split <;> trivial
  | again u =>
    obtain ⟨s, hs, rfl⟩ := Option.map_eq_some_iff.mp hstep
    refine (awake_look h u s.1).trans ?_
    simp [Serves, hs]
  | leave u =>
    cases hstep
    exact iff_of_true (hkept hsame rfl (calmer_leave σ.asleep u)) trivial
  | inputEnd =>
    cases hstep
    refine iff_of_true (hkept hsame rfl ?_) trivial
    split
    · exact (Calmer.refl _).notify _
    · exact Calmer.refl _
  | setTermios termios flush =>
    cases hstep
    cases flush with
    | false =>
      constructor
      · exact fun h' hmode _ => ⟨h'.line hmode, h'.waits hmode⟩
      · exact fun hserves => ⟨h.size, h.min, fun hmode => (hserves hmode rfl).1,
          fun hmode => (hserves hmode rfl).2⟩
    | true => exact iff_of_true (awake_flushed h rfl) fun _ hflush => by cases hflush
  | flush =>
    cases hstep
    exact iff_of_true (awake_flushed h rfl) trivial
  | setGroup fgGroup =>
    cases hstep
    exact iff_of_true (hkept ⟨rfl, le_rfl, id, fun _ => id⟩ rfl (Calmer.refl _)) trivial

/-- **No mutual wait.** On a terminal from its start on, nobody sleeps for something that is there
without having been notified, and in canonical mode a full buffer holds a line and no reader and
writer sleep at once without having been notified, exactly while the condition holds. -/
theorem no_mutual_wait_iff (steps : List (TermStep τ)) :
    (machine τ).Along (fun σ a => ∀ σ' o, (machine τ).step σ a = some (σ', o) →
        σ'.Awake ∧ (σ'.tty.Canonical → σ'.Served)) alloc steps ↔
      (machine τ).Along (fun σ a => ((machine τ).step σ a).isSome → σ.Serves a) alloc steps := by
  refine Machine.along_inv_iff (I := fun σ : Terminal τ => σ.Awake ∧ (σ.tty.Canonical → σ.Served))
    (fun σ a σ' o h hstep => ?_) ⟨awake_alloc, awake_alloc.served⟩ steps
  obtain ⟨r, hr, heq⟩ := Option.map_eq_some_iff.mp hstep
  cases heq
  exact (and_iff_left_of_imp Awake.served).trans (awake_step h.1 hr)

/-! ## Two mutual waits -/

/-- A terminal as it was allocated, with `n` characters and nobody asleep. -/
structure Typed (n : ℕ) (σ : Terminal τ) : Prop where
  termios : σ.tty.termios = Tty.alloc.termios
  bufsize : σ.tty.bufsize = n
  asleep : σ.asleep = fun _ => none

theorem stores_alloc (h : t.termios = Tty.alloc.termios) (start : Termios) (ch : UInt8) :
    stores t start ch = stores Tty.alloc start ch := by
  cases t
  subst h
  rfl

/-- The character of a signal empties the buffer. -/
theorem inputTurn_intr (h : t.termios = Tty.alloc.termios) (hgroup : t.fgGroup ≠ 0) :
    t.inputTurn Tty.alloc.termios 3 = { t with bufsize := 0 } := by
  have hturn : t.inputTurn Tty.alloc.termios 3 =
      t.ttySendInputSignal 3 (t.ttyPushChar 3 false) := by
    cases t
    subst h
    rfl
  have hsignal : t.isSignal 3 = true := by
    cases t
    subst h
    show Tty.alloc.isSignal 3 = true
    decide +kernel
  rw [hturn, Tty.ttySendInputSignal, if_pos hsignal, if_pos ⟨hgroup, by rw [h]; decide⟩]

theorem machine_input {u : τ} (hu : σ.asleep u = none) (start : Termios) (ch : UInt8) :
    (machine τ).step σ (.input u start ch) = some (σ.input u start ch, ()) := by
  simp [machine, step, hu]

/-- A character is typed by a writer who is awake. -/
theorem Typed.types {n : ℕ} (h : σ.Typed n) (hn : n < TTY_BUF_SIZE) (u : τ) {ch c : UInt8}
    {flag : Option Bool}
    (hstores : stores Tty.alloc Tty.alloc.termios ch = some (.store c flag)) :
    ∃ σ', (machine τ).step σ (.input u Tty.alloc.termios ch) = some (σ', ()) ∧ σ'.Typed (n + 1) ∧
      (σ'.tty.ttyCanonSize = none ↔ σ.tty.ttyCanonSize = none ∧ σ.tty.flagFor flag = false) := by
  have hroom : σ.tty.bufsize < TTY_BUF_SIZE := h.bufsize ▸ hn
  have hu : σ.asleep u = none := by rw [h.asleep]
  obtain ⟨htermios, hsize, hnone⟩ := Tty.after_waited hroom c flag
  rw [← stores_alloc h.termios] at hstores
  rcases stores_cases hroom.le Tty.alloc.termios ch with ⟨hno, -⟩ | ⟨c', flag', hsome, hturn⟩
  · cases hstores.symm.trans hno
  cases hstores.symm.trans hsome
  refine ⟨⟨σ.tty.after (.waited c flag), fun _ => none⟩, ?_,
    ⟨htermios.trans h.termios, by rw [hsize, h.bufsize], rfl⟩, hnone⟩
  have hlook : σ.look u (.store c flag) = ⟨σ.tty.after (.waited c flag), fun _ => none⟩ := by
    have hwaits : ¬ (Call.store c flag).Waits σ.tty := not_le.mpr hroom
    rw [look, if_neg hwaits, h.asleep]
    congr 1
    funext v
    simp [notify, update_apply]
  rw [machine_input hu, input_eq_look hu hsome hturn, hlook]

/-- Letters are typed. -/
theorem Typed.letters (k : ℕ) {n : ℕ} (h : σ.Typed n) (hn : n + k ≤ TTY_BUF_SIZE) (u : τ)
    (hnone : σ.tty.ttyCanonSize = none) :
    ∃ σ' os, (machine τ).run σ (replicate k (.input u Tty.alloc.termios 97)) = some (σ', os) ∧
      σ'.Typed (n + k) ∧ σ'.tty.ttyCanonSize = none := by
  induction k generalizing n σ with
  | zero => exact ⟨σ, [], rfl, h, hnone⟩
  | succ k ih =>
    have hletter : stores Tty.alloc Tty.alloc.termios 97 = some (.store 97 (some false)) := by
      decide +kernel
    obtain ⟨σ₁, hstep, h₁, hcanon⟩ := h.types (by omega) u hletter
    obtain ⟨σ', os, hrun, h', hnone'⟩ := ih h₁ (by omega) (hcanon.mpr ⟨hnone, rfl⟩)
    exact ⟨σ', () :: os, Machine.run_cons hstep hrun, by rwa [Nat.add_right_comm] at h', hnone'⟩

/-- A writer finds no room. -/
theorem Typed.waits (h : σ.Typed TTY_BUF_SIZE) (u : τ) {ch c : UInt8} {flag : Option Bool}
    (hstores : stores Tty.alloc Tty.alloc.termios ch = some (.store c flag)) :
    (machine τ).step σ (.input u Tty.alloc.termios ch) = some (σ.sleep u (.store c flag), ()) := by
  have hu : σ.asleep u = none := by rw [h.asleep]
  have hfull : (Call.store c flag).Waits σ.tty := h.bufsize.ge
  rw [← stores_alloc h.termios] at hstores
  rw [machine_input hu, input, hstores]
  dsimp only
  rw [if_pos hfull]

/-- A reader finds no line. -/
theorem read_waits (hmode : σ.tty.Canonical) (hnone : σ.tty.ttyCanonSize = none) {u : τ}
    (hu : σ.asleep u = none) (size : ℕ) :
    (machine τ).step σ (.read u size) = some (σ.sleep u (.readLine size), ()) := by
  have hwaits : (Call.readLine size).Waits σ.tty := hnone
  have hreads : reads σ.tty size = .readLine size := if_pos hmode
  simp [machine, step, hu, hreads, look, hwaits]

theorem signal_empties (hmode : σ.tty.termios = Tty.alloc.termios) (hgroup : σ.tty.fgGroup ≠ 0)
    {u : τ} (hu : σ.asleep u = none) :
    (machine τ).step σ (.input u Tty.alloc.termios 3) =
      some ({ σ with tty := { σ.tty with bufsize := 0 } }, ()) := by
  have hstores : stores σ.tty Tty.alloc.termios 3 = none := by
    rw [stores_alloc hmode]
    decide +kernel
  rw [machine_input hu, input, hstores, inputTurn_intr hmode hgroup]

end Steps

/-- The buffer is filled with letters, its writer waits with the line feed and a reader waits for
the line feed. Or a line fills the buffer, a writer waits with the next letter, a signal empties
the buffer and a reader waits. -/
theorem mutual_waits :
    (∃ (σ : Terminal ℕ) (os : List Unit), (machine ℕ).run alloc
        (replicate 4096 (TermStep.input 0 Tty.alloc.termios 97) ++
        ([.input 0 Tty.alloc.termios 10, .read 1 8] : List (TermStep ℕ))) = some (σ, os) ∧
      σ.tty.Canonical ∧ σ.tty.bufsize = 4096 ∧
      σ.asleep 0 = some (.store 10 (some true), false) ∧
      σ.asleep 1 = some (.readLine 8, false)) ∧
    ∃ (σ : Terminal ℕ) (os : List Unit), (machine ℕ).run alloc
        (replicate 4095 (TermStep.input 0 Tty.alloc.termios 97) ++
        ([.input 0 Tty.alloc.termios 10, .input 0 Tty.alloc.termios 97, .setGroup 1,
          .input 2 Tty.alloc.termios 3, .read 1 8] : List (TermStep ℕ))) = some (σ, os) ∧
      σ.tty.Canonical ∧ σ.tty.bufsize = 0 ∧
      σ.asleep 0 = some (.store 97 (some false), false) ∧
      σ.asleep 1 = some (.readLine 8, false) := by
  have hstart : (alloc : Terminal ℕ).Typed 0 := ⟨rfl, rfl, rfl⟩
  have hmode : Tty.alloc.Canonical := by
    unfold Tty.Canonical
    decide
  have hletter : stores Tty.alloc Tty.alloc.termios 97 = some (.store 97 (some false)) := by
    decide +kernel
  have hfeed : stores Tty.alloc Tty.alloc.termios 10 = some (.store 10 (some true)) := by
    decide +kernel
  constructor
  · obtain ⟨σ, os, hrun, h, hnone⟩ := hstart.letters 4096 le_rfl 0 rfl
    generalize replicate 4096 _ = letters at hrun ⊢
    have hcanon : σ.tty.Canonical := by rwa [Tty.Canonical, h.termios]
    have hread := read_waits (σ := σ.sleep 0 (.store 10 (some true))) (u := 1) hcanon hnone
      (by rw [sleep, h.asleep]; rfl) 8
    exact ⟨_, _, Machine.run_append hrun (Machine.run_cons (h.waits 0 hfeed)
      (Machine.run_cons hread rfl)), hcanon, h.bufsize, rfl, rfl⟩
  · obtain ⟨σ, os, hrun, h, hnone⟩ := hstart.letters 4095 (by decide) 0 rfl
    generalize replicate 4095 _ = letters at hrun ⊢
    obtain ⟨σ₁, hline, h₁, -⟩ := h.types (by decide) 0 hfeed
    have hcanon : σ₁.tty.Canonical := by rwa [Tty.Canonical, h₁.termios]
    let σ₂ : Terminal ℕ := { σ₁.sleep 0 (.store 97 (some false)) with
      tty := σ₁.tty.after (.setGroup 1) }
    have hawake : ∀ u, u ≠ 0 → σ₂.asleep u = none := by
      intro u hu
      show update σ₁.asleep 0 _ u = none
      rw [update_of_ne hu, h₁.asleep]
    have hsignal := signal_empties (σ := σ₂) (u := 2) h₁.termios one_ne_zero (hawake 2 (by decide))
    have hread := read_waits (σ := { σ₂ with tty := { σ₂.tty with bufsize := 0 } }) (u := 1) hcanon
      rfl (hawake 1 (by decide)) 8
    exact ⟨_, _, Machine.run_append hrun (Machine.run_cons hline
      (Machine.run_cons (h₁.waits 0 hletter) (Machine.run_cons rfl
        (Machine.run_cons hsignal (Machine.run_cons hread rfl))))), hcanon, rfl, rfl, rfl⟩

end Terminal

end Ish.Ttys
