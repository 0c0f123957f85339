import Ish.Lib.Machine

set_option autoImplicit false

/-! # The input of a terminal

`tty_input` (`fs/tty.c`) stores characters in `buf`. In canonical mode `tty_push_char` also stores a
flag in `buf_flag`, which is true for the end of a line or of the file, and a read shifts both
arrays. The lock is given up while there is no room, so a step is one turn of the loop of
`tty_input`. What is echoed and whom the signals are sent to is left out.

In raw mode no flag is stored, and a character gets the one that is left from canonical mode.
-/

namespace Ish.Ttys

open Function List Ish.Lib

def TTY_BUF_SIZE : ℕ := 4096

def VINTR_ : ℕ := 0
def VQUIT_ : ℕ := 1
def VERASE_ : ℕ := 2
def VKILL_ : ℕ := 3
def VEOF_ : ℕ := 4
def VMIN_ : ℕ := 6
def VSUSP_ : ℕ := 10
def VEOL_ : ℕ := 11
def ISIG_ : BitVec 32 := 1#32
def ICANON_ : BitVec 32 := 2#32
def NOFLSH_ : BitVec 32 := 128#32
def INLCR_ : BitVec 32 := 64#32
def IGNCR_ : BitVec 32 := 128#32
def ICRNL_ : BitVec 32 := 256#32

structure Termios where
  iflags : BitVec 32
  lflags : BitVec 32
  cc : ℕ → UInt8

structure Tty where
  termios : Termios
  fgGroup : ℕ
  buf : ℕ → UInt8
  bufFlag : ℕ → Bool
  bufsize : ℕ
  /-- The places that were stored as the end of a line or of the file. -/
  marks : ℕ → Bool

/-- The difference of two values of type `size_t`. -/
def sizeSub (a b : ℕ) : ℕ := (a + 2 ^ 64 - b) % 2 ^ 64

def memmove {α : Type} (a : ℕ → α) (k n : ℕ) : ℕ → α := fun i => if i < n then a (k + i) else a i

namespace Tty

/-- The character is the one that `cc` has for `i`. A `char` is signed, and `cc` is not. -/
def isCc (t : Tty) (i : ℕ) (ch : UInt8) : Bool := ch < 128 && ch == t.termios.cc i

def append (t : Tty) (ch : UInt8) (flags : ℕ → Bool) (mark : Bool) : Tty :=
  { t with
    buf := update t.buf t.bufsize ch
    bufFlag := flags
    bufsize := t.bufsize + 1
    marks := update t.marks t.bufsize mark }

/-- `tty_push_char`, which waits or fails if there is no room. -/
def ttyPushChar (t : Tty) (ch : UInt8) (flag : Bool) : Tty :=
  if TTY_BUF_SIZE ≤ t.bufsize then t else t.append ch (update t.bufFlag t.bufsize flag) flag

/-- The end of a turn in raw mode. -/
def rawStore (t : Tty) (ch : UInt8) : Tty :=
  if TTY_BUF_SIZE ≤ t.bufsize then t else t.append ch t.bufFlag false

def isSignal (t : Tty) (ch : UInt8) : Bool :=
  t.termios.lflags &&& ISIG_ ≠ 0 && ch ≠ 0 &&
    (t.isCc VINTR_ ch || t.isCc VQUIT_ ch || t.isCc VSUSP_ ch)

/-- `tty_send_input_signal`, or else what is done with the character. -/
def ttySendInputSignal (t : Tty) (ch : UInt8) (other : Tty) : Tty :=
  if t.isSignal ch then
    if t.fgGroup ≠ 0 ∧ t.termios.lflags &&& NOFLSH_ = 0 then { t with bufsize := 0 } else t
  else other

/-- The loop of erase and kill, which does not delete past a flag. -/
def erase : ℕ → Tty → Tty
  | 0, t => t
  | n + 1, t =>
    if t.bufFlag (sizeSub t.bufsize 1) then t
    else erase n { t with bufsize := sizeSub t.bufsize 1 }

def mapChar (iflags : BitVec 32) (ch : UInt8) : UInt8 :=
  if iflags &&& INLCR_ ≠ 0 ∧ ch = 10 then 13
  else if iflags &&& ICRNL_ ≠ 0 ∧ ch = 13 then 10 else ch

def canonTurn (iflags : BitVec 32) (t : Tty) (ch : UInt8) : Tty :=
  let ch := mapChar iflags ch
  if iflags &&& IGNCR_ ≠ 0 ∧ ch = 13 then t
  else if ch = 0 then t.ttyPushChar ch false
  else if t.isCc VERASE_ ch ∨ t.isCc VKILL_ ch then
    erase (if t.isCc VERASE_ ch ∧ 0 < t.bufsize then 1 else t.bufsize) t
  else if t.isCc VEOF_ ch then t.ttyPushChar 0 true
  else if ch = 10 ∨ t.isCc VEOL_ ch then t.ttyPushChar ch true
  else t.ttySendInputSignal ch (t.ttyPushChar ch false)

/-- A turn of `tty_input`, with the flags that it has read at its start. -/
def inputTurn (start : Termios) (t : Tty) (ch : UInt8) : Tty :=
  if start.lflags &&& ICANON_ ≠ 0 then t.canonTurn start.iflags ch
  else t.ttySendInputSignal ch (t.rawStore ch)

def ttyReadIntoBuf (t : Tty) (n : ℕ) : Tty :=
  let left := sizeSub t.bufsize n
  { t with
    buf := memmove t.buf n left
    bufFlag := memmove t.bufFlag n left
    bufsize := left
    marks := memmove t.marks n left }

def ttyCanonSize (t : Tty) : Option ℕ := ((range t.bufsize).find? t.bufFlag).map (· + 1)

/-- The end of `tty_read`, which also removes the mark for the end of the file. -/
def take (t : Tty) (n : ℕ) : Tty :=
  let t := t.ttyReadIntoBuf (min n t.bufsize)
  if 0 < t.bufsize ∧ t.buf 0 = 0 ∧ t.bufFlag 0 = true then t.ttyReadIntoBuf 1 else t

/-- `tty_read` after a wait; in canonical mode it goes on waiting, or fails, without a flag. -/
def ttyRead (t : Tty) (canon : Bool) (size : ℕ) : Tty :=
  if canon then
    match t.ttyCanonSize with
    | none => t
    | some n => t.take (min size (if t.buf (n - 1) = 0 then n - 1 else n))
  else t.take size

end Tty

inductive TtyStep where
  | input (start : Termios) (ch : UInt8)
  /-- The end of a turn that has waited for room, without a flag in raw mode. -/
  | waited (ch : UInt8) (flag : Option Bool)
  | read (canon : Bool) (size : ℕ)
  /-- `TCSETSF_`, or `TCSETS_` and `TCSETSW_`. -/
  | setTermios (termios : Termios) (flush : Bool)
  /-- `TCFLSH_` for the input. -/
  | flush
  | setGroup (fgGroup : ℕ)

namespace Tty

def after (t : Tty) : TtyStep → Tty
  | .input start ch => t.inputTurn start ch
  | .waited ch (some flag) => t.ttyPushChar ch flag
  | .waited ch none => t.rawStore ch
  | .read canon size => t.ttyRead canon size
  | .setTermios termios flush =>
    { t with termios := termios, bufsize := if flush then 0 else t.bufsize }
  | .flush => { t with bufsize := 0 }
  | .setGroup fgGroup => { t with fgGroup := fgGroup }

/-- **What the flags are for.** -/
structure Right (t : Tty) : Prop where
  size : t.bufsize ≤ TTY_BUF_SIZE
  flag : ∀ i < t.bufsize, t.bufFlag i = t.marks i

/-- No flag is left at the place of the next character. -/
def Unflagged (t : Tty) : Prop := t.bufsize < TTY_BUF_SIZE → t.bufFlag t.bufsize = false

end Tty

/-- **The condition.** A character that is stored in raw mode finds no flag. -/
def TtyStep.Keeps (t : Tty) : TtyStep → Prop
  | .input start ch => start.lflags &&& ICANON_ = 0 → t.isSignal ch = false → t.Unflagged
  | .waited _ none => t.Unflagged
  | _ => True

def ttyMachine : Machine Tty TtyStep Unit := ⟨fun t a => some (t.after a, ())⟩

/-- `tty_alloc`. -/
def Tty.alloc : Tty :=
  { termios :=
      { iflags := 0x500#32
        lflags := 0x827b#32
        cc := fun i => [3, 28, 127, 21, 4, 0, 1, 0, 17, 19, 26, 0, 18, 15, 23, 22].getD i 0 }
    fgGroup := 0
    buf := fun _ => 0
    bufFlag := fun _ => false
    bufsize := 0
    marks := fun _ => false }

/-! ## What a step can do

A step that stores nothing takes characters off an end of the buffer. -/

theorem sizeSub_eq {a b : ℕ} (hb : b ≤ a) (ha : a ≤ TTY_BUF_SIZE) : sizeSub a b = a - b := by
  unfold sizeSub
  unfold TTY_BUF_SIZE at ha
  omega

namespace Tty

inductive Less (t : Tty) : Tty → Prop
  | refl : Less t t
  | cut {u : Tty} (n : ℕ) (hn : n ≤ u.bufsize) (h : Less t u) : Less t { u with bufsize := n }
  | shift {u : Tty} (n : ℕ) (hn : n ≤ u.bufsize) (h : Less t u) : Less t (u.ttyReadIntoBuf n)

variable {t : Tty}

/-- Erasing counts down from at most the size. -/
theorem Less.erase {n : ℕ} {u : Tty} (hn : n ≤ u.bufsize) (hu : u.bufsize ≤ TTY_BUF_SIZE)
    (h : Less t u) : Less t (.erase n u) := by
  induction n generalizing u with
  | zero => exact h
  | succ n ih =>
    unfold Tty.erase
    rw [sizeSub_eq (by omega) hu]
    split
    · exact h
    · exact ih (Nat.le_sub_of_add_le hn) ((Nat.sub_le _ _).trans hu) (h.cut _ (Nat.sub_le _ _))

theorem less_take (n : ℕ) : Less t (t.take n) := by
  have hread := Less.refl.shift _ (Nat.min_le_right n t.bufsize)
  unfold take
  dsimp only
  split
  · next hmore => exact hread.shift 1 hmore.1
  · exact hread

theorem less_ttyRead (canon : Bool) (size : ℕ) : Less t (t.ttyRead canon size) := by
  unfold ttyRead
  split
  · split
    · exact .refl
    · exact less_take _
  · exact less_take size

theorem signal_cases (ch : UInt8) (other : Tty) :
    t.isSignal ch = true ∧ Less t (t.ttySendInputSignal ch other) ∨
      t.isSignal ch = false ∧ t.ttySendInputSignal ch other = other := by
  unfold ttySendInputSignal
  split
  · next hsig =>
    refine .inl ⟨hsig, ?_⟩
    split
    · exact .cut 0 (Nat.zero_le _) .refl
    · exact .refl
  · next hnot => exact .inr ⟨Bool.eq_false_iff.mpr hnot, rfl⟩

/-- The character that a turn in canonical mode stores, and its flag. -/
def canonStores (t : Tty) (iflags : BitVec 32) (ch : UInt8) : Option (UInt8 × Bool) :=
  let ch := mapChar iflags ch
  if iflags &&& IGNCR_ ≠ 0 ∧ ch = 13 then none
  else if ch = 0 then some (ch, false)
  else if t.isCc VERASE_ ch ∨ t.isCc VKILL_ ch then none
  else if t.isCc VEOF_ ch then some (0, true)
  else if ch = 10 ∨ t.isCc VEOL_ ch then some (ch, true)
  else if t.isSignal ch then none else some (ch, false)

theorem canonTurn_cases (hsize : t.bufsize ≤ TTY_BUF_SIZE) (iflags : BitVec 32) (ch : UInt8) :
    t.canonStores iflags ch = none ∧ Less t (canonTurn iflags t ch) ∨
      ∃ c flag, t.canonStores iflags ch = some (c, flag) ∧
        canonTurn iflags t ch = t.ttyPushChar c flag := by
  unfold canonStores canonTurn
  dsimp only
  generalize mapChar iflags ch = c
  split
  · exact .inl ⟨rfl, .refl⟩
  split
  · exact .inr ⟨c, false, rfl, rfl⟩
  split
  · refine .inl ⟨rfl, .erase ?_ hsize .refl⟩
    split
    · next hone => exact hone.2
    · exact le_rfl
  split
  · exact .inr ⟨0, true, rfl, rfl⟩
  split
  · exact .inr ⟨c, true, rfl, rfl⟩
  rcases signal_cases c (t.ttyPushChar c false) with ⟨hsig, hless⟩ | ⟨hsig, heq⟩
  · exact .inl ⟨if_pos hsig, hless⟩
  · exact .inr ⟨c, false, if_neg (by simp [hsig]), heq⟩

/-! ## The flags -/

theorem Right.of_less {u : Tty} (h : t.Right) (hless : Less t u) : u.Right := by
  induction hless with
  | refl => exact h
  | cut n hn _ ih => exact ⟨hn.trans ih.size, fun i hi => ih.flag i (hi.trans_le hn)⟩
  | shift n hn _ ih =>
    -- Both arrays are shifted by the same number of places.
    unfold ttyReadIntoBuf
    rw [sizeSub_eq hn ih.size]
    refine ⟨(Nat.sub_le _ _).trans ih.size, fun i hi => ?_⟩
    dsimp only at hi ⊢
    unfold memmove
    rw [if_pos hi, if_pos hi]
    exact ih.flag (n + i) (by omega)

variable (h : t.Right)

include h

theorem Right.append_iff (hroom : t.bufsize < TTY_BUF_SIZE) (ch : UInt8) {flags : ℕ → Bool}
    (hkept : ∀ i < t.bufsize, flags i = t.bufFlag i) (mark : Bool) :
    (t.append ch flags mark).Right ↔ flags t.bufsize = mark := by
  have hmark : update t.marks t.bufsize mark t.bufsize = mark := update_self ..
  constructor
  · intro h'
    exact (h'.flag t.bufsize (Nat.lt_succ_self _)).trans hmark
  intro hlast
  refine ⟨hroom, fun i hi => ?_⟩
  rcases Nat.lt_succ_iff_lt_or_eq.mp hi with hlt | rfl
  · exact ((hkept i hlt).trans (h.flag i hlt)).trans (update_of_ne hlt.ne ..).symm
  · exact hlast.trans hmark.symm

theorem Right.ttyPushChar (ch : UInt8) (flag : Bool) : (t.ttyPushChar ch flag).Right := by
  unfold Tty.ttyPushChar
  split
  · exact h
  next hroom =>
  exact (h.append_iff (not_le.mp hroom) ch (fun i hi => update_of_ne hi.ne ..) flag).mpr
    (update_self ..)

theorem Right.rawStore_iff (ch : UInt8) : (t.rawStore ch).Right ↔ t.Unflagged := by
  unfold rawStore
  split
  · next hfull => exact iff_of_true h fun hroom => absurd hroom (not_lt.mpr hfull)
  next hroom =>
  rw [h.append_iff (not_le.mp hroom) ch (fun _ _ => rfl) false]
  exact ⟨fun hlast _ => hlast, fun hlast => hlast (not_le.mp hroom)⟩

/-- **One step** keeps the flags right exactly if it meets the condition. -/
theorem Right.after_iff (a : TtyStep) : (t.after a).Right ↔ a.Keeps t := by
  cases a with
  | input start ch =>
    show (t.inputTurn start ch).Right ↔ (start.lflags &&& ICANON_ = 0 → _)
    unfold inputTurn
    split
    · next hcanon =>
      refine iff_of_true ?_ fun hraw => absurd hraw hcanon
      rcases canonTurn_cases h.size start.iflags ch with ⟨-, hless⟩ | ⟨c, flag, -, heq⟩
      · exact h.of_less hless
      · exact heq ▸ h.ttyPushChar c flag
    next hraw =>
    rw [forall_prop_of_true (not_not.mp hraw)]
    rcases signal_cases ch (t.rawStore ch) with ⟨hsig, hless⟩ | ⟨hsig, heq⟩
    · exact iff_of_true (h.of_less hless) fun hnot => absurd hsig (by simp [hnot])
    · rw [heq, h.rawStore_iff, forall_prop_of_true hsig]
  | waited ch flag =>
    cases flag with
    | none => exact h.rawStore_iff ch
    | some flag => exact iff_of_true (h.ttyPushChar ch flag) trivial
  | read canon size => exact iff_of_true (h.of_less (less_ttyRead canon size)) trivial
  | setTermios termios flush =>
    have hcut := h.of_less (.cut (if flush then 0 else t.bufsize) (by split <;> omega) .refl)
    exact iff_of_true ⟨hcut.size, hcut.flag⟩ trivial
  | flush => exact iff_of_true (h.of_less (.cut 0 (Nat.zero_le _) .refl)) trivial
  | setGroup fgGroup => exact iff_of_true ⟨h.size, h.flag⟩ trivial

omit h

end Tty

/-- **The flags and the size.** In every sequence of input, reads, flushes and mode switches, the
flags are those of the line ends and the size is in bounds exactly if all steps meet the
condition. -/
theorem flags_right_iff (as : List TtyStep) :
    ttyMachine.Along (fun t a => ∀ t' o, ttyMachine.step t a = some (t', o) → t'.Right)
        Tty.alloc as ↔
      ttyMachine.Along (fun t a => (ttyMachine.step t a).isSome → a.Keeps t) Tty.alloc as := by
  refine Machine.along_inv_iff (fun t a t' o ht hstep => ?_) ⟨Nat.zero_le _, fun _ _ => rfl⟩ as
  cases hstep
  exact ht.after_iff a

/-- A line is read, the terminal is made raw, and the second character has the flag of the line end
that was there before. -/
theorem flags_wrong :
    ∃ t os, ttyMachine.run Tty.alloc
        [.input Tty.alloc.termios 97, .input Tty.alloc.termios 10, .read true 2,
          .setTermios { Tty.alloc.termios with lflags := 0#32 } false,
          .input { Tty.alloc.termios with lflags := 0#32 } 120,
          .input { Tty.alloc.termios with lflags := 0#32 } 121] = some (t, os) ∧
      t.bufsize = 2 ∧ t.buf 1 = 121 ∧ t.bufFlag 1 = true ∧ t.marks 1 = false :=
  ⟨_, _, rfl, by decide +kernel, by decide +kernel, by decide +kernel, by decide +kernel⟩

end Ish.Ttys
