import Ish.Float80.Basic
import Ish.Signal.Frame

set_option autoImplicit false

/-! # The flags and their readers

The flags of the processor (`emu/cpu.h`) are in several places. `CF` and `OF` are in bytes of their
own, and `ZF`, `SF`, `PF` and `AF` are either in their bits of `eflags` or computed from the last
result, as `flags_res` says. The macros look at the right place. The conditional moves of
`emu/fpu.c` and the registers of `ptrace` (`kernel/ptrace.c`) do not use them: they read and write
`eflags` alone, without `collapse_flags` before a read and `expand_flags` after a write.
-/

namespace Ish.Cpu

open Ish.Float80 (F80)

open Ish.Signal (Word CpuState lowParity setBit getLsbD_setBit collapseFlags)

/-! ## What the macros say and what a word says -/

/-- The bits of the word are the values that the macros give. -/
structure Reports (cpu : CpuState) (w : Word) : Prop where
  cf : w.getLsbD 0 = (cpu.CF != 0)
  pf : w.getLsbD 2 = cpu.PF
  af : w.getLsbD 4 = cpu.AF
  zf : w.getLsbD 6 = cpu.ZF
  sf : w.getLsbD 7 = cpu.SF
  of : w.getLsbD 11 = (cpu.OF != 0)

/-- The word has the two flags that are in bytes, and those that are computed from a result. -/
structure Fits (cpu : CpuState) (w : Word) : Prop where
  cf : w.getLsbD 0 = (cpu.cf != 0)
  pf : cpu.pfRes = true → w.getLsbD 2 = !lowParity cpu.res
  af : cpu.afOps = true → w.getLsbD 4 = (cpu.op1 ^^^ cpu.op2 ^^^ cpu.res).getLsbD 4
  zf : cpu.zfRes = true → w.getLsbD 6 = (cpu.res == 0)
  sf : cpu.sfRes = true → w.getLsbD 7 = cpu.res.msb
  of : w.getLsbD 11 = (cpu.of != 0)

/-- A flag that is read from its bit unless it is lazy. -/
theorem eq_lazy_iff {lazy bit computed : Bool} :
    bit = (if lazy then computed else bit) ↔ (lazy = true → bit = computed) := by
  cases lazy with
  | false => simp
  | true => simp

/-- **A word in `eflags`.** The macros give its bits when it fits what is not in `eflags`. -/
theorem reports_iff_fits (cpu : CpuState) (w : Word) :
    Reports { cpu with eflags := w } w ↔ Fits cpu w := by
  constructor
  · intro h
    exact ⟨h.cf, eq_lazy_iff.mp h.pf, eq_lazy_iff.mp h.af, eq_lazy_iff.mp h.zf,
      eq_lazy_iff.mp h.sf, h.of⟩
  intro h
  exact ⟨h.cf, eq_lazy_iff.mpr h.pf, eq_lazy_iff.mpr h.af, eq_lazy_iff.mpr h.zf,
    eq_lazy_iff.mpr h.sf, h.of⟩

/-! ## Conditional moves -/

/-- The register stack: `top` and the eight registers. -/
structure Fpu where
  top : Nat
  fp : Nat → F80

namespace Fpu

/-- `ST(0) = ST(i)`. -/
def move (fpu : Fpu) (i : Nat) : Fpu :=
  { fpu with fp := Function.update fpu.fp ((fpu.top + 0) % 8) (fpu.fp ((fpu.top + i) % 8)) }

end Fpu

inductive Cc where
  | b
  | e
  | be
  | u
  | nb
  | ne
  | nbe
  | nu
deriving DecidableEq

/-- The conditions that the functions test. -/
def Cc.tests (cpu : CpuState) : Cc → Bool
  | b => cpu.cf != 0
  | e => cpu.eflags.getLsbD 6
  | be => cpu.cf != 0 || cpu.eflags.getLsbD 6
  | u => cpu.eflags.getLsbD 2
  | nb => !(cpu.cf != 0)
  | ne => !cpu.eflags.getLsbD 6
  | nbe => !(cpu.cf != 0 || cpu.eflags.getLsbD 6)
  | nu => !cpu.eflags.getLsbD 2

/-- What the conditions are, of the values that the macros give. -/
def Cc.holds (cpu : CpuState) : Cc → Bool
  | b => cpu.CF != 0
  | e => cpu.ZF
  | be => cpu.CF != 0 || cpu.ZF
  | u => cpu.PF
  | nb => !(cpu.CF != 0)
  | ne => !cpu.ZF
  | nbe => !(cpu.CF != 0 || cpu.ZF)
  | nu => !cpu.PF

/-- The functions that `FCMOVcc` defines. -/
def fpuCmov (cc : Cc) (cpu : CpuState) (fpu : Fpu) (i : Nat) : Fpu :=
  if cc.tests cpu then fpu.move i else fpu

/-- The bits that the condition is read from are right. -/
def CmovFits (cpu : CpuState) : Cc → Prop
  | .b | .nb => True
  | .e | .ne => cpu.zfRes = true → cpu.eflags.getLsbD 6 = (cpu.res == 0)
  | .be | .nbe => cpu.cf = 0 → cpu.zfRes = true → cpu.eflags.getLsbD 6 = (cpu.res == 0)
  | .u | .nu => cpu.pfRes = true → cpu.eflags.getLsbD 2 = !lowParity cpu.res

theorem tests_eq_holds_iff (cpu : CpuState) (cc : Cc) :
    cc.tests cpu = cc.holds cpu ↔ CmovFits cpu cc := by
  have hnot : ∀ a b : Bool, (!a) = (!b) ↔ a = b := by decide
  have hor : (cpu.cf != 0 || cpu.eflags.getLsbD 6) = (cpu.CF != 0 || cpu.ZF) ↔
      CmovFits cpu .be := by
    by_cases hcf : cpu.cf = 0
    · simp only [CpuState.CF, hcf, bne_self_eq_false, Bool.false_or, CmovFits, true_implies]
      exact eq_lazy_iff
    have hne : (cpu.cf != 0) = true := by simpa using hcf
    refine iff_of_true ?_ (fun h => absurd h hcf)
    simp only [CpuState.CF, hne, Bool.true_or]
  cases cc with
  | b | nb => exact iff_of_true rfl trivial
  | e => exact eq_lazy_iff
  | ne | nu => exact (hnot _ _).trans eq_lazy_iff
  | be => exact hor
  | nbe => exact (hnot _ _).trans hor
  | u => exact eq_lazy_iff

/-- Two numbers that are told apart. -/
def zeroOne : Nat → F80 := fun i => if i = 0 then Float80.pack 0 0 false else Float80.F80_NAN

/-- The stack tells whether there was a move. -/
theorem fpuCmov_iff (cpu : CpuState) (cc : Cc) :
    (∀ fpu i, fpuCmov cc cpu fpu i = if cc.holds cpu then fpu.move i else fpu) ↔
      CmovFits cpu cc := by
  rw [← tests_eq_holds_iff]
  constructor
  · intro h
    have hmove := h ⟨0, zeroOne⟩ 1
    have hne : Fpu.move ⟨0, zeroOne⟩ 1 ≠ ⟨0, zeroOne⟩ := by
      intro heq
      have hzero := congrFun (congrArg Fpu.fp heq) 0
      revert hzero
      decide
    unfold fpuCmov at hmove
    cases htests : cc.tests cpu with
    | false =>
      cases hholds : cc.holds cpu with
      | false => rfl
      | true =>
        simp only [htests, hholds, if_true] at hmove
        exact absurd hmove.symm hne
    | true =>
      cases hholds : cc.holds cpu with
      | false =>
        simp only [htests, hholds, if_true] at hmove
        exact absurd hmove hne
      | true => rfl
  · intro h fpu i
    unfold fpuCmov
    rw [h]

/-! ## The registers of `ptrace` -/

/-- `struct user_regs_struct_`. -/
structure UserRegs where
  ebx : Word
  ecx : Word
  edx : Word
  esi : Word
  edi : Word
  ebp : Word
  eax : Word
  xds : Word
  xes : Word
  xfs : Word
  xgs : Word
  origEax : Word
  eip : Word
  xcs : Word
  eflags : Word
  esp : Word
  xss : Word

namespace UserRegs

/-- The structure in memory. -/
def words (regs : UserRegs) : List Word :=
  [regs.ebx, regs.ecx, regs.edx, regs.esi, regs.edi, regs.ebp, regs.eax, regs.xds, regs.xes,
    regs.xfs, regs.xgs, regs.origEax, regs.eip, regs.xcs, regs.eflags, regs.esp, regs.xss]

end UserRegs

/-- `get_user_regs`, into a structure of zeros. -/
def getUserRegs (cpu : CpuState) : UserRegs where
  ebx := cpu.ebx
  ecx := cpu.ecx
  edx := cpu.edx
  esi := cpu.esi
  edi := cpu.edi
  ebp := cpu.ebp
  eax := cpu.eax
  xds := 0
  xes := 0
  xfs := 0
  xgs := 0
  origEax := cpu.eax
  eip := cpu.eip
  xcs := 0
  eflags := cpu.eflags
  esp := cpu.esp
  xss := 0

def setUserRegs (cpu : CpuState) (regs : UserRegs) : CpuState :=
  { cpu with
    ebx := regs.ebx
    ecx := regs.ecx
    edx := regs.edx
    esi := regs.esi
    edi := regs.edi
    ebp := regs.ebp
    eax := regs.eax
    eip := regs.eip
    eflags := regs.eflags
    esp := regs.esp }

inductive Errno where
  | eperm
  | eio
  | efault
deriving DecidableEq

/-- `sizeof(struct user_)`: the registers, and bytes up to 286, in whole words. -/
def USER_SIZE : Nat := 288

/-- `PTRACE_PEEKUSER`, with the processor of the stopped child that is found, and whether the word
can be written to the address that the tracer gives. -/
def ptracePeekuser (child : Option CpuState) (addr : Word) (written : Bool) : Except Errno Word :=
  match child with
  | none => .error .eperm
  | some cpu =>
    if addr &&& 3 ≠ 0 ∨ USER_SIZE ≤ addr.toNat then .error .eio
    else if written then .ok ((getUserRegs cpu).words.getD (addr.toNat / 4) 0)
    else .error .efault

def ptraceGetregs (child : Option CpuState) (written : Bool) : Except Errno UserRegs :=
  match child with
  | none => .error .eperm
  | some cpu => if written then .ok (getUserRegs cpu) else .error .efault

/-- `PTRACE_SETREGS`, with the registers that are read from the tracer. -/
def ptraceSetregs (child : Option CpuState) (regs : Option UserRegs) : Except Errno CpuState :=
  match child with
  | none => .error .eperm
  | some cpu =>
    match regs with
    | none => .error .efault
    | some regs => .ok (setUserRegs cpu regs)

/-- The place of `eflags` in `struct user_`. -/
def EFLAGS_ADDR : Word := 56

theorem ptracePeekuser_eflags (cpu : CpuState) :
    ptracePeekuser (some cpu) EFLAGS_ADDR true = .ok cpu.eflags := rfl

theorem reports_getUserRegs_iff (cpu : CpuState) :
    Reports cpu (getUserRegs cpu).eflags ↔ Fits cpu cpu.eflags :=
  reports_iff_fits cpu cpu.eflags

theorem reports_setUserRegs_iff (cpu : CpuState) (regs : UserRegs) :
    Reports (setUserRegs cpu regs) regs.eflags ↔ Fits cpu regs.eflags := by
  have hsame : Reports (setUserRegs cpu regs) regs.eflags ↔
      Reports { cpu with eflags := regs.eflags } regs.eflags := by
    constructor
    · intro h
      exact ⟨h.cf, h.pf, h.af, h.zf, h.sf, h.of⟩
    intro h
    exact ⟨h.cf, h.pf, h.af, h.zf, h.sf, h.of⟩
  rw [hsame, reports_iff_fits]

/-- **The readers of the flags.** A conditional move goes by the macros when the bit that it tests
is right. `PTRACE_GETREGS` and `PTRACE_PEEKUSER` give what the macros give when every flag in
`eflags` is right, and after `PTRACE_SETREGS` the macros give what was set when the word fits the
bytes and the results that the processor still holds. -/
theorem flags_agree_iff (cpu : CpuState) :
    (∀ cc, (∀ fpu i, fpuCmov cc cpu fpu i = if cc.holds cpu then fpu.move i else fpu) ↔
        CmovFits cpu cc) ∧
      ((∃ regs, ptraceGetregs (some cpu) true = .ok regs ∧ Reports cpu regs.eflags) ↔
        Fits cpu cpu.eflags) ∧
      ((∃ w, ptracePeekuser (some cpu) EFLAGS_ADDR true = .ok w ∧ Reports cpu w) ↔
        Fits cpu cpu.eflags) ∧
      ∀ regs, (∃ cpu', ptraceSetregs (some cpu) (some regs) = .ok cpu' ∧
          Reports cpu' regs.eflags) ↔ Fits cpu regs.eflags := by
  refine ⟨fpuCmov_iff cpu, ?_, ?_, ?_⟩
  · rw [← reports_getUserRegs_iff]
    constructor
    · rintro ⟨regs, hregs, h⟩
      obtain rfl := Except.ok.inj hregs
      exact h
    · intro h
      exact ⟨_, rfl, h⟩
  · rw [← reports_getUserRegs_iff, ptracePeekuser_eflags]
    constructor
    · rintro ⟨w, hw, h⟩
      obtain rfl := Except.ok.inj hw
      exact h
    · intro h
      exact ⟨_, rfl, h⟩
  intro regs
  rw [← reports_setUserRegs_iff]
  constructor
  · rintro ⟨cpu', hcpu', h⟩
    obtain rfl := Except.ok.inj hcpu'
    exact h
  · intro h
    exact ⟨_, rfl, h⟩

/-- After an instruction with the result 0 and a carry, and before anything has collapsed the
flags. -/
def afterZero : CpuState where
  eax := 0
  ecx := 0
  edx := 0
  ebx := 0
  esp := 0xbffff000
  ebp := 0
  esi := 0
  edi := 0
  eip := 0x8048000
  eflags := 0x202
  cf := 1
  of := 0
  res := 0
  op1 := 1
  op2 := 0xffffffff
  pfRes := true
  zfRes := true
  sfRes := true
  afOps := true
  segfaultAddr := 0
  trapno := 0

/-- `fcmove` does not move although `ZF` is set, `PTRACE_GETREGS` and `PTRACE_PEEKUSER` report
neither `ZF` nor `CF`, and to set `eflags` to 0x202 clears neither. -/
theorem flags_disagree :
    (Cc.e.holds afterZero = true ∧
        ∃ fpu i, fpuCmov .e afterZero fpu i ≠ Fpu.move fpu i) ∧
      (ptraceGetregs (some afterZero) true = .ok (getUserRegs afterZero) ∧
        ¬ Reports afterZero (getUserRegs afterZero).eflags) ∧
      (ptracePeekuser (some afterZero) EFLAGS_ADDR true = .ok 0x202 ∧
        ¬ Reports afterZero 0x202) ∧
      ptraceSetregs (some afterZero) (some (getUserRegs afterZero)) =
          .ok (setUserRegs afterZero (getUserRegs afterZero)) ∧
        (getUserRegs afterZero).eflags = 0x202 ∧
        ¬ Reports (setUserRegs afterZero (getUserRegs afterZero)) 0x202 := by
  have hcf : (0x202 : Word).getLsbD 0 ≠ (afterZero.CF != 0) := by decide
  refine ⟨⟨by decide, ⟨0, zeroOne⟩, 1, ?_⟩, ⟨rfl, ?_⟩, ⟨rfl, ?_⟩, rfl, rfl, ?_⟩
  · intro heq
    have hzero := congrFun (congrArg Fpu.fp heq) 0
    revert hzero
    decide
  · exact fun h => hcf h.cf
  · exact fun h => hcf h.cf
  · exact fun h => hcf h.cf

end Ish.Cpu
