import Ish.Signal.Receive

set_option autoImplicit false

/-! # The handler frame and its way back

What `receive_signal` writes to the guest's stack, and what `sys_sigreturn` and `sys_rt_sigreturn`
take back from it. The registers and the mask go through the frame one to one. The flags have two
representations: the bits of `eflags`, and the bytes and lazy results from which the flag macros
read them. `collapse_flags` brings the second into the first, and `expand_flags` goes back.
`restore_sigcontext` does only the first of the two, so `CF` and `OF`, which the macros read from
their bytes, are whatever the handler has left there.

Memory is as far as it matters here: which frame is stored at an address.
-/

namespace Ish.Signal

open BitVec

/-! ## The processor -/

abbrev Word := BitVec 32

/-- `struct cpu_state`, without what the frame does not touch. -/
structure CpuState where
  eax : Word
  ecx : Word
  edx : Word
  ebx : Word
  esp : Word
  ebp : Word
  esi : Word
  edi : Word
  eip : Word
  eflags : Word
  cf : BitVec 8
  of : BitVec 8
  res : Word
  op1 : Word
  op2 : Word
  pfRes : Bool
  zfRes : Bool
  sfRes : Bool
  afOps : Bool
  segfaultAddr : Word
  trapno : Word

/-- `__builtin_parity` of the low byte. -/
def lowParity (x : Word) : Bool :=
  (List.range 8).foldl (fun acc i => acc ^^ x.getLsbD i) false

namespace CpuState

/-! The flag macros. -/

def ZF (cpu : CpuState) : Bool := if cpu.zfRes then cpu.res == 0 else cpu.eflags.getLsbD 6

def SF (cpu : CpuState) : Bool := if cpu.sfRes then cpu.res.msb else cpu.eflags.getLsbD 7

def CF (cpu : CpuState) : BitVec 8 := cpu.cf

def OF (cpu : CpuState) : BitVec 8 := cpu.of

def PF (cpu : CpuState) : Bool := if cpu.pfRes then !lowParity cpu.res else cpu.eflags.getLsbD 2

def AF (cpu : CpuState) : Bool :=
  if cpu.afOps then (cpu.op1 ^^^ cpu.op2 ^^^ cpu.res).getLsbD 4 else cpu.eflags.getLsbD 4

/-- The direction flag has no other place than its bit. -/
def DF (cpu : CpuState) : Bool := cpu.eflags.getLsbD 10

end CpuState

/-- Assignment to a bit field of one bit. -/
def setBit (w : Word) (i : Nat) (b : Bool) : Word :=
  (w &&& ~~~ twoPow 32 i) ||| (if b then twoPow 32 i else 0#32)

theorem getLsbD_setBit {i : Nat} (hi : i < 32) (w : Word) (b : Bool) (j : Nat) :
    (setBit w i b).getLsbD j = if i = j then b else w.getLsbD j := by
  unfold setBit
  by_cases hij : i = j
  · subst hij
    cases b <;> simp [hi]
  have hji : j ≠ i := Ne.symm hij
  by_cases hj : j < 32
  · cases b <;> simp [hij, hji, hj]
  have hge : w.getLsbD j = false := getLsbD_of_ge w j (by omega)
  cases b <;> simp [hij, hj, hge]

def collapseFlags (cpu : CpuState) : CpuState :=
  { cpu with
    eflags :=
      setBit (setBit (setBit (setBit (setBit (setBit (setBit (setBit (setBit (setBit cpu.eflags
        6 cpu.ZF) 7 cpu.SF) 2 cpu.PF) 11 (cpu.of.getLsbD 0)) 0 (cpu.cf.getLsbD 0)) 4 cpu.AF)
        1 true) 3 false) 5 false) 9 true
    zfRes := false
    sfRes := false
    pfRes := false
    afOps := false }

/-! ## Frames -/

/-- `struct sigcontext_`. What `setup_sigcontext` leaves zero is left out. -/
structure SigContext where
  di : Word
  si : Word
  bp : Word
  sp : Word
  bx : Word
  dx : Word
  cx : Word
  ax : Word
  trapno : Word
  ip : Word
  flags : Word
  spAtSignal : Word
  oldmask : Word
  cr2 : Word

structure SigFrame where
  restorer : Word
  sig : Sig
  sc : SigContext
  extramask : Word

structure StackT where
  stack : Word
  flags : Word
  size : Word

structure UContext where
  stack : StackT
  mcontext : SigContext
  sigmask : Sigset

structure RtSigFrame where
  restorer : Word
  sig : Sig
  pinfo : Word
  puc : Word
  info : SigInfo
  uc : UContext

inductive UserFrame where
  | plain (frame : SigFrame)
  | rt (frame : RtSigFrame)

/-! The sizes of the two structures, and the offsets that the code takes of them. -/

def SIGFRAME_SIZE : Word := 732
def SIGFRAME_SC : Word := 8
def RT_SIGFRAME_SIZE : Word := 268
def RT_SIGFRAME_SIG : Word := 4
def RT_SIGFRAME_INFO : Word := 16
def RT_SIGFRAME_UC : Word := 144

def SS_ONSTACK : Word := 1
def SS_DISABLE : Word := 2
def MINSIGSTKSZ : Word := 2048
def INT_GPF : Word := 13

/-- The state of a task that the frames are about. -/
structure FrameTask where
  cpu : CpuState
  blocked : Sigset
  altstack : Word
  altstackSize : Word
  /-- The frame stored at an address of the guest. -/
  mem : Word → Option UserFrame

/-- What does not change while the guest runs: the two trampolines, and the room for a host that
keeps the floating point state elsewhere. -/
structure FrameEnv where
  kernelSigreturn : Word
  kernelRtSigreturn : Word
  xsaveExtra : Word
  fxsaveExtra : Word

def isOnAltstack (sp : Word) (t : FrameTask) : Bool :=
  decide (t.altstack < sp) && decide (sp ≤ t.altstack + t.altstackSize)

def altstackToUser (t : FrameTask) : StackT where
  stack := t.altstack
  size := t.altstackSize
  flags :=
    (if t.altstack = 0 then SS_DISABLE else 0) |||
      (if isOnAltstack t.cpu.esp t then SS_ONSTACK else 0)

/-- The context, of a processor whose flags are collapsed. -/
def setupSigcontext (cpu : CpuState) (blocked : Sigset) : SigContext where
  ax := cpu.eax
  bx := cpu.ebx
  cx := cpu.ecx
  dx := cpu.edx
  di := cpu.edi
  si := cpu.esi
  bp := cpu.ebp
  sp := cpu.esp
  spAtSignal := cpu.esp
  ip := cpu.eip
  flags := cpu.eflags
  trapno := cpu.trapno
  cr2 := if cpu.trapno = INT_GPF then cpu.segfaultAddr else 0
  oldmask := blocked.setWidth 32

def setupSigframe (env : FrameEnv) (info : SigInfo) (cpu : CpuState) (blocked : Sigset) :
    SigFrame where
  restorer := env.kernelSigreturn
  sig := info.sig
  sc := setupSigcontext cpu blocked
  extramask := (blocked >>> 32).setWidth 32

def setupRtSigframe (env : FrameEnv) (info : SigInfo) (t : FrameTask) (sp : Word) :
    RtSigFrame where
  restorer := env.kernelRtSigreturn
  sig := info.sig
  pinfo := sp + RT_SIGFRAME_INFO
  puc := sp + RT_SIGFRAME_UC
  info := info
  uc := ⟨altstackToUser t, setupSigcontext t.cpu t.blocked, t.blocked⟩

/-- Where the frame goes. -/
def framePointer (env : FrameEnv) (t : FrameTask) (size : Word) : Word :=
  let sp0 :=
    if t.altstack ≠ 0 ∧ isOnAltstack t.cpu.esp t = false then t.altstack + t.altstackSize
    else t.cpu.esp
  let sp1 :=
    if env.xsaveExtra ≠ 0 then ((sp0 - env.xsaveExtra) &&& ~~~ 0x3f#32) - env.fxsaveExtra
    else sp0
  ((sp1 - size + 4) &&& ~~~ 0xf#32) - 4

def needSiginfo (action : SigAction) : Bool := action.flags &&& SA_SIGINFO != 0

def frameSize (action : SigAction) : Word :=
  if needSiginfo action then RT_SIGFRAME_SIZE else SIGFRAME_SIZE

def handlerSp (env : FrameEnv) (action : SigAction) (t : FrameTask) : Word :=
  framePointer env t (frameSize action)

/-- The last part of `receive_signal`, for a signal with a handler and a frame that can be
written. -/
def enterHandler (env : FrameEnv) (action : SigAction) (info : SigInfo) (t : FrameTask) :
    FrameTask :=
  let t1 := { t with cpu := collapseFlags t.cpu }
  let sp := handlerSp env action t
  let cpu :=
    { t1.cpu with
      eax := BitVec.ofNat 32 info.sig.num
      eip := BitVec.ofNat 32 action.handler.toNat
      esp := sp }
  let blocked := t.blocked ||| handlerMask action info.sig
  if needSiginfo action then
    let frame := setupRtSigframe env info t1 sp
    { t with
      cpu := { cpu with edx := frame.pinfo, ecx := frame.puc }
      blocked := blocked
      mem := Function.update t.mem sp (some (.rt frame)) }
  else
    { t with
      cpu := cpu
      blocked := blocked
      mem :=
        Function.update t.mem sp (some (.plain (setupSigframe env info t1.cpu t.blocked))) }

/-! ## Coming back -/

def USE_FLAGS : Word := 0b1010000110111010101

def restoreSigcontext (context : SigContext) (cpu : CpuState) : CpuState :=
  let cpu1 :=
    collapseFlags
      { cpu with
        eax := context.ax
        ebx := context.bx
        ecx := context.cx
        edx := context.dx
        edi := context.di
        esi := context.si
        ebp := context.bp
        esp := context.sp
        eip := context.ip }
  { cpu1 with eflags := (context.flags &&& USE_FLAGS) ||| (cpu1.eflags &&& ~~~ USE_FLAGS) }

/-- `none` is `_EFAULT`. -/
def sysRtSigreturn (t : FrameTask) : Option FrameTask :=
  match t.mem (t.cpu.esp - RT_SIGFRAME_SIG) with
  | some (.rt frame) =>
    let t1 := { t with cpu := restoreSigcontext frame.uc.mcontext t.cpu }
    let t2 :=
      if isOnAltstack t1.cpu.esp t1 = false ∧ MINSIGSTKSZ ≤ frame.uc.stack.size then
        { t1 with altstack := frame.uc.stack.stack, altstackSize := frame.uc.stack.size }
      else t1
    some { t2 with blocked := frame.uc.sigmask &&& ~~~ UNBLOCKABLE_MASK }
  | _ => none

def sysSigreturn (t : FrameTask) : Option FrameTask :=
  match t.mem (t.cpu.esp - SIGFRAME_SC) with
  | some (.plain frame) =>
    let oldmask := (frame.extramask.setWidth 64 <<< 32) ||| frame.sc.oldmask.setWidth 64
    some
      { t with
        cpu := restoreSigcontext frame.sc t.cpu
        blocked := oldmask &&& ~~~ UNBLOCKABLE_MASK }
  | _ => none

/-! ## The registers and the mask -/

/-- The two halves of the mask are the mask. -/
theorem mask_halves (mask : Sigset) :
    (((mask >>> 32).setWidth 32).setWidth 64 <<< 32) ||| (mask.setWidth 32).setWidth 64 = mask := by
  ext i hi
  by_cases h : i < 32
  · simp [h, hi]
  have hlt : i - 32 < 32 := by omega
  have hsum : 32 + (i - 32) = i := by omega
  simp [h, hi, hlt, hsum]

/-! ## The flags -/

section Flags

variable (cpu : CpuState)

/-- The bits of the collapsed flags, in the order of the word. -/
theorem collapseFlags_bits :
    (collapseFlags cpu).eflags.getLsbD 2 = cpu.PF ∧
    (collapseFlags cpu).eflags.getLsbD 4 = cpu.AF ∧
    (collapseFlags cpu).eflags.getLsbD 6 = cpu.ZF ∧
    (collapseFlags cpu).eflags.getLsbD 7 = cpu.SF ∧
    (collapseFlags cpu).eflags.getLsbD 10 = cpu.DF := by
  refine ⟨?_, ?_, ?_, ?_, ?_⟩ <;>
    simp (disch := decide) only [collapseFlags, getLsbD_setBit, CpuState.DF] <;> rfl

/-- A flag that `restore_sigcontext` uses is that of the context. -/
theorem restoreSigcontext_bit (context : SigContext) {i : Nat} (hi : USE_FLAGS.getLsbD i = true) :
    (restoreSigcontext context cpu).eflags.getLsbD i = context.flags.getLsbD i := by
  unfold restoreSigcontext
  rw [getLsbD_or, getLsbD_and, getLsbD_and, getLsbD_not, hi]
  simp

/-- The macros read the restored bits, since nothing is lazy afterwards. -/
theorem restoreSigcontext_flags (context : SigContext) :
    (restoreSigcontext context cpu).PF = context.flags.getLsbD 2 ∧
    (restoreSigcontext context cpu).AF = context.flags.getLsbD 4 ∧
    (restoreSigcontext context cpu).ZF = context.flags.getLsbD 6 ∧
    (restoreSigcontext context cpu).SF = context.flags.getLsbD 7 ∧
    (restoreSigcontext context cpu).DF = context.flags.getLsbD 10 := by
  refine ⟨?_, ?_, ?_, ?_, ?_⟩ <;> exact restoreSigcontext_bit cpu context (by decide)

end Flags

/-! ## The mask in the two models -/

/-- The frame and the queue see the same mask: what the handler is entered with here is what
`receiveSignal` leaves. -/
theorem enterHandler_blocked {t t' : SigTask} {ft : FrameTask} {info : SigInfo}
    {entered entered' : Sigset} {events : List Event} (env : FrameEnv)
    (hblocked : ft.blocked = t.blocked)
    (hact : signalAction t.action info.sig = .callHandler)
    (hgo : receiveSignal t info true entered = .goOn t' entered' events) :
    (enterHandler env (t.action info.sig) info ft).blocked = t'.blocked := by
  have ht' : t'.blocked = t.blocked ||| handlerMask (t.action info.sig) info.sig := by
    rcases receiveSignal_goOn hgo with ⟨hno, -⟩ | ⟨hno, -⟩ | ⟨-, -, rfl, -⟩
    · simp [hact] at hno
    · simp [hact] at hno
    · rfl
  rw [ht', ← hblocked]
  unfold enterHandler
  cases needSiginfo (t.action info.sig) <;> simp

/-! ## The round trip -/

/-- The two processors are the same to a program: the registers, and the flags as the macros read
them. -/
structure SameCpu (cpu cpu' : CpuState) : Prop where
  eax : cpu'.eax = cpu.eax
  ecx : cpu'.ecx = cpu.ecx
  edx : cpu'.edx = cpu.edx
  ebx : cpu'.ebx = cpu.ebx
  esp : cpu'.esp = cpu.esp
  ebp : cpu'.ebp = cpu.ebp
  esi : cpu'.esi = cpu.esi
  edi : cpu'.edi = cpu.edi
  eip : cpu'.eip = cpu.eip
  cf : cpu'.CF = cpu.CF
  of : cpu'.OF = cpu.OF
  zf : cpu'.ZF = cpu.ZF
  sf : cpu'.SF = cpu.SF
  pf : cpu'.PF = cpu.PF
  af : cpu'.AF = cpu.AF
  df : cpu'.DF = cpu.DF

/-- **What comes back from a context.** Everything but `CF` and `OF`, which stay what they are. -/
theorem restoreSigcontext_same_iff (before handler : CpuState) (blocked : Sigset) :
    SameCpu before
        (restoreSigcontext (setupSigcontext (collapseFlags before) blocked) handler) ↔
      handler.cf = before.cf ∧ handler.of = before.of := by
  obtain ⟨hpf, haf, hzf, hsf, hdf⟩ :=
    restoreSigcontext_flags handler (setupSigcontext (collapseFlags before) blocked)
  obtain ⟨hpf', haf', hzf', hsf', hdf'⟩ := collapseFlags_bits before
  constructor
  · intro h
    exact ⟨h.cf, h.of⟩
  rintro ⟨hcf, hof⟩
  exact {
    eax := rfl
    ecx := rfl
    edx := rfl
    ebx := rfl
    esp := rfl
    ebp := rfl
    esi := rfl
    edi := rfl
    eip := rfl
    cf := hcf
    of := hof
    zf := hzf.trans hzf'
    sf := hsf.trans hsf'
    pf := hpf.trans hpf'
    af := haf.trans haf'
    df := hdf.trans hdf' }

/-- How far the stack pointer is into the frame when the trampoline makes its system call: the
handler has returned, and the first trampoline has popped one more word. -/
def trampolineOffset (action : SigAction) : Word :=
  if needSiginfo action then RT_SIGFRAME_SIG else SIGFRAME_SC

/-- The state `h` is one in which the handler entered from `t` has come to its trampoline, with
the frame as it was written. The handler may have changed everything else. -/
structure ComesBack (env : FrameEnv) (action : SigAction) (info : SigInfo) (t h : FrameTask) :
    Prop where
  esp : h.cpu.esp = (enterHandler env action info t).cpu.esp + trampolineOffset action
  frame : h.mem (handlerSp env action t) =
    (enterHandler env action info t).mem (handlerSp env action t)

/-- The system call of the trampoline. -/
def sigreturn (action : SigAction) (h : FrameTask) : Option FrameTask :=
  if needSiginfo action then sysRtSigreturn h else sysSigreturn h

/-- The state is what it was before the signal. -/
def Restored (t : FrameTask) (result : Option FrameTask) : Prop :=
  ∃ t', result = some t' ∧ SameCpu t.cpu t'.cpu ∧
    t'.blocked = t.blocked &&& ~~~ UNBLOCKABLE_MASK

theorem enterHandler_esp (env : FrameEnv) (action : SigAction) (info : SigInfo) (t : FrameTask) :
    (enterHandler env action info t).cpu.esp = handlerSp env action t := by
  unfold enterHandler
  cases hinfo : needSiginfo action <;> simp

theorem sysRtSigreturn_restored_iff {env : FrameEnv} {action : SigAction} {info : SigInfo}
    {t h : FrameTask} (hinfo : needSiginfo action = true) (hback : ComesBack env action info t h) :
    Restored t (sysRtSigreturn h) ↔ h.cpu.cf = t.cpu.cf ∧ h.cpu.of = t.cpu.of := by
  have hsp : h.cpu.esp - RT_SIGFRAME_SIG = handlerSp env action t := by
    rw [hback.esp, enterHandler_esp, trampolineOffset, if_pos hinfo, add_sub_cancel]
  have hmem : h.mem (handlerSp env action t) =
      some (.rt (setupRtSigframe env info { t with cpu := collapseFlags t.cpu }
        (handlerSp env action t))) := by
    rw [hback.frame]
    simp [enterHandler, hinfo]
  have hsame := restoreSigcontext_same_iff t.cpu h.cpu t.blocked
  rw [← hsame, Restored, sysRtSigreturn, hsp, hmem]
  constructor
  · rintro ⟨t', heq, hcpu, -⟩
    rw [← Option.some.inj heq] at hcpu
    -- the stack that is put back does not touch the processor
    split at hcpu <;> exact hcpu
  intro hcpu
  refine ⟨_, rfl, ?_, rfl⟩
  split <;> exact hcpu

theorem sysSigreturn_restored_iff {env : FrameEnv} {action : SigAction} {info : SigInfo}
    {t h : FrameTask} (hinfo : needSiginfo action = false)
    (hback : ComesBack env action info t h) :
    Restored t (sysSigreturn h) ↔ h.cpu.cf = t.cpu.cf ∧ h.cpu.of = t.cpu.of := by
  have hne : ¬ needSiginfo action = true := by simp [hinfo]
  have hsp : h.cpu.esp - SIGFRAME_SC = handlerSp env action t := by
    rw [hback.esp, enterHandler_esp, trampolineOffset, if_neg hne, add_sub_cancel]
  have hmem : h.mem (handlerSp env action t) =
      some (.plain (setupSigframe env info (collapseFlags t.cpu) t.blocked)) := by
    rw [hback.frame]
    simp [enterHandler, hinfo]
  have hsame := restoreSigcontext_same_iff t.cpu h.cpu t.blocked
  have hmask := mask_halves t.blocked
  rw [← hsame, Restored, sysSigreturn, hsp, hmem]
  constructor
  · rintro ⟨t', heq, hcpu, -⟩
    rw [← Option.some.inj heq] at hcpu
    exact hcpu
  intro hcpu
  refine ⟨_, rfl, hcpu, ?_⟩
  exact congrArg (· &&& ~~~ UNBLOCKABLE_MASK) hmask

/-- **A handler's way back.** Whatever the processor was when the signal came, and whatever the
handler did, the registers, the flags and the mask are what they were exactly when the handler has
left the bytes of `CF` and `OF` as they were. -/
theorem sigreturn_restored_iff (env : FrameEnv) (action : SigAction) (info : SigInfo)
    (t h : FrameTask) (hback : ComesBack env action info t h) :
    Restored t (sigreturn action h) ↔ h.cpu.cf = t.cpu.cf ∧ h.cpu.of = t.cpu.of := by
  unfold sigreturn
  split
  · rename_i hinfo
    exact sysRtSigreturn_restored_iff hinfo hback
  rename_i hinfo
  exact sysSigreturn_restored_iff (by simpa using hinfo) hback

/-- A program that has just computed a carry. -/
def carryTask : FrameTask where
  cpu :=
    { eax := 7, ecx := 0, edx := 0, ebx := 0, esp := 0xffffd000, ebp := 0, esi := 0, edi := 0
      eip := 0x8048000, eflags := 0x202, cf := 1, of := 0, res := 7, op1 := 8, op2 := 0xffffffff
      pfRes := true, zfRes := true, sfRes := true, afOps := true, segfaultAddr := 0, trapno := 0 }
  blocked := sigMask SIGUSR2
  altstack := 0
  altstackSize := 0
  mem := fun _ => none

def plainEnv : FrameEnv := ⟨0xf7fd8440, 0xf7fd8450, 0, 0⟩

def usr1Action : SigAction := ⟨0x8049000, 0, 0, 0⟩

/-- The handler at its trampoline, with the carry it has left. -/
def handlerDone (cf : BitVec 8) : FrameTask :=
  let t := enterHandler plainEnv usr1Action (sigInfoNil SIGUSR1) carryTask
  { t with cpu := { t.cpu with esp := t.cpu.esp + SIGFRAME_SC, eax := 0, cf := cf } }

theorem handlerDone_comesBack (cf : BitVec 8) :
    ComesBack plainEnv usr1Action (sigInfoNil SIGUSR1) carryTask (handlerDone cf) :=
  ⟨rfl, rfl⟩

/-- A handler that does not touch the carry. -/
theorem sigreturn_restored_carry :
    ComesBack plainEnv usr1Action (sigInfoNil SIGUSR1) carryTask (handlerDone 1) ∧
    Restored carryTask (sigreturn usr1Action (handlerDone 1)) :=
  ⟨handlerDone_comesBack 1,
    (sigreturn_restored_iff plainEnv usr1Action (sigInfoNil SIGUSR1) carryTask (handlerDone 1)
      (handlerDone_comesBack 1)).mpr ⟨rfl, rfl⟩⟩

/-- **The carry of the handler.** The program had a carry when the signal came, the handler has
none when it returns, and the program goes on without it. -/
theorem sigreturn_loses_carry :
    ComesBack plainEnv usr1Action (sigInfoNil SIGUSR1) carryTask (handlerDone 0) ∧
    carryTask.cpu.CF = 1 ∧
    (∃ t', sigreturn usr1Action (handlerDone 0) = some t' ∧ t'.cpu.CF = 0) ∧
    ¬ Restored carryTask (sigreturn usr1Action (handlerDone 0)) := by
  refine ⟨handlerDone_comesBack 0, rfl, ⟨_, rfl, rfl⟩, ?_⟩
  rintro ⟨t', ht', hcpu, -⟩
  have hcf := hcpu.cf
  rw [← Option.some.inj ht'] at hcf
  exact absurd hcf (by decide +kernel)

end Ish.Signal
