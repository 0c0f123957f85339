import Ish.Locking.Paths

set_option autoImplicit false

/-! # The locks of `ptrace`, `task_create_` and `elf_exec`

The rest of the calls whose locks are followed on every path, and the result for all of them: for
each call what has to hold of its arguments and of the copies and allocations that it makes, so that
the locks are right.
-/

namespace Ish.Locking

open Ish.Lib Ish.Lib.LockEvent

open Ish.Process (Pid Procs)

open Ish.Signal (Word Mail Caller SigEvent FrameTask)

/-! ## `ptrace` -/

inductive Request where
  | traceme
  | peekData
  | peekUser
  | pokeData
  | cont
  | kill
  | singleStep
  | getRegs
  | setRegs
  | getFpRegs
  | setFpRegs
  | setOptions
  | getSigInfo
  | other
deriving DecidableEq

/-- The numbers of the requests. -/
def Request.ofWord (request : Word) : Request :=
  if request = 0 then traceme
  else if request = 1 ∨ request = 2 then peekData
  else if request = 3 then peekUser
  else if request = 4 ∨ request = 5 then pokeData
  else if request = 7 then cont
  else if request = 8 then kill
  else if request = 9 then singleStep
  else if request = 12 then getRegs
  else if request = 13 then setRegs
  else if request = 14 then getFpRegs
  else if request = 15 then setFpRegs
  else if request = 0x4200 then setOptions
  else if request = 0x4202 then getSigInfo
  else other

def isStopped (s : Procs) (c : Pid) : Bool := ((s.task c).map Process.Task.ptraceStopped).getD false

/-- `find_child` through a list of children: the locks that it takes and gives back, and the child
that it finds, with its lock still taken. -/
def findChild (s : Procs) (pid : Nat) : List Pid → List Ev × Option Pid
  | [] => ([], none)
  | c :: cs =>
    if c = pid then
      if isStopped s c then ([.acquire (.ptrace c)], some c)
      else (locked (.ptrace c) [] ++ (findChild s pid cs).1, (findChild s pid cs).2)
    else findChild s pid cs

/-- The arguments of `sys_ptrace`, and whether its first access to guest memory succeeds. -/
structure PtraceCall where
  request : Word
  pid : Word
  addr : Word
  data : Word
  copied : Bool

/-- The address is one that `PTRACE_PEEKUSER` accepts. -/
def userAddr (addr : Word) : Bool := decide (addr &&& 3 = 0) && decide (addr.toNat < 288)

/-- A request with its child locked. -/
def requestPath (k : View) (t c : Pid) (call : PtraceCall) : Request → List Ev
  | .peekData =>
    userAccess k c ++ (if call.copied then userAccess k t else []) ++ [.release (.ptrace c)]
  | .peekUser =>
    if userAddr call.addr then userAccess k t ++ [.release (.ptrace c)] else []
  | .pokeData => userAccess k c ++ [.release (.ptrace c)]
  | .kill => sendPath k.mail t c (some Signal.SIGKILL) ++ [.release (.ptrace c)]
  | .getRegs | .getFpRegs => userAccess k t ++ [.release (.ptrace c)]
  | .setRegs | .setFpRegs =>
    userAccess k t ++ if call.copied then [.release (.ptrace c)] else []
  | .getSigInfo =>
    if call.data = 0 then [.release (.ptrace c)]
    else userAccess k t ++ if call.copied then [.release (.ptrace c)] else []
  | _ => [.release (.ptrace c)]

/-- Whether the request is about a child. -/
def Request.aboutChild : Request → Bool
  | .traceme | .setOptions | .other => false
  | _ => true

def childrenOf (s : Procs) (t : Pid) : List Pid := ((s.task t).map Process.Task.children).getD []

def ptracePath (k : View) (t : Pid) (call : PtraceCall) : List Ev :=
  if (Request.ofWord call.request).aboutChild then
    let r := findChild k.mail.procs call.pid.toNat (childrenOf k.mail.procs t)
    r.1 ++
      match r.2 with
      | none => []
      | some c => requestPath k t c call (.ofWord call.request)
  else []

/-- What the requests that return early must not meet. -/
def RequestOk (call : PtraceCall) : Request → Prop
  | .peekUser => userAddr call.addr = true
  | .setRegs | .setFpRegs => call.copied = true
  | .getSigInfo => call.data ≠ 0 → call.copied = true
  | _ => True

/-- The child that is asked for is stopped. -/
def ChildFound (k : View) (t : Pid) (call : PtraceCall) : Prop :=
  (findChild k.mail.procs call.pid.toNat (childrenOf k.mail.procs t)).2 ≠ none

/-- A lock that is taken and given back at once. -/
theorem keeps_locked (l : Lk) : Keeps ∅ (locked l []) := (takes_empty l).neutral

section Ptrace

theorem outer_ptrace (c : Pid) : Outer {Lk.ptrace c} := .inr ⟨c, rfl⟩

theorem mem_notMem_ptrace (c : Pid) (addr : Nat) : Lk.mem addr ∉ ({Lk.ptrace c} : Set Lk) := by
  simp

theorem requestPath_iff (k : View) (t c : Pid) (call : PtraceCall) (r : Request) :
    GivesBack {Lk.ptrace c} (requestPath k t c call r) ↔
      RequestOk call r := by
  have hlast := givesBack_release (.ptrace c)
  have huser : ∀ q, Keeps {Lk.ptrace c} (userAccess k q) := keeps_userAccess (mem_notMem_ptrace c) k
  -- an access to the memory of the tracer, after which the lock is given back if it succeeded
  have hcopied : GivesBack {Lk.ptrace c}
      (userAccess k t ++ if call.copied then [.release (.ptrace c)] else []) ↔
        call.copied = true := by
    rw [(huser t).append_iff]
    cases call.copied with
    | true => exact iff_of_true hlast rfl
    | false => exact iff_of_false (not_givesBack_nil _) (by simp)
  cases r with
  | peekData =>
    refine iff_of_true ?_ trivial
    refine Keeps.append_iff (Neutral.append (huser c) ?_) |>.mpr hlast
    cases call.copied with
    | true => exact huser t
    | false => exact neutral_nil
  | peekUser =>
    unfold requestPath RequestOk
    cases hbad : userAddr call.addr with
    | true => exact iff_of_true ((huser t).append_iff.mpr hlast) rfl
    | false => exact iff_of_false (not_givesBack_nil _) (by simp)
  | pokeData => exact iff_of_true ((huser c).append_iff.mpr hlast) trivial
  | kill =>
    have hsend := keeps_sendPath (outer_ptrace c) k.mail t c (some Signal.SIGKILL)
    exact iff_of_true (hsend.append_iff.mpr hlast) trivial
  | getRegs | getFpRegs => exact iff_of_true ((huser t).append_iff.mpr hlast) trivial
  | setRegs => exact hcopied
  | setFpRegs => exact hcopied
  | getSigInfo =>
    unfold requestPath RequestOk
    dsimp only
    split
    · rename_i hdata
      exact iff_of_true hlast fun h => absurd hdata h
    rename_i hdata
    rw [hcopied]
    exact ⟨fun h _ => h, fun h => h hdata⟩
  | traceme | setOptions | cont | singleStep | other => exact iff_of_true hlast trivial

/-- The locks after `find_child` are that of the child that it found. -/
theorem findChild_append_iff (s : Procs) (pid : Nat) (cs : List Pid) (es : List Ev) :
    GivesBack ∅ ((findChild s pid cs).1 ++ es) ↔
      GivesBack ((findChild s pid cs).2.elim ∅ fun c => {Lk.ptrace c}) es := by
  induction cs with
  | nil => exact Iff.rfl
  | cons c cs ih =>
    unfold findChild
    by_cases hc : c = pid
    · rw [if_pos hc]
      by_cases hstopped : isStopped s c = true
      · rw [if_pos hstopped]
        exact givesBack_acquire_iff (.ptrace c) es
      rw [if_neg hstopped]
      rw [List.append_assoc, (keeps_locked (.ptrace c)).append_iff]
      exact ih
    · rw [if_neg hc]
      exact ih

/-- **`ptrace`.** The lock of the child is given back unless the request is one of those that
return early and meets what makes it return. -/
theorem givenBack_ptracePath_iff (k : View) (t : Pid) (call : PtraceCall) :
    GivenBack (ptracePath k t call) ↔
      (ChildFound k t call → RequestOk call (.ofWord call.request)) := by
  unfold ptracePath GivenBack ChildFound
  cases habout : (Request.ofWord call.request).aboutChild with
  | false =>
    refine iff_of_true rfl fun _ => ?_
    cases hreq : Request.ofWord call.request with
    | traceme => trivial
    | setOptions => trivial
    | other => trivial
    | _ => rw [hreq] at habout; cases habout
  | true =>
    rw [if_pos rfl, findChild_append_iff]
    cases (findChild k.mail.procs call.pid.toNat (childrenOf k.mail.procs t)).2 with
    | none => exact iff_of_true rfl fun h => absurd rfl h
    | some c =>
      have hreq := requestPath_iff k t c call (.ofWord call.request)
      exact hreq.trans ⟨fun h _ => h, fun h => h (by simp)⟩

end Ptrace

/-! ## `task_create_` -/

/-- Once a pid is found. -/
def taskCreatePath (allocated : Bool) : List Ev :=
  .acquire .pids :: if allocated then [.release .pids] else []

theorem givenBack_taskCreatePath_iff (allocated : Bool) :
    GivenBack (taskCreatePath allocated) ↔ allocated = true := by
  unfold taskCreatePath GivenBack
  rw [givesBack_acquire_iff]
  cases allocated with
  | true => exact iff_of_true (givesBack_release .pids) rfl
  | false => exact iff_of_false (not_givesBack_nil .pids) (by simp)

/-! ## `elf_exec` -/

/-- What `load_entry` meets: whether the file can be mapped, the number of bytes after the file that
are set to zero if there are any, and whether the rest can be mapped. -/
structure Load where
  file : Bool
  tail : Option Nat
  bss : Bool

def Load.loaded (ld : Load) : Bool := ld.file && ld.bss

/-- `n` accesses to guest memory. -/
def accesses (mem : Lk) (n : Nat) : List Ev := (List.range n).flatMap fun _ => locked mem []

/-- `load_entry`, which gives up the lock of the memory to set the bytes. -/
def loadPath (mem : Lk) (ld : Load) : List Ev :=
  if ld.file then
    match ld.tail with
    | none => []
    | some n => .release mem :: (accesses mem n ++ [.acquire mem])
  else []

/-- The loops over the program headers. -/
def loadsPath (mem : Lk) : List Load → List Ev
  | [] => []
  | ld :: lds => loadPath mem ld ++ if ld.loaded then loadsPath mem lds else []

/-- The copies up to the first one that fails. -/
def copiesPath (mem : Lk) : List Bool → List Ev
  | [] => []
  | ok :: oks => locked mem [] ++ if ok then copiesPath mem oks else []

/-- What `elf_exec` meets: whether it comes past the headers, the entries of the program and of its
interpreter, whether the other mappings succeed, and the copies to the new stack. The first ones are
the file name, the environment, the arguments, the platform and the random bytes; then come the
words of the stack and the lengths of the strings, and last the auxiliary vector. A length that
cannot be read does not end the call. -/
structure ElfEnv where
  headers : Bool
  loads : List Load
  maps : Bool
  strings : List Bool
  words : List Bool
  aux : Bool

/-- The stack, after the lock of the memory was given back. The label `beyond_hope` gives it back
again. -/
def stackPath (mem : Lk) (env : ElfEnv) : List Ev :=
  copiesPath mem env.strings ++
    if env.strings.all id then
      copiesPath mem env.words ++
        if env.words.all id then locked mem [] ++ if env.aux then [] else [.release mem]
        else []
    else [.release mem]

def elfExecPath (t : Pid) (addr : Nat) (env : ElfEnv) : List Ev :=
  if env.headers then
    locked (.general t) [] ++
      .acquire (.mem addr) ::
        (loadsPath (.mem addr) env.loads ++
          if env.loads.all Load.loaded && env.maps then
            .release (.mem addr) :: stackPath (.mem addr) env
          else [.release (.mem addr)])
  else []

/-- No copy fails that goes to `beyond_hope` after the lock was given back. -/
def StackCopied (env : ElfEnv) : Prop :=
  env.headers = true → env.loads.all Load.loaded = true → env.maps = true →
    env.strings.all id = true ∧ (env.words.all id = true → env.aux = true)

section Elf

variable (mem : Lk)

theorem keeps_accesses (n : Nat) : Keeps ∅ (accesses mem n) :=
  neutral_flatMap fun _ _ => keeps_locked mem

theorem keeps_loadPath (ld : Load) : Keeps {mem} (loadPath mem ld) := by
  unfold loadPath
  split
  · rcases ld.tail with _ | n
    · exact neutral_nil
    have hempty : next {mem} (.release mem : Ev) = ∅ := by simp [next]
    refine ⟨rfl, ?_⟩
    rw [hempty, Neutral.append_iff (keeps_accesses mem n)]
    refine ⟨Set.notMem_empty mem, ?_⟩
    simp [Follows, next]
  · exact neutral_nil

theorem keeps_loadsPath (lds : List Load) : Keeps {mem} (loadsPath mem lds) := by
  induction lds with
  | nil => exact neutral_nil
  | cons ld lds ih =>
    refine (keeps_loadPath mem ld).append ?_
    split
    · exact ih
    · exact neutral_nil

theorem keeps_copiesPath (oks : List Bool) : Keeps ∅ (copiesPath mem oks) := by
  induction oks with
  | nil => exact neutral_nil
  | cons ok oks ih =>
    refine (keeps_locked mem).append ?_
    split
    · exact ih
    · exact neutral_nil

/-- After the one lock was given back there is none. -/
theorem givesBack_release_iff (es : List Ev) :
    GivesBack {mem} (.release mem :: es) ↔ GivesBack ∅ es := by
  have hempty : next {mem} (.release mem : Ev) = ∅ := by simp [next]
  unfold GivesBack
  rw [Follows, hempty]
  exact and_iff_right (Set.mem_singleton mem)

/-- A lock that is not held must not be given back. -/
theorem not_givesBack_release_empty : ¬ GivesBack ∅ [.release mem] := by
  rintro ⟨h, -⟩
  exact h

theorem stackPath_iff (env : ElfEnv) :
    GivesBack ∅ (stackPath mem env) ↔
      env.strings.all id = true ∧ (env.words.all id = true → env.aux = true) := by
  unfold stackPath
  rw [(keeps_copiesPath mem env.strings).append_iff]
  rcases hstrings : env.strings.all id with _ | _
  · exact iff_of_false (not_givesBack_release_empty mem) (by simp)
  rw [if_pos rfl, (keeps_copiesPath mem env.words).append_iff]
  cases hwords : env.words.all id with
  | false => exact iff_of_true rfl ⟨rfl, fun h => by cases h⟩
  | true =>
    rw [if_pos rfl, (keeps_locked mem).append_iff]
    cases haux : env.aux with
    | false => exact iff_of_false (not_givesBack_release_empty mem) (by simp)
    | true => exact iff_of_true rfl ⟨rfl, fun _ => rfl⟩

/-- **`elf_exec`.** The lock of the new memory is given back once unless a copy to the stack fails
that goes to `beyond_hope`. -/
theorem givenBack_elfExecPath_iff (t : Pid) (addr : Nat) (env : ElfEnv) :
    GivenBack (elfExecPath t addr env) ↔ StackCopied env := by
  unfold elfExecPath GivenBack StackCopied
  rcases env.headers with _ | _
  · exact iff_of_true rfl fun h => by cases h
  rw [if_pos rfl, (keeps_locked (.general t)).append_iff, givesBack_acquire_iff,
    (keeps_loadsPath (.mem addr) env.loads).append_iff]
  rcases env.loads.all Load.loaded with _ | _
  · exact iff_of_true (givesBack_release _) fun _ h => by cases h
  cases env.maps with
  | false => exact iff_of_true (givesBack_release _) fun _ _ h => by cases h
  | true =>
    rw [Bool.and_self, if_pos rfl, givesBack_release_iff, stackPath_iff]
    exact ⟨fun h _ _ _ => h, fun h => h rfl rfl rfl⟩

end Elf

/-! ## All of them -/

inductive LockCall where
  | kill (c : Caller) (pid sig : BitVec 32)
  | timerCreate (t : Pid) (clock : Bool) (event : Option SigEvent)
  | sigaltstack (t : Pid) (ft : FrameTask) (call : AltstackCall)
  | ptrace (t : Pid) (call : PtraceCall)
  | taskCreate (allocated : Bool)
  | elfExec (t : Pid) (addr : Nat) (env : ElfEnv)

def callPath (k : View) : LockCall → List Ev
  | .kill c pid sig => doKillPath k.mail c pid.toInt sig 0
  | .timerCreate t clock event => timerCreatePath k t clock event
  | .sigaltstack t ft call => sigaltstackPath k t ft call
  | .ptrace t call => ptracePath k t call
  | .taskCreate allocated => taskCreatePath allocated
  | .elfExec t addr env => elfExecPath t addr env

/-- What the calls must not meet. -/
def PathOk (k : View) : LockCall → Prop
  | .kill c pid sig =>
    Signal.NUM_SIGS ≤ sig.toNat ∨ GroupFound k.mail (k.mail.killPid c.task pid.toInt)
  | .timerCreate _ clock event => ThreadFound k clock event
  | .sigaltstack _ ft call => StackFits ft call
  | .ptrace t call => ChildFound k t call → RequestOk call (.ofWord call.request)
  | .taskCreate allocated => allocated = true
  | .elfExec _ _ env => StackCopied env

/-- **The locks of the calls.** On every path each lock that is taken is given back once, none is
given back by a thread that does not hold it, and none is taken again, exactly when the call does
not meet what its early returns and its label `beyond_hope` are for. -/
theorem locks_givenBack_iff (k : View) (call : LockCall) :
    GivenBack (callPath k call) ↔ PathOk k call := by
  cases call with
  | kill c pid sig => exact givenBack_doKillPath_iff k.mail c pid.toInt sig 0
  | timerCreate t clock event => exact givenBack_timerCreatePath_iff k t clock event
  | sigaltstack t ft call => exact givenBack_sigaltstackPath_iff k t ft call
  | ptrace t call => exact givenBack_ptracePath_iff k t call
  | taskCreate allocated => exact givenBack_taskCreatePath_iff allocated
  | elfExec t addr env => exact givenBack_elfExecPath_iff t addr env

/-- The first process with a child that is stopped for it. -/
def tracer : View where
  mail :=
    { Mail.init with
      sys :=
        { procs :=
            { task := fun p =>
                if p = 1 then some ⟨1, none, [2], 0, false, false, false, 0⟩
                else if p = 2 then some ⟨2, some 1, [], 0, false, false, true, 5⟩
                else none
              group := fun p =>
                if p = 1 then some ⟨[1], 1, 1, false, false, 0⟩
                else if p = 2 then some ⟨[2], 1, 1, false, false, 0⟩
                else none
              session := fun p => if p = 1 then [1, 2] else []
              pgroup := fun p => if p = 1 then [1, 2] else [] }
          waits := fun _ => none } }
  mm := fun p => p

/-- A task that is not on its alternate stack. -/
def offStack : FrameTask where
  cpu :=
    { eax := 0, ecx := 0, edx := 0, ebx := 0, esp := 0xbffff000, ebp := 0, esi := 0, edi := 0
      eip := 0x8048000, eflags := 0x202, cf := 0, of := 0, res := 0, op1 := 0, op2 := 0
      pfRes := false, zfRes := false, sfRes := false, afOps := false, segfaultAddr := 0
      trapno := 0 }
  blocked := 0
  altstack := 0
  altstackSize := 0
  mem := fun _ => none

/-- One path for each call on which the locks are wrong: a signal to process group 5, which nobody
is in; a timer for thread 77, which does not exist; an alternate stack of 1024 bytes; the registers
of the stopped child from an address that cannot be read; no memory for a new task; and arguments
that cannot be copied to the stack of a new program. -/
theorem locks_not_givenBack :
    ¬ GivenBack (callPath tracer (.kill ⟨1, 0, fun _ => true⟩ (-5) 15)) ∧
      ¬ GivenBack (callPath tracer
        (.timerCreate 1 true (some ⟨10, Signal.SIGEV_THREAD_ID, 77⟩))) ∧
      ¬ GivenBack (callPath tracer (.sigaltstack 1 offStack ⟨none, some (some ⟨4096, 0, 1024⟩)⟩)) ∧
      ¬ GivenBack (callPath tracer (.ptrace 1 ⟨13, 2, 0, 0, false⟩)) ∧
      ¬ GivenBack (callPath tracer (.taskCreate false)) ∧
      ¬ GivenBack (callPath tracer
        (.elfExec 1 7 ⟨true, [⟨true, none, true⟩], true, [true, true, false], [], true⟩)) := by
  refine ⟨?_, ?_, ?_, ?_, ?_, ?_⟩
  · rw [callPath, givenBack_doKillPath_iff]
    rintro (hsig | hgroup)
    · exact absurd hsig (by decide)
    · exact hgroup (by decide) (by decide) (by decide)
  · rw [callPath, givenBack_timerCreatePath_iff]
    intro h
    exact absurd (h _ rfl rfl rfl) (by decide)
  · rw [callPath, givenBack_sigaltstackPath_iff]
    intro h
    have hsize := h ⟨4096, 0, 1024⟩ (by simp) rfl (by decide) (by decide)
    exact absurd hsize (by decide)
  · rw [callPath, givenBack_ptracePath_iff]
    intro h
    have hfound : ChildFound tracer 1 ⟨13, 2, 0, 0, false⟩ := by
      unfold ChildFound
      decide
    cases h hfound
  · rw [callPath, givenBack_taskCreatePath_iff]
    decide
  rw [callPath, givenBack_elfExecPath_iff]
  intro h
  exact absurd (h rfl rfl rfl).1 (by decide)

end Ish.Locking
