import Ish.Lib.Counted
import Ish.Process.Rows

set_option autoImplicit false

/-! # A `clone` that fails

`sys_clone` and `copy_task` (`kernel/fork.c`), with the failures of every call they make. The new
task gets its own file table, file system information and signal handlers, or one more reference to
the caller's. Then it is put into the lists of its thread group, or of a new group with its process
group and session. Last come the accesses to user memory that the flags ask for.

The labels at the end of `copy_task` give back the tables, and `task_destroy` takes the task out of
the table of pids and its parent's list. Nothing takes it out of the lists of its group. So a call
that fails at a table leaves everything as it was, and one that fails at user memory leaves the
thread, or the whole group, behind.

The memory map is left out: `mm_copy`, `mm_retain` and `mm_release` are stubs here.
-/

namespace Ish.Process

open Option List Function Ish.Lib Procs

/-! ## Flags -/

def CSIGNAL : BitVec 32 := 0x000000ff
def CLONE_VM : BitVec 32 := 0x00000100
def CLONE_FS : BitVec 32 := 0x00000200
def CLONE_FILES : BitVec 32 := 0x00000400
def CLONE_SIGHAND : BitVec 32 := 0x00000800
def CLONE_VFORK : BitVec 32 := 0x00004000
def CLONE_THREAD : BitVec 32 := 0x00010000
def CLONE_SYSVSEM : BitVec 32 := 0x00040000
def CLONE_SETTLS : BitVec 32 := 0x00080000
def CLONE_PARENT_SETTID : BitVec 32 := 0x00100000
def CLONE_CHILD_CLEARTID : BitVec 32 := 0x00200000
def CLONE_DETACHED : BitVec 32 := 0x00400000
def CLONE_CHILD_SETTID : BitVec 32 := 0x01000000

def IMPLEMENTED_FLAGS : BitVec 32 :=
  CLONE_VM ||| CLONE_FILES ||| CLONE_FS ||| CLONE_SIGHAND ||| CLONE_SYSVSEM ||| CLONE_VFORK |||
    CLONE_THREAD ||| CLONE_SETTLS ||| CLONE_CHILD_SETTID ||| CLONE_PARENT_SETTID |||
    CLONE_CHILD_CLEARTID ||| CLONE_DETACHED

def has (flags flag : BitVec 32) : Bool := flags &&& flag != 0

/-- The checks of `sys_clone`. -/
def accepts (flags : BitVec 32) : Bool :=
  !has (flags &&& ~~~CSIGNAL) (~~~IMPLEMENTED_FLAGS) &&
    !(has flags CLONE_SIGHAND && !has flags CLONE_VM) &&
    !(has flags CLONE_THREAD && !has flags CLONE_SIGHAND)

/-! ## The state -/

/-- The tables that a task points to. -/
structure Owned where
  files : Nat
  fs : Nat
  sighand : Nat

structure FsInfo where
  pwd : Nat
  root : Nat

structure Kernel where
  procs : Procs
  /-- The terminal of each group. -/
  tty : Pid → Option Nat
  ttyRef : Nat → Nat
  own : Pid → Option Owned
  /-- The slots of each file table. -/
  files : Store (List (Option Nat))
  fs : Store FsInfo
  sighand : Store Unit
  /-- The open files. -/
  fds : Store Unit
  /-- Whether the call has left `pids_lock` locked. -/
  pidsLock : Bool

/-- What the call meets: the pid and the addresses that it is given, which allocations fail, and
which addresses of the user can be used. -/
structure CloneEnv where
  pid : Pid
  task : Bool
  files : Option Nat
  fs : Option Nat
  sighand : Option Nat
  group : Bool
  tls : Bool
  ctid : Bool
  ptid : Bool

inductive CloneError where
  | einval
  | enomem
  | efault
deriving DecidableEq

/-- How `copy_task` ends. -/
inductive Copied where
  | ok
  | error (e : CloneError)
  /-- A null pointer is used. -/
  | dies
deriving DecidableEq

inductive CloneResult where
  | pid (p : Pid)
  | error (e : CloneError)
  | dies
deriving DecidableEq

namespace Kernel

def openFiles (slots : List (Option Nat)) : List Nat := slots.filterMap id

/-! ## Giving back -/

def sighandRelease (k : Kernel) (p : Pid) : Kernel :=
  match k.own p with
  | none => k
  | some o => { k with sighand := (k.sighand.release o.sighand).1 }

def fsInfoRelease (k : Kernel) (p : Pid) : Kernel :=
  match k.own p with
  | none => k
  | some o =>
    match k.fs.release o.fs with
    | (fs, none) => { k with fs := fs }
    | (fs, some f) => { k with fs := fs, fds := k.fds.releaseAll [f.pwd, f.root] }

def fdtableRelease (k : Kernel) (p : Pid) : Kernel :=
  match k.own p with
  | none => k
  | some o =>
    match k.files.release o.files with
    | (files, none) => { k with files := files }
    | (files, some slots) => { k with files := files, fds := k.fds.releaseAll (openFiles slots) }

/-- The labels of `copy_task`. -/
def failFreeFiles (k : Kernel) (p : Pid) : Kernel := k.fdtableRelease p

def failFreeFs (k : Kernel) (p : Pid) : Kernel := (k.fsInfoRelease p).failFreeFiles p

def failFreeSighand (k : Kernel) (p : Pid) : Kernel := (k.sighandRelease p).failFreeFs p

/-! ## Copying -/

/-- `task_create_`, after its allocation. -/
def taskCreate (k : Kernel) (t p : Pid) (T : Task) : Kernel :=
  { k with
    procs := k.procs.taskCreate t p T T.group
    own := update k.own p (k.own t) }

def taskDestroy (k : Kernel) (p : Pid) : Kernel :=
  { k with procs := k.procs.taskDestroy p, own := update k.own p none }

/-- One more reference, or `fdtable_copy`. -/
def copyFiles (k : Kernel) (p : Pid) (flags : BitVec 32) (env : CloneEnv) : Option Kernel :=
  match k.own p with
  | none => none
  | some o =>
    if has flags CLONE_FILES then some { k with files := k.files.retain o.files }
    else
      match env.files, k.files o.files with
      | some i, some c =>
        some
          { k with
            files := k.files.alloc i c.held
            fds := k.fds.retainAll (openFiles c.held)
            own := update k.own p (some { o with files := i }) }
      | _, _ => none

/-- One more reference, or `fs_info_copy`. -/
def copyFs (k : Kernel) (p : Pid) (flags : BitVec 32) (env : CloneEnv) : Option Kernel :=
  match k.own p with
  | none => none
  | some o =>
    if has flags CLONE_FS then some { k with fs := k.fs.retain o.fs }
    else
      match env.fs, k.fs o.fs with
      | some i, some c =>
        some
          { k with
            fs := k.fs.alloc i c.held
            fds := k.fds.retainAll [c.held.pwd, c.held.root]
            own := update k.own p (some { o with fs := i }) }
      | _, _ => none

/-- One more reference, or `sighand_copy`. -/
def copySighand (k : Kernel) (p : Pid) (flags : BitVec 32) (env : CloneEnv) : Option Kernel :=
  match k.own p with
  | none => none
  | some o =>
    if has flags CLONE_SIGHAND then some { k with sighand := k.sighand.retain o.sighand }
    else
      match env.sighand with
      | some i =>
        some
          { k with
            sighand := k.sighand.alloc i ()
            own := update k.own p (some { o with sighand := i }) }
      | none => none

/-- The part under `pids_lock`: the task goes into the list of its group, or `tgroup_copy` makes a
new one, with one more reference to the terminal. -/
def register (k : Kernel) (p : Pid) (flags : BitVec 32) (env : CloneEnv) : Option Kernel :=
  match k.procs.groupOf p with
  | none => none
  | some g =>
    if has flags CLONE_THREAD then
      some
        { k with procs := k.procs.modGroup g (fun G => { G with threads := p :: G.threads }) }
    else
      match env.group, k.procs.group g with
      | true, some G =>
        some
          { k with
            procs := (k.procs.modTask p (fun X => { X with group := p })).tgroupCopy g p G
            tty := update k.tty p (k.tty g)
            ttyRef :=
              match k.tty g with
              | some y => update k.ttyRef y (k.ttyRef y + 1)
              | none => k.ttyRef }
      | _, _ => none

/-- An access to user memory that the flags ask for fails. -/
def userFault (flags : BitVec 32) (env : CloneEnv) : Bool :=
  (has flags CLONE_SETTLS && !env.tls) || (has flags CLONE_CHILD_SETTID && !env.ctid) ||
    (has flags CLONE_PARENT_SETTID && !env.ptid)

def copyTask (k : Kernel) (p : Pid) (flags : BitVec 32) (env : CloneEnv) : Kernel × Copied :=
  match k.copyFiles p flags env with
  | none => (k, .error .enomem)
  | some k1 =>
    match k1.copyFs p flags env with
    -- `fs_info_copy` does not look whether `fs_info_new` has failed
    | none => (k1, .dies)
    | some k2 =>
      match k2.copySighand p flags env with
      | none => (k2.failFreeFs p, .error .enomem)
      | some k3 =>
        match k3.register p flags env with
        -- neither does `tgroup_copy`
        | none => (k3, .dies)
        | some k4 =>
          if userFault flags env then (k4.failFreeSighand p, .error .efault)
          else (k4, .ok)

/-- The pid and the addresses are free ones. -/
def fresh (k : Kernel) (env : CloneEnv) : Bool :=
  decide (1 ≤ env.pid) && decide (env.pid ≤ MAX_PID) && k.procs.pidEmpty env.pid &&
    (k.own env.pid).isNone && env.files.all (fun i => (k.files i).isNone) &&
    env.fs.all (fun i => (k.fs i).isNone) && env.sighand.all (fun i => (k.sighand i).isNone)

/-- The task is there with its tables. -/
def equipped (k : Kernel) (t : Pid) : Bool :=
  (k.own t).any fun o =>
    (k.files o.files).isSome && (k.fs o.fs).isSome && (k.sighand o.sighand).isSome

/-- `sys_clone` of the task `t`. -/
def sysClone (k : Kernel) (t : Pid) (flags : BitVec 32) (env : CloneEnv) :
    Option (Kernel × CloneResult) :=
  if accepts flags = false then some (k, .error .einval)
  else if k.fresh env = false ∨ k.equipped t = false then none
  else
    match k.procs.task t with
    | none => none
    | some T =>
      -- `task_create_` gives up without unlocking
      if env.task = false then some ({ k with pidsLock := true }, .error .enomem)
      else
        match (k.taskCreate t env.pid T).copyTask env.pid flags env with
        | (k', .ok) => some (k', .pid env.pid)
        | (k', .error e) => some (k'.taskDestroy env.pid, .error e)
        | (k', .dies) => some (k', .dies)

/-! ## What the copies and the labels do to the rest -/

/-- The task with other pointers. -/
def repoint (k : Kernel) (p : Pid) (o : Owned) : Kernel :=
  { k with own := update k.own p (some o) }

section Copies

variable {k k' : Kernel} {p : Pid} {o : Owned} {flags : BitVec 32} {env : CloneEnv}

theorem repoint_self (ho : k.own p = some o) : k.repoint p o = k := by
  unfold repoint
  rw [← ho, update_eq_self]

theorem fdtableRelease_repoint (ho : k.own p = some o) {o' : Owned} (hfiles : o'.files = o.files) :
    (k.repoint p o').fdtableRelease p = (k.fdtableRelease p).repoint p o' := by
  unfold fdtableRelease repoint
  simp only [update_self, ho, hfiles]
  split <;> rfl

/-- **The copy of the file table**: it fails for want of memory, or it can be given back. -/
theorem copyFiles_cases (flags : BitVec 32) (ho : k.own p = some o)
    (htable : (k.files o.files).isSome = true)
    (hfree : ∀ i, env.files = some i → k.files i = none) :
    (has flags CLONE_FILES || env.files.isSome) = false ∧ k.copyFiles p flags env = none ∨
    (has flags CLONE_FILES || env.files.isSome) = true ∧ ∃ k' o',
      k.copyFiles p flags env = some k' ∧ k'.own p = some o' ∧ o'.fs = o.fs ∧
      k'.procs = k.procs ∧ k'.fs = k.fs ∧ k'.fdtableRelease p = k.repoint p o' := by
  obtain ⟨c, hc⟩ := isSome_iff_exists.mp htable
  unfold copyFiles
  simp only [ho, hc]
  cases hhas : has flags CLONE_FILES with
  | true =>
    refine .inr ⟨rfl, _, o, rfl, ho, rfl, rfl, rfl, ?_⟩
    simp only [fdtableRelease, ho, Store.release_retain, repoint_self]
  | false =>
    cases hi : env.files with
    | none => exact .inl ⟨rfl, rfl⟩
    | some i =>
      refine .inr ⟨rfl, _, { o with files := i }, rfl, update_self .., rfl, rfl, rfl, ?_⟩
      simp only [fdtableRelease, update_self, Store.release_alloc (hfree i hi),
        Store.releaseAll_retainAll, repoint]

theorem copyFs_cases (flags : BitVec 32) (ho : k.own p = some o)
    (hinfo : (k.fs o.fs).isSome = true) (hfree : ∀ i, env.fs = some i → k.fs i = none) :
    (has flags CLONE_FS || env.fs.isSome) = false ∧ k.copyFs p flags env = none ∨
    (has flags CLONE_FS || env.fs.isSome) = true ∧ ∃ k' o',
      k.copyFs p flags env = some k' ∧ k'.own p = some o' ∧ o'.files = o.files ∧
      k'.procs = k.procs ∧ k'.fsInfoRelease p = k.repoint p o' := by
  obtain ⟨c, hc⟩ := isSome_iff_exists.mp hinfo
  unfold copyFs
  simp only [ho, hc]
  cases hhas : has flags CLONE_FS with
  | true =>
    refine .inr ⟨rfl, _, o, rfl, ho, rfl, rfl, ?_⟩
    simp only [fsInfoRelease, ho, Store.release_retain, repoint_self]
  | false =>
    cases hi : env.fs with
    | none => exact .inl ⟨rfl, rfl⟩
    | some i =>
      refine .inr ⟨rfl, _, { o with fs := i }, rfl, update_self .., rfl, rfl, ?_⟩
      simp only [fsInfoRelease, update_self, Store.release_alloc (hfree i hi),
        Store.releaseAll_retainAll, repoint]

theorem copySighand_cases (flags : BitVec 32) (env : CloneEnv) (ho : k.own p = some o) :
    (has flags CLONE_SIGHAND || env.sighand.isSome) = false ∧ k.copySighand p flags env = none ∨
    (has flags CLONE_SIGHAND || env.sighand.isSome) = true ∧ ∃ k',
      k.copySighand p flags env = some k' ∧ k'.procs = k.procs := by
  unfold copySighand
  simp only [ho]
  cases has flags CLONE_SIGHAND with
  | true => exact .inr ⟨rfl, _, rfl, rfl⟩
  | false =>
    cases env.sighand with
    | none => exact .inl ⟨rfl, rfl⟩
    | some i => exact .inr ⟨rfl, _, rfl, rfl⟩

theorem failFreeSighand_procs (k : Kernel) (p : Pid) : (k.failFreeSighand p).procs = k.procs := by
  have hfiles : ∀ k : Kernel, (k.fdtableRelease p).procs = k.procs := by
    intro k
    unfold fdtableRelease
    split
    · rfl
    · split <;> rfl
  have hfs : ∀ k : Kernel, (k.fsInfoRelease p).procs = k.procs := by
    intro k
    unfold fsInfoRelease
    split
    · rfl
    · split <;> rfl
  have hsighand : (k.sighandRelease p).procs = k.procs := by
    unfold sighandRelease
    split <;> rfl
  calc
    (k.failFreeSighand p).procs = ((k.sighandRelease p).fsInfoRelease p).procs := hfiles _
    _ = (k.sighandRelease p).procs := hfs _
    _ = k.procs := hsighand

end Copies

end Kernel

/-! ## The task itself -/

namespace Procs

/-- `task_destroy` right after `task_create_`. -/
theorem taskDestroy_taskCreate {s : Procs} {t p : Pid} {T : Task} (hT : s.task t = some T)
    (hp : s.task p = none) (g : Pid) : (s.taskCreate t p T g).taskDestroy p = s := by
  have hne : t ≠ p := by
    rintro rfl
    simp [hT] at hp
  have htask : ((s.taskCreate t p T g).taskDestroy p).task = s.task := by
    funext x
    by_cases hx : x = p
    · subst hx
      simp [taskDestroy, hp]
    by_cases hxt : x = t
    · subst hxt
      simp [taskCreate, taskDestroy, modTask, hx, hT]
    · simp [taskCreate, taskDestroy, modTask, hx, hxt]
  have hgroup : ((s.taskCreate t p T g).taskDestroy p).group = s.group := by
    simp [taskCreate, taskDestroy, modTask]
  have hsession : ((s.taskCreate t p T g).taskDestroy p).session = s.session := by
    simp [taskCreate, taskDestroy, modTask]
  have hpgroup : ((s.taskCreate t p T g).taskDestroy p).pgroup = s.pgroup := by
    simp [taskCreate, taskDestroy, modTask]
  cases h : (s.taskCreate t p T g).taskDestroy p
  rw [h] at htask hgroup hsession hpgroup
  cases s
  simp_all

theorem taskDestroy_group (s : Procs) (t : Pid) : (s.taskDestroy t).group = s.group := by
  unfold taskDestroy
  split <;> rfl

/-- The group pointer of the new task is set after the rest. -/
theorem modTask_taskCreate (s : Procs) (t p : Pid) (T : Task) (g : Pid) :
    (s.taskCreate t p T g).modTask p (fun X => { X with group := p }) = s.taskCreate t p T p := by
  simp [taskCreate, modTask]

/-! ## The lists hold groups that are there -/

def Listed (s : Procs) : Prop :=
  ∀ q g, g ∈ s.pgroup q ∨ g ∈ s.session q → s.group g ≠ none

section Listed

variable {s s' : Procs}

theorem Listed.of_group (h : s.Listed) (hpgroup : s'.pgroup = s.pgroup)
    (hsession : s'.session = s.session) (hgroup : ∀ g, s.group g ≠ none → s'.group g ≠ none) :
    s'.Listed := by
  intro q g hmem
  rw [hpgroup, hsession] at hmem
  exact hgroup g (h q g hmem)

theorem mem_link_unlink {L : Pid → List Pid} {i g q x : Pid}
    (hmem : x ∈ link (unlink L g) i g q) : x = g ∨ x ∈ L q := by
  unfold link at hmem
  by_cases hq : q = i
  · subst hq
    rw [update_self, mem_cons] at hmem
    rcases hmem with rfl | hmem
    · exact .inl rfl
    · exact .inr (mem_of_mem_filter hmem)
  · rw [update_of_ne hq] at hmem
    exact .inr (mem_of_mem_filter hmem)

theorem Listed.clone (h : s.Listed) {t p : Pid} {thread : Bool}
    (hclone : s.clone t p thread = some s') : s'.Listed := by
  obtain ⟨T, G, -, -, -, -, -, hcases⟩ := clone_cases hclone
  rcases hcases with ⟨-, rfl⟩ | ⟨-, rfl⟩
  · refine h.of_group rfl rfl ?_
    intro g hg
    rw [ne_eq, modGroup_group_none]
    exact hg
  intro q g hmem
  show update s.group p _ g ≠ none
  by_cases hg : g = p
  · simp [hg]
  rw [update_of_ne hg]
  refine h q g ?_
  -- the only new member is the new group
  have hold : ∀ L : Pid → List Pid, g ∈ linkAfter L T.group p q → g ∈ L q := by
    intro L hL
    exact (mem_insertAfter.mp hL).resolve_right fun hnew => hg hnew.1
  exact hmem.imp (hold s.pgroup) (hold s.session)

theorem doExit_lists {t : Pid} {status : Nat} {g : Option Pid}
    (hexit : s.doExit t status = some (s', g)) :
    s'.pgroup = s.pgroup ∧ s'.session = s.session := by
  obtain ⟨T, np, -, -, hcases⟩ := doExit_cases hexit
  have hdrop : ∀ s : Procs, (s.dropThread t T.group).pgroup = s.pgroup ∧
      (s.dropThread t T.group).session = s.session := by
    intro s
    unfold dropThread taskDestroy
    split
    · exact ⟨rfl, rfl⟩
    · split <;> exact ⟨rfl, rfl⟩
  have hleave := sameGroups_leaveGroup s t T status np
  rcases hcases with ⟨-, q, -, rfl, -⟩ | ⟨-, rfl, -⟩
  · rw [(hdrop _).1, (hdrop _).2]
    exact ⟨hleave.pgroup, hleave.session⟩
  rw [(hdrop _).1, (hdrop _).2]
  exact ⟨hleave.pgroup, hleave.session⟩

theorem Listed.doExit (h : s.Listed) {t : Pid} {status : Nat} {n : Option Pid}
    (hexit : s.doExit t status = some (s', n)) : s'.Listed := by
  obtain ⟨hpgroup, hsession⟩ := doExit_lists hexit
  obtain ⟨T, np, -, hgroup⟩ := doExit_group hexit
  refine h.of_group hpgroup hsession ?_
  intro g hg
  rw [hgroup, leaveGroup_group]
  split
  · simpa using hg
  · exact hg

theorem Listed.reapIfNeeded (h : s.Listed) {z : Pid} {options : WaitOptions} {status : Nat}
    (hreap : s.reapIfNeeded z options = some (status, s')) : s'.Listed := by
  rcases reapIfNeeded_effect hreap with rfl | ⟨-, -, -, rfl⟩ | rfl | ⟨-, -, -, -, -, -, rfl⟩
  · exact h
  · refine h.of_group rfl rfl ?_
    intro g hg
    rw [ne_eq, modGroup_group_none]
    exact hg
  · exact h
  intro q g hmem
  have hlists : (s.reap z).pgroup = unlink s.pgroup z ∧
      (s.reap z).session = unlink s.session z := by
    unfold reap taskDestroy
    split <;> exact ⟨rfl, rfl⟩
  rw [hlists.1, hlists.2] at hmem
  have hg : g ≠ z := by
    rcases hmem with hmem | hmem
    · simpa using (mem_filter.mp hmem).2
    · simpa using (mem_filter.mp hmem).2
  rw [reap_group, update_of_ne hg]
  exact h q g (hmem.imp mem_of_mem_filter mem_of_mem_filter)

end Listed

end Procs

namespace Sys

open Procs

theorem step_listed {σ σ' : Sys} {op : Op} (h : σ.procs.Listed) (hmoves : Moves σ op σ') :
    σ'.procs.Listed := by
  cases hmoves with
  | same => exact h
  | clone _ hs => exact h.clone hs
  | setpgid hruns hcheck hother =>
    rename_i t g id pgid
    obtain ⟨-, G, -, -, hG, -⟩ := setpgidCheck_ok hcheck
    intro q x hmem
    refine (modGroup_group_none σ.procs g _ x).not.mpr ?_
    rcases hmem with hmem | hmem
    · rcases mem_link_unlink hmem with rfl | hmem
      · simp [hG]
      · exact h q x (.inl hmem)
    · exact h q x (.inr hmem)
  | setsid hruns hcheck =>
    rename_i t g
    obtain ⟨-, G, -, -, hG⟩ := setsidCheck_ok hcheck
    intro q x hmem
    refine (modGroup_group_none σ.procs g _ x).not.mpr ?_
    rcases hmem with hmem | hmem
    · rcases mem_link_unlink hmem with rfl | hmem
      · simp [hG]
      · exact h q x (.inl hmem)
    rcases mem_link_unlink hmem with rfl | hmem
    · simp [hG]
    · exact h q x (.inr hmem)
  | exit _ hs => exact h.doExit hs
  | report hs =>
    have hsame := sameGroups_report _ hs
    refine h.of_group hsame.pgroup hsame.session ?_
    intro g hg hnone
    have hpgid := congrFun hsame.pgidOf g
    exact hg (map_eq_none_iff.mp (hpgid.symm.trans (map_eq_none_iff.mpr hnone)))
  | found _ hscan =>
    obtain ⟨z, -, hz, -⟩ := scanned_of_scan hscan
    exact h.reapIfNeeded hz
  | leaves => exact h
  | sleeps => exact h

theorem init_listed : init.procs.Listed := by
  intro q g hmem
  have hg : g = 1 := by
    simp only [init] at hmem
    split at hmem
    · simpa using hmem
    · simp at hmem
  simp [init, hg]

theorem run_listed {ops : List Op} {σ : Sys} {answers : List Answer}
    (hrun : machine.run init ops = some (σ, answers)) : σ.procs.Listed :=
  Machine.run_inv (P := fun _ _ => True) (I := fun σ => σ.procs.Listed)
    (fun _ _ _ _ h _ hstep => step_listed h (step_moves hstep)) init_listed
    (Machine.along_of_forall (fun _ _ _ => trivial) _) hrun

end Sys

namespace Kernel

/-! ## The ways in which the call fails -/

/-- Every allocation that the flags ask for succeeds. -/
def copies (flags : BitVec 32) (env : CloneEnv) : Bool :=
  env.task && (has flags CLONE_FILES || env.files.isSome) &&
    (has flags CLONE_FS || env.fs.isSome) && (has flags CLONE_SIGHAND || env.sighand.isSome) &&
    (has flags CLONE_THREAD || env.group)

section Fails

variable {k k' : Kernel} {t : Pid} {T : Task} {flags : BitVec 32} {env : CloneEnv}
variable {g p : Pid} {o : Owned} {G : TGroup} {e : CloneError}

/-- The caller's tables, and those that are free. -/
theorem equipped_iff : k.equipped t = true ↔ ∃ o, k.own t = some o ∧
    (k.files o.files).isSome = true ∧ (k.fs o.fs).isSome = true ∧
      (k.sighand o.sighand).isSome = true := by
  unfold equipped
  rw [Option.any_eq_true]
  simp only [Bool.and_eq_true, and_assoc]

structure Fresh (k : Kernel) (env : CloneEnv) : Prop where
  range : 1 ≤ env.pid ∧ env.pid ≤ MAX_PID
  empty : k.procs.pidEmpty env.pid = true
  own : k.own env.pid = none
  files : ∀ i, env.files = some i → k.files i = none
  fs : ∀ i, env.fs = some i → k.fs i = none

theorem fresh_spec (h : k.fresh env = true) : Fresh k env := by
  simp only [fresh, Bool.and_eq_true, decide_eq_true_eq, Option.isNone_iff_eq_none,
    Option.all_eq_true] at h
  obtain ⟨⟨⟨⟨⟨⟨hpos, hle⟩, hempty⟩, hown⟩, hfiles⟩, hfs⟩, -⟩ := h
  exact ⟨⟨hpos, hle⟩, hempty, hown, hfiles, hfs⟩

theorem Fresh.task (h : Fresh k env) : k.procs.task env.pid = none := by
  have hempty := h.empty
  simp only [pidEmpty, Bool.and_eq_true, isNone_iff_eq_none] at hempty
  exact hempty.1.1

/-- The new task is destroyed, whatever its pointers are. -/
theorem taskDestroy_taskCreate (h : Fresh k env) (hT : k.procs.task t = some T) (o : Owned) :
    ((k.taskCreate t env.pid T).repoint env.pid o).taskDestroy env.pid = k := by
  have hown : update k.own env.pid none = k.own := by
    rw [← h.own, update_eq_self]
  simp only [taskDestroy, repoint, taskCreate, Procs.taskDestroy_taskCreate hT h.task,
    update_idem, hown]

/-- A call that gets as far as the lists. -/
theorem register_cases (flags : BitVec 32) (env : CloneEnv)
    (hgroupOf : k.procs.groupOf p = some g) (hG : k.procs.group g = some G) :
    (has flags CLONE_THREAD || env.group) = false ∧ k.register p flags env = none ∨
    (has flags CLONE_THREAD || env.group) = true ∧ ∃ k', k.register p flags env = some k' ∧
      ∃ g G, k'.procs.group g = some G ∧ p ∈ G.threads := by
  unfold register
  simp only [hgroupOf, hG]
  cases has flags CLONE_THREAD with
  | true =>
    exact .inr ⟨rfl, _, rfl, g, { G with threads := p :: G.threads },
      by simp [modGroup, hG], mem_cons_self⟩
  | false =>
    cases env.group with
    | false => exact .inl ⟨rfl, rfl⟩
    | true =>
      exact .inr ⟨rfl, _, rfl, p, { G with threads := [p], doingGroupExit := false },
        by simp [tgroupCopy], mem_cons_self⟩

/-- The task is in the lists of `k4`, which `register` has made of the process table of `k`. -/
structure Registered (k k4 : Kernel) (p : Pid) (flags : BitVec 32) (env : CloneEnv) : Prop where
  register : ∃ k3 : Kernel, k3.procs = k.procs ∧ k3.register p flags env = some k4
  listed : ∃ g G, k4.procs.group g = some G ∧ p ∈ G.threads

/-- **How `copy_task` ends.** The tables are given back in the order of the labels, and the lists
are left as they are. -/
theorem copyTask_cases (flags : BitVec 32) (ho : k.own p = some o)
    (htable : (k.files o.files).isSome = true) (hinfo : (k.fs o.fs).isSome = true)
    (hfiles : ∀ i, env.files = some i → k.files i = none)
    (hfs : ∀ i, env.fs = some i → k.fs i = none) (hgroupOf : k.procs.groupOf p = some g)
    (hG : k.procs.group g = some G) (htask : env.task = true) :
    (∃ k', k.copyTask p flags env = (k', .dies)) ∨
    (copies flags env = false ∧ ∃ o', k.copyTask p flags env = (k.repoint p o', .error .enomem)) ∨
    (copies flags env = true ∧ ∃ k4, Registered k k4 p flags env ∧ k.copyTask p flags env =
      if userFault flags env then (k4.failFreeSighand p, .error .efault) else (k4, .ok)) := by
  unfold copyTask
  rcases copyFiles_cases flags ho htable hfiles with
    ⟨hno, h1⟩ | ⟨hyes1, k1, o1, h1, ho1, hofs, hprocs1, hfs1, hundo1⟩
  · refine .inr (.inl ⟨by simp [copies, hno], o, ?_⟩)
    rw [h1, repoint_self ho]
  rw [← hofs, ← hfs1] at hinfo
  rw [← hfs1] at hfs
  rw [h1]
  rcases copyFs_cases flags ho1 hinfo hfs with
    ⟨-, h2⟩ | ⟨hyes2, k2, o2, h2, ho2, hfiles2, hprocs2, hundo2⟩
  · exact .inl ⟨k1, by simp only [h2]⟩
  simp only [h2]
  rcases copySighand_cases flags env ho2 with ⟨hno, h3⟩ | ⟨hyes3, k3, h3, hprocs3⟩
  · refine .inr (.inl ⟨by simp [copies, hno], o2, ?_⟩)
    simp only [h3]
    congr 1
    calc
      k2.failFreeFs p = (k2.fsInfoRelease p).fdtableRelease p := rfl
      _ = (k1.repoint p o2).fdtableRelease p := by rw [hundo2]
      _ = (k1.fdtableRelease p).repoint p o2 := fdtableRelease_repoint ho1 hfiles2
      _ = (k.repoint p o1).repoint p o2 := by rw [hundo1]
      _ = k.repoint p o2 := by simp [repoint]
  have hprocs : k3.procs = k.procs := by rw [hprocs3, hprocs2, hprocs1]
  simp only [h3]
  rcases register_cases flags env (hprocs ▸ hgroupOf) (hprocs ▸ hG) with
    ⟨-, h4⟩ | ⟨hyes4, k4, h4, hlisted⟩
  · exact .inl ⟨k3, by rw [h4]⟩
  refine .inr (.inr ⟨?_, k4, ⟨⟨k3, hprocs, h4⟩, hlisted⟩, by rw [h4]⟩)
  simp [copies, htask, hyes1, hyes2, hyes3, hyes4]

/-- **How a call ends** whose flags are accepted: everything is as before when an allocation has
failed, but for the lock in one case, it dies, or the task has been put into the lists. -/
theorem sysClone_cases {r : CloneResult} (hwf : k.procs.Wf) (haccepts : accepts flags = true)
    (h : k.sysClone t flags env = some (k', r)) : Fresh k env ∧ ∃ T, k.procs.task t = some T ∧
      (r = .dies ∨
      (copies flags env = false ∧ r = .error .enomem ∧
        (k' = k ∨ k' = { k with pidsLock := true })) ∨
      (copies flags env = true ∧
        ∃ k4, Registered (k.taskCreate t env.pid T) k4 env.pid flags env ∧
          (r = .error .efault ∧ k' = (k4.failFreeSighand env.pid).taskDestroy env.pid ∨
            r = .pid env.pid ∧ k' = k4))) := by
  unfold sysClone at h
  rw [if_neg (by simp [haccepts]), ite_none_left_eq_some] at h
  obtain ⟨hguard, h⟩ := h
  push Not at hguard
  have hfresh : Fresh k env := fresh_spec (by simpa using hguard.1)
  obtain ⟨o, ho, htable, hinfo, -⟩ := equipped_iff.mp (by simpa using hguard.2)
  rcases hT : k.procs.task t with _ | T
  · simp [hT] at h
  refine ⟨hfresh, T, rfl, ?_⟩
  simp only [hT] at h
  rcases htask : env.task with _ | _
  · simp only [htask, if_true, some.injEq, Prod.mk.injEq] at h
    exact .inr (.inl ⟨by simp [copies, htask], h.2.symm, .inr h.1.symm⟩)
  obtain ⟨G, hG⟩ := hwf.group t T hT
  simp only [htask, Bool.true_eq_false, if_false] at h
  -- the state that `copy_task` starts from
  have hown : (k.taskCreate t env.pid T).own env.pid = some o := by
    simp [taskCreate, ho]
  have hgroupOf : (k.taskCreate t env.pid T).procs.groupOf env.pid = some T.group := by
    simp [taskCreate, Procs.groupOf, Procs.taskCreate]
  rcases copyTask_cases flags hown htable hinfo hfresh.files hfresh.fs hgroupOf hG htask with
    ⟨k1, hcopy⟩ | ⟨hcopies, o', hcopy⟩ | ⟨hcopies, k4, hk4, hcopy⟩
  · rw [hcopy] at h
    cases h
    exact .inl rfl
  · rw [hcopy] at h
    cases h
    exact .inr (.inl ⟨hcopies, rfl, .inl (taskDestroy_taskCreate hfresh hT o')⟩)
  refine .inr (.inr ⟨hcopies, k4, hk4, ?_⟩)
  rw [hcopy] at h
  cases hfault : userFault flags env with
  | true =>
    rw [hfault, if_pos rfl] at h
    cases h
    exact .inl ⟨rfl, rfl⟩
  | false =>
    rw [hfault, if_neg Bool.false_ne_true] at h
    cases h
    exact .inr ⟨rfl, rfl⟩

/-- A call that succeeds is the step of the process table. -/
theorem sysClone_pid (hwf : k.procs.Wf) (h : k.sysClone t flags env = some (k', .pid p)) :
    p = env.pid ∧ k.procs.clone t p (has flags CLONE_THREAD) = some k'.procs := by
  have haccepts : accepts flags = true := by
    by_contra hno
    rw [sysClone, if_pos (by simpa using hno)] at h
    cases h
  obtain ⟨hfresh, T, hT, hdies | ⟨-, hfails, -⟩ | ⟨-, k4, hk4, ⟨hfails, -⟩ | ⟨hpid, rfl⟩⟩⟩ :=
    sysClone_cases hwf haccepts h
  · cases hdies
  · cases hfails
  · cases hfails
  obtain rfl := CloneResult.pid.inj hpid
  refine ⟨rfl, ?_⟩
  obtain ⟨G, hG⟩ := hwf.group t T hT
  obtain ⟨k3, hk3, hregister⟩ := hk4.register
  have hgroupOf : (k.taskCreate t env.pid T).procs.groupOf env.pid = some T.group := by
    simp [taskCreate, Procs.groupOf, Procs.taskCreate]
  have hgroup : (k.taskCreate t env.pid T).procs.group T.group = some G := hG
  have hfree : ¬ (env.pid = 0 ∨ MAX_PID < env.pid ∨ k.procs.pidEmpty env.pid = false) := by
    have hrange := hfresh.range
    rw [hfresh.empty]
    simp only [Bool.true_eq_false, or_false, not_or]
    exact ⟨Nat.one_le_iff_ne_zero.mp hrange.1, Nat.not_lt.mpr hrange.2⟩
  unfold register at hregister
  rw [hk3, hgroupOf] at hregister
  simp only [clone, if_neg hfree, hT, hG]
  cases hthread : has flags CLONE_THREAD with
  | true =>
    simp only [hthread, if_true, some.injEq] at hregister ⊢
    rw [← hregister]
    rfl
  | false =>
    simp only [hthread, Bool.false_eq_true, if_false, hgroup] at hregister ⊢
    split at hregister
    · rename_i G' _ hG'
      obtain rfl : G = G' := some.inj hG'
      rw [← some.inj hregister, ← modTask_taskCreate k.procs t env.pid T T.group]
      rfl
    · simp at hregister

end Fails

/-! ## Failed calls -/

/-- The state is as before the call: the process table with the parent's list of children, the
reference counts, and no list with the new task or its group in it. -/
structure Undone (k k' : Kernel) (p : Pid) : Prop where
  procs : k'.procs = k.procs
  threads : ∀ g G, k'.procs.group g = some G → p ∉ G.threads
  pgroup : ∀ q, p ∉ k'.procs.pgroup q
  session : ∀ q, p ∉ k'.procs.session q
  free : k'.procs.pidEmpty p = true
  tty : k'.tty = k.tty ∧ k'.ttyRef = k.ttyRef
  files : k'.files = k.files
  fs : k'.fs = k.fs
  sighand : k'.sighand = k.sighand
  fds : k'.fds = k.fds

/-- A free pid is in no list. -/
theorem undone_of_same {k k' : Kernel} {env : CloneEnv} (hwf : k.procs.Wf)
    (hlisted : k.procs.Listed) (hfresh : Fresh k env)
    (h : k' = k ∨ k' = { k with pidsLock := true }) : Undone k k' env.pid := by
  have hgroup : k.procs.group env.pid = none := by
    by_contra hne
    obtain ⟨G, hG⟩ := ne_none_iff_exists'.mp hne
    have hlead := hwf.leader env.pid G hG
    simp [groupOf, hfresh.task] at hlead
  have hsame : Undone k k env.pid := by
    refine ⟨rfl, ?_, ?_, ?_, hfresh.empty, ⟨rfl, rfl⟩, rfl, rfl, rfl, rfl⟩
    · intro g G hG hmem
      have hthread := (hwf.threads g G hG).2 env.pid hmem
      simp [groupOf, hfresh.task] at hthread
    · exact fun q hmem => hlisted q env.pid (.inl hmem) hgroup
    · exact fun q hmem => hlisted q env.pid (.inr hmem) hgroup
  rcases h with rfl | rfl
  · exact hsame
  · exact ⟨hsame.1, hsame.2, hsame.3, hsame.4, hsame.5, hsame.6, hsame.7, hsame.8, hsame.9,
      hsame.10⟩

/-- In every reachable process table, a call of a running thread that fails after the checks of its
flags has left no trace exactly when it has failed at an allocation. -/
theorem clone_undone_iff {ops : List Sys.Op} {σ : Sys} {answers : List Sys.Answer}
    (hrun : Sys.machine.run Sys.init ops = some (σ, answers)) {k k' : Kernel}
    (hprocs : k.procs = σ.procs) {t : Pid} {flags : BitVec 32} (haccepts : accepts flags = true)
    {env : CloneEnv} {e : CloneError} (h : k.sysClone t flags env = some (k', .error e)) :
    Undone k k' env.pid ↔ copies flags env = false := by
  have hwf : k.procs.Wf := hprocs ▸ Sys.run_wf hrun
  have hlisted : k.procs.Listed := hprocs ▸ Sys.run_listed hrun
  obtain ⟨hfresh, T, -, hdies | ⟨hcopies, -, hsame⟩ | ⟨hcopies, k4, hk4, ⟨-, rfl⟩ | ⟨hok, -⟩⟩⟩ :=
    sysClone_cases hwf haccepts h
  · cases hdies
  · exact iff_of_true (undone_of_same hwf hlisted hfresh hsame) hcopies
  · obtain ⟨g, G, hG, hmem⟩ := hk4.listed
    refine iff_of_false (fun hundone => hundone.threads g G ?_ hmem) (by simp [hcopies])
    show (((k4.failFreeSighand env.pid).procs).taskDestroy env.pid).group g = some G
    rw [taskDestroy_group, failFreeSighand_procs, hG]
  · cases hok

/-- `init` with its standard files, on a terminal. -/
def boot : Kernel where
  procs := Sys.init.procs
  tty := fun g => if g = 1 then some 0 else none
  ttyRef := fun y => if y = 0 then 1 else 0
  own := fun p => if p = 1 then some ⟨0, 0, 0⟩ else none
  files := fun i => if i = 0 then some ⟨1, [some 0, some 0, some 0], by decide⟩ else none
  fs := fun i => if i = 0 then some ⟨1, ⟨1, 1⟩, by decide⟩ else none
  sighand := fun i => if i = 0 then some ⟨1, (), by decide⟩ else none
  fds := fun i =>
    if i = 0 then some ⟨3, (), by decide⟩ else if i = 1 then some ⟨2, (), by decide⟩ else none
  pidsLock := false

/-- The fork of `init`. -/
theorem sysClone_pid_fork :
    ∃ k', boot.sysClone 1 17 ⟨2, true, some 1, some 1, some 1, true, true, true, true⟩ =
        some (k', .pid 2) ∧ boot.procs.clone 1 2 false = some k'.procs :=
  (fun h => ⟨_, h, (sysClone_pid Sys.init_wf h).2⟩) rfl

/-- A fork without memory for the signal handlers. -/
theorem clone_undone_iff_no_handlers :
    let env : CloneEnv := ⟨2, true, some 1, some 1, none, true, true, true, true⟩
    ∃ k', boot.sysClone 1 17 env = some (k', .error .enomem) ∧ Undone boot k' 2 := by
  intro env
  obtain ⟨k', hk'⟩ : ∃ k', boot.sysClone 1 17 env = some (k', .error .enomem) := ⟨_, rfl⟩
  refine ⟨k', hk', ?_⟩
  have hrun : Sys.machine.run Sys.init [] = some (Sys.init, []) := rfl
  have hiff := clone_undone_iff hrun rfl (by decide) hk'
  exact hiff.mpr (by decide)

/-- A new thread whose id cannot be stored for the parent: it is freed, and still in the list of
threads of its group. -/
theorem failed_thread_stays_in_group :
    let flags := CLONE_VM ||| CLONE_FS ||| CLONE_FILES ||| CLONE_SIGHAND ||| CLONE_THREAD |||
      CLONE_PARENT_SETTID
    let env : CloneEnv := ⟨2, true, none, none, none, true, true, true, false⟩
    ∃ k', boot.sysClone 1 flags env = some (k', .error .efault) ∧ k'.procs.task 2 = none ∧
      (k'.procs.group 1).map TGroup.threads = some [2, 1] ∧ ¬ Undone boot k' 2 := by
  refine ⟨_, rfl, rfl, rfl, ?_⟩
  intro h
  exact h.threads 1 _ rfl mem_cons_self

end Kernel

end Ish.Process
