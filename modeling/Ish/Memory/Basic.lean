import Ish.Lib.Loop

set_option autoImplicit false

/-! # The page table

The data model of `kernel/memory.c`: `struct data` (a reference-counted stretch of host
memory), `struct pt_entry`, `struct mem` with its two-level page directory, and the host side.

Host memory is a collection of mappings, each named by a number and addressed by an offset
(`HostPtr`). `mmap` always hands out a new name: two mappings never overlap, and a pointer into a
mapping that is gone is not a pointer into a later one. Mapping `VDSO_MAP` is `vdso_data`, which is
never unmapped. A `struct data` is named by a number too.

The page table entries carry only what `memory.c` reads: the lists of compiled blocks that
`asbestos_invalidate_page` empties hold no guest memory and are left out.
-/

namespace Ish.Memory

open Function Ish.Lib BitVec

/-! ## Addresses and pages -/

/-- `addr_t`, a guest address. -/
abbrev Addr := BitVec 32

def PAGE_BITS : Nat := 12
def PAGE_SIZE : Nat := 2 ^ PAGE_BITS
def MEM_PAGES : Nat := 2 ^ 20
def MEM_PGDIR_SIZE : Nat := 2 ^ 10

def PAGE (addr : Addr) : Nat := addr.toNat / PAGE_SIZE
def PGOFFSET (addr : Addr) : Nat := addr.toNat % PAGE_SIZE

theorem PAGE_lt (addr : Addr) : PAGE addr < MEM_PAGES := by
  have h := addr.isLt
  simp only [PAGE, PAGE_SIZE, PAGE_BITS, MEM_PAGES] at *
  omega

theorem PGOFFSET_lt (addr : Addr) : PGOFFSET addr < PAGE_SIZE :=
  Nat.mod_lt _ (by decide)

/-- A range of pages inside the address space, as the callers of `memory.c` pass it. -/
structure PageRange where
  start : Nat
  pages : Nat
  inBounds : start + pages ≤ MEM_PAGES

theorem onePage_inBounds : 0 + 1 ≤ MEM_PAGES := by decide

/-! ## Page flags -/

/-- The `flags` of a page: an `unsigned` used as a bit set. -/
abbrev Flags := BitVec 32

def P_READ : Flags := 0x1#32
def P_WRITE : Flags := 0x2#32
def P_GROWSDOWN : Flags := 0x8#32
def P_COW : Flags := 0x10#32
def P_ANONYMOUS : Flags := 0x40#32
def P_SHARED : Flags := 0x80#32

/-- The C test `flags & bit`. -/
def has (flags bit : Flags) : Bool := flags &&& bit != 0#32

/-- `P_WRITABLE(flags)`. -/
def P_WRITABLE (flags : Flags) : Bool := has flags P_WRITE && !has flags P_COW

/-- `flags & ~P_COW`. -/
def clearCow (flags : Flags) : Flags := flags &&& ~~~P_COW

/-- `flags | P_COW`. -/
def setCow (flags : Flags) : Flags := flags ||| P_COW

theorem has_setCow_self (flags : Flags) : has (setCow flags) P_COW = true := by
  have h : setCow flags &&& P_COW = P_COW := by
    rw [setCow, BitVec.and_or_distrib_right, BitVec.and_self]
    ext i hi
    simp only [getElem_or, getElem_and]
    cases flags[i] <;> cases P_COW[i] <;> rfl
  rw [has, h]
  decide

theorem has_clearCow_self (flags : Flags) : has (clearCow flags) P_COW = false := by
  have h : clearCow flags &&& P_COW = 0#32 := by
    rw [clearCow, BitVec.and_assoc]
    have hnot : ~~~P_COW &&& P_COW = 0#32 := by decide
    rw [hnot, and_zero]
  rw [has, h]
  decide

/-- A bit other than `P_COW` does not see `P_COW` being set ... -/
theorem has_setCow {bit : Flags} (hbit : P_COW &&& bit = 0#32) (flags : Flags) :
    has (setCow flags) bit = has flags bit := by
  rw [has, has, setCow, and_or_distrib_right, hbit, or_zero]

/-- ... or cleared. -/
theorem has_clearCow {bit : Flags} (hbit : ~~~P_COW &&& bit = bit) (flags : Flags) :
    has (clearCow flags) bit = has flags bit := by
  rw [has, has, clearCow, BitVec.and_assoc, hbit]

@[simp] theorem clearCow_setCow (flags : Flags) : clearCow (setCow flags) = clearCow flags := by
  rw [clearCow, clearCow, setCow, and_or_distrib_right]
  have hnot : P_COW &&& ~~~P_COW = 0#32 := by decide
  rw [hnot, or_zero]

@[simp] theorem clearCow_clearCow (flags : Flags) :
    clearCow (clearCow flags) = clearCow flags := by
  rw [clearCow, clearCow, BitVec.and_assoc, BitVec.and_self]

/-! ## The host -/

/-- `struct data`: a stretch of host memory shared by page table entries. `data` names the
host mapping it starts; `fd` is the file shown in `/proc/pid/maps`. -/
structure Data where
  data : Nat
  size : Nat
  refcount : Nat
  fd : Option Nat
  deriving DecidableEq, Inhabited

/-- The mapping that stands for `vdso_data`. -/
def VDSO_MAP : Nat := 1

/-- A host pointer: a mapping and an offset in it. -/
structure HostPtr where
  map : Nat
  off : Nat
  deriving DecidableEq

/-- The host: the heap of `struct data`, the mappings with their bytes, the descriptors
`fd_close` was called on, and whether the process has died (a fault on memory that is gone, a
failed assertion). -/
structure Host where
  datas : Nat → Data
  freed : Nat → Bool
  nextData : Nat
  unmapped : Nat → Bool
  nextMap : Nat
  bytes : Nat → Nat → UInt8
  closed : List Nat
  died : Bool

/-- How the host answers the calls one operation makes: the error of a failed `mmap`, whether
`malloc` succeeds, and the error of a failed `mprotect` on each page. -/
structure Calls where
  mmapErr : Option Int := none
  mallocOk : Bool := true
  mprotectErr : Nat → Option Int := fun _ => none

/-- Every host call succeeds. -/
def Calls.ok : Calls := {}

def ENOMEM : Int := -12
def EINVAL : Int := -22

/-- A new anonymous mapping, all zero. -/
def Host.mmap (h : Host) : Host × Nat :=
  ({ h with
      nextMap := h.nextMap + 1
      bytes := update h.bytes h.nextMap (fun _ => 0) }, h.nextMap)

/-- A new `struct data` with no references yet. -/
def Host.newData (h : Host) (memory size : Nat) : Host × Nat :=
  let data : Data := { data := memory, size := size, refcount := 0, fd := none }
  ({ h with
      nextData := h.nextData + 1
      datas := update h.datas h.nextData data }, h.nextData)

/-- The reference count of a `struct data` changed. -/
def Host.setRefcount (h : Host) (d n : Nat) : Host :=
  let data := h.datas d
  { h with datas := update h.datas d { data with refcount := n } }

/-- `data->refcount++`. -/
def Host.retain (h : Host) (d : Nat) : Host := h.setRefcount d ((h.datas d).refcount + 1)

/-- What is done with a `struct data` whose last reference is gone: `munmap` of its memory
unless it is `vdso_data`, `fd_close` of its file, `free`. -/
def Host.destroy (h : Host) (d : Nat) : Host :=
  { h with
    unmapped := if (h.datas d).data = VDSO_MAP then h.unmapped
      else update h.unmapped (h.datas d).data true
    closed := (h.datas d).fd.toList ++ h.closed
    freed := update h.freed d true }

/-- `if (--data->refcount == 0) ...`. -/
def Host.release (h : Host) (d : Nat) : Host :=
  if (h.datas d).refcount - 1 = 0 then (h.setRefcount d 0).destroy d
  else h.setRefcount d ((h.datas d).refcount - 1)

/-- The bytes of `len` cells copied from `src` to the start of mapping `dst`. -/
def Host.memcpy (h : Host) (dst : Nat) (src : HostPtr) (len : Nat) : Host :=
  { h with
    bytes := update h.bytes dst (fun k =>
      if k < len then h.bytes src.map (src.off + k) else h.bytes dst k)
    died := h.died || h.unmapped src.map }

/-- One byte read through a host pointer. -/
def Host.load (h : Host) (p : HostPtr) : UInt8 := h.bytes p.map p.off

/-- One byte written through a host pointer. -/
def Host.store (h : Host) (p : HostPtr) (v : UInt8) : Host :=
  { h with bytes := update h.bytes p.map (update (h.bytes p.map) p.off v) }

/-- An access through a pointer into memory that is gone kills the process. -/
def Host.touch (h : Host) (p : HostPtr) : Host :=
  { h with died := h.died || h.unmapped p.map }

/-- `assert(b)`. -/
def Host.assert (h : Host) (b : Bool) : Host := { h with died := h.died || !b }

/-- The host before anything is mapped. -/
def Host.init : Host where
  datas := fun _ => default
  freed := fun _ => false
  nextData := 0
  unmapped := fun _ => false
  nextMap := 2
  bytes := fun _ _ => 0
  closed := []
  died := false

/-! ## The page directory -/

/-- `struct pt_entry`. An entry whose `data` is null counts as no entry. -/
structure PtEntry where
  data : Nat
  offset : Nat
  flags : Flags
  deriving DecidableEq

/-- `struct mem`: the page directory and `mmu.changes`. -/
structure Mem where
  pgdir : Nat → Option (Nat → Option PtEntry)
  pgdirUsed : Nat
  changes : Nat

/-- `mem_init`. -/
def memInit : Mem := { pgdir := fun _ => none, pgdirUsed := 0, changes := 0 }

def PGDIR_TOP (page : Nat) : Nat := page / MEM_PGDIR_SIZE
def PGDIR_BOTTOM (page : Nat) : Nat := page % MEM_PGDIR_SIZE

/-- `mem_pt`. -/
def memPt (mem : Mem) (page : Nat) : Option PtEntry :=
  match mem.pgdir (PGDIR_TOP page) with
  | none => none
  | some dir => dir (PGDIR_BOTTOM page)

/-- `mem_pt_new` followed by the assignment of the entry. -/
def memPtSet (mem : Mem) (page : Nat) (e : PtEntry) : Mem :=
  let dir := (mem.pgdir (PGDIR_TOP page)).getD (fun _ => none)
  let dir' := update dir (PGDIR_BOTTOM page) (some e)
  let used := if (mem.pgdir (PGDIR_TOP page)).isNone then mem.pgdirUsed + 1 else mem.pgdirUsed
  { mem with pgdir := update mem.pgdir (PGDIR_TOP page) (some dir'), pgdirUsed := used }

/-- `mem_pt_del`. -/
def memPtDel (mem : Mem) (page : Nat) : Mem :=
  match mem.pgdir (PGDIR_TOP page) with
  | none => mem
  | some dir =>
    let dir' := update dir (PGDIR_BOTTOM page) none
    { mem with pgdir := update mem.pgdir (PGDIR_TOP page) (some dir') }

/-- `mem_changed`. -/
def memChanged (mem : Mem) : Mem := { mem with changes := mem.changes + 1 }

/-- A page is the pair of its directory and its place in it. -/
theorem page_ext {p q : Nat} (ht : PGDIR_TOP p = PGDIR_TOP q)
    (hb : PGDIR_BOTTOM p = PGDIR_BOTTOM q) : p = q := by
  simp only [PGDIR_TOP, PGDIR_BOTTOM, MEM_PGDIR_SIZE] at ht hb
  omega

theorem memPt_memPtSet (mem : Mem) (page : Nat) (e : PtEntry) (q : Nat) :
    memPt (memPtSet mem page e) q = if q = page then some e else memPt mem q := by
  by_cases hq : q = page
  · subst hq
    simp [memPt, memPtSet]
  rw [if_neg hq]
  by_cases ht : PGDIR_TOP q = PGDIR_TOP page
  · have hb : PGDIR_BOTTOM q ≠ PGDIR_BOTTOM page := fun hb => hq (page_ext ht hb)
    cases hdir : mem.pgdir (PGDIR_TOP page) with
    | none | some dir => simp [memPt, memPtSet, ht, hdir, hb]
  · simp [memPt, memPtSet, update_of_ne ht]

theorem memPt_memPtDel (mem : Mem) (page q : Nat) :
    memPt (memPtDel mem page) q = if q = page then none else memPt mem q := by
  unfold memPtDel
  cases hdir : mem.pgdir (PGDIR_TOP page) with
  | none =>
    by_cases hq : q = page
    · subst hq
      simp [memPt, hdir]
    · simp [hq]
  | some dir =>
    by_cases hq : q = page
    · subst hq
      simp [memPt]
    rw [if_neg hq]
    by_cases ht : PGDIR_TOP q = PGDIR_TOP page
    · have hb : PGDIR_BOTTOM q ≠ PGDIR_BOTTOM page := fun hb => hq (page_ext ht hb)
      simp [memPt, ht, hdir, hb]
    · simp [memPt, update_of_ne ht]

@[simp] theorem memPt_memChanged (mem : Mem) (page : Nat) :
    memPt (memChanged mem) page = memPt mem page := rfl

/-! ## Walking over the allocated directories -/

/-- The loop of `mem_next_page`: go to the next directory while this one is missing. -/
def skipDirs (mem : Mem) (page : Nat) : Nat :=
  if page < MEM_PAGES ∧ mem.pgdir (PGDIR_TOP page) = none then
    skipDirs mem (page - PGDIR_BOTTOM page + MEM_PGDIR_SIZE)
  else page
termination_by MEM_PAGES - page
decreasing_by
  simp only [PGDIR_BOTTOM, MEM_PGDIR_SIZE, MEM_PAGES] at *
  omega

/-- `mem_next_page`. -/
def memNextPage (mem : Mem) (page : Nat) : Nat :=
  if page + 1 ≥ MEM_PAGES then page + 1 else skipDirs mem (page + 1)

theorem le_skipDirs (mem : Mem) (page : Nat) : page ≤ skipDirs mem page := by
  fun_induction skipDirs mem page with
  | case1 page h ih =>
    have hup : page ≤ page - PGDIR_BOTTOM page + MEM_PGDIR_SIZE := by
      simp only [PGDIR_BOTTOM, MEM_PGDIR_SIZE]
      omega
    exact Nat.le_trans hup ih
  | case2 page h => exact Nat.le_refl _

theorem lt_memNextPage (mem : Mem) (page : Nat) : page < memNextPage mem page := by
  unfold memNextPage
  split
  · omega
  have := le_skipDirs mem (page + 1)
  omega

/-- The pages `skipDirs` passes lie in missing directories. -/
theorem memPt_of_lt_skipDirs (mem : Mem) (page q : Nat) (hq : page ≤ q)
    (hq' : q < skipDirs mem page) : memPt mem q = none := by
  fun_induction skipDirs mem page with
  | case1 page h ih =>
    by_cases htop : PGDIR_TOP q = PGDIR_TOP page
    · simp [memPt, htop, h.2]
    refine ih ?_ hq'
    simp only [PGDIR_TOP, PGDIR_BOTTOM, MEM_PGDIR_SIZE] at *
    omega
  | case2 page h => omega

/-- The pages `mem_next_page` passes are not mapped. -/
theorem memPt_of_skipped (mem : Mem) (page q : Nat) (hq : page < q)
    (hq' : q < memNextPage mem page) : memPt mem q = none := by
  unfold memNextPage at hq'
  split at hq'
  · omega
  · exact memPt_of_lt_skipDirs mem (page + 1) q hq hq'

end Ish.Memory
