import Ish.Memory.Basic

set_option autoImplicit false

/-! # The operations of `kernel/memory.c`

Mapping, unmapping, changing flags, copying an address space on `fork`, and the translation of
guest addresses with its two faults: growing a mapping down and copying a page on a write.

Every operation takes the host and the address spaces it works on and gives them back changed,
with the code it returns. A `Calls` says how the host answers. `pt_unmap_always` always returns
`0`, so its code is left out; the failure of `munmap` (a `die`) is not modelled.
-/

namespace Ish.Memory

open Ish.Lib

/-! ## Unmapping -/

/-- The body of the loop of `pt_unmap_always`. -/
def unmapPage (s : Host × Mem) (page : Nat) : Host × Mem :=
  match memPt s.2 page with
  | none => s
  | some pt => (s.1.release pt.data, memPtDel s.2 page)

/-- `pt_unmap_always`. -/
def ptUnmapAlways (h : Host) (mem : Mem) (start pages : Nat) : Host × Mem :=
  let s := forUp (fun s page => memNextPage s.2 page) (fun s page => lt_memNextPage s.2 page)
    unmapPage (start + pages) (h, mem) start
  (s.1, memChanged s.2)

/-- Every page of the range is mapped: the check `pt_unmap` and `pt_set_flags` start with. -/
def allMapped (mem : Mem) (start pages : Nat) : Bool :=
  (List.range' start pages).all (fun page => (memPt mem page).isSome)

/-- `pt_unmap`. -/
def ptUnmap (h : Host) (mem : Mem) (start pages : Nat) : Host × Mem × Int :=
  if allMapped mem start pages then
    let s := ptUnmapAlways h mem start pages
    (s.1, s.2, 0)
  else (h, mem, -1)

theorem unmapPage_of_none {s : Host × Mem} {page : Nat} (h : memPt s.2 page = none) :
    unmapPage s page = s := by
  rw [unmapPage, h]

theorem unmapPage_of_some {s : Host × Mem} {page : Nat} {e : PtEntry}
    (h : memPt s.2 page = some e) :
    unmapPage s page = (s.1.release e.data, memPtDel s.2 page) := by
  rw [unmapPage, h]

theorem memPt_unmapPage (s : Host × Mem) (page q : Nat) :
    memPt (unmapPage s page).2 q = if q = page then none else memPt s.2 q := by
  cases hpt : memPt s.2 page with
  | none =>
    rw [unmapPage_of_none hpt]
    split
    · next hq => rw [hq, hpt]
    · rfl
  | some e => rw [unmapPage_of_some hpt, memPt_memPtDel]

/-- The walk over the allocated directories visits every mapped page of the range. -/
theorem ptUnmapAlways_eq (h : Host) (mem : Mem) (start pages : Nat) :
    ptUnmapAlways h mem start pages
      = ((foldUp unmapPage (h, mem) start pages).1,
          memChanged (foldUp unmapPage (h, mem) start pages).2) := by
  have hloop := forUp_eq_foldUp (fun (s : Host × Mem) page => memNextPage s.2 page)
    (fun s page => lt_memNextPage s.2 page) unmapPage
    (fun s i j hij hj => unmapPage_of_none (memPt_of_skipped s.2 i j hij hj))
    (start + pages) (h, mem) start
  have hlen : start + pages - start = pages := by omega
  rw [ptUnmapAlways, hloop, hlen]

theorem ptUnmapAlways_one (h : Host) (mem : Mem) (page : Nat) :
    ptUnmapAlways h mem page 1
      = ((unmapPage (h, mem) page).1, memChanged (unmapPage (h, mem) page).2) := by
  rw [ptUnmapAlways_eq, foldUp_succ, foldUp_zero]

theorem allMapped_iff (mem : Mem) (start pages : Nat) :
    allMapped mem start pages = true
      ↔ ∀ page, start ≤ page → page < start + pages → (memPt mem page).isSome := by
  simp only [allMapped, List.all_eq_true, List.mem_range'_1]
  constructor
  · intro h page h1 h2
    exact h page ⟨h1, h2⟩
  intro h page hp
  exact h page hp.1 hp.2

/-! ## Mapping -/

/-- The body of the loop of `pt_map`. -/
def mapPage (d start offset : Nat) (flags : Flags) (s : Host × Mem) (page : Nat) : Host × Mem :=
  let s := if (memPt s.2 page).isSome then
      let r := ptUnmap s.1 s.2 page 1
      (r.1, r.2.1)
    else s
  (s.1.retain d,
    memPtSet s.2 page { data := d, offset := (page - start) * PAGE_SIZE + offset, flags := flags })

/-- `pt_map`. `memory` is the mapping `mmap` gave, or the error of its failure. The size is
computed in `unsigned`. -/
def ptMap (c : Calls) (h : Host) (mem : Mem) (start pages : Nat) (memory : Except Int Nat)
    (offset : Nat) (flags : Flags) : Host × Mem × Int :=
  match memory with
  | .error e => (h, mem, e)
  | .ok m =>
    if c.mallocOk then
      let n := h.newData m (pages * PAGE_SIZE % 2 ^ 32 + offset)
      let s := foldUp (mapPage n.2 start offset flags) (n.1, mem) start pages
      (s.1, s.2, 0)
    else (h, mem, ENOMEM)

/-- `mmap` of an anonymous mapping of `len` bytes; a length of zero is refused. -/
def hostMmap (c : Calls) (h : Host) (len : Nat) : Host × Except Int Nat :=
  if len = 0 then (h, .error EINVAL)
  else match c.mmapErr with
    | some e => (h, .error e)
    | none => (h.mmap.1, .ok h.mmap.2)

/-- `pt_map_nothing`. The length is computed in `unsigned`. -/
def ptMapNothing (c : Calls) (h : Host) (mem : Mem) (start pages : Nat) (flags : Flags) :
    Host × Mem × Int :=
  if pages = 0 then (h, mem, 0)
  else
    let m := hostMmap c h (pages * PAGE_SIZE % 2 ^ 32)
    ptMap c m.1 mem start pages m.2 0 (flags ||| P_ANONYMOUS)

/-- One pass of the loop of `pt_map`: what was there is unmapped (and counted as a change),
then the page is mapped. -/
theorem mapPage_eq (d start offset : Nat) (flags : Flags) (s : Host × Mem) (page : Nat) :
    mapPage d start offset flags s page
      = ((unmapPage s page).1.retain d,
          memPtSet (if (memPt s.2 page).isSome then memChanged (unmapPage s page).2 else s.2) page
            { data := d, offset := (page - start) * PAGE_SIZE + offset, flags := flags }) := by
  unfold mapPage
  by_cases hmap : (memPt s.2 page).isSome
  · have hall : allMapped s.2 page 1 = true := by
      rw [allMapped_iff]
      intro q hq hq'
      have : q = page := by omega
      rw [this]
      exact hmap
    simp only [hmap, if_true, ptUnmap, hall, ptUnmapAlways_one]
  have hnone : memPt s.2 page = none := by simpa using hmap
  rw [unmapPage_of_none hnone]
  simp [hnone]

theorem memPt_mapPage (d start offset : Nat) (flags : Flags) (s : Host × Mem) (page q : Nat) :
    memPt (mapPage d start offset flags s page).2 q =
      if q = page then
        some { data := d, offset := (page - start) * PAGE_SIZE + offset, flags := flags }
      else memPt s.2 q := by
  rw [mapPage_eq, memPt_memPtSet]
  split
  · rfl
  next hq =>
  split
  · rw [memPt_memChanged, memPt_unmapPage, if_neg hq]
  · rfl

/-! ## Changing flags -/

/-- The second loop of `pt_set_flags`: it stops at the first `mprotect` that fails. -/
def setFlagsLoop (c : Calls) (flags : Flags) : Mem → List Nat → Mem × Option Int
  | mem, [] => (mem, none)
  | mem, page :: rest =>
    match memPt mem page with
    | none => setFlagsLoop c flags mem rest
    | some entry =>
      let mem' := memPtSet mem page { entry with flags := flags }
      -- `mprotect` is called only when protection is increasing
      if has (flags &&& ~~~entry.flags) (P_READ ||| P_WRITE) then
        match c.mprotectErr page with
        | some e => (mem', some e)
        | none => setFlagsLoop c flags mem' rest
      else setFlagsLoop c flags mem' rest

/-- `pt_set_flags`. What its `mprotect` does to the host pages is in `Memory/Protection.lean`. -/
def ptSetFlags (c : Calls) (mem : Mem) (start pages : Nat) (flags : Flags) : Mem × Int :=
  if allMapped mem start pages then
    match setFlagsLoop c flags mem (List.range' start pages) with
    | (mem', some e) => (mem', e)
    | (mem', none) => (memChanged mem', 0)
  else (mem, ENOMEM)

/-- The page whose flags are changed by one pass of the loop. -/
def setFlagsPage (flags : Flags) (mem : Mem) (page : Nat) : Mem :=
  match memPt mem page with
  | none => mem
  | some entry => memPtSet mem page { entry with flags := flags }

/-- Where no `mprotect` fails, the loop sets the flags of every page. -/
theorem setFlagsLoop_eq (c : Calls) (hc : ∀ page, c.mprotectErr page = none) (flags : Flags)
    (mem : Mem) (l : List Nat) :
    setFlagsLoop c flags mem l = (l.foldl (setFlagsPage flags) mem, none) := by
  induction l generalizing mem with
  | nil => rfl
  | cons page rest ih =>
    rw [setFlagsLoop, List.foldl_cons]
    cases hpt : memPt mem page with
    | none =>
      have hid : setFlagsPage flags mem page = mem := by rw [setFlagsPage, hpt]
      simp only [ih, hid]
    | some entry =>
      have hset : setFlagsPage flags mem page
          = memPtSet mem page { entry with flags := flags } := by rw [setFlagsPage, hpt]
      simp only [hc, ih, hset, ite_self]

theorem ptSetFlags_eq (c : Calls) (hc : ∀ page, c.mprotectErr page = none) (mem : Mem)
    (start pages : Nat) (flags : Flags) :
    ptSetFlags c mem start pages flags
      = if allMapped mem start pages then
          (memChanged (foldUp (setFlagsPage flags) mem start pages), 0)
        else (mem, ENOMEM) := by
  rw [ptSetFlags, setFlagsLoop_eq c hc]
  rfl

/-! ## Copying an address space -/

/-- The body of the loop of `pt_copy_on_write`, on the host, the source and the target. -/
def cowPage (s : Host × Mem × Mem) (page : Nat) : Host × Mem × Mem :=
  match memPt s.2.1 page with
  | none => s
  | some entry =>
    let u := ptUnmapAlways s.1 s.2.2 page 1
    let flags := if has entry.flags P_SHARED then entry.flags else setCow entry.flags
    (u.1.retain entry.data, memPtSet s.2.1 page { entry with flags := flags },
      memPtSet u.2 page { data := entry.data, offset := entry.offset, flags := flags })

/-- `pt_copy_on_write`, for a source and a target that are different address spaces. -/
def ptCopyOnWrite (h : Host) (src dst : Mem) (start pages : Nat) : Host × Mem × Mem :=
  let s := forUp (fun s page => memNextPage s.2.1 page)
    (fun s page => lt_memNextPage s.2.1 page) cowPage (start + pages) (h, src, dst) start
  (s.1, memChanged s.2.1, memChanged s.2.2)

theorem cowPage_of_none {s : Host × Mem × Mem} {page : Nat} (h : memPt s.2.1 page = none) :
    cowPage s page = s := by
  rw [cowPage, h]

theorem ptCopyOnWrite_eq (h : Host) (src dst : Mem) (start pages : Nat) :
    ptCopyOnWrite h src dst start pages
      = ((foldUp cowPage (h, src, dst) start pages).1,
          memChanged (foldUp cowPage (h, src, dst) start pages).2.1,
          memChanged (foldUp cowPage (h, src, dst) start pages).2.2) := by
  have hloop := forUp_eq_foldUp (fun (s : Host × Mem × Mem) page => memNextPage s.2.1 page)
    (fun s page => lt_memNextPage s.2.1 page) cowPage
    (fun s i j hij hj => cowPage_of_none (memPt_of_skipped s.2.1 i j hij hj))
    (start + pages) (h, src, dst) start
  have hlen : start + pages - start = pages := by omega
  rw [ptCopyOnWrite, hloop, hlen]

/-! ## Translation -/

/-- `MEM_READ`, `MEM_WRITE` and `MEM_WRITE_PTRACE`. -/
inductive Access where
  | read
  | write
  | writePtrace
  deriving DecidableEq

/-- `mem_ptr_nofault`. -/
def memPtrNofault (h : Host) (mem : Mem) (addr : Addr) (type : Access) : Option HostPtr :=
  match memPt mem (PAGE addr) with
  | none => none
  | some entry =>
    if type = .write ∧ P_WRITABLE entry.flags = false then none
    else some { map := (h.datas entry.data).data, off := entry.offset + PGOFFSET addr }

/-- The search of `mem_ptr` for the next mapped page from `p` on. -/
def growScan (mapped : Nat → Bool) (p : Nat) : Nat :=
  if p < MEM_PAGES ∧ mapped p = false then growScan mapped (p + 1) else p
termination_by MEM_PAGES - p
decreasing_by omega

/-- `mem_ptr` may map this unmapped page: the next mapped page is willing to grow down. -/
def growsDown (mem : Mem) (page : Nat) : Bool :=
  let p := growScan (fun q => (memPt mem q).isSome) (page + 1)
  if p < MEM_PAGES then
    match memPt mem p with
    | none => false
    | some entry => has entry.flags P_GROWSDOWN
  else false

/-- The first fault of `mem_ptr`: map the page, with the write lock held. -/
def growPage (c : Calls) (h : Host) (mem : Mem) (page : Nat) : Host × Mem :=
  let r := ptMapNothing c h mem page 1 (P_WRITE ||| P_GROWSDOWN)
  (r.1, r.2.1)

/-- The second fault of `mem_ptr`: a private copy of the page at `data` takes the place of the
page, with the write lock held. Writing the copy to a failed mapping kills the process. -/
def copyPage (c : Calls) (h : Host) (mem : Mem) (page : Nat) (data : HostPtr) (flags : Flags) :
    Host × Mem :=
  let m := hostMmap c h PAGE_SIZE
  match m.2 with
  | .error _ => ({ m.1 with died := true }, mem)
  | .ok copy =>
    let r := ptMap c (m.1.memcpy copy data PAGE_SIZE) mem page 1 (.ok copy) 0 (clearCow flags)
    (r.1, r.2.1)

/-- The end of `mem_ptr`: translate once more and check the old translation against it. -/
def finishPtr (old : Option HostPtr) (h : Host) (mem : Mem) (addr : Addr) (type : Access) :
    Host × Mem × Option HostPtr :=
  let ptr := memPtrNofault h mem addr type
  (h.assert (old.isNone || old == ptr || type == .writePtrace), mem, ptr)

/-- The part of `mem_ptr` after the page has been found or grown. -/
def memPtrEntry (c : Calls) (old : Option HostPtr) (h : Host) (mem : Mem) (addr : Addr)
    (type : Access) : Host × Mem × Option HostPtr :=
  match memPt mem (PAGE addr) with
  | none => finishPtr old h mem addr type
  | some entry =>
    if type = .read then finishPtr old h mem addr type
    else if type ≠ .writePtrace ∧ has entry.flags P_WRITE = false then (h, mem, none)
    else
      let flags := if type = .writePtrace then entry.flags ||| P_WRITE ||| P_COW else entry.flags
      let mem' := if type = .writePtrace then
        memPtSet mem (PAGE addr) { entry with flags := flags } else mem
      if has flags P_COW then
        let data : HostPtr := { map := (h.datas entry.data).data, off := entry.offset }
        let r := copyPage c h mem' (PAGE addr) data flags
        finishPtr old r.1 r.2 addr type
      else finishPtr old h mem' addr type

/-- `mem_ptr`. `g` answers the calls of the first fault and `c` those of the second. -/
def memPtr (g c : Calls) (h : Host) (mem : Mem) (addr : Addr) (type : Access) :
    Host × Mem × Option HostPtr :=
  let old := memPtrNofault h mem addr type
  if (memPt mem (PAGE addr)).isSome then memPtrEntry c old h mem addr type
  else if growsDown mem (PAGE addr) then
    let r := growPage g h mem (PAGE addr)
    memPtrEntry c old r.1 r.2 addr type
  else (h, mem, none)

theorem growPage_ok (h : Host) (mem : Mem) (page : Nat) :
    growPage .ok h mem page = mapPage h.nextData page 0 (P_WRITE ||| P_GROWSDOWN ||| P_ANONYMOUS)
      ((h.mmap.1.newData h.nextMap ((1 * PAGE_SIZE) % 2 ^ 32 + 0)).1, mem) page := rfl

/-- What growing a page comes to: nothing when `mmap` fails, a mapping that is never used when
`malloc` fails, a page on new memory otherwise. -/
theorem growPage_cases (c : Calls) (h : Host) (mem : Mem) (page : Nat) :
    growPage c h mem page = (h, mem) ∨ growPage c h mem page = (h.mmap.1, mem) ∨
      growPage c h mem page = mapPage h.nextData page 0 (P_WRITE ||| P_GROWSDOWN ||| P_ANONYMOUS)
        ((h.mmap.1.newData h.nextMap ((1 * PAGE_SIZE) % 2 ^ 32 + 0)).1, mem) page := by
  have hsize : (1 * PAGE_SIZE) % 2 ^ 32 ≠ 0 := by decide
  cases hmm : c.mmapErr with
  | some err =>
    left
    simp only [growPage, ptMapNothing, hostMmap, hmm, if_neg hsize, Nat.one_ne_zero, if_false,
      ptMap]
  | none =>
    right
    cases hma : c.mallocOk with
    | false =>
      left
      simp only [growPage, ptMapNothing, hostMmap, hmm, if_neg hsize, Nat.one_ne_zero,
        if_false, ptMap, hma, Bool.false_eq_true]
    | true =>
      right
      simp only [growPage, ptMapNothing, hostMmap, hmm, if_neg hsize, Nat.one_ne_zero,
        if_false, ptMap, hma, if_true]
      rfl

/-- What copying a page comes to: the process dies when `mmap` fails, the copy is never used when
`malloc` fails, and the page is on the copy otherwise. -/
theorem copyPage_eq (c : Calls) (h : Host) (mem : Mem) (page : Nat) (data : HostPtr)
    (flags : Flags) :
    copyPage c h mem page data flags =
      let h₁ := h.mmap.1.memcpy h.nextMap data PAGE_SIZE
      if c.mmapErr.isSome then ({ h with died := true }, mem)
      else if c.mallocOk then
        mapPage h.nextData page 0 (clearCow flags)
          ((h₁.newData h.nextMap (1 * PAGE_SIZE % 2 ^ 32 + 0)).1, mem) page
      else (h₁, mem) := by
  have hsize : PAGE_SIZE ≠ 0 := by decide
  cases hmm : c.mmapErr with
  | some err => simp [copyPage, hostMmap, hmm, hsize]
  | none =>
    cases hma : c.mallocOk with
    | false => simp [copyPage, hostMmap, hmm, hsize, ptMap, hma, Host.mmap]
    | true =>
      simp only [copyPage, hostMmap, hmm, if_neg hsize, ptMap, hma, if_true]
      rfl

theorem mmap_bytes_old (h : Host) (k : Nat) (hk : k < h.nextMap) : h.mmap.1.bytes k = h.bytes k :=
  Function.update_of_ne (Nat.ne_of_lt hk) _ _

/-- A page copied to new memory. -/
theorem Host.memcpy_new {h : Host} {p : HostPtr} (hlive : h.unmapped p.map = false)
    (hmap : p.map < h.nextMap) :
    ∃ b, h.mmap.1.memcpy h.nextMap p PAGE_SIZE = { h with nextMap := h.nextMap + 1, bytes := b } ∧
      (∀ k, k < h.nextMap → b k = h.bytes k) ∧
      ∀ k, k < PAGE_SIZE → b h.nextMap k = h.bytes p.map (p.off + k) := by
  refine ⟨(h.mmap.1.memcpy h.nextMap p PAGE_SIZE).bytes, ?_, fun k hk => ?_, fun k hk => ?_⟩
  · show ({ h with nextMap := _, bytes := _, died := h.died || h.unmapped p.map } : Host) = _
    rw [hlive, Bool.or_false]
    rfl
  · exact (Function.update_of_ne (Nat.ne_of_lt hk) _ _).trans (mmap_bytes_old h k hk)
  · exact (congrFun (Function.update_self ..) k).trans
      ((if_pos hk).trans (congrFun (mmap_bytes_old h _ hmap) _))

/-- The first half of `mem_ptr` as a step of its own: an unmapped page is grown if it can be. -/
def faultGrow (c : Calls) (h : Host) (mem : Mem) (page : Nat) : Host × Mem :=
  if (memPt mem page).isSome = false ∧ growsDown mem page = true then growPage c h mem page
  else (h, mem)

@[simp] theorem Host.assert_true (h : Host) : h.assert true = h := by
  simp [Host.assert]

theorem memPtr_eq (g c : Calls) (h : Host) (mem : Mem) (addr : Addr) (type : Access) :
    memPtr g c h mem addr type
      = memPtrEntry c (memPtrNofault h mem addr type) (faultGrow g h mem (PAGE addr)).1
          (faultGrow g h mem (PAGE addr)).2 addr type := by
  unfold memPtr faultGrow
  cases hpt : memPt mem (PAGE addr) with
  | some e => simp
  | none =>
    cases hg : growsDown mem (PAGE addr) with
    | true => simp
    | false =>
      -- nothing is mapped and nothing is grown: `NULL`
      have hnull : ∀ t, memPtrNofault h mem addr t = none := by
        intro t
        rw [memPtrNofault, hpt]
      simp [memPtrEntry, finishPtr, hpt, hnull]

theorem memPtrEntry_read (c : Calls) (old : Option HostPtr) (h : Host) (mem : Mem)
    (addr : Addr) : memPtrEntry c old h mem addr .read = finishPtr old h mem addr .read := by
  unfold memPtrEntry
  split
  · rfl
  · simp

section Nofault

variable {h : Host} {m : Mem}
variable {type : Access} {addr : Addr} {e : PtEntry} {p : HostPtr}

/-- What `mem_ptr_nofault` gives for a page the access is allowed to. -/
theorem memPtrNofault_of_some (hpt : memPt m (PAGE addr) = some e)
    (hw : type = .write → P_WRITABLE e.flags = true) : memPtrNofault h m addr type
      = some { map := (h.datas e.data).data, off := e.offset + PGOFFSET addr } := by
  rw [memPtrNofault, hpt]
  have hno : ¬ (type = .write ∧ P_WRITABLE e.flags = false) := by
    rintro ⟨ht, hf⟩
    rw [hw ht] at hf
    cases hf
  simp only [if_neg hno]

theorem memPtrNofault_of_none (hpt : memPt m (PAGE addr) = none) (type : Access) :
    memPtrNofault h m addr type = none := by
  rw [memPtrNofault, hpt]

/-- The check at the end of `mem_ptr` passes when the page was not translated before the fault
or nothing has changed. -/
theorem finishPtr_eq {old : Option HostPtr} (hold : old = none ∨ old = memPtrNofault h m addr type)
    : finishPtr old h m addr type = (h, m, memPtrNofault h m addr type) := by
  have hb : (old.isNone || old == memPtrNofault h m addr type || type == .writePtrace) = true := by
    rcases hold with rfl | rfl
    · rfl
    · simp
  simp only [finishPtr, hb, Host.assert_true]

theorem memPtrNofault_of_not_writable (hpt : memPt m (PAGE addr) = some e)
    (hw : P_WRITABLE e.flags = false) : memPtrNofault h m addr .write = none := by
  rw [memPtrNofault, hpt]
  simp only [hw, and_self, if_true]

/-- Before the fault the page had no translation, or the one it has after it. -/
theorem nofault_faultGrow (c : Calls) (h : Host) (m : Mem) (addr : Addr) (type : Access) :
    memPtrNofault h m addr type = none ∨
      memPtrNofault h m addr type = memPtrNofault (faultGrow c h m (PAGE addr)).1
        (faultGrow c h m (PAGE addr)).2 addr type := by
  rcases hpt : memPt m (PAGE addr) with _ | e
  · exact .inl (memPtrNofault_of_none hpt type)
  right
  have hid : faultGrow c h m (PAGE addr) = (h, m) := by
    rw [faultGrow, hpt]
    simp
  rw [hid]

theorem nofault_eq_some (hp : memPtrNofault h m addr type = some p) :
    ∃ e, memPt m (PAGE addr) = some e ∧
      p = { map := (h.datas e.data).data, off := e.offset + PGOFFSET addr } := by
  rw [memPtrNofault] at hp
  cases hpt : memPt m (PAGE addr) with
  | none => rw [hpt] at hp; cases hp
  | some e =>
    simp only [hpt] at hp
    split at hp
    · cases hp
    · exact ⟨e, rfl, (Option.some.inj hp).symm⟩

/-- What can be written can be read, at the same place. -/
theorem nofault_read (hp : memPtrNofault h m addr type = some p) :
    memPtrNofault h m addr .read = some p := by
  obtain ⟨e, hpt, rfl⟩ := nofault_eq_some hp
  exact memPtrNofault_of_some hpt (fun h => by cases h)

end Nofault

/-- The four ways a write goes on once its page has been looked up. -/
theorem memPtrEntry_write (c : Calls) (old : Option HostPtr) (h : Host) (mem : Mem)
    (addr : Addr) :
    memPtrEntry c old h mem addr .write
      = match memPt mem (PAGE addr) with
        | none => finishPtr old h mem addr .write
        | some e =>
          if has e.flags P_WRITE = false then (h, mem, none)
          else if has e.flags P_COW then
            let data : HostPtr := { map := (h.datas e.data).data, off := e.offset }
            let r := copyPage c h mem (PAGE addr) data e.flags
            finishPtr old r.1 r.2 addr .write
          else finishPtr old h mem addr .write := by
  unfold memPtrEntry
  split
  · rfl
  · simp

end Ish.Memory
