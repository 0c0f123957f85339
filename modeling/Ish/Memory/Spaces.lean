import Ish.Memory.Ops
import Ish.Lib.Machine

set_option autoImplicit false

/-! # Several address spaces on one host

The calls the kernel makes on a finite set of address spaces, one at a time: the page table
operations of `Memory/Ops.lean` and guest byte accesses through `mem_ptr`. A *slot* is a page of
one of the address spaces, and `World.entry` is the page table entry of a slot; every call
changes the entries of the slots it names and nothing else, which is what the lemmas of the
second half say page by page.
-/

namespace Ish.Memory

open Function Ish.Lib

variable {ι : Type} [DecidableEq ι]

/-- The host and the address spaces on it. -/
structure World (ι : Type) where
  host : Host
  spaces : ι → Mem

/-- All address spaces just initialised. -/
def World.init : World ι := { host := Host.init, spaces := fun _ => memInit }

/-- The page table entry of a slot. -/
def World.entry (w : World ι) (s : ι × Nat) : Option PtEntry := memPt (w.spaces s.1) s.2

/-- The host and one address space replaced. -/
def World.put (w : World ι) (i : ι) (s : Host × Mem) : World ι :=
  { host := s.1, spaces := update w.spaces i s.2 }

/-- The host and two address spaces replaced. -/
def World.put₂ (w : World ι) (i j : ι) (s : Host × Mem × Mem) : World ι :=
  { host := s.1, spaces := update (update w.spaces i s.2.1) j s.2.2 }

/-- A call. `copyOnWrite` copies the whole address space, as `fork` does. -/
inductive Op (ι : Type) where
  | mapNothing (i : ι) (r : PageRange) (flags : Flags)
  | unmap (i : ι) (r : PageRange)
  | unmapAlways (i : ι) (r : PageRange)
  | setFlags (i : ι) (r : PageRange) (flags : Flags)
  | copyOnWrite (src dst : ι) (hne : src ≠ dst)
  | read (i : ι) (addr : Addr)
  | write (i : ι) (addr : Addr) (v : UInt8)

/-- What a call shows: the code it returns, the byte it reads, that a byte was written, or that
`mem_ptr` returned `NULL`. -/
inductive Out where
  | ret (code : Int)
  | value (v : UInt8)
  | stored
  | segv
  deriving DecidableEq

/-- One call, with a host on which `mmap`, `malloc` and `mprotect` succeed. -/
def World.step (w : World ι) : Op ι → World ι × Out
  | .mapNothing i r flags =>
    let s := ptMapNothing .ok w.host (w.spaces i) r.start r.pages flags
    (w.put i (s.1, s.2.1), .ret s.2.2)
  | .unmap i r =>
    let s := ptUnmap w.host (w.spaces i) r.start r.pages
    (w.put i (s.1, s.2.1), .ret s.2.2)
  | .unmapAlways i r =>
    let s := ptUnmapAlways w.host (w.spaces i) r.start r.pages
    (w.put i s, .ret 0)
  | .setFlags i r flags =>
    let s := ptSetFlags .ok (w.spaces i) r.start r.pages flags
    (w.put i (w.host, s.1), .ret s.2)
  | .copyOnWrite src dst _ =>
    let s := ptCopyOnWrite w.host (w.spaces src) (w.spaces dst) 0 MEM_PAGES
    (w.put₂ src dst s, .ret 0)
  | .read i addr =>
    let s := memPtr .ok .ok w.host (w.spaces i) addr .read
    match s.2.2 with
    | none => (w.put i (s.1, s.2.1), .segv)
    | some p => (w.put i (s.1.touch p, s.2.1), .value (s.1.load p))
  | .write i addr v =>
    let s := memPtr .ok .ok w.host (w.spaces i) addr .write
    match s.2.2 with
    | none => (w.put i (s.1, s.2.1), .segv)
    | some p => (w.put i ((s.1.touch p).store p v, s.2.1), .stored)

/-! ## Entries of the changed world -/

variable (w : World ι)

@[simp] theorem World.put_host (i : ι) (s : Host × Mem) : (w.put i s).host = s.1 :=
  rfl

@[simp] theorem World.put_spaces_self (i : ι) (s : Host × Mem) : (w.put i s).spaces i = s.2 := by
  simp [World.put]

@[simp] theorem World.put_self (i : ι) : w.put i (w.host, w.spaces i) = w := by
  simp [World.put]

theorem World.entry_put (i : ι) (m : Host × Mem) (s : ι × Nat) :
    (w.put i m).entry s = if s.1 = i then memPt m.2 s.2 else w.entry s := by
  by_cases h : s.1 = i
  · simp [World.entry, World.put, h]
  · simp [World.entry, World.put, h]

theorem World.entry_put_self (i : ι) (m : Host × Mem) (page : Nat) :
    (w.put i m).entry (i, page) = memPt m.2 page := by
  rw [World.entry_put, if_pos rfl]

/-- The slots of an address space are written as its page table is. -/
theorem World.entry_put_update (i : ι) (h h' : Host) {m m' : Mem} {page : Nat}
    {v : Option PtEntry} (hm : ∀ q, memPt m' q = if q = page then v else memPt m q) :
    (w.put i (h', m')).entry = update (w.put i (h, m)).entry (i, page) v := by
  funext s
  obtain ⟨j, q⟩ := s
  rw [World.entry_put, hm]
  by_cases hj : j = i
  · by_cases hq : q = page
    · simp [hj, hq]
    · simp [hj, hq, World.entry_put]
  · simp [hj, World.entry_put]

theorem World.entry_put_set (i : ι) (h h' : Host) (m : Mem) (page : Nat) (e : PtEntry) :
    (w.put i (h', memPtSet m page e)).entry
      = update (w.put i (h, m)).entry (i, page) (some e) :=
  World.entry_put_update w i h h' (memPt_memPtSet m page e)

theorem World.entry_put_congr (i : ι) (h h' : Host) {m m' : Mem}
    (hm : ∀ page, memPt m' page = memPt m page) :
    (w.put i (h', m')).entry = (w.put i (h, m)).entry := by
  funext s
  rw [World.entry_put, World.entry_put]
  simp only [hm]

theorem World.entry_put_unmapPage (i : ι) (s : Host × Mem) (page : Nat) :
    (w.put i (unmapPage s page)).entry = update (w.put i s).entry (i, page) none :=
  World.entry_put_update w i s.1 _ (memPt_unmapPage s page)

/-- One pass of the loop of `pt_map` writes one slot. -/
theorem World.entry_put_mapPage (i : ι) (d start offset : Nat) (flags : Flags) (s : Host × Mem)
    (page : Nat) :
    (w.put i (mapPage d start offset flags s page)).entry
      = update (w.put i s).entry (i, page)
          (some { data := d, offset := (page - start) * PAGE_SIZE + offset, flags := flags }) :=
  World.entry_put_update w i s.1 _ (memPt_mapPage d start offset flags s page)

theorem World.put₂_eq (i j : ι) (s : Host × Mem × Mem) :
    w.put₂ i j s = (w.put i (s.1, s.2.1)).put j (s.1, s.2.2) := rfl

theorem World.entry_put₂ (i j : ι) (s : Host × Mem × Mem) (t : ι × Nat) :
    (w.put₂ i j s).entry t
      = if t.1 = j then memPt s.2.2 t.2 else if t.1 = i then memPt s.2.1 t.2 else w.entry t := by
  rw [World.put₂_eq, World.entry_put, World.entry_put]

theorem World.entry_put₂_memChanged (i j : ι) (s : Host × Mem × Mem) :
    (w.put₂ i j (s.1, memChanged s.2.1, memChanged s.2.2)).entry = (w.put₂ i j s).entry := by
  funext t
  rw [World.entry_put₂, World.entry_put₂]
  rfl

/-- One pass of the loop of `pt_copy_on_write` writes the slots of the page in the source and
in the target. -/
theorem World.entry_put₂_cowPage {src dst : ι} (hne : src ≠ dst) {s : Host × Mem × Mem}
    {page : Nat} {e e' : PtEntry} (hpt : memPt s.2.1 page = some e)
    (he' : e' = { e with flags := if has e.flags P_SHARED then e.flags else setCow e.flags }) :
    (w.put₂ src dst (cowPage s page)).entry
      = update (update (w.put₂ src dst s).entry (src, page) (some e'))
          (dst, page) (some e') := by
  have hcow : cowPage s page = ((unmapPage (s.1, s.2.2) page).1.retain e.data,
      memPtSet s.2.1 page e', memPtSet (memChanged (unmapPage (s.1, s.2.2) page).2) page e') := by
    rw [cowPage, hpt, ptUnmapAlways_one, he']
  have hdst : ∀ q, memPt (memPtSet (memChanged (unmapPage (s.1, s.2.2) page).2) page e') q
      = if q = page then some e' else memPt s.2.2 q := by
    intro q
    rw [memPt_memPtSet]
    split
    · rfl
    · next hq => rw [memPt_memChanged, memPt_unmapPage, if_neg hq]
  have hcomm : ∀ a b, ((w.put src a).put dst b).entry = ((w.put dst b).put src a).entry := by
    intro a b
    funext t
    simp only [World.put, World.entry, update_comm hne]
  rw [hcow, World.put₂_eq, World.put₂_eq w src dst s, World.entry_put_update _ dst s.1 _ hdst,
    hcomm, World.entry_put_set _ src s.1, ← hcomm]

end Ish.Memory
