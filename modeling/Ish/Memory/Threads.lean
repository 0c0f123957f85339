import Ish.Memory.CopyOnWrite

set_option autoImplicit false

/-! # Threads that fault on one address space

`mem_ptr` drops the read lock to remap a page, so the threads of one address space can take
steps between its parts. A thread that wants a byte goes through these places (`Pc`):

* `enter` runs `mem_ptr` under the read lock until it drops the lock or returns;
* `growing`: the page was not mapped and can grow; `grow` maps it under the write lock, and
  `reenter` goes on, under the read lock, with the entry it then finds;
* `copying`: the page was `P_COW`; the address of its memory was taken *before* the lock was
  dropped; `copy` copies that memory and remaps the page, and `finish` takes the read lock again;
* `holding`: `mem_ptr` has returned a pointer; `access` uses it and releases the read lock.

`last` records the last byte stored at each address by an `access` that is over. The steps are
not restricted by the lock: what a lock excludes is part of the condition `RemapOk`.
-/

namespace Ish.Memory

open Option Function Ish.Lib World

/-! ## The machine -/

/-- What a thread does with the byte it asks for. -/
inductive Use where
  | load
  | store (v : UInt8)
  deriving DecidableEq

def Use.type : Use → Access
  | .load => .read
  | .store _ => .write

/-- Where a thread is. -/
inductive Pc where
  | idle
  | growing (addr : Addr) (use : Use)
  | grown (addr : Addr) (use : Use)
  | copying (addr : Addr) (v : UInt8) (data : HostPtr)
  | copied (addr : Addr) (v : UInt8)
  | holding (addr : Addr) (use : Use) (ptr : HostPtr)
  deriving DecidableEq

structure Threads (ι τ : Type) where
  world : World ι
  pcs : τ → Pc
  last : Addr → Option UInt8

inductive Act (τ : Type) where
  | enter (t : τ) (addr : Addr) (use : Use)
  | grow (t : τ) (c : Calls)
  | reenter (t : τ)
  | copy (t : τ) (c : Calls)
  | finish (t : τ)
  | access (t : τ)

section Machine

variable {ι τ : Type} [DecidableEq ι] [DecidableEq τ] (i : ι)

def Threads.setPc (s : Threads ι τ) (t : τ) (pc : Pc) : Threads ι τ :=
  { s with pcs := update s.pcs t pc }

omit [DecidableEq ι] in
theorem Threads.setPc_pcs (s : Threads ι τ) (t u : τ) (pc : Pc) :
    (s.setPc t pc).pcs u = if u = t then pc else s.pcs u := by
  by_cases hu : u = t
  · simp [Threads.setPc, hu]
  · simp [Threads.setPc, hu]

/-- The end of `mem_ptr`. `old_ptr` is null on every path that has dropped the lock, and equal
to the new pointer on the others. -/
def Threads.endPtr (s : Threads ι τ) (t : τ) (addr : Addr) (use : Use) : Threads ι τ × Option Out :=
  match memPtrNofault s.world.host (s.world.spaces i) addr use.type with
  | none => (s.setPc t .idle, some .segv)
  | some ptr => (s.setPc t (.holding addr use ptr), none)

/-- The second half of `mem_ptr`, with the entry it has found. -/
def Threads.testEntry (s : Threads ι τ) (t : τ) (addr : Addr) (use : Use) (entry : PtEntry) :
    Threads ι τ × Option Out :=
  match use with
  | .load => s.endPtr i t addr use
  | .store v =>
    if has entry.flags P_WRITE = false then (s.setPc t .idle, some .segv)
    else if has entry.flags P_COW then
      let data : HostPtr := { map := (s.world.host.datas entry.data).data, off := entry.offset }
      (s.setPc t (.copying addr v data), none)
    else s.endPtr i t addr use

/-- One step of one thread; nothing is possible once the process has died. -/
def Threads.step (s : Threads ι τ) (a : Act τ) : Option (Threads ι τ × Option Out) :=
  let h := s.world.host
  let mem := s.world.spaces i
  if h.died then none else
  match a with
  | .enter t addr use =>
    match s.pcs t with
    | .idle =>
      match memPt mem (PAGE addr) with
      | none =>
        if growsDown mem (PAGE addr) then some (s.setPc t (.growing addr use), none)
        else some (s, some .segv)
      | some entry => some (s.testEntry i t addr use entry)
    | _ => none
  | .grow t c =>
    match s.pcs t with
    | .growing addr use =>
      let w := s.world.put i (growPage c h mem (PAGE addr))
      some ({ s with world := w }.setPc t (.grown addr use), none)
    | _ => none
  | .reenter t =>
    match s.pcs t with
    | .grown addr use =>
      match memPt mem (PAGE addr) with
      | none => some (s.endPtr i t addr use)
      | some entry => some (s.testEntry i t addr use entry)
    | _ => none
  | .copy t c =>
    match s.pcs t with
    | .copying addr v data =>
      match memPt mem (PAGE addr) with
      | none => none
      | some entry =>
        let w := s.world.put i (copyPage c h mem (PAGE addr) data entry.flags)
        some ({ s with world := w }.setPc t (.copied addr v), none)
    | _ => none
  | .finish t =>
    match s.pcs t with
    | .copied addr v => some (s.endPtr i t addr (.store v))
    | _ => none
  | .access t =>
    match s.pcs t with
    | .holding _ .load ptr =>
      let w := s.world.put i (h.touch ptr, mem)
      some ({ s with world := w }.setPc t .idle, some (.value (h.load ptr)))
    | .holding addr (.store v) ptr =>
      let w := s.world.put i ((h.touch ptr).store ptr v, mem)
      let last := update s.last addr (some v)
      some ({ s with world := w, last := last }.setPc t .idle, some .stored)
    | _ => none

/-- The threads of address space `i`. -/
def threadMachine (ι τ : Type) [DecidableEq ι] [DecidableEq τ] (i : ι) :
    Machine (Threads ι τ) (Act τ) (Option Out) where
  step s a := s.step i a

/-- No thread holds a pointer into the page. -/
def Threads.NoHolder (s : Threads ι τ) (page : Nat) : Prop :=
  ∀ t addr use ptr, s.pcs t = .holding addr use ptr → PAGE addr ≠ page

/-- What a step that remaps a page has to meet: no thread holds a pointer into the page, and the
page is still what it was when the thread dropped its lock. For the copy that is: still mapped
to the memory whose address was taken, and still `P_COW`. -/
def Threads.RemapOk (s : Threads ι τ) : Act τ → Prop
  | .grow t _ => ∀ addr use, s.pcs t = .growing addr use →
      memPt (s.world.spaces i) (PAGE addr) = none ∧ s.NoHolder (PAGE addr)
  | .copy t _ => ∀ addr v data, s.pcs t = .copying addr v data →
      (∃ e, memPt (s.world.spaces i) (PAGE addr) = some e ∧ has e.flags P_COW = true ∧
        data = { map := (s.world.host.datas e.data).data, off := e.offset }) ∧
      s.NoHolder (PAGE addr)
  | _ => True

end Machine

/-! ## What an address shows -/

theorem addr_ext {a b : Addr} (hp : PAGE a = PAGE b) (ho : PGOFFSET a = PGOFFSET b) : a = b := by
  apply BitVec.eq_of_toNat_eq
  simp only [PAGE, PGOFFSET, PAGE_SIZE, PAGE_BITS] at hp ho
  omega

/-- The byte read at an address, if it is mapped. -/
def view (h : Host) (m : Mem) (addr : Addr) : Option UInt8 :=
  (memPtrNofault h m addr .read).map h.load

/-- Every byte that can be read stays as it is, and pages other than `page` stay where they
are. -/
structure KeepsView (s s' : Host × Mem) (page : Nat) : Prop where
  frame : ∀ addr type, PAGE addr ≠ page →
    memPtrNofault s'.1 s'.2 addr type = memPtrNofault s.1 s.2 addr type
  view : ∀ addr x, view s.1 s.2 addr = some x → view s'.1 s'.2 addr = some x

theorem KeepsView.refl (s : Host × Mem) (page : Nat) : KeepsView s s page :=
  ⟨fun _ _ _ => rfl, fun _ _ h => h⟩

theorem KeepsView.trans {s s' s'' : Host × Mem} {page : Nat} (h : KeepsView s s' page)
    (h' : KeepsView s' s'' page) : KeepsView s s'' page :=
  ⟨fun addr type hne => (h'.frame addr type hne).trans (h.frame addr type hne),
    fun addr x hx => h'.view addr x (h.view addr x hx)⟩

section Views

variable {ι : Type} [Fintype ι] [DecidableEq ι] {w : World ι} {i : ι} {h : Host} {m : Mem}

/-- Different addresses of one address space are different places. -/
theorem nofault_inj (H : HeapOk (w.put i (h, m)).entry h) {a b : Addr} {ta tb : Access}
    {p : HostPtr} (ha : memPtrNofault h m a ta = some p) (hb : memPtrNofault h m b tb = some p) :
    a = b := by
  obtain ⟨e, hpt, rfl⟩ := nofault_eq_some ha
  obtain ⟨e', hpt', hp⟩ := nofault_eq_some hb
  obtain ⟨hmap, hoff⟩ := HostPtr.mk.inj hp
  have hentry : (w.put i (h, m)).entry (i, PAGE a) = some e := by rw [entry_put_self, hpt]
  have hentry' : (w.put i (h, m)).entry (i, PAGE b) = some e' := by
    rw [entry_put_self, hpt']
  have hdata : e.data = e'.data := H.own _ _ (H.allocated hentry) (H.allocated hentry') hmap
  obtain ⟨hcell, hpg⟩ := page_offsets_disjoint (H.aligned hentry) (H.aligned hentry')
    (PGOFFSET_lt a) (PGOFFSET_lt b) hoff
  exact addr_ext (H.samePage hentry hentry' ⟨hdata, hcell⟩) hpg

/-- A byte stored at an address shows there and nowhere else. -/
theorem view_store (H : HeapOk (w.put i (h, m)).entry h) {addr : Addr} {type : Access}
    {p : HostPtr} (hp : memPtrNofault h m addr type = some p) (v : UInt8) (a : Addr) :
    view (h.store p v) m a = if a = addr then some v else view h m a := by
  have hsame : memPtrNofault (h.store p v) m a .read = memPtrNofault h m a .read := rfl
  unfold view
  rw [hsame]
  by_cases ha : a = addr
  · rw [if_pos ha, ha, nofault_read hp, map_some, Host.load_store, if_pos rfl]
  rw [if_neg ha]
  cases hq : memPtrNofault h m a .read with
  | none => rfl
  | some q =>
    have hne : q ≠ p := fun hqp => ha (nofault_inj H hq (hqp ▸ hp))
    rw [map_some, map_some, Host.load_store, if_neg hne]

/-! ## Remapping one page -/

/-- A page put on new memory with the contents `b h.nextMap`. -/
theorem mapPage_new (H : HeapOk (w.put i (h, m)).entry h) {b : Nat → Nat → UInt8}
    (hb : ∀ k, k < h.nextMap → b k = h.bytes k) {page : Nat} (hpage : page < MEM_PAGES)
    (flags : Flags) (size : Nat) :
    let h1 : Host := { h with nextMap := h.nextMap + 1, bytes := b }
    let s := mapPage h.nextData page 0 flags ((h1.newData h.nextMap size).1, m) page
    HeapOk (w.put i s).entry s.1 ∧
      (∀ addr type, PAGE addr ≠ page →
        memPtrNofault s.1 s.2 addr type = memPtrNofault h m addr type ∧
        view s.1 s.2 addr = view h m addr) ∧
      ∀ addr, PAGE addr = page → view s.1 s.2 addr = some (b h.nextMap (PGOFFSET addr)) := by
  intro h1 s
  set h2 := (h1.newData h.nextMap size).1 with hh2
  have hoff : (page - page) * PAGE_SIZE + 0 = 0 := by rw [Nat.sub_self, Nat.zero_mul]
  have H2 : HeapOk (w.put i (h2, m)).entry h2 := H.newData b size
  have hnew : (h2.datas h.nextData).data = h.nextMap := by
    rw [hh2]
    exact congrArg Data.data (Host.newData_new h1 h.nextMap size)
  have hold : ∀ d, d < h.nextData → h2.datas d = h.datas d := fun d hd => Host.newData_old h1 _ _ hd
  have hnot : ∀ t e, (w.put i (h2, m)).entry t = some e → e.data < h.nextData :=
    fun t e ht => H.allocated (s := t) ht
  have hpt := memPt_mapPage h.nextData page 0 flags (h2, m) page
  have hentry := entry_put_mapPage w i h.nextData page 0 flags (h2, m) page
  rw [hoff] at hpt hentry
  have hhost : s.1 = (unmapPage (h2, m) page).1.retain h.nextData := by
    show (mapPage h.nextData page 0 flags (h2, m) page).1 = _
    rw [mapPage_eq]
  have hdata : ∀ d, (s.1.datas d).data = (h2.datas d).data := by
    intro d
    rw [hhost, Host.retain_data, unmapPage_data]
  have hbytes : s.1.bytes = b := by
    rw [hhost, Host.retain_bytes, unmapPage_bytes]
    rfl
  refine ⟨?_, fun addr type hne => ?_, fun addr hp => ?_⟩
  · have hfree := entry_put_unmapPage w i (h2, m) page
    have hlive : (unmapPage (h2, m) page).1.unmapped (h2.datas h.nextData).data = false := by
      refine HeapOk.unmapPage_live (w := w) (i := i) H2 (Nat.lt_succ_self _) ?_ (fun e he => ?_)
      · rw [hnew]
        exact H.fresh _ (Nat.le_refl _)
      have hlt := hnot (i, page) e (by rw [entry_put_self]; exact he)
      exact Nat.ne_of_lt hlt
    have hmap := (H2.unmapPage page).map (s := (i, page))
      (e := { data := h.nextData, offset := 0, flags := flags })
      (by rw [hfree, update_self]) hpage
      (by rw [unmapPage_nextData]; exact Nat.lt_succ_self _)
      (by rw [unmapPage_data]; exact hlive) ⟨0, rfl⟩
      (fun {t e'} ht hc => by
        rw [hfree] at ht
        rcases update_cases ht with ⟨-, hv⟩ | ⟨-, hE⟩
        · cases hv
        · exact absurd hc.1.symm (Nat.ne_of_lt (hnot t e' hE)))
    rw [hfree, update_idem, ← hentry, ← hhost] at hmap
    exact hmap
  · have hsame : ∀ ty, memPtrNofault s.1 s.2 addr ty = memPtrNofault h m addr ty := by
      intro ty
      unfold memPtrNofault
      rw [hpt, if_neg hne]
      cases hm : memPt m (PAGE addr) with
      | none => rfl
      | some e =>
        have hlt := hnot (i, PAGE addr) e (by rw [entry_put_self]; exact hm)
        simp only [hdata, hold e.data hlt]
    refine ⟨hsame type, ?_⟩
    unfold view
    rw [hsame]
    rcases hq : memPtrNofault h m addr .read with _ | q
    · rfl
    obtain ⟨e, hm, rfl⟩ := nofault_eq_some hq
    have hentry' : (w.put i (h, m)).entry (i, PAGE addr) = some e := by
      rw [entry_put_self, hm]
    have hlt := (H.mapOf _ (H.allocated hentry')).2
    show some (s.1.bytes _ _) = some (h.bytes _ _)
    rw [hbytes, hb _ hlt]
  · have hread : memPtrNofault s.1 s.2 addr .read
        = some { map := h.nextMap, off := 0 + PGOFFSET addr } := by
      have hpt' := hpt (PAGE addr)
      rw [if_pos hp] at hpt'
      rw [memPtrNofault_of_some hpt' (fun h => by cases h), hdata, hnew]
    unfold view
    rw [hread, Nat.zero_add]
    show some (s.1.bytes _ _) = _
    rw [hbytes]

/-- New memory that is not mapped anywhere is not seen. -/
theorem keepsView_mmap (H : HeapOk (w.put i (h, m)).entry h) {b : Nat → Nat → UInt8}
    (hb : ∀ k, k < h.nextMap → b k = h.bytes k) (page : Nat) :
    KeepsView (h, m) ({ h with nextMap := h.nextMap + 1, bytes := b }, m) page := by
  refine ⟨fun _ _ _ => rfl, fun addr x hx => ?_⟩
  unfold view at hx ⊢
  rw [map_eq_some_iff] at hx ⊢
  obtain ⟨p, hp, hload⟩ := hx
  refine ⟨p, hp, ?_⟩
  obtain ⟨e, hm, rfl⟩ := nofault_eq_some hp
  have hentry : (w.put i (h, m)).entry (i, PAGE addr) = some e := by
    rw [entry_put_self]
    exact hm
  rw [← hload]
  exact congrFun (hb _ (H.mapOf _ (H.allocated hentry)).2) _

/-- **Growing an unmapped page** changes no byte that could be read. -/
theorem growPage_keeps (c : Calls) (H : HeapOk (w.put i (h, m)).entry h) {page : Nat}
    (hpage : page < MEM_PAGES) (hnone : memPt m page = none) :
    HeapOk (w.put i (growPage c h m page)).entry (growPage c h m page).1 ∧
      KeepsView (h, m) (growPage c h m page) page := by
  rcases growPage_cases c h m page with hgrow | hgrow | hgrow
  · rw [hgrow]
    exact ⟨H, .refl _ _⟩
  · rw [hgrow]
    exact ⟨H.mmap _, keepsView_mmap H (mmap_bytes_old h) page⟩
  obtain ⟨hheap, hother, -⟩ := mapPage_new H (mmap_bytes_old h) hpage
    (P_WRITE ||| P_GROWSDOWN ||| P_ANONYMOUS) ((1 * PAGE_SIZE) % 2 ^ 32 + 0)
  rw [hgrow]
  refine ⟨hheap, fun addr type hne => (hother addr type hne).1, fun addr x hx => ?_⟩
  by_cases hp : PAGE addr = page
  · -- nothing could be read on the page
    rw [view, memPtrNofault_of_none (by rw [hp]; exact hnone)] at hx
    cases hx
  · exact (hother addr .read hp).2.trans hx

/-- **Copying a page** from where it is mapped changes no byte that could be read. -/
theorem copyPage_keeps (c : Calls) (H : HeapOk (w.put i (h, m)).entry h) {page : Nat}
    {e : PtEntry} (hpt : memPt m page = some e) (flags : Flags) :
    let s := copyPage c h m page { map := (h.datas e.data).data, off := e.offset } flags
    (c.mmapErr.isSome = true ∧ s.1.died = true ∨ HeapOk (w.put i s).entry s.1) ∧
      KeepsView (h, m) s page := by
  intro s
  have hentry : (w.put i (h, m)).entry (i, page) = some e := by rw [entry_put_self, hpt]
  have hlt : (h.datas e.data).data < h.nextMap := (H.mapOf _ (H.allocated hentry)).2
  obtain ⟨b, hcpy, hb, hcopied⟩ := Host.memcpy_new
    (p := { map := (h.datas e.data).data, off := e.offset }) (H.live hentry) hlt
  have hs : s = _ := copyPage_eq c h m page _ flags
  rw [hs, hcpy]
  dsimp only
  split
  next herr => exact ⟨.inl ⟨herr, rfl⟩, fun _ _ _ => rfl, fun _ _ hx => hx⟩
  split
  · obtain ⟨hheap, hother, hnew⟩ := mapPage_new H hb (H.inBounds hentry) (clearCow flags)
      ((1 * PAGE_SIZE) % 2 ^ 32 + 0)
    refine ⟨.inr hheap, fun addr type hne => (hother addr type hne).1, fun addr x hx => ?_⟩
    by_cases hp : PAGE addr = page
    · rw [hnew addr hp, hcopied _ (PGOFFSET_lt addr), ← hx, view,
        memPtrNofault_of_some (by rw [hp]; exact hpt) (fun h => by cases h)]
      rfl
    · exact (hother addr .read hp).2.trans hx
  · exact ⟨.inr (H.mmap b), keepsView_mmap H hb page⟩

end Views

/-! ## The invariant -/

section Invariant

variable {ι τ : Type} [Fintype ι] {i : ι} {s : Threads ι τ}

/-- **No completed store is lost**: an address that was stored to shows the last byte stored
there, and a thread that is about to read it through its pointer will read that byte. -/
def Threads.NoStoreLost (i : ι) (s : Threads ι τ) : Prop :=
  ∀ addr v, s.last addr = some v →
    view s.world.host (s.world.spaces i) addr = some v ∧
      ∀ t p, s.pcs t = .holding addr .load p → s.world.host.load p = v

/-- The invariant of the runs that meet `RemapOk`: the pointers the threads hold are the current
translations. -/
structure Threads.Inv (i : ι) (s : Threads ι τ) : Prop where
  heap : s.world.host.died = true ∨ HeapOk s.world.entry s.world.host
  kept : ∀ addr v, s.last addr = some v →
    view s.world.host (s.world.spaces i) addr = some v
  current : ∀ t addr use p, s.pcs t = .holding addr use p →
    memPtrNofault s.world.host (s.world.spaces i) addr use.type = some p

theorem Threads.Inv.noStoreLost (I : s.Inv i) : s.NoStoreLost i := by
  intro addr v hv
  have hview := I.kept addr v hv
  refine ⟨hview, fun t p hp => ?_⟩
  have hread : memPtrNofault s.world.host (s.world.spaces i) addr .read = some p :=
    I.current t addr .load p hp
  rw [view, hread] at hview
  exact some.inj hview

/-- Remapping a page that no thread holds a pointer into. -/
theorem Threads.Inv.remap [DecidableEq ι] (I : s.Inv i) {s' : Host × Mem} {page : Nat}
    (hheap : s'.1.died = true ∨ HeapOk (s.world.put i s').entry s'.1)
    (hkeep : KeepsView (s.world.host, s.world.spaces i) s' page) (hno : s.NoHolder page) :
    ({ s with world := s.world.put i s' } : Threads ι τ).Inv i := by
  have hspace := put_spaces_self s.world i s'
  refine ⟨hheap, fun addr v hv => ?_, fun t addr use p hp => ?_⟩
  · rw [hspace]
    exact hkeep.view addr v (I.kept addr v hv)
  show memPtrNofault s'.1 ((s.world.put i s').spaces i) addr use.type = some p
  rw [hspace, hkeep.frame addr use.type (hno t addr use p hp)]
  exact I.current t addr use p hp

/-- A byte stored through a current pointer. -/
theorem Threads.Inv.store [DecidableEq ι] (I : s.Inv i)
    (H : HeapOk s.world.entry s.world.host) {t : τ} {addr : Addr} {v : UInt8} {p : HostPtr}
    (hp : s.pcs t = .holding addr (.store v) p) :
    let w := s.world.put i ((s.world.host.touch p).store p v, s.world.spaces i)
    ({ s with world := w, last := update s.last addr (some v) } : Threads ι τ).Inv i := by
  intro w
  have hcur := I.current t addr (.store v) p hp
  have hspace : w.spaces i = s.world.spaces i := put_spaces_self s.world i _
  have H' : HeapOk (s.world.put i (s.world.host, s.world.spaces i)).entry s.world.host := by
    rw [put_self]
    exact H
  have hlive : s.world.host.unmapped p.map = false := by
    obtain ⟨e, hpt, rfl⟩ := nofault_eq_some hcur
    exact H.live (s := (i, PAGE addr)) hpt
  have hhost : w.host = s.world.host.store p v := by
    show (s.world.host.touch p).store p v = _
    rw [Host.touch_of_live _ _ hlive]
  have hentry : w.entry = s.world.entry := by
    have hput := entry_put_congr s.world i s.world.host
      ((s.world.host.touch p).store p v) (fun page => rfl : ∀ page,
        memPt (s.world.spaces i) page = memPt (s.world.spaces i) page)
    rw [put_self] at hput
    exact hput
  refine ⟨.inr ?_, fun a x hx => ?_, fun u a use q hu => ?_⟩
  · rw [hentry, hhost]
    exact H.bytes _
  · rw [hspace, hhost, view_store H' hcur]
    rcases update_cases hx with ⟨rfl, hnew⟩ | ⟨ha, hold⟩
    · rw [if_pos rfl, hnew]
    rw [if_neg ha]
    exact I.kept a x hold
  · rw [hspace, hhost]
    exact I.current u a use q hu

variable [DecidableEq τ]

theorem Threads.Inv.setPc (I : s.Inv i) (t : τ) {pc : Pc}
    (hpc : ∀ addr use p, pc = .holding addr use p →
      memPtrNofault s.world.host (s.world.spaces i) addr use.type = some p) :
    (s.setPc t pc).Inv i := by
  refine ⟨I.heap, I.kept, fun u addr use p hu => ?_⟩
  rw [Threads.setPc_pcs] at hu
  split at hu
  · exact hpc addr use p hu
  · exact I.current u addr use p hu

theorem Threads.Inv.endPtr (I : s.Inv i) (t : τ) (addr : Addr) (use : Use) :
    (s.endPtr i t addr use).1.Inv i := by
  unfold Threads.endPtr
  cases hp : memPtrNofault s.world.host (s.world.spaces i) addr use.type with
  | none => exact I.setPc t (fun _ _ _ h => by cases h)
  | some p => exact I.setPc t (fun _ _ _ h => by cases h; exact hp)

theorem Threads.Inv.testEntry (I : s.Inv i) (t : τ) (addr : Addr) (use : Use) (e : PtEntry) :
    (s.testEntry i t addr use e).1.Inv i := by
  unfold Threads.testEntry
  cases use with
  | load => exact I.endPtr t addr .load
  | store v =>
    dsimp only
    split
    · exact I.setPc t (fun _ _ _ h => by cases h)
    split
    · exact I.setPc t (fun _ _ _ h => by cases h)
    · exact I.endPtr t addr (.store v)

variable [DecidableEq ι]

/-- **What one step preserves.** -/
theorem Threads.Inv.step (I : s.Inv i) {a : Act τ} (hok : s.RemapOk i a) {s' : Threads ι τ}
    {o : Option Out} (hstep : s.step i a = some (s', o)) : s'.Inv i := by
  unfold Threads.step at hstep
  dsimp only at hstep
  split at hstep
  · cases hstep
  rename_i halive
  have H : HeapOk s.world.entry s.world.host := I.heap.resolve_left halive
  have H' : HeapOk (s.world.put i (s.world.host, s.world.spaces i)).entry s.world.host := by
    rw [put_self]
    exact H
  have hret : ∀ {r : Threads ι τ × Option Out}, r.1.Inv i → some r = some (s', o) → s'.Inv i := by
    rintro r h ⟨⟩
    exact h
  cases a with
  | enter t addr use =>
    dsimp only at hstep
    split at hstep
    · split at hstep
      · split at hstep
        · cases hstep
          exact I.setPc t (fun _ _ _ h => by cases h)
        cases hstep
        exact I
      next e _ => exact hret (I.testEntry t addr use e) hstep
    · cases hstep
  | grow t c =>
    dsimp only at hstep
    split at hstep
    · rename_i addr use hpc
      cases hstep
      obtain ⟨hnone, hno⟩ := hok addr use hpc
      obtain ⟨hheap, hkeep⟩ := growPage_keeps c H' (PAGE_lt addr) hnone
      exact (I.remap (.inr hheap) hkeep hno).setPc t (fun _ _ _ h => by cases h)
    · cases hstep
  | reenter t =>
    dsimp only at hstep
    split at hstep
    · rename_i addr use hpc
      split at hstep
      · exact hret (I.endPtr t addr use) hstep
      next e _ => exact hret (I.testEntry t addr use e) hstep
    · cases hstep
  | copy t c =>
    dsimp only at hstep
    split at hstep
    · rename_i addr v data hpc
      obtain ⟨⟨e, hpt, -, rfl⟩, hno⟩ := hok addr v data hpc
      rw [hpt] at hstep
      cases hstep
      obtain ⟨hheap, hkeep⟩ := copyPage_keeps c H' hpt e.flags
      exact (I.remap (hheap.imp_left And.right) hkeep hno).setPc t (fun _ _ _ h => by cases h)
    · cases hstep
  | finish t =>
    dsimp only at hstep
    split at hstep
    · rename_i addr v hpc
      exact hret (I.endPtr t addr (.store v)) hstep
    · cases hstep
  | access t =>
    dsimp only at hstep
    split at hstep
    · rename_i addr p hpc
      cases hstep
      have hcur := I.current t addr .load p hpc
      have hlive : s.world.host.unmapped p.map = false := by
        obtain ⟨e, hpt, rfl⟩ := nofault_eq_some hcur
        exact H.live (s := (i, PAGE addr)) hpt
      rw [Host.touch_of_live _ _ hlive, put_self]
      exact I.setPc t (fun _ _ _ h => by cases h)
    · rename_i addr v p hpc
      cases hstep
      exact (I.store H hpc).setPc t (fun _ _ _ h => by cases h)
    · cases hstep

/-- Threads that have not begun, on address spaces that are there already. -/
def Threads.start (w : World ι) : Threads ι τ :=
  { world := w, pcs := fun _ => .idle, last := fun _ => none }

/-- **Every run whose remapping steps meet `RemapOk` loses no completed store.** -/
theorem no_store_lost {w : World ι} (hheap : HeapOk w.entry w.host) {acts : List (Act τ)}
    {os : List (Option Out)}
    (hok : (threadMachine ι τ i).Along (Threads.RemapOk i) (.start w) acts)
    (hrun : (threadMachine ι τ i).run (.start w) acts = some (s, os)) :
    s.NoStoreLost i := by
  have hstart : (Threads.start (τ := τ) w).Inv i :=
    ⟨.inr hheap, fun _ _ h => (nomatch h), fun _ _ _ _ h => (nomatch h)⟩
  have hinv : s.Inv i := Machine.run_inv (M := threadMachine ι τ i) (P := Threads.RemapOk i)
    (fun _ _ _ _ I hP hs => I.step hP hs) hstart hok hrun
  exact hinv.noStoreLost

end Invariant

/-! ## Two faults on one page

Two threads find the same page `P_COW` (or unmapped and able to grow) before either has remapped
it. The second one to take the write lock copies the old memory over (or maps a page of zeros in
place of) the page the first one has stored to in the meantime. The lock excludes none of this:
each remap happens while no other thread holds the read lock. -/

section TwoFaults

/-- Thread `false` stores `7` at address 0 and is done before thread `true`, which has seen the
page `P_COW` too, copies it. -/
def copySchedule : List (Act Bool) :=
  [.enter false 0#32 (.store 7), .enter true 1#32 (.store 9), .copy false .ok, .finish false,
    .access false, .copy true .ok, .finish true, .access true]

/-- The same on a page that is not mapped yet. -/
def growSchedule : List (Act Bool) :=
  [.enter false 0#32 (.store 7), .enter true 1#32 (.store 9), .grow false .ok, .reenter false,
    .access false, .grow true .ok, .reenter true, .access true]

/-- An address space whose third page grows down. -/
def stackWorld : World Bool :=
  (init.step (.mapNothing false { start := 2, pages := 1, inBounds := by decide }
    (P_WRITE ||| P_GROWSDOWN))).1

/-- What a run shows at an address against what was last stored there. -/
theorem not_noStoreLost {i : Bool} {w : World Bool} {acts : List (Act Bool)} {a : Addr}
    {v x : UInt8} (hne : x ≠ v)
    (h : ((threadMachine Bool Bool i).run (.start w) acts).map (fun p =>
      (p.1.last a, view p.1.world.host (p.1.world.spaces i) a)) = some (some v, some x)) :
    ∃ s os, (threadMachine Bool Bool i).run (.start w) acts = some (s, os) ∧
      ¬ s.NoStoreLost i := by
  rw [map_eq_some_iff] at h
  obtain ⟨⟨s, os⟩, hrun, hs⟩ := h
  obtain ⟨hlast, hview⟩ := Prod.mk.inj hs
  refine ⟨s, os, hrun, fun hno => hne ?_⟩
  have hv := (hno a v hlast).1
  rw [hview] at hv
  exact some.inj hv

/-- **A completed store is lost**, on a `P_COW` page and on a page that grows down. -/
theorem second_fault_loses_store :
    (∃ s os, (threadMachine Bool Bool true).run (.start afterFork) copySchedule
        = some (s, os) ∧ ¬ s.NoStoreLost true) ∧
      ∃ s os, (threadMachine Bool Bool false).run (.start stackWorld) growSchedule
        = some (s, os) ∧ ¬ s.NoStoreLost false :=
  ⟨not_noStoreLost (a := 0#32) (v := 7) (x := 0) (by decide) (by decide +kernel),
    not_noStoreLost (a := 0#32) (v := 7) (x := 0) (by decide) (by decide +kernel)⟩

/-- Two threads store to two pages that both grow down. -/
def twoGrowths : List (Act Bool) :=
  [.enter false 0x1000#32 (.store 7), .enter true 0#32 (.store 9), .grow false .ok, .grow true .ok,
    .reenter false, .reenter true, .access false, .access true]

theorem no_store_lost_twoGrowths :
    ∃ s os, (threadMachine Bool Bool false).run (.start stackWorld) twoGrowths = some (s, os) ∧
      s.last 0x1000#32 = some 7 ∧ s.last 0#32 = some 9 ∧ s.NoStoreLost false := by
  have hheap := (sim_step (sim_init (ι := Bool)) (.mapNothing false
    { start := 2, pages := 1, inBounds := by decide } (P_WRITE ||| P_GROWSDOWN)) trivial).1.heap
  have hgrows : ∀ page < 2, growsDown (stackWorld.spaces false) page = true := by
    decide +kernel
  have henter : ∀ (s : Threads Bool Bool) t addr use, s.world = stackWorld → s.pcs t = .idle →
      PAGE addr < 2 → memPt (stackWorld.spaces false) (PAGE addr) = none →
      (threadMachine Bool Bool false).step s (.enter t addr use)
        = some (s.setPc t (.growing addr use), none) := by
    intro s t addr use hw hpc hpage hpt
    have hdied : stackWorld.host.died = false := by decide +kernel
    simp [threadMachine, Threads.step, hw, hdied, hpc, hpt, hgrows _ hpage]
  have hok : (threadMachine Bool Bool false).Along (Threads.RemapOk false) (.start stackWorld)
      twoGrowths := by
    refine (Machine.along_cons_of_step (henter _ _ _ _ rfl rfl (by decide) rfl) _).mpr
      ⟨trivial, ?_⟩
    refine (Machine.along_cons_of_step (henter _ _ _ _ rfl rfl (by decide) rfl) _).mpr
      ⟨trivial, ?_⟩
    refine (Machine.along_cons_of_step rfl _).mpr ⟨?_, (Machine.along_cons_of_step rfl _).mpr
      ⟨?_, ?_⟩⟩
    · intro addr use hpc
      cases hpc
      exact ⟨rfl, fun t _ _ _ ht => by cases t <;> cases ht⟩
    · intro addr use hpc
      cases hpc
      exact ⟨rfl, fun t _ _ _ ht => by cases t <;> cases ht⟩
    · exact Machine.along_of_forall (fun a ha => by fin_cases ha <;> exact fun _ => trivial) _
  have hlast : ((threadMachine Bool Bool false).run (.start stackWorld) twoGrowths).map
      (fun p => (p.1.last 0x1000#32, p.1.last 0#32)) = some (some 7, some 9) := by
    decide +kernel
  obtain ⟨⟨s, os⟩, hrun, hs⟩ := map_eq_some_iff.mp hlast
  obtain ⟨hs₁, hs₂⟩ := Prod.mk.inj hs
  exact ⟨s, os, hrun, hs₁, hs₂, no_store_lost hheap hok hrun⟩

end TwoFaults

end Ish.Memory
