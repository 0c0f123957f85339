import Ish.Memory.CopyOnWrite

set_option autoImplicit false

/-! # The protection of host memory

Where the protection of a page increases, `pt_set_flags` calls `mprotect` on the host page that
the page is on, and without `P_WRITE` in the new flags the host page is read-only afterwards. The
flags of the other pages on it are not asked for: those of the same mapping, where a host page is
larger than a guest page, and those of the address spaces that share the memory. A store to one of
them, which `mem_ptr` allows, kills the process.

`Guarded` is the world of `Memory/Spaces.lean` with the protection of every host page.
-/

namespace Ish.Memory

open Function Ish.Lib World

section Machine

variable {ι : Type} [DecidableEq ι]

/-- A world, and the host pages of each mapping that are read-only. A host page is `real` bytes
long, the `real_page_size`. -/
structure Guarded (ι : Type) where
  world : World ι
  readOnly : Nat → Nat → Bool

def Guarded.init : Guarded ι := { world := .init, readOnly := fun _ _ => false }

/-- The `mprotect` of a turn of `pt_set_flags`. No page is changed twice, so `mem` can be the page
table before the loop. -/
def mprotectPage (real : Nat) (h : Host) (mem : Mem) (flags : Flags)
    (readOnly : Nat → Nat → Bool) (page : Nat) : Nat → Nat → Bool :=
  match memPt mem page with
  | none => readOnly
  | some entry =>
    if has (flags &&& ~~~entry.flags) (P_READ ||| P_WRITE) then
      let data := (h.datas entry.data).data
      update readOnly data
        (update (readOnly data) (entry.offset / real) (!has flags P_WRITE))
    else readOnly

/-- What a call does to the protection of the host pages. A new mapping can be written. -/
def Guarded.protect (real : Nat) (g : Guarded ι) : Op ι → Nat → Nat → Bool
  | .setFlags i r flags =>
    if allMapped (g.world.spaces i) r.start r.pages then
      foldUp (mprotectPage real g.world.host (g.world.spaces i) flags) g.readOnly r.start r.pages
    else g.readOnly
  | _ => g.readOnly

/-- The call stores to a read-only host page. Memory that is mapped in the same call, for a page
that is grown or copied, can be written. -/
def Guarded.killed (real : Nat) (g : Guarded ι) : Op ι → Bool
  | .write i addr _ =>
    match (memPtr .ok .ok g.world.host (g.world.spaces i) addr .write).2.2 with
    | none => false
    | some p => p.map < g.world.host.nextMap && g.readOnly p.map (p.off / real)
  | _ => false

/-- One call. -/
def Guarded.step (real : Nat) (g : Guarded ι) (op : Op ι) : Guarded ι × Out :=
  let s := g.world.step op
  let host := { s.1.host with died := s.1.host.died || g.killed real op }
  ({ world := { s.1 with host := host }, readOnly := g.protect real op }, s.2)

def guardedMachine (ι : Type) [DecidableEq ι] (real : Nat) : Machine (Guarded ι) (Op ι) Out where
  step g op := some (g.step real op)

/-- What a call has to meet: as without protection, and a byte that can be written where it is, is
not on a read-only host page. -/
def Guarded.StepOk (real : Nat) (g : Guarded ι) (op : Op ι) : Prop :=
  g.world.StepOk op ∧
    match op with
    | .write i addr _ =>
      ∀ p, memPtrNofault g.world.host (g.world.spaces i) addr .write = some p →
        g.readOnly p.map (p.off / real) = false
    | _ => True

end Machine

/-! ## Stores to new memory -/

section Stores

variable {h : Host} {m : Mem} {addr : Addr} {type : Access} {p : HostPtr}

theorem unmapPage_nextMap (s : Host × Mem) (page : Nat) :
    (unmapPage s page).1.nextMap = s.1.nextMap := by
  unfold unmapPage
  split
  · rfl
  · exact Host.release_nextMap _ _

/-- A page put on a new mapping is found there. -/
theorem nofault_mapPage {k size : Nat} {flags : Flags}
    (hp : let s := mapPage h.nextData (PAGE addr) 0 flags ((h.newData k size).1, m) (PAGE addr)
      memPtrNofault s.1 s.2 addr type = some p) : p.map = k := by
  obtain ⟨e, hpt, rfl⟩ := nofault_eq_some hp
  rw [memPt_mapPage, if_pos rfl] at hpt
  cases hpt
  rw [mapPage_eq, Host.retain_data, unmapPage_data, Host.newData_new]

/-- Growing a page adds mappings, and the page is where it was or on one of them. -/
theorem nofault_faultGrow_new (h : Host) (m : Mem) (addr : Addr) :
    let s := faultGrow .ok h m (PAGE addr)
    h.nextMap ≤ s.1.nextMap ∧ ∀ p, memPtrNofault s.1 s.2 addr .write = some p →
      memPtrNofault h m addr .write = some p ∨ h.nextMap ≤ p.map := by
  unfold faultGrow
  split
  · rw [growPage_ok]
    refine ⟨?_, fun p hp => .inr (nofault_mapPage (h := h.mmap.1) hp).ge⟩
    rw [mapPage_eq]
    exact (unmapPage_nextMap _ _).ge.trans' (Nat.le_succ _)
  · exact ⟨le_rfl, fun p => .inl⟩

/-- `mem_ptr` for a write gives the place that the byte had before, or new memory. -/
theorem memPtr_write_new (hp : (memPtr .ok .ok h m addr .write).2.2 = some p) :
    memPtrNofault h m addr .write = some p ∨ h.nextMap ≤ p.map := by
  obtain ⟨hmaps, hgrow⟩ := nofault_faultGrow_new h m addr
  rw [memPtr_eq, memPtrEntry_write] at hp
  generalize faultGrow .ok h m (PAGE addr) = g at hp hmaps hgrow
  split at hp
  · exact hgrow p hp
  split at hp
  · cases hp
  split at hp
  · dsimp only at hp
    rw [copyPage_eq] at hp
    exact .inr (hmaps.trans (nofault_mapPage (h := g.1.mmap.1.memcpy _ _ _) hp).ge)
  · exact hgrow p hp

variable {ι : Type} [DecidableEq ι] {real : Nat} {g : Guarded ι} {op : Op ι}

/-- **One call** stores nothing to a read-only host page. -/
theorem guarded_step (hok : g.StepOk real op) :
    (g.step real op).1.world = (g.world.step op).1 := by
  have hkilled : g.killed real op = false := by
    cases op with
    | write i addr v =>
      simp only [Guarded.killed]
      cases hp : (memPtr .ok .ok g.world.host (g.world.spaces i) addr .write).2.2 with
      | none => rfl
      | some p =>
        rcases memPtr_write_new hp with hold | hnew
        · simp [hok.2 p hold]
        · simp [Nat.not_lt.mpr hnew]
    | _ => rfl
  simp only [Guarded.step, hkilled, Bool.or_false]

end Stores

/-! ## Runs -/

section Runs

variable {ι : Type} [Fintype ι]

/-- The number of slots bounds every reference count, which is an `unsigned` in the source. -/
theorem refcount_lt {E : ι × Nat → Option PtEntry} {h : Host} (H : HeapOk E h)
    (hcard : Fintype.card ι < 2 ^ 12) {d : Nat} (hd : d < h.nextData) :
    (h.datas d).refcount < 2 ^ 32 := by
  have hslots : (slots ι).card = Fintype.card ι * MEM_PAGES := by
    rw [slots, Finset.card_product, Finset.card_univ, Finset.card_range]
  have hle : (h.datas d).refcount ≤ Fintype.card ι * MEM_PAGES := by
    rw [H.count d hd, ← hslots]
    exact Finset.card_filter_le _ _
  have hpages : MEM_PAGES = 2 ^ 20 := rfl
  rw [hpages] at hle
  omega

variable [DecidableEq ι]

/-- **Copy on write refines eager copying** along every run whose calls meet `StepOk`: the codes
returned and the bytes read are those of the eagerly copied address spaces, no access goes to
memory that is gone or to a host page that is read-only, and no reference count leaves its type. -/
theorem copyOnWrite_refines_eagerCopy {real : Nat} (hcard : Fintype.card ι < 2 ^ 12)
    (ops : List (Op ι))
    (hok : (guardedMachine ι real).Along (Guarded.StepOk real) .init ops) :
    ∃ g r os, (guardedMachine ι real).run .init ops = some (g, os) ∧
      (eagerMachine ι).run Eager.init ops = some (r, os) ∧ g.world.host.died = false ∧
      ∀ d < g.world.host.nextData, (g.world.host.datas d).refcount < 2 ^ 32 := by
  obtain ⟨g, os, hrun⟩ := Machine.run_total (M := guardedMachine ι real)
    (fun g op => ⟨g.step real op, rfl⟩) .init ops
  obtain ⟨r, hrun', hsim⟩ := Machine.run_sim (M := guardedMachine ι real)
    (N := eagerMachine ι) (P := Guarded.StepOk real) (R := fun g r => g.world.Sim r)
    (fun g r op g' o hR hP hstep => by
      have hg : g.step real op = (g', o) := Option.some.inj hstep
      have hworld := guarded_step hP
      obtain ⟨hsim, hout⟩ := sim_step hR op hP.1
      have ho : (g.world.step op).2 = o := congrArg Prod.snd hg
      rw [ho] at hout
      rw [hg] at hworld
      rw [← hworld] at hsim
      exact ⟨(r.step op).1, congrArg some (Prod.ext rfl hout.symm), hsim⟩)
    sim_init hok hrun
  exact ⟨g, r, os, hrun, hrun', hsim.heap.alive, fun d hd => refcount_lt hsim.heap hcard hd⟩

end Runs

/-! ## Changes of protection

`mmap` of one writable page, `fork`, and the child calling `mprotect` with the protection the
page already has: `pt_set_flags` takes `P_COW` off the page, and the byte the child then writes
is read by the parent. And on a host with pages of 16 kB, `mprotect` of one page of a mapping to
nothing and back to `PROT_READ`: the page next to it is on the same host page. -/

section Mprotect

def mprotectTail : List (Op Bool) :=
  [.setFlags true firstPage P_WRITE, .write true 0#32 7, .read false 0#32]

def mprotectRun : List (Op Bool) := forkRun ++ mprotectTail

/-- The eager copies before the fork. -/
def eagerBeforeFork : Eager Bool :=
  (Eager.init.step (.mapNothing false firstPage P_WRITE)).1

theorem eager_step_fork :
    (eagerMachine Bool).step eagerBeforeFork (.copyOnWrite false true (by decide))
      = some (eagerBeforeFork.copyPage false true 0, .ret 0) := by
  -- nothing is mapped above the first page
  have hidle : foldUp (fun r page => r.copyPage false true page)
      (eagerBeforeFork.copyPage false true 0) 1 (MEM_PAGES - 1)
        = eagerBeforeFork.copyPage false true 0 := by
    refine foldUp_idle _ _ _ _ fun q hq _ => ?_
    have hne : (false, q) ≠ (false, 0) := fun h => by cases h; omega
    have hdst : (false, q) ≠ (true, 0) := fun h => by cases h
    have hpage : (eagerBeforeFork.copyPage false true 0).pages (false, q) = none :=
      (update_of_ne hdst (some ⟨1, P_WRITE ||| P_ANONYMOUS⟩) eagerBeforeFork.pages).trans
        (update_of_ne hne _ (Eager.init (ι := Bool)).pages)
    rw [Eager.copyPage, hpage]
  have hn : MEM_PAGES = MEM_PAGES - 1 + 1 := by decide
  simp only [eagerMachine, Eager.step]
  rw [hn, foldUp_succ, hidle]

theorem mprotectRun_outputs : (guardedMachine Bool PAGE_SIZE).outputs .init mprotectRun
    = some [.ret 0, .ret 0, .ret 0, .stored, .value 7] := by
  have hmap : (guardedMachine Bool PAGE_SIZE).step .init (.mapNothing false firstPage P_WRITE)
      = some (⟨beforeFork, fun _ _ => false⟩, .ret 0) := rfl
  have hfork : (guardedMachine Bool PAGE_SIZE).step ⟨beforeFork, fun _ _ => false⟩
      (.copyOnWrite false true (by decide))
      = some (⟨afterFork, fun _ _ => false⟩, .ret 0) := by
    simp only [guardedMachine, Guarded.step, step_fork, Guarded.killed, Guarded.protect,
      Bool.or_false]
  have htail : (guardedMachine Bool PAGE_SIZE).outputs ⟨afterFork, fun _ _ => false⟩ mprotectTail
      = some [.ret 0, .stored, .value 7] := by decide +kernel
  rw [mprotectRun, forkRun, List.cons_append, Machine.outputs_cons hmap, List.singleton_append,
    Machine.outputs_cons hfork, htail]
  rfl

theorem mprotectRun_eager_outputs : (eagerMachine Bool).outputs Eager.init mprotectRun
    = some [.ret 0, .ret 0, .ret 0, .stored, .value 0] := by
  have hret : (Eager.init.step (.mapNothing false firstPage P_WRITE)).2 = .ret 0 := by
    decide +kernel
  have hmap : (eagerMachine Bool).step Eager.init (.mapNothing false firstPage P_WRITE)
      = some (eagerBeforeFork, .ret 0) := congrArg some (Prod.ext rfl hret)
  have htail : (eagerMachine Bool).outputs (eagerBeforeFork.copyPage false true 0) mprotectTail
      = some [.ret 0, .stored, .value 0] := by decide +kernel
  rw [mprotectRun, forkRun, List.cons_append, Machine.outputs_cons hmap, List.singleton_append,
    Machine.outputs_cons eager_step_fork, htail]
  rfl

/-- Two pages on one host page. -/
def sharedHostPage : List (Op Bool) :=
  let first (flags : Flags) : Op Bool := .setFlags false firstPage flags
  [.mapNothing false { start := 0, pages := 2, inBounds := by decide } (P_READ ||| P_WRITE),
    first 0#32, first P_READ, .write false 0x1000#32 7]

/-- The parent reads what the child has written, and a store to a page whose flags nobody has
changed kills the process. -/
theorem mprotect_after_fork_leaks :
    (guardedMachine Bool PAGE_SIZE).outputs .init mprotectRun
        ≠ (eagerMachine Bool).outputs Eager.init mprotectRun ∧
      ((guardedMachine Bool 0x4000).run .init sharedHostPage).map (·.1.world.host.died)
        = some true := by
  refine ⟨?_, by decide +kernel⟩
  rw [mprotectRun_outputs, mprotectRun_eager_outputs]
  decide

/-- Without the `mprotect` the same calls meet `StepOk`. -/
theorem copyOnWrite_refines_eagerCopy_forkRun :
    Fintype.card Bool < 2 ^ 12 ∧ ∃ g r os,
      (guardedMachine Bool 0x4000).run .init (forkRun ++ [.write true 0#32 7, .read false 0#32])
        = some (g, os) ∧
      (eagerMachine Bool).run Eager.init (forkRun ++ [.write true 0#32 7, .read false 0#32])
        = some (r, os) ∧ g.world.host.died = false ∧
      ∀ d < g.world.host.nextData, (g.world.host.datas d).refcount < 2 ^ 32 := by
  refine ⟨by decide, copyOnWrite_refines_eagerCopy (by decide) _ ⟨⟨trivial, trivial⟩,
    fun g o hmap => ⟨⟨?_, trivial⟩, fun g' o' hfork => ⟨⟨trivial, fun p _ => ?_⟩,
      fun _ _ _ => ⟨⟨trivial, trivial⟩, fun _ _ _ => trivial⟩⟩⟩⟩⟩
  · have hg : g.world = beforeFork :=
      (congrArg Guarded.world (Prod.mk.inj (Option.some.inj hmap)).1).symm
    rw [hg]
    exact beforeFork_stepOk _
  · have hprot : g'.readOnly = g.readOnly :=
      (congrArg Guarded.readOnly (Prod.mk.inj (Option.some.inj hfork)).1).symm
    rw [hprot, ← (Prod.mk.inj (Option.some.inj hmap)).1]
    rfl

end Mprotect

end Ish.Memory
