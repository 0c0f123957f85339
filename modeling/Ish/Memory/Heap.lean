import Ish.Memory.Spaces
import Ish.Lib.Counted

set_option autoImplicit false

/-! # Reference counts and live memory

`HeapOk E h` is the invariant of the host `h` under the page table entries `E` of all address
spaces: the reference count of each `struct data` is the number of entries that point to it, the
memory of a `struct data` some entry points to has not been unmapped, and no two of them share
memory. It says nothing about the contents of pages or about `P_COW`.

The entries are taken as a function of the slot, so the lemmas speak of one slot being written
(`Function.update`) whatever page directory it lies in.
-/

namespace Ish.Memory

open Function Ish.Lib Host

/-! ## The host operations, field by field -/

section HostFields

variable (h : Host) (d d' m size : Nat) (p : HostPtr)

@[simp] theorem Host.setRefcount_data (n : Nat) :
    ((h.setRefcount d n).datas d').data = (h.datas d').data := by
  unfold setRefcount
  by_cases hd : d' = d
  · subst hd; simp
  · simp [hd]

theorem Host.setRefcount_refcount (n : Nat) : ((h.setRefcount d n).datas d').refcount
    = if d' = d then n else (h.datas d').refcount := by
  unfold setRefcount
  by_cases hd : d' = d
  · subst hd; simp
  · simp [hd]

@[simp] theorem Host.retain_data : ((h.retain d).datas d').data = (h.datas d').data :=
  setRefcount_data h d d' _

theorem Host.retain_refcount : ((h.retain d).datas d').refcount
    = (h.datas d').refcount + if d = d' then 1 else 0 := by
  rw [retain, setRefcount_refcount]
  by_cases hd : d' = d
  · subst hd; simp
  · simp [hd, Ne.symm hd]

@[simp] theorem Host.retain_nextData : (h.retain d).nextData = h.nextData := rfl

@[simp] theorem Host.retain_unmapped : (h.retain d).unmapped = h.unmapped := rfl
@[simp] theorem Host.retain_bytes : (h.retain d).bytes = h.bytes := rfl

@[simp] theorem Host.release_data : ((h.release d).datas d').data = (h.datas d').data := by
  unfold release
  split
  · exact setRefcount_data h d d' 0
  · exact setRefcount_data h d d' _

theorem Host.release_refcount : ((h.release d).datas d').refcount
    = if d' = d then (h.datas d).refcount - 1 else (h.datas d').refcount := by
  unfold release
  split
  · next hz => rw [hz]; exact setRefcount_refcount h d d' 0
  · exact setRefcount_refcount h d d' _

@[simp] theorem Host.release_nextData : (h.release d).nextData = h.nextData := by
  unfold release; split <;> rfl
@[simp] theorem Host.release_nextMap : (h.release d).nextMap = h.nextMap := by
  unfold release; split <;> rfl
@[simp] theorem Host.release_bytes : (h.release d).bytes = h.bytes := by
  unfold release; split <;> rfl
@[simp] theorem Host.release_died : (h.release d).died = h.died := by
  unfold release; split <;> rfl

/-- Only the last release unmaps, and only the memory of that `struct data`. -/
theorem Host.release_unmapped (hm : h.unmapped m = false)
    (hkeep : (h.datas d).refcount - 1 = 0 → m ≠ (h.datas d).data) :
    (h.release d).unmapped m = false := by
  unfold release
  split
  · rename_i hz
    have hne : m ≠ ((h.setRefcount d 0).datas d).data := by
      rw [setRefcount_data]
      exact hkeep hz
    show (if ((h.setRefcount d 0).datas d).data = VDSO_MAP then h.unmapped
      else update h.unmapped ((h.setRefcount d 0).datas d).data true) m = false
    split
    · exact hm
    · rw [update_of_ne hne]; exact hm
  · exact hm

@[simp] theorem Host.newData_bytes : (h.newData m size).1.bytes = h.bytes := rfl

theorem Host.newData_new : (h.newData m size).1.datas h.nextData
    = { data := m, size := size, refcount := 0, fd := none } := by
  simp [newData]

theorem Host.newData_old {d : Nat} (hd : d < h.nextData) :
    (h.newData m size).1.datas d = h.datas d := by
  have hne : d ≠ h.nextData := by omega
  simp [newData, hne]

theorem Host.load_store (q : HostPtr) (v : UInt8) :
    (h.store p v).load q = if q = p then v else h.load q := by
  show update h.bytes p.map (update (h.bytes p.map) p.off v) q.map q.off
    = if q = p then v else h.bytes q.map q.off
  obtain ⟨pm, po⟩ := p
  obtain ⟨qm, qo⟩ := q
  by_cases hm : qm = pm
  · by_cases ho : qo = po
    · simp [hm, ho]
    · simp [hm, ho]
  · simp [hm]

theorem Host.touch_of_live (hp : h.unmapped p.map = false) : h.touch p = h := by
  simp [touch, hp]

end HostFields

section UnmapPage

variable (s : Host × Mem) (page d : Nat)

@[simp] theorem unmapPage_data : ((unmapPage s page).1.datas d).data = (s.1.datas d).data := by
  unfold unmapPage
  split
  · rfl
  · exact release_data _ _ _

@[simp] theorem unmapPage_nextData : (unmapPage s page).1.nextData = s.1.nextData := by
  unfold unmapPage
  split
  · rfl
  · exact release_nextData _ _

@[simp] theorem unmapPage_bytes : (unmapPage s page).1.bytes = s.1.bytes := by
  unfold unmapPage
  split
  · rfl
  · exact release_bytes _ _

end UnmapPage

/-! ## The invariant -/

variable {ι : Type}

/-- The page memory an entry names: a `struct data` and an offset in it. -/
def SameCell (e e' : PtEntry) : Prop := e.data = e'.data ∧ e.offset = e'.offset

instance (e e' : PtEntry) : Decidable (SameCell e e') := inferInstanceAs (Decidable (_ ∧ _))

theorem SameCell.symm {e e' : PtEntry} (h : SameCell e e') : SameCell e' e :=
  ⟨h.1.symm, h.2.symm⟩

theorem SameCell.trans {e e' e'' : PtEntry} (h : SameCell e e') (h' : SameCell e' e'') :
    SameCell e e'' :=
  ⟨h.1.trans h'.1, h.2.trans h'.2⟩

/-- Two offsets of page memory meet only on the same page. -/
theorem page_offsets_disjoint {a b j k : Nat} (ha : PAGE_SIZE ∣ a) (hb : PAGE_SIZE ∣ b)
    (hj : j < PAGE_SIZE) (hk : k < PAGE_SIZE) (h : a + j = b + k) : a = b ∧ j = k := by
  obtain ⟨m, rfl⟩ := ha
  obtain ⟨n, rfl⟩ := hb
  simp only [PAGE_SIZE, PAGE_BITS] at *
  omega

/-- The slots of all address spaces. -/
def slots (ι : Type) [Fintype ι] : Finset (ι × Nat) := Finset.univ ×ˢ Finset.range MEM_PAGES

theorem mem_slots [Fintype ι] (s : ι × Nat) : s ∈ slots ι ↔ s.2 < MEM_PAGES := by
  simp [slots]

/-- The `struct data` a slot points to. -/
def dataOf (E : ι × Nat → Option PtEntry) (s : ι × Nat) : Option Nat := (E s).map PtEntry.data

theorem dataOf_eq_some {E : ι × Nat → Option PtEntry} {s : ι × Nat} {e : PtEntry}
    (h : E s = some e) : dataOf E s = some e.data := by
  rw [dataOf, h]; rfl

/-- **The heap invariant.** -/
structure HeapOk [Fintype ι] (E : ι × Nat → Option PtEntry) (h : Host) : Prop where
  inBounds : ∀ {s e}, E s = some e → s.2 < MEM_PAGES
  allocated : ∀ {s e}, E s = some e → e.data < h.nextData
  count : ∀ d, d < h.nextData → (h.datas d).refcount = holders (slots ι) (dataOf E) d
  live : ∀ {s e}, E s = some e → h.unmapped (h.datas e.data).data = false
  aligned : ∀ {s e}, E s = some e → PAGE_SIZE ∣ e.offset
  samePage : ∀ {s t e e'}, E s = some e → E t = some e' → SameCell e e' → s.2 = t.2
  mapOf : ∀ d, d < h.nextData → VDSO_MAP < (h.datas d).data ∧ (h.datas d).data < h.nextMap
  own : ∀ d d', d < h.nextData → d' < h.nextData →
    (h.datas d).data = (h.datas d').data → d = d'
  fresh : ∀ m, h.nextMap ≤ m → h.unmapped m = false
  mapBound : VDSO_MAP < h.nextMap
  alive : h.died = false

theorem heapOk_init [Fintype ι] : HeapOk (fun _ : ι × Nat => none) init where
  inBounds h := by cases h
  allocated h := by cases h
  count d hd := absurd hd (Nat.not_lt_zero d)
  live h := by cases h
  aligned h := by cases h
  samePage h := by cases h
  mapOf d hd := absurd hd (Nat.not_lt_zero d)
  own d d' hd := absurd hd (Nat.not_lt_zero d)
  fresh _ _ := rfl
  mapBound := by decide
  alive := rfl

section Steps

variable [DecidableEq ι]
variable {s : ι × Nat} {e : PtEntry}

theorem dataOf_update (E : ι × Nat → Option PtEntry) (s : ι × Nat) (v : Option PtEntry) :
    dataOf (update E s v) = update (dataOf E) s (v.map PtEntry.data) := by
  funext t
  by_cases ht : t = s
  · subst ht; simp [dataOf]
  · simp [dataOf, ht]

variable [Fintype ι] {E : ι × Nat → Option PtEntry} {h : Host}

/-- Unmapping a slot gives its reference back. -/
theorem HeapOk.unmap (H : HeapOk E h) (hs : E s = some e) :
    HeapOk (update E s none) (h.release e.data) := by
  have hold : ∀ {t e'}, update E s none t = some e' → E t = some e' := by
    intro t e' ht
    rcases update_cases ht with ⟨-, hv⟩ | ⟨-, hE⟩
    · cases hv
    · exact hE
  have hmem : s ∈ slots ι := (mem_slots s).mpr (H.inBounds hs)
  have hcount : ∀ d, d < h.nextData → ((h.release e.data).datas d).refcount
      = holders (slots ι) (dataOf (update E s none)) d := by
    intro d hd
    have hupd := holders_update (slots ι) (dataOf E) d hmem none
    rw [dataOf_eq_some hs] at hupd
    rw [dataOf_update, Option.map_none, release_refcount]
    simp only [reduceCtorEq, if_false, Nat.add_zero, Option.some.injEq] at hupd
    have hc := H.count d hd
    by_cases hde : d = e.data
    · subst hde
      rw [if_pos rfl] at hupd ⊢
      omega
    rw [if_neg (Ne.symm hde)] at hupd
    rw [if_neg hde]
    omega
  refine ⟨fun ht => H.inBounds (hold ht), fun ht => ?_, fun d hd => ?_, fun {t e'} ht => ?_,
    fun ht => H.aligned (hold ht), fun ht ht' => H.samePage (hold ht) (hold ht'), fun d hd => ?_,
    fun d d' hd hd' => ?_, fun m hm => ?_, ?_, ?_⟩
  · rw [release_nextData]; exact H.allocated (hold ht)
  · rw [release_nextData] at hd; exact hcount d hd
  · -- a slot that is left keeps its memory: were it the memory of `e.data`, the count of
    -- `e.data` would still be positive
    rw [release_data]
    refine release_unmapped h e.data _ (H.live (hold ht)) (fun hz hmap => ?_)
    have hdata : e'.data = e.data := H.own _ _ (H.allocated (hold ht)) (H.allocated hs) hmap
    have hpos : 0 < holders (slots ι) (dataOf (update E s none)) e.data :=
      (holders_pos_iff _ _ _).mpr ⟨t, (mem_slots t).mpr (H.inBounds (hold ht)), by
        rw [dataOf_eq_some ht, hdata]⟩
    have hc := hcount e.data (H.allocated hs)
    rw [release_refcount, if_pos rfl] at hc
    omega
  · rw [release_nextData] at hd
    rw [release_data, release_nextMap]; exact H.mapOf d hd
  · rw [release_nextData] at hd hd'
    rw [release_data, release_data]; exact H.own d d' hd hd'
  · rw [release_nextMap] at hm
    refine release_unmapped h e.data m (H.fresh m hm) (fun _ hmap => ?_)
    have := (H.mapOf e.data (H.allocated hs)).2
    omega
  · rw [release_nextMap]; exact H.mapBound
  · rw [release_died]; exact H.alive

/-- Pointing a free slot at a `struct data` takes a reference. -/
theorem HeapOk.map (H : HeapOk E h) (hs : E s = none) (hpage : s.2 < MEM_PAGES)
    (hd : e.data < h.nextData) (hlive : h.unmapped (h.datas e.data).data = false)
    (hal : PAGE_SIZE ∣ e.offset) (hsame : ∀ {t e'}, E t = some e' → SameCell e e' → s.2 = t.2) :
    HeapOk (update E s (some e)) (h.retain e.data) := by
  have hmem : s ∈ slots ι := (mem_slots s).mpr hpage
  refine ⟨fun ht => ?_, fun ht => ?_, fun d hd' => ?_, fun ht => ?_, fun ht => ?_,
    fun ht ht' hcell => ?_, fun d hd' => ?_, fun d d' h1 h2 => ?_, H.fresh, H.mapBound, H.alive⟩
  · rcases update_cases ht with ⟨rfl, -⟩ | ⟨-, hE⟩
    · exact hpage
    · exact H.inBounds hE
  · rcases update_cases ht with ⟨-, hv⟩ | ⟨-, hE⟩
    · cases hv; exact hd
    · exact H.allocated hE
  · have hupd := holders_update (slots ι) (dataOf E) d hmem (some e.data)
    have hnone : dataOf E s = none := by rw [dataOf, hs]; rfl
    rw [hnone] at hupd
    simp only [reduceCtorEq, if_false, Nat.add_zero, Option.some.injEq] at hupd
    rw [retain_nextData] at hd'
    rw [dataOf_update, Option.map_some, retain_refcount, H.count d hd']
    omega
  · rw [retain_data, retain_unmapped]
    rcases update_cases ht with ⟨-, hv⟩ | ⟨-, hE⟩
    · cases hv; exact hlive
    · exact H.live hE
  · rcases update_cases ht with ⟨-, hv⟩ | ⟨-, hE⟩
    · cases hv; exact hal
    · exact H.aligned hE
  · rcases update_cases ht with ⟨rfl, hv⟩ | ⟨-, hE⟩ <;>
      rcases update_cases ht' with ⟨rfl, hv'⟩ | ⟨-, hE'⟩
    · rfl
    · cases hv; exact hsame hE' hcell
    · cases hv'; exact (hsame hE hcell.symm).symm
    · exact H.samePage hE hE' hcell
  · rw [retain_data]; exact H.mapOf d hd'
  · rw [retain_data, retain_data]; exact H.own d d' h1 h2

/-- Changing the flags of a mapped slot changes nothing the invariant looks at. -/
theorem HeapOk.setFlags (H : HeapOk E h) (hs : E s = some e) (flags : Flags) :
    HeapOk (update E s (some { e with flags := flags })) h := by
  have hold : ∀ {t e'}, update E s (some { e with flags := flags }) t = some e' →
      ∃ e0, E t = some e0 ∧ SameCell e' e0 := by
    intro t e' ht
    rcases update_cases ht with ⟨rfl, hv⟩ | ⟨-, hE⟩
    · cases hv; exact ⟨e, hs, rfl, rfl⟩
    · exact ⟨e', hE, rfl, rfl⟩
  have hdata : dataOf (update E s (some { e with flags := flags })) = dataOf E := by
    rw [dataOf_update]
    exact (update_eq_self_iff).mpr (dataOf_eq_some hs).symm
  refine ⟨fun ht => ?_, fun ht => ?_, fun d hd => ?_, fun ht => ?_, fun ht => ?_,
    fun ht ht' hcell => ?_, H.mapOf, H.own, H.fresh, H.mapBound, H.alive⟩
  · obtain ⟨e0, hE, -⟩ := hold ht; exact H.inBounds hE
  · obtain ⟨e0, hE, hc⟩ := hold ht; rw [hc.1]; exact H.allocated hE
  · rw [hdata]; exact H.count d hd
  · obtain ⟨e0, hE, hc⟩ := hold ht; rw [hc.1]; exact H.live hE
  · obtain ⟨e0, hE, hc⟩ := hold ht; rw [hc.2]; exact H.aligned hE
  obtain ⟨e0, hE, hc⟩ := hold ht
  obtain ⟨e1, hE', hc'⟩ := hold ht'
  exact H.samePage hE hE' (hc.symm.trans (hcell.trans hc'))

end Steps

section NewMemory

variable [Fintype ι] {E : ι × Nat → Option PtEntry} {h : Host}

/-- A host that differs only in the contents of its memory. -/
theorem HeapOk.bytes (H : HeapOk E h) (b : Nat → Nat → UInt8) : HeapOk E { h with bytes := b } :=
  ⟨H.inBounds, H.allocated, H.count, H.live, H.aligned, H.samePage, H.mapOf, H.own, H.fresh,
    H.mapBound, H.alive⟩

/-- A new mapping and a `struct data` for it, which nothing points to yet. -/
theorem HeapOk.newData (H : HeapOk E h) (b : Nat → Nat → UInt8) (size : Nat) :
    HeapOk E (({ h with nextMap := h.nextMap + 1, bytes := b } : Host).newData h.nextMap size).1
      := by
  set h₁ : Host := { h with nextMap := h.nextMap + 1, bytes := b } with hh1
  have hnext : h₁.nextData = h.nextData := rfl
  have hdatas : h₁.datas = h.datas := rfl
  have hold : ∀ {d}, d < h.nextData → (h₁.newData h.nextMap size).1.datas d = h.datas d :=
    fun hd => newData_old h₁ _ _ hd
  have hnew : (h₁.newData h.nextMap size).1.datas h.nextData
      = { data := h.nextMap, size := size, refcount := 0, fd := none } := newData_new h₁ _ _
  refine ⟨H.inBounds, fun ht => ?_, fun d hd => ?_, fun ht => ?_, H.aligned, H.samePage,
    fun d hd => ?_, fun d d' hd hd' heq => ?_, fun m hm => ?_, ?_, H.alive⟩
  · have := H.allocated ht
    show _ < h.nextData + 1
    omega
  · change d < h.nextData + 1 at hd
    rcases Nat.lt_succ_iff_lt_or_eq.mp hd with hlt | rfl
    · rw [hold hlt]; exact H.count d hlt
    rw [hnew]
    -- no entry can point to a `struct data` that did not exist
    show 0 = _
    by_contra hne
    have hpos : 0 < holders (slots ι) (dataOf E) h.nextData := by omega
    obtain ⟨t, -, ht⟩ := (holders_pos_iff _ _ _).mp hpos
    rw [dataOf, Option.map_eq_some_iff] at ht
    obtain ⟨e, he, hed⟩ := ht
    have := H.allocated he
    omega
  · rw [hold (H.allocated ht)]; exact H.live ht
  · show _ ∧ _ < h.nextMap + 1
    rcases Nat.lt_succ_iff_lt_or_eq.mp hd with hlt | rfl
    · rw [hold hlt]
      have := H.mapOf d hlt
      omega
    rw [hnew]
    have := H.mapBound
    simp only
    omega
  · change d' < h.nextData + 1 at hd'
    rcases Nat.lt_succ_iff_lt_or_eq.mp hd with hlt | rfl <;>
      rcases Nat.lt_succ_iff_lt_or_eq.mp hd' with hlt' | rfl
    · rw [hold hlt, hold hlt'] at heq; exact H.own d d' hlt hlt' heq
    · rw [hold hlt, hnew] at heq
      have := (H.mapOf d hlt).2
      simp only at heq
      omega
    · rw [hold hlt', hnew] at heq
      have := (H.mapOf d' hlt').2
      simp only at heq
      omega
    · rfl
  · refine H.fresh m ?_
    change h.nextMap + 1 ≤ m at hm
    omega
  · have := H.mapBound
    show VDSO_MAP < h.nextMap + 1
    omega

/-- A new mapping that no `struct data` was made for. -/
theorem HeapOk.mmap (H : HeapOk E h) (b : Nat → Nat → UInt8) :
    HeapOk E { h with nextMap := h.nextMap + 1, bytes := b } :=
  ⟨H.inBounds, H.allocated, H.count, H.live, H.aligned, H.samePage,
    fun d hd => ⟨(H.mapOf d hd).1, Nat.lt_succ_of_lt (H.mapOf d hd).2⟩, H.own,
    fun m hm => H.fresh m (Nat.le_of_succ_le hm), Nat.lt_succ_of_lt H.mapBound, H.alive⟩

end NewMemory

section UnmapPageHeap

variable [Fintype ι] [DecidableEq ι] {w : World ι} {i : ι} {s : Host × Mem}

theorem HeapOk.unmapPage (H : HeapOk (w.put i s).entry s.1) (page : Nat) :
    HeapOk (w.put i (unmapPage s page)).entry (unmapPage s page).1 := by
  rw [World.entry_put_unmapPage]
  cases hpt : memPt s.2 page with
  | none =>
    have hentry : (w.put i s).entry (i, page) = none := by rw [World.entry_put_self, hpt]
    rw [unmapPage_of_none hpt, (update_eq_self_iff).mpr hentry.symm]
    exact H
  | some e =>
    have hentry : (w.put i s).entry (i, page) = some e := by rw [World.entry_put_self, hpt]
    rw [unmapPage_of_some hpt]
    exact H.unmap hentry

/-- Unmapping a page leaves the memory of the other `struct data`s. -/
theorem HeapOk.unmapPage_live (H : HeapOk (w.put i s).entry s.1) {d page : Nat}
    (hd : d < s.1.nextData) (hlive : s.1.unmapped (s.1.datas d).data = false)
    (hne : ∀ e, memPt s.2 page = some e → e.data ≠ d) :
    (Ish.Memory.unmapPage s page).1.unmapped (s.1.datas d).data = false := by
  cases hpt : memPt s.2 page with
  | none => rw [unmapPage_of_none hpt]; exact hlive
  | some e =>
    have hentry : (w.put i s).entry (i, page) = some e := by rw [World.entry_put_self, hpt]
    rw [unmapPage_of_some hpt]
    refine release_unmapped _ _ _ hlive (fun _ hmap => ?_)
    exact hne e hpt (H.own _ _ hd (H.allocated hentry) hmap).symm

end UnmapPageHeap

end Ish.Memory
