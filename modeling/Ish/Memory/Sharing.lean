import Ish.Memory.Heap
import Ish.Memory.EagerCopy

set_option autoImplicit false

/-! # Page sharing against eager copies

`Rel E h r` relates the page table entries `E` of all address spaces on the host `h` to address
spaces `r` that are copied eagerly. The same pages are mapped with the same flags up to `P_COW`
and the same bytes; and entries that use the same page memory are *either* all `P_COW`, each
standing for a cell of its own, *or* all not `P_COW`, standing for one shared cell (`cowSame`,
`cells`).

The lemmas say what keeps the relation, one slot at a time. Two of them have a side condition on
`P_COW`, and it is exactly there that `pt_set_flags` and `pt_copy_on_write` can go wrong.
-/

namespace Ish.Memory

open Function Option Ish.Lib Host

/-- The `P_COW` flag of an entry. -/
def cow (e : PtEntry) : Bool := has e.flags P_COW

variable {ι : Type} [Fintype ι]

structure Rel (E : ι × Nat → Option PtEntry) (h : Host) (r : Eager ι) : Prop where
  heap : HeapOk E h
  mapped : ∀ s, (E s).isSome = (r.pages s).isSome
  flags : ∀ {s e pg}, E s = some e → r.pages s = some pg → pg.flags = clearCow e.flags
  content : ∀ {s e pg}, E s = some e → r.pages s = some pg →
    ∀ k, k < PAGE_SIZE → h.bytes (h.datas e.data).data (e.offset + k) = r.cells pg.cell k
  cellBound : ∀ {s pg}, r.pages s = some pg → pg.cell < r.nextCell
  cowSame : ∀ {s t e e'}, E s = some e → E t = some e' → SameCell e e' → cow e = cow e'
  cells : ∀ {s t e e' pg pg'}, s ≠ t → E s = some e → E t = some e' → r.pages s = some pg →
    r.pages t = some pg' → (pg.cell = pg'.cell ↔ SameCell e e' ∧ cow e = false)

theorem rel_init : Rel (fun _ : ι × Nat => none) init Eager.init where
  heap := heapOk_init
  mapped _ := rfl
  flags h := by cases h
  content h := by cases h
  cellBound h := by cases h
  cowSame h := by cases h
  cells _ h := by cases h

section Steps

variable {E : ι × Nat → Option PtEntry} {h : Host} {r : Eager ι}
variable {s t : ι × Nat} {e : PtEntry} {pg : EagerPage}

theorem Rel.page_of_entry (R : Rel E h r) (hs : E s = some e) :
    ∃ pg, r.pages s = some pg ∧ pg.flags = clearCow e.flags := by
  have hm := R.mapped s
  rw [hs, isSome_some] at hm
  obtain ⟨pg, hpg⟩ := isSome_iff_exists.mp hm.symm
  exact ⟨pg, hpg, R.flags hs hpg⟩

theorem Rel.page_of_none (R : Rel E h r) (hs : E s = none) : r.pages s = none := by
  have hm := R.mapped s
  rw [hs, isSome_none] at hm
  rw [← not_isSome_iff_eq_none, ← hm]
  decide

/-- New memory that nothing points to yet does not touch the relation. -/
theorem Rel.newData (R : Rel E h r) (b : Nat → Nat → UInt8)
    (hb : ∀ m, m < h.nextMap → b m = h.bytes m) (size : Nat) :
    Rel E (({ h with nextMap := h.nextMap + 1, bytes := b } : Host).newData h.nextMap size).1 r
      := by
  refine ⟨R.heap.newData b size, R.mapped, R.flags, fun {s e pg} hs hpg k hk => ?_, R.cellBound,
    R.cowSame, R.cells⟩
  have hd := R.heap.allocated hs
  set h1 : Host := { h with nextMap := h.nextMap + 1, bytes := b } with hh1
  have hold : (h1.newData h.nextMap size).1.datas e.data = h.datas e.data := newData_old h1 _ _ hd
  rw [hold, newData_bytes]
  show b (h.datas e.data).data (e.offset + k) = _
  rw [hb _ (R.heap.mapOf _ hd).2]
  exact R.content hs hpg k hk

variable [DecidableEq ι]

variable (R : Rel E h r)

include R

/-- **Writing one slot on both sides.** What has to be known: the heap invariant, that the old
pages keep their bytes on both sides, and how the new page stands to each old one. -/
theorem Rel.update {s : ι × Nat} {v : Option PtEntry} {v' : Option EagerPage} {h' : Host}
    {cells' : Nat → Nat → UInt8} {next' : Nat} (hheap : HeapOk (update E s v) h')
    (hsome : v.isSome = v'.isSome)
    (hself : ∀ e pg, v = some e → v' = some pg → pg.flags = clearCow e.flags ∧
      (∀ k, k < PAGE_SIZE → h'.bytes (h'.datas e.data).data (e.offset + k) = cells' pg.cell k) ∧
      pg.cell < next')
    (hbytes : ∀ t e, E t = some e → ∀ k, k < PAGE_SIZE →
      h'.bytes (h'.datas e.data).data (e.offset + k)
        = h.bytes (h.datas e.data).data (e.offset + k))
    (hcells : ∀ c, c < r.nextCell → cells' c = r.cells c) (hnext : r.nextCell ≤ next')
    (hpair : ∀ t e e' pg pg', t ≠ s → v = some e → E t = some e' → v' = some pg →
      r.pages t = some pg' → (SameCell e e' → cow e = cow e') ∧
        (pg.cell = pg'.cell ↔ SameCell e e' ∧ cow e = false)) :
    Rel (update E s v) h'
      { pages := update r.pages s v', cells := cells', nextCell := next' } := by
  refine ⟨hheap, fun t => ?_, fun {t e pg} ht (hpg : Function.update r.pages s v' t = _) => ?_,
    fun {t e pg} ht (hpg : Function.update r.pages s v' t = _) k hk => ?_,
    fun {t pg} hpg => ?_, fun {t u e e'} ht hu hsame => ?_,
    fun {t u e e' pg pg'} hne ht hu (hpt : Function.update r.pages s v' t = _)
      (hpu : Function.update r.pages s v' u = _) => ?_⟩
  · by_cases hts : t = s
    · subst hts; simpa using hsome
    · simpa [hts] using R.mapped t
  · rcases update_cases ht with ⟨rfl, hv⟩ | ⟨hts, hE⟩
    · rw [Function.update_self] at hpg
      exact (hself e pg hv hpg).1
    rw [Function.update_of_ne hts] at hpg
    exact R.flags hE hpg
  · rcases update_cases ht with ⟨rfl, hv⟩ | ⟨hts, hE⟩
    · rw [Function.update_self] at hpg
      exact (hself e pg hv hpg).2.1 k hk
    rw [Function.update_of_ne hts] at hpg
    show _ = cells' pg.cell k
    rw [hbytes t e hE k hk, R.content hE hpg k hk, hcells _ (R.cellBound hpg)]
  · rcases update_cases hpg with ⟨rfl, hv'⟩ | ⟨-, hP⟩
    · obtain ⟨e, he⟩ : ∃ e, v = some e := by
        rw [hv', isSome_some] at hsome
        exact isSome_iff_exists.mp hsome
      exact (hself e pg he hv').2.2
    · exact Nat.lt_of_lt_of_le (R.cellBound hP) hnext
  · have hboth : ∀ {e}, v = some e → ∃ pg, v' = some pg := by
      intro e hv
      rw [hv, isSome_some] at hsome
      exact isSome_iff_exists.mp hsome.symm
    rcases update_cases ht with ⟨rfl, hv⟩ | ⟨hts, hE⟩ <;>
      rcases update_cases hu with ⟨rfl, hv'⟩ | ⟨hus, hE'⟩
    · rw [hv, some.injEq] at hv'
      rw [hv']
    · obtain ⟨pg', hpg', -⟩ := R.page_of_entry hE'
      obtain ⟨pg, hpg⟩ := hboth hv
      exact (hpair u e e' pg pg' hus hv hE' hpg hpg').1 hsame
    · obtain ⟨pg', hpg', -⟩ := R.page_of_entry hE
      obtain ⟨pg, hpg⟩ := hboth hv'
      exact ((hpair t e' e pg pg' hts hv' hE hpg hpg').1 hsame.symm).symm
    · exact R.cowSame hE hE' hsame
  · rcases update_cases ht with ⟨rfl, hv⟩ | ⟨hts, hE⟩
    · have hut : u ≠ t := Ne.symm hne
      rw [update_of_ne hut] at hu hpu
      rw [update_self] at hpt
      exact (hpair u e e' pg pg' hut hv hu hpt hpu).2
    rw [update_of_ne hts] at hpt
    rcases update_cases hu with ⟨rfl, hv'⟩ | ⟨hus, hE'⟩
    · rw [update_self] at hpu
      have hp := hpair t e' e pg' pg hts hv' hE hpu hpt
      constructor
      · intro hc
        obtain ⟨hsame, hcow⟩ := hp.2.mp hc.symm
        exact ⟨hsame.symm, (hp.1 hsame).symm.trans hcow⟩
      · rintro ⟨hsame, hcow⟩
        exact (hp.2.mpr ⟨hsame.symm, (hp.1 hsame.symm).trans hcow⟩).symm
    · rw [update_of_ne hus] at hpu
      exact R.cells hne hE hE' hpt hpu

/-- Unmapping a page. -/
theorem Rel.unmap (hs : E s = some e) :
    Rel (Function.update E s none) (h.release e.data) (r.unmapPage s) := by
  refine R.update (R.heap.unmap hs) rfl (fun e pg he => by cases he) (fun t e' ht k hk => ?_)
    (fun _ _ => rfl) (Nat.le_refl _) (fun t e' e'' pg pg' _ he => by cases he)
  rw [release_bytes, release_data]

/-- Mapping a free slot to page memory nothing else uses. -/
theorem Rel.mapCell (e : PtEntry) (bytes : Nat → UInt8) (hs : E s = none)
    (hpage : s.2 < MEM_PAGES) (hd : e.data < h.nextData)
    (hlive : h.unmapped (h.datas e.data).data = false) (hal : PAGE_SIZE ∣ e.offset)
    (hown : ∀ t e', E t = some e' → ¬ SameCell e e')
    (hbytes : ∀ k, k < PAGE_SIZE → h.bytes (h.datas e.data).data (e.offset + k) = bytes k) :
    Rel (Function.update E s (some e)) (h.retain e.data) (r.mapCell s bytes e.flags) := by
  refine R.update (R.heap.map hs hpage hd hlive hal (fun ht hc => absurd hc (hown _ _ ht))) rfl
    (fun e' pg he hpg => ?_) (fun t e' ht k hk => ?_) (fun c hc => ?_) (Nat.le_succ _)
    (fun t e1 e' pg pg' hts he ht hpg hpt => ?_)
  · cases he
    cases hpg
    refine ⟨rfl, fun k hk => ?_, Nat.lt_succ_self _⟩
    rw [retain_bytes, retain_data, update_self]
    exact hbytes k hk
  · rw [retain_bytes, retain_data]
  · rw [update_of_ne (by omega)]
  cases he
  cases hpg
  have hno := hown t e' ht
  refine ⟨fun hc => absurd hc hno, fun hc => ?_, fun hc => absurd hc.1 hno⟩
  have := R.cellBound hpt
  simp only at hc
  omega

/-- Changing the flags of a page. The `P_COW` flag may change only on page memory that no other
slot uses. -/
theorem Rel.setFlags (hs : E s = some e) (flags : Flags)
    (hcow : ∀ t e', t ≠ s → E t = some e' → SameCell e e' → has flags P_COW = cow e) :
    Rel (Function.update E s (some { e with flags := flags })) h (r.setFlagsPage s flags) := by
  obtain ⟨pg, hpg, -⟩ := R.page_of_entry hs
  rw [Eager.setFlagsPage, hpg]
  refine R.update (R.heap.setFlags hs flags) rfl (fun e' pg' he hpg' => ?_)
    (fun t e' ht k hk => rfl) (fun c hc => rfl) (Nat.le_refl _)
    (fun t e1 e' pg1 pg' hts he ht hpg1 hpt => ?_)
  · cases he
    cases hpg'
    have hcontent := R.content hs hpg
    have hcell := R.cellBound hpg
    exact ⟨rfl, hcontent, hcell⟩
  cases he
  cases hpg1
  have hold := R.cells (Ne.symm hts) hs ht hpg hpt
  refine ⟨fun hc => ?_, fun hc => ?_, fun hc => ?_⟩
  · exact (hcow t e' hts ht hc).trans (R.cowSame hs ht hc)
  · obtain ⟨hsame, hfalse⟩ := hold.mp hc
    exact ⟨hsame, (hcow t e' hts ht hsame).trans hfalse⟩
  · exact hold.mpr ⟨hc.1, (hcow t e' hts ht hc.1).symm.trans hc.2⟩

/-- Setting `P_COW` on a page that is `P_COW` already or whose memory nothing else uses is not
seen by the specification. -/
theorem Rel.markCow (hs : E s = some e)
    (halone : cow e = false → ∀ t e', t ≠ s → E t = some e' → ¬ SameCell e e') :
    Rel (Function.update E s (some { e with flags := setCow e.flags })) h r := by
  have hstep := R.setFlags hs (setCow e.flags) (fun t e' hts ht hc => by
    rw [has_setCow_self]
    cases hce : cow e with
    | true => rfl
    | false => exact absurd hc (halone hce t e' hts ht))
  obtain ⟨pg, hpg, hf⟩ := R.page_of_entry hs
  have hsame : r.setFlagsPage s (setCow e.flags) = r := by
    rw [Eager.setFlagsPage, hpg]
    have hpg' : ({ pg with flags := clearCow (setCow e.flags) } : EagerPage) = pg := by
      rw [clearCow_setCow, ← hf]
    show ({ r with pages := Function.update r.pages s (some _) } : Eager ι) = r
    rw [hpg', (update_eq_self_iff).mpr hpg.symm]
  rwa [hsame] at hstep

/-- Pointing a free slot at the page memory of another slot of the same page. The
specification shares the cell if the page is not `P_COW` and copies it if it is. -/
theorem Rel.share (hs : E s = some e) (hpg : r.pages s = some pg) (ht : E t = none)
    (hpage : t.2 = s.2) (hcow : cow e = !has e.flags P_SHARED) :
    Rel (Function.update E t (some e)) (h.retain e.data)
      (if has pg.flags P_SHARED then { r with pages := Function.update r.pages t (some pg) }
        else r.mapCell t (r.cells pg.cell) pg.flags) := by
  have hbound : t.2 < MEM_PAGES := hpage ▸ R.heap.inBounds hs
  have hheap : HeapOk (Function.update E t (some e)) (h.retain e.data) :=
    R.heap.map ht hbound (R.heap.allocated hs) (R.heap.live hs) (R.heap.aligned hs)
      (fun hu hc => hpage.trans (R.heap.samePage hs hu hc))
  have hflags : has pg.flags P_SHARED = has e.flags P_SHARED := by
    rw [R.flags hs hpg, has_clearCow (by decide)]
  have hbytes : ∀ u e', E u = some e' → ∀ k, k < PAGE_SIZE →
      (h.retain e.data).bytes ((h.retain e.data).datas e'.data).data (e'.offset + k)
        = h.bytes (h.datas e'.data).data (e'.offset + k) := by
    intro u e' _ k _
    rw [retain_bytes, retain_data]
  rw [hflags]
  by_cases hsh : has e.flags P_SHARED = true
  · -- a shared page: both slots name one cell, and neither is `P_COW`
    have hce : cow e = false := by rw [hcow, hsh]; rfl
    rw [if_pos hsh]
    refine R.update hheap rfl (fun e1 pg1 he hp => ?_) hbytes (fun _ _ => rfl) (Nat.le_refl _)
      (fun u e1 e' pg1 pg' hut he hu hp hpu => ?_)
    · cases he
      cases hp
      refine ⟨R.flags hs hpg, fun k hk => ?_, R.cellBound hpg⟩
      rw [hbytes s e hs k hk]
      exact R.content hs hpg k hk
    cases he
    cases hp
    by_cases hus : u = s
    · subst hus
      rw [hs, some.injEq] at hu
      rw [hpg, some.injEq] at hpu
      subst hu hpu
      exact ⟨fun _ => rfl, fun _ => ⟨⟨rfl, rfl⟩, hce⟩, fun _ => rfl⟩
    · exact ⟨R.cowSame hs hu, R.cells (Ne.symm hus) hs hu hpg hpu⟩
  · -- a private page: the new slot has a cell of its own, and every slot of this memory is
    -- `P_COW`
    have hce : cow e = true := by rw [hcow]; simp [hsh]
    rw [if_neg hsh]
    refine R.update hheap rfl (fun e1 pg1 he hp => ?_) hbytes (fun c hc => ?_) (Nat.le_succ _)
      (fun u e1 e' pg1 pg' hut he hu hp hpu => ?_)
    · cases he
      cases hp
      refine ⟨?_, fun k hk => ?_, Nat.lt_succ_self _⟩
      · rw [R.flags hs hpg, clearCow_clearCow]
      rw [hbytes s e hs k hk, update_self]
      exact R.content hs hpg k hk
    · rw [update_of_ne (by omega)]
    cases he
    cases hp
    refine ⟨fun hc => R.cowSame hs hu hc, fun hc => ?_, fun hc => ?_⟩
    · have := R.cellBound hpu
      simp only at hc
      omega
    · rw [hce] at hc
      exact absurd hc.2 (by decide)

/-- Giving a `P_COW` slot a copy of its page in memory of its own. -/
theorem Rel.breakCow {s : ι × Nat} {e : PtEntry} {d : Nat} (hs : E s = some e)
    (hce : cow e = true) (hd : d < h.nextData) (hlive : h.unmapped (h.datas d).data = false)
    (hown : ∀ t e', E t = some e' → e'.data ≠ d)
    (hcopy : ∀ k, k < PAGE_SIZE →
      h.bytes (h.datas d).data k = h.bytes (h.datas e.data).data (e.offset + k)) :
    Rel (Function.update E s (some { data := d, offset := 0, flags := clearCow e.flags }))
      ((h.release e.data).retain d) r := by
  obtain ⟨pg, hpg, hf⟩ := R.page_of_entry hs
  set e' : PtEntry := { data := d, offset := 0, flags := clearCow e.flags } with he'
  have hne : e.data ≠ d := hown s e hs
  have hlive' : (h.release e.data).unmapped ((h.release e.data).datas d).data = false := by
    rw [release_data]
    exact release_unmapped h _ _ hlive
      (fun _ hmap => hne (R.heap.own _ _ hd (R.heap.allocated hs) hmap).symm)
  have hheap : HeapOk (Function.update E s (some e')) ((h.release e.data).retain d) := by
    have hfree := R.heap.unmap hs
    have hgone : Function.update E s none s = none := Function.update_self s none E
    have hmap := hfree.map (e := e') hgone (R.heap.inBounds hs)
      (by rw [release_nextData]; exact hd) hlive' ⟨0, rfl⟩
      (fun ht hc => by
        rcases update_cases ht with ⟨-, hv⟩ | ⟨-, hE⟩
        · cases hv
        · exact absurd hc.1.symm (hown _ _ hE))
    rwa [Function.update_idem] at hmap
  -- the page keeps its cell: no other page could see it, since the slot was `P_COW`
  suffices hrel : Rel (Function.update E s (some e')) ((h.release e.data).retain d)
      { r with pages := Function.update r.pages s (some pg) } by
    have hpages : Function.update r.pages s (some pg) = r.pages :=
      (Function.update_eq_self_iff).mpr hpg.symm
    rwa [hpages] at hrel
  refine R.update hheap rfl (fun e1 pg1 he hp => ?_) (fun t e1 ht k hk => ?_) (fun _ _ => rfl)
    (Nat.le_refl _) (fun t e1 e2 pg1 pg2 hts he ht hp hpt => ?_)
  · cases he
    cases hp
    refine ⟨by rw [he', clearCow_clearCow]; exact hf, fun k hk => ?_, R.cellBound hpg⟩
    rw [retain_bytes, retain_data, release_bytes, release_data]
    rw [Nat.zero_add, hcopy k hk]
    exact R.content hs hpg k hk
  · rw [retain_bytes, retain_data, release_bytes, release_data]
  cases he
  cases hp
  have hno : ¬ SameCell e' e2 := fun hc => hown t e2 ht hc.1.symm
  refine ⟨fun hc => absurd hc hno, fun hc => ?_, fun hc => absurd hc.1 hno⟩
  have hold := (R.cells (Ne.symm hts) hs ht hpg hpt).mp hc
  rw [hce] at hold
  exact absurd hold.2 (by decide)

/-- Writing a byte of a page that is not `P_COW`. -/
theorem Rel.store {j : Nat} (hs : E s = some e) (hpg : r.pages s = some pg) (hce : cow e = false)
    (hj : j < PAGE_SIZE) (v : UInt8) :
    Rel E (h.store { map := (h.datas e.data).data, off := e.offset + j } v)
      { r with cells := Function.update r.cells pg.cell (Function.update (r.cells pg.cell) j v) }
      := by
  refine ⟨R.heap.bytes _, R.mapped, R.flags, fun {t e' pg'} ht hpt k hk => ?_, R.cellBound,
    R.cowSame, R.cells⟩
  show Function.update h.bytes (h.datas e.data).data
      (Function.update (h.bytes (h.datas e.data).data) (e.offset + j) v)
      (h.datas e'.data).data (e'.offset + k)
    = Function.update r.cells pg.cell (Function.update (r.cells pg.cell) j v) pg'.cell k
  have hold := R.content ht hpt k hk
  by_cases hcell : SameCell e e'
  · -- the slots of this memory stand for one cell, since none of them is `P_COW`
    have hpc : pg.cell = pg'.cell := by
      by_cases hst : s = t
      · subst hst
        rw [hpg, some.injEq] at hpt
        rw [hpt]
      · exact (R.cells hst hs ht hpg hpt).mpr ⟨hcell, hce⟩
    rw [← hcell.1, ← hcell.2, ← hpc] at hold ⊢
    rw [update_self, update_self]
    by_cases hkj : k = j
    · subst hkj
      simp
    rw [update_of_ne (by omega), update_of_ne hkj]
    exact hold
  · have hpc : pg'.cell ≠ pg.cell := by
      intro hpc
      by_cases hst : s = t
      · subst hst
        rw [hs, some.injEq] at ht
        exact hcell (ht ▸ ⟨rfl, rfl⟩)
      · exact hcell ((R.cells hst hs ht hpg hpt).mp hpc.symm).1
    rw [update_of_ne hpc]
    by_cases hmap : (h.datas e'.data).data = (h.datas e.data).data
    · have hdata : e'.data = e.data :=
        R.heap.own _ _ (R.heap.allocated ht) (R.heap.allocated hs) hmap
      rw [hdata] at hold ⊢
      rw [update_self, update_of_ne]
      · exact hold
      intro hoff
      have hmeet := page_offsets_disjoint (R.heap.aligned ht) (R.heap.aligned hs) hk hj hoff
      exact hcell ⟨hdata.symm, hmeet.1.symm⟩
    · rw [update_of_ne hmap]
      exact hold

end Steps

end Ish.Memory
