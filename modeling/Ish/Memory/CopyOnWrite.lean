import Ish.Memory.Sharing

set_option autoImplicit false

/-! # Copy on write against eager copies

The calls of `Memory/Spaces.lean` keep the relation of `Memory/Sharing.lean` to the eagerly
copied address spaces and show the same outputs, as long as every call meets `StepOk`. Each
loop of `memory.c` is followed page by page: a lemma for one page, then the loop rule.

`StepOk` says something about two calls only. `pt_set_flags` replaces the flag word of a page,
so it can take `P_COW` off a page whose memory another slot still uses, and then a write goes
straight to the shared memory. `pt_copy_on_write` marks the source and the target and no third
slot, so the page must not be shared with a third one in a way its flags do not tell.
-/

namespace Ish.Memory

open Function Ish.Lib World Rel

variable {ι : Type} [Fintype ι] [DecidableEq ι]

/-- The relation between the two machines. -/
def World.Sim (w : World ι) (r : Eager ι) : Prop := Rel w.entry w.host r

omit [DecidableEq ι] in
theorem sim_init : World.Sim (init (ι := ι)) Eager.init := rel_init

section Loops

variable {w : World ι} {i : ι}
variable {s : Host × Mem} {r : Eager ι} {m : Mem} {start : Nat} {dst src : ι}

/-! ## Unmapping -/

theorem sim_unmapPage (R : (w.put i s).Sim r) (page : Nat) :
    (w.put i (unmapPage s page)).Sim (r.unmapPage (i, page)) := by
  have hentry : (w.put i s).entry (i, page) = memPt s.2 page := entry_put_self w i s page
  cases hpt : memPt s.2 page with
  | none =>
    rw [hpt] at hentry
    have hpages : update r.pages (i, page) none = r.pages :=
      (update_eq_self_iff).mpr (page_of_none R hentry).symm
    rw [unmapPage_of_none hpt, Eager.unmapPage, hpages]
    exact R
  | some e =>
    rw [hpt] at hentry
    have hstep := unmap R hentry
    rw [World.Sim, entry_put_unmapPage, unmapPage_of_some hpt]
    exact hstep

theorem sim_unmapRange {h : Host} (R : (w.put i (h, m)).Sim r) (start n : Nat) :
    (w.put i (ptUnmapAlways h m start n)).Sim
      (foldUp (fun r page => r.unmapPage (i, page)) r start n) := by
  have hloop : (w.put i (foldUp unmapPage (h, m) start n)).Sim
      (foldUp (fun r page => r.unmapPage (i, page)) r start n) :=
    foldUp_inv₂ (I := fun _ s r => (w.put i s).Sim r) R
      (fun page _ _ _ _ hR => sim_unmapPage hR page)
  rw [ptUnmapAlways_eq, World.Sim]
  rw [entry_put_congr w i (foldUp unmapPage (h, m) start n).1 _ (memPt_memChanged _)]
  exact hloop

/-! ## Mapping new memory -/

/-- The state of the loop of `pt_map` over a new `struct data` `d` with zeroed memory, before
page `k`: the entries of `d` are those of the pages done, each at its own offset. -/
structure MapInv (w : World ι) (i : ι) (d start k : Nat) (s : Host × Mem) (r : Eager ι) :
    Prop where
  sim : (w.put i s).Sim r
  new : d < s.1.nextData
  live : s.1.unmapped (s.1.datas d).data = false
  zero : ∀ j, s.1.bytes (s.1.datas d).data j = 0
  done : ∀ t e, (w.put i s).entry t = some e → e.data = d →
    t.2 < k ∧ e.offset = (t.2 - start) * PAGE_SIZE ∧ start ≤ t.2

theorem mapInv_mapPage {d k : Nat} {flags : Flags} (I : MapInv w i d start k s r) (hk : start ≤ k)
    (hpage : k < MEM_PAGES) : MapInv w i d start (k + 1) (mapPage d start 0 flags s k)
      (r.mapCell (i, k) (fun _ => 0) flags) := by
  set e : PtEntry := { data := d, offset := (k - start) * PAGE_SIZE + 0, flags := flags } with he
  have hoffset : e.offset = (k - start) * PAGE_SIZE := Nat.add_zero _
  have hfree := entry_put_unmapPage w i s k
  have hold : ∀ t e', (w.put i (unmapPage s k)).entry t = some e' →
      (w.put i s).entry t = some e' := by
    intro t e' ht
    rw [hfree] at ht
    rcases update_cases ht with ⟨-, hv⟩ | ⟨-, hE⟩
    · cases hv
    · exact hE
  -- the page unmapped here is not one of `d`, so the memory of `d` stays
  have hlive : (unmapPage s k).1.unmapped (s.1.datas d).data = false := by
    refine HeapOk.unmapPage_live (w := w) (i := i) I.sim.heap I.new I.live (fun e0 hpt hed => ?_)
    have hentry : (w.put i s).entry (i, k) = some e0 := by rw [entry_put_self, hpt]
    exact Nat.lt_irrefl k (I.done (i, k) e0 hentry hed).1
  have hown : ∀ t e', (w.put i (unmapPage s k)).entry t = some e' → ¬ SameCell e e' := by
    intro t e' ht hc
    obtain ⟨hlt, hoff, hle⟩ := I.done t e' (hold t e' ht) hc.1.symm
    have hmul : (k - start) * PAGE_SIZE = (t.2 - start) * PAGE_SIZE := by
      rw [← hoff, ← hoffset]
      exact hc.2
    have := Nat.eq_of_mul_eq_mul_right (by decide : 0 < PAGE_SIZE) hmul
    omega
  have hmap := mapCell (sim_unmapPage I.sim k) e (fun _ => 0)
    (by rw [hfree, update_self]) hpage
    (by rw [put_host, unmapPage_nextData]; exact I.new)
    (by rw [put_host, unmapPage_data]; exact hlive)
    ⟨k - start, by rw [hoffset, Nat.mul_comm]⟩ hown
    (fun j _ => by rw [put_host, unmapPage_data, unmapPage_bytes]; exact I.zero _)
  have hpages : (r.unmapPage (i, k)).mapCell (i, k) (fun _ => 0) e.flags
      = r.mapCell (i, k) (fun _ => 0) flags := by
    rw [Eager.mapCell, Eager.mapCell, Eager.unmapPage, update_idem]
  have hentry := entry_put_mapPage w i d start 0 flags s k
  have hhost : (mapPage d start 0 flags s k).1 = (unmapPage s k).1.retain d := by
    rw [mapPage_eq]
  refine ⟨?_, ?_, ?_, fun j => ?_, fun t e' ht hd => ?_⟩
  · rw [World.Sim, hentry, put_host, hhost, ← hpages]
    rwa [hfree, update_idem] at hmap
  · rw [hhost, Host.retain_nextData, unmapPage_nextData]
    exact I.new
  · rw [hhost, Host.retain_unmapped, Host.retain_data, unmapPage_data]
    exact hlive
  · rw [hhost, Host.retain_bytes, Host.retain_data, unmapPage_data, unmapPage_bytes]
    exact I.zero j
  rw [hentry] at ht
  rcases update_cases ht with ⟨rfl, hv⟩ | ⟨-, hE⟩
  · cases hv
    exact ⟨Nat.lt_succ_self k, hoffset, hk⟩
  obtain ⟨hlt, hrest⟩ := I.done t e' hE hd
  exact ⟨Nat.lt_succ_of_lt hlt, hrest⟩

/-- `pt_map_nothing` on a host that gives the memory. -/
theorem sim_ptMapNothing {h : Host} (R : (w.put i (h, m)).Sim r) {n : Nat} (hn : n ≠ 0)
    (hsize : n * PAGE_SIZE % 2 ^ 32 ≠ 0) (hbound : start + n ≤ MEM_PAGES) (flags : Flags) :
    (w.put i ((ptMapNothing .ok h m start n flags).1, (ptMapNothing .ok h m start n flags).2.1)).Sim
      (foldUp (fun r page => r.mapCell (i, page) (fun _ => 0) (flags ||| P_ANONYMOUS)) r start n)
    ∧ (ptMapNothing .ok h m start n flags).2.2 = 0 := by
  have hcall : ptMapNothing .ok h m start n flags
      = ptMap .ok h.mmap.1 m start n (.ok h.nextMap) 0 (flags ||| P_ANONYMOUS) := by
    rw [ptMapNothing, if_neg hn, hostMmap, if_neg hsize]
    rfl
  rw [hcall]
  refine ⟨?_, rfl⟩
  set h₁ := (h.mmap.1.newData h.nextMap (n * PAGE_SIZE % 2 ^ 32 + 0)).1 with hh1
  have hnew : h₁.datas h.nextData
      = { data := h.nextMap, size := n * PAGE_SIZE % 2 ^ 32 + 0, refcount := 0, fd := none } :=
    Host.newData_new h.mmap.1 _ _
  have hzero : h.mmap.1.bytes h.nextMap = fun _ => 0 := update_self _ _ _
  have hstart : MapInv w i h.nextData start start (h₁, m) r := by
    refine ⟨?_, ?_, ?_, fun j => ?_, fun t e ht hd => ?_⟩
    · refine newData R _ (fun k hk => ?_) _
      exact update_of_ne (Nat.ne_of_lt hk) _ _
    · exact Nat.lt_succ_self _
    · rw [hnew]
      exact R.heap.fresh _ (Nat.le_refl _)
    · rw [hnew]
      exact congrFun hzero j
    have hentry : (w.put i (h, m)).entry t = some e := ht
    have := R.heap.allocated hentry
    rw [hd] at this
    exact absurd this (Nat.lt_irrefl _)
  exact (foldUp_inv₂ (I := MapInv w i h.nextData start) hstart
    (fun k s r hk hk' I => mapInv_mapPage I hk (by omega))).sim

/-! ## Changing flags -/

theorem sim_setFlagsPage {h : Host} {m : Mem} {r : Eager ι} (R : (w.put i (h, m)).Sim r)
    (flags : Flags) (page : Nat)
    (hcow : ∀ e t e', memPt m page = some e → t ≠ (i, page) →
      (w.put i (h, m)).entry t = some e' → SameCell e e' → has flags P_COW = cow e) :
    (w.put i (h, setFlagsPage flags m page)).Sim (r.setFlagsPage (i, page) flags) := by
  have hentry : (w.put i (h, m)).entry (i, page) = memPt m page := entry_put_self w i (h, m) page
  cases hpt : memPt m page with
  | none =>
    rw [hpt] at hentry
    have hpage : r.pages (i, page) = none := page_of_none R hentry
    rw [setFlagsPage, hpt, Eager.setFlagsPage, hpage]
    exact R
  | some e =>
    rw [hpt] at hentry
    have hstep := setFlags R hentry flags (fun t e' hne ht hc => hcow e t e' hpt hne ht hc)
    rw [World.Sim, setFlagsPage, hpt, entry_put_set w i h]
    exact hstep

/-- The `struct data` and offset of every slot are those of `E0`. -/
def SameMemory (E0 E : ι × Nat → Option PtEntry) : Prop :=
  ∀ t e, E t = some e → ∃ e0, E0 t = some e0 ∧ SameCell e e0

theorem sim_setFlagsRange {h : Host} {m : Mem} {r : Eager ι} (R : (w.put i (h, m)).Sim r)
    (flags : Flags) (start n : Nat)
    (hcow : ∀ page e t e', start ≤ page → page < start + n → memPt m page = some e →
      t ≠ (i, page) → (w.put i (h, m)).entry t = some e' → SameCell e e' →
      has flags P_COW = cow e) :
    (w.put i (h, foldUp (setFlagsPage flags) m start n)).Sim
      (foldUp (fun r page => r.setFlagsPage (i, page) flags) r start n) := by
  -- the pages still to come have their old entries, and no slot has changed its memory
  refine (foldUp_inv₂ (I := fun k m' r' => (w.put i (h, m')).Sim r' ∧
    (∀ page, k ≤ page → memPt m' page = memPt m page) ∧
    SameMemory (w.put i (h, m)).entry (w.put i (h, m')).entry) ?_ ?_).1
  · exact ⟨R, fun _ _ => rfl, fun t e ht => ⟨e, ht, rfl, rfl⟩⟩
  rintro k m' r' hk hk' ⟨hR, hsame, hmem⟩
  refine ⟨sim_setFlagsPage hR flags k (fun e t e' hpt hne ht hc => ?_), fun page hp => ?_, ?_⟩
  · obtain ⟨e0, ht0, hc0⟩ := hmem t e' ht
    rw [hsame k (Nat.le_refl k)] at hpt
    exact hcow k e t e0 hk hk' hpt hne ht0 (hc.trans hc0)
  · rw [← hsame page (by omega), setFlagsPage]
    split
    · rfl
    · rw [memPt_memPtSet, if_neg (by omega)]
  intro t e ht
  rw [setFlagsPage] at ht
  split at ht
  · exact hmem t e ht
  rename_i e0 hpt
  rw [entry_put_set w i h] at ht
  rcases update_cases ht with ⟨rfl, hv⟩ | ⟨-, hE⟩
  · cases hv
    refine hmem (i, k) e0 ?_
    rw [entry_put_self]
    exact hpt
  · exact hmem t e hE

/-! ## Copying an address space -/

/-- What `fork` needs of a page of the source. -/
def World.CowOk (w : World ι) (src dst : ι) (page : Nat) (e : PtEntry) : Prop :=
  (has e.flags P_SHARED = true → cow e = false) ∧
  (has e.flags P_SHARED = false → cow e = false → ∀ t e', t ≠ (src, page) →
    t ≠ (dst, page) → w.entry t = some e' → ¬ SameCell e e')

/-- One page of `fork`: the slot of the target is freed, the page of the source is marked
`P_COW` unless it is shared, and the target gets the same entry. -/
theorem sim_cowPage (hne : src ≠ dst) {s : Host × Mem × Mem} (R : (w.put₂ src dst s).Sim r)
    {page : Nat}
    (hok : ∀ e, memPt s.2.1 page = some e → (w.put₂ src dst s).CowOk src dst page e) :
    (w.put₂ src dst (cowPage s page)).Sim (r.copyPage src dst page) := by
  have hsd : (src, page) ≠ (dst, page) := fun h => hne (Prod.mk.inj h).1
  have hentry : (w.put₂ src dst s).entry (src, page) = memPt s.2.1 page := by
    rw [entry_put₂, if_neg hne, if_pos rfl]
  cases hpt : memPt s.2.1 page with
  | none =>
    rw [hpt] at hentry
    have hpage : r.pages (src, page) = none := page_of_none R hentry
    rw [cowPage_of_none hpt, Eager.copyPage, hpage]
    exact R
  | some e =>
    rw [hpt] at hentry
    obtain ⟨hshared, halone⟩ := hok e hpt
    set e' : PtEntry :=
      { e with flags := if has e.flags P_SHARED then e.flags else setCow e.flags } with he'
    have hflags : has e.flags P_SHARED = true ∧ e' = e ∨
        has e.flags P_SHARED = false ∧ e' = { e with flags := setCow e.flags } := by
      rw [he']
      cases has e.flags P_SHARED <;> simp
    -- the target's page is unmapped
    have hfree : Rel (update (w.put₂ src dst s).entry (dst, page) none)
        (unmapPage (s.1, s.2.2) page).1 (r.unmapPage (dst, page)) := by
      have hR : ((w.put src (s.1, s.2.1)).put dst (s.1, s.2.2)).Sim r := R
      have hstep := sim_unmapPage hR page
      rw [World.Sim, entry_put_unmapPage] at hstep
      exact hstep
    have hsrc : update (w.put₂ src dst s).entry (dst, page) none (src, page) = some e :=
      by rw [update_of_ne hsd, hentry]
    -- the source's page is marked
    have hmark : Rel (update (update (w.put₂ src dst s).entry (dst, page) none)
        (src, page) (some e')) (unmapPage (s.1, s.2.2) page).1 (r.unmapPage (dst, page)) := by
      rcases hflags with ⟨hs, hsame⟩ | ⟨hs, hcow⟩
      · rw [hsame, (update_eq_self_iff).mpr hsrc.symm]
        exact hfree
      rw [hcow]
      refine hfree.markCow hsrc (fun hce t e1 hts ht => ?_)
      rcases update_cases ht with ⟨-, hv⟩ | ⟨htd, hE⟩
      · cases hv
      · exact halone hs hce t e1 hts htd hE
    -- the target shares it
    obtain ⟨pg, hpg, -⟩ := R.page_of_entry hentry
    have hpg' : (r.unmapPage (dst, page)).pages (src, page) = some pg := by
      show update r.pages (dst, page) none (src, page) = some pg
      rw [update_of_ne hsd, hpg]
    have hcow' : cow e' = !has e'.flags P_SHARED := by
      rcases hflags with ⟨hs, hsame⟩ | ⟨hs, hcow⟩
      · rw [hsame, hshared hs, hs]
        rfl
      · rw [cow, hcow, has_setCow_self, has_setCow (by decide), hs]
        rfl
    have hshare := hmark.share (s := (src, page)) (t := (dst, page)) (update_self _ _ _)
      hpg' (by rw [update_of_ne hsd.symm, update_self]) rfl hcow'
    have hworld : update (update (update (w.put₂ src dst s).entry
        (dst, page) none) (src, page) (some e')) (dst, page) (some e')
        = (w.put₂ src dst (cowPage s page)).entry := by
      rw [entry_put₂_cowPage w hne hpt he', update_comm hsd.symm, update_idem]
    have hhost : (w.put₂ src dst (cowPage s page)).host
        = (unmapPage (s.1, s.2.2) page).1.retain e'.data := by
      rw [cowPage, hpt, ptUnmapAlways_one]
      rfl
    have heager : (if has pg.flags P_SHARED then
          { r.unmapPage (dst, page) with
            pages := update (r.unmapPage (dst, page)).pages (dst, page) (some pg) }
        else (r.unmapPage (dst, page)).mapCell (dst, page)
          ((r.unmapPage (dst, page)).cells pg.cell) pg.flags)
        = r.copyPage src dst page := by
      rw [Eager.copyPage, hpg]
      simp only [Eager.unmapPage, Eager.mapCell, update_idem]
    rw [World.Sim, ← hworld, hhost, ← heager]
    exact hshare

theorem sim_copyOnWrite {src dst : ι} (hne : src ≠ dst) {r : Eager ι} (R : w.Sim r)
    (hok : ∀ page e, w.entry (src, page) = some e → w.CowOk src dst page e) (n : Nat) :
    (w.put₂ src dst (ptCopyOnWrite w.host (w.spaces src) (w.spaces dst) 0 n)).Sim
      (foldUp (fun r page => r.copyPage src dst page) r 0 n) := by
  have hinit : w.put₂ src dst (w.host, w.spaces src, w.spaces dst) = w := by
    simp [put₂]
  -- pages not reached yet are as they were, in every address space; and only slots of the same
  -- page can share memory
  let I (k : Nat) (s : Host × Mem × Mem) (r' : Eager ι) : Prop :=
    (w.put₂ src dst s).Sim r' ∧ ∀ t : ι × Nat, k ≤ t.2 → (w.put₂ src dst s).entry t = w.entry t
  have hstep : ∀ k s r', I k s r' → I (k + 1) (cowPage s k) (r'.copyPage src dst k) := by
    rintro k s r' ⟨hR, hsame⟩
    refine ⟨sim_cowPage hne hR (fun e hpt => ?_), fun t ht => ?_⟩
    · have hentry : (w.put₂ src dst s).entry (src, k) = some e := by
        rw [entry_put₂, if_neg hne, if_pos rfl]
        exact hpt
      have hold : w.entry (src, k) = some e := by
        rw [← hsame (src, k) (Nat.le_refl k)]
        exact hentry
      refine ⟨(hok k e hold).1, fun hs hce t e' h1 h2 ht hc => ?_⟩
      have hpage : k = t.2 := hR.heap.samePage hentry ht hc
      rw [hsame t (by omega)] at ht
      exact (hok k e hold).2 hs hce t e' h1 h2 ht hc
    have hlt : k ≤ t.2 := by omega
    rcases hpt : memPt s.2.1 k with _ | e
    · rw [cowPage_of_none hpt]; exact hsame t hlt
    have hne' : ∀ j : ι, t ≠ (j, k) := by
      rintro j rfl
      exact absurd ht (Nat.not_succ_le_self k)
    rw [entry_put₂_cowPage w hne hpt rfl, update_of_ne (hne' dst), update_of_ne (hne' src)]
    exact hsame t hlt
  have hstart : I 0 (w.host, w.spaces src, w.spaces dst) r :=
    ⟨by rw [hinit]; exact R, fun t _ => by rw [hinit]⟩
  have hloop : I (0 + n) (foldUp cowPage (w.host, w.spaces src, w.spaces dst) 0 n)
      (foldUp (fun r page => r.copyPage src dst page) r 0 n) :=
    foldUp_inv₂ (I := I) hstart (fun k s r' _ _ => hstep k s r')
  rw [ptCopyOnWrite_eq, World.Sim, entry_put₂_memChanged]
  exact hloop.1

end Loops

/-! ## Translation and its faults -/

section Faults

variable {w : World ι} {i : ι} {h : Host} {m : Mem} {r : Eager ι}

theorem sim_growsDown (R : (w.put i (h, m)).Sim r) (page : Nat) :
    growsDown m page = r.growsDown i page := by
  have hentry : ∀ q, (w.put i (h, m)).entry (i, q) = memPt m q := entry_put_self w i (h, m)
  have hscan : (fun q => (memPt m q).isSome) = (fun q => (r.pages (i, q)).isSome) := by
    funext q
    rw [← hentry q]
    exact R.mapped (i, q)
  unfold growsDown Eager.growsDown
  rw [hscan]
  set p := growScan (fun q => (r.pages (i, q)).isSome) (page + 1) with hp
  by_cases hlt : p < MEM_PAGES
  · simp only [if_pos hlt]
    cases hpt : memPt m p with
    | none =>
      have hpage : r.pages (i, p) = none := page_of_none R (by rw [hentry, hpt])
      rw [hpage]
    | some e =>
      obtain ⟨pg, hpg, hf⟩ := page_of_entry R (s := (i, p)) (by rw [hentry, hpt])
      rw [hpg]
      show has e.flags P_GROWSDOWN = has pg.flags P_GROWSDOWN
      rw [hf, has_clearCow (by decide)]
  · simp only [if_neg hlt]

theorem sim_faultGrow (R : (w.put i (h, m)).Sim r) {page : Nat} (hpage : page < MEM_PAGES) :
    (w.put i (faultGrow .ok h m page)).Sim (r.grow (i, page)) := by
  have hmapped : (memPt m page).isSome = (r.pages (i, page)).isSome := by
    rw [← entry_put_self w i (h, m) page]
    exact R.mapped (i, page)
  unfold faultGrow Eager.grow
  rw [hmapped, sim_growsDown R page]
  split
  · have hbound : page + 1 ≤ MEM_PAGES := hpage
    exact (sim_ptMapNothing R (by decide) (by decide) hbound (P_WRITE ||| P_GROWSDOWN)).1
  · exact R

/-- The copy of a `P_COW` page. -/
theorem sim_copyPage (R : (w.put i (h, m)).Sim r) {page : Nat} {e : PtEntry}
    (hpt : memPt m page = some e) (hce : cow e = true) :
    let s := copyPage .ok h m page { map := (h.datas e.data).data, off := e.offset } e.flags
    (w.put i s).Sim r ∧ ∃ e', memPt s.2 page = some e' ∧ e'.flags = clearCow e.flags := by
  intro s
  have hentry : (w.put i (h, m)).entry (i, page) = some e := by rw [entry_put_self, hpt]
  have hmap : (h.datas e.data).data < h.nextMap := (R.heap.mapOf _ (R.heap.allocated hentry)).2
  obtain ⟨b, hcpy, hb, hcopied⟩ := Host.memcpy_new (h := h)
    (p := { map := (h.datas e.data).data, off := e.offset }) (R.heap.live hentry) hmap
  set h₁ : Host := { h with nextMap := h.nextMap + 1, bytes := b } with hh1
  set h₂ := (h₁.newData h.nextMap (1 * PAGE_SIZE % 2 ^ 32 + 0)).1 with hh2
  have hs : s = mapPage h.nextData page 0 (clearCow e.flags) (h₂, m) page := by
    rw [hh2, ← hcpy]
    exact copyPage_eq .ok h m page _ e.flags
  have hown : ∀ t e', (w.put i (h₂, m)).entry t = some e' → e'.data ≠ h.nextData :=
    fun t e' ht => Nat.ne_of_lt (R.heap.allocated (s := t) ht)
  have hnew : (h₂.datas h.nextData).data = h.nextMap := by
    have := Host.newData_new h₁ h.nextMap (1 * PAGE_SIZE % 2 ^ 32 + 0)
    rw [hh2]
    exact congrArg Data.data this
  have hold : h₂.datas e.data = h.datas e.data := Host.newData_old h₁ _ _ (R.heap.allocated hentry)
  have hR2 : (w.put i (h₂, m)).Sim r := newData R b hb _
  have hbreak := hR2.breakCow (d := h.nextData) hentry hce (Nat.lt_succ_self _) (by
      show h₂.unmapped (h₂.datas h.nextData).data = false
      rw [hnew]
      exact R.heap.fresh _ (Nat.le_refl _)) hown
    (fun k hk => by
      show b (h₂.datas h.nextData).data k = b (h₂.datas e.data).data (e.offset + k)
      rw [hnew, hold, hcopied k hk, hb _ hmap])
  have hoff : (page - page) * PAGE_SIZE + 0 = 0 := by rw [Nat.sub_self, Nat.zero_mul]
  have hput := entry_put_mapPage w i h.nextData page 0 (clearCow e.flags) (h₂, m) page
  rw [hoff, ← hs] at hput
  have hhost : s.1 = (h₂.release e.data).retain h.nextData := by
    rw [hs, mapPage_eq, unmapPage_of_some hpt]
  refine ⟨?_, { data := h.nextData, offset := 0, flags := clearCow e.flags }, ?_, rfl⟩
  · rw [World.Sim, hput, put_host, hhost]
    exact hbreak
  · rw [← entry_put_self w i s page, hput, update_self]

end Faults

/-! ## One call -/

/-- What a call has to meet. `pt_set_flags` keeps `P_COW` as it is on every page whose memory
another slot uses. `pt_copy_on_write` finds no page that is both `P_SHARED` and `P_COW`, and
none that is neither while a third address space uses its memory. -/
def World.StepOk (w : World ι) : Op ι → Prop
  | .setFlags i rg flags =>
    allMapped (w.spaces i) rg.start rg.pages = true →
      ∀ page e t e', rg.start ≤ page → page < rg.start + rg.pages →
        w.entry (i, page) = some e → t ≠ (i, page) → w.entry t = some e' → SameCell e e' →
        has flags P_COW = cow e
  | .copyOnWrite src dst _ =>
    ∀ page e, w.entry (src, page) = some e →
      (has e.flags P_SHARED = true → cow e = false) ∧
      (has e.flags P_SHARED = false → cow e = false → ∀ t e', t ≠ (src, page) →
        t ≠ (dst, page) → w.entry t = some e' → ¬ SameCell e e')
  | _ => True

section Step

variable {w : World ι} {r : Eager ι}

omit [DecidableEq ι] in
theorem sim_allMapped (R : w.Sim r) (i : ι) (start n : Nat) :
    allMapped (w.spaces i) start n = r.allMapped i start n := by
  have hmapped : (fun page => (memPt (w.spaces i) page).isSome)
      = (fun page => (r.pages (i, page)).isSome) := by
    funext page
    exact R.mapped (i, page)
  rw [allMapped, Eager.allMapped, hmapped]

theorem World.Sim.put_self (R : w.Sim r) (i : ι) : (w.put i (w.host, w.spaces i)).Sim r := by
  rw [World.put_self]
  exact R

/-- The call leaves related states and shows the same. -/
def World.Agrees (w : World ι) (r : Eager ι) (op : Op ι) : Prop :=
  (w.step op).1.Sim (r.step op).1 ∧ (w.step op).2 = (r.step op).2

theorem sim_mapNothing (R : w.Sim r) (i : ι) (rg : PageRange) (flags : Flags) :
    w.Agrees r (.mapNothing i rg flags) := by
  have R' := R.put_self i
  simp only [Agrees, step, Eager.step]
  by_cases hn : rg.pages = 0
  · rw [ptMapNothing, if_pos hn, if_pos hn]
    exact ⟨R', rfl⟩
  rw [if_neg hn]
  by_cases hsize : rg.pages * PAGE_SIZE % 2 ^ 32 = 0
  · have hcall : ptMapNothing .ok w.host (w.spaces i) rg.start rg.pages flags
        = (w.host, w.spaces i, EINVAL) := by
      rw [ptMapNothing, if_neg hn, hostMmap, if_pos hsize]
      rfl
    rw [hcall, if_pos hsize]
    exact ⟨R', rfl⟩
  rw [if_neg hsize]
  obtain ⟨hsim, hret⟩ := sim_ptMapNothing R' hn hsize rg.inBounds flags
  exact ⟨hsim, by rw [hret]⟩

theorem sim_read (R : w.Sim r) (i : ι) (addr : Addr) : w.Agrees r (.read i addr) := by
  have R' := R.put_self i
  set g := faultGrow .ok w.host (w.spaces i) (PAGE addr) with hg
  have hR := sim_faultGrow R' (PAGE_lt addr)
  have hptr : memPtr .ok .ok w.host (w.spaces i) addr .read
      = (g.1, g.2, memPtrNofault g.1 g.2 addr .read) := by
    rw [memPtr_eq, memPtrEntry_read, finishPtr_eq (nofault_faultGrow .ok _ _ addr .read)]
  have hentry : (w.put i g).entry (i, PAGE addr) = memPt g.2 (PAGE addr) := entry_put_self w i g _
  simp only [Agrees, step, Eager.step, hptr]
  cases hpt : memPt g.2 (PAGE addr) with
  | none =>
    rw [hpt] at hentry
    have hpage := page_of_none hR hentry
    rw [memPtrNofault_of_none hpt, hpage]
    exact ⟨hR, rfl⟩
  | some e =>
    rw [hpt] at hentry
    obtain ⟨pg, hpg, -⟩ := page_of_entry hR hentry
    rw [memPtrNofault_of_some hpt (fun h => by cases h), hpg]
    refine ⟨?_, ?_⟩
    · show (w.put i (g.1.touch _, g.2)).Sim _
      rw [Host.touch_of_live _ _ (hR.heap.live hentry)]
      exact hR
    · exact congrArg Out.value (hR.content hentry hpg _ (PGOFFSET_lt addr))

/-- A byte stored on a page that can be written. -/
theorem sim_store {i : ι} {s : Host × Mem} {addr : Addr} {e : PtEntry} (R : (w.put i s).Sim r)
    (hpt : memPt s.2 (PAGE addr) = some e) (hw : has e.flags P_WRITE = true)
    (hce : cow e = false) (v : UInt8) :
    ∃ p pg, memPtrNofault s.1 s.2 addr .write = some p ∧ r.pages (i, PAGE addr) = some pg ∧
      has pg.flags P_WRITE = true ∧
      let cell := update (r.cells pg.cell) (PGOFFSET addr) v
      (w.put i ((s.1.touch p).store p v, s.2)).Sim
        { r with cells := update r.cells pg.cell cell } := by
  have hentry : (w.put i s).entry (i, PAGE addr) = some e := by rw [entry_put_self, hpt]
  obtain ⟨pg, hpg, hf⟩ := page_of_entry R hentry
  have hwr : P_WRITABLE e.flags = true := by
    rw [P_WRITABLE, hw]
    show (!cow e) = true
    rw [hce]
    rfl
  refine ⟨_, pg, memPtrNofault_of_some hpt (fun _ => hwr), hpg, ?_, ?_⟩
  · rw [hf, has_clearCow (by decide), hw]
  rw [Host.touch_of_live _ _ (R.heap.live hentry)]
  exact R.store hentry hpg hce (PGOFFSET_lt addr) v

theorem sim_write (R : w.Sim r) (i : ι) (addr : Addr) (v : UInt8) :
    w.Agrees r (.write i addr v) := by
  have R' := R.put_self i
  set old := memPtrNofault w.host (w.spaces i) addr .write with hold
  set g := faultGrow .ok w.host (w.spaces i) (PAGE addr) with hg
  have hR := sim_faultGrow R' (PAGE_lt addr)
  have hnofault := nofault_faultGrow .ok w.host (w.spaces i) addr .write
  rw [← hold, ← hg] at hnofault
  have hentry : (w.put i g).entry (i, PAGE addr) = memPt g.2 (PAGE addr) := entry_put_self w i g _
  have hptr := memPtr_eq .ok .ok w.host (w.spaces i) addr .write
  rw [memPtrEntry_write, ← hg, ← hold] at hptr
  -- once the page can be written, both machines store the byte
  have hstored : ∀ (s : Host × Mem) (e : PtEntry), (w.put i s).Sim (r.grow (i, PAGE addr)) →
      memPt s.2 (PAGE addr) = some e → has e.flags P_WRITE = true → cow e = false →
      memPtr .ok .ok w.host (w.spaces i) addr .write
        = (s.1, s.2, memPtrNofault s.1 s.2 addr .write) → w.Agrees r (.write i addr v) := by
    intro s e hs hpt hw hce hcall
    obtain ⟨p, pg, hp, hpg, hpw, hsim⟩ := sim_store hs hpt hw hce v
    simp only [Agrees, step, Eager.step, hcall, hp, hpg, hpw, if_true]
    exact ⟨hsim, trivial⟩
  cases hpt : memPt g.2 (PAGE addr) with
  | none =>
    rw [hpt] at hentry hptr
    have hpage := page_of_none hR hentry
    simp only [finishPtr_eq hnofault, memPtrNofault_of_none hpt] at hptr
    simp only [Agrees, step, Eager.step, hptr, hpage]
    exact ⟨hR, trivial⟩
  | some e =>
    rw [hpt] at hentry hptr
    obtain ⟨pg, hpg, hf⟩ := page_of_entry hR hentry
    have hpw : has pg.flags P_WRITE = has e.flags P_WRITE := by
      rw [hf, has_clearCow (by decide)]
    cases hw : has e.flags P_WRITE with
    | false =>
      rw [hw] at hpw
      simp only [hw, if_true] at hptr
      simp only [Agrees, step, Eager.step, hptr, hpg, hpw]
      exact ⟨hR, rfl⟩
    | true =>
      rcases hce : has e.flags P_COW with _ | _
      · simp only [hw, hce, Bool.true_eq_false, Bool.false_eq_true, if_false,
          finishPtr_eq hnofault] at hptr
        exact hstored g e hR hpt hw hce hptr
      obtain ⟨hsim, e', hpt', hf'⟩ := sim_copyPage hR hpt hce
      have hnull : old = none := by
        have hno : P_WRITABLE e.flags = false := by
          rw [P_WRITABLE, hce]
          exact Bool.and_false _
        rcases hnofault with h | h
        · exact h
        · rw [h, memPtrNofault_of_not_writable hpt hno]
      simp only [hw, hce, Bool.true_eq_false, if_false, if_true,
        finishPtr_eq (.inl hnull)] at hptr
      refine hstored _ e' hsim hpt' ?_ ?_ hptr
      · rw [hf', has_clearCow (by decide), hw]
      · rw [cow, hf', has_clearCow_self]

/-- **One call keeps the relation and shows the same.** -/
theorem sim_step (R : w.Sim r) (op : Op ι) (hok : w.StepOk op) : w.Agrees r op := by
  have R' := R.put_self
  cases op with
  | mapNothing i rg flags => exact sim_mapNothing R i rg flags
  | unmap i rg =>
    simp only [Agrees, step, Eager.step, ptUnmap, sim_allMapped R]
    split
    · exact ⟨sim_unmapRange (R' i) rg.start rg.pages, rfl⟩
    · exact ⟨R' i, rfl⟩
  | unmapAlways i rg => exact ⟨sim_unmapRange (R' i) rg.start rg.pages, rfl⟩
  | setFlags i rg flags =>
    simp only [Agrees, step, Eager.step, ptSetFlags_eq .ok (fun _ => rfl), ← sim_allMapped R]
    split
    · rename_i hall
      have hloop := sim_setFlagsRange (R' i) flags rg.start rg.pages
        (fun page e t e' h1 h2 hpt hne ht hc => by
          rw [put_self] at ht
          exact hok hall page e t e' h1 h2 hpt hne ht hc)
      refine ⟨?_, rfl⟩
      rw [World.Sim, entry_put_congr w i w.host _ (memPt_memChanged _)]
      exact hloop
    · exact ⟨R' i, rfl⟩
  | copyOnWrite src dst hne =>
    have hsim := sim_copyOnWrite hne R hok MEM_PAGES
    simp only [Agrees, step, Eager.step]
    exact ⟨hsim, trivial⟩
  | read i addr => exact sim_read R i addr
  | write i addr v => exact sim_write R i addr v

end Step

/-! ## A fork

`mmap` of one writable page and `fork`. -/

section Fork

/-- The first page of an address space. -/
def firstPage : PageRange := { start := 0, pages := 1, inBounds := onePage_inBounds }

/-- Parent `false` maps a page and forks child `true`. -/
def forkRun : List (Op Bool) :=
  [.mapNothing false firstPage P_WRITE, .copyOnWrite false true (by decide)]

/-- `fork` of an address space with nothing above its first page. -/
theorem ptCopyOnWrite_firstPage (h : Host) (src dst : Mem) (n : Nat)
    (hrest : ∀ page, page ≠ 0 → memPt src page = none) :
    ptCopyOnWrite h src dst 0 (n + 1)
      = ((cowPage (h, src, dst) 0).1, memChanged (cowPage (h, src, dst) 0).2.1,
          memChanged (cowPage (h, src, dst) 0).2.2) := by
  have hidle : foldUp cowPage (cowPage (h, src, dst) 0) 1 n = cowPage (h, src, dst) 0 := by
    refine foldUp_idle _ _ _ _ (fun q hq _ => cowPage_of_none ?_)
    have hq0 : q ≠ 0 := by omega
    cases hpt : memPt src 0 with
    | none => rw [cowPage_of_none hpt]; exact hrest q hq0
    | some e =>
      rw [cowPage, hpt]
      rw [memPt_memPtSet, if_neg hq0]
      exact hrest q hq0
  rw [ptCopyOnWrite_eq, foldUp_succ, hidle]

/-- The parent's page before the fork. -/
def parentEntry : PtEntry := { data := 0, offset := 0, flags := P_WRITE ||| P_ANONYMOUS }

/-- The state before the fork. -/
def beforeFork : World Bool := (init.step (.mapNothing false firstPage P_WRITE)).1

theorem beforeFork_entry (t : Bool × Nat) :
    beforeFork.entry t = if t = (false, 0) then some parentEntry else none := by
  have hput : beforeFork.entry = update (init (ι := Bool)).entry (false, 0) (some parentEntry) := by
    have hset := entry_put_set (init (ι := Bool)) false Host.init beforeFork.host
      memInit 0 parentEntry
    have hself : (init (ι := Bool)).put false (Host.init, memInit) = init := put_self init false
    rw [hself] at hset
    exact hset
  rw [hput]
  by_cases ht : t = (false, 0)
  · rw [ht, update_self, if_pos rfl]
  rw [update_of_ne ht, if_neg ht]
  rfl

theorem beforeFork_stepOk (hne : false ≠ true) :
    beforeFork.StepOk (.copyOnWrite false true hne) := by
  intro page e he
  rw [beforeFork_entry] at he
  split at he
  · rename_i hpage
    cases he
    refine ⟨by decide, fun _ _ t e' h1 _ ht => ?_⟩
    rw [hpage] at h1
    rw [beforeFork_entry, if_neg h1] at ht
    cases ht
  · cases he

/-- The state after the fork: both address spaces have the page, with `P_COW`. -/
def afterFork : World Bool :=
  let e : PtEntry := { parentEntry with flags := setCow parentEntry.flags }
  beforeFork.put₂ false true (beforeFork.host.retain 0,
    memChanged (memPtSet (beforeFork.spaces false) 0 e),
    memChanged (memPtSet (memChanged (beforeFork.spaces true)) 0 e))

theorem step_fork :
    beforeFork.step (.copyOnWrite false true (by decide)) = (afterFork, .ret 0) := by
  have hpt : memPt (beforeFork.spaces false) 0 = some parentEntry := beforeFork_entry (false, 0)
  have hdst : memPt (beforeFork.spaces true) 0 = none := beforeFork_entry (true, 0)
  have hrest : ∀ page, page ≠ 0 → memPt (beforeFork.spaces false) page = none := by
    intro page hp
    have hentry := beforeFork_entry (false, page)
    rwa [if_neg (fun h => hp (Prod.mk.inj h).2)] at hentry
  have hfork := ptCopyOnWrite_firstPage beforeFork.host (beforeFork.spaces false)
    (beforeFork.spaces true) (MEM_PAGES - 1) hrest
  have hn : MEM_PAGES - 1 + 1 = MEM_PAGES := by decide
  rw [hn, cowPage, hpt, ptUnmapAlways_one, unmapPage_of_none hdst] at hfork
  simp only [step, hfork]
  rfl

end Fork

end Ish.Memory
