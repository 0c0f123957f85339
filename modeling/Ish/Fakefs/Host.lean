import Ish.Fakefs.Path

set_option autoImplicit false

/-! # The host data tree

The directory of the host in which the files of a fakefs are kept, as a table from paths to
files, and the host calls on it as POSIX describes them. A call gives the tree after it, or
nothing when it fails; a failed call leaves the tree as it was. Two paths name one file when
they have the same inode number. The number a new file gets is any number that is not in use.

Each call is summed up by one lemma on the partial map `HostTree.file`: a new file appears under
one path, or the map is the old one read through a renaming of paths.
-/

namespace Ish.Fakefs

open Option List Function Ish.Lib

structure HostFile where
  ino : Nat
  dir : Bool
deriving DecidableEq

structure HostTree where
  files : Table Path HostFile

namespace HostTree

def file (h : HostTree) (p : Path) : Option HostFile := h.files.lookup p

def ino (h : HostTree) (p : Path) : Option Nat := (h.file p).map HostFile.ino

def isDir (h : HostTree) (p : Path) : Bool := (h.file p).any HostFile.dir

/-- The directory a path lies in is there. -/
def parentIsDir (h : HostTree) (p : Path) : Bool := decide (p ≠ []) && h.isDir p.dropLast

/-- No entry strictly below the path. -/
def isEmpty (h : HostTree) (p : Path) : Bool :=
  h.files.keys.all (fun q => decide (p <+: q → q = p))

def inos (h : HostTree) : List Nat := h.files.values.map HostFile.ino

/-! ## The host calls -/

/-- A new file where there is none: `mkdir`, `mknod`, and `open` with `O_CREAT | O_EXCL`. -/
def create (fresh : Fresh Nat) (h : HostTree) (p : Path) (dir : Bool) : Option HostTree :=
  if h.file p = none ∧ h.parentIsDir p = true then
    some { files := h.files.insert p { ino := fresh.pick h.inos, dir := dir } }
  else none

def open_ (fresh : Fresh Nat) (h : HostTree) (p : Path) (creat excl : Bool) : Option HostTree :=
  match h.file p with
  | some f => if creat && (excl || f.dir) then none else some h
  | none => if creat then h.create fresh p false else none

def link (h : HostTree) (src dst : Path) : Option HostTree :=
  match h.file src with
  | none => none
  | some f =>
    if f.dir = false ∧ h.file dst = none ∧ h.parentIsDir dst = true then
      some { files := h.files.insert dst f }
    else none

def unlink (h : HostTree) (p : Path) : Option HostTree :=
  match h.file p with
  | none => none
  | some f => if f.dir then none else some { files := h.files.erase p }

def rmdir (h : HostTree) (p : Path) : Option HostTree :=
  match h.file p with
  | none => none
  | some f =>
    if f.dir = true ∧ p ≠ [] ∧ h.isEmpty p = true then some { files := h.files.erase p }
    else none

/-- Everything at and below `src` goes to `dst`, in place of what was there. -/
def move (h : HostTree) (src dst : Path) : HostTree :=
  { files := updateOrReplace (fun p => decide (src <+: p)) (fun p => dst ++ p.drop src.length)
      h.files }

def rename (h : HostTree) (src dst : Path) : Option HostTree :=
  if src = [] ∨ dst = [] then none
  else
    match h.file src, h.file dst with
    | none, _ => none
    | some _, none =>
      if h.parentIsDir dst = true ∧ ¬ src <+: dst then some (h.move src dst) else none
    | some f, some g =>
      -- two links to one file: nothing is done, and the call succeeds
      if f.ino = g.ino then some h
      else if src <+: dst then none
      else if f.dir = g.dir ∧ (g.dir = true → h.isEmpty dst = true) then some (h.move src dst)
      else none

end HostTree

/-! ## Well-formed trees -/

def IsDir (F : Path → Option HostFile) (p : Path) : Prop := ∃ f, F p = some f ∧ f.dir = true

/-- There is a root directory, every file lies in a directory, and a directory has one path. -/
structure Posix (F : Path → Option HostFile) : Prop where
  root : IsDir F []
  parent : ∀ p n, F (p ++ [n]) ≠ none → IsDir F p
  dirUnique : ∀ p q f g, F p = some f → F q = some g → f.dir = true → f.ino = g.ino → p = q

namespace Posix

variable {F : Path → Option HostFile}

/-- What has something strictly below it is a directory. -/
theorem above (h : Posix F) {p r : Path} (hr : r ≠ []) (hp : F (p ++ r) ≠ none) : IsDir F p := by
  induction r using reverseRecOn with
  | nil => exact absurd rfl hr
  | append_singleton r n ih =>
    rw [← append_assoc] at hp
    have hdir : IsDir F (p ++ r) := h.parent (p ++ r) n hp
    by_cases hnil : r = []
    · rwa [hnil, append_nil] at hdir
    obtain ⟨f, hf, -⟩ := hdir
    exact ih hnil (by rw [hf]; exact some_ne_none f)

/-- A new file in a directory. -/
theorem update (h : Posix F) {d : Path} {n : Name} {f : HostFile} (hd : IsDir F d)
    (hnew : F (d ++ [n]) = none) (hfresh : ∀ q g, F q = some g → g.ino ≠ f.ino) :
    Posix (Function.update F (d ++ [n]) (some f)) := by
  have hkeep : ∀ p, IsDir F p → IsDir (Function.update F (d ++ [n]) (some f)) p := by
    rintro p ⟨g, hg, hdir⟩
    have hne : p ≠ d ++ [n] := by
      rintro rfl
      rw [hnew] at hg
      cases hg
    exact ⟨g, by rw [update_of_ne hne, hg], hdir⟩
  refine ⟨hkeep [] h.root, ?_, ?_⟩
  · intro p m hp
    by_cases heq : p ++ [m] = d ++ [n]
    · have hpd : p = d := (append_inj' heq rfl).1
      exact hkeep p (hpd ▸ hd)
    rw [update_of_ne heq] at hp
    exact hkeep p (h.parent p m hp)
  intro p q f1 f2 hp hq hdir hino
  by_cases hpn : p = d ++ [n] <;> by_cases hqn : q = d ++ [n]
  · rw [hpn, hqn]
  · rw [hpn, update_self, some.injEq] at hp
    rw [update_of_ne hqn] at hq
    exact absurd (hp ▸ hino.symm) (hfresh q f2 hq)
  · rw [hqn, update_self, some.injEq] at hq
    rw [update_of_ne hpn] at hp
    exact absurd (hq ▸ hino) (hfresh p f1 hp)
  rw [update_of_ne hpn] at hp
  rw [update_of_ne hqn] at hq
  exact h.dirUnique p q f1 f2 hp hq hdir hino

/-- Reading a tree through a renaming of paths that keeps the root, takes the directory of a
path along with it, and does not double a directory. -/
theorem reindex (h : Posix F) {g : Path → Option Path} (hroot : g [] = some [])
    (hparent : ∀ p n x, g (p ++ [n]) = some x → F x ≠ none → ∃ y, g p = some y ∧ IsDir F y)
    (hinj : ∀ p q x, g p = some x → g q = some x → IsDir F x → p = q) :
    Posix (fun q => (g q).bind F) := by
  have hkeep : ∀ p y, g p = some y → IsDir F y → IsDir (fun q => (g q).bind F) p := by
    rintro p y hy ⟨f, hf, hdir⟩
    refine ⟨f, ?_, hdir⟩
    show (g p).bind F = some f
    rw [hy, bind_some, hf]
  refine ⟨hkeep [] [] hroot h.root, ?_, ?_⟩
  · intro p n hp
    obtain ⟨f, hf⟩ := ne_none_iff_exists'.mp hp
    obtain ⟨x, hx, hFx⟩ := bind_eq_some_iff.mp hf
    obtain ⟨y, hy, hdir⟩ := hparent p n x hx (by rw [hFx]; exact some_ne_none f)
    exact hkeep p y hy hdir
  intro p q f1 f2 hp hq hdir hino
  obtain ⟨x, hx, hFx⟩ := bind_eq_some_iff.mp hp
  obtain ⟨y, hy, hFy⟩ := bind_eq_some_iff.mp hq
  have hxy : x = y := h.dirUnique x y f1 f2 hFx hFy hdir hino
  exact hinj p q x hx (hxy ▸ hy) ⟨f1, hFx, hdir⟩

/-- Removing something other than the root with nothing below it. -/
theorem kept (h : Posix F) {x : Path} (hx : x ≠ [])
    (hleaf : ∀ r, r ≠ [] → F (x ++ r) = none) : Posix (fun q => (keptFrom x q).bind F) := by
  have hsome : ∀ {p y}, keptFrom x p = some y → p ≠ x ∧ y = p := by
    intro p y hy
    unfold keptFrom at hy
    split at hy
    · cases hy
    rename_i hne
    exact ⟨hne, (some.inj hy).symm⟩
  refine h.reindex (if_neg (Ne.symm hx)) ?_ ?_
  · intro p n y hy hFy
    obtain ⟨-, rfl⟩ := hsome hy
    refine ⟨p, if_neg ?_, h.parent p n hFy⟩
    rintro rfl
    exact hFy (hleaf [n] (cons_ne_nil n []))
  · intro p q y hp hq _
    exact (hsome hp).2.symm.trans (hsome hq).2

/-- A second path for a file that is not a directory. -/
theorem linked (h : Posix F) {src d : Path} {n : Name} {f : HostFile} (hsrc : F src = some f)
    (hfile : f.dir = false) (hd : IsDir F d) (hnew : F (d ++ [n]) = none) :
    Posix (fun q => (linkedFrom src (d ++ [n]) q).bind F) := by
  have hnotDir : ¬ IsDir F src := by
    rintro ⟨g, hg, hdir⟩
    rw [hsrc, some.injEq] at hg
    rw [← hg, hfile] at hdir
    cases hdir
  have hold : ∀ p, IsDir F p → linkedFrom src (d ++ [n]) p = some p := by
    rintro p ⟨g, hg, -⟩
    have hne : p ≠ d ++ [n] := by
      rintro rfl
      rw [hnew] at hg
      cases hg
    rw [linkedFrom, if_neg hne]
  have hdirOnly : ∀ p x, linkedFrom src (d ++ [n]) p = some x → IsDir F x → p = x := by
    intro p x hx hdir
    rw [linkedFrom, some.injEq] at hx
    split at hx
    · exact absurd (hx ▸ hdir) hnotDir
    · exact hx
  refine h.reindex (hold [] h.root) ?_ ?_
  · intro p m x hx hFx
    by_cases heq : p ++ [m] = d ++ [n]
    · have hpd : p = d := (append_inj' heq rfl).1
      exact ⟨p, hold p (hpd ▸ hd), hpd ▸ hd⟩
    rw [linkedFrom, if_neg heq, some.injEq] at hx
    subst hx
    have hdir : IsDir F p := h.parent p m hFx
    exact ⟨p, hold p hdir, hdir⟩
  · intro p q x hp hq hdir
    exact (hdirOnly p x hp hdir).trans (hdirOnly q x hq hdir).symm

end Posix

/-- What a rename that moves something needs: neither path is above the other, the new one lies
in a directory, and it has nothing below it. -/
structure Movable (F : Path → Option HostFile) (src dst : Path) : Prop where
  apart : Apart src dst
  source : F src ≠ none
  target : ∃ d n, dst = d ++ [n] ∧ IsDir F d
  leaf : ∀ r, r ≠ [] → F (dst ++ r) = none

theorem Posix.moved {F : Path → Option HostFile} {src dst : Path} (h : Posix F)
    (hm : Movable F src dst) : Posix (fun q => (movedFrom src dst q).bind F) := by
  -- a path that is not below the new place, nor was below the old one, stays
  have hstay : ∀ p, ¬ dst <+: p → ¬ src <+: p → movedFrom src dst p = some p := by
    intro p hd hs
    rw [movedFrom, if_neg hd, if_neg hs]
  refine h.reindex ?_ ?_ ?_
  · refine hstay [] ?_ ?_
    · intro hnil
      exact hm.apart.notBelow (prefix_nil.mp hnil ▸ nil_prefix)
    intro hnil
    exact hm.apart.notAbove (prefix_nil.mp hnil ▸ nil_prefix)
  · intro p n x hx hFx
    by_cases hd : dst <+: p
    · obtain ⟨r, rfl⟩ := hd
      rw [append_assoc, movedFrom_append, some.injEq] at hx
      rw [← hx, ← append_assoc] at hFx
      exact ⟨src ++ r, movedFrom_append src dst r, h.parent (src ++ r) n hFx⟩
    by_cases hpn : p ++ [n] = dst
    · -- the moved file itself: its new directory is not part of what moved
      obtain ⟨d, m, hdst, hdir⟩ := hm.target
      have hpd : p = d := (append_inj' (hpn.trans hdst) rfl).1
      refine ⟨p, hstay p hd ?_, hpd ▸ hdir⟩
      intro hs
      exact hm.apart.notAbove (hpn ▸ hs.trans (prefix_append p [n]))
    have hd' : ¬ dst <+: p ++ [n] := by
      intro hc
      rcases prefix_concat_iff.mp hc with heq | hc
      · exact hpn heq.symm
      · exact hd hc
    rw [movedFrom, if_neg hd'] at hx
    split at hx
    · cases hx
    rename_i hs
    rw [some.injEq] at hx
    subst hx
    exact ⟨p, hstay p hd (fun hs' => hs (hs'.trans (prefix_append p [n]))), h.parent p n hFx⟩
  · intro p q x hp hq _
    exact movedFrom_inj hp hq

/-! ## What each host call does -/

namespace HostTree

variable {h h' : HostTree}
variable {p dst src : Path} {f : HostFile} {fresh : Fresh Nat} {dir : Bool}

theorem isDir_iff (h : HostTree) (p : Path) : h.isDir p = true ↔ IsDir h.file p := by
  rw [isDir, Option.any_eq_true]
  rfl

theorem parentIsDir_iff (h : HostTree) (p : Path) :
    h.parentIsDir p = true ↔ ∃ d n, p = d ++ [n] ∧ IsDir h.file d := by
  rw [parentIsDir, Bool.and_eq_true, decide_eq_true_iff, isDir_iff]
  constructor
  · rintro ⟨hne, hdir⟩
    exact ⟨p.dropLast, p.getLast hne, (dropLast_append_getLast hne).symm, hdir⟩
  rintro ⟨d, n, rfl, hdir⟩
  rw [dropLast_concat]
  exact ⟨append_ne_nil_of_right_ne_nil d (cons_ne_nil n []), hdir⟩

theorem leaf_of_isEmpty (hp : h.isEmpty p = true) (r : Path) (hr : r ≠ []) :
    h.file (p ++ r) = none := by
  by_contra hsome
  have hmem : p ++ r ∈ h.files.keys := by
    by_contra hnot
    exact hsome (AList.lookup_eq_none.mpr hnot)
  have hq := all_eq_true.mp hp (p ++ r) hmem
  rw [decide_eq_true_iff] at hq
  exact hr (append_right_eq_self.mp (hq (prefix_append p r)))

/-- What is not a directory has nothing below it. -/
theorem leaf_of_file (hP : Posix h.file) (hp : ¬ IsDir h.file p) (r : Path) (hr : r ≠ []) :
    h.file (p ++ r) = none := by
  by_contra hsome
  exact hp (hP.above hr hsome)

theorem not_isDir_of_file (hf : h.file p = some f) (hdir : f.dir = false) : ¬ IsDir h.file p := by
  rintro ⟨g, hg, hgdir⟩
  rw [hf, some.injEq] at hg
  rw [← hg, hdir] at hgdir
  cases hgdir

theorem not_isDir_of_none (hp : h.file p = none) : ¬ IsDir h.file p := by
  rintro ⟨g, hg, -⟩
  rw [hp] at hg
  cases hg

/-- The tree got one new file, with a number of its own. -/
structure Added (h h' : HostTree) (p : Path) (f : HostFile) : Prop where
  free : h.file p = none
  file_eq : h'.file = update h.file p (some f)
  fresh : ∀ q g, h.file q = some g → g.ino ≠ f.ino

theorem file_insert (h : HostTree) (p : Path) (f : HostFile) :
    HostTree.file { files := h.files.insert p f } = update h.file p (some f) := by
  funext q
  rw [update_apply]
  by_cases hq : q = p
  · rw [if_pos hq, hq]
    exact AList.lookup_insert h.files
  rw [if_neg hq]
  exact AList.lookup_insert_ne hq

theorem file_erase (h : HostTree) (p : Path) :
    HostTree.file { files := h.files.erase p } = fun q => (keptFrom p q).bind h.file := by
  funext q
  by_cases hq : q = p
  · rw [keptFrom, if_pos hq, bind_none, hq]
    exact AList.lookup_erase p h.files
  rw [keptFrom, if_neg hq, bind_some]
  exact AList.lookup_erase_ne hq

theorem create_spec (hP : Posix h.file) (hc : h.create fresh p dir = some h') :
    (∃ i, Added h h' p { ino := i, dir := dir }) ∧ Posix h'.file := by
  unfold create at hc
  split at hc
  · rename_i hok
    obtain ⟨d, n, rfl, hd⟩ := (parentIsDir_iff h p).mp hok.2
    obtain rfl := some.inj hc
    have hfresh : ∀ q g, h.file q = some g → g.ino ≠ fresh.pick h.inos := by
      intro q g hg heq
      refine fresh.pick_notMem h.inos ?_
      rw [← heq]
      exact mem_map_of_mem (Table.mem_values hg)
    refine ⟨⟨_, hok.1, file_insert h _ _, hfresh⟩, ?_⟩
    rw [file_insert]
    exact hP.update hd hok.1 hfresh
  · cases hc

theorem parentIsDir_of_create (hc : h.create fresh p dir = some h') : h.parentIsDir p = true := by
  unfold create at hc
  split at hc
  · rename_i hok
    exact hok.2
  · cases hc

theorem open_spec {creat excl : Bool} (hP : Posix h.file)
    (ho : h.open_ fresh p creat excl = some h') : (h' = h ∧ h.file p ≠ none) ∨
      (creat = true ∧ (∃ i, Added h h' p { ino := i, dir := false }) ∧ Posix h'.file) := by
  unfold open_ at ho
  split at ho
  · rename_i f hf
    split at ho
    · cases ho
    refine .inl ⟨(some.inj ho).symm, ?_⟩
    rw [hf]
    exact some_ne_none f
  split at ho
  · rename_i hcreat
    exact .inr ⟨hcreat, create_spec hP ho⟩
  · cases ho

theorem link_spec (hP : Posix h.file) (hl : h.link src dst = some h') :
    h.file src ≠ none ∧ h'.file = (fun q => (linkedFrom src dst q).bind h.file) ∧
      Posix h'.file := by
  unfold link at hl
  split at hl
  · cases hl
  rename_i f hf
  split at hl
  · rename_i hok
    obtain ⟨d, n, rfl, hd⟩ := (parentIsDir_iff h dst).mp hok.2.2
    obtain rfl := some.inj hl
    have hfile : HostTree.file { files := h.files.insert (d ++ [n]) f }
        = fun q => (linkedFrom src (d ++ [n]) q).bind h.file := by
      rw [file_insert]
      funext q
      rw [update_apply, linkedFrom, bind_some, apply_ite h.file, hf]
    refine ⟨by rw [hf]; exact some_ne_none f, hfile, ?_⟩
    rw [hfile]
    exact hP.linked hf hok.1 hd hok.2.1
  · cases hl

theorem unlink_spec (hP : Posix h.file) (hu : h.unlink p = some h') :
    h.file p ≠ none ∧ h'.file = (fun q => (keptFrom p q).bind h.file) ∧ Posix h'.file := by
  unfold unlink at hu
  split at hu
  · cases hu
  rename_i f hf
  split at hu
  · cases hu
  rename_i hdir
  rw [Bool.not_eq_true] at hdir
  obtain rfl := some.inj hu
  have hnot : ¬ IsDir h.file p := not_isDir_of_file hf hdir
  refine ⟨by rw [hf]; exact some_ne_none f, file_erase h p, ?_⟩
  rw [file_erase]
  exact hP.kept (fun hnil => hnot (hnil ▸ hP.root)) (leaf_of_file hP hnot)

theorem rmdir_spec (hP : Posix h.file) (hr : h.rmdir p = some h') :
    h.file p ≠ none ∧ h'.file = (fun q => (keptFrom p q).bind h.file) ∧ Posix h'.file := by
  unfold rmdir at hr
  split at hr
  · cases hr
  rename_i f hf
  split at hr
  · rename_i hok
    obtain rfl := some.inj hr
    refine ⟨by rw [hf]; exact some_ne_none f, file_erase h p, ?_⟩
    rw [file_erase]
    exact hP.kept hok.2.1 (leaf_of_isEmpty hok.2.2)
  · cases hr

theorem file_move (hm : Movable h.file src dst) :
    (h.move src dst).file = fun q => (movedFrom src dst q).bind h.file := by
  funext q
  refine lookup_move (e := id) injective_id (fun p => ?_) (fun r => ?_)
    (fun k _ => ⟨k, rfl⟩) hm.apart hm.source hm.leaf q
  · rw [decide_eq_true_iff]
    rfl
  rw [id_eq, drop_left]
  rfl

/-- A rename succeeds by doing nothing, between two links to one file, or by moving. -/
theorem rename_spec (hP : Posix h.file) (hr : h.rename src dst = some h') :
    (h' = h ∧ h.ino src ≠ none ∧ h.ino src = h.ino dst) ∨
      (h.ino src ≠ h.ino dst ∧ Movable h.file src dst ∧
        h'.file = (fun q => (movedFrom src dst q).bind h.file) ∧ Posix h'.file) := by
  have hmoves : ∀ f, h.file src = some f → h.ino src ≠ h.ino dst → h.parentIsDir dst = true →
      ¬ src <+: dst → (∀ r, r ≠ [] → h.file (dst ++ r) = none) → h' = h.move src dst →
      h.ino src ≠ h.ino dst ∧ Movable h.file src dst ∧
        h'.file = (fun q => (movedFrom src dst q).bind h.file) ∧ Posix h'.file := by
    intro f hf hino hpar hsd hleaf heq
    have hm : Movable h.file src dst := by
      refine ⟨⟨hsd, ?_⟩, ?_, (parentIsDir_iff h dst).mp hpar, hleaf⟩
      · rintro ⟨r, hr⟩
        by_cases hnil : r = []
        · rw [hnil, append_nil] at hr
          exact hino (by rw [hr])
        have hnone := hleaf r hnil
        rw [hr, hf] at hnone
        cases hnone
      · rw [hf]
        exact some_ne_none f
    rw [heq, file_move hm]
    exact ⟨hino, hm, rfl, hP.moved hm⟩
  have hino_of : ∀ p f, h.file p = some f → h.ino p = some f.ino := by
    intro p f hf
    rw [ino, hf, map_some]
  unfold rename at hr
  split at hr
  · cases hr
  rename_i hroots
  split at hr
  · cases hr
  · -- nothing at the new path
    rename_i f hsrc hdst
    split at hr
    · rename_i hok
      refine .inr (hmoves f hsrc ?_ hok.1 hok.2 ?_ (some.inj hr).symm)
      · rw [hino_of src f hsrc, ino, hdst]
        exact some_ne_none f.ino
      · exact leaf_of_file hP (not_isDir_of_none hdst)
    · cases hr
  rename_i f g hsrc hdst
  split at hr
  · rename_i hsame
    refine .inl ⟨(some.inj hr).symm, ?_, ?_⟩
    · rw [hino_of src f hsrc]
      exact some_ne_none f.ino
    · rw [hino_of src f hsrc, hino_of dst g hdst, hsame]
  rename_i hino
  split at hr
  · cases hr
  rename_i hsd
  split at hr
  · -- a file over a file, or a directory over an empty one
    rename_i hok
    refine .inr (hmoves f hsrc ?_ ?_ hsd ?_ (some.inj hr).symm)
    · rw [hino_of src f hsrc, hino_of dst g hdst, ne_eq, some.injEq]
      exact hino
    · have hne : dst ≠ [] := fun hnil => hroots (.inr hnil)
      have hlast := dropLast_append_getLast hne
      refine (parentIsDir_iff h dst).mpr ⟨_, _, hlast.symm, ?_⟩
      refine hP.parent _ (dst.getLast hne) ?_
      rw [hlast, hdst]
      exact some_ne_none g
    by_cases hdir : g.dir = true
    · exact leaf_of_isEmpty (hok.2 hdir)
    · exact leaf_of_file hP (not_isDir_of_file hdst (Bool.not_eq_true _ ▸ hdir))
  · cases hr

/-! ### On inode numbers -/

theorem ino_of_reads {g : Path → Option Path} (hf : h'.file = fun q => (g q).bind h.file) :
    h'.ino = fun q => (g q).bind h.ino := by
  funext q
  rw [ino, hf, map_bind]
  rfl

theorem Added.ino_eq (ha : Added h h' p f) : h'.ino = update h.ino p (some f.ino) := by
  funext q
  rw [ino, ha.file_eq, update_apply, update_apply]
  split <;> rfl

theorem Added.ino_fresh (ha : Added h h' p f) (q : Path) : h.ino q ≠ some f.ino := by
  intro hq
  obtain ⟨g, hg, hino⟩ := map_eq_some_iff.mp hq
  exact ha.fresh q g hg hino

end HostTree

end Ish.Fakefs
