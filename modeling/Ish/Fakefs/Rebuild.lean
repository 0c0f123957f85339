import Ish.Fakefs.Ops

set_option autoImplicit false

/-! # Rebuilding the database after unpacking

When the data tree was unpacked somewhere else its inode numbers are new, and `fakefs_rebuild`
(`fs/fake-rebuild.c`) writes the tables anew with the host's numbers. Paths that had one inode
in the old tables were links to one file; where they were unpacked as separate files the loop
links them again. It reads a path's number before it links the path, so the number it records
is the one of the file it is about to replace.

The rows come in the order of the `select`, which is any order; `rows` is that list.
-/

namespace Ish.Fakefs

open List Ish.Lib HostTree AList

structure Rebuild where
  host : HostTree
  /-- The ad hoc hash table: the first path met for each old inode. -/
  seen : Table Nat Path
  paths : Table Blob Nat
  stats : Table Nat IshStat

/-- `unlinkat`, then `linkat`; neither result is looked at. -/
def relink (h : HostTree) (src p : Path) : HostTree :=
  let h1 := (h.unlink p).getD h
  (h1.link src p).getD h1

/-- Restore the link to the first path of the inode, or be that path. -/
def restoreLink (s : Rebuild) (p : Path) (inode : Nat) : Rebuild :=
  match s.seen.lookup inode with
  | some q => { s with host := relink s.host q p }
  | none => { s with seen := s.seen.insert inode p }

/-- One turn of the loop. -/
def rebuildRow (old : Table Nat IshStat) (s : Rebuild) (row : Path × Nat) : Rebuild :=
  match s.host.ino row.1 with
  | none => s
  | some real =>
    let s' := restoreLink s row.1 row.2
    match old.lookup row.2 with
    | none => s'
    | some stat =>
      { s' with
        stats := s'.stats.insert real stat
        paths := s'.paths.insert (encode row.1) real }

def Rebuild.start (host : HostTree) : Rebuild := { host := host, seen := ∅, paths := ∅, stats := ∅ }

def fakefsRebuild (rows : List (Path × Nat)) (old : Table Nat IshStat) (host : HostTree) : Mount :=
  let s := rows.foldl (rebuildRow old) (.start host)
  { db := { paths := s.paths, stats := s.stats }, host := s.host }

/-- What the rebuild is run on: every path of the table is in the tree, and every file of the tree
has its number for itself or shares it exactly with the paths of one inode of the table. -/
structure RebuildInput (db : Db) (rows : List (Path × Nat)) (host : HostTree) : Prop where
  rows : (rows.map (fun r => (⟨encode r.1, r.2⟩ : Σ _ : Blob, Nat))).Perm db.paths.entries
  posix : Posix host.file
  present : ∀ p i, db.inode p = some i → host.file p ≠ none
  shared : ∀ p, host.file p ≠ none → (∀ q, host.ino q = host.ino p → q = p) ∨
    ∃ i, ∀ q, host.ino q = host.ino p ↔ db.inode q = some i

/-- What the rebuild is for. -/
structure Rebuilt (db : Db) (m : Mount) : Prop where
  paths : ∀ b, b ∈ m.db.paths ↔ b ∈ db.paths
  links : ∀ p q i j i' j', db.inode p = some i → db.inode q = some j →
    m.db.inode p = some i' → m.db.inode q = some j' → (i' = j' ↔ i = j)
  stats : ∀ p i i', db.inode p = some i → m.db.inode p = some i' →
    m.db.stats.lookup i' = db.stats.lookup i
  inos : ∀ p i', m.db.inode p = some i' → m.host.ino p = some i'

/-! ## One turn of the loop -/

section Turn

variable {old : Table Nat IshStat} {s : Rebuild} {p q : Path} {i : Nat}

theorem relink_file_of_ne (h : HostTree) (src : Path) (hq : q ≠ p) :
    (relink h src p).file q = h.file q := by
  have hunlink : ((h.unlink p).getD h).file q = h.file q := by
    unfold HostTree.unlink
    split
    · rfl
    split
    · rfl
    · exact lookup_erase_ne hq
  rw [← hunlink]
  unfold relink
  generalize (h.unlink p).getD h = h1
  dsimp only
  unfold HostTree.link
  split
  · rfl
  split
  · exact lookup_insert_ne hq
  · rfl

/-- Linking a path to another link of the same file leaves the tree as it was. -/
theorem relink_file_of_links {h : HostTree} (hP : Posix h.file) (hne : q ≠ p)
    (hp : h.file p ≠ none) (hsame : h.ino q = h.ino p) : (relink h q p).file = h.file := by
  obtain ⟨f, hf⟩ := Option.ne_none_iff_exists'.mp hp
  have hino : h.ino q = some f.ino := by
    rw [hsame, ino, hf, Option.map_some]
  obtain ⟨g, hg, hgf⟩ := Option.map_eq_some_iff.mp hino
  -- two paths: the file is no directory, and its entry is the same under both
  have hfdir : f.dir = false := by
    by_contra hdir
    exact hne (hP.dirUnique p q f g hf hg (Bool.not_eq_false _ ▸ hdir) hgf.symm).symm
  have hgdir : g.dir = false := by
    by_contra hdir
    exact hne (hP.dirUnique q p g f hg hf (Bool.not_eq_false _ ▸ hdir) hgf)
  have hgf' : g = f := by
    cases g
    cases f
    simp_all
  have hnil : p ≠ [] := by
    rintro rfl
    obtain ⟨f', hf', hdir⟩ := hP.root
    rw [hf, Option.some.injEq] at hf'
    rw [← hf', hfdir] at hdir
    cases hdir
  have hunlink : (h.unlink p).getD h = { files := h.files.erase p } := by
    unfold HostTree.unlink
    rw [hf]
    simp only [hfdir, Bool.false_eq_true, if_false, Option.getD_some]
  have herase : ∀ x, file { files := h.files.erase p } x = if x = p then none else h.file x := by
    intro x
    rw [file_erase]
    by_cases hx : x = p
    · simp [keptFrom, hx]
    · simp [keptFrom, hx]
  have hparent : parentIsDir { files := h.files.erase p } p = true := by
    obtain ⟨d, n, rfl⟩ : ∃ d n, p = d ++ [n] :=
      ⟨p.dropLast, p.getLast hnil, (dropLast_append_getLast hnil).symm⟩
    obtain ⟨fd, hfd, hdir⟩ := hP.parent d n hp
    refine (parentIsDir_iff _ _).mpr ⟨d, n, rfl, fd, ?_, hdir⟩
    rw [herase, if_neg, hfd]
    intro heq
    exact cons_ne_nil n [] (append_right_eq_self.mp heq.symm)
  have hlink : HostTree.link { files := h.files.erase p } q p
      = some { files := (h.files.erase p).insert p g } := by
    unfold HostTree.link
    rw [herase q, if_neg hne, hg]
    dsimp only
    rw [if_pos ⟨hgdir, by rw [herase, if_pos rfl], hparent⟩]
  unfold relink
  rw [hunlink]
  dsimp only
  rw [hlink, Option.getD_some]
  funext x
  rw [file_insert { files := h.files.erase p }, Function.update_apply, herase]
  by_cases hx : x = p
  · rw [if_pos hx, hx, hf, hgf']
  · rw [if_neg hx, if_neg hx]

theorem restoreLink_tables (s : Rebuild) (p : Path) (i : Nat) :
    (restoreLink s p i).paths = s.paths ∧ (restoreLink s p i).stats = s.stats := by
  unfold restoreLink
  split
  · exact ⟨rfl, rfl⟩
  · exact ⟨rfl, rfl⟩

theorem restoreLink_file_of_ne (s : Rebuild) (i : Nat) (hq : q ≠ p) :
    (restoreLink s p i).host.file q = s.host.file q := by
  unfold restoreLink
  split
  · exact relink_file_of_ne s.host _ hq
  · rfl

/-- A turn for a path that is there records the number the path has before it is linked, unless the
row has no metadata. -/
theorem rebuildRow_cases (old : Table Nat IshStat) (s : Rebuild) (p : Path) (i : Nat) :
    (s.host.ino p = none ∧ rebuildRow old s (p, i) = s) ∨
    ∃ real, s.host.ino p = some real ∧
      (rebuildRow old s (p, i)).host = (restoreLink s p i).host ∧
      (rebuildRow old s (p, i)).seen = (restoreLink s p i).seen ∧
      ((old.lookup i = none ∧ (rebuildRow old s (p, i)).paths = s.paths ∧
        (rebuildRow old s (p, i)).stats = s.stats) ∨
      ∃ stat, old.lookup i = some stat ∧
        (rebuildRow old s (p, i)).paths = s.paths.insert (encode p) real ∧
        (rebuildRow old s (p, i)).stats = s.stats.insert real stat) := by
  obtain ⟨hpaths, hstats⟩ := restoreLink_tables s p i
  unfold rebuildRow
  cases s.host.ino p with
  | none => exact .inl ⟨rfl, rfl⟩
  | some real =>
    refine .inr ⟨real, rfl, ?_⟩
    cases old.lookup i with
    | none => exact ⟨rfl, rfl, .inl ⟨rfl, hpaths, hstats⟩⟩
    | some stat => exact ⟨rfl, rfl, .inr ⟨stat, rfl, by rw [← hpaths], by rw [← hstats]⟩⟩

theorem rebuildRow_file_of_ne (old : Table Nat IshStat) (s : Rebuild) (row : Path × Nat)
    (hq : q ≠ row.1) : (rebuildRow old s row).host.file q = s.host.file q := by
  rcases rebuildRow_cases old s row.1 row.2 with ⟨-, hsame⟩ | ⟨-, -, hhost, -⟩
  · rw [hsame]
  rw [hhost]
  exact restoreLink_file_of_ne s row.2 hq

theorem rebuildRow_lookup_of_ne (old : Table Nat IshStat) (s : Rebuild) (row : Path × Nat)
    {b : Blob} (hb : b ≠ encode row.1) :
    (rebuildRow old s row).paths.lookup b = s.paths.lookup b := by
  rcases rebuildRow_cases old s row.1 row.2 with ⟨-, hsame⟩ | ⟨real, -, -, -, htables⟩
  · rw [hsame]
  rcases htables with ⟨-, hpaths, -⟩ | ⟨-, -, hpaths, -⟩
  · rw [hpaths]
  rw [hpaths]
  exact lookup_insert_ne hb

end Turn

/-! ## The numbers the loop records -/

section Loop

variable {old : Table Nat IshStat} {host0 : HostTree}

theorem foldl_lookup_of_notMem (rest : List (Path × Nat)) (s : Rebuild) {b : Blob}
    (hb : ∀ r ∈ rest, b ≠ encode r.1) :
    (rest.foldl (rebuildRow old) s).paths.lookup b = s.paths.lookup b := by
  induction rest generalizing s with
  | nil => rfl
  | cons row rest ih =>
    rw [foldl_cons, ih _ (fun r hr => hb r (mem_cons_of_mem row hr))]
    exact rebuildRow_lookup_of_ne old s row (hb row mem_cons_self)

/-- Whatever is linked on the way, each path is recorded with the number it had at the start: its
own turn is the first to touch it. -/
theorem foldl_lookup_of_mem (rest : List (Path × Nat)) (s : Rebuild)
    (hnodup : (rest.map Prod.fst).Nodup)
    (hhost : ∀ r ∈ rest, s.host.file r.1 = host0.file r.1 ∧ host0.file r.1 ≠ none)
    {p : Path} {i : Nat} (hmem : (p, i) ∈ rest) :
    (rest.foldl (rebuildRow old) s).paths.lookup (encode p)
      = if old.lookup i = none then s.paths.lookup (encode p) else host0.ino p := by
  induction rest generalizing s with
  | nil => cases hmem
  | cons row rest ih =>
    rw [map_cons, nodup_cons] at hnodup
    rw [foldl_cons]
    rcases mem_cons.mp hmem with rfl | hmem'
    · obtain ⟨hfile, hsome⟩ := hhost (p, i) mem_cons_self
      have hino : s.host.ino p = host0.ino p := by
        rw [ino, hfile]
        rfl
      rw [foldl_lookup_of_notMem]
      · rcases rebuildRow_cases old s p i with
          ⟨hnone, -⟩ | ⟨real, hreal, -, -, ⟨hi, hpaths, -⟩ | ⟨stat, hi, hpaths, -⟩⟩
        · exact absurd ((Mount.ino_eq_none_iff _ _).mp (hino.symm.trans hnone)) hsome
        · rw [hpaths, if_pos hi]
        · rw [hpaths, lookup_insert, hi, if_neg (Option.some_ne_none stat), ← hino, hreal]
      · intro r hr heq
        exact hnodup.1 (mem_map.mpr ⟨r, hr, (encode_injective heq).symm⟩)
    · have hne : p ≠ row.1 := by
        rintro rfl
        exact hnodup.1 (mem_map.mpr ⟨_, hmem', rfl⟩)
      rw [ih _ hnodup.2 ?_ hmem',
        rebuildRow_lookup_of_ne old s row (fun heq => hne (encode_injective heq))]
      intro r hr
      have hr' : r.1 ≠ row.1 := by
        intro heq
        exact hnodup.1 (mem_map.mpr ⟨r, hr, heq⟩)
      rw [rebuildRow_file_of_ne old s row hr']
      exact hhost r (mem_cons_of_mem row hr)

end Loop

namespace RebuildInput

variable {db : Db} {rows : List (Path × Nat)} {host : HostTree}

variable (h : RebuildInput db rows host)

include h

theorem inode_iff (p : Path) (i : Nat) : db.inode p = some i ↔ (p, i) ∈ rows := by
  have hentry : db.inode p = some i ↔ (⟨encode p, i⟩ : Σ _ : Blob, Nat) ∈ db.paths.entries :=
    mem_lookup_iff
  rw [hentry, ← h.rows.mem_iff, mem_map]
  constructor
  · rintro ⟨⟨q, j⟩, hq, heq⟩
    obtain ⟨hpq, hij⟩ := Sigma.mk.inj heq
    obtain rfl : q = p := encode_injective hpq
    obtain rfl : j = i := eq_of_heq hij
    exact hq
  · intro hp
    exact ⟨(p, i), hp, rfl⟩

theorem exists_ino {p : Path} {i : Nat} (hp : db.inode p = some i) :
    ∃ real, host.ino p = some real :=
  Option.ne_none_iff_exists'.mp fun hnone => h.present p i hp ((Mount.ino_eq_none_iff _ _).mp hnone)

/-- Files with one number are paths of one inode. -/
theorem eq_of_ino {p q : Path} {i j : Nat} (hp : db.inode p = some i) (hq : db.inode q = some j)
    (hino : host.ino q = host.ino p) : j = i := by
  rcases h.shared p (h.present p i hp) with hown | ⟨k, hk⟩
  · rw [hown q hino] at hq
    exact Option.some.inj (hq.symm.trans hp)
  have hkq := (hk q).mp hino
  have hkp := (hk p).mp rfl
  exact Option.some.inj ((hq.symm.trans hkq).trans (hkp.symm.trans hp))

theorem nodup : (rows.map Prod.fst).Nodup := by
  have hkeys : (rows.map (fun r => encode r.1)).Nodup := by
    have hperm := (h.rows.map Sigma.fst).nodup_iff.mpr db.paths.nodupKeys
    rwa [map_map] at hperm
  refine .of_map encode ?_
  rwa [map_map]

/-- The new inode of a path: the number it had on the host before the rebuild, unless its row
has no metadata. -/
theorem new_inode {p : Path} {i : Nat} (hp : db.inode p = some i) :
    (fakefsRebuild rows db.stats host).db.inode p
      = if db.stats.lookup i = none then none else host.ino p := by
  show (rows.foldl (rebuildRow db.stats) (.start host)).paths.lookup (encode p) = _
  rw [foldl_lookup_of_mem rows _ h.nodup ?_ ((h.inode_iff p i).mp hp)]
  · rfl
  intro r hr
  exact ⟨rfl, h.present r.1 r.2 ((h.inode_iff r.1 r.2).mpr hr)⟩

theorem new_none {b : Blob} (hb : b ∉ db.paths) :
    b ∉ (fakefsRebuild rows db.stats host).db.paths := by
  rw [← lookup_eq_none]
  show (rows.foldl (rebuildRow db.stats) (.start host)).paths.lookup b = none
  rw [foldl_lookup_of_notMem]
  · rfl
  rintro ⟨p, i⟩ hr rfl
  have hp : db.paths.lookup (encode p) = some i := (h.inode_iff p i).mpr hr
  exact hb (lookup_isSome.mp (by rw [hp]; rfl))

end RebuildInput

/-! ## When the links survived -/

/-- Paths of one old inode are links to one file on the host already. -/
def LinksKept (db : Db) (host : HostTree) : Prop :=
  ∀ p q i, db.inode p = some i → db.inode q = some i → host.ino p = host.ino q

/-- The loop after the rows `done`, on a tree whose links survived. -/
structure Restoring (db : Db) (host : HostTree) (s : Rebuild) (done : List (Path × Nat)) :
    Prop where
  tree : s.host.file = host.file
  seen : ∀ i q, s.seen.lookup i = some q → (q, i) ∈ done
  stats : ∀ p i stat real, (p, i) ∈ done → db.stats.lookup i = some stat →
    host.ino p = some real → s.stats.lookup real = some stat

section Restoring

variable {db : Db} {rows : List (Path × Nat)} {host : HostTree}
variable {s : Rebuild} {done : List (Path × Nat)} {p : Path} {i : Nat}

variable (h : RebuildInput db rows host) (hlinks : LinksKept db host)

include h hlinks

theorem Restoring.restoreLink (hs : Restoring db host s done) (hdone : ∀ r ∈ done, r ∈ rows)
    (hp : db.inode p = some i) (hnew : p ∉ done.map Prod.fst) :
    (restoreLink s p i).host.file = host.file ∧
      ∀ j q, (restoreLink s p i).seen.lookup j = some q → (q, j) ∈ (p, i) :: done := by
  unfold Fakefs.restoreLink
  split
  · rename_i q hq
    have hmem : (q, i) ∈ done := hs.seen i q hq
    have hqi : db.inode q = some i := (h.inode_iff q i).mpr (hdone _ hmem)
    have hne : q ≠ p := by
      rintro rfl
      exact hnew (mem_map.mpr ⟨_, hmem, rfl⟩)
    refine ⟨?_, fun j q' hq' => mem_cons_of_mem _ (hs.seen j q' hq')⟩
    rw [relink_file_of_links _ hne, hs.tree]
    · rw [hs.tree]
      exact h.present p i hp
    · rw [ino, ino, hs.tree]
      exact hlinks q p i hqi hp
    rw [hs.tree]
    exact h.posix
  · refine ⟨hs.tree, ?_⟩
    intro j q hq
    by_cases hj : j = i
    · subst hj
      have heq : some p = some q := (lookup_insert s.seen).symm.trans hq
      rw [← Option.some.inj heq]
      exact mem_cons_self
    · exact mem_cons_of_mem _ (hs.seen j q ((lookup_insert_ne hj).symm.trans hq))

/-- A number gets one metadata. -/
theorem Restoring.step (hs : Restoring db host s done) (hdone : ∀ r ∈ done, r ∈ rows)
    (hp : db.inode p = some i) (hnew : p ∉ done.map Prod.fst) :
    Restoring db host (rebuildRow db.stats s (p, i)) ((p, i) :: done) := by
  have hino : s.host.ino p = host.ino p := by rw [ino, ino, hs.tree]
  obtain ⟨hfile, hlookup⟩ := hs.restoreLink h hlinks hdone hp hnew
  rcases rebuildRow_cases db.stats s p i with ⟨hnone, -⟩ | ⟨real, hreal, hhost, hseen, htables⟩
  · obtain ⟨n, hn⟩ := h.exists_ino hp
    cases (hino.symm.trans hnone).symm.trans hn
  rw [hino] at hreal
  refine ⟨by rw [hhost, hfile], by rwa [hseen], ?_⟩
  intro p' i' stat' real' hmem hstat' hreal'
  rcases htables with ⟨hi, -, hstats⟩ | ⟨stat, hi, -, hstats⟩
  · rw [hstats]
    rcases mem_cons.mp hmem with heq | hmem'
    · rw [(Prod.mk.inj heq).2, hi] at hstat'
      cases hstat'
    · exact hs.stats p' i' stat' real' hmem' hstat' hreal'
  rw [hstats]
  by_cases hsame : real' = real
  · subst hsame
    rw [lookup_insert]
    suffices hii : i' = i by rw [← hi, ← hii, hstat']
    rcases mem_cons.mp hmem with heq | hmem'
    · exact (Prod.mk.inj heq).2
    have hp' : db.inode p' = some i' := (h.inode_iff p' i').mpr (hdone _ hmem')
    exact h.eq_of_ino hp hp' (hreal'.trans hreal.symm)
  rw [lookup_insert_ne hsame]
  rcases mem_cons.mp hmem with heq | hmem'
  · rw [(Prod.mk.inj heq).1, hreal, Option.some.injEq] at hreal'
    exact absurd hreal'.symm hsame
  · exact hs.stats p' i' stat' real' hmem' hstat' hreal'

theorem Restoring.loop (rest : List (Path × Nat)) (hs : Restoring db host s done)
    (hsub : ∀ r ∈ rest ++ done, r ∈ rows) (hnodup : ((rest ++ done).map Prod.fst).Nodup) :
    ∃ done', Restoring db host (rest.foldl (rebuildRow db.stats) s) done' ∧
      ∀ r ∈ rest ++ done, r ∈ done' := by
  induction rest generalizing s done with
  | nil => exact ⟨done, hs, fun _ hr => hr⟩
  | cons row rest ih =>
    obtain ⟨p, i⟩ := row
    have hp : db.inode p = some i := (h.inode_iff p i).mpr (hsub _ mem_cons_self)
    have hperm : (rest ++ (p, i) :: done).Perm ((p, i) :: rest ++ done) := perm_middle
    rw [cons_append, map_cons, nodup_cons, map_append, mem_append, not_or] at hnodup
    have hstep : Restoring db host (rebuildRow db.stats s (p, i)) ((p, i) :: done) :=
      hs.step h hlinks (fun r hr => hsub r (mem_append_right _ hr)) hp hnodup.1.2
    obtain ⟨done', hdone', hall⟩ := ih hstep (fun r hr => hsub r (hperm.mem_iff.mp hr)) (by
        rw [(hperm.map Prod.fst).nodup_iff, cons_append, map_cons, nodup_cons,
          map_append, mem_append, not_or]
        exact hnodup)
    exact ⟨done', hdone', fun r hr => hall r (hperm.mem_iff.mpr hr)⟩

/-- The rebuild of a tree whose links survived: the tree is as it was, and every number has the
metadata of its paths. -/
theorem rebuild_of_linksKept :
    (fakefsRebuild rows db.stats host).host.file = host.file ∧
      ∀ p i stat real, db.inode p = some i → db.stats.lookup i = some stat →
        host.ino p = some real →
        (fakefsRebuild rows db.stats host).db.stats.lookup real = some stat := by
  have hstart : Restoring db host (.start host) [] := by
    refine ⟨rfl, ?_, ?_⟩
    · intro i q hq
      cases hq
    intro p i stat real hmem
    cases hmem
  obtain ⟨done, hdone, hall⟩ := hstart.loop h hlinks rows
    (fun r hr => by rwa [append_nil] at hr) (by rw [append_nil]; exact h.nodup)
  refine ⟨hdone.tree, ?_⟩
  intro p i stat real hp hstat hreal
  exact hdone.stats p i stat real (hall _ (mem_append_left _ ((h.inode_iff p i).mp hp))) hstat hreal

end Restoring

/-- **What the rebuild restores.** It does what it is for exactly when every row of the table has
its metadata and the links of the old tree survived in the new one, that is, when there was no
link to restore. -/
theorem rebuilt_iff (db : Db) (rows : List (Path × Nat)) (host : HostTree)
    (h : RebuildInput db rows host) :
    Rebuilt db (fakefsRebuild rows db.stats host) ↔
      (∀ p i, db.inode p = some i → i ∈ db.stats) ∧ LinksKept db host := by
  constructor
  · intro hr
    have hrow : ∀ p i, db.inode p = some i → db.stats.lookup i ≠ none := by
      intro p i hp hnone
      have hnew := h.new_inode hp
      rw [if_pos hnone] at hnew
      have hmem : encode p ∈ db.paths := lookup_isSome.mp (by
        show (db.inode p).isSome = true
        rw [hp]
        rfl)
      exact lookup_eq_none.mp hnew ((hr.paths (encode p)).mpr hmem)
    refine ⟨?_, ?_⟩
    · intro p i hp
      by_contra hnot
      exact hrow p i hp (lookup_eq_none.mpr hnot)
    intro p q i hp hq
    obtain ⟨a, hpa⟩ := h.exists_ino hp
    obtain ⟨b, hqb⟩ := h.exists_ino hq
    have hp' := h.new_inode hp
    have hq' := h.new_inode hq
    rw [if_neg (hrow p i hp), hpa] at hp'
    rw [if_neg (hrow p i hp), hqb] at hq'
    rw [hpa, hqb, (hr.links p q i i a b hp hq hp' hq').mpr rfl]
  · rintro ⟨hfk, hlinks⟩
    obtain ⟨hfile, hstats⟩ := rebuild_of_linksKept h hlinks
    have hnew : ∀ p i, db.inode p = some i →
        (fakefsRebuild rows db.stats host).db.inode p = host.ino p := by
      intro p i hp
      rw [h.new_inode hp, if_neg]
      intro hnone
      exact lookup_eq_none.mp hnone (hfk p i hp)
    have hold : ∀ p i', (fakefsRebuild rows db.stats host).db.inode p = some i' →
        ∃ i, db.inode p = some i := by
      intro p i' hp'
      by_contra hnone
      rw [not_exists] at hnone
      have hnot : encode p ∉ db.paths :=
        lookup_eq_none.mp (Option.eq_none_iff_forall_ne_some.mpr hnone)
      have hgone := lookup_eq_none.mpr (h.new_none hnot)
      exact Option.some_ne_none i' (hp'.symm.trans hgone)
    refine ⟨?_, ?_, ?_, ?_⟩
    · intro b
      by_cases hb : b ∈ db.paths
      · refine iff_of_true ?_ hb
        obtain ⟨i, hi⟩ := Option.isSome_iff_exists.mp (lookup_isSome.mpr hb)
        have hentry := h.rows.mem_iff.mpr (mem_lookup_iff.mp hi)
        obtain ⟨⟨p, j⟩, hpj, heq⟩ := mem_map.mp hentry
        obtain ⟨rfl, -⟩ := Sigma.mk.inj heq
        have hp : db.inode p = some j := (h.inode_iff p j).mpr hpj
        refine lookup_isSome.mp ?_
        show ((fakefsRebuild rows db.stats host).db.inode p).isSome = true
        rw [hnew p j hp, Option.isSome_iff_ne_none, ne_eq, Mount.ino_eq_none_iff]
        exact h.present p j hp
      · exact iff_of_false (h.new_none hb) hb
    · intro p q i j i' j' hp hq hp' hq'
      rw [hnew p i hp] at hp'
      rw [hnew q j hq] at hq'
      constructor
      · rintro rfl
        exact (h.eq_of_ino hp hq (hq'.trans hp'.symm)).symm
      rintro rfl
      exact Option.some.inj (hp'.symm.trans ((hlinks p q i hp hq).trans hq'))
    · intro p i i' hp hp'
      rw [hnew p i hp] at hp'
      obtain ⟨stat, hstat⟩ := Option.isSome_iff_exists.mp (lookup_isSome.mpr (hfk p i hp))
      rw [hstats p i stat i' hp hstat hp', hstat]
    · intro p i' hp'
      obtain ⟨i, hp⟩ := hold p i' hp'
      rw [← hp', hnew p i hp, ino, ino, hfile]

/-- Two links to one file, `/a` and `/b`. -/
def linkedDb : Db where
  paths := ((∅ : Table Blob Nat).insert (encode [nameB]) 2).insert (encode [nameA]) 2
    |>.insert (encode []) 1
  stats := ((∅ : Table Nat IshStat).insert 2 ⟨S_IFREG ||| 420, 0, 0, 0⟩).insert 1
    ⟨S_IFDIR ||| 493, 0, 0, 0⟩

/-- The tree in which they were unpacked: as two files, or as two links to one if `b` is 2. -/
def unpackedTree (b : Nat) : HostTree where
  files := ((∅ : Table Path HostFile).insert [nameB] ⟨b, false⟩).insert [nameA] ⟨2, false⟩
    |>.insert [] ⟨1, true⟩

def linkedRows : List (Path × Nat) := [([], 1), ([nameA], 2), ([nameB], 2)]

theorem unpackedTree_file {b : Nat} {p : Path} {f : HostFile}
    (hp : (unpackedTree b).file p = some f) :
    (p = [] ∧ f = ⟨1, true⟩) ∨ (p = [nameA] ∧ f = ⟨2, false⟩) ∨
      (p = [nameB] ∧ f = ⟨b, false⟩) := by
  have hmem : (⟨p, f⟩ : Σ _ : Path, HostFile) ∈ (unpackedTree b).files.entries :=
    mem_lookup_iff.mp hp
  have hentries : (unpackedTree b).files.entries
      = [⟨[], ⟨1, true⟩⟩, ⟨[nameA], ⟨2, false⟩⟩, ⟨[nameB], ⟨b, false⟩⟩] := rfl
  rw [hentries] at hmem
  simpa using hmem

theorem unpackedTree_ino {b : Nat} {p : Path} {i : Nat} (hp : (unpackedTree b).ino p = some i) :
    (p = [] ∧ i = 1) ∨ (p = [nameA] ∧ i = 2) ∨ (p = [nameB] ∧ i = b) := by
  obtain ⟨f, hf, rfl⟩ := Option.map_eq_some_iff.mp hp
  rcases unpackedTree_file hf with ⟨rfl, rfl⟩ | ⟨rfl, rfl⟩ | ⟨rfl, rfl⟩ <;> simp

theorem unpackedTree_posix {b : Nat} (hb : b ≠ 1) : Posix (unpackedTree b).file := by
  refine ⟨⟨_, rfl, rfl⟩, ?_, ?_⟩
  · intro p n hp
    obtain ⟨f, hf⟩ := Option.ne_none_iff_exists'.mp hp
    have hnil : p = [] := by
      rcases unpackedTree_file hf with ⟨h, -⟩ | ⟨h, -⟩ | ⟨h, -⟩
      · exact absurd h (append_ne_nil_of_right_ne_nil p (cons_ne_nil n []))
      · exact (append_eq_singleton_iff.mp h).elim And.left (fun h' => absurd h'.2 (by simp))
      · exact (append_eq_singleton_iff.mp h).elim And.left (fun h' => absurd h'.2 (by simp))
    rw [hnil]
    exact ⟨_, rfl, rfl⟩
  intro p q f g hf hg hdir hino
  -- the root is the only directory
  rcases unpackedTree_file hf with ⟨rfl, rfl⟩ | ⟨-, rfl⟩ | ⟨-, rfl⟩
  · rcases unpackedTree_file hg with ⟨rfl, -⟩ | ⟨-, rfl⟩ | ⟨-, rfl⟩
    · rfl
    · cases hino
    · exact absurd hino.symm hb
  · cases hdir
  · cases hdir

theorem linkedDb_row {p : Path} {i : Nat} (hp : linkedDb.inode p = some i) :
    (p = [] ∧ i = 1) ∨ (p = [nameA] ∧ i = 2) ∨ (p = [nameB] ∧ i = 2) := by
  have hmem : (⟨encode p, i⟩ : Σ _ : Blob, Nat) ∈ linkedDb.paths.entries := mem_lookup_iff.mp hp
  have hentries : linkedDb.paths.entries
      = [⟨encode [], 1⟩, ⟨encode [nameA], 2⟩, ⟨encode [nameB], 2⟩] := rfl
  simpa only [hentries, mem_cons, not_mem_nil, or_false, Sigma.mk.injEq, heq_eq_eq,
    encode_injective.eq_iff] using hmem

theorem linkedDb_input {b : Nat} (hb : b ≠ 1)
    (hshared : ∀ p, (unpackedTree b).file p ≠ none →
      (∀ q, (unpackedTree b).ino q = (unpackedTree b).ino p → q = p) ∨
        ∃ i, ∀ q, (unpackedTree b).ino q = (unpackedTree b).ino p ↔ linkedDb.inode q = some i) :
    RebuildInput linkedDb linkedRows (unpackedTree b) := by
  refine ⟨.refl _, unpackedTree_posix hb, fun p i hp => ?_, hshared⟩
  rcases linkedDb_row hp with ⟨rfl, -⟩ | ⟨rfl, -⟩ | ⟨rfl, -⟩ <;> exact Option.some_ne_none _

/-- `/b` is linked to `/a` again, and recorded with the number of the file that was unlinked. -/
theorem rebuild_records_unlinked_file :
    RebuildInput linkedDb linkedRows (unpackedTree 3) ∧
      linkedDb.inode [nameA] = linkedDb.inode [nameB] ∧
      (fakefsRebuild linkedRows linkedDb.stats (unpackedTree 3)).db.inode [nameA] = some 2 ∧
      (fakefsRebuild linkedRows linkedDb.stats (unpackedTree 3)).db.inode [nameB] = some 3 ∧
      (fakefsRebuild linkedRows linkedDb.stats (unpackedTree 3)).host.ino [nameB] = some 2 ∧
      ¬ Rebuilt linkedDb (fakefsRebuild linkedRows linkedDb.stats (unpackedTree 3)) := by
  have hinput : RebuildInput linkedDb linkedRows (unpackedTree 3) := by
    refine linkedDb_input (by decide) fun p hp => .inl fun q hq => ?_
    obtain ⟨f, hf⟩ := Option.ne_none_iff_exists'.mp hp
    have hpi : (unpackedTree 3).ino p = some f.ino := by rw [ino, hf, Option.map_some]
    rcases unpackedTree_ino hpi with ⟨rfl, hi⟩ | ⟨rfl, hi⟩ | ⟨rfl, hi⟩ <;>
      rcases unpackedTree_ino (hq.trans hpi) with ⟨rfl, hj⟩ | ⟨rfl, hj⟩ | ⟨rfl, hj⟩ <;>
      first | rfl | omega
  have hnew : (fakefsRebuild linkedRows linkedDb.stats (unpackedTree 3)).db.inode [nameB]
      = some 3 := by
    decide +kernel
  refine ⟨hinput, by decide +kernel, by decide +kernel, hnew, by decide +kernel, fun hr => ?_⟩
  exact absurd (hr.inos [nameB] 3 hnew) (by decide +kernel)

/-- A tree whose links are in place is rebuilt. -/
theorem rebuilt_linked :
    RebuildInput linkedDb linkedRows (unpackedTree 2) ∧
      Rebuilt linkedDb (fakefsRebuild linkedRows linkedDb.stats (unpackedTree 2)) := by
  have hinput : RebuildInput linkedDb linkedRows (unpackedTree 2) := by
    refine linkedDb_input (by decide) fun p hp => ?_
    obtain ⟨f, hf⟩ := Option.ne_none_iff_exists'.mp hp
    rcases unpackedTree_file hf with ⟨rfl, -⟩ | ⟨rfl, -⟩ | ⟨rfl, -⟩
    · refine .inl fun q hq => ?_
      rcases unpackedTree_ino hq with ⟨rfl, -⟩ | ⟨-, hi⟩ | ⟨-, hi⟩
      · rfl
      · cases hi
      · cases hi
    all_goals
      refine .inr ⟨2, fun q => ⟨fun hq => ?_, fun hq => ?_⟩⟩
      · rcases unpackedTree_ino hq with ⟨-, hi⟩ | ⟨rfl, -⟩ | ⟨rfl, -⟩
        · cases hi
        · rfl
        · rfl
      · rcases linkedDb_row hq with ⟨-, hi⟩ | ⟨rfl, -⟩ | ⟨rfl, -⟩
        · cases hi
        · rfl
        · rfl
  refine ⟨hinput, (rebuilt_iff linkedDb linkedRows (unpackedTree 2) hinput).mpr ⟨?_, ?_⟩⟩
  · intro p i hp
    rcases linkedDb_row hp with ⟨-, rfl⟩ | ⟨-, rfl⟩ | ⟨-, rfl⟩ <;> decide
  · intro p q i hp hq
    rcases linkedDb_row hp with ⟨rfl, rfl⟩ | ⟨rfl, rfl⟩ | ⟨rfl, rfl⟩ <;>
      rcases linkedDb_row hq with ⟨rfl, hj⟩ | ⟨rfl, hj⟩ | ⟨rfl, hj⟩ <;>
      first | rfl | cases hj

end Ish.Fakefs
