import Ish.Lib.Machine
import Ish.Fakefs.Db
import Ish.Fakefs.Host

set_option autoImplicit false

/-! # The file system calls on database and tree

The calls of `fs/fake.c` that change the tree, one at a time. Each makes its host call and its
database statements in the order of the source and takes the database back when the host call
fails: `fakefs_open` makes the host call first, the others inside the transaction, and
`fakefs_rename` changes the database before the host.

What the two stores should agree on is `Mount.Tracks`. It is kept by every call but two: a
rename between two links to one file, where the host does nothing and the database moves a row,
and a symlink whose target could not be written and whose file could not be removed again.
-/

namespace Ish.Fakefs

open Option Ish.Lib AList
open HostTree hiding link unlink

/-- A mounted fakefs: the metadata database and the data directory. -/
structure Mount where
  db : Db
  host : HostTree

/-- What a call depends on besides its arguments and the two stores. -/
structure Env where
  /-- The host call does not fail for a reason outside the tree. -/
  ok : Bool
  /-- Writing the target of a symlink succeeds. -/
  written : Bool
  /-- Removing a symlink again does not fail for a reason outside the tree. -/
  cleaned : Bool
  /-- The inode table holds the inode, so its metadata is not cleaned up yet. -/
  held : Bool

def Env.call (env : Env) (r : Option HostTree) : Option HostTree := if env.ok then r else none

theorem Env.call_eq_some {env : Env} {r : Option HostTree} {host : HostTree}
    (h : env.call r = some host) : r = some host := by
  unfold Env.call at h
  split at h
  · exact h
  · cases h

theorem Env.ok_of_call {env : Env} {r : Option HostTree} {host : HostTree}
    (h : env.call r = some host) : env.ok = true := by
  unfold Env.call at h
  split at h
  · assumption
  · cases h

structure Cred where
  euid : UInt32
  egid : UInt32

structure OpenFlags where
  creat : Bool
  excl : Bool

inductive FsOut where
  | fd (inode : Nat)
  | ok
  | failed
  /-- `ENOENT` for a file whose metadata is missing. -/
  | noEntry
  | died
deriving DecidableEq

def S_IFMT : UInt32 := 61440
def S_IFCHR : UInt32 := 8192
def S_IFDIR : UInt32 := 16384
def S_IFBLK : UInt32 := 24576
def S_IFREG : UInt32 := 32768
def S_IFLNK : UInt32 := 40960
def S_IFSOCK : UInt32 := 49152

/-- The metadata of a new file. -/
def Cred.stat (cred : Cred) (mode rdev : UInt32) : IshStat :=
  { mode := mode, uid := cred.euid, gid := cred.egid, rdev := rdev }

section Calls

variable (rowids : Rowids) (fresh : Fresh Nat) (s : Mount) (env : Env) (cred : Cred)

/-- The transaction of `fakefs_open`: a file without a row gets one when it may be created. -/
def openRow (db : Db) (path : Path) (flags : OpenFlags) (mode : UInt32) : Db :=
  if flags.creat = true ∧ db.pathGetInode (encode path) = 0 then
    (db.pathCreate rowids (encode path) (cred.stat (mode ||| S_IFREG) 0)).1
  else db

def fakefsOpen (path : Path) (flags : OpenFlags) (mode : UInt32) : Mount × FsOut :=
  match env.call (s.host.open_ fresh path flags.creat flags.excl) with
  | none => (s, .failed)
  | some host =>
    let db := openRow rowids cred s.db path flags mode
    let inode := db.pathGetInode (encode path)
    if inode = 0 then ({ db := db, host := host }, .noEntry)
    else ({ db := db, host := host }, .fd inode)

def fakefsLink (src dst : Path) : Mount × FsOut :=
  match env.call (s.host.link src dst) with
  | none => (s, .failed)
  | some host =>
    match s.db.pathLink (encode src) (encode dst) with
    | none => ({ s with host := host }, .died)
    | some db => ({ db := db, host := host }, .ok)

/-- `fakefs_unlink` and `fakefs_rmdir`, with the tree after their host call. -/
def removeEntry (host : Option HostTree) (path : Path) : Mount × FsOut :=
  match env.call host with
  | none => (s, .failed)
  | some host =>
    match s.db.pathUnlink (encode path) with
    | none => ({ s with host := host }, .died)
    | some (db, ino) =>
      -- inode_check_orphaned
      ({ db := if env.held then db else db.tryCleanupInode ino, host := host }, .ok)

def fakefsUnlink (path : Path) : Mount × FsOut := removeEntry s env (s.host.unlink path) path

def fakefsRmdir (path : Path) : Mount × FsOut := removeEntry s env (s.host.rmdir path) path

def fakefsRename (src dst : Path) : Mount × FsOut :=
  let db := s.db.pathRename (encode src) (encode dst)
  match env.call (s.host.rename src dst) with
  | none => (s, .failed)
  | some host => ({ db := db, host := host }, .ok)

/-- `fakefs_mknod` and `fakefs_mkdir`, with the tree after their host call. -/
def createEntry (host : Option HostTree) (path : Path) (stat : IshStat) : Mount × FsOut :=
  match env.call host with
  | none => (s, .failed)
  | some host => ({ db := (s.db.pathCreate rowids (encode path) stat).1, host := host }, .ok)

def fakefsSymlink (link : Path) : Mount × FsOut :=
  match env.call (s.host.create fresh link false) with
  | none => (s, .failed)
  | some host =>
    if env.written then
      ({ db := (s.db.pathCreate rowids (encode link) (cred.stat (S_IFLNK ||| 511) 0)).1
         host := host }, .ok)
    else
      -- the target could not be written: unlinkat, whose result is not looked at
      match if env.cleaned then host.unlink link else none with
      | none => ({ s with host := host }, .failed)
      | some host' => ({ s with host := host' }, .failed)

/-- The type of the host file that stands for the node. -/
def realType (mode : UInt32) : UInt32 :=
  let fmt := mode &&& S_IFMT
  if fmt = S_IFBLK ∨ fmt = S_IFCHR ∨ fmt = S_IFSOCK then S_IFREG else fmt

def nodeRdev (mode dev : UInt32) : UInt32 :=
  let fmt := mode &&& S_IFMT
  if fmt = S_IFBLK ∨ fmt = S_IFCHR then dev else 0

def fakefsMknod (path : Path) (mode dev : UInt32) : Mount × FsOut :=
  -- the host makes no directory or symlink this way
  let host :=
    if realType mode = S_IFDIR ∨ realType mode = S_IFLNK then none
    else s.host.create fresh path false
  createEntry rowids s env host path (cred.stat mode (nodeRdev mode dev))

def fakefsMkdir (path : Path) (mode : UInt32) : Mount × FsOut :=
  createEntry rowids s env (s.host.create fresh path true) path (cred.stat (mode ||| S_IFDIR) 0)

/-- The last descriptor of an inode is closed. -/
def fakefsInodeOrphaned (inode : Nat) : Mount × FsOut :=
  ({ s with db := s.db.tryCleanupInode inode }, .ok)

end Calls

inductive FsOp where
  | open (path : Path) (flags : OpenFlags) (mode : UInt32)
  | link (src dst : Path)
  | unlink (path : Path)
  | rmdir (path : Path)
  | rename (src dst : Path)
  | symlink (link : Path)
  | mknod (path : Path) (mode dev : UInt32)
  | mkdir (path : Path) (mode : UInt32)
  | inodeOrphaned (inode : Nat)

structure FsCall where
  op : FsOp
  env : Env
  cred : Cred

def fakefsStep (rowids : Rowids) (fresh : Fresh Nat) (s : Mount) (c : FsCall) : Mount × FsOut :=
  match c.op with
  | .open path flags mode => fakefsOpen rowids fresh s c.env c.cred path flags mode
  | .link src dst => fakefsLink s c.env src dst
  | .unlink path => fakefsUnlink s c.env path
  | .rmdir path => fakefsRmdir s c.env path
  | .rename src dst => fakefsRename s c.env src dst
  | .symlink link => fakefsSymlink rowids fresh s c.env c.cred link
  | .mknod path mode dev => fakefsMknod rowids fresh s c.env c.cred path mode dev
  | .mkdir path mode => fakefsMkdir rowids fresh s c.env c.cred path mode
  | .inodeOrphaned inode => fakefsInodeOrphaned s inode

def fakefsMachine (rowids : Rowids) (fresh : Fresh Nat) : Machine Mount FsCall FsOut :=
  { step := fun s c => some (fakefsStep rowids fresh s c) }

/-! ## Agreement of the two stores -/

/-- The paths of the table are those of the tree, and two of them have the same inode exactly
when they are links to one file. -/
structure Mount.Tracks (s : Mount) : Prop where
  paths : ∀ b, b ∈ s.db.paths ↔ ∃ p, b = encode p ∧ s.host.file p ≠ none
  links : ∀ p q i j f g, s.db.inode p = some i → s.db.inode q = some j →
    s.host.file p = some f → s.host.file q = some g → (i = j ↔ f.ino = g.ino)

/-- Both stores are well formed and agree. -/
structure Mount.Consistent (s : Mount) : Prop where
  db : s.db.Ok
  host : Posix s.host.file
  tracks : s.Tracks

namespace Mount

variable {s : Mount}

theorem ino_eq_none_iff (h : HostTree) (p : Path) : h.ino p = none ↔ h.file p = none := by
  rw [ino, map_eq_none_iff]

/-- Agreement is a match of the two partial maps from paths to numbers. -/
theorem tracks_iff_matched (h : s.db.Ok) : s.Tracks ↔ Matched s.db.inode s.host.ino := by
  constructor
  · intro ht
    refine ⟨?_, ?_⟩
    · intro p
      rw [ino_eq_none_iff, Db.inode, lookup_eq_none, ht.paths, not_iff_comm]
      constructor
      · intro hp
        exact ⟨p, rfl, hp⟩
      rintro ⟨q, heq, hq⟩
      exact encode_injective heq ▸ hq
    intro p q i j a b hDp hDq hTp hTq
    obtain ⟨f, hf, rfl⟩ := map_eq_some_iff.mp hTp
    obtain ⟨g, hg, rfl⟩ := map_eq_some_iff.mp hTq
    exact ht.links p q i j f g hDp hDq hf hg
  · intro hm
    refine ⟨?_, ?_⟩
    · intro b
      constructor
      · intro hb
        obtain ⟨p, rfl⟩ := h.normal b hb
        refine ⟨p, rfl, ?_⟩
        rw [ne_eq, ← ino_eq_none_iff, ← hm.dom p, Db.inode, lookup_eq_none, not_not]
        exact hb
      · rintro ⟨p, rfl, hp⟩
        rwa [ne_eq, ← ino_eq_none_iff, ← hm.dom p, Db.inode, lookup_eq_none, not_not] at hp
    intro p q i j f g hDp hDq hf hg
    refine hm.share p q i j f.ino g.ino hDp hDq ?_ ?_
    · rw [ino, hf, map_some]
    · rw [ino, hg, map_some]

variable (h : s.Consistent)

include h

theorem Consistent.matched : Matched s.db.inode s.host.ino :=
  (tracks_iff_matched h.db).mp h.tracks

theorem Consistent.inode_eq_none_iff (p : Path) : s.db.inode p = none ↔ s.host.file p = none := by
  rw [h.matched.dom p, ino_eq_none_iff]

/-- Both stores are read through the same renaming of paths. -/
theorem Consistent.read {db : Db} {host : HostTree} {g : Path → Option Path} (hdb : db.Ok)
    (hinode : db.inode = fun q => (g q).bind s.db.inode) (hhost : Posix host.file)
    (hfile : host.file = fun q => (g q).bind s.host.file) :
    Consistent { db := db, host := host } := by
  refine ⟨hdb, hhost, (tracks_iff_matched hdb).mpr ?_⟩
  rw [hinode, ino_of_reads hfile]
  exact h.matched.reindex g

/-- Agreement depends on the tree only through its files. -/
theorem Consistent.of_file_eq {host : HostTree} (hfile : host.file = s.host.file) :
    Consistent { s with host := host } := by
  refine ⟨h.db, ?_, ?_⟩
  · rw [hfile]
    exact h.host
  refine ⟨?_, ?_⟩
  · rw [hfile]
    exact h.tracks.paths
  rw [hfile]
  exact h.tracks.links

/-- A new file in the tree gets a new row. -/
theorem Consistent.added (rowids : Rowids) {host : HostTree} {p : Path} {f : HostFile}
    (ha : HostTree.Added s.host host p f) (hhost : Posix host.file) (stat : IshStat) :
    Consistent { db := (s.db.pathCreate rowids (encode p) stat).1, host := host } := by
  obtain ⟨hdb, hinode, hnew⟩ := Db.pathCreate_spec rowids h.db p stat
  refine ⟨hdb, hhost, (tracks_iff_matched hdb).mpr ?_⟩
  rw [hinode, ha.ino_eq]
  exact h.matched.update p hnew ha.ino_fresh

theorem Consistent.cleanup (i : Nat) : Consistent { s with db := s.db.tryCleanupInode i } := by
  have hdb : (s.db.tryCleanupInode i).Ok := h.db.tryCleanupInode i
  refine ⟨hdb, h.host, (tracks_iff_matched hdb).mpr ?_⟩
  rw [Db.tryCleanupInode_inode]
  exact h.matched

end Mount

/-! ## What each call keeps -/

/-- A call that did not die and left the stores in agreement. -/
def Kept (r : Mount × FsOut) : Prop := r.2 ≠ .died ∧ r.1.Consistent

section Kept

variable {rowids : Rowids} {fresh : Fresh Nat} {s : Mount} {env : Env} {cred : Cred}

/-- A file that is created and removed again leaves the tree as it was. -/
theorem file_created_unlinked {h h1 h2 : HostTree} {p : Path} {f : HostFile}
    (ha : HostTree.Added h h1 p f) (hfile : h2.file = fun q => (keptFrom p q).bind h1.file) :
    h2.file = h.file := by
  funext q
  rw [hfile, ha.file_eq]
  by_cases hq : q = p
  · simp [keptFrom, hq, ha.free]
  · simp [keptFrom, hq]

variable (h : s.Consistent)

include h

theorem kept_failed : Kept (s, .failed) := ⟨FsOut.noConfusion, h⟩

theorem fakefsOpen_kept (path : Path) (flags : OpenFlags) (mode : UInt32) :
    Kept (fakefsOpen rowids fresh s env cred path flags mode) := by
  unfold fakefsOpen
  split
  · exact kept_failed h
  rename_i host hcall
  have hcons : Mount.Consistent
      { db := openRow rowids cred s.db path flags mode, host := host } := by
    unfold openRow
    rcases open_spec h.host (Env.call_eq_some hcall) with
      ⟨rfl, hfile⟩ | ⟨hcreat, ⟨f, ha⟩, hhost⟩
    · -- an existing file has its row already
      have hrow : s.db.inode path ≠ none := fun hnone => hfile ((h.inode_eq_none_iff path).mp hnone)
      obtain ⟨i, hi⟩ := ne_none_iff_exists'.mp hrow
      obtain ⟨hget, hne⟩ := h.db.pathGetInode_eq hi
      rw [if_neg (fun hc => hne (hget.symm.trans hc.2))]
      exact h
    have hnone : s.db.inode path = none := (h.inode_eq_none_iff path).mpr ha.free
    rw [if_pos ⟨hcreat, Db.pathGetInode_of_none hnone⟩]
    exact h.added rowids ha hhost _
  dsimp only
  split
  · exact ⟨FsOut.noConfusion, hcons⟩
  · exact ⟨FsOut.noConfusion, hcons⟩

theorem fakefsLink_kept (src dst : Path) : Kept (fakefsLink s env src dst) := by
  unfold fakefsLink
  split
  · exact kept_failed h
  rename_i host hcall
  obtain ⟨hsrc, hfile, hhost⟩ := link_spec h.host (Env.call_eq_some hcall)
  obtain ⟨db, hlink, hdb, hinode⟩ :=
    Db.pathLink_spec h.db dst (fun hnone => hsrc ((h.inode_eq_none_iff src).mp hnone))
  rw [hlink]
  exact ⟨FsOut.noConfusion, h.read hdb hinode hhost hfile⟩

/-- A host call that removes a path removes a path that has a row. -/
theorem removeEntry_kept {host : Option HostTree} {path : Path}
    (hspec : ∀ h', host = some h' → s.host.file path ≠ none ∧
      h'.file = (fun q => (keptFrom path q).bind s.host.file) ∧ Posix h'.file) :
    Kept (removeEntry s env host path) := by
  unfold removeEntry
  split
  · exact kept_failed h
  rename_i host' hcall
  obtain ⟨hpath, hfile, hhost⟩ := hspec host' (Env.call_eq_some hcall)
  obtain ⟨db, i, hunlink, hdb, hinode⟩ :=
    Db.pathUnlink_spec h.db (fun hnone => hpath ((h.inode_eq_none_iff path).mp hnone))
  have hcons : Mount.Consistent { db := db, host := host' } := h.read hdb hinode hhost hfile
  rw [hunlink]
  dsimp only
  split
  · exact ⟨FsOut.noConfusion, hcons⟩
  · exact ⟨FsOut.noConfusion, hcons.cleanup i⟩

theorem createEntry_kept {host : Option HostTree} {path : Path} {stat : IshStat}
    (hspec : ∀ h', host = some h' → (∃ f, HostTree.Added s.host h' path f) ∧ Posix h'.file) :
    Kept (createEntry rowids s env host path stat) := by
  unfold createEntry
  split
  · exact kept_failed h
  rename_i host' hcall
  obtain ⟨⟨f, ha⟩, hhost⟩ := hspec host' (Env.call_eq_some hcall)
  exact ⟨FsOut.noConfusion, h.added rowids ha hhost stat⟩

theorem fakefsMknod_kept (path : Path) (mode dev : UInt32) :
    Kept (fakefsMknod rowids fresh s env cred path mode dev) := by
  refine createEntry_kept h ?_
  intro h' hcreate
  split at hcreate
  · cases hcreate
  obtain ⟨⟨i, ha⟩, hhost⟩ := create_spec h.host hcreate
  exact ⟨⟨_, ha⟩, hhost⟩

/-- The database is renamed first; the host's rename must then move the same paths. -/
theorem fakefsRename_kept {src dst : Path}
    (hlinks : env.ok = true → src ≠ dst → s.host.file src ≠ none →
      s.host.ino src ≠ s.host.ino dst) :
    Kept (fakefsRename s env src dst) := by
  have hdb : (s.db.pathRename (encode src) (encode dst)).Ok := h.db.pathRename src dst
  unfold fakefsRename
  split
  · exact kept_failed h
  rename_i host hcall
  have hok : env.ok = true := Env.ok_of_call hcall
  refine ⟨FsOut.noConfusion, ?_⟩
  rcases rename_spec h.host (Env.call_eq_some hcall) with
    ⟨rfl, hsrc, hsame⟩ | ⟨-, hm, hfile, hhost⟩
  · -- one file under both names: only allowed when it is one name
    have heq : src = dst := by
      by_contra hne
      exact hlinks hok hne (fun hnone => hsrc ((Mount.ino_eq_none_iff _ src).mpr hnone)) hsame
    subst heq
    refine ⟨hdb, h.host, (Mount.tracks_iff_matched hdb).mpr ?_⟩
    rw [Db.pathRename_self h.db src]
    exact h.matched
  refine h.read hdb (Db.pathRename_spec h.db hm.apart ?_ ?_) hhost hfile
  · exact fun hnone => hm.source ((h.inode_eq_none_iff src).mp hnone)
  · exact fun r hr => (h.inode_eq_none_iff (dst ++ r)).mpr (hm.leaf r hr)

theorem fakefsSymlink_kept {link : Path}
    (hcleaned : env.ok = true → s.host.file link = none → s.host.parentIsDir link = true →
      env.written = false → env.cleaned = true) :
    Kept (fakefsSymlink rowids fresh s env cred link) := by
  unfold fakefsSymlink
  split
  · exact kept_failed h
  rename_i host hcall
  have hcreate := Env.call_eq_some hcall
  obtain ⟨⟨i, ha⟩, hhost⟩ := create_spec h.host hcreate
  split
  · exact ⟨FsOut.noConfusion, h.added rowids ha hhost _⟩
  rename_i hwritten
  have hclean : env.cleaned = true :=
    hcleaned (Env.ok_of_call hcall) ha.free (parentIsDir_of_create hcreate)
      (Bool.not_eq_true _ ▸ hwritten)
  have hnew : host.file link = some { ino := i, dir := false } := by
    rw [ha.file_eq, Function.update_self]
  have hunlink : host.unlink link = some { files := host.files.erase link } := by
    unfold HostTree.unlink
    rw [hnew]
    rfl
  rw [if_pos hclean, hunlink]
  refine ⟨FsOut.noConfusion, h.of_file_eq (file_created_unlinked ha ?_)⟩
  exact file_erase host link

end Kept

/-! ## Sequences of calls -/

/-- The calls that keep the two stores in agreement: no rename between two different links to
one file, and no symlink that could be neither written nor removed again. -/
def Mirrors (s : Mount) (c : FsCall) : Prop :=
  match c.op with
  | .rename src dst =>
    ¬ (c.env.ok = true ∧ src ≠ dst ∧ s.host.file src ≠ none ∧ s.host.ino src = s.host.ino dst)
  | .symlink link =>
    ¬ (c.env.ok = true ∧ s.host.file link = none ∧ s.host.parentIsDir link = true ∧
        c.env.written = false ∧ c.env.cleaned = false)
  | _ => True

/-- The call does not die, and the two stores agree after it. -/
def StepTracks (rowids : Rowids) (fresh : Fresh Nat) (s : Mount) (c : FsCall) : Prop :=
  ∀ s' o, (fakefsMachine rowids fresh).step s c = some (s', o) → o ≠ .died ∧ s'.Tracks

section Sequences

variable {rowids : Rowids} {fresh : Fresh Nat} {s : Mount}

theorem fakefsStep_kept (h : s.Consistent) {c : FsCall} (hc : Mirrors s c) :
    Kept (fakefsStep rowids fresh s c) := by
  obtain ⟨op, env, cred⟩ := c
  cases op with
  | «open» path flags mode => exact fakefsOpen_kept h path flags mode
  | link src dst => exact fakefsLink_kept h src dst
  | unlink path => exact removeEntry_kept h (fun _ hu => unlink_spec h.host hu)
  | rmdir path => exact removeEntry_kept h (fun _ hr => rmdir_spec h.host hr)
  | rename src dst =>
    exact fakefsRename_kept h (fun hok hne hsrc hsame => hc ⟨hok, hne, hsrc, hsame⟩)
  | symlink link =>
    refine fakefsSymlink_kept h ?_
    intro hok hfree hdir hwritten
    by_contra hcleaned
    exact hc ⟨hok, hfree, hdir, hwritten, Bool.not_eq_true _ ▸ hcleaned⟩
  | mknod path mode dev => exact fakefsMknod_kept h path mode dev
  | mkdir path mode =>
    refine createEntry_kept h ?_
    intro h' hcreate
    obtain ⟨⟨i, ha⟩, hhost⟩ := create_spec h.host hcreate
    exact ⟨⟨_, ha⟩, hhost⟩
  | inodeOrphaned inode => exact ⟨FsOut.noConfusion, h.cleanup inode⟩

/-- Two different links to one file are no directories, so neither is above the other and
nothing is below them. -/
theorem apart_of_links (h : Posix s.host.file) {src dst : Path} (hne : src ≠ dst)
    (hsrc : s.host.file src ≠ none) (hsame : s.host.ino src = s.host.ino dst) :
    Apart src dst ∧ ∀ r, r ≠ [] → s.host.file (dst ++ r) = none := by
  obtain ⟨f, hf⟩ := ne_none_iff_exists'.mp hsrc
  have hino : s.host.ino dst = some f.ino := by
    rw [← hsame, ino, hf, map_some]
  obtain ⟨g, hg, hgf⟩ := map_eq_some_iff.mp hino
  have hsrcFile : ¬ IsDir s.host.file src := by
    rintro ⟨f', hf', hdir⟩
    rw [hf, some.injEq] at hf'
    exact hne (h.dirUnique src dst f g hf hg (hf' ▸ hdir) hgf.symm)
  have hdstFile : ¬ IsDir s.host.file dst := by
    rintro ⟨g', hg', hdir⟩
    rw [hg, some.injEq] at hg'
    exact hne (h.dirUnique dst src g f hg hf (hg' ▸ hdir) hgf).symm
  have hbelow : ∀ {p q : Path}, ¬ IsDir s.host.file p → p ≠ q → s.host.file q ≠ none →
      ¬ p <+: q := by
    rintro p q hp hpq hq ⟨r, rfl⟩
    refine hq (leaf_of_file h hp r ?_)
    rintro rfl
    exact hpq (List.append_nil p).symm
  refine ⟨⟨hbelow hsrcFile hne ?_, hbelow hdstFile (Ne.symm hne) hsrc⟩, leaf_of_file h hdstFile⟩
  rw [hg]
  exact some_ne_none g

/-- The host does nothing for two links to one file. -/
theorem rename_of_links (h : Posix s.host.file) {src dst : Path} (hne : src ≠ dst)
    (hsrc : s.host.file src ≠ none) (hsame : s.host.ino src = s.host.ino dst) :
    s.host.rename src dst = some s.host := by
  obtain ⟨⟨hsd, hds⟩, -⟩ := apart_of_links h hne hsrc hsame
  obtain ⟨f, hf⟩ := ne_none_iff_exists'.mp hsrc
  have hino : s.host.ino dst = some f.ino := by
    rw [← hsame, ino, hf, map_some]
  obtain ⟨g, hg, hgf⟩ := map_eq_some_iff.mp hino
  have hroots : ¬ (src = [] ∨ dst = []) := by
    rintro (rfl | rfl)
    · exact hsd List.nil_prefix
    · exact hds List.nil_prefix
  unfold rename
  rw [if_neg hroots, hf, hg]
  exact if_pos hgf.symm

/-- Outside `Mirrors` the two stores disagree after the call. -/
theorem not_tracks_of_not_mirrors (h : s.Consistent) {c : FsCall} (hc : ¬ Mirrors s c) :
    ¬ (fakefsStep rowids fresh s c).1.Tracks := by
  obtain ⟨op, env, cred⟩ := c
  cases op with
  | rename src dst =>
    obtain ⟨hok, hne, hsrc, hsame⟩ := not_not.mp hc
    obtain ⟨hapart, hleaf⟩ := apart_of_links h.host hne hsrc hsame
    have hgone : (s.db.pathRename (encode src) (encode dst)).inode src = none := by
      rw [Db.pathRename_spec h.db hapart]
      · show (movedFrom src dst src).bind s.db.inode = none
        rw [movedFrom, if_neg hapart.notBelow, if_pos List.prefix_rfl, bind_none]
      · exact fun hnone => hsrc ((h.inode_eq_none_iff src).mp hnone)
      · exact fun r hr => (h.inode_eq_none_iff (dst ++ r)).mpr (hleaf r hr)
    have hstep : (fakefsStep rowids fresh s ⟨.rename src dst, env, cred⟩).1
        = { db := s.db.pathRename (encode src) (encode dst), host := s.host } := by
      show (fakefsRename s env src dst).1 = _
      unfold fakefsRename Env.call
      rw [if_pos hok, rename_of_links h.host hne hsrc hsame]
    rw [hstep]
    intro ht
    exact lookup_eq_none.mp hgone ((ht.paths (encode src)).mpr ⟨src, rfl, hsrc⟩)
  | symlink link =>
    obtain ⟨hok, hfree, hdir, hwritten, hcleaned⟩ := not_not.mp hc
    have hrow : encode link ∉ s.db.paths := lookup_eq_none.mp ((h.inode_eq_none_iff link).mpr hfree)
    have hstep : (fakefsStep rowids fresh s ⟨.symlink link, env, cred⟩).1
        = { s with host := ⟨s.host.files.insert link ⟨fresh.pick s.host.inos, false⟩⟩ } := by
      show (fakefsSymlink rowids fresh s env cred link).1 = _
      unfold fakefsSymlink Env.call create
      rw [if_pos hok, if_pos ⟨hfree, hdir⟩]
      rw [hwritten, hcleaned]
      rfl
    rw [hstep]
    intro ht
    refine hrow ((ht.paths (encode link)).mpr ⟨link, rfl, ?_⟩)
    rw [file_insert, Function.update_self]
    exact some_ne_none _
  | «open» path flags mode => exact absurd trivial hc
  | link src dst => exact absurd trivial hc
  | unlink path => exact absurd trivial hc
  | rmdir path => exact absurd trivial hc
  | mknod path mode dev => exact absurd trivial hc
  | mkdir path mode => exact absurd trivial hc
  | inodeOrphaned inode => exact absurd trivial hc

theorem stepTracks_iff (h : s.Consistent) (c : FsCall) :
    StepTracks rowids fresh s c ↔ Mirrors s c := by
  constructor
  · intro ht
    by_contra hc
    exact not_tracks_of_not_mirrors h hc (ht _ _ rfl).2
  intro hc s' o hstep
  have hkept : Kept (fakefsStep rowids fresh s c) := fakefsStep_kept h hc
  rw [some.inj hstep] at hkept
  exact ⟨hkept.1, hkept.2.tracks⟩

/-- **Sequences of calls.** From agreeing stores, no call of a sequence dies or leaves the stores
in disagreement exactly when no call is one of the two exceptions. -/
theorem fakefs_tracks_host_iff (rowids : Rowids) (fresh : Fresh Nat) (s : Mount)
    (h : s.Consistent) (calls : List FsCall) :
    (fakefsMachine rowids fresh).Along (StepTracks rowids fresh) s calls ↔
      (fakefsMachine rowids fresh).Along Mirrors s calls := by
  refine Machine.along_congr (I := Mount.Consistent) (fun s c hs => stepTracks_iff hs c) ?_ h calls
  intro s c s' o hs hc hstep
  have hkept : Kept (fakefsStep rowids fresh s c) := fakefsStep_kept hs hc
  rw [some.inj hstep] at hkept
  exact hkept.2

end Sequences

/-! ## Two runs -/

/-- A fakefs with only its root directory. -/
def rootMount : Mount where
  db :=
    { paths := (∅ : Table Blob Nat).insert (encode []) 1
      stats := (∅ : Table Nat IshStat).insert 1 ⟨S_IFDIR ||| 493, 0, 0, 0⟩ }
  host := { files := (∅ : Table Path HostFile).insert [] ⟨1, true⟩ }

theorem rootMount_file (p : Path) (f : HostFile) (hp : rootMount.host.file p = some f) :
    p = [] ∧ f = ⟨1, true⟩ :=
  Table.of_lookup_insert_empty hp

theorem rootMount_row (b : Blob) (i : Nat) (hb : rootMount.db.paths.lookup b = some i) :
    b = encode [] ∧ i = 1 :=
  Table.of_lookup_insert_empty hb

theorem rootMount_consistent : rootMount.Consistent := by
  have hdb : rootMount.db.Ok := by
    refine ⟨?_, ?_, ?_⟩
    · intro b hb
      obtain ⟨i, hi⟩ := isSome_iff_exists.mp (lookup_isSome.mpr hb)
      exact ⟨[], (rootMount_row b i hi).1⟩
    · intro b i hi
      rw [(rootMount_row b i hi).2]
      exact (mem_insert _).mpr (.inl rfl)
    intro b i hi
    rw [(rootMount_row b i hi).2]
    exact one_ne_zero
  refine ⟨hdb, ⟨⟨_, rfl, rfl⟩, ?_, ?_⟩, (Mount.tracks_iff_matched hdb).mpr ⟨?_, ?_⟩⟩
  · intro p n hp
    obtain ⟨f, hf⟩ := ne_none_iff_exists'.mp hp
    exact absurd (rootMount_file _ f hf).1 (List.append_ne_nil_of_right_ne_nil p (by simp))
  · intro p q f g hf hg _ _
    rw [(rootMount_file p f hf).1, (rootMount_file q g hg).1]
  · intro p
    by_cases hnil : p = []
    · subst hnil
      decide +kernel
    have hrow : rootMount.db.inode p = none := lookup_insert_ne (fun h => hnil (encode_injective h))
    have hfile : rootMount.host.file p = none := lookup_insert_ne hnil
    rw [Mount.ino_eq_none_iff]
    exact ⟨fun _ => hfile, fun _ => hrow⟩
  intro p q i j a b hp hq ha hb
  obtain ⟨f, hf, rfl⟩ := map_eq_some_iff.mp ha
  obtain ⟨g, hg, rfl⟩ := map_eq_some_iff.mp hb
  rw [(rootMount_row _ i hp).2, (rootMount_row _ j hq).2, (rootMount_file p f hf).2,
    (rootMount_file q g hg).2]

/-- A call in which nothing outside the tree fails. -/
def rootCall (op : FsOp) : FsCall :=
  { op := op, env := { ok := true, written := true, cleaned := true, held := false }
    cred := { euid := 0, egid := 0 } }

/-- Create `/a`, link it as `/b`, and rename `/a` to `/b`. -/
def linkedRun : List FsCall :=
  [rootCall (.open [nameA] ⟨true, false⟩ 420), rootCall (.link [nameA] [nameB]),
   rootCall (.rename [nameA] [nameB])]

/-- The host keeps both links and the table keeps one. -/
theorem rename_of_links_loses_row :
    rootMount.Consistent ∧
      ∃ s os, (fakefsMachine Rowids.succMax Rowids.succMax.toFresh).run rootMount linkedRun
          = some (s, os) ∧
        os = [.fd 2, .ok, .ok] ∧ encode [nameA] ∉ s.db.paths ∧ s.host.ino [nameA] = some 2 ∧
        ¬ s.Tracks := by
  refine ⟨rootMount_consistent, _, _, rfl, by decide +kernel, by decide +kernel,
    by decide +kernel, ?_⟩
  intro ht
  have hrow : encode [nameA] ∈ _ :=
    (ht.paths (encode [nameA])).mpr ⟨[nameA], rfl, by decide +kernel⟩
  exact absurd hrow (by decide +kernel)

/-- Make a directory, create a file in it, and rename the directory. -/
def movedRun : List FsCall :=
  [rootCall (.mkdir [nameA] 493), rootCall (.open [nameA, nameB] ⟨true, false⟩ 420),
   rootCall (.rename [nameA] [nameB])]

theorem fakefs_tracks_host_movedRun :
    (fakefsMachine Rowids.succMax Rowids.succMax.toFresh).Along
      (StepTracks Rowids.succMax Rowids.succMax.toFresh) rootMount movedRun := by
  refine (fakefs_tracks_host_iff _ _ rootMount rootMount_consistent movedRun).mpr ?_
  unfold movedRun
  rw [Machine.along_cons_of_step rfl, Machine.along_cons_of_step rfl,
    Machine.along_cons_of_step rfl]
  refine ⟨trivial, trivial, ?_, trivial⟩
  rintro ⟨-, -, -, hsame⟩
  exact absurd hsame (by decide +kernel)

end Ish.Fakefs
