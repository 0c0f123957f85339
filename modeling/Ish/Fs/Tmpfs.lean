import Ish.Fs.Normalize

set_option autoImplicit false

/-! # The paths of tmpfs descriptors

`fs/tmp.c` keeps a tree of directory entries in memory. An entry is named here by a number, the
root of the mount by 0, and a normalized path by its components. Nothing removes an entry, so
the reference counts are left out, as are the contents and the rest of the `stat`.

`tmpfs_getpath` is meant to walk from the entry up to the root. It never moves to the parent:
below the root it puts the same name in front until the buffer is full.
-/

namespace Ish.Fs

open List Ish.Lib Ish.Fakefs Function

def MAX_NAME : Nat := 256

def EEXIST : Errno := .other 17

/-- A `struct tmp_dirent` with the type of its inode. -/
structure Dirent where
  name : List UInt8
  isDir : Bool
  parent : Option Nat
  children : List Nat

structure Tmpfs where
  next : Nat
  dirent : Nat → Dirent
  root_lt : 0 < next
  root_noChild : ∀ d, 0 ∉ (dirent d).children

namespace Tmpfs

def tmpfsMount : Tmpfs where
  next := 1
  dirent := fun _ => ⟨[], true, none, []⟩
  root_lt := Nat.one_pos
  root_noChild := fun _ => not_mem_nil

variable {t t' : Tmpfs} {dir d : Nat} {name : List UInt8} {isDir : Bool}

theorem root_noChild_link (t : Tmpfs) (dir : Nat) (name : List UInt8) (isDir : Bool) :
    ∀ d, 0 ∉ (update (update t.dirent t.next ⟨name, isDir, some dir, []⟩) dir
      { t.dirent dir with children := (t.dirent dir).children ++ [t.next] } d).children := by
  intro d
  have hnext := t.root_lt.ne
  have hold := t.root_noChild
  rw [update_apply, update_apply]
  split
  · simp [hold, hnext]
  split
  · exact not_mem_nil
  · exact hold d

/-- Linking a new inode under `dir`; the result is the entry made for it. -/
def tmpfsDirLink (t : Tmpfs) (dir : Nat) (name : List UInt8) (isDir : Bool) :
    Except Errno (Tmpfs × Nat) :=
  if (t.dirent dir).isDir then
    .ok ({ next := t.next + 1
           dirent := update (update t.dirent t.next ⟨name, isDir, some dir, []⟩) dir
             { t.dirent dir with children := (t.dirent dir).children ++ [t.next] }
           root_lt := t.next.succ_pos
           root_noChild := root_noChild_link t dir name isDir }, t.next)
  else .error .ENOTDIR

def tmpfsDirLookup (t : Tmpfs) (dir : Nat) (name : List UInt8) : Except Errno Nat :=
  if (t.dirent dir).isDir then
    match (t.dirent dir).children.find? (fun d => (t.dirent d).name = name) with
    | some d => .ok d
    | none => .error .ENOENT
  else .error .ENOTDIR

/-- The loop of `__tmpfs_lookup`, from the entry `d` on. With `parent` set the last component is
not looked up but handed back, and so is the empty one of the root's path. -/
def tmpfsLookupLoop (t : Tmpfs) (parent : Bool) (d : Nat) : Path → Except Errno (Nat × List UInt8)
  | [] => .ok (d, [])
  | c :: p =>
    if MAX_NAME ≤ c.bytes.length then .error .ENAMETOOLONG
    else if parent ∧ p = [] then .ok (d, c.bytes)
    else
      match t.tmpfsDirLookup d c.bytes with
      | .error e => .error e
      | .ok child => tmpfsLookupLoop t parent child p

def tmpfsLookup (t : Tmpfs) (p : Path) : Except Errno Nat :=
  (t.tmpfsLookupLoop false 0 p).map Prod.fst

def tmpfsLookupParent (t : Tmpfs) (p : Path) : Except Errno (Nat × List UInt8) :=
  t.tmpfsLookupLoop true 0 p

def tmpfsMkdir (t : Tmpfs) (p : Path) : Except Errno Tmpfs :=
  match t.tmpfsLookupParent p with
  | .error e => .error e
  | .ok (parent, filename) =>
    match t.tmpfsDirLookup parent filename with
    | .ok _ => .error EEXIST
    | .error .ENOENT => (t.tmpfsDirLink parent filename true).map Prod.fst
    | .error e => .error e

/-- Opening `p`, with and without `O_CREAT` and `O_EXCL`. -/
def tmpfsOpen (t : Tmpfs) (p : Path) (creat excl : Bool) : Except Errno (Tmpfs × Nat) :=
  if creat then
    match t.tmpfsLookupParent p with
    | .error e => .error e
    | .ok (parent, filename) =>
      match t.tmpfsDirLookup parent filename with
      | .ok d => if excl then .error EEXIST else .ok (t, d)
      | .error .ENOENT => t.tmpfsDirLink parent filename false
      | .error e => .error e
  else (t.tmpfsLookup p).map (fun d => (t, d))

/-- The loop of `tmpfs_getpath`, with `p` bytes of the buffer in front of `out`. -/
def tmpfsGetpathLoop (t : Tmpfs) (d p : Nat) (out : Blob) : Except Errno Blob :=
  if d = 0 then .ok out
  else if p < (t.dirent d).name.length + 1 then .error .ENAMETOOLONG
  else
    tmpfsGetpathLoop t d (p - ((t.dirent d).name.length + 1)) (SLASH :: (t.dirent d).name ++ out)
termination_by p

def tmpfsGetpath (t : Tmpfs) (d : Nat) : Except Errno Blob :=
  t.tmpfsGetpathLoop d (MAX_PATH - 1) []

/-! ## Trees that calls build -/

inductive Call where
  | mkdir (p : Path)
  | creat (p : Path) (excl : Bool)

/-- A call that fails leaves the tree as it was. -/
def after (t : Tmpfs) : Call → Tmpfs
  | .mkdir p => (t.tmpfsMkdir p).toOption.getD t
  | .creat p excl => ((t.tmpfsOpen p true excl).map Prod.fst).toOption.getD t

/-- The tree after the calls, on a new mount. -/
def built (calls : List Call) : Tmpfs := calls.foldl after tmpfsMount

/-! ## What a descriptor is opened at -/

theorem dirLookup_ne_root (h : t.tmpfsDirLookup dir name = .ok d) : d ≠ 0 := by
  unfold tmpfsDirLookup at h
  split at h
  · split at h
    case h_1 child hfind =>
      cases h
      rintro rfl
      exact t.root_noChild dir (mem_of_find?_eq_some hfind)
    case h_2 => cases h
  · cases h

theorem dirLink_ne_root (h : t.tmpfsDirLink dir name isDir = .ok (t', d)) : d ≠ 0 := by
  unfold tmpfsDirLink at h
  split at h
  · cases h
    exact t.root_lt.ne'
  · cases h

/-- One component down the walk is off the root, and it never comes back. -/
theorem lookupLoop_eq_root {p : Path} {dir d : Nat} {f : List UInt8}
    (h : t.tmpfsLookupLoop false dir p = .ok (d, f)) : d = 0 ↔ dir = 0 ∧ p = [] := by
  induction p generalizing dir with
  | nil =>
    cases h
    simp
  | cons c p ih =>
    have hne : d ≠ 0 := by
      unfold tmpfsLookupLoop at h
      split at h
      · cases h
      rw [if_neg (fun hp => Bool.false_ne_true hp.1)] at h
      split at h
      case h_1 => cases h
      case h_2 child hchild =>
        intro hd
        exact dirLookup_ne_root hchild ((ih h).1 hd).1
    simp [hne]

theorem open_eq_root {p : Path} {creat excl : Bool}
    (h : t.tmpfsOpen p creat excl = .ok (t', d)) : d = 0 ↔ p = [] ∧ creat = false := by
  cases creat with
  | true =>
    have hne : d ≠ 0 := by
      unfold tmpfsOpen at h
      rw [if_pos rfl] at h
      split at h
      case h_1 => cases h
      case h_2 parent filename _ =>
        split at h
        case h_1 child hchild =>
          split at h
          · cases h
          cases h
          exact dirLookup_ne_root hchild
        case h_2 => exact dirLink_ne_root h
        case h_3 => cases h
    simp [hne]
  | false =>
    unfold tmpfsOpen tmpfsLookup at h
    rw [if_neg Bool.false_ne_true] at h
    cases hloop : t.tmpfsLookupLoop false 0 p with
    | error e =>
      rw [hloop] at h
      cases h
    | ok r =>
      rw [hloop] at h
      cases h
      rw [lookupLoop_eq_root hloop]
      simp

/-! ## The path of a descriptor -/

theorem getpathLoop_of_ne (hd : d ≠ 0) (p : Nat) (out : Blob) :
    t.tmpfsGetpathLoop d p out = .error .ENAMETOOLONG := by
  induction p using Nat.strong_induction_on generalizing out with
  | _ p ih =>
    unfold tmpfsGetpathLoop
    rw [if_neg hd]
    split
    · rfl
    · exact ih _ (by omega) _

theorem getpath_root (t : Tmpfs) : t.tmpfsGetpath 0 = .ok [] := by
  unfold tmpfsGetpath tmpfsGetpathLoop
  exact if_pos rfl

/-- **Only the mount's root finds its path.** -/
theorem getpath_open_iff (calls : List Call) (p : Path) (creat excl : Bool)
    (hopen : (built calls).tmpfsOpen p creat excl = .ok (t, d)) :
    t.tmpfsGetpath d = .ok (encode p) ↔ p = [] ∧ creat = false := by
  rw [← open_eq_root hopen]
  constructor
  · intro hpath
    by_contra hd
    rw [tmpfsGetpath, getpathLoop_of_ne hd] at hpath
    cases hpath
  intro hd
  obtain ⟨rfl, -⟩ := (open_eq_root hopen).1 hd
  rw [hd]
  exact getpath_root t

theorem getpath_open_of_mkdir :
    ∃ t, (built [.mkdir [nameA]]).tmpfsOpen [] false false = .ok (t, 0) ∧
      t.tmpfsGetpath 0 = .ok (encode []) := by
  refine (fun hopen => ⟨_, hopen, ?_⟩) rfl
  exact (getpath_open_iff [.mkdir [nameA]] [] false false hopen).2 ⟨rfl, rfl⟩

theorem getpath_of_dir : ∃ t, (built [.mkdir [nameA]]).tmpfsOpen [nameA] false false = .ok (t, 1) ∧
    (encode [nameA]).length < MAX_PATH ∧ t.tmpfsGetpath 1 = .error .ENAMETOOLONG :=
  ⟨_, rfl, by decide, getpathLoop_of_ne Nat.one_ne_zero _ _⟩

end Tmpfs

end Ish.Fs
