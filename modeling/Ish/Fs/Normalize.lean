import Ish.Fakefs.Ops
import Ish.Lib.Loop

set_option autoImplicit false

/-! # Path normalization

`__path_normalize` (`fs/path.c`) copies a path component by component into the buffer `out`,
removing the last one for `..` and asking the responsible file system about each one that is
followed by another. Where that is a symbolic link, the target and the rest of the path are put
together in a second buffer and the function calls itself on it. The call is the last thing it
does, so here it is a restart of the loop with one level more.

The buffers are the bytes before the terminating NUL. `Norm.outOfBounds` is a write at an index
from `MAX_PATH` on, or a read before the start of a string. The space counter `n` is a field of its
own, since the code tests it and not the position. The trees the turns see are any sequence: other
threads change the tree while the path is walked.
-/

namespace Ish.Fs

open List Ish.Lib Ish.Fakefs

def MAX_PATH : Nat := 4096

inductive Errno where
  | ENOENT
  | EACCES
  | ENOTDIR
  | ENAMETOOLONG
  | ELOOP
  | other (code : Nat)
deriving DecidableEq

/-! ## The file systems -/

structure Statbuf where
  mode : UInt32
  uid : UInt32
  gid : UInt32

def Statbuf.isDir (st : Statbuf) : Bool := st.mode &&& S_IFMT == S_IFDIR

def AC_X : UInt32 := 1

/-- Whether `access_check` returns 0. -/
def accessCheck (cred : Cred) (st : Statbuf) (check : UInt32) : Bool :=
  if cred.euid = 0 then true
  else if check = 0 then true
  else
    let bits :=
      if cred.euid = st.uid then check <<< 6
      else if cred.egid = st.gid then check <<< 3
      else check
    st.mode &&& bits != 0

/-- What path resolution uses of a `struct fs_ops`. A negative result is `none`. -/
structure FsOps where
  /-- Path and size of the buffer; `none` is a null pointer. -/
  readlink : Option (Blob → Nat → Option Blob)
  stat : Blob → Option Statbuf
  readlink_le : ∀ f ∈ readlink, ∀ path size b, f path size = some b → b.length ≤ size

theorem FsOps.none_readlink_le : ∀ f ∈ (none : Option (Blob → Nat → Option Blob)),
    ∀ path size b, f path size = some b → b.length ≤ size := by
  intro f hf
  cases hf

def FsOps.tryReadlink (fs : FsOps) (path : Blob) (size : Nat) : Option Blob :=
  fs.readlink.bind (fun f => f path size)

structure MountPoint where
  point : Blob
  fs : FsOps

/-- The next byte is a slash or the end of the string. -/
def endsHere (b : Blob) : Bool := b.head?.all (· == SLASH)

def MountPoint.covers (m : MountPoint) (path : Blob) : Bool :=
  m.point.isPrefixOf path && endsHere (path.drop m.point.length)

structure Tree where
  mounts : List MountPoint
  rooted : ∃ m ∈ mounts, m.point = []

/-- `find_mount_and_trim_path`. -/
def Tree.findMountAndTrimPath (T : Tree) (path : Blob) : Option (FsOps × Blob) :=
  (T.mounts.find? (fun m => m.covers path)).map (fun m => (m.fs, path.drop m.point.length))

/-- The answer of the responsible file system. -/
def Tree.readlink (T : Tree) (path : Blob) (size : Nat) : Option Blob :=
  (T.findMountAndTrimPath path).bind (fun r => r.1.tryReadlink r.2 size)

def Tree.stat (T : Tree) (path : Blob) : Option Statbuf :=
  (T.findMountAndTrimPath path).bind (fun r => r.1.stat r.2)

/-! ## Scanning -/

/-- Where the scan of `path_is_normalized` is: before a slash, right behind one, in a name. -/
inductive Scan where
  | slash
  | first
  | name

def pathIsNormalizedFrom : Scan → Blob → Bool
  | _, [] => true
  | .slash, b :: t => b == SLASH && pathIsNormalizedFrom .first t
  | .first, b :: t => b != SLASH && pathIsNormalizedFrom .name t
  | .name, b :: t =>
    if b = SLASH then pathIsNormalizedFrom .first t else pathIsNormalizedFrom .name t

/-- A name may be missing at the end, and may be a dot: `/a/` passes. -/
def pathIsNormalized (path : Blob) : Bool := pathIsNormalizedFrom .slash path

/-- The pointer `p` into the path: the bytes behind it, last first, and those from it on. -/
structure Cursor where
  before : Blob
  rest : Blob

def Cursor.skip (p : Cursor) (k : Nat) : Cursor :=
  ⟨(p.rest.take k).reverse ++ p.before, p.rest.drop k⟩

def eatSlashesFrom (before : Blob) : Blob → Cursor
  | [] => ⟨before, []⟩
  | b :: t => if b = SLASH then eatSlashesFrom (b :: before) t else ⟨before, b :: t⟩

/-- `while (*p == '/') p++`. -/
def Cursor.eatSlashes (p : Cursor) : Cursor := eatSlashesFrom p.before p.rest

inductive Component where
  | dot
  | dotDot
  | name
deriving DecidableEq

def DOT : UInt8 := 46

/-- The tests on `p[0]`, `p[1]` and `p[2]`. -/
def component (p : Blob) : Component :=
  if p.head? = some DOT then
    if endsHere p.tail then .dot
    else if p.tail.head? = some DOT ∧ endsHere p.tail.tail then .dotDot
    else .name
  else .name

/-- Step back over the last component and its slash; `none` without a slash. -/
def popComponent (out : Blob) : Option Blob :=
  match out.reverse.dropWhile (· != SLASH) with
  | [] => none
  | _ :: r => some r.reverse

/-- `while (*p != '/' && *p != '\0' && --n > 0) *o++ = *p++`, from `before` and `rest` on. The
last decrement is not undone when it ends the loop. -/
def copyUp (out : Blob) (n : Int) (before : Blob) : Blob → Option (Blob × Int × Cursor)
  | [] => some (out, n, ⟨before, []⟩)
  | b :: t =>
    if b = SLASH then some (out, n, ⟨before, b :: t⟩)
    else if 0 < n - 1 then
      if out.length < MAX_PATH then copyUp (out ++ [b]) (n - 1) (b :: before) t else none
    else some (out, n - 1, ⟨before, b :: t⟩)

/-! ## The loop -/

/-- What stays the same during a call: the flag, and who is calling. -/
structure Call where
  follow : Bool
  cred : Cred

/-- The variables of the loop. -/
structure Turn where
  levels : Nat
  out : Blob
  n : Int
  p : Cursor

inductive Norm where
  | turn (t : Turn)
  | returned (out : Blob)
  | failed (e : Errno)
  /-- A failed assertion. -/
  | aborted
  | outOfBounds

/-- Up to the loop. -/
def normalizeStart (at_path : Option Blob) (path : Blob) (levels : Nat) : Norm :=
  if path = [] then .failed .ENOENT
  else
    let base := at_path.getD []
    if base = [SLASH] then
      .turn ⟨levels, [], MAX_PATH - 1, .eatSlashes ⟨[], path⟩⟩
    else if base.length < MAX_PATH then
      .turn ⟨levels, base, MAX_PATH - 1 - base.length, .eatSlashes ⟨[], path⟩⟩
    else .outOfBounds

/-- The path that is normalized instead: the target after the directory, or alone when it
starts with a slash, and the rest of the path. -/
def expandedPath (t : Turn) (c : Nat) (target : Blob) : Blob :=
  let link := target.takeWhile (· != 0)
  let base := if link.head? = some SLASH then link else t.out.take c ++ link
  if t.p.rest = [] then base else base ++ SLASH :: t.p.rest

def expand (t : Turn) (c : Nat) (target : Blob) : Norm :=
  if 5 ≤ t.levels then .failed .ELOOP
  -- the terminating NUL behind the target, and the one behind the joined path
  else if MAX_PATH ≤ c + target.length then .outOfBounds
  else if MAX_PATH ≤ (expandedPath t c target).length then .outOfBounds
  else normalizeStart none (expandedPath t c target) (t.levels + 1)

/-- With a slash behind the component: if it exists it has to be a directory to search. -/
def checkSearch (cred : Cred) (fs : FsOps) (path : Blob) (t : Turn) : Norm :=
  match t.p.before with
  | [] => .outOfBounds
  | b :: _ =>
    if b = SLASH then
      match fs.stat path with
      | none => .turn t
      | some st =>
        if !st.isDir then .failed .ENOTDIR
        else if !accessCheck cred st AC_X then .failed .EACCES
        else .turn t
    else .turn t

/-- The component just copied to `out` from the index `c` on. -/
def checkSymlink (cred : Cred) (T : Tree) (t : Turn) (c : Nat) : Norm :=
  if MAX_PATH ≤ t.out.length then .outOfBounds
  else if !pathIsNormalized t.out then .aborted
  else
    match T.findMountAndTrimPath t.out with
    | none => .outOfBounds
    | some (fs, path) =>
      if !pathIsNormalized path then .aborted
      else
        match fs.tryReadlink path (MAX_PATH - c) with
        | some target => expand t c target
        | none => checkSearch cred fs path t

/-- The turn of a component that is copied. -/
def nameTurn (call : Call) (T : Tree) (t : Turn) : Norm :=
  if t.out.length < MAX_PATH then
    match copyUp (t.out ++ [SLASH]) (t.n - 1) t.p.before t.p.rest with
    | none => .outOfBounds
    | some (out, n, p) =>
      let t' : Turn := ⟨t.levels, out, n, p.eatSlashes⟩
      if n = 0 then .failed .ENAMETOOLONG
      else if call.follow ∨ t'.p.rest ≠ [] then
        checkSymlink call.cred T t' (t.out.length + 1)
      else .turn t'
  else .outOfBounds

def dotDotTurn (t : Turn) : Norm :=
  let p := (t.p.skip 2).eatSlashes
  if t.out = [] then .turn { t with p := p }
  else
    match popComponent t.out with
    | none => .outOfBounds
    | some out => .turn { t with out := out, n := t.n + (t.out.length - out.length), p := p }

/-- After the loop. -/
def normalizeEnd (t : Turn) : Norm :=
  if MAX_PATH ≤ t.out.length then .outOfBounds
  else if pathIsNormalized t.out then .returned t.out
  else .aborted

def Turn.next (call : Call) (T : Tree) (t : Turn) : Norm :=
  if t.p.rest = [] then normalizeEnd t
  else
    match component t.p.rest with
    | .dot => .turn { t with p := (t.p.skip 1).eatSlashes }
    | .dotDot => dotDotTurn t
    | .name => nameTurn call T t

def normalizeTurn (call : Call) (s : Norm) (T : Tree) : Norm :=
  match s with
  | .turn t => t.next call T
  | s => s

/-- `__path_normalize` after `k` turns; `trees i` is the tree that turn `i` sees. -/
def pathNormalizeFrom (call : Call) (trees : Nat → Tree) (at_path : Option Blob) (path : Blob)
    (levels : Nat) (k : Nat) : Norm :=
  after (normalizeTurn call) trees (normalizeStart at_path path levels) k

def Norm.Final (s : Norm) : Prop := ∀ t, s ≠ .turn t

/-! ## What can come of a start, a target and a search -/

section Outcomes

variable {P : Norm → Prop} {t : Turn}

theorem normalizeStart_ind (at_path : Option Blob) (path : Blob) (levels : Nat)
    (hempty : P (.failed .ENOENT)) (hout : P .outOfBounds)
    (hturn : ∀ out n, P (.turn ⟨levels, out, n, .eatSlashes ⟨[], path⟩⟩)) :
    P (normalizeStart at_path path levels) := by
  unfold normalizeStart
  dsimp only
  split
  · exact hempty
  split
  · exact hturn _ _
  split
  · exact hturn _ _
  · exact hout

theorem expand_ind (t : Turn) (c : Nat) (target : Blob) (hloop : P (.failed .ELOOP))
    (hout : P .outOfBounds)
    (hstart : t.levels < 5 → c + target.length < MAX_PATH →
      (expandedPath t c target).length < MAX_PATH →
        P (normalizeStart none (expandedPath t c target) (t.levels + 1))) :
    P (expand t c target) := by
  unfold expand
  split
  · exact hloop
  split
  · exact hout
  split
  · exact hout
  · exact hstart (by omega) (by omega) (by omega)

/-- The component is no directory to look into, or one that the caller may search. -/
def SearchOk (cred : Cred) (fs : FsOps) (path : Blob) (t : Turn) : Prop :=
  t.p.before.head? = some SLASH →
    ∀ st, fs.stat path = some st → st.isDir = true ∧ accessCheck cred st AC_X = true

theorem checkSearch_cases (cred : Cred) (fs : FsOps) (path : Blob) (t : Turn) :
    (t.p.before = [] ∧ checkSearch cred fs path t = .outOfBounds) ∨
    ((∃ e, e ≠ .ENAMETOOLONG ∧ checkSearch cred fs path t = .failed e) ∧
      ¬ SearchOk cred fs path t) ∨
    (checkSearch cred fs path t = .turn t ∧ SearchOk cred fs path t) := by
  unfold checkSearch SearchOk
  rcases t.p.before with _ | ⟨b, r⟩
  · simp
  by_cases hb : b = SLASH
  · cases fs.stat path with
    | none => simp
    | some st =>
      cases hdir : st.isDir <;> cases hacc : accessCheck cred st AC_X <;> simp [hb, hdir, hacc]
  · simp [hb]

/-- Asking about a component ends the call, leads on to a target, or goes on. -/
theorem checkSymlink_ind (cred : Cred) (T : Tree) (t : Turn) (c : Nat)
    (hfailed : ∀ e, e ≠ .ENAMETOOLONG → P (.failed e)) (hout : P .outOfBounds)
    (habort : P .aborted) (hexpand : ∀ target, P (expand t c target))
    (hturn : T.readlink t.out (MAX_PATH - c) = none →
      (t.p.before.head? = some SLASH →
        ∀ st, T.stat t.out = some st → st.isDir = true ∧ accessCheck cred st AC_X = true) →
      P (.turn t)) : P (checkSymlink cred T t c) := by
  unfold checkSymlink
  split
  · exact hout
  split
  · exact habort
  rcases hfind : T.findMountAndTrimPath t.out with _ | r
  · exact hout
  obtain ⟨fs, path⟩ := r
  dsimp only
  split
  · exact habort
  cases hread : fs.tryReadlink path (MAX_PATH - c) with
  | some target => exact hexpand target
  | none =>
    rcases checkSearch_cases cred fs path t with
      ⟨-, hs⟩ | ⟨⟨e, he, hs⟩, -⟩ | ⟨hs, hsearch⟩
    · exact hs ▸ hout
    · exact hs ▸ hfailed e he
    refine hs ▸ hturn ?_ ?_
    · rw [Tree.readlink, hfind]
      exact hread
    rw [Tree.stat, hfind]
    exact hsearch

end Outcomes

/-! ## What the scans do -/

/-- The component at the start of a string. -/
def nextName (b : Blob) : Blob := b.takeWhile (· != SLASH)

section Scans

variable {out before rest : Blob} {n : Int}

theorem nextName_append_drop (b : Blob) : nextName b ++ b.drop (nextName b).length = b :=
  prefix_iff_eq_append.mp (List.takeWhile_prefix _)

theorem slash_notMem_nextName (b : Blob) : SLASH ∉ nextName b := by
  intro hmem
  simpa using mem_takeWhile_imp hmem

theorem nextName_ne_nil (hne : rest ≠ []) (hhead : ∀ b ∈ rest.head?, b ≠ SLASH) :
    nextName rest ≠ [] := by
  cases rest with
  | nil => exact absurd rfl hne
  | cons b t =>
    have hb : b ≠ SLASH := hhead b rfl
    simp [nextName, hb]

theorem eatSlashes_rest (p : Cursor) : p.eatSlashes.rest = p.rest.dropWhile (· == SLASH) := by
  obtain ⟨before, rest⟩ := p
  unfold Cursor.eatSlashes
  induction rest generalizing before with
  | nil => rfl
  | cons b t ih =>
    by_cases hb : b = SLASH
    · simp only [eatSlashesFrom, hb, if_true, dropWhile_cons, beq_self_eq_true]
      exact ih (SLASH :: before)
    · simp [eatSlashesFrom, hb]

theorem eatSlashes_rest_of_head {p : Cursor} (hhead : ∀ b ∈ p.rest.head?, b ≠ SLASH) :
    p.eatSlashes.rest = p.rest := by
  rw [eatSlashes_rest]
  cases hrest : p.rest with
  | nil => rfl
  | cons b r =>
    have hb : b ≠ SLASH := hhead b (by rw [hrest]; rfl)
    simp [hb]

theorem eatSlashes_length_le (p : Cursor) : p.eatSlashes.rest.length ≤ p.rest.length := by
  rw [eatSlashes_rest]
  exact (dropWhile_sublist _).length_le

theorem eatSlashes_head (p : Cursor) : ∀ b ∈ p.eatSlashes.rest.head?, b ≠ SLASH := by
  intro b hb hslash
  rw [eatSlashes_rest] at hb
  have hnot := head?_dropWhile_not (· == SLASH) p.rest
  rw [Option.mem_def.mp hb] at hnot
  simp [hslash] at hnot

/-- The pointer is never back at the start of the string once a byte was read. -/
theorem eatSlashes_before (p : Cursor) : ∃ x, p.eatSlashes.before = x ++ p.before := by
  obtain ⟨before, rest⟩ := p
  unfold Cursor.eatSlashes
  induction rest generalizing before with
  | nil => exact ⟨[], rfl⟩
  | cons b t ih =>
    by_cases hb : b = SLASH
    · obtain ⟨x, hx⟩ := ih (b :: before)
      refine ⟨x ++ [b], ?_⟩
      simp only [eatSlashesFrom, hb, if_true] at hx ⊢
      rw [hx]
      simp
    · exact ⟨[], by simp [eatSlashesFrom, hb]⟩

theorem skip_length (p : Cursor) (k : Nat) : (p.skip k).rest.length = p.rest.length - k := by
  simp [Cursor.skip]

/-- With room for the component and one byte more, the loop copies all of it. -/
theorem copyUp_fits (hn : (nextName rest).length < n) (hout : out.length + n ≤ MAX_PATH) :
    copyUp out n before rest
      = some (out ++ nextName rest, n - (nextName rest).length,
          Cursor.skip ⟨before, rest⟩ (nextName rest).length) := by
  induction rest generalizing out n before with
  | nil => simp [copyUp, nextName, Cursor.skip]
  | cons b t ih =>
    by_cases hb : b = SLASH
    · simp [copyUp, nextName, Cursor.skip, hb]
    have hname : nextName (b :: t) = b :: nextName t := by simp [nextName, hb]
    rw [hname, length_cons] at hn ⊢
    have hpos : 0 < n - 1 := by omega
    have hlt : out.length < MAX_PATH := by omega
    rw [copyUp, if_neg hb, if_pos hpos, if_pos hlt, ih (by omega) (by simp; omega)]
    have hcount : n - 1 - ((nextName t).length : Int)
        = n - ((nextName t).length + 1 : Nat) := by omega
    rw [hcount]
    simp [Cursor.skip]

/-- Without that room the counter is zero when the loop ends. -/
theorem copyUp_full (hpos : 1 ≤ n) (hn : n ≤ (nextName rest).length)
    (hout : out.length + n ≤ MAX_PATH) :
    ∃ out' p, copyUp out n before rest = some (out', 0, p) := by
  induction rest generalizing out n before with
  | nil =>
    simp [nextName] at hn
    omega
  | cons b t ih =>
    by_cases hb : b = SLASH
    · simp [nextName, hb] at hn
      omega
    have hname : nextName (b :: t) = b :: nextName t := by simp [nextName, hb]
    rw [hname, length_cons] at hn
    by_cases hone : n = 1
    · refine ⟨out, ⟨before, b :: t⟩, ?_⟩
      rw [copyUp, if_neg hb, if_neg (by omega), hone]
      rfl
    have hnext : 0 < n - 1 := by omega
    have hlt : out.length < MAX_PATH := by omega
    rw [copyUp, if_neg hb, if_pos hnext, if_pos hlt]
    exact ih (by omega) (by omega) (by simp; omega)

/-- A counter that is not positive is decremented past zero, and nothing is copied. -/
theorem copyUp_stuck (hn : n ≤ 0) (hne : rest ≠ []) (hhead : ∀ b ∈ rest.head?, b ≠ SLASH) :
    copyUp out n before rest = some (out, n - 1, ⟨before, rest⟩) := by
  cases rest with
  | nil => exact absurd rfl hne
  | cons b t =>
    have hb : b ≠ SLASH := hhead b rfl
    rw [copyUp, if_neg hb, if_neg (by omega)]

theorem popComponent_append (a : Blob) {x : Blob} (hx : SLASH ∉ x) :
    popComponent (a ++ SLASH :: x) = some a := by
  have hdrop : (a ++ SLASH :: x).reverse.dropWhile (· != SLASH) = SLASH :: a.reverse := by
    have hrev : (a ++ SLASH :: x).reverse = x.reverse ++ SLASH :: a.reverse := by simp
    have hall : ∀ b ∈ x.reverse, (b != SLASH) = true := by
      intro b hb
      have hne : b ≠ SLASH := fun heq => hx (heq ▸ mem_reverse.mp hb)
      simpa using hne
    rw [hrev, dropWhile_append_of_pos hall]
    simp
  unfold popComponent
  rw [hdrop]
  simp

/-- A string that starts with a slash has a last one. -/
theorem exists_last_slash (h : SLASH ∈ out) : ∃ a x, out = a ++ SLASH :: x ∧ SLASH ∉ x := by
  induction out with
  | nil => cases h
  | cons b t ih =>
    by_cases ht : SLASH ∈ t
    · obtain ⟨a, x, rfl, hx⟩ := ih ht
      exact ⟨b :: a, x, rfl, hx⟩
    have hb : b = SLASH := by
      rcases mem_cons.mp h with heq | hmem
      · exact heq.symm
      · exact absurd hmem ht
    exact ⟨[], t, by rw [hb]; rfl, ht⟩

end Scans

theorem Tree.findMountAndTrimPath_isSome (T : Tree) {path : Blob} (hpath : endsHere path = true) :
    ∃ r, T.findMountAndTrimPath path = some r := by
  obtain ⟨m, hm, hpoint⟩ := T.rooted
  have hcovers : m.covers path = true := by
    simp [MountPoint.covers, hpoint, hpath]
  have hsome : (T.mounts.find? (fun m => m.covers path)).isSome = true :=
    find?_isSome.mpr ⟨m, hm, hcovers⟩
  obtain ⟨m', hm'⟩ := Option.isSome_iff_exists.mp hsome
  exact ⟨_, by rw [Tree.findMountAndTrimPath, hm']; rfl⟩

/-! ## The turn of a component -/

/-- The loop variables once the component is copied. -/
def Turn.copied (t : Turn) : Turn where
  levels := t.levels
  out := t.out ++ SLASH :: nextName t.p.rest
  n := t.n - 1 - (nextName t.p.rest).length
  p := (t.p.skip (nextName t.p.rest).length).eatSlashes

/-- The space counter says what is left of the buffer. -/
def Turn.Counts (t : Turn) : Prop := t.n = MAX_PATH - 1 - t.out.length

section NameTurn

variable {call : Call} {T : Tree} {t : Turn}

theorem nameTurn_fits (hcount : t.Counts)
    (hfit : t.out.length + 2 + (nextName t.p.rest).length < MAX_PATH) :
    nameTurn call T t
      = if call.follow ∨ t.copied.p.rest ≠ [] then
          checkSymlink call.cred T t.copied (t.out.length + 1)
        else .turn t.copied := by
  have hcount' : t.n = MAX_PATH - 1 - t.out.length := hcount
  have hlen : ((nextName t.p.rest).length : Int) < t.n - 1 := by omega
  have hroom : ((t.out ++ [SLASH]).length : Int) + (t.n - 1) ≤ MAX_PATH := by
    simp
    omega
  have hcopy : copyUp (t.out ++ [SLASH]) (t.n - 1) t.p.before t.p.rest
      = some (t.out ++ SLASH :: nextName t.p.rest, t.n - 1 - (nextName t.p.rest).length,
          t.p.skip (nextName t.p.rest).length) := by
    rw [copyUp_fits hlen hroom]
    simp
  have hne : t.n - 1 - ((nextName t.p.rest).length : Int) ≠ 0 := by omega
  unfold nameTurn
  rw [if_pos (by omega), hcopy]
  dsimp only
  rw [if_neg hne]
  rfl

theorem nameTurn_full (call : Call) (T : Tree) (hcount : t.Counts)
    (hroom : t.out.length + 2 < MAX_PATH)
    (hfull : MAX_PATH ≤ t.out.length + 2 + (nextName t.p.rest).length) :
    nameTurn call T t = .failed .ENAMETOOLONG := by
  have hcount' : t.n = MAX_PATH - 1 - t.out.length := hcount
  have hsize : ((t.out ++ [SLASH]).length : Int) + (t.n - 1) ≤ MAX_PATH := by
    simp
    omega
  have hname : t.n - 1 ≤ (nextName t.p.rest).length := by omega
  obtain ⟨out', p, hcopy⟩ : ∃ out' p,
      copyUp (t.out ++ [SLASH]) (t.n - 1) t.p.before t.p.rest = some (out', 0, p) :=
    copyUp_full (by omega) hname hsize
  unfold nameTurn
  rw [if_pos (by omega), hcopy]
  rfl

/-- With room for the slash only, or for nothing, the counter jumps over zero: the component
is not copied and no error is returned. -/
theorem nameTurn_stuck (call : Call) (T : Tree) (hcount : t.Counts) (hlt : t.out.length < MAX_PATH)
    (hroom : MAX_PATH ≤ t.out.length + 2) (hne : t.p.rest ≠ [])
    (hhead : ∀ b ∈ t.p.rest.head?, b ≠ SLASH) :
    nameTurn call T t
      = checkSymlink call.cred T ⟨t.levels, t.out ++ [SLASH], t.n - 2, t.p.eatSlashes⟩
          (t.out.length + 1) := by
  have hcount' : t.n = MAX_PATH - 1 - t.out.length := hcount
  have hsame : t.p.eatSlashes.rest = t.p.rest := eatSlashes_rest_of_head hhead
  have hn : t.n - 1 - 1 = t.n - 2 := by omega
  unfold nameTurn
  rw [if_pos hlt, copyUp_stuck (by omega) hne hhead]
  dsimp only
  rw [if_neg (by omega), if_pos (.inr (by rw [hsame]; exact hne)), hn]

end NameTurn

end Ish.Fs
