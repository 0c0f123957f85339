import Ish.Fakefs.Path

set_option autoImplicit false

/-! # The metadata database

The two tables of the fakefs database and the statements the file system runs on them
(`fs/fake-db.c`): `paths` gives each path an inode number and `stats` gives each inode number
its metadata. The row id a new `stats` row gets is SQLite's choice, one above the largest in use
as long as there is room; a deleted largest row gives its number back.

For each statement there is one lemma that says what it does to `Db.inode`, the database's
view of a path, and that it keeps `Db.Ok`.
-/

namespace Ish.Fakefs

open Option List Ish.Lib AList

structure IshStat where
  mode : UInt32
  uid : UInt32
  gid : UInt32
  rdev : UInt32
deriving DecidableEq

/-- The largest row id, `2^63 - 1`. -/
def MAX_ROWID : Nat := 9223372036854775807

/-- SQLite's choice of the row id of a new row. It is never `0`, and it is the successor of the
largest one in use unless that is the largest there is. -/
structure Rowids extends Fresh Nat where
  pick_ne_zero : ∀ used, pick used ≠ 0
  pick_nil : pick [] = 1
  pick_succ : ∀ used m, m ∈ used → (∀ i ∈ used, i ≤ m) → m < MAX_ROWID → pick used = m + 1

theorem le_foldr_max {used : List Nat} {i : Nat} (h : i ∈ used) : i ≤ used.foldr max 0 := by
  induction used with
  | nil => cases h
  | cons j used ih =>
    rw [foldr_cons]
    rcases mem_cons.mp h with rfl | h
    · exact le_max_left _ _
    · exact le_trans (ih h) (le_max_right _ _)

/-- Always the successor of the largest. -/
def Rowids.succMax : Rowids where
  pick used := used.foldr max 0 + 1
  pick_notMem := fun used h => by
    have hle := le_foldr_max h
    omega
  pick_ne_zero := fun _ => Nat.succ_ne_zero _
  pick_nil := rfl
  pick_succ := fun used m hm hle _ => by
    have hmax : used.foldr max 0 ≤ m := by
      clear hm
      induction used with
      | nil => exact Nat.zero_le m
      | cons j used ih =>
        rw [foldr_cons]
        exact max_le (hle j mem_cons_self) (ih (fun i hi => hle i (mem_cons_of_mem j hi)))
    have hge := le_foldr_max hm
    omega

structure Db where
  paths : Table Blob Nat
  stats : Table Nat IshStat

namespace Db

variable {p src : Path} {i : Nat}

/-- The inode number of a path; `0` when there is no row. -/
def pathGetInode (db : Db) (path : Blob) : Nat := (db.paths.lookup path).getD 0

/-- Insert a `stats` row and point the path at it. -/
def pathCreate (rowids : Rowids) (db : Db) (path : Blob) (stat : IshStat) : Db × Nat :=
  let inode := rowids.pick db.stats.keys
  ({ paths := db.paths.insert path inode, stats := db.stats.insert inode stat }, inode)

/-- `none` is the `die()` of a source path without a row. -/
def pathLink (db : Db) (src dst : Blob) : Option Db :=
  let inode := db.pathGetInode src
  if inode = 0 then none
  else some { db with paths := db.paths.insert dst inode }

/-- `none` is the `die()` of a path without a row. -/
def pathUnlink (db : Db) (path : Blob) : Option (Db × Nat) :=
  let inode := db.pathGetInode path
  if inode = 0 then none
  else some ({ db with paths := db.paths.erase path }, inode)

/-- The `where` clause of the rename: at `src`, or from `src/` up to `src0`. -/
def renames (src path : Blob) : Bool :=
  (decide (src ++ [SLASH] ≤ path) && decide (path < src ++ [AFTER_SLASH])) || path == src

/-- The first `start` bytes replaced. -/
def changePrefix (path : Blob) (start : Nat) (replacement : Blob) : Blob :=
  replacement ++ path.drop start

def pathRename (db : Db) (src dst : Blob) : Db :=
  { db with
    paths := updateOrReplace (renames src) (fun path => changePrefix path src.length dst) db.paths }

/-- Delete a `stats` row that no path refers to. -/
def tryCleanupInode (db : Db) (inode : Nat) : Db :=
  if inode ∈ db.paths.values then db
  else { db with stats := db.stats.erase inode }

/-! ## The database's view of a path -/

def inode (db : Db) (p : Path) : Option Nat := db.paths.lookup (encode p)

/-- What the schema and the file system keep: the keys are normalized paths, every path refers to
a `stats` row, and no row has the number that stands for none. -/
structure Ok (db : Db) : Prop where
  normal : ∀ b ∈ db.paths, ∃ p, b = encode p
  foreignKey : ∀ b i, db.paths.lookup b = some i → i ∈ db.stats
  inode_ne_zero : ∀ b i, db.paths.lookup b = some i → i ≠ 0

variable {db : Db}

theorem Ok.pathGetInode_eq (h : db.Ok) (hp : db.inode p = some i) :
    db.pathGetInode (encode p) = i ∧ i ≠ 0 := by
  have hi : i ≠ 0 := h.inode_ne_zero _ i hp
  refine ⟨?_, hi⟩
  show (db.inode p).getD 0 = i
  rw [hp, getD_some]

theorem pathGetInode_of_none (hp : db.inode p = none) : db.pathGetInode (encode p) = 0 := by
  show (db.inode p).getD 0 = 0
  rw [hp, getD_none]

theorem lookup_insert_encode (t : Table Blob Nat) (p q : Path) (i : Nat) :
    (t.insert (encode p) i).lookup (encode q)
      = if q = p then some i else t.lookup (encode q) := by
  by_cases hq : q = p
  · rw [if_pos hq, hq, lookup_insert]
  · rw [if_neg hq, lookup_insert_ne (fun h => hq (encode_injective h))]

/-- Inserting a row for a path whose inode has a `stats` row. -/
theorem Ok.insert (h : db.Ok) (p : Path) (stats : Table Nat IshStat)
    (hsub : ∀ j ∈ db.stats, j ∈ stats) (hi : i ∈ stats) (hne : i ≠ 0) :
    Db.Ok { paths := db.paths.insert (encode p) i, stats := stats } := by
  have hrow : ∀ b j, (db.paths.insert (encode p) i).lookup b = some j →
      j = i ∨ db.paths.lookup b = some j := by
    intro b j hj
    by_cases hb : b = encode p
    · rw [hb, lookup_insert, some.injEq] at hj
      exact .inl hj.symm
    · exact .inr ((lookup_insert_ne hb).symm.trans hj)
  refine ⟨?_, ?_, ?_⟩
  · intro b hb
    rcases (mem_insert _).mp hb with rfl | hb
    · exact ⟨p, rfl⟩
    · exact h.normal b hb
  · intro b j hj
    rcases hrow b j hj with rfl | hj
    · exact hi
    · exact hsub j (h.foreignKey b j hj)
  intro b j hj
  rcases hrow b j hj with rfl | hj
  · exact hne
  · exact h.inode_ne_zero b j hj

theorem inode_mem_stats (h : db.Ok) (hp : db.inode p = some i) : i ∈ db.stats :=
  h.foreignKey _ i hp

/-! ## One lemma for each statement -/

theorem pathCreate_spec (rowids : Rowids) (h : db.Ok) (p : Path) (stat : IshStat) :
    (db.pathCreate rowids (encode p) stat).1.Ok ∧
      (db.pathCreate rowids (encode p) stat).1.inode
        = Function.update db.inode p (some (rowids.pick db.stats.keys)) ∧
      ∀ q, db.inode q ≠ some (rowids.pick db.stats.keys) := by
  refine ⟨?_, ?_, ?_⟩
  · refine h.insert p _ ?_ ?_ (rowids.pick_ne_zero _)
    · exact fun j hj => (mem_insert _).mpr (.inr hj)
    · exact (mem_insert _).mpr (.inl rfl)
  · funext q
    rw [Function.update_apply]
    exact lookup_insert_encode db.paths p q _
  · intro q hq
    exact rowids.pick_notMem _ (mem_keys.mp (inode_mem_stats h hq))

theorem pathLink_spec (h : db.Ok) (dst : Path) (hsrc : db.inode src ≠ none) :
    ∃ db', db.pathLink (encode src) (encode dst) = some db' ∧ db'.Ok ∧
      db'.inode = fun q => (linkedFrom src dst q).bind db.inode := by
  obtain ⟨i, hi⟩ := ne_none_iff_exists'.mp hsrc
  obtain ⟨hget, hne⟩ := h.pathGetInode_eq hi
  refine ⟨{ db with paths := db.paths.insert (encode dst) i }, ?_, ?_, ?_⟩
  · unfold pathLink
    rw [hget, if_neg hne]
  · exact h.insert dst db.stats (fun _ hj => hj) (inode_mem_stats h hi) hne
  funext q
  rw [linkedFrom, bind_some, apply_ite db.inode, hi]
  exact lookup_insert_encode db.paths dst q i

/-- Rows that were rows before, under normalized keys. -/
theorem Ok.of_rows (h : db.Ok) {paths : Table Blob Nat}
    (hrows : ∀ b i, paths.lookup b = some i →
      (∃ p, b = encode p) ∧ ∃ b', db.paths.lookup b' = some i) :
    Db.Ok { db with paths := paths } := by
  refine ⟨?_, ?_, ?_⟩
  · intro b hb
    obtain ⟨i, hi⟩ := isSome_iff_exists.mp (lookup_isSome.mpr hb)
    exact (hrows b i hi).1
  · intro b i hi
    obtain ⟨-, b', hb'⟩ := hrows b i hi
    exact h.foreignKey b' i hb'
  intro b i hi
  obtain ⟨-, b', hb'⟩ := hrows b i hi
  exact h.inode_ne_zero b' i hb'

theorem Ok.normal_of_lookup (h : db.Ok) {b : Blob} (hb : db.paths.lookup b = some i) :
    ∃ p, b = encode p :=
  h.normal b (lookup_isSome.mp (by rw [hb]; rfl))

theorem pathUnlink_spec (h : db.Ok) (hp : db.inode p ≠ none) :
    ∃ db' i, db.pathUnlink (encode p) = some (db', i) ∧ db'.Ok ∧
      db'.inode = fun q => (keptFrom p q).bind db.inode := by
  obtain ⟨i, hi⟩ := ne_none_iff_exists'.mp hp
  obtain ⟨hget, hne⟩ := h.pathGetInode_eq hi
  refine ⟨{ db with paths := db.paths.erase (encode p) }, i, ?_, ?_, ?_⟩
  · unfold pathUnlink
    rw [hget, if_neg hne]
  · refine h.of_rows ?_
    intro b j hj
    have hb : b ≠ encode p := by
      rintro rfl
      rw [lookup_erase] at hj
      cases hj
    rw [lookup_erase_ne hb] at hj
    exact ⟨h.normal_of_lookup hj, b, hj⟩
  funext q
  show (db.paths.erase (encode p)).lookup (encode q) = _
  by_cases hq : q = p
  · rw [hq, lookup_erase, keptFrom, if_pos rfl, bind_none]
  rw [lookup_erase_ne (fun h => hq (encode_injective h)), keptFrom, if_neg hq, bind_some]
  rfl

/-! ### Renaming -/

/-- The `where` clause selects `src` and what continues it with a slash. -/
theorem renames_iff (s b : Blob) : renames s b ↔ ∃ r, AtSlash r ∧ b = s ++ r := by
  unfold renames
  rw [Bool.or_eq_true, Bool.and_eq_true, decide_eq_true_iff, decide_eq_true_iff,
    between_slashes_iff, beq_iff_eq]
  constructor
  · rintro (⟨r, rfl⟩ | rfl)
    · exact ⟨SLASH :: r, atSlash_cons r, append_assoc _ _ _⟩
    · exact ⟨[], atSlash_encode [], (append_nil _).symm⟩
  rintro ⟨r, hr, rfl⟩
  cases r with
  | nil => exact .inr (append_nil s)
  | cons c r =>
    rw [hr c rfl]
    exact .inl ⟨r, append_assoc _ _ _⟩

theorem renames_encode (src p : Path) : renames (encode src) (encode p) ↔ src <+: p := by
  rw [renames_iff]
  constructor
  · rintro ⟨r, hr, heq⟩
    cases r with
    | nil =>
      rw [append_nil] at heq
      rw [encode_injective heq]
    | cons c r =>
      rw [hr c rfl] at heq
      obtain ⟨q, rfl⟩ := encode_eq_append_slash heq
      exact prefix_append src q
  · rintro ⟨r, rfl⟩
    exact ⟨encode r, atSlash_encode r, encode_append src r⟩

theorem changePrefix_append (s r dst : Blob) : changePrefix (s ++ r) s.length dst = dst ++ r := by
  rw [changePrefix, drop_left]

theorem changePrefix_encode (src dst r : Path) :
    changePrefix (encode (src ++ r)) (encode src).length (encode dst) = encode (dst ++ r) := by
  rw [encode_append, changePrefix_append, encode_append]

/-- Whatever the two paths are, the statement keeps the database well formed. -/
theorem Ok.pathRename (h : db.Ok) (src dst : Path) :
    (db.pathRename (encode src) (encode dst)).Ok := by
  refine h.of_rows ?_
  intro b i hi
  obtain ⟨k, hk, hb⟩ := lookup_updateOrReplace_from hi
  obtain ⟨p, rfl⟩ := h.normal_of_lookup hk
  refine ⟨?_, encode p, hk⟩
  rcases hb with rfl | ⟨hsel, rfl⟩
  · exact ⟨p, rfl⟩
  obtain ⟨r, rfl⟩ := (renames_encode src p).mp hsel
  exact ⟨dst ++ r, changePrefix_encode src dst r⟩

theorem pathRename_spec (h : db.Ok) {dst : Path} (hapart : Apart src dst)
    (hsrc : db.inode src ≠ none) (hdst : ∀ r, r ≠ [] → db.inode (dst ++ r) = none) :
    (db.pathRename (encode src) (encode dst)).inode
      = fun q => (movedFrom src dst q).bind db.inode := by
  funext q
  exact lookup_move encode_injective (renames_encode src) (changePrefix_encode src dst) h.normal
    hapart hsrc hdst q

/-- **What `path_rename` does to any table.** The rows at `src` and below it move, and replace the
rows that had their new names; no other row changes. -/
theorem pathRename_rows (db : Db) (src dst : Path) (hapart : Apart src dst) :
    let after := (db.pathRename (encode src) (encode dst)).paths
    (∀ r i, AtSlash r → db.paths.lookup (encode src ++ r) = some i →
      after.lookup (encode dst ++ r) = some i) ∧
    (∀ r, AtSlash r → after.lookup (encode src ++ r) = none) ∧
    ∀ b, (∀ r, AtSlash r → b ≠ encode src ++ r) →
      (∀ r, AtSlash r → encode src ++ r ∈ db.paths → b ≠ encode dst ++ r) →
      after.lookup b = db.paths.lookup b := by
  intro after
  have hsel : ∀ {r}, AtSlash r → renames (encode src) (encode src ++ r) := by
    intro r hr
    exact (renames_iff _ _).mpr ⟨r, hr, rfl⟩
  -- what is selected gets a name at or below `dst`, which is not selected
  have hto : ∀ k, renames (encode src) k → ∃ r, AtSlash r ∧ k = encode src ++ r ∧
      changePrefix k (encode src).length (encode dst) = encode dst ++ r := by
    intro k hk
    obtain ⟨r, hr, rfl⟩ := (renames_iff _ k).mp hk
    exact ⟨r, hr, rfl, changePrefix_append _ _ _⟩
  have hne : ∀ {x y}, AtSlash x → AtSlash y → encode dst ++ x ≠ encode src ++ y := by
    intro x y hx hy heq
    exact (prefix_or_prefix_of_encode hx hy heq).elim hapart.notBelow hapart.notAbove
  have hmoves : MovesApart (renames (encode src))
      (fun path => changePrefix path (encode src).length (encode dst)) db.paths.keys := by
    refine ⟨?_, ?_⟩
    · intro k _ k' _ hk hk' heq
      obtain ⟨x, -, rfl, hx⟩ := hto k hk
      obtain ⟨y, -, rfl, hy⟩ := hto k' hk'
      rw [append_cancel_left (hx.symm.trans (heq.trans hy))]
    intro k _ hk hnew
    obtain ⟨x, hx, rfl, heq⟩ := hto k hk
    obtain ⟨y, hy, hnew, -⟩ := hto _ hnew
    exact absurd (heq.symm.trans hnew) (hne hx hy)
  refine ⟨?_, ?_, ?_⟩
  · intro r i hr hi
    rw [← changePrefix_append (encode src)]
    exact lookup_updateOrReplace_moved hmoves hi (hsel hr)
  · intro r hr
    show (updateOrReplace _ _ db.paths).lookup _ = _
    rw [lookup_updateOrReplace_of_ne, if_pos (hsel hr)]
    intro k _ hk heq
    obtain ⟨x, hx, rfl, hx'⟩ := hto k hk
    exact hne hx hr (hx'.symm.trans heq)
  intro b hsrc hdst
  show (updateOrReplace _ _ db.paths).lookup b = _
  rw [lookup_updateOrReplace_of_ne, if_neg]
  · intro hb
    obtain ⟨r, hr, heq, -⟩ := hto b hb
    exact hsrc r hr heq
  intro k hk hsel heq
  obtain ⟨x, hx, rfl, hx'⟩ := hto k hsel
  exact hdst x hx hk (heq.symm.trans hx')

theorem pathRename_rows_below :
    ((⟨(∅ : Table Blob Nat).insert (encode [nameA, nameB]) 7, ∅⟩ : Db).pathRename
      (encode [nameA]) (encode [nameB])).paths.lookup (encode [nameB, nameB]) = some 7 :=
  (pathRename_rows _ [nameA] [nameB] ⟨by decide, by decide⟩).1 (encode [nameB]) 7
    (atSlash_encode _) (lookup_insert _)

/-- Renaming a path to itself. -/
theorem pathRename_self (h : db.Ok) (p : Path) :
    (db.pathRename (encode p) (encode p)).inode = db.inode := by
  have hfix : ∀ k ∈ db.paths, renames (encode p) k →
      changePrefix k (encode p).length (encode p) = k := by
    intro k hk hsel
    obtain ⟨q, rfl⟩ := h.normal k hk
    obtain ⟨r, rfl⟩ := (renames_encode p q).mp hsel
    exact changePrefix_encode p p r
  have hapart : MovesApart (renames (encode p))
      (fun path => changePrefix path (encode p).length (encode p)) db.paths.keys := by
    refine ⟨?_, fun k hk hsel _ => hfix k hk hsel⟩
    intro k hk k' hk' hs hs' heq
    exact (hfix k hk hs).symm.trans (heq.trans (hfix k' hk' hs'))
  funext q
  show (updateOrReplace _ _ db.paths).lookup (encode q) = db.paths.lookup (encode q)
  by_cases hsel : renames (encode p) (encode q)
  · cases hq : db.paths.lookup (encode q) with
    | some v =>
      have hmem : encode q ∈ db.paths := lookup_isSome.mp (by rw [hq]; rfl)
      have hmoved := lookup_updateOrReplace_moved hapart hq hsel
      rwa [hfix _ hmem hsel] at hmoved
    | none =>
      rw [lookup_updateOrReplace_of_ne, if_pos hsel]
      intro k hk hs heq
      rw [hfix k hk hs] at heq
      exact lookup_eq_none.mp hq (heq ▸ hk)
  rw [lookup_updateOrReplace_of_ne, if_neg hsel]
  intro k hk hs heq
  rw [hfix k hk hs] at heq
  exact hsel (heq ▸ hs)

theorem tryCleanupInode_inode (db : Db) (i : Nat) : (db.tryCleanupInode i).inode = db.inode := by
  unfold tryCleanupInode
  split <;> rfl

theorem Ok.tryCleanupInode (h : db.Ok) (i : Nat) : (db.tryCleanupInode i).Ok := by
  unfold Db.tryCleanupInode
  split
  · exact h
  rename_i hunused
  refine ⟨h.normal, ?_, h.inode_ne_zero⟩
  intro b j hj
  refine mem_erase.mpr ⟨?_, h.foreignKey b j hj⟩
  rintro rfl
  exact hunused (Table.mem_values hj)

end Db

end Ish.Fakefs
