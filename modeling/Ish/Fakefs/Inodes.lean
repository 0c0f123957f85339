import Ish.Fakefs.Ops

set_option autoImplicit false

/-! # Open descriptors and their metadata rows

An open descriptor refers to a `stats` row by number. The row may lose its last path while the
descriptor is open; the inode table (`fs/inode.c`) counts the descriptors of each inode so that
the row is deleted only with the last of them.

`generic_openat` learns the number in the transaction of `fakefs_open` and enters it in the inode
table in a later section under `inodes_lock`. Steps are these sections and transactions, of any
number of threads. To say whose row it is, each row carries a generation, which a descriptor
remembers. The generations are not part of the program; no step looks at them.
-/

namespace Ish.Fakefs

open List Option Function Ish.Lib Machine

/-- A descriptor between `fakefs_open` and `fd_close`. -/
inductive FdState where
  /-- `fakefs_open` has returned; the inode table does not know of it. -/
  | opened (inode gen : Nat)
  | registered (inode gen : Nat)
  | closed
deriving DecidableEq

def FdState.holds (i : Nat) : FdState → Bool
  | .registered j _ => j == i
  | _ => false

structure OpenFiles where
  db : Db
  /-- The generation of each row. -/
  gens : Nat → Nat
  nextGen : Nat
  fds : List FdState
  /-- The reference counts of the inode table; `0` is an inode that is not in it. -/
  refs : Nat → Nat
  /-- The inodes of removed paths for which `inode_check_orphaned` is still to come. -/
  pending : List Nat

inductive Attr where
  | uid (v : UInt32)
  | gid (v : UInt32)
  | mode (v : UInt32)

def fakeStatSetattr (stat : IshStat) : Attr → IshStat
  | .uid v => { stat with uid := v }
  | .gid v => { stat with gid := v }
  | .mode v => { stat with mode := (stat.mode &&& S_IFMT) ||| (v &&& ~~~S_IFMT) }

inductive FileStep where
  | open (path : Path) (flags : OpenFlags) (mode : UInt32) (cred : Cred)
  | register (fd : Nat) (ok : Bool)
  | close (fd : Nat)
  | unlink (path : Path)
  | checkOrphaned (ino : Nat)
  | link (src dst : Path)
  | rename (src dst : Path)
  | fsetattr (fd : Nat) (attr : Attr)

inductive FileOut where
  | ok
  | noEntry
  | died
deriving DecidableEq

namespace OpenFiles

variable {db : Db} {j fd : Nat} {path : Path} {cred : Cred} {flags : OpenFlags} {mode : UInt32}

/-- `fakefs_open` makes a row for the path. -/
def creates (s : OpenFiles) (path : Path) (flags : OpenFlags) : Prop :=
  flags.creat = true ∧ s.db.pathGetInode (encode path) = 0

instance (s : OpenFiles) (path : Path) (flags : OpenFlags) : Decidable (s.creates path flags) :=
  inferInstanceAs (Decidable (_ ∧ _))

/-- The transaction of `fakefs_open`, after a successful host call. -/
def openTxn (rowids : Rowids) (s : OpenFiles) (path : Path) (flags : OpenFlags) (mode : UInt32)
    (cred : Cred) : OpenFiles × FileOut :=
  let db := openRow rowids cred s.db path flags mode
  let inode := db.pathGetInode (encode path)
  let gens :=
    if s.creates path flags then update s.gens (rowids.pick s.db.stats.keys) s.nextGen
    else s.gens
  let s' := { s with db := db, gens := gens, nextGen := s.nextGen + 1 }
  if inode = 0 then (s', .noEntry)
  else ({ s' with fds := s.fds ++ [.opened inode (gens inode)] }, .ok)

/-- The section of `generic_openat` under `inodes_lock`: `fstat`, then `inode_get_unlocked`. -/
def register (s : OpenFiles) (fd : Nat) (ok : Bool) : Option (OpenFiles × FileOut) :=
  match s.fds[fd]? with
  | some (.opened inode gen) =>
    match if ok then s.db.stats.lookup inode else none with
    | none => some ({ s with fds := s.fds.set fd .closed }, .noEntry)
    | some _ =>
      some ({ s with
        fds := s.fds.set fd (.registered inode gen)
        refs := update s.refs inode (s.refs inode + 1) }, .ok)
  | _ => none

/-- `fd_close` and its `inode_release`; also the error path of `generic_openat`. -/
def close (s : OpenFiles) (fd : Nat) : Option (OpenFiles × FileOut) :=
  match s.fds[fd]? with
  | some (.registered inode _) =>
    let refs := s.refs inode - 1
    some ({ s with
      fds := s.fds.set fd .closed
      refs := update s.refs inode refs
      db := if refs = 0 then s.db.tryCleanupInode inode else s.db }, .ok)
  | _ => none

/-- The transaction of `fakefs_unlink` and `fakefs_rmdir` after a successful host call. A `die()`
ends the run. -/
def unlinkTxn (s : OpenFiles) (path : Path) : Option (OpenFiles × FileOut) :=
  match s.db.pathUnlink (encode path) with
  | none => none
  | some (db, ino) => some ({ s with db := db, pending := ino :: s.pending }, .ok)

def inodeCheckOrphaned (s : OpenFiles) (ino : Nat) : Option (OpenFiles × FileOut) :=
  if ino ∈ s.pending then
    some ({ s with
      pending := s.pending.erase ino
      db := if s.refs ino = 0 then s.db.tryCleanupInode ino else s.db }, .ok)
  else none

def linkTxn (s : OpenFiles) (src dst : Path) : Option (OpenFiles × FileOut) :=
  match s.db.pathLink (encode src) (encode dst) with
  | none => none
  | some db => some ({ s with db := db }, .ok)

def renameTxn (s : OpenFiles) (src dst : Path) : OpenFiles × FileOut :=
  ({ s with db := s.db.pathRename (encode src) (encode dst) }, .ok)

/-- `inode_read_stat_or_die`, then `inode_write_stat`. -/
def fsetattr (s : OpenFiles) (fd : Nat) (attr : Attr) : Option (OpenFiles × FileOut) :=
  match s.fds[fd]? with
  | some (.registered inode _) =>
    match s.db.stats.lookup inode with
    | none => some (s, .died)
    | some stat =>
      some ({ s with
        db := { s.db with stats := s.db.stats.insert inode (fakeStatSetattr stat attr) } }, .ok)
  | _ => none

def step (rowids : Rowids) (s : OpenFiles) : FileStep → Option (OpenFiles × FileOut)
  | .open path flags mode cred => some (s.openTxn rowids path flags mode cred)
  | .register fd ok => s.register fd ok
  | .close fd => s.close fd
  | .unlink path => s.unlinkTxn path
  | .checkOrphaned ino => s.inodeCheckOrphaned ino
  | .link src dst => s.linkTxn src dst
  | .rename src dst => some (s.renameTxn src dst)
  | .fsetattr fd attr => s.fsetattr fd attr

/-- A mount on which nothing is open. -/
def init (db : Db) (gens : Nat → Nat) (nextGen : Nat) : OpenFiles :=
  { db := db, gens := gens, nextGen := nextGen, fds := [], refs := fun _ => 0, pending := [] }

/-- Every descriptor that is open has its row, and it is the row it was opened with. -/
def RowsKept (s : OpenFiles) : Prop :=
  ∀ inode gen, .registered inode gen ∈ s.fds → inode ∈ s.db.stats ∧ s.gens inode = gen

/-- No row is created under the number of an open that has not reached the inode table yet. -/
def NoReuse (rowids : Rowids) (s : OpenFiles) : FileStep → Prop
  | .open path flags _ _ =>
    s.creates path flags →
      ∀ inode gen, .opened inode gen ∈ s.fds → inode ≠ rowids.pick s.db.stats.keys
  | _ => True

/-! ## The invariant -/

structure Inv (s : OpenFiles) : Prop where
  opened : ∀ inode gen, .opened inode gen ∈ s.fds → s.gens inode = gen
  rows : s.RowsKept
  refs : ∀ i, s.refs i = s.fds.countP (FdState.holds i)

theorem inv_init (db : Db) (gens : Nat → Nat) (nextGen : Nat) : (init db gens nextGen).Inv := by
  refine ⟨?_, ?_, fun _ => rfl⟩
  · intro inode gen hmem
    cases hmem
  intro inode gen hmem
  cases hmem

variable {rowids : Rowids} {s s' : OpenFiles} {o : FileOut}

/-- A registered descriptor keeps its inode in the inode table. -/
theorem Inv.refs_pos (h : s.Inv) {inode gen : Nat} (hmem : .registered inode gen ∈ s.fds) :
    0 < s.refs inode := by
  rw [h.refs, countP_pos_iff]
  exact ⟨_, hmem, beq_self_eq_true inode⟩

/-- Steps that only touch the `paths` table. -/
theorem Inv.of_stats (h : s.Inv) (hstats : db.stats = s.db.stats) (pending : List Nat) :
    Inv { s with db := db, pending := pending } := by
  refine ⟨h.opened, ?_, h.refs⟩
  intro inode gen hmem
  have hrow := h.rows inode gen hmem
  exact ⟨hstats ▸ hrow.1, hrow.2⟩

/-- A row that no descriptor holds may go. -/
theorem mem_stats_cleanup {i : Nat} (hj : j ∈ db.stats) (hne : j ≠ i) :
    j ∈ (db.tryCleanupInode i).stats := by
  unfold Db.tryCleanupInode
  split
  · exact hj
  · exact AList.mem_erase.mpr ⟨hne, hj⟩

theorem Inv.inodeCheckOrphaned (h : s.Inv) {ino : Nat}
    (hs : s.inodeCheckOrphaned ino = some (s', o)) : s'.Inv ∧ o ≠ .died := by
  unfold OpenFiles.inodeCheckOrphaned at hs
  split at hs
  · cases hs
    refine ⟨⟨h.opened, ?_, h.refs⟩, FileOut.noConfusion⟩
    intro inode gen hmem
    have hrow := h.rows inode gen hmem
    refine ⟨?_, hrow.2⟩
    split
    · refine mem_stats_cleanup hrow.1 ?_
      rintro rfl
      have hpos := h.refs_pos hmem
      omega
    · exact hrow.1
  · cases hs

theorem Inv.unlinkTxn (h : s.Inv) (hs : s.unlinkTxn path = some (s', o)) : s'.Inv ∧ o ≠ .died := by
  unfold OpenFiles.unlinkTxn at hs
  split at hs
  · cases hs
  rename_i db ino hunlink
  obtain ⟨rfl, rfl⟩ := Prod.mk.inj (some.inj hs)
  refine ⟨h.of_stats ?_ _, FileOut.noConfusion⟩
  unfold Db.pathUnlink at hunlink
  dsimp only at hunlink
  split at hunlink
  · cases hunlink
  · rw [← (Prod.mk.inj (some.inj hunlink)).1]

theorem Inv.linkTxn (h : s.Inv) {src dst : Path} (hs : s.linkTxn src dst = some (s', o)) :
    s'.Inv ∧ o ≠ .died := by
  unfold OpenFiles.linkTxn at hs
  split at hs
  · cases hs
  rename_i db hlink
  obtain ⟨rfl, rfl⟩ := Prod.mk.inj (some.inj hs)
  refine ⟨h.of_stats ?_ _, FileOut.noConfusion⟩
  unfold Db.pathLink at hlink
  dsimp only at hlink
  split at hlink
  · cases hlink
  · rw [← some.inj hlink]

theorem mem_stats_openRow (hj : j ∈ db.stats) :
    j ∈ (openRow rowids cred db path flags mode).stats := by
  unfold openRow
  split
  · exact (AList.mem_insert _).mpr (.inr hj)
  · exact hj

/-- A new row is nobody's: registered descriptors have theirs, and those on the way are kept
apart by the condition. -/
theorem Inv.openTxn (h : s.Inv) (hfresh : s.NoReuse rowids (.open path flags mode cred)) :
    (s.openTxn rowids path flags mode cred).1.Inv := by
  obtain ⟨gens, hgens⟩ : ∃ f, f = if s.creates path flags then
      update s.gens (rowids.pick s.db.stats.keys) s.nextGen else s.gens := ⟨_, rfl⟩
  have hkeep : ∀ i, (s.creates path flags → i ≠ rowids.pick s.db.stats.keys) →
      gens i = s.gens i := by
    intro i hi
    rw [hgens]
    split
    · rename_i hc
      exact update_of_ne (hi hc) _ _
    · rfl
  have hopened : ∀ inode gen, .opened inode gen ∈ s.fds → gens inode = gen := by
    intro inode gen hmem
    rw [hkeep inode (fun hc => hfresh hc inode gen hmem)]
    exact h.opened inode gen hmem
  have hrows : ∀ inode gen, .registered inode gen ∈ s.fds →
      inode ∈ (openRow rowids cred s.db path flags mode).stats ∧ gens inode = gen := by
    intro inode gen hmem
    have hrow := h.rows inode gen hmem
    refine ⟨mem_stats_openRow hrow.1, ?_⟩
    rw [hkeep inode ?_]
    · exact hrow.2
    rintro - rfl
    exact rowids.pick_notMem _ (AList.mem_keys.mp hrow.1)
  unfold OpenFiles.openTxn
  dsimp only
  rw [← hgens]
  split
  · exact ⟨hopened, hrows, h.refs⟩
  refine ⟨?_, ?_, ?_⟩
  · intro inode gen hmem
    rcases mem_append.mp hmem with hold | hnew
    · exact hopened inode gen hold
    rw [mem_singleton, FdState.opened.injEq] at hnew
    rw [hnew.2, hnew.1]
  · intro inode gen hmem
    rcases mem_append.mp hmem with hold | hnew
    · exact hrows inode gen hold
    rw [mem_singleton] at hnew
    cases hnew
  intro i
  rw [countP_append, h.refs i]
  rfl

/-! ### Registering and closing -/

/-- The number of descriptors on an inode when one descriptor changes its state. -/
theorem countP_set (fds : List FdState) {old : FdState} (hold : fds[fd]? = some old) (new : FdState)
    (i : Nat) : (fds.set fd new).countP (FdState.holds i) + (if old.holds i then 1 else 0)
      = fds.countP (FdState.holds i) + if new.holds i then 1 else 0 := by
  obtain ⟨hlt, hget⟩ := List.getElem?_eq_some_iff.mp hold
  rw [List.countP_set hlt, hget]
  have hle : (if old.holds i then 1 else 0) ≤ fds.countP (FdState.holds i) := by
    split
    · rename_i hi
      exact countP_pos_iff.mpr ⟨old, mem_of_getElem? hold, hi⟩
    · exact Nat.zero_le _
  omega

theorem Inv.opened_set (h : s.Inv) {new : FdState} (hnew : ∀ j g, .opened j g ≠ new) (j g : Nat)
    (hj : .opened j g ∈ s.fds.set fd new) : s.gens j = g :=
  h.opened j g ((mem_or_eq_of_mem_set hj).resolve_right (hnew j g))

theorem Inv.register (h : s.Inv) {ok : Bool} (hs : s.register fd ok = some (s', o)) :
    s'.Inv ∧ o ≠ .died := by
  unfold OpenFiles.register at hs
  split at hs
  · rename_i inode gen hfd
    have hmem : .opened inode gen ∈ s.fds := mem_of_getElem? hfd
    split at hs
    · cases hs
      refine ⟨⟨?_, ?_, ?_⟩, FileOut.noConfusion⟩
      · exact h.opened_set (by simp)
      · intro j g hj
        exact h.rows j g ((mem_or_eq_of_mem_set hj).resolve_right (by simp))
      intro i
      have hcount := countP_set s.fds hfd .closed i
      have hrefs := h.refs i
      simp only [FdState.holds, Bool.false_eq_true, if_false] at hcount
      show s.refs i = (s.fds.set fd .closed).countP (FdState.holds i)
      omega
    · rename_i stat hstat
      have hrow : inode ∈ s.db.stats := by
        split at hstat
        · exact AList.lookup_isSome.mp (by rw [hstat]; rfl)
        · cases hstat
      cases hs
      refine ⟨⟨?_, ?_, ?_⟩, FileOut.noConfusion⟩
      · exact h.opened_set (by simp)
      · intro j g hj
        rcases mem_or_eq_of_mem_set hj with hj | hj
        · exact h.rows j g hj
        obtain ⟨rfl, rfl⟩ := FdState.registered.inj hj
        exact ⟨hrow, h.opened j g hmem⟩
      intro i
      have hcount := countP_set s.fds hfd (.registered inode gen) i
      have hrefs := h.refs i
      simp only [FdState.holds, Bool.false_eq_true, if_false, beq_iff_eq] at hcount
      show update s.refs inode (s.refs inode + 1) i
        = (s.fds.set fd (.registered inode gen)).countP (FdState.holds i)
      by_cases hi : i = inode
      · subst hi
        rw [update_self]
        simp only [if_true] at hcount
        omega
      rw [update_of_ne hi]
      rw [if_neg (Ne.symm hi)] at hcount
      omega
  · cases hs

/-- The row goes with the last descriptor, and not before. -/
theorem Inv.close (h : s.Inv) (hs : s.close fd = some (s', o)) : s'.Inv ∧ o ≠ .died := by
  unfold OpenFiles.close at hs
  split at hs
  · rename_i inode gen hfd
    obtain ⟨rfl, rfl⟩ := Prod.mk.inj (some.inj hs)
    have hcount : ∀ i,
        (s.fds.set fd .closed).countP (FdState.holds i) + (if inode = i then 1 else 0)
          = s.fds.countP (FdState.holds i) := by
      intro i
      have hset := countP_set s.fds hfd .closed i
      simpa only [FdState.holds, Bool.false_eq_true, if_false, beq_iff_eq, Nat.add_zero] using hset
    have hrefs : ∀ i, update s.refs inode (s.refs inode - 1) i
        = (s.fds.set fd .closed).countP (FdState.holds i) := by
      intro i
      have hi := hcount i
      have hri := h.refs i
      by_cases heq : i = inode
      · subst heq
        rw [update_self]
        simp only [if_true] at hi
        omega
      rw [update_of_ne heq]
      rw [if_neg (Ne.symm heq)] at hi
      omega
    refine ⟨⟨?_, ?_, hrefs⟩, FileOut.noConfusion⟩
    · exact h.opened_set (by simp)
    intro j g hj
    rcases mem_or_eq_of_mem_set hj with hold | hold
    · have hrow := h.rows j g hold
      refine ⟨?_, hrow.2⟩
      split
      · rename_i hlast
        refine mem_stats_cleanup hrow.1 ?_
        rintro rfl
        -- another descriptor on the same inode would still be counted
        have hzero := hrefs j
        rw [update_self, hlast] at hzero
        have hpos : 0 < (s.fds.set fd .closed).countP (FdState.holds j) :=
          countP_pos_iff.mpr ⟨_, hj, beq_self_eq_true j⟩
        omega
      · exact hrow.1
    · cases hold
  · cases hs

theorem Inv.fsetattr (h : s.Inv) {attr : Attr} (hs : s.fsetattr fd attr = some (s', o)) :
    s'.Inv ∧ o ≠ .died := by
  unfold OpenFiles.fsetattr at hs
  split at hs
  · rename_i inode gen hfd
    have hrow := (h.rows inode gen (mem_of_getElem? hfd)).1
    split at hs
    · rename_i hnone
      exact absurd hrow (AList.lookup_eq_none.mp hnone)
    cases hs
    refine ⟨⟨h.opened, ?_, h.refs⟩, FileOut.noConfusion⟩
    intro j g hj
    have hj' := h.rows j g hj
    exact ⟨(AList.mem_insert _).mpr (.inr hj'.1), hj'.2⟩
  · cases hs

/-- A step that meets the condition keeps the invariant, and `fakefs_fsetattr` finds its row. -/
theorem Inv.step (h : s.Inv) {a : FileStep} (hfresh : s.NoReuse rowids a)
    (hs : s.step rowids a = some (s', o)) : s'.Inv ∧ o ≠ .died := by
  cases a with
  | «open» path flags mode cred =>
    have hinv : (s.openTxn rowids path flags mode cred).1.Inv := h.openTxn hfresh
    have hout : (s.openTxn rowids path flags mode cred).2 ≠ .died := by
      unfold OpenFiles.openTxn
      dsimp only
      split
      · exact FileOut.noConfusion
      · exact FileOut.noConfusion
    rw [some.inj hs] at hinv hout
    exact ⟨hinv, hout⟩
  | register fd ok => exact h.register hs
  | close fd => exact h.close hs
  | unlink path => exact h.unlinkTxn hs
  | checkOrphaned ino => exact h.inodeCheckOrphaned hs
  | link src dst => exact h.linkTxn hs
  | rename src dst =>
    cases hs
    have hstats : (s.db.pathRename (encode src) (encode dst)).stats = s.db.stats := rfl
    exact ⟨h.of_stats hstats s.pending, FileOut.noConfusion⟩
  | fsetattr fd attr => exact h.fsetattr hs

end OpenFiles

/-! ## All interleavings -/

def openFilesMachine (rowids : Rowids) : Machine OpenFiles FileStep FileOut :=
  { step := OpenFiles.step rowids }

/-- **Descriptors keep their rows.** In every interleaving in which no row is created under the
number of an open on its way to the inode table, every open descriptor has the row it was opened
with, and `fakefs_fsetattr` never dies. -/
theorem open_descriptors_keep_rows (rowids : Rowids) (db : Db) (gens : Nat → Nat) (nextGen : Nat)
    (steps : List FileStep) (s : OpenFiles) (os : List FileOut)
    (hrun : (openFilesMachine rowids).run (.init db gens nextGen) steps = some (s, os))
    (hfresh : (openFilesMachine rowids).Along (OpenFiles.NoReuse rowids)
      (.init db gens nextGen) steps) :
    s.RowsKept ∧ .died ∉ os := by
  refine ⟨?_, ?_⟩
  · have hinv : s.Inv := run_inv (I := OpenFiles.Inv)
      (fun _ _ _ _ hI hP hstep => (hI.step hP hstep).1)
      (OpenFiles.inv_init db gens nextGen) hfresh hrun
    exact hinv.rows
  · exact run_out (I := OpenFiles.Inv) (fun _ _ _ _ hI hP hstep => hI.step hP hstep)
      (OpenFiles.inv_init db gens nextGen) hfresh hrun

/-- `/a` is created, removed and its row deleted before the open reaches the inode table; `/b`
gets the same number, and the descriptor of `/a` now works on the row of `/b`. -/
def reuseRun : List FileStep :=
  [.open [nameA] ⟨true, false⟩ 420 ⟨0, 0⟩, .unlink [nameA], .checkOrphaned 2,
   .open [nameB] ⟨true, false⟩ 420 ⟨0, 0⟩, .register 0 true]

theorem open_uses_row_of_another_file :
    ∃ s os, (openFilesMachine Rowids.succMax).run (.init rootMount.db (fun _ => 0) 1)
        reuseRun = some (s, os) ∧
      s.fds = [.registered 2 1, .opened 2 2] ∧ s.db.inode [nameB] = some 2 ∧ s.gens 2 = 2 ∧
      ¬ s.RowsKept := by
  refine ⟨_, _, rfl, by decide +kernel, by decide +kernel, by decide +kernel, ?_⟩
  intro hkept
  exact absurd (hkept 2 1 mem_cons_self).2 (by decide +kernel)

/-- Opened, registered, removed, and used after that. -/
def unlinkedRun : List FileStep :=
  [.open [nameA] ⟨true, false⟩ 420 ⟨0, 0⟩, .register 0 true, .unlink [nameA], .checkOrphaned 2,
   .fsetattr 0 (.uid 7)]

theorem open_descriptors_keep_rows_unlinked :
    ∃ s os, (openFilesMachine Rowids.succMax).run (.init rootMount.db (fun _ => 0) 1)
        unlinkedRun = some (s, os) ∧
      s.db.inode [nameA] = none ∧ s.fds = [.registered 2 1] ∧ s.RowsKept ∧ .died ∉ os := by
  refine ⟨_, _, rfl, by decide +kernel, by decide +kernel, ?_⟩
  refine
    open_descriptors_keep_rows Rowids.succMax rootMount.db (fun _ => 0) 1 unlinkedRun _ _ rfl ?_
  unfold unlinkedRun
  iterate 5 rw [along_cons_of_step rfl]
  refine ⟨?_, trivial, trivial, trivial, trivial, trivial⟩
  intro _ inode gen hmem
  cases hmem

end Ish.Fakefs
