import Ish.Fs.Bounds

set_option autoImplicit false

/-! # The list of mounts

`mount_find` (`fs/mount.c`) takes the first mount of the list that covers the path. That it is the
one with the longest point rests on the order of the list, which only `do_mount` makes and
`do_umount` keeps: longer points come first, and of two points of one length the one that was
mounted later.

What the list is for is said by a second machine, in which the mounts that were made and not removed
stand in the order they were made. The list has the same mounts after the same calls with the same
results.
-/

namespace Ish.Fs

open List Ish.Lib Ish.Fakefs

/-- A mount, with the number of those that were made before it, and whether the `umount` of its
file system returns (that of `tmpfs` dies with a `TODO`). -/
structure Mount extends MountPoint where
  serial : Nat
  umountReturns : Bool

structure Mounts where
  list : List Mount
  made : Nat

inductive MountOp where
  /-- `err` is the want of memory, or what the `mount` of the file system fails with. -/
  | mount (point : Blob) (fs : FsOps) (umountReturns : Bool) (err : Option Errno)
  /-- `refcount` is that of the mount that is found. -/
  | umount (point : Blob) (refcount : Nat)

namespace Mounts

def EBUSY : Errno := .other 16
def EINVAL : Errno := .other 22

variable {σ σ' : Mounts} {op : MountOp} {m m' : Mount} {path : Blob}

/-- A new mount goes before the first one whose point is not longer. -/
def doMount (σ : Mounts) (point : Blob) (fs : FsOps) (umountReturns : Bool) (err : Option Errno) :
    Mounts × Option Errno :=
  match err with
  | some e => (σ, some e)
  | none =>
    (⟨σ.list.orderedInsert (fun new m => m.point.length ≤ new.point.length)
      ⟨⟨point, fs⟩, σ.made, umountReturns⟩, σ.made + 1⟩, none)

/-- With `mount_remove`. There is no next state when the `umount` of the file system dies. -/
def doUmount (σ : Mounts) (point : Blob) (refcount : Nat) : Option (Mounts × Option Errno) :=
  match σ.list.find? (fun m => m.point == point) with
  | none => some (σ, some EINVAL)
  | some m =>
    if refcount ≠ 0 then some (σ, some EBUSY)
    else if !m.umountReturns then none
    else some (⟨σ.list.eraseP (fun m => m.point == point), σ.made⟩, none)

def step (σ : Mounts) : MountOp → Option (Mounts × Option Errno)
  | .mount point fs umountReturns err => some (σ.doMount point fs umountReturns err)
  | .umount point refcount => σ.doUmount point refcount

def machine : Machine Mounts MountOp (Option Errno) := ⟨step⟩

/-- The root mount. -/
def init (fs : FsOps) (umountReturns : Bool) : Mounts := ⟨[⟨⟨[], fs⟩, 0, umountReturns⟩], 1⟩

/-- The mounts that were made and not removed, the latest first. A `do_umount` removes the latest
with its point. -/
def liveStep (live : Mounts) : MountOp → Option (Mounts × Option Errno)
  | .mount _ _ _ (some e) => some (live, some e)
  | .mount point fs umountReturns none =>
    some (⟨⟨⟨point, fs⟩, live.made, umountReturns⟩ :: live.list, live.made + 1⟩, none)
  | .umount point refcount => live.doUmount point refcount

def liveMachine : Machine Mounts MountOp (Option Errno) := ⟨liveStep⟩

def mountFind (σ : Mounts) (path : Blob) : Option Mount := σ.list.find? (fun m => m.covers path)

/-- The bytes behind the point are copied to the start of the path. -/
def findMountAndTrimPath (σ : Mounts) (path : Blob) : Option (Mount × Blob) :=
  (σ.mountFind path).map fun m => (m, path.drop m.point.length)

/-- The tree that path resolution sees. -/
theorem findMountAndTrimPath_tree (T : Tree) (hT : T.mounts = σ.list.map Mount.toMountPoint) :
    T.findMountAndTrimPath path =
      (σ.findMountAndTrimPath path).map fun r => (r.1.fs, r.2) := by
  unfold Tree.findMountAndTrimPath findMountAndTrimPath mountFind
  rw [hT, find?_map, Option.map_map, Option.map_map]
  rfl

/-! ## The order of the list -/

/-- `m` stands before `m'`. -/
def Before (m m' : Mount) : Prop :=
  m'.point.length < m.point.length ∨
    (m'.point.length = m.point.length ∧ m'.serial < m.serial)

theorem Before.length_le (h : Before m m') : m'.point.length ≤ m.point.length := by
  rcases h with hlt | ⟨heq, -⟩
  · exact hlt.le
  · exact heq.le

structure Ordered (σ : Mounts) : Prop where
  sorted : σ.list.Pairwise Before
  made : ∀ m ∈ σ.list, m.serial < σ.made
  pos : 0 < σ.made
  root : ∀ m ∈ σ.list, m.serial = 0 → m.point = []

theorem pairwise_insert {l : List Mount} (h : l.Pairwise Before)
    (hnew : ∀ x ∈ l, x.serial < m.serial) :
    (l.orderedInsert (fun new m => m.point.length ≤ new.point.length) m).Pairwise Before := by
  induction l with
  | nil => exact pairwise_singleton _ _
  | cons a l ih =>
    obtain ⟨ha, hl⟩ := pairwise_cons.mp h
    rw [orderedInsert_cons]
    split
    · rename_i hle
      refine pairwise_cons.mpr ⟨?_, h⟩
      intro x hx
      -- what follows `a` is not longer than `a`
      have hxa : x.point.length ≤ a.point.length := by
        rcases mem_cons.mp hx with rfl | hx
        · exact le_rfl
        · exact (ha x hx).length_le
      rcases (hxa.trans hle).lt_or_eq with hlt | heq
      · exact .inl hlt
      · exact .inr ⟨heq, hnew x hx⟩
    · rename_i hlonger
      refine pairwise_cons.mpr ⟨?_, ih hl fun x hx => hnew x (mem_cons_of_mem a hx)⟩
      intro x hx
      rcases mem_orderedInsert _ |>.mp hx with rfl | hx
      · exact .inl (Nat.lt_of_not_le hlonger)
      · exact ha x hx

theorem Ordered.doMount (h : σ.Ordered) (point : Blob) (fs : FsOps) (umountReturns : Bool)
    (err : Option Errno) : (σ.doMount point fs umountReturns err).1.Ordered := by
  cases err with
  | some e => exact h
  | none =>
    refine ⟨pairwise_insert h.sorted h.made, ?_, Nat.succ_pos _, ?_⟩
    · intro m hm
      rcases mem_orderedInsert _ |>.mp hm with rfl | hm
      · exact Nat.lt_succ_self _
      · exact Nat.lt_succ_of_lt (h.made m hm)
    intro m hm hzero
    rcases mem_orderedInsert _ |>.mp hm with rfl | hm
    · exact absurd hzero h.pos.ne'
    · exact h.root m hm hzero

theorem Ordered.eraseP (h : σ.Ordered) (p : Mount → Bool) :
    Ordered ⟨σ.list.eraseP p, σ.made⟩ := by
  have hsub : (σ.list.eraseP p).Sublist σ.list := eraseP_sublist
  exact ⟨h.sorted.sublist hsub, fun m hm => h.made m (hsub.subset hm), h.pos,
    fun m hm => h.root m (hsub.subset hm)⟩

theorem init_ordered (fs : FsOps) (umountReturns : Bool) : (init fs umountReturns).Ordered := by
  refine ⟨pairwise_singleton _ _, ?_, Nat.one_pos, ?_⟩
  · intro m hm
    rw [mem_singleton.mp hm]
    exact Nat.one_pos
  · intro m hm _
    rw [mem_singleton.mp hm]

/-! ## The mounts made and not removed -/

/-- The first element of an ordered list with a property, and any other element with it. -/
theorem pairwise_find {R : Mount → Mount → Prop} {l : List Mount} {p : Mount → Bool}
    (h : l.Pairwise R) (hm : l.find? p = some m) (hm' : m' ∈ l) (hp : p m' = true) :
    m' = m ∨ R m m' := by
  obtain ⟨-, as, bs, rfl, has⟩ := find?_eq_some_iff_append.mp hm
  rcases mem_append.mp hm' with hmem | hmem
  · have hnot := has m' hmem
    simp [hp] at hnot
  rcases mem_cons.mp hmem with rfl | hmem
  · exact .inl rfl
  obtain ⟨-, htail, -⟩ := pairwise_append.mp h
  exact .inr ((pairwise_cons.mp htail).1 m' hmem)

theorem perm_cons_eraseP {l : List Mount} {p : Mount → Bool} (hm : l.find? p = some m) :
    l ~ m :: l.eraseP p := by
  obtain ⟨hp, as, bs, rfl, has⟩ := find?_eq_some_iff_append.mp hm
  have has' : ∀ x ∈ as, ¬ p x = true := fun x hx => by simpa using has x hx
  rw [eraseP_append_right _ has', eraseP_cons_of_pos hp]
  exact perm_middle

/-- The list has the mounts that were made and not removed, and these are in the order in which they
were made. -/
structure Live (σ live : Mounts) : Prop where
  ordered : σ.Ordered
  latest : live.list.Pairwise (fun m m' => m'.serial < m.serial)
  perm : σ.list ~ live.list
  made : σ.made = live.made

variable {live : Mounts}

/-- The mount with a point that `do_umount` finds is the latest of those with it. -/
theorem Live.find (h : Live σ live) (point : Blob) :
    live.list.find? (fun m => m.point == point) = σ.list.find? (fun m => m.point == point) := by
  cases hm : σ.list.find? (fun m => m.point == point) with
  | none =>
    refine find?_eq_none.mpr ?_
    intro m' hm'
    exact find?_eq_none.mp hm m' (h.perm.mem_iff.mpr hm')
  | some m =>
    have hmem := h.perm.mem_iff.mp (mem_of_find?_eq_some hm)
    have hpoint : (m.point == point) = true :=
      find?_some (p := fun m : Mount => m.point == point) hm
    obtain ⟨m', hm'⟩ := Option.isSome_iff_exists.mp
      (find?_isSome (p := fun m : Mount => m.point == point) |>.mpr ⟨m, hmem, hpoint⟩)
    have hpoint' : (m'.point == point) = true :=
      find?_some (p := fun m : Mount => m.point == point) hm'
    rw [hm', Option.some.injEq]
    -- each of the two would have to be later than the other
    rcases pairwise_find h.latest hm' hmem hpoint with heq | hlater
    · exact heq.symm
    rcases pairwise_find h.ordered.sorted hm
      (h.perm.mem_iff.mpr (mem_of_find?_eq_some hm')) hpoint' with heq | hlt | ⟨-, hlt⟩
    · exact heq
    · rw [beq_iff_eq.mp hpoint, beq_iff_eq.mp hpoint'] at hlt
      exact absurd hlt (lt_irrefl _)
    · exact absurd hlt hlater.not_gt

theorem Live.doUmount {point : Blob} {refcount : Nat} {o : Option Errno} (h : Live σ live)
    (hstep : σ.doUmount point refcount = some (σ', o)) :
    ∃ live', live.doUmount point refcount = some (live', o) ∧ Live σ' live' := by
  have hfind := h.find point
  unfold Mounts.doUmount at hstep ⊢
  rw [hfind]
  cases hm : σ.list.find? (fun m => m.point == point) with
  | none =>
    simp only [hm, Option.some.injEq, Prod.mk.injEq] at hstep ⊢
    obtain ⟨rfl, rfl⟩ := hstep
    exact ⟨live, ⟨rfl, rfl⟩, h⟩
  | some m =>
    rw [hm] at hstep hfind
    dsimp only at hstep ⊢
    split_ifs at hstep with hbusy hdies <;> cases hstep
    · exact ⟨live, if_pos hbusy, h⟩
    rw [if_neg hbusy, if_neg hdies]
    refine ⟨_, rfl, h.ordered.eraseP _, h.latest.sublist eraseP_sublist, ?_, h.made⟩
    -- both lists lose the mount that is found
    exact ((perm_cons_eraseP hm).symm.trans (h.perm.trans (perm_cons_eraseP hfind))).cons_inv

theorem Live.step {o : Option Errno} (h : Live σ live) (hstep : machine.step σ op = some (σ', o)) :
    ∃ live', liveMachine.step live op = some (live', o) ∧ Live σ' live' := by
  cases op with
  | mount point fs umountReturns err =>
    have hordered := h.ordered.doMount point fs umountReturns err
    cases err with
    | some e =>
      cases hstep
      exact ⟨live, rfl, h⟩
    | none =>
      cases hstep
      refine ⟨_, rfl, hordered, pairwise_cons.mpr ⟨?_, h.latest⟩, ?_, congrArg (· + 1) h.made⟩
      · intro m hm
        rw [← h.made]
        exact h.ordered.made m (h.perm.mem_iff.mpr hm)
      · rw [← h.made]
        exact (perm_orderedInsert _ _ _).trans (h.perm.cons _)
  | umount point refcount => exact h.doUmount hstep

theorem init_live (fs : FsOps) (umountReturns : Bool) :
    Live (init fs umountReturns) (init fs umountReturns) :=
  ⟨init_ordered fs umountReturns, pairwise_singleton _ _, Perm.refl _, rfl⟩

/-! ## The mount of a path -/

theorem Ordered.mountFind_isSome (h : σ.Ordered) (hroot : ∃ m ∈ σ.list, m.serial = 0)
    (hpath : pathIsNormalized path = true) : ∃ m, σ.mountFind path = some m := by
  obtain ⟨m, hm, hserial⟩ := hroot
  have hends : endsHere path = true := endsHere_of_atSlash (atSlash_of_pathIsNormalized hpath)
  have hcovers : m.covers path = true := by
    simp [MountPoint.covers, h.root m hm hserial, hends]
  exact Option.isSome_iff_exists.mp (find?_isSome.mpr ⟨m, hm, hcovers⟩)

/-- **The longest point.** However mounts are made and removed, the list has those that were made
and not removed, and the longer points come first. As long as the root mount is there, every
normalized path is given to the mount with the longest point that covers it, the latest of those
with that point, and what it is given is the rest of the path. -/
theorem run_finds_longest {fs : FsOps} {umountReturns : Bool} {ops : List MountOp} {σ : Mounts}
    {outs : List (Option Errno)}
    (hrun : machine.run (init fs umountReturns) ops = some (σ, outs)) :
    ∃ live, liveMachine.run (init fs umountReturns) ops = some (live, outs) ∧
      σ.list ~ live.list ∧ σ.list.Pairwise (fun m m' => m'.point.length ≤ m.point.length) ∧
      ((∃ m ∈ live.list, m.serial = 0) → ∀ path, pathIsNormalized path = true →
        ∃ m rest, σ.findMountAndTrimPath path = some (m, rest) ∧ m ∈ live.list ∧
          m.covers path = true ∧ m.point ++ rest = path ∧
          ∀ m' ∈ live.list, m'.covers path = true → m'.point.length ≤ m.point.length ∧
            (m'.point = m.point → m'.serial ≤ m.serial)) := by
  obtain ⟨live, hlive, h⟩ := Machine.run_sim (P := fun _ _ => True)
    (fun _ _ _ _ _ h _ hstep => h.step hstep) (init_live fs umountReturns)
    (Machine.along_of_forall (fun _ _ _ => trivial) _) hrun
  refine ⟨live, hlive, h.perm, h.ordered.sorted.imp Before.length_le, ?_⟩
  rintro ⟨root, hroot, hserial⟩ path hpath
  obtain ⟨m, hm⟩ :=
    h.ordered.mountFind_isSome ⟨root, h.perm.mem_iff.mpr hroot, hserial⟩ hpath
  have hcovers : m.covers path = true := by simpa using find?_some hm
  have hpoint : m.point <+: path := by
    simp only [MountPoint.covers, Bool.and_eq_true, isPrefixOf_iff_prefix] at hcovers
    exact hcovers.1
  refine ⟨m, path.drop m.point.length, ?_, h.perm.mem_iff.mp (mem_of_find?_eq_some hm), hcovers,
    prefix_iff_eq_append.mp hpoint, ?_⟩
  · unfold findMountAndTrimPath
    rw [hm]
    rfl
  intro m' hm' hcovers'
  rcases pairwise_find h.ordered.sorted hm (h.perm.mem_iff.mpr hm') hcovers' with rfl | hbefore
  · exact ⟨le_rfl, fun _ => le_rfl⟩
  refine ⟨hbefore.length_le, ?_⟩
  intro hsame
  rcases hbefore with hlt | ⟨-, hlt⟩
  · exact absurd (congrArg length hsame) hlt.ne
  · exact hlt.le

/-- Twice something is mounted at `/a`, and once it is removed: the path `/a/b`. -/
theorem run_finds_longest_below :
    ∃ (σ live : Mounts) (outs : _), machine.run (init noLinks true)
        [.mount [SLASH, 97] noLinks true none, .mount [SLASH, 97] noLinks true none,
          .umount [SLASH, 97] 0] = some (σ, outs) ∧
      live.list.map Mount.serial = [1, 0] ∧ σ.list ~ live.list ∧
      ∃ m rest, σ.findMountAndTrimPath [SLASH, 97, SLASH, 98] = some (m, rest) ∧
        m.point ++ rest = [SLASH, 97, SLASH, 98] := by
  have hrun : machine.run (init noLinks true) [.mount [SLASH, 97] noLinks true none,
    .mount [SLASH, 97] noLinks true none, .umount [SLASH, 97] 0] = some (_, _) := rfl
  obtain ⟨live, hlive, hperm, -, hfind⟩ := run_finds_longest hrun
  have hlist : live.list.map Mount.serial = [1, 0] := by
    cases hlive
    rfl
  obtain ⟨m, rest, hm, -, -, hpath, -⟩ :=
    hfind (by cases hlive; exact ⟨_, mem_cons_of_mem _ mem_cons_self, rfl⟩)
      [SLASH, 97, SLASH, 98] (by decide)
  exact ⟨_, live, _, hrun, hlist, hperm, m, rest, hm, hpath⟩

/-! ## Mounting and unmounting -/

/-- A new mount goes behind mounts with other points. -/
theorem insert_split (new : Mount) (l : List Mount) :
    ∃ as bs, l = as ++ bs ∧
      l.orderedInsert (fun new m => m.point.length ≤ new.point.length) new = as ++ new :: bs ∧
      ∀ m ∈ as, m.point ≠ new.point := by
  induction l with
  | nil => exact ⟨[], [], rfl, rfl, by simp⟩
  | cons a l ih =>
    rw [orderedInsert_cons]
    split
    · exact ⟨[], a :: l, rfl, rfl, by simp⟩
    · rename_i hlonger
      obtain ⟨as, bs, rfl, hinsert, has⟩ := ih
      refine ⟨a :: as, bs, rfl, by rw [hinsert]; rfl, forall_mem_cons.mpr ⟨?_, has⟩⟩
      exact fun h => hlonger (by rw [h])

/-- **`do_umount` takes away what was mounted last at its point**, if the `umount` of that file
system returns. -/
theorem doUmount_doMount (σ : Mounts) (point : Blob) (fs : FsOps) (umountReturns : Bool) :
    (σ.doMount point fs umountReturns none).1.doUmount point 0 =
      if umountReturns then some (⟨σ.list, σ.made + 1⟩, none) else none := by
  obtain ⟨as, bs, hlist, hinsert, has⟩ :=
    insert_split ⟨⟨point, fs⟩, σ.made, umountReturns⟩ σ.list
  have hfind : (as ++ ⟨⟨point, fs⟩, σ.made, umountReturns⟩ :: bs).find?
      (fun m => m.point == point) = some ⟨⟨point, fs⟩, σ.made, umountReturns⟩ :=
    find?_eq_some_iff_append.mpr ⟨by simp, as, bs, rfl, fun m hm => by simpa using has m hm⟩
  have herase : (as ++ ⟨⟨point, fs⟩, σ.made, umountReturns⟩ :: bs).eraseP
      (fun m => m.point == point) = σ.list := by
    rw [eraseP_append_right _ (fun m hm => by simpa using has m hm), eraseP_cons_of_pos (by simp),
      hlist]
  unfold doMount doUmount
  dsimp only
  rw [hinsert, hfind, herase]
  cases umountReturns <;> rfl

end Mounts

end Ish.Fs
