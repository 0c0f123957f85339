import Ish.Lib.Ranges

set_option autoImplicit false

/-! # Record locks

`struct file_lock` and the tests on pairs of locks, from `fs/lock.c`. A lock covers the bytes
from `start` to `end`, both included, and both are `off_t_`: signed 64-bit numbers that wrap.
The list of an inode is read through `Holds`: which type of lock an owner holds on a byte.

The only place where the wrapping shows in the tests is `file_locks_adjacent`, which takes one
from a `start`: a lock that begins at the smallest offset is adjacent to every lock that ends at
the largest one (`AcrossEnds`).
-/

namespace Ish.Lock

open List Ish.Lib Int64

/-! ## Offsets -/

/-- `off_t_`. -/
abbrev OffT := Int64

/-- `OFF_T_MAX`. -/
def OFF_T_MAX : OffT := maxValue

theorem toInt_OFF_T_MAX : OFF_T_MAX.toInt = 2 ^ 63 - 1 := by decide

theorem toInt_sub_one {x : OffT} (hx : x ≠ minValue) : (x - 1).toInt = x.toInt - 1 := by
  have hne : x.toInt ≠ minValue.toInt := fun h => hx (toInt_inj.mp h)
  have hmin : minValue.toInt = -2 ^ 63 := by decide
  have hone : (1 : OffT).toInt = 1 := by decide
  have hge := le_toInt x
  have hlt := toInt_lt x
  rw [toInt_sub, hone]
  apply Int.bmod_eq_of_le
  · omega
  · omega

theorem toInt_add_one {x : OffT} (hx : x ≠ OFF_T_MAX) : (x + 1).toInt = x.toInt + 1 := by
  have hne : x.toInt ≠ OFF_T_MAX.toInt := fun h => hx (toInt_inj.mp h)
  have hmax := toInt_OFF_T_MAX
  have hone : (1 : OffT).toInt = 1 := by decide
  have hge := le_toInt x
  have hlt := toInt_lt x
  rw [toInt_add, hone]
  apply Int.bmod_eq_of_le
  · omega
  · omega

theorem toInt_sub_one_of_lt {a b : OffT} (h : a < b) : (b - 1).toInt = b.toInt - 1 := by
  apply toInt_sub_one
  rintro rfl
  have hge := le_toInt a
  rw [lt_iff_toInt_lt, toInt_minValue] at h
  omega

theorem toInt_add_one_of_lt {a b : OffT} (h : a < b) : (a + 1).toInt = a.toInt + 1 := by
  apply toInt_add_one
  rintro rfl
  have hlt := toInt_lt b
  rw [lt_iff_toInt_lt, toInt_OFF_T_MAX] at h
  omega

theorem minValue_sub_one : (minValue - 1 : OffT) = OFF_T_MAX := by decide

/-- `a == b - 1`, with the subtraction that wraps. -/
theorem eq_sub_one_iff (a b : OffT) :
    a = b - 1 ↔ a.toInt + 1 = b.toInt ∨ (a = OFF_T_MAX ∧ b = minValue) := by
  by_cases hb : b = minValue
  · have hmin : b.toInt = -2 ^ 63 := by rw [hb]; decide
    have hge := le_toInt a
    rw [hb, minValue_sub_one]
    constructor
    · intro h
      exact .inr ⟨h, rfl⟩
    rintro (h | ⟨h, -⟩)
    · rw [← hb] at h
      omega
    · exact h
  have hsub := toInt_sub_one hb
  rw [← toInt_inj, hsub]
  constructor
  · intro h
    left
    omega
  rintro (h | ⟨-, h⟩)
  · omega
  · exact absurd h hb

/-! ## Locks -/

/-- `F_RDLCK_`, `F_WRLCK_` and `F_UNLCK_`. -/
inductive LockType where
  | rdlck
  | wrlck
  | unlck
  deriving DecidableEq

/-- `struct file_lock`, without the links of the list. The owner is a descriptor table. -/
structure FileLock (ω : Type) where
  start : OffT
  end_ : OffT
  type : LockType
  pid : Int
  owner : ω
  deriving DecidableEq

section Tests

variable {ω : Type}

/-- The bytes of a lock. -/
def FileLock.range (l : FileLock ω) : Range := ⟨l.start.toInt, l.end_.toInt⟩

def FileLock.Covers (l : FileLock ω) (x : OffT) : Prop := l.start ≤ x ∧ x ≤ l.end_

instance (l : FileLock ω) (x : OffT) : Decidable (l.Covers x) :=
  inferInstanceAs (Decidable (_ ∧ _))

theorem FileLock.covers_iff (l : FileLock ω) (x : OffT) : l.Covers x ↔ x.toInt ∈ l.range := by
  rw [FileLock.Covers, Range.mem_def, le_iff_toInt_le, le_iff_toInt_le]
  rfl

/-- An owner holds a lock of type `t` on byte `x`. -/
def Holds (locks : List (FileLock ω)) (owner : ω) (t : LockType) (x : OffT) : Prop :=
  ∃ l ∈ locks, l.owner = owner ∧ l.type = t ∧ l.Covers x

theorem holds_append (ls ms : List (FileLock ω)) (o : ω) (t : LockType) (x : OffT) :
    Holds (ls ++ ms) o t x ↔ Holds ls o t x ∨ Holds ms o t x := by
  constructor
  · rintro ⟨l, hl, h⟩
    rcases mem_append.mp hl with hl | hl
    · exact .inl ⟨l, hl, h⟩
    · exact .inr ⟨l, hl, h⟩
  rintro (⟨l, hl, h⟩ | ⟨l, hl, h⟩)
  · exact ⟨l, mem_append_left _ hl, h⟩
  · exact ⟨l, mem_append_right _ hl, h⟩

theorem not_holds_of_owner_ne {ls : List (FileLock ω)} {o : ω} (h : ∀ l ∈ ls, l.owner ≠ o)
    (t : LockType) (x : OffT) : ¬ Holds ls o t x := by
  rintro ⟨l, hl, ho, -⟩
  exact h l hl ho

theorem holds_singleton (l : FileLock ω) (o : ω) (t : LockType) (x : OffT) :
    Holds [l] o t x ↔ l.owner = o ∧ l.type = t ∧ l.Covers x := by
  constructor
  · rintro ⟨l', hl', h⟩
    rw [mem_singleton.mp hl'] at h
    exact h
  · intro h
    exact ⟨l, mem_singleton.mpr rfl, h⟩

variable [DecidableEq ω]

/-- `file_locks_overlap`. -/
def fileLocksOverlap (a b : FileLock ω) : Bool :=
  decide (a.end_ ≥ b.start) && decide (b.end_ ≥ a.start)

/-- `file_locks_conflict`. -/
def fileLocksConflict (a b : FileLock ω) : Bool :=
  if a.owner = b.owner then false
  else if !fileLocksOverlap a b then false
  else if a.type = .wrlck ∨ b.type = .wrlck then true
  else false

/-- `file_locks_adjacent`. -/
def fileLocksAdjacent (a b : FileLock ω) : Bool :=
  decide (a.end_ = b.start - 1) || decide (b.end_ = a.start - 1)

/-- `file_lock_test`. -/
def fileLockTest (locks : List (FileLock ω)) (request : FileLock ω) : Option (FileLock ω) :=
  locks.find? (fun lock => fileLocksConflict lock request)

/-- One of the two begins at the smallest offset and the other ends at the largest. -/
def AcrossEnds (a b : FileLock ω) : Prop :=
  (a.start = minValue ∧ b.end_ = OFF_T_MAX) ∨
    (a.end_ = OFF_T_MAX ∧ b.start = minValue)

instance (a b : FileLock ω) : Decidable (AcrossEnds a b) := inferInstanceAs (Decidable (_ ∨ _))

omit [DecidableEq ω] in
theorem fileLocksOverlap_iff (a b : FileLock ω) :
    fileLocksOverlap a b = true ↔ a.range.Overlaps b.range := by
  rw [fileLocksOverlap, Bool.and_eq_true, decide_eq_true_eq, decide_eq_true_eq, ge_iff_le,
    ge_iff_le, le_iff_toInt_le, le_iff_toInt_le]
  exact And.comm

omit [DecidableEq ω] in
/-- **Adjacent locks** follow each other, or lie at the two ends of the offsets. -/
theorem fileLocksAdjacent_iff (a b : FileLock ω) :
    fileLocksAdjacent a b = true ↔
      (a.range.hi + 1 = b.range.lo ∨ b.range.hi + 1 = a.range.lo) ∨ AcrossEnds a b := by
  rw [fileLocksAdjacent, Bool.or_eq_true, decide_eq_true_eq, decide_eq_true_eq, eq_sub_one_iff,
    eq_sub_one_iff]
  constructor
  · rintro ((h | h) | (h | h))
    · exact .inl (.inl h)
    · exact .inr (.inr h)
    · exact .inl (.inr h)
    · exact .inr (.inl ⟨h.2, h.1⟩)
  rintro ((h | h) | (h | h))
  · exact .inl (.inl h)
  · exact .inr (.inl h)
  · exact .inr (.inr ⟨h.2, h.1⟩)
  · exact .inl (.inr h)

theorem fileLocksConflict_iff (a b : FileLock ω) :
    fileLocksConflict a b = true ↔
      a.owner ≠ b.owner ∧ a.range.Overlaps b.range ∧ (a.type = .wrlck ∨ b.type = .wrlck) := by
  rw [← fileLocksOverlap_iff, fileLocksConflict]
  by_cases ho : a.owner = b.owner
  · simp [ho]
  by_cases hov : fileLocksOverlap a b = true
  · simp [ho, hov]
  · simp [ho, hov]

end Tests

/-! ## Lists of locks -/

section Lists

variable {ω : Type} [DecidableEq ω]

/-- The two locks share no byte. -/
def Apart (a b : FileLock ω) : Prop := ∀ x, ¬ (a.Covers x ∧ b.Covers x)

/-- The locks of each owner stand together. -/
def Grouped (locks : List (FileLock ω)) : Prop :=
  ∀ o, ∃ before own after, locks = before ++ own ++ after ∧ (∀ l ∈ own, l.owner = o) ∧
    (∀ l ∈ before, l.owner ≠ o) ∧ (∀ l ∈ after, l.owner ≠ o)

/-- A list as `fs/lock.c` means to keep it. -/
structure LocksOk (locks : List (FileLock ω)) : Prop where
  types : ∀ l ∈ locks, l.type ≠ .unlck
  grouped : Grouped locks
  apart : locks.Pairwise (fun a b => a.owner = b.owner → Apart a b)
  compatible : locks.Pairwise (fun a b => fileLocksConflict a b = false)

omit [DecidableEq ω] in
theorem Apart.symm {a b : FileLock ω} (h : Apart a b) : Apart b a :=
  fun x hx => h x ⟨hx.2, hx.1⟩

theorem locksOk_nil : LocksOk ([] : List (FileLock ω)) where
  types := fun _ hl => absurd hl not_mem_nil
  grouped := fun _ => ⟨[], [], [], rfl, fun _ hl => absurd hl not_mem_nil,
    fun _ hl => absurd hl not_mem_nil, fun _ hl => absurd hl not_mem_nil⟩
  apart := .nil
  compatible := .nil

/-- Locks of one owner and different types are apart. -/
theorem LocksOk.apart_of_type_ne {locks : List (FileLock ω)} (hok : LocksOk locks)
    {a b : FileLock ω} (ha : a ∈ locks) (hb : b ∈ locks) (ho : a.owner = b.owner)
    (ht : a.type ≠ b.type) : Apart a b := by
  have hne : a ≠ b := fun h => ht (congrArg FileLock.type h)
  have : Std.Symm (fun a b : FileLock ω => a.owner = b.owner → Apart a b) :=
    ⟨fun a b h heq => (h heq.symm).symm⟩
  exact hok.apart.forall ha hb hne ho

end Lists

end Ish.Lock
