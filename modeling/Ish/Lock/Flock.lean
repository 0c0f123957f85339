import Ish.Lock.Acquire

set_option autoImplicit false

/-! # Lock requests from the guest

`file_lock_from_flock`, `flock_from_file_lock`, `fcntl_getlk` and `fcntl_setlk` of `fs/lock.c`,
with the conversion of the 32-bit structure by `sys_fcntl`. A `struct flock_` names a range of
bytes relative to the start, the current offset or the end of the file; a negative length names
the bytes before that place, and length 0 all bytes from it on.

The conversion adds these numbers without looking at the result, so what it makes of a structure
is right exactly when the range lies inside the file offsets; and the 32-bit structure declares
its two signed fields unsigned.
-/

namespace Ish.Lock

open List Ish.Lib Int64

/-! ## The structures -/

def EBADF : Int := -9
def EINVAL : Int := -22

/-- `struct flock_`. -/
structure Flock where
  type : UInt16
  whence : UInt16
  start : OffT
  len : OffT
  pid : Int

/-- `struct flock32_`. -/
structure Flock32 where
  type : UInt16
  whence : UInt16
  start : UInt32
  len : UInt32
  pid : Int

/-- What `sys_fcntl` makes of a 32-bit structure. -/
def Flock32.toFlock (f : Flock32) : Flock :=
  { type := f.type, whence := f.whence, start := ofNat f.start.toNat,
    len := ofNat f.len.toNat, pid := f.pid }

/-- An error code. -/
abbrev Errno := { e : Int // e < 0 }

/-- A descriptor as these calls see it: its access mode, the answer of `lseek(fd, 0, LSEEK_CUR)`
if it has that operation, and the answer of `fstat`, with the size of the file. -/
structure FdInfo where
  mode : Nat
  lseek : Option (Except Errno { x : OffT // 0 ≤ x })
  fstat : Except Errno UInt64

def O_RDONLY : Nat := 0
def O_WRONLY : Nat := 1

def lockTypeOf (type : UInt16) : Option LockType :=
  if type = 0 then some .rdlck
  else if type = 1 then some .wrlck
  else if type = 2 then some .unlck
  else none

/-! ## The calls -/

/-- The `offset` of `file_lock_from_flock`. -/
def flockOffset (fd : FdInfo) (whence : UInt16) : Except Int OffT :=
  if whence = 0 then .ok 0
  else if whence = 1 then
    match fd.lseek with
    | none => .ok 0
    | some (.error e) => .error e.1
    | some (.ok offset) => .ok offset.1
  else if whence = 2 then
    match fd.fstat with
    | .error e => .error e.1
    | .ok size => .ok size.toInt64
  else .error EINVAL

section Calls

variable {ω : Type} [DecidableEq ω]

/-- `file_lock_from_flock`, for a type that the caller has checked. -/
def fileLockFromFlock (fd : FdInfo) (flock : Flock) (type : LockType) (owner : ω) (pid : Int) :
    Except Int (FileLock ω) :=
  match flockOffset fd flock.whence with
  | .error e => .error e
  | .ok offset =>
    let start := flock.start + offset
    if flock.len > 0 then .ok ⟨start, start + flock.len - 1, type, pid, owner⟩
    else if flock.len < 0 then
      let end_ := start - 1
      .ok ⟨end_ + flock.len + 1, end_, type, pid, owner⟩
    else .ok ⟨start, OFF_T_MAX, type, pid, owner⟩

/-- `flock_from_file_lock`. -/
def flockFromFileLock (lock : FileLock ω) : Flock :=
  { type := match lock.type with
      | .rdlck => 0
      | .wrlck => 1
      | .unlck => 2
    whence := 0
    start := lock.start
    len := if lock.end_ ≠ OFF_T_MAX then lock.end_ - lock.start + 1 else 0
    pid := lock.pid }

/-- `fcntl_getlk`. -/
def fcntlGetlk (locks : List (FileLock ω)) (fd : FdInfo) (flock : Flock) (owner : ω) (pid : Int) :
    Int × Flock :=
  match lockTypeOf flock.type with
  | none => (EINVAL, flock)
  | some .unlck => (EINVAL, flock)
  | some type =>
    match fileLockFromFlock fd flock type owner pid with
    | .error e => (e, flock)
    | .ok request =>
      match fileLockTest locks request with
      | some lock => (0, flockFromFileLock lock)
      | none => (0, { flock with type := 2 })

/-- `fcntl_setlk` up to the request: its checks and the conversion. -/
def setlkRequest (fd : FdInfo) (flock : Flock) (owner : ω) (pid : Int) : Except Int (FileLock ω) :=
  match lockTypeOf flock.type with
  | none => .error EINVAL
  | some type =>
    if type = .rdlck ∧ fd.mode = O_WRONLY then .error EBADF
    else if type = .wrlck ∧ fd.mode = O_RDONLY then .error EBADF
    else fileLockFromFlock fd flock type owner pid

/-- `fcntl_setlk` as far as it goes without sleeping: what it returns, unless that is `_EAGAIN`
and it is allowed to block. -/
def fcntlSetlk (locks : List (FileLock ω)) (fd : FdInfo) (flock : Flock) (owner : ω) (pid : Int) :
    Acquired ω :=
  match setlkRequest fd flock owner pid with
  | .error e => ⟨e, locks, false, true⟩
  | .ok request => fileLockAcquire locks request

end Calls

/-! ## The range a structure names -/

/-- The range from `base + start` of `len` bytes. -/
def namedRange (base start len : Int) : Range :=
  if 0 < len then ⟨base + start, base + start + len - 1⟩
  else if len < 0 then ⟨base + start + len, base + start - 1⟩
  else ⟨base + start, OFF_T_MAX.toInt⟩

/-- The range is not empty and lies between 0 and the largest offset. -/
def InOffsets (r : Range) : Prop := 0 ≤ r.lo ∧ r.lo ≤ r.hi ∧ r.hi ≤ OFF_T_MAX.toInt

/-- The place `whence` stands for. -/
def FdInfo.place (fd : FdInfo) (whence : UInt16) : Option Int :=
  if whence = 0 then some 0
  else if whence = 1 then
    match fd.lseek with
    | none => some 0
    | some (.error _) => none
    | some (.ok offset) => some offset.1.toInt
  else if whence = 2 then
    match fd.fstat with
    | .error _ => none
    | .ok size => some size.toNat
  else none

/-- A structure as the guest passes it. -/
inductive GuestFlock where
  | flock (f : Flock)
  | flock32 (f : Flock32)

namespace GuestFlock

/-- What reaches `fcntl_setlk`. -/
def toFlock : GuestFlock → Flock
  | .flock f => f
  | .flock32 f => f.toFlock

/-- `l_start`, a signed number in both structures. -/
def start : GuestFlock → Int
  | .flock f => f.start.toInt
  | .flock32 f => f.start.toInt32.toInt

/-- `l_len`, a signed number in both structures. -/
def len : GuestFlock → Int
  | .flock f => f.len.toInt
  | .flock32 f => f.len.toInt32.toInt

def named (f : GuestFlock) (base : Int) : Range := namedRange base f.start f.len

/-- A 32-bit structure has no negative field. -/
def FieldsKept : GuestFlock → Prop
  | .flock _ => True
  | .flock32 f => 0 ≤ f.start.toInt32.toInt ∧ 0 ≤ f.len.toInt32.toInt

/-- The checks of `fcntl_setlk` before the range: the type, the access mode, and a place to count
from. -/
def Accepted (f : GuestFlock) (fd : FdInfo) (type : LockType) (base : Int) : Prop :=
  lockTypeOf f.toFlock.type = some type ∧ ¬ (type = .rdlck ∧ fd.mode = O_WRONLY) ∧
    ¬ (type = .wrlck ∧ fd.mode = O_RDONLY) ∧ fd.place f.toFlock.whence = some base

end GuestFlock

theorem namedRange_pos {base start len : Int} (h : 0 < len) :
    namedRange base start len = ⟨base + start, base + start + len - 1⟩ := by
  rw [namedRange, if_pos h]

theorem namedRange_zero (base start : Int) :
    namedRange base start 0 = ⟨base + start, OFF_T_MAX.toInt⟩ := rfl

theorem namedRange_lo {base start len : Int} (h : 0 ≤ len) :
    (namedRange base start len).lo = base + start := by
  unfold namedRange
  split
  · rfl
  · rw [if_neg (by omega)]

/-- A negative length names the bytes before the place. -/
theorem namedRange_below (base start len : Int) :
    (0 ≤ len ∧ (namedRange base start len).lo = base + start) ∨
      (len < 0 ∧ (namedRange base start len).lo = base + start + len ∧
        (namedRange base start len).hi = base + start - 1) := by
  by_cases h : 0 ≤ len
  · exact .inl ⟨h, namedRange_lo h⟩
  right
  unfold namedRange
  rw [if_neg (by omega), if_pos (by omega)]
  exact ⟨by omega, rfl, rfl⟩

/-! ## Arithmetic that wraps -/

/-- The offset is the number `x`, up to a multiple of `2^64`. -/
def Wraps (a : OffT) (x : Int) : Prop := a.toInt = x.bmod (2 ^ 64)

theorem wraps_toInt (a : OffT) : Wraps a a.toInt := by
  have hge := le_toInt a
  have hlt := toInt_lt a
  unfold Wraps
  symm
  apply Int.bmod_eq_of_le
  · omega
  · omega

theorem Wraps.add {a b : OffT} {x y : Int} (ha : Wraps a x) (hb : Wraps b y) :
    Wraps (a + b) (x + y) := by
  unfold Wraps at *
  rw [toInt_add, ha, hb, Int.bmod_add_bmod, Int.add_bmod_bmod]

theorem Wraps.sub {a b : OffT} {x y : Int} (ha : Wraps a x) (hb : Wraps b y) :
    Wraps (a - b) (x - y) := by
  unfold Wraps at *
  rw [toInt_sub, ha, hb, Int.bmod_sub_bmod, Int.sub_bmod_bmod]

theorem wraps_one : Wraps 1 1 := wraps_toInt 1

/-- Inside the offsets nothing is lost. -/
theorem Wraps.toInt_eq {a : OffT} {x : Int} (h : Wraps a x) (hlo : -2 ^ 63 ≤ x) (hhi : x < 2 ^ 63) :
    a.toInt = x := by
  rw [h]
  apply Int.bmod_eq_of_le
  · omega
  · omega

/-- Right above the offsets the smallest one follows. -/
theorem Wraps.toInt_eq_sub {a : OffT} {x : Int} (h : Wraps a x) (hlo : 2 ^ 63 ≤ x)
    (hhi : x < 2 ^ 64 + 2 ^ 63) : a.toInt = x - 2 ^ 64 := by
  have hper : x.bmod (2 ^ 64) = (x - ((2 ^ 64 : Nat) : Int)).bmod (2 ^ 64) :=
    (Int.sub_bmod_right _ _).symm
  rw [h, hper]
  apply Int.bmod_eq_of_le
  · omega
  · omega

theorem toInt32_toInt (u : UInt32) : u.toInt32.toInt = (u.toNat : Int).bmod (2 ^ 32) := by
  show u.toBitVec.toInt = _
  rw [BitVec.toInt_eq_toNat_bmod]
  rfl

/-- A 32-bit field is read as it is when it is not negative, and `2^32` too high otherwise. -/
theorem toNat_eq_toInt32 (u : UInt32) :
    (u.toNat : Int) = if 0 ≤ u.toInt32.toInt then u.toInt32.toInt
      else u.toInt32.toInt + 2 ^ 32 := by
  have hlt : u.toNat < 2 ^ 32 := u.toNat_lt
  rw [toInt32_toInt]
  by_cases hhigh : u.toNat < 2 ^ 31
  · have hself : (u.toNat : Int).bmod (2 ^ 32) = u.toNat := by
      apply Int.bmod_eq_of_le
      · omega
      · omega
    rw [hself, if_pos (by omega)]
  have hper : (u.toNat : Int).bmod (2 ^ 32) = (u.toNat : Int) - 2 ^ 32 := by
    have hsub : (u.toNat : Int).bmod (2 ^ 32)
        = ((u.toNat : Int) - ((2 ^ 32 : Nat) : Int)).bmod (2 ^ 32) := (Int.sub_bmod_right _ _).symm
    rw [hsub]
    apply Int.bmod_eq_of_le
    · omega
    · omega
  rw [hper, if_neg (by omega)]
  omega

/-! ## The request made of a structure -/

/-- What `whence` stands for, and the offset the code counts from. -/
theorem flockOffset_cases (fd : FdInfo) (whence : UInt16) :
    (∃ base offset, fd.place whence = some base ∧ flockOffset fd whence = .ok offset ∧
      (0 ≤ base ∧ base < 2 ^ 64) ∧ Wraps offset base) ∨
    (fd.place whence = none ∧ ∃ e, flockOffset fd whence = .error e ∧ e ≠ 0) := by
  unfold FdInfo.place flockOffset
  split
  · exact .inl ⟨0, 0, rfl, rfl, by decide, wraps_toInt 0⟩
  split
  · rcases fd.lseek with _ | answer
    · exact .inl ⟨0, 0, rfl, rfl, by decide, wraps_toInt 0⟩
    cases answer with
    | error e => exact .inr ⟨rfl, e.1, rfl, ne_of_lt e.2⟩
    | ok offset =>
      have hge := le_iff_toInt_le.mp offset.2
      have hlt := toInt_lt offset.1
      exact .inl ⟨_, _, rfl, rfl, ⟨hge, by omega⟩, wraps_toInt offset.1⟩
  split
  · rcases fd.fstat with e | size
    · exact .inr ⟨rfl, e.1, rfl, ne_of_lt e.2⟩
    have hlt : size.toNat < 2 ^ 64 := size.toNat_lt
    refine .inl ⟨_, _, rfl, rfl, ⟨by omega, by omega⟩, ?_⟩
    show size.toBitVec.toInt = _
    rw [BitVec.toInt_eq_toNat_bmod]
    rfl
  · exact .inr ⟨rfl, EINVAL, rfl, by decide⟩

theorem flockOffset_of_place {fd : FdInfo} {whence : UInt16} {base : Int}
    (h : fd.place whence = some base) :
    (0 ≤ base ∧ base < 2 ^ 64) ∧ ∃ offset, flockOffset fd whence = .ok offset ∧
      Wraps offset base := by
  rcases flockOffset_cases fd whence with ⟨base', offset, hplace, hoff, hbase⟩ | ⟨hnone, -⟩
  · cases h.symm.trans hplace
    exact ⟨hbase.1, offset, hoff, hbase.2⟩
  · cases h.symm.trans hnone

section Requests

variable {ω : Type}

/-- The request covers the range, up to the wrapping of its ends. -/
structure RequestFor (request : FileLock ω) (r : Range) (type : LockType) (owner : ω) : Prop where
  start : Wraps request.start r.lo
  end_ : Wraps request.end_ r.hi
  type : request.type = type
  owner : request.owner = owner

/-- **`file_lock_from_flock`** computes the named range, and wraps. -/
theorem fileLockFromFlock_of_place {fd : FdInfo} {flock : Flock} {base : Int}
    (h : fd.place flock.whence = some base) (type : LockType) (owner : ω) (pid : Int) :
    ∃ request, fileLockFromFlock fd flock type owner pid = .ok request ∧
      RequestFor request (namedRange base flock.start.toInt flock.len.toInt) type owner := by
  obtain ⟨-, offset, hoff, hwrap⟩ := flockOffset_of_place h
  have hpos : flock.len > 0 ↔ 0 < flock.len.toInt := lt_iff_toInt_lt
  have hneg : flock.len < 0 ↔ flock.len.toInt < 0 := lt_iff_toInt_lt
  have hstart : Wraps (flock.start + offset) (base + flock.start.toInt) := by
    rw [Int.add_comm]
    exact (wraps_toInt flock.start).add hwrap
  have hlen := wraps_toInt flock.len
  unfold fileLockFromFlock namedRange
  rw [hoff]
  simp only [hpos, hneg]
  split
  · exact ⟨_, rfl, hstart, (hstart.add hlen).sub wraps_one, rfl, rfl⟩
  split
  · have hend := hstart.sub wraps_one
    have hlo := (hend.add hlen).add wraps_one
    have heq : base + flock.start.toInt - 1 + flock.len.toInt + 1
        = base + flock.start.toInt + flock.len.toInt := by omega
    rw [heq] at hlo
    exact ⟨_, rfl, hlo, hend, rfl, rfl⟩
  · exact ⟨_, rfl, hstart, wraps_toInt OFF_T_MAX, rfl, rfl⟩

/-- Inside the offsets the request is for exactly the range. -/
theorem RequestFor.exact {request : FileLock ω} {r : Range} {type : LockType} {owner : ω}
    (h : RequestFor request r type owner) (hin : InOffsets r) :
    InFile request ∧ ∀ x : OffT, request.Covers x ↔ x.toInt ∈ r := by
  have hmax := toInt_OFF_T_MAX
  have hzero : (0 : OffT).toInt = 0 := by decide
  obtain ⟨hlo, hle, hhi⟩ := hin
  rw [hmax] at hhi
  have hs := h.start.toInt_eq (by omega) (by omega)
  have he := h.end_.toInt_eq (by omega) (by omega)
  refine ⟨⟨?_, ?_⟩, ?_⟩
  · rw [le_iff_toInt_le, hs, hzero]
    exact hlo
  · rw [le_iff_toInt_le, hs, he]
    exact hle
  intro x
  rw [FileLock.covers_iff, Range.mem_def, Range.mem_def]
  show request.start.toInt ≤ _ ∧ _ ≤ request.end_.toInt ↔ _
  rw [hs, he]

/-- **`fcntl_setlk` up to the request**: refused, or a request for the range of the structure that
reached it. -/
theorem setlkRequest_cases (f : GuestFlock) (fd : FdInfo) (owner : ω) (pid : Int) :
    (∃ type base request, f.Accepted fd type base ∧
      setlkRequest fd f.toFlock owner pid = .ok request ∧
      RequestFor request (namedRange base f.toFlock.start.toInt f.toFlock.len.toInt) type owner) ∨
    ((∀ type base, ¬ f.Accepted fd type base) ∧
      ∃ e, setlkRequest fd f.toFlock owner pid = .error e ∧ e ≠ 0) := by
  unfold setlkRequest
  cases ht : lockTypeOf f.toFlock.type with
  | none =>
    right
    refine ⟨?_, EINVAL, rfl, by decide⟩
    intro type base h
    cases h.1.symm.trans ht
  | some type =>
    dsimp only
    have hty : ∀ {type' base}, f.Accepted fd type' base → type' = type := by
      intro type' base h
      exact Option.some.inj (h.1.symm.trans ht)
    split
    · rename_i hmode
      right
      refine ⟨?_, EBADF, rfl, by decide⟩
      intro type' base h
      exact h.2.1 (hty h ▸ hmode)
    rename_i hread
    split
    · rename_i hmode
      right
      refine ⟨?_, EBADF, rfl, by decide⟩
      intro type' base h
      exact h.2.2.1 (hty h ▸ hmode)
    rename_i hwrite
    rcases flockOffset_cases fd f.toFlock.whence with ⟨base, -, hp, -⟩ | ⟨hp, e, he, hne⟩
    · left
      obtain ⟨request, hreq, hfor⟩ := fileLockFromFlock_of_place hp type owner pid
      exact ⟨type, base, request, ⟨ht, hread, hwrite, hp⟩, hreq, hfor⟩
    right
    refine ⟨?_, e, ?_, hne⟩
    · intro type' base h
      cases h.2.2.2.symm.trans hp
    unfold fileLockFromFlock
    rw [he]

/-- A 32-bit field as `fcntl_setlk` gets it. -/
theorem toInt_ofNat_field (u : UInt32) : (ofNat u.toNat).toInt = u.toNat := by
  have hlt : u.toNat < 2 ^ 32 := u.toNat_lt
  exact toInt_ofNat_of_lt (by omega)

/-- When no field is misread, the range that reaches `fcntl_setlk` is the named one. -/
theorem GuestFlock.FieldsKept.range_eq {f : GuestFlock} (h : f.FieldsKept) (base : Int) :
    namedRange base f.toFlock.start.toInt f.toFlock.len.toInt = f.named base := by
  cases f with
  | flock f => rfl
  | flock32 f =>
    obtain ⟨hs, hl⟩ := h
    have hstart := toNat_eq_toInt32 f.start
    have hlen := toNat_eq_toInt32 f.len
    rw [if_pos hs] at hstart
    rw [if_pos hl] at hlen
    show namedRange base (ofNat f.start.toNat).toInt (ofNat f.len.toNat).toInt = _
    rw [toInt_ofNat_field, toInt_ofNat_field, hstart, hlen]
    rfl

theorem exists_offset {v : Int} (hlo : -2 ^ 63 ≤ v) (hhi : v < 2 ^ 63) : ∃ x : OffT, x.toInt = v :=
  ⟨ofInt v, toInt_ofInt_of_le hlo hhi⟩

/-- A structure with a misread field: some byte of the file is in the named range or in the
request, and not in both. -/
theorem exists_differing_byte {f : GuestFlock} {base : Int} (hkept : ¬ f.FieldsKept)
    (hbase : 0 ≤ base ∧ base < 2 ^ 64) (hin : InOffsets (f.named base)) {request : FileLock ω}
    {type : LockType} {owner : ω}
    (hfor : RequestFor request
      (namedRange base f.toFlock.start.toInt f.toFlock.len.toInt) type owner) :
    ∃ x : OffT, 0 ≤ x.toInt ∧ (x.toInt ∈ f.named base ↔ ¬ request.Covers x) := by
  cases f with
  | flock f => exact absurd trivial hkept
  | flock32 f =>
    have hmax := toInt_OFF_T_MAX
    have hstart := toNat_eq_toInt32 f.start
    have hlen := toNat_eq_toInt32 f.len
    have hslt : f.start.toNat < 2 ^ 32 := f.start.toNat_lt
    have hllt : f.len.toNat < 2 ^ 32 := f.len.toNat_lt
    have hlge := Int32.le_toInt f.len.toInt32
    change RequestFor request (namedRange base (ofNat f.start.toNat).toInt
      (ofNat f.len.toNat).toInt) type owner at hfor
    rw [toInt_ofNat_field, toInt_ofNat_field] at hfor
    change ¬ (0 ≤ f.start.toInt32.toInt ∧ 0 ≤ f.len.toInt32.toInt) at hkept
    set u := f.start.toNat with hu
    set n := f.len.toNat with hn
    set s := f.start.toInt32.toInt with hs
    set l := f.len.toInt32.toInt with hl
    change InOffsets (namedRange base s l) at hin
    obtain ⟨hlo, hle, hhi⟩ := hin
    have hrstart : Wraps request.start (base + u) := by
      have h := hfor.start
      rwa [namedRange_lo (by omega)] at h
    have hbelow := namedRange_below base s l
    rw [hmax] at hhi
    obtain ⟨x, hx⟩ := exists_offset (v := (namedRange base s l).lo) (by omega) (by omega)
    have hxin : x.toInt ∈ namedRange base s l := by
      rw [hx]
      exact ⟨le_refl _, hle⟩
    have hxge : 0 ≤ x.toInt := by omega
    -- the range begins below the place the code counts from, unless the count wraps
    by_cases hwrap : base + u < 2 ^ 63
    · have hreq := hrstart.toInt_eq (by omega) hwrap
      refine ⟨x, hxge, ⟨fun _ hcov => ?_, fun _ => hxin⟩⟩
      have hcov' := le_iff_toInt_le.mp hcov.1
      rw [hreq, hx] at hcov'
      split at hstart <;> omega
    have hreq := hrstart.toInt_eq_sub (by omega) (by split at hstart <;> omega)
    by_cases hzero : n = 0
    · -- length 0: the request covers the whole file
      have hl0 : l = 0 := by split at hlen <;> omega
      have hrend : Wraps request.end_ OFF_T_MAX.toInt := by
        have h := hfor.end_
        rwa [hzero, Nat.cast_zero, namedRange_zero] at h
      have hend := hrend.toInt_eq (by omega) (by omega)
      have hlow : 0 < (namedRange base s l).lo := by
        rw [hl0, namedRange_zero]
        show 0 < base + s
        split at hstart <;> omega
      refine ⟨0, le_refl _, ⟨fun hmem => ?_, fun hnot => absurd ?_ hnot⟩⟩
      · have h0 : (namedRange base s l).lo ≤ 0 := hmem.1
        omega
      rw [FileLock.covers_iff, Range.mem_def]
      show request.start.toInt ≤ 0 ∧ 0 ≤ request.end_.toInt
      rw [hreq, hend]
      split at hstart <;> omega
    · have hrend : Wraps request.end_ (base + u + n - 1) := by
        have h := hfor.end_
        rwa [namedRange_pos (by omega)] at h
      have hend := hrend.toInt_eq_sub (by omega) (by split at hstart <;> omega)
      refine ⟨x, hxge, ⟨fun _ hcov => ?_, fun _ => hxin⟩⟩
      have hcov' := le_iff_toInt_le.mp hcov.2
      rw [hend] at hcov'
      split at hstart <;> omega

theorem GuestFlock.Accepted.unique {f : GuestFlock} {fd : FdInfo} {t t' : LockType} {b b' : Int}
    (h : f.Accepted fd t b) (h' : f.Accepted fd t' b') : t = t' ∧ b = b' :=
  ⟨Option.some.inj (h.1.symm.trans h'.1), Option.some.inj (h.2.2.2.symm.trans h'.2.2.2)⟩

theorem fileLockFromFlock_fields {fd : FdInfo} {flock : Flock} {type : LockType} {owner : ω}
    {pid : Int} {request : FileLock ω}
    (h : fileLockFromFlock fd flock type owner pid = .ok request) :
    request.type = type ∧ request.owner = owner := by
  unfold fileLockFromFlock at h
  split at h
  · cases h
  dsimp only at h
  split_ifs at h <;> cases h <;> exact ⟨rfl, rfl⟩

/-- The offsets of a request can wrap, but then it ends below 0. -/
theorem fileLockFromFlock_proper {fd : FdInfo} {flock : Flock} {type : LockType} {owner : ω}
    {pid : Int} {request : FileLock ω}
    (h : fileLockFromFlock fd flock type owner pid = .ok request)
    (hend : 0 ≤ request.end_) : request.start ≤ request.end_ := by
  unfold fileLockFromFlock at h
  rw [le_iff_toInt_le] at hend ⊢
  have hzero : (0 : OffT).toInt = 0 := rfl
  split at h
  · cases h
  rename_i offset _
  have hs := le_toInt (flock.start + offset)
  have hs' := toInt_lt (flock.start + offset)
  have hl := le_toInt flock.len
  have hl' := toInt_lt flock.len
  split at h
  · rename_i hpos
    cases h
    have hpos := lt_iff_toInt_lt.mp hpos
    have hwraps := ((wraps_toInt (flock.start + offset)).add (wraps_toInt flock.len)).sub wraps_one
    dsimp only at hend ⊢
    by_cases hfit : (flock.start + offset).toInt + flock.len.toInt - 1 < 2 ^ 63
    · rw [hwraps.toInt_eq (by omega) hfit]
      omega
    rw [hwraps.toInt_eq_sub (by omega) (by omega)] at hend
    omega
  split at h
  · rename_i hneg
    cases h
    have hneg := lt_iff_toInt_lt.mp hneg
    have hwraps :=
      ((wraps_toInt (flock.start + offset - 1)).add (wraps_toInt flock.len)).add wraps_one
    have he := toInt_lt (flock.start + offset - 1)
    dsimp only at hend ⊢
    rw [hwraps.toInt_eq (by omega) (by omega)]
    omega
  cases h
  rw [toInt_OFF_T_MAX]
  show (flock.start + offset).toInt ≤ _
  omega

end Requests

/-! ## `fcntl_setlk` -/

section Setlk

variable {ω : Type} [DecidableEq ω]

/-- **What `fcntl_setlk` is for.** When it returns 0, every lock of the inode lies inside the
file (`end <= OFF_T_MAX` is part of the type), and what changed is that the owner now holds the
asked type on exactly the named range; a range that does not lie inside the offsets is refused. -/
def SetlkExact (f : GuestFlock) (fd : FdInfo) (owner : ω) (pid : Int) : Prop :=
  ∀ locks : List (FileLock ω), LocksOk locks → (∀ l ∈ locks, InFile l) →
    ((fcntlSetlk locks fd f.toFlock owner pid).err = 0 →
      (∀ l ∈ (fcntlSetlk locks fd f.toFlock owner pid).locks, InFile l) ∧
      ∃ type base, f.Accepted fd type base ∧ ∀ o t x,
        Holds (fcntlSetlk locks fd f.toFlock owner pid).locks o t x ↔
          if o = owner ∧ x.toInt ∈ f.named base then t = type ∧ t ≠ .unlck
          else Holds locks o t x) ∧
    (∀ base, fd.place f.toFlock.whence = some base → ¬ InOffsets (f.named base) →
      (fcntlSetlk locks fd f.toFlock owner pid).err ≠ 0)

theorem fcntlSetlk_of_request {fd : FdInfo} {flock : Flock} {owner : ω} {pid : Int}
    {request : FileLock ω} (h : setlkRequest fd flock owner pid = .ok request)
    (locks : List (FileLock ω)) :
    fcntlSetlk locks fd flock owner pid = fileLockAcquire locks request := by
  rw [fcntlSetlk, h]

/-- The owner's lock of another type loses the bytes of the request. -/
theorem holds_acquire_singleton {lock request : FileLock ω} (ho : lock.owner = request.owner)
    (ht : lock.type ≠ request.type) (hun : lock.type ≠ .unlck) (x : OffT) :
    (fileLockAcquire [lock] request).err = 0 ∧
      (Holds (fileLockAcquire [lock] request).locks request.owner lock.type x ↔
        lock.Covers x ∧ ¬ request.Covers x) := by
  have hgranted : ¬ Refused [lock] request := by
    rintro ⟨-, l, hl, hne, -⟩
    rw [mem_singleton.mp hl] at hne
    exact hne ho
  have hown : ownLocks [lock] request.owner = [lock] := by
    simp [ownLocks, ho]
  have hcut := placeLock_other ht
  have hkept : (placeOwn request (ownLocks [lock] request.owner)).kept
      = (placeLock request lock).kept := by
    rw [hown]
    exact append_nil _
  refine ⟨by rw [fileLockAcquire_granted hgranted], ?_⟩
  rw [holds_granted (locksOk_singleton hun).grouped hgranted rfl, hkept, ← hcut.bytes x]
  constructor
  · rintro ((⟨k, hk, -, -, hx⟩ | ⟨hne, -⟩) | ⟨-, heq, -⟩)
    · exact ⟨k, hk, hx⟩
    · exact absurd rfl hne
    · exact absurd heq ht
  rintro ⟨k, hk, hx⟩
  obtain ⟨hko, hkt, -⟩ := hcut.fields k hk
  exact .inl (.inl ⟨k, hk, hko.trans ho, hkt, hx⟩)

/-- A request for exactly the named range does what it should. -/
theorem setlkExact_of_inOffsets {f : GuestFlock} {fd : FdInfo} {owner : ω} {pid : Int}
    (h : ∀ type base, f.Accepted fd type base → f.FieldsKept ∧ InOffsets (f.named base)) :
    SetlkExact f fd owner pid := by
  intro locks hok hfile
  rcases setlkRequest_cases f fd owner pid with
    ⟨type, base, request, hacc, hreq, hfor⟩ | ⟨-, e, he, hne⟩
  · obtain ⟨hkept, hin⟩ := h type base hacc
    rw [hkept.range_eq] at hfor
    obtain ⟨hfileReq, hcov⟩ := hfor.exact hin
    have hspec := hok.acquireSpec_inFile hfile hfileReq
    rw [fcntlSetlk_of_request hreq]
    refine ⟨?_, ?_⟩
    · intro herr
      have hgranted : ¬ Refused locks request := by
        intro href
        rw [hspec.refused.mpr href] at herr
        exact absurd herr (by decide)
      refine ⟨fileLockAcquire_inFile hfileReq hfile, type, base, hacc, ?_⟩
      intro o t x
      rw [(hspec.granted hgranted).2 o t x, hfor.owner, hfor.type]
      simp only [hcov x]
    intro base' hplace hbad
    have heq : base = base' := Option.some.inj (hacc.2.2.2.symm.trans hplace)
    exact absurd (heq ▸ hin) hbad
  · have hcall : fcntlSetlk locks fd f.toFlock owner pid = ⟨e, locks, false, true⟩ := by
      rw [fcntlSetlk, he]
    rw [hcall]
    exact ⟨fun herr => absurd herr hne, fun _ _ _ => hne⟩

/-- On an inode without locks nothing is refused, so the range has to be a good one. -/
theorem SetlkExact.inOffsets {f : GuestFlock} {fd : FdInfo} {owner : ω} {pid : Int}
    (hexact : SetlkExact f fd owner pid) {request : FileLock ω} {base : Int}
    (hplace : fd.place f.toFlock.whence = some base)
    (hreq : setlkRequest fd f.toFlock owner pid = .ok request) : InOffsets (f.named base) := by
  by_contra hbad
  have herr := (hexact [] locksOk_nil (fun l hl => absurd hl not_mem_nil)).2 base hplace hbad
  have hgranted : ¬ Refused [] request := by
    rintro ⟨-, l, hl, -⟩
    exact absurd hl not_mem_nil
  rw [fcntlSetlk_of_request hreq, fileLockAcquire_granted hgranted] at herr
  exact herr rfl

/-- With a misread field the call changes the wrong bytes of an owner who holds the whole file. -/
theorem SetlkExact.fieldsKept {f : GuestFlock} {fd : FdInfo} {owner : ω} {pid : Int}
    (hexact : SetlkExact f fd owner pid) {request : FileLock ω} {type : LockType} {base : Int}
    (hacc : f.Accepted fd type base) (hreq : setlkRequest fd f.toFlock owner pid = .ok request)
    (hfor : RequestFor request
      (namedRange base f.toFlock.start.toInt f.toFlock.len.toInt) type owner)
    (hin : InOffsets (f.named base)) : f.FieldsKept := by
  by_contra hkept
  obtain ⟨x, hxge, hx⟩ := exists_differing_byte hkept (flockOffset_of_place hacc.2.2.2).1 hin hfor
  obtain ⟨t, htne, htun⟩ : ∃ t : LockType, t ≠ type ∧ t ≠ .unlck := by
    cases type
    · exact ⟨.wrlck, by decide, by decide⟩
    · exact ⟨.rdlck, by decide, by decide⟩
    · exact ⟨.rdlck, by decide, by decide⟩
  let whole : FileLock ω := ⟨0, OFF_T_MAX, t, pid, owner⟩
  have hfile : ∀ l ∈ [whole], InFile l := by
    intro l hl
    rw [mem_singleton.mp hl]
    exact ⟨Int64.le_refl _, by show (0 : OffT) ≤ OFF_T_MAX; decide⟩
  have hcovers : whole.Covers x := by
    have hlt := toInt_lt x
    have hmax := toInt_OFF_T_MAX
    rw [FileLock.covers_iff, Range.mem_def]
    show (0 : OffT).toInt ≤ x.toInt ∧ x.toInt ≤ OFF_T_MAX.toInt
    exact ⟨hxge, by omega⟩
  have hcut := holds_acquire_singleton (show whole.owner = _ from hfor.owner.symm)
    (fun h => htne (h.trans hfor.type)) htun x
  have hspec := (hexact [whole] (locksOk_singleton htun) hfile).1
  rw [fcntlSetlk_of_request hreq] at hspec
  obtain ⟨-, type', base', hacc', hheld⟩ := hspec hcut.1
  obtain ⟨rfl, rfl⟩ := hacc.unique hacc'
  -- the byte is still held exactly when it is not in the request, and should be exactly when it
  -- is not in the named range
  have hafter := hheld owner t x
  rw [← hfor.owner, hcut.2, hfor.owner, holds_singleton] at hafter
  by_cases hmem : x.toInt ∈ f.named base
  · rw [if_pos ⟨rfl, hmem⟩] at hafter
    exact htne (hafter.mp ⟨hcovers, hx.mp hmem⟩).1
  rw [if_neg (fun h => hmem h.2)] at hafter
  exact hmem (hx.mpr (hafter.mpr ⟨rfl, rfl, hcovers⟩).2)

/-- **`fcntl_setlk` is exact** for a structure exactly when the call is refused for another
reason, or no 32-bit field is negative and the named range lies inside the offsets. -/
theorem setlkExact_iff (f : GuestFlock) (fd : FdInfo) (owner : ω) (pid : Int) :
    SetlkExact f fd owner pid ↔
      ∀ type base, f.Accepted fd type base → f.FieldsKept ∧ InOffsets (f.named base) := by
  constructor
  · intro hexact type base hacc
    rcases setlkRequest_cases f fd owner pid with
      ⟨type', base', request, hacc', hreq, hfor⟩ | ⟨hnone, -⟩
    · obtain ⟨rfl, rfl⟩ := hacc.unique hacc'
      have hin := hexact.inOffsets hacc.2.2.2 hreq
      exact ⟨hexact.fieldsKept hacc hreq hfor hin, hin⟩
    · exact absurd hacc (hnone type base)
  · exact setlkExact_of_inOffsets

section NegativeStart

/-- A file opened for reading and writing, at offset 0 and empty. -/
def emptyFile : FdInfo := { mode := 2, lseek := some (.ok ⟨0, Int64.le_refl 0⟩), fstat := .ok 0 }

/-- A write lock on one byte that lies five bytes before the start of the file. -/
def beforeStart : Flock := { type := 1, whence := 0, start := -5, len := 1, pid := 0 }

/-- A write lock on the eight bytes from the largest offset on. -/
def pastEnd : Flock := { type := 1, whence := 0, start := OFF_T_MAX, len := 8, pid := 0 }

/-- Both are accepted, and the inode gets a lock at a negative offset and one that ends before it
begins. -/
theorem setlk_accepts_bad_ranges :
    (fcntlSetlk [] emptyFile beforeStart () 1).err = 0 ∧
      (fcntlSetlk [] emptyFile beforeStart () 1).locks = [⟨-5, -5, .wrlck, 1, ()⟩] ∧
      (fcntlSetlk [] emptyFile pastEnd () 1).err = 0 ∧
      (fcntlSetlk [] emptyFile pastEnd () 1).locks
        = [⟨OFF_T_MAX, Int64.minValue + 6, .wrlck, 1, ()⟩] ∧
      ¬ SetlkExact (.flock beforeStart) emptyFile () 1 := by
  have herr : (fcntlSetlk [] emptyFile beforeStart () 1).err = 0 := by decide
  refine ⟨herr, by decide, by decide, by decide, ?_⟩
  intro hexact
  have hbad : ¬ InOffsets ((GuestFlock.flock beforeStart).named 0) :=
    fun h => absurd h.1 (by decide)
  exact (hexact [] locksOk_nil (fun l hl => absurd hl not_mem_nil)).2 0 rfl hbad herr

end NegativeStart

/-! ## `fcntl_getlk` -/

/-- The structure says which lock it is: length 0 is a lock to the end of the file. -/
structure Reports (flock : Flock) (lock : FileLock ω) : Prop where
  type : lockTypeOf flock.type = some lock.type
  whence : flock.whence = 0
  start : flock.start = lock.start
  len : flock.len.toInt =
    if lock.end_ = OFF_T_MAX then 0 else lock.end_.toInt - lock.start.toInt + 1
  pid : flock.pid = lock.pid

omit [DecidableEq ω] in
theorem reports_flockFromFileLock {lock : FileLock ω} (h : InFile lock) :
    Reports (flockFromFileLock lock) lock := by
  refine ⟨?_, rfl, rfl, ?_, rfl⟩
  · unfold flockFromFileLock
    cases lock.type <;> rfl
  show (if lock.end_ ≠ OFF_T_MAX then lock.end_ - lock.start + 1 else 0).toInt = _
  by_cases hmax : lock.end_ = OFF_T_MAX
  · simp [hmax]
  have hwraps := ((wraps_toInt lock.end_).sub (wraps_toInt lock.start)).add wraps_one
  have hlo := le_iff_toInt_le.mp h.1
  have hhi := le_iff_toInt_le.mp h.2
  have hlt := toInt_lt lock.end_
  have hne : lock.end_.toInt ≠ OFF_T_MAX.toInt := fun heq => hmax (toInt_inj.mp heq)
  have hzero : (0 : OffT).toInt = 0 := rfl
  rw [toInt_OFF_T_MAX] at hne
  rw [if_pos hmax, if_neg hmax, hwraps.toInt_eq (by omega) (by omega)]

/-- **`F_GETLK` foretells `F_SETLK`.** For a request to read or write, it reports that nothing is in
the way exactly when the request would not be refused, and otherwise a lock of another owner that
shares a byte with the request and does not go together with it. -/
theorem getlk_foretells_setlk (locks : List (FileLock ω)) (fd : FdInfo) (flock : Flock) (owner : ω)
    (pid : Int) {type : LockType} {request : FileLock ω}
    (hlocks : ∀ l ∈ locks, l.type ≠ .unlck ∧ InFile l) (htype : lockTypeOf flock.type = some type)
    (hrw : type ≠ .unlck) (hrequest : fileLockFromFlock fd flock type owner pid = .ok request) :
    (fcntlGetlk locks fd flock owner pid).1 = 0 ∧
      (lockTypeOf (fcntlGetlk locks fd flock owner pid).2.type = some .unlck ↔
        (fileLockAcquire locks request).err ≠ EAGAIN) ∧
      ((fileLockAcquire locks request).err = EAGAIN →
        ∃ l ∈ locks, l.owner ≠ owner ∧ (∃ x, l.Covers x ∧ request.Covers x) ∧
          (l.type = .wrlck ∨ type = .wrlck) ∧
          Reports (fcntlGetlk locks fd flock owner pid).2 l) := by
  have hfields := fileLockFromFlock_fields hrequest
  have hcall : fcntlGetlk locks fd flock owner pid =
      (fileLockTest locks request).elim (0, { flock with type := 2 })
        fun lock => (0, flockFromFileLock lock) := by
    unfold fcntlGetlk
    rw [htype]
    cases type with
    | unlck => exact absurd rfl hrw
    | _ =>
      dsimp only
      rw [hrequest]
      dsimp only
      cases fileLockTest locks request <;> rfl
  rw [hcall]
  cases htest : fileLockTest locks request with
  | none =>
    have hgranted : ¬ Refused locks request := by
      rintro ⟨-, l, hl, hconflict⟩
      exact find?_eq_none.mp htest l hl ((fileLocksConflict_iff l request).mpr hconflict)
    have herr : (fileLockAcquire locks request).err = 0 := by rw [fileLockAcquire_granted hgranted]
    have hne : (fileLockAcquire locks request).err ≠ EAGAIN := by
      rw [herr]
      decide
    exact ⟨rfl, iff_of_true rfl hne, fun h => absurd h hne⟩
  | some l =>
    have hholds : fileLocksConflict l request = true :=
      find?_some (p := fun lock => fileLocksConflict lock request) htest
    have hconflict := (fileLocksConflict_iff l request).mp hholds
    have hmem : l ∈ locks := mem_of_find?_eq_some htest
    have href : Refused locks request := ⟨by rwa [hfields.1], l, hmem, hconflict⟩
    have herr : (fileLockAcquire locks request).err = EAGAIN := by rw [fileLockAcquire_refused href]
    have hreports := reports_flockFromFileLock (hlocks l hmem).2
    obtain ⟨howner, hoverlap, hwrite⟩ := hconflict
    refine ⟨rfl, iff_of_false ?_ (fun h => h herr), fun _ => ⟨l, hmem, ?_, ?_, ?_, hreports⟩⟩
    · intro h
      exact (hlocks l hmem).1 (Option.some.inj (hreports.type.symm.trans h))
    · rwa [hfields.2] at howner
    · -- the later of the two starts is in both
      obtain ⟨hlo, hhi⟩ := (hlocks l hmem).2
      have hend : 0 ≤ request.end_ := Int64.le_trans hlo (Int64.le_iff_toInt_le.mpr hoverlap.1)
      have hproper := fileLockFromFlock_proper hrequest hend
      by_cases hle : l.start ≤ request.start
      · exact ⟨request.start, ⟨hle, Int64.le_iff_toInt_le.mpr hoverlap.2⟩, Int64.le_refl _, hproper⟩
      exact ⟨l.start, ⟨Int64.le_refl _, hhi⟩, Int64.le_of_lt (Int64.not_le.mp hle),
        Int64.le_iff_toInt_le.mpr hoverlap.1⟩
    · rwa [hfields.1] at hwrite

/-- A read lock of another owner, and a request to write one of its bytes. -/
theorem getlk_foretells_setlk_write :
    (fileLockAcquire [⟨0, 9, .rdlck, 7, true⟩] ⟨5, 5, .wrlck, 1, false⟩).err = EAGAIN ∧
      ∃ l ∈ [(⟨0, 9, .rdlck, 7, true⟩ : FileLock Bool)],
        Reports (fcntlGetlk [⟨0, 9, .rdlck, 7, true⟩] emptyFile ⟨1, 0, 5, 1, 0⟩ false 1).2 l := by
  have hlocks : ∀ l ∈ [(⟨0, 9, .rdlck, 7, true⟩ : FileLock Bool)], l.type ≠ .unlck ∧ InFile l := by
    intro l hl
    rw [mem_singleton.mp hl]
    exact ⟨by decide, by decide, by decide⟩
  have herr : (fileLockAcquire [⟨0, 9, .rdlck, 7, true⟩]
      (⟨5, 5, .wrlck, 1, false⟩ : FileLock Bool)).err = EAGAIN := by decide
  obtain ⟨-, -, hlock⟩ := getlk_foretells_setlk [⟨0, 9, .rdlck, 7, true⟩] emptyFile
    ⟨1, 0, 5, 1, 0⟩ false 1 hlocks (show lockTypeOf 1 = some .wrlck from rfl) (by decide) rfl
  obtain ⟨l, hl, -, -, -, hreports⟩ := hlock herr
  exact ⟨herr, l, hl, hreports⟩

end Setlk

end Ish.Lock
