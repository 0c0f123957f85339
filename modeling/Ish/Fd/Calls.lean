import Ish.Lib.Machine
import Ish.Fd.Table

set_option autoImplicit false

/-! # Descriptors from the guest

The calls that take descriptor numbers from the guest (`fs/fd.c`, `sys_ioctl` in `kernel/fs.c`), the
table's part in an exec and a fork, and the lookups in `/proc/<pid>/fd` (`fs/proc/pid.c`), as a
machine over tasks and their tables.

`fdtable_get` compares the number with the size of the *current* task's table, whichever table it is
given. `/proc` gives it another task's; the number there was found in that table before, and tables
never shrink. What a file answers is an `Env`; reference counts are left out.

Three calls go wrong. `dup2` and `dup3` store at a negative number when `fdtable_expand` lets it
through, which it does for `-1` in any case: it asks for size 0. `F_DUPFD` and `F_DUPFD_CLOEXEC`
take any 32-bit number as the start of the search, against an assertion. `F_DUPFD_CLOEXEC` sets the
bit of what `f_install_start` returns even if that is an error.
-/

namespace Ish.Descriptors

open Option Function Ish.Lib Table

/-- What a file returns from its operations. -/
structure Env (α : Type) where
  close : α → Int
  /-- The commands of `fcntl` that are about the file, and the unknown ones. -/
  fcntl : α → UInt32 → UInt32 → Int
  ioctl : α → UInt32 → UInt32 → Int

def F_DUPFD : UInt32 := 0
def F_GETFD : UInt32 := 1
def F_SETFD : UInt32 := 2
def F_DUPFD_CLOEXEC : UInt32 := 1030
def FIONCLEX : UInt32 := 0x5450
def FIOCLEX : UInt32 := 0x5451

/-! ## Calls on a table -/

namespace Table

section Model

variable {α : Type} (env : Env α) (alloc : Nat → Bool) (limit : UInt64)

/-- `fdtable_get`, called by a task whose own table has `cur` slots. -/
def get (cur : Nat) (T : Table α) (f : Int) : Except Fault (Option α) :=
  if f < 0 ∨ cur ≤ (unsigned f).toNat then .ok none else T.read f

/-- `fdtable_close`. -/
def close (cur : Nat) (T : Table α) (f : Int) : Except Fault (Int × Table α) := do
  match ← T.get cur f with
  | none => .ok (EBADF, T)
  | some fd =>
    let T1 ← T.write f none
    let T2 ← T1.bitPut f false
    .ok (env.close fd, T2)

/-- `f_install`. -/
def install (T : Table α) (fd : α) (cloexec : Bool) : Except Fault (Int × Table α) := do
  let o ← T.installStart alloc limit fd 0
  if 0 ≤ o.ret ∧ cloexec = true then
    let T1 ← o.table.bitPut o.ret true
    .ok (o.ret, T1)
  else .ok (o.ret, o.table)

/-- `sys_dup`. -/
def dup (T : Table α) (f : Int) : Except Fault (Int × Table α) := do
  match ← T.get T.size f with
  | none => .ok (EBADF, T)
  | some fd => T.install alloc limit fd false

/-- `sys_dup3`; `sys_dup2` is the same without the flag. -/
def dup3 (T : Table α) (f newF : Int) (cloexec : Bool) : Except Fault (Int × Table α) := do
  match ← T.get T.size f with
  | none => .ok (EBADF, T)
  | some fd =>
    let (err, T1) ← T.expand alloc limit newF
    if err < 0 then .ok (err, T1)
    else
      let (_, T2) ← T1.close env T1.size newF
      let T3 ← T2.write newF (some fd)
      let T4 ← if cloexec then T3.bitPut newF true else .ok T3
      .ok (newF, T4)

/-- `sys_fcntl`. -/
def fcntl (T : Table α) (f : Int) (cmd arg : UInt32) : Except Fault (Int × Table α) := do
  match ← T.get T.size f with
  | none => .ok (EBADF, T)
  | some fd =>
    if cmd = F_DUPFD then
      let o ← T.installStart alloc limit fd (signed arg.toNat)
      .ok (o.ret, o.table)
    else if cmd = F_DUPFD_CLOEXEC then
      let o ← T.installStart alloc limit fd (signed arg.toNat)
      let T1 ← o.table.bitPut o.ret true
      .ok (o.ret, T1)
    else if cmd = F_GETFD then
      let b ← T.bitTest f
      .ok (if b then 1 else 0, T)
    else if cmd = F_SETFD then
      let T1 ← T.bitPut f (decide (arg &&& 1 ≠ 0))
      .ok (0, T1)
    else .ok (env.fcntl fd cmd arg, T)

/-- `sys_ioctl`. -/
def ioctl (T : Table α) (f : Int) (cmd arg : UInt32) : Except Fault (Int × Table α) := do
  match ← T.get T.size f with
  | none => .ok (EBADF, T)
  | some fd =>
    if cmd = FIOCLEX then
      let T1 ← T.bitPut f true
      .ok (0, T1)
    else if cmd = FIONCLEX then
      let T1 ← T.bitPut f false
      .ok (0, T1)
    else .ok (env.ioctl fd cmd arg, T)

/-- The loop of `fdtable_do_cloexec`. -/
def cloexecTurn (T : Table α) (n : Nat) : Except Fault (Table α) := do
  if ← T.bitTest (signed n) then
    let r ← T.close env T.size (signed n)
    .ok r.2
  else .ok T

def cloexecLoop : Nat → Nat → Table α → Except Fault (Table α)
  | 0, _, T => .ok T
  | k + 1, n, T => do
      let T1 ← T.cloexecTurn env n
      cloexecLoop k (n + 1) T1

def doCloexec (T : Table α) : Except Fault (Int × Table α) := do
  let T1 ← cloexecLoop env T.size 0 T
  .ok (0, T1)

def empty : Table α := ⟨[], [], rfl, Nat.two_pow_pos 32⟩

/-- `fdtable_copy`. The size goes through an `int`, and what is copied with a negative one does not
end in the table. -/
def copy (T : Table α) : Except Fault (Option (Table α)) := do
  let (err, _) ← (empty : Table α).resize alloc (UInt32.ofNat T.size)
  if err < 0 then .ok none
  else if T.size < 2 ^ 31 then .ok (some T)
  else .error .index

/-- The loop of `proc_pid_fd_readdir`: the next slot that is taken, or the end. -/
def nextTaken (T : Table α) : Nat → Nat → Except Fault Nat
  | 0, n => .ok n
  | k + 1, n => do
      match ← T.read n with
      | none => T.nextTaken k (n + 1)
      | some _ => .ok n

/-- `proc_lookup` of a name in the directory. -/
def lookup (T : Table α) (name : Nat) : Nat → Nat → Except Fault (Option Nat)
  | 0, _ => .ok none
  | k + 1, index => do
      let n ← T.nextTaken (T.size - index) index
      if n < T.size then
        if n = name then .ok (some n) else T.lookup name k (n + 1)
      else .ok none

end Model

section Facts

variable {α : Type} {env : Env α} {alloc : Nat → Bool} {limit : UInt64} {T : Table α} {fd : α}
  {f : Int}
variable {T' : Table α} {k n : Nat} {arg cmd : UInt32}

/-! ## What the guest's number finds -/

/-- The descriptor is open. -/
def Opened (T : Table α) (f : Int) : Prop := 0 ≤ f ∧ slot T.files f.toNat ≠ none

theorem unsigned_of_nonneg (hf : 0 ≤ f) (h31 : f < 2 ^ 31) : (unsigned f).toNat = f.toNat := by
  rw [unsigned_toNat]
  omega

/-- In its own table, a task gets what is in the slot. -/
theorem get_self (h31 : f < 2 ^ 31) :
    T.get T.size f = .ok (if 0 ≤ f then slot T.files f.toNat else none) := by
  unfold get
  by_cases hf : 0 ≤ f
  · rw [if_pos hf, unsigned_of_nonneg hf h31]
    by_cases hsize : f.toNat < T.size
    · rw [if_neg (by omega), read, if_pos ⟨hf, by omega⟩]
    · rw [if_pos (by omega), slot_of_length_le (Nat.le_of_not_lt hsize)]
  · rw [if_neg hf, if_pos (by omega)]

/-- In another table, an index that is in that table. -/
theorem get_inRange (cur : Nat) (hin : T.InRange f) : ∃ r, T.get cur f = .ok r := by
  unfold get
  split
  · exact ⟨_, rfl⟩
  · exact ⟨_, by rw [read, if_pos hin]⟩

theorem inRange_of_slot (hf : 0 ≤ f) {x : α} (hx : slot T.files f.toNat = some x) :
    T.InRange f := by
  refine ⟨hf, ?_⟩
  by_contra hlt
  rw [slot_of_length_le (by unfold size at hlt; omega)] at hx
  cases hx

theorem write_inRange (hin : T.InRange f) (x : Option α) :
    ∃ T', T.write f x = .ok T' ∧ T'.size = T.size :=
  ⟨T.setFile f.toNat x, if_pos hin, List.length_set⟩

theorem bitPut_inRange (hin : T.InRange f) (b : Bool) :
    ∃ T', T.bitPut f b = .ok T' ∧ T'.size = T.size :=
  ⟨T.setBit f.toNat b, if_pos hin, rfl⟩

theorem bitTest_inRange (hin : T.InRange f) : ∃ b, T.bitTest f = .ok b := ⟨_, if_pos hin⟩

theorem InRange.of_size (hin : T.InRange f) (hsize : T.size ≤ T'.size) :
    T'.InRange f := ⟨hin.1, by have hlt := hin.2; omega⟩

/-! ## Installing -/

/-- The search finds a slot, or there can be one behind. -/
def CanInstall (alloc : Nat → Bool) (limit : UInt64) (T : Table α) (start : Nat) : Prop :=
  (∃ g, start ≤ g ∧ g < T.searchSize limit ∧ slot T.files g = none) ∨
    (max start (T.searchSize limit) + 1 ≤ limit.toNat ∧
      (max start (T.searchSize limit) < T.size ∨
        alloc (max start (T.searchSize limit) + 1) = true))

/-- A table that has not become smaller, and no descriptor of which is past `INT_MAX`. -/
structure Grown (T T' : Table α) : Prop where
  ge : T.size ≤ T'.size
  le : T'.size ≤ 2 ^ 31

theorem Grown.refl (hsize : T.size ≤ 2 ^ 31) : T.Grown T := ⟨Nat.le_refl _, hsize⟩

theorem Grown.of_size {T'' : Table α} (h : T.Grown T') (hsize : T''.size = T'.size) :
    T.Grown T'' := ⟨by rw [hsize]; exact h.ge, by rw [hsize]; exact h.le⟩

theorem Grown.trans {T'' : Table α} (h : T.Grown T') (h' : T'.Grown T'') : T.Grown T'' :=
  ⟨h.ge.trans h'.ge, h'.le⟩

theorem expand_ok (alloc : Nat → Bool) (limit : UInt64) (hn : n < 2 ^ 31) (hsize : T.size ≤ 2 ^ 31)
    : ∃ r, T.expand alloc limit (signed n) = .ok r ∧ T.Grown r.2 ∧ (0 ≤ r.1 → n < r.2.size) ∧
      (n + 1 ≤ limit.toNat → n < T.size ∨ alloc (n + 1) = true → 0 ≤ r.1) := by
  have hn32 : n < 2 ^ 32 - 1 := by omega
  by_cases hover : limit.toNat < n + 1
  · refine ⟨_, expand_over hn32 hover, .refl hsize, ?_, ?_⟩
    · intro hret
      exact absurd hret (show ¬ 0 ≤ EMFILE by decide)
    intro hlimit
    omega
  have hlimit := Nat.le_of_not_lt hover
  by_cases hinside : n < T.size
  · exact ⟨_, expand_inside hn32 hlimit hinside, .refl hsize, fun _ => hinside,
      fun _ _ => Int.le_refl 0⟩
  obtain ⟨hgrow, hexpand⟩ := expand_behind alloc hn32 hlimit (Nat.le_of_not_lt hinside)
  by_cases halloc : alloc (n + 1) = true
  · rw [if_pos halloc] at hexpand
    have hnew : (T.grow (unsigned (signed n + 1)) hgrow).size = n + 1 := by
      rw [size_grow, unsigned_signed_succ hn32]
    exact ⟨_, hexpand, ⟨by dsimp only; omega, by dsimp only; omega⟩,
      fun _ => by dsimp only; omega, fun _ _ => Int.le_refl 0⟩
  rw [if_neg halloc] at hexpand
  refine ⟨_, hexpand, .refl hsize, ?_, ?_⟩
  · intro hret
    exact absurd hret (show ¬ 0 ≤ ENOMEM by decide)
  rintro - (hin | halloc')
  · omega
  · exact absurd halloc' halloc

theorem installAt_ok (alloc : Nat → Bool) (limit : UInt64) (fd : α) (hn : n < 2 ^ 31)
    (hsize : T.size ≤ 2 ^ 31) : ∃ o, T.installAt alloc limit fd n = .ok o ∧ T.Grown o.table ∧
      (0 ≤ o.ret → o.table.InRange o.ret) ∧
      (n + 1 ≤ limit.toNat → n < T.size ∨ alloc (n + 1) = true → 0 ≤ o.ret) := by
  obtain ⟨⟨err, T1⟩, hexpand, hgrown, hin, hroom⟩ := expand_ok alloc limit hn hsize
  unfold installAt
  rw [hexpand, ok_bind]
  dsimp only
  by_cases herr : err < 0
  · rw [if_pos herr, place_of_neg herr]
    refine ⟨_, rfl, hgrown, ?_, hroom⟩
    intro hret
    exact absurd hret (Int.not_le.mpr herr)
  have hlt := hin (Int.not_lt.mp herr)
  obtain ⟨T', hplace, -, hsize'⟩ := place_of_lt hlt fd
  rw [if_neg herr, signed_of_lt hn]
  refine ⟨_, hplace, hgrown.of_size hsize', ?_, fun _ _ => Int.natCast_nonneg n⟩
  intro _
  exact inRange_natCast.mpr (by dsimp only; omega)

theorem installStart_ok (alloc : Nat → Bool) (limit : UInt64) (fd : α) {start : Nat}
    (hstart : start < 2 ^ 31) (hsize : T.size < 2 ^ 31) :
    ∃ o, T.installStart alloc limit fd start = .ok o ∧ T.Grown o.table ∧
      (0 ≤ o.ret → o.table.InRange o.ret) ∧ (T.CanInstall alloc limit start → 0 ≤ o.ret) := by
  have hle := searchSize_le limit T
  obtain ⟨first, hfirst⟩ := exists_firstFree T.files start
  have hstart_le := hfirst.start_le
  by_cases hfound : first < T.searchSize limit
  · have hscan : T.scan (T.searchSize limit - start) start = .ok first :=
      scan_first hfirst (by omega) (by omega) (by omega)
    obtain ⟨T', hplace, -, hsize'⟩ := place_of_lt (T := T) (f := first) (by omega) fd
    refine ⟨⟨first, T', false⟩, ?_, ⟨hsize'.ge, by dsimp only; omega⟩, ?_,
      fun _ => Int.natCast_nonneg first⟩
    · rw [installStart_of_scan hscan, if_neg (by omega), signed_of_lt (by omega)]
      exact hplace
    intro _
    exact inRange_natCast.mpr (by dsimp only; omega)
  -- nothing is free in the part that is searched
  have htaken : ∀ g, start ≤ g → g < T.searchSize limit → slot T.files g ≠ none :=
    fun g hg hlt => hfirst.taken g hg (by omega)
  have hinstall : T.installStart alloc limit fd start =
      T.installAt alloc limit fd (max start (T.searchSize limit)) :=
    installStart_behind htaken (by omega) rfl
  obtain ⟨o, ho, hgrown, hin, hroom⟩ :=
    installAt_ok alloc limit fd (show max start (T.searchSize limit) < 2 ^ 31 by omega) hsize.le
  refine ⟨o, hinstall.trans ho, hgrown, hin, ?_⟩
  rintro (⟨g, hg, hlt, hfree⟩ | ⟨hlimit, hplace⟩)
  · exact absurd hfree (htaken g hg hlt)
  · exact hroom hlimit hplace

/-! ## No call leaves the table -/

/-- A call stays in its table, which does not become smaller. -/
def Stays (T : Table α) (call : Except Fault (Int × Table α)) : Prop :=
  ∃ r, call = .ok r ∧ T.Grown r.2

theorem Grown.stays (h : T.Grown T') (r : Int) : T.Stays (.ok (r, T')) := ⟨_, rfl, h⟩

/-- What a call does first: nothing more when the descriptor is not open. -/
theorem stays_get {call : Option α → Except Fault (Int × Table α)} (h31 : f < 2 ^ 31)
    (hnone : T.Stays (call none))
    (hsome : ∀ x, T.InRange f → T.Opened f → T.Stays (call (some x))) :
    T.Stays (T.get T.size f >>= call) := by
  rw [get_self h31]
  by_cases hf : 0 ≤ f
  · rw [if_pos hf]
    cases hx : slot T.files f.toNat with
    | none => exact hnone
    | some x => exact hsome x (inRange_of_slot hf hx) ⟨hf, by simp [hx]⟩
  · rw [if_neg hf]
    exact hnone

/-- What a call does last. -/
theorem Grown.stays_bitPut (h : T.Grown T') (hin : T'.InRange f) (b : Bool) (r : Int) :
    T.Stays (do
      let T1 ← T'.bitPut f b
      .ok (r, T1)) := by
  obtain ⟨T1, h1, hsize⟩ := bitPut_inRange hin b
  rw [h1]
  exact (h.of_size hsize).stays r

theorem close_stays (env : Env α) (h31 : f < 2 ^ 31) (hsize : T.size ≤ 2 ^ 31) :
    T.Stays (T.close env T.size f) := by
  refine stays_get h31 ((Grown.refl hsize).stays _) fun x hin _ => ?_
  obtain ⟨T1, h1, hsize1⟩ := write_inRange hin none
  dsimp only
  rw [h1, ok_bind]
  exact ((Grown.refl hsize).of_size hsize1).stays_bitPut (hin.of_size hsize1.ge) false _

theorem install_stays (fd : α) (cloexec : Bool) (hsize : T.size < 2 ^ 31) :
    T.Stays (T.install alloc limit fd cloexec) := by
  obtain ⟨o, ho, hgrown, hin, -⟩ := installStart_ok alloc limit fd (Nat.two_pow_pos 31) hsize
  unfold install
  rw [show T.installStart alloc limit fd 0 = .ok o from ho, ok_bind]
  split_ifs with hset
  · exact hgrown.stays_bitPut (hin hset.1) true _
  · exact hgrown.stays _

theorem dup_stays (h31 : f < 2 ^ 31) (hsize : T.size < 2 ^ 31) : T.Stays (T.dup alloc limit f) := by
  exact stays_get h31 ((Grown.refl hsize.le).stays _) fun x _ _ => install_stays x false hsize

theorem dup3_stays {newF : Int} (cloexec : Bool) (h31 : f < 2 ^ 31) (hnew31 : newF < 2 ^ 31)
    (hsize : T.size ≤ 2 ^ 31)
    (hnew : T.Opened f → 0 ≤ newF ∨ limit.toNat < (unsigned (newF + 1)).toNat) :
    T.Stays (T.dup3 env alloc limit f newF cloexec) := by
  refine stays_get h31 ((Grown.refl hsize).stays _) fun x _ hopen => ?_
  dsimp only
  rcases hnew hopen with h0 | hover
  · obtain ⟨n, rfl⟩ := Int.eq_ofNat_of_zero_le h0
    have hn : n < 2 ^ 31 := by omega
    obtain ⟨⟨err, T1⟩, h1, hgrown, hin, -⟩ := expand_ok alloc limit hn hsize
    rw [← signed_of_lt hn, h1, ok_bind]
    rw [signed_of_lt hn]
    by_cases herr : err < 0
    · rw [if_pos herr]
      exact hgrown.stays _
    obtain ⟨⟨e, T2⟩, h2, hgrown2⟩ := close_stays env hnew31 hgrown.le
    have hin2 : T2.InRange (n : Int) :=
      (inRange_natCast.mpr (hin (Int.not_lt.mp herr))).of_size hgrown2.ge
    obtain ⟨T3, h3, hsize3⟩ := write_inRange hin2 (some x)
    have hgrown3 : T.Grown T3 := (hgrown.trans hgrown2).of_size hsize3
    rw [if_neg herr, h2, ok_bind]
    rw [h3, ok_bind]
    cases cloexec with
    | true => exact hgrown3.stays_bitPut (hin2.of_size hsize3.ge) true _
    | false => exact hgrown3.stays _
  · -- `EMFILE`, whatever the number
    rw [expand, if_pos hover, ok_bind]
    dsimp only
    rw [if_pos (by decide)]
    exact (Grown.refl hsize).stays _

theorem fcntl_stays (h31 : f < 2 ^ 31) (hsize : T.size ≤ 2 ^ 31)
    (hdup : T.Opened f → cmd = F_DUPFD → arg.toNat < 2 ^ 31 ∧ T.size < 2 ^ 31)
    (hcloexec : T.Opened f → cmd = F_DUPFD_CLOEXEC →
      arg.toNat < 2 ^ 31 ∧ T.size < 2 ^ 31 ∧ T.CanInstall alloc limit arg.toNat) :
    T.Stays (T.fcntl env alloc limit f cmd arg) := by
  refine stays_get h31 ((Grown.refl hsize).stays _) fun x hin hopen => ?_
  dsimp only
  split_ifs with h1 h2
  · obtain ⟨harg, hlt⟩ := hdup hopen h1
    obtain ⟨o, ho, hgrown, -⟩ := installStart_ok alloc limit x harg hlt
    rw [signed_of_lt harg, ho]
    exact hgrown.stays _
  · obtain ⟨harg, hlt, hroom⟩ := hcloexec hopen h2
    obtain ⟨o, ho, hgrown, hret, hinstalls⟩ := installStart_ok alloc limit x harg hlt
    rw [signed_of_lt harg, ho, ok_bind]
    exact hgrown.stays_bitPut (hret (hinstalls hroom)) true _
  · obtain ⟨b, hb⟩ := bitTest_inRange hin
    rw [hb]
    exact (Grown.refl hsize).stays _
  · exact (Grown.refl hsize).stays_bitPut hin _ _
  · exact (Grown.refl hsize).stays _

theorem ioctl_stays (h31 : f < 2 ^ 31) (hsize : T.size ≤ 2 ^ 31) :
    T.Stays (T.ioctl env f cmd arg) := by
  refine stays_get h31 ((Grown.refl hsize).stays _) fun x hin _ => ?_
  split_ifs
  · exact (Grown.refl hsize).stays_bitPut hin _ _
  · exact (Grown.refl hsize).stays_bitPut hin _ _
  · exact (Grown.refl hsize).stays _

theorem cloexecTurn_ok (env : Env α) (hn : n < T.size) (hsize : T.size ≤ 2 ^ 31) :
    ∃ T', T.cloexecTurn env n = .ok T' ∧ T.Grown T' := by
  have hsigned := signed_of_lt (show n < 2 ^ 31 by omega)
  have hin : T.InRange (signed n) := by
    rw [hsigned]
    exact inRange_natCast.mpr hn
  obtain ⟨b, hb⟩ := bitTest_inRange hin
  unfold cloexecTurn
  rw [hb, ok_bind]
  cases b with
  | true =>
    obtain ⟨r, hr, hgrown⟩ := close_stays env (show signed n < 2 ^ 31 by omega) hsize
    rw [if_pos rfl, hr]
    exact ⟨_, rfl, hgrown⟩
  | false => exact ⟨T, rfl, .refl hsize⟩

theorem cloexecLoop_ok (env : Env α) (hk : n + k ≤ T.size) (hsize : T.size ≤ 2 ^ 31) :
    ∃ T', cloexecLoop env k n T = .ok T' ∧ T.Grown T' := by
  induction k generalizing n T with
  | zero => exact ⟨T, rfl, .refl hsize⟩
  | succ k ih =>
    obtain ⟨T1, h1, hgrown1⟩ := cloexecTurn_ok (n := n) env (by omega) hsize
    have hge := hgrown1.ge
    obtain ⟨T', hT', hgrown⟩ := ih (n := n + 1) (by omega) hgrown1.le
    refine ⟨T', ?_, hgrown1.trans hgrown⟩
    rw [cloexecLoop, h1, ok_bind]
    exact hT'

theorem doCloexec_stays (env : Env α) (hsize : T.size ≤ 2 ^ 31) : T.Stays (T.doCloexec env) := by
  obtain ⟨T', hT', hgrown⟩ := cloexecLoop_ok (k := T.size) (n := 0) env (by omega) hsize
  unfold doCloexec
  rw [hT']
  exact hgrown.stays 0

theorem copy_ok (alloc : Nat → Bool) (hpos : 0 < T.size) (hsize : T.size < 2 ^ 31) :
    T.copy alloc = .ok (some T) ∨ T.copy alloc = .ok none := by
  have hofNat : (UInt32.ofNat T.size).toNat = T.size := by
    rw [UInt32.toNat_ofNat']
    omega
  have hempty : (empty : Table α).size < (UInt32.ofNat T.size).toNat := by
    rw [hofNat]
    exact hpos
  unfold copy resize
  rw [dif_pos hempty]
  by_cases halloc : alloc (UInt32.ofNat T.size).toNat = true
  · left
    rw [if_pos halloc, ok_bind]
    dsimp only
    rw [if_neg (by decide), if_pos hsize]
  right
  rw [if_neg halloc, ok_bind]
  dsimp only
  rw [if_pos (by decide)]

theorem nextTaken_ok (hk : n + k ≤ T.size) : ∃ m, T.nextTaken k n = .ok m ∧ n ≤ m := by
  induction k generalizing n with
  | zero => exact ⟨n, rfl, Nat.le_refl n⟩
  | succ k ih =>
    rw [nextTaken, read_natCast (by omega), ok_bind]
    cases slot T.files n with
    | some x => exact ⟨n, rfl, Nat.le_refl n⟩
    | none =>
      obtain ⟨m, hm, hle⟩ := ih (n := n + 1) (by omega)
      exact ⟨m, hm, by omega⟩

theorem lookup_ok (name : Nat) {index : Nat} (hindex : index ≤ T.size) :
    ∃ r, T.lookup name k index = .ok r ∧ ∀ n, r = some n → n < T.size := by
  induction k generalizing index with
  | zero => exact ⟨none, rfl, by simp⟩
  | succ k ih =>
    obtain ⟨n, hn, hle⟩ := nextTaken_ok (T := T) (k := T.size - index) (n := index) (by omega)
    rw [lookup, hn, ok_bind]
    by_cases hlt : n < T.size
    · rw [if_pos hlt]
      by_cases hname : n = name
      · rw [if_pos hname]
        refine ⟨_, rfl, ?_⟩
        rintro m ⟨⟩
        exact hlt
      · rw [if_neg hname]
        exact ih hlt
    · rw [if_neg hlt]
      exact ⟨none, rfl, by simp⟩

end Facts

end Table

/-! ## Tasks -/

structure State (τ α : Type) where
  /-- The tables, by their addresses, and the one of each task. -/
  table : Nat → Option (Table α)
  files : τ → Option Nat
  /-- `RLIMIT_NOFILE`. -/
  limit : τ → UInt64
  /-- What a task has found in `/proc/<pid>/fd` and not read yet. -/
  entry : τ → Option (τ × Nat)

inductive Op (τ α : Type) where
  /-- A new file is installed, as in `open`. -/
  | install (t : τ) (fd : α) (cloexec : Bool)
  | close (t : τ) (f : Int32)
  | dup (t : τ) (f : Int32)
  | dup3 (t : τ) (f newF : Int32) (cloexec : Bool)
  | fcntl (t : τ) (f : Int32) (cmd arg : UInt32)
  | ioctl (t : τ) (f : Int32) (cmd arg : UInt32)
  | exec (t : τ)
  /-- A fork, with a copy of the table at a new address or with the table itself. -/
  | copy (t child : τ) (new : Nat)
  | share (t child : τ)
  | setLimit (t : τ) (limit : UInt64)
  | lookup (t target : τ) (name : Nat)
  | readlink (t : τ)

def ENOENT : Int := -2

namespace State

section Model

variable {τ α : Type} [DecidableEq τ] (env : Env α)

def tableOf (σ : State τ α) (t : τ) : Option (Table α) := (σ.files t).bind σ.table

/-- A call on the table of the current task. -/
def onTable (σ : State τ α) (t : τ) (call : Table α → Except Fault (Int × Table α)) :
    Option (State τ α × Except Fault Int) :=
  (σ.files t).bind fun i => (σ.table i).map fun T =>
    match call T with
    | .ok (r, T') => ({ σ with table := update σ.table i (some T') }, .ok r)
    | .error e => (σ, .error e)

/-- A step, with the allocations that succeed in it. -/
def step (σ : State τ α) (l : Op τ α × (Nat → Bool)) : Option (State τ α × Except Fault Int) :=
  let alloc := l.2
  match l.1 with
  | .install t fd cloexec => σ.onTable t fun T => T.install alloc (σ.limit t) fd cloexec
  | .close t f => σ.onTable t fun T => T.close env T.size f.toInt
  | .dup t f => σ.onTable t fun T => T.dup alloc (σ.limit t) f.toInt
  | .dup3 t f newF cloexec =>
    σ.onTable t fun T => T.dup3 env alloc (σ.limit t) f.toInt newF.toInt cloexec
  | .fcntl t f cmd arg => σ.onTable t fun T => T.fcntl env alloc (σ.limit t) f.toInt cmd arg
  | .ioctl t f cmd arg => σ.onTable t fun T => T.ioctl env f.toInt cmd arg
  | .exec t => σ.onTable t fun T => T.doCloexec env
  | .copy t child new =>
    if (σ.files child).isNone ∧ (σ.table new).isNone then
      (σ.tableOf t).map fun T =>
        match T.copy alloc with
        | .ok (some T') =>
          ({ σ with
              table := update σ.table new (some T')
              files := update σ.files child (some new)
              limit := update σ.limit child (σ.limit t) }, .ok 0)
        | .ok none => (σ, .ok ENOMEM)
        | .error e => (σ, .error e)
    else none
  | .share t child =>
    if (σ.files child).isNone then
      (σ.files t).map fun i =>
        ({ σ with
            files := update σ.files child (some i)
            limit := update σ.limit child (σ.limit t) }, .ok 0)
    else none
  | .setLimit t limit => some ({ σ with limit := update σ.limit t limit }, .ok 0)
  | .lookup t target name =>
    (σ.tableOf target).map fun T =>
      match T.lookup name (T.size + 1) 0 with
      | .ok (some n) => ({ σ with entry := update σ.entry t (some (target, n)) }, .ok 0)
      | .ok none => (σ, .ok ENOENT)
      | .error e => (σ, .error e)
  | .readlink t =>
    (σ.entry t).bind fun e => (σ.tableOf t).bind fun own => (σ.tableOf e.1).map fun T =>
      match T.get own.size (signed e.2) with
      | .ok _ => ({ σ with entry := update σ.entry t none }, .ok 0)
      | .error e => (σ, .error e)

def machine : Machine (State τ α) (Op τ α × (Nat → Bool)) (Except Fault Int) := ⟨step env⟩

theorem three_length (stdin stdout stderr : Option α) :
    [false, false, false].length = [stdin, stdout, stderr].length := rfl

theorem three_size_lt (stdin stdout stderr : Option α) :
    [stdin, stdout, stderr].length < 2 ^ 32 := by
  simp

/-- The first task, with the table of `fdtable_new(3)`. -/
def init (root : τ) (stdin stdout stderr : Option α) (limit : τ → UInt64) : State τ α where
  table := update (fun _ => none) 0
    (some ⟨[stdin, stdout, stderr], [false, false, false], three_length stdin stdout stderr,
      three_size_lt stdin stdout stderr⟩)
  files := update (fun _ => none) root (some 0)
  limit := limit
  entry := fun _ => none

/-- The numbers that the calls are made for. Every table that is searched or copied has fewer than
`2 ^ 31` slots. A number to duplicate to is not negative, or over the limit; a number to start from
is below `2 ^ 31`; and there is a descriptor to be had for `F_DUPFD_CLOEXEC`. -/
def StepInRange (σ : State τ α) (l : Op τ α × (Nat → Bool)) : Prop :=
  match l.1 with
  | .install t _ _ => ∀ T, σ.tableOf t = some T → T.size < 2 ^ 31
  | .dup t _ => ∀ T, σ.tableOf t = some T → T.size < 2 ^ 31
  | .dup3 t f newF _ => ∀ T, σ.tableOf t = some T → T.Opened f.toInt →
      0 ≤ newF.toInt ∨ (σ.limit t).toNat < (unsigned (newF.toInt + 1)).toNat
  | .fcntl t f cmd arg => ∀ T, σ.tableOf t = some T → T.Opened f.toInt →
      (cmd = F_DUPFD → arg.toNat < 2 ^ 31 ∧ T.size < 2 ^ 31) ∧
      (cmd = F_DUPFD_CLOEXEC → arg.toNat < 2 ^ 31 ∧ T.size < 2 ^ 31 ∧
        T.CanInstall l.2 (σ.limit t) arg.toNat)
  | .copy t _ _ => ∀ T, σ.tableOf t = some T → T.size < 2 ^ 31
  | _ => True

end Model

section Runs

variable {τ α : Type} {σ σ' : State τ α}

structure Sized (σ : State τ α) : Prop where
  tables : ∀ i T, σ.table i = some T → 0 < T.size ∧ T.size ≤ 2 ^ 31
  entries : ∀ t p n, σ.entry t = some (p, n) → ∃ T, σ.tableOf p = some T ∧ n < T.size

theorem tableOf_eq_some {t : τ} {T : Table α} :
    σ.tableOf t = some T ↔ ∃ i, σ.files t = some i ∧ σ.table i = some T := by
  rw [tableOf, bind_eq_some_iff]

/-- A call that does not leave its table. -/
theorem Sized.onTable (h : Sized σ) {t : τ} {call : Table α → Except Fault (Int × Table α)}
    {out : Except Fault Int}
    (hcall : ∀ T, σ.tableOf t = some T → T.size ≤ 2 ^ 31 → T.Stays (call T))
    (hstep : σ.onTable t call = some (σ', out)) : Sized σ' ∧ ∃ r, out = .ok r := by
  obtain ⟨i, hi, hmap⟩ := bind_eq_some_iff.mp hstep
  obtain ⟨T, hT, heq⟩ := map_eq_some_iff.mp hmap
  obtain ⟨⟨r, T'⟩, hr, hgrown⟩ := hcall T (tableOf_eq_some.mpr ⟨i, hi, hT⟩) (h.tables i T hT).2
  rw [hr] at heq
  cases heq
  dsimp only at hgrown
  refine ⟨⟨?_, ?_⟩, r, rfl⟩
  · intro j T1 hj
    rcases update_cases hj with ⟨-, hnew⟩ | ⟨-, hold⟩
    · cases hnew
      have hpos := (h.tables i T hT).1
      exact ⟨by have hge := hgrown.ge; omega, hgrown.le⟩
    · exact h.tables j T1 hold
  intro u p n hentry
  obtain ⟨T1, hT1, hn⟩ := h.entries u p n hentry
  obtain ⟨j, hj, hTj⟩ := tableOf_eq_some.mp hT1
  by_cases hji : j = i
  · -- the entry is in the table that has changed
    subst hji
    obtain rfl := Option.mem_unique hT hTj
    exact ⟨T', tableOf_eq_some.mpr ⟨j, hj, update_self _ _ _⟩, Nat.lt_of_lt_of_le hn hgrown.ge⟩
  refine ⟨T1, tableOf_eq_some.mpr ⟨j, hj, ?_⟩, hn⟩
  rw [← hTj]
  exact update_of_ne hji _ _

/-- A step that leaves the tables of the tasks as they are, and adds no entry. -/
theorem Sized.of_files (h : Sized σ) (htable : ∀ i T, σ'.table i = some T →
      ∃ j, σ.table j = some T)
    (hkeep : ∀ p T, σ.tableOf p = some T → σ'.tableOf p = some T)
    (hentry : ∀ t e, σ'.entry t = some e → σ.entry t = some e) : Sized σ' := by
  constructor
  · intro i T hT
    obtain ⟨j, hj⟩ := htable i T hT
    exact h.tables j T hj
  intro t p n he
  obtain ⟨T, hT, hn⟩ := h.entries t p n (hentry t (p, n) he)
  exact ⟨T, hkeep p T hT, hn⟩

variable [DecidableEq τ] {env : Env α}

theorem files_update_of_none {t child : τ} {i j : Nat} (hchild : σ.files child = none)
    (ht : σ.files t = some j) : update σ.files child (some i) t = some j := by
  rw [update_of_ne, ht]
  rintro rfl
  simp [hchild] at ht

theorem Sized.step {l : Op τ α × (Nat → Bool)} {out : Except Fault Int} (h : Sized σ)
    (hrange : StepInRange σ l) (hstep : (machine env).step σ l = some (σ', out)) :
    Sized σ' ∧ ∃ r, out = .ok r := by
  obtain ⟨op, alloc⟩ := l
  cases op with
  | install t fd cloexec =>
    exact h.onTable (fun T hT _ => install_stays fd cloexec (hrange T hT)) hstep
  | close t f =>
    exact h.onTable (fun T _ hsize => close_stays env (Int32.toInt_lt f) hsize) hstep
  | dup t f =>
    exact h.onTable (fun T hT _ => dup_stays (Int32.toInt_lt f) (hrange T hT)) hstep
  | dup3 t f newF cloexec =>
    exact h.onTable (fun T hT hsize => dup3_stays cloexec (Int32.toInt_lt f)
      (Int32.toInt_lt newF) hsize (hrange T hT)) hstep
  | fcntl t f cmd arg =>
    exact h.onTable (fun T hT hsize => fcntl_stays (Int32.toInt_lt f) hsize
      (fun hopen => (hrange T hT hopen).1) (fun hopen => (hrange T hT hopen).2)) hstep
  | ioctl t f cmd arg =>
    exact h.onTable (fun T _ hsize => ioctl_stays (Int32.toInt_lt f) hsize) hstep
  | exec t => exact h.onTable (fun T _ hsize => doCloexec_stays env hsize) hstep
  | copy t child new =>
    obtain ⟨⟨hchild, hnew⟩, hmap⟩ := ite_none_right_eq_some.mp hstep
    obtain ⟨T, hT, heq⟩ := map_eq_some_iff.mp hmap
    obtain ⟨i, hi, hTi⟩ := tableOf_eq_some.mp hT
    rw [isNone_iff_eq_none] at hchild hnew
    rcases copy_ok alloc (h.tables i T hTi).1 (hrange T hT) with hcopy | hcopy
    · rw [hcopy] at heq
      cases heq
      refine ⟨h.of_files ?_ ?_ fun _ _ he => he, 0, rfl⟩
      · intro j T1 hj
        rcases update_cases hj with ⟨-, hnew⟩ | ⟨-, hold⟩
        · exact ⟨i, hTi.trans hnew⟩
        · exact ⟨j, hold⟩
      -- the new table is at a new address, for a new task
      intro p T1 hp
      obtain ⟨j, hj, hTj⟩ := tableOf_eq_some.mp hp
      have hjn : j ≠ new := by
        rintro rfl
        simp [hnew] at hTj
      refine tableOf_eq_some.mpr ⟨j, files_update_of_none hchild hj, ?_⟩
      rw [← hTj]
      exact update_of_ne hjn _ _
    · rw [hcopy] at heq
      cases heq
      exact ⟨h, ENOMEM, rfl⟩
  | share t child =>
    obtain ⟨hchild, hmap⟩ := ite_none_right_eq_some.mp hstep
    obtain ⟨i, hi, heq⟩ := map_eq_some_iff.mp hmap
    rw [isNone_iff_eq_none] at hchild
    cases heq
    refine ⟨h.of_files (fun j T hj => ⟨j, hj⟩) ?_ fun _ _ he => he, 0, rfl⟩
    intro p T hp
    obtain ⟨j, hj, hTj⟩ := tableOf_eq_some.mp hp
    exact tableOf_eq_some.mpr ⟨j, files_update_of_none hchild hj, hTj⟩
  | setLimit t limit =>
    cases hstep
    exact ⟨h.of_files (fun j T hj => ⟨j, hj⟩) (fun _ _ hp => hp) fun _ _ he => he, 0, rfl⟩
  | lookup t target name =>
    obtain ⟨T, hT, heq⟩ := map_eq_some_iff.mp hstep
    obtain ⟨r, hr, hlt⟩ := lookup_ok (T := T) name (k := T.size + 1) (Nat.zero_le T.size)
    rw [hr] at heq
    cases r with
    | none =>
      cases heq
      exact ⟨h, ENOENT, rfl⟩
    | some n =>
      cases heq
      refine ⟨⟨h.tables, ?_⟩, 0, rfl⟩
      intro u p m hentry
      rcases update_cases hentry with ⟨-, hnew⟩ | ⟨-, hold⟩
      · cases hnew
        exact ⟨T, hT, hlt n rfl⟩
      · exact h.entries u p m hold
  | readlink t =>
    obtain ⟨⟨p, n⟩, hentry, hbind⟩ := bind_eq_some_iff.mp hstep
    obtain ⟨own, hown, hmap⟩ := bind_eq_some_iff.mp hbind
    obtain ⟨T, hT, heq⟩ := map_eq_some_iff.mp hmap
    obtain ⟨T1, hT1, hn⟩ := h.entries t p n hentry
    obtain rfl := Option.mem_unique hT hT1
    obtain ⟨i, -, hTi⟩ := tableOf_eq_some.mp hT
    have hsize := (h.tables i T hTi).2
    have hin : T.InRange (signed n) := by
      rw [signed_of_lt (by omega)]
      exact inRange_natCast.mpr hn
    obtain ⟨r, hr⟩ := get_inRange own.size hin
    rw [hr] at heq
    cases heq
    refine ⟨h.of_files (fun j T hj => ⟨j, hj⟩) (fun _ _ hp => hp) ?_, 0, rfl⟩
    intro u e he
    rcases update_cases he with ⟨-, hnew⟩ | ⟨-, hold⟩
    · cases hnew
    · exact hold

theorem init_sized (root : τ) (stdin stdout stderr : Option α) (limit : τ → UInt64) :
    Sized (init root stdin stdout stderr limit) := by
  constructor
  · intro i T hT
    change update (fun _ => none) 0 _ i = some T at hT
    rcases update_cases hT with ⟨-, hnew⟩ | ⟨-, hold⟩
    · cases hnew
      exact ⟨show 0 < 3 by decide, show 3 ≤ 2 ^ 31 by decide⟩
    · cases hold
  · intro t p n hentry
    cases hentry

/-- **Indices stay in their tables.** In a run in which each step meets `StepInRange`, no call of
any task uses an index that is not in the table it is used on, and no assertion fails. -/
theorem descriptors_in_range {τ α : Type} [DecidableEq τ] (env : Env α) (root : τ)
    (stdin stdout stderr : Option α) (limit : τ → UInt64) {ops : List (Op τ α × (Nat → Bool))}
    {σ : State τ α} {outs : List (Except Fault Int)}
    (hrange : (machine env).Along StepInRange (init root stdin stdout stderr limit) ops)
    (hrun : (machine env).run (init root stdin stdout stderr limit) ops = some (σ, outs)) :
    ∀ o ∈ outs, ∃ r, o = .ok r :=
  Machine.run_outs (fun _ _ _ _ h hP hstep => h.step hP hstep)
    (init_sized root stdin stdout stderr limit) hrange hrun

/-- The files of a small example: every operation returns 0. -/
def quiet : Env Nat := ⟨fun _ => 0, fun _ _ _ => 0, fun _ _ _ => 0⟩

/-- A descriptor is duplicated, the table is copied, and the copy's task looks at the original. -/
theorem descriptors_in_range_fork :
    ∃ (σ : State (Fin 2) Nat) (outs : List (Except Fault Int)),
      (machine quiet).run (init 0 (some 0) (some 1) (some 2) fun _ => 1024)
        [(.dup3 0 0 5 true, fun _ => true), (.copy 0 1 1, fun _ => true),
          (.lookup 1 0 5, fun _ => true), (.exec 1, fun _ => true),
          (.readlink 1, fun _ => true)] = some (σ, outs) ∧
      outs = [.ok 5, .ok 0, .ok 0, .ok 0, .ok 0] ∧ ∀ o ∈ outs, ∃ r, o = .ok r := by
  refine (fun hrun => ⟨_, _, hrun, by rfl,
    descriptors_in_range quiet 0 (some 0) (some 1) (some 2) (fun _ => 1024) ?_ hrun⟩) rfl
  refine (Machine.along_cons_of_step rfl _).mpr ⟨fun _ _ _ => .inl (by decide), ?_⟩
  refine (Machine.along_cons_of_step rfl _).mpr ⟨?_, ?_⟩
  · rintro T ⟨⟩
    exact show 6 < 2 ^ 31 by decide
  iterate 3 refine (Machine.along_cons_of_step rfl _).mpr ⟨trivial, ?_⟩
  exact Machine.along_nil _ _ _

/-- A store before the table, a search that starts below zero, and a bit that is set for an
error. -/
theorem descriptors_out_of_range :
    (∃ σ, (machine quiet).run (init (0 : Fin 1) (some 0) (some 1) (some 2) fun _ => 1024)
      [(.dup3 0 0 (-1) false, fun _ => true)] = some (σ, [.error .index])) ∧
    (∃ σ, (machine quiet).run (init (0 : Fin 1) (some 0) (some 1) (some 2) fun _ => 1024)
      [(.fcntl 0 0 F_DUPFD 0x80000000, fun _ => true)] = some (σ, [.error .assertion])) ∧
    (∃ σ, (machine quiet).run (init (0 : Fin 1) (some 0) (some 1) (some 2) fun _ => 3)
      [(.fcntl 0 0 F_DUPFD_CLOEXEC 0, fun _ => true)] = some (σ, [.error .index])) :=
  ⟨⟨_, rfl⟩, ⟨_, rfl⟩, ⟨_, rfl⟩⟩

end Runs

end State

end Ish.Descriptors
