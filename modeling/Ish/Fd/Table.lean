import Ish.Lib.Slots

set_option autoImplicit false

/-! # Descriptor tables

`struct fdtable` and `f_install_start` (`fs/fd.c`). An index that is not in the table and an
assertion that fails are faults. A descriptor number is an `int` that is read as `unsigned` and
back; it counts past `INT_MAX` to `INT_MIN`. `alloc n` says whether the two allocations for `n`
slots succeed.

`f_install_start` takes the limit as a 32-bit number, and `fdtable_expand` as the 64-bit number that
the guest has set. When the number does not fit, the search can end before the table does, at a slot
that `fdtable_expand` has no objection to.
-/

namespace Ish.Descriptors

open List Ish.Lib

inductive Fault where
  | index
  | assertion
deriving DecidableEq

@[simp] theorem ok_bind {α β : Type} (a : α) (g : α → Except Fault β) :
    (Except.ok a >>= g) = g a := rfl

@[simp] theorem error_bind {α β : Type} (e : Fault) (g : α → Except Fault β) :
    (Except.error e >>= g) = .error e := rfl

def EBADF : Int := -9
def ENOMEM : Int := -12
def EMFILE : Int := -24

/-- `(unsigned) i` and `(fd_t) n`. -/
def unsigned (i : Int) : UInt32 := UInt32.ofNat (i % 2 ^ 32).toNat

def signed (n : Nat) : Int := if n < 2 ^ 31 then n else n - 2 ^ 32

theorem unsigned_toNat (i : Int) : (unsigned i).toNat = (i % 2 ^ 32).toNat := by
  have hlt : (i % 2 ^ 32).toNat < 2 ^ 32 := by omega
  rw [unsigned, UInt32.toNat_ofNat']
  exact Nat.mod_eq_of_lt hlt

theorem signed_of_lt {n : Nat} (h : n < 2 ^ 31) : signed n = n := if_pos h

/-! ## The table -/

/-- `files` and `cloexec` have `size` entries. -/
structure Table (α : Type) where
  files : List (Option α)
  cloexec : List Bool
  cloexec_length : cloexec.length = files.length
  size_lt : files.length < 2 ^ 32

namespace Table

section Model

variable {α : Type}

def size (T : Table α) : Nat := T.files.length

def InRange (T : Table α) (i : Int) : Prop := 0 ≤ i ∧ i < T.size

instance (T : Table α) (i : Int) : Decidable (T.InRange i) := inferInstanceAs (Decidable (_ ∧ _))

/-- `table->files[i]`. -/
def read (T : Table α) (i : Int) : Except Fault (Option α) :=
  if T.InRange i then .ok (slot T.files i.toNat) else .error .index

def setFile (T : Table α) (n : Nat) (x : Option α) : Table α where
  files := T.files.set n x
  cloexec := T.cloexec
  cloexec_length := by rw [length_set, T.cloexec_length]
  size_lt := by rw [length_set]; exact T.size_lt

def write (T : Table α) (i : Int) (x : Option α) : Except Fault (Table α) :=
  if T.InRange i then .ok (T.setFile i.toNat x) else .error .index

/-- `bit_test`, `bit_set` and `bit_clear` on `table->cloexec`. -/
def bit (T : Table α) (n : Nat) : Bool := T.cloexec.getD n false

def setBit (T : Table α) (n : Nat) (b : Bool) : Table α where
  files := T.files
  cloexec := T.cloexec.set n b
  cloexec_length := by rw [length_set, T.cloexec_length]
  size_lt := T.size_lt

def bitTest (T : Table α) (i : Int) : Except Fault Bool :=
  if T.InRange i then .ok (T.bit i.toNat) else .error .index

def bitPut (T : Table α) (i : Int) (b : Bool) : Except Fault (Table α) :=
  if T.InRange i then .ok (T.setBit i.toNat b) else .error .index

/-- More slots, all free. -/
def grow (T : Table α) (size : UInt32) (h : T.size < size.toNat) : Table α where
  files := T.files ++ replicate (size.toNat - T.size) none
  cloexec := T.cloexec ++ replicate (size.toNat - T.size) false
  cloexec_length := by
    rw [length_append, length_append, length_replicate, length_replicate, T.cloexec_length]
  size_lt := by
    have hlt := size.toNat_lt
    unfold Table.size at h ⊢
    rw [length_append, length_replicate]
    omega

/-- `fdtable_resize`. -/
def resize (alloc : Nat → Bool) (T : Table α) (size : UInt32) : Except Fault (Int × Table α) :=
  if h : T.size < size.toNat then
    if alloc size.toNat then .ok (0, T.grow size h) else .ok (ENOMEM, T)
  else .error .assertion

/-- `fdtable_expand`. -/
def expand (alloc : Nat → Bool) (limit : UInt64) (T : Table α) (max : Int) :
    Except Fault (Int × Table α) :=
  let size := unsigned (max + 1)
  if limit.toNat < size.toNat then .ok (EMFILE, T)
  else if size.toNat ≤ T.size then .ok (0, T)
  else T.resize alloc size

/-- The loop of `f_install_start`, for so many slots at most. -/
def scan (T : Table α) : Nat → Nat → Except Fault Nat
  | 0, n => .ok n
  | k + 1, n =>
    match T.read (signed n) with
    | .error e => .error e
    | .ok none => .ok n
    | .ok (some _) => T.scan k (n + 1)

/-- What `f_install_start` leaves; `released` is that it has called `fd_close`. -/
structure Installed (α : Type) where
  ret : Int
  table : Table α
  released : Bool

/-- The end of `f_install_start`. -/
def place (T : Table α) (fd : α) (f : Int) : Except Fault (Installed α) :=
  if 0 ≤ f then do
    let T1 ← T.write f (some fd)
    let T2 ← T1.bitPut f false
    .ok ⟨f, T2, false⟩
  else .ok ⟨f, T, true⟩

/-- `unsigned size = rlimit(RLIMIT_NOFILE_)`, and no more than the table has. -/
def searchSize (limit : UInt64) (T : Table α) : Nat := min (limit.toNat % 2 ^ 32) T.size

/-- The search has ended at `n` without a slot. -/
def installAt (alloc : Nat → Bool) (limit : UInt64) (T : Table α) (fd : α) (n : Nat) :
    Except Fault (Installed α) := do
  let (err, T1) ← T.expand alloc limit (signed n)
  T1.place fd (if err < 0 then err else signed n)

/-- `f_install_start`. -/
def installStart (alloc : Nat → Bool) (limit : UInt64) (T : Table α) (fd : α) (start : Int) :
    Except Fault (Installed α) :=
  if start < 0 then .error .assertion
  else do
    let size := T.searchSize limit
    let n ← T.scan (size - start.toNat) start.toNat
    if size ≤ n then T.installAt alloc limit fd n else T.place fd (signed n)

end Model

section Facts

variable {α : Type} {T T' : Table α} {alloc : Nat → Bool} {limit : UInt64} {fd : α}
  {start first f n k : Nat}

/-! ## Reading and writing -/

theorem inRange_natCast : T.InRange (n : Int) ↔ n < T.size := by
  unfold InRange
  omega

theorem read_natCast (hn : n < T.size) : T.read n = .ok (slot T.files n) := by
  rw [read, if_pos (inRange_natCast.mpr hn), Int.toNat_natCast]

theorem bit_setBit (hn : n < T.size) (b : Bool) (m : Nat) :
    (T.setBit n b).bit m = if m = n then b else T.bit m := by
  unfold bit setBit
  have hlen : n < T.cloexec.length := by
    rw [T.cloexec_length]
    exact hn
  by_cases hm : m = n
  · subst hm
    rw [if_pos rfl, getD_eq_getElem?_getD, getElem?_set_self hlen, Option.getD_some]
  · rw [if_neg hm, getD_eq_getElem?_getD, getElem?_set_ne (Ne.symm hm), getD_eq_getElem?_getD]

theorem slot_grow {size : UInt32} (h : T.size < size.toNat) (m : Nat) :
    slot (T.grow size h).files m = slot T.files m := slot_append_free _ _ _

theorem bit_grow {size : UInt32} (h : T.size < size.toNat) (m : Nat) :
    (T.grow size h).bit m = T.bit m := by
  show (T.cloexec ++ replicate _ false).getD m false = T.cloexec.getD m false
  rw [getD_eq_getElem?_getD, getD_eq_getElem?_getD]
  by_cases hm : m < T.cloexec.length
  · rw [getElem?_append_left hm]
  have hle := Nat.le_of_not_lt hm
  rw [getElem?_append_right hle, getElem?_eq_none hle, getElem?_replicate]
  split <;> rfl

theorem size_grow {size : UInt32} (h : T.size < size.toNat) :
    (T.grow size h).size = size.toNat := by
  show (T.files ++ replicate _ none).length = _
  unfold Table.size at h ⊢
  rw [length_append, length_replicate]
  omega

/-- The slots and bits of one table are those of another, but for one slot. -/
structure Puts (T T' : Table α) (f : Nat) (fd : α) : Prop where
  slots : ∀ g, slot T'.files g = if g = f then some fd else slot T.files g
  bits : ∀ g, T'.bit g = if g = f then false else T.bit g

theorem place_of_lt (hf : f < T.size) (fd : α) :
    ∃ T', T.place fd f = .ok ⟨f, T', false⟩ ∧ T.Puts T' f fd ∧ T'.size = T.size := by
  have hin : T.InRange (f : Int) := inRange_natCast.mpr hf
  have hsize : (T.setFile f (some fd)).size = T.size := length_set
  have hin' : (T.setFile f (some fd)).InRange (f : Int) := by
    rw [inRange_natCast, hsize]
    exact hf
  refine ⟨(T.setFile f (some fd)).setBit f false, ?_, ⟨?_, ?_⟩, hsize⟩
  · rw [place, if_pos (Int.natCast_nonneg f), write, if_pos hin, Int.toNat_natCast, ok_bind,
      bitPut, if_pos hin', Int.toNat_natCast, ok_bind]
  · intro g
    exact slot_set hf (some fd) g
  intro g
  rw [bit_setBit (by rw [hsize]; exact hf)]
  rfl

theorem place_of_neg {i : Int} (hi : i < 0) (fd : α) : T.place fd i = .ok ⟨i, T, true⟩ := by
  rw [place, if_neg (Int.not_le.mpr hi)]

/-! ## The search -/

theorem scan_succ_free (hn : n < T.size) (h31 : n < 2 ^ 31) (hfree : slot T.files n = none) :
    T.scan (k + 1) n = .ok n := by
  rw [scan, signed_of_lt h31, read_natCast hn, hfree]

theorem scan_succ_taken (hn : n < T.size) (h31 : n < 2 ^ 31) (htaken : slot T.files n ≠ none) :
    T.scan (k + 1) n = T.scan k (n + 1) := by
  obtain ⟨x, hx⟩ := Option.ne_none_iff_exists'.mp htaken
  rw [scan, signed_of_lt h31, read_natCast hn, hx]

theorem scan_first (hf : FirstFree T.files n f) (hlt : f < n + k) (hk : n + k ≤ T.size)
    (h31 : f < 2 ^ 31) : T.scan k n = .ok f := by
  have hle := hf.start_le
  induction k generalizing n with
  | zero => omega
  | succ k ih =>
    by_cases hfree : slot T.files n = none
    · obtain rfl : f = n := Nat.le_antisymm (hf.le (Nat.le_refl n) hfree) hle
      exact scan_succ_free (by omega) h31 hfree
    have hnext := hf.succ hfree
    rw [scan_succ_taken (by omega) (by omega) hfree]
    exact ih hnext (by omega) (by omega) hnext.start_le

theorem scan_full (htaken : ∀ g, n ≤ g → g < n + k → slot T.files g ≠ none)
    (hk : n + k ≤ T.size) (h31 : n + k ≤ 2 ^ 31) : T.scan k n = .ok (n + k) := by
  induction k generalizing n with
  | zero => rfl
  | succ k ih =>
    rw [scan_succ_taken (by omega) (by omega) (htaken n (Nat.le_refl n) (by omega)),
      ih (fun g hg hlt => htaken g (by omega) (by omega)) (by omega) (by omega)]
    congr 1
    omega

/-- Past `INT_MAX` the index is negative. -/
theorem scan_past (htaken : ∀ g, n ≤ g → g < 2 ^ 31 → slot T.files g ≠ none) (hn : n ≤ 2 ^ 31)
    (h31 : 2 ^ 31 < n + k) (hk : n + k ≤ T.size) : T.scan k n = .error .index := by
  induction k generalizing n with
  | zero => omega
  | succ k ih =>
    by_cases hlast : n = 2 ^ 31
    · have hout : ¬ T.InRange (signed n) := by
        rw [hlast]
        unfold InRange signed
        omega
      rw [scan, read, if_neg hout]
    · rw [scan_succ_taken (by omega) (by omega) (htaken n (Nat.le_refl n) (by omega))]
      exact ih (fun g hg hlt => htaken g (by omega) hlt) (by omega) (by omega) (by omega)

/-! ## Making room -/

/-- What `fdtable_expand` is asked for. -/
theorem unsigned_signed_succ (hn : n < 2 ^ 32 - 1) : (unsigned (signed n + 1)).toNat = n + 1 := by
  rw [unsigned_toNat]
  unfold signed
  split <;> omega

theorem expand_over (hn : n < 2 ^ 32 - 1) (hlimit : limit.toNat < n + 1) :
    T.expand alloc limit (signed n) = .ok (EMFILE, T) := by
  unfold expand
  dsimp only
  rw [unsigned_signed_succ hn, if_pos hlimit]

theorem expand_inside (hn : n < 2 ^ 32 - 1) (hlimit : n + 1 ≤ limit.toNat) (hsize : n < T.size) :
    T.expand alloc limit (signed n) = .ok (0, T) := by
  unfold expand
  dsimp only
  rw [unsigned_signed_succ hn, if_neg (by omega), if_pos (by omega)]

theorem expand_behind (alloc : Nat → Bool) (hn : n < 2 ^ 32 - 1) (hlimit : n + 1 ≤ limit.toNat)
    (hsize : T.size ≤ n) :
    ∃ h : T.size < (unsigned (signed n + 1)).toNat,
      T.expand alloc limit (signed n) =
        if alloc (n + 1) then .ok (0, T.grow (unsigned (signed n + 1)) h)
        else .ok (ENOMEM, T) := by
  have hunsigned := unsigned_signed_succ hn
  have h : T.size < (unsigned (signed n + 1)).toNat := by omega
  refine ⟨h, ?_⟩
  unfold expand resize
  rw [if_neg (by omega), if_neg (by omega), dif_pos h, hunsigned]

/-! ## What comes out -/

/-- `f_install_start` as it is meant. -/
def Installs (alloc : Nat → Bool) (limit : UInt64) (T : Table α) (fd : α) (start first : Nat) :
    Prop :=
  ∃ o, T.installStart alloc limit fd start = .ok o ∧
    if first < limit.toNat then o.ret = first ∧ o.released = false ∧ T.Puts o.table first fd
    else o.ret < 0 ∧ o.released = true ∧ ∀ g, slot o.table.files g = slot T.files g

/-- When it is. -/
def RoomFor (alloc : Nat → Bool) (limit : UInt64) (T : Table α) (start first : Nat) : Prop :=
  (first < 2 ^ 31 ∨ T.searchSize limit ≤ 2 ^ 31) ∧
    (first < limit.toNat →
      first < 2 ^ 31 ∧ (limit.toNat < 2 ^ 32 ∨ first ≤ max start (limit.toNat % 2 ^ 32)) ∧
        (first < T.size ∨ alloc (first + 1) = true))

theorem searchSize_le (limit : UInt64) (T : Table α) : T.searchSize limit ≤ T.size :=
  Nat.min_le_right _ _

theorem searchSize_le_limit (limit : UInt64) (T : Table α) : T.searchSize limit ≤ limit.toNat :=
  Nat.le_trans (Nat.min_le_left _ _) (Nat.mod_le _ _)

theorem installStart_of_scan {n : Nat}
    (hscan : T.scan (T.searchSize limit - start) start = .ok n) :
    T.installStart alloc limit fd start =
      if T.searchSize limit ≤ n then T.installAt alloc limit fd n else T.place fd (signed n) := by
  unfold installStart
  rw [if_neg (by omega)]
  dsimp only
  rw [Int.toNat_natCast, hscan]
  rfl

/-- The search finds a slot. -/
theorem installs_found (hfirst : FirstFree T.files start first)
    (hlt : first < T.searchSize limit) (h31 : first < 2 ^ 31) :
    T.Installs alloc limit fd start first := by
  have hsize := searchSize_le limit T
  have hlimit := searchSize_le_limit limit T
  have hle := hfirst.start_le
  have hscan : T.scan (T.searchSize limit - start) start = .ok first :=
    scan_first hfirst (by omega) (by omega) h31
  obtain ⟨T', hplace, hputs, -⟩ := place_of_lt (T := T) (f := first) (by omega) fd
  refine ⟨⟨first, T', false⟩, ?_, ?_⟩
  · rw [installStart_of_scan hscan, if_neg (by omega), signed_of_lt h31]
    exact hplace
  rw [if_pos (by omega)]
  exact ⟨rfl, rfl, hputs⟩

/-- The search runs past `INT_MAX`. -/
theorem not_installs_past (hstart : start < 2 ^ 31)
    (htaken : ∀ g, start ≤ g → g < 2 ^ 31 → slot T.files g ≠ none)
    (hbig : 2 ^ 31 < T.searchSize limit) : ¬ T.Installs alloc limit fd start first := by
  have hsize := searchSize_le limit T
  have hscan : T.scan (T.searchSize limit - start) start = .error .index :=
    scan_past htaken (by omega) (by omega) (by omega)
  rintro ⟨o, ho, -⟩
  unfold installStart at ho
  rw [if_neg (by omega)] at ho
  dsimp only at ho
  rw [Int.toNat_natCast, hscan, error_bind] at ho
  cases ho

section Behind

/-- The search ends without a slot, at `n`. -/
theorem installStart_behind
    (htaken : ∀ g, start ≤ g → g < T.searchSize limit → slot T.files g ≠ none)
    (hbig : T.searchSize limit ≤ 2 ^ 31) (hn : n = max start (T.searchSize limit)) :
    T.installStart alloc limit fd start = T.installAt alloc limit fd n := by
  have hsize := searchSize_le limit T
  have hscan : T.scan (T.searchSize limit - start) start = .ok n := by
    by_cases hle : start ≤ T.searchSize limit
    · rw [show n = start + (T.searchSize limit - start) by omega]
      exact scan_full (fun g hg hlt => htaken g hg (by omega)) (by omega) (by omega)
    rw [show T.searchSize limit - start = 0 by omega, show n = start by omega]
    rfl
  rw [installStart_of_scan hscan, if_pos (by omega)]

theorem installAt_fails {err : Int} (fd : α)
    (hexpand : T.expand alloc limit (signed n) = .ok (err, T)) (herr : err < 0) :
    T.installAt alloc limit fd n = .ok ⟨err, T, true⟩ := by
  rw [installAt, hexpand, ok_bind]
  dsimp only
  rw [if_pos herr, place_of_neg herr]

/-- The table that `fdtable_expand` leaves has the slot. -/
theorem installAt_places {T1 : Table α} (fd : α)
    (hexpand : T.expand alloc limit (signed n) = .ok (0, T1)) (h31 : n < 2 ^ 31)
    (hsize : n < T1.size) (hslots : ∀ g, slot T1.files g = slot T.files g)
    (hbits : ∀ g, T1.bit g = T.bit g) :
    ∃ T', T.installAt alloc limit fd n = .ok ⟨n, T', false⟩ ∧ T.Puts T' n fd ∧
      T'.size = T1.size := by
  obtain ⟨T', hplace, hputs, hsize'⟩ := place_of_lt hsize fd
  refine ⟨T', ?_, ⟨?_, ?_⟩, hsize'⟩
  · rw [installAt, hexpand, ok_bind]
    dsimp only
    rw [if_neg (Int.lt_irrefl 0), signed_of_lt h31]
    exact hplace
  · intro g
    rw [hputs.slots, hslots]
  · intro g
    rw [hputs.bits, hbits]

/-- Past `INT_MAX` there is room, but the number is negative. -/
theorem installAt_past {T1 : Table α} (fd : α)
    (hexpand : T.expand alloc limit (signed n) = .ok (0, T1)) (h31 : signed n < 0) :
    T.installAt alloc limit fd n = .ok ⟨signed n, T1, true⟩ := by
  rw [installAt, hexpand, ok_bind]
  dsimp only
  rw [if_neg (Int.lt_irrefl 0), place_of_neg h31]

/-- A descriptor that is not the first free one is wrong, and so is an error that is not asked
for. -/
theorem not_installs_of_ret {o : Installed α} (ho : T.installStart alloc limit fd start = .ok o)
    (hlimit : first < limit.toNat) (hret : o.ret ≠ first) :
    ¬ T.Installs alloc limit fd start first := by
  rintro ⟨o', ho', hspec⟩
  obtain rfl : o = o' := Except.ok.inj (ho.symm.trans ho')
  rw [if_pos hlimit] at hspec
  exact hret hspec.1

theorem installs_of_puts {T' : Table α}
    (ho : T.installStart alloc limit fd start = .ok ⟨first, T', false⟩)
    (hlimit : first < limit.toNat) (hputs : T.Puts T' first fd) :
    T.Installs alloc limit fd start first := by
  refine ⟨_, ho, ?_⟩
  rw [if_pos hlimit]
  exact ⟨rfl, rfl, hputs⟩

/-- There is room at `n`, in the table or in a longer one. -/
theorem installs_expanded_iff {T1 : Table α}
    (hexpand : T.expand alloc limit (signed n) = .ok (0, T1)) (hsize : n < T1.size)
    (hslots : ∀ g, slot T1.files g = slot T.files g) (hbits : ∀ g, T1.bit g = T.bit g)
    (hinstall : T.installStart alloc limit fd start = T.installAt alloc limit fd n)
    (hbound : n ≤ 2 ^ 31) (hfirst_ge : n ≤ first) (hall : first < limit.toNat) :
    T.Installs alloc limit fd start first ↔ first < 2 ^ 31 ∧ first = n := by
  by_cases h31 : n < 2 ^ 31
  · obtain ⟨T', hplaced, hputs, -⟩ := installAt_places fd hexpand h31 hsize hslots hbits
    rw [← hinstall] at hplaced
    by_cases heq : first = n
    · subst heq
      exact iff_of_true (installs_of_puts hplaced hall hputs) ⟨h31, rfl⟩
    -- the slot is taken, and is overwritten
    refine iff_of_false (not_installs_of_ret hplaced hall ?_) fun h => heq h.2
    show (n : Int) ≠ first
    omega
  have hneg : signed n < 0 := by
    unfold signed
    omega
  have hpast := installAt_past fd hexpand hneg
  rw [← hinstall] at hpast
  refine iff_of_false (not_installs_of_ret hpast hall ?_) fun h => by omega
  show signed n ≠ first
  omega

/-- The first free descriptor is behind the table. -/
theorem installs_grown_iff (hbound : n ≤ 2 ^ 31) (hlimit : n + 1 ≤ limit.toNat)
    (hinstall : T.installStart alloc limit fd start = T.installAt alloc limit fd n)
    (hbehind : T.size ≤ n) :
    T.Installs alloc limit fd start n ↔ n < 2 ^ 31 ∧ alloc (n + 1) = true := by
  obtain ⟨hgrow, hexpand⟩ := expand_behind alloc (show n < 2 ^ 32 - 1 by omega) hlimit hbehind
  by_cases halloc : alloc (n + 1) = true
  · rw [if_pos halloc] at hexpand
    have hsize : n < (T.grow (unsigned (signed n + 1)) hgrow).size := by
      rw [size_grow, unsigned_signed_succ (by omega)]
      omega
    rw [installs_expanded_iff hexpand hsize (slot_grow hgrow) (bit_grow hgrow) hinstall hbound
      (Nat.le_refl n) hlimit]
    simp [halloc]
  rw [if_neg halloc] at hexpand
  have hfails := installAt_fails fd hexpand (by decide)
  rw [← hinstall] at hfails
  refine iff_of_false (not_installs_of_ret hfails hlimit ?_) fun h => halloc h.2
  show ENOMEM ≠ n
  unfold ENOMEM
  omega

end Behind

/-- **The descriptor that comes out.** `f_install_start` returns the first free descriptor, and
nothing but its slot and bit change, when that is below the limit, and otherwise an error with the
table as it was and the reference released, exactly when `RoomFor` holds: the search stays below
`2 ^ 31`, and a descriptor below the limit is below `2 ^ 31`, can be allocated, and the limit fits
32 bits or its lower 32 bits do not end the search before. -/
theorem installStart_iff {α : Type} (alloc : Nat → Bool) (limit : UInt64) (T : Table α) (fd : α)
    {start first : Nat} (hstart : start < 2 ^ 31) (hfirst : FirstFree T.files start first) :
    T.Installs alloc limit fd start first ↔ T.RoomFor alloc limit start first := by
  have hsize := searchSize_le limit T
  have hlimit := searchSize_le_limit limit T
  have hdef : T.searchSize limit = min (limit.toNat % 2 ^ 32) T.size := rfl
  have hle := hfirst.start_le
  have hmax : first ≤ max start T.size := hfirst.le_max
  have hsize32 : T.size < 2 ^ 32 := T.size_lt
  by_cases hfound : first < T.searchSize limit
  · by_cases h31 : first < 2 ^ 31
    · refine ⟨fun _ => ⟨.inl h31, fun _ => ⟨h31, .inr ?_, .inl ?_⟩⟩,
        fun _ => installs_found hfirst hfound h31⟩
      · omega
      · omega
    -- it is there, but past `INT_MAX`
    have hnot : ¬ T.Installs alloc limit fd start first :=
      not_installs_past hstart (fun g hg hlt => hfirst.taken g hg (by omega)) (by omega)
    refine iff_of_false hnot ?_
    rintro ⟨-, hroom⟩
    exact h31 (hroom (by omega)).1
  · have htaken : ∀ g, start ≤ g → g < T.searchSize limit → slot T.files g ≠ none :=
      fun g hg hlt => hfirst.taken g hg (by omega)
    by_cases hbig : T.searchSize limit ≤ 2 ^ 31
    · obtain ⟨n, hn⟩ : ∃ n, n = max start (T.searchSize limit) := ⟨_, rfl⟩
      have hinstall : T.installStart alloc limit fd start = T.installAt alloc limit fd n :=
        installStart_behind htaken hbig hn
      have hn32 : n < 2 ^ 32 - 1 := by omega
      have hfirst_ge : n ≤ first := by omega
      by_cases hover : limit.toNat < n + 1
      · -- `EMFILE`, and the first free one is not below the limit
        refine iff_of_true ⟨⟨EMFILE, T, true⟩, ?_, ?_⟩ ⟨.inr hbig, fun h => by omega⟩
        · rw [hinstall]
          exact installAt_fails fd (expand_over hn32 hover) (by decide)
        rw [if_neg (by omega)]
        exact ⟨show EMFILE < 0 by decide, rfl, fun _ => rfl⟩
      by_cases hinside : n < T.size
      · have hhigh : 2 ^ 32 ≤ limit.toNat := by omega
        have hlow' : T.searchSize limit = limit.toNat % 2 ^ 32 := by omega
        have hall : first < limit.toNat := by omega
        -- the lower bits of the limit have ended the search inside the table
        rw [installs_expanded_iff (expand_inside hn32 (by omega) hinside) hinside (fun _ => rfl)
          (fun _ => rfl) hinstall (by omega) hfirst_ge hall]
        constructor
        · rintro ⟨h31, rfl⟩
          exact ⟨.inl h31, fun _ => ⟨h31, .inr (by omega), .inl hinside⟩⟩
        rintro ⟨-, hroom⟩
        obtain ⟨h31, hearly, -⟩ := hroom hall
        exact ⟨h31, by omega⟩
      · -- behind the table every slot is free
        have hbehind := Nat.le_of_not_lt hinside
        obtain rfl : first = n :=
          Nat.le_antisymm (hfirst.le (by omega) (slot_of_length_le hbehind)) hfirst_ge
        rw [installs_grown_iff (by omega) (by omega) hinstall hbehind]
        constructor
        · rintro ⟨h31, halloc⟩
          exact ⟨.inl h31, fun _ => ⟨h31, .inr (by omega), .inr halloc⟩⟩
        rintro ⟨-, hroom⟩
        obtain ⟨h31, -, hplace | halloc⟩ := hroom (by omega)
        · omega
        · exact ⟨h31, halloc⟩
    · have hnot : ¬ T.Installs alloc limit fd start first :=
        not_installs_past hstart (fun g hg hlt => htaken g hg (by omega)) (by omega)
      refine iff_of_false hnot ?_
      rintro ⟨h31 | h31, -⟩
      · omega
      · exact hbig h31

/-- The table with the standard descriptors. -/
def stdio : Table Nat := ⟨[some 0, some 1, some 2], [false, false, false], rfl, by decide⟩

theorem stdio_firstFree : FirstFree stdio.files 0 3 := by
  refine ⟨by decide, rfl, ?_⟩
  intro g _ hg
  interval_cases g <;> decide

/-- The first file that is opened under the usual limit. -/
theorem installStart_iff_stdio :
    stdio.RoomFor (fun _ => true) 1024 0 3 ∧ stdio.Installs (fun _ => true) 1024 7 0 3 := by
  have hroom : stdio.RoomFor (fun _ => true) 1024 0 3 :=
    ⟨by decide, fun _ => ⟨by decide, by decide, .inr rfl⟩⟩
  refine ⟨hroom, ?_⟩
  exact (installStart_iff (fun _ => true) 1024 stdio 7 (by decide) stdio_firstFree).mpr hroom

/-- With a limit of `2 ^ 32` it takes the place of the standard input. -/
theorem install_replaces_stdin :
    FirstFree stdio.files 0 3 ∧
    ∃ o, stdio.installStart (fun _ => true) 4294967296 7 0 = .ok o ∧ o.ret = 0 ∧
      slot stdio.files 0 = some 0 ∧ slot o.table.files 0 = some 7 :=
  ⟨stdio_firstFree, _, rfl, rfl, rfl, rfl⟩

end Facts

end Table

end Ish.Descriptors
