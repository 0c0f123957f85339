import Ish.Fs.Normalize
import Ish.Lib.Masks

set_option autoImplicit false

/-! # Permissions

`access_check` (`kernel/fs.c`) shifts the rights that are asked for to the bits of the class of the
task, and lets the task pass if one of them is set. The class has to have all of them, so a task
that asks for two rights gets both with either one. Three callers ask: `sys_faccessat` for any set
of rights, `generic_openat` for one or two, and path resolution for one.

The task is seen with its real ids in `sys_faccessat`, unless it asks for the effective ones.
-/

namespace Ish.Fs

open Ish.Lib Ish.Fakefs

inductive Right where
  | read
  | write
  | search
deriving DecidableEq

def AC_R : UInt32 := 4
def AC_W : UInt32 := 2

/-- The bit that stands for a right. -/
def Right.bit : Right → UInt32
  | .read => AC_R
  | .write => AC_W
  | .search => AC_X

/-- A set of rights as the argument of `access_check`. -/
def rightsMask (req : Right → Bool) : UInt32 :=
  (if req .read then AC_R else 0) ||| (if req .write then AC_W else 0) |||
    (if req .search then AC_X else 0)

/-! ## The callers -/

/-- The ids of a task. -/
structure Ids where
  uid : UInt32
  gid : UInt32
  euid : UInt32
  egid : UInt32
deriving DecidableEq

def Ids.cred (t : Ids) : Cred := ⟨t.euid, t.egid⟩

def AT_EACCESS : UInt32 := 0x200

/-- `generic_accessat`; `found` is what resolving the path and `stat` give to a task. -/
def genericAccessat (cred : Cred) (found : Cred → Except Errno Statbuf) (mode : UInt32) :
    Except Errno Unit :=
  match found cred with
  | .error e => .error e
  | .ok st => if accessCheck cred st mode then .ok () else .error .EACCES

/-- `sys_faccessat`, with the ids of the task afterwards. -/
def sysFaccessat (t : Ids) (found : Cred → Except Errno Statbuf) (mode flags : UInt32) :
    Except Errno Unit × Ids :=
  if flags &&& AT_EACCESS ≠ 0 then (genericAccessat t.cred found mode, t)
  else
    let real := { t with euid := t.uid, egid := t.gid }
    (genericAccessat real.cred found mode, { real with euid := t.euid, egid := t.egid })

def O_WRONLY : UInt32 := 1
def O_RDWR : UInt32 := 2
def O_DIRECTORY : UInt32 := 0x10000

def ENXIO : Errno := .other 6
def EISDIR : Errno := .other 21
def EINVAL : Errno := .other 22

def accmode (flags : UInt32) : UInt32 :=
  if flags &&& O_RDWR ≠ 0 then AC_R ||| AC_W else if flags &&& O_WRONLY ≠ 0 then AC_W else AC_R

/-- What `generic_openat` does after `access_check`; `dev` is what `dev_open` returns. -/
def openChecks (flags : UInt32) (st : Statbuf) (dev : Except Errno Unit) : Except Errno Unit :=
  let type := st.mode &&& S_IFMT
  match (if type = S_IFBLK ∨ type = S_IFCHR then dev else .ok ()) with
  | .error e => .error e
  | .ok () =>
    if type = S_IFSOCK then .error ENXIO
    else if type = S_IFDIR ∧ flags &&& (O_RDWR ||| O_WRONLY) ≠ 0 then .error EISDIR
    else if type ≠ S_IFDIR ∧ flags &&& O_DIRECTORY ≠ 0 then .error .ENOTDIR
    else .ok ()

/-- `generic_openat`; `opened` is what resolving the path, `open` and `fstat` give. Resolving
follows symbolic links, so the file is none. -/
def genericOpenat (cred : Cred) (flags : UInt32) (opened : Except Errno Statbuf)
    (dev : Except Errno Unit) : Except Errno Unit :=
  if flags &&& O_RDWR ≠ 0 ∧ flags &&& O_WRONLY ≠ 0 then .error EINVAL
  else
    match opened with
    | .error e => .error e
    | .ok st =>
      if accessCheck cred st (accmode flags) then openChecks flags st dev else .error .EACCES

/-! ## The class of a task -/

/-- How far the bits of the class are shifted: the owner's, else the group's, else those of the
others. -/
def classShift (cred : Cred) (st : Statbuf) : UInt32 :=
  if cred.euid = st.uid then 6 else if cred.egid = st.gid then 3 else 0

/-- The class of the task has a right. -/
def Allows (cred : Cred) (st : Statbuf) (r : Right) : Prop :=
  st.mode &&& (r.bit <<< classShift cred st) ≠ 0

instance (cred : Cred) (st : Statbuf) (r : Right) : Decidable (Allows cred st r) :=
  inferInstanceAs (Decidable (_ ≠ _))

section Classes

variable {cred : Cred} {st : Statbuf} {req : Right → Bool}

/-- The class has every right that is asked for. -/
def AllowsAll (cred : Cred) (st : Statbuf) (req : Right → Bool) : Prop :=
  ∀ r, req r = true → Allows cred st r

/-- The class has none of them. -/
def AllowsNone (cred : Cred) (st : Statbuf) (req : Right → Bool) : Prop :=
  ∀ r, req r = true → ¬ Allows cred st r

theorem mask_and_eq_zero_iff (mode shift : UInt32) (hshift : shift = 6 ∨ shift = 3 ∨ shift = 0)
    (req : Right → Bool) :
    mode &&& (rightsMask req <<< shift) = 0 ↔
      ∀ r, req r = true → mode &&& (r.bit <<< shift) = 0 := by
  have hsplit : rightsMask req <<< shift = (if req .read then AC_R <<< shift else 0) |||
      (if req .write then AC_W <<< shift else 0) |||
      (if req .search then AC_X <<< shift else 0) := by
    unfold rightsMask
    rcases hshift with rfl | rfl | rfl <;>
      cases req .read <;> cases req .write <;> cases req .search <;> rfl
  have hite : ∀ (b : Bool) (m : UInt32),
      mode &&& (if b then m else 0) = 0 ↔ (b = true → mode &&& m = 0) := by
    intro b m
    cases b with
    | false => simp
    | true => simp
  rw [hsplit, Masks.and_or_eq_zero, Masks.and_or_eq_zero, hite, hite, hite]
  constructor
  · rintro ⟨⟨hread, hwrite⟩, hsearch⟩ r hr
    cases r with
    | read => exact hread hr
    | write => exact hwrite hr
    | search => exact hsearch hr
  · intro h
    exact ⟨⟨h .read, h .write⟩, h .search⟩

theorem rightsMask_eq_zero_iff : rightsMask req = 0 ↔ ∀ r, req r = false := by
  constructor
  · intro h r
    unfold rightsMask at h
    cases hr : req .read <;> cases hw : req .write <;> cases hs : req .search <;>
      rw [hr, hw, hs] at h <;> first
        | (cases r <;> assumption)
        | exact absurd h (by decide)
  intro h
  unfold rightsMask
  rw [h, h, h]
  rfl

/-- **What `access_check` tests**: the superuser passes, and a task whose class has one of the
rights. -/
theorem accessCheck_iff (hne : ∃ r, req r = true) :
    accessCheck cred st (rightsMask req) = true ↔ cred.euid = 0 ∨ ¬ AllowsNone cred st req := by
  unfold accessCheck
  by_cases hroot : cred.euid = 0
  · rw [if_pos hroot]
    exact iff_of_true rfl (.inl hroot)
  have hmask : rightsMask req ≠ 0 := by
    intro h
    obtain ⟨r, hr⟩ := hne
    rw [rightsMask_eq_zero_iff.mp h r] at hr
    cases hr
  have hbits : (if cred.euid = st.uid then rightsMask req <<< 6
      else if cred.egid = st.gid then rightsMask req <<< 3 else rightsMask req)
        = rightsMask req <<< classShift cred st := by
    unfold classShift
    split
    · rfl
    split
    · rfl
    · exact UInt32.shiftLeft_zero.symm
  have hshift : classShift cred st = 6 ∨ classShift cred st = 3 ∨ classShift cred st = 0 := by
    unfold classShift
    split
    · exact .inl rfl
    split
    · exact .inr (.inl rfl)
    · exact .inr (.inr rfl)
  rw [if_neg hroot, if_neg hmask, or_iff_right hroot]
  rw [hbits, bne_iff_ne, ne_eq, mask_and_eq_zero_iff _ _ hshift, AllowsNone]
  simp only [Allows, ne_eq, not_not]

/-- When a test lets only those pass who have every right. -/
def TestExact (cred : Cred) (st : Statbuf) (req : Right → Bool) : Prop :=
  AllowsAll cred st req ∨ cred.euid ≠ 0 ∧ AllowsNone cred st req

theorem check_sound_iff (hne : ∃ r, req r = true) :
    (accessCheck cred st (rightsMask req) = true → AllowsAll cred st req) ↔
      TestExact cred st req := by
  rw [accessCheck_iff hne, TestExact]
  constructor
  · intro h
    by_cases hroot : cred.euid = 0
    · exact .inl (h (.inl hroot))
    by_cases hnone : AllowsNone cred st req
    · exact .inr ⟨hroot, hnone⟩
    · exact .inl (h (.inr hnone))
  rintro (hall | ⟨hroot, hnone⟩) h
  · exact hall
  rcases h with h | h
  · exact absurd h hroot
  · exact absurd hnone h

/-- A single right is tested right. -/
theorem testExact_of_single (hroot : cred.euid ≠ 0) {r : Right} (hreq : ∀ q, req q = true ↔ q = r) :
    TestExact cred st req := by
  by_cases h : Allows cred st r
  · exact .inl fun q hq => by rwa [(hreq q).mp hq]
  · exact .inr ⟨hroot, fun q hq => by rwa [(hreq q).mp hq]⟩

end Classes

/-! ## The results -/

/-- The rights that `open` asks for. -/
def openRights (flags : UInt32) : Right → Bool
  | .read => flags &&& O_RDWR ≠ 0 ∨ flags &&& O_WRONLY = 0
  | .write => flags &&& O_RDWR ≠ 0 ∨ flags &&& O_WRONLY ≠ 0
  | .search => false

theorem accmode_eq (flags : UInt32) : accmode flags = rightsMask (openRights flags) := by
  unfold accmode rightsMask openRights
  by_cases hrdwr : flags &&& O_RDWR ≠ 0
  · simp [hrdwr]
  by_cases hwr : flags &&& O_WRONLY ≠ 0
  · simp [hrdwr, hwr]
  · simp [hrdwr, hwr]

theorem openRights_nonempty (flags : UInt32) : ∃ r, openRights flags r = true := by
  by_cases hwr : flags &&& O_WRONLY = 0
  · exact ⟨.read, by simp [openRights, hwr]⟩
  · exact ⟨.write, by simp [openRights, hwr]⟩

/-- The ids that `sys_faccessat` tests with. -/
def testedIds (t : Ids) (flags : UInt32) : Cred :=
  if flags &&& AT_EACCESS ≠ 0 then t.cred else ⟨t.uid, t.gid⟩

theorem sysFaccessat_fst (t : Ids) (st : Statbuf) (mode flags : UInt32) :
    (sysFaccessat t (fun _ => .ok st) mode flags).1 =
      if accessCheck (testedIds t flags) st mode then .ok () else .error .EACCES := by
  unfold sysFaccessat testedIds
  split
  · rfl
  · rfl

theorem granted_iff {b : Bool} {e : Errno} :
    (if b then (.ok () : Except Errno Unit) else .error e) = .ok () ↔ b = true := by
  cases b with
  | true => exact iff_of_true rfl rfl
  | false => exact iff_of_false nofun nofun

/-- Only the right to search. -/
def searchOnly : Right → Bool := fun r => r = .search

/-- **Who is granted what**: each of the callers grants only what the class of the task has, exactly
when the class has all of the rights that are asked for or none of them. -/
theorem access_granted_iff (t : Ids) (st : Statbuf) (req : Right → Bool) (flags oflags : UInt32)
    (dev : Except Errno Unit) (hroot : t.euid ≠ 0) (hne : ∃ r, req r = true)
    (hopen : ¬ (oflags &&& O_RDWR ≠ 0 ∧ oflags &&& O_WRONLY ≠ 0)) :
    (((sysFaccessat t (fun _ => .ok st) (rightsMask req) flags).1 = .ok () →
        AllowsAll (testedIds t flags) st req) ↔ TestExact (testedIds t flags) st req) ∧
    ((genericOpenat t.cred oflags (.ok st) dev = .ok () →
        AllowsAll t.cred st (openRights oflags)) ↔
      openChecks oflags st dev ≠ .ok () ∨ TestExact t.cred st (openRights oflags)) ∧
    ∀ fs path turn, checkSearch t.cred fs path turn = .turn turn →
      turn.p.before.head? = some SLASH → fs.stat path = some st →
      AllowsAll t.cred st searchOnly := by
  refine ⟨?_, ?_, ?_⟩
  · rw [sysFaccessat_fst, granted_iff]
    exact check_sound_iff hne
  · unfold genericOpenat
    rw [if_neg hopen, accmode_eq]
    dsimp only
    rw [← check_sound_iff (openRights_nonempty oflags)]
    by_cases hchecks : openChecks oflags st dev = .ok ()
    · rw [hchecks, granted_iff]
      exact (or_iff_right (not_not_intro rfl)).symm
    refine iff_of_true ?_ (.inl hchecks)
    intro h
    split at h
    · exact absurd h hchecks
    · cases h
  · intro fs path turn hturn hslash hstat
    have hmask : rightsMask searchOnly = AC_X := rfl
    have hexact : TestExact t.cred st searchOnly :=
      testExact_of_single hroot (r := .search) fun q => by simp [searchOnly]
    refine (check_sound_iff ⟨.search, rfl⟩).mpr hexact ?_
    rw [hmask]
    -- the walk goes on only if the directory passes the test
    rcases checkSearch_cases t.cred fs path turn with ⟨-, hs⟩ | ⟨⟨e, -, hs⟩, -⟩ | ⟨-, hsearch⟩
    · cases hs.symm.trans hturn
    · cases hs.symm.trans hturn
    · exact (hsearch hslash st hstat).2

/-- A file that its owner may read and write. -/
theorem access_granted_iff_owner :
    (1000 : UInt32) ≠ 0 ∧
      AllowsAll ⟨1000, 1000⟩ ⟨S_IFREG ||| 0o644, 1000, 1000⟩ (openRights O_RDWR) := by
  have hall : ∀ r, Allows ⟨1000, 1000⟩ ⟨S_IFREG ||| 0o644, 1000, 1000⟩ r ∨ r = .search := by
    intro r
    cases r <;> decide
  have h := access_granted_iff ⟨1000, 1000, 1000, 1000⟩ ⟨S_IFREG ||| 0o644, 1000, 1000⟩
    (openRights O_RDWR) 0 O_RDWR (.ok ()) (by decide) (openRights_nonempty O_RDWR) (by decide)
  refine ⟨by decide, h.2.1.mpr (.inr (.inl fun r hr => ?_)) rfl⟩
  rcases hall r with h' | rfl
  · exact h'
  · cases hr

/-- The owner of a file that can only be read opens it for writing too, and is told that it can be
written. -/
theorem access_granted_wrong :
    genericOpenat ⟨1000, 1000⟩ O_RDWR (.ok ⟨S_IFREG ||| 0o444, 1000, 1000⟩) (.ok ()) = .ok () ∧
      (sysFaccessat ⟨1000, 1000, 1000, 1000⟩ (fun _ => .ok ⟨S_IFREG ||| 0o444, 1000, 1000⟩)
        (rightsMask fun r => r ≠ .search) 0).1 = .ok () ∧
      ¬ Allows ⟨1000, 1000⟩ ⟨S_IFREG ||| 0o444, 1000, 1000⟩ .write := by
  refine ⟨rfl, rfl, by decide⟩

end Ish.Fs
