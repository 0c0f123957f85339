import Mathlib.Data.List.Basic

set_option autoImplicit false

/-! # User ids

`setuid`, `setreuid` and `setresuid` of `kernel/getset.c`. The calls permute and copy the three
ids of a task; without the superuser they can bring in no other.
-/

namespace Ish.Process

open List

structure Ids where
  uid : UInt32
  euid : UInt32
  suid : UInt32

namespace Ids

def EPERM : Int := -1

/-- `(uid_t) -1`: leave the id as it is. -/
def NO_CHANGE : UInt32 := 0xffffffff

def superuser (t : Ids) : Bool := t.euid == 0

def sysSetuid (t : Ids) (uid : UInt32) : Int × Ids :=
  if t.superuser then (0, ⟨uid, uid, uid⟩)
  else if uid ≠ t.uid ∧ uid ≠ t.suid then (EPERM, t)
  else (0, { t with euid := uid })

/-- One of the three checks of `sys_setresuid`. -/
def refuses (t : Ids) (id : UInt32) : Bool :=
  id ≠ NO_CHANGE ∧ id ≠ t.uid ∧ id ≠ t.euid ∧ id ≠ t.suid

def change (old new : UInt32) : UInt32 := if new ≠ NO_CHANGE then new else old

def sysSetresuid (t : Ids) (ruid euid suid : UInt32) : Int × Ids :=
  if !t.superuser && (t.refuses ruid || t.refuses euid || t.refuses suid) then (EPERM, t)
  else (0, ⟨change t.uid ruid, change t.euid euid, change t.suid suid⟩)

def sysSetreuid (t : Ids) (ruid euid : UInt32) : Int × Ids := t.sysSetresuid ruid euid NO_CHANGE

inductive Call where
  | setuid (uid : UInt32)
  | setresuid (ruid euid suid : UInt32)
  | setreuid (ruid euid : UInt32)

def call (t : Ids) : Call → Int × Ids
  | .setuid uid => t.sysSetuid uid
  | .setresuid ruid euid suid => t.sysSetresuid ruid euid suid
  | .setreuid ruid euid => t.sysSetreuid ruid euid

/-- The ids after the calls. -/
def run (t : Ids) (calls : List Call) : Ids := calls.foldl (fun t c => (t.call c).2) t

/-! ## No other ids -/

def ids (t : Ids) : List UInt32 := [t.uid, t.euid, t.suid]

variable {t : Ids}

theorem change_mem {old new : UInt32} (hold : old ∈ t.ids) (hnew : ¬ t.refuses new) :
    change old new ∈ t.ids := by
  unfold change
  split
  · rename_i hne
    simp only [refuses, decide_eq_true_eq, not_and_or, not_not] at hnew
    simpa [ids] using hnew.resolve_left hne
  · exact hold

theorem superuser_of_ids (h : 0 ∉ t.ids) : t.superuser = false := by
  have hne : t.euid ≠ 0 := fun h0 => h (by simp [ids, h0])
  simp [superuser, hne]

/-- One call of a task that is not the superuser. -/
theorem ids_call (h : 0 ∉ t.ids) (c : Call) : (t.call c).2.ids ⊆ t.ids := by
  have hres : ∀ r e s, (t.sysSetresuid r e s).2.ids ⊆ t.ids := by
    intro r e s
    unfold sysSetresuid
    rw [superuser_of_ids h]
    split
    · exact Subset.refl _
    rename_i hallowed
    simp only [Bool.not_false, Bool.true_and, Bool.or_eq_true, not_or] at hallowed
    obtain ⟨⟨hr, he⟩, hs⟩ := hallowed
    rw [ids, cons_subset, cons_subset, cons_subset]
    refine ⟨change_mem ?_ hr, change_mem ?_ he, change_mem ?_ hs, List.nil_subset _⟩ <;> simp [ids]
  cases c with
  | setuid uid =>
    show (t.sysSetuid uid).2.ids ⊆ t.ids
    unfold sysSetuid
    rw [superuser_of_ids h, if_neg Bool.false_ne_true]
    split
    · exact Subset.refl _
    rename_i hallowed
    rw [not_and_or, not_not, not_not] at hallowed
    rcases hallowed with rfl | rfl <;> simp [ids]
  | setresuid r e s => exact hres r e s
  | setreuid r e => exact hres r e NO_CHANGE

theorem ids_run (h : 0 ∉ t.ids) (calls : List Call) : (t.run calls).ids ⊆ t.ids := by
  induction calls generalizing t with
  | nil => exact Subset.refl _
  | cons c calls ih =>
    have hstep := ids_call h c
    exact Subset.trans (ih fun h0 => h (hstep h0)) hstep

theorem call_eperm (t : Ids) (c : Call) (h : (t.call c).1 = EPERM) : (t.call c).2 = t := by
  cases c <;> simp only [call, sysSetreuid, sysSetuid, sysSetresuid] at h ⊢ <;>
    split_ifs at h ⊢ <;> first | rfl | cases h

/-- **No task gains an id.** -/
theorem run_within (t : Ids) (hnonzero : t.uid ≠ 0 ∧ t.euid ≠ 0 ∧ t.suid ≠ 0)
    (calls : List Call) :
    (t.run calls).ids ⊆ t.ids ∧ (t.run calls).superuser = false ∧
      ∀ c, ((t.run calls).call c).1 = EPERM → ((t.run calls).call c).2 = t.run calls := by
  have h : 0 ∉ t.ids := by simpa [ids, eq_comm] using hnonzero
  have hids := ids_run h calls
  exact ⟨hids, superuser_of_ids fun h0 => h (hids h0), call_eperm _⟩

theorem run_within_setreuid :
    (run ⟨1000, 1001, 1002⟩ [.setreuid 1001 1000, .setuid 1002, .setuid 0]).superuser = false :=
  (run_within ⟨1000, 1001, 1002⟩ ⟨by decide, by decide, by decide⟩ _).2.1

end Ids

end Ish.Process
