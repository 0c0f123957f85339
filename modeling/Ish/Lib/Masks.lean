import Mathlib

set_option autoImplicit false

/-! # Sets of flags

A 32-bit mask as a set of flags: `has m i` is that flag `i` is in `m`. Masks with the same flags are
equal, and the bitwise operations are the operations on sets, so what is said below about masks is
proved flag by flag.
-/

namespace Ish.Lib.Masks

def has (m : UInt32) (i : Fin 32) : Bool := m.toBitVec[i]

variable {a b m k r s t : UInt32}

theorem ext_has (h : ∀ i, has m i = has k i) : m = k := by
  apply UInt32.toBitVec_inj.mp
  apply BitVec.eq_of_getElem_eq
  intro i hi
  exact h ⟨i, hi⟩

@[simp] theorem has_zero (i : Fin 32) : has 0 i = false := by simp [has]

@[simp] theorem has_and (m k : UInt32) (i : Fin 32) : has (m &&& k) i = (has m i && has k i) := by
  simp [has]

@[simp] theorem has_or (m k : UInt32) (i : Fin 32) : has (m ||| k) i = (has m i || has k i) := by
  simp [has]

@[simp] theorem has_not (m : UInt32) (i : Fin 32) : has (~~~m) i = !has m i := by
  simp [has]

theorem eq_zero_iff : m = 0 ↔ ∀ i, has m i = false := by
  constructor
  · rintro rfl i
    exact has_zero i
  intro h
  apply ext_has
  intro i
  rw [h i, has_zero]

theorem and_or_left (r a b : UInt32) : r &&& (a ||| b) = r &&& a ||| r &&& b := by
  apply ext_has
  intro i
  simp [Bool.and_or_distrib_left]

theorem and_or_eq_zero : r &&& (a ||| b) = 0 ↔ r &&& a = 0 ∧ r &&& b = 0 := by
  rw [and_or_left, UInt32.or_eq_zero_iff]

/-- A mask is in another one when what misses the other one misses it. -/
theorem and_eq_left_of_forall (h : ∀ r, r &&& m = 0 → r &&& a = 0) : a &&& m = a := by
  have hmiss : ~~~m &&& a = 0 := h _ UInt32.not_and_self
  apply ext_has
  intro i
  have hi := eq_zero_iff.mp hmiss i
  rw [has_and, has_not] at hi
  rw [has_and]
  cases hm : has m i with
  | true => simp
  | false => simpa [hm] using hi.symm

/-- What is added to a mask that it did not have. -/
theorem or_and_not (h : b &&& a = 0) : (a ||| b) &&& ~~~a = b := by
  apply ext_has
  intro i
  have hi := eq_zero_iff.mp h i
  rw [has_and] at hi
  rw [has_and, has_or, has_not]
  cases ha : has a i with
  | true => simpa [ha] using hi.symm
  | false => simp

/-- Of a mask inside `m`, what another mask `k` has and `m` restricted to `k` without `t` misses. -/
theorem and_not_and (h : r &&& m = r) : r &&& k &&& ~~~(m &&& k &&& ~~~t) = r &&& k &&& t := by
  apply ext_has
  intro i
  have hi := congrArg (has · i) h
  simp only [has_and, has_not] at hi ⊢
  cases hr : has r i <;> cases has k i <;> simp_all

theorem and_not_self_and (h : r &&& m = r) : r &&& k &&& ~~~(m &&& k) = 0 := by
  have hnone := and_not_and (k := k) (t := 0) h
  rwa [UInt32.not_zero, UInt32.and_neg_one, UInt32.and_zero] at hnone

/-- Restricting in two steps to a mask and to one inside it. -/
theorem and_and_of_sub (h : a &&& m = a) : r &&& m &&& a = r &&& a := by
  rw [UInt32.and_assoc, UInt32.and_comm m a, h]

/-- A mask of 16 bits is read from its low half. -/
theorem toUInt16_eq_zero (h : m.toNat < 2 ^ 16) : m.toUInt16 = 0 ↔ m = 0 := by
  constructor
  · intro hm
    have hnat := congrArg UInt16.toNat hm
    rw [UInt32.toNat_toUInt16, Nat.mod_eq_of_lt h] at hnat
    exact UInt32.toNat_inj.mp hnat
  · rintro rfl
    rfl

end Ish.Lib.Masks
