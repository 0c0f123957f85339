import Ish.Float80.Correct

set_option autoImplicit false

/-! # Multiplication

`f80_mul` multiplies the significands exactly, to 128 bits, and normalizes. The product of two
significands is never `2 ^ 127`, the one number that `u128_normalize_round` takes wrongly, so the
result is right in every mode.
-/

namespace Ish.Float80

open Ish.Lib F80

def f80Mul (mode : Mode) (a b : F80) : F80 :=
  match handleNans a b with
  | some f => f
  | none =>
    if a.IsInf ∨ b.IsInf then
      if a.IsZero ∨ b.IsZero then F80_NAN else f80Inf (a.sign ^^ b.sign)
    else
      (u128NormalizeRound mode (a.signif * b.signif)
        (unbiasDenormal a.exp + unbiasDenormal b.exp + 1) (a.sign ^^ b.sign)).setSign
          (a.sign ^^ b.sign)

section Mul

variable {mode : Mode} {a b : F80}

theorem f80Mul_of_finite (ha : a.IsSupported) (hb : b.IsSupported) (hfa : a.IsFinite)
    (hfb : b.IsFinite) :
    f80Mul mode a b = u128NormalizeRound mode (a.signif * b.signif)
      (unbiasDenormal a.exp + unbiasDenormal b.exp + 1) (a.sign ^^ b.sign) := by
  have hinf : ¬ (a.IsInf ∨ b.IsInf) := by
    rintro (h | h)
    · exact hfa h.1
    · exact hfb h.1
  unfold f80Mul
  rw [handleNans_of_finite ha hb hfa hfb]
  rw [if_neg hinf, setSign_normalizeRound]

/-- A power of two above `2 ^ 126` is no product of two significands. -/
theorem mul_ne_two_pow {A B : ℕ} (hA : A < 2 ^ 64) (hB : B < 2 ^ 64) : A * B ≠ 2 ^ 127 := by
  intro h
  obtain ⟨i, hi, rfl⟩ := (Nat.dvd_prime_pow Nat.prime_two).mp (h ▸ Nat.dvd_mul_right A B)
  obtain ⟨j, hj, rfl⟩ := (Nat.dvd_prime_pow Nat.prime_two).mp (h ▸ Nat.dvd_mul_left B (2 ^ i))
  rw [Nat.pow_lt_pow_iff_right one_lt_two] at hA hB
  rw [← pow_add] at h
  have hsum := Nat.pow_right_injective le_rfl h
  omega

theorem mag_mul (a b : F80) : a.mag * b.mag = ((a.signif * b.signif : ℕ) : ℚ) *
    2 ^ (unbiasDenormal a.exp + unbiasDenormal b.exp + 1 - 127) := by
  have hexp : unbiasDenormal a.exp + unbiasDenormal b.exp + 1 - 127
      = (unbiasDenormal a.exp - 63) + (unbiasDenormal b.exp - 63) := by ring
  rw [hexp, zpow_add₀ two_ne_zero, Nat.cast_mul, mag, mag]
  ring

/-- **Multiplication is right** for finite numbers that are not 0, unless the product is below the
normal numbers. -/
theorem f80Mul_correct (mode : Mode) (a b : F80) (ha : a.IsSupported) (hb : b.IsSupported)
    (hfa : a.IsFinite) (hfb : b.IsFinite) (hza : ¬ a.IsZero) (hzb : ¬ b.IsZero)
    (hmin : minNormal ≤ |a.val * b.val|) :
    CorrectlyRounded mode (a.val * b.val) (f80Mul mode a b) ∧
      (f80Mul mode a b).sign = (a.sign ^^ b.sign) := by
  have hsign : decide (a.val * b.val < 0) = (a.sign ^^ b.sign) := by
    have hva := val_neg_iff (mag_pos ha hza)
    have hvb := val_neg_iff (mag_pos hb hzb)
    have hpa := val_pos_iff (mag_pos ha hza)
    have hpb := val_pos_iff (mag_pos hb hzb)
    rw [Bool.eq_iff_iff, decide_eq_true_iff, mul_neg_iff, hva, hvb, hpa, hpb]
    cases a.sign <;> cases b.sign <;> decide
  have hne : a.signif * b.signif ≠ 0 := (Nat.mul_pos (signif_pos ha hza) (signif_pos hb hzb)).ne'
  have hlt : a.signif * b.signif < 2 ^ 128 :=
    calc a.signif * b.signif < 2 ^ 64 * 2 ^ 64 :=
          Nat.mul_lt_mul'' a.signif_lt b.signif_lt
      _ = 2 ^ 128 := by norm_num
  have hx : |a.val * b.val| = ((a.signif * b.signif : ℕ) : ℚ) *
      2 ^ (unbiasDenormal a.exp + unbiasDenormal b.exp + 1 - 127) := by
    rw [abs_mul, abs_val, abs_val, mag_mul]
  have hexp : unbiasDenormal a.exp + unbiasDenormal b.exp + 1 < 2 ^ 31 := by
    have h1 := unbiasDenormal_lt a
    have h2 := unbiasDenormal_lt b
    omega
  have hcorrect := (normalizeRound_correct_iff mode hne hlt hx hmin hexp).mpr
    fun h => mul_ne_two_pow a.signif_lt b.signif_lt h.1
  rw [hsign] at hcorrect
  rw [f80Mul_of_finite ha hb hfa hfb]
  exact ⟨hcorrect, u128NormalizeRound_sign _ _ _ _⟩

/-- Three times three, rounded down. -/
theorem f80Mul_correct_three :
    minNormal ≤ |three.val * three.val| ∧
      CorrectlyRounded .down (three.val * three.val) (f80Mul .down three three) := by
  have hmin : minNormal ≤ |three.val * three.val| := by
    rw [three_val]
    calc minNormal ≤ 1 := minNormal_le_one
      _ ≤ |3 * 3| := by norm_num
  exact ⟨hmin, (f80Mul_correct .down three three (by decide) (by decide) (by decide) (by decide)
    (by decide) (by decide) hmin).1⟩

end Mul

end Ish.Float80
