import Ish.Float80.Correct

set_option autoImplicit false

/-! # Integers from numbers

`f80_to_int` shifts the significand until the exponent is 63 and takes it for the integer;
`fpu_ist16`, `fpu_ist32` and `fpu_ist64` (`emu/fpu.c`) store it if it has that many bits. A number
that is too big is given away by its exponent, if that is above 63. But a number with the exponent
63 is too big as well: its significand has the top bit, and is taken as a negative integer.
-/

namespace Ish.Float80

open Ish.Lib

/-- The value of an `int64_t`. -/
def wrap64 (z : ℤ) : ℤ := z.bmod (2 ^ 64)

/-- The indefinite integer of a width, `INT64_MIN` for 64 bits. -/
def intMin (width : ℕ) : ℤ := -2 ^ (width - 1)

def f80ToInt (mode : Mode) (f : F80) : ℤ :=
  if ¬ f.IsSupported then intMin 64
  else if bias 63 < f.exp then intMin 64
  else
    let f := f80ShiftRight mode f (bias 63 - f.exp).toNat
    if f.sign = false then wrap64 f.signif else wrap64 (-f.signif)

/-- The stores of fewer bits. -/
def fpuIst (width : ℕ) (mode : Mode) (f : F80) : ℤ :=
  let res := f80ToInt mode f
  if res < intMin width ∨ -intMin width - 1 < res then intMin width else res

def fpuIst16 : Mode → F80 → ℤ := fpuIst 16

def fpuIst32 : Mode → F80 → ℤ := fpuIst 32

def fpuIst64 : Mode → F80 → ℤ := f80ToInt

/-! ## The right integer -/

/-- A value rounded to an integer. -/
def roundInt (mode : Mode) (x : ℚ) : ℤ :=
  if x < 0 then -(mode.dir true).rint |x| else (mode.dir false).rint |x|

/-- The rounded number if it has so many bits. -/
def fitted (width : ℕ) (mode : Mode) (f : F80) : ℤ :=
  if f.IsFinite ∧ intMin width ≤ roundInt mode f.val ∧ roundInt mode f.val < -intMin width then
    roundInt mode f.val
  else intMin width

/-- **The right integers.** -/
structure StoresRight (mode : Mode) (f : F80) : Prop where
  int64 : f80ToInt mode f = fitted 64 mode f
  int32 : fpuIst32 mode f = fitted 32 mode f
  int16 : fpuIst16 mode f = fitted 16 mode f

section ToInt

variable {mode : Mode} {f : F80}

/-- A shorter store is right if the conversion is. -/
theorem fpuIst_eq {width : ℕ} (hpos : 0 < width) (hwidth : width < 64)
    (h : f80ToInt mode f = fitted 64 mode f) : fpuIst width mode f = fitted width mode f := by
  have hmin : intMin 64 < intMin width := by
    unfold intMin
    rw [neg_lt_neg_iff]
    exact pow_lt_pow_right₀ one_lt_two (by omega)
  unfold fpuIst
  rw [h]
  unfold fitted
  generalize roundInt mode f.val = r
  by_cases hfin : f.IsFinite
  · simp only [hfin, true_and]
    by_cases hfits : intMin 64 ≤ r ∧ r < -intMin 64
    · rw [if_pos hfits]
      by_cases hsmall : intMin width ≤ r ∧ r < -intMin width
      · rw [if_pos hsmall, if_neg (by omega)]
      · rw [if_neg hsmall, if_pos (by omega)]
    · rw [if_neg hfits, if_pos (.inl hmin), if_neg (by omega)]
  · simp only [hfin, false_and, if_false]
    rw [if_pos (.inl hmin)]

/-- The magnitude as a quotient by a power of two. -/
theorem mag_eq_div {k : ℕ} (h : unbiasDenormal f.exp - 63 = -(k : ℤ)) :
    f.mag = (f.signif : ℚ) / (2 ^ k : ℕ) := by
  rw [F80.mag, h, zpow_neg, zpow_natCast, div_eq_mul_inv]
  push_cast
  rfl

/-- The integer that a number with an exponent up to 63 is rounded to. -/
theorem rint_mag (d : Dir) (hexp : f.exp ≤ 0x403e) :
    d.rint f.mag = d.divRound f.signif (2 ^ (0x403e - f.exp)) := by
  have hub := F80.unbiasDenormal_eq f.exp
  by_cases hnormal : f.exp = 0
  · -- a denormal number has one place less than its exponent says, which makes no difference
    have hsmall : ∀ k, 65 ≤ k → 2 * f.signif < 2 ^ k := by
      intro k hk
      have hlt := f.signif_lt
      calc 2 * f.signif < 2 ^ 65 := by omega
        _ ≤ 2 ^ k := Nat.pow_le_pow_right two_pos hk
    obtain ⟨k, hk, hplace⟩ : ∃ k : ℕ, 65 ≤ k ∧ unbiasDenormal f.exp - 63 = -(k : ℤ) :=
      ⟨0x403d, by omega, by omega⟩
    rw [mag_eq_div hplace, Dir.rint_div d _ (Nat.two_pow_pos _),
      Dir.divRound_small (hsmall k hk), Dir.divRound_small (hsmall _ (by omega))]
  · rw [mag_eq_div (k := 0x403e - f.exp) (by omega), Dir.rint_div d _ (Nat.two_pow_pos _)]

/-- The integer with the sign. -/
theorem roundInt_val (mode : Mode) (f : F80) :
    roundInt mode f.val =
      if f.sign = false then (mode.dir f.sign).rint f.mag else -(mode.dir f.sign).rint f.mag := by
  unfold roundInt
  rw [F80.abs_val]
  by_cases hzero : f.mag = 0
  · have hrint : ∀ d : Dir, d.rint 0 = 0 := fun d => d.rint_natCast 0
    rw [hzero, hrint, hrint, hrint, neg_zero, ite_self, ite_self]
  have hpos : 0 < f.mag := lt_of_le_of_ne f.mag_nonneg (Ne.symm hzero)
  cases hs : f.sign with
  | false => rw [if_neg (by rw [F80.val_neg_iff hpos, hs]; decide), if_pos rfl]
  | true => rw [if_pos ((F80.val_neg_iff hpos).mpr hs), if_neg (by decide)]

/-- The integer that is taken from the shifted significand. -/
theorem f80ToInt_eq (hf : f.IsSupported) (hexp : f.exp ≤ 0x403e) :
    f80ToInt mode f = wrap64 (roundInt mode f.val) := by
  have hshift : (bias 63 - (f.exp : ℤ)).toNat = 0x403e - f.exp := by
    unfold bias BIAS80
    omega
  have hbias : ¬ bias 63 < (f.exp : ℤ) := by
    unfold bias BIAS80
    omega
  have hle : (mode.dir f.sign).divRound f.signif (2 ^ (0x403e - f.exp)) < 2 ^ 64 := by
    refine lt_of_le_of_lt (Dir.divRound_le (Nat.two_pow_pos _) ?_) f.signif_lt
    exact Nat.le_mul_of_pos_right _ (Nat.two_pow_pos _)
  unfold f80ToInt f80ShiftRight
  rw [if_neg (not_not_intro hf), if_neg hbias, hshift, u128ShiftRightRound_of_lt f.signif_lt]
  dsimp only
  rw [pack_signif hle, roundInt_val, rint_mag _ hexp]
  cases f.sign <;> simp [pack]

/-- A number with an exponent from 63 on is an integer. -/
theorem mag_of_ge (hexp : 0x403e ≤ f.exp) : f.mag = (f.signif * 2 ^ (f.exp - 0x403e) : ℕ) := by
  have hub := F80.unbiasDenormal_eq f.exp
  rw [F80.mag, show unbiasDenormal f.exp - 63 = (f.exp - 0x403e : ℕ) by omega, zpow_natCast]
  push_cast
  rfl

/-- Above that it is too big. -/
theorem roundInt_of_big (hf : f.IsSupported) (hexp : 0x403e < f.exp) :
    ¬ (intMin 64 ≤ roundInt mode f.val ∧ roundInt mode f.val < -intMin 64) := by
  have hsignif := hf.le_signif (by omega)
  have hbig : 2 ^ 64 ≤ f.signif * 2 ^ (f.exp - 0x403e) :=
    calc 2 ^ 64 = 2 ^ 63 * 2 ^ 1 := by norm_num
      _ ≤ f.signif * 2 ^ (f.exp - 0x403e) :=
          Nat.mul_le_mul hsignif (Nat.pow_le_pow_right two_pos (by omega))
  rw [roundInt_val, mag_of_ge hexp.le, Dir.rint_natCast, show intMin 64 = -2 ^ 63 from rfl]
  split <;> omega

theorem fitted_of_big (hf : f.IsSupported) (hexp : 0x403e < f.exp) : fitted 64 mode f = intMin 64 :=
  if_neg fun h => roundInt_of_big hf hexp h.2

theorem wrap64_eq {z : ℤ} (hlow : -2 ^ 63 ≤ z) (hhigh : z < 2 ^ 63) : wrap64 z = z :=
  Int.bmod_eq_of_le (by omega) (by omega)

/-- The conversion to 64 bits. -/
theorem f80ToInt_right_iff (mode : Mode) (hf : f.IsSupported) :
    f80ToInt mode f = fitted 64 mode f ↔ ¬ (f.exp = 0x403e ∧ f.signif ≠ 2 ^ 63) := by
  rcases lt_or_ge 0x403e f.exp with hbig | hexp
  · have hbias : bias 63 < (f.exp : ℤ) := by
      unfold bias BIAS80
      omega
    rw [fitted_of_big hf hbig, f80ToInt, if_neg (not_not_intro hf), if_pos hbias]
    exact iff_of_true rfl (fun h => by omega)
  have hfin : f.IsFinite := by
    unfold F80.IsFinite EXP_SPECIAL
    omega
  rw [f80ToInt_eq hf hexp, fitted, roundInt_val, rint_mag _ hexp,
    show intMin 64 = -2 ^ 63 from rfl]
  have hlt := f.signif_lt
  by_cases htop : f.exp = 0x403e
  · -- nothing is shifted
    have hsignif := hf.le_signif (by omega)
    rw [htop, Nat.sub_self, pow_zero, Dir.divRound_one]
    unfold wrap64
    rw [Int.bmod_def]
    by_cases hs : f.sign = false
    · rw [if_pos hs]
      split <;> split <;> omega
    rw [if_neg hs]
    split <;> split <;> omega
  have hle : (mode.dir f.sign).divRound f.signif (2 ^ (0x403e - f.exp)) ≤ 2 ^ 63 := by
    apply Dir.divRound_le (Nat.two_pow_pos _)
    calc f.signif ≤ 2 ^ 63 * 2 ^ 1 := by omega
      _ ≤ 2 ^ 63 * 2 ^ (0x403e - f.exp) :=
          Nat.mul_le_mul_left _ (Nat.pow_le_pow_right two_pos (by omega))
  refine iff_of_true ?_ (fun h => htop h.1)
  generalize (mode.dir f.sign).divRound f.signif (2 ^ (0x403e - f.exp)) = v at hle
  simp only [hfin, true_and]
  by_cases hs : f.sign = false
  · rw [if_pos hs]
    by_cases hv : v = 2 ^ 63
    · rw [hv, if_neg (by decide)]
      decide
    · rw [wrap64_eq (by omega) (by omega), if_pos (by omega)]
  · rw [if_neg hs, wrap64_eq (by omega) (by omega), if_pos (by omega)]

/-- **The integers are right** but for the numbers between `2 ^ 63` and `2 ^ 64`. -/
theorem storesRight_iff (mode : Mode) (f : F80) (hf : f.IsSupported) :
    StoresRight mode f ↔ ¬ (f.exp = 0x403e ∧ f.signif ≠ 2 ^ 63) := by
  rw [← f80ToInt_right_iff mode hf]
  constructor
  · exact StoresRight.int64
  intro h
  exact ⟨h, fpuIst_eq (by decide) (by decide) h, fpuIst_eq (by decide) (by decide) h⟩

theorem storesRight_iff_aboveOne : f80ToInt .up aboveOne = 2 ∧ StoresRight .up aboveOne :=
  ⟨by decide, (storesRight_iff .up aboveOne (by decide)).mpr (by decide)⟩

/-- The number `2 ^ 64 - 1`. -/
def allOnes : F80 := pack (2 ^ 64 - 1) 0x403e false

/-- It is stored as -1, to 64 and to 16 bits. -/
theorem all_ones_stored_as_minus_one :
    allOnes.IsSupported ∧ f80ToInt .nearest allOnes = -1 ∧ fpuIst16 .nearest allOnes = -1 ∧
      ¬ StoresRight .nearest allOnes := by
  refine ⟨by decide, by decide +kernel, by decide +kernel, ?_⟩
  intro h
  exact (f80ToInt_right_iff .nearest (by decide)).mp h.int64 ⟨by decide, by decide⟩

end ToInt

end Ish.Float80
