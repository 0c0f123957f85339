import Ish.Float80.FromDouble

set_option autoImplicit false

/-! # Rounding to an integer

`f80_round` shifts the digits behind the point out of the significand, so that the exponent is 63,
and `f80_normalize` shifts the result back. From `bits_to_clear` on the exponent is that of an
integer, whatever it was before, and so the assertion of `f80_normalize` and its denormal numbers
are not reached.
-/

namespace Ish.Float80

open Ish.Lib

def f80Round (mode : Mode) (f : F80) : Option F80 :=
  if ¬ f.IsSupported then some F80_NAN
  else
    let bitsToClear := 63 - unbias f.exp
    if bitsToClear ≤ 0 then some f
    else
      let f := f80ShiftRight mode f bitsToClear.toNat
      if f.signif = 0 then some (pack f.signif EXP_DENORMAL f.sign) else f80Normalize f

/-- **Rounded to an integer**, which every further rounding leaves as it is. -/
structure RoundedToInt (mode : Mode) (f r : F80) : Prop where
  supported : r.IsSupported
  finite : r.IsFinite
  sign : r.sign = f.sign
  val : r.val = roundInt mode f.val
  again : ∀ mode', f80Round mode' r = some r

section Round

variable {mode : Mode} {f : F80}

/-- The result and its magnitude. -/
theorem f80Round_spec (mode : Mode) (hf : f.IsSupported) (hfin : f.IsFinite) :
    ∃ r v, f80Round mode f = some r ∧ r.IsSupported ∧ r.IsFinite ∧ r.sign = f.sign ∧
      r.mag = (v : ℕ) ∧ (mode.dir f.sign).rint f.mag = v := by
  have hbits : 63 - unbias f.exp = 0x403e - (f.exp : ℤ) := by
    unfold unbias BIAS80
    omega
  unfold f80Round
  rw [if_neg (not_not_intro hf), hbits]
  dsimp only
  rcases le_or_gt 0x403e f.exp with hge | hlt
  · rw [if_pos (by omega)]
    refine ⟨f, _, rfl, hf, hfin, rfl, mag_of_ge hge, ?_⟩
    rw [mag_of_ge hge, Dir.rint_natCast]
  have hshift : (0x403e - (f.exp : ℤ)).toNat = 0x403e - f.exp := by omega
  have hexp : (f.exp : ℤ) + (0x403e - f.exp : ℕ) = 0x403e := by omega
  have hrint := rint_mag (mode.dir f.sign) hlt.le
  have hle : (mode.dir f.sign).divRound f.signif (2 ^ (0x403e - f.exp)) < 2 ^ 64 :=
    lt_of_le_of_lt (Dir.divRound_le (Nat.two_pow_pos _)
      (Nat.le_mul_of_pos_right _ (Nat.two_pow_pos _))) f.signif_lt
  rw [if_neg (by omega), hshift]
  unfold f80ShiftRight
  rw [u128ShiftRightRound_of_lt f.signif_lt, hexp]
  generalize (mode.dir f.sign).divRound f.signif (2 ^ (0x403e - f.exp)) = v at hrint hle
  rw [pack_signif hle]
  by_cases hv : v = 0
  · subst hv
    refine ⟨pack 0 0 f.sign, 0, rfl, ?_, ?_, rfl, ?_, hrint⟩
    · exact F80.isSupported_iff.mpr (.inl ⟨rfl, Nat.two_pow_pos 63⟩)
    · exact Nat.ne_of_beq_eq_false rfl
    · exact zero_mul _
  rw [if_neg hv]
  have hclz := clzl_lt v
  obtain ⟨r, hr, hnorm⟩ := f80Normalize_spec (s := v) (e := 0x403e) f.sign hv hle (by omega)
    (by decide) (fun h => absurd h (by decide))
  refine ⟨r, v, hr, hnorm.supported, ?_, hnorm.sign, hnorm.mag.trans (mul_one _), hrint⟩
  have hexp := hnorm.exp
  unfold F80.IsFinite EXP_SPECIAL
  omega

/-- **Every finite number is rounded** as the mode says, and only once. -/
theorem f80Round_right (mode : Mode) (f : F80) (hf : f.IsSupported) (hfin : f.IsFinite) :
    ∃ r, f80Round mode f = some r ∧ RoundedToInt mode f r := by
  obtain ⟨r, v, hr, hsupported, hfinite, hsign, hmag, hrint⟩ := f80Round_spec mode hf hfin
  refine ⟨r, hr, hsupported, hfinite, hsign, ?_, ?_⟩
  · rw [roundInt_val, hrint, F80.val, hsign, hmag]
    cases f.sign <;> simp
  intro mode'
  obtain ⟨r', v', hr', hsupported', -, hsign', hmag', hrint'⟩ :=
    f80Round_spec mode' hsupported hfinite
  rw [hmag, Dir.rint_natCast, Nat.cast_inj] at hrint'
  rw [hr', F80.eq_of_mag hsupported' hsupported hsign' (by rw [hmag', hmag, hrint'])]

/-- The least number above one, rounded up. -/
theorem f80Round_right_aboveOne :
    f80Round .up aboveOne = some (pack (2 ^ 63) 0x4000 false) ∧
      ∃ r, f80Round .up aboveOne = some r ∧ RoundedToInt .up aboveOne r :=
  ⟨by decide, f80Round_right .up aboveOne (by decide) (by decide)⟩

end Round

end Ish.Float80
