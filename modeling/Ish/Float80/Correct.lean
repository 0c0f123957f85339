import Ish.Float80.Basic

set_option autoImplicit false

/-! # What a number stands for

The value of a finite number is a rational, and `CorrectlyRounded` says what the result of an
operation has to be for its exact value: the value rounded to the format, and on overflow infinity
or the largest finite number. A supported number is determined by its value, so with
`correctlyRounded_iff` the right result of an operation is one encoding, and what is left of each
proof is that the operation's significand is the exact quotient rounded.
-/

namespace Ish.Float80

open Ish.Lib

/-- The format of finite numbers. -/
def extended : Format := ⟨64, -16445, 16384⟩

namespace F80

def IsFinite (f : F80) : Prop := f.exp ≠ EXP_SPECIAL

instance (f : F80) : Decidable f.IsFinite := inferInstanceAs (Decidable (_ ≠ _))

/-- The magnitude of a finite number. -/
def mag (f : F80) : ℚ := f.signif * 2 ^ (unbiasDenormal f.exp - 63)

def val (f : F80) : ℚ := if f.sign then -f.mag else f.mag

end F80

/-- The least magnitude of a normal number. -/
def minNormal : ℚ := 2 ^ unbias EXP_MIN

/-- The largest finite number. -/
def f80Max (sign : Bool) : F80 := pack (2 ^ 64 - 1) EXP_MAX sign

/-- **A correctly rounded result** for the exact value `x`. -/
def CorrectlyRounded (mode : Mode) (x : ℚ) (f : F80) : Prop :=
  if x = 0 then f.IsZero
  else
    f.sign = decide (x < 0) ∧
      let y := extended.round (mode.dir f.sign) |x|
      if y < 2 ^ extended.emax then f.IsSupported ∧ f.IsFinite ∧ f.mag = y
      else f = if mode.dir f.sign = .zero then f80Max f.sign else f80Inf f.sign

/-! ## Supported numbers -/

namespace F80

variable {f g : F80}

theorem isSupported_iff :
    f.IsSupported ↔ f.exp = 0 ∧ f.signif < 2 ^ 63 ∨ f.exp ≠ 0 ∧ 2 ^ 63 ≤ f.signif := by
  have hlt := f.signif_lt
  unfold IsSupported EXP_DENORMAL
  by_cases hexp : f.exp = 0
  · rw [if_pos hexp]
    omega
  rw [if_neg hexp]
  omega

theorem IsSupported.le_signif (hf : f.IsSupported) (hexp : f.exp ≠ 0) : 2 ^ 63 ≤ f.signif := by
  have := isSupported_iff.mp hf
  omega

theorem IsSupported.exp_eq_zero (hf : f.IsSupported) (hlt : f.signif < 2 ^ 63) : f.exp = 0 := by
  have := isSupported_iff.mp hf
  omega

/-- The magnitude in units of the least denormal number. -/
def units (f : F80) : ℕ := f.signif * 2 ^ (f.exp - 1)

theorem unbiasDenormal_eq (exp : ℕ) : unbiasDenormal exp = ((exp - 1 : ℕ) : ℤ) - 16382 := by
  unfold unbiasDenormal unbias EXP_DENORMAL EXP_MIN BIAS80
  split <;> omega

theorem unbiasDenormal_lt (f : F80) : unbiasDenormal f.exp < 2 ^ 15 := by
  have hlt := f.exp_lt
  rw [unbiasDenormal_eq]
  omega

theorem mag_eq_units (f : F80) : f.mag = f.units * 2 ^ extended.qmin := by
  have hexp : unbiasDenormal f.exp - 63 = ((f.exp - 1 : ℕ) : ℤ) + extended.qmin := by
    rw [unbiasDenormal_eq, show extended.qmin = -16445 from rfl]
    ring
  rw [mag, units, two_zpow_eq_mul _ hexp, Nat.cast_mul, Nat.cast_pow, mul_assoc]
  rfl

/-- A larger exponent is a larger magnitude. -/
theorem units_lt_of_exp_lt (hf : f.IsSupported) (hg : g.IsSupported) (h : f.exp < g.exp) :
    f.units < g.units := by
  have hge : 2 ^ 63 * 2 ^ (g.exp - 1) ≤ g.units := Nat.mul_le_mul_right _ (hg.le_signif (by omega))
  rcases isSupported_iff.mp hf with ⟨hzero, hlt⟩ | ⟨hpos, -⟩
  · calc f.units = f.signif := by rw [units, hzero, Nat.zero_sub, pow_zero, mul_one]
      _ < 2 ^ 63 := hlt
      _ ≤ 2 ^ 63 * 2 ^ (g.exp - 1) := Nat.le_mul_of_pos_right _ (Nat.two_pow_pos _)
      _ ≤ g.units := hge
  calc f.units < 2 ^ 64 * 2 ^ (f.exp - 1) :=
        Nat.mul_lt_mul_of_pos_right f.signif_lt (Nat.two_pow_pos _)
    _ = 2 ^ 63 * 2 ^ (f.exp - 1 + 1) := by
        rw [pow_succ 2 (f.exp - 1)]
        ring
    _ ≤ 2 ^ 63 * 2 ^ (g.exp - 1) :=
        Nat.mul_le_mul_left _ (Nat.pow_le_pow_right two_pos (by omega))
    _ ≤ g.units := hge

/-- A supported number is determined by its sign and its magnitude. -/
theorem eq_of_units (hf : f.IsSupported) (hg : g.IsSupported) (hsign : f.sign = g.sign)
    (h : f.units = g.units) : f = g := by
  have hexp : f.exp = g.exp := by
    rcases lt_trichotomy f.exp g.exp with hlt | heq | hgt
    · exact absurd h (units_lt_of_exp_lt hf hg hlt).ne
    · exact heq
    · exact absurd h (units_lt_of_exp_lt hg hf hgt).ne'
  have hsignif : f.signif = g.signif := by
    unfold units at h
    rw [hexp] at h
    exact Nat.eq_of_mul_eq_mul_right (Nat.two_pow_pos _) h
  cases f
  cases g
  simp_all

theorem mag_nonneg (f : F80) : 0 ≤ f.mag := by
  unfold mag
  positivity

theorem abs_val (f : F80) : |f.val| = f.mag := by
  unfold val
  split
  · rw [abs_neg, abs_of_nonneg f.mag_nonneg]
  · exact abs_of_nonneg f.mag_nonneg

theorem signif_pos (hf : f.IsSupported) (hzero : ¬ f.IsZero) : 0 < f.signif := by
  rcases isSupported_iff.mp hf with ⟨hexp, -⟩ | ⟨-, hge⟩
  · exact Nat.pos_of_ne_zero fun h => hzero ⟨hexp, h⟩
  · omega

theorem mag_pos (hf : f.IsSupported) (hzero : ¬ f.IsZero) : 0 < f.mag := by
  have hsignif : (0 : ℚ) < f.signif := by exact_mod_cast signif_pos hf hzero
  unfold mag
  positivity

theorem val_neg_iff (hf : 0 < f.mag) : f.val < 0 ↔ f.sign = true := by
  unfold val
  cases f.sign
  · simp [hf.le]
  · simp [hf]

theorem val_pos_iff (hf : 0 < f.mag) : 0 < f.val ↔ f.sign = false := by
  unfold val
  cases f.sign
  · simp [hf]
  · simp [hf.le]

theorem handleNans_none (hf : f.IsSupported) (hg : g.IsSupported) (hnf : ¬ f.IsNan)
    (hng : ¬ g.IsNan) : handleNans f g = none := by
  unfold handleNans
  rw [if_neg (by simp [hf, hg]), if_neg fun h => hnf h.1, if_neg hnf, if_neg hng]

theorem handleNans_of_finite (hf : f.IsSupported) (hg : g.IsSupported) (hff : f.IsFinite)
    (hgf : g.IsFinite) : handleNans f g = none :=
  handleNans_none hf hg (fun h => hff h.1) fun h => hgf h.1

theorem eq_of_mag (hf : f.IsSupported) (hg : g.IsSupported) (hsign : f.sign = g.sign)
    (h : f.mag = g.mag) : f = g := by
  rw [mag_eq_units, mag_eq_units] at h
  have hpow : (2 : ℚ) ^ extended.qmin ≠ 0 := zpow_ne_zero _ two_ne_zero
  exact eq_of_units hf hg hsign (Nat.cast_injective (mul_right_cancel₀ hpow h))

end F80

/-! ## Encodings -/

section Enc

variable {v : ℕ} {t : ℤ} {sign : Bool}

theorem pack_signif {signif : ℕ} {exp : ℤ} (h : signif < 2 ^ 64) :
    (pack signif exp sign).signif = signif := Nat.mod_eq_of_lt h

theorem pack_exp {signif : ℕ} {exp : ℕ} (h : exp < 2 ^ 15) : (pack signif exp sign).exp = exp := by
  change ((exp : ℤ) % 2 ^ 15).toNat = exp
  omega

theorem enc_sign : (enc v t sign).sign = sign := by
  unfold enc
  split <;> rfl

/-- An encoding without overflow. -/
theorem enc_spec (sign : Bool) (hlow : 2 ^ 63 ≤ v) (hhigh : v ≤ 2 ^ 64) (hmin : -16382 ≤ t)
    (hmax : t ≤ 16383) (hfin : v = 2 ^ 64 → t ≠ 16383) :
    (enc v t sign).IsSupported ∧ (enc v t sign).IsFinite ∧
      (enc v t sign).mag = v * 2 ^ (t - 63) := by
  -- the field and the significand in the two cases
  obtain ⟨signif, exp, henc, hsignif, hexp, hexp', hmag⟩ : ∃ signif exp : ℕ,
      enc v t sign = pack signif exp sign ∧ (2 ^ 63 ≤ signif ∧ signif < 2 ^ 64) ∧ exp ≠ 0 ∧
        exp < 32767 ∧ (signif : ℚ) * 2 ^ ((exp : ℤ) - 16383 - 63) = v * 2 ^ (t - 63) := by
    unfold enc bias BIAS80
    by_cases hv : v = 2 ^ 64
    · refine ⟨2 ^ 63, (t + 16384).toNat, ?_, ⟨le_rfl, by decide⟩, by omega, by omega, ?_⟩
      · rw [if_pos hv, Int.toNat_of_nonneg (by omega)]
        congr 1
        ring
      · rw [hv, two_zpow_eq_mul (e := t - 63) 1 (by omega)]
        ring
    refine ⟨v, (t + 16383).toNat, ?_, ⟨hlow, by omega⟩, by omega, by omega, ?_⟩
    · rw [if_neg hv, Int.toNat_of_nonneg (by omega)]
      rfl
    congr 2
    omega
  have hf : (pack signif exp sign).exp = exp := pack_exp (by omega)
  have hs : (pack signif exp sign).signif = signif := pack_signif hsignif.2
  rw [henc]
  refine ⟨F80.isSupported_iff.mpr (.inr ⟨?_, ?_⟩), ?_, ?_⟩
  · rwa [hf]
  · rw [hs]
    exact hsignif.1
  · unfold F80.IsFinite EXP_SPECIAL
    rw [hf]
    omega
  · rw [F80.mag, hf, hs, ← hmag, unbiasDenormal, if_neg (show ¬ exp = EXP_DENORMAL from hexp)]
    rfl

theorem enc_inj {v' : ℕ} (hv : v ≤ 2 ^ 64) (hv' : v' ≤ 2 ^ 64) (hmin : -16382 ≤ t)
    (hmax : t ≤ 16383) : enc v t sign = enc v' t sign ↔ v = v' := by
  refine ⟨?_, fun h => h ▸ rfl⟩
  intro h
  have hsignif : ∀ w ≤ 2 ^ 64, w ≠ 2 ^ 64 → (enc w t sign).signif = w := by
    intro w hw hne
    rw [enc, if_neg hne]
    exact pack_signif (by omega)
  have hexp : ∀ w, ((enc w t sign).exp : ℤ) = t + 16383 + if w = 2 ^ 64 then 1 else 0 := by
    intro w
    unfold enc
    split
    · change (((t + 16383 + 1) % 2 ^ 15).toNat : ℤ) = _
      omega
    change (((t + 16383) % 2 ^ 15).toNat : ℤ) = _
    omega
  have hcarry := hexp v
  rw [h, hexp v'] at hcarry
  by_cases htop : v = 2 ^ 64
  · rw [if_pos htop] at hcarry
    by_contra hne
    rw [if_neg fun htop' => hne (htop.trans htop'.symm)] at hcarry
    omega
  rw [if_neg htop] at hcarry
  have htop' : v' ≠ 2 ^ 64 := by
    intro htop'
    rw [if_pos htop'] at hcarry
    omega
  rw [← hsignif v hv htop, h, hsignif v' hv' htop']

/-- An encoding with a carry to the exponent of infinity. -/
theorem enc_overflow : enc (2 ^ 64) 16383 sign = f80Inf sign := by
  unfold enc
  rw [if_pos rfl]
  rfl

end Enc

/-! ## The right result -/

theorem two_pow_63_mul_zpow (t : ℤ) : (2 : ℚ) ^ t = 2 ^ 63 * 2 ^ (t - 63) :=
  two_zpow_eq_mul 63 (by push_cast; ring)

theorem two_pow_64_mul_zpow (t : ℤ) : (2 : ℚ) ^ 64 * 2 ^ (t - 63) = 2 ^ (t + 1) :=
  (two_zpow_eq_mul 64 (by push_cast; ring)).symm

/-- A significand is below the overflow bound, except for a carry at the largest exponent. -/
theorem mul_zpow_lt_emax {v : ℕ} {t : ℤ} (hv : v ≤ 2 ^ 64) (ht : t ≤ 16383) :
    (v : ℚ) * 2 ^ (t - 63) < 2 ^ extended.emax ↔ (v = 2 ^ 64 → t ≠ 16383) := by
  have hemax : extended.emax = 16384 := rfl
  have htop := two_pow_64_mul_zpow t
  have hpow : (0 : ℚ) < 2 ^ (t - 63) := zpow_pos two_pos _
  rcases hv.lt_or_eq with hlt | rfl
  · refine iff_of_true ?_ (fun heq => absurd heq hlt.ne)
    have hlt' : (v : ℚ) < 2 ^ 64 := by exact_mod_cast hlt
    calc (v : ℚ) * 2 ^ (t - 63) < 2 ^ 64 * 2 ^ (t - 63) := mul_lt_mul_of_pos_right hlt' hpow
      _ = 2 ^ (t + 1) := htop
      _ ≤ 2 ^ extended.emax := zpow_le_zpow_right₀ one_le_two (by omega)
  · rw [Nat.cast_pow, Nat.cast_ofNat, htop, zpow_lt_zpow_iff_right₀ one_lt_two]
    omega

section Right

variable {mode : Mode} {x : ℚ} {f : F80} {n m : ℕ} {t : ℤ}

variable (hm : 0 < m) (hx : |x| = (n : ℚ) / m * 2 ^ (t - 63))

include hm hx

theorem ne_zero_of_normal (hlow : 2 ^ 63 * m ≤ n) : x ≠ 0 := by
  rintro rfl
  have hn : 0 < n := lt_of_lt_of_le (by positivity) hlow
  have hm' : (0 : ℚ) < m := by exact_mod_cast hm
  have hn' : (0 : ℚ) < n := by exact_mod_cast hn
  have hpos : (0 : ℚ) < (n : ℚ) / m * 2 ^ (t - 63) := by positivity
  rw [abs_zero] at hx
  exact hpos.ne hx

theorem quantum_of_normal (hlow : 2 ^ 63 * m ≤ n) (hhigh : n < 2 ^ 64 * m) (hmin : -16382 ≤ t) :
    extended.quantum |x| = t - 63 := by
  have hn : 0 < n := lt_of_lt_of_le (by positivity) hlow
  exact Format.quantum_eq (show 0 < 64 by decide) hm hn hx
    (.inr ⟨show (-16445 : ℤ) ≤ t - 63 by omega, hlow⟩) hhigh

theorem lt_zpow_of_normal (hhigh : n < 2 ^ 64 * m) : |x| < 2 ^ (t + 1) := by
  have hm' : (0 : ℚ) < m := by exact_mod_cast hm
  have hdiv : (n : ℚ) / m < 2 ^ 64 := by
    rw [div_lt_iff₀ hm']
    exact_mod_cast hhigh
  calc |x| = (n : ℚ) / m * 2 ^ (t - 63) := hx
    _ < 2 ^ 64 * 2 ^ (t - 63) := mul_lt_mul_of_pos_right hdiv (zpow_pos two_pos _)
    _ = 2 ^ (t + 1) := two_pow_64_mul_zpow t

theorem zpow_le_of_normal (hlow : 2 ^ 63 * m ≤ n) : 2 ^ t ≤ |x| := by
  have hm' : (0 : ℚ) < m := by exact_mod_cast hm
  have hdiv : (2 : ℚ) ^ 63 ≤ (n : ℚ) / m := by
    rw [le_div_iff₀ hm']
    exact_mod_cast hlow
  calc (2 : ℚ) ^ t = 2 ^ 63 * 2 ^ (t - 63) := two_pow_63_mul_zpow t
    _ ≤ (n : ℚ) / m * 2 ^ (t - 63) := mul_le_mul_of_nonneg_right hdiv (zpow_pos two_pos _).le
    _ = |x| := hx.symm

/-- **The right result is one number**: for the exact value `n / m` in units of the last of 64
digits, with the exponent of a normal number. -/
theorem correctlyRounded_iff (hlow : 2 ^ 63 * m ≤ n) (hhigh : n < 2 ^ 64 * m) (hmin : -16382 ≤ t)
    (hmax : t ≤ 16383) :
    CorrectlyRounded mode x f ↔
      f = enc ((mode.dir (decide (x < 0))).divRound n m) t (decide (x < 0)) := by
  have hround : ∀ d : Dir, extended.round d |x| = d.divRound n m * 2 ^ (t - 63) :=
    fun d => Format.round_eq hm hx (quantum_of_normal hm hx hlow hhigh hmin)
  generalize hs : decide (x < 0) = sign
  have hv_low : 2 ^ 63 ≤ (mode.dir sign).divRound n m := Dir.le_divRound hm hlow
  have hv_high : (mode.dir sign).divRound n m ≤ 2 ^ 64 := Dir.divRound_le hm hhigh.le
  -- there is overflow when the rounded significand carries to the exponent of infinity
  have hfinite : extended.round (mode.dir sign) |x| < 2 ^ extended.emax ↔
      ((mode.dir sign).divRound n m = 2 ^ 64 → t ≠ 16383) := by
    rw [hround]
    exact mul_zpow_lt_emax hv_high hmax
  have hiff : f.sign = sign → ((let y := extended.round (mode.dir f.sign) |x|
      if y < 2 ^ extended.emax then f.IsSupported ∧ f.IsFinite ∧ f.mag = y
      else f = if mode.dir f.sign = .zero then f80Max f.sign else f80Inf f.sign) ↔
      f = enc ((mode.dir sign).divRound n m) t sign) := by
    intro hfs
    rw [hfs]
    by_cases hfin : (mode.dir sign).divRound n m = 2 ^ 64 → t ≠ 16383
    · obtain ⟨hsup, hfinite', hmag⟩ := enc_spec sign hv_low hv_high hmin hmax hfin
      rw [if_pos (hfinite.mpr hfin), hround]
      constructor
      · rintro ⟨hf, -, hfmag⟩
        exact F80.eq_of_mag hf hsup (hfs.trans enc_sign.symm) (hfmag.trans hmag.symm)
      rintro rfl
      exact ⟨hsup, hfinite', hmag⟩
    obtain ⟨hv, ht⟩ : (mode.dir sign).divRound n m = 2 ^ 64 ∧ t = 16383 := by
      constructor <;> by_contra hne
      · exact hfin fun h => absurd h hne
      · exact hfin fun _ => hne
    -- a carry is a rounding up
    have hdir : mode.dir sign ≠ .zero := by
      intro hd
      have hdiv : n / m < 2 ^ 64 := (Nat.div_lt_iff_lt_mul hm).mpr hhigh
      rw [hd] at hv
      exact hdiv.ne hv
    rw [if_neg (hfinite.not.mpr hfin), if_neg hdir, hv, ht, enc_overflow]
  unfold CorrectlyRounded
  rw [if_neg (ne_zero_of_normal hm hx hlow), hs]
  constructor
  · rintro ⟨hfs, h⟩
    exact (hiff hfs).mp h
  intro h
  have hfs : f.sign = sign := by rw [h, enc_sign]
  exact ⟨hfs, (hiff hfs).mpr h⟩

/-- The right result for a value that is too big. -/
theorem correctlyRounded_iff_of_big (hlow : 2 ^ 63 * m ≤ n) (hhigh : n < 2 ^ 64 * m)
    (hbig : 16383 < t) :
    CorrectlyRounded mode x f ↔
      f = if mode.dir (decide (x < 0)) = .zero then f80Max (decide (x < 0))
        else f80Inf (decide (x < 0)) := by
  have hround : ∀ d : Dir, ¬ extended.round d |x| < 2 ^ extended.emax := by
    intro d
    have hv : ((2 ^ 63 : ℕ) : ℚ) ≤ (d.divRound n m : ℚ) := by
      exact_mod_cast Dir.le_divRound hm hlow
    have hemax : extended.emax = 16384 := rfl
    rw [Format.round_eq hm hx (quantum_of_normal hm hx hlow hhigh (by omega)), not_lt]
    calc (2 : ℚ) ^ extended.emax ≤ 2 ^ t := zpow_le_zpow_right₀ one_le_two (by omega)
      _ = ((2 ^ 63 : ℕ) : ℚ) * 2 ^ (t - 63) := by
          rw [Nat.cast_pow, Nat.cast_ofNat, two_pow_63_mul_zpow t]
      _ ≤ d.divRound n m * 2 ^ (t - 63) := mul_le_mul_of_nonneg_right hv (zpow_pos two_pos _).le
  unfold CorrectlyRounded
  rw [if_neg (ne_zero_of_normal hm hx hlow)]
  rw [if_neg (hround _)]
  constructor
  · rintro ⟨hs, hf⟩
    rwa [hs] at hf
  intro hf
  have hs : f.sign = decide (x < 0) := by
    rw [hf]
    split <;> rfl
  rw [hs]
  exact ⟨rfl, hf⟩

end Right

/-! ## Normalizing -/

section Normalize

variable {mode : Mode} {x : ℚ} {signif : ℕ} {exp : ℤ}

theorem tooBig_eq_iff {sign : Bool} :
    tooBig mode signif sign = (if mode.dir sign = .zero then f80Max sign else f80Inf sign) ↔
      ¬ (signif = 2 ^ 127 ∧ mode.dir sign = .zero) := by
  have hdir : mode = .up ∧ sign = true ∨ mode = .down ∧ sign = false ∨ mode = .chop ↔
      mode.dir sign = .zero := by
    cases mode <;> cases sign <;> decide
  have hne : f80Inf sign ≠ f80Max sign := by cases sign <;> decide
  unfold tooBig
  simp only [hdir]
  by_cases hsignif : signif = 2 ^ 127
  · rw [if_pos hsignif]
    by_cases hzero : mode.dir sign = .zero
    · rw [if_pos hzero]
      exact iff_of_false hne (not_not_intro ⟨hsignif, hzero⟩)
    rw [if_neg hzero]
    exact iff_of_true rfl (fun h => hzero h.2)
  · rw [if_neg hsignif]
    exact iff_of_true rfl (fun h => hsignif h.1)

/-- A significand and an exponent as a value in units of the last of 64 digits. -/
theorem signif_mul_zpow (signif c : ℕ) (exp : ℤ) :
    (signif : ℚ) * 2 ^ (exp - 127)
      = ((signif * 2 ^ c : ℕ) : ℚ) / (2 ^ 64 : ℕ) * 2 ^ (exp - c - 63) := by
  have hsplit : exp - 127 = c + (exp - c - 63) - (64 : ℕ) := by
    ring
  rw [hsplit, zpow_sub₀ two_ne_zero, zpow_add₀ two_ne_zero, zpow_natCast, zpow_natCast]
  generalize (2 : ℚ) ^ (exp - c - 63) = p
  push_cast
  ring

/-- **`u128_normalize_round` rounds correctly** in the range of the normal numbers, but for the
significand `2 ^ 127` when it is too big and is to be rounded to zero. -/
theorem normalizeRound_correct_iff (mode : Mode) (hsignif : signif ≠ 0) (hlt : signif < 2 ^ 128)
    (hx : |x| = signif * 2 ^ (exp - 127)) (hmin : minNormal ≤ |x|) (hexp : exp < 2 ^ 31) :
    CorrectlyRounded mode x (u128NormalizeRound mode signif exp (decide (x < 0))) ↔
      ¬ (signif = 2 ^ 127 ∧ 16383 < exp ∧ mode.dir (decide (x < 0)) = .zero) := by
  obtain ⟨hlow, hhigh⟩ := u128Clz_spec hsignif hlt
  generalize u128Clz signif = c at hlow hhigh
  rw [signif_mul_zpow signif c exp] at hx
  have hlow' : 2 ^ 63 * 2 ^ 64 ≤ signif * 2 ^ c := hlow
  have hhigh' : signif * 2 ^ c < 2 ^ 64 * 2 ^ 64 := hhigh
  have ht : -16382 ≤ exp - c := by
    have hup : |x| < 2 ^ (exp - c + 1) := lt_zpow_of_normal (by decide) hx hhigh'
    have hlt := lt_of_le_of_lt hmin hup
    rw [minNormal, zpow_lt_zpow_iff_right₀ one_lt_two, unbias_min] at hlt
    omega
  by_cases hbig : 16383 < exp - c
  · rw [correctlyRounded_iff_of_big (by decide) hx hlow' hhigh' hbig,
      u128NormalizeRound_of_big hlow hhigh hbig hexp, tooBig_eq_iff]
    refine not_congr (and_congr_right fun _ => (and_iff_right ?_).symm)
    omega
  rw [correctlyRounded_iff (by decide) hx hlow' hhigh' ht (by omega),
    u128NormalizeRound_of_normal mode _ hlow hhigh ht (by omega)]
  refine iff_of_true rfl ?_
  rintro ⟨rfl, hexp', -⟩
  -- then nothing was shifted
  have hc : c = 0 := by
    by_contra hc
    have hge : 2 ^ 127 * 2 ^ 1 ≤ 2 ^ 127 * 2 ^ c :=
      Nat.mul_le_mul_left _ (Nat.pow_le_pow_right two_pos (by omega))
    omega
  omega

end Normalize

/-! ## Some numbers -/

def one : F80 := pack (2 ^ 63) 0x3fff false

def three : F80 := pack (3 * 2 ^ 62) 0x4000 false

/-- The least number above one. -/
def aboveOne : F80 := pack (2 ^ 63 + 1) 0x3fff false

theorem one_val : one.val = 1 := by
  have hexp : unbiasDenormal one.exp - 63 = -(63 : ℕ) := by decide
  have hsignif : (one.signif : ℚ) = 2 ^ 63 := by
    rw [show one.signif = 2 ^ 63 from rfl]
    norm_num
  change one.mag = 1
  rw [F80.mag, hexp, zpow_neg, zpow_natCast, hsignif]
  exact mul_inv_cancel₀ (by norm_num)

theorem three_val : three.val = 3 := by
  have hexp : unbiasDenormal three.exp - 63 = -(62 : ℕ) := by decide
  have hsignif : (three.signif : ℚ) = 3 * 2 ^ 62 := by
    rw [show three.signif = 3 * 2 ^ 62 from rfl]
    norm_num
  change three.mag = 3
  rw [F80.mag, hexp, zpow_neg, zpow_natCast, hsignif]
  exact mul_inv_cancel_right₀ (by norm_num) 3

theorem minNormal_le_one : minNormal ≤ 1 := zpow_le_one_of_nonpos₀ one_le_two (by decide)

end Ish.Float80
