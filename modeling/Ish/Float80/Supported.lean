import Ish.Float80.Compare
import Ish.Float80.Div

set_option autoImplicit false

/-! # Supported results

A number is supported if the top bit of its significand is set exactly when its exponent is not that
of the denormal numbers. `u128_normalize_round` stores the exponent of the denormal numbers before
it rounds, and stores the exponent that it computed also for the significand 0. So it returns an
unsupported number in two cases, and each of the operations reaches them.

* A magnitude below the normal numbers is rounded up to the least of them: `RoundsToNormal`.
* The significand is 0 and the exponent is in the range of the normal numbers.
-/

namespace Ish.Float80

open Ish.Lib.Dir Ish.Lib

/-- `f80_scale`; the sum of two `int`s wraps. -/
def f80Scale (mode : Mode) (x : F80) (scale : ℤ) : F80 :=
  if ¬ x.IsSupported ∨ x.IsNan then F80_NAN
  else u128NormalizeRound mode (x.signif * 2 ^ 64) (wrap32 (unbias x.exp + scale)) x.sign

/-- The assertion at the end of `f80_add`, which the early returns do not reach. -/
def AddAsserts (mode : Mode) (a b : F80) : Prop :=
  match addParts mode a b with
  | .inl _ => True
  | .inr (signif, exp, sign) => (u128NormalizeRound mode signif exp sign).IsSupported

/-- A magnitude below the normal numbers that is rounded to the least of them. -/
def RoundsToNormal (d : Dir) (x : ℚ) : Prop :=
  x < minNormal ∧ (d = .away ∧ minNormal - 2 ^ extended.qmin < x ∨
    d = .nearest ∧ minNormal - 2 ^ (extended.qmin - 1) ≤ x)

/-! ## Rounding to the least normal number -/

theorem minNormal_eq : minNormal = 2 ^ 63 * 2 ^ extended.qmin := two_pow_63_mul_zpow _

/-- In units of the least denormal number. -/
theorem roundsToNormal_iff (d : Dir) {n m : ℕ} (hm : 0 < m) :
    RoundsToNormal d ((n : ℚ) / m * 2 ^ extended.qmin) ↔
      n < 2 ^ 63 * m ∧ d.divRound n m = 2 ^ 63 := by
  have hq : (0 : ℚ) < 2 ^ extended.qmin := zpow_pos two_pos _
  have hm' : (0 : ℚ) < m := Nat.cast_pos.mpr hm
  have hhalf : (2 : ℚ) ^ (extended.qmin - 1) = 1 / 2 * 2 ^ extended.qmin := by
    rw [zpow_sub_one₀ two_ne_zero]
    ring
  have hbelow : minNormal - 2 ^ extended.qmin = (2 ^ 63 - 1) * 2 ^ extended.qmin := by
    rw [minNormal_eq]
    ring
  have hmiddle : minNormal - 2 ^ (extended.qmin - 1) = (2 ^ 63 - 1 / 2) * 2 ^ extended.qmin := by
    rw [minNormal_eq, hhalf]
    ring
  have hlt : (n : ℚ) / m < 2 ^ 63 ↔ n < 2 ^ 63 * m := by
    rw [div_lt_iff₀ hm']
    exact_mod_cast Iff.rfl
  have haway : (2 : ℚ) ^ 63 - 1 < n / m ↔ (2 ^ 63 - 1) * m < n := by
    rw [lt_div_iff₀ hm']
    norm_num
    exact_mod_cast Iff.rfl
  have hnearest : (2 : ℚ) ^ 63 - 1 / 2 ≤ n / m ↔ 2 * (2 ^ 63 * m) ≤ 2 * n + m := by
    rw [le_div_iff₀ hm', ← Nat.cast_le (α := ℚ)]
    push_cast
    constructor <;> intro h <;> linarith
  unfold RoundsToNormal
  rw [hbelow, hmiddle, minNormal_eq, mul_lt_mul_iff_left₀ hq, mul_lt_mul_iff_left₀ hq,
    mul_le_mul_iff_left₀ hq, hlt, haway, hnearest]
  exact and_congr_right fun hn => (divRound_eq_top_iff d hm (by decide) hn).symm

/-- A value in units of the least denormal number. -/
theorem value_units {n m k j : ℕ} {exp : ℤ} (hm : 0 < m) (hexp : exp = k - j - 16382) :
    (n : ℚ) / m * 2 ^ (exp - 127)
      = ((n * 2 ^ k : ℕ) : ℚ) / (m * 2 ^ (64 + j) : ℕ) * 2 ^ extended.qmin := by
  have hsplit : k + extended.qmin = (64 + j : ℕ) + (exp - 127) := by
    rw [show extended.qmin = -16445 from rfl]
    omega
  have hpow : (2 : ℚ) ^ k * 2 ^ extended.qmin = 2 ^ (64 + j) * 2 ^ (exp - 127) := by
    rw [← two_zpow_eq_mul _ rfl, two_zpow_eq_mul _ hsplit]
  have hm' : (m : ℚ) ≠ 0 := Nat.cast_ne_zero.mpr hm.ne'
  push_cast
  field_simp
  rw [mul_assoc, mul_assoc, hpow, mul_comm (2 ^ (64 + j))]

theorem natCast_mul_eq (n : ℕ) (x : ℚ) : n * x = (n : ℚ) / (1 : ℕ) * x := by
  rw [Nat.cast_one, div_one]

/-- Digits before the least normal number. -/
theorem roundsToNormal_units_iff (d : Dir) {n m k j : ℕ} {exp : ℤ} (hm : 0 < m)
    (hexp : exp = k - j - 16382) :
    RoundsToNormal d ((n : ℚ) / m * 2 ^ (exp - 127)) ↔
      n * 2 ^ k < 2 ^ 63 * (m * 2 ^ (64 + j)) ∧
        d.divRound (n * 2 ^ k) (m * 2 ^ (64 + j)) = 2 ^ 63 := by
  rw [value_units hm hexp, roundsToNormal_iff d (Nat.mul_pos hm (Nat.two_pow_pos _))]

theorem not_roundsToNormal_of_low (d : Dir) {n m : ℕ} {exp : ℤ} (hm : 0 < m)
    (hn : n < 2 ^ 128 * m) (hexp : exp < -16383) :
    ¬ RoundsToNormal d ((n : ℚ) / m * 2 ^ (exp - 127)) := by
  obtain ⟨j, hj, hexp⟩ : ∃ j : ℕ, 2 ≤ j ∧ exp = (0 : ℕ) - j - 16382 :=
    ⟨(-16382 - exp).toNat, by omega, by omega⟩
  have hle : d.divRound (n * 2 ^ 0) (m * 2 ^ (64 + j)) ≤ 2 ^ 62 := by
    apply divRound_le (Nat.mul_pos hm (Nat.two_pow_pos _))
    calc n * 2 ^ 0 ≤ 2 ^ 62 * (m * 2 ^ (64 + 2)) := by omega
      _ ≤ 2 ^ 62 * (m * 2 ^ (64 + j)) := Nat.mul_le_mul_left _
        (Nat.mul_le_mul_left _ (Nat.pow_le_pow_right two_pos (by omega)))
  rw [roundsToNormal_units_iff d hm hexp]
  omega

/-! ## Normalization -/

section Normalize

variable {mode : Mode} {sign : Bool} {signif : ℕ} {exp : ℤ}

theorem f80Inf_isSupported (sign : Bool) : (f80Inf sign).IsSupported := by
  cases sign <;> decide

theorem tooBig_isSupported (mode : Mode) (signif : ℕ) (sign : Bool) :
    (tooBig mode signif sign).IsSupported := by
  unfold tooBig
  split
  · exact f80Inf_isSupported sign
  split
  · cases sign <;> decide
  · exact f80Inf_isSupported sign

theorem enc_isSupported {v : ℕ} {t : ℤ} (sign : Bool) (hlow : 2 ^ 63 ≤ v) (hhigh : v ≤ 2 ^ 64)
    (hmin : -16382 ≤ t) (hmax : t ≤ 16383) : (enc v t sign).IsSupported := by
  by_cases htop : v = 2 ^ 64 ∧ t = 16383
  · rw [htop.1, htop.2, enc_overflow]
    exact f80Inf_isSupported sign
  · exact (enc_spec sign hlow hhigh hmin hmax fun hv ht => htop ⟨hv, ht⟩).1

/-- The exponent of the denormal numbers with a significand that is rounded. -/
theorem enc_denormal_isSupported_iff {v : ℕ} (sign : Bool) (hv : v ≤ 2 ^ 63) :
    (enc v (-16383) sign).IsSupported ↔ v ≠ 2 ^ 63 := by
  have henc : enc v (-16383) sign = pack v 0 sign := if_neg (by omega)
  have hsignif : (pack v 0 sign).signif = v := pack_signif (by omega)
  rw [henc, F80.isSupported_iff, hsignif]
  constructor
  · rintro (⟨-, hlt⟩ | ⟨hexp, -⟩)
    · omega
    · exact absurd rfl hexp
  · intro hne
    exact .inl ⟨rfl, by omega⟩

theorem u128ShiftRightRound_le (mode : Mode) (i shift : ℕ) (sign : Bool) :
    u128ShiftRightRound mode i shift sign ≤ i / 2 ^ shift + 1 := by
  unfold u128ShiftRightRound
  by_cases hzero : shift = 0
  · rw [if_pos hzero, hzero, pow_zero, Nat.div_one]
    exact Nat.le_succ i
  rw [if_neg hzero]
  dsimp only
  generalize i / 2 ^ shift = q
  repeat' split
  all_goals omega

/-- Far below the normal numbers the result is supported. -/
theorem normalizeRound_isSupported_of_low (mode : Mode) (sign : Bool) (hne : signif ≠ 0)
    (hlt : signif < 2 ^ 128) (hexp : exp < -16383) (hmin : -2 ^ 31 ≤ exp) :
    (u128NormalizeRound mode signif exp sign).IsSupported := by
  have hclz := u128Clz_le hne hlt
  have hwrap : wrap32 (exp - u128Clz signif) < -16382 ∨ 16383 < wrap32 (exp - u128Clz signif) := by
    unfold wrap32
    rw [Int.bmod_def]
    split <;> omega
  unfold u128NormalizeRound
  rw [unbias_min, unbias_max]
  rcases hwrap with hlow | hhigh
  · have hshift : 2 ≤ (-16382 - exp).toNat := by omega
    have hle := u128ShiftRightRound_le mode signif (-16382 - exp).toNat sign
    have hdiv : signif / 2 ^ (-16382 - exp).toNat ≤ signif / 2 ^ 2 :=
      Nat.div_le_div_left (Nat.pow_le_pow_right two_pos hshift) (by decide)
    rw [if_pos hlow, if_neg (by omega)]
    generalize u128ShiftRightRound mode signif (-16382 - exp).toNat sign = shifted at hle
    have hround : (mode.dir sign).divRound shifted (2 ^ 64) ≤ 2 ^ 62 :=
      divRound_le (by decide) (by omega)
    rw [roundSignif_eq (by omega), unbias_zero, enc_denormal_isSupported_iff sign (by omega)]
    omega
  · rw [if_neg (by omega), if_pos hhigh]
    exact tooBig_isSupported mode signif sign

/-- One place below the normal numbers, where the result is rounded twice. -/
theorem normalizeRound_isSupported_of_one (mode : Mode) (sign : Bool) (hne : signif ≠ 0)
    (hlt : signif < 2 ^ 128) (htwice : signif ≠ 2 ^ 128 - 2 ^ 64 - 1) :
    (u128NormalizeRound mode signif (-16383) sign).IsSupported ↔
      (mode.dir sign).divRound signif (2 ^ 65) ≠ 2 ^ 63 := by
  have hclz := u128Clz_le hne hlt
  have hle : (mode.dir sign).divRound signif 2 ≤ 2 ^ 127 := divRound_le (by decide) (by omega)
  have hcode : u128NormalizeRound mode signif (-16383) sign = enc ((mode.dir sign).divRound
      ((mode.dir sign).divRound signif 2) (2 ^ 64)) (-16383) sign := by
    have hshift : (-16382 - (-16383 : ℤ)).toNat = 1 := rfl
    unfold u128NormalizeRound
    dsimp only
    rw [unbias_min, unbias_max, wrap32_eq (by omega) (by omega), if_pos (by omega),
      if_neg (by omega), hshift, u128ShiftRightRound_of_le (by decide), pow_one,
      roundSignif_eq (by omega), unbias_zero]
  rw [hcode, enc_denormal_isSupported_iff sign (divRound_le (by decide) (by omega)), not_iff_not]
  generalize mode.dir sign = d at hle ⊢
  cases d with
  | zero =>
    have h : ∀ n m, Dir.zero.divRound n m = n / m := fun _ _ => rfl
    rw [h, h, h]
    omega
  | away =>
    have h := lt_divRound_away (n := signif) (m := 2) (a := 2 ^ 127 - 2 ^ 64) (by decide)
    have h' := lt_divRound_away (n := Dir.away.divRound signif 2) (m := 2 ^ 64)
      (a := 2 ^ 63 - 1) (by decide)
    have h'' := lt_divRound_away (n := signif) (m := 2 ^ 65) (a := 2 ^ 63 - 1) (by decide)
    have htop : Dir.away.divRound signif (2 ^ 65) ≤ 2 ^ 63 := divRound_le (by decide) (by omega)
    have htop' : Dir.away.divRound (Dir.away.divRound signif 2) (2 ^ 64) ≤ 2 ^ 63 :=
      divRound_le (by decide) (by omega)
    omega
  | nearest =>
    rw [divRound_nearest_eq_even (by decide) (by decide),
      divRound_nearest_eq_even (by decide) (by decide)]
    have hbounds := divRound_nearest_bounds (n := signif) (m := 2) (by decide)
    -- the nearest half is below the middle only if the significand is
    have hhalf := divRound_nearest_eq_even (n := signif) (m := 2) (a := 2 ^ 127 - 2 ^ 63)
      (by decide) (by decide)
    omega

/-- **When normalization returns a supported number.** -/
theorem normalizeRound_isSupported_iff (mode : Mode) (sign : Bool) (hne : signif ≠ 0)
    (hlt : signif < 2 ^ 128) (hmin : -2 ^ 31 ≤ exp) (hmax : exp < 2 ^ 31)
    (htwice : exp = -16383 → signif ≠ 2 ^ 128 - 2 ^ 64 - 1) :
    (u128NormalizeRound mode signif exp sign).IsSupported ↔
      ¬ RoundsToNormal (mode.dir sign) (signif * 2 ^ (exp - 127)) := by
  rw [natCast_mul_eq]
  rcases lt_trichotomy exp (-16383) with hlow | heq | hhigh
  · exact iff_of_true (normalizeRound_isSupported_of_low mode sign hne hlt hlow hmin)
      (not_roundsToNormal_of_low _ one_pos (by omega) hlow)
  · rw [roundsToNormal_units_iff (k := 0) (j := 1) _ one_pos (by omega), heq,
      normalizeRound_isSupported_of_one mode sign hne hlt (htwice heq), pow_zero, mul_one, one_mul]
    refine not_congr (and_iff_right ?_).symm
    omega
  obtain ⟨k, hexp⟩ : ∃ k : ℕ, exp = k - (0 : ℕ) - 16382 := ⟨(exp + 16382).toNat, by omega⟩
  have hnat : (exp + 16382).toNat = k := by omega
  obtain ⟨hlow', hhigh'⟩ := u128Clz_spec hne hlt
  generalize u128Clz signif = c at hlow' hhigh'
  rw [roundsToNormal_units_iff _ one_pos hexp, add_zero, one_mul]
  by_cases hsmall : exp - c < -16382
  · obtain ⟨hunits, hcode⟩ :=
      u128NormalizeRound_of_small mode sign hlow' hhigh' (by omega) hsmall hmax
    rw [hnat] at hunits hcode
    rw [hcode, enc_denormal_isSupported_iff sign (divRound_le (by decide) (by omega))]
    exact not_congr (and_iff_right (by omega)).symm
  have hge : signif * 2 ^ c ≤ signif * 2 ^ k :=
    Nat.mul_le_mul_left _ (Nat.pow_le_pow_right two_pos (by omega))
  refine iff_of_true ?_ (by omega)
  by_cases hbig : 16383 < exp - c
  · rw [u128NormalizeRound_of_big hlow' hhigh' hbig hmax]
    exact tooBig_isSupported mode signif sign
  rw [u128NormalizeRound_of_normal mode sign hlow' hhigh' (by omega) (by omega)]
  exact enc_isSupported sign (le_divRound (by decide) hlow')
    (divRound_le (by decide) hhigh'.le) (by omega) (by omega)

/-- The significand 0. -/
theorem normalizeRound_zero_isSupported_iff (mode : Mode) (exp : ℤ) (sign : Bool) :
    (u128NormalizeRound mode 0 exp sign).IsSupported ↔
      ¬ (-16382 ≤ wrap32 (exp - 128) ∧ wrap32 (exp - 128) ≤ 16383) := by
  rw [u128NormalizeRound_zero]
  generalize wrap32 (exp - 128) = t
  by_cases hlow : t < -16382
  · rw [if_pos hlow]
    exact iff_of_true (by cases sign <;> decide) (by omega)
  rw [if_neg hlow]
  by_cases hhigh : 16383 < t
  · rw [if_pos hhigh]
    exact iff_of_true (tooBig_isSupported mode 0 sign) (by omega)
  rw [if_neg hhigh, F80.isSupported_iff]
  refine iff_of_false ?_ (by omega)
  have hexp : (pack 0 (bias t) sign).exp = (t + 16383).toNat := by
    change ((t + 16383) % 2 ^ 15).toNat = _
    omega
  have hsignif : (pack 0 (bias t) sign).signif = 0 := rfl
  rw [hexp, hsignif]
  omega

end Normalize

/-! ## Addition -/

section Add

variable {mode : Mode} {a b : F80}

/-- The least normal exponent less a denormal number, which is halved: the difference is a half
below the least normal number. -/
def OrderedSafe (mode : Mode) (a b : F80) : Prop :=
  ¬ (a.exp = 1 ∧ b.exp = 0 ∧ a.sign ≠ b.sign ∧ 2 * a.signif = b.signif + (2 ^ 64 - 1) ∧
    mode.dir a.sign ≠ .zero)

def AddSafe (mode : Mode) (a b : F80) : Prop := OrderedSafe mode a b ∧ OrderedSafe mode b a

theorem zero_isSupported (hzero : a.IsZero) : a.IsSupported :=
  F80.isSupported_iff.mpr (.inl ⟨hzero.1, by rw [hzero.2]; decide⟩)

theorem handleNans_isSupported {f : F80} (ha : a.IsSupported) (hb : b.IsSupported)
    (h : handleNans a b = some f) : f.IsSupported := by
  unfold handleNans at h
  rw [if_neg (by simp [ha, hb])] at h
  repeat' split at h
  all_goals cases h
  all_goals assumption

theorem not_nan_of_handleNans (h : handleNans a b = none) : ¬ a.IsNan ∧ ¬ b.IsNan := by
  unfold handleNans at h
  grind

theorem addOrdered_inl_isSupported {f : F80} (h : addOrdered mode a b = .inl f) :
    f.IsSupported := by
  unfold addOrdered at h
  dsimp only at h
  repeat' split at h
  all_goals cases h
  all_goals decide

theorem addAsserts_iff (ha : a.IsSupported) (hb : b.IsSupported) :
    AddAsserts mode a b ↔ (f80Add mode a b).IsSupported := by
  unfold AddAsserts f80Add
  cases h : addParts mode a b with
  | inr parts => exact Iff.rfl
  | inl f =>
    refine iff_of_true trivial ?_
    unfold addParts at h
    split at h
    · rename_i g hg
      cases h
      exact handleNans_isSupported ha hb hg
    split at h
    · exact addOrdered_inl_isSupported h
    · exact addOrdered_inl_isSupported h

/-- The aligned sum of numbers that are not far apart. -/
theorem addOrdered_isSupported_of_exact (mode : Mode) (ha : a.IsSupported) (hfa : a.IsFinite)
    (hba : b.exp ≤ a.exp) (hexact : b.signif = 0 ∨ a.exp - b.exp ≤ 64 ∧ (b.exp ≠ 0 ∨ a.exp = 0)) :
    (finishAdd mode (addOrdered mode a b)).IsSupported := by
  have hsum : alignedSum mode a b = a.val + b.val := alignedSum_eq hba hexact
  by_cases hzero : alignedSum mode a b = 0
  · exact zero_isSupported (addOrdered_of_zero ha hfa hzero)
  obtain ⟨hmin, hmax⟩ := exp_bounds hfa
  obtain ⟨n, e, sign, hcode, hn, hlt, hlow, hhigh, -, hval⟩ := addOrdered_of_ne_zero hfa hzero
  -- the sum is a multiple of the least denormal number
  obtain ⟨z, hz⟩ := val_eq_units a
  obtain ⟨w, hw⟩ := val_eq_units b
  have hq : (0 : ℚ) < 2 ^ extended.qmin := zpow_pos two_pos _
  have hunits : (n : ℚ) * 2 ^ (e - 127) = ((z + w).natAbs : ℚ) / (1 : ℕ) * 2 ^ extended.qmin := by
    have habs : |alignedSum mode a b| = n * 2 ^ (e - 127) := by
      rw [hval, abs_signed, abs_of_nonneg (by positivity)]
    rw [← habs, hsum, hz, hw, ← add_mul, ← Int.cast_add, abs_mul, abs_of_pos hq, Nat.cast_one,
      div_one, Nat.cast_natAbs, Int.cast_abs]
  rw [hcode]
  refine (normalizeRound_isSupported_iff mode sign hn hlt (by omega) (by omega) (by omega)).mpr ?_
  rw [hunits, roundsToNormal_iff _ one_pos, divRound_one]
  omega

/-- Rounding a half. -/
theorem divRound_two_eq_iff (d : Dir) {n : ℕ} (hn : n < 2 ^ 64) :
    d.divRound n 2 = 2 ^ 63 ↔ n = 2 ^ 64 - 1 ∧ d ≠ .zero := by
  rw [divRound_eq_top_iff d two_pos (by decide) (by omega)]
  constructor
  · rintro (⟨rfl, h⟩ | ⟨rfl, h⟩) <;> exact ⟨by omega, by decide⟩
  rintro ⟨rfl, hd⟩
  cases d with
  | zero => exact absurd rfl hd
  | away => exact .inl ⟨rfl, by decide⟩
  | nearest => exact .inr ⟨rfl, by decide⟩

theorem Inexact.isSupported_iff (h : Inexact a b) (mode : Mode) :
    (finishAdd mode (addOrdered mode a b)).IsSupported ↔ OrderedSafe mode a b := by
  obtain ⟨hmin, hmax⟩ := exp_bounds h.finite
  have hge := h.le_signif
  have hcombined := h.le_combined mode
  have hpos : (0 : ℚ) < (combined a b (2 ^ 64) (moved mode a b) : ℕ) *
      2 ^ (unbiasDenormal a.exp - 127) := by
    have : (0 : ℚ) < (combined a b (2 ^ 64) (moved mode a b) : ℕ) := Nat.cast_pos.mpr (by omega)
    positivity
  have hsum : alignedSum mode a b = signed a.sign
      ((combined a b (2 ^ 64) (moved mode a b) : ℕ) * 2 ^ (unbiasDenormal a.exp - 127)) := by
    rw [h.alignedSum_eq_combined, signif_mul_zpow _ 0, pow_zero, mul_one, Nat.cast_zero, sub_zero]
  have hne : alignedSum mode a b ≠ 0 := by
    rw [hsum, Ne, signed_eq_zero_iff]
    exact hpos.ne'
  obtain ⟨n, e, sign, hcode, hn, hlt, hlow, hhigh, -, hval⟩ := addOrdered_of_ne_zero h.finite hne
  have hnpos : (0 : ℚ) < n * 2 ^ (e - 127) := by
    have : (0 : ℚ) < n := Nat.cast_pos.mpr (Nat.pos_of_ne_zero hn)
    positivity
  have hsign : sign = a.sign := by
    rw [← signed_neg_iff sign hnpos, ← hval, hsum, signed_neg_iff a.sign hpos]
  have habs : (n : ℚ) * 2 ^ (e - 127) = (combined a b (2 ^ 64) (moved mode a b) : ℕ) *
      2 ^ (unbiasDenormal a.exp - 127) := by
    rw [← abs_of_pos hnpos, ← abs_signed sign, ← hval, hsum, abs_signed, abs_of_pos hpos]
  have hexp : unbiasDenormal a.exp = (a.exp - 1 : ℕ) - (0 : ℕ) - 16382 := by
    rw [F80.unbiasDenormal_eq]
    omega
  rw [hcode]
  refine (normalizeRound_isSupported_iff mode sign hn hlt (by omega) (by omega) (by omega)).trans ?_
  rw [habs, natCast_mul_eq, roundsToNormal_units_iff _ one_pos hexp, hsign, add_zero, one_mul]
  refine not_congr ?_
  by_cases hone : a.exp = 1
  · obtain ⟨hmoved, hb⟩ := h.moved_of_one mode hone
    have hzero : b.exp = 0 := h.far.resolve_left (by omega)
    rw [hone, Nat.sub_self, pow_zero, mul_one]
    unfold combined
    by_cases hsame : a.sign = b.sign
    · rw [if_neg (not_not_intro hsame)]
      exact iff_of_false (by omega) fun hbad => hbad.2.2.1 hsame
    have hdiff : a.signif * 2 ^ 64 - moved mode a b = (2 * a.signif - b.signif) * 2 ^ 63 := by
      omega
    have htwo : 2 ^ 64 = 2 * 2 ^ 63 := by decide
    rw [if_pos hsame, hdiff, htwo, divRound_mul_right _ _ _ (by decide)]
    have hround := divRound_two_eq_iff (mode.dir a.sign) (n := 2 * a.signif - b.signif)
    constructor
    · rintro ⟨hless, htop⟩
      obtain ⟨hodd, hdir⟩ := (hround (by omega)).mp htop
      exact ⟨rfl, hzero, hsame, by omega, hdir⟩
    · rintro ⟨-, -, -, heq, hdir⟩
      exact ⟨by omega, (hround (by omega)).mpr ⟨by omega, hdir⟩⟩
  · have hpow : combined a b (2 ^ 64) (moved mode a b) * 2 ^ 1
        ≤ combined a b (2 ^ 64) (moved mode a b) * 2 ^ (a.exp - 1) :=
      Nat.mul_le_mul_left _ (Nat.pow_le_pow_right two_pos (by have := h.normal; omega))
    exact iff_of_false (by omega) fun hbad => hone hbad.1

theorem addOrdered_isSupported_iff (mode : Mode) (ha : a.IsSupported) (hb : b.IsSupported)
    (hfa : a.IsFinite) (hba : b.exp ≤ a.exp) :
    (finishAdd mode (addOrdered mode a b)).IsSupported ↔ OrderedSafe mode a b := by
  by_cases hexact : b.signif = 0 ∨ a.exp - b.exp ≤ 64 ∧ (b.exp ≠ 0 ∨ a.exp = 0)
  · refine iff_of_true (addOrdered_isSupported_of_exact mode ha hfa hba hexact) ?_
    rintro ⟨hone, hzero, -, heq, -⟩
    omega
  refine Inexact.isSupported_iff ⟨ha, hb, hfa, hba, ?_, ?_, ?_⟩ mode
  · exact fun hzero => hexact (.inr ⟨by omega, .inr hzero⟩)
  · exact fun hzero => hexact (.inl hzero)
  by_contra hfar
  exact hexact (.inr ⟨by omega, by omega⟩)

theorem addOrdered_inf_isSupported (mode : Mode) (ha : a.IsSupported) (hinf : a.IsInf) :
    (finishAdd mode (addOrdered mode a b)).IsSupported := by
  by_cases hother : b.IsInf ∧ a.sign ≠ b.sign
  · rw [addOrdered_of_infs hinf hother.1 hother.2]
    exact (by decide : F80_NAN.IsSupported)
  rw [addOrdered_of_inf ha hinf hother]
  exact f80Inf_isSupported a.sign

theorem f80Add_isSupported_iff (mode : Mode) (ha : a.IsSupported) (hb : b.IsSupported) :
    (f80Add mode a b).IsSupported ↔ AddSafe mode a b := by
  have hspecial : ∀ x y : F80, ¬ x.IsFinite ∨ ¬ y.IsFinite → OrderedSafe mode x y := by
    rintro x y hxy ⟨hone, hzero, -⟩
    rcases hxy with hx | hy
    · exact hx (by rw [F80.IsFinite, hone]; decide)
    · exact hy (by rw [F80.IsFinite, hzero]; decide)
  have hothers : ∀ x y : F80, x.exp ≤ y.exp → OrderedSafe mode x y := by
    rintro x y hxy ⟨hone, hzero, -⟩
    omega
  by_cases hfin : a.IsFinite ∧ b.IsFinite
  · unfold f80Add AddSafe
    rw [addParts_of_finite ha hb hfin.1 hfin.2]
    by_cases hexp : a.exp < b.exp
    · rw [if_pos hexp, addOrdered_isSupported_iff mode hb ha hfin.2 hexp.le]
      exact (and_iff_right (hothers a b hexp.le)).symm
    rw [if_neg hexp, addOrdered_isSupported_iff mode ha hb hfin.1 (not_lt.mp hexp)]
    exact (and_iff_left (hothers b a (not_lt.mp hexp))).symm
  have hone : ¬ a.IsFinite ∨ ¬ b.IsFinite := not_and_or.mp hfin
  refine iff_of_true ?_ ⟨hspecial a b hone, hspecial b a hone.symm⟩
  unfold f80Add addParts
  cases hnan : handleNans a b with
  | some f => exact handleNans_isSupported ha hb hnan
  | none =>
    obtain ⟨hna, hnb⟩ := not_nan_of_handleNans hnan
    have hexp := a.exp_lt
    have hexp' := b.exp_lt
    have htop : ∀ x : F80, x.exp = 2 ^ 15 - 1 → ¬ x.IsNan → x.IsInf := by
      intro x hx hnan'
      exact ⟨hx, by_contra fun hmod => hnan' ⟨hx, hmod⟩⟩
    have hspec : a.exp = 2 ^ 15 - 1 ∨ b.exp = 2 ^ 15 - 1 := by
      unfold F80.IsFinite EXP_SPECIAL at hone
      omega
    by_cases hlt : a.exp < b.exp
    · rw [if_pos hlt]
      exact addOrdered_inf_isSupported mode hb (htop b (by omega) hnb)
    rw [if_neg hlt]
    exact addOrdered_inf_isSupported mode ha (htop a (by omega) hna)

end Add

/-! ## Multiplication, division and scaling -/

section Products

variable {mode : Mode} {a b : F80}

/-- When a product is supported. -/
def MulSafe (mode : Mode) (a b : F80) : Prop :=
  a.IsFinite → b.IsFinite →
    if a.signif = 0 ∨ b.signif = 0 then unbiasDenormal a.exp < 127 ∧ unbiasDenormal b.exp < 127
    else ¬ RoundsToNormal (mode.dir (a.sign ^^ b.sign)) |a.val * b.val|

theorem exp_of_signif_zero (ha : a.IsSupported) (hzero : a.signif = 0) :
    unbiasDenormal a.exp = -16382 := by
  rw [ha.exp_eq_zero (by omega)]
  rfl

theorem f80Mul_isSupported_iff (mode : Mode) (ha : a.IsSupported) (hb : b.IsSupported) :
    (f80Mul mode a b).IsSupported ↔ MulSafe mode a b := by
  unfold MulSafe
  by_cases hfin : a.IsFinite ∧ b.IsFinite
  · obtain ⟨hfa, hfb⟩ := hfin
    obtain ⟨hmina, hmaxa⟩ := exp_bounds hfa
    obtain ⟨hminb, hmaxb⟩ := exp_bounds hfb
    rw [f80Mul_of_finite ha hb hfa hfb, forall_prop_of_true hfa, forall_prop_of_true hfb]
    by_cases hzero : a.signif = 0 ∨ b.signif = 0
    · rw [if_pos hzero, Nat.mul_eq_zero.mpr hzero, normalizeRound_zero_isSupported_iff,
        wrap32_eq (by omega) (by omega)]
      rcases hzero with h | h
      · have := exp_of_signif_zero ha h
        omega
      have := exp_of_signif_zero hb h
      omega
    have hne : a.signif * b.signif ≠ 0 := fun h => hzero (Nat.mul_eq_zero.mp h)
    have hA := a.signif_lt
    have hB := b.signif_lt
    have hle : a.signif * b.signif ≤ (2 ^ 64 - 1) * (2 ^ 64 - 1) :=
      Nat.mul_le_mul (by omega) (by omega)
    rw [if_neg hzero, abs_mul, F80.abs_val, F80.abs_val, mag_mul]
    exact normalizeRound_isSupported_iff mode _ hne (by omega) (by omega) (by omega)
      fun _ => by omega
  · refine iff_of_true ?_ fun hfa hfb => absurd ⟨hfa, hfb⟩ hfin
    unfold f80Mul
    cases hnan : handleNans a b with
    | some f => exact handleNans_isSupported ha hb hnan
    | none =>
      obtain ⟨hna, hnb⟩ := not_nan_of_handleNans hnan
      have hinf : a.IsInf ∨ b.IsInf := by
        rcases finite_or_inf hna with hfa | h
        · rcases finite_or_inf hnb with hfb | h
          · exact absurd ⟨hfa, hfb⟩ hfin
          · exact .inr h
        · exact .inl h
      dsimp only
      rw [if_pos hinf]
      split
      · decide
      · exact f80Inf_isSupported _

/-- When a quotient is supported. -/
def DivSafe (mode : Mode) (a b : F80) : Prop :=
  a.IsFinite → b.IsFinite → ¬ b.IsZero →
    let B := b.signif / 2 ^ ctzl b.signif
    if a.signif = 0 then -65 < unbiasDenormal b.exp + ctzl b.signif
    else
      -- unless the low half of the quotient is lost
      RoundsToNormal (mode.dir (a.sign ^^ b.sign)) |a.val / b.val| →
        2 ^ 128 ≤ a.signif * 2 ^ 64 % B * 2 ^ (127 - Nat.log2 (a.signif * 2 ^ 64 / B))

section Quotient

variable {A B e : ℕ}

/-- A quotient that is cut is on the same side of the numbers next to the least normal one. -/
theorem cut_lt_iff {N : ℕ} (hB : B < 2 ^ 64) (hB0 : 0 < B) (hN : 2 ^ 64 ∣ N) :
    (2 ^ 128 - 2 ^ 65 < N / B ↔ (2 ^ 128 - 2 ^ 65) * B < N) ∧
      (2 ^ 128 - 2 ^ 64 ≤ N / B ↔ (2 ^ 128 - 2 ^ 64) * B ≤ N) ∧ N / B ≠ 2 ^ 128 - 2 ^ 64 - 1 := by
  obtain ⟨c, rfl⟩ := hN
  have hdiv := Nat.div_add_mod (2 ^ 64 * c) B
  have hmod := Nat.mod_lt (2 ^ 64 * c) hB0
  refine ⟨⟨fun h => ?_, fun h => ?_⟩, Nat.le_div_iff_mul_le hB0, fun h => ?_⟩
  · have := (Nat.le_div_iff_mul_le hB0).mp h
    omega
  · rw [← Nat.succ_le_iff, Nat.le_div_iff_mul_le hB0]
    by_contra hcon
    -- the difference is a multiple of `2 ^ 64` below `B`
    omega
  · rw [h] at hdiv
    omega

/-- A quotient whose low half is lost is not next to the least normal number. -/
theorem lost_le (hA : 0 < A) (hA' : A < 2 ^ 64) (hB : 0 < B) (hB' : B < 2 ^ 64)
    (he : e = u128Clz (A * 2 ^ 64 / B)) (hlost : 2 ^ 128 ≤ A * 2 ^ 64 % B * 2 ^ e) :
    (divSignif A B).1 ≤ 2 ^ 128 - 2 ^ 65 := by
  obtain ⟨hne, hlt⟩ := two_pow_le_quotient hA hA' hB hB'
  obtain ⟨-, hhigh⟩ := u128Clz_spec hne hlt
  have hsplit := Nat.div_add_mod (A * 2 ^ 64) B
  have hmod := Nat.mod_lt (A * 2 ^ 64) hB
  have he127 : e ≤ 127 := he ▸ u128Clz_le hne hlt
  rw [divSignif_eq hA hA' hB hB', ← he]
  rw [← he] at hhigh
  generalize A * 2 ^ 64 / B = q at *
  generalize A * 2 ^ 64 % B = R at *
  -- the remainder has fewer than 64 bits
  have he65 : 65 ≤ e := by
    by_contra hcon
    have : R * 2 ^ e < 2 ^ 64 * 2 ^ 64 :=
      Nat.mul_lt_mul_of_lt_of_le (by omega) (Nat.pow_le_pow_right two_pos (by omega))
        (by positivity)
    omega
  obtain ⟨M, hM, hpow, hpos⟩ : ∃ M, M = 2 ^ (128 - e) ∧ 2 ^ 128 = M * 2 ^ e ∧ 0 < M :=
    ⟨2 ^ (128 - e), rfl, by rw [← pow_add]; congr 1; omega, Nat.two_pow_pos _⟩
  have hlow : R * 2 ^ e % 2 ^ 128 = R % M * 2 ^ e := by
    rw [hpow, Nat.mul_mod_mul_right]
  have hR : M ≤ R := by
    rw [hpow] at hlost
    exact Nat.le_of_mul_le_mul_right hlost (Nat.two_pow_pos e)
  have hq : q + 1 ≤ M := by
    rw [hpow] at hhigh
    exact Nat.lt_of_mul_lt_mul_right hhigh
  have he2 : 2 ^ 65 ≤ 2 ^ e := Nat.pow_le_pow_right two_pos he65
  have hfrac : R % M * 2 ^ e / B < 2 ^ e := by
    rw [Nat.div_lt_iff_lt_mul hB, mul_comm (2 ^ e)]
    exact Nat.mul_lt_mul_of_pos_right (lt_of_le_of_lt (Nat.mod_le _ _) hmod) (Nat.two_pow_pos e)
  rw [hlow]
  by_cases htop : q + 1 = M
  · -- then the remainder is the divisor less a multiple of `M`
    obtain ⟨c, hc⟩ : M ∣ A * 2 ^ 64 := by
      refine Dvd.dvd.mul_left ?_ A
      rw [hM]
      exact pow_dvd_pow 2 (by omega)
    have hBM : M + R ≤ B := by
      have hsum : M * B = M * c + (B - R) := by
        have : B * q + R = M * c := by rw [hsplit, hc]
        have hMB : M * B = B * q + B := by rw [← htop]; ring
        omega
      have hdvd : M ∣ B - R := (Nat.dvd_add_right (Nat.dvd_mul_right M c)).mp
        (hsum ▸ Nat.dvd_mul_right M B)
      have := Nat.le_of_dvd (by omega) hdvd
      omega
    have hrest : R % M < M := Nat.mod_lt R hpos
    have he66 : 66 ≤ e := by
      by_contra hcon
      have heq : e = 65 := by omega
      rw [hM, heq] at hBM hR
      omega
    have hdouble : 2 ^ e = 2 ^ (e - 1) * 2 := by
      rw [← pow_succ]
      congr 1
      omega
    have hhalf : R % M * 2 ^ e / B ≤ 2 ^ (e - 1) := by
      apply Nat.div_le_of_le_mul
      calc R % M * 2 ^ e = 2 * (R % M) * 2 ^ (e - 1) := by rw [hdouble]; ring
        _ ≤ B * 2 ^ (e - 1) := Nat.mul_le_mul_right _ (by omega)
    have hmul : q * 2 ^ e + 2 ^ e = 2 ^ 128 := by
      rw [hpow, ← htop]
      ring
    have he1 : 2 ^ 65 ≤ 2 ^ (e - 1) := Nat.pow_le_pow_right two_pos (by omega)
    omega
  · have hmul : q * 2 ^ e + 2 * 2 ^ e ≤ 2 ^ 128 := by
      rw [hpow, ← add_mul]
      exact Nat.mul_le_mul_right _ (by omega)
    omega

/-- The cut quotient is rounded to the least normal number if the quotient is. -/
theorem divRound_cut_top_iff (d : Dir) {N : ℕ} (hB : B < 2 ^ 64) (hB0 : 0 < B) (hN : 2 ^ 64 ∣ N)
    (hhigh : N < 2 ^ 128 * B) :
    d.divRound (N / B) (2 ^ 65) = 2 ^ 63 ↔ d.divRound N (B * 2 ^ 65) = 2 ^ 63 := by
  obtain ⟨haway, hnearest, -⟩ := cut_lt_iff hB hB0 hN
  have hlt : N / B < 2 ^ 128 := (Nat.div_lt_iff_lt_mul hB0).mpr hhigh
  have hpos : 0 < B * 2 ^ 65 := Nat.mul_pos hB0 (Nat.two_pow_pos 65)
  rw [divRound_eq_top_iff d (by decide) (by decide) (show N / B < 2 ^ 63 * 2 ^ 65 from hlt),
    divRound_eq_top_iff d hpos (by decide) (by omega)]
  refine or_congr (and_congr_right fun _ => ?_) (and_congr_right fun _ => ?_) <;> omega

end Quotient

/-- A quotient with 128 bits in the exponent just below the normal numbers. -/
theorem roundsToNormal_full_iff (d : Dir) {N B : ℕ} {exp : ℤ} (hB : 0 < B) (hlow : 2 ^ 127 * B ≤ N)
    (hhigh : N < 2 ^ 128 * B) :
    RoundsToNormal d ((N : ℚ) / B * 2 ^ (exp - 127)) ↔
      exp = -16383 ∧ d.divRound N (B * 2 ^ 65) = 2 ^ 63 := by
  rcases lt_trichotomy exp (-16383) with hless | heq | hmore
  · exact iff_of_false (not_roundsToNormal_of_low d hB hhigh hless) (by omega)
  · rw [roundsToNormal_units_iff (k := 0) (j := 1) d hB (by omega), pow_zero, mul_one,
      and_iff_right heq]
    exact and_iff_right (by omega)
  obtain ⟨k, hexp⟩ : ∃ k : ℕ, exp = k - (0 : ℕ) - 16382 := ⟨(exp + 16382).toNat, by omega⟩
  have hge : N ≤ N * 2 ^ k := Nat.le_mul_of_pos_right N (Nat.two_pow_pos k)
  rw [roundsToNormal_units_iff d hB hexp]
  exact iff_of_false (by omega) (by omega)

theorem div_isSupported_iff (mode : Mode) (ha : a.IsSupported) (hb : b.IsSupported)
    (hfa : a.IsFinite) (hfb : b.IsFinite) (hza : a.signif ≠ 0) (hzb : ¬ b.IsZero) :
    (f80Div mode a b).IsSupported ↔
      (RoundsToNormal (mode.dir (a.sign ^^ b.sign)) |a.val / b.val| →
        2 ^ 128 ≤ a.signif * 2 ^ 64 % (b.signif / 2 ^ ctzl b.signif) *
          2 ^ (127 - Nat.log2 (a.signif * 2 ^ 64 / (b.signif / 2 ^ ctzl b.signif)))) := by
  obtain ⟨hmina, hmaxa⟩ := exp_bounds hfa
  obtain ⟨hminb, hmaxb⟩ := exp_bounds hfb
  have hct : ctzl b.signif ≤ 64 := ctz_le 64 b.signif
  have hA0 : 0 < a.signif := Nat.pos_of_ne_zero hza
  have hA := a.signif_lt
  have hb0 : 0 < b.signif := F80.signif_pos hb hzb
  have hB0 : 0 < b.signif / 2 ^ ctzl b.signif :=
    Nat.div_pos (Nat.le_of_dvd hb0 (two_pow_ctz_dvd 64 _)) (Nat.two_pow_pos _)
  have hB : b.signif / 2 ^ ctzl b.signif < 2 ^ 64 :=
    lt_of_le_of_lt (Nat.div_le_self _ _) b.signif_lt
  obtain ⟨hne, hlt⟩ := two_pow_le_quotient hA0 hA hB0 hB
  have hclz := u128Clz_eq hne hlt
  have hquot : ∀ e : ℕ, a.mag / b.mag = _ := mag_div a b hb0
  rw [f80Div_of_finite ha hb hfa hfb hzb, abs_div, F80.abs_val, F80.abs_val, ← hclz]
  generalize b.signif / 2 ^ ctzl b.signif = B at *
  obtain ⟨hlow, hhigh⟩ := quotient_bounds hA0 hA hB0 hB
  obtain ⟨hfull, hfull'⟩ := divSignif_bounds hA0 hA hB0 hB
  have hextra : (divSignif a.signif B).2 = u128Clz (a.signif * 2 ^ 64 / B) := by
    rw [divSignif_eq hA0 hA hB0 hB]
  rw [hquot (u128Clz (a.signif * 2 ^ 64 / B)), hextra]
  have he := u128Clz_le hne hlt
  have hvalue := lost_le hA0 hA hB0 hB rfl
  have hfits : a.signif * 2 ^ 64 % B * 2 ^ u128Clz (a.signif * 2 ^ 64 / B) < 2 ^ 128 →
      (divSignif a.signif B).1 =
        a.signif * 2 ^ 64 * 2 ^ u128Clz (a.signif * 2 ^ 64 / B) / B := by
    intro h
    rw [divSignif_eq hA0 hA hB0 hB, mul_div_split hB0, Nat.mod_eq_of_lt h]
  generalize u128Clz (a.signif * 2 ^ 64 / B) = e at *
  generalize hexp : unbiasDenormal a.exp - unbiasDenormal b.exp + 63 - (ctzl b.signif : ℤ) - e = exp
  generalize (divSignif a.signif B).1 = S at *
  have hdvd : 2 ^ 64 ∣ a.signif * 2 ^ 64 * 2 ^ e := Dvd.dvd.mul_right (Nat.dvd_mul_left _ _) _
  generalize a.signif * 2 ^ 64 * 2 ^ e = N at *
  -- both quotients as significands with 128 bits
  have hexact : (N : ℚ) / (B * 2 ^ 64 : ℕ) * 2 ^ (exp - 63) = N / B * 2 ^ (exp - 127) := by
    have hsplit : exp - 63 = (64 : ℕ) + (exp - 127) := by
      ring
    rw [hsplit, zpow_add₀ two_ne_zero, zpow_natCast]
    push_cast
    field_simp
    norm_num
  have hiff : (exp = -16383 → S ≠ 2 ^ 128 - 2 ^ 64 - 1) →
      ((u128NormalizeRound mode S exp (a.sign ^^ b.sign)).IsSupported ↔ _) :=
    normalizeRound_isSupported_iff mode (a.sign ^^ b.sign) (by omega) hfull' (by omega) (by omega)
  by_cases hlost : a.signif * 2 ^ 64 % B * 2 ^ e < 2 ^ 128
  · have hS := hfits hlost
    obtain ⟨-, -, htwice⟩ := cut_lt_iff hB hB0 hdvd
    rw [hiff fun _ => by rw [hS]; exact htwice, natCast_mul_eq, hexact,
      roundsToNormal_full_iff _ one_pos (by omega) (by omega),
      roundsToNormal_full_iff _ hB0 (by omega) (by omega), one_mul, hS,
      divRound_cut_top_iff _ hB hB0 hdvd (by omega)]
    exact ⟨fun h h' => absurd h' h, fun h h' => absurd (h h') (not_le.mpr hlost)⟩
  have hS := hvalue (not_lt.mp hlost)
  refine iff_of_true ((hiff fun _ => by omega).mpr ?_) fun _ => not_lt.mp hlost
  rw [natCast_mul_eq, roundsToNormal_full_iff _ one_pos (by omega) (by omega), one_mul]
  rintro ⟨-, htop⟩
  have hle : (mode.dir (a.sign ^^ b.sign)).divRound S (2 ^ 65) ≤ 2 ^ 63 - 1 :=
    divRound_le (by decide) (by omega)
  omega

theorem f80Div_isSupported_iff (mode : Mode) (ha : a.IsSupported) (hb : b.IsSupported) :
    (f80Div mode a b).IsSupported ↔ DivSafe mode a b := by
  unfold DivSafe
  by_cases hfin : a.IsFinite ∧ b.IsFinite ∧ ¬ b.IsZero
  · obtain ⟨hfa, hfb, hzb⟩ := hfin
    rw [forall_prop_of_true hfa, forall_prop_of_true hfb, forall_prop_of_true hzb]
    by_cases hza : a.signif = 0
    · obtain ⟨hminb, hmaxb⟩ := exp_bounds hfb
      have hct : ctzl b.signif ≤ 64 := ctz_le 64 b.signif
      have hsig : divSignif a.signif (b.signif / 2 ^ ctzl b.signif) = (0, 0) := by
        unfold divSignif
        rw [hza, zero_mul, Nat.zero_div]
        rfl
      rw [if_pos hza, f80Div_of_finite ha hb hfa hfb hzb, hsig, exp_of_signif_zero ha hza,
        normalizeRound_zero_isSupported_iff, Nat.cast_zero, wrap32_eq (by omega) (by omega)]
      omega
    · rw [if_neg hza]
      exact div_isSupported_iff mode ha hb hfa hfb hza hzb
  · refine iff_of_true ?_ fun hfa hfb hzb => absurd ⟨hfa, hfb, hzb⟩ hfin
    unfold f80Div
    cases hnan : handleNans a b with
    | some f => exact handleNans_isSupported ha hb hnan
    | none =>
      obtain ⟨hna, hnb⟩ := not_nan_of_handleNans hnan
      dsimp only
      by_cases hia : a.IsInf
      · rw [if_pos hia]
        split
        · decide
        · exact f80Inf_isSupported _
      rw [if_neg hia]
      by_cases hib : b.IsInf
      · rw [if_pos hib]
        exact zero_isSupported ⟨rfl, rfl⟩
      have hzb : b.IsZero := by
        by_contra hzb
        exact hfin ⟨(finite_or_inf hna).resolve_right hia,
          (finite_or_inf hnb).resolve_right hib, hzb⟩
      rw [if_neg hib, if_pos hzb]
      split
      · exact (by decide : F80_NAN.IsSupported)
      · exact f80Inf_isSupported _

/-- When a scaled number is supported. -/
def ScaleSafe (mode : Mode) (x : F80) (scale : ℤ) : Prop :=
  x.IsNan ∨
    if x.signif = 0 then ¬ (129 ≤ scale ∧ scale ≤ 32894)
    else ¬ (x.signif = 2 ^ 64 - 1 ∧ unbias x.exp + scale = -16383 ∧ mode.dir x.sign ≠ .zero)

theorem roundsToNormal_scaled_iff (d : Dir) {signif : ℕ} (hlt : signif < 2 ^ 64) (exp : ℤ) :
    RoundsToNormal d ((signif * 2 ^ 64 : ℕ) * 2 ^ (exp - 127)) ↔
      signif = 2 ^ 64 - 1 ∧ exp = -16383 ∧ d ≠ .zero := by
  rw [natCast_mul_eq]
  rcases lt_trichotomy exp (-16383) with hless | heq | hmore
  · exact iff_of_false (not_roundsToNormal_of_low d one_pos (by omega) hless) fun h => by omega
  · have hcancel : d.divRound (signif * 2 ^ 64) (2 * 2 ^ 64) = d.divRound signif 2 :=
      divRound_mul_right d signif 2 (Nat.two_pow_pos 64)
    have htwo : 2 ^ (64 + 1) = 2 * 2 ^ 64 := by decide
    rw [roundsToNormal_units_iff (k := 0) (j := 1) d one_pos (by omega), pow_zero, mul_one, one_mul,
      htwo, hcancel, divRound_two_eq_iff d hlt]
    constructor
    · exact fun h => ⟨h.2.1, heq, h.2.2⟩
    · exact fun h => ⟨by omega, h.1, h.2.2⟩
  obtain ⟨k, hexp⟩ : ∃ k : ℕ, exp = k - (0 : ℕ) - 16382 := ⟨(exp + 16382).toNat, by omega⟩
  have hcomm : signif * 2 ^ 64 * 2 ^ k = signif * 2 ^ k * 2 ^ (64 + 0) := by ring
  rw [roundsToNormal_units_iff d one_pos hexp, one_mul, hcomm,
    divRound_mul_self (Nat.two_pow_pos _)]
  exact iff_of_false (by omega) fun h => by omega

theorem f80Scale_isSupported_iff (mode : Mode) {x : F80} (hx : x.IsSupported) {scale : ℤ}
    (hmin : -2 ^ 31 ≤ scale) (hmax : scale < 2 ^ 31) :
    (f80Scale mode x scale).IsSupported ↔ ScaleSafe mode x scale := by
  unfold f80Scale ScaleSafe
  by_cases hnan : x.IsNan
  · rw [if_pos (.inr hnan)]
    exact iff_of_true (by decide) (.inl hnan)
  have hexp := x.exp_lt
  have hsignif := x.signif_lt
  have hunbias : unbias x.exp = (x.exp : ℤ) - 16383 := rfl
  have hrange :
      -2 ^ 31 ≤ wrap32 (unbias x.exp + scale) ∧ wrap32 (unbias x.exp + scale) < 2 ^ 31 := by
    unfold wrap32
    rw [Int.bmod_def]
    split <;> omega
  rw [if_neg (by simp [hx, hnan]), or_iff_right hnan]
  by_cases hzero : x.signif = 0
  · have hfield : x.exp = 0 := hx.exp_eq_zero (by omega)
    rw [if_pos hzero, hzero, zero_mul, normalizeRound_zero_isSupported_iff, hunbias, hfield]
    refine not_congr ?_
    unfold wrap32
    rw [Int.bmod_def, Int.bmod_def]
    split <;> split <;> omega
  have hwrap : wrap32 (unbias x.exp + scale) = -16383 ↔ unbias x.exp + scale = -16383 := by
    unfold wrap32
    rw [Int.bmod_def]
    split <;> omega
  rw [if_neg hzero, normalizeRound_isSupported_iff mode x.sign (by omega) (by omega) hrange.1
    hrange.2 fun _ => by omega, roundsToNormal_scaled_iff _ hsignif, hwrap]

end Products

/-! ## All of them -/

/-- What the operations return is supported, and the assertion of `f80_add` holds in the two
operations that reach it. -/
def ResultsSupported (mode : Mode) (a b : F80) (scale : ℤ) : Prop :=
  ((f80Add mode a b).IsSupported ∧ AddAsserts mode a b) ∧
    ((f80Sub mode a b).IsSupported ∧ AddAsserts mode a (f80Neg b)) ∧
    (f80Mul mode a b).IsSupported ∧ (f80Div mode a b).IsSupported ∧
    (f80Scale mode a scale).IsSupported

/-- **The operations return supported numbers** exactly when none of them meets a magnitude that is
rounded up to the normal numbers, or a 0 that is normalized. -/
theorem results_supported_iff (mode : Mode) (a b : F80) (scale : ℤ) (ha : a.IsSupported)
    (hb : b.IsSupported) (hmin : -2 ^ 31 ≤ scale) (hmax : scale < 2 ^ 31) :
    ResultsSupported mode a b scale ↔
      AddSafe mode a b ∧ AddSafe mode a (f80Neg b) ∧ MulSafe mode a b ∧ DivSafe mode a b ∧
        ScaleSafe mode a scale := by
  have hb' : (f80Neg b).IsSupported := f80Neg_isSupported.mpr hb
  have hsub : f80Sub mode a b = f80Add mode a (f80Neg b) := rfl
  unfold ResultsSupported
  rw [addAsserts_iff ha hb, and_self, hsub, addAsserts_iff ha hb', and_self,
    f80Add_isSupported_iff mode ha hb, f80Add_isSupported_iff mode ha hb',
    f80Mul_isSupported_iff mode ha hb, f80Div_isSupported_iff mode ha hb,
    f80Scale_isSupported_iff mode ha hmin hmax]

/-- One and three, rounded up. -/
theorem results_supported_iff_three :
    one.IsSupported ∧ three.IsSupported ∧ ResultsSupported .up one three 5 := by
  have hone : one.IsSupported := by decide
  have hthree : three.IsSupported := by decide
  have hmin : minNormal ≤ 1 / 4 := by
    have hpow : (1 / 4 : ℚ) = 2 ^ (-2 : ℤ) := by norm_num
    rw [hpow]
    exact zpow_le_zpow_right₀ one_le_two (by decide)
  refine ⟨hone, hthree, (results_supported_iff .up one three 5 hone hthree (by decide)
    (by decide)).mpr ⟨⟨?_, ?_⟩, ⟨?_, ?_⟩, ?_, ?_, ?_⟩⟩
  · exact fun h => absurd h.1 (by decide)
  · exact fun h => absurd h.1 (by decide)
  · exact fun h => absurd h.1 (by decide)
  · exact fun h => absurd h.1 (by decide)
  · intro _ _
    rw [if_neg (by decide), one_val, three_val, one_mul, abs_of_pos (by norm_num)]
    intro h
    linarith [h.1]
  · intro _ _ _
    rw [if_neg (by decide), one_val, three_val, abs_of_pos (by norm_num)]
    intro h
    linarith [h.1]
  right
  rw [if_neg (by decide)]
  exact fun h => absurd h.1 (by decide)

/-- The least normal number less the least denormal one fails the assertion, and 0 times `2 ^ 200`
is unsupported. -/
theorem results_unsupported :
    ¬ AddAsserts .nearest (pack (2 ^ 63) 1 false) (pack 1 0 true) ∧
      ¬ (f80Mul .nearest (pack 0 0 false) (pack (2 ^ 63) (0x3fff + 200) false)).IsSupported := by
  constructor
  · rw [addAsserts_iff (by decide) (by decide),
      f80Add_isSupported_iff .nearest (by decide) (by decide)]
    exact fun h => h.1 ⟨by decide, by decide, by decide, by decide, by decide⟩
  rw [f80Mul_isSupported_iff .nearest (by decide) (by decide)]
  intro h
  have hzero := h (by decide) (by decide)
  rw [if_pos (by decide)] at hzero
  exact absurd hzero.2 (by decide)

end Ish.Float80
