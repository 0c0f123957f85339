import Ish.Float80.Correct

set_option autoImplicit false

/-! # Doubles from numbers

`f80_to_double` rounds the significand to 53 digits, and shifts it before if the result is a
denormal double. It is right in the range of the normal doubles, also when the rounding carries to
infinity. It is not right:

* on overflow, when the largest double is the right result: it always gives infinity;
* for a NaN whose significand is rounded to that of infinity, or carries; then the exponent field
  wraps and the result is a zero;
* for a denormal double, since the bit shifted out first is lost, the two shifts after it round
  twice, and a significand that is rounded up to that of a normal double loses the carry.
-/

namespace Ish.Float80

open Ish.Lib.Dir Ish.Lib

/-- `struct double_bits`. -/
structure F64 where
  signif : ℕ
  exp : ℕ
  sign : Bool
  signif_lt : signif < 2 ^ 52
  exp_lt : exp < 2 ^ 11
deriving DecidableEq

theorem mod_two_pow_52_lt (signif : ℕ) : signif % 2 ^ 52 < 2 ^ 52 := Nat.mod_lt _ (by decide)

theorem toNat_emod_two_pow_11_lt (exp : ℤ) : (exp % 2 ^ 11).toNat < 2 ^ 11 := by omega

def packDouble (signif : ℕ) (exp : ℤ) (sign : Bool) : F64 :=
  ⟨signif % 2 ^ 52, (exp % 2 ^ 11).toNat, sign, mod_two_pow_52_lt signif,
    toNat_emod_two_pow_11_lt exp⟩

def EXP64_MAX : ℕ := 0x7fe
def EXP64_SPECIAL : ℕ := 0x7ff

/-- `INFINITY` and `-INFINITY`. -/
def doubleInf (sign : Bool) : F64 := packDouble 0 EXP64_SPECIAL sign

/-- `NAN`. -/
def doubleNan : F64 := packDouble (2 ^ 51) EXP64_SPECIAL false

/-- The end of `f80_to_double`. -/
def roundDouble (mode : Mode) (signif : ℕ) (newExp : ℤ) (sign : Bool) : F64 :=
  let dbSignif := u128ShiftRightRound mode signif 11 sign
  if dbSignif / 2 ^ 53 % 2 ≠ 0 then packDouble (dbSignif / 2) (newExp + 1) sign
  else packDouble dbSignif newExp sign

def f80ToDouble (mode : Mode) (f : F80) : F64 :=
  if ¬ f.IsSupported then doubleNan
  else
    let newExp := unbias f.exp + 0x3ff
    if f.exp = EXP_SPECIAL then roundDouble mode f.signif EXP64_SPECIAL f.sign
    else if EXP64_MAX < newExp then doubleInf f.sign
    else if newExp ≤ 0 then
      let f := f80ShiftRight mode (pack (f.signif / 2) f.exp f.sign) (-newExp).toNat
      roundDouble mode f.signif (unbias f.exp + 0x3ff) f.sign
    else roundDouble mode f.signif newExp f.sign

/-! ## The right double -/

/-- The format of finite doubles. -/
def double : Format := ⟨53, -1074, 1024⟩

namespace F64

def IsNan (d : F64) : Prop := d.exp = EXP64_SPECIAL ∧ d.signif ≠ 0

def IsFinite (d : F64) : Prop := d.exp ≠ EXP64_SPECIAL

instance (d : F64) : Decidable d.IsNan := inferInstanceAs (Decidable (_ ∧ _))

/-- The magnitude of a finite double. -/
def mag (d : F64) : ℚ :=
  if d.exp = 0 then d.signif * 2 ^ double.qmin else (2 ^ 52 + d.signif) * 2 ^ ((d.exp : ℤ) - 1075)

end F64

/-- The largest finite double. -/
def doubleMax (sign : Bool) : F64 := packDouble (2 ^ 52 - 1) EXP64_MAX sign

/-- **The right double** for a number. -/
def DoubleRight (mode : Mode) (f : F80) (d : F64) : Prop :=
  if f.IsNan then d.IsNan
  else if f.IsInf then d = doubleInf f.sign
  else
    d.sign = f.sign ∧
      let y := double.round (mode.dir f.sign) f.mag
      if y < 2 ^ double.emax then d.IsFinite ∧ d.mag = y
      else d = if mode.dir f.sign = .zero then doubleMax f.sign else doubleInf f.sign

/-- A NaN that stays one: the part of its significand that is not the top bit. -/
def NanKept (d : Dir) (p : ℕ) : Prop :=
  match d with
  | .zero => 2 ^ 11 ≤ p
  | .away => p ≤ 2 ^ 63 - 2 ^ 11
  | .nearest => 2 ^ 10 < p ∧ p < 2 ^ 63 - 2 ^ 10

/-- A denormal double that is right. The number is `q` and `r` in `2 ^ (12 + n)` parts, in units of
the least denormal double. -/
def DenormalKept (d : Dir) (n q r : ℕ) : Prop :=
  match d with
  | .zero => True
  | .away => r ≠ 1 ∧ ¬ (q = 2 ^ 52 - 1 ∧ r ≠ 0)
  | .nearest =>
    -- near the middle, on the side where an even neighbour is wrong; or a carry
    ¬ ((2 ^ (11 + n) ≤ r / 2 * 2 + 2 ^ n ∧ r / 2 * 2 ≤ 2 ^ (11 + n) + 2 ^ n) ∧
        (r < 2 ^ (11 + n) ∧ q % 2 = 1 ∨ 2 ^ (11 + n) < r ∧ q % 2 = 0)) ∧
      ¬ (q = 2 ^ 52 - 1 ∧ 2 ^ (11 + n) ≤ r)

/-- When the double is right. -/
def ToDoubleRight (mode : Mode) (f : F80) : Prop :=
  if f.IsNan then NanKept (mode.dir f.sign) (f.signif - 2 ^ 63)
  else if f.IsInf then True
  else if 0x43fe < f.exp then mode.dir f.sign ≠ .zero
  else if 0x3c00 < f.exp then True
  else
    let n := 0x3c00 - f.exp
    DenormalKept (mode.dir f.sign) n (f.signif / 2 ^ (12 + n)) (f.signif % 2 ^ (12 + n))

section ToDouble

variable {mode : Mode} {f : F80}

theorem roundDouble_eq {signif : ℕ} {newExp : ℤ} {sign : Bool} (h : signif ≤ 2 ^ 64) :
    roundDouble mode signif newExp sign =
      if (mode.dir sign).divRound signif (2 ^ 11) = 2 ^ 53 then packDouble 0 (newExp + 1) sign
      else packDouble ((mode.dir sign).divRound signif (2 ^ 11)) newExp sign := by
  have hle : (mode.dir sign).divRound signif (2 ^ 11) ≤ 2 ^ 53 := divRound_le (by decide) h
  unfold roundDouble
  rw [u128ShiftRightRound_of_le (by decide)]
  generalize (mode.dir sign).divRound signif (2 ^ 11) = v at hle
  by_cases hv : v = 2 ^ 53
  · rw [if_pos hv, hv]
    rfl
  · rw [if_neg hv, if_neg (by omega)]

/-! ### Special numbers -/

/-- The significand of a NaN or infinity, rounded. -/
theorem special_signif (hf : f.IsSupported) (hexp : f.exp = EXP_SPECIAL) :
    2 ^ 63 ≤ f.signif ∧ f.signif < 2 ^ 64 :=
  ⟨hf.le_signif (by rw [hexp]; decide), f.signif_lt⟩

theorem f80ToDouble_special (hf : f.IsSupported) (hexp : f.exp = EXP_SPECIAL) :
    f80ToDouble mode f = if (mode.dir f.sign).divRound f.signif (2 ^ 11) = 2 ^ 53 then
      packDouble 0 0x800 f.sign
      else packDouble ((mode.dir f.sign).divRound f.signif (2 ^ 11)) 0x7ff f.sign := by
  unfold f80ToDouble
  rw [if_neg (not_not_intro hf)]
  rw [if_pos hexp, roundDouble_eq f.signif_lt.le]
  rfl

/-- A NaN is kept when its significand is rounded to neither end. -/
theorem nanKept_iff {d : Dir} {p : ℕ} (hpos : 0 < p) (hlt : p < 2 ^ 63) :
    NanKept d p ↔ 2 ^ 52 < d.divRound (2 ^ 63 + p) (2 ^ 11) ∧
      d.divRound (2 ^ 63 + p) (2 ^ 11) < 2 ^ 53 := by
  have hsplit : 2 ^ 63 + p = (2 ^ 52 + p / 2 ^ 11) * 2 ^ 11 + p % 2 ^ 11 := by omega
  rw [hsplit, divRound_mul_add d _ (Nat.mod_lt p (by decide))]
  unfold NanKept
  cases d with
  | zero =>
    rw [if_neg (show ¬ Dir.zero.RoundsUp _ _ _ from not_false)]
    omega
  | away =>
    simp only [roundsUp_away]
    split <;> omega
  | nearest =>
    simp only [roundsUp_nearest]
    split <;> omega

theorem f80ToDouble_nan_iff (hf : f.IsSupported) (hnan : f.IsNan) :
    (f80ToDouble mode f).IsNan ↔ NanKept (mode.dir f.sign) (f.signif - 2 ^ 63) := by
  obtain ⟨hlow, hhigh⟩ := special_signif hf hnan.1
  have hpos : 0 < f.signif - 2 ^ 63 := by
    have := hnan.2
    omega
  have hsum : 2 ^ 63 + (f.signif - 2 ^ 63) = f.signif := by omega
  have hv_low : 2 ^ 52 ≤ (mode.dir f.sign).divRound f.signif (2 ^ 11) :=
    le_divRound (by decide) hlow
  have hv_high : (mode.dir f.sign).divRound f.signif (2 ^ 11) ≤ 2 ^ 53 :=
    divRound_le (by decide) hhigh.le
  rw [nanKept_iff hpos (by omega), hsum, f80ToDouble_special hf hnan.1]
  generalize (mode.dir f.sign).divRound f.signif (2 ^ 11) = v at hv_low hv_high
  by_cases hv : v = 2 ^ 53
  · rw [if_pos hv]
    exact iff_of_false (fun h => h.2 rfl) (by omega)
  rw [if_neg hv]
  have hsignif : (packDouble v 0x7ff f.sign).signif = v % 2 ^ 52 := rfl
  constructor
  · rintro ⟨-, hne⟩
    rw [hsignif] at hne
    omega
  intro h
  refine ⟨rfl, ?_⟩
  rw [hsignif]
  omega

theorem f80ToDouble_inf (hf : f.IsSupported) (hinf : f.IsInf) :
    f80ToDouble mode f = doubleInf f.sign := by
  obtain ⟨hlow, hhigh⟩ := special_signif hf hinf.1
  have hsignif : f.signif = 2 ^ 52 * 2 ^ 11 := by
    have := hinf.2
    omega
  rw [f80ToDouble_special hf hinf.1, hsignif, divRound_mul_self (by decide), if_neg (by decide)]
  rfl

/-! ### Normal doubles and overflow -/

/-- The magnitude in units of the last of 53 digits. -/
theorem mag_eq_units_53 {q : ℤ} (h : unbiasDenormal f.exp - 63 = q - 11) :
    f.mag = (f.signif : ℚ) / (2 ^ 11 : ℕ) * 2 ^ q := by
  have hpow : (2 : ℚ) ^ (q - (11 : ℕ)) = 2 ^ q / 2 ^ 11 := by
    rw [zpow_sub₀ two_ne_zero, zpow_natCast]
  rw [F80.mag, h, show q - 11 = q - (11 : ℕ) from rfl, hpow]
  ring

theorem normal_signif (hf : f.IsSupported) (hexp : 0x3c00 < f.exp) : 2 ^ 63 ≤ f.signif :=
  hf.le_signif (by omega)

theorem round_of_normal (d : Dir) (hf : f.IsSupported) (hexp : 0x3c00 < f.exp) :
    double.round d f.mag = d.divRound f.signif (2 ^ 11) * 2 ^ ((f.exp : ℤ) - 16435) := by
  have hlow := normal_signif hf hexp
  have hub := F80.unbiasDenormal_eq f.exp
  have hmag : f.mag = (f.signif : ℚ) / (2 ^ 11 : ℕ) * 2 ^ ((f.exp : ℤ) - 16435) :=
    mag_eq_units_53 (by omega)
  apply Format.round_eq (by decide) hmag
  apply Format.quantum_eq (show 0 < 53 by decide) (by decide) (by omega) hmag
  · exact .inr ⟨show (-1074 : ℤ) ≤ _ by omega, hlow⟩
  · exact f.signif_lt

/-- The value of a significand that may carry. -/
theorem two_pow_53_mul_zpow (q : ℤ) : (2 : ℚ) ^ 53 * 2 ^ q = 2 ^ (q + 53) :=
  (two_zpow_eq_mul 53 (add_comm q 53)).symm

theorem doubleRight_of_finite {d : F64} (hfin : f.IsFinite) (hsign : d.sign = f.sign) :
    DoubleRight mode f d ↔
      if double.round (mode.dir f.sign) f.mag < 2 ^ double.emax then
        d.IsFinite ∧ d.mag = double.round (mode.dir f.sign) f.mag
      else d = if mode.dir f.sign = .zero then doubleMax f.sign else doubleInf f.sign := by
  unfold DoubleRight
  rw [if_neg fun h => hfin h.1, if_neg fun h => hfin h.1]
  exact and_iff_right hsign

theorem doubleInf_ne_doubleMax (sign : Bool) : doubleInf sign ≠ doubleMax sign := by
  cases sign <;> decide

/-- Overflow gives infinity. -/
theorem f80ToDouble_overflow_iff (hf : f.IsSupported) (hfin : f.IsFinite) (hexp : 0x43fe < f.exp) :
    DoubleRight mode f (f80ToDouble mode f) ↔ mode.dir f.sign ≠ .zero := by
  have hcode : f80ToDouble mode f = doubleInf f.sign := by
    have hbig : (EXP64_MAX : ℤ) < unbias f.exp + 0x3ff := by
      unfold EXP64_MAX unbias BIAS80
      omega
    unfold f80ToDouble
    rw [if_neg (not_not_intro hf)]
    rw [if_neg hfin, if_pos hbig]
  have hround : ¬ double.round (mode.dir f.sign) f.mag < 2 ^ double.emax := by
    have hv_low : 2 ^ 52 ≤ (mode.dir f.sign).divRound f.signif (2 ^ 11) :=
      le_divRound (by decide) (normal_signif hf (by omega))
    have hv : ((2 ^ 52 : ℕ) : ℚ) ≤ ((mode.dir f.sign).divRound f.signif (2 ^ 11) : ℚ) :=
      Nat.cast_le.mpr hv_low
    have hemax : double.emax = 1024 := rfl
    rw [round_of_normal _ hf (by omega), not_lt]
    calc (2 : ℚ) ^ double.emax ≤ 2 ^ ((52 : ℕ) + ((f.exp : ℤ) - 16435)) :=
          zpow_le_zpow_right₀ one_le_two (by omega)
      _ = ((2 ^ 52 : ℕ) : ℚ) * 2 ^ ((f.exp : ℤ) - 16435) := by
          rw [two_zpow_eq_mul 52 rfl, Nat.cast_pow, Nat.cast_ofNat]
      _ ≤ _ := mul_le_mul_of_nonneg_right hv (zpow_pos two_pos _).le
  rw [hcode, doubleRight_of_finite hfin rfl, if_neg hround]
  by_cases hzero : mode.dir f.sign = .zero
  · rw [if_pos hzero]
    exact iff_of_false (doubleInf_ne_doubleMax _) (not_not_intro hzero)
  rw [if_neg hzero]
  exact iff_of_true rfl hzero

/-- A significand of 53 digits, or one too big, in the range of the normal doubles. -/
theorem packDouble_mag {v e : ℕ} (sign : Bool) (hlow : 2 ^ 52 ≤ v) (hhigh : v < 2 ^ 53)
    (hpos : e ≠ 0) (he : e < 0x7ff) :
    (packDouble v e sign).IsFinite ∧
      (packDouble v e sign).mag = v * 2 ^ ((e : ℤ) - 1075) := by
  have hexp : (packDouble v e sign).exp = e := by
    change ((e : ℤ) % 2 ^ 11).toNat = e
    omega
  have hsignif : 2 ^ 52 + (packDouble v e sign).signif = v := by
    change 2 ^ 52 + v % 2 ^ 52 = v
    omega
  refine ⟨?_, ?_⟩
  · unfold F64.IsFinite EXP64_SPECIAL
    rw [hexp]
    omega
  · have hcast : ((2 : ℚ) ^ 52 + (packDouble v e sign).signif) = v := by exact_mod_cast hsignif
    rw [F64.mag, hexp, if_neg hpos, hcast]

theorem f80ToDouble_of_normal (mode : Mode) {e : ℕ} (hf : f.IsSupported) (hexp : f.exp = e + 0x3c00)
    (hpos : 1 ≤ e) (he : e ≤ 0x7fe) :
    f80ToDouble mode f =
      if (mode.dir f.sign).divRound f.signif (2 ^ 11) = 2 ^ 53 then packDouble 0 (e + 1) f.sign
      else packDouble ((mode.dir f.sign).divRound f.signif (2 ^ 11)) e f.sign := by
  have hfin : f.exp ≠ EXP_SPECIAL := by
    unfold EXP_SPECIAL
    omega
  have hnew : unbias f.exp + 0x3ff = e := by
    unfold unbias BIAS80
    omega
  unfold f80ToDouble
  rw [if_neg (not_not_intro hf)]
  rw [if_neg hfin, hnew, if_neg (by unfold EXP64_MAX; omega), if_neg (by omega),
    roundDouble_eq f.signif_lt.le]

/-- **The normal doubles are right.** -/
theorem f80ToDouble_normal (hf : f.IsSupported) (hlow : 0x3c00 < f.exp) (hhigh : f.exp ≤ 0x43fe) :
    DoubleRight mode f (f80ToDouble mode f) := by
  have hfin : f.IsFinite := by
    unfold F80.IsFinite EXP_SPECIAL
    omega
  obtain ⟨e, he, hfe⟩ : ∃ e : ℕ, (1 ≤ e ∧ e ≤ 0x7fe) ∧ f.exp = e + 0x3c00 :=
    ⟨f.exp - 0x3c00, by omega, by omega⟩
  have hq : (f.exp : ℤ) - 16435 = (e : ℤ) - 1075 := by omega
  have hv_low : 2 ^ 52 ≤ (mode.dir f.sign).divRound f.signif (2 ^ 11) :=
    le_divRound (by decide) (normal_signif hf hlow)
  have hv_high : (mode.dir f.sign).divRound f.signif (2 ^ 11) ≤ 2 ^ 53 :=
    divRound_le (by decide) f.signif_lt.le
  have hround := round_of_normal (mode.dir f.sign) hf hlow
  have hup : mode.dir f.sign = .zero → (mode.dir f.sign).divRound f.signif (2 ^ 11) ≠ 2 ^ 53 := by
    intro hzero
    rw [hzero]
    have hdiv : f.signif / 2 ^ 11 < 2 ^ 53 := by
      have := f.signif_lt
      omega
    exact hdiv.ne
  have hcode := f80ToDouble_of_normal mode hf hfe he.1 he.2
  rw [hq] at hround
  generalize (mode.dir f.sign).divRound f.signif (2 ^ 11) = v at hv_low hv_high hround hup hcode
  have hemax : double.emax = 1024 := rfl
  by_cases hcarry : v = 2 ^ 53
  · rw [if_pos hcarry] at hcode
    rw [hcarry, Nat.cast_pow, Nat.cast_ofNat, two_pow_53_mul_zpow] at hround
    have hiff : (2 : ℚ) ^ ((e : ℤ) - 1075 + 53) < 2 ^ double.emax ↔ e ≠ 0x7fe := by
      rw [zpow_lt_zpow_iff_right₀ one_lt_two]
      omega
    rw [hcode, doubleRight_of_finite hfin rfl, hround]
    by_cases htop : e = 0x7fe
    · rw [if_neg (hiff.not.mpr (not_not_intro htop)), if_neg fun h => hup h hcarry, htop]
      rfl
    rw [if_pos (hiff.mpr htop)]
    obtain ⟨hfin', hmag⟩ := packDouble_mag f.sign (le_refl (2 ^ 52)) (by decide)
      (Nat.succ_ne_zero e) (by omega)
    refine ⟨hfin', hmag.trans ?_⟩
    rw [Nat.cast_pow, Nat.cast_ofNat]
    exact (two_zpow_eq_mul 52 (by push_cast; ring)).symm
  · rw [if_neg hcarry] at hcode
    obtain ⟨hfin', hmag⟩ := packDouble_mag f.sign hv_low (by omega) (show e ≠ 0 by omega) (by omega)
    have hlt : (v : ℚ) * 2 ^ ((e : ℤ) - 1075) < 2 ^ double.emax := by
      have hv : (v : ℚ) < 2 ^ 53 := by exact_mod_cast lt_of_le_of_ne hv_high hcarry
      calc (v : ℚ) * 2 ^ ((e : ℤ) - 1075) < 2 ^ 53 * 2 ^ ((e : ℤ) - 1075) :=
            mul_lt_mul_of_pos_right hv (zpow_pos two_pos _)
        _ = 2 ^ ((e : ℤ) - 1075 + 53) := two_pow_53_mul_zpow _
        _ ≤ 2 ^ double.emax := zpow_le_zpow_right₀ one_le_two (by omega)
    rw [hcode, doubleRight_of_finite hfin rfl, hround, if_pos hlt]
    exact ⟨hfin', hmag⟩

/-! ### Denormal doubles

With `M` for `2 ^ n`, a significand is `q * (4096 * M) + r`. The source drops its last bit, rounds
by `M`, and rounds by 2048. -/

section Denormal

variable {d : Dir} {M q r : ℕ}

/-- The first two shifts. -/
theorem divRound_half (hM : 0 < M) :
    d.divRound ((q * (4096 * M) + r) / 2) M = q * 2048 + d.divRound (r / 2) M := by
  have hhalf : (q * (4096 * M) + r) / 2 = 2 * (q * 1024) * M + r / 2 := by
    have hmul : q * (4096 * M) = 2 * (2 * (q * 1024) * M) := by ring
    omega
  rw [hhalf, divRound_even_mul_add d _ _ hM]
  ring

/-- The last shift. -/
theorem divRound_2048 {w : ℕ} (hw : w ≤ 2048) :
    d.divRound (q * 2048 + w) 2048 =
      q + if w = 2048 then 1 else if d.RoundsUp q w 2048 then 1 else 0 := by
  by_cases htop : w = 2048
  · have hsum : q * 2048 + w = (q + 1) * 2048 := by omega
    rw [hsum, divRound_mul_self (by decide), if_pos htop]
  · rw [if_neg htop, divRound_mul_add d q (by omega)]

/-- **Two roundings against one**: the field that is stored is right exactly for what is kept. -/
theorem denormalKept_iff {n : ℕ} (hn : M = 2 ^ n) (hq : q < 2 ^ 52) (hr : r < 4096 * M) :
    d.divRound (q * 2048 + d.divRound (r / 2) M) 2048 % 2 ^ 52
        = d.divRound (q * (4096 * M) + r) (4096 * M) ↔ DenormalKept d n q r := by
  have hM : 0 < M := hn ▸ Nat.two_pow_pos n
  have hw : d.divRound (r / 2) M ≤ 2048 := divRound_le hM (by omega)
  have hmid : 2 ^ (11 + n) = 2048 * M := by rw [hn, pow_add]; norm_num
  rw [divRound_mul_add d q hr, divRound_2048 hw]
  unfold DenormalKept
  cases d with
  | zero =>
    have hdiv : r / 2 / M < 2048 := by
      rw [Nat.div_lt_iff_lt_mul hM]
      omega
    have hw' : Dir.zero.divRound (r / 2) M = r / 2 / M := by
      rw [Dir.divRound, if_neg (show ¬ Dir.zero.RoundsUp _ _ _ from not_false), add_zero]
    rw [hw', if_neg hdiv.ne, if_neg (show ¬ Dir.zero.RoundsUp _ _ _ from not_false),
      if_neg (show ¬ Dir.zero.RoundsUp _ _ _ from not_false), add_zero, Nat.mod_eq_of_lt hq]
    exact iff_of_true rfl trivial
  | away =>
    have hw0 : Dir.away.divRound (r / 2) M = 0 ↔ r / 2 = 0 := divRound_away_eq_zero
    generalize Dir.away.divRound (r / 2) M = w at hw hw0
    have hup : (if w = 2048 then 1 else if Dir.away.RoundsUp q w 2048 then 1 else 0)
        = if r / 2 = 0 then 0 else 1 := by
      simp only [roundsUp_away, ne_eq, hw0]
      by_cases hr2 : r / 2 = 0
      · rw [if_pos hr2, if_neg (by omega), if_neg (not_not_intro hr2)]
      · rw [if_neg hr2, if_pos hr2, ite_self]
    rw [hup]
    simp only [roundsUp_away]
    split <;> split <;> omega
  | nearest =>
    obtain ⟨hlow, hhigh⟩ := divRound_nearest_bounds (n := r / 2) hM
    have heq := divRound_nearest_eq_even (n := r / 2) (a := 1024) hM (by decide)
    simp only [roundsUp_nearest]
    rw [hmid, ← hn]
    generalize Dir.nearest.divRound (r / 2) M = w at hw hlow hhigh heq
    rcases lt_trichotomy w 1024 with hless | hhalf | hmore
    · have hmul : w * M ≤ 1023 * M := Nat.mul_le_mul_right M (by omega)
      rw [if_neg (by omega), if_neg (by omega), if_neg (by omega), add_zero, Nat.mod_eq_of_lt hq]
      refine iff_of_true rfl ⟨?_, ?_⟩
      · rintro ⟨hnear, -⟩
        omega
      · omega
    · rw [hhalf, if_neg (by decide)]
      rcases lt_trichotomy r (2048 * M) with hr' | hr' | hr'
      · rw [if_neg (show ¬ (4096 * M < 2 * r ∨ 2 * r = 4096 * M ∧ q % 2 = 1) by omega)]
        split <;> omega
      · by_cases hodd : q % 2 = 1
        · rw [if_pos (by omega), if_pos (by omega)]
          omega
        rw [if_neg (by omega), if_neg (by omega)]
        omega
      · rw [if_pos (show 4096 * M < 2 * r ∨ 2 * r = 4096 * M ∧ q % 2 = 1 by omega)]
        split <;> omega
    · have hmul : 1025 * M ≤ w * M := Nat.mul_le_mul_right M (by omega)
      have hup : (if w = 2048 then 1 else
          if 2048 < 2 * w ∨ 2 * w = 2048 ∧ q % 2 = 1 then 1 else 0) = 1 := by
        rw [if_pos (show 2048 < 2 * w ∨ 2 * w = 2048 ∧ q % 2 = 1 by omega), ite_self]
      rw [hup, if_pos (by omega)]
      have hnear : ¬ (2048 * M ≤ r / 2 * 2 + M ∧ r / 2 * 2 ≤ 2048 * M + M) := by omega
      omega

end Denormal

theorem denormal_lt_emax {v : ℕ} (hv : v ≤ 2 ^ 52) :
    (v : ℚ) * 2 ^ double.qmin < 2 ^ double.emax := by
  have hcast : (v : ℚ) ≤ 2 ^ 53 := by
    have hle : v ≤ 2 ^ 53 := by omega
    exact_mod_cast hle
  calc (v : ℚ) * 2 ^ double.qmin ≤ 2 ^ 53 * 2 ^ double.qmin :=
        mul_le_mul_of_nonneg_right hcast (zpow_pos two_pos _).le
    _ = 2 ^ (double.qmin + 53) := two_pow_53_mul_zpow _
    _ < 2 ^ double.emax := zpow_lt_zpow_right₀ one_lt_two (by decide)

/-- The exact value of a small number, rounded to a multiple of the least double. -/
theorem round_of_small (d : Dir) {n : ℕ} (hexp : f.exp + n = 0x3c00) :
    double.round d f.mag = d.divRound f.signif (2 ^ (12 + n)) * 2 ^ double.qmin := by
  have hub := F80.unbiasDenormal_eq f.exp
  have hqmin : double.qmin = -1074 := rfl
  by_cases hzero : f.signif = 0
  · have hmag : f.mag = 0 := by rw [F80.mag, hzero, Nat.cast_zero, zero_mul]
    rw [hmag, Format.round_zero, hzero, divRound_small (by positivity), if_neg fun h => h.2 rfl,
      Nat.cast_zero, zero_mul]
  -- a denormal number has one place less, which makes no difference
  obtain ⟨k, hk, hplace, hsame⟩ : ∃ k, 11 ≤ k ∧
      unbiasDenormal f.exp - 63 = double.qmin - (k : ℕ) ∧
      d.divRound f.signif (2 ^ k) = d.divRound f.signif (2 ^ (12 + n)) := by
    by_cases hnormal : f.exp = 0
    · have hsmall : ∀ k, 65 ≤ k → 2 * f.signif < 2 ^ k := by
        intro k hk
        have hlt := f.signif_lt
        calc 2 * f.signif < 2 ^ 65 := by omega
          _ ≤ 2 ^ k := Nat.pow_le_pow_right two_pos hk
      refine ⟨11 + n, by omega, by omega, ?_⟩
      rw [divRound_small (hsmall _ (by omega)), divRound_small (hsmall _ (by omega))]
    · exact ⟨12 + n, by omega, by omega, rfl⟩
  have hmag : f.mag = (f.signif : ℚ) / (2 ^ k : ℕ) * 2 ^ double.qmin := by
    rw [F80.mag, hplace, zpow_sub₀ two_ne_zero, zpow_natCast]
    push_cast
    ring
  have hlt : f.signif < 2 ^ 53 * 2 ^ k :=
    calc f.signif < 2 ^ 53 * 2 ^ 11 := f.signif_lt
      _ ≤ 2 ^ 53 * 2 ^ k := Nat.mul_le_mul_left _ (Nat.pow_le_pow_right two_pos hk)
  rw [Format.round_eq (Nat.two_pow_pos k) hmag (Format.quantum_eq (show 0 < 53 by decide)
    (Nat.two_pow_pos k) (Nat.pos_of_ne_zero hzero) hmag (.inl rfl) hlt), hsame]

/-- A small number is shifted, and rounded twice. -/
theorem f80ToDouble_of_small {n : ℕ} (hf : f.IsSupported) (hexp : f.exp + n = 0x3c00) :
    f80ToDouble mode f = packDouble ((mode.dir f.sign).divRound
      ((mode.dir f.sign).divRound (f.signif / 2) (2 ^ n)) (2 ^ 11)) 0 f.sign := by
  have hlt := f.signif_lt
  have hfin : f.exp ≠ EXP_SPECIAL := by
    unfold EXP_SPECIAL
    omega
  have hnew : unbias f.exp + 0x3ff = -(n : ℤ) := by
    unfold unbias BIAS80
    omega
  have hhalf : (pack (f.signif / 2) f.exp f.sign).signif = f.signif / 2 := pack_signif (by omega)
  have hfield : (pack (f.signif / 2) f.exp f.sign).exp = f.exp := pack_exp f.exp_lt
  have hu : (mode.dir f.sign).divRound (f.signif / 2) (2 ^ n) ≤ 2 ^ 63 :=
    divRound_le (Nat.two_pow_pos n)
      (le_trans (by omega) (Nat.le_mul_of_pos_right _ (Nat.two_pow_pos n)))
  have hshift : f80ShiftRight mode (pack (f.signif / 2) f.exp f.sign) n
      = pack ((mode.dir f.sign).divRound (f.signif / 2) (2 ^ n)) (0x3c00 : ℕ) f.sign := by
    unfold f80ShiftRight
    rw [hhalf, hfield, u128ShiftRightRound_of_lt (by omega), ← hexp]
    rfl
  have hexp' : unbias (pack ((mode.dir f.sign).divRound (f.signif / 2) (2 ^ n)) (0x3c00 : ℕ)
      f.sign).exp + 0x3ff = 0 := by
    rw [pack_exp (by decide)]
    rfl
  have hv : (mode.dir f.sign).divRound ((mode.dir f.sign).divRound (f.signif / 2) (2 ^ n)) (2 ^ 11)
      ≠ 2 ^ 53 := by
    have hle : (mode.dir f.sign).divRound
        ((mode.dir f.sign).divRound (f.signif / 2) (2 ^ n)) (2 ^ 11) ≤ 2 ^ 52 :=
      divRound_le (by decide) hu
    omega
  unfold f80ToDouble
  rw [if_neg (not_not_intro hf)]
  dsimp only
  rw [if_neg hfin, hnew, if_neg (by unfold EXP64_MAX; omega), if_pos (by omega), neg_neg,
    Int.toNat_natCast, hshift, hexp', pack_signif (by omega), roundDouble_eq (by omega)]
  exact if_neg hv

theorem f80ToDouble_denormal_iff (hf : f.IsSupported) {n : ℕ} (hexp : f.exp + n = 0x3c00) :
    DoubleRight mode f (f80ToDouble mode f) ↔
      DenormalKept (mode.dir f.sign) n (f.signif / 2 ^ (12 + n)) (f.signif % 2 ^ (12 + n)) := by
  have hfin : f.IsFinite := by
    unfold F80.IsFinite EXP_SPECIAL
    omega
  have hpow : 2 ^ (12 + n) = 4096 * 2 ^ n := by
    rw [pow_add]
    norm_num
  have hmod : f.signif % 2 ^ (12 + n) < 4096 * 2 ^ n := by
    rw [hpow]
    exact Nat.mod_lt _ (by positivity)
  have hq : f.signif / 2 ^ (12 + n) < 2 ^ 52 := by
    rw [Nat.div_lt_iff_lt_mul (Nat.two_pow_pos _)]
    calc f.signif < 2 ^ 52 * 2 ^ 12 := f.signif_lt
      _ ≤ 2 ^ 52 * 2 ^ (12 + n) := Nat.mul_le_mul_left _ (Nat.pow_le_pow_right two_pos (by omega))
  have hsplit : f.signif / 2 ^ (12 + n) * (4096 * 2 ^ n) + f.signif % 2 ^ (12 + n) = f.signif := by
    rw [← hpow, Nat.div_add_mod']
  have hkept := denormalKept_iff (d := mode.dir f.sign) (M := 2 ^ n) rfl hq hmod
  rw [← divRound_half (Nat.two_pow_pos n), hsplit, ← hpow] at hkept
  have hv : (mode.dir f.sign).divRound f.signif (2 ^ (12 + n)) ≤ 2 ^ 52 := by
    apply divRound_le (Nat.two_pow_pos _)
    calc f.signif ≤ 2 ^ 52 * 2 ^ 12 := f.signif_lt.le
      _ ≤ 2 ^ 52 * 2 ^ (12 + n) := Nat.mul_le_mul_left _ (Nat.pow_le_pow_right two_pos (by omega))
  rw [f80ToDouble_of_small hf hexp, doubleRight_of_finite hfin rfl, round_of_small _ hexp, ← hkept,
    if_pos (denormal_lt_emax hv)]
  constructor
  · rintro ⟨-, hmag⟩
    exact_mod_cast mul_right_cancel₀ (zpow_pos two_pos _).ne' hmag
  intro heq
  refine ⟨(by decide : 0 ≠ EXP64_SPECIAL), ?_⟩
  rw [← heq]
  rfl

/-- **When the double is right.** -/
theorem toDouble_right_iff (mode : Mode) (f : F80) (hf : f.IsSupported) :
    DoubleRight mode f (f80ToDouble mode f) ↔ ToDoubleRight mode f := by
  unfold ToDoubleRight
  by_cases hnan : f.IsNan
  · unfold DoubleRight
    rw [if_pos hnan, if_pos hnan]
    exact f80ToDouble_nan_iff hf hnan
  by_cases hinf : f.IsInf
  · unfold DoubleRight
    rw [if_neg hnan, if_neg hnan, if_pos hinf, if_pos hinf]
    exact iff_of_true (f80ToDouble_inf hf hinf) trivial
  have hfin : f.IsFinite := by
    intro hexp
    by_cases hmod : f.signif % 2 ^ 63 = 0
    · exact hinf ⟨hexp, hmod⟩
    · exact hnan ⟨hexp, hmod⟩
  rw [if_neg hnan, if_neg hinf]
  by_cases hbig : 0x43fe < f.exp
  · rw [if_pos hbig]
    exact f80ToDouble_overflow_iff hf hfin hbig
  by_cases hnormal : 0x3c00 < f.exp
  · rw [if_neg hbig, if_pos hnormal]
    exact iff_of_true (f80ToDouble_normal hf hnormal (by omega)) trivial
  rw [if_neg hbig, if_neg hnormal]
  exact f80ToDouble_denormal_iff hf (by omega)

theorem toDouble_right_iff_aboveOne :
    f80ToDouble .up aboveOne = packDouble 1 0x3ff false ∧
      DoubleRight .up aboveOne (f80ToDouble .up aboveOne) := by
  refine ⟨by decide, (toDouble_right_iff .up aboveOne (by decide)).mpr ?_⟩
  unfold ToDoubleRight
  rw [if_neg (by decide), if_neg (by decide), if_neg (by decide), if_pos (by decide)]
  trivial

/-- The number `2 ^ 1024`. -/
def aboveDoubles : F80 := pack (2 ^ 63) 0x43ff false

/-- The greatest number below the least normal double. -/
def belowNormal : F80 := pack (2 ^ 64 - 1) 0x3c00 false

/-- A NaN with every bit set. -/
def allOnesNan : F80 := pack (2 ^ 64 - 1) EXP_SPECIAL false

/-- A NaN becomes a zero; a number too big is infinity also when the fraction is cut off; and a
number that is rounded to the least normal double becomes a zero. -/
theorem f80ToDouble_wrong :
    (allOnesNan.IsNan ∧ f80ToDouble .nearest allOnesNan = packDouble 0 0 false ∧
      ¬ DoubleRight .nearest allOnesNan (f80ToDouble .nearest allOnesNan)) ∧
    (f80ToDouble .chop aboveDoubles = doubleInf false ∧
      ¬ DoubleRight .chop aboveDoubles (f80ToDouble .chop aboveDoubles)) ∧
    f80ToDouble .nearest belowNormal = packDouble 0 0 false ∧
      ¬ DoubleRight .nearest belowNormal (f80ToDouble .nearest belowNormal) := by
  refine ⟨⟨by decide, by decide +kernel, ?_⟩, ⟨by decide +kernel, ?_⟩, by decide +kernel, ?_⟩
  · unfold DoubleRight
    rw [if_pos (by decide)]
    decide +kernel
  · intro h
    exact (f80ToDouble_overflow_iff (by decide) (by decide) (by decide)).mp h rfl
  intro h
  obtain ⟨-, hcarry⟩ := (f80ToDouble_denormal_iff (n := 0) (by decide) rfl).mp h
  exact hcarry (by decide)

end ToDouble

end Ish.Float80
