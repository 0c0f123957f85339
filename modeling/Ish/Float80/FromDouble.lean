import Ish.Float80.ToDouble
import Ish.Float80.ToInt

set_option autoImplicit false

/-! # Numbers from doubles and integers

`f80_from_double` and `f80_from_int` store the significand of a double, or an integer, with the
exponent that belongs to it, and `f80_normalize` shifts out the leading zeros. The shift loses no
digit, so the number has the value of the double or the integer. The way back shifts the same digits
in again, and there is nothing to round in any mode: all doubles and all integers come back, also
the denormal doubles and the NaNs, for which `f80_to_double` is not right in general.
-/

namespace Ish.Float80

open Ish.Lib F64

def CURSED_BIT : ℕ := 2 ^ 63

def EXP64_DENORMAL : ℕ := 0

/-- `f80_shift_left`. A shift by 64 is undefined. -/
def f80ShiftLeft (f : F80) (shift : ℕ) : Option F80 :=
  if shift < 64 then some (pack (f.signif * 2 ^ shift) (f.exp - shift) f.sign) else none

/-- `f80_normalize`, which asserts that denormal and special numbers are supported. -/
def f80Normalize (f : F80) : Option F80 :=
  if (f.exp = EXP_DENORMAL ∨ f.exp = EXP_SPECIAL) ∧ ¬ f.IsSupported then none
  else if f.exp = EXP_DENORMAL then some f
  else
    let shift := if f.signif ≠ 0 then clzl f.signif else 64
    if (f.exp : ℤ) - shift < EXP_MIN then
      (f80ShiftLeft f (f.exp - EXP_MIN)).map fun f => pack f.signif EXP_DENORMAL f.sign
    else f80ShiftLeft f shift

def f80FromInt (i : ℤ) : Option F80 :=
  let exp := if i = 0 then 0 else bias 63
  f80Normalize
    (if i < 0 then pack (-i % 2 ^ 64).toNat exp true else pack (i % 2 ^ 64).toNat exp false)

def f80FromDouble (db : F64) : Option F80 :=
  let exp : ℤ :=
    if db.exp = EXP64_SPECIAL then EXP_SPECIAL
    else if db.exp = EXP64_DENORMAL then if db.signif = 0 then 0 else bias (1 - 0x3ff)
    else bias (db.exp - 0x3ff)
  let signif := db.signif * 2 ^ 11
  f80Normalize
    (pack (if db.exp ≠ EXP64_DENORMAL then signif ||| CURSED_BIT else signif) exp db.sign)

def F64.val (d : F64) : ℚ := if d.sign then -d.mag else d.mag

/-- **An exact encoding** of a value. -/
structure F80.Encodes (f : F80) (x : ℚ) : Prop where
  supported : f.IsSupported
  finite : f.IsFinite
  val : f.val = x

/-! ## Shifting out the leading zeros -/

theorem clzl_lt (x : ℕ) : clzl x < 64 := by
  unfold clzl
  omega

theorem clzl_spec {x : ℕ} (hpos : x ≠ 0) (hlt : x < 2 ^ 64) :
    2 ^ 63 ≤ x * 2 ^ clzl x ∧ x * 2 ^ clzl x < 2 ^ 64 := by
  have h := u128Clz_spec hpos (show x < 2 ^ 128 by omega)
  rw [u128Clz, if_neg (by omega), if_pos hpos, pow_add, mul_left_comm] at h
  omega

theorem clzl_eq_zero_iff {x : ℕ} (hpos : x ≠ 0) (hlt : x < 2 ^ 64) : clzl x = 0 ↔ 2 ^ 63 ≤ x := by
  obtain ⟨hlow, hhigh⟩ := clzl_spec hpos hlt
  constructor
  · intro h
    rwa [h, pow_zero, mul_one] at hlow
  intro hge
  by_contra hne
  have hle : x * 2 ^ 1 ≤ x * 2 ^ clzl x :=
    Nat.mul_le_mul_left x (Nat.pow_le_pow_right two_pos (Nat.pos_of_ne_zero hne))
  omega

theorem mul_two_pow_zpow (s k : ℕ) (e : ℤ) : ((s * 2 ^ k : ℕ) : ℚ) * 2 ^ (e - k) = s * 2 ^ e := by
  rw [zpow_sub₀ two_ne_zero, zpow_natCast, Nat.cast_mul, Nat.cast_pow, Nat.cast_ofNat]
  field_simp

/-- The number `g` has the significand `s` and the exponent `e` without the leading zeros. -/
structure Normalized (s e : ℕ) (sign : Bool) (g : F80) : Prop where
  signif : g.signif = s * 2 ^ clzl s
  exp : g.exp + clzl s = e
  sign : g.sign = sign
  supported : g.IsSupported
  mag : g.mag = s * 2 ^ ((e : ℤ) - 16446)

/-- **What `f80_normalize` does** when there is room for the shift. -/
theorem f80Normalize_spec {s e : ℕ} (sign : Bool) (hpos : s ≠ 0) (hlt : s < 2 ^ 64)
    (hroom : clzl s < e) (he : e < 2 ^ 15) (hspecial : e = EXP_SPECIAL → 2 ^ 63 ≤ s) :
    ∃ g, f80Normalize (pack s e sign) = some g ∧ Normalized s e sign g := by
  obtain ⟨hlow, hhigh⟩ := clzl_spec hpos hlt
  have hsignif : (pack s e sign).signif = s := pack_signif hlt
  have hexp : (pack s e sign).exp = e := pack_exp he
  have hzero : e ≠ EXP_DENORMAL := by
    unfold EXP_DENORMAL
    omega
  have hassert : ¬ ((e = EXP_DENORMAL ∨ e = EXP_SPECIAL) ∧ ¬ (pack s e sign).IsSupported) := by
    rintro ⟨h | h, hbad⟩
    · exact hzero h
    rw [F80.isSupported_iff, hsignif, hexp] at hbad
    exact hbad (.inr ⟨hzero, hspecial h⟩)
  have hsignif' : (pack (s * 2 ^ clzl s) (e - clzl s : ℕ) sign).signif = _ := pack_signif hhigh
  have hexp' : (pack (s * 2 ^ clzl s) (e - clzl s : ℕ) sign).exp = _ := pack_exp (by omega)
  refine ⟨pack (s * 2 ^ clzl s) (e - clzl s : ℕ) sign, ?_, hsignif', by omega, rfl, ?_, ?_⟩
  · rw [f80Normalize, hexp, if_neg hassert, if_neg hzero, hsignif]
    rw [if_pos hpos, if_neg (by unfold EXP_MIN; omega), f80ShiftLeft, if_pos (clzl_lt s), hsignif,
      hexp, Nat.cast_sub hroom.le]
    rfl
  · rw [F80.isSupported_iff]
    exact .inr ⟨by omega, hlow.trans_eq hsignif'.symm⟩
  have hub := F80.unbiasDenormal_eq (e - clzl s)
  have hplace : unbiasDenormal (e - clzl s) - 63 = (e : ℤ) - 16446 - clzl s := by omega
  rw [F80.mag, hsignif', hexp', hplace, mul_two_pow_zpow]

theorem zero_mag (sign : Bool) : (pack 0 0 sign).mag = 0 := by
  rw [F80.mag, show (pack 0 0 sign).signif = 0 from rfl, Nat.cast_zero, zero_mul]

/-! ## Doubles -/

namespace F64

variable {d : F64}

/-- The significand with the bit that the exponent implies. -/
def digits (d : F64) : ℕ := if d.exp = 0 then d.signif else 2 ^ 52 + d.signif

/-- The exponent of the number, before the shift. -/
def place (d : F64) : ℕ := if d.exp = EXP64_SPECIAL then EXP_SPECIAL else max d.exp 1 + 0x3c00

theorem digits_lt (d : F64) : d.digits < 2 ^ 53 := by
  have := d.signif_lt
  unfold digits
  split <;> omega

theorem mag_eq (hfin : d.IsFinite) : d.mag = d.digits * 2 ^ ((d.place : ℤ) - 16435) := by
  rw [mag, digits, place, if_neg hfin]
  by_cases hexp : d.exp = 0
  · rw [if_pos hexp, if_pos hexp, hexp]
    rfl
  rw [if_neg hexp, if_neg hexp, max_eq_left (by omega), Nat.cast_add d.exp, add_sub_assoc]
  push_cast
  rfl

end F64

section Doubles

variable {d : F64}

theorem packDouble_digits (d : F64) : packDouble d.digits d.exp d.sign = d := by
  have hs := d.signif_lt
  have hexp : ((d.exp : ℤ) % 2 ^ 11).toNat = d.exp := by
    have := d.exp_lt
    omega
  have hsignif : d.digits % 2 ^ 52 = d.signif := by
    unfold digits
    split <;> omega
  cases d
  simp_all [packDouble]

theorem f80FromDouble_eq (hzero : ¬ (d.exp = 0 ∧ d.signif = 0)) :
    f80FromDouble d = f80Normalize (pack (d.digits * 2 ^ 11) d.place d.sign) := by
  have hs := d.signif_lt
  rw [f80FromDouble, digits, place]
  by_cases hexp : d.exp = 0
  · rw [if_neg (not_not_intro (show d.exp = EXP64_DENORMAL from hexp)), if_pos hexp, hexp,
      if_neg fun h => hzero ⟨hexp, h⟩]
    rfl
  have hor : d.signif * 2 ^ 11 ||| CURSED_BIT = (2 ^ 52 + d.signif) * 2 ^ 11 := by
    rw [Nat.or_comm, CURSED_BIT, ← mul_one (2 ^ 63), ← Nat.two_pow_add_eq_or_of_lt (by omega)]
    omega
  have hstored : bias ((d.exp : ℤ) - 0x3ff) = (max d.exp 1 + 0x3c00 : ℕ) := by
    unfold bias BIAS80
    omega
  rw [if_pos (show d.exp ≠ EXP64_DENORMAL from hexp), hor, if_neg hexp,
    if_neg (show d.exp ≠ EXP64_DENORMAL from hexp), hstored, apply_ite Nat.cast]

theorem f80FromDouble_spec (hzero : ¬ (d.exp = 0 ∧ d.signif = 0)) :
    ∃ g, f80FromDouble d = some g ∧ Normalized (d.digits * 2 ^ 11) d.place d.sign g := by
  have hlt := d.digits_lt
  have hclz := clzl_lt (d.digits * 2 ^ 11)
  have he := d.exp_lt
  rw [f80FromDouble_eq hzero]
  apply f80Normalize_spec d.sign
  · unfold digits
    split <;> omega
  · omega
  · unfold place EXP_SPECIAL
    split <;> omega
  · unfold place EXP_SPECIAL
    split <;> omega
  unfold place digits EXP64_SPECIAL EXP_SPECIAL
  split <;> split <;> omega

theorem f80ToDouble_normalized (mode : Mode) {g : F80} (hzero : ¬ (d.exp = 0 ∧ d.signif = 0))
    (hg : Normalized (d.digits * 2 ^ 11) d.place d.sign g) : f80ToDouble mode g = d := by
  have hlt := d.digits_lt
  have hs := d.signif_lt
  have he := d.exp_lt
  have hexp := hg.exp
  have hclz := clzl_eq_zero_iff (x := d.digits * 2 ^ 11)
    (by unfold digits; split <;> omega) (by omega)
  have hd := packDouble_digits d
  rw [place] at hexp
  by_cases hdenormal : d.exp = 0
  · have hdigits : d.digits = d.signif := if_pos hdenormal
    -- the way back drops the last bit first, and shifts by one place less
    obtain ⟨c, hc⟩ := Nat.exists_eq_succ_of_ne_zero (mt hclz.mp (by omega))
    have hhalf : g.signif / 2 = d.digits * 2 ^ 11 * 2 ^ c := by
      rw [hg.signif, hc, pow_succ 2 c, ← mul_assoc, Nat.mul_div_cancel _ two_pos]
    rw [hdenormal, hc] at hexp
    rw [f80ToDouble_of_small hg.supported (n := c) (Nat.succ_injective hexp), hhalf,
      Dir.divRound_mul_self (Nat.two_pow_pos c), Dir.divRound_mul_self (by decide), hg.sign]
    rwa [hdenormal] at hd
  have hdigits : d.digits = 2 ^ 52 + d.signif := if_neg hdenormal
  have hround : (mode.dir g.sign).divRound g.signif (2 ^ 11) = d.digits := by
    rw [hg.signif, hclz.mpr (by omega), pow_zero, mul_one, Dir.divRound_mul_self (by decide)]
  rw [hclz.mpr (by omega), add_zero] at hexp
  by_cases hspecial : d.exp = EXP64_SPECIAL
  · rw [if_pos hspecial] at hexp
    rw [f80ToDouble_special hg.supported hexp, hround, if_neg (by omega), hg.sign]
    rwa [hspecial] at hd
  rw [if_neg hspecial, max_eq_left (by omega)] at hexp
  unfold EXP64_SPECIAL at hspecial
  rw [f80ToDouble_of_normal _ hg.supported hexp (by omega) (by omega), hround, if_neg (by omega),
    hg.sign, hd]

/-- **Every double comes back**, and if it is finite its number has the same value. -/
theorem f80FromDouble_exact (mode : Mode) (d : F64) :
    ∃ f, f80FromDouble d = some f ∧ f80ToDouble mode f = d ∧ (d.IsFinite → f.Encodes d.val) := by
  by_cases hzero : d.exp = 0 ∧ d.signif = 0
  · have hd := packDouble_digits d
    rw [digits, if_pos hzero.1, hzero.1, hzero.2] at hd
    refine ⟨pack 0 0 d.sign, ?_, ?_, fun _ => ⟨?_, (by decide : 0 ≠ EXP_SPECIAL), ?_⟩⟩
    · rw [← hd]
      cases d.sign <;> decide
    · rw [← hd]
      cases mode <;> cases d.sign <;> decide
    · cases d.sign <;> decide
    rw [F80.val, val, zero_mag, mag, if_pos hzero.1, hzero.2, Nat.cast_zero, zero_mul]
    rfl
  obtain ⟨f, hf, hnorm⟩ := f80FromDouble_spec hzero
  refine ⟨f, hf, f80ToDouble_normalized mode hzero hnorm, fun hfin => ⟨hnorm.supported, ?_, ?_⟩⟩
  · have hexp := hnorm.exp
    have he := d.exp_lt
    rw [place, if_neg hfin] at hexp
    unfold F80.IsFinite EXP_SPECIAL
    omega
  have hplace : (d.place : ℤ) - 16446 = (d.place : ℤ) - 16435 - (11 : ℕ) := by omega
  have hmag : f.mag = d.mag := by
    rw [hnorm.mag, mag_eq hfin, hplace, mul_two_pow_zpow]
  rw [F80.val, val, hmag, hnorm.sign]

end Doubles

/-! ## Integers -/

/-- An integer is not rounded. -/
theorem roundInt_intCast (mode : Mode) (i : ℤ) : roundInt mode i = i := by
  have hrint : ∀ d : Dir, d.rint |(i : ℚ)| = |i| := by
    intro d
    have h := d.rint_div i.natAbs one_pos
    rw [Nat.cast_one, div_one, Dir.divRound_one, Int.natCast_natAbs] at h
    rw [← h, Nat.cast_natAbs, Int.cast_abs]
  unfold roundInt
  rw [hrint, hrint]
  split
  · rw [abs_of_neg (by exact_mod_cast ‹(i : ℚ) < 0›), neg_neg]
  · rw [abs_of_nonneg (by exact_mod_cast not_lt.mp ‹¬ (i : ℚ) < 0›)]

theorem f80FromInt_eq {i : ℤ} (hlow : -2 ^ 63 ≤ i) (hhigh : i < 2 ^ 63) (hi : i ≠ 0) :
    f80FromInt i = f80Normalize (pack i.natAbs (0x403e : ℕ) (decide (i < 0))) := by
  rw [f80FromInt, if_neg hi]
  by_cases hneg : i < 0
  · have habs : (-i % 2 ^ 64).toNat = i.natAbs := by omega
    rw [if_pos hneg, decide_eq_true hneg, habs]
    rfl
  have habs : (i % 2 ^ 64).toNat = i.natAbs := by omega
  rw [if_neg hneg, decide_eq_false hneg, habs]
  rfl

theorem f80FromInt_encodes {i : ℤ} (hlow : -2 ^ 63 ≤ i) (hhigh : i < 2 ^ 63) :
    ∃ f, f80FromInt i = some f ∧ f.exp ≤ 0x403e ∧ f.Encodes i := by
  by_cases hi : i = 0
  · refine ⟨pack 0 0 false, by rw [hi]; decide, by decide, by decide, by decide, ?_⟩
    rw [hi, F80.val, zero_mag]
    rfl
  have hclz := clzl_lt i.natAbs
  obtain ⟨f, hf, hnorm⟩ := f80Normalize_spec (s := i.natAbs) (e := 0x403e) (decide (i < 0))
    (by omega) (by omega) (by omega) (by decide) (fun h => absurd h (by decide))
  have hexp := hnorm.exp
  have hmag : f.mag = |(i : ℚ)| := by
    rw [hnorm.mag, Nat.cast_natAbs, Int.cast_abs]
    exact mul_one _
  refine ⟨f, (f80FromInt_eq hlow hhigh hi).trans hf, by omega, hnorm.supported, ?_, ?_⟩
  · unfold F80.IsFinite EXP_SPECIAL
    omega
  rw [F80.val, hnorm.sign, hmag]
  by_cases hneg : i < 0
  · rw [decide_eq_true hneg, if_pos rfl, abs_of_neg (by exact_mod_cast hneg), neg_neg]
  · rw [decide_eq_false hneg, if_neg (by decide), abs_of_nonneg (by exact_mod_cast not_lt.mp hneg)]

/-- **Every integer comes back**, and its number has the same value. -/
theorem f80FromInt_exact (mode : Mode) {i : ℤ} (hlow : -2 ^ 63 ≤ i) (hhigh : i < 2 ^ 63) :
    ∃ f, f80FromInt i = some f ∧ f80ToInt mode f = i ∧ f.Encodes i := by
  obtain ⟨f, hf, hexp, henc⟩ := f80FromInt_encodes hlow hhigh
  refine ⟨f, hf, ?_, henc⟩
  rw [f80ToInt_eq henc.supported hexp, henc.val, roundInt_intCast, wrap64_eq hlow hhigh]

/-- **Doubles and integers are kept exactly**, in every rounding mode. -/
theorem conversions_exact (mode : Mode) :
    (∀ d : F64, ∃ f, f80FromDouble d = some f ∧ f80ToDouble mode f = d ∧
      (d.IsFinite → f.Encodes d.val)) ∧
    ∀ i : ℤ, -2 ^ 63 ≤ i → i < 2 ^ 63 →
      ∃ f, f80FromInt i = some f ∧ f80ToInt mode f = i ∧ f.Encodes i :=
  ⟨f80FromDouble_exact mode, fun _ hlow hhigh => f80FromInt_exact mode hlow hhigh⟩

/-- The least integer, rounding up. -/
theorem conversions_exact_min :
    ∃ f, f80FromInt (intMin 64) = some f ∧ f80ToInt .up f = intMin 64 ∧ f.Encodes (intMin 64) :=
  (conversions_exact .up).2 (intMin 64) (by decide) (by decide)

end Ish.Float80
