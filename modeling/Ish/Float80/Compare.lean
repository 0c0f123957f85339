import Ish.Float80.Add

set_option autoImplicit false

/-! # Comparison

`f80_lt` looks at the sign of the difference. The difference may be rounded wrongly, but its sign is
right and it is not 0 unless the numbers are equal: the aligned difference has the sign of the exact
one, and is at least the least denormal number (`alignedSum_sign`).
-/

namespace Ish.Float80

open Ish.Lib F80

def f80Uncomparable (a b : F80) : Prop :=
  (¬ a.IsSupported ∨ ¬ b.IsSupported) ∨ a.IsNan ∨ b.IsNan

instance (a b : F80) : Decidable (f80Uncomparable a b) := inferInstanceAs (Decidable (_ ∨ _))

def f80Lt (mode : Mode) (a b : F80) : Prop :=
  if f80Uncomparable a b then False
  else if a.IsInf ∧ b.IsInf ∧ a.sign = b.sign then False
  else if a.IsZero ∧ b.IsZero then False
  else (f80Sub mode a b).sign = true ∧ ¬ (f80Sub mode a b).IsZero

def f80Eq (a b : F80) : Prop :=
  if f80Uncomparable a b then False
  else
    let aSign := if a.IsZero then false else a.sign
    -- the source tests `a` here too
    let bSign := if a.IsZero then false else b.sign
    aSign = bSign ∧ a.exp = b.exp ∧ a.signif = b.signif

def f80Lte (mode : Mode) (a b : F80) : Prop := f80Lt mode a b ∨ f80Eq a b

def f80Gt (mode : Mode) (a b : F80) : Prop := ¬ f80Lte mode a b

/-- The extended real number that a number stands for. -/
noncomputable def F80.ext (f : F80) : EReal :=
  if f.IsInf then if f.sign then ⊥ else ⊤ else ((f.val : ℝ) : EReal)

/-! ## The sign of a sum -/

section Sign

variable {mode : Mode} {a b : F80}

theorem pack_ne_zero {signif : ℕ} (exp : ℤ) (sign : Bool) (h : signif % 2 ^ 64 ≠ 0) :
    ¬ (pack signif exp sign).IsZero := fun hzero => h hzero.2

/-- What is not below the least denormal number is not rounded to 0. -/
theorem normalizeRound_ne_zero (mode : Mode) (sign : Bool) {signif : ℕ} {exp : ℤ} (hne : signif ≠ 0)
    (hlt : signif < 2 ^ 128) (hmin : -16382 ≤ exp) (hexp : exp < 2 ^ 31)
    (hge : 2 ^ 64 ≤ signif * 2 ^ (exp + 16382).toNat) :
    ¬ (u128NormalizeRound mode signif exp sign).IsZero := by
  obtain ⟨hlow, hhigh⟩ := u128Clz_spec hne hlt
  have henc : ∀ v t, 0 < v → v ≤ 2 ^ 64 → ¬ (enc v t sign).IsZero := by
    intro v t hpos hle
    unfold enc
    split
    · exact pack_ne_zero _ _ (by decide)
    · exact pack_ne_zero _ _ (by omega)
  by_cases hsmall : exp - u128Clz signif < -16382
  · obtain ⟨hlt', hcode⟩ := u128NormalizeRound_of_small mode sign hlow hhigh hmin hsmall hexp
    rw [hcode]
    exact henc _ _ (Dir.le_divRound (by decide) (by omega)) (Dir.divRound_le (by decide) (by omega))
  by_cases hbig : 16383 < exp - u128Clz signif
  · rw [u128NormalizeRound_of_big hlow hhigh hbig hexp]
    unfold tooBig
    split
    · exact pack_ne_zero _ _ (by decide)
    split
    · exact pack_ne_zero _ _ (by decide)
    · exact pack_ne_zero _ _ (by decide)
  rw [u128NormalizeRound_of_normal mode sign hlow hhigh (not_lt.mp hsmall) (not_lt.mp hbig)]
  exact henc _ _ (lt_of_lt_of_le (by decide) (Dir.le_divRound (by decide) (show 2 ^ 63 * 2 ^ 64 ≤ _
    by omega))) (Dir.divRound_le (by decide) (by omega))

/-- **The sign of a sum** is that of the aligned sum. -/
theorem finishAdd_sign (hfa : a.IsFinite) (hge : 2 ^ extended.qmin ≤ |alignedSum mode a b|) :
    (finishAdd mode (addOrdered mode a b)).sign = decide (alignedSum mode a b < 0) ∧
      ¬ (finishAdd mode (addOrdered mode a b)).IsZero := by
  obtain ⟨hmin, hmax⟩ := exp_bounds hfa
  have hne : alignedSum mode a b ≠ 0 := by
    rw [← abs_pos]
    exact lt_of_lt_of_le (zpow_pos two_pos _) hge
  obtain ⟨n, e, sign, hcode, hn, hlt, hlow, hhigh, -, hsum⟩ := addOrdered_of_ne_zero hfa hne
  have hpos : (0 : ℚ) < n * 2 ^ (e - 127) := by
    have : (0 : ℚ) < n := by exact_mod_cast Nat.pos_of_ne_zero hn
    positivity
  have hunits : 2 ^ 64 ≤ n * 2 ^ (e + 16382).toNat := by
    obtain ⟨k, hk⟩ : ∃ k : ℕ, e + 16382 = k := ⟨(e + 16382).toNat, by omega⟩
    have hexp : e - 127 = k + extended.qmin - (64 : ℕ) := by
      rw [show extended.qmin = -16445 from rfl]
      omega
    rw [hsum, abs_signed, abs_of_pos hpos, hexp, zpow_sub₀ two_ne_zero, zpow_add₀ two_ne_zero,
      zpow_natCast, zpow_natCast] at hge
    have hq : (0 : ℚ) < 2 ^ extended.qmin := zpow_pos two_pos _
    have hle : (2 : ℚ) ^ 64 * 2 ^ extended.qmin ≤ n * 2 ^ k * 2 ^ extended.qmin := by
      rw [mul_div_assoc', le_div_iff₀ (by positivity)] at hge
      linarith
    rw [hk, Int.toNat_natCast]
    exact_mod_cast le_of_mul_le_mul_right hle hq
  rw [hcode, hsum, signed_neg_iff sign hpos]
  exact ⟨u128NormalizeRound_sign _ _ _ _,
    normalizeRound_ne_zero mode sign hn hlt (by omega) (by omega) hunits⟩

/-- Values are multiples of the least denormal number. -/
theorem val_eq_units (f : F80) : ∃ z : ℤ, f.val = z * 2 ^ extended.qmin := by
  cases hsign : f.sign with
  | false =>
    refine ⟨f.units, ?_⟩
    rw [val, hsign, mag_eq_units]
    rfl
  | true =>
    refine ⟨-f.units, ?_⟩
    rw [val, hsign, mag_eq_units, Int.cast_neg, neg_mul]
    rfl

theorem le_abs_sum (hne : a.val + b.val ≠ 0) : 2 ^ extended.qmin ≤ |a.val + b.val| := by
  obtain ⟨z, hz⟩ := val_eq_units a
  obtain ⟨w, hw⟩ := val_eq_units b
  have hq : (0 : ℚ) < 2 ^ extended.qmin := zpow_pos two_pos _
  have hsum : a.val + b.val = (z + w : ℤ) * 2 ^ extended.qmin := by
    rw [hz, hw, Int.cast_add, add_mul]
  have hzw : z + w ≠ 0 := by
    intro h
    rw [hsum, h, Int.cast_zero, zero_mul] at hne
    exact hne rfl
  have hone : (1 : ℚ) ≤ |((z + w : ℤ) : ℚ)| := by exact_mod_cast Int.one_le_abs hzw
  rw [hsum, abs_mul, abs_of_pos hq]
  exact le_mul_of_one_le_left hq.le hone

theorem Inexact.le_combined (h : Inexact a b) (mode : Mode) :
    2 ^ 62 * 2 ^ 64 ≤ combined a b (2 ^ 64) (moved mode a b) := by
  have hge := h.le_signif
  unfold combined
  by_cases hone : a.exp = 1
  · obtain ⟨heq, hlt⟩ := h.moved_of_one mode hone
    rw [heq]
    split <;> omega
  · have := h.moved_le mode hone
    split <;> omega

/-- **The aligned sum has the sign of the exact sum**, and is not below the least denormal
number. -/
theorem alignedSum_sign (mode : Mode) (ha : a.IsSupported) (hb : b.IsSupported) (hfa : a.IsFinite)
    (hba : b.exp ≤ a.exp) (hne : a.val + b.val ≠ 0) :
    decide (alignedSum mode a b < 0) = decide (a.val + b.val < 0) ∧
      2 ^ extended.qmin ≤ |alignedSum mode a b| := by
  by_cases hexact : b.signif = 0 ∨ a.exp - b.exp ≤ 64 ∧ (b.exp ≠ 0 ∨ a.exp = 0)
  · rw [alignedSum_eq hba hexact]
    exact ⟨rfl, le_abs_sum hne⟩
  have hb0 : b.signif ≠ 0 := fun h => hexact (.inl h)
  have h : Inexact a b := by
    refine ⟨ha, hb, hfa, hba, ?_, hb0, ?_⟩
    · intro hzero
      exact hexact (.inr ⟨by omega, .inr hzero⟩)
    by_contra hcon
    exact hexact (.inr ⟨by omega, by omega⟩)
  have hlt := h.signif_lt_mul
  have hn : 0 < combined a b (2 ^ places a b) b.signif := by
    unfold combined
    split <;> omega
  have hn' := h.le_combined mode
  have hq : (2 : ℚ) ^ extended.qmin ≤ 2 ^ (unbiasDenormal a.exp - 63) := by
    obtain ⟨hmin, -⟩ := exp_bounds hfa
    exact zpow_le_zpow_right₀ one_le_two (show (-16445 : ℤ) ≤ _ by omega)
  have hone : (1 : ℚ) ≤ (combined a b (2 ^ 64) (moved mode a b) : ℕ) / (2 ^ 64 : ℕ) := by
    rw [one_le_div (by positivity), Nat.cast_le]
    omega
  have hpos : (0 : ℚ) < 2 ^ (unbiasDenormal a.exp - 63) := zpow_pos two_pos _
  have hle : 2 ^ extended.qmin ≤ (combined a b (2 ^ 64) (moved mode a b) : ℕ) / (2 ^ 64 : ℕ) *
      (2 : ℚ) ^ (unbiasDenormal a.exp - 63) :=
    le_trans hq (le_mul_of_one_le_left hpos.le hone)
  rw [h.val_eq, h.alignedSum_eq_combined, signed_neg_iff, signed_neg_iff, abs_signed,
    abs_of_pos (lt_of_lt_of_le (zpow_pos two_pos _) hle)]
  · exact ⟨rfl, hle⟩
  · have : (0 : ℚ) < (combined a b (2 ^ places a b) b.signif : ℕ) := by exact_mod_cast hn
    positivity
  · exact lt_of_lt_of_le (zpow_pos two_pos _) hle

/-- A sum of finite numbers is 0 only if the exact sum is. -/
theorem addOrdered_sign (ha : a.IsSupported) (hb : b.IsSupported) (hfa : a.IsFinite)
    (hba : b.exp ≤ a.exp) :
    ((finishAdd mode (addOrdered mode a b)).IsZero ↔ a.val + b.val = 0) ∧
      (a.val + b.val ≠ 0 →
        (finishAdd mode (addOrdered mode a b)).sign = decide (a.val + b.val < 0)) := by
  by_cases hsum : a.val + b.val = 0
  · refine ⟨iff_of_true ?_ hsum, fun h => absurd hsum h⟩
    have hexact : b.signif = 0 ∨ a.exp - b.exp ≤ 64 ∧ (b.exp ≠ 0 ∨ a.exp = 0) := by
      by_contra hcon
      refine (⟨ha, hb, hfa, hba, ?_, ?_, ?_⟩ : Inexact a b).sum_ne_zero hsum
      · exact fun h => hcon (.inr ⟨by omega, .inr h⟩)
      · exact fun h => hcon (.inl h)
      by_contra hfar
      exact hcon (.inr ⟨by omega, by omega⟩)
    exact addOrdered_of_zero ha hfa ((alignedSum_eq hba hexact).trans hsum)
  obtain ⟨hsign, hge⟩ := alignedSum_sign mode ha hb hfa hba hsum
  obtain ⟨hcode, hne⟩ := finishAdd_sign hfa hge
  exact ⟨iff_of_false hne hsum, fun _ => hcode.trans hsign⟩

theorem f80Add_sign (mode : Mode) (ha : a.IsSupported) (hb : b.IsSupported) (hfa : a.IsFinite)
    (hfb : b.IsFinite) :
    ((f80Add mode a b).IsZero ↔ a.val + b.val = 0) ∧
      (a.val + b.val ≠ 0 → (f80Add mode a b).sign = decide (a.val + b.val < 0)) := by
  unfold f80Add
  rw [addParts_of_finite ha hb hfa hfb]
  by_cases hexp : a.exp < b.exp
  · rw [if_pos hexp, add_comm a.val]
    exact addOrdered_sign hb ha hfb hexp.le
  rw [if_neg hexp]
  exact addOrdered_sign ha hb hfa (not_lt.mp hexp)

/-! ## Infinities -/

theorem signif_of_inf (ha : a.IsSupported) (hinf : a.IsInf) : a.signif = 2 ^ 63 := by
  have hlt := a.signif_lt
  have hmod := hinf.2
  have hge := ha.le_signif (by rw [hinf.1]; decide)
  omega

/-- Adding to an infinity, unless it is the other one. -/
theorem addOrdered_of_inf (ha : a.IsSupported) (hinf : a.IsInf)
    (hother : ¬ (b.IsInf ∧ a.sign ≠ b.sign)) :
    finishAdd mode (addOrdered mode a b) = f80Inf a.sign := by
  have hexp : unbiasDenormal a.exp = 16384 := by
    rw [hinf.1]
    rfl
  have hbig : u128NormalizeRound mode (2 ^ 63 * 2 ^ 64) 16384 a.sign = f80Inf a.sign := by
    rw [u128NormalizeRound_of_big (c := 0) (by decide) (by decide) (by decide) (by decide), tooBig,
      if_pos (by decide)]
  have hsame : (b.sign ^^ a.sign) = false ↔ a.sign = b.sign := by
    cases a.sign <;> cases b.sign <;> decide
  have hcode : addOrdered mode a b = .inr (2 ^ 63 * 2 ^ 64, 16384, a.sign) := by
    unfold addOrdered
    dsimp only
    rw [signif_of_inf ha hinf, hexp]
    by_cases hsign : a.sign = b.sign
    · rw [if_pos (hsame.mpr hsign), if_pos hinf]
    rw [if_neg (hsame.not.mpr hsign), if_neg fun h => hother ⟨h.2, hsign⟩, if_pos hinf,
      if_pos (Nat.zero_le _), Nat.sub_zero, if_neg fun h => absurd h.1 (by decide),
      if_neg (by decide), decide_eq_false (by decide), Bool.false_xor]
  rw [hcode]
  exact hbig

/-- Two infinities with opposite signs. -/
theorem addOrdered_of_infs (hinf : a.IsInf) (hinf' : b.IsInf) (hsign : a.sign ≠ b.sign) :
    addOrdered mode a b = .inl F80_NAN := by
  have hopp : (b.sign ^^ a.sign) ≠ false := by
    cases hsa : a.sign <;> cases hsb : b.sign <;> simp_all
  unfold addOrdered
  rw [if_neg hopp, if_pos ⟨hinf, hinf'⟩]

theorem f80Add_inf_left (ha : a.IsSupported) (hb : b.IsSupported) (hinf : a.IsInf) (hnb : ¬ b.IsNan)
    (hother : ¬ (b.IsInf ∧ a.sign ≠ b.sign)) : f80Add mode a b = f80Inf a.sign := by
  have hexp : ¬ a.exp < b.exp := by
    have := b.exp_lt
    rw [hinf.1]
    unfold EXP_SPECIAL
    omega
  unfold f80Add addParts
  rw [handleNans_none ha hb (fun h => h.2 hinf.2) hnb]
  rw [if_neg hexp]
  exact addOrdered_of_inf ha hinf hother

theorem f80Add_inf_right (ha : a.IsSupported) (hb : b.IsSupported) (hfa : a.IsFinite)
    (hinf : b.IsInf) : f80Add mode a b = f80Inf b.sign := by
  have hexp : a.exp < b.exp := by
    have := a.exp_lt
    rw [hinf.1]
    unfold F80.IsFinite EXP_SPECIAL at *
    omega
  unfold f80Add addParts
  rw [handleNans_none ha hb (fun h => hfa h.1) (fun h => h.2 hinf.2)]
  rw [if_pos hexp]
  exact addOrdered_of_inf hb hinf fun h => hfa h.1.1

end Sign

/-! ## Comparison -/

section Compare

variable {mode : Mode} {a b : F80}

theorem f80Neg_isSupported : (f80Neg b).IsSupported ↔ b.IsSupported := Iff.rfl

theorem f80Neg_val : (f80Neg b).val = -b.val := by
  have hmag : (f80Neg b).mag = b.mag := rfl
  have hsign : (f80Neg b).sign = !b.sign := rfl
  unfold val
  rw [hmag, hsign]
  cases b.sign <;> simp

theorem finite_or_inf (hna : ¬ a.IsNan) : a.IsFinite ∨ a.IsInf := by
  by_cases hexp : a.exp = EXP_SPECIAL
  · exact .inr ⟨hexp, by_contra fun h => hna ⟨hexp, h⟩⟩
  · exact .inl hexp

theorem ext_of_finite (hfa : a.IsFinite) : a.ext = ((a.val : ℝ) : EReal) :=
  if_neg fun h => hfa h.1

theorem ext_of_inf (hinf : a.IsInf) : a.ext = if a.sign then ⊥ else ⊤ := if_pos hinf

theorem not_uncomparable (ha : a.IsSupported) (hb : b.IsSupported) (hna : ¬ a.IsNan)
    (hnb : ¬ b.IsNan) : ¬ f80Uncomparable a b := by
  rintro ((h | h) | h | h)
  · exact h ha
  · exact h hb
  · exact hna h
  · exact hnb h

theorem ext_lt_iff (hfa : a.IsFinite) (hfb : b.IsFinite) : a.ext < b.ext ↔ a.val < b.val := by
  rw [ext_of_finite hfa, ext_of_finite hfb, EReal.coe_lt_coe_iff, Rat.cast_lt]

theorem val_of_zero (hzero : a.IsZero) : a.val = 0 := by
  have hmag : a.mag = 0 := by rw [mag, hzero.2, Nat.cast_zero, zero_mul]
  unfold val
  rw [hmag]
  split <;> simp

theorem f80Inf_not_zero (sign : Bool) : ¬ (f80Inf sign).IsZero := pack_ne_zero _ _ (by decide)

theorem not_zero_of_inf (hinf : a.IsInf) : ¬ a.IsZero := by
  rintro ⟨hexp, -⟩
  rw [hinf.1] at hexp
  cases hexp

theorem eq_inf_of_ext (h : a.IsInf) (h' : b.IsInf) : a.ext = b.ext ↔ a.sign = b.sign := by
  rw [ext_of_inf h, ext_of_inf h']
  cases a.sign <;> cases b.sign <;> simp

/-- **`f80_lt` is the order.** -/
theorem f80Lt_iff (ha : a.IsSupported) (hb : b.IsSupported) (hna : ¬ a.IsNan) (hnb : ¬ b.IsNan) :
    f80Lt mode a b ↔ a.ext < b.ext := by
  unfold f80Lt f80Sub
  rw [if_neg (not_uncomparable ha hb hna hnb)]
  rcases finite_or_inf hna with hfa | hia
  · rw [if_neg fun h => hfa h.1.1]
    rcases finite_or_inf hnb with hfb | hib
    · -- both finite
      rw [ext_lt_iff hfa hfb]
      obtain ⟨hzero, hsign⟩ := f80Add_sign mode ha (f80Neg_isSupported.mpr hb) hfa hfb
      rw [f80Neg_val, ← sub_eq_add_neg] at hzero hsign
      by_cases hzz : a.IsZero ∧ b.IsZero
      · rw [if_pos hzz, val_of_zero hzz.1, val_of_zero hzz.2]
        exact iff_of_false not_false (lt_irrefl _)
      rw [if_neg hzz, hzero, ← sub_neg]
      constructor
      · rintro ⟨hs, hne⟩
        rw [hsign hne] at hs
        exact of_decide_eq_true hs
      intro hlt
      refine ⟨?_, hlt.ne⟩
      rw [hsign hlt.ne]
      exact decide_eq_true hlt
    · rw [if_neg fun h => not_zero_of_inf hib h.2,
        f80Add_inf_right ha (f80Neg_isSupported.mpr hb) hfa hib, ext_of_finite hfa, ext_of_inf hib]
      change (!b.sign) = true ∧ _ ↔ _
      cases b.sign with
      | false => exact iff_of_true ⟨rfl, f80Inf_not_zero _⟩ (EReal.coe_lt_top _)
      | true => exact iff_of_false (fun h => absurd h.1 (by decide)) not_lt_bot
  · by_cases hsame : a.IsInf ∧ b.IsInf ∧ a.sign = b.sign
    · rw [if_pos hsame, (eq_inf_of_ext hia hsame.2.1).mpr hsame.2.2]
      exact iff_of_false not_false (lt_irrefl _)
    have hother : ¬ ((f80Neg b).IsInf ∧ a.sign ≠ (f80Neg b).sign) := by
      rintro ⟨hib, hne⟩
      refine hsame ⟨hia, hib, ?_⟩
      change a.sign ≠ !b.sign at hne
      cases ha : a.sign <;> cases hb : b.sign <;> simp_all
    rw [if_neg hsame, if_neg fun h => not_zero_of_inf hia h.1,
      f80Add_inf_left ha (f80Neg_isSupported.mpr hb) hia hnb hother, ext_of_inf hia]
    rcases hsign : a.sign with _ | _
    · exact iff_of_false (fun h => absurd h.1 (by decide)) not_top_lt
    refine iff_of_true ⟨rfl, f80Inf_not_zero _⟩ ?_
    rw [if_pos rfl, bot_lt_iff_ne_bot]
    rcases finite_or_inf hnb with hfb | hib
    · rw [ext_of_finite hfb]
      exact EReal.coe_ne_bot _
    have hb' : b.sign = false := by
      cases hb : b.sign
      · rfl
      · exact absurd ⟨hia, hib, hsign.trans hb.symm⟩ hsame
    rw [ext_of_inf hib, hb']
    exact top_ne_bot

/-- Finite numbers with one value. -/
theorem val_eq_iff (ha : a.IsSupported) (hb : b.IsSupported) :
    a.val = b.val ↔ (if a.IsZero then false else a.sign) = (if a.IsZero then false else b.sign) ∧
      a.exp = b.exp ∧ a.signif = b.signif := by
  have hmag : a.exp = b.exp → a.signif = b.signif → a.mag = b.mag := by
    intro hexp hsignif
    rw [mag, mag, hexp, hsignif]
  constructor
  · intro h
    by_cases hzero : a.IsZero
    · have hzb : b.IsZero := by
        by_contra hzb
        have hpos := mag_pos hb hzb
        rw [← abs_val, ← h, val_of_zero hzero, abs_zero] at hpos
        exact lt_irrefl _ hpos
      rw [if_pos hzero, if_pos hzero]
      exact ⟨rfl, hzero.1.trans hzb.1.symm, hzero.2.trans hzb.2.symm⟩
    have hpos := mag_pos ha hzero
    have heq : a.mag = b.mag := by rw [← abs_val, ← abs_val, h]
    have hsign : a.sign = b.sign := by
      rw [Bool.eq_iff_iff, ← val_neg_iff hpos, h, val_neg_iff (heq ▸ hpos)]
    rw [if_neg hzero, if_neg hzero, eq_of_mag ha hb hsign heq]
    exact ⟨rfl, rfl, rfl⟩
  · rintro ⟨hsign, hexp, hsignif⟩
    by_cases hzero : a.IsZero
    · rw [val_of_zero hzero, val_of_zero ⟨hexp ▸ hzero.1, hsignif ▸ hzero.2⟩]
    rw [if_neg hzero, if_neg hzero] at hsign
    rw [val, val, hsign, hmag hexp hsignif]

theorem f80Eq_iff (ha : a.IsSupported) (hb : b.IsSupported) (hna : ¬ a.IsNan) (hnb : ¬ b.IsNan) :
    f80Eq a b ↔ a.ext = b.ext := by
  unfold f80Eq
  rw [if_neg (not_uncomparable ha hb hna hnb)]
  rcases finite_or_inf hna with hfa | hia
  · rcases finite_or_inf hnb with hfb | hib
    · rw [ext_of_finite hfa, ext_of_finite hfb, EReal.coe_eq_coe_iff, Rat.cast_inj,
        val_eq_iff ha hb]
    refine iff_of_false (fun h => hfa (h.2.1.trans hib.1)) ?_
    rw [ext_of_finite hfa, ext_of_inf hib]
    split
    · exact EReal.coe_ne_bot _
    · exact EReal.coe_ne_top _
  rw [if_neg (not_zero_of_inf hia), if_neg (not_zero_of_inf hia)]
  rcases finite_or_inf hnb with hfb | hib
  · refine iff_of_false (fun h => hfb (h.2.1.symm.trans hia.1)) ?_
    rw [ext_of_finite hfb, ext_of_inf hia]
    split
    · exact (EReal.coe_ne_bot _).symm
    · exact (EReal.coe_ne_top _).symm
  rw [eq_inf_of_ext hia hib]
  refine and_iff_left ⟨hia.1.trans hib.1.symm, ?_⟩
  rw [signif_of_inf ha hia, signif_of_inf hb hib]

theorem f80Gt_iff (ha : a.IsSupported) (hb : b.IsSupported) (hna : ¬ a.IsNan) (hnb : ¬ b.IsNan) :
    f80Gt mode a b ↔ b.ext < a.ext := by
  unfold f80Gt f80Lte
  rw [f80Lt_iff ha hb hna hnb, f80Eq_iff ha hb hna hnb, ← le_iff_lt_or_eq, not_le]

end Compare

/-- **Comparison is right in every mode**, and exactly one of the three holds. -/
theorem compare_right (mode : Mode) (a b : F80) (ha : a.IsSupported) (hb : b.IsSupported)
    (hna : ¬ a.IsNan) (hnb : ¬ b.IsNan) :
    (f80Lt mode a b ↔ a.ext < b.ext) ∧ (f80Eq a b ↔ a.ext = b.ext) ∧
      (f80Gt mode a b ↔ b.ext < a.ext) ∧
      (f80Lt mode a b ∧ ¬ f80Eq a b ∧ ¬ f80Gt mode a b ∨
        ¬ f80Lt mode a b ∧ f80Eq a b ∧ ¬ f80Gt mode a b ∨
        ¬ f80Lt mode a b ∧ ¬ f80Eq a b ∧ f80Gt mode a b) := by
  rw [f80Lt_iff ha hb hna hnb, f80Eq_iff ha hb hna hnb, f80Gt_iff ha hb hna hnb]
  refine ⟨Iff.rfl, Iff.rfl, Iff.rfl, ?_⟩
  rcases lt_trichotomy a.ext b.ext with hlt | heq | hgt
  · exact .inl ⟨hlt, hlt.ne, hlt.not_gt⟩
  · exact .inr (.inl ⟨heq.not_lt, heq, heq.not_gt⟩)
  · exact .inr (.inr ⟨hgt.not_gt, hgt.ne', hgt⟩)

/-- One is less than three. -/
theorem compare_right_three : one.IsSupported ∧ three.IsSupported ∧ f80Lt .down one three := by
  refine ⟨by decide, by decide, (compare_right .down one three (by decide) (by decide) (by decide)
    (by decide)).1.mpr ?_⟩
  rw [ext_lt_iff (by decide) (by decide), one_val, three_val]
  norm_num

end Ish.Float80
