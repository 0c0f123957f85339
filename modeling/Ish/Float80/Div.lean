import Ish.Float80.Mul

set_option autoImplicit false

/-! # Division

`f80_div` divides the significand of `a`, shifted by 64 bits, by the odd part of the significand of
`b`, and goes on for as many bits as the quotient has leading zeros, with the remainder. The result
is the exact quotient cut to 128 bits, which is then normalized. Three things go wrong.

* The remainder is shifted in 128 bits. If it does not fit, the low half of the quotient is too
  small.
* There is no sticky bit. A quotient just above the middle of two numbers looks as if it were there,
  and is rounded to an even significand. It cannot look like an exact one: a remainder that is left
  after the first 128 bits is a multiple of `2 ^ 63`.
* The quotient 0 is normalized like any other significand, by 128 bits; if the exponent allows that,
  the result is no zero.
-/

namespace Ish.Float80

open Ish.Lib F80

/-- The zeros below the lowest bit, of at most `fuel`. -/
def ctz : ℕ → ℕ → ℕ
  | 0, _ => 0
  | fuel + 1, x => if x % 2 = 1 then 0 else ctz fuel (x / 2) + 1

/-- `__builtin_ctzl`, of a number that is not 0. -/
def ctzl (x : ℕ) : ℕ := ctz 64 x

/-- The significand of a quotient, and the extra bits that it has been computed to. -/
def divSignif (aSignif bSignif : ℕ) : ℕ × ℕ :=
  let signif := aSignif * 2 ^ 64 / bSignif
  let remainder := aSignif * 2 ^ 64 % bSignif
  if signif ≠ 0 then
    let extraBits := u128Clz signif
    (signif * 2 ^ extraBits % 2 ^ 128 ||| remainder * 2 ^ extraBits % 2 ^ 128 / bSignif, extraBits)
  else (signif, 0)

def f80Div (mode : Mode) (a b : F80) : F80 :=
  match handleNans a b with
  | some f => f
  | none =>
    if a.IsInf then if b.IsInf then F80_NAN else f80Inf (a.sign ^^ b.sign)
    else if b.IsInf then pack 0 0 (a.sign ^^ b.sign)
    else if b.IsZero then
      if a.IsZero then F80_NAN.setSign (a.sign ^^ b.sign) else f80Inf (a.sign ^^ b.sign)
    else
      let bTrailing := ctzl b.signif
      let quotient := divSignif a.signif (b.signif / 2 ^ bTrailing)
      (u128NormalizeRound mode quotient.1
        (unbiasDenormal a.exp - unbiasDenormal b.exp + 63 - bTrailing - quotient.2)
        (a.sign ^^ b.sign)).setSign (a.sign ^^ b.sign)

/-! ## The quotient of significands -/

theorem two_pow_ctz_dvd (fuel x : ℕ) : 2 ^ ctz fuel x ∣ x := by
  induction fuel generalizing x with
  | zero => exact one_dvd x
  | succ fuel ih =>
    unfold ctz
    by_cases hodd : x % 2 = 1
    · rw [if_pos hodd]
      exact one_dvd x
    rw [if_neg hodd, pow_succ]
    have heven : x = x / 2 * 2 := by omega
    nth_rewrite 2 [heven]
    exact Nat.mul_dvd_mul_right (ih (x / 2)) 2

theorem ctz_le (fuel x : ℕ) : ctz fuel x ≤ fuel := by
  induction fuel generalizing x with
  | zero => exact le_rfl
  | succ fuel ih =>
    unfold ctz
    have h := ih (x / 2)
    split <;> omega

section Quotient

variable {A B e : ℕ}

/-- The extra bits of a quotient. -/
theorem two_pow_le_quotient (hA : 0 < A) (hA' : A < 2 ^ 64) (hB : 0 < B) (hB' : B < 2 ^ 64) :
    A * 2 ^ 64 / B ≠ 0 ∧ A * 2 ^ 64 / B < 2 ^ 128 := by
  constructor
  · have hle : B ≤ A * 2 ^ 64 :=
      calc B ≤ 1 * 2 ^ 64 := by omega
        _ ≤ A * 2 ^ 64 := Nat.mul_le_mul_right _ hA
    exact (Nat.div_pos hle hB).ne'
  calc A * 2 ^ 64 / B ≤ A * 2 ^ 64 := Nat.div_le_self _ _
    _ < 2 ^ 64 * 2 ^ 64 := Nat.mul_lt_mul_of_pos_right hA' (by decide)
    _ = 2 ^ 128 := by norm_num

/-- The quotient to more bits. -/
theorem mul_div_split (hB : 0 < B) (e : ℕ) :
    A * 2 ^ 64 * 2 ^ e / B = A * 2 ^ 64 / B * 2 ^ e + A * 2 ^ 64 % B * 2 ^ e / B := by
  generalize A * 2 ^ 64 = n
  calc n * 2 ^ e / B = ((n / B * 2 ^ e) * B + n % B * 2 ^ e) / B := by
        congr 1
        calc n * 2 ^ e = (n / B * B + n % B) * 2 ^ e := by rw [Nat.div_add_mod' n B]
          _ = (n / B * 2 ^ e) * B + n % B * 2 ^ e := by ring
    _ = n / B * 2 ^ e + n % B * 2 ^ e / B := by
        rw [add_comm, Nat.add_mul_div_right _ _ hB, add_comm]

theorem divSignif_eq (hA : 0 < A) (hA' : A < 2 ^ 64) (hB : 0 < B) (hB' : B < 2 ^ 64) :
    divSignif A B = (A * 2 ^ 64 / B * 2 ^ u128Clz (A * 2 ^ 64 / B) +
      A * 2 ^ 64 % B * 2 ^ u128Clz (A * 2 ^ 64 / B) % 2 ^ 128 / B, u128Clz (A * 2 ^ 64 / B)) := by
  obtain ⟨hne, hlt⟩ := two_pow_le_quotient hA hA' hB hB'
  obtain ⟨-, hhigh⟩ := u128Clz_spec hne hlt
  unfold divSignif
  dsimp only
  rw [if_pos hne, Nat.mod_eq_of_lt hhigh]
  generalize u128Clz (A * 2 ^ 64 / B) = e
  have hsmall : A * 2 ^ 64 % B * 2 ^ e % 2 ^ 128 / B < 2 ^ e := by
    rw [Nat.div_lt_iff_lt_mul hB]
    calc A * 2 ^ 64 % B * 2 ^ e % 2 ^ 128 ≤ A * 2 ^ 64 % B * 2 ^ e := Nat.mod_le _ _
      _ < B * 2 ^ e := Nat.mul_lt_mul_of_pos_right (Nat.mod_lt _ hB) (Nat.two_pow_pos e)
      _ = 2 ^ e * B := mul_comm _ _
  rw [mul_comm (A * 2 ^ 64 / B), Nat.two_pow_add_eq_or_of_lt hsmall]

/-- A quotient with a remainder is not cut to an exact one. -/
theorem mod_eq_zero_of_mod (hB : B < 2 ^ 64) (hB0 : 0 < B) {N : ℕ} (hN : 2 ^ 64 ∣ N)
    (h : N / B % 2 ^ 64 = 0) : N % B = 0 := by
  have hdvd : 2 ^ 64 ∣ N % B := by
    have hsplit : N % B = N - B * (N / B) := by
      have := Nat.div_add_mod N B
      omega
    rw [hsplit]
    exact Nat.dvd_sub hN (Dvd.dvd.mul_left (Nat.dvd_of_mod_eq_zero h) B)
  exact Nat.eq_zero_of_dvd_of_lt hdvd (lt_trans (Nat.mod_lt N hB0) hB)

/-- **Rounding the cut quotient** is rounding the quotient, but for one just above the middle. -/
theorem divRound_cut_iff {d : Dir} {N : ℕ} (hB : B < 2 ^ 64) (hB0 : 0 < B) (hN : 2 ^ 64 ∣ N) :
    d.divRound (N / B) (2 ^ 64) = d.divRound N (B * 2 ^ 64) ↔
      ¬ (d = .nearest ∧ N % B ≠ 0 ∧ N / B % 2 ^ 65 = 2 ^ 63) := by
  have hquot : N / (B * 2 ^ 64) = N / B / 2 ^ 64 := (Nat.div_div_eq_div_mul N B _).symm
  have hmod : N % (B * 2 ^ 64) = N % B + B * (N / B % 2 ^ 64) := Nat.mod_mul
  have hlt : N % B < B := Nat.mod_lt N hB0
  have hexact := mod_eq_zero_of_mod hB hB0 hN
  have hite : ∀ (P P' : Prop) [Decidable P] [Decidable P'],
      ((if P then 1 else 0) = if P' then 1 else 0) ↔ (P ↔ P') := by
    intro P P' _ _
    by_cases hP : P <;> by_cases hP' : P' <;> simp [hP, hP']
  unfold Dir.divRound
  rw [hquot, hmod, Nat.add_left_cancel_iff, hite]
  generalize N / B = Q at hexact ⊢
  generalize N % B = ρ at hexact hlt ⊢
  cases d with
  | zero => exact iff_of_true Iff.rfl (fun h => nomatch h.1)
  | away =>
    refine iff_of_true ?_ (fun h => nomatch h.1)
    rw [Dir.roundsUp_away, Dir.roundsUp_away, not_iff_not]
    constructor
    · intro hzero
      rw [hexact hzero, hzero]
      rfl
    intro hzero
    have hmul : B * (Q % 2 ^ 64) = 0 := by omega
    exact (Nat.mul_eq_zero.mp hmul).resolve_left hB0.ne'
  | nearest =>
    rw [Dir.roundsUp_nearest, Dir.roundsUp_nearest]
    -- against the middle `2 ^ 63` of the last place
    have hcases : Q % 2 ^ 64 < 2 ^ 63 ∨ Q % 2 ^ 64 = 2 ^ 63 ∨ 2 ^ 63 < Q % 2 ^ 64 := by omega
    rcases hcases with hless | hhalf | hmore
    · have hmul : B * (Q % 2 ^ 64 + 1) ≤ B * 2 ^ 63 := Nat.mul_le_mul_left B hless
      rw [mul_add, mul_one] at hmul
      refine iff_of_true (iff_of_false (by omega) (by omega)) ?_
      rintro ⟨-, -, h⟩
      omega
    · rw [hhalf]
      have hpar : Q % 2 ^ 65 = 2 ^ 63 ↔ ¬ Q / 2 ^ 64 % 2 = 1 := by omega
      simp only [hpar, true_and]
      omega
    have hmul : B * (2 ^ 63 + 1) ≤ B * (Q % 2 ^ 64) := Nat.mul_le_mul_left B hmore
    rw [mul_add, mul_one] at hmul
    refine iff_of_true (iff_of_true (by omega) (by omega)) ?_
    rintro ⟨-, -, h⟩
    omega

/-- A quotient that has lost what does not fit in 128 bits is too small by more than 1 in the last
place. -/
theorem lost_lt {R S : ℕ} (hB : B < 2 ^ 64) (hB0 : 0 < B) (hlost : 2 ^ 128 ≤ R) :
    S + R % 2 ^ 128 / B + 2 ^ 64 < S + R / B := by
  have hstep : R % 2 ^ 128 / B + (2 ^ 64 + 1) ≤ R / B := by
    rw [Nat.le_div_iff_mul_le hB0]
    calc (R % 2 ^ 128 / B + (2 ^ 64 + 1)) * B
        = R % 2 ^ 128 / B * B + (2 ^ 64 + 1) * B := by ring
      _ ≤ R % 2 ^ 128 + (2 ^ 64 + 1) * (2 ^ 64 - 1) :=
          Nat.add_le_add (Nat.div_mul_le_self _ _) (Nat.mul_le_mul_left _ (by omega))
      _ ≤ R := by omega
  omega

/-- The bits of a quotient, and its bounds. -/
theorem quotient_bounds (hA : 0 < A) (hA' : A < 2 ^ 64) (hB : 0 < B) (hB' : B < 2 ^ 64) :
    2 ^ 63 * (B * 2 ^ 64) ≤ A * 2 ^ 64 * 2 ^ u128Clz (A * 2 ^ 64 / B) ∧
      A * 2 ^ 64 * 2 ^ u128Clz (A * 2 ^ 64 / B) < 2 ^ 64 * (B * 2 ^ 64) := by
  obtain ⟨hne, hlt⟩ := two_pow_le_quotient hA hA' hB hB'
  obtain ⟨hlow, hhigh⟩ := u128Clz_spec hne hlt
  have hle : A * 2 ^ 64 / B * B ≤ A * 2 ^ 64 := Nat.div_mul_le_self _ _
  have hdvd : A * 2 ^ 64 < (A * 2 ^ 64 / B + 1) * B := by
    have h := Nat.lt_mul_div_succ (A * 2 ^ 64) hB
    rwa [mul_comm B] at h
  have hc := u128Clz_le hne hlt
  generalize A * 2 ^ 64 / B = q at *
  generalize u128Clz q = e at *
  constructor
  · calc 2 ^ 63 * (B * 2 ^ 64) = 2 ^ 127 * B := by ring
      _ ≤ q * 2 ^ e * B := Nat.mul_le_mul_right B hlow
      _ = q * B * 2 ^ e := by ring
      _ ≤ A * 2 ^ 64 * 2 ^ e := Nat.mul_le_mul_right _ hle
  -- the bound on `q * 2 ^ e` is one on `(q + 1) * 2 ^ e`, as both are multiples of `2 ^ e`
  have hnext : (q + 1) * 2 ^ e ≤ 2 ^ 128 := by
    have hpow : 2 ^ 128 = 2 ^ (128 - e) * 2 ^ e := by
      rw [← pow_add]
      congr 1
      omega
    rw [hpow] at hhigh ⊢
    exact Nat.mul_le_mul_right _ (Nat.lt_of_mul_lt_mul_right hhigh)
  calc A * 2 ^ 64 * 2 ^ e < (q + 1) * B * 2 ^ e :=
        Nat.mul_lt_mul_of_pos_right hdvd (Nat.two_pow_pos e)
    _ = (q + 1) * 2 ^ e * B := by ring
    _ ≤ 2 ^ 128 * B := Nat.mul_le_mul_right B hnext
    _ = 2 ^ 64 * (B * 2 ^ 64) := by ring

/-- The significand of a quotient has 128 bits. -/
theorem divSignif_bounds (hA : 0 < A) (hA' : A < 2 ^ 64) (hB : 0 < B) (hB' : B < 2 ^ 64) :
    2 ^ 127 ≤ (divSignif A B).1 ∧ (divSignif A B).1 < 2 ^ 128 := by
  obtain ⟨hne, hlt⟩ := two_pow_le_quotient hA hA' hB hB'
  obtain ⟨hlow, -⟩ := u128Clz_spec hne hlt
  obtain ⟨-, hhigh⟩ := quotient_bounds hA hA' hB hB'
  rw [divSignif_eq hA hA' hB hB']
  generalize u128Clz (A * 2 ^ 64 / B) = e at *
  constructor
  · exact le_trans hlow (Nat.le_add_right _ _)
  calc A * 2 ^ 64 / B * 2 ^ e + A * 2 ^ 64 % B * 2 ^ e % 2 ^ 128 / B
      ≤ A * 2 ^ 64 / B * 2 ^ e + A * 2 ^ 64 % B * 2 ^ e / B :=
        Nat.add_le_add_left (Nat.div_le_div_right (Nat.mod_le _ _)) _
    _ = A * 2 ^ 64 * 2 ^ e / B := (mul_div_split hB e).symm
    _ < 2 ^ 128 := by
        rw [Nat.div_lt_iff_lt_mul hB]
        calc A * 2 ^ 64 * 2 ^ e < 2 ^ 64 * (B * 2 ^ 64) := hhigh
          _ = 2 ^ 128 * B := by ring

/-- **When the significand of a quotient is rounded like the quotient.** -/
theorem divRound_divSignif_iff {d : Dir} (hA : 0 < A) (hA' : A < 2 ^ 64) (hB : 0 < B)
    (hB' : B < 2 ^ 64) (he : e = u128Clz (A * 2 ^ 64 / B)) :
    d.divRound (divSignif A B).1 (2 ^ 64) = d.divRound (A * 2 ^ 64 * 2 ^ e) (B * 2 ^ 64) ↔
      A * 2 ^ 64 % B * 2 ^ e < 2 ^ 128 ∧
        ¬ (d = .nearest ∧ A * 2 ^ 64 * 2 ^ e % B ≠ 0 ∧
          A * 2 ^ 64 * 2 ^ e / B % 2 ^ 65 = 2 ^ 63) := by
  have hdvd : 2 ^ 64 ∣ A * 2 ^ 64 * 2 ^ e := Dvd.dvd.mul_right (Nat.dvd_mul_left _ _) _
  have hsplit := mul_div_split (A := A) hB e
  rw [divSignif_eq hA hA' hB hB', ← he]
  by_cases hfits : A * 2 ^ 64 % B * 2 ^ e < 2 ^ 128
  · rw [Nat.mod_eq_of_lt hfits, ← hsplit, divRound_cut_iff hB' hB hdvd]
    exact (and_iff_right hfits).symm
  refine iff_of_false ?_ (fun h => hfits h.1)
  have hlost := lost_lt (S := A * 2 ^ 64 / B * 2 ^ e) hB' hB (not_lt.mp hfits)
  rw [← hsplit] at hlost
  apply ne_of_lt
  calc d.divRound _ (2 ^ 64) < d.divRound (A * 2 ^ 64 * 2 ^ e / B) (2 ^ 64) :=
        Dir.divRound_lt (by decide) hlost
    _ = d.divRound (A * 2 ^ 64 * 2 ^ e / B * B) (2 ^ 64 * B) :=
        (Dir.divRound_mul_right d _ _ hB).symm
    _ ≤ d.divRound (A * 2 ^ 64 * 2 ^ e) (2 ^ 64 * B) :=
        Dir.divRound_mono (Nat.div_mul_le_self _ _)
    _ = d.divRound (A * 2 ^ 64 * 2 ^ e) (B * 2 ^ 64) := by rw [mul_comm (2 ^ 64) B]

end Quotient

/-! ## The result -/

section Div

variable {mode : Mode} {a b : F80}

/-- When a quotient of finite numbers is right. -/
def DivRight (mode : Mode) (a b : F80) : Prop :=
  let B := b.signif / 2 ^ ctzl b.signif
  if a.signif = 0 then -65 < unbiasDenormal b.exp + ctzl b.signif
  else
    -- the extra bits, the remainder before them, and the shifted significand
    let e := 127 - Nat.log2 (a.signif * 2 ^ 64 / B)
    let N := a.signif * 2 ^ 64 * 2 ^ e
    a.signif * 2 ^ 64 % B * 2 ^ e < 2 ^ 128 ∧
      ¬ (mode = .nearest ∧ N % B ≠ 0 ∧ N / B % 2 ^ 65 = 2 ^ 63)

theorem f80Div_of_finite (ha : a.IsSupported) (hb : b.IsSupported) (hfa : a.IsFinite)
    (hfb : b.IsFinite) (hzb : ¬ b.IsZero) :
    f80Div mode a b = u128NormalizeRound mode
      (divSignif a.signif (b.signif / 2 ^ ctzl b.signif)).1
      (unbiasDenormal a.exp - unbiasDenormal b.exp + 63 - ctzl b.signif -
        (divSignif a.signif (b.signif / 2 ^ ctzl b.signif)).2)
      (a.sign ^^ b.sign) := by
  unfold f80Div
  rw [handleNans_of_finite ha hb hfa hfb]
  rw [if_neg fun h => hfa h.1, if_neg fun h => hfb h.1, if_neg hzb, setSign_normalizeRound]

/-- The exact quotient, by the odd part of the divisor. -/
theorem mag_div (a b : F80) (hzb : 0 < b.signif) (e : ℕ) :
    a.mag / b.mag = ((a.signif * 2 ^ 64 * 2 ^ e : ℕ) : ℚ) /
      (b.signif / 2 ^ ctzl b.signif * 2 ^ 64 : ℕ) *
        2 ^ (unbiasDenormal a.exp - unbiasDenormal b.exp + 63 - ctzl b.signif - e - 63) := by
  obtain ⟨B, hB⟩ := two_pow_ctz_dvd 64 b.signif
  have hdiv : b.signif / 2 ^ ctzl b.signif = B := by
    nth_rewrite 1 [hB]
    exact Nat.mul_div_cancel_left B (Nat.two_pow_pos _)
  have hB' : (b.signif : ℚ) = 2 ^ ctzl b.signif * B := by
    nth_rewrite 1 [hB]
    push_cast
    rfl
  have hexp : unbiasDenormal a.exp - unbiasDenormal b.exp + 63 - ctzl b.signif - e - 63
      = (unbiasDenormal a.exp - 63) - (unbiasDenormal b.exp - 63) - (ctzl b.signif : ℕ)
        - (e : ℕ) := by
    ring
  have hB0 : (B : ℚ) ≠ 0 := by
    rintro h0
    rw [h0, mul_zero, Nat.cast_eq_zero] at hB'
    exact hzb.ne' hB'
  rw [hdiv, hexp, zpow_sub₀ two_ne_zero, zpow_sub₀ two_ne_zero, zpow_sub₀ two_ne_zero,
    zpow_natCast, zpow_natCast, mag, mag, hB']
  have hpa : (2 : ℚ) ^ (unbiasDenormal a.exp - 63) ≠ 0 := zpow_ne_zero _ two_ne_zero
  have hpb : (2 : ℚ) ^ (unbiasDenormal b.exp - 63) ≠ 0 := zpow_ne_zero _ two_ne_zero
  generalize (2 : ℚ) ^ (unbiasDenormal a.exp - 63) = p at hpa
  generalize (2 : ℚ) ^ (unbiasDenormal b.exp - 63) = q at hpb
  push_cast
  field_simp

/-- The quotient of a zero. -/
theorem div_zero_iff (ha : a.IsSupported) (hA : a.signif = 0) (hfa : a.IsFinite)
    (hb : b.IsSupported) (hfb : b.IsFinite) (hzb : ¬ b.IsZero) :
    (f80Div mode a b).IsZero ↔ -65 < unbiasDenormal b.exp + ctzl b.signif := by
  have hsig : divSignif a.signif (b.signif / 2 ^ ctzl b.signif) = (0, 0) := by
    unfold divSignif
    rw [hA, zero_mul, Nat.zero_div]
    rfl
  have hua : unbiasDenormal a.exp = -16382 := by
    rw [ha.exp_eq_zero (by omega)]
    rfl
  have hub := unbiasDenormal_eq b.exp
  have hblt := b.exp_lt
  have hct : ctzl b.signif ≤ 64 := ctz_le 64 b.signif
  rw [f80Div_of_finite ha hb hfa hfb hzb, hsig, u128NormalizeRound_zero, hua]
  rw [Nat.cast_zero, wrap32_eq (by omega) (by omega)]
  generalize ht : -16382 - unbiasDenormal b.exp + 63 - (ctzl b.signif : ℤ) - 0 - 128 = t
  by_cases hsmall : t < -16382
  · rw [if_pos hsmall]
    exact iff_of_true ⟨rfl, rfl⟩ (by omega)
  rw [if_neg hsmall, if_neg (by omega)]
  refine iff_of_false ?_ (by omega)
  rintro ⟨hzero, -⟩
  change ((t + 16383) % 2 ^ 15).toNat = 0 at hzero
  omega

/-- **Division is right** exactly when the remainder fits and a quotient just above the middle is
not rounded to the nearest number, and for 0 when there is no room for normalizing. -/
theorem f80Div_correct_iff (mode : Mode) (a b : F80) (ha : a.IsSupported) (hb : b.IsSupported)
    (hfa : a.IsFinite) (hfb : b.IsFinite) (hzb : ¬ b.IsZero)
    (hrange : a.val / b.val = 0 ∨
      minNormal ≤ |a.val / b.val| ∧ |a.val / b.val| < 2 ^ extended.emax) :
    CorrectlyRounded mode (a.val / b.val) (f80Div mode a b) ↔ DivRight mode a b := by
  have hbpos := mag_pos hb hzb
  unfold DivRight
  by_cases hA : a.signif = 0
  · have hval : a.val / b.val = 0 := by
      have hmag : a.mag = 0 := by rw [mag, hA, Nat.cast_zero, zero_mul]
      rw [← abs_eq_zero, abs_div, abs_val, hmag, zero_div]
    unfold CorrectlyRounded
    rw [if_pos hA, if_pos hval]
    exact div_zero_iff ha hA hfa hb hfb hzb
  have hza : ¬ a.IsZero := fun h => hA h.2
  have hapos := mag_pos ha hza
  have hsign : decide (a.val / b.val < 0) = (a.sign ^^ b.sign) := by
    rw [Bool.eq_iff_iff, decide_eq_true_iff, div_neg_iff, val_neg_iff hapos,
      val_neg_iff hbpos, val_pos_iff hapos, val_pos_iff hbpos]
    cases a.sign <;> cases b.sign <;> decide
  obtain ⟨hmin, hmax⟩ := hrange.resolve_left fun h => by
    rw [← abs_eq_zero, abs_div, abs_val, abs_val] at h
    exact (div_pos hapos hbpos).ne' h
  have hA0 : 0 < a.signif := Nat.pos_of_ne_zero hA
  have hb0 : 0 < b.signif := signif_pos hb hzb
  have hB0 : 0 < b.signif / 2 ^ ctzl b.signif :=
    Nat.div_pos (Nat.le_of_dvd hb0 (two_pow_ctz_dvd 64 _)) (Nat.two_pow_pos _)
  have hB : b.signif / 2 ^ ctzl b.signif < 2 ^ 64 :=
    lt_of_le_of_lt (Nat.div_le_self _ _) b.signif_lt
  have hm : 0 < b.signif / 2 ^ ctzl b.signif * 2 ^ 64 := Nat.mul_pos hB0 (by decide)
  have hx := mag_div a b hb0 (u128Clz (a.signif * 2 ^ 64 / (b.signif / 2 ^ ctzl b.signif)))
  rw [← abs_val, ← abs_val, ← abs_div] at hx
  have hclz := u128Clz_eq (two_pow_le_quotient hA0 a.signif_lt hB0 hB).1
    (two_pow_le_quotient hA0 a.signif_lt hB0 hB).2
  have hdir : mode = .nearest ↔ mode.dir (a.sign ^^ b.sign) = .nearest := nearest_iff
  have hiff := divRound_divSignif_iff (d := mode.dir (a.sign ^^ b.sign)) hA0 a.signif_lt hB0 hB rfl
  have hsnd : (divSignif a.signif (b.signif / 2 ^ ctzl b.signif)).2
      = u128Clz (a.signif * 2 ^ 64 / (b.signif / 2 ^ ctzl b.signif)) := by
    rw [divSignif_eq hA0 a.signif_lt hB0 hB]
  obtain ⟨hlow, hhigh⟩ := quotient_bounds hA0 a.signif_lt hB0 hB
  obtain ⟨hlow', hhigh'⟩ := divSignif_bounds hA0 a.signif_lt hB0 hB
  rw [if_neg hA, ← hclz, f80Div_of_finite ha hb hfa hfb hzb, hsnd]
  simp only [hdir]
  rw [← hiff]
  generalize u128Clz (a.signif * 2 ^ 64 / (b.signif / 2 ^ ctzl b.signif)) = e at *
  generalize b.signif / 2 ^ ctzl b.signif = B at *
  generalize
    unbiasDenormal a.exp - unbiasDenormal b.exp + 63 - (ctzl b.signif : ℤ) - (e : ℤ) = t at *
  have ht : -16382 ≤ t := by
    have hlt := lt_of_le_of_lt hmin (lt_zpow_of_normal hm hx hhigh)
    rw [minNormal, zpow_lt_zpow_iff_right₀ one_lt_two, unbias_min] at hlt
    omega
  have ht' : t ≤ 16383 := by
    have hlt := lt_of_le_of_lt (zpow_le_of_normal hm hx hlow) hmax
    rw [zpow_lt_zpow_iff_right₀ one_lt_two] at hlt
    have hemax : extended.emax = 16384 := rfl
    omega
  rw [correctlyRounded_iff hm hx hlow hhigh ht ht', hsign,
    u128NormalizeRound_of_full mode _ hlow' hhigh' ht ht']
  exact enc_inj (Dir.divRound_le (by decide) hhigh'.le) (Dir.divRound_le hm hhigh.le) ht ht'

/-- One third, to the nearest number. -/
theorem f80Div_correct_iff_third :
    DivRight .nearest one three ∧
      CorrectlyRounded .nearest (one.val / three.val) (f80Div .nearest one three) := by
  have hright : DivRight .nearest one three := by
    unfold DivRight
    decide +kernel
  have hrange : minNormal ≤ |one.val / three.val| ∧ |one.val / three.val| < 2 ^ extended.emax := by
    have habs : |one.val / three.val| = 1 / 3 := by
      rw [one_val, three_val, abs_of_pos (by norm_num)]
    rw [habs]
    constructor
    · calc minNormal ≤ (2 : ℚ) ^ (-2 : ℤ) := zpow_le_zpow_right₀ one_le_two (by decide)
        _ ≤ 1 / 3 := by norm_num
    calc (1 / 3 : ℚ) < 1 := by norm_num
      _ ≤ 2 ^ extended.emax := one_le_zpow₀ one_le_two (by decide)
  exact ⟨hright, (f80Div_correct_iff .nearest one three (by decide) (by decide) (by decide)
    (by decide) (by decide) (.inr hrange)).mpr hright⟩

def zero : F80 := pack 0 0 false

/-- The number `2 ^ (-128)`. -/
def tiny : F80 := pack (2 ^ 63) 0x3f7f false

/-- Two numbers whose quotient is just above the middle of two others. -/
def nearTie : F80 × F80 :=
  (pack 0xdb69d58344f2c389 0x3fff false, pack 0xde3bf690ae784f77 0x3fff false)

theorem nearTie_div : |nearTie.1.val / nearTie.2.val| =
    ((0xdb69d58344f2c389 * 2 ^ 64 * 2 ^ 64 : ℕ) : ℚ) / (0xde3bf690ae784f77 * 2 ^ 64 : ℕ) *
      2 ^ ((-1 : ℤ) - 63) := by
  have hct : ctzl nearTie.2.signif = 0 := by decide +kernel
  have hA : nearTie.1.signif = 0xdb69d58344f2c389 := by decide +kernel
  have hB : nearTie.2.signif / 2 ^ 0 = 0xde3bf690ae784f77 := by decide +kernel
  have hexp : unbiasDenormal nearTie.1.exp - unbiasDenormal nearTie.2.exp + 63 - (0 : ℕ) - (64 : ℕ)
      - 63 = (-1 : ℤ) - 63 := by decide +kernel
  rw [abs_div, abs_val, abs_val, mag_div nearTie.1 nearTie.2 (by decide) 64, hct, hA, hB, hexp]

/-- Zero divided by `2 ^ (-128)` is no zero. Of the two numbers whose quotient is just above the
middle, the result is the lower neighbour. -/
theorem f80Div_wrong :
    (zero.val / tiny.val = 0 ∧
      ¬ CorrectlyRounded .nearest (zero.val / tiny.val) (f80Div .nearest zero tiny)) ∧
    minNormal ≤ |nearTie.1.val / nearTie.2.val| ∧
      |nearTie.1.val / nearTie.2.val| < 2 ^ extended.emax ∧
      ¬ CorrectlyRounded .nearest (nearTie.1.val / nearTie.2.val)
        (f80Div .nearest nearTie.1 nearTie.2) := by
  have hzero : zero.val = 0 := by
    change zero.mag = 0
    rw [mag, show zero.signif = 0 from rfl, Nat.cast_zero, zero_mul]
  refine ⟨⟨?_, ?_⟩, ?_, ?_, ?_⟩
  · rw [hzero, zero_div]
  · unfold CorrectlyRounded
    rw [hzero, zero_div, if_pos rfl]
    decide +kernel
  · calc minNormal ≤ (2 : ℚ) ^ (-1 : ℤ) := zpow_le_zpow_right₀ one_le_two (by decide)
      _ ≤ _ := zpow_le_of_normal (by decide) nearTie_div (by decide)
  · calc _ < (2 : ℚ) ^ ((-1 : ℤ) + 1) := lt_zpow_of_normal (by decide) nearTie_div (by decide)
      _ ≤ 2 ^ extended.emax := zpow_le_zpow_right₀ one_le_two (by decide)
  have hpos : decide (nearTie.1.val / nearTie.2.val < 0) = false :=
    decide_eq_false (not_lt.mpr (div_nonneg (mag_nonneg _) (mag_nonneg _)))
  rw [correctlyRounded_iff (by decide) nearTie_div (by decide) (by decide) (by decide) (by decide),
    hpos]
  decide +kernel

end Div

end Ish.Float80
