import Ish.Float80.Correct

set_option autoImplicit false

/-! # Addition

`f80_add` brings the smaller significand to the exponent of the larger with 64 extra bits, rounds
what does not fit, adds or subtracts, and normalizes. `alignedSum` is the value that is normalized.
It is the exact sum if nothing is rounded by the shift. Otherwise the two values have to be rounded
alike. They are not

* for a gap of 65 bits in some cases near a tie, since `u128_shift_right_round` has already rounded
  the smaller significand to the tie;
* for a denormal number added to a normal one: the shift is the difference of the two exponent
  fields, which is one too many, so the denormal number is halved; and when all of its bits are
  shifted out but not by more than 127, the shift away from zero loses them.

The two values are compared in eighths of the last place with a sticky bit (`roundEighths`), where
each case is arithmetic on small numbers.
-/

namespace Ish.Float80

open Ish.Lib.Dir Ish.Lib F80

/-- `f80_add` when the exponents are in order: the number that it returns at once, or the
significand, the exponent and the sign that it normalizes. -/
def addOrdered (mode : Mode) (a b : F80) : F80 ⊕ ℕ × ℤ × Bool :=
  -- if `a` is negative both signs are flipped
  let flipped := a.sign
  let bSign := b.sign ^^ flipped
  let aSignif := a.signif * 2 ^ 64
  let bSignif :=
    u128ShiftRightRound mode (b.signif * 2 ^ 64) (a.exp - b.exp) (bSign ^^ flipped)
  let exp := unbiasDenormal a.exp
  if bSign = false then
    if a.IsInf then .inr (aSignif, exp, flipped)
    else if 2 ^ 128 ≤ aSignif + bSignif then
      .inr (u128ShiftRightRound mode ((aSignif + bSignif) % 2 ^ 128) 1 false ||| 2 ^ 127, exp + 1,
        flipped)
    else .inr (aSignif + bSignif, exp, flipped)
  else if a.IsInf ∧ b.IsInf then .inl F80_NAN
  else
    let bSignif := if mode = .chop ∧ bSignif = 0 ∧ b.signif ≠ 0 then 1 else bSignif
    let bSignif := if a.IsInf then 0 else bSignif
    let signif := if bSignif ≤ aSignif then aSignif - bSignif else bSignif - aSignif
    let sign := decide (aSignif < bSignif)
    if signif = 0 ∧ aSignif ≠ 0 ∧ mode = .down then .inl (pack 0 0 true)
    else if signif = 0 then .inl (pack 0 0 false)
    else .inr (signif, exp, sign ^^ flipped)

def addParts (mode : Mode) (a b : F80) : F80 ⊕ ℕ × ℤ × Bool :=
  match handleNans a b with
  | some f => .inl f
  | none => if a.exp < b.exp then addOrdered mode b a else addOrdered mode a b

/-- The end of `f80_add`. -/
def finishAdd (mode : Mode) : F80 ⊕ ℕ × ℤ × Bool → F80
  | .inl f => f
  | .inr (signif, exp, sign) => u128NormalizeRound mode signif exp sign

def f80Add (mode : Mode) (a b : F80) : F80 := finishAdd mode (addParts mode a b)

def f80Neg (f : F80) : F80 := f.setSign (!f.sign)

def f80Sub (mode : Mode) (a b : F80) : F80 := f80Add mode a (f80Neg b)

/-! ## The sum that is normalized -/

/-- The significand of `b` at the exponent of `a`. -/
def aligned (mode : Mode) (a b : F80) : ℕ :=
  u128ShiftRightRound mode (b.signif * 2 ^ 64) (a.exp - b.exp) b.sign

/-- What is subtracted from `a`. -/
def subtracted (mode : Mode) (a b : F80) : ℕ :=
  if mode = .chop ∧ aligned mode a b = 0 ∧ b.signif ≠ 0 then 1 else aligned mode a b

def signed (sign : Bool) (x : ℚ) : ℚ := if sign then -x else x

def alignedSum (mode : Mode) (a b : F80) : ℚ :=
  signed a.sign
    ((a.signif * 2 ^ 64 +
        if a.sign = b.sign then (aligned mode a b : ℚ) else -subtracted mode a b) *
      2 ^ (unbiasDenormal a.exp - 127))

section Add

variable {mode : Mode} {a b : F80}

theorem addParts_of_finite (ha : a.IsSupported) (hb : b.IsSupported) (hfa : a.IsFinite)
    (hfb : b.IsFinite) :
    addParts mode a b = if a.exp < b.exp then addOrdered mode b a else addOrdered mode a b := by
  unfold addParts
  rw [handleNans_of_finite ha hb hfa hfb]

/-- Adding to a finite number with the same sign. -/
theorem addOrdered_of_same (hfa : a.IsFinite) (hsign : a.sign = b.sign) :
    addOrdered mode a b =
      if 2 ^ 128 ≤ a.signif * 2 ^ 64 + aligned mode a b then
        .inr (u128ShiftRightRound mode ((a.signif * 2 ^ 64 + aligned mode a b) % 2 ^ 128) 1 false
          ||| 2 ^ 127, unbiasDenormal a.exp + 1, a.sign)
      else .inr (a.signif * 2 ^ 64 + aligned mode a b, unbiasDenormal a.exp, a.sign) := by
  have hinf : ¬ a.IsInf := fun h => hfa h.1
  have hsame : (b.sign ^^ a.sign) = false := by rw [hsign, Bool.xor_self]
  have hback : (false ^^ a.sign) = b.sign := by rw [hsign, Bool.false_xor]
  unfold addOrdered aligned
  dsimp only
  rw [hsame, hback, if_pos rfl, if_neg hinf]

/-- Subtracting from a finite number. -/
theorem addOrdered_of_opposite (hfa : a.IsFinite) (hsign : a.sign ≠ b.sign) :
    addOrdered mode a b =
      if a.signif * 2 ^ 64 = subtracted mode a b then
        .inl (pack 0 0 (decide (a.signif ≠ 0 ∧ mode = .down)))
      else .inr (if subtracted mode a b ≤ a.signif * 2 ^ 64 then
          a.signif * 2 ^ 64 - subtracted mode a b else subtracted mode a b - a.signif * 2 ^ 64,
        unbiasDenormal a.exp, decide (a.signif * 2 ^ 64 < subtracted mode a b) ^^ a.sign) := by
  have hinf : ¬ a.IsInf := fun h => hfa h.1
  have hopp : (b.sign ^^ a.sign) = true := by
    cases ha : a.sign <;> cases hb : b.sign <;> simp_all
  have hback : (true ^^ a.sign) = b.sign := by
    cases ha : a.sign <;> cases hb : b.sign <;> simp_all
  have hzero : a.signif * 2 ^ 64 ≠ 0 ↔ a.signif ≠ 0 := by omega
  unfold addOrdered subtracted aligned
  dsimp only
  rw [hopp, hback, if_neg (by decide), if_neg fun h => hinf h.1, if_neg hinf]
  generalize (if mode = .chop
      ∧ u128ShiftRightRound mode (b.signif * 2 ^ 64) (a.exp - b.exp) b.sign = 0
      ∧ b.signif ≠ 0 then 1
    else u128ShiftRightRound mode (b.signif * 2 ^ 64) (a.exp - b.exp) b.sign) = w
  by_cases heq : a.signif * 2 ^ 64 = w
  · have hdiff : (if w ≤ a.signif * 2 ^ 64 then a.signif * 2 ^ 64 - w
        else w - a.signif * 2 ^ 64) = 0 := by
      split <;> omega
    rw [if_pos heq, hdiff]
    by_cases hdown : a.signif ≠ 0 ∧ mode = .down
    · rw [if_pos ⟨rfl, hzero.mpr hdown.1, hdown.2⟩, decide_eq_true hdown]
    · rw [if_neg fun h => hdown ⟨hzero.mp h.2.1, h.2.2⟩, if_pos rfl, decide_eq_false hdown]
  have hdiff : (if w ≤ a.signif * 2 ^ 64 then a.signif * 2 ^ 64 - w
      else w - a.signif * 2 ^ 64) ≠ 0 := by
    split <;> omega
  rw [if_neg heq, if_neg fun h => hdiff h.1, if_neg hdiff]

/-! ### The shifted significand -/

theorem aligned_of_le (hgap : a.exp - b.exp ≤ 64) :
    aligned mode a b = b.signif * 2 ^ (64 - (a.exp - b.exp)) := by
  have hsplit :
      b.signif * 2 ^ 64 = b.signif * 2 ^ (64 - (a.exp - b.exp)) * 2 ^ (a.exp - b.exp) := by
    rw [mul_assoc, ← pow_add, Nat.sub_add_cancel hgap]
  unfold aligned
  rw [u128ShiftRightRound_of_le (by omega), hsplit, divRound_mul_self (Nat.two_pow_pos _)]

/-- Only the guard bit is looked at, since the rest is cut to 64 bits that are all 0. -/
theorem aligned_of_mid (hlow : 65 ≤ a.exp - b.exp) (hhigh : a.exp - b.exp ≤ 127) :
    aligned mode a b = (mode.dir b.sign).divRound (b.signif / 2 ^ (a.exp - b.exp - 65)) 2 := by
  obtain ⟨k, hk⟩ : ∃ k, a.exp - b.exp = k + 65 := ⟨a.exp - b.exp - 65, by omega⟩
  have hguard : b.signif * 2 ^ 64 / 2 ^ (k + 64) = b.signif / 2 ^ k := by
    rw [pow_add, Nat.mul_div_mul_right _ _ (by decide)]
  have hrest : b.signif * 2 ^ 64 % 2 ^ (k + 64) % 2 ^ 64 = 0 := by
    rw [pow_add, Nat.mul_mod_mul_right, Nat.mul_mod_left]
  have hquot : b.signif * 2 ^ 64 / 2 ^ (k + 65) = b.signif / 2 ^ k / 2 := by
    rw [← hguard, Nat.div_div_eq_div_mul, ← pow_succ]
  have hone : u128ShiftRightRound mode (b.signif / 2 ^ k) 1 b.sign
      = (mode.dir b.sign).divRound (b.signif / 2 ^ k) (2 ^ 1) :=
    u128ShiftRightRound_of_le (by decide)
  rw [pow_one] at hone
  unfold aligned
  rw [hk, Nat.add_sub_cancel, ← hone]
  unfold u128ShiftRightRound
  rw [if_neg (show ¬ k + 65 = 0 by omega), if_neg (show ¬ 127 < k + 65 by omega),
    if_neg (show ¬ 1 = 0 by decide), if_neg (show ¬ 127 < 1 by decide),
    show k + 65 - 1 = k + 64 from rfl, hguard, hrest, hquot, Nat.sub_self, pow_zero, Nat.div_one,
    Nat.mod_one, Nat.zero_mod, pow_one]

theorem aligned_of_big (hgap : 127 < a.exp - b.exp) :
    aligned mode a b = if mode.dir b.sign = .away ∧ b.signif ≠ 0 then 1 else 0 := by
  have hzero : b.signif * 2 ^ 64 ≠ 0 ↔ b.signif ≠ 0 := by omega
  unfold aligned u128ShiftRightRound
  rw [if_neg (by omega), if_pos hgap]
  simp only [roundAwayFromZero_iff, hzero]

/-- Far below `a` there are at most 63 bits left, or the next power of two. -/
theorem aligned_le (mode : Mode) (hgap : 65 ≤ a.exp - b.exp) : aligned mode a b ≤ 2 ^ 63 := by
  by_cases hbig : 127 < a.exp - b.exp
  · rw [aligned_of_big hbig]
    split <;> omega
  have hlt := b.signif_lt
  have hdiv : b.signif / 2 ^ (a.exp - b.exp - 65) ≤ b.signif := Nat.div_le_self _ _
  rw [aligned_of_mid hgap (by omega)]
  exact divRound_le (by decide) (by omega)

/-! ### Normalizing is right for the aligned sum -/

theorem abs_signed (sign : Bool) (x : ℚ) : |signed sign x| = |x| := by
  cases sign
  · rfl
  · exact abs_neg x

theorem signed_neg_iff (sign : Bool) {x : ℚ} (hx : 0 < x) : decide (signed sign x < 0) = sign := by
  cases sign
  · exact decide_eq_false hx.not_gt
  · exact decide_eq_true (neg_lt_zero.mpr hx)

theorem signed_not (sign : Bool) (x : ℚ) : signed (!sign) x = signed sign (-x) := by
  cases sign
  · rfl
  · exact (neg_neg x).symm

theorem signed_add (sign : Bool) (x y : ℚ) :
    signed sign (x + y) = signed sign x + signed sign y := by
  cases sign
  · rfl
  · exact neg_add x y

theorem exp_bounds (hfa : a.IsFinite) :
    -16382 ≤ unbiasDenormal a.exp ∧ unbiasDenormal a.exp ≤ 16383 := by
  have hlt := a.exp_lt
  unfold F80.IsFinite EXP_SPECIAL at hfa
  rw [unbiasDenormal_eq]
  omega

/-- A carry loses no bit. -/
theorem carry_eq (hcarry : 2 ^ 128 ≤ a.signif * 2 ^ 64 + aligned mode a b) :
    ∃ n, a.signif * 2 ^ 64 + aligned mode a b = 2 * n ∧ n < 2 ^ 128 ∧
      u128ShiftRightRound mode ((a.signif * 2 ^ 64 + aligned mode a b) % 2 ^ 128) 1 false |||
          2 ^ 127
        = n := by
  have hA := a.signif_lt
  have hB := b.signif_lt
  have hgap : a.exp - b.exp ≤ 63 := by
    by_contra hgap
    by_cases h64 : a.exp - b.exp = 64
    · rw [aligned_of_le h64.le, h64, Nat.sub_self, pow_zero, mul_one] at hcarry
      omega
    have hle := aligned_le mode (show 65 ≤ a.exp - b.exp by omega)
    omega
  obtain ⟨k, hk⟩ : ∃ k, 64 - (a.exp - b.exp) = k + 1 := ⟨63 - (a.exp - b.exp), by omega⟩
  have heven : aligned mode a b = 2 * (b.signif * 2 ^ k) := by
    rw [aligned_of_le (by omega), hk, pow_succ]
    ring
  have hle : aligned mode a b ≤ b.signif * 2 ^ 64 := by
    rw [aligned_of_le (by omega)]
    exact Nat.mul_le_mul_left _ (Nat.pow_le_pow_right two_pos (Nat.sub_le _ _))
  rw [heven] at hcarry hle ⊢
  generalize b.signif * 2 ^ k = w at hcarry hle
  refine ⟨a.signif * 2 ^ 63 + w, by omega, by omega, ?_⟩
  have hmod :
      (a.signif * 2 ^ 64 + 2 * w) % 2 ^ 128 = (a.signif * 2 ^ 63 + w - 2 ^ 127) * 2 ^ 1 := by
    omega
  have hlow : a.signif * 2 ^ 63 + w - 2 ^ 127 < 2 ^ 127 := by omega
  have hor := Nat.two_pow_add_eq_or_of_lt hlow 1
  rw [mul_one] at hor
  rw [hmod, u128ShiftRightRound_of_le (by decide), divRound_mul_self (by decide), Nat.or_comm,
    ← hor]
  omega

theorem normalize_signed_iff {signif : ℕ} {exp : ℤ} {sign : Bool} (hsignif : signif ≠ 0)
    (hlt : signif < 2 ^ 128) (hexp : exp < 2 ^ 31)
    (hmin : minNormal ≤ |signed sign (signif * 2 ^ (exp - 127))|) :
    CorrectlyRounded mode (signed sign (signif * 2 ^ (exp - 127)))
        (u128NormalizeRound mode signif exp sign) ↔
      ¬ (signif = 2 ^ 127 ∧ 16383 < exp ∧ mode.dir sign = .zero) := by
  have hpos : (0 : ℚ) < signif * 2 ^ (exp - 127) := by
    have : (0 : ℚ) < signif := by exact_mod_cast Nat.pos_of_ne_zero hsignif
    positivity
  have habs : |signed sign (signif * 2 ^ (exp - 127))| = signif * 2 ^ (exp - 127) := by
    rw [abs_signed, abs_of_pos hpos]
  have h := normalizeRound_correct_iff mode hsignif hlt habs hmin hexp
  rwa [signed_neg_iff sign hpos] at h

theorem two_pow_128_mul_zpow (e : ℤ) : (2 : ℚ) ^ 128 * 2 ^ (e - 127) = 2 ^ (e + 1) :=
  (two_zpow_eq_mul 128 (by push_cast; ring)).symm

/-- A significand and an exponent that is one too big stand for `2 ^ 16384` in one way. -/
theorem mul_zpow_eq_emax_iff {n : ℕ} {e : ℤ} (he : e ≤ 16383 ∨ e = 16384) (hn : n < 2 ^ 128) :
    (n : ℚ) * 2 ^ (e - 127) = 2 ^ extended.emax ↔ n = 2 ^ 127 ∧ 16383 < e := by
  have hpow : (0 : ℚ) < 2 ^ (e - 127) := zpow_pos two_pos _
  have htop : (2 : ℚ) ^ 127 * 2 ^ ((16384 : ℤ) - 127) = 2 ^ extended.emax :=
    (two_zpow_eq_mul 127 rfl).symm
  rcases he with he | rfl
  · refine iff_of_false (ne_of_lt ?_) fun h => by omega
    have hn' : (n : ℚ) < 2 ^ 128 := by exact_mod_cast hn
    calc (n : ℚ) * 2 ^ (e - 127) < 2 ^ 128 * 2 ^ (e - 127) := mul_lt_mul_of_pos_right hn' hpow
      _ = 2 ^ (e + 1) := two_pow_128_mul_zpow e
      _ ≤ 2 ^ extended.emax :=
          zpow_le_zpow_right₀ one_le_two (show e + 1 ≤ 16384 by omega)
  rw [← htop, mul_left_inj' hpow.ne']
  constructor
  · intro h
    exact ⟨by exact_mod_cast h, by decide⟩
  rintro ⟨rfl, -⟩
  norm_num

theorem aligned_lt (mode : Mode) (a b : F80) : aligned mode a b < 2 ^ 128 := by
  have hB := b.signif_lt
  by_cases hgap : a.exp - b.exp ≤ 64
  · have hpow : 2 ^ (64 - (a.exp - b.exp)) ≤ 2 ^ 64 := Nat.pow_le_pow_right two_pos (Nat.sub_le _ _)
    rw [aligned_of_le hgap]
    calc b.signif * 2 ^ (64 - (a.exp - b.exp)) ≤ b.signif * 2 ^ 64 := Nat.mul_le_mul_left _ hpow
      _ < 2 ^ 128 := by omega
  · have := aligned_le mode (show 65 ≤ a.exp - b.exp by omega)
    omega

theorem subtracted_lt (mode : Mode) (a b : F80) : subtracted mode a b < 2 ^ 128 := by
  have := aligned_lt mode a b
  unfold subtracted
  split <;> omega

/-- **What is normalized is the aligned sum**, exactly. -/
theorem addOrdered_of_ne_zero (hfa : a.IsFinite) (hne : alignedSum mode a b ≠ 0) :
    ∃ (n : ℕ) (e : ℤ) (sign : Bool), addOrdered mode a b = .inr (n, e, sign) ∧
      n ≠ 0 ∧ n < 2 ^ 128 ∧ unbiasDenormal a.exp ≤ e ∧ e ≤ unbiasDenormal a.exp + 1 ∧
      (unbiasDenormal a.exp < e → sign = a.sign ∧ 2 ^ 127 ≤ n) ∧
      alignedSum mode a b = signed sign (n * 2 ^ (e - 127)) := by
  have hA := a.signif_lt
  have hpow : (2 : ℚ) ^ (unbiasDenormal a.exp - 127) ≠ 0 := zpow_ne_zero _ two_ne_zero
  unfold alignedSum at hne ⊢
  by_cases hsign : a.sign = b.sign
  · rw [addOrdered_of_same hfa hsign]
    rw [if_pos hsign] at hne ⊢
    by_cases hcarry : 2 ^ 128 ≤ a.signif * 2 ^ 64 + aligned mode a b
    · obtain ⟨n, hn, hlt, hcode⟩ := carry_eq hcarry
      have hcast : (a.signif : ℚ) * 2 ^ 64 + aligned mode a b = 2 * n := by exact_mod_cast hn
      refine ⟨n, unbiasDenormal a.exp + 1, a.sign, ?_, by omega, hlt, by omega, le_rfl,
        fun _ => ⟨rfl, by omega⟩, ?_⟩
      · rw [if_pos hcarry, hcode]
      rw [hcast, two_zpow_double (d := unbiasDenormal a.exp + 1 - 127)
        (e := unbiasDenormal a.exp - 127) (by ring)]
      congr 1
      ring
    have hcast : (a.signif : ℚ) * 2 ^ 64 + aligned mode a b
        = (a.signif * 2 ^ 64 + aligned mode a b : ℕ) := by
      rw [Nat.cast_add, Nat.cast_mul, Nat.cast_pow, Nat.cast_ofNat]
    refine ⟨_, unbiasDenormal a.exp, a.sign, if_neg hcarry, ?_, by omega, le_rfl, by omega,
      fun h => absurd h (lt_irrefl _), by rw [hcast]⟩
    intro hzero
    rw [hcast, hzero, Nat.cast_zero, zero_mul] at hne
    exact hne (by cases a.sign <;> simp [signed])
  · have hsub := subtracted_lt mode a b
    rw [addOrdered_of_opposite hfa hsign]
    rw [if_neg hsign] at hne ⊢
    have hdiff : a.signif * 2 ^ 64 ≠ subtracted mode a b := by
      intro heq
      have hcast : (a.signif : ℚ) * 2 ^ 64 = subtracted mode a b := by exact_mod_cast heq
      rw [hcast, add_neg_cancel, zero_mul] at hne
      exact hne (by cases a.sign <;> simp [signed])
    rw [if_neg hdiff]
    generalize subtracted mode a b = w at hsub hdiff
    by_cases hle : w ≤ a.signif * 2 ^ 64
    · refine ⟨a.signif * 2 ^ 64 - w, unbiasDenormal a.exp, a.sign, ?_, by omega, by omega, le_rfl,
        by omega, fun h => absurd h (lt_irrefl _), ?_⟩
      · rw [if_pos hle, decide_eq_false (not_lt.mpr hle), Bool.false_xor]
      · rw [Nat.cast_sub hle, Nat.cast_mul, Nat.cast_pow, Nat.cast_ofNat, ← sub_eq_add_neg]
    refine ⟨w - a.signif * 2 ^ 64, unbiasDenormal a.exp, !a.sign, ?_, by omega, by omega, le_rfl,
      by omega, fun h => absurd h (lt_irrefl _), ?_⟩
    · rw [if_neg hle, decide_eq_true (not_le.mp hle), Bool.true_xor]
    rw [signed_not, Nat.cast_sub (le_of_not_ge hle), Nat.cast_mul, Nat.cast_pow, Nat.cast_ofNat,
      ← neg_mul, neg_sub, ← sub_eq_add_neg]

theorem signed_eq_zero_iff {sign : Bool} {x : ℚ} : signed sign x = 0 ↔ x = 0 := by
  cases sign
  · exact Iff.rfl
  · exact neg_eq_zero

/-- An aligned sum that is 0. -/
theorem addOrdered_of_zero (ha : a.IsSupported) (hfa : a.IsFinite)
    (hzero : alignedSum mode a b = 0) : (finishAdd mode (addOrdered mode a b)).IsZero := by
  have hpow : (2 : ℚ) ^ (unbiasDenormal a.exp - 127) ≠ 0 := zpow_ne_zero _ two_ne_zero
  unfold alignedSum at hzero
  rw [signed_eq_zero_iff, mul_eq_zero, or_iff_left hpow] at hzero
  by_cases hsign : a.sign = b.sign
  · rw [if_pos hsign] at hzero
    have hsum : a.signif * 2 ^ 64 + aligned mode a b = 0 := by exact_mod_cast hzero
    have hexp : a.exp = 0 := ha.exp_eq_zero (by omega)
    rw [addOrdered_of_same hfa hsign, hsum, if_neg (by decide), hexp]
    change (u128NormalizeRound mode 0 (unbiasDenormal 0) a.sign).IsZero
    rw [u128NormalizeRound_zero, if_pos (by decide)]
    exact ⟨rfl, rfl⟩
  rw [if_neg hsign, ← sub_eq_add_neg, sub_eq_zero] at hzero
  have heq : a.signif * 2 ^ 64 = subtracted mode a b := by exact_mod_cast hzero
  rw [addOrdered_of_opposite hfa hsign, if_pos heq]
  exact ⟨rfl, rfl⟩

/-- **Adding is right for the aligned sum**, but for `2 ^ 16384` when it is to be rounded to
zero. -/
theorem add_correct_aligned_iff (ha : a.IsSupported) (hfa : a.IsFinite)
    (hrange : alignedSum mode a b = 0 ∨ minNormal ≤ |alignedSum mode a b|) :
    CorrectlyRounded mode (alignedSum mode a b) (finishAdd mode (addOrdered mode a b)) ↔
      ¬ (|alignedSum mode a b| = 2 ^ extended.emax ∧ mode.dir a.sign = .zero) := by
  have hemax : (0 : ℚ) < 2 ^ extended.emax := zpow_pos two_pos _
  by_cases hzero : alignedSum mode a b = 0
  · rw [CorrectlyRounded, if_pos hzero, hzero, abs_zero]
    exact iff_of_true (addOrdered_of_zero ha hfa hzero) fun h => hemax.ne h.1
  obtain ⟨hmin, hmax⟩ := exp_bounds hfa
  obtain ⟨n, e, sign, hcode, hn, hlt, hlow, hhigh, hcarry, hsum⟩ := addOrdered_of_ne_zero hfa hzero
  have habs : |alignedSum mode a b| = n * 2 ^ (e - 127) := by
    rw [hsum, abs_signed, abs_of_nonneg (by positivity)]
  have hmin' := hrange.resolve_left hzero
  rw [habs, hcode, hsum, mul_zpow_eq_emax_iff (by omega) hlt]
  rw [hsum] at hmin'
  refine (normalize_signed_iff hn hlt (by omega) hmin').trans (not_congr ?_)
  rw [← and_assoc]
  refine and_congr_right fun htop => ?_
  rw [(hcarry (by omega)).1]

/-! ### Exact sums -/

theorem val_add (a b : F80) :
    a.val + b.val = signed a.sign (a.mag + if a.sign = b.sign then b.mag else -b.mag) := by
  have ha : a.val = signed a.sign a.mag := rfl
  have hb : b.val = signed b.sign b.mag := rfl
  rw [ha, hb, signed_add]
  congr 1
  by_cases hsign : a.sign = b.sign
  · rw [if_pos hsign, hsign]
  have hnot : b.sign = !a.sign := by
    cases ha : a.sign <;> cases hb : b.sign <;> simp_all
  rw [if_neg hsign, hnot, signed_not]

theorem mag_eq_128 (f : F80) : f.mag = f.signif * 2 ^ 64 * 2 ^ (unbiasDenormal f.exp - 127) := by
  rw [mag, two_zpow_eq_mul (e := unbiasDenormal f.exp - 127) 64 (by push_cast; ring), mul_assoc]

theorem aligned_zero (hzero : b.signif = 0) : aligned mode a b = 0 := by
  unfold aligned
  rw [hzero, zero_mul, u128ShiftRightRound_of_lt (by decide), divRound_small (by positivity),
    if_neg fun h => h.2 rfl]

/-- The exponents of two numbers, as the shift takes them. -/
theorem exp_sub (hba : b.exp ≤ a.exp) (h : b.exp ≠ 0 ∨ a.exp = 0) :
    unbiasDenormal b.exp = unbiasDenormal a.exp - (a.exp - b.exp : ℕ) := by
  rw [unbiasDenormal_eq, unbiasDenormal_eq]
  omega

/-- **The aligned sum is exact** for a gap of at most 64, but for a denormal number that is added to
a normal one. -/
theorem alignedSum_eq (hba : b.exp ≤ a.exp)
    (h : b.signif = 0 ∨ a.exp - b.exp ≤ 64 ∧ (b.exp ≠ 0 ∨ a.exp = 0)) :
    alignedSum mode a b = a.val + b.val := by
  have hmag : b.mag = aligned mode a b * 2 ^ (unbiasDenormal a.exp - 127) := by
    rcases h with hzero | ⟨hgap, hexp⟩
    · rw [aligned_zero hzero, mag, hzero, Nat.cast_zero, zero_mul, zero_mul]
    have hsplit : unbiasDenormal b.exp - 63
        = (64 - (a.exp - b.exp) : ℕ) + (unbiasDenormal a.exp - 127) := by
      rw [exp_sub hba hexp, Nat.cast_sub hgap]
      ring
    rw [aligned_of_le hgap, mag, two_zpow_eq_mul _ hsplit]
    push_cast
    ring
  have hsub : subtracted mode a b = aligned mode a b := by
    refine if_neg ?_
    rintro ⟨-, hal, hne⟩
    rcases h with hzero | ⟨hgap, -⟩
    · exact hne hzero
    rw [aligned_of_le hgap] at hal
    exact hne ((Nat.mul_eq_zero.mp hal).resolve_right (Nat.two_pow_pos _).ne')
  unfold alignedSum
  rw [val_add, mag_eq_128 a, hmag, hsub]
  split
  · rw [add_mul]
  · rw [add_mul, neg_mul]

/-! ### Sums that are rounded twice

In eighths of the last place of `a`, with a sticky bit, the exact sum and the aligned sum are
`8 * A + s` or `8 * A - s`. -/

/-- Eighths of a last place rounded to 64 digits, in halves. -/
def roundEighths (d : Dir) (z : ℕ) : ℕ :=
  if z < 2 ^ 66 then d.divRound z 4
  else if z < 2 ^ 67 then 2 * d.divRound z 8
  else 4 * d.divRound z 16

def eighths (opposite : Prop) [Decidable opposite] (A s : ℕ) : ℕ :=
  if opposite then 8 * A - s else 8 * A + s

/-- The value `n / m` in units of the next lower place. -/
theorem value_lower (n m : ℕ) (t : ℤ) :
    (n : ℚ) / m * 2 ^ (t - 63) = ((2 * n : ℕ) : ℚ) / m * 2 ^ (t - 1 - 63) := by
  rw [two_zpow_double (e := t - 1 - 63) (by ring)]
  push_cast
  ring

theorem value_higher (n m : ℕ) (t : ℤ) :
    (n : ℚ) / m * 2 ^ (t - 63) = (n : ℚ) / (2 * m : ℕ) * 2 ^ (t + 1 - 63) := by
  rw [two_zpow_double (d := t + 1 - 63) (e := t - 63) (by ring)]
  push_cast
  field_simp

theorem round_eq_eighths (d : Dir) {x : ℚ} {n m : ℕ} {t : ℤ} (hm : 0 < m)
    (hx : |x| = (n : ℚ) / m * 2 ^ (t - 63)) (hlow : 2 ^ 62 * m ≤ n) (hhigh : n < 2 ^ 65 * m)
    (hmin : -16382 ≤ t) (hmin' : n < 2 ^ 63 * m → -16382 < t) :
    extended.round d |x| = roundEighths d (sticky (4 * n) m) * 2 ^ (t - 64) := by
  have h66 : sticky (4 * n) m < 2 ^ 66 ↔ n < 2 ^ 63 * m := by
    rw [show 2 ^ 66 = 2 * 2 ^ 65 from rfl, sticky_lt_iff hm]
    omega
  have h67 : sticky (4 * n) m < 2 ^ 67 ↔ n < 2 ^ 64 * m := by
    rw [show 2 ^ 67 = 2 * 2 ^ 66 from rfl, sticky_lt_iff hm]
    omega
  have hhalf : (2 : ℚ) ^ (t - 63) = 2 * 2 ^ (t - 64) := two_zpow_double (by ring)
  unfold roundEighths
  simp only [h66, h67]
  by_cases hsmall : n < 2 ^ 63 * m
  · have hx' := hx.trans (value_lower n m t)
    have hq := quantum_of_normal hm hx' (by omega) (by omega) (by have := hmin' hsmall; omega)
    have hround := divRound_sticky d (4 * n) (h := 1) hm one_pos
    rw [if_pos hsmall, Format.round_eq hm hx' hq, show t - 1 - 63 = t - 64 by ring, ← hround,
      ← divRound_mul_right d (2 * n) m two_pos]
    congr 3 <;> ring
  rw [if_neg hsmall]
  by_cases hmid : n < 2 ^ 64 * m
  · have hq := quantum_of_normal hm hx (by omega) hmid hmin
    have hround := divRound_sticky d (4 * n) (h := 2) hm two_pos
    rw [if_pos hmid, Format.round_eq hm hx hq, hhalf, ← hround,
      ← divRound_mul_right d n m (show 0 < 4 by decide)]
    have h1 : n * 4 = 4 * n := mul_comm n 4
    have h2 : m * 4 = 2 * 2 * m := by ring
    rw [h1, h2]
    push_cast
    ring
  have hx' := hx.trans (value_higher n m t)
  have hq := quantum_of_normal (by omega) hx' (by omega) (by omega) (by omega)
  have hround := divRound_sticky d (4 * n) (h := 4) hm (by decide)
  rw [if_neg hmid, Format.round_eq (by omega) hx' hq,
    two_zpow_eq_mul (e := t - 64) 2 (by push_cast; ring), ← hround,
    ← divRound_mul_right d n (2 * m) (show 0 < 4 by decide)]
  have h1 : n * 4 = 4 * n := mul_comm n 4
  have h2 : 2 * m * 4 = 2 * 4 * m := by ring
  rw [h1, h2]
  push_cast
  ring

theorem roundEighths_le (d : Dir) {z : ℕ} (hz : z < 2 ^ 68) : roundEighths d z ≤ 2 ^ 66 := by
  unfold roundEighths
  split
  · have : d.divRound z 4 ≤ 2 ^ 64 := divRound_le (by decide) (by omega)
    omega
  split
  · have : d.divRound z 8 ≤ 2 ^ 64 := divRound_le (by decide) (by omega)
    omega
  have : d.divRound z 16 ≤ 2 ^ 64 := divRound_le (by decide) (by omega)
  omega

theorem roundEighths_le_of_lt (d : Dir) {z : ℕ} (hz : z < 2 ^ 67) :
    roundEighths d z ≤ 2 ^ 65 ∧ (d = .zero → roundEighths d z < 2 ^ 65) := by
  have hzero : ∀ m, Dir.zero.divRound z m = z / m := fun m => rfl
  unfold roundEighths
  split
  · have : d.divRound z 4 ≤ 2 ^ 64 := divRound_le (by decide) (by omega)
    omega
  have : d.divRound z 8 ≤ 2 ^ 64 := divRound_le (by decide) (by omega)
  refine ⟨by omega, ?_⟩
  rintro rfl
  rw [hzero]
  omega

/-- A value next to that of a normal number with the exponent `t`, in the range of the normal
numbers and without overflow. -/
structure Placed (x : ℚ) (sign : Bool) (n m : ℕ) (t : ℤ) : Prop where
  pos : 0 < m
  eq : x = signed sign ((n : ℚ) / m * 2 ^ (t - 63))
  low : 2 ^ 62 * m ≤ n
  high : n < 2 ^ 65 * m
  min : -16382 ≤ t
  min_of_lt : n < 2 ^ 63 * m → -16382 < t
  max : n < 2 ^ 64 * m ∧ t ≤ 16383 ∨ t ≤ 16381

namespace Placed

variable {x x' : ℚ} {sign : Bool} {n m n' m' : ℕ} {t : ℤ} {f : F80}

variable (h : Placed x sign n m t)

include h

theorem value_pos : (0 : ℚ) < (n : ℚ) / m * 2 ^ (t - 63) := by
  have hpos := h.pos
  have hlow := h.low
  have hm : (0 : ℚ) < m := by exact_mod_cast hpos
  have hn : (0 : ℚ) < n := by exact_mod_cast (show 0 < n by omega)
  positivity

theorem abs : |x| = (n : ℚ) / m * 2 ^ (t - 63) := by
  rw [h.eq, abs_signed, abs_of_pos h.value_pos]

theorem neg_eq : decide (x < 0) = sign := by
  rw [h.eq, signed_neg_iff sign h.value_pos]

theorem ne_zero : x ≠ 0 := by
  rw [← abs_pos, h.abs]
  exact h.value_pos

theorem minNormal_le : minNormal ≤ |x| := by
  by_cases hsmall : n < 2 ^ 63 * m
  · have hmin := h.min_of_lt hsmall
    have hlow := h.low
    have hx := h.abs.trans (value_lower n m t)
    calc minNormal ≤ 2 ^ (t - 1) :=
          zpow_le_zpow_right₀ one_le_two (show (-16382 : ℤ) ≤ t - 1 by omega)
      _ ≤ |x| := zpow_le_of_normal h.pos hx (by omega)
  · calc minNormal ≤ 2 ^ t := zpow_le_zpow_right₀ one_le_two h.min
      _ ≤ |x| := zpow_le_of_normal h.pos h.abs (not_lt.mp hsmall)

theorem lt_emax : |x| < 2 ^ extended.emax := by
  have hemax : extended.emax = 16384 := rfl
  rcases h.max with ⟨hlt, ht⟩ | ht
  · calc |x| < 2 ^ (t + 1) := lt_zpow_of_normal h.pos h.abs hlt
      _ ≤ 2 ^ extended.emax := zpow_le_zpow_right₀ one_le_two (by omega)
  have hx := h.abs.trans (value_higher n m t)
  have hpos := h.pos
  have hhigh := h.high
  calc |x| < 2 ^ (t + 1 + 1) := lt_zpow_of_normal (by omega) hx (by omega)
    _ ≤ 2 ^ extended.emax := zpow_le_zpow_right₀ one_le_two (by omega)

theorem round_eq (d : Dir) :
    extended.round d |x| = roundEighths d (sticky (4 * n) m) * 2 ^ (t - 64) :=
  round_eq_eighths d h.pos h.abs h.low h.high h.min h.min_of_lt

theorem round_le (d : Dir) :
    extended.round d |x| ≤ 2 ^ extended.emax ∧
      (d = .zero → extended.round d |x| < 2 ^ extended.emax) := by
  have hemax : extended.emax = 16384 := rfl
  have hpow : (0 : ℚ) < 2 ^ (t - 64) := zpow_pos two_pos _
  have hmul : ∀ k : ℕ, ((2 ^ k : ℕ) : ℚ) * 2 ^ (t - 64) = 2 ^ (t + k - 64) := by
    intro k
    rw [Nat.cast_pow, Nat.cast_ofNat]
    exact (two_zpow_eq_mul k (by ring)).symm
  have hpos := h.pos
  have hhigh := h.high
  rw [h.round_eq]
  rcases h.max with ⟨hlt, ht⟩ | ht
  · have hz : sticky (4 * n) m < 2 * 2 ^ 66 := (sticky_lt_iff h.pos).mpr (by omega)
    obtain ⟨hle, hzero⟩ := roundEighths_le_of_lt d (show sticky (4 * n) m < 2 ^ 67 by omega)
    have htop : ((2 ^ 65 : ℕ) : ℚ) * 2 ^ (t - 64) ≤ 2 ^ extended.emax := by
      rw [hmul]
      exact zpow_le_zpow_right₀ one_le_two (by push_cast; omega)
    constructor
    · exact le_trans (mul_le_mul_of_nonneg_right (Nat.cast_le.mpr hle) hpow.le) htop
    intro hd
    exact lt_of_lt_of_le (mul_lt_mul_of_pos_right (Nat.cast_lt.mpr (hzero hd)) hpow) htop
  have hz : sticky (4 * n) m < 2 * 2 ^ 67 := (sticky_lt_iff h.pos).mpr (by omega)
  have hle := roundEighths_le d (show sticky (4 * n) m < 2 ^ 68 by omega)
  have hlt : (roundEighths d (sticky (4 * n) m) : ℚ) * 2 ^ (t - 64) < 2 ^ extended.emax :=
    calc _ ≤ ((2 ^ 66 : ℕ) : ℚ) * 2 ^ (t - 64) :=
          mul_le_mul_of_nonneg_right (Nat.cast_le.mpr hle) hpow.le
      _ = 2 ^ (t + (66 : ℕ) - 64) := hmul 66
      _ < 2 ^ extended.emax := zpow_lt_zpow_right₀ one_lt_two (by push_cast; omega)
  exact ⟨hlt.le, fun _ => hlt⟩

/-- **A result that is right for another value** is right if both values are rounded alike. -/
theorem correct_iff (h' : Placed x' sign n' m' t) (hf : CorrectlyRounded mode x' f) :
    CorrectlyRounded mode x f ↔
      roundEighths (mode.dir sign) (sticky (4 * n) m)
        = roundEighths (mode.dir sign) (sticky (4 * n') m') := by
  have hpow : (0 : ℚ) < 2 ^ (t - 64) := zpow_pos two_pos _
  have hround : extended.round (mode.dir sign) |x| = extended.round (mode.dir sign) |x'| ↔
      roundEighths (mode.dir sign) (sticky (4 * n) m)
        = roundEighths (mode.dir sign) (sticky (4 * n') m') := by
    rw [h.round_eq, h'.round_eq, mul_left_inj' hpow.ne', Nat.cast_inj]
  obtain ⟨hle, hlt⟩ := h.round_le (mode.dir sign)
  obtain ⟨hle', hlt'⟩ := h'.round_le (mode.dir sign)
  rw [← hround]
  unfold CorrectlyRounded at hf ⊢
  rw [if_neg h'.ne_zero, h'.neg_eq] at hf
  rw [if_neg h.ne_zero, h.neg_eq]
  obtain ⟨hsign, hf⟩ := hf
  rw [hsign] at hf ⊢
  constructor
  · rintro ⟨-, hf'⟩
    -- a result that is not finite stands for both overflows
    have hinf : ∀ y : ℚ, y ≤ 2 ^ extended.emax → (mode.dir sign = .zero → y < 2 ^ extended.emax) →
        ¬ y < 2 ^ extended.emax → y = 2 ^ extended.emax ∧ ¬ mode.dir sign = .zero :=
      fun y hle hlt hy => ⟨le_antisymm hle (not_lt.mp hy), fun hd => hy (hlt hd)⟩
    have hnot : ¬ (f80Inf sign).IsFinite := by cases sign <;> decide
    by_cases hy : extended.round (mode.dir sign) |x| < 2 ^ extended.emax
    · rw [if_pos hy] at hf'
      by_cases hy' : extended.round (mode.dir sign) |x'| < 2 ^ extended.emax
      · rw [if_pos hy'] at hf
        exact hf'.2.2.symm.trans hf.2.2
      rw [if_neg hy', if_neg (hinf _ hle' hlt' hy').2] at hf
      exact absurd (hf ▸ hf'.2.1) hnot
    obtain ⟨htop, hdir⟩ := hinf _ hle hlt hy
    rw [if_neg hy, if_neg hdir] at hf'
    by_cases hy' : extended.round (mode.dir sign) |x'| < 2 ^ extended.emax
    · rw [if_pos hy'] at hf
      exact absurd (hf' ▸ hf.2.1) hnot
    · rw [htop, (hinf _ hle' hlt' hy').1]
  · intro heq
    rw [heq]
    exact ⟨rfl, hf⟩

end Placed

/-- The places by which `b` is below `a`. -/
def places (a b : F80) : ℕ := a.exp - 1 - (b.exp - 1)

theorem exp_sub_places (hba : b.exp ≤ a.exp) :
    unbiasDenormal b.exp = unbiasDenormal a.exp - places a b := by
  rw [unbiasDenormal_eq, unbiasDenormal_eq, places]
  omega

/-- A normal number and a smaller one that is shifted too far to be added exactly. -/
structure Inexact (a b : F80) : Prop where
  supported_a : a.IsSupported
  supported_b : b.IsSupported
  finite : a.IsFinite
  exp_le : b.exp ≤ a.exp
  normal : a.exp ≠ 0
  ne_zero : b.signif ≠ 0
  far : 65 ≤ a.exp - b.exp ∨ b.exp = 0

/-- What the source adds to `a` or subtracts from it. -/
def moved (mode : Mode) (a b : F80) : ℕ :=
  if a.sign ≠ b.sign then subtracted mode a b else aligned mode a b

/-- In last places of `a` for `m`: a sum or a difference. -/
def combined (a b : F80) (m w : ℕ) : ℕ :=
  if a.sign ≠ b.sign then a.signif * m - w else a.signif * m + w

theorem moved_of_far (mode : Mode) (hfar : 65 ≤ a.exp - b.exp) : moved mode a b ≤ 2 ^ 63 := by
  have hle := aligned_le mode hfar
  unfold moved subtracted
  split
  · split <;> omega
  · exact hle

theorem sticky_combined {m w : ℕ} (hm : 0 < m) (hw : w ≤ a.signif * m) :
    sticky (4 * combined a b m w) m
      = eighths (a.sign ≠ b.sign) a.signif (sticky (4 * w) m) := by
  unfold combined eighths
  have hmul : 4 * (a.signif * m) = 4 * a.signif * m := (mul_assoc 4 _ _).symm
  split
  · have h := sticky_sub (n := 4 * w) (c := 4 * a.signif) hm (by omega)
    rw [Nat.mul_sub, hmul]
    omega
  · rw [mul_add, hmul, sticky_add _ _ hm]
    omega

namespace Inexact

variable (h : Inexact a b)

include h

theorem le_signif : 2 ^ 63 ≤ a.signif := h.supported_a.le_signif h.normal

theorem signif_lt (hb : b.exp = 0) : b.signif < 2 ^ 63 := by
  have := isSupported_iff.mp h.supported_b
  omega

/-- The smaller number is at most a half, or both are as small as they can be. -/
theorem signif_le : b.signif ≤ 2 ^ 62 * 2 ^ places a b ∨ a.exp = 1 ∧ b.exp = 0 := by
  have hlt := b.signif_lt
  have hpow : ∀ k, k ≤ places a b → 2 ^ 62 * 2 ^ k ≤ 2 ^ 62 * 2 ^ places a b := fun k hk =>
    Nat.mul_le_mul_left _ (Nat.pow_le_pow_right two_pos hk)
  unfold places at hpow ⊢
  rcases h.far with hfar | hzero
  · have := hpow 2 (by omega)
    omega
  by_cases hone : a.exp = 1
  · exact .inr ⟨hone, hzero⟩
  have := hpow 1 (by have := h.normal; omega)
  have := h.signif_lt hzero
  omega

theorem signif_lt_mul : b.signif < a.signif * 2 ^ places a b := by
  have hge := h.le_signif
  have hmul : 2 ^ 63 * 2 ^ places a b ≤ a.signif * 2 ^ places a b := Nat.mul_le_mul_right _ hge
  have hpos := Nat.two_pow_pos (places a b)
  rcases h.signif_le with hle | ⟨-, hzero⟩
  · omega
  have := h.signif_lt hzero
  omega

theorem val_eq :
    a.val + b.val = signed a.sign ((combined a b (2 ^ places a b) b.signif : ℕ) /
      (2 ^ places a b : ℕ) * 2 ^ (unbiasDenormal a.exp - 63)) := by
  have hpow : (2 : ℚ) ^ places a b ≠ 0 := pow_ne_zero _ two_ne_zero
  have hmag : b.mag = b.signif / 2 ^ places a b * 2 ^ (unbiasDenormal a.exp - 63) := by
    have hexp : unbiasDenormal b.exp - 63 = unbiasDenormal a.exp - 63 - places a b := by
      rw [exp_sub_places h.exp_le]
      ring
    rw [mag, hexp, zpow_sub₀ two_ne_zero, zpow_natCast]
    ring
  have hle := h.signif_lt_mul.le
  rw [val_add, hmag, mag]
  congr 1
  unfold combined
  by_cases hsign : a.sign = b.sign
  · rw [if_pos hsign, if_neg (not_not_intro hsign)]
    push_cast
    field_simp
  rw [if_neg hsign, if_pos hsign, Nat.cast_sub hle]
  push_cast
  field_simp
  ring

theorem sum_ne_zero : a.val + b.val ≠ 0 := by
  have hlt := h.signif_lt_mul
  have hpos : 0 < combined a b (2 ^ places a b) b.signif := by
    unfold combined
    split <;> omega
  have hpos' : (0 : ℚ) < (combined a b (2 ^ places a b) b.signif : ℕ) := by exact_mod_cast hpos
  rw [← abs_pos, h.val_eq, abs_signed]
  positivity

/-- With the least exponents, the sum has a significand of 64 bits. -/
theorem combined_ge (hone : a.exp = 1) (hrange : minNormal ≤ |a.val + b.val|) :
    2 ^ 63 ≤ combined a b 1 b.signif := by
  have hplaces : places a b = 0 := by
    unfold places
    omega
  have hexp : unbiasDenormal a.exp - 63 = -16382 - (63 : ℕ) := by
    rw [unbiasDenormal_eq, hone]
    rfl
  have hpow : (0 : ℚ) < 2 ^ (-16382 - (63 : ℕ) : ℤ) := zpow_pos two_pos _
  have hmin : minNormal = 2 ^ 63 * 2 ^ (-16382 - (63 : ℕ) : ℤ) := two_pow_63_mul_zpow _
  rw [h.val_eq, hplaces, pow_zero, Nat.cast_one, div_one, abs_signed, hexp,
    abs_of_nonneg (by positivity), hmin] at hrange
  exact_mod_cast le_of_mul_le_mul_right hrange hpow

/-- What is combined with the significand of `a` in units of `1 / m` is at most a half of it, and
below a unit if it is far. -/
theorem placed_of {x : ℚ} {m w : ℕ} (hm : 0 < m)
    (hx : x = signed a.sign ((combined a b m w : ℕ) / m * 2 ^ (unbiasDenormal a.exp - 63)))
    (hw : w ≤ a.signif * m) (hone : a.exp = 1 → 2 ^ 63 * m ≤ combined a b m w)
    (hhalf : a.exp ≠ 1 → w ≤ 2 ^ 62 * m) (hfar : 64 < a.exp → w < m) :
    Placed x a.sign (combined a b m w) m (unbiasDenormal a.exp) := by
  obtain ⟨hmin, hmax⟩ := exp_bounds h.finite
  have hmul : 2 ^ 63 * m ≤ a.signif * m := Nat.mul_le_mul_right _ h.le_signif
  have hmul' : (a.signif + 1) * m ≤ 2 ^ 64 * m := Nat.mul_le_mul_right _ a.signif_lt
  rw [add_mul, one_mul] at hmul'
  have hnorm : unbiasDenormal a.exp = -16382 → a.exp = 1 := by
    rw [unbiasDenormal_eq]
    have := h.normal
    omega
  refine ⟨hm, hx, ?_, ?_, hmin, ?_, ?_⟩
  · by_cases h1 : a.exp = 1
    · have := hone h1
      omega
    have := hhalf h1
    unfold combined
    split <;> omega
  · unfold combined
    split <;> omega
  · intro hlt
    by_contra hexp
    omega
  by_cases hgap : a.exp ≤ 64
  · right
    rw [unbiasDenormal_eq]
    omega
  have := hfar (by omega)
  left
  refine ⟨?_, hmax⟩
  unfold combined
  split <;> omega

theorem placed (hrange : minNormal ≤ |a.val + b.val|) :
    Placed (a.val + b.val) a.sign (combined a b (2 ^ places a b) b.signif) (2 ^ places a b)
      (unbiasDenormal a.exp) := by
  refine h.placed_of (Nat.two_pow_pos _) h.val_eq h.signif_lt_mul.le ?_ ?_ ?_
  · intro hone
    have hplaces : places a b = 0 := by
      unfold places
      omega
    rw [hplaces, pow_zero, mul_one]
    exact h.combined_ge hone hrange
  · exact fun hne => h.signif_le.resolve_right fun h' => hne h'.1
  intro hbig
  have := h.far
  calc b.signif < 2 ^ 64 := b.signif_lt
    _ ≤ 2 ^ places a b := Nat.pow_le_pow_right two_pos (by unfold places; omega)

/-- A denormal number is halved. -/
theorem moved_of_near (mode : Mode) (hgap : a.exp ≤ 64) :
    moved mode a b = b.signif * 2 ^ (64 - a.exp) := by
  have hzero : b.exp = 0 := h.far.resolve_left (by omega)
  have haligned : aligned mode a b = b.signif * 2 ^ (64 - a.exp) := by
    rw [aligned_of_le (by omega), hzero, Nat.sub_zero]
  have hne : aligned mode a b ≠ 0 := by
    rw [haligned]
    exact (Nat.mul_pos (Nat.pos_of_ne_zero h.ne_zero) (Nat.two_pow_pos _)).ne'
  have hsub : subtracted mode a b = aligned mode a b := if_neg fun h => hne h.2.1
  unfold moved
  rw [hsub, ite_self, haligned]

theorem moved_le (mode : Mode) (hone : a.exp ≠ 1) : moved mode a b ≤ 2 ^ 126 := by
  by_cases hgap : a.exp ≤ 64
  · have hpow : 2 ^ (64 - a.exp) ≤ 2 ^ 62 :=
      Nat.pow_le_pow_right two_pos (by have := h.normal; omega)
    rw [h.moved_of_near mode hgap]
    calc b.signif * 2 ^ (64 - a.exp) ≤ 2 ^ 64 * 2 ^ 62 := Nat.mul_le_mul b.signif_lt.le hpow
      _ = 2 ^ 126 := by norm_num
  have hfar : 65 ≤ a.exp - b.exp := by
    have := h.far
    omega
  have := moved_of_far mode hfar
  omega

/-- With the least exponents. -/
theorem moved_of_one (mode : Mode) (hone : a.exp = 1) :
    moved mode a b = b.signif * 2 ^ 63 ∧ b.signif < 2 ^ 63 := by
  refine ⟨?_, h.signif_lt (h.far.resolve_left (by omega))⟩
  rw [h.moved_of_near mode (by omega), hone]

theorem moved_le_signif (mode : Mode) : moved mode a b ≤ a.signif * 2 ^ 64 := by
  have hge := h.le_signif
  by_cases hone : a.exp = 1
  · obtain ⟨heq, hlt⟩ := h.moved_of_one mode hone
    omega
  have := h.moved_le mode hone
  omega

theorem alignedSum_eq_combined :
    alignedSum mode a b = signed a.sign ((combined a b (2 ^ 64) (moved mode a b) : ℕ) /
      (2 ^ 64 : ℕ) * 2 ^ (unbiasDenormal a.exp - 63)) := by
  have hle := h.moved_le_signif mode
  unfold alignedSum
  congr 1
  rw [two_zpow_eq_mul (d := unbiasDenormal a.exp - 63) (e := unbiasDenormal a.exp - 127) 64
    (by push_cast; ring)]
  unfold combined
  unfold moved at hle ⊢
  by_cases hsign : a.sign = b.sign
  · rw [if_pos hsign, if_neg (not_not_intro hsign), if_neg (not_not_intro hsign)]
    push_cast
    field_simp
    ring
  rw [if_pos hsign] at hle
  rw [if_neg hsign, if_pos hsign, if_pos hsign, Nat.cast_sub hle]
  push_cast
  field_simp
  ring

theorem placed_aligned (mode : Mode) (hrange : minNormal ≤ |a.val + b.val|) :
    Placed (alignedSum mode a b) a.sign (combined a b (2 ^ 64) (moved mode a b)) (2 ^ 64)
      (unbiasDenormal a.exp) := by
  refine h.placed_of (by decide) h.alignedSum_eq_combined (h.moved_le_signif mode) ?_ ?_ ?_
  · intro hone
    obtain ⟨heq, -⟩ := h.moved_of_one mode hone
    have hsum := h.combined_ge hone hrange
    unfold combined at hsum ⊢
    rw [heq]
    by_cases hsign : a.sign = b.sign
    · rw [if_neg (not_not_intro hsign)]
      have := h.le_signif
      omega
    · rw [if_pos hsign] at hsum ⊢
      omega
  · intro hne
    have := h.moved_le mode hne
    omega
  · intro hbig
    have hle := moved_of_far mode (show 65 ≤ a.exp - b.exp by have := h.far; omega)
    omega

/-- **The source is right** if it rounds the aligned sum like the exact one. -/
theorem correct_iff (hrange : minNormal ≤ |a.val + b.val|) :
    CorrectlyRounded mode (a.val + b.val) (finishAdd mode (addOrdered mode a b)) ↔
      roundEighths (mode.dir a.sign)
          (eighths (a.sign ≠ b.sign) a.signif (sticky (4 * b.signif) (2 ^ places a b)))
        = roundEighths (mode.dir a.sign)
          (eighths (a.sign ≠ b.sign) a.signif (sticky (4 * moved mode a b) (2 ^ 64))) := by
  have haligned := h.placed_aligned mode hrange
  have hmoved := h.moved_le_signif mode
  have hcorrect :
      CorrectlyRounded mode (alignedSum mode a b) (finishAdd mode (addOrdered mode a b)) := by
    rw [add_correct_aligned_iff h.supported_a h.finite (.inr haligned.minNormal_le)]
    exact fun htop => haligned.lt_emax.ne htop.1
  rw [(h.placed hrange).correct_iff haligned hcorrect,
    sticky_combined (Nat.two_pow_pos _) h.signif_lt_mul.le, sticky_combined (by decide) hmoved]

end Inexact

end Add

end Ish.Float80
