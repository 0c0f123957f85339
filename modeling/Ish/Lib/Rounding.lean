import Mathlib

set_option autoImplicit false

/-! # Rounding

A magnitude is rounded to an integer towards zero, away from zero, or to the nearest integer with
ties to even: `Dir.rint` for a rational number, and `Dir.divRound` for a quotient of natural
numbers, which is what an implementation computes. A binary format rounds by rounding to an integer
multiple of the quantum of the binade (`Format.round`), and `Format.round_eq` turns a quotient of
naturals in units of the quantum into its rounded value. `Dir.sticky` keeps of a quotient what
matters when it is rounded later.
-/

namespace Ish.Lib

open Int

inductive Dir where
  | zero
  | away
  | nearest
deriving DecidableEq

theorem two_zpow_eq_mul {d e : ℤ} (k : ℕ) (h : d = k + e) : (2 : ℚ) ^ d = 2 ^ k * 2 ^ e := by
  rw [h, zpow_add₀ two_ne_zero, zpow_natCast]

theorem two_zpow_double {d e : ℤ} (h : d = 1 + e) : (2 : ℚ) ^ d = 2 * 2 ^ e := by
  rw [h, zpow_one_add₀ two_ne_zero]

namespace Dir

/-- The integer that a magnitude is rounded to. -/
def rint (d : Dir) (x : ℚ) : ℤ :=
  match d with
  | .zero => ⌊x⌋
  | .away => ⌈x⌉
  | .nearest =>
    if fract x < 1 / 2 ∨ fract x = 1 / 2 ∧ ⌊x⌋ % 2 = 0 then ⌊x⌋ else ⌊x⌋ + 1

/-- The quotient `q` with the remainder `r` of a division by `m` is rounded up. -/
def RoundsUp (d : Dir) (q r m : ℕ) : Prop :=
  match d with
  | .zero => False
  | .away => r ≠ 0
  | .nearest => m < 2 * r ∨ 2 * r = m ∧ q % 2 = 1

instance (d : Dir) (q r m : ℕ) : Decidable (d.RoundsUp q r m) :=
  match d with
  | .zero => inferInstanceAs (Decidable False)
  | .away => inferInstanceAs (Decidable (_ ≠ _))
  | .nearest => inferInstanceAs (Decidable (_ ∨ _))

/-- The natural number that `n / m` is rounded to. -/
def divRound (d : Dir) (n m : ℕ) : ℕ :=
  n / m + if d.RoundsUp (n / m) (n % m) m then 1 else 0

section DivRound

variable {d : Dir} {n m a q r : ℕ}

theorem mul_add_div_mod (q : ℕ) (hr : r < m) : (q * m + r) / m = q ∧ (q * m + r) % m = r :=
  (Nat.div_mod_unique (Nat.zero_lt_of_lt hr)).mpr ⟨by rw [add_comm, mul_comm], hr⟩

theorem divRound_mul_add (d : Dir) (q : ℕ) (hr : r < m) :
    d.divRound (q * m + r) m = q + if d.RoundsUp q r m then 1 else 0 := by
  obtain ⟨hdiv, hmod⟩ := mul_add_div_mod q hr
  unfold divRound
  rw [hdiv, hmod]

theorem divRound_mul_right (d : Dir) (n m : ℕ) {c : ℕ} (hc : 0 < c) :
    d.divRound (n * c) (m * c) = d.divRound n m := by
  have hup : d.RoundsUp (n / m) (n % m * c) (m * c) ↔ d.RoundsUp (n / m) (n % m) m := by
    have hassoc : 2 * (n % m * c) = 2 * (n % m) * c := (mul_assoc _ _ _).symm
    cases d with
    | zero => exact .rfl
    | away => exact not_congr (mul_eq_zero_iff_right hc.ne')
    | nearest =>
      refine or_congr ?_ (and_congr_left fun _ => ?_)
      · rw [hassoc]
        exact Nat.mul_lt_mul_right hc
      rw [hassoc]
      exact Nat.mul_left_inj hc.ne'
  unfold divRound
  rw [Nat.mul_div_mul_right n m hc, Nat.mul_mod_mul_right]
  simp only [hup]

/-- Adding an even number. -/
theorem divRound_even_mul_add (d : Dir) (a n : ℕ) (hm : 0 < m) :
    d.divRound (2 * a * m + n) m = 2 * a + d.divRound n m := by
  have hup : d.RoundsUp (2 * a + n / m) (n % m) m ↔ d.RoundsUp (n / m) (n % m) m := by
    cases d with
    | zero => exact .rfl
    | away => exact .rfl
    | nearest =>
      refine or_congr Iff.rfl (and_congr Iff.rfl ?_)
      omega
  unfold divRound
  rw [add_comm (2 * a * m), Nat.add_mul_div_right _ _ hm, Nat.add_mul_mod_self_right,
    add_comm (n / m)]
  simp only [hup]
  rw [add_assoc]

theorem not_roundsUp_zero (hm : 0 < m) : ¬ d.RoundsUp q 0 m := by
  cases d with
  | zero => exact not_false
  | away => exact not_not_intro rfl
  | nearest =>
    rintro (h | ⟨h, -⟩)
    · omega
    · omega

/-- Rounding does not pass an integer. -/
theorem le_divRound (hm : 0 < m) (h : a * m ≤ n) : a ≤ d.divRound n m :=
  le_trans ((Nat.le_div_iff_mul_le hm).mpr h) (Nat.le_add_right _ _)

theorem divRound_le (hm : 0 < m) (h : n ≤ a * m) : d.divRound n m ≤ a := by
  rcases h.lt_or_eq with hlt | rfl
  · have hdiv : n / m < a := (Nat.div_lt_iff_lt_mul hm).mpr hlt
    unfold divRound
    split <;> omega
  have heq := divRound_mul_add d a hm
  rw [add_zero, if_neg (not_roundsUp_zero hm)] at heq
  exact heq.le

theorem divRound_mul_self (hm : 0 < m) : d.divRound (a * m) m = a :=
  le_antisymm (divRound_le hm le_rfl) (le_divRound hm le_rfl)

theorem divRound_one : d.divRound n 1 = n := by
  simpa using divRound_mul_self (d := d) (a := n) one_pos

/-- Rounding moves a quotient by less than 1. -/
theorem divRound_bounds (d : Dir) (n : ℕ) (hm : 0 < m) :
    d.divRound n m * m < n + m ∧ n < d.divRound n m * m + m := by
  have hn := Nat.div_add_mod' n m
  have hlt := Nat.mod_lt n hm
  unfold divRound
  by_cases hup : d.RoundsUp (n / m) (n % m) m
  · have hpos : n % m ≠ 0 := fun h => not_roundsUp_zero hm (h ▸ hup)
    rw [if_pos hup, add_mul, one_mul]
    omega
  · rw [if_neg hup, add_zero]
    omega

/-- A larger remainder is rounded up if a smaller one is. -/
theorem RoundsUp.mono {q' r' : ℕ} (h : d.RoundsUp q r m) (hr : r < r' ∨ r = r' ∧ q = q') :
    d.RoundsUp q' r' m := by
  rcases hr with hlt | ⟨rfl, rfl⟩
  · cases d with
    | zero => exact h
    | away => exact (show r' ≠ 0 by omega)
    | nearest =>
      rcases h with h | ⟨h, -⟩
      · exact .inl (by omega)
      · exact .inl (by omega)
  · exact h

theorem divRound_mono {n' : ℕ} (h : n ≤ n') : d.divRound n m ≤ d.divRound n' m := by
  rcases (Nat.div_le_div_right h : n / m ≤ n' / m).lt_or_eq with hlt | heq
  · calc d.divRound n m ≤ n / m + 1 := by
          unfold divRound
          split <;> omega
      _ ≤ n' / m := hlt
      _ ≤ d.divRound n' m := Nat.le_add_right _ _
  have hmod : n % m ≤ n' % m := by
    have h1 := Nat.div_add_mod n m
    have h2 := Nat.div_add_mod n' m
    rw [heq] at h1
    omega
  unfold divRound
  rw [heq]
  apply Nat.add_le_add_left
  by_cases hup : d.RoundsUp (n' / m) (n % m) m
  · have hup' : d.RoundsUp (n' / m) (n' % m) m := hup.mono (by omega)
    rw [if_pos hup, if_pos hup']
  rw [if_neg hup]
  exact Nat.zero_le _

/-- Quotients that are more than 1 apart are rounded to different numbers. -/
theorem divRound_lt {n' : ℕ} (hm : 0 < m) (h : n + m < n') : d.divRound n m < d.divRound n' m := by
  have hdiv : n / m + 1 ≤ n' / m := by
    rw [← Nat.add_div_right n hm]
    exact Nat.div_le_div_right h.le
  rcases hdiv.lt_or_eq with hlt | heq
  · calc d.divRound n m ≤ n / m + 1 := by
          unfold divRound
          split <;> omega
      _ < n' / m := hlt
      _ ≤ d.divRound n' m := Nat.le_add_right _ _
  have hmod : n % m < n' % m := by
    have h1 := Nat.div_add_mod n m
    have h2 := Nat.div_add_mod n' m
    rw [← heq, mul_add] at h2
    omega
  unfold divRound
  by_cases hup : d.RoundsUp (n / m) (n % m) m
  · have hup' : d.RoundsUp (n' / m) (n' % m) m := hup.mono (.inl hmod)
    rw [if_pos hup, if_pos hup']
    omega
  · rw [if_neg hup]
    omega

theorem roundsUp_away : Dir.away.RoundsUp q r m ↔ r ≠ 0 := .rfl

theorem roundsUp_nearest : Dir.nearest.RoundsUp q r m ↔ m < 2 * r ∨ 2 * r = m ∧ q % 2 = 1 := .rfl

/-- A little above an integer. -/
theorem divRound_add_small (hr : 0 < r) (h : 2 * r < m) :
    d.divRound (a * m + r) m = a + if d = .away then 1 else 0 := by
  have hup : d.RoundsUp a r m ↔ d = .away := by
    cases d with
    | zero => exact iff_of_false not_false nofun
    | away => exact iff_of_true hr.ne' rfl
    | nearest =>
      refine iff_of_false ?_ nofun
      rw [roundsUp_nearest]
      omega
  rw [divRound_mul_add d a (by omega)]
  simp only [hup]

/-- A quotient below the half. -/
theorem divRound_small (h : 2 * n < m) : d.divRound n m = if d = .away ∧ n ≠ 0 then 1 else 0 := by
  by_cases hn : n = 0
  · have hzero := divRound_mul_self (d := d) (a := 0) (show 0 < m by omega)
    rw [zero_mul] at hzero
    rw [hn, hzero, if_neg fun h => h.2 rfl]
  have hsmall := divRound_add_small (d := d) (a := 0) (Nat.pos_of_ne_zero hn) h
  rw [zero_mul, zero_add, zero_add] at hsmall
  rw [hsmall]
  simp only [ne_eq, hn, not_false_eq_true, and_true]

/-- Half way. -/
theorem divRound_nearest_half (hr : 0 < r) (h : 2 * r = m) :
    Dir.nearest.divRound (a * m + r) m = a + a % 2 := by
  rw [divRound_mul_add .nearest a (by omega)]
  simp only [roundsUp_nearest]
  split <;> omega

theorem divRound_away_eq_zero : Dir.away.divRound n m = 0 ↔ n = 0 := by
  have hn := Nat.div_add_mod n m
  unfold divRound
  by_cases hmod : n % m = 0
  · rw [if_neg (roundsUp_away.not.mpr (not_not_intro hmod)), add_zero]
    constructor
    · intro hdiv
      rw [hdiv, hmod, mul_zero] at hn
      exact hn.symm
    · intro h
      rw [h, Nat.zero_div]
  rw [if_pos (roundsUp_away.mpr hmod)]
  refine iff_of_false (Nat.succ_ne_zero _) ?_
  rintro rfl
  exact hmod (Nat.zero_mod m)

theorem lt_divRound_away (hm : 0 < m) : a < Dir.away.divRound n m ↔ a * m < n := by
  have hn := Nat.div_add_mod' n m
  have hlt := Nat.mod_lt n hm
  have hle : a ≤ n / m ↔ a * m ≤ n := Nat.le_div_iff_mul_le hm
  unfold divRound
  by_cases hmod : n % m = 0
  · rw [if_neg (roundsUp_away.not.mpr (not_not_intro hmod)), add_zero, Nat.lt_iff_le_and_ne, hle,
      Nat.lt_iff_le_and_ne]
    refine and_congr_right fun _ => not_congr ?_
    rw [hmod, add_zero] at hn
    rw [← Nat.mul_left_inj hm.ne', hn]
  rw [if_pos (roundsUp_away.mpr hmod), Nat.lt_succ_iff, hle]
  refine ⟨fun h => lt_of_le_of_ne h ?_, le_of_lt⟩
  rintro rfl
  exact hmod (Nat.mul_mod_left a m)

/-- The nearest integer is at most a half away. -/
theorem divRound_nearest_bounds (hm : 0 < m) :
    2 * (Dir.nearest.divRound n m * m) ≤ 2 * n + m ∧
      2 * n ≤ 2 * (Dir.nearest.divRound n m * m) + m := by
  have hn := Nat.div_add_mod' n m
  have hlt := Nat.mod_lt n hm
  unfold divRound
  by_cases hup : Dir.nearest.RoundsUp (n / m) (n % m) m
  · rw [if_pos hup, add_mul, one_mul]
    rw [roundsUp_nearest] at hup
    omega
  rw [if_neg hup, add_zero]
  rw [roundsUp_nearest] at hup
  omega

/-- An even integer is the nearest one to both middles. -/
theorem divRound_nearest_eq_even (hm : 0 < m) (ha : a % 2 = 0) :
    Dir.nearest.divRound n m = a ↔ 2 * (a * m) ≤ 2 * n + m ∧ 2 * n ≤ 2 * (a * m) + m := by
  constructor
  · rintro rfl
    exact divRound_nearest_bounds hm
  rintro ⟨hlow, hhigh⟩
  obtain ⟨hlow', hhigh'⟩ := divRound_nearest_bounds (n := n) hm
  generalize hv : Dir.nearest.divRound n m = v at hlow' hhigh'
  rcases lt_trichotomy v a with hlt | heq | hgt
  · -- the middle below
    obtain ⟨b, rfl⟩ : ∃ b, a = b + 1 := ⟨a - 1, by omega⟩
    have hmul : v * m ≤ b * m := Nat.mul_le_mul_right m (by omega)
    rw [add_mul, one_mul] at hlow hhigh
    have hhalf := divRound_nearest_half (a := b) (r := n - b * m) (m := m) (by omega) (by omega)
    rw [Nat.add_sub_cancel' (by omega)] at hhalf
    omega
  · exact heq
  -- the middle above
  have hmul : (a + 1) * m ≤ v * m := Nat.mul_le_mul_right m (by omega)
  rw [add_mul, one_mul] at hmul
  have hhalf := divRound_nearest_half (a := a) (r := n - a * m) (m := m) (by omega) (by omega)
  rw [Nat.add_sub_cancel' (by omega)] at hhalf
  omega

/-- When a quotient below an even number is rounded to it. -/
theorem divRound_eq_top_iff (d : Dir) (hm : 0 < m) (ha : a % 2 = 0) (hlt : n < a * m) :
    d.divRound n m = a ↔
      d = .away ∧ (a - 1) * m < n ∨ d = .nearest ∧ 2 * (a * m) ≤ 2 * n + m := by
  have hle : d.divRound n m ≤ a := divRound_le hm hlt.le
  have hpos : 0 < a := Nat.pos_of_mul_pos_right (Nat.zero_lt_of_lt hlt)
  cases d with
  | zero =>
    have hdiv : n / m < a := (Nat.div_lt_iff_lt_mul hm).mpr hlt
    exact iff_of_false hdiv.ne (by simp)
  | away =>
    rw [← lt_divRound_away hm]
    simp
    omega
  | nearest =>
    rw [divRound_nearest_eq_even hm ha]
    simp
    omega

end DivRound

/-! ### The sticky bit

A quotient in halves whose last bit is set if there is a remainder stands for the exact quotient in
every rounding by two digits more. -/

def sticky (n m : ℕ) : ℕ := 2 * (n / m) + if n % m = 0 then 0 else 1

section Sticky

variable {d : Dir} {n m c r : ℕ}

theorem sticky_mul_add (c : ℕ) (hr : r < m) :
    sticky (c * m + r) m = 2 * c + if r = 0 then 0 else 1 := by
  obtain ⟨hdiv, hmod⟩ := mul_add_div_mod c hr
  unfold sticky
  rw [hdiv, hmod]

theorem sticky_add (c n : ℕ) (hm : 0 < m) : sticky (c * m + n) m = 2 * c + sticky n m := by
  have hsplit : c * m + n = (c + n / m) * m + n % m := by
    rw [add_mul, add_assoc, Nat.div_add_mod']
  rw [hsplit, sticky_mul_add _ (Nat.mod_lt n hm), mul_add, add_assoc]
  rfl

/-- The sticky bit of a difference is that of the number subtracted. -/
theorem sticky_sub (hm : 0 < m) (h : n ≤ c * m) : sticky (c * m - n) m + sticky n m = 2 * c := by
  have hn := Nat.div_add_mod' n m
  have hr := Nat.mod_lt n hm
  unfold sticky
  by_cases hzero : n % m = 0
  · have hsub : c * m - n = (c - n / m) * m := by
      rw [Nat.sub_mul]
      omega
    have hle : n / m ≤ c := Nat.le_of_mul_le_mul_right (by omega) hm
    rw [hsub, Nat.mul_div_cancel _ hm, Nat.mul_mod_left, if_pos rfl, if_pos hzero]
    omega
  have hlt : n / m < c := by
    by_contra hge
    have := Nat.mul_le_mul_right m (not_lt.mp hge)
    omega
  have hsub : c * m - n = (c - n / m - 1) * m + (m - n % m) := by
    have hmul : (c - n / m - 1) * m = c * m - n / m * m - m := by
      rw [Nat.sub_mul, Nat.sub_mul, one_mul]
    have hle : (n / m + 1) * m ≤ c * m := Nat.mul_le_mul_right m hlt
    rw [add_mul, one_mul] at hle
    omega
  have hsum := sticky_mul_add (m := m) (c - n / m - 1) (show m - n % m < m by omega)
  rw [if_neg (show ¬ m - n % m = 0 by omega), ← hsub, sticky] at hsum
  rw [if_neg hzero, hsum]
  omega

theorem sticky_lt_iff (hm : 0 < m) : sticky n m < 2 * c ↔ n < c * m := by
  rw [← Nat.div_lt_iff_lt_mul hm]
  unfold sticky
  split <;> omega

theorem sticky_le_iff (hm : 0 < m) : sticky n m ≤ 2 * c ↔ n ≤ c * m := by
  have hn := Nat.div_add_mod' n m
  rcases lt_trichotomy (n / m) c with hlt | heq | hgt
  · have hmul : (n / m + 1) * m ≤ c * m := Nat.mul_le_mul_right m hlt
    have hmod := Nat.mod_lt n hm
    rw [add_mul, one_mul] at hmul
    refine iff_of_true ?_ (by omega)
    unfold sticky
    split <;> omega
  · rw [heq] at hn
    unfold sticky
    rw [heq]
    split <;> omega
  have hmul : (c + 1) * m ≤ n / m * m := Nat.mul_le_mul_right m hgt
  rw [add_mul, one_mul] at hmul
  refine iff_of_false ?_ (by omega)
  unfold sticky
  split <;> omega

theorem sticky_mul_right (n m : ℕ) (hc : 0 < c) : sticky (n * c) (m * c) = sticky n m := by
  have hzero : n % m * c = 0 ↔ n % m = 0 := mul_eq_zero_iff_right hc.ne'
  unfold sticky
  rw [Nat.mul_div_mul_right n m hc, Nat.mul_mod_mul_right]
  simp only [hzero]

/-- A sticky bit that takes in one more digit. -/
theorem sticky_double (n : ℕ) (hm : 0 < m) :
    sticky n (2 * m) = 2 * (sticky n m / 4) + if sticky n m % 4 = 0 then 0 else 1 := by
  have hdiv : n / (2 * m) = n / m / 2 := by rw [mul_comm, Nat.div_div_eq_div_mul]
  have hmod : n % (2 * m) = n % m + m * (n / m % 2) := by rw [mul_comm, Nat.mod_mul]
  unfold sticky
  rw [hdiv, hmod]
  rcases Nat.mod_two_eq_zero_or_one (n / m) with heven | hodd
  · rw [heven, mul_zero, add_zero]
    split <;> split <;> omega
  rw [hodd, mul_one, if_neg (by omega)]
  split <;> split <;> omega

/-- **Rounding with the sticky bit.** -/
theorem divRound_sticky (d : Dir) (n : ℕ) {h : ℕ} (hm : 0 < m) (hh : 0 < h) :
    d.divRound n (2 * h * m) = d.divRound (sticky n m) (4 * h) := by
  obtain ⟨p, r, hr, rfl⟩ : ∃ p r, r < m ∧ n = p * m + r :=
    ⟨n / m, n % m, Nat.mod_lt n hm, (Nat.div_add_mod' n m).symm⟩
  obtain ⟨q, l, hl, rfl⟩ : ∃ q l, l < 2 * h ∧ p = q * (2 * h) + l :=
    ⟨p / (2 * h), p % (2 * h), Nat.mod_lt p (by omega), (Nat.div_add_mod' p (2 * h)).symm⟩
  have hexact : (q * (2 * h) + l) * m + r = q * (2 * h * m) + (l * m + r) := by ring
  have hlt : l * m + r < 2 * h * m := by
    have hmul : (l + 1) * m ≤ 2 * h * m := Nat.mul_le_mul_right m hl
    rw [add_mul, one_mul] at hmul
    omega
  have hsticky : 2 * (q * (2 * h) + l) + (if r = 0 then 0 else 1)
      = q * (4 * h) + (2 * l + if r = 0 then 0 else 1) := by ring
  have hlt' : 2 * l + (if r = 0 then 0 else 1) < 4 * h := by split <;> omega
  have hup : d.RoundsUp q (l * m + r) (2 * h * m) ↔
      d.RoundsUp q (2 * l + if r = 0 then 0 else 1) (4 * h) := by
    cases d with
    | zero => exact .rfl
    | away =>
      have hzero : l * m = 0 ↔ l = 0 := mul_eq_zero_iff_right hm.ne'
      rw [roundsUp_away, roundsUp_away]
      split <;> omega
    | nearest =>
      have hmul : 2 * h * m = 2 * (h * m) := mul_assoc 2 h m
      rw [roundsUp_nearest, roundsUp_nearest, hmul]
      rcases lt_trichotomy l h with hlow | rfl | hhigh
      · have := Nat.mul_le_mul_right m hlow
        rw [Nat.succ_mul] at this
        split <;> omega
      · split <;> omega
      have := Nat.mul_le_mul_right m hhigh
      rw [Nat.succ_mul] at this
      split <;> omega
  rw [sticky_mul_add _ hr, hsticky, divRound_mul_add d q hlt', hexact, divRound_mul_add d q hlt]
  simp only [hup]

end Sticky

/-- Rounding a quotient of natural numbers. -/
theorem rint_div (d : Dir) (n : ℕ) {m : ℕ} (hm : 0 < m) :
    d.rint ((n : ℚ) / m) = (d.divRound n m : ℤ) := by
  obtain ⟨q, r, hr, rfl⟩ : ∃ q r, r < m ∧ n = q * m + r :=
    ⟨n / m, n % m, Nat.mod_lt n hm, (Nat.div_add_mod' n m).symm⟩
  have hm' : (0 : ℚ) < m := by exact_mod_cast hm
  have hx : ((q * m + r : ℕ) : ℚ) / m = (q : ℤ) + (r : ℚ) / m := by
    push_cast
    rw [add_div, mul_div_cancel_right₀ _ hm'.ne']
  have hpos : (0 : ℚ) ≤ (r : ℚ) / m := by positivity
  have hlt : (r : ℚ) / m < 1 := by
    rw [div_lt_one hm']
    exact_mod_cast hr
  have hfloor : ⌊((q : ℤ) : ℚ) + (r : ℚ) / m⌋ = q := by
    rw [floor_eq_iff]
    exact ⟨by linarith, by linarith⟩
  rw [hx, divRound_mul_add d q hr]
  cases d with
  | zero => exact hfloor
  | away =>
    show ⌈((q : ℤ) : ℚ) + (r : ℚ) / m⌉ = _
    by_cases hzero : r = 0
    · rw [if_neg (roundsUp_away.not.mpr (not_not_intro hzero)), hzero, Nat.cast_zero, zero_div,
        add_zero, ceil_intCast]
      rfl
    have hpos' : (0 : ℚ) < (r : ℚ) / m := by
      have : (0 : ℚ) < r := by exact_mod_cast Nat.pos_of_ne_zero hzero
      positivity
    rw [if_pos (roundsUp_away.mpr hzero), ceil_eq_iff]
    push_cast
    exact ⟨by linarith, by linarith⟩
  | nearest =>
    have hfract : fract (((q : ℤ) : ℚ) + (r : ℚ) / m) = (r : ℚ) / m := by
      rw [fract, hfloor]
      ring
    have hhalf : (r : ℚ) / m < 1 / 2 ↔ 2 * r < m := by
      rw [div_lt_div_iff₀ hm' two_pos, one_mul, mul_comm]
      exact_mod_cast Iff.rfl
    have htie : (r : ℚ) / m = 1 / 2 ↔ 2 * r = m := by
      rw [div_eq_div_iff hm'.ne' two_ne_zero, one_mul, mul_comm]
      exact_mod_cast Iff.rfl
    have hup : ¬ (2 * r < m ∨ 2 * r = m ∧ (q : ℤ) % 2 = 0) ↔ Dir.nearest.RoundsUp q r m := by
      rw [roundsUp_nearest]
      omega
    show (if _ then _ else _) = _
    rw [hfract, hfloor]
    simp only [hhalf, htie, ← hup]
    by_cases hdown : 2 * r < m ∨ 2 * r = m ∧ (q : ℤ) % 2 = 0
    · rw [if_pos hdown, if_neg (not_not_intro hdown), add_zero]
    rw [if_neg hdown, if_pos hdown]
    rfl

theorem rint_natCast (d : Dir) (n : ℕ) : d.rint n = n := by
  have h := d.rint_div n one_pos
  rwa [Nat.cast_one, div_one, divRound_one] at h

end Dir

/-! ## Binary formats -/

/-- A binary format: the number of digits of a significand, the exponent of the least quantum, and
the power of two that finite values stay below. -/
structure Format where
  prec : ℕ
  qmin : ℤ
  emax : ℤ

namespace Format

variable {F : Format} {d : Dir} {x : ℚ} {n m : ℕ} {q : ℤ}

/-- The exponent of the unit in the last place. -/
def quantum (F : Format) (x : ℚ) : ℤ := max (log 2 x - (F.prec - 1)) F.qmin

/-- A magnitude rounded as if there were no largest exponent. -/
def round (F : Format) (d : Dir) (x : ℚ) : ℚ := d.rint (x / 2 ^ F.quantum x) * 2 ^ F.quantum x

theorem round_zero : F.round d 0 = 0 := by
  have hrint : d.rint 0 = 0 := d.rint_natCast 0
  rw [round, zero_div, hrint, cast_zero, zero_mul]

theorem round_eq (hm : 0 < m) (hx : x = (n : ℚ) / m * 2 ^ q) (hq : F.quantum x = q) :
    F.round d x = d.divRound n m * 2 ^ q := by
  have hpow : (2 : ℚ) ^ q ≠ 0 := zpow_ne_zero q two_ne_zero
  rw [round, hq, hx, mul_div_cancel_right₀ _ hpow, Dir.rint_div d n hm]
  rfl

/-- A magnitude with as many digits as the format, or with the least quantum and at most as many. -/
theorem quantum_eq (hprec : 0 < F.prec) (hm : 0 < m) (hn : 0 < n)
    (hx : x = (n : ℚ) / m * 2 ^ q) (hlow : q = F.qmin ∨ F.qmin ≤ q ∧ 2 ^ (F.prec - 1) * m ≤ n)
    (hhigh : n < 2 ^ F.prec * m) : F.quantum x = q := by
  have hm' : (0 : ℚ) < m := by exact_mod_cast hm
  have hn' : (0 : ℚ) < n := by exact_mod_cast hn
  have hpow : (0 : ℚ) < 2 ^ q := zpow_pos two_pos q
  have hpos : 0 < x := by
    rw [hx]
    positivity
  have hle : log 2 x ≤ F.prec - 1 + q := by
    have hhigh' : (n : ℚ) / m < 2 ^ F.prec := by
      rw [div_lt_iff₀ hm']
      exact_mod_cast hhigh
    rw [← lt_add_one_iff, ← lt_zpow_iff_log_lt one_lt_two hpos, hx]
    calc (n : ℚ) / m * 2 ^ q < 2 ^ F.prec * 2 ^ q := mul_lt_mul_of_pos_right hhigh' hpow
      _ = 2 ^ ((F.prec : ℤ) - 1 + q + 1) := (two_zpow_eq_mul _ (by ring)).symm
  unfold quantum
  rcases hlow with rfl | ⟨hq, hlow⟩
  · exact max_eq_right (by linarith)
  have hge : F.prec - 1 + q ≤ log 2 x := by
    have hlow' : (2 : ℚ) ^ (F.prec - 1) ≤ (n : ℚ) / m := by
      rw [le_div_iff₀ hm']
      exact_mod_cast hlow
    rw [← zpow_le_iff_le_log one_lt_two hpos, hx]
    calc ((2 : ℕ) : ℚ) ^ ((F.prec : ℤ) - 1 + q) = 2 ^ (F.prec - 1) * 2 ^ q :=
          two_zpow_eq_mul _ (by rw [Nat.cast_sub hprec, Nat.cast_one])
      _ ≤ (n : ℚ) / m * 2 ^ q := mul_le_mul_of_nonneg_right hlow' hpow.le
  omega

end Format

end Ish.Lib
