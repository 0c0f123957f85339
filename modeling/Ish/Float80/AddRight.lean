import Ish.Float80.Add

set_option autoImplicit false

/-! # When a sum is right

A sum whose smaller number is shifted exactly is right, but for the sum `2 ^ 16384` that is to be
rounded to zero. For the other sums, `Inexact.correct_iff` leaves a question about small numbers:
the exact sum and the aligned sum are `s` and `s'` eighths of a last place away from `A`, and have
to be rounded alike.

* If the smaller number is far below, both are at most four eighths (`small_iff`).
* If a denormal number is halved, `s'` is the half of `s`, and for large `s` the two are rounded
  differently. What is left depends on `s`, on the parity of `A`, and on `A` itself only next to a
  power of two; that is a finite table (`halved_iff`).
-/

namespace Ish.Float80

open Ish.Lib.Dir Ish.Lib Dir

/-- **The rounded sum does not change when `b` is halved.** The significand of the normal number is
`A`, and the denormal number is `Y / U` quarters of a last place of it. -/
def HalvedRight (d : Dir) (opposite : Prop) [Decidable opposite] (A Y U : ℕ) : Prop :=
  if opposite then
    match d with
    | .zero => Y ≤ if A = 2 ^ 63 then 2 * U else 4 * U
    | .away => Y < if A = 2 ^ 63 then 2 * U else 4 * U
    | .nearest =>
      if A = 2 ^ 63 then Y ≤ U ∨ 2 * U < Y ∧ Y < 3 * U
      else Y < 2 * U ∨ Y = 2 * U ∧ A % 2 = 0 ∨
        if A % 2 = 0 then 4 * U < Y ∧ Y < 6 * U
        else 4 * U ≤ Y ∧ Y ≤ if A = 2 ^ 63 + 1 then 5 * U else 6 * U
  else
    match d with
    | .zero => Y < 4 * U ∨ A = 2 ^ 64 - 1 ∧ 8 * U ≤ Y ∧ Y < 12 * U
    | .away => Y ≤ 4 * U ∨ A = 2 ^ 64 - 1 ∧ 8 * U < Y ∧ Y ≤ 12 * U
    | .nearest =>
      Y < 2 * U ∨ Y = 2 * U ∧ A % 2 = 0 ∨
        if A % 2 = 0 then 4 * U < Y ∧ Y < 6 * U ∨ A = 2 ^ 64 - 2 ∧ Y = 12 * U
        else 4 * U ≤ Y ∧ Y ≤ if A = 2 ^ 64 - 1 then 8 * U else 6 * U

instance (d : Dir) (opposite : Prop) [Decidable opposite] (A Y U : ℕ) :
    Decidable (HalvedRight d opposite A Y U) := by
  unfold HalvedRight
  cases d <;> infer_instance

/-- When the sum of two finite numbers is right, the one with the larger exponent first. -/
def OrderedRight (mode : Mode) (a b : F80) : Prop :=
  if b.exp = 0 ∧ a.exp ≠ 0 ∧ b.signif ≠ 0 then
    HalvedRight (mode.dir a.sign) (a.sign ≠ b.sign) a.signif (4 * b.signif) (2 ^ (a.exp - 1)) ∧
      -- all bits are shifted out, the guard bit too
      ¬ (mode.dir b.sign = .away ∧ a.exp ≤ 127 ∧ b.signif < 2 ^ (a.exp - 65))
  else
    -- just below a tie
    ¬ (mode = .nearest ∧ a.exp = b.exp + 65 ∧
        if a.signif = 2 ^ 63 ∧ a.sign ≠ b.sign then b.signif = 2 ^ 63 + 1
        else b.signif = 2 ^ 64 - 1 ∧ a.signif % 2 = 1) ∧
      ¬ (|a.val + b.val| = 2 ^ extended.emax ∧ mode.dir a.sign = .zero)

def AddRight (mode : Mode) (a b : F80) : Prop :=
  if a.exp < b.exp then OrderedRight mode b a else OrderedRight mode a b

/-! ## The finite table -/

section Table

variable {d : Dir} {A s : ℕ}
variable {z A' s' : ℕ} {opposite : Prop}

/-- Eighths that are taken from a halved number. -/
def halve (s : ℕ) : ℕ := 2 * (s / 4) + if s % 4 = 0 then 0 else 1

theorem halve_le (s : ℕ) : 2 * halve s ≤ s + 2 := by
  unfold halve
  split <;> omega

theorem mem_dirs (d : Dir) : d ∈ [zero, away, nearest] := by
  cases d <;> decide

/-- The numbers next to the power of two that a difference or a sum can pass. -/
def nearPower (o : Bool) (i : ℕ) : ℕ := if o then 2 ^ 63 + i else 2 ^ 64 - 1 - i

/-- The numbers whose differences or sums do not pass it. -/
def FarFromPower (o : Bool) (A : ℕ) : Prop :=
  if o then 2 ^ 63 + 7 ≤ A ∧ A < 2 ^ 64 else 2 ^ 63 ≤ A ∧ A < 2 ^ 64 - 7

theorem table_halved : ∀ d ∈ [zero, away, nearest], ∀ o ∈ [true, false], ∀ i < 9,
    ∀ s < 50, s = 0 ∨ (roundEighths d (eighths (o = true) (nearPower o i) s)
        = roundEighths d (eighths (o = true) (nearPower o i) (halve s)) ↔
      HalvedRight d (o = true) (nearPower o i) s 2) := by
  decide +kernel

/-- What holds for the numbers of a table and depends on the parity of the others. -/
@[elab_as_elim]
theorem of_table (o : Bool) {P : ℕ → Prop} (A : ℕ) (hlow : 2 ^ 63 ≤ A) (hhigh : A < 2 ^ 64)
    (htable : ∀ i < 9, P (nearPower o i))
    (hfar : ∀ A A', FarFromPower o A → FarFromPower o A' → A % 2 = A' % 2 → (P A ↔ P A')) :
    P A := by
  by_cases hA : FarFromPower o A
  · refine (hfar (nearPower o (7 + (A + (if o then 1 else 0)) % 2)) A ?_ hA ?_).mp
      (htable _ (by omega))
    · unfold FarFromPower nearPower
      split <;> omega
    unfold nearPower
    split <;> omega
  unfold FarFromPower at hA
  have h := htable (if o then A - 2 ^ 63 else 2 ^ 64 - 1 - A)
    (by split at hA <;> simp [*] <;> omega)
  unfold nearPower at h
  cases o with
  | true => rwa [if_pos rfl, if_pos rfl, Nat.add_sub_cancel' hlow] at h
  | false => rwa [if_neg (by simp), if_neg (by simp), Nat.sub_sub_self (by omega)] at h

/-- Away from a power of two only the parity of `A` matters. -/
theorem roundEighths_parity (o : Bool) (hA : FarFromPower o A) (hA' : FarFromPower o A')
    (hs : s < 50) (hs' : s' < 50) (hparity : A % 2 = A' % 2) :
    (roundEighths d (eighths (o = true) A s) = roundEighths d (eighths (o = true) A s') ↔
      roundEighths d (eighths (o = true) A' s) = roundEighths d (eighths (o = true) A' s')) := by
  wlog hle : A ≤ A' generalizing A A'
  · exact (this hA' hA hparity.symm (by omega)).symm
  obtain ⟨k, rfl⟩ : ∃ k, A' = A + 2 * k := ⟨(A' - A) / 2, by omega⟩
  have hshift : ∀ r < 50, roundEighths d (eighths (o = true) (A + 2 * k) r)
      = 4 * k + roundEighths d (eighths (o = true) A r) := by
    intro r hr
    have hadd : eighths (o = true) (A + 2 * k) r = 2 * k * 8 + eighths (o = true) A r ∧
        2 ^ 66 ≤ eighths (o = true) A r ∧ 2 * k * 8 + eighths (o = true) A r < 2 ^ 67 := by
      unfold FarFromPower at hA hA'
      unfold eighths
      cases o <;> simp only [if_true, if_false, Bool.false_eq_true] at hA hA' ⊢ <;> omega
    unfold roundEighths
    rw [hadd.1, if_neg (by omega), if_pos hadd.2.2, if_neg (by omega), if_pos (by omega),
      divRound_even_mul_add d k _ (by decide)]
    ring
  rw [hshift s hs, hshift s' hs', Nat.add_left_cancel_iff]

theorem halvedRight_parity (o : Bool) (hA : FarFromPower o A) (hA' : FarFromPower o A')
    (hparity : A % 2 = A' % 2) :
    HalvedRight d (o = true) A s 2 ↔ HalvedRight d (o = true) A' s 2 := by
  unfold FarFromPower at hA hA'
  unfold HalvedRight
  rw [hparity]
  cases d <;> dsimp only <;> split_ifs at * <;> omega

theorem not_halvedRight [Decidable opposite] (hs : 50 ≤ s) : ¬ HalvedRight d opposite A s 2 := by
  unfold HalvedRight
  cases d <;> dsimp only <;> split_ifs <;> omega

/-- Numbers that are far apart are rounded differently. -/
theorem roundEighths_lt {z' : ℕ} (h : z + 24 ≤ z') : roundEighths d z < roundEighths d z' := by
  obtain ⟨h4, -⟩ := divRound_bounds d z (show 0 < 4 by decide)
  obtain ⟨h8, -⟩ := divRound_bounds d z (show 0 < 8 by decide)
  obtain ⟨-, h4'⟩ := divRound_bounds d z' (show 0 < 4 by decide)
  obtain ⟨-, h8'⟩ := divRound_bounds d z' (show 0 < 8 by decide)
  obtain ⟨-, h16'⟩ := divRound_bounds d z' (show 0 < 16 by decide)
  have h16 := divRound_lt (d := d) (show 0 < 16 by decide) (show z + 16 < z' by omega)
  unfold roundEighths
  split_ifs <;> omega

theorem halved_iff (o : Bool) (hlow : 2 ^ 63 ≤ A) (hhigh : A < 2 ^ 64) (hs : s ≠ 0)
    (hle : s ≤ 8 * A) :
    roundEighths d (eighths (o = true) A s) = roundEighths d (eighths (o = true) A (halve s)) ↔
      HalvedRight d (o = true) A s 2 := by
  have hhalf := halve_le s
  by_cases hlarge : 50 ≤ s
  · -- a large denormal number
    refine iff_of_false ?_ (not_halvedRight hlarge)
    unfold eighths
    split
    · exact (roundEighths_lt (by omega)).ne
    · exact (roundEighths_lt (by omega)).ne'
  refine of_table o A hlow hhigh (fun i hi => ?_) fun A A' hA hA' hparity => ?_
  · exact (table_halved d (mem_dirs d) o (by cases o <;> decide) i hi s (by omega)).resolve_left hs
  rw [roundEighths_parity o hA hA' (by omega) (by omega) hparity,
    halvedRight_parity o hA hA' hparity]

/-- The table in quarters of a last place is the table in eighths with a sticky bit. -/
theorem halvedRight_sticky [Decidable opposite] {Y U : ℕ} (hU : 0 < U) :
    HalvedRight d opposite A Y U ↔ HalvedRight d opposite A (sticky Y U) 2 := by
  have hlt : ∀ c, sticky Y U < c * 2 ↔ Y < c * U := fun c => by
    rw [mul_comm c 2, sticky_lt_iff hU]
  have hle : ∀ c, sticky Y U ≤ c * 2 ↔ Y ≤ c * U := fun c => by
    rw [mul_comm c 2, sticky_le_iff hU]
  have hle1 := hle 1
  have hle2 := hle 2
  have hlt2 := hlt 2
  have hlt3 := hlt 3
  have hle4 := hle 4
  have hlt4 := hlt 4
  have hle5 := hle 5
  have hle6 := hle 6
  have hlt6 := hlt 6
  have hle8 := hle 8
  have hlt8 := hlt 8
  have hle12 := hle 12
  have hlt12 := hlt 12
  generalize sticky Y U = s at *
  unfold HalvedRight
  by_cases hopp : opposite
  · rw [if_pos hopp, if_pos hopp]
    cases d with
    | zero | away =>
      dsimp only
      split <;> omega
    | nearest =>
      dsimp only
      split
      · omega
      split
      · omega
      · split <;> omega
  · rw [if_neg hopp, if_neg hopp]
    cases d with
    | zero => omega
    | away => omega
    | nearest =>
      dsimp only
      split
      · omega
      · split <;> omega

/-! ## Numbers far below -/

/-- Numbers of eighths, at most four, that are rounded alike when they are added to `A` or
subtracted from it. -/
def SameRound (d : Dir) (opposite : Prop) (A s s' : ℕ) : Prop :=
  match d with
  | .zero => opposite → (s = 0 ↔ s' = 0)
  | .away => (¬ opposite → (s = 0 ↔ s' = 0)) ∧ (opposite ∧ A = 2 ^ 63 → (s = 4 ↔ s' = 4))
  | .nearest =>
    if A = 2 ^ 63 then opposite → (3 ≤ s ↔ 3 ≤ s') else A % 2 = 1 → (s = 4 ↔ s' = 4)

instance (d : Dir) (opposite : Prop) [Decidable opposite] (A s s' : ℕ) :
    Decidable (SameRound d opposite A s s') := by
  unfold SameRound
  cases d <;> infer_instance

theorem table_small : ∀ d ∈ [zero, away, nearest], ∀ o ∈ [true, false], ∀ i < 9,
    ∀ s < 5, ∀ s' < 5, (roundEighths d (eighths (o = true) (nearPower o i) s)
        = roundEighths d (eighths (o = true) (nearPower o i) s') ↔
      SameRound d (o = true) (nearPower o i) s s') := by
  decide +kernel

/-- The three ways to be rounded differently: the last place moves for one of them only, only one is
at a tie, or only one passes a quarter below a power of two. -/
theorem sameRound_iff : SameRound d opposite A s s' ↔
      (d = .zero ∧ opposite ∨ d = .away ∧ ¬ opposite → (s = 0 ↔ s' = 0)) ∧
      (d = .away ∧ opposite ∧ A = 2 ^ 63 ∨ d = .nearest ∧ A ≠ 2 ^ 63 ∧ A % 2 = 1 →
        (s = 4 ↔ s' = 4)) ∧
      (d = .nearest ∧ opposite ∧ A = 2 ^ 63 → (3 ≤ s ↔ 3 ≤ s')) := by
  unfold SameRound
  generalize 2 ^ 63 = P
  cases d with
  | zero => simp
  | away => simp
  | nearest => by_cases hA : A = P <;> simp [hA]

theorem sameRound_parity (o : Bool) (hA : FarFromPower o A) (hA' : FarFromPower o A')
    (hparity : A % 2 = A' % 2) :
    SameRound d (o = true) A s s' ↔ SameRound d (o = true) A' s s' := by
  have hpower : ∀ B, FarFromPower o B → (o = true ∧ B = 2 ^ 63 ↔ False) := by
    intro B hB
    unfold FarFromPower at hB
    cases o <;> simp at hB ⊢
    omega
  have hodd : ∀ B, B ≠ 2 ^ 63 ∧ B % 2 = 1 ↔ B % 2 = 1 := fun B => by omega
  rw [sameRound_iff, sameRound_iff, hpower A hA, hpower A' hA', hodd, hodd, hparity]

/-- A small denormal number may be halved, unless a quarter becomes an eighth below a power of
two. -/
theorem halvedRight_of_small [Decidable opposite] (hs : s < 4) :
    HalvedRight d opposite A s 2 ↔ ¬ (d = .nearest ∧ opposite ∧ A = 2 ^ 63 ∧ 3 ≤ s) := by
  unfold HalvedRight
  by_cases hopp : opposite
  · rw [if_pos hopp]
    cases d with
    | zero | away =>
      refine iff_of_true ?_ (by simp)
      dsimp only
      split <;> omega
    | nearest =>
      dsimp only
      by_cases hA : A = 2 ^ 63
      · rw [if_pos hA]
        simp only [hopp, hA, true_and]
        omega
      · rw [if_neg hA]
        refine iff_of_true (by omega) fun h => hA h.2.2.1
  · rw [if_neg hopp]
    refine iff_of_true ?_ fun h => hopp h.2.1
    cases d with
    | zero => exact .inl (by omega)
    | away => exact .inl (by omega)
    | nearest => exact .inl (by omega)

theorem small_iff (o : Bool) (hlow : 2 ^ 63 ≤ A) (hhigh : A < 2 ^ 64) (hs : s < 5) (hs' : s' < 5) :
    roundEighths d (eighths (o = true) A s) = roundEighths d (eighths (o = true) A s') ↔
      SameRound d (o = true) A s s' := by
  refine of_table o A hlow hhigh (fun i hi => ?_) fun A A' hA hA' hparity => ?_
  · exact table_small d (mem_dirs d) o (by cases o <;> decide) i hi s hs s' hs'
  rw [roundEighths_parity o hA hA' (by omega) (by omega) hparity,
    sameRound_parity o hA hA' hparity]

end Table

/-! ## The cases of a sum -/

section Cases

variable {mode : Mode} {a b : F80}

/-- The direction for a number with the other sign. -/
theorem dir_opposite (mode : Mode) {s t : Bool} (h : s ≠ t) :
    (mode.dir t = .away ↔ mode.dir s = .zero ∧ mode ≠ .chop) ∧
      (mode.dir s = .away → mode.dir t = .zero) := by
  cases mode <;> cases s <;> cases t <;> first | exact absurd rfl h | decide

theorem Inexact.sticky_ne_zero (h : Inexact a b) : sticky (4 * b.signif) (2 ^ places a b) ≠ 0 := by
  have hzero := sticky_le_iff (n := 4 * b.signif) (c := 0) (Nat.two_pow_pos (places a b))
  have := h.ne_zero
  omega

/-- **A denormal number that is halved.** -/
theorem Inexact.correct_near_iff (h : Inexact a b) (hgap : a.exp ≤ 64)
    (hrange : minNormal ≤ |a.val + b.val|) :
    CorrectlyRounded mode (a.val + b.val) (finishAdd mode (addOrdered mode a b)) ↔
      HalvedRight (mode.dir a.sign) (a.sign ≠ b.sign) a.signif (4 * b.signif)
        (2 ^ (a.exp - 1)) := by
  have hnormal := h.normal
  have hplaces : places a b = a.exp - 1 := by
    have := h.far
    unfold places
    omega
  have hpow : 2 ^ 64 = 2 * 2 ^ (a.exp - 1) * 2 ^ (64 - a.exp) := by
    rw [← pow_succ', ← pow_add]
    congr 1
    omega
  have hhalve : sticky (4 * moved mode a b) (2 ^ 64)
      = halve (sticky (4 * b.signif) (2 ^ (a.exp - 1))) := by
    rw [h.moved_of_near mode hgap, ← mul_assoc, hpow, sticky_mul_right _ _ (Nat.two_pow_pos _),
      sticky_double _ (Nat.two_pow_pos _)]
    rfl
  have hne := h.sticky_ne_zero
  have hle : sticky (4 * b.signif) (2 ^ (a.exp - 1)) ≤ 8 * a.signif := by
    have hmul := h.signif_lt_mul
    have hle := sticky_le_iff (n := 4 * b.signif) (c := 4 * a.signif) (Nat.two_pow_pos (a.exp - 1))
    rw [hplaces] at hmul
    have := hle.mpr (by rw [mul_assoc]; omega)
    omega
  rw [hplaces] at hne
  rw [h.correct_iff hrange, hhalve, hplaces, halvedRight_sticky (Nat.two_pow_pos _)]
  generalize sticky (4 * b.signif) (2 ^ (a.exp - 1)) = s at hne hle
  simpa only [decide_eq_true_eq] using
    halved_iff (decide (a.sign ≠ b.sign)) h.le_signif a.signif_lt hne hle

/-! ### Numbers far below -/

/-- All bits are shifted out by a shift away from zero. -/
theorem lost_iff (hfar : 65 ≤ a.exp - b.exp) (hne : b.signif ≠ 0) :
    mode.dir b.sign = .away ∧ aligned mode a b = 0 ↔
      mode.dir b.sign = .away ∧ a.exp - b.exp ≤ 127 ∧ b.signif < 2 ^ (a.exp - b.exp - 65) := by
  refine and_congr_right fun haway => ?_
  by_cases hbig : 127 < a.exp - b.exp
  · rw [aligned_of_big hbig, if_pos ⟨haway, hne⟩]
    omega
  rw [aligned_of_mid hfar (by omega), haway, divRound_away_eq_zero,
    Nat.div_eq_zero_iff_lt (Nat.two_pow_pos _)]
  omega

/-- The loss matters exactly when the last place should have moved. -/
theorem moved_eq_zero_iff (hne : b.signif ≠ 0) :
    (mode.dir a.sign = .zero ∧ a.sign ≠ b.sign ∨ mode.dir a.sign = .away ∧ ¬ a.sign ≠ b.sign) ∧
        moved mode a b = 0 ↔
      mode.dir b.sign = .away ∧ aligned mode a b = 0 := by
  unfold moved
  by_cases hsign : a.sign = b.sign
  · rw [if_neg (not_not_intro hsign), hsign]
    simp
  obtain ⟨hdir, -⟩ := dir_opposite mode hsign
  have hsub : mode ≠ .chop → subtracted mode a b = aligned mode a b :=
    fun h => if_neg fun h' => h h'.1
  rw [if_pos hsign, hdir]
  constructor
  · rintro ⟨hcase, hzero⟩
    have hchop : mode ≠ .chop := by
      rintro rfl
      unfold subtracted at hzero
      split at hzero
      · omega
      case isFalse h => exact h ⟨rfl, hzero, hne⟩
    rw [hsub hchop] at hzero
    exact ⟨⟨(hcase.resolve_right fun h => h.2 hsign).1, hchop⟩, hzero⟩
  · rintro ⟨⟨hdir, hchop⟩, hzero⟩
    exact ⟨.inl ⟨hdir, hsign⟩, by rwa [hsub hchop]⟩

theorem moved_le_62 (mode : Mode) (hfar : 65 ≤ a.exp - b.exp)
    (h : 66 ≤ a.exp - b.exp ∨ b.signif < 2 ^ 63) : moved mode a b ≤ 2 ^ 62 := by
  have haligned : aligned mode a b ≤ 2 ^ 62 := by
    by_cases hbig : 127 < a.exp - b.exp
    · rw [aligned_of_big hbig]
      split <;> omega
    rw [aligned_of_mid hfar (by omega)]
    apply divRound_le (by decide)
    rcases h with h66 | hlt
    · have hpow : 2 ^ 1 ≤ 2 ^ (a.exp - b.exp - 65) := Nat.pow_le_pow_right two_pos (by omega)
      have hlt := b.signif_lt
      calc b.signif / 2 ^ (a.exp - b.exp - 65) ≤ b.signif / 2 ^ 1 :=
            Nat.div_le_div_left hpow (by decide)
        _ ≤ 2 ^ 62 * 2 := by omega
    · exact le_trans (Nat.div_le_self _ _) (by omega)
  unfold moved subtracted
  split
  · split <;> omega
  · exact haligned

/-- The sticky eighths of what is moved. -/
theorem sticky_moved (hle : moved mode a b ≤ 2 ^ 63) :
    sticky (4 * moved mode a b) (2 ^ 64) < 5 ∧
      (sticky (4 * moved mode a b) (2 ^ 64) = 0 ↔ moved mode a b = 0) ∧
      (3 ≤ sticky (4 * moved mode a b) (2 ^ 64) ↔ 2 ^ 62 < moved mode a b) ∧
      (sticky (4 * moved mode a b) (2 ^ 64) = 4 ↔ moved mode a b = 2 ^ 63) := by
  have h0 := sticky_le_iff (n := 4 * moved mode a b) (m := 2 ^ 64) (c := 0) (by decide)
  have h1 := sticky_le_iff (n := 4 * moved mode a b) (m := 2 ^ 64) (c := 1) (by decide)
  have h2 := sticky_le_iff (n := 4 * moved mode a b) (m := 2 ^ 64) (c := 2) (by decide)
  have h2' := sticky_lt_iff (n := 4 * moved mode a b) (m := 2 ^ 64) (c := 2) (by decide)
  omega

namespace Inexact

theorem correct_far_iff (h : Inexact a b) (hfar : 65 ≤ a.exp - b.exp)
    (hrange : minNormal ≤ |a.val + b.val|) (hs : sticky (4 * b.signif) (2 ^ places a b) < 4) :
    CorrectlyRounded mode (a.val + b.val) (finishAdd mode (addOrdered mode a b)) ↔
      SameRound (mode.dir a.sign) (a.sign ≠ b.sign) a.signif
        (sticky (4 * b.signif) (2 ^ places a b))
        (sticky (4 * moved mode a b) (2 ^ 64)) := by
  rw [h.correct_iff hrange]
  simpa only [decide_eq_true_eq] using small_iff (decide (a.sign ≠ b.sign)) h.le_signif a.signif_lt
    (by omega) (sticky_moved (moved_of_far mode hfar)).1

/-- The last place moves as it should, unless all bits are lost. -/
theorem moves_iff (h : Inexact a b) (mode : Mode) (hfar : 65 ≤ a.exp - b.exp) :
    (mode.dir a.sign = .zero ∧ a.sign ≠ b.sign ∨ mode.dir a.sign = .away ∧ ¬ a.sign ≠ b.sign →
      (sticky (4 * b.signif) (2 ^ places a b) = 0 ↔
        sticky (4 * moved mode a b) (2 ^ 64) = 0)) ↔
      ¬ (mode.dir b.sign = .away ∧ a.exp - b.exp ≤ 127 ∧ b.signif < 2 ^ (a.exp - b.exp - 65)) := by
  obtain ⟨-, hs', -⟩ := sticky_moved (moved_of_far mode hfar)
  rw [← lost_iff hfar h.ne_zero, ← moved_eq_zero_iff h.ne_zero, hs']
  constructor
  · rintro hiff ⟨hcase, hzero⟩
    exact h.sticky_ne_zero ((hiff hcase).mpr hzero)
  intro hlost hcase
  exact iff_of_false h.sticky_ne_zero fun hzero => hlost ⟨hcase, hzero⟩

/-- **A denormal number far below.** -/
theorem correct_denormal_iff (h : Inexact a b) (hfar : 65 ≤ a.exp) (hzero : b.exp = 0)
    (hrange : minNormal ≤ |a.val + b.val|) :
    CorrectlyRounded mode (a.val + b.val) (finishAdd mode (addOrdered mode a b)) ↔
      HalvedRight (mode.dir a.sign) (a.sign ≠ b.sign) a.signif (4 * b.signif) (2 ^ (a.exp - 1)) ∧
        ¬ (mode.dir b.sign = .away ∧ a.exp ≤ 127 ∧ b.signif < 2 ^ (a.exp - 65)) := by
  have hgap : a.exp - b.exp = a.exp := by rw [hzero, Nat.sub_zero]
  have hplaces : places a b = a.exp - 1 := by
    unfold places
    rw [hzero]
    rfl
  have hB := h.signif_lt hzero
  have hpow : 2 ^ 64 ≤ 2 ^ (a.exp - 1) := Nat.pow_le_pow_right two_pos (by omega)
  have hs4 : sticky (4 * b.signif) (2 ^ places a b) < 2 * 2 := by
    rw [sticky_lt_iff (Nat.two_pow_pos _), hplaces]
    omega
  obtain ⟨-, -, h3, h4⟩ := sticky_moved (moved_of_far mode (show 65 ≤ a.exp - b.exp by omega))
  have hmoved := moved_le_62 mode (show 65 ≤ a.exp - b.exp by omega) (.inr hB)
  have hmoves := h.moves_iff mode (by omega)
  rw [hgap] at hmoves
  rw [h.correct_far_iff (by omega) hrange hs4, halvedRight_sticky (Nat.two_pow_pos _), ← hplaces,
    sameRound_iff, hmoves, halvedRight_of_small hs4, and_comm]
  -- neither is at a tie, and what is moved is at most a quarter
  refine and_congr_left fun _ => ?_
  constructor
  · rintro ⟨-, hquarter⟩ ⟨hdir, hopp, hA, hs⟩
    have := (hquarter ⟨hdir, hopp, hA⟩).mp hs
    omega
  intro hnot
  refine ⟨fun _ => iff_of_false (by omega) (by omega), ?_⟩
  rintro ⟨hdir, hopp, hA⟩
  exact iff_of_false (fun hs => hnot ⟨hdir, hopp, hA, hs⟩) (by omega)

theorem nearest_div_two {B : ℕ} (hB : B < 2 ^ 64) (hB' : 2 ^ 63 ≤ B) :
    (nearest.divRound B 2 = 2 ^ 63 ↔ B = 2 ^ 64 - 1) ∧
      (2 ^ 62 < nearest.divRound B 2 ↔ 2 ^ 63 + 1 < B) := by
  unfold divRound
  simp only [roundsUp_nearest]
  split <;> omega

/-- **A normal number far below.** -/
theorem correct_normal_iff (h : Inexact a b) (hfar : 65 ≤ a.exp - b.exp) (hb : b.exp ≠ 0)
    (hrange : minNormal ≤ |a.val + b.val|) :
    CorrectlyRounded mode (a.val + b.val) (finishAdd mode (addOrdered mode a b)) ↔
      ¬ (mode = .nearest ∧ a.exp = b.exp + 65 ∧
        if a.signif = 2 ^ 63 ∧ a.sign ≠ b.sign then b.signif = 2 ^ 63 + 1
        else b.signif = 2 ^ 64 - 1 ∧ a.signif % 2 = 1) := by
  have hB := b.signif_lt
  have hB' := h.supported_b.le_signif hb
  have hplaces : places a b = a.exp - b.exp := by
    unfold places
    omega
  have hpow : 2 ^ 65 ≤ 2 ^ (a.exp - b.exp) := Nat.pow_le_pow_right two_pos hfar
  have hs4 : sticky (4 * b.signif) (2 ^ places a b) < 2 * 2 := by
    rw [sticky_lt_iff (Nat.two_pow_pos _), hplaces]
    omega
  have hlost : ¬ (mode.dir b.sign = .away ∧ a.exp - b.exp ≤ 127 ∧
      b.signif < 2 ^ (a.exp - b.exp - 65)) := by
    rintro ⟨-, hle, hlt⟩
    have : 2 ^ (a.exp - b.exp - 65) ≤ 2 ^ 62 := Nat.pow_le_pow_right two_pos (by omega)
    omega
  have hdir : mode = .nearest ↔ mode.dir a.sign = .nearest := nearest_iff
  obtain ⟨-, -, h3, h4⟩ := sticky_moved (moved_of_far mode hfar)
  rw [h.correct_far_iff hfar hrange hs4, sameRound_iff,
    and_iff_right ((h.moves_iff mode hfar).mpr hlost), hdir]
  by_cases h65 : a.exp = b.exp + 65
  · have hgap : a.exp - b.exp = 65 := by omega
    have hne : aligned mode a b ≠ 0 := by
      have hge : 2 ^ 62 ≤ aligned mode a b := by
        rw [aligned_of_mid hfar (by omega), hgap]
        exact le_divRound (by decide) (by omega)
      omega
    have hmoved : moved mode a b = (mode.dir b.sign).divRound b.signif 2 := by
      have hsub : subtracted mode a b = aligned mode a b := if_neg fun h => hne h.2.1
      rw [moved, hsub, ite_self, aligned_of_mid hfar (by omega), hgap, Nat.sub_self, pow_zero,
        Nat.div_one]
    have hquarter := sticky_le_iff (n := 4 * b.signif) (c := 1) (Nat.two_pow_pos (places a b))
    rw [hplaces, hgap] at hquarter
    rw [hplaces, hgap] at hs4 ⊢
    cases hd : mode.dir a.sign with
    | zero => simp
    | away =>
      refine iff_of_true ⟨?_, by simp⟩ (by simp)
      rintro (⟨-, hopp, -⟩ | ⟨hne, -⟩)
      · rw [(dir_opposite mode hopp).2 hd] at hmoved
        have hdiv : zero.divRound b.signif 2 = b.signif / 2 := rfl
        exact iff_of_false (by omega) (by omega)
      · cases hne
    | nearest =>
      have hdb : mode.dir b.sign = .nearest := nearest_iff.mp (nearest_iff.mpr hd)
      obtain ⟨htie, hpast⟩ := nearest_div_two hB hB'
      rw [hdb] at hmoved
      rw [← hmoved] at htie hpast
      by_cases hA : a.signif = 2 ^ 63
      · by_cases hopp : a.sign ≠ b.sign
        · rw [if_pos ⟨hA, hopp⟩]
          simp only [hA, hopp, h65, true_and, ne_eq, not_true, false_and, and_false, or_false,
            reduceCtorEq, false_implies, true_implies, not_false_eq_true]
          omega
        · rw [if_neg fun h => hopp h.2]
          simp [hopp, hA]
      rw [if_neg fun h => hA h.1]
      constructor
      · rintro ⟨hiff, -⟩ ⟨-, -, hones, hodd⟩
        have := (hiff (.inr ⟨rfl, hA, hodd⟩)).mpr (h4.mpr (htie.mpr hones))
        omega
      intro hnot
      refine ⟨fun hcase => iff_of_false (by omega) ?_, fun h => absurd h.2.2 hA⟩
      rintro hfour
      have hodd := (hcase.resolve_left (by simp)).2.2
      exact hnot ⟨rfl, h65, htie.mp (h4.mp hfour), hodd⟩
  · -- neither passes a quarter
    have hmoved := moved_le_62 mode hfar (.inl (show 66 ≤ a.exp - b.exp by omega))
    have hpow' : 2 ^ 66 ≤ 2 ^ (a.exp - b.exp) := Nat.pow_le_pow_right two_pos (by omega)
    have hs2 : sticky (4 * b.signif) (2 ^ places a b) < 2 * 1 := by
      rw [sticky_lt_iff (Nat.two_pow_pos _), hplaces]
      omega
    refine iff_of_true ⟨fun _ => iff_of_false (by omega) (by omega), fun _ => ?_⟩
      fun hne => h65 hne.2.1
    exact iff_of_false (by omega) (by omega)

end Inexact

theorem addOrdered_correct_iff (ha : a.IsSupported) (hb : b.IsSupported) (hfa : a.IsFinite)
    (hba : b.exp ≤ a.exp) (hrange : a.val + b.val = 0 ∨ minNormal ≤ |a.val + b.val|) :
    CorrectlyRounded mode (a.val + b.val) (finishAdd mode (addOrdered mode a b)) ↔
      OrderedRight mode a b := by
  unfold OrderedRight
  by_cases hhalved : b.exp = 0 ∧ a.exp ≠ 0 ∧ b.signif ≠ 0
  · obtain ⟨hzero, hnormal, hne⟩ := hhalved
    have h : Inexact a b := ⟨ha, hb, hfa, hba, hnormal, hne, .inr hzero⟩
    have hmin := hrange.resolve_left h.sum_ne_zero
    rw [if_pos ⟨hzero, hnormal, hne⟩]
    by_cases hgap : a.exp ≤ 64
    · rw [h.correct_near_iff hgap hmin, and_iff_left]
      rintro ⟨-, -, hlt⟩
      rw [Nat.sub_eq_zero_of_le (by omega), pow_zero] at hlt
      omega
    · exact h.correct_denormal_iff (by omega) hzero hmin
  rw [if_neg hhalved]
  by_cases hexact : b.signif = 0 ∨ a.exp - b.exp ≤ 64
  · have hexp : b.signif = 0 ∨ a.exp - b.exp ≤ 64 ∧ (b.exp ≠ 0 ∨ a.exp = 0) := by
      by_cases hne : b.signif = 0
      · exact .inl hne
      refine .inr ⟨hexact.resolve_left hne, ?_⟩
      by_contra hcon
      exact hhalved ⟨by omega, by omega, hne⟩
    have hfar : ¬ (mode = .nearest ∧ a.exp = b.exp + 65 ∧
        if a.signif = 2 ^ 63 ∧ a.sign ≠ b.sign then b.signif = 2 ^ 63 + 1
        else b.signif = 2 ^ 64 - 1 ∧ a.signif % 2 = 1) := by
      rintro ⟨-, h65, hcase⟩
      split at hcase <;> omega
    rw [and_iff_right hfar]
    have hsum : alignedSum mode a b = a.val + b.val := alignedSum_eq hba hexp
    rw [← hsum] at hrange ⊢
    exact add_correct_aligned_iff ha hfa hrange
  · have hfar : 65 ≤ a.exp - b.exp := by omega
    have hne : b.signif ≠ 0 := fun h => hexact (.inl h)
    have hb0 : b.exp ≠ 0 := fun h => hhalved ⟨h, by omega, hne⟩
    have h : Inexact a b := ⟨ha, hb, hfa, hba, by omega, hne, .inl hfar⟩
    have hmin := hrange.resolve_left h.sum_ne_zero
    have htop : ¬ (|a.val + b.val| = 2 ^ extended.emax ∧ mode.dir a.sign = .zero) :=
      fun htop => (h.placed hmin).lt_emax.ne htop.1
    exact (h.correct_normal_iff hfar hb0 hmin).trans (and_iff_left htop).symm

end Cases

/-- **When a sum is right**: for finite numbers whose sum is 0 or not below the normal numbers. -/
theorem f80Add_correct_iff (mode : Mode) (a b : F80) (ha : a.IsSupported) (hb : b.IsSupported)
    (hfa : a.IsFinite) (hfb : b.IsFinite)
    (hrange : a.val + b.val = 0 ∨ minNormal ≤ |a.val + b.val|) :
    CorrectlyRounded mode (a.val + b.val) (f80Add mode a b) ↔ AddRight mode a b := by
  unfold f80Add AddRight
  rw [addParts_of_finite ha hb hfa hfb]
  by_cases hexp : a.exp < b.exp
  · rw [if_pos hexp, if_pos hexp, add_comm a.val]
    rw [add_comm a.val] at hrange
    exact addOrdered_correct_iff hb ha hfb hexp.le hrange
  · rw [if_neg hexp, if_neg hexp]
    exact addOrdered_correct_iff ha hb hfa (not_lt.mp hexp) hrange

/-- Three and one, to the nearest number. -/
theorem f80Add_correct_iff_four :
    minNormal ≤ |three.val + one.val| ∧
      CorrectlyRounded .nearest (three.val + one.val) (f80Add .nearest three one) := by
  have hmin : minNormal ≤ |three.val + one.val| := by
    rw [three_val, one_val]
    calc minNormal ≤ 1 := minNormal_le_one
      _ ≤ |3 + 1| := by norm_num
  refine ⟨hmin, (f80Add_correct_iff .nearest three one (by decide) (by decide) (by decide)
    (by decide) (.inr hmin)).mpr ?_⟩
  unfold AddRight OrderedRight
  rw [if_neg (by decide), if_neg (by decide)]
  exact ⟨by decide, fun h => absurd h.2 (by decide)⟩

theorem minNormal_le_sum {a b : F80} (ha : a.IsSupported) (hnormal : a.exp ≠ 0)
    (hsign : a.sign = b.sign) : minNormal ≤ |a.val + b.val| := by
  have hA : ((2 ^ 63 : ℕ) : ℚ) ≤ a.signif := Nat.cast_le.mpr (ha.le_signif hnormal)
  have hmin : -16382 ≤ unbiasDenormal a.exp := by
    rw [F80.unbiasDenormal_eq]
    omega
  have hmag : minNormal ≤ a.mag :=
    calc minNormal = ((2 ^ 63 : ℕ) : ℚ) * 2 ^ (-16382 - 63 : ℤ) := by
          rw [Nat.cast_pow, Nat.cast_ofNat, ← two_pow_63_mul_zpow]
          rfl
      _ ≤ a.signif * 2 ^ (unbiasDenormal a.exp - 63) :=
          mul_le_mul hA (zpow_le_zpow_right₀ one_le_two (by omega)) (zpow_pos two_pos _).le
            (Nat.cast_nonneg _)
  rw [val_add, if_pos hsign, abs_signed, abs_of_nonneg (add_nonneg a.mag_nonneg b.mag_nonneg)]
  exact le_add_of_le_of_nonneg hmag b.mag_nonneg

/-- The least normal number, and twice the least denormal one. -/
def leastNormal : F80 := pack (2 ^ 63) 1 false

def twoUnits : F80 := pack 2 0 false

/-- An odd number, and a number just below the half of its last place. -/
def oddNumber : F80 := pack (2 ^ 63 + 1) 0x4040 false

def belowHalf : F80 := pack (2 ^ 64 - 1) 0x3fff false

/-- A sum that is a number is not returned exactly; and a sum just below a tie is rounded up. -/
theorem f80Add_wrong :
    (minNormal ≤ |leastNormal.val + twoUnits.val| ∧
      f80Add .nearest leastNormal twoUnits = pack (2 ^ 63 + 1) 1 false ∧
      ¬ CorrectlyRounded .nearest (leastNormal.val + twoUnits.val)
        (f80Add .nearest leastNormal twoUnits)) ∧
    minNormal ≤ |oddNumber.val + belowHalf.val| ∧
      f80Add .nearest oddNumber belowHalf = pack (2 ^ 63 + 2) 0x4040 false ∧
      ¬ CorrectlyRounded .nearest (oddNumber.val + belowHalf.val)
        (f80Add .nearest oddNumber belowHalf) := by
  have hmin := minNormal_le_sum (a := leastNormal) (b := twoUnits) (by decide) (by decide) rfl
  have hmin' := minNormal_le_sum (a := oddNumber) (b := belowHalf) (by decide) (by decide) rfl
  have hiff : ∀ {a b : F80}, a.IsSupported → b.IsSupported → a.IsFinite → b.IsFinite →
      b.exp ≤ a.exp → minNormal ≤ |a.val + b.val| →
      (CorrectlyRounded .nearest (a.val + b.val) (f80Add .nearest a b) ↔
        OrderedRight .nearest a b) := by
    intro a b ha hb hfa hfb hexp hmin
    unfold f80Add
    rw [addParts_of_finite ha hb hfa hfb, if_neg (not_lt.mpr hexp)]
    exact addOrdered_correct_iff ha hb hfa hexp (.inr hmin)
  refine ⟨⟨hmin, by decide +kernel, ?_⟩, hmin', by decide +kernel, ?_⟩
  · rw [hiff (by decide) (by decide) (by decide) (by decide) (by decide) hmin]
    unfold OrderedRight
    rw [if_pos (by decide)]
    exact fun h => absurd h.1 (by decide)
  rw [hiff (by decide) (by decide) (by decide) (by decide) (by decide) hmin']
  unfold OrderedRight
  rw [if_neg (by decide)]
  exact fun h => h.1 (by decide)

end Ish.Float80
