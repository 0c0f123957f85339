import Ish.Lib.Rounding

set_option autoImplicit false

/-! # Extended precision numbers

`float80` and the two functions of `emu/float80.c` that all of its arithmetic is built on:
`u128_shift_right_round`, which shifts a 128-bit integer right and rounds, and
`u128_normalize_round`, which makes a number from a 128-bit significand and an exponent. The
rounding mode is a variable of the thread; here it is an argument.

A number has the fields of the source's structure; `pack` cuts what is stored to their widths. The
128-bit integers are natural numbers below `2 ^ 128` that are cut where the source shifts them to
the left. The type `int` of an exponent is `ℤ`; only `f80_scale` can leave its range, so the sums
and differences that it reaches wrap.
-/

namespace Ish.Float80

open Ish.Lib

def BIAS80 : ℕ := 0x3fff
def EXP_MAX : ℕ := 0x7ffe
def EXP_MIN : ℕ := 0x0001
def EXP_SPECIAL : ℕ := 0x7fff
def EXP_DENORMAL : ℕ := 0

/-- The value of an `int` after a sum or difference. -/
def wrap32 (z : ℤ) : ℤ := z.bmod (2 ^ 32)

def bias (exp : ℤ) : ℤ := exp + BIAS80

def unbias (exp : ℕ) : ℤ := exp - BIAS80

def unbiasDenormal (exp : ℕ) : ℤ := if exp = EXP_DENORMAL then unbias EXP_MIN else unbias exp

/-- `float80`. -/
structure F80 where
  signif : ℕ
  exp : ℕ
  sign : Bool
  signif_lt : signif < 2 ^ 64
  exp_lt : exp < 2 ^ 15
deriving DecidableEq

theorem mod_two_pow_64_lt (signif : ℕ) : signif % 2 ^ 64 < 2 ^ 64 := Nat.mod_lt _ (by decide)

theorem toNat_emod_two_pow_15_lt (exp : ℤ) : (exp % 2 ^ 15).toNat < 2 ^ 15 := by omega

/-- Storing to the fields. -/
def pack (signif : ℕ) (exp : ℤ) (sign : Bool) : F80 :=
  ⟨signif % 2 ^ 64, (exp % 2 ^ 15).toNat, sign, mod_two_pow_64_lt signif,
    toNat_emod_two_pow_15_lt exp⟩

namespace F80

variable (f : F80)

/-- The top bit of the significand is right. -/
def IsSupported : Prop :=
  if f.exp = EXP_DENORMAL then f.signif / 2 ^ 63 = 0 else f.signif / 2 ^ 63 = 1

def IsNan : Prop := f.exp = EXP_SPECIAL ∧ f.signif % 2 ^ 63 ≠ 0

def IsInf : Prop := f.exp = EXP_SPECIAL ∧ f.signif % 2 ^ 63 = 0

def IsZero : Prop := f.exp = EXP_DENORMAL ∧ f.signif = 0

instance : Decidable f.IsSupported := inferInstanceAs (Decidable (ite _ _ _))

instance : Decidable f.IsNan := inferInstanceAs (Decidable (_ ∧ _))

instance : Decidable f.IsInf := inferInstanceAs (Decidable (_ ∧ _))

instance : Decidable f.IsZero := inferInstanceAs (Decidable (_ ∧ _))

end F80

def F80_NAN : F80 := pack 0xc000000000000000 0x7fff false

/-- `F80_INF` with its sign set. -/
def f80Inf (sign : Bool) : F80 := pack 0x8000000000000000 0x7fff sign

/-- `handle_nans`: what the operation returns at once. -/
def handleNans (a b : F80) : Option F80 :=
  if ¬ a.IsSupported ∨ ¬ b.IsSupported then some F80_NAN
  else if a.IsNan ∧ b.IsNan ∧ a.sign = true ∧ b.sign = false then some b
  else if a.IsNan then some a
  else if b.IsNan then some b
  else none

/-- `enum f80_rounding_mode`. -/
inductive Mode where
  | nearest
  | down
  | up
  | chop
deriving DecidableEq

def roundAwayFromZero (mode : Mode) (sign : Bool) : Prop :=
  mode = .up ∧ sign = false ∨ mode = .down ∧ sign = true

instance (mode : Mode) (sign : Bool) : Decidable (roundAwayFromZero mode sign) :=
  inferInstanceAs (Decidable (_ ∨ _))

def u128ShiftRightRound (mode : Mode) (i shift : ℕ) (sign : Bool) : ℕ :=
  if shift = 0 then i
  else if 127 < shift then if roundAwayFromZero mode sign ∧ i ≠ 0 then 1 else 0
  else
    let guard := i / 2 ^ (shift - 1) % 2
    -- `uint64_t rest`
    let rest := i % 2 ^ (shift - 1) % 2 ^ 64
    let i := i / 2 ^ shift
    if guard = 0 ∧ rest = 0 then i
    else if roundAwayFromZero mode sign then i + 1
    else if mode = .nearest ∧ guard ≠ 0 then
      if rest ≠ 0 then i + 1 else if i % 2 ≠ 0 then i + 1 else i
    else i

def f80ShiftRight (mode : Mode) (f : F80) (shift : ℕ) : F80 :=
  pack (u128ShiftRightRound mode f.signif shift f.sign) (f.exp + shift) f.sign

/-- `__builtin_clzl`, of a number that is not 0. -/
def clzl (x : ℕ) : ℕ := 63 - Nat.log2 x

def u128Clz (x : ℕ) : ℕ :=
  if x / 2 ^ 64 ≠ 0 then clzl (x / 2 ^ 64) else if x ≠ 0 then 64 + clzl x else 128

def F80.setSign (f : F80) (sign : Bool) : F80 := { f with sign := sign }

/-- The end of `u128_normalize_round`. -/
def roundSignif (mode : Mode) (signif : ℕ) (exp : ℤ) (sign : Bool) : F80 :=
  let signif := u128ShiftRightRound mode signif 64 sign
  if signif / 2 ^ 64 ≠ 0 then pack (signif / 2) (bias exp + 1) sign else pack signif (bias exp) sign

/-- The number for a result that is too big. -/
def tooBig (mode : Mode) (signif : ℕ) (sign : Bool) : F80 :=
  if signif = 2 ^ 127 then f80Inf sign
  else if mode = .up ∧ sign = true ∨ mode = .down ∧ sign = false ∨ mode = .chop then
    pack (2 ^ 64 - 1) EXP_MAX sign
  else f80Inf sign

def u128NormalizeRound (mode : Mode) (signif : ℕ) (exp : ℤ) (sign : Bool) : F80 :=
  let shift := u128Clz signif
  if wrap32 (exp - shift) < unbias EXP_MIN then
    let signif :=
      if unbias EXP_MIN < exp then signif * 2 ^ (exp - unbias EXP_MIN).toNat % 2 ^ 128
      else u128ShiftRightRound mode signif (unbias EXP_MIN - exp).toNat sign
    roundSignif mode signif (unbias EXP_DENORMAL) sign
  else if unbias EXP_MAX < wrap32 (exp - shift) then tooBig mode signif sign
  else roundSignif mode (signif * 2 ^ shift % 2 ^ 128) (wrap32 (exp - shift)) sign

/-! ## The shift -/

/-- The direction in which a magnitude with this sign is rounded. -/
def Mode.dir : Mode → Bool → Dir
  | .nearest, _ => .nearest
  | .chop, _ => .zero
  | .up, sign => if sign then .zero else .away
  | .down, sign => if sign then .away else .zero

section Shift

variable {mode : Mode} {sign : Bool} {i shift : ℕ}

theorem roundAwayFromZero_iff : roundAwayFromZero mode sign ↔ mode.dir sign = .away := by
  cases mode <;> cases sign <;> decide

theorem nearest_iff : mode = .nearest ↔ mode.dir sign = .nearest := by
  cases mode <;> cases sign <;> decide

/-- **The shift rounds** the quotient, if `rest` is not cut to 0 and no half is shifted out by more
than 127. -/
theorem u128ShiftRightRound_eq (hrest : i % 2 ^ (shift - 1) % 2 ^ 64 = 0 → i % 2 ^ (shift - 1) = 0)
    (hbig : 127 < shift → 2 * i < 2 ^ shift) :
    u128ShiftRightRound mode i shift sign = (mode.dir sign).divRound i (2 ^ shift) := by
  unfold u128ShiftRightRound
  by_cases hzero : shift = 0
  · rw [if_pos hzero, hzero, pow_zero, Dir.divRound_one]
  rw [if_neg hzero]
  by_cases hlarge : 127 < shift
  · rw [if_pos hlarge, Dir.divRound_small (hbig hlarge)]
    simp only [roundAwayFromZero_iff]
  rw [if_neg hlarge]
  obtain ⟨t, rfl⟩ : ∃ t, shift = t + 1 := ⟨shift - 1, by omega⟩
  rw [Nat.add_sub_cancel] at hrest ⊢
  -- the remainder is the guard bit and the rest
  have hmod : i % 2 ^ (t + 1) = i % 2 ^ t + 2 ^ t * (i / 2 ^ t % 2) := by
    rw [pow_succ, Nat.mod_mul]
  have hlow : i % 2 ^ t < 2 ^ t := Nat.mod_lt i (Nat.two_pow_pos t)
  have hguard : i / 2 ^ t % 2 = 0 ∨ i / 2 ^ t % 2 = 1 := by omega
  have hpow : 2 ^ (t + 1) = 2 * 2 ^ t := by rw [pow_succ, mul_comm]
  have hrest' : i % 2 ^ t % 2 ^ 64 = 0 ↔ i % 2 ^ t = 0 := ⟨hrest, fun h => by rw [h, Nat.zero_mod]⟩
  have hdir : mode = .nearest ↔ mode.dir sign = .nearest := nearest_iff
  unfold Dir.divRound
  rw [hmod, hpow]
  simp only [ne_eq, hrest', roundAwayFromZero_iff, hdir]
  generalize i / (2 * 2 ^ t) = q
  generalize i / 2 ^ t % 2 = guard at hguard ⊢
  generalize i % 2 ^ t = low at hlow ⊢
  generalize 2 ^ t = half at hlow ⊢
  cases mode.dir sign with
  | zero =>
    have hup : ¬ Dir.zero.RoundsUp q (low + half * guard) (2 * half) := not_false
    simp [hup]
  | away =>
    simp only [Dir.roundsUp_away]
    rcases hguard with rfl | rfl
    · by_cases h : low = 0 <;> simp [h]
    have : half ≠ 0 := by omega
    simp [this]
  | nearest =>
    simp only [Dir.roundsUp_nearest]
    rcases hguard with rfl | rfl
    · have hup : ¬ (2 * half < 2 * (low + half * 0) ∨
          2 * (low + half * 0) = 2 * half ∧ q % 2 = 1) := by omega
      rw [if_neg hup]
      simp
    by_cases hlow0 : low = 0
    · have hup : (2 * half < 2 * (low + half * 1) ∨
          2 * (low + half * 1) = 2 * half ∧ q % 2 = 1) ↔ q % 2 = 1 := by omega
      rcases Nat.mod_two_eq_zero_or_one q with h | h <;> simp [hlow0, h]
    have hup : 2 * half < 2 * (low + half * 1) ∨
        2 * (low + half * 1) = 2 * half ∧ q % 2 = 1 := by omega
    rw [if_pos hup]
    simp [hlow0]

theorem u128ShiftRightRound_of_le (hshift : shift ≤ 65) :
    u128ShiftRightRound mode i shift sign = (mode.dir sign).divRound i (2 ^ shift) := by
  have hlt : i % 2 ^ (shift - 1) < 2 ^ 64 :=
    calc i % 2 ^ (shift - 1) < 2 ^ (shift - 1) := Nat.mod_lt i (Nat.two_pow_pos _)
      _ ≤ 2 ^ 64 := Nat.pow_le_pow_right two_pos (by omega)
  apply u128ShiftRightRound_eq
  · intro h
    rwa [Nat.mod_eq_of_lt hlt] at h
  · omega

theorem u128ShiftRightRound_of_lt (hi : i < 2 ^ 64) :
    u128ShiftRightRound mode i shift sign = (mode.dir sign).divRound i (2 ^ shift) := by
  apply u128ShiftRightRound_eq
  · intro h
    rwa [Nat.mod_eq_of_lt (lt_of_le_of_lt (Nat.mod_le i _) hi)] at h
  intro hlarge
  calc 2 * i < 2 ^ 65 := by omega
    _ ≤ 2 ^ shift := Nat.pow_le_pow_right two_pos (by omega)

end Shift

/-! ## Leading zeros -/

theorem u128Clz_eq {x : ℕ} (hpos : x ≠ 0) (hlt : x < 2 ^ 128) : u128Clz x = 127 - x.log2 := by
  obtain ⟨hlow, hhigh⟩ := (Nat.log2_eq_iff hpos).mp (rfl : x.log2 = x.log2)
  unfold u128Clz clzl
  by_cases hword : x / 2 ^ 64 ≠ 0
  · have hge : 64 ≤ x.log2 := by
      rw [Nat.le_log2 hpos]
      omega
    have hdiv : (x / 2 ^ 64).log2 = x.log2 - 64 := by
      rw [Nat.log2_eq_iff hword]
      constructor
      · rw [Nat.le_div_iff_mul_le (by decide), ← pow_add, Nat.sub_add_cancel hge]
        exact hlow
      rw [Nat.div_lt_iff_lt_mul (by decide), ← pow_add]
      have hsum : x.log2 - 64 + 1 + 64 = x.log2 + 1 := by omega
      rwa [hsum]
    rw [if_pos hword, hdiv]
    omega
  · have hle : x.log2 < 64 := by
      rw [Nat.log2_lt hpos]
      omega
    rw [if_neg hword, if_pos hpos]
    omega

theorem u128Clz_le {x : ℕ} (hpos : x ≠ 0) (hlt : x < 2 ^ 128) : u128Clz x ≤ 127 := by
  rw [u128Clz_eq hpos hlt]
  omega

/-- Shifting out the leading zeros. -/
theorem u128Clz_spec {x : ℕ} (hpos : x ≠ 0) (hlt : x < 2 ^ 128) :
    2 ^ 127 ≤ x * 2 ^ u128Clz x ∧ x * 2 ^ u128Clz x < 2 ^ 128 := by
  obtain ⟨hlow, hhigh⟩ := (Nat.log2_eq_iff hpos).mp (rfl : x.log2 = x.log2)
  have hlog : x.log2 < 128 := (Nat.log2_lt hpos).mpr hlt
  rw [u128Clz_eq hpos hlt]
  constructor
  · calc 2 ^ 127 = 2 ^ x.log2 * 2 ^ (127 - x.log2) := by
          rw [← pow_add]
          congr 1
          omega
      _ ≤ x * 2 ^ (127 - x.log2) := Nat.mul_le_mul_right _ hlow
  calc x * 2 ^ (127 - x.log2) < 2 ^ (x.log2 + 1) * 2 ^ (127 - x.log2) :=
        Nat.mul_lt_mul_of_pos_right hhigh (Nat.two_pow_pos _)
    _ = 2 ^ 128 := by
        rw [← pow_add]
        congr 1
        omega

/-- The shift is the one that brings the top bit in place. -/
theorem u128Clz_unique {x c : ℕ} (hlow : 2 ^ 127 ≤ x * 2 ^ c) (hhigh : x * 2 ^ c < 2 ^ 128) :
    u128Clz x = c := by
  have hpos : x ≠ 0 := by
    rintro rfl
    rw [zero_mul] at hlow
    omega
  have hc : c ≤ 127 := by
    by_contra hc
    have : 2 ^ 128 ≤ x * 2 ^ c :=
      calc 2 ^ 128 ≤ 2 ^ c := Nat.pow_le_pow_right two_pos (by omega)
        _ ≤ x * 2 ^ c := Nat.le_mul_of_pos_left _ (Nat.pos_of_ne_zero hpos)
    omega
  have hlt : x < 2 ^ 128 := lt_of_le_of_lt (Nat.le_mul_of_pos_right x (Nat.two_pow_pos c)) hhigh
  have hlog : x.log2 = 127 - c := by
    rw [Nat.log2_eq_iff hpos]
    constructor
    · apply Nat.le_of_mul_le_mul_right _ (Nat.two_pow_pos c)
      rwa [← pow_add, Nat.sub_add_cancel hc]
    apply Nat.lt_of_mul_lt_mul_right (a := 2 ^ c)
    have hsum : 127 - c + 1 + c = 128 := by omega
    rwa [← pow_add, hsum]
  rw [u128Clz_eq hpos hlt, hlog]
  omega

/-! ## Encoding a rounded significand -/

/-- The number with the significand `v`, which may be one too big, and the exponent `t`. -/
def enc (v : ℕ) (t : ℤ) (sign : Bool) : F80 :=
  if v = 2 ^ 64 then pack (2 ^ 63) (bias t + 1) sign else pack v (bias t) sign

section Normalize

variable {mode : Mode} {sign : Bool} {signif : ℕ} {exp : ℤ}

theorem unbias_min : unbias EXP_MIN = -16382 := rfl

theorem unbias_max : unbias EXP_MAX = 16383 := rfl

theorem unbias_zero : unbias EXP_DENORMAL = -16383 := rfl

theorem wrap32_eq {z : ℤ} (hlow : -2 ^ 31 ≤ z) (hhigh : z < 2 ^ 31) : wrap32 z = z :=
  Int.bmod_eq_of_le (by omega) (by omega)

theorem roundSignif_eq (hsignif : signif ≤ 2 ^ 128) :
    roundSignif mode signif exp sign
      = enc ((mode.dir sign).divRound signif (2 ^ 64)) exp sign := by
  have hle : (mode.dir sign).divRound signif (2 ^ 64) ≤ 2 ^ 64 :=
    Dir.divRound_le (by decide) hsignif
  unfold roundSignif enc
  rw [u128ShiftRightRound_of_le (by decide)]
  generalize (mode.dir sign).divRound signif (2 ^ 64) = v at hle
  by_cases hv : v = 2 ^ 64
  · rw [if_pos hv, hv]
    rfl
  · rw [if_neg hv, if_neg (by omega)]

theorem u128NormalizeRound_sign (mode : Mode) (signif : ℕ) (exp : ℤ) (sign : Bool) :
    (u128NormalizeRound mode signif exp sign).sign = sign := by
  unfold u128NormalizeRound roundSignif tooBig
  dsimp only
  repeat' split
  all_goals rfl

theorem setSign_normalizeRound (mode : Mode) (signif : ℕ) (exp : ℤ) (sign : Bool) :
    (u128NormalizeRound mode signif exp sign).setSign sign
      = u128NormalizeRound mode signif exp sign := by
  have h := u128NormalizeRound_sign mode signif exp sign
  generalize u128NormalizeRound mode signif exp sign = f at h
  subst h
  rfl

/-- **A result in the range of the normal numbers.** -/
theorem u128NormalizeRound_of_normal (mode : Mode) (sign : Bool) {c : ℕ}
    (hlow : 2 ^ 127 ≤ signif * 2 ^ c) (hhigh : signif * 2 ^ c < 2 ^ 128)
    (hmin : -16382 ≤ exp - c) (hmax : exp - c ≤ 16383) :
    u128NormalizeRound mode signif exp sign
      = enc ((mode.dir sign).divRound (signif * 2 ^ c) (2 ^ 64)) (exp - c) sign := by
  unfold u128NormalizeRound
  dsimp only
  rw [unbias_min, unbias_max, u128Clz_unique hlow hhigh, wrap32_eq (by omega) (by omega),
    if_neg (not_lt.mpr hmin), if_neg (not_lt.mpr hmax), Nat.mod_eq_of_lt hhigh,
    roundSignif_eq hhigh.le]

/-- **A result below the normal numbers** that is shifted to the left. -/
theorem u128NormalizeRound_of_small (mode : Mode) (sign : Bool) {c : ℕ}
    (hlow : 2 ^ 127 ≤ signif * 2 ^ c) (hhigh : signif * 2 ^ c < 2 ^ 128) (hmin : -16382 ≤ exp)
    (hsmall : exp - c < -16382) (hexp : exp < 2 ^ 31) :
    signif * 2 ^ (exp + 16382).toNat < 2 ^ 127 ∧
      u128NormalizeRound mode signif exp sign
        = enc ((mode.dir sign).divRound (signif * 2 ^ (exp + 16382).toNat) (2 ^ 64)) (-16383)
            sign := by
  obtain ⟨k, hk, hexp'⟩ : ∃ k : ℕ, k < c ∧ exp = k - 16382 :=
    ⟨(exp + 16382).toNat, by omega, by omega⟩
  have hlt : signif * 2 ^ k < 2 ^ 127 := by
    have hle : signif * 2 ^ (k + 1) ≤ signif * 2 ^ c :=
      Nat.mul_le_mul_left _ (Nat.pow_le_pow_right two_pos hk)
    rw [pow_succ, ← mul_assoc] at hle
    omega
  have hnat : (exp + 16382).toNat = k := by omega
  rw [hnat]
  refine ⟨hlt, ?_⟩
  have hc : c < 128 := by
    have hpos : 0 < signif := Nat.pos_of_ne_zero (by rintro rfl; omega)
    exact (Nat.pow_lt_pow_iff_right one_lt_two).mp
      (lt_of_le_of_lt (Nat.le_mul_of_pos_left _ hpos) hhigh)
  unfold u128NormalizeRound
  dsimp only
  rw [unbias_min, unbias_max, u128Clz_unique hlow hhigh, wrap32_eq (by omega) (by omega),
    if_pos hsmall]
  have hshift : (if -16382 < exp then signif * 2 ^ (exp - -16382).toNat % 2 ^ 128
      else u128ShiftRightRound mode signif (-16382 - exp).toNat sign) = signif * 2 ^ k := by
    by_cases hzero : -16382 < exp
    · have hnat' : (exp - -16382).toNat = k := by omega
      rw [if_pos hzero, hnat', Nat.mod_eq_of_lt (by omega)]
    have hnat' : (-16382 - exp).toNat = 0 := by omega
    have hk0 : k = 0 := by omega
    rw [if_neg hzero, hnat', hk0, pow_zero, mul_one]
    rfl
  rw [hshift, roundSignif_eq (by omega)]
  rfl

/-- The same for a significand with all 128 bits. -/
theorem u128NormalizeRound_of_full (mode : Mode) (sign : Bool) (hlow : 2 ^ 127 ≤ signif)
    (hhigh : signif < 2 ^ 128) (hmin : -16382 ≤ exp) (hmax : exp ≤ 16383) :
    u128NormalizeRound mode signif exp sign
      = enc ((mode.dir sign).divRound signif (2 ^ 64)) exp sign := by
  have hlow' : 2 ^ 127 ≤ signif * 2 ^ 0 := by rwa [pow_zero, mul_one]
  have hhigh' : signif * 2 ^ 0 < 2 ^ 128 := by rwa [pow_zero, mul_one]
  have hexp : exp - (0 : ℕ) = exp := by rw [Nat.cast_zero, sub_zero]
  have h := u128NormalizeRound_of_normal mode sign hlow' hhigh' (by rwa [hexp]) (by rwa [hexp])
  rwa [pow_zero, mul_one, hexp] at h

/-- The significand 0. -/
theorem u128NormalizeRound_zero (mode : Mode) (exp : ℤ) (sign : Bool) :
    u128NormalizeRound mode 0 exp sign =
      if wrap32 (exp - 128) < -16382 then pack 0 0 sign
      else if 16383 < wrap32 (exp - 128) then tooBig mode 0 sign
      else pack 0 (bias (wrap32 (exp - 128))) sign := by
  have hround : ∀ d : Dir, ∀ m, 0 < m → d.divRound 0 m = 0 := by
    intro d m hm
    rw [Dir.divRound_small (by omega), if_neg fun h => h.2 rfl]
  have hshift : ∀ shift, u128ShiftRightRound mode 0 shift sign = 0 := fun shift => by
    rw [u128ShiftRightRound_of_lt (by decide), hround _ _ (Nat.two_pow_pos shift)]
  have hsignif : ∀ e, roundSignif mode 0 e sign = pack 0 (bias e) sign := by
    intro e
    rw [roundSignif_eq (by decide), hround _ _ (by decide)]
    rfl
  have hclz : ((u128Clz 0 : ℕ) : ℤ) = 128 := rfl
  unfold u128NormalizeRound
  dsimp only
  rw [unbias_min, unbias_max, hclz, zero_mul, zero_mul, Nat.zero_mod, hshift, ite_self, hsignif,
    hsignif]
  rfl

/-- A result that is too big. -/
theorem u128NormalizeRound_of_big {c : ℕ} (hlow : 2 ^ 127 ≤ signif * 2 ^ c)
    (hhigh : signif * 2 ^ c < 2 ^ 128) (hbig : 16383 < exp - c) (hexp : exp < 2 ^ 31) :
    u128NormalizeRound mode signif exp sign = tooBig mode signif sign := by
  unfold u128NormalizeRound
  dsimp only
  rw [unbias_min, unbias_max, u128Clz_unique hlow hhigh, wrap32_eq (by omega) (by omega),
    if_neg (by omega), if_pos hbig]

end Normalize

end Ish.Float80
