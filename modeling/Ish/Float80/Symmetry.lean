import Ish.Float80.Compare
import Ish.Float80.Div

set_option autoImplicit false

/-! # Symmetries of arithmetic

`f80_add` treats its operands differently by exponent and sign, and rounds up to three times. Still
the order of the operands does not matter, and negating both negates the result if rounding up and
rounding down are exchanged. Only the results whose sign is fixed, a difference of 0 and the NaN of
two infinities, are not negated. `f80_mul` does not look at the order either, and negating one
operand of `f80_mul` or `f80_div` negates the result in the same sense.
-/

namespace Ish.Float80

/-- Rounding up and rounding down are exchanged. -/
def Mode.exchanged : Mode → Mode
  | .up => .down
  | .down => .up
  | mode => mode

section Symmetry

variable {mode : Mode} {a b : F80}

/-! ## Each rounding step -/

theorem roundAwayFromZero_exchanged (mode : Mode) (sign : Bool) :
    roundAwayFromZero mode.exchanged (!sign) ↔ roundAwayFromZero mode sign := by
  cases mode <;> cases sign <;> decide

theorem exchanged_eq_nearest (mode : Mode) : mode.exchanged = .nearest ↔ mode = .nearest := by
  cases mode <;> decide

theorem exchanged_eq_chop (mode : Mode) : mode.exchanged = .chop ↔ mode = .chop := by
  cases mode <;> decide

theorem shiftRightRound_exchanged (mode : Mode) (i shift : ℕ) (sign : Bool) :
    u128ShiftRightRound mode.exchanged i shift (!sign) = u128ShiftRightRound mode i shift sign := by
  unfold u128ShiftRightRound
  simp only [roundAwayFromZero_exchanged, exchanged_eq_nearest]

theorem roundSignif_exchanged (mode : Mode) (signif : ℕ) (exp : ℤ) (sign : Bool) :
    roundSignif mode.exchanged signif exp (!sign) = f80Neg (roundSignif mode signif exp sign) := by
  unfold roundSignif
  rw [shiftRightRound_exchanged]
  dsimp only
  split_ifs <;> rfl

theorem tooBig_exchanged (mode : Mode) (signif : ℕ) (sign : Bool) :
    tooBig mode.exchanged signif (!sign) = f80Neg (tooBig mode signif sign) := by
  unfold tooBig
  cases mode <;> cases sign <;> split <;> rfl

theorem normalizeRound_exchanged (mode : Mode) (signif : ℕ) (exp : ℤ) (sign : Bool) :
    u128NormalizeRound mode.exchanged signif exp (!sign)
      = f80Neg (u128NormalizeRound mode signif exp sign) := by
  unfold u128NormalizeRound
  simp only [shiftRightRound_exchanged, roundSignif_exchanged, tooBig_exchanged]
  split_ifs <;> rfl

theorem aligned_exchanged (mode : Mode) (a b : F80) :
    aligned mode.exchanged (f80Neg a) (f80Neg b) = aligned mode a b :=
  shiftRightRound_exchanged mode _ _ b.sign

theorem subtracted_exchanged (mode : Mode) (a b : F80) :
    subtracted mode.exchanged (f80Neg a) (f80Neg b) = subtracted mode a b := by
  unfold subtracted
  rw [aligned_exchanged]
  simp only [exchanged_eq_chop]
  rfl

/-! ## The sum -/

theorem finishAdd_exchanged (hfa : a.IsFinite)
    (hzero : ¬ (finishAdd mode (addOrdered mode a b)).IsZero) :
    finishAdd mode.exchanged (addOrdered mode.exchanged (f80Neg a) (f80Neg b))
      = f80Neg (finishAdd mode (addOrdered mode a b)) := by
  have hfneg : (f80Neg a).IsFinite := hfa
  by_cases hsign : a.sign = b.sign
  · have hsign' : (f80Neg a).sign = (f80Neg b).sign := congrArg not hsign
    rw [addOrdered_of_same hfneg hsign', addOrdered_of_same hfa hsign, aligned_exchanged]
    by_cases hcarry : 2 ^ 128 ≤ a.signif * 2 ^ 64 + aligned mode a b
    · -- the carry is rounded for a positive number in both, but nothing is lost
      have hcarry' : 2 ^ 128 ≤ (f80Neg a).signif * 2 ^ 64
          + aligned mode.exchanged (f80Neg a) (f80Neg b) := by
        rwa [aligned_exchanged]
      obtain ⟨n, hn, -, hcode⟩ := carry_eq hcarry
      obtain ⟨n', hn', -, hcode'⟩ := carry_eq hcarry'
      rw [aligned_exchanged] at hn' hcode'
      have heq : n' = n := Nat.mul_left_cancel two_pos (hn'.symm.trans hn)
      rw [if_pos hcarry, if_pos (show _ ≤ (f80Neg a).signif * _ + _ from hcarry), hcode, hcode',
        heq]
      exact normalizeRound_exchanged mode n _ a.sign
    · rw [if_neg hcarry, if_neg (show ¬ _ ≤ (f80Neg a).signif * _ + _ from hcarry)]
      exact normalizeRound_exchanged mode _ _ a.sign
  · have hsign' : (f80Neg a).sign ≠ (f80Neg b).sign := fun h => hsign (Bool.not_inj h)
    rw [addOrdered_of_opposite hfa hsign] at hzero ⊢
    rw [addOrdered_of_opposite hfneg hsign', subtracted_exchanged]
    by_cases heq : a.signif * 2 ^ 64 = subtracted mode a b
    · rw [if_pos heq] at hzero
      exact absurd ⟨rfl, rfl⟩ hzero
    rw [if_neg heq, if_neg (show ¬ (f80Neg a).signif * _ = _ from heq)]
    have hxor : ∀ x : Bool, (x ^^ !a.sign) = !(x ^^ a.sign) := fun x => Bool.xor_not x a.sign
    show u128NormalizeRound mode.exchanged _ _ (_ ^^ !a.sign) = _
    rw [hxor]
    exact normalizeRound_exchanged mode _ _ _

/-- Two numbers with the same exponent. -/
theorem finishAdd_comm (ha : a.IsSupported) (hb : b.IsSupported) (hna : ¬ a.IsNan)
    (hnb : ¬ b.IsNan) (hexp : a.exp = b.exp) :
    finishAdd mode (addOrdered mode a b) = finishAdd mode (addOrdered mode b a) := by
  rcases finite_or_inf hna with hfa | hinf
  · have hfb : b.IsFinite := by rwa [F80.IsFinite, ← hexp]
    have hab : aligned mode a b = b.signif * 2 ^ 64 := by
      rw [aligned_of_le (by omega), hexp, Nat.sub_self, Nat.sub_zero]
    have hba : aligned mode b a = a.signif * 2 ^ 64 := by
      rw [aligned_of_le (by omega), hexp, Nat.sub_self, Nat.sub_zero]
    by_cases hsign : a.sign = b.sign
    · rw [addOrdered_of_same hfa hsign, addOrdered_of_same hfb hsign.symm, hab, hba, hexp, hsign,
        add_comm (b.signif * _)]
    have hsub : subtracted mode a b = b.signif * 2 ^ 64 := by
      rw [subtracted, hab, if_neg (by omega)]
    have hsub' : subtracted mode b a = a.signif * 2 ^ 64 := by
      rw [subtracted, hba, if_neg (by omega)]
    rw [addOrdered_of_opposite hfa hsign, addOrdered_of_opposite hfb (Ne.symm hsign), hsub, hsub',
      hexp]
    rcases lt_trichotomy (a.signif * 2 ^ 64) (b.signif * 2 ^ 64) with hlt | heq | hlt
    · have hback : b.sign = !a.sign := Bool.eq_not.mpr (Ne.symm hsign)
      rw [if_neg hlt.ne, if_neg hlt.ne', if_neg hlt.not_ge, if_pos hlt.le, decide_eq_true hlt,
        decide_eq_false hlt.not_gt, hback, Bool.true_xor, Bool.false_xor]
    · have hsame : a.signif = b.signif := by omega
      rw [hsame, if_pos rfl, if_pos rfl]
    have hback : a.sign = !b.sign := Bool.eq_not.mpr hsign
    rw [if_neg hlt.ne', if_neg hlt.ne, if_pos hlt.le, if_neg hlt.not_ge, decide_eq_false hlt.not_gt,
      decide_eq_true hlt, hback, Bool.true_xor, Bool.false_xor]
  · have hinf' : b.IsInf := (finite_or_inf hnb).resolve_left fun h => h (hexp ▸ hinf.1)
    by_cases hsign : a.sign = b.sign
    · rw [addOrdered_of_inf ha hinf fun h => h.2 hsign,
        addOrdered_of_inf hb hinf' fun h => h.2 hsign.symm, hsign]
    · rw [addOrdered_of_infs hinf hinf' hsign, addOrdered_of_infs hinf' hinf (Ne.symm hsign)]

/-- **The symmetries of `f80_add`.** -/
theorem add_symmetric (mode : Mode) (ha : a.IsSupported) (hb : b.IsSupported) (hna : ¬ a.IsNan)
    (hnb : ¬ b.IsNan) :
    f80Add mode a b = f80Add mode b a ∧
      (¬ (f80Add mode a b).IsZero → ¬ (f80Add mode a b).IsNan →
        f80Add mode.exchanged (f80Neg a) (f80Neg b) = f80Neg (f80Add mode a b)) := by
  have hnone := F80.handleNans_none ha hb hna hnb
  have hnone' : handleNans (f80Neg a) (f80Neg b) = none := F80.handleNans_none ha hb hna hnb
  have hneg : ∀ x y : F80, x.IsSupported → ¬ x.IsNan →
      ¬ (finishAdd mode (addOrdered mode x y)).IsZero →
      ¬ (finishAdd mode (addOrdered mode x y)).IsNan →
      finishAdd mode.exchanged (addOrdered mode.exchanged (f80Neg x) (f80Neg y))
        = f80Neg (finishAdd mode (addOrdered mode x y)) := by
    intro x y hx hnx hzero hnan
    rcases finite_or_inf hnx with hfx | hinf
    · exact finishAdd_exchanged hfx hzero
    have hother : ¬ (y.IsInf ∧ x.sign ≠ y.sign) := by
      intro h
      rw [addOrdered_of_infs hinf h.1 h.2] at hnan
      exact hnan (show F80_NAN.IsNan by decide)
    have hother' : ¬ ((f80Neg y).IsInf ∧ (f80Neg x).sign ≠ (f80Neg y).sign) :=
      fun h => hother ⟨h.1, fun hsign => h.2 (congrArg not hsign)⟩
    rw [addOrdered_of_inf hx hinf hother, addOrdered_of_inf (a := f80Neg x) hx hinf hother']
    rfl
  unfold f80Add addParts
  rw [hnone, hnone', F80.handleNans_none hb ha hnb hna]
  constructor
  · rcases lt_trichotomy a.exp b.exp with hlt | heq | hlt
    · rw [if_pos hlt, if_neg hlt.not_gt]
    · rw [if_neg heq.not_lt, if_neg heq.not_gt]
      exact finishAdd_comm ha hb hna hnb heq
    · rw [if_neg hlt.not_gt, if_pos hlt]
  by_cases hlt : a.exp < b.exp
  · rw [if_pos hlt, if_pos (show (f80Neg a).exp < (f80Neg b).exp from hlt)]
    exact hneg b a hb hnb
  rw [if_neg hlt, if_neg (show ¬ (f80Neg a).exp < (f80Neg b).exp from hlt)]
  exact hneg a b ha hna

/-- One and a third of one, rounded up, and their negatives, rounded down. -/
theorem add_symmetric_third :
    f80Add .down (f80Neg (pack (2 ^ 63) 0x3fff false))
        (f80Neg (pack 0xaaaaaaaaaaaaaaab 0x3ffd false))
      = f80Neg (f80Add .up (pack (2 ^ 63) 0x3fff false) (pack 0xaaaaaaaaaaaaaaab 0x3ffd false)) :=
  (add_symmetric .up (by decide) (by decide) (by decide) (by decide)).2 (by decide) (by decide)

/-- **The symmetries of `f80_mul` and `f80_div`.** -/
theorem mul_div_symmetric (mode : Mode) (ha : a.IsSupported) (hb : b.IsSupported)
    (hna : ¬ a.IsNan) (hnb : ¬ b.IsNan) :
    f80Mul mode a b = f80Mul mode b a ∧
      (¬ (f80Mul mode a b).IsNan →
        f80Mul mode.exchanged (f80Neg a) b = f80Neg (f80Mul mode a b)) ∧
      (¬ (f80Div mode a b).IsNan →
        f80Div mode.exchanged (f80Neg a) b = f80Neg (f80Div mode a b)) := by
  have hnone : handleNans (f80Neg a) b = none := F80.handleNans_none ha hb hna hnb
  have hinf : (f80Neg a).IsInf = a.IsInf := rfl
  have hzero : (f80Neg a).IsZero = a.IsZero := rfl
  have hsign : ((f80Neg a).sign ^^ b.sign) = !(a.sign ^^ b.sign) := Bool.not_xor _ _
  have hnan : F80_NAN.IsNan := by decide
  simp only [f80Mul, f80Div, F80.handleNans_none ha hb hna hnb, F80.handleNans_none hb ha hnb hna,
    hnone, hinf, hzero, hsign, normalizeRound_exchanged]
  refine ⟨by simp only [or_comm, mul_comm, Bool.xor_comm, add_comm], ?_, ?_⟩ <;>
    split_ifs <;> first | exact fun h => absurd hnan h | exact fun _ => rfl

/-- A third, rounded up, and its negative, rounded down. -/
theorem mul_div_symmetric_third :
    f80Div .down (f80Neg one) three = f80Neg (f80Div .up one three) :=
  (mul_div_symmetric .up (by decide) (by decide) (by decide) (by decide)).2.2 (by decide)

end Symmetry

end Ish.Float80
