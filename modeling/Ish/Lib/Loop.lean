import Mathlib

set_option autoImplicit false

/-! # Counting loops with a skipping increment

The loop `for (i = start; i < stop; i = next i) body` of C, over a state, where the increment
may jump over indices and may look at the state the body has left. `forUp` is that loop; it
needs only that the increment increases the index. When every index the increment jumps over
is one the body would leave alone, the loop is the plain fold over all indices
(`forUp_eq_foldUp`), which is the form the later inductions use.
-/

namespace Ish.Lib

variable {σ τ : Type}

/-- `for (i = start; i < stop; i = next i) body`, with the state threaded through. -/
def forUp (next : σ → Nat → Nat) (hnext : ∀ s i, i < next s i) (body : σ → Nat → σ)
    (stop : Nat) (s : σ) (i : Nat) : σ :=
  if i < stop then
    forUp next hnext body stop (body s i) (next (body s i) i)
  else s
termination_by stop - i
decreasing_by
  have := hnext (body s i) i
  omega

/-- The body applied to every index of `[start, start + n)` in order. -/
def foldUp (body : σ → Nat → σ) (s : σ) (start n : Nat) : σ :=
  (List.range' start n).foldl body s

@[simp] theorem foldUp_zero (body : σ → Nat → σ) (s : σ) (start : Nat) :
    foldUp body s start 0 = s := rfl

theorem foldUp_succ (body : σ → Nat → σ) (s : σ) (start n : Nat) :
    foldUp body s start (n + 1) = foldUp body (body s start) (start + 1) n := rfl

theorem foldUp_add (body : σ → Nat → σ) (s : σ) (start m n : Nat) :
    foldUp body s start (m + n) = foldUp body (foldUp body s start m) (start + m) n := by
  induction m generalizing s start with
  | zero => simp
  | succ m ih =>
    have hlen : m + 1 + n = m + n + 1 := by omega
    have hpos : start + (m + 1) = start + 1 + m := by omega
    rw [hlen, hpos, foldUp_succ, foldUp_succ, ih]

/-- A stretch of indices the body leaves alone does nothing. -/
theorem foldUp_idle (body : σ → Nat → σ) (s : σ) (start n : Nat)
    (h : ∀ j, start ≤ j → j < start + n → body s j = s) : foldUp body s start n = s := by
  induction n generalizing start with
  | zero => rfl
  | succ n ih =>
    rw [foldUp_succ, h start (Nat.le_refl _) (by omega)]
    exact ih (start + 1) (fun j hj hj' => h j (by omega) (by omega))

/-- **The skipping loop is the plain one** when the body leaves the skipped indices alone. -/
theorem forUp_eq_foldUp (next : σ → Nat → Nat) (hnext : ∀ s i, i < next s i)
    (body : σ → Nat → σ) (hskip : ∀ s i j, i < j → j < next s i → body s j = s)
    (stop : Nat) (s : σ) (i : Nat) :
    forUp next hnext body stop s i = foldUp body s i (stop - i) := by
  -- strong induction on the indices left; one pass of the loop covers `[i, next i)`
  induction hn : stop - i using Nat.strong_induction_on generalizing s i with
  | _ n ih =>
    rw [forUp]
    split
    · rename_i hlt
      have hup := hnext (body s i) i
      set j := next (body s i) i with hj
      have hcut : n = 1 + (n - 1) := by omega
      rw [ih (stop - j) (by omega) (body s i) j rfl, hcut, Nat.add_comm, foldUp_succ]
      -- the indices between `i + 1` and `j` are idle
      by_cases hjs : j ≤ stop
      · have hsplit : n - 1 = (j - (i + 1)) + (stop - j) := by omega
        rw [hsplit, foldUp_add, foldUp_idle body (body s i) (i + 1) (j - (i + 1))
          (fun k hk hk' => hskip (body s i) i k (by omega) (by omega))]
        congr 1
        omega
      have hstop : stop - j = 0 := by omega
      rw [hstop, foldUp_zero]
      exact (foldUp_idle body (body s i) (i + 1) (n - 1)
        (fun k hk hk' => hskip (body s i) i k (by omega) (by omega))).symm
    · rename_i hge
      have hzero : n = 0 := by omega
      rw [hzero, foldUp_zero]

/-- **The loop rule for two loops side by side**, over the same indices. -/
theorem foldUp_inv₂ {I : Nat → σ → τ → Prop} {f : σ → Nat → σ} {g : τ → Nat → τ}
    {start n : Nat} {s : σ} {t : τ} (hstart : I start s t)
    (hbody : ∀ k s t, start ≤ k → k < start + n → I k s t → I (k + 1) (f s k) (g t k)) :
    I (start + n) (foldUp f s start n) (foldUp g t start n) := by
  induction n generalizing start s t with
  | zero => exact hstart
  | succ n ih =>
    rw [foldUp_succ, foldUp_succ]
    have hpos : start + (n + 1) = start + 1 + n := by omega
    rw [hpos]
    exact ih (hbody start s t (Nat.le_refl _) (by omega) hstart)
      (fun k s' t' hk hk' => hbody k s' t' (by omega) (by omega))

/-- **The loop rule.** `I k` holds before the body sees index `k`; then `I` at the end index
holds after the loop. -/
theorem foldUp_inv {I : Nat → σ → Prop} {body : σ → Nat → σ} {start n : Nat} {s : σ}
    (hstart : I start s)
    (hbody : ∀ k s, start ≤ k → k < start + n → I k s → I (k + 1) (body s k)) :
    I (start + n) (foldUp body s start n) :=
  foldUp_inv₂ (I := fun k s _ => I k s) (g := fun u _ => u) (t := ()) hstart
    fun k s _ => hbody k s

/-! ## Loops with answers

A deterministic loop that asks its environment in every turn: `step` is one turn and `env k`
is what the environment answers in turn `k`. The answers are any sequence, so a statement about
every `env` is one about every behaviour of the environment, and a constant sequence is an
environment that does not change.

The rules are `after_inv` (what a turn preserves holds after any number of turns) and
`after_final` (a measure that falls in every turn before the end bounds the number of turns).
-/

section Turns

variable {σ α : Type} {step : σ → α → σ} {env : Nat → α} {s : σ}

/-- The state after `k` turns. -/
def after (step : σ → α → σ) (env : Nat → α) (s : σ) : Nat → σ
  | 0 => s
  | k + 1 => step (after step env s k) (env k)

theorem after_succ (k : Nat) : after step env s (k + 1) = step (after step env s k) (env k) := rfl

/-- The first turn taken off the front. -/
theorem after_succ' (k : Nat) :
    after step env s (k + 1) = after step (fun i => env (i + 1)) (step s (env 0)) k := by
  induction k with
  | zero => rfl
  | succ k ih => rw [after_succ, ih, after_succ]

theorem after_inv {I : σ → Prop} (hs : I s)
    (hstep : ∀ k, I (after step env s k) → I (step (after step env s k) (env k))) (k : Nat) :
    I (after step env s k) := by
  induction k with
  | zero => exact hs
  | succ k ih => exact hstep k ih

/-- A state that no turn changes is kept. -/
theorem after_stays {x : σ} (hstay : ∀ a, step x a = x) {j k : Nat} (hjk : j ≤ k)
    (hj : after step env s j = x) : after step env s k = x := by
  induction k, hjk using Nat.le_induction with
  | base => exact hj
  | succ k _ ih => rw [after_succ, ih, hstay]

/-- Two ends of one loop are the same. -/
theorem after_unique {x y : σ} (hx : ∀ a, step x a = x) (hy : ∀ a, step y a = y) {j k : Nat}
    (hj : after step env s j = x) (hk : after step env s k = y) : x = y := by
  rcases Nat.le_total j k with hjk | hkj
  · exact (after_stays hx hjk hj).symm.trans hk
  · exact hj.symm.trans (after_stays hy hkj hk)

theorem after_final {final : σ → Prop} (μ : σ → Nat)
    (hμ : ∀ k, ¬ final (after step env s k) →
      μ (step (after step env s k) (env k)) < μ (after step env s k)) :
    ∃ k ≤ μ s, final (after step env s k) := by
  by_contra hnone
  push Not at hnone
  -- without an end the measure falls below any bound
  have hfall : ∀ k, k ≤ μ s + 1 → μ (after step env s k) + k ≤ μ s := by
    intro k
    induction k with
    | zero => simp [after]
    | succ k ih =>
      intro hk
      have hlt := hμ k (hnone k (by omega))
      have hle := ih (by omega)
      rw [after_succ]
      omega
  have := hfall (μ s + 1) le_rfl
  omega

end Turns

end Ish.Lib
