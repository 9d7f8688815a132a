import WeakForm.Proofs.JacobiWeight
import WeakForm.Proofs.ThreeTermRecurrence

/-!
# The recurrence of the Jacobi polynomials

The closed formulas for the entries of the recurrence matrix are those of the polynomials that are
orthogonal with respect to the Jacobi weight.  Only two facts about the formulas are used: the
diagonal entries are the differences of `jacobiDrift`, and the squares of the entries beside the
diagonal satisfy a recurrence (`couplingSq_succ`).  By induction along the recurrence the
polynomials satisfy a first-order differential relation (`jacobiPolynomial_derivative`); together
with integration by parts it shows that the integrals of all of them but the first one vanish
(`jacobiIntegral_jacobiPolynomial`).
-/

section

open Polynomial

namespace WeakForm

/-! ### The coefficients -/

/-- The quotients whose differences are the diagonal of the recurrence matrix. -/
noncomputable def jacobiDrift (alpha beta : ℕ) (k : ℕ) : ℝ :=
  k * (alpha - beta) / (2 * k + (alpha + beta) : ℕ)

/-- The square of the entry that couples rows `k - 1` and `k`. -/
noncomputable def couplingSq (alpha beta : ℕ) (k : ℕ) : ℝ :=
  (4 * k * (k + alpha) * (k + beta) * (k + (alpha + beta)) : ℕ) /
    ((2 * k + (alpha + beta) : ℕ) ^ 2 * (2 * k + (alpha + beta) + 1 : ℕ) *
      ((2 * k + (alpha + beta) : ℕ) - 1))

variable (alpha beta k : ℕ)

theorem jacobiDrift_eq :
    jacobiDrift alpha beta k = k * (alpha - beta) / (2 * k + (alpha + beta)) := by
  rw [jacobiDrift]
  push_cast
  rfl

theorem couplingSq_eq : couplingSq alpha beta k =
    4 * k * (k + alpha) * (k + beta) * (k + (alpha + beta)) /
      ((2 * k + (alpha + beta)) * (2 * k + (alpha + beta)) * (2 * k + (alpha + beta) + 1) *
        (2 * k + (alpha + beta) - 1)) := by
  rw [couplingSq, ← pow_two]
  push_cast
  rfl

theorem jacobiDrift_zero : jacobiDrift alpha beta 0 = 0 := by
  simp [jacobiDrift]

theorem jacobiDrift_mul :
    (2 * k + (alpha + beta)) * jacobiDrift alpha beta k = k * (alpha - beta : ℝ) := by
  rcases Nat.eq_zero_or_pos k with rfl | hk
  · rw [jacobiDrift_zero]
    simp
  · have hne : (2 * k + (alpha + beta) : ℝ) ≠ 0 := by positivity
    rw [jacobiDrift_eq, mul_div_cancel₀ _ hne]

theorem recurrenceDiagonal_eq : recurrenceDiagonal k (alpha : ℝ) (beta : ℝ) =
    jacobiDrift alpha beta k - jacobiDrift alpha beta (k + 1) := by
  have hne' : (2 * k + (alpha + beta) + 2 : ℝ) ≠ 0 := by positivity
  rcases Nat.eq_zero_or_pos k with rfl | hk
  · rw [jacobiDrift_zero, recurrenceDiagonal, if_pos rfl, jacobiDrift_eq]
    push_cast
    rw [zero_sub, ← neg_div]
    congr 1 <;> ring
  · have hne : (2 * k + (alpha + beta) : ℝ) ≠ 0 := by positivity
    rw [recurrenceDiagonal, if_neg hk.ne', jacobiDrift_eq, jacobiDrift_eq]
    have hnext : (2 * ((k + 1 : ℕ) : ℝ) + (alpha + beta)) = 2 * k + (alpha + beta) + 2 := by
      push_cast
      ring
    rw [hnext, div_sub_div _ _ hne hne']
    push_cast
    congr 1
    ring

theorem couplingSq_zero : couplingSq alpha beta 0 = 0 := by
  simp [couplingSq]

theorem mul_couplingSq : (2 * k + (alpha + beta) - 1) * couplingSq alpha beta k =
    4 * k * (k + alpha) * (k + beta) * (k + (alpha + beta)) /
      ((2 * k + (alpha + beta)) ^ 2 * (2 * k + (alpha + beta) + 1)) := by
  rcases Nat.eq_zero_or_pos k with rfl | hk
  · rw [couplingSq_zero]
    simp
  · have hne : (2 * k + (alpha + beta) - 1 : ℝ) ≠ 0 := by
      have hone : (1 : ℝ) ≤ k := Nat.one_le_cast.mpr hk
      have hsum : (0 : ℝ) ≤ alpha + beta := by positivity
      linarith
    rw [couplingSq_eq]
    field_simp

theorem mul_couplingSq_succ : (2 * k + (alpha + beta) + 3) * couplingSq alpha beta (k + 1) =
    4 * (k + 1) * (k + 1 + alpha) * (k + 1 + beta) * (k + 1 + (alpha + beta)) /
      ((2 * k + (alpha + beta) + 2) ^ 2 * (2 * k + (alpha + beta) + 1)) := by
  have hne : (2 * k + (alpha + beta) + 3 : ℝ) ≠ 0 := by positivity
  have hdouble : 2 * ((k + 1 : ℕ) : ℝ) + (alpha + beta) = 2 * k + (alpha + beta) + 2 := by
    push_cast
    ring
  have hsucc : (2 * k + (alpha + beta) + 2 + 1 : ℝ) = 2 * k + (alpha + beta) + 3 := by ring
  have hpred : (2 * k + (alpha + beta) + 2 - 1 : ℝ) = 2 * k + (alpha + beta) + 1 := by ring
  rw [couplingSq_eq, hdouble, hsucc, hpred]
  push_cast
  field_simp

theorem couplingSq_succ : (2 * k + (alpha + beta) + 3) * couplingSq alpha beta (k + 1) =
    (2 * k + (alpha + beta) - 1) * couplingSq alpha beta k +
      (1 - recurrenceDiagonal k (alpha : ℝ) (beta : ℝ) ^ 2) := by
  have hne₁ : (2 * k + (alpha + beta) + 1 : ℝ) ≠ 0 := by positivity
  have hne₂ : (2 * k + (alpha + beta) + 2 : ℝ) ≠ 0 := by positivity
  rw [mul_couplingSq_succ, mul_couplingSq, recurrenceDiagonal]
  rcases Nat.eq_zero_or_pos k with rfl | hk
  · rw [if_pos rfl]
    push_cast
    field_simp
    ring
  · have hne : (2 * k + (alpha + beta) : ℝ) ≠ 0 := by positivity
    rw [if_neg hk.ne']
    push_cast
    field_simp
    ring

theorem couplingSq_nonneg : 0 ≤ couplingSq alpha beta k := by
  rcases Nat.eq_zero_or_pos k with rfl | hk
  · exact (couplingSq_zero alpha beta).ge
  · have hone : (1 : ℝ) ≤ k := Nat.one_le_cast.mpr hk
    have hlast : (0 : ℝ) ≤ 2 * k + (alpha + beta) - 1 := by
      have : (0 : ℝ) ≤ alpha + beta := by positivity
      linarith
    rw [couplingSq_eq]
    positivity

/-- The entries beside the diagonal are the roots of their squares. -/
theorem recurrenceOffDiagonal_eq [Numerics ℝ] : recurrenceOffDiagonal k (alpha : ℝ) (beta : ℝ) =
    Numerics.sqrt (couplingSq alpha beta k) := by
  simp only [recurrenceOffDiagonal, couplingSq_eq, Nat.cast_ofNat]

/-! ### The polynomials -/

/-- The monic Jacobi polynomials. -/
noncomputable def jacobiPolynomial (alpha beta : ℕ) : ℕ → ℝ[X] :=
  recurrencePolynomial (fun k => recurrenceDiagonal k (alpha : ℝ) (beta : ℝ))
    (couplingSq alpha beta)

theorem jacobiPolynomial_succ : jacobiPolynomial alpha beta (k + 1) =
    (X - C (recurrenceDiagonal k (alpha : ℝ) (beta : ℝ))) * jacobiPolynomial alpha beta k -
      C (couplingSq alpha beta k) * jacobiPolynomial alpha beta (k - 1) :=
  recurrencePolynomial_succ (couplingSq_zero alpha beta) k

/-- The derivative of a Jacobi polynomial in terms of the polynomial and the one before it. -/
theorem jacobiPolynomial_derivative (x : ℝ) :
    (1 - x ^ 2) * (derivative (jacobiPolynomial alpha beta k)).eval x =
      (jacobiDrift alpha beta k - k * x) * (jacobiPolynomial alpha beta k).eval x +
        (2 * k + (alpha + beta) + 1) * couplingSq alpha beta k *
          (jacobiPolynomial alpha beta (k - 1)).eval x := by
  induction k using Nat.twoStepInduction with
  | zero =>
    rw [jacobiDrift_zero, couplingSq_zero]
    simp [jacobiPolynomial, recurrencePolynomial]
  | one =>
    have hcoupling := couplingSq_succ alpha beta 0
    have hdiagonal := recurrenceDiagonal_eq alpha beta 0
    rw [couplingSq_zero] at hcoupling
    rw [jacobiDrift_zero] at hdiagonal
    simp only [jacobiPolynomial, recurrencePolynomial, derivative_sub, derivative_X, derivative_C,
      eval_sub, eval_X, eval_C, eval_one, sub_zero, Nat.sub_self, Nat.cast_zero, Nat.cast_one]
      at hcoupling ⊢
    rw [hdiagonal] at hcoupling ⊢
    linear_combination -hcoupling
  | more k ih₀ ih₁ =>
    have hnext := congrArg (eval x) (jacobiPolynomial_succ alpha beta (k + 1))
    have hthis := congrArg (eval x) (jacobiPolynomial_succ alpha beta k)
    have hderivative := congrArg (fun p => eval x (derivative p))
      (jacobiPolynomial_succ alpha beta (k + 1))
    have hcoupling := couplingSq_succ alpha beta (k + 1)
    have hdrift₀ := jacobiDrift_mul alpha beta k
    have hdrift₁ := jacobiDrift_mul alpha beta (k + 1)
    have hdrift₂ := jacobiDrift_mul alpha beta (k + 2)
    simp only [derivative_sub, derivative_mul, derivative_X, derivative_C, eval_add, eval_sub,
      eval_mul, eval_X, eval_C, eval_one, eval_zero, Nat.add_sub_cancel, Nat.add_succ_sub_one]
      at hnext hthis hderivative ih₁ ⊢
    rw [recurrenceDiagonal_eq] at hnext hthis hderivative hcoupling
    push_cast at hdrift₁ hdrift₂ hcoupling ih₁ ⊢
    rw [hnext, hderivative]
    linear_combination
      (x - (jacobiDrift alpha beta (k + 1) - jacobiDrift alpha beta (k + 2))) * ih₁ -
        couplingSq alpha beta (k + 1) * ih₀ -
        couplingSq alpha beta (k + 1) * (2 * k + (alpha + beta) + 1) * hthis -
        (jacobiPolynomial alpha beta (k + 1)).eval x * hcoupling +
        couplingSq alpha beta (k + 1) * (jacobiPolynomial alpha beta k).eval x *
          (hdrift₂ - 2 * hdrift₁ + hdrift₀)

/-- Integration by parts of a Jacobi polynomial relates it to its neighbours. -/
theorem jacobiDivergence_jacobiPolynomial :
    jacobiDivergence alpha beta (jacobiPolynomial alpha beta k) =
      C (-(k + (alpha + beta) + 2 : ℝ)) * jacobiPolynomial alpha beta (k + 1) +
        C (jacobiDrift alpha beta k - (alpha - beta) -
          (k + (alpha + beta) + 2) * recurrenceDiagonal k (alpha : ℝ) (beta : ℝ)) *
            jacobiPolynomial alpha beta k +
        C ((k - 1) * couplingSq alpha beta k) * jacobiPolynomial alpha beta (k - 1) := by
  refine Polynomial.funext fun x => ?_
  have hderivative := jacobiPolynomial_derivative alpha beta k x
  have hnext := congrArg (eval x) (jacobiPolynomial_succ alpha beta k)
  simp only [jacobiDivergence, eval_add, eval_sub, eval_mul, eval_pow, eval_X, eval_C, eval_one]
    at hnext ⊢
  linear_combination hderivative + (k + (alpha + beta) + 2 : ℝ) * hnext

/-- The integral of a Jacobi polynomial in terms of those of the two before it. -/
theorem jacobiIntegral_jacobiPolynomial_succ : (k + (alpha + beta) + 2 : ℝ) *
    jacobiIntegral alpha beta (jacobiPolynomial alpha beta (k + 1)) =
      (jacobiDrift alpha beta k - (alpha - beta) -
        (k + (alpha + beta) + 2) * recurrenceDiagonal k (alpha : ℝ) (beta : ℝ)) *
          jacobiIntegral alpha beta (jacobiPolynomial alpha beta k) +
      (k - 1) * couplingSq alpha beta k *
        jacobiIntegral alpha beta (jacobiPolynomial alpha beta (k - 1)) := by
  have hparts := jacobiIntegral_byParts alpha beta (jacobiPolynomial alpha beta k)
  rw [jacobiDivergence_jacobiPolynomial, map_add, map_add, jacobiIntegral_C_mul,
    jacobiIntegral_C_mul, jacobiIntegral_C_mul] at hparts
  linear_combination -hparts

/-- All Jacobi polynomials but the first one are orthogonal to the constants. -/
theorem jacobiIntegral_jacobiPolynomial :
    jacobiIntegral alpha beta (jacobiPolynomial alpha beta (k + 1)) = 0 := by
  induction k using Nat.strong_induction_on with
  | _ k ih =>
    have hne : (k + (alpha + beta) + 2 : ℝ) ≠ 0 := by positivity
    refine mul_left_cancel₀ hne ((jacobiIntegral_jacobiPolynomial_succ alpha beta k).trans ?_)
    rw [mul_zero]
    cases k with
    | zero =>
      have hdrift := jacobiDrift_mul alpha beta 1
      rw [recurrenceDiagonal_eq, jacobiDrift_zero, couplingSq_zero]
      push_cast at hdrift ⊢
      linear_combination jacobiIntegral alpha beta (jacobiPolynomial alpha beta 0) * hdrift
    | succ k =>
      rw [ih k (Nat.lt_succ_self k), mul_zero, zero_add, Nat.add_sub_cancel]
      cases k with
      | zero =>
        -- the first polynomial, whose integral does not vanish, has the coefficient zero
        simp
      | succ k =>
        rw [ih k (by omega), mul_zero]

end WeakForm

end
