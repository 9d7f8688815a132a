import WeakForm.Proofs.RuleExactness

/-!
# Integrals against the Jacobi weight

The Gauss-Jacobi rules are for integrals over `[-1, 1]` against the weight
`(1 - x) ^ alpha * (1 + x) ^ beta` (`jacobiIntegral`).  Since the weight times `1 - x ^ 2` vanishes
at both ends, integration by parts leaves no boundary terms (`jacobiIntegral_byParts`).  This one
identity gives the integral of the weight function (`jacobiIntegral_one`), hence the moments of the
unit interval (`unitMoment_eq`) and of the simplices.
-/

section

open Polynomial MeasureTheory
open scoped Nat

namespace WeakForm

/-- The integral of a polynomial over `[-1, 1]` against the weight
`(1 - x) ^ alpha * (1 + x) ^ beta`. -/
noncomputable def jacobiIntegral (alpha beta : ℕ) : ℝ[X] →ₗ[ℝ] ℝ where
  toFun p := ∫ x in (-1 : ℝ)..1, p.eval x * ((1 - x) ^ alpha * (1 + x) ^ beta)
  map_add' p q := by
    simp only [eval_add, add_mul]
    exact intervalIntegral.integral_add
      (Continuous.intervalIntegrable (by fun_prop) _ _)
      (Continuous.intervalIntegrable (by fun_prop) _ _)
  map_smul' a p := by
    simp only [eval_smul, smul_eq_mul, mul_assoc, RingHom.id_apply]
    exact intervalIntegral.integral_const_mul a _

variable {alpha beta : ℕ}

theorem jacobiIntegral_apply (p : ℝ[X]) : jacobiIntegral alpha beta p =
    ∫ x in (-1 : ℝ)..1, p.eval x * ((1 - x) ^ alpha * (1 + x) ^ beta) := rfl

theorem jacobiIntegral_C_mul (a : ℝ) (p : ℝ[X]) :
    jacobiIntegral alpha beta (C a * p) = a * jacobiIntegral alpha beta p := by
  rw [C_mul', map_smul, smul_eq_mul]

/-- A factor `1 + x` of the polynomial may be counted to the weight. -/
theorem jacobiIntegral_succ (p : ℝ[X]) :
    jacobiIntegral alpha (beta + 1) p = jacobiIntegral alpha beta ((1 + X) * p) := by
  rw [jacobiIntegral_apply, jacobiIntegral_apply]
  refine intervalIntegral.integral_congr fun x _ => ?_
  simp only [eval_mul, eval_add, eval_one, eval_X, pow_succ]
  ring

/-! ### Integration by parts -/

/-- The integral of the derivative of a polynomial. -/
theorem integral_derivative (p : ℝ[X]) (a b : ℝ) :
    ∫ x in a..b, p.derivative.eval x = p.eval b - p.eval a :=
  intervalIntegral.integral_eq_sub_of_hasDerivAt (fun x _ => p.hasDerivAt x)
    (p.derivative.continuous.intervalIntegrable a b)

/-- What integration by parts against the weight takes a polynomial to. -/
noncomputable def jacobiDivergence (alpha beta : ℝ) (p : ℝ[X]) : ℝ[X] :=
  (1 - X ^ 2) * derivative p + (C (beta - alpha) - C (alpha + beta + 2) * X) * p

theorem jacobiIntegral_byParts (alpha beta : ℕ) (p : ℝ[X]) :
    jacobiIntegral alpha beta (jacobiDivergence alpha beta p) = 0 := by
  -- the primitive is the polynomial times the weight times `1 - x ^ 2`
  let F : ℝ[X] := p * ((1 - X) ^ (alpha + 1) * (1 + X) ^ (beta + 1))
  have hderivative : ∀ x, F.derivative.eval x =
      (jacobiDivergence alpha beta p).eval x * ((1 - x) ^ alpha * (1 + x) ^ beta) := by
    intro x
    simp only [F, jacobiDivergence, derivative_mul, derivative_pow, derivative_sub, derivative_add,
      derivative_one, derivative_X, eval_add, eval_mul, eval_sub, eval_pow, eval_C, eval_X,
      eval_one, eval_zero, Nat.add_sub_cancel, Nat.cast_add, Nat.cast_one]
    ring
  have hends : F.eval 1 - F.eval (-1) = 0 := by
    simp [F]
  rw [jacobiIntegral_apply, ← hends, ← integral_derivative]
  exact intervalIntegral.integral_congr fun x _ => (hderivative x).symm

/-! ### The integral of the weight function -/

theorem factorialOf_eq (n : ℕ) : factorialOf ℝ n = (n ! : ℝ) := by
  induction n with
  | zero => rw [factorialOf, Nat.factorial_zero, Nat.cast_one]
  | succ n ih => rw [factorialOf, ih, Nat.factorial_succ, Nat.cast_mul, mul_comm]

theorem totalMass_eq (alpha beta : ℕ) : totalMass ℝ alpha beta =
    2 ^ (alpha + beta + 1) * (alpha ! * beta ! / (alpha + beta + 1)!) := by
  rw [totalMass, power_eq_pow, factorialOf_eq, factorialOf_eq, factorialOf_eq, Nat.cast_ofNat,
    mul_assoc, mul_div_assoc]

/-- One more factor `1 + x`. -/
theorem jacobiIntegral_one_succ : (alpha + beta + 2) * jacobiIntegral alpha (beta + 1) 1 =
    2 * (beta + 1) * jacobiIntegral alpha beta 1 := by
  have hparts := jacobiIntegral_byParts alpha beta 1
  rw [jacobiDivergence, derivative_one, mul_zero, zero_add, mul_one, map_sub,
    jacobiIntegral_C_mul, ← mul_one (C _), jacobiIntegral_C_mul] at hparts
  rw [jacobiIntegral_succ, mul_one, map_add]
  linarith

theorem jacobiIntegral_one (alpha beta : ℕ) :
    jacobiIntegral alpha beta 1 = totalMass ℝ alpha beta := by
  induction beta with
  | zero =>
    have hlinear := integral_linear_mul_weight 1 0 alpha
    rw [totalMass_zero, jacobiIntegral_apply]
    simpa using hlinear
  | succ beta ih =>
    have hne : (alpha + beta + 2 : ℝ) ≠ 0 := by positivity
    have hfactorial : ((alpha + beta + 1)! : ℝ) ≠ 0 :=
      Nat.cast_ne_zero.mpr (Nat.factorial_ne_zero _)
    refine mul_left_cancel₀ hne ?_
    rw [jacobiIntegral_one_succ, ih, totalMass_eq, totalMass_eq, ← add_assoc,
      Nat.factorial_succ beta, Nat.factorial_succ (alpha + beta + 1), pow_succ _ (alpha + beta + 1)]
    push_cast
    field_simp
    ring

/-! ### Moments of the unit interval and of the simplices -/

theorem unitMoment_eq (a b : ℕ) : unitMoment a b = a ! * b ! / (a + b + 1)! := by
  have hsubst := integral_eq_unit_integral (fun t => (2 * t) ^ a) b
  have hleft : ∫ x in (-1 : ℝ)..1, (2 * (1 / 2 * (x + 1))) ^ a * (1 - x) ^ b =
      totalMass ℝ b a := by
    rw [← jacobiIntegral_one, jacobiIntegral_apply]
    refine intervalIntegral.integral_congr fun x _ => ?_
    simp only [eval_one]
    ring
  have hright : ∫ t in (0 : ℝ)..1, (2 * t) ^ a * (1 - t) ^ b = 2 ^ a * unitMoment a b := by
    rw [unitMoment, ← intervalIntegral.integral_const_mul]
    refine intervalIntegral.integral_congr fun t _ => ?_
    simp only [mul_pow, mul_assoc]
  rw [hleft, hright, totalMass_eq] at hsubst
  have hne : (2 : ℝ) ^ (b + a + 1) ≠ 0 := by positivity
  refine mul_left_cancel₀ hne ?_
  calc (2 : ℝ) ^ (b + a + 1) * unitMoment a b = 2 ^ (b + 1) * (2 ^ a * unitMoment a b) := by ring
    _ = 2 ^ (b + a + 1) * (b ! * a ! / (b + a + 1)!) := hsubst.symm
    _ = 2 ^ (b + a + 1) * (a ! * b ! / (a + b + 1)!) := by rw [mul_comm (b ! : ℝ), add_comm b a]

/-- The integral of a monomial over a simplex. -/
theorem integral_unitSimplex_monomial {n : ℕ} (m : Fin n → ℕ) :
    ∫ x in unitSimplex n, ∏ i, x i ^ m i = (∏ i, (m i)! : ℕ) / ((∑ i, m i + n)! : ℕ) := by
  induction n with
  | zero => rw [integral_unitSimplex_zero]; simp
  | succ n ih =>
    have hne : ((∑ i : Fin n, m i.succ + n)! : ℝ) ≠ 0 :=
      Nat.cast_ne_zero.mpr (Nat.factorial_ne_zero _)
    have hsum : ∑ i, m i + (n + 1) = m 0 + (∑ i : Fin n, m i.succ + n) + 1 := by
      rw [Fin.sum_univ_succ]
      omega
    rw [integral_unitSimplex_succ, ih, unitMoment_eq, hsum, Fin.prod_univ_succ]
    push_cast
    field_simp

end WeakForm

end
