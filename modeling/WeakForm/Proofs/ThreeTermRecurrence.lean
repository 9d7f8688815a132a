import Mathlib.Algebra.Polynomial.Degree.IsMonicOfDegree
import Mathlib.Algebra.Polynomial.Div
import Mathlib.Algebra.Polynomial.Sequence
import Mathlib.Tactic.LinearCombination

/-!
# Three-term recurrences

The polynomials of a three-term recurrence (`recurrencePolynomial`) are monic, one of each degree.
A linear functional that vanishes on all of them but the first one makes each of them orthogonal to
all polynomials of a smaller degree (`functional_mul_eq_zero`).  Division with remainder then shows
when a second functional agrees with it up to twice a degree (`functional_eq_of_natDegree_lt`); that
is why the rules with the zeros of such a polynomial as points are exact.

An eigenvector of the tridiagonal matrix of the recurrence has the values of the polynomials at the
eigenvalue as its components, up to scale (`prod_mul_eigenvector`).
-/

section

open Polynomial

namespace WeakForm

variable {K : Type} [Field K]

/-- The monic polynomials with `p (k + 1) = (X - a k) * p k - c k * p (k - 1)`. -/
noncomputable def recurrencePolynomial (a c : ℕ → K) : ℕ → K[X]
  | 0 => 1
  | 1 => X - C (a 0)
  | k + 2 => (X - C (a (k + 1))) * recurrencePolynomial a c (k + 1) -
      C (c (k + 1)) * recurrencePolynomial a c k

variable {a c : ℕ → K}

theorem recurrencePolynomial_succ (hc : c 0 = 0) (k : ℕ) :
    recurrencePolynomial a c (k + 1) =
      (X - C (a k)) * recurrencePolynomial a c k - C (c k) * recurrencePolynomial a c (k - 1) := by
  cases k with
  | zero => simp [recurrencePolynomial, hc]
  | succ k => rfl

theorem isMonicOfDegree_recurrencePolynomial (a c : ℕ → K) (k : ℕ) :
    IsMonicOfDegree (recurrencePolynomial a c k) k := by
  induction k using Nat.twoStepInduction with
  | zero => exact isMonicOfDegree_zero_iff.mpr rfl
  | one => exact isMonicOfDegree_X_sub_one (a 0)
  | more k ih₀ ih₁ =>
    have hprod : IsMonicOfDegree ((X - C (a (k + 1))) * recurrencePolynomial a c (k + 1)) (k + 2) :=
      Nat.add_comm 1 (k + 1) ▸ (isMonicOfDegree_X_sub_one (a (k + 1))).mul ih₁
    refine hprod.sub ?_
    calc (C (c (k + 1)) * recurrencePolynomial a c k).natDegree
        ≤ (recurrencePolynomial a c k).natDegree := natDegree_C_mul_le _ _
      _ < k + 2 := by rw [ih₀.natDegree_eq]; omega

/-! ### Orthogonality -/

section Functionals

variable {L Q : K[X] →ₗ[K] K}

theorem functional_X_pow_mul (hc : c 0 = 0) (hL : ∀ k, L (recurrencePolynomial a c (k + 1)) = 0)
    {i k : ℕ} (h : i < k) : L (X ^ i * recurrencePolynomial a c k) = 0 := by
  induction i generalizing k with
  | zero =>
    obtain ⟨k, rfl⟩ := Nat.exists_eq_succ_of_ne_zero (Nat.ne_of_gt h)
    rw [pow_zero, one_mul, hL]
  | succ i ih =>
    have hX : X ^ (i + 1) * recurrencePolynomial a c k =
        X ^ i * recurrencePolynomial a c (k + 1) + a k • (X ^ i * recurrencePolynomial a c k) +
          c k • (X ^ i * recurrencePolynomial a c (k - 1)) := by
      rw [recurrencePolynomial_succ hc, ← C_mul', ← C_mul']
      ring
    rw [hX, map_add, map_add, map_smul, map_smul, ih (by omega), ih (by omega), ih (by omega),
      smul_zero, smul_zero, add_zero, add_zero]

theorem functional_mul_eq_zero (hc : c 0 = 0) (hL : ∀ k, L (recurrencePolynomial a c (k + 1)) = 0)
    {q : K[X]} {k : ℕ} (hq : q.natDegree < k) : L (recurrencePolynomial a c k * q) = 0 := by
  rw [mul_comm, q.as_sum_range_C_mul_X_pow, Finset.sum_mul, map_sum]
  refine Finset.sum_eq_zero fun i hi => ?_
  have hi : i < k := by
    rw [Finset.mem_range] at hi
    omega
  rw [mul_assoc, C_mul', map_smul, functional_X_pow_mul hc hL hi, smul_zero]

/-- Functionals that agree on the first `n` polynomials of the recurrence agree on all polynomials
of smaller degree. -/
theorem functional_eq_of_degree_lt {n : ℕ}
    (h : ∀ k < n, Q (recurrencePolynomial a c k) = L (recurrencePolynomial a c k)) {p : K[X]}
    (hp : p.degree < n) : Q p = L p := by
  let S : Polynomial.Sequence K :=
    { elems' := recurrencePolynomial a c
      degree_eq' := fun k =>
        have hk := isMonicOfDegree_recurrencePolynomial a c k
        (degree_eq_natDegree hk.ne_zero).trans (congrArg Nat.cast hk.natDegree_eq) }
  have hspan := S.span_degreeLT (m := n) fun k _ => by
    have hk : (S k).leadingCoeff = 1 := (isMonicOfDegree_recurrencePolynomial a c k).leadingCoeff_eq
    exact hk ▸ isUnit_one
  have hmem : p ∈ Submodule.span K (S '' Set.Iio n) := hspan ▸ mem_degreeLT.mpr hp
  refine LinearMap.eqOn_span (Set.forall_mem_image.mpr fun k hk => ?_) hmem
  exact h k hk

/-- A functional that vanishes on the multiples of a polynomial of the recurrence, and agrees with
`L` up to its degree, does so up to twice its degree. -/
theorem functional_eq_of_natDegree_lt (hc : c 0 = 0)
    (hL : ∀ k, L (recurrencePolynomial a c (k + 1)) = 0) {n : ℕ}
    (h : ∀ k < n, Q (recurrencePolynomial a c k) = L (recurrencePolynomial a c k))
    (hn : ∀ q, Q (recurrencePolynomial a c n * q) = 0) {p : K[X]} (hp : p.natDegree < 2 * n) :
    Q p = L p := by
  have hmonic := isMonicOfDegree_recurrencePolynomial a c n
  have hdivision := modByMonic_add_div p (recurrencePolynomial a c n)
  have hquotient : (p /ₘ recurrencePolynomial a c n).natDegree < n := by
    rw [natDegree_divByMonic p hmonic.monic, hmonic.natDegree_eq]
    omega
  have hremainder : (p %ₘ recurrencePolynomial a c n).degree < n := by
    refine (degree_modByMonic_lt p hmonic.monic).trans_le ?_
    rw [degree_eq_natDegree hmonic.ne_zero, hmonic.natDegree_eq]
  rw [← hdivision, map_add, map_add, hn, functional_mul_eq_zero hc hL hquotient,
    functional_eq_of_degree_lt h hremainder]

end Functionals

/-! ### Eigenvectors -/

/-- The components of an eigenvector, times the couplings up to them, are the values of the
polynomials at the eigenvalue, times the first component. -/
theorem prod_mul_eigenvector {b w : ℕ → K} {x : K} {n : ℕ} (hc : c 0 = 0)
    (hb : ∀ k, b k ^ 2 = c k)
    (h : ∀ i < n, x * w i = b i * w (i - 1) + a i * w i + b (i + 1) * w (i + 1)) {i : ℕ}
    (hi : i ≤ n) :
    (∏ m ∈ Finset.range i, b (m + 1)) * w i = (recurrencePolynomial a c i).eval x * w 0 := by
  have hb0 : b 0 = 0 := pow_eq_zero_iff two_ne_zero |>.mp ((hb 0).trans hc)
  induction i using Nat.twoStepInduction with
  | zero => simp [recurrencePolynomial]
  | one =>
    have h0 := h 0 hi
    rw [hb0] at h0
    simp only [Finset.prod_range_one, recurrencePolynomial, eval_sub, eval_X, eval_C]
    linear_combination -h0
  | more k ih₀ ih₁ =>
    have hrow := h (k + 1) hi
    have hcoupling := hb (k + 1)
    have ih₀ := ih₀ (by omega)
    have ih₁ := ih₁ (by omega)
    rw [Finset.prod_range_succ] at ih₁ ⊢
    rw [Finset.prod_range_succ]
    rw [Nat.add_sub_cancel] at hrow
    simp only [recurrencePolynomial, eval_sub, eval_mul, eval_X, eval_C]
    generalize (∏ m ∈ Finset.range k, b (m + 1)) = B at ih₀ ih₁ ⊢
    linear_combination (x - a (k + 1)) * ih₁ - c (k + 1) * ih₀ - B * b (k + 1) * hrow -
      B * w k * hcoupling

end WeakForm

end
