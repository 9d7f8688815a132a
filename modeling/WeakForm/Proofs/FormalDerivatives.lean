import Mathlib
import WeakForm.Polynomial

/-!
# Polynomials as formal polynomials

A list of terms denotes a polynomial in `n` variables (`Polynomial.toMvPolynomial`).  The value of
a list differentiated along some directions is the value of its iterated partial derivative
(`Polynomial.evaluateDerivative_eq`): a term that vanishes is one whose partial derivative is zero.
Over the real numbers the formal derivatives are those of the calculus
(`lineDeriv_eval`, `iteratedPartial_eval`).
-/

namespace WeakForm

open MvPolynomial

/-- The coordinates of a point; those beyond the list are zero. -/
def coordinates {K : Type} [Zero K] (n : ℕ) (xi : List K) : Fin n → K :=
  fun i => xi.getD i 0

section Formal

variable {K : Type} [CommRing K] {n : ℕ}

theorem power_eq_pow (x : K) (n : ℕ) : power x n = x ^ n := by
  induction n with
  | zero => exact (pow_zero x).symm
  | succ n ih => rw [power, ih, pow_succ]

/-- The exponents of the first `n` variables. -/
noncomputable def exponentVector (n : ℕ) (es : List ℕ) : Fin n →₀ ℕ :=
  Finsupp.equivFunOnFinite.symm fun i => es.getD i 0

@[simp] theorem exponentVector_apply (es : List ℕ) (i : Fin n) :
    exponentVector n es i = es.getD i 0 := rfl

/-- Lists of one length within the variables are determined by their exponents. -/
theorem eq_of_exponentVector_eq {es fs : List ℕ} (hes : es.length ≤ n)
    (hlen : es.length = fs.length) (h : exponentVector n es = exponentVector n fs) : es = fs := by
  refine List.ext_getElem hlen fun i hi hi' => ?_
  have hentry := DFunLike.congr_fun h ⟨i, hi.trans_le hes⟩
  rwa [exponentVector_apply, exponentVector_apply, List.getD_eq_getElem _ _ hi,
    List.getD_eq_getElem _ _ hi'] at hentry

/-- The partial derivative in direction `k`; there is no dependence on directions beyond `n`. -/
noncomputable def partialDerivative (n k : ℕ) :
    Derivation K (MvPolynomial (Fin n) K) (MvPolynomial (Fin n) K) :=
  if h : k < n then pderiv ⟨k, h⟩ else 0

namespace Term

noncomputable def toMvPolynomial (n : ℕ) (t : Term K) : MvPolynomial (Fin n) K :=
  monomial (exponentVector n t.exponents) t.coefficient

theorem toMvPolynomial_derivative? {t : Term K} (ht : t.exponents.length ≤ n) (k : ℕ) :
    partialDerivative n k (t.toMvPolynomial n) =
      (t.derivative? k).elim 0 (toMvPolynomial n) := by
  by_cases hk : k < n
  · rw [partialDerivative, dif_pos hk, toMvPolynomial, pderiv_monomial, exponentVector_apply,
      derivative?]
    cases he : t.exponents.getD k 0 with
    | zero => simp
    | succ e =>
      have hlt : k < t.exponents.length := by
        by_contra hle
        rw [List.getD_eq_default _ _ (Nat.le_of_not_lt hle)] at he
        cases he
      have hexp : exponentVector n t.exponents - Finsupp.single ⟨k, hk⟩ 1 =
          exponentVector n (t.exponents.set k e) := by
        ext i
        rw [Finsupp.tsub_apply, exponentVector_apply, exponentVector_apply]
        by_cases hi : k = i
        · subst hi
          rw [List.getD_eq_getElem _ _ hlt] at he
          simp [he, hlt]
        · have hne : (⟨k, hk⟩ : Fin n) ≠ i := fun h => hi (congrArg Fin.val h)
          rw [Finsupp.single_eq_of_ne (Ne.symm hne), Nat.sub_zero, List.getD_eq_getElem?_getD,
            List.getD_eq_getElem?_getD, List.getElem?_set_ne hi]
      rw [hexp]
      rfl
  · have hnone : t.exponents.getD k 0 = 0 := List.getD_eq_default _ _ (by omega)
    rw [partialDerivative, dif_neg hk, derivative?, hnone]
    rfl

theorem length_of_derivative? {t u : Term K} {k : ℕ} (h : t.derivative? k = some u) :
    u.exponents.length = t.exponents.length := by
  unfold derivative? at h
  split at h
  · cases h
  · cases h
    exact List.length_set

/-- The iterated partial derivative of a term is that of its monomial. -/
theorem toMvPolynomial_derivatives? {t : Term K} (ht : t.exponents.length ≤ n) (ks : List ℕ) :
    ks.foldl (fun p k => partialDerivative n k p) (t.toMvPolynomial n) =
      (t.derivatives? ks).elim 0 (toMvPolynomial n) := by
  induction ks generalizing t with
  | nil => rfl
  | cons k ks ih =>
    rw [List.foldl_cons, toMvPolynomial_derivative? ht, derivatives?, List.foldlM_cons]
    cases hk : t.derivative? k with
    | none =>
      -- a term that has vanished stays zero
      have hzero : ∀ ks : List ℕ, ks.foldl (fun p k => partialDerivative n k p)
          (0 : MvPolynomial (Fin n) K) = 0 := by
        intro ks
        induction ks with
        | nil => rfl
        | cons k ks ih => rw [List.foldl_cons, map_zero, ih]
      exact hzero ks
    | some u => exact ih (length_of_derivative? hk ▸ ht)

theorem evaluate_eq {t : Term K} {xi : List K} (hxi : xi.length = n) :
    t.evaluate xi = eval (coordinates n xi) (t.toMvPolynomial n) := by
  obtain ⟨c, es⟩ := t
  have hfold : ∀ (xi : List K) (es : List ℕ) (c : K),
      (xi.zip es).foldl (fun acc (p : K × ℕ) => acc * power p.1 p.2) c =
        c * ∏ i : Fin xi.length, xi.getD i 0 ^ es.getD i 0 := by
    intro xi
    induction xi with
    | nil => simp
    | cons x xi ih =>
      intro es c
      cases es with
      | nil => simp
      | cons e es =>
        rw [List.zip_cons_cons, List.foldl_cons, ih, power_eq_pow, mul_assoc]
        congr 1
        exact (Fin.prod_univ_succ fun i : Fin (xi.length + 1) =>
          (x :: xi).getD i 0 ^ (e :: es).getD i 0).symm
  subst hxi
  rw [toMvPolynomial, eval_monomial, Finsupp.prod_fintype _ _ fun i => pow_zero _]
  exact hfold xi es c

end Term

namespace Polynomial

/-- The sum of the monomials of the terms. -/
noncomputable def toMvPolynomial (n : ℕ) (p : Polynomial K) : MvPolynomial (Fin n) K :=
  (p.map (Term.toMvPolynomial n)).sum

/-- Differentiating a polynomial along a list of directions, one after the other. -/
theorem foldl_partialDerivative_sum (ks : List ℕ) (ps : List (MvPolynomial (Fin n) K)) :
    ks.foldl (fun p k => partialDerivative n k p) ps.sum =
      (ps.map fun p => ks.foldl (fun p k => partialDerivative n k p) p).sum := by
  induction ks generalizing ps with
  | nil => simp
  | cons k ks ih =>
    rw [List.foldl_cons, map_list_sum, ih, List.map_map]
    rfl

/-- The value of a derivative is the sum of the values of the terms that do not vanish. -/
theorem evaluateDerivative_eq_sum (p : Polynomial K) (ks : List ℕ) (xi : List K) :
    p.evaluateDerivative ks xi =
      (p.map fun t => (t.derivatives? ks).elim 0 (·.evaluate xi)).sum := by
  rw [List.sum_eq_foldl, List.foldl_map]
  refine List.foldl_ext _ _ _ fun sum t _ => ?_
  cases t.derivatives? ks with
  | none => exact (add_zero sum).symm
  | some u => rfl

/-- The value of the iterated derivative is the value of the iterated partial derivative. -/
theorem evaluateDerivative_eq {p : Polynomial K} (hp : ∀ t ∈ p, t.exponents.length ≤ n)
    (ks : List ℕ) {xi : List K} (hxi : xi.length = n) :
    p.evaluateDerivative ks xi = eval (coordinates n xi)
      (ks.foldl (fun p k => partialDerivative n k p) (p.toMvPolynomial n)) := by
  have hterm : ∀ t ∈ p, (t.derivatives? ks).elim 0 (·.evaluate xi) = eval (coordinates n xi)
      (ks.foldl (fun p k => partialDerivative n k p) (t.toMvPolynomial n)) := by
    intro t ht
    rw [Term.toMvPolynomial_derivatives? (hp t ht)]
    cases t.derivatives? ks with
    | none => exact (map_zero _).symm
    | some u => exact Term.evaluate_eq hxi
  rw [evaluateDerivative_eq_sum, toMvPolynomial, foldl_partialDerivative_sum, map_list_sum,
    List.map_map, List.map_map]
  exact congrArg List.sum (List.map_congr_left hterm)

end Polynomial

end Formal

/-! ### Derivatives of real functions -/

section Calculus

variable {n : ℕ}

/-- The unit vector of a direction; directions beyond `n` have none. -/
def unitVector (n k : ℕ) : Fin n → ℝ :=
  fun i => if i.val = k then 1 else 0

/-- The derivatives of a function along directions of the coordinates, one after the other. -/
noncomputable def iteratedPartial (f : (Fin n → ℝ) → ℝ) (ks : List ℕ) : (Fin n → ℝ) → ℝ :=
  ks.foldl (fun f k x => lineDeriv ℝ f x (unitVector n k)) f

theorem hasLineDerivAt_apply (i : Fin n) (x v : Fin n → ℝ) :
    HasLineDerivAt ℝ (fun x : Fin n → ℝ => x i) (v i) x v := by
  have hlin : HasDerivAt (fun t : ℝ => x i + t * v i) (1 * v i) 0 :=
    ((hasDerivAt_id 0).mul_const _).const_add _
  rwa [one_mul] at hlin

theorem eval_partialDerivative_X (i : Fin n) (x : Fin n → ℝ) (k : ℕ) :
    eval x (partialDerivative n k (X i)) = unitVector n k i := by
  unfold partialDerivative unitVector
  split
  · by_cases hi : i.val = k
    · subst hi
      simp
    · rw [if_neg hi, pderiv_X_of_ne fun h => hi (congrArg Fin.val h), map_zero]
  · rename_i hk
    rw [if_neg fun hi : i.val = k => hk (hi ▸ i.isLt), Derivation.zero_apply, map_zero]

theorem hasLineDerivAt_eval (p : MvPolynomial (Fin n) ℝ) (x : Fin n → ℝ) (k : ℕ) :
    HasLineDerivAt ℝ (fun x => eval x p) (eval x (partialDerivative n k p)) x (unitVector n k) := by
  induction p using MvPolynomial.induction_on with
  | C c =>
    have hconst : partialDerivative n k (C c) = 0 := Derivation.map_algebraMap _ c
    simp only [hconst, eval_C, map_zero]
    exact hasDerivAt_const _ c
  | add p q hp hq =>
    simp only [map_add]
    exact HasDerivAt.add hp hq
  | mul_X p i hp =>
    have hvalue : eval x (partialDerivative n k (p * X i)) =
        eval x (partialDerivative n k p) * x i + eval x p * unitVector n k i := by
      rw [Derivation.leibniz, smul_eq_mul, smul_eq_mul, map_add, map_mul, map_mul,
        eval_partialDerivative_X, eval_X]
      ring
    simp only [map_mul, eval_X]
    refine HasDerivAt.congr_deriv (HasDerivAt.mul hp (hasLineDerivAt_apply i x _)) ?_
    rw [hvalue, zero_smul, add_zero]

theorem lineDeriv_eval (p : MvPolynomial (Fin n) ℝ) (k : ℕ) :
    (fun x => lineDeriv ℝ (fun x => eval x p) x (unitVector n k)) =
      fun x => eval x (partialDerivative n k p) :=
  funext fun x => (hasLineDerivAt_eval p x k).lineDeriv

/-- The derivatives of a polynomial function are its formal ones. -/
theorem iteratedPartial_eval (p : MvPolynomial (Fin n) ℝ) (ks : List ℕ) :
    iteratedPartial (fun x => eval x p) ks =
      fun x => eval x (ks.foldl (fun p k => partialDerivative n k p) p) := by
  induction ks generalizing p with
  | nil => rfl
  | cons k ks ih =>
    rw [iteratedPartial, List.foldl_cons, lineDeriv_eval]
    exact ih (partialDerivative n k p)

end Calculus

end WeakForm
