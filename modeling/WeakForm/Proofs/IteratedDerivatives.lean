import Mathlib
import WeakForm.Proofs.FormalDerivatives

/-!
# Iterated derivatives of polynomials

Evaluating a list of terms differentiated along some directions is evaluating the iterated formal
partial derivative of its polynomial.  A point with `n` coordinates and directions below `n` only
see the first `n` exponents of a term (`Term.cut`), so this holds in any number of variables
(`Polynomial.evaluateDerivative_eq_eval`).

Formal partial derivatives commute, so the order of the directions does not matter, and every
monomial is gone after more derivatives than its degree; values have these properties from the
formal polynomial (`Polynomial.DifferentiatesFormally`).  Where all exponents beyond `dim` are zero,
the coordinates beyond `dim` do not matter either (`Polynomial.evaluateDerivative_take`).
-/

namespace WeakForm

open MvPolynomial

variable {K : Type} [CommRing K] {n : ℕ}

/-! ### Formal derivatives -/

/-- The partial derivatives in the given directions, one after the other. -/
noncomputable def formalDerivative (ks : List (Fin n)) (p : MvPolynomial (Fin n) K) :
    MvPolynomial (Fin n) K :=
  ks.foldl (fun p k => pderiv k p) p

theorem pderiv_comm (i j : Fin n) (p : MvPolynomial (Fin n) K) :
    pderiv i (pderiv j p) = pderiv j (pderiv i p) := by
  rcases eq_or_ne i j with rfl | hij
  · rfl
  · ext m
    have hj : (m + Finsupp.single i 1 : Fin n →₀ ℕ) j = m j := by
      rw [Finsupp.add_apply, Finsupp.single_eq_of_ne hij.symm, add_zero]
    have hi : (m + Finsupp.single j 1 : Fin n →₀ ℕ) i = m i := by
      rw [Finsupp.add_apply, Finsupp.single_eq_of_ne hij, add_zero]
    rw [coeff_pderiv, coeff_pderiv, coeff_pderiv, coeff_pderiv, hi, hj, add_right_comm m]
    exact mul_right_comm _ _ _

theorem formalDerivative_perm {ks js : List (Fin n)} (h : ks.Perm js)
    (p : MvPolynomial (Fin n) K) : formalDerivative ks p = formalDerivative js p :=
  haveI : RightCommutative fun (p : MvPolynomial (Fin n) K) (k : Fin n) => pderiv k p :=
    ⟨fun p i j => pderiv_comm j i p⟩
  h.foldl_eq p

/-- The degree of every monomial of a partial derivative is one less than that of a monomial of the
polynomial. -/
theorem add_single_mem_support {p : MvPolynomial (Fin n) K} {k : Fin n} {m : Fin n →₀ ℕ}
    (h : m ∈ (pderiv k p).support) : m + Finsupp.single k 1 ∈ p.support := by
  rw [mem_support_iff, coeff_pderiv] at h
  exact mem_support_iff.mpr (left_ne_zero_of_mul h)

theorem formalDerivative_eq_zero {ks : List (Fin n)} {p : MvPolynomial (Fin n) K}
    (h : p.totalDegree < ks.length) : formalDerivative ks p = 0 := by
  have hsupport : ∀ m ∈ p.support, m.degree < ks.length := fun m hm =>
    (le_totalDegree hm).trans_lt h
  clear h
  induction ks generalizing p with
  | nil =>
    refine support_eq_empty.mp (Finset.eq_empty_of_forall_notMem fun m hm => ?_)
    exact Nat.not_lt_zero _ (hsupport m hm)
  | cons k ks ih =>
    refine ih fun m hm => ?_
    have hdegree := hsupport _ (add_single_mem_support hm)
    rw [map_add, Finsupp.degree_single, List.length_cons] at hdegree
    exact Nat.lt_of_succ_lt_succ hdegree

/-! ### Exponents that a point does not see -/

namespace Term

/-- The term without the exponents beyond the first `n`. -/
def cut (n : ℕ) (t : Term K) : Term K :=
  { t with exponents := t.exponents.take n }

theorem toMvPolynomial_cut (t : Term K) : (t.cut n).toMvPolynomial n = t.toMvPolynomial n := by
  have hvector : exponentVector n (t.exponents.take n) = exponentVector n t.exponents := by
    ext i
    rw [exponentVector_apply, exponentVector_apply, List.getD_eq_getElem?_getD,
      List.getD_eq_getElem?_getD, List.getElem?_take_of_lt i.isLt]
  rw [toMvPolynomial, cut, hvector, toMvPolynomial]

theorem derivative?_cut {t : Term K} {k : ℕ} (hk : k < n) :
    (t.cut n).derivative? k = (t.derivative? k).map (cut n) := by
  have hexponent : (t.exponents.take n).getD k 0 = t.exponents.getD k 0 := by
    rw [List.getD_eq_getElem?_getD, List.getD_eq_getElem?_getD, List.getElem?_take_of_lt hk]
  unfold derivative?
  simp only [cut, hexponent]
  split
  · rfl
  · simp only [Option.map_some, cut, List.take_set]

theorem derivatives?_cut {t : Term K} {ks : List ℕ} (hks : ∀ k ∈ ks, k < n) :
    (t.cut n).derivatives? ks = (t.derivatives? ks).map (cut n) := by
  unfold derivatives?
  induction ks generalizing t with
  | nil => rfl
  | cons k ks ih =>
    rw [List.forall_mem_cons] at hks
    rw [List.foldlM_cons, List.foldlM_cons, derivative?_cut hks.1]
    cases t.derivative? k with
    | none => rfl
    | some u => exact ih hks.2

theorem evaluate_cut {t : Term K} {xi : List K} (hxi : xi.length ≤ n) :
    (t.cut n).evaluate xi = t.evaluate xi := by
  have hzip : xi.zip (t.exponents.take n) = xi.zip t.exponents :=
    calc xi.zip (t.exponents.take n)
        = (xi.take n).zip (t.exponents.take n) := by rw [List.take_of_length_le hxi]
      _ = (xi.zip t.exponents).take n := List.take_zipWith.symm
      _ = xi.zip t.exponents := List.take_of_length_le (by rw [List.length_zip]; omega)
  rw [evaluate, cut, hzip, evaluate]

/-- All exponents beyond the first `dim` are zero. -/
def VanishesBeyond (dim : ℕ) (t : Term K) : Prop :=
  ∀ i, dim ≤ i → t.exponents.getD i 0 = 0

theorem VanishesBeyond.derivative? {dim k : ℕ} {t u : Term K} (h : t.VanishesBeyond dim)
    (hu : t.derivative? k = some u) : u.VanishesBeyond dim := by
  unfold Term.derivative? at hu
  split at hu
  · cases hu
  · rename_i e he
    cases hu
    intro i hi
    have hne : k ≠ i := by
      rintro rfl
      rw [h k hi] at he
      cases he
    have hrest := h i hi
    rw [List.getD_eq_getElem?_getD] at hrest ⊢
    rwa [List.getElem?_set_ne hne]

theorem VanishesBeyond.derivatives? {dim : ℕ} {ks : List ℕ} {t u : Term K}
    (h : t.VanishesBeyond dim) (hu : t.derivatives? ks = some u) : u.VanishesBeyond dim := by
  induction ks generalizing t with
  | nil =>
    cases hu
    exact h
  | cons k ks ih =>
    rw [Term.derivatives?, List.foldlM_cons] at hu
    cases hk : t.derivative? k with
    | none =>
      rw [hk] at hu
      cases hu
    | some v =>
      rw [hk] at hu
      exact ih (h.derivative? hk) hu

theorem evaluate_eq_prod (t : Term K) (xi : List K) : t.evaluate xi =
    t.coefficient * ∏ i ∈ Finset.range xi.length, xi.getD i 0 ^ t.exponents.getD i 0 := by
  rw [Term.evaluate_eq rfl, toMvPolynomial, eval_monomial,
    Finsupp.prod_fintype _ _ fun i => pow_zero _,
    ← Fin.prod_univ_eq_prod_range fun i => xi.getD i 0 ^ t.exponents.getD i 0]
  rfl

theorem VanishesBeyond.evaluate_take {dim : ℕ} {t : Term K} (h : t.VanishesBeyond dim)
    (xi : List K) : t.evaluate (xi.take dim) = t.evaluate xi := by
  rw [evaluate_eq_prod, evaluate_eq_prod, List.length_take]
  congr 1
  calc ∏ i ∈ Finset.range (min dim xi.length), (xi.take dim).getD i 0 ^ t.exponents.getD i 0
      = ∏ i ∈ Finset.range (min dim xi.length), xi.getD i 0 ^ t.exponents.getD i 0 := by
        refine Finset.prod_congr rfl fun i hi => ?_
        rw [Finset.mem_range, lt_min_iff] at hi
        rw [List.getD_eq_getElem?_getD, List.getElem?_take_of_lt hi.1,
          ← List.getD_eq_getElem?_getD]
    _ = ∏ i ∈ Finset.range xi.length, xi.getD i 0 ^ t.exponents.getD i 0 := by
        refine Finset.prod_subset (Finset.range_mono (min_le_right _ _)) fun i hi hni => ?_
        rw [Finset.mem_range] at hi hni
        rw [h i (by omega), pow_zero]

end Term

/-! ### Values -/

namespace Polynomial

theorem evaluateDerivative_eq_eval (p : Polynomial K) (ks : List (Fin n)) {xi : List K}
    (hxi : xi.length = n) :
    p.evaluateDerivative (ks.map Fin.val) xi =
      eval (coordinates n xi) (formalDerivative ks (p.toMvPolynomial n)) := by
  have hlt : ∀ k ∈ ks.map Fin.val, k < n := by
    intro k hk
    obtain ⟨i, -, rfl⟩ := List.mem_map.mp hk
    exact i.isLt
  have hcut : p.evaluateDerivative (ks.map Fin.val) xi =
      evaluateDerivative (p.map (Term.cut n)) (ks.map Fin.val) xi := by
    rw [evaluateDerivative_eq_sum, evaluateDerivative_eq_sum, List.map_map]
    refine congrArg List.sum (List.map_congr_left fun t _ => ?_)
    rw [Function.comp_apply, Term.derivatives?_cut hlt]
    cases t.derivatives? (ks.map Fin.val) with
    | none => rfl
    | some u => exact (Term.evaluate_cut hxi.le).symm
  have hlength : ∀ t ∈ p.map (Term.cut n), t.exponents.length ≤ n := by
    intro t ht
    obtain ⟨u, -, rfl⟩ := List.mem_map.mp ht
    exact List.length_take_le _ _
  have hpolynomial : toMvPolynomial n (p.map (Term.cut n)) = p.toMvPolynomial n := by
    rw [toMvPolynomial, List.map_map, toMvPolynomial]
    exact congrArg List.sum (List.map_congr_left fun t _ => t.toMvPolynomial_cut)
  have hderivative : ∀ q : MvPolynomial (Fin n) K,
      (ks.map Fin.val).foldl (fun q k => partialDerivative n k q) q = formalDerivative ks q := by
    intro q
    rw [List.foldl_map, formalDerivative]
    refine List.foldl_ext _ _ _ fun q k _ => ?_
    rw [partialDerivative, dif_pos k.isLt]
  rw [hcut, evaluateDerivative_eq hlength _ hxi, hpolynomial, hderivative]

theorem evaluateDerivative_take {p : Polynomial K} {dim : ℕ}
    (hp : ∀ t ∈ p, t.VanishesBeyond dim) (ks : List ℕ) (xi : List K) :
    p.evaluateDerivative ks (xi.take dim) = p.evaluateDerivative ks xi := by
  rw [evaluateDerivative_eq_sum, evaluateDerivative_eq_sum]
  refine congrArg List.sum (List.map_congr_left fun t ht => ?_)
  cases hu : t.derivatives? ks with
  | none => rfl
  | some u => exact ((hp t ht).derivatives? hu).evaluate_take xi

/-- Derivatives at a point, in directions below `n`, are those of the formal polynomial in `n`
variables: the order of the directions does not matter, and there is nothing left after more
derivatives than the total degree. -/
structure DifferentiatesFormally (p : Polynomial K) (n : ℕ) (xi : List K) : Prop where
  value_eq : ∀ ks : List (Fin n), p.evaluateDerivative (ks.map Fin.val) xi =
    eval (coordinates n xi) (formalDerivative ks (p.toMvPolynomial n))
  perm : ∀ ks js : List (Fin n), ks.Perm js →
    p.evaluateDerivative (ks.map Fin.val) xi = p.evaluateDerivative (js.map Fin.val) xi
  eq_zero : ∀ ks : List (Fin n), (p.toMvPolynomial n).totalDegree < ks.length →
    p.evaluateDerivative (ks.map Fin.val) xi = 0

theorem differentiatesFormally (p : Polynomial K) {xi : List K} (hxi : xi.length = n) :
    p.DifferentiatesFormally n xi where
  value_eq ks := p.evaluateDerivative_eq_eval ks hxi
  perm ks js h := by
    rw [p.evaluateDerivative_eq_eval ks hxi, p.evaluateDerivative_eq_eval js hxi,
      formalDerivative_perm h]
  eq_zero ks h := by
    rw [p.evaluateDerivative_eq_eval ks hxi, formalDerivative_eq_zero h, map_zero]

/-- Derivatives of a list of terms are the iterated formal ones.  If the exponents beyond `dim` are
zero, the same holds in `dim` variables at the point cut to its first `dim` coordinates, and cutting
the point does not change the values. -/
theorem evaluateDerivative_formal (p : Polynomial K) (xi : List K) (hxi : xi.length = n) :
    p.DifferentiatesFormally n xi ∧
      ∀ dim ≤ n, (∀ t ∈ p, t.VanishesBeyond dim) →
        p.DifferentiatesFormally dim (xi.take dim) ∧
        ∀ ks : List (Fin dim), p.evaluateDerivative (ks.map Fin.val) (xi.take dim) =
          p.evaluateDerivative (ks.map Fin.val) xi := by
  refine ⟨p.differentiatesFormally hxi, fun dim hdim hp => ⟨p.differentiatesFormally ?_, ?_⟩⟩
  · rw [List.length_take, hxi, min_eq_left hdim]
  · exact fun ks => evaluateDerivative_take hp _ xi

/-- A polynomial in the first two of three variables, with an exponent that occurs twice. -/
theorem evaluateDerivative_formal_repeatedExponent :
    let p : Polynomial ℤ := [⟨3, [2, 1, 0]⟩, ⟨-1, [0, 1, 0]⟩, ⟨2, [2, 1, 0]⟩]
    ((∀ t ∈ p, t.VanishesBeyond 2) ∧ p.DifferentiatesFormally 3 [2, 7, 5] ∧
      p.DifferentiatesFormally 2 [2, 7]) ∧
      p.evaluateDerivative [0, 1] [2, 7] = 20 ∧ p.evaluateDerivative [1, 0] [2, 7, 5] = 20 := by
  intro p
  have hp : ∀ t ∈ p, t.VanishesBeyond 2 := by
    have hexponents : ∀ t ∈ p, t.exponents.length = 3 ∧ t.exponents.getD 2 0 = 0 := by decide
    intro t ht i hi
    obtain ⟨hlen, hzero⟩ := hexponents t ht
    rcases Nat.eq_or_lt_of_le hi with rfl | hlt
    · exact hzero
    · exact List.getD_eq_default _ _ (hlen ▸ hlt)
  obtain ⟨h3, hcut⟩ := evaluateDerivative_formal p [2, 7, 5] rfl
  obtain ⟨h2, htake⟩ := hcut 2 (by decide) hp
  have hvalue : p.evaluateDerivative [0, 1] [2, 7] = 20 := by decide
  exact ⟨⟨hp, h3, h2⟩, hvalue, (h3.perm [1, 0] [0, 1] (.swap 0 1 [])).trans
    ((htake [0, 1]).symm.trans hvalue)⟩

end Polynomial

end WeakForm
