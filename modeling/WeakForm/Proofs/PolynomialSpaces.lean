import WeakForm.Element.NodalBasis
import WeakForm.Proofs.FormalDerivatives
import WeakForm.Proofs.Grids

/-!
# Polynomial spaces of the cells

The degree of a polynomial means its total degree on simplices and its degree in each coordinate on
the other cells.  Either way it bounds the exponents of the monomials (`Cell.Admits`); the bound is
kept by smaller exponents and adds up with exponents, so derivatives do not raise the degree
(`partialDerivative_mem_polynomials`) and products add up degrees (`mul_mem_polynomials`).  The
nodal basis of an element consists of polynomials of its degree
(`NodalElement.shapePolynomial_mem_polynomials`).
-/

namespace WeakForm

open MvPolynomial

namespace Cell

/-- The bound that a degree sets to the exponents of a monomial. -/
def Admits (c : Cell) (d : ℕ) {n : ℕ} (m : Fin n →₀ ℕ) : Prop :=
  if c.isSimplex then ∑ i, m i ≤ d else ∀ i, m i ≤ d

section Admits

variable {c : Cell} {d e n : ℕ} {m m' : Fin n →₀ ℕ}

theorem admits_of_isSimplex (hc : c.isSimplex = true) : c.Admits d m ↔ ∑ i, m i ≤ d := by
  rw [Admits, if_pos hc]

theorem admits_of_not_isSimplex (hc : c.isSimplex = false) : c.Admits d m ↔ ∀ i, m i ≤ d := by
  rw [Admits, if_neg (by simp [hc])]

theorem Admits.mono (h : c.Admits d m) (hle : m' ≤ m) : c.Admits d m' := by
  cases hc : c.isSimplex with
  | true =>
    rw [admits_of_isSimplex hc] at h ⊢
    exact (Finset.sum_le_sum fun i _ => hle i).trans h
  | false =>
    rw [admits_of_not_isSimplex hc] at h ⊢
    exact fun i => (hle i).trans (h i)

theorem Admits.mono_degree (h : c.Admits d m) (hle : d ≤ e) : c.Admits e m := by
  cases hc : c.isSimplex with
  | true =>
    rw [admits_of_isSimplex hc] at h ⊢
    exact h.trans hle
  | false =>
    rw [admits_of_not_isSimplex hc] at h ⊢
    exact fun i => (h i).trans hle

theorem Admits.add (h : c.Admits d m) (h' : c.Admits e m') : c.Admits (d + e) (m + m') := by
  cases hc : c.isSimplex with
  | true =>
    rw [admits_of_isSimplex hc] at h h' ⊢
    simp only [Finsupp.add_apply, Finset.sum_add_distrib]
    exact Nat.add_le_add h h'
  | false =>
    rw [admits_of_not_isSimplex hc] at h h' ⊢
    exact fun i => Nat.add_le_add (h i) (h' i)

theorem admits_zero : c.Admits d (0 : Fin n →₀ ℕ) := by
  unfold Admits
  split <;> simp

end Admits

section Polynomials

variable {K : Type} [CommRing K] {c : Cell} {d e n : ℕ}

/-- The polynomials in `n` variables of degree at most `d`. -/
noncomputable def polynomials (K : Type) [CommRing K] (c : Cell) (n d : ℕ) :
    Submodule K (MvPolynomial (Fin n) K) :=
  restrictSupport K {m | c.Admits d m}

theorem mem_polynomials {p : MvPolynomial (Fin n) K} :
    p ∈ c.polynomials K n d ↔ ∀ m ∈ p.support, c.Admits d m :=
  mem_restrictSupport_iff K

theorem monomial_mem_polynomials {m : Fin n →₀ ℕ} (hm : c.Admits d m) (a : K) :
    monomial m a ∈ c.polynomials K n d :=
  (monomial_mem_restrictSupport K).mpr (Or.inl hm)

/-- A property of polynomials that is kept by sums holds if it does of the monomials. -/
theorem map_mem_of_monomials {V : Type*} [AddCommMonoid V] [Module K V] {W : Submodule K V}
    (f : MvPolynomial (Fin n) K →ₗ[K] V)
    (h : ∀ m : Fin n →₀ ℕ, c.Admits d m → ∀ a : K, f (monomial m a) ∈ W)
    {p : MvPolynomial (Fin n) K} (hp : p ∈ c.polynomials K n d) : f p ∈ W := by
  rw [p.as_sum, map_sum]
  exact W.sum_mem fun m hm => h m (mem_polynomials.mp hp m hm) _

theorem partialDerivative_mem_polynomials {p : MvPolynomial (Fin n) K}
    (hp : p ∈ c.polynomials K n d) (k : ℕ) : partialDerivative n k p ∈ c.polynomials K n d := by
  unfold partialDerivative
  split
  · refine map_mem_of_monomials (pderiv _).toLinearMap (fun m hm a => ?_) hp
    change pderiv _ (monomial m a) ∈ _
    rw [pderiv_monomial]
    exact monomial_mem_polynomials (hm.mono tsub_le_self) _
  · exact Submodule.zero_mem _

theorem foldl_partialDerivative_mem_polynomials {p : MvPolynomial (Fin n) K}
    (hp : p ∈ c.polynomials K n d) (ks : List ℕ) :
    ks.foldl (fun p k => partialDerivative n k p) p ∈ c.polynomials K n d := by
  induction ks generalizing p with
  | nil => exact hp
  | cons k ks ih => exact ih (partialDerivative_mem_polynomials hp k)

open scoped Pointwise in
theorem mul_mem_polynomials {p q : MvPolynomial (Fin n) K} (hp : p ∈ c.polynomials K n d)
    (hq : q ∈ c.polynomials K n e) : p * q ∈ c.polynomials K n (d + e) := by
  have hadd : {m : Fin n →₀ ℕ | c.Admits d m} + {m | c.Admits e m} ⊆ {m | c.Admits (d + e) m} :=
    Set.add_subset_iff.mpr fun m hm m' hm' => hm.add hm'
  refine restrictSupport_mono K hadd ?_
  rw [restrictSupport_add]
  exact Submodule.mul_mem_mul hp hq

/-- The degree of a product is the sum of the degrees of its factors. -/
theorem prod_mem_polynomials {ι : Type*} {l : List ι} {degree : ι → ℕ}
    {p : ι → MvPolynomial (Fin n) K} (h : ∀ i ∈ l, p i ∈ c.polynomials K n (degree i)) :
    (l.map p).prod ∈ c.polynomials K n (total (l.map degree)) := by
  induction l with
  | nil => exact monomial_mem_polynomials admits_zero 1
  | cons i l ih =>
    rw [List.forall_mem_cons] at h
    rw [List.map_cons, List.map_cons, List.prod_cons, total_cons]
    exact mul_mem_polynomials h.1 (ih h.2)

/-! ### The nodal basis -/

theorem length_of_mem_monomialExponents {es : List ℕ} (h : es ∈ c.monomialExponents d) :
    es.length = c.dimension := by
  rw [length_of_mem_cartesian (List.mem_filter.mp h).1, List.length_replicate]

theorem total_eq_sum_getD (l : List ℕ) : total l = ∑ i : Fin l.length, l.getD i 0 := by
  induction l with
  | nil => rfl
  | cons n l ih =>
    rw [total_cons, ih]
    exact (Fin.sum_univ_succ fun i : Fin (l.length + 1) => (n :: l).getD i 0).symm

/-- The exponents that span the space of a degree keep its bound. -/
theorem admits_exponentVector {es : List ℕ} (h : es ∈ c.monomialExponents d) :
    c.Admits d (exponentVector c.dimension es) := by
  have hlen := length_of_mem_monomialExponents h
  obtain ⟨hmem, hbound⟩ := List.mem_filter.mp h
  cases hc : c.isSimplex with
  | true =>
    rw [admits_of_isSimplex hc]
    simp only [hc, Bool.not_true, Bool.false_or, decide_eq_true_eq] at hbound
    rw [total_eq_sum_getD] at hbound
    rw [← hlen]
    exact hbound
  | false =>
    rw [admits_of_not_isSimplex hc]
    intro i
    have hi : i.val < es.length := hlen.symm ▸ i.isLt
    rw [mem_cartesian, List.forall₂_iff_get] at hmem
    have hrange := hmem.2 i hi (by rw [List.length_replicate]; exact i.isLt)
    rw [List.get_eq_getElem, List.get_eq_getElem, List.getElem_replicate, List.mem_range] at hrange
    rw [exponentVector_apply, List.getD_eq_getElem _ _ hi]
    exact Nat.le_of_lt_succ hrange

end Polynomials

end Cell

namespace NodalElement

/-- What building a nodal basis gives. -/
theorem build_eq_ok {K : Type} [Zero K] [One K] [Mul K] [Div K] [NatCast K] [BEq K] [Numerics K]
    {e : LagrangeElement} {E : NodalElement K} (h : build K e = .ok E) :
    E.toLagrangeElement = e ∧ E.basis.length = e.scalarDimension ∧
      ∀ p ∈ E.basis, ∀ t ∈ p, t.exponents ∈ e.exponents := by
  unfold build at h
  split at h
  · cases h
  · dsimp only at h
    split at h
    · cases h
    · cases h
      refine ⟨rfl, by rw [List.length_map, List.length_finRange]; rfl, fun p hp t ht => ?_⟩
      obtain ⟨i, -, rfl⟩ := List.mem_map.mp hp
      obtain ⟨j, -, ht⟩ := List.mem_filterMap.mp ht
      split at ht
      · cases ht
      · cases ht
        dsimp only
        rw [List.getD_eq_getElem _ _ j.isLt]
        exact List.getElem_mem _

variable {K : Type} [Field K] [BEq K] [Numerics K] {e : LagrangeElement} {E : NodalElement K}

/-- The polynomial of a component of a basis function: basis function `k` of a vector element is
scalar basis function `k % n` in component `k / n` and vanishes in the others. -/
noncomputable def shapePolynomial (E : NodalElement K) (n k : ℕ) (component : List ℕ) :
    MvPolynomial (Fin n) K :=
  if ∀ c ∈ component.head?, c = k / E.basis.length then
    Polynomial.toMvPolynomial n (E.basis.getD (k % E.basis.length) [])
  else 0

theorem forall_mem_getD (h : build K e = .ok E) (i : ℕ) :
    ∀ t ∈ E.basis.getD i [], t.exponents ∈ e.exponents := by
  intro t ht
  rcases Nat.lt_or_ge i E.basis.length with hlt | hge
  · rw [List.getD_eq_getElem _ _ hlt] at ht
    exact (build_eq_ok h).2.2 _ (List.getElem_mem hlt) t ht
  · rw [List.getD_eq_default _ _ hge] at ht
    cases ht

/-- Basis functions have at most the degree of their element. -/
theorem shapePolynomial_mem_polynomials (h : build K e = .ok E) (k : ℕ) (component : List ℕ) :
    E.shapePolynomial e.cell.dimension k component ∈
      e.cell.polynomials K e.cell.dimension e.degree := by
  unfold shapePolynomial
  split
  · refine list_sum_mem fun p hp => ?_
    obtain ⟨t, ht, rfl⟩ := List.mem_map.mp hp
    have hadmits := Cell.admits_exponentVector (forall_mem_getD h _ t ht)
    exact Cell.monomial_mem_polynomials (hadmits.mono_degree (wrapHalf_le e.degree)) _
  · exact Submodule.zero_mem _

/-- Evaluating a basis function is evaluating the derivative of its polynomial. -/
theorem evaluate_eq (h : build K e = .ok E) (k : ℕ) (component ks : List ℕ) {xi : List K}
    (hxi : xi.length = e.cell.dimension) :
    E.evaluate k component ks xi = eval (coordinates e.cell.dimension xi)
      (ks.foldl (fun p k => partialDerivative e.cell.dimension k p)
        (E.shapePolynomial e.cell.dimension k component)) := by
  have hvalue := Polynomial.evaluateDerivative_eq (p := E.basis.getD (k % E.basis.length) [])
    (fun t ht => (Cell.length_of_mem_monomialExponents (forall_mem_getD h _ t ht)).le) ks hxi
  have hzero := Polynomial.foldl_partialDerivative_sum (K := K) (n := e.cell.dimension) ks []
  rw [List.map_nil, List.sum_nil] at hzero
  cases component with
  | nil =>
    rw [shapePolynomial, if_pos (by simp)]
    exact hvalue
  | cons c component =>
    by_cases hc : c = k / E.basis.length
    · rw [shapePolynomial, if_pos (by simpa using hc), ← hvalue, evaluate]
      simp [hc]
    · rw [shapePolynomial, if_neg (by simpa using hc), hzero, map_zero, evaluate]
      simp [hc]

end NodalElement

end WeakForm
