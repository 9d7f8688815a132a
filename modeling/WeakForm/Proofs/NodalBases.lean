import Mathlib
import WeakForm.Proofs.Unisolvence

/-!
# Nodal bases

The coefficients of a nodal basis are the columns of the inverse of the matrix of all monomials at
all nodes (`NodalElement.build_eq`), and this matrix is invertible in every degree.  A derivative of
a basis function combines the derivatives of the monomials with its coefficients
(`evaluateDerivative_columnBasis`).  The matrix times its inverse gives the values at the nodes
(`Cell.sum_column_node`); the inverse times the matrix says that all columns together are the
constant monomial (`Cell.sum_columns`).  So elements of every degree exist, are nodal, and their
basis functions add up to one (`NodalElement.build_isNodal`).
-/

namespace WeakForm

/-! ### Derivatives of monomials -/

section Terms

variable {K : Type} [CommRing K]

namespace Term

/-- The term with its coefficient multiplied by a scalar. -/
def scale (a : K) (t : Term K) : Term K :=
  { t with coefficient := a * t.coefficient }

theorem derivative?_scale (a : K) (t : Term K) (k : ℕ) :
    (t.scale a).derivative? k = (t.derivative? k).map (scale a) := by
  cases h : t.exponents.getD k 0 with
  | zero => simp only [derivative?, scale, h, Option.map_none]
  | succ e => simp only [derivative?, scale, h, Option.map_some, mul_assoc]

theorem derivatives?_scale (a : K) (t : Term K) (ks : List ℕ) :
    (t.scale a).derivatives? ks = (t.derivatives? ks).map (scale a) := by
  unfold derivatives?
  induction ks generalizing t with
  | nil => rfl
  | cons k ks ih =>
    rw [List.foldlM_cons, List.foldlM_cons, derivative?_scale]
    cases t.derivative? k with
    | none => rfl
    | some u => exact ih u

theorem evaluate_scale (a : K) (t : Term K) (xi : List K) :
    (t.scale a).evaluate xi = a * t.evaluate xi := by
  rw [Term.evaluate_eq rfl, Term.evaluate_eq rfl]
  simp [toMvPolynomial, scale, MvPolynomial.eval_monomial, mul_assoc]

end Term

/-- The value of a derivative of a monomial. -/
def monomialDerivative (e ks : List ℕ) (xi : List K) : K :=
  ((Term.mk 1 e).derivatives? ks).elim 0 (·.evaluate xi)

theorem monomialDerivative_nil (e : List ℕ) (xi : List K) :
    monomialDerivative e [] xi = monomialAt xi e :=
  (monomialAt_eq_evaluate xi e).symm

/-- A term that vanishes when it is differentiated contributes zero, like its monomial. -/
theorem elim_derivatives? (a : K) (e ks : List ℕ) (xi : List K) :
    ((Term.mk a e).derivatives? ks).elim 0 (·.evaluate xi) = a * monomialDerivative e ks xi := by
  have hscale : Term.mk a e = (Term.mk 1 e).scale a := by rw [Term.scale, mul_one]
  rw [hscale, Term.derivatives?_scale, monomialDerivative]
  cases (Term.mk (1 : K) e).derivatives? ks with
  | none => exact (mul_zero a).symm
  | some u => exact Term.evaluate_scale a u xi

/-- The constant monomial is one, and its derivatives are zero. -/
theorem monomialDerivative_zero (n : ℕ) (ks : List ℕ) (xi : List K) :
    monomialDerivative (List.replicate n 0) ks xi = if ks = [] then 1 else 0 := by
  cases ks with
  | nil =>
    have hone : (Term.mk (1 : K) (List.replicate n 0)).evaluate xi = 1 := by
      rw [Term.evaluate_eq rfl]
      simp [Term.toMvPolynomial, MvPolynomial.eval_monomial]
    exact hone
  | cons k ks =>
    have hnone : (Term.mk (1 : K) (List.replicate n 0)).derivative? k = none := by
      unfold Term.derivative?
      simp
    rw [monomialDerivative, Term.derivatives?, List.foldlM_cons, hnone]
    rfl

end Terms

/-! ### Bases from the columns of a matrix -/

theorem sum_map_filterMap {α β K : Type} [CommRing K] (f : α → Option β) (g : β → K) (l : List α) :
    ((l.filterMap f).map g).sum = (l.map fun a => (f a).elim 0 g).sum := by
  induction l with
  | nil => rfl
  | cons a l ih =>
    cases h : f a with
    | none => simp [h, ih]
    | some b => simp [h, ih]

section Columns

variable {K : Type} [Field K] [BEq K] (exponents : List (List ℕ))
  (C : Fin exponents.length → Fin exponents.length → K)

/-- The polynomials whose coefficients are the columns of a matrix, without the zeros. -/
def columnBasis : List (Polynomial K) :=
  (List.finRange exponents.length).map fun i =>
    (List.finRange exponents.length).filterMap fun j =>
      if C j i == 0 then none
      else some { coefficient := C j i, exponents := exponents.getD j [] }

theorem length_columnBasis : (columnBasis exponents C).length = exponents.length := by
  rw [columnBasis, List.length_map, List.length_finRange]

theorem evaluateDerivative_columnBasis [LawfulBEq K] (i : Fin exponents.length) (ks : List ℕ)
    (xi : List K) :
    ((columnBasis exponents C).getD i []).evaluateDerivative ks xi =
      ∑ j : Fin exponents.length, C j i * monomialDerivative (exponents.getD j []) ks xi := by
  have hi : i < (columnBasis exponents C).length :=
    (length_columnBasis exponents C).symm ▸ i.isLt
  rw [List.getD_eq_getElem _ _ hi]
  simp only [columnBasis, List.getElem_map, List.getElem_finRange]
  rw [Polynomial.evaluateDerivative_eq_sum, sum_map_filterMap, Fin.sum_univ_def]
  refine congrArg List.sum (List.map_congr_left fun j _ => ?_)
  by_cases hzero : C j i = 0
  · simp [hzero]
  · rw [if_neg (by simpa using hzero)]
    exact elim_derivatives? (C j i) (exponents.getD j []) ks xi

end Columns

/-! ### Nodal bases -/

/-- Invertible matrices are inverted. -/
def Numerics.InvertsMatrices (K : Type) [Field K] [Numerics K] : Prop :=
  ∀ {n : ℕ} (A : Fin n → Fin n → K), IsUnit (Matrix.of A) →
    Numerics.inverse? A = some fun r c => (Matrix.of A)⁻¹ r c

/-- Exact inverses of rational matrices, and the eigenvalues of diagonal matrices, which are those
that rules with one point need. -/
instance : Numerics ℚ where
  sqrt := Rat.sqrt
  inverse? A :=
    if Matrix.det (Matrix.of A) = 0 then none
    else some fun r c => Matrix.adjugate (Matrix.of A) r c / Matrix.det (Matrix.of A)
  eigen A := (fun i => A i i, fun r c => if r = c then 1 else 0)

/-- Rational matrices are inverted by Cramer's rule. -/
theorem Numerics.invertsMatrices_rat : Numerics.InvertsMatrices ℚ := by
  intro n A hA
  have hdet := (Matrix.isUnit_iff_isUnit_det _).mp hA
  have hne : (Matrix.of A).det ≠ 0 := isUnit_iff_ne_zero.mp hdet
  refine (if_neg hne).trans (congrArg some (funext fun r => funext fun c => ?_))
  rw [Matrix.inv_def, Ring.inverse_eq_inv', Matrix.smul_apply, smul_eq_mul, div_eq_inv_mul]

namespace Cell

variable (K : Type) [Field K] (c : Cell) (d : ℕ)

/-- The matrix of all monomials of a degree (columns) at all nodes (rows). -/
def monomialMatrix :
    Matrix (Fin (c.monomialExponents (wrapHalf d)).length)
      (Fin (c.monomialExponents (wrapHalf d)).length) K :=
  Matrix.of (vandermonde (c.nodes K d) (c.monomialExponents (wrapHalf d)))

/-- The constant monomial is among those of every degree. -/
theorem exists_constant_monomial :
    ∃ j : Fin (c.monomialExponents d).length,
      (c.monomialExponents d).getD j [] = List.replicate c.dimension 0 := by
  have hmem := ofFn_mem_monomialExponents (admits_zero (c := c) (d := d))
  obtain ⟨j, hj, hget⟩ := List.mem_iff_getElem.mp hmem
  refine ⟨⟨j, hj⟩, ?_⟩
  rw [List.getD_eq_getElem _ _ hj, hget]
  exact List.ofFn_const c.dimension 0

variable {K c d} (hunit : IsUnit (c.monomialMatrix K d))
include hunit

/-- The columns of the inverse are one at their own node and zero at the others. -/
theorem sum_column_node (i r : Fin (c.monomialExponents (wrapHalf d)).length) :
    ∑ j, (c.monomialMatrix K d)⁻¹ j i *
        monomialDerivative ((c.monomialExponents (wrapHalf d)).getD j []) []
          ((c.nodes K d).getD r []) =
      if i.val = r.val then 1 else 0 := by
  have hdet := (Matrix.isUnit_iff_isUnit_det _).mp hunit
  have hproduct := congrFun (congrFun (Matrix.mul_nonsing_inv _ hdet) r) i
  rw [Matrix.mul_apply, Matrix.one_apply] at hproduct
  simp only [← Fin.ext_iff, eq_comm (a := i), ← hproduct, monomialDerivative_nil, mul_comm]
  rfl

/-- Together the columns of the inverse are the constant monomial. -/
theorem sum_columns (ks : List ℕ) (xi : List K) :
    ∑ i, ∑ j, (c.monomialMatrix K d)⁻¹ j i *
        monomialDerivative ((c.monomialExponents (wrapHalf d)).getD j []) ks xi =
      if ks = [] then 1 else 0 := by
  obtain ⟨j₀, hj₀⟩ := c.exists_constant_monomial (wrapHalf d)
  have hdet := (Matrix.isUnit_iff_isUnit_det _).mp hunit
  have hone : ∀ i, c.monomialMatrix K d i j₀ = 1 := by
    intro i
    change monomialAt _ ((c.monomialExponents (wrapHalf d)).getD j₀ []) = 1
    rw [hj₀, ← monomialDerivative_nil, monomialDerivative_zero, if_pos rfl]
  have hrow : ∀ j, ∑ i, (c.monomialMatrix K d)⁻¹ j i = if j = j₀ then 1 else 0 := by
    intro j
    have hproduct := congrFun (congrFun (Matrix.nonsing_inv_mul _ hdet) j) j₀
    rw [Matrix.mul_apply, Matrix.one_apply] at hproduct
    simpa only [hone, mul_one] using hproduct
  rw [Finset.sum_comm]
  simp only [← Finset.sum_mul, hrow, ite_mul, one_mul, zero_mul]
  rw [Finset.sum_ite_eq' Finset.univ j₀, if_pos (Finset.mem_univ j₀), hj₀, monomialDerivative_zero]

end Cell

namespace NodalElement

section Copies

variable {K : Type} [Field K]

/-- In its own component, a basis function of a copy is one of the scalar basis. -/
theorem evaluate_copy {E : NodalElement K} {copy n i : ℕ} {component : List ℕ}
    (hlen : E.basis.length = n) (hcomponent : ∀ k ∈ component.head?, k = copy) (hi : i < n)
    (ks : List ℕ) (xi : List K) :
    E.evaluate (copy * n + i) component ks xi =
      (E.basis.getD i []).evaluateDerivative ks xi := by
  have hdiv : (copy * n + i) / n = copy := by
    rw [Nat.add_comm, Nat.add_mul_div_right _ _ (by omega), Nat.div_eq_of_lt hi, Nat.zero_add]
  have hmod : (copy * n + i) % n = i := by
    rw [Nat.add_comm, Nat.add_mul_mod_self_right, Nat.mod_eq_of_lt hi]
  unfold evaluate
  dsimp only
  rw [hlen, hdiv, hmod]
  cases component with
  | nil => rfl
  | cons k component =>
    have hk : k = copy := hcomponent k rfl
    simp [hk]

/-- The basis functions of each copy of the scalar basis, in the component of that copy, belong to
the nodes: they are one at their own node and zero at the others.  Together they are the constant
one. -/
structure IsNodal (E : NodalElement K) : Prop where
  nodes_eq : E.nodes = E.cell.nodes K E.degree
  length_nodes : E.nodes.length = E.scalarDimension
  length_basis : E.basis.length = E.scalarDimension
  value_node : ∀ copy component, (∀ k ∈ component.head?, k = copy) →
    ∀ i < E.scalarDimension, ∀ j < E.scalarDimension,
      E.evaluate (copy * E.scalarDimension + i) component [] (E.nodes.getD j []) =
        if i = j then 1 else 0
  sum_values : ∀ copy component, (∀ k ∈ component.head?, k = copy) → ∀ xi,
    ∑ i ∈ Finset.range E.scalarDimension,
      E.evaluate (copy * E.scalarDimension + i) component [] xi = 1
  sum_derivatives : ∀ copy component, (∀ k ∈ component.head?, k = copy) → ∀ ks, ks ≠ [] → ∀ xi,
    ∑ i ∈ Finset.range E.scalarDimension,
      E.evaluate (copy * E.scalarDimension + i) component ks xi = 0

end Copies

section Inverse

variable {K : Type} [Field K] [BEq K]

/-- The basis whose coefficients are the columns of the inverse of the matrix of monomials. -/
noncomputable def ofInverse (K : Type) [Field K] [BEq K] (e : LagrangeElement) :
    NodalElement K where
  toLagrangeElement := e
  nodes := e.cell.nodes K e.degree
  basis := columnBasis e.exponents
    fun r c => (e.cell.monomialMatrix K e.degree)⁻¹ r c

variable {e : LagrangeElement}

theorem length_basis_ofInverse : (ofInverse K e).basis.length = e.scalarDimension :=
  length_columnBasis _ _

theorem build_eq [Numerics K] (hinv : Numerics.InvertsMatrices K) (hcell : e.cell ≠ .vertex)
    (hunit : IsUnit (e.cell.monomialMatrix K e.degree)) : build K e = .ok (ofInverse K e) := by
  unfold build
  rw [if_neg hcell]
  have hinverse : Numerics.inverse? (vandermonde (n := e.exponents.length)
      (e.cell.nodes K e.degree) e.exponents) = _ := hinv _ hunit
  dsimp only
  rw [hinverse]
  rfl

variable [LawfulBEq K] {copy : ℕ} {component : List ℕ}
  (hcomponent : ∀ k ∈ component.head?, k = copy)
include hcomponent

theorem evaluate_ofInverse (i : Fin e.scalarDimension) (ks : List ℕ) (xi : List K) :
    (ofInverse K e).evaluate (copy * e.scalarDimension + i) component ks xi =
      ∑ j, (e.cell.monomialMatrix K e.degree)⁻¹ j i *
        monomialDerivative (e.exponents.getD j []) ks xi := by
  rw [evaluate_copy length_basis_ofInverse hcomponent i.isLt]
  exact evaluateDerivative_columnBasis _ _ i ks xi

theorem sum_evaluate_ofInverse (hunit : IsUnit (e.cell.monomialMatrix K e.degree)) (ks : List ℕ)
    (xi : List K) :
    ∑ i ∈ Finset.range e.scalarDimension,
      (ofInverse K e).evaluate (copy * e.scalarDimension + i) component ks xi =
        if ks = [] then 1 else 0 := by
  rw [Finset.sum_range]
  simp only [evaluate_ofInverse hcomponent]
  exact Cell.sum_columns hunit ks xi

end Inverse

theorem isNodal_ofInverse {K : Type} [Field K] [BEq K] [LawfulBEq K] {e : LagrangeElement}
    (hunit : IsUnit (e.cell.monomialMatrix K e.degree)) : (ofInverse K e).IsNodal where
  nodes_eq := rfl
  length_nodes := e.cell.length_nodes K e.degree
  length_basis := length_basis_ofInverse
  value_node _ _ hcomponent i hi j hj :=
    (evaluate_ofInverse hcomponent ⟨i, hi⟩ [] _).trans
      (Cell.sum_column_node hunit ⟨i, hi⟩ ⟨j, hj⟩)
  sum_values _ _ hcomponent xi :=
    (sum_evaluate_ofInverse hcomponent hunit [] xi).trans (if_pos rfl)
  sum_derivatives _ _ hcomponent ks hks xi :=
    (sum_evaluate_ofInverse hcomponent hunit ks xi).trans (if_neg hks)

/-- Lagrange elements of every degree exist and are nodal. -/
theorem build_isNodal {K : Type} [Field K] [CharZero K] [BEq K] [LawfulBEq K] [Numerics K]
    (hinv : Numerics.InvertsMatrices K) (e : LagrangeElement) (hcell : e.cell ≠ .vertex) :
    IsUnit (e.cell.monomialMatrix K e.degree) ∧
      ∃ E : NodalElement K, build K e = .ok E ∧ E.toLagrangeElement = e ∧ E.IsNodal := by
  have hunit : IsUnit (e.cell.monomialMatrix K e.degree) := e.cell.isUnit_vandermonde e.degree
  exact ⟨hunit, ofInverse K e, build_eq hinv hcell hunit, rfl, isNodal_ofInverse hunit⟩

theorem build_isNodal_quartic :
    Cell.tetrahedron ≠ .vertex ∧ Numerics.InvertsMatrices ℚ ∧
      ∃ E : NodalElement ℚ, build ℚ ⟨.tetrahedron, 4, some 3⟩ = .ok E ∧ E.IsNodal := by
  obtain ⟨-, E, hE, -, hnodal⟩ :=
    build_isNodal Numerics.invertsMatrices_rat ⟨.tetrahedron, 4, some 3⟩ (by decide)
  exact ⟨by decide, Numerics.invertsMatrices_rat, E, hE, hnodal⟩

/-! ### Evaluators -/

/-- The nodal basis of a Lagrange element that reports what is asked for. -/
structure IsBasisOf {K : Type} [Zero K] [One K] [Mul K] [Div K] [NatCast K] [BEq K] [Numerics K]
    (E : NodalElement K) (s : FiniteElement) : Prop where
  space_eq : s = E.toLagrangeElement
  build_eq_ok : build K E.toLagrangeElement = .ok E

theorem IsBasisOf.tabulate_eq_ok {K : Type} [Zero K] [One K] [Add K] [Mul K] [Div K] [NatCast K]
    [BEq K] [Numerics K] {E : NodalElement K} {s : FiniteElement} (h : E.IsBasisOf s) :
    Tabulation.tabulate s = .ok E.evaluator := by
  rw [h.space_eq]
  change (build K E.toFiniteElement.lagrange >>= fun e => pure e.evaluator) = _
  rw [LagrangeElement.lagrange_toFiniteElement, h.build_eq_ok]
  rfl

theorem isBasisOf_ofInverse {K : Type} [Field K] [CharZero K] [BEq K] [Numerics K]
    (hinv : Numerics.InvertsMatrices K) {s : FiniteElement} (hs : s = s.lagrange)
    (hcell : s.cell ≠ .vertex) : (ofInverse K s.lagrange).IsBasisOf s where
  space_eq := hs
  build_eq_ok := build_eq hinv hcell (s.cell.isUnit_vandermonde s.degree)

end NodalElement

end WeakForm
