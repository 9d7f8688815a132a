import WeakForm.Proofs.DefaultDegree
import WeakForm.Proofs.GaussExactness

/-!
# The rules of cells and facets

If the Gauss-Jacobi rules with enough points are exact, so are the rules of all cells for their
degree, and so are the rules of the facets for polynomials in the coordinates of the cell
(`QuadratureRule.forCell_forFacet_exact`).  The degree is the total degree on simplices and the
degree in each coordinate on the square and the cube (`Cell.DegreeLE`).
-/

section

open MvPolynomial
open scoped Nat

namespace WeakForm

/-! ### Degrees -/

/-- A polynomial has at most the given degree: in total on a simplex, in each coordinate on the
other cells. -/
def Cell.DegreeLE (c : Cell) (d : ℕ) {n : ℕ} (p : MvPolynomial (Fin n) ℝ) : Prop :=
  if c.isSimplex then p.totalDegree ≤ d else ∀ i, p.degreeOf i ≤ d

theorem Cell.DegreeLE.mem_polynomials {c : Cell} {d n : ℕ} {p : MvPolynomial (Fin n) ℝ}
    (h : c.DegreeLE d p) : p ∈ c.polynomials ℝ n d := by
  unfold DegreeLE at h
  split at h
  · rename_i hc
    exact mem_polynomials_of_totalDegree_le hc h
  · rename_i hc
    exact mem_polynomials_of_degreeOf_le (Or.inl (Bool.not_eq_true _ ▸ hc)) h

/-- A product of powers of the coordinates. -/
theorem Cell.degreeLE_monomial {c : Cell} (hc : c.isSimplex = true) {d n : ℕ} {m : Fin n → ℕ}
    (hm : ∑ i, m i ≤ d) : c.DegreeLE d (∏ i, X i ^ m i : MvPolynomial (Fin n) ℝ) := by
  rw [DegreeLE, if_pos hc]
  refine (totalDegree_finsetProd _ _).trans (le_trans (Finset.sum_le_sum fun i _ => ?_) hm)
  rw [totalDegree_X_pow]

/-! ### Rules -/

namespace QuadratureRule

theorem integrate_eq_sum (R : QuadratureRule ℝ) (f : List ℝ → ℝ) :
    R.integrate f = (R.nodes.map fun q => q.2 * f q.1).sum := by
  rw [integrate, List.sum_eq_foldl, List.foldl_map]

theorem ExactOn.integrate_eq {R : QuadratureRule ℝ} {c : Cell} {d : ℕ} (h : R.ExactOn c d)
    {p : MvPolynomial (Fin c.dimension) ℝ} (hp : p ∈ c.polynomials ℝ c.dimension d) :
    R.integrate (fun x => eval (coordinates c.dimension x) p) = ∫ x in c.region, eval x p :=
  (R.integrate_eq_sum _).trans (h.weightedSum_eq p hp)

section
variable [Numerics ℝ] {c : Cell} {d : ℕ}

/-- The rule of a facet is exact on the reference cell of the facet, for polynomials in the
coordinates of the cell. -/
theorem exists_forFacet_exact {f : ℕ} (hf : f < c.numFacets)
    (h : ∀ alpha ≤ 2, ExactGaussJacobi (pointsForDegree d) alpha) :
    ∃ (r : Cell) (M : FacetMap ℝ) (R : QuadratureRule ℝ), c.facetCell? = some r ∧
      c.facetMap? ℝ f = some M ∧ forFacet ℝ c f d = .ok R ∧
      ∀ p ∈ c.polynomials ℝ c.dimension d,
        R.integrate (fun x => eval (coordinates c.dimension x) p) =
          ∫ x in r.region, eval (coordinates c.dimension (M.apply (List.ofFn x))) p := by
  obtain ⟨o, rest, hmap, ho, -⟩ := Cell.facetMap?_eq_some (K := ℝ) hf
  obtain ⟨r, hr⟩ : ∃ r, c.facetCell? = some r := by
    cases c with
    | vertex => exact absurd hf (Nat.not_lt_zero f)
    | _ => exact ⟨_, rfl⟩
  obtain ⟨R, hR, hexact⟩ := exists_forCell_exactOn r d h
  let M : FacetMap ℝ := .ofCorners c.dimension (o :: rest)
  have hM : M.origin.length = M.matrix.length :=
    FacetMap.length_ofCorners (Cell.length_of_mem_corners ho) rest
  have hfacet : forFacet ℝ c f d = .ok ⟨R.nodes.map fun q => (M.apply q.1, q.2)⟩ := by
    unfold forFacet
    rw [hr, hmap]
    dsimp only
    rw [hR]
    rfl
  refine ⟨r, M, _, hr, hmap, hfacet, fun p hp => ?_⟩
  -- the rule sees the polynomial that the facet map pulls back to the reference cell of the facet
  let q := M.pullback c.dimension r.dimension p
  have hq : q ∈ r.polynomials ℝ r.dimension d := Cell.pullback_mem_polynomials hr hf hmap hp
  have hvalue : ∀ x : List ℝ, x.length = r.dimension →
      eval (coordinates r.dimension x) q = eval (coordinates c.dimension (M.apply x)) p :=
    fun x hx => FacetMap.eval_pullback hM hx p
  have hpoint : ∀ x : Fin r.dimension → ℝ,
      eval x q = eval (coordinates c.dimension (M.apply (List.ofFn x))) p := by
    intro x
    rw [← hvalue _ List.length_ofFn, coordinates_ofFn]
  rw [integrate_eq_sum, List.map_map]
  calc _ = (R.nodes.map fun z => z.2 * eval (coordinates r.dimension z.1) q).sum := by
        refine congrArg List.sum (List.map_congr_left fun z hz => ?_)
        rw [hvalue z.1 (hexact.length_eq z hz)]
        rfl
    _ = ∫ x in r.region, eval x q := hexact.weightedSum_eq q hq
    _ = _ := by simp only [hpoint]

/-- The rule of a cell for a degree integrates all polynomials of that degree over the reference
cell, so that on a simplex monomials have the integrals that the factorials give.  The rule of a
facet integrates polynomials of that degree in the coordinates of the cell, composed with the map of
the facet, over the reference cell of the facet. -/
theorem forCell_forFacet_exact (c : Cell) (d : ℕ)
    (h : ∀ alpha ≤ 2, ExactGaussJacobi (pointsForDegree d) alpha) :
    (∃ R, forCell ℝ c d = .ok R ∧
      (∀ p : MvPolynomial (Fin c.dimension) ℝ, c.DegreeLE d p →
        R.integrate (fun x => eval (coordinates c.dimension x) p) = ∫ x in c.region, eval x p) ∧
      (c.isSimplex = true → ∀ m : Fin c.dimension → ℕ, ∑ i, m i ≤ d →
        R.integrate (fun x => ∏ i, coordinates c.dimension x i ^ m i) =
          (∏ i, (m i)! : ℕ) / ((∑ i, m i + c.dimension)! : ℕ))) ∧
    ∀ f < c.numFacets, ∃ (r : Cell) (M : FacetMap ℝ) (R : QuadratureRule ℝ),
      c.facetCell? = some r ∧ c.facetMap? ℝ f = some M ∧ forFacet ℝ c f d = .ok R ∧
      ∀ p : MvPolynomial (Fin c.dimension) ℝ, c.DegreeLE d p →
        R.integrate (fun x => eval (coordinates c.dimension x) p) =
          ∫ x in r.region, eval (coordinates c.dimension (M.apply (List.ofFn x))) p := by
  obtain ⟨R, hR, hexact⟩ := exists_forCell_exactOn c d h
  refine ⟨⟨R, hR, fun p hp => hexact.integrate_eq hp.mem_polynomials, fun hc m hm => ?_⟩,
    fun f hf => ?_⟩
  · have hmonomial := hexact.integrate_eq (Cell.degreeLE_monomial hc hm).mem_polynomials
    have hregion : c.region = unitSimplex c.dimension := if_pos hc
    simp only [map_prod, map_pow, eval_X] at hmonomial
    rw [hmonomial, hregion, integral_unitSimplex_monomial]
  · obtain ⟨r, M, R', hr, hmap, hfacet, hexact'⟩ := exists_forFacet_exact hf h
    exact ⟨r, M, R', hr, hmap, hfacet, fun p hp => hexact' p hp.mem_polynomials⟩

end

/-- The product of the coordinates on the tetrahedron. -/
theorem forCell_forFacet_exact_tetrahedron :
    letI := spectralNumerics
    ∃ R, forCell ℝ .tetrahedron 3 = .ok R ∧
      R.integrate (fun x => ∏ i : Fin 3, coordinates 3 x i ^ 1) = 1 / 720 := by
  let _ := spectralNumerics
  obtain ⟨⟨R, hR, -, hmonomial⟩, -⟩ := forCell_forFacet_exact .tetrahedron 3
    fun alpha _ => exactGaussJacobi isExact_spectralNumerics (by decide) alpha
  refine ⟨R, hR, (hmonomial rfl (fun _ => 1) (by decide)).trans ?_⟩
  have hprod : ∏ _i : Fin Cell.tetrahedron.dimension, 1 ! = 1 := by decide
  have hfac : (∑ _i : Fin Cell.tetrahedron.dimension, 1 + Cell.tetrahedron.dimension)! = 720 := by
    decide
  rw [hprod, hfac]
  norm_num

end QuadratureRule

end WeakForm

end
