import WeakForm.Proofs.PolynomialSpaces

/-!
# Facet maps and degrees

The coordinates of a facet map are polynomials in the coordinates of the facet
(`FacetMap.polynomial`), so a polynomial on the cell becomes one on the facet
(`FacetMap.eval_pullback`).  Its degree, taken as on the cell, does not grow
(`Cell.pullback_mem_polynomials`): on simplices because the map is affine, on the square and the
cube because each direction of the facet moves at most one coordinate of the cell.
-/

namespace WeakForm

open MvPolynomial

variable {K : Type} [Field K]

/-! ### The map in coordinates -/

namespace FacetMap

variable {m : FacetMap K} {n k : ℕ}

/-- Coordinate `i` of the map, as a polynomial in the `k` coordinates of the facet. -/
noncomputable def polynomial (m : FacetMap K) (k i : ℕ) : MvPolynomial (Fin k) K :=
  C (m.origin.getD i 0) + ∑ j : Fin k, C ((m.matrix.getD i []).getD j 0) * X j

/-- A polynomial on the cell in the coordinates of the facet. -/
noncomputable def pullback (m : FacetMap K) (n k : ℕ) :
    MvPolynomial (Fin n) K →ₐ[K] MvPolynomial (Fin k) K :=
  bind₁ fun i : Fin n => m.polynomial k i

theorem sum_zipWith_mul (row xi : List K) :
    (row.zipWith (· * ·) xi).sum = ∑ j : Fin xi.length, row.getD j 0 * xi.getD j 0 := by
  induction xi generalizing row with
  | nil => simp
  | cons x xi ih =>
    cases row with
    | nil => simp
    | cons r row =>
      rw [List.zipWith_cons_cons, List.sum_cons, ih]
      exact (Fin.sum_univ_succ fun j : Fin (xi.length + 1) =>
        (r :: row).getD j 0 * (x :: xi).getD j 0).symm

theorem coordinates_apply (hm : m.origin.length = m.matrix.length) {xi : List K}
    (hxi : xi.length = k) :
    coordinates n (m.apply xi) = fun i : Fin n => eval (coordinates k xi) (m.polynomial k i) := by
  subst hxi
  funext i
  have hrow : eval (coordinates xi.length xi) (m.polynomial xi.length i) =
      m.origin.getD i 0 + ((m.matrix.getD i []).zipWith (· * ·) xi).sum := by
    rw [sum_zipWith_mul]
    simp [polynomial, coordinates]
  rw [hrow, coordinates, apply]
  rcases Nat.lt_or_ge i.val m.origin.length with hlt | hge
  · rw [List.getD_eq_getElem _ _ (by rw [List.length_zipWith]; omega), List.getElem_zipWith,
      List.getD_eq_getElem _ _ hlt, List.getD_eq_getElem _ _ (hm ▸ hlt)]
  · rw [List.getD_eq_default _ _ (by rw [List.length_zipWith]; omega),
      List.getD_eq_default _ _ hge, List.getD_eq_default _ _ (hm ▸ hge)]
    simp

/-- The value at a point of the facet is the value at its image. -/
theorem eval_pullback (hm : m.origin.length = m.matrix.length) {xi : List K} (hxi : xi.length = k)
    (p : MvPolynomial (Fin n) K) :
    eval (coordinates k xi) (m.pullback n k p) = eval (coordinates n (m.apply xi)) p := by
  rw [coordinates_apply hm hxi]
  exact eval₂Hom_bind₁ _ _ _ p

theorem length_apply {K : Type} [Zero K] [Add K] [Mul K] {m : FacetMap K}
    (hm : m.origin.length = m.matrix.length) (xi : List K) :
    (m.apply xi).length = m.origin.length := by
  rw [apply, List.length_zipWith, ← hm, Nat.min_self]

/-! ### Degrees of the coordinates -/

theorem totalDegree_polynomial_le (m : FacetMap K) (k i : ℕ) :
    (m.polynomial k i).totalDegree ≤ 1 := by
  refine (totalDegree_add _ _).trans (max_le ?_ (totalDegree_finsetSum_le fun j _ => ?_))
  · rw [totalDegree_C]
    exact Nat.zero_le 1
  · refine (totalDegree_mul _ _).trans ?_
    rw [totalDegree_C, totalDegree_X]

/-- A coordinate has degree one in the directions of the facet that move it and zero in the
others. -/
theorem degreeOf_polynomial_le {i : ℕ} {j : Fin k} {fixed : Prop} [Decidable fixed]
    (h : fixed → (m.matrix.getD i []).getD j 0 = 0) :
    (m.polynomial k i).degreeOf j ≤ if fixed then 0 else 1 := by
  classical
  refine (degreeOf_add_le _ _ _).trans (max_le ?_ ?_)
  · rw [degreeOf_C]
    exact Nat.zero_le _
  · refine (degreeOf_sum_le _ _ _).trans (Finset.sup_le fun j' _ => ?_)
    split
    · rename_i hfixed
      by_cases hj : j' = j
      · rw [hj, h hfixed, C_0, zero_mul, degreeOf_zero]
      · exact (degreeOf_C_mul_le _ _ _).trans (degreeOf_X_of_ne (Ne.symm hj)).le
    · refine (degreeOf_C_mul_le _ _ _).trans ?_
      rw [degreeOf_X]
      split <;> simp

/-! ### Degrees of images -/

theorem pullback_monomial (m : FacetMap K) (e : Fin n →₀ ℕ) (a : K) :
    m.pullback n k (monomial e a) = C a * ∏ i : Fin n, m.polynomial k i ^ e i := by
  rw [pullback, bind₁_monomial]
  congr 1
  exact Finsupp.prod_fintype _ _ fun i => pow_zero _

theorem totalDegree_pullback_monomial_le (m : FacetMap K) (e : Fin n →₀ ℕ) (a : K) :
    (m.pullback n k (monomial e a)).totalDegree ≤ ∑ i, e i := by
  rw [pullback_monomial]
  refine (totalDegree_mul _ _).trans ?_
  rw [totalDegree_C, Nat.zero_add]
  refine (totalDegree_finsetProd _ _).trans (Finset.sum_le_sum fun i _ => ?_)
  calc (m.polynomial k i ^ e i).totalDegree ≤ e i * (m.polynomial k i).totalDegree :=
        totalDegree_pow _ _
    _ ≤ e i * 1 := Nat.mul_le_mul_left _ (totalDegree_polynomial_le m k i)
    _ = e i := Nat.mul_one _

theorem degreeOf_pullback_monomial_le {e : Fin n →₀ ℕ} {d : ℕ} (he : ∀ i, e i ≤ d) {j : Fin k}
    (hj : ∑ i : Fin n, (m.polynomial k i).degreeOf j ≤ 1) (a : K) :
    (m.pullback n k (monomial e a)).degreeOf j ≤ d := by
  rw [pullback_monomial]
  refine (degreeOf_C_mul_le _ _ _).trans ((degreeOf_prod_le _ _ _).trans ?_)
  calc ∑ i : Fin n, (m.polynomial k i ^ e i).degreeOf j
      ≤ ∑ i : Fin n, d * (m.polynomial k i).degreeOf j :=
        Finset.sum_le_sum fun i _ =>
          (degreeOf_pow_le _ _ _).trans (Nat.mul_le_mul_right _ (he i))
    _ = d * ∑ i : Fin n, (m.polynomial k i).degreeOf j := (Finset.mul_sum _ _ _).symm
    _ ≤ d * 1 := Nat.mul_le_mul_left _ hj
    _ = d := Nat.mul_one _

/-! ### Maps from corners -/

/-- A direction along which the corners agree in a coordinate does not move it. -/
theorem entry_ofCorners {o : List ℕ} {rest : List (List ℕ)} {i j : ℕ}
    (h : (rest.getD j []).getD i 0 = o.getD i 0) :
    ((ofCorners (K := K) n (o :: rest)).matrix.getD i []).getD j 0 = 0 := by
  rcases Nat.lt_or_ge i n with hi | hi
  · have hrow : (ofCorners (K := K) n (o :: rest)).matrix.getD i [] =
        (rest.take (n - 1)).map fun v => ((v.getD i 0 : ℕ) : K) - ((o.getD i 0 : ℕ) : K) := by
      rw [ofCorners, List.getD_eq_getElem _ _ (by simpa using hi), List.getElem_map,
        List.getElem_range]
    rw [hrow]
    rcases Nat.lt_or_ge j (rest.take (n - 1)).length with hj | hj
    · rw [List.getD_eq_getElem _ _ (by simpa using hj), List.getElem_map, List.getElem_take]
      have hlt : j < rest.length := by
        rw [List.length_take] at hj
        omega
      rw [List.getD_eq_getElem _ _ hlt] at h
      rw [h, sub_self]
    · exact List.getD_eq_default _ _ (by simpa using hj)
  · have hrow : (ofCorners (K := K) n (o :: rest)).matrix.getD i [] = [] :=
      List.getD_eq_default _ _ (by simpa [ofCorners] using hi)
    rw [hrow, List.getD_nil]

theorem length_ofCorners {K : Type} [NatCast K] [Sub K] {o : List ℕ} (ho : o.length = n)
    (rest : List (List ℕ)) :
    (ofCorners (K := K) n (o :: rest)).origin.length =
      (ofCorners (K := K) n (o :: rest)).matrix.length := by
  simp [ofCorners, ho]

end FacetMap

/-! ### Facets of cells -/

namespace Cell

/-- Each direction that leads from the first corner of a facet to the following ones moves at most
one coordinate. -/
def MovesOneCoordinate (n : ℕ) (o : List ℕ) (rest : List (List ℕ)) : Prop :=
  ∀ j : Fin (n - 1),
    ∑ i : Fin n, (if (rest.getD j []).getD i 0 = o.getD i 0 then 0 else 1) ≤ 1

instance (n : ℕ) (o : List ℕ) (rest : List (List ℕ)) : Decidable (MovesOneCoordinate n o rest) :=
  Nat.decidableForallFin _

theorem facetCorners (c : Cell) : ∀ vs ∈ c.facets, ∃ o rest,
    vs.filterMap (fun v => c.corners[v]?) = o :: rest ∧ o ∈ c.corners ∧
      (c.isSimplex = false → MovesOneCoordinate c.dimension o rest) := by
  have h : ∀ vs ∈ c.facets, let corners := vs.filterMap fun v => c.corners[v]?
      corners ≠ [] ∧ corners.headD [] ∈ c.corners ∧
        (c.isSimplex = false → MovesOneCoordinate c.dimension (corners.headD []) corners.tail) := by
    cases c <;> decide
  intro vs hvs
  obtain ⟨hne, hmem, hmoves⟩ := h vs hvs
  cases hcorners : vs.filterMap fun v => c.corners[v]? with
  | nil => exact absurd hcorners hne
  | cons o rest =>
    rw [hcorners] at hmem hmoves
    exact ⟨o, rest, rfl, hmem, hmoves⟩

variable {c r : Cell} {f d n k : ℕ} {m : FacetMap K}

/-- Every facet has its map. -/
theorem facetMap?_eq_some {K : Type} [NatCast K] [Sub K] (hf : f < c.numFacets) :
    ∃ o rest, c.facetMap? K f = some (.ofCorners c.dimension (o :: rest)) ∧ o ∈ c.corners ∧
      (c.isSimplex = false → MovesOneCoordinate c.dimension o rest) := by
  obtain ⟨o, rest, hcorners, ho, hmoves⟩ := c.facetCorners _ (List.getElem_mem hf)
  refine ⟨o, rest, ?_, ho, hmoves⟩
  rw [facetMap?, List.getElem?_eq_getElem hf, Option.map_some, hcorners]

/-- The map onto a facet leads into the cell. -/
theorem length_apply_facetMap {K : Type} [Zero K] [Add K] [Sub K] [Mul K] [NatCast K]
    {c : Cell} {f : ℕ} {m : FacetMap K} (hm : c.facetMap? K f = some m) (xi : List K) :
    (m.apply xi).length = c.dimension := by
  have hf : f < c.numFacets := by
    obtain ⟨vs, hvs, -⟩ := Option.map_eq_some_iff.mp hm
    exact (List.getElem?_eq_some_iff.mp hvs).1
  obtain ⟨o, rest, hmap, ho, -⟩ := facetMap?_eq_some (K := K) hf
  obtain rfl := Option.some.inj (hmap.symm.trans hm)
  have hlen := length_of_mem_corners ho
  rw [FacetMap.length_apply (FacetMap.length_ofCorners hlen rest), FacetMap.ofCorners,
    List.length_map, hlen]

theorem mem_polynomials_of_totalDegree_le (hc : c.isSimplex = true) {p : MvPolynomial (Fin n) K}
    (h : p.totalDegree ≤ d) : p ∈ c.polynomials K n d := by
  refine mem_polynomials.mpr fun e he => (admits_of_isSimplex hc).mpr ?_
  have hle := (le_totalDegree he).trans h
  rwa [Finsupp.sum_fintype _ _ fun i => rfl] at hle

/-- In one dimension both notions of degree agree. -/
theorem mem_polynomials_of_degreeOf_le (hc : c.isSimplex = false ∨ n ≤ 1)
    {p : MvPolynomial (Fin n) K} (h : ∀ i, p.degreeOf i ≤ d) : p ∈ c.polynomials K n d := by
  refine mem_polynomials.mpr fun e he => ?_
  have hle : ∀ i, e i ≤ d := fun i => (monomial_le_degreeOf i he).trans (h i)
  cases hs : c.isSimplex with
  | false => exact (admits_of_not_isSimplex hs).mpr hle
  | true =>
    have hn : n ≤ 1 := hc.resolve_left (by simp [hs])
    rw [admits_of_isSimplex hs]
    calc ∑ i, e i ≤ ∑ _i : Fin n, d := Finset.sum_le_sum fun i _ => hle i
      _ = n * d := by rw [Finset.sum_const, Finset.card_univ, Fintype.card_fin, smul_eq_mul]
      _ ≤ 1 * d := Nat.mul_le_mul_right d hn
      _ = d := Nat.one_mul d

theorem facetCell_dimension (h : c.facetCell? = some r) :
    r.dimension = c.dimension - 1 ∧ (c.isSimplex = true → r.isSimplex = true) ∧
      (c.isSimplex = false → r.isSimplex = false ∨ r.dimension ≤ 1) := by
  cases c <;> cases h <;> decide

/-- The facet map takes the degree on the cell to the degree on the facet. -/
theorem pullback_mem_polynomials (hr : c.facetCell? = some r) (hf : f < c.numFacets)
    (hm : c.facetMap? K f = some m) {p : MvPolynomial (Fin c.dimension) K}
    (hp : p ∈ c.polynomials K c.dimension d) :
    m.pullback c.dimension r.dimension p ∈ r.polynomials K r.dimension d := by
  obtain ⟨hdim, hsimplex, hbox⟩ := facetCell_dimension hr
  obtain ⟨o, rest, hmap, -, hmoves⟩ := facetMap?_eq_some (K := K) hf
  obtain rfl : FacetMap.ofCorners c.dimension (o :: rest) = m :=
    Option.some.inj (hmap.symm.trans hm)
  refine map_mem_of_monomials (FacetMap.pullback _ _ _).toLinearMap (fun e he a => ?_) hp
  cases hc : c.isSimplex with
  | true =>
    -- an affine map does not raise the total degree
    rw [admits_of_isSimplex hc] at he
    exact mem_polynomials_of_totalDegree_le (hsimplex hc)
      ((FacetMap.totalDegree_pullback_monomial_le _ e a).trans he)
  | false =>
    -- only one coordinate of the cell depends on a direction of the facet
    rw [admits_of_not_isSimplex hc] at he
    refine mem_polynomials_of_degreeOf_le (hbox hc) fun j => ?_
    refine FacetMap.degreeOf_pullback_monomial_le he (le_trans ?_ (hmoves hc ⟨j, hdim ▸ j.isLt⟩)) a
    exact Finset.sum_le_sum fun i _ => FacetMap.degreeOf_polynomial_le FacetMap.entry_ofCorners

end Cell

end WeakForm
