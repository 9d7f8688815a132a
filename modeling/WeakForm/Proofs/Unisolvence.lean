import Mathlib
import WeakForm.Proofs.PolynomialSpaces

/-!
# Unisolvence of the nodes

The exponents of a degree form a lower set, and the nodes stand at these exponents in a grid of
equispaced coordinates.  (A degree that is wider than the exponents gives a part of the grid.)  For
each exponent there is a polynomial with zeros at all grid points that are smaller in one coordinate
(`newtonPolynomial`), and its monomials are in the lower set again.
Hence no combination of the values at the nodes vanishes for all monomials
(`det_monomials_ne_zero`), and the matrix of the monomials at the nodes is invertible in every
degree (`Cell.isUnit_vandermonde`).
-/

namespace WeakForm

open MvPolynomial

/-! ### Newton polynomials -/

section Newton

variable {K : Type} [CommRing K] {n : ℕ} (x : Fin n → ℕ → K)

/-- The point of a grid with the given place in each direction. -/
def gridPoint (m : Fin n →₀ ℕ) : Fin n → K :=
  fun i => x i (m i)

/-- The product of `X i - x i k` over the places `k` below the given one in each direction `i`. -/
noncomputable def newtonPolynomial (m : Fin n →₀ ℕ) : MvPolynomial (Fin n) K :=
  ∏ i, ∏ k ∈ Finset.range (m i), (X i - C (x i k))

theorem eval_newtonPolynomial (m : Fin n →₀ ℕ) (y : Fin n → K) :
    eval y (newtonPolynomial x m) = ∏ i, ∏ k ∈ Finset.range (m i), (y i - x i k) := by
  simp only [newtonPolynomial, map_prod, map_sub, eval_X, eval_C]

/-- A Newton polynomial vanishes at the grid points that are smaller in one direction. -/
theorem le_of_eval_newtonPolynomial_ne_zero {x : Fin n → ℕ → K} {m u : Fin n →₀ ℕ}
    (h : eval (gridPoint x u) (newtonPolynomial x m) ≠ 0) : m ≤ u := by
  intro i
  by_contra hlt
  refine h ?_
  rw [eval_newtonPolynomial]
  refine Finset.prod_eq_zero (Finset.mem_univ i) ?_
  exact Finset.prod_eq_zero (Finset.mem_range.mpr (Nat.lt_of_not_le hlt)) (sub_self _)

variable [IsDomain K]

theorem degreeOf_newtonPolynomial_le (m : Fin n →₀ ℕ) (i : Fin n) :
    degreeOf i (newtonPolynomial x m) ≤ m i := by
  have hfactor : ∀ j k, degreeOf i (X j - C (x j k)) ≤ if i = j then 1 else 0 := by
    intro j k
    refine (degreeOf_sub_le i _ _).trans ?_
    rw [degreeOf_C, Nat.max_zero, degreeOf_X]
  calc degreeOf i (newtonPolynomial x m)
      ≤ ∑ j, ∑ k ∈ Finset.range (m j), degreeOf i (X j - C (x j k)) :=
        (degreeOf_prod_le i _ _).trans (Finset.sum_le_sum fun j _ => degreeOf_prod_le i _ _)
    _ ≤ ∑ j, ∑ k ∈ Finset.range (m j), if i = j then 1 else 0 :=
        Finset.sum_le_sum fun j _ => Finset.sum_le_sum fun k _ => hfactor j k
    _ = m i := by simp

theorem le_of_mem_support_newtonPolynomial {m u : Fin n →₀ ℕ}
    (hu : u ∈ (newtonPolynomial x m).support) : u ≤ m :=
  fun i => (monomial_le_degreeOf i hu).trans (degreeOf_newtonPolynomial_le x m i)

variable {x}

theorem eval_newtonPolynomial_ne_zero {m : Fin n →₀ ℕ}
    (h : ∀ i, ∀ k < m i, x i k ≠ x i (m i)) :
    eval (gridPoint x m) (newtonPolynomial x m) ≠ 0 := by
  rw [eval_newtonPolynomial]
  refine Finset.prod_ne_zero_iff.mpr fun i _ => Finset.prod_ne_zero_iff.mpr fun k hk => ?_
  exact sub_ne_zero.mpr (h i k (Finset.mem_range.mp hk)).symm

/-- The monomials of a lower set are independent on the grid points of that set. -/
theorem det_monomials_ne_zero {N : ℕ} {a : Fin N → Fin n →₀ ℕ}
    (hinj : Function.Injective a) (hlower : ∀ r, ∀ m ≤ a r, ∃ c, a c = m)
    (hx : ∀ r i, ∀ k < a r i, x i k ≠ x i (a r i)) :
    (Matrix.of fun r c => eval (gridPoint x (a r)) (monomial (a c) 1)).det ≠ 0 := by
  classical
  intro hdet
  obtain ⟨v, hv, hzero⟩ := Matrix.exists_vecMul_eq_zero_iff.mpr hdet
  -- the combination of values with the coefficients `v` vanishes on all monomials
  let f : MvPolynomial (Fin n) K →ₗ[K] K := ∑ r, v r • (aeval (gridPoint x (a r))).toLinearMap
  have hf : ∀ p, f p = ∑ r, v r * eval (gridPoint x (a r)) p := by
    intro p
    simp [f, LinearMap.sum_apply]
  have hmonomial : ∀ c b, f (monomial (a c) b) = 0 := by
    intro c b
    have hone : f (monomial (a c) 1) = 0 := by
      rw [hf]
      exact congrFun hzero c
    rw [← mul_one b, ← smul_eq_mul, ← smul_monomial, map_smul, hone, smul_zero]
  -- but not on the Newton polynomial of a maximal exponent among those with `v r ≠ 0`
  have hnonempty : (Finset.univ.filter fun r => v r ≠ 0).Nonempty := by
    obtain ⟨r, hr⟩ := Function.ne_iff.mp hv
    exact ⟨r, Finset.mem_filter.mpr ⟨Finset.mem_univ r, hr⟩⟩
  obtain ⟨s, hs, hmax⟩ := Finset.exists_maximalFor a _ hnonempty
  have hvanish : f (newtonPolynomial x (a s)) = 0 := by
    rw [(newtonPolynomial x (a s)).as_sum, map_sum]
    refine Finset.sum_eq_zero fun u hu => ?_
    obtain ⟨c, rfl⟩ := hlower s u (le_of_mem_support_newtonPolynomial x hu)
    exact hmonomial c _
  have hother : ∀ r, r ≠ s → v r * eval (gridPoint x (a r)) (newtonPolynomial x (a s)) = 0 := by
    intro r hr
    by_contra hne
    obtain ⟨hvr, hvalue⟩ := mul_ne_zero_iff.mp hne
    have hle := le_of_eval_newtonPolynomial_ne_zero hvalue
    have hge := hmax (Finset.mem_filter.mpr ⟨Finset.mem_univ r, hvr⟩) hle
    exact hr (hinj (le_antisymm hge hle))
  rw [hf, Finset.sum_eq_single s (fun r _ hr => hother r hr)
    (fun h => absurd (Finset.mem_univ s) h)] at hvanish
  exact mul_ne_zero (Finset.mem_filter.mp hs).2 (eval_newtonPolynomial_ne_zero (hx s)) hvanish

end Newton

/-! ### Exponents and nodes of a cell -/

namespace Cell

variable {c : Cell} {d : ℕ}

theorem nodup_monomialExponents : (c.monomialExponents d).Nodup := by
  refine List.Nodup.filter _ (nodup_cartesian fun l hl => ?_)
  rw [List.eq_of_mem_replicate hl]
  exact List.nodup_range

theorem Admits.le {n : ℕ} {m : Fin n →₀ ℕ} (h : c.Admits d m) (i : Fin n) : m i ≤ d := by
  cases hc : c.isSimplex with
  | true =>
    rw [admits_of_isSimplex hc] at h
    exact (Finset.single_le_sum (fun _ _ => Nat.zero_le _) (Finset.mem_univ i)).trans h
  | false => exact (admits_of_not_isSimplex hc).mp h i

/-- Every exponent that a degree admits is among those that span its space. -/
theorem ofFn_mem_monomialExponents {m : Fin c.dimension →₀ ℕ} (hm : c.Admits d m) :
    List.ofFn m ∈ c.monomialExponents d := by
  refine List.mem_filter.mpr ⟨?_, ?_⟩
  · rw [mem_cartesian, List.forall₂_iff_get]
    refine ⟨by simp, fun i hi _ => ?_⟩
    simp only [List.get_eq_getElem, List.getElem_ofFn, List.getElem_replicate, List.mem_range]
    exact Nat.lt_succ_of_le (hm.le _)
  · cases hc : c.isSimplex with
    | true =>
      have htotal : total (List.ofFn m) = ∑ i, m i := List.sum_ofFn
      rw [admits_of_isSimplex hc] at hm
      simpa [htotal] using hm
    | false => rfl

/-- The exponent of monomial `r`, which is also the place of node `r` in the grid of nodes. -/
noncomputable def exponentAt (c : Cell) (d : ℕ) (r : Fin (c.monomialExponents d).length) :
    Fin c.dimension →₀ ℕ :=
  exponentVector c.dimension ((c.monomialExponents d).getD r [])

theorem getD_mem_monomialExponents (r : Fin (c.monomialExponents d).length) :
    (c.monomialExponents d).getD r [] ∈ c.monomialExponents d := by
  rw [List.getD_eq_getElem _ _ r.isLt]
  exact List.getElem_mem _

theorem admits_exponentAt (r : Fin (c.monomialExponents d).length) :
    c.Admits d (c.exponentAt d r) :=
  admits_exponentVector (getD_mem_monomialExponents r)

theorem exponentAt_injective : Function.Injective (c.exponentAt d) := by
  intro r s h
  have hr := length_of_mem_monomialExponents (getD_mem_monomialExponents r)
  have hs := length_of_mem_monomialExponents (getD_mem_monomialExponents s)
  have hlist : (c.monomialExponents d).getD r [] = (c.monomialExponents d).getD s [] :=
    eq_of_exponentVector_eq hr.le (hr.trans hs.symm) h
  rw [List.getD_eq_getElem _ _ r.isLt, List.getD_eq_getElem _ _ s.isLt] at hlist
  exact Fin.ext (nodup_monomialExponents.getElem_inj_iff.mp hlist)

/-- The exponents of a degree form a lower set. -/
theorem exists_exponentAt_of_le {r : Fin (c.monomialExponents d).length}
    {m : Fin c.dimension →₀ ℕ} (hm : m ≤ c.exponentAt d r) : ∃ s, c.exponentAt d s = m := by
  have hmem := ofFn_mem_monomialExponents ((admits_exponentAt r).mono hm)
  obtain ⟨s, hs, hget⟩ := List.mem_iff_getElem.mp hmem
  refine ⟨⟨s, hs⟩, ?_⟩
  ext i
  rw [exponentAt, List.getD_eq_getElem _ _ hs, hget, exponentVector_apply,
    List.getD_eq_getElem _ _ (by rw [List.length_ofFn]; exact i.isLt), List.getElem_ofFn]

section Nodes

variable (K : Type) [Field K]

/-- The coordinates of the nodes in one direction: equispaced, or that of the midpoint. -/
def nodeCoordinate (c : Cell) (d : ℕ) (i : Fin c.dimension) (k : ℕ) : K :=
  if d = 0 then (c.midpoint K).getD i 0 else (k : K) / (d : K)

theorem nodeCoordinate_ne [CharZero K] (r : Fin (c.monomialExponents (wrapHalf d)).length)
    (i : Fin c.dimension) {k : ℕ} (hk : k < c.exponentAt (wrapHalf d) r i) :
    c.nodeCoordinate K d i k ≠ c.nodeCoordinate K d i (c.exponentAt (wrapHalf d) r i) := by
  have hle := ((admits_exponentAt r).le i).trans (wrapHalf_le d)
  have hd : d ≠ 0 := by omega
  rw [nodeCoordinate, nodeCoordinate, if_neg hd, if_neg hd]
  intro h
  have hcast : (k : K) = (c.exponentAt (wrapHalf d) r i : K) :=
    (div_left_inj' (Nat.cast_ne_zero.mpr hd)).mp h
  have := Nat.cast_injective hcast
  omega

theorem length_nodes (c : Cell) (d : ℕ) :
    (c.nodes K d).length = (c.monomialExponents (wrapHalf d)).length := by
  unfold nodes
  split
  · rename_i hd
    subst hd
    cases c <;> rfl
  · exact List.length_map _

/-- Node `r` is the grid point at the place of exponent `r`. -/
theorem coordinates_node (r : Fin (c.monomialExponents (wrapHalf d)).length) :
    ((c.nodes K d).getD r []).length = c.dimension ∧
      coordinates c.dimension ((c.nodes K d).getD r []) =
        gridPoint (c.nodeCoordinate K d) (c.exponentAt (wrapHalf d) r) := by
  have hlen := length_of_mem_monomialExponents (getD_mem_monomialExponents r)
  have hr : r < (c.nodes K d).length := (length_nodes K c d).symm ▸ r.isLt
  rw [List.getD_eq_getElem _ _ hr]
  by_cases hd : d = 0
  · have hnode : (c.nodes K d)[r.val] = c.midpoint K := by
      simp [nodes, hd]
    refine ⟨?_, funext fun i => ?_⟩
    · rw [hnode, midpoint, List.length_map, List.length_range]
    · rw [hnode, coordinates, gridPoint, nodeCoordinate, if_pos hd]
  · have hnode : (c.nodes K d)[r.val] =
        ((c.monomialExponents (wrapHalf d)).getD r []).map fun k : ℕ => (k : K) / (d : K) := by
      simp [nodes, hd]
    refine ⟨by rw [hnode, List.length_map, hlen], funext fun i => ?_⟩
    have hi : i < ((c.monomialExponents (wrapHalf d)).getD r []).length := hlen.symm ▸ i.isLt
    rw [hnode, coordinates, gridPoint, nodeCoordinate, if_neg hd, exponentAt,
      exponentVector_apply, List.getD_eq_getElem _ _ (by rwa [List.length_map]), List.getElem_map,
      List.getD_eq_getElem _ _ hi]

end Nodes

end Cell

/-! ### The matrix of monomials -/

/-- The value of a monomial is that of the term with coefficient one. -/
theorem monomialAt_eq_evaluate {K : Type} [CommRing K] (x : List K) (e : List ℕ) :
    monomialAt x e = Term.evaluate ⟨1, e⟩ x := by
  rw [monomialAt, Term.evaluate, ← List.map_uncurry_zip_eq_zipWith, List.foldl_map]
  rfl

/-- The matrix of the monomials at the nodes is invertible in every degree. -/
theorem Cell.isUnit_vandermonde {K : Type} [Field K] [CharZero K] (c : Cell) (d : ℕ) :
    IsUnit (Matrix.of (vandermonde (n := (c.monomialExponents (wrapHalf d)).length) (c.nodes K d)
      (c.monomialExponents (wrapHalf d)))) := by
  have hentry : ∀ r s, vandermonde (n := (c.monomialExponents (wrapHalf d)).length) (c.nodes K d)
      (c.monomialExponents (wrapHalf d)) r s =
        eval (gridPoint (c.nodeCoordinate K d) (c.exponentAt (wrapHalf d) r))
          (monomial (c.exponentAt (wrapHalf d) s) 1) := by
    intro r s
    obtain ⟨hlen, hnode⟩ := coordinates_node K r
    rw [vandermonde, monomialAt_eq_evaluate, Term.evaluate_eq hlen, hnode]
    rfl
  have hdet := det_monomials_ne_zero exponentAt_injective (fun _ _ => exists_exponentAt_of_le)
    (fun r i k => nodeCoordinate_ne K (c := c) (d := d) r i)
  rw [Matrix.isUnit_iff_isUnit_det, isUnit_iff_ne_zero]
  convert hdet using 2
  ext r s
  exact hentry r s

end WeakForm
