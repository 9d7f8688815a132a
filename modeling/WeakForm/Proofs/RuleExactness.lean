import WeakForm.Proofs.Failure
import WeakForm.Proofs.PolynomialSpaces
import WeakForm.Proofs.ReferenceRegions
import WeakForm.Quadrature.Rule

/-!
# Exactness of the quadrature rules

A rule is exact on a cell if it integrates all polynomials of a degree as they are integrated over
the reference cell (`QuadratureRule.ExactOn`).  It suffices that it does so with the monomials, for
which both sides are products of line integrals: the collapsed rules have a factor `1 - x` for each
direction that follows, which the weight of the line rule and the monomial share.  So the rules are
exact if the Gauss-Jacobi rules are (`QuadratureRule.exists_forCell_exactOn`).
-/

section

open scoped Polynomial

namespace WeakForm

open MeasureTheory

/-! ### Rules on a line -/

/-- The rule integrates polynomials of degree at most `d` over `[a, 1]` with the weight
`(1 - x) ^ alpha`. -/
def LineRule.ExactFrom (l : LineRule ℝ) (a : ℝ) (alpha d : ℕ) : Prop :=
  ∀ p : ℝ[X], p.natDegree ≤ d →
    (l.map fun q => q.2 * p.eval q.1).sum = ∫ x in a..1, p.eval x * (1 - x) ^ alpha

/-- The Gauss-Jacobi rule with `n` points for the weight `(1 - x) ^ alpha` is exact for the degree
`2 * n - 1`. -/
def ExactGaussJacobi [Numerics ℝ] (n alpha : ℕ) : Prop :=
  ∀ l, gaussJacobi ℝ n alpha 0 = .ok l → l.ExactFrom (-1) alpha (2 * n - 1)

theorem LineRule.ExactFrom.sum_eq_unitMoment {l : LineRule ℝ} {alpha d : ℕ}
    (h : l.ExactFrom 0 alpha d) {a b : ℕ} (hab : a + b ≤ d) :
    (l.map fun q => q.2 * (q.1 ^ a * (1 - q.1) ^ b)).sum = unitMoment a (b + alpha) := by
  have hone : (1 - Polynomial.X : ℝ[X]).natDegree ≤ 1 :=
    Polynomial.natDegree_sub_le_of_le (Polynomial.natDegree_one.trans_le zero_le_one)
      Polynomial.natDegree_X_le
  have hdegree : (Polynomial.X ^ a * (1 - Polynomial.X) ^ b : ℝ[X]).natDegree ≤ d := by
    refine (Polynomial.natDegree_mul_le_of_le (Polynomial.natDegree_X_pow_le a)
      (Polynomial.natDegree_pow_le_of_le b hone)).trans ?_
    rwa [mul_one]
  have hsum := h _ hdegree
  simp only [Polynomial.eval_mul, Polynomial.eval_pow, Polynomial.eval_X, Polynomial.eval_sub,
    Polynomial.eval_one] at hsum
  rw [hsum, unitMoment]
  simp only [pow_add, mul_assoc]

theorem LineRule.ExactFrom.sum_pow_eq_unitMoment {l : LineRule ℝ} {d a : ℕ}
    (h : l.ExactFrom 0 0 d) (ha : a ≤ d) :
    (l.map fun q => q.2 * q.1 ^ a).sum = unitMoment a 0 := by
  have hsum := h.sum_eq_unitMoment (b := 0) ha
  simpa only [pow_zero, mul_one] using hsum

theorem LineRule.ExactFrom.mono {l : LineRule ℝ} {a : ℝ} {alpha d e : ℕ}
    (h : l.ExactFrom a alpha e) (hde : d ≤ e) : l.ExactFrom a alpha d :=
  fun p hp => h p (hp.trans hde)

/-- Substituting `x = 2 * t - 1` in an integral with a weight. -/
theorem integral_eq_unit_integral (f : ℝ → ℝ) (alpha : ℕ) :
    ∫ x in (-1 : ℝ)..1, f (1 / 2 * (x + 1)) * (1 - x) ^ alpha =
      2 ^ (alpha + 1) * ∫ t in (0 : ℝ)..1, f t * (1 - t) ^ alpha := by
  have hsubst := intervalIntegral.integral_comp_mul_add (a := -1) (b := 1)
    (fun t => f t * (2 * (1 - t)) ^ alpha) (c := 1 / 2) (by norm_num) (1 / 2)
  calc ∫ x in (-1 : ℝ)..1, f (1 / 2 * (x + 1)) * (1 - x) ^ alpha
      = ∫ x in (-1 : ℝ)..1, f (1 / 2 * x + 1 / 2) * (2 * (1 - (1 / 2 * x + 1 / 2))) ^ alpha := by
        refine intervalIntegral.integral_congr fun x _ => ?_
        ring_nf
    _ = 2 * ∫ t in (0 : ℝ)..1, f t * (2 * (1 - t)) ^ alpha := by
        rw [hsubst, smul_eq_mul]
        norm_num
    _ = 2 ^ (alpha + 1) * ∫ t in (0 : ℝ)..1, f t * (1 - t) ^ alpha := by
        simp only [mul_pow, mul_left_comm _ ((2 : ℝ) ^ alpha)]
        rw [intervalIntegral.integral_const_mul, pow_succ']
        ring

/-- From `[-1, 1]` to the unit interval. -/
theorem LineRule.ExactFrom.halve {l : LineRule ℝ} {alpha d : ℕ} (h : l.ExactFrom (-1) alpha d) :
    LineRule.ExactFrom (l.map fun q => ((q.1 + 1) / 2, (1 / 2) ^ (alpha + 1) * q.2)) 0 alpha d := by
  intro p hp
  have hlin : (Polynomial.C (1 / 2) * (Polynomial.X + 1) : ℝ[X]).natDegree ≤ 1 :=
    (Polynomial.natDegree_C_mul_le _ _).trans
      (Polynomial.natDegree_add_le_of_degree_le Polynomial.natDegree_X_le (by simp))
  have hdegree : (p.comp (Polynomial.C (1 / 2) * (Polynomial.X + 1))).natDegree ≤ d :=
    calc (p.comp (Polynomial.C (1 / 2) * (Polynomial.X + 1))).natDegree
        ≤ p.natDegree * _ := Polynomial.natDegree_comp_le
      _ ≤ p.natDegree * 1 := Nat.mul_le_mul_left _ hlin
      _ ≤ d := by rwa [mul_one]
  have hsum := h _ hdegree
  simp only [Polynomial.eval_comp, Polynomial.eval_mul, Polynomial.eval_C, Polynomial.eval_add,
    Polynomial.eval_X, Polynomial.eval_one] at hsum
  have hnode : ∀ q : ℝ × ℝ, (1 / 2) ^ (alpha + 1) * q.2 * p.eval ((q.1 + 1) / 2) =
      (1 / 2) ^ (alpha + 1) * (q.2 * p.eval (1 / 2 * (q.1 + 1))) := by
    intro q
    have hpoint : (q.1 + 1) / 2 = 1 / 2 * (q.1 + 1) := by ring
    rw [hpoint, mul_assoc]
  rw [List.map_map]
  calc (l.map ((fun q : ℝ × ℝ => q.2 * p.eval q.1) ∘ _)).sum
      = (1 / 2) ^ (alpha + 1) * (l.map fun q => q.2 * p.eval (1 / 2 * (q.1 + 1))).sum := by
        rw [← List.sum_map_mul_left]
        exact congrArg List.sum (List.map_congr_left fun q _ => hnode q)
    _ = ∫ t in (0 : ℝ)..1, p.eval t * (1 - t) ^ alpha := by
        rw [hsum, integral_eq_unit_integral (p.eval ·), ← mul_assoc, ← mul_pow]
        norm_num

/-! ### Existence of line rules -/

section Existence

variable [Numerics ℝ] {n alpha : ℕ}

theorem exists_unitGaussJacobi (hn : n ≠ 0) (h : ExactGaussJacobi n alpha) :
    ∃ l, unitGaussJacobi ℝ n alpha = .ok l ∧ l.ExactFrom 0 alpha (2 * n - 1) := by
  obtain ⟨l, hl⟩ : ∃ l, gaussJacobi ℝ n alpha 0 = .ok l := by
    rw [gaussJacobi, dif_neg hn]
    exact ⟨_, rfl⟩
  refine ⟨_, bind_eq_ok.mpr ⟨l, hl, rfl⟩, ?_⟩
  have hexact := (h l hl).halve
  simp only [power_eq_pow, Nat.cast_ofNat]
  exact hexact

end Existence

/-! ### The rule with one point -/

theorem totalMass_zero (alpha : ℕ) : totalMass ℝ alpha 0 = 2 ^ (alpha + 1) / (alpha + 1) := by
  have hfactorial : ∀ n, factorialOf ℝ n ≠ 0 := by
    intro n
    induction n with
    | zero => exact one_ne_zero
    | succ n ih => exact mul_ne_zero ih (Nat.cast_ne_zero.mpr n.succ_ne_zero)
  have hne : (alpha + 1 : ℝ) ≠ 0 := by positivity
  have hsucc : factorialOf ℝ (alpha + 1) = factorialOf ℝ alpha * (alpha + 1) := by
    rw [factorialOf, Nat.cast_add, Nat.cast_one]
  rw [totalMass, power_eq_pow, Nat.add_zero, hsucc, factorialOf, mul_one, Nat.cast_ofNat,
    div_eq_div_iff (mul_ne_zero (hfactorial alpha) hne) hne]
  ring

/-- The integral of a linear function against the weight. -/
theorem integral_linear_mul_weight (a b : ℝ) (alpha : ℕ) :
    ∫ x in (-1 : ℝ)..1, (b * x + a) * (1 - x) ^ alpha =
      (a + b) * (2 ^ (alpha + 1) / (alpha + 1)) - b * (2 ^ (alpha + 2) / (alpha + 2)) := by
  have hsub := intervalIntegral.integral_comp_sub_left (a := -1) (b := 1)
    (fun u : ℝ => (a + b) * u ^ alpha - b * u ^ (alpha + 1)) 1
  have hint : ∀ n : ℕ, IntervalIntegrable (fun u : ℝ => u ^ n) volume 0 2 := fun n =>
    (continuous_pow n).intervalIntegrable 0 2
  have hpow : ∀ n : ℕ, ∫ u in (0 : ℝ)..2, u ^ n = 2 ^ (n + 1) / (n + 1) := fun n => by
    rw [integral_pow, zero_pow n.succ_ne_zero, sub_zero]
  calc ∫ x in (-1 : ℝ)..1, (b * x + a) * (1 - x) ^ alpha
      = ∫ x in (-1 : ℝ)..1, ((a + b) * (1 - x) ^ alpha - b * (1 - x) ^ (alpha + 1)) := by
        refine intervalIntegral.integral_congr fun x _ => ?_
        ring
    _ = ∫ u in (0 : ℝ)..2, ((a + b) * u ^ alpha - b * u ^ (alpha + 1)) := by
        rw [hsub]
        norm_num
    _ = _ := by
        rw [intervalIntegral.integral_sub ((hint _).const_mul _) ((hint _).const_mul _),
          intervalIntegral.integral_const_mul, intervalIntegral.integral_const_mul, hpow, hpow,
          Nat.cast_add, Nat.cast_one, add_assoc (alpha : ℝ), one_add_one_eq_two]

/-- The one-point rules are exact, if the eigenvalue of a matrix with one entry is that entry. -/
theorem exactGaussJacobi_one [Numerics ℝ]
    (heigen : ∀ A : Fin 1 → Fin 1 → ℝ,
      (Numerics.eigen A).1 0 = A 0 0 ∧ (Numerics.eigen A).2 0 0 ^ 2 = 1) (alpha : ℕ) :
    ExactGaussJacobi 1 alpha := by
  intro l hl p hp
  obtain ⟨hvalue, hvector⟩ := heigen (recurrenceMatrix ℝ alpha 0)
  obtain ⟨b, a, rfl⟩ := Polynomial.exists_eq_X_add_C_of_natDegree_le_one hp
  have hnodes : l = [(-(alpha : ℝ) / (alpha + 2), (2 : ℝ) ^ (alpha + 1) / (alpha + 1))] := by
    rw [gaussJacobi, dif_neg one_ne_zero] at hl
    refine (Except.ok.inj hl).symm.trans ?_
    have hdiagonal : recurrenceMatrix ℝ alpha 0 (0 : Fin 1) 0 = -alpha / (alpha + 2) := by
      simp [recurrenceMatrix, recurrenceDiagonal]
    rw [List.finRange_succ, List.finRange_zero, List.map_cons, List.map_nil, List.map_nil,
      List.mergeSort_singleton]
    let A : Fin 1 → Fin 1 → ℝ := recurrenceMatrix ℝ alpha 0
    change [((Numerics.eigen A).1 0,
      totalMass ℝ alpha 0 * (Numerics.eigen A).2 0 0 * (Numerics.eigen A).2 0 0)] = _
    rw [hvalue, hdiagonal, mul_assoc, ← sq, hvector, mul_one, totalMass_zero]
  subst hnodes
  simp only [Polynomial.eval_add, Polynomial.eval_mul, Polynomial.eval_C, Polynomial.eval_X,
    integral_linear_mul_weight, List.map_cons, List.map_nil, List.sum_cons, List.sum_nil]
  have h1 : (alpha + 1 : ℝ) ≠ 0 := by positivity
  have h2 : (alpha + 2 : ℝ) ≠ 0 := by positivity
  field_simp
  ring

/-! ### Linear functionals -/

/-- The weighted sum of the values of a polynomial at the points. -/
noncomputable def QuadratureRule.weightedSum (R : QuadratureRule ℝ) (n : ℕ) :
    MvPolynomial (Fin n) ℝ →ₗ[ℝ] ℝ where
  toFun p := (R.nodes.map fun q => q.2 * MvPolynomial.eval (coordinates n q.1) p).sum
  map_add' p q := by simp only [map_add, mul_add, List.sum_map_add]
  map_smul' a p := by
    simp only [MvPolynomial.smul_eval, mul_left_comm _ a, List.sum_map_mul_left, RingHom.id_apply,
      smul_eq_mul]

theorem Cell.integrableOn_region (c : Cell) (p : MvPolynomial (Fin c.dimension) ℝ) :
    IntegrableOn (fun x => MvPolynomial.eval x p) c.region :=
  (MvPolynomial.continuous_eval p).continuousOn.integrableOn_compact c.isCompact_region

/-- The integral of a polynomial over the reference cell. -/
noncomputable def Cell.integral (c : Cell) : MvPolynomial (Fin c.dimension) ℝ →ₗ[ℝ] ℝ where
  toFun p := ∫ x in c.region, MvPolynomial.eval x p
  map_add' p q := by
    simp only [map_add]
    exact integral_add (c.integrableOn_region p) (c.integrableOn_region q)
  map_smul' a p := by
    simp only [MvPolynomial.smul_eval, RingHom.id_apply, smul_eq_mul]
    exact integral_const_mul a _

namespace QuadratureRule

/-- The rule integrates polynomials of degree at most `d` exactly over the reference cell. -/
structure ExactOn (R : QuadratureRule ℝ) (c : Cell) (d : ℕ) : Prop where
  length_eq : ∀ q ∈ R.nodes, q.1.length = c.dimension
  weightedSum_eq : ∀ p ∈ c.polynomials ℝ c.dimension d,
    R.weightedSum c.dimension p = c.integral p

variable {R : QuadratureRule ℝ} {c : Cell} {d : ℕ}

theorem exactOn_of_monomials (hlen : ∀ q ∈ R.nodes, q.1.length = c.dimension)
    (h : ∀ m : Fin c.dimension →₀ ℕ, c.Admits d m →
      (R.nodes.map fun q => q.2 * ∏ i, coordinates c.dimension q.1 i ^ m i).sum =
        ∫ x in c.region, ∏ i, x i ^ m i) : R.ExactOn c d := by
  refine ⟨hlen, fun p hp => sub_eq_zero.mp ?_⟩
  have hmonomial : ∀ (x : Fin c.dimension → ℝ) (m : Fin c.dimension →₀ ℕ) (a : ℝ),
      MvPolynomial.eval x (MvPolynomial.monomial m a) = a * ∏ i, x i ^ m i := fun x m a => by
    rw [MvPolynomial.eval_monomial, Finsupp.prod_fintype _ _ fun i => pow_zero _]
  refine (Submodule.mem_bot ℝ).mp (Cell.map_mem_of_monomials
    (R.weightedSum c.dimension - c.integral) (fun m hm a => ?_) hp)
  rw [Submodule.mem_bot, LinearMap.sub_apply, sub_eq_zero]
  change (R.nodes.map fun q => q.2 * MvPolynomial.eval _ _).sum = ∫ x in _, MvPolynomial.eval _ _
  simp only [hmonomial, mul_left_comm _ a]
  rw [List.sum_map_mul_left, integral_const_mul, h m hm]

/-! ### Products of line rules -/

/-- A sum over blocks that are multiples of one another. -/
theorem sum_flatMap_eq_mul {α β : Type*} {as : List α} {F : α → List β} {w : β → ℝ} {g : α → ℝ}
    {S : ℝ} (h : ∀ a ∈ as, ((F a).map w).sum = g a * S) :
    ((as.flatMap F).map w).sum = (as.map g).sum * S := by
  rw [List.map_flatMap, List.flatMap_def, List.sum_flatten, List.map_map, ← List.sum_map_mul_right]
  exact congrArg List.sum (List.map_congr_left h)

theorem sum_map_eq_mul {α β : Type*} {as : List α} {G : α → β} {w : β → ℝ} {g : α → ℝ} {a : ℝ}
    (h : ∀ x, w (G x) = a * g x) : ((as.map G).map w).sum = a * (as.map g).sum := by
  rw [List.map_map, ← List.sum_map_mul_left]
  exact congrArg List.sum (List.map_congr_left fun x _ => h x)

section Sums

variable (u v w : LineRule ℝ)

theorem sum_ofLine (m : Fin 1 → ℕ) :
    ((ofLine u).nodes.map fun q => q.2 * ∏ i, coordinates 1 q.1 i ^ m i).sum =
      (u.map fun q => q.2 * q.1 ^ m 0).sum := by
  rw [ofLine, List.map_map]
  refine congrArg List.sum (List.map_congr_left fun q _ => ?_)
  rw [Function.comp_apply, Fin.prod_univ_one]
  rfl

theorem sum_square (m : Fin 2 → ℕ) :
    ((square u v).nodes.map fun q => q.2 * ∏ i, coordinates 2 q.1 i ^ m i).sum =
      (u.map fun q => q.2 * q.1 ^ m 0).sum * (v.map fun q => q.2 * q.1 ^ m 1).sum := by
  refine sum_flatMap_eq_mul fun x _ => sum_map_eq_mul fun y => ?_
  rw [Fin.prod_univ_two]
  change x.2 * y.2 * (x.1 ^ m 0 * y.1 ^ m 1) = _
  ring

theorem sum_cube (m : Fin 3 → ℕ) :
    ((cube u v w).nodes.map fun q => q.2 * ∏ i, coordinates 3 q.1 i ^ m i).sum =
      (u.map fun q => q.2 * q.1 ^ m 0).sum * ((v.map fun q => q.2 * q.1 ^ m 1).sum *
        (w.map fun q => q.2 * q.1 ^ m 2).sum) := by
  refine sum_flatMap_eq_mul fun x _ => ?_
  rw [← mul_assoc, ← List.sum_map_mul_left (r := x.2 * x.1 ^ m 0)]
  refine sum_flatMap_eq_mul (α := ℝ × ℝ) fun y _ => sum_map_eq_mul fun z => ?_
  rw [Fin.prod_univ_three]
  change x.2 * y.2 * z.2 * (x.1 ^ m 0 * y.1 ^ m 1 * z.1 ^ m 2) = _
  ring

theorem sum_collapsedSquare (m : Fin 2 → ℕ) :
    ((collapsedSquare u v).nodes.map fun q => q.2 * ∏ i, coordinates 2 q.1 i ^ m i).sum =
      (u.map fun q => q.2 * (q.1 ^ m 0 * (1 - q.1) ^ m 1)).sum *
        (v.map fun q => q.2 * q.1 ^ m 1).sum := by
  refine sum_flatMap_eq_mul fun x _ => sum_map_eq_mul fun y => ?_
  rw [Fin.prod_univ_two]
  change x.2 * y.2 * (x.1 ^ m 0 * (y.1 * (1 - x.1)) ^ m 1) = _
  rw [mul_pow]
  ring

theorem sum_collapsedCube (m : Fin 3 → ℕ) :
    ((collapsedCube u v w).nodes.map fun q => q.2 * ∏ i, coordinates 3 q.1 i ^ m i).sum =
      (u.map fun q => q.2 * (q.1 ^ m 0 * (1 - q.1) ^ (m 1 + m 2))).sum *
        ((v.map fun q => q.2 * (q.1 ^ m 1 * (1 - q.1) ^ m 2)).sum *
          (w.map fun q => q.2 * q.1 ^ m 2).sum) := by
  refine sum_flatMap_eq_mul fun x _ => ?_
  rw [← mul_assoc, ← List.sum_map_mul_left (r := x.2 * (x.1 ^ m 0 * (1 - x.1) ^ (m 1 + m 2)))]
  refine sum_flatMap_eq_mul (α := ℝ × ℝ) fun y _ => sum_map_eq_mul fun z => ?_
  rw [Fin.prod_univ_three]
  change x.2 * y.2 * z.2 *
    (x.1 ^ m 0 * (y.1 * (1 - x.1)) ^ m 1 * (z.1 * (1 - x.1) * (1 - y.1)) ^ m 2) = _
  rw [mul_pow, mul_pow, mul_pow]
  ring

end Sums

/-! ### Exactness on each cell -/

section Exactness

variable {u v w : LineRule ℝ}

theorem exactOn_point : (point : QuadratureRule ℝ).ExactOn .vertex d := by
  refine exactOn_of_monomials (by rintro q hq; simp_all [point, Cell.dimension]) fun m _ => ?_
  change (1 * ∏ i : Fin 0, coordinates 0 [] i ^ m i) + 0 = ∫ x in unitSimplex 0, ∏ i, x i ^ m i
  rw [integral_unitSimplex_zero, one_mul, add_zero]
  rfl

theorem exactOn_ofLine (hu : u.ExactFrom 0 0 d) : (ofLine u).ExactOn .interval d := by
  refine exactOn_of_monomials ?_ fun (m : Fin 1 →₀ ℕ) hm => ?_
  · simp only [ofLine, List.forall_mem_map]
    exact fun _ _ => rfl
  · have hsum : ∑ i : Fin 1, m i ≤ d := (Cell.admits_of_isSimplex (c := .interval) rfl).mp hm
    rw [Fin.sum_univ_one] at hsum
    refine (sum_ofLine u m).trans ?_
    change _ = ∫ x in unitSimplex 1, ∏ i, x i ^ m i
    rw [integral_unitSimplex_succ, integral_unitSimplex_zero, Finset.univ_eq_empty,
      Finset.sum_empty, Finset.prod_empty, mul_one, hu.sum_pow_eq_unitMoment hsum]

theorem exactOn_square (hu : u.ExactFrom 0 0 d) : (square u u).ExactOn .quadrilateral d := by
  refine exactOn_of_monomials ?_ fun (m : Fin 2 →₀ ℕ) hm => ?_
  · simp only [square, List.forall_mem_flatMap, List.forall_mem_map]
    exact fun _ _ _ _ => rfl
  · have hle : ∀ i, m i ≤ d := (Cell.admits_of_not_isSimplex (c := .quadrilateral) rfl).mp hm
    refine (sum_square u u m).trans ?_
    change _ = ∫ x in Set.Icc (0 : Fin 2 → ℝ) 1, ∏ i, x i ^ m i
    rw [integral_unitBox, Fin.prod_univ_two, hu.sum_pow_eq_unitMoment (hle _),
      hu.sum_pow_eq_unitMoment (hle _)]

theorem exactOn_cube (hu : u.ExactFrom 0 0 d) : (cube u u u).ExactOn .hexahedron d := by
  refine exactOn_of_monomials ?_ fun (m : Fin 3 →₀ ℕ) hm => ?_
  · simp only [cube, List.forall_mem_flatMap, List.forall_mem_map]
    exact fun _ _ _ _ _ _ => rfl
  · have hle : ∀ i, m i ≤ d := (Cell.admits_of_not_isSimplex (c := .hexahedron) rfl).mp hm
    refine (sum_cube u u u m).trans ?_
    change _ = ∫ x in Set.Icc (0 : Fin 3 → ℝ) 1, ∏ i, x i ^ m i
    rw [integral_unitBox, Fin.prod_univ_three, hu.sum_pow_eq_unitMoment (hle _),
      hu.sum_pow_eq_unitMoment (hle _), hu.sum_pow_eq_unitMoment (hle _), mul_assoc]

theorem exactOn_collapsedSquare (hu : u.ExactFrom 0 1 d) (hv : v.ExactFrom 0 0 d) :
    (collapsedSquare u v).ExactOn .triangle d := by
  refine exactOn_of_monomials ?_ fun (m : Fin 2 →₀ ℕ) hm => ?_
  · simp only [collapsedSquare, List.forall_mem_flatMap, List.forall_mem_map]
    exact fun _ _ _ _ => rfl
  · have hsum : ∑ i : Fin 2, m i ≤ d := (Cell.admits_of_isSimplex (c := .triangle) rfl).mp hm
    rw [Fin.sum_univ_two] at hsum
    refine (sum_collapsedSquare u v m).trans ?_
    -- the weight of the first line rule is the scale of the slices
    rw [hu.sum_eq_unitMoment hsum, hv.sum_pow_eq_unitMoment ((Nat.le_add_left _ _).trans hsum)]
    change _ = ∫ x in unitSimplex 2, ∏ i, x i ^ m i
    rw [integral_unitSimplex_succ, integral_unitSimplex_succ, integral_unitSimplex_zero]
    simp

theorem exactOn_collapsedCube (hu : u.ExactFrom 0 2 d) (hv : v.ExactFrom 0 1 d)
    (hw : w.ExactFrom 0 0 d) : (collapsedCube u v w).ExactOn .tetrahedron d := by
  refine exactOn_of_monomials ?_ fun (m : Fin 3 →₀ ℕ) hm => ?_
  · simp only [collapsedCube, List.forall_mem_flatMap, List.forall_mem_map]
    exact fun _ _ _ _ _ _ => rfl
  · have hsum : ∑ i : Fin 3, m i ≤ d := (Cell.admits_of_isSimplex (c := .tetrahedron) rfl).mp hm
    rw [Fin.sum_univ_three] at hsum
    refine (sum_collapsedCube u v w m).trans ?_
    rw [hu.sum_eq_unitMoment (by omega), hv.sum_eq_unitMoment (by omega),
      hw.sum_pow_eq_unitMoment (by omega)]
    change _ = ∫ x in unitSimplex 3, ∏ i, x i ^ m i
    rw [integral_unitSimplex_succ, integral_unitSimplex_succ, integral_unitSimplex_succ,
      integral_unitSimplex_zero]
    simp [Fin.sum_univ_succ]

end Exactness

variable [Numerics ℝ]

/-- The rule on a cell with the points for a degree is exact for that degree. -/
theorem exists_forCell_exactOn (c : Cell) (d : ℕ)
    (h : ∀ alpha ≤ 2, ExactGaussJacobi (pointsForDegree d) alpha) :
    ∃ R, forCell ℝ c d = .ok R ∧ R.ExactOn c d := by
  have hpoints : d ≤ 2 * pointsForDegree d - 1 := by
    unfold pointsForDegree
    omega
  have hline : ∀ alpha ≤ 2, ∃ l, unitGaussJacobi ℝ (pointsForDegree d) alpha = .ok l ∧
      l.ExactFrom 0 alpha d := by
    intro alpha halpha
    obtain ⟨l, hl, hexact⟩ := exists_unitGaussJacobi (Nat.succ_ne_zero _) (h alpha halpha)
    exact ⟨l, hl, hexact.mono hpoints⟩
  obtain ⟨l, hl, hexact⟩ := hline 0 (by omega)
  obtain ⟨l₁, hl₁, hexact₁⟩ := hline 1 (by omega)
  obtain ⟨l₂, hl₂, hexact₂⟩ := hline 2 (by omega)
  simp only [forCell, mapError_eq_ok]
  cases c with
  | vertex => exact ⟨_, rfl, exactOn_point⟩
  | interval => exact ⟨_, bind_eq_ok.mpr ⟨l, hl, rfl⟩, exactOn_ofLine hexact⟩
  | triangle =>
    exact ⟨_, bind_eq_ok.mpr ⟨l₁, hl₁, bind_eq_ok.mpr ⟨l, hl, rfl⟩⟩,
      exactOn_collapsedSquare hexact₁ hexact⟩
  | tetrahedron =>
    exact ⟨_, bind_eq_ok.mpr ⟨l₂, hl₂, bind_eq_ok.mpr ⟨l₁, hl₁, bind_eq_ok.mpr ⟨l, hl, rfl⟩⟩⟩,
      exactOn_collapsedCube hexact₂ hexact₁ hexact⟩
  | quadrilateral => exact ⟨_, bind_eq_ok.mpr ⟨l, hl, rfl⟩, exactOn_square hexact⟩
  | hexahedron => exact ⟨_, bind_eq_ok.mpr ⟨l, hl, rfl⟩, exactOn_cube hexact⟩

end QuadratureRule

end WeakForm

end
