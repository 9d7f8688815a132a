import WeakForm.Proofs.FacetMaps
import WeakForm.Proofs.LiteralIntegrals
import WeakForm.Proofs.NodalBases
import WeakForm.Proofs.RuleExactness

/-!
# The default quadrature degree

The integral of a product of basis functions is taken over the reference cell of its domain
(`QuadratureDomain.referenceCell`): the cell itself, or that of its facets, from which each side
sees its own facet (`QuadratureDomain.place`).  On that cell every factor is a polynomial of the
degree of its element, whatever derivatives are taken and whichever facet map it is pulled back
through, so the product is one of the sum of the degrees.  With that degree as the default the
integral is exact (`ReferenceIntegrator.integrate_default_exact`).
-/

namespace WeakForm

open MeasureTheory MvPolynomial

/-! ### Domains -/

namespace QuadratureDomain

/-- The cell has the facets of the domain. -/
def ExistsOn (c : Cell) : QuadratureDomain → Prop
  | cell => True
  | exteriorFacet f => f < c.numFacets
  | interiorFacet p m => p < c.numFacets ∧ m < c.numFacets

/-- The reference cell that is integrated over. -/
def referenceCell (c : Cell) : QuadratureDomain → Cell
  | cell => c
  | exteriorFacet _ | interiorFacet _ _ => c.facetCell?.getD .vertex

/-- The facet that is seen from a side, if the domain is not the cell. -/
def facet? (minus : Bool) : QuadratureDomain → Option ℕ
  | cell => none
  | exteriorFacet f => some f
  | interiorFacet p m => some (if minus then m else p)

/-- The point of the cell that a point of the reference cell is on one side. -/
noncomputable def place (c : Cell) (domain : QuadratureDomain) (minus : Bool) (xi : List ℝ) :
    List ℝ :=
  match domain.facet? minus with
  | none => xi
  | some f => (c.facetMap? ℝ f).elim [] (·.apply xi)

variable {c : Cell} {domain : QuadratureDomain} {d : ℕ}

/-- A side sees the whole cell or one of its facets. -/
theorem eq_cell_or_facet (hdomain : domain.ExistsOn c) (minus : Bool) :
    domain = .cell ∨ ∃ f, domain.facet? minus = some f ∧ f < c.numFacets ∧
      c.facetCell? = some (domain.referenceCell c) := by
  have hcell : ∀ f < c.numFacets, c.facetCell? = some (c.facetCell?.getD .vertex) := by
    intro f hf
    cases c with
    | vertex => exact absurd hf (Nat.not_lt_zero f)
    | _ => rfl
  cases domain with
  | cell => exact Or.inl rfl
  | exteriorFacet f => exact Or.inr ⟨f, rfl, hdomain, hcell f hdomain⟩
  | interiorFacet p m =>
    cases minus with
    | true => exact Or.inr ⟨m, rfl, hdomain.2, hcell m hdomain.2⟩
    | false => exact Or.inr ⟨p, rfl, hdomain.1, hcell p hdomain.1⟩

theorem length_place (hdomain : domain.ExistsOn c) (minus : Bool) {xi : List ℝ}
    (hxi : xi.length = (domain.referenceCell c).dimension) :
    (domain.place c minus xi).length = c.dimension := by
  rcases eq_cell_or_facet hdomain minus with rfl | ⟨f, hfacet, hf, hr⟩
  · exact hxi
  · obtain ⟨o, rest, hmap, -, -⟩ := Cell.facetMap?_eq_some (K := ℝ) hf
    rw [place, hfacet]
    dsimp only
    rw [hmap, Option.elim_some, Cell.length_apply_facetMap hmap]

/-- A polynomial on the cell, seen from one side of the domain, is one of the same degree on the
reference cell of the domain. -/
theorem exists_pullback (hdomain : domain.ExistsOn c) (minus : Bool)
    {p : MvPolynomial (Fin c.dimension) ℝ} (hp : p ∈ c.polynomials ℝ c.dimension d) :
    ∃ q ∈ (domain.referenceCell c).polynomials ℝ (domain.referenceCell c).dimension d,
      ∀ xi : List ℝ, xi.length = (domain.referenceCell c).dimension →
        eval (coordinates _ xi) q = eval (coordinates c.dimension (domain.place c minus xi)) p := by
  rcases eq_cell_or_facet hdomain minus with rfl | ⟨f, hfacet, hf, hr⟩
  · exact ⟨p, hp, fun xi _ => rfl⟩
  · obtain ⟨o, rest, hmap, ho, -⟩ := Cell.facetMap?_eq_some (K := ℝ) hf
    refine ⟨_, Cell.pullback_mem_polynomials hr hf hmap hp, fun xi hxi => ?_⟩
    rw [FacetMap.eval_pullback (FacetMap.length_ofCorners (Cell.length_of_mem_corners ho) rest) hxi,
      place, hfacet]
    dsimp only
    rw [hmap, Option.elim_some]

variable [Numerics ℝ]

theorem forFacet_eq {f : ℕ} {r : Cell} {R : QuadratureRule ℝ} {minus : Bool}
    (hfacet : domain.facet? minus = some f) (hf : f < c.numFacets) (hr : c.facetCell? = some r)
    (hR : QuadratureRule.forCell ℝ r d = .ok R) : QuadratureRule.forFacet ℝ c f d =
      .ok ⟨R.nodes.map fun q => (domain.place c minus q.1, q.2)⟩ := by
  obtain ⟨o, rest, hmap, -, -⟩ := Cell.facetMap?_eq_some (K := ℝ) hf
  unfold QuadratureRule.forFacet place
  rw [hr, hmap, hfacet]
  dsimp only
  rw [hmap, hR]
  rfl

/-- The integrator for a domain sees the points of one exact rule from both sides. -/
theorem exists_build (hdomain : domain.ExistsOn c)
    (h : ∀ alpha ≤ 2, ExactGaussJacobi (pointsForDegree d) alpha) :
    ∃ (R : QuadratureRule ℝ) (x : ReferenceIntegrator ℝ),
      ReferenceIntegrator.build c domain d = .ok x ∧ x.cell = c ∧
      R.ExactOn (domain.referenceCell c) d ∧
      x.plus.nodes = R.nodes.map (fun q => (domain.place c false q.1, q.2)) ∧
      x.minus.nodes = R.nodes.map (fun q => (domain.place c true q.1, q.2)) := by
  obtain ⟨R, hR, hexact⟩ := QuadratureRule.exists_forCell_exactOn (domain.referenceCell c) d h
  have hr : domain = .cell ∨ c.facetCell? = some (domain.referenceCell c) :=
    (eq_cell_or_facet hdomain false).imp_right fun h => h.choose_spec.2.2
  cases domain with
  | cell =>
    have hid : R.nodes.map (fun q => (q.1, q.2)) = R.nodes := List.map_id _
    exact ⟨R, _, bind_eq_ok.mpr ⟨R, hR, rfl⟩, rfl, hexact, hid.symm, hid.symm⟩
  | exteriorFacet f =>
    have hfacet : facet? false (.exteriorFacet f) = some f := rfl
    have hrule := forFacet_eq hfacet hdomain (hr.resolve_left (by simp)) hR
    exact ⟨R, _, bind_eq_ok.mpr ⟨_, hrule, rfl⟩, rfl, hexact, rfl, rfl⟩
  | interiorFacet p m =>
    have hplus : facet? false (.interiorFacet p m) = some p := rfl
    have hminus : facet? true (.interiorFacet p m) = some m := rfl
    have hrule := forFacet_eq hplus hdomain.1 (hr.resolve_left (by simp)) hR
    have hrule' := forFacet_eq hminus hdomain.2 (hr.resolve_left (by simp)) hR
    exact ⟨R, _, bind_eq_ok.mpr ⟨_, hrule, bind_eq_ok.mpr ⟨_, hrule', rfl⟩⟩, rfl, hexact, rfl, rfl⟩

end QuadratureDomain

/-! ### Basis functions -/

/-- An index has a value below a bound. -/
def IndexValues.Bounds (values : IndexValues) (i : Index) (dim : ℕ) : Prop :=
  ∃ x, values.value? i = some x ∧ x < dim

theorem IndexValues.Bounds.value?_eq {values : IndexValues} {i : Index} {dim : ℕ}
    (h : values.Bounds i dim) :
    values.value? i = some (i.valueIn values.assignment) ∧ i.valueIn values.assignment < dim := by
  obtain ⟨x, hx, hlt⟩ := h
  have hvalue : i.valueIn values.assignment = x := by
    cases i with
    | slot k id r => cases k <;> simp_all [value?, Index.valueIn, assignment]
    | fixed v => exact Option.some.inj hx
  rw [hvalue]
  exact ⟨hx, hlt⟩

namespace BasisFunction

/-- All indices of the basis function have values, which its elements admit. -/
structure InBounds (v : BasisFunction) (values : IndexValues) : Prop where
  index : values.Bounds v.index v.element.space.spaceDimension
  components : List.Forall₂ values.Bounds v.components v.element.space.valueShape
  derivatives : ∀ d ∈ v.derivatives, values.Bounds d.index d.element.space.shapeDimension

/-- The basis function with its values. -/
def resolved (v : BasisFunction) (values : IndexValues) : ResolvedBasisFunction where
  basis := v.index.valueIn values.assignment
  component := v.components.map (·.valueIn values.assignment)
  directions := v.derivatives.map (·.index.valueIn values.assignment)
  minus := v.restriction = .minus

theorem resolveIndex_eq_ok {v : BasisFunction} {values : IndexValues} {part : BasisPart} {i : Index}
    {dim : ℕ} (h : values.Bounds i dim) :
    v.resolveIndex values part i dim = .ok (i.valueIn values.assignment) := by
  rw [resolveIndex, h.value?_eq.1]
  exact if_pos h.value?_eq.2

theorem forall₂_resolveIndex (v : BasisFunction) {values : IndexValues} {is : List Index}
    {dims : List ℕ} (h : List.Forall₂ values.Bounds is dims) :
    List.Forall₂ (fun p x => v.resolveIndex values .component p.1 p.2 = .ok x) (is.zip dims)
      (is.map (·.valueIn values.assignment)) := by
  induction h with
  | nil => exact .nil
  | cons hi _ ih => exact .cons (resolveIndex_eq_ok hi) ih

theorem resolve_eq_ok {v : BasisFunction} {values : IndexValues} (h : v.InBounds values) :
    v.resolve values = .ok (v.resolved values) := by
  unfold resolve
  refine bind_eq_ok.mpr ⟨_, resolveIndex_eq_ok h.index, ?_⟩
  rw [if_neg (not_not.mpr h.components.length_eq)]
  refine bind_eq_ok.mpr ⟨_, ?_, bind_eq_ok.mpr ⟨_, ?_, rfl⟩⟩
  · exact mapM_eq_ok.mpr (forall₂_resolveIndex v h.components)
  · rw [mapM_eq_ok, List.forall₂_map_right_iff, List.forall₂_same]
    exact fun d hd => resolveIndex_eq_ok (h.derivatives d hd)

/-- The value at a point of the derivative of a basis function, as it is evaluated for the rule. -/
def evaluateAt (v : BasisFunction) (E : NodalElement ℝ) (values : IndexValues) (xi : List ℝ) : ℝ :=
  E.evaluate (v.resolved values).basis (v.resolved values).component
    (v.resolved values).directions xi

/-- The derivative of the basis function of an element for values of its indices, as a function on
the reference cell. -/
noncomputable def derivative (v : BasisFunction) (E : NodalElement ℝ) (values : IndexValues)
    (n : ℕ) : (Fin n → ℝ) → ℝ :=
  iteratedPartial (fun x => eval x (E.shapePolynomial n (v.index.valueIn values.assignment)
    (v.components.map (·.valueIn values.assignment))))
    (v.derivatives.map (·.index.valueIn values.assignment))

variable [Numerics ℝ]

/-- On the reference cell of a domain, a derivative of a basis function is a polynomial of the
degree of its element. -/
theorem exists_polynomial {v : BasisFunction} {E : NodalElement ℝ} {c : Cell}
    {domain : QuadratureDomain} (hcell : v.element.space.cell = c) (hdomain : domain.ExistsOn c)
    (hE : E.IsBasisOf v.element.space) (values : IndexValues) (minus : Bool) :
    ∃ q ∈ (domain.referenceCell c).polynomials ℝ (domain.referenceCell c).dimension
        v.element.space.degree,
      ∀ xi : List ℝ, xi.length = (domain.referenceCell c).dimension →
        v.evaluateAt E values (domain.place c minus xi) = eval (coordinates _ xi) q ∧
          v.derivative E values c.dimension (coordinates c.dimension (domain.place c minus xi)) =
            eval (coordinates _ xi) q := by
  obtain ⟨hspace, hE⟩ := hE
  rw [hspace] at hcell ⊢
  subst hcell
  have hmem := Cell.foldl_partialDerivative_mem_polynomials
    (NodalElement.shapePolynomial_mem_polynomials hE (v.resolved values).basis
      (v.resolved values).component) (v.resolved values).directions
  obtain ⟨q, hq, heval⟩ := domain.exists_pullback hdomain minus hmem
  refine ⟨q, hq, fun xi hxi => ?_⟩
  rw [heval xi hxi]
  refine ⟨NodalElement.evaluate_eq hE _ _ _ (domain.length_place hdomain minus hxi), ?_⟩
  rw [derivative, iteratedPartial_eval]
  rfl

/-- On the reference cell of a domain, the product of all factors is a polynomial of the default
degree: both as the factors are evaluated for the rule and as derivatives of functions. -/
theorem exists_prod_polynomial {vs : List BasisFunction} {E : FiniteElement → NodalElement ℝ}
    {c : Cell} {domain : QuadratureDomain} (hcell : ∀ v ∈ vs, v.element.space.cell = c)
    (hdomain : domain.ExistsOn c)
    (hE : ∀ v ∈ vs, (E v.element.space).IsBasisOf v.element.space)
    (values : IndexValues) :
    ∃ p ∈ (domain.referenceCell c).polynomials ℝ (domain.referenceCell c).dimension
        (defaultQuadratureDegree vs),
      ∀ xi : List ℝ, xi.length = (domain.referenceCell c).dimension →
        (vs.map fun v => v.evaluateAt (E v.element.space) values
            (domain.place c (v.restriction = .minus) xi)).prod = eval (coordinates _ xi) p ∧
          (vs.map fun v => v.derivative (E v.element.space) values c.dimension
            (coordinates c.dimension (domain.place c (v.restriction = .minus) xi))).prod =
            eval (coordinates _ xi) p := by
  have hpoly : ∀ v ∈ vs, _ := fun v hv =>
    exists_polynomial (hcell v hv) hdomain (hE v hv) values (v.restriction = .minus)
  choose! q hq heval using hpoly
  refine ⟨(vs.map q).prod, Cell.prod_mem_polynomials hq, fun xi hxi => ?_⟩
  rw [map_list_prod, List.map_map]
  constructor
  · exact congrArg List.prod (List.map_congr_left fun v hv => (heval v hv xi hxi).1)
  · exact congrArg List.prod (List.map_congr_left fun v hv => (heval v hv xi hxi).2)

end BasisFunction

/-! ### The integral -/

/-- The point of the cell that is seen from one side at a point of the reference cell. -/
noncomputable def QuadratureDomain.point (domain : QuadratureDomain) (c : Cell) (minus : Bool)
    (xi : Fin (domain.referenceCell c).dimension → ℝ) : Fin c.dimension → ℝ :=
  coordinates c.dimension (domain.place c minus (List.ofFn xi))

theorem coordinates_ofFn {n : ℕ} (x : Fin n → ℝ) : coordinates n (List.ofFn x) = x := by
  funext i
  rw [coordinates, List.getD_eq_getElem _ _ (by simp), List.getElem_ofFn]

/-- The integral is the sum over the points of one rule, each seen from both sides. -/
theorem Integrand.integrate_eq_ok {x : Integrand ℝ} {values : IndexValues} {vs : List BasisFunction}
    {E : FiniteElement → NodalElement ℝ}
    (hfactors : x.factors = vs.map fun v => (v, (E v.element.space).evaluator))
    (hcell : ∀ v ∈ vs, v.element.space.cell = x.integrator.cell)
    (hvalues : ∀ v ∈ vs, v.InBounds values) {nodes : List (List ℝ × ℝ)}
    {place : Bool → List ℝ → List ℝ}
    (hplus : x.integrator.plus.nodes = nodes.map fun q => (place false q.1, q.2))
    (hminus : x.integrator.minus.nodes = nodes.map fun q => (place true q.1, q.2)) :
    x.integrate values = .ok (nodes.map fun q => q.2 * (vs.map fun v =>
      v.evaluateAt (E v.element.space) values (place (v.restriction = .minus) q.1)).prod).sum := by
  have hresolve : ∀ v ∈ vs, x.resolve values v = .ok (v.resolved values) := by
    intro v hv
    rw [resolve, if_pos (hcell v hv), BasisFunction.resolve_eq_ok (hvalues v hv)]
    rfl
  have hplace : ∀ (b : Bool) (xi : List ℝ),
      (if b then place true xi else place false xi) = place b xi := by
    intro b xi
    cases b <;> rfl
  refine bind_eq_ok.mpr
    ⟨vs.map fun v => (v.resolved values, (E v.element.space).evaluator), ?_, congrArg Except.ok ?_⟩
  · rw [hfactors, mapM_eq_ok, List.forall₂_map_left_iff, List.forall₂_map_right_iff,
      List.forall₂_same]
    exact fun v hv => bind_eq_ok.mpr ⟨_, hresolve v hv, rfl⟩
  · rw [hplus, hminus, List.zip_map', List.foldl_map, List.sum_eq_foldl, List.foldl_map]
    refine List.foldl_ext _ _ _ fun sum q _ => ?_
    change sum + q.2 * product _ (place false q.1) (place true q.1) = _
    rw [product_eq_prod, List.map_map]
    refine congrArg (fun product => sum + q.2 * product) ?_
    refine congrArg List.prod (List.map_congr_left fun v _ => ?_)
    exact congrArg (v.evaluateAt (E v.element.space) values) (hplace _ q.1)

namespace ReferenceIntegrator

theorem prepare_eq_ok {K : Type} [Zero K] [One K] [Add K] [Mul K] [Div K] [NatCast K] [BEq K]
    [Numerics K] (x : ReferenceIntegrator K) {vs : List BasisFunction}
    {E : FiniteElement → NodalElement K}
    (hE : ∀ v ∈ vs, (E v.element.space).IsBasisOf v.element.space) :
    x.prepare vs =
      .ok { integrator := x, factors := vs.map fun v => (v, (E v.element.space).evaluator) } := by
  refine bind_eq_ok.mpr ⟨vs.map fun v => (v, (E v.element.space).evaluator), ?_, rfl⟩
  rw [mapM_eq_ok, List.forall₂_map_right_iff, List.forall₂_same]
  exact fun v hv => bind_eq_ok.mpr ⟨_, mapError_eq_ok.mpr (hE v hv).tabulate_eq_ok, rfl⟩

variable [Numerics ℝ] {c : Cell} {vs : List BasisFunction} {E : FiniteElement → NodalElement ℝ}

theorem forBasisFunctions_eq_build (hne : vs ≠ []) (hcell : ∀ v ∈ vs, v.element.space.cell = c)
    (domain : QuadratureDomain) : forBasisFunctions (K := ℝ) vs domain none =
      build c domain (defaultQuadratureDegree vs) := by
  cases vs with
  | nil => exact absurd rfl hne
  | cons v vs =>
    rw [← hcell v List.mem_cons_self]
    rfl

/-- Without a given degree, a product of derivatives of basis functions on one cell is integrated
exactly over every domain of the cell, provided that the Gauss-Jacobi rules with the number of
points for the sum of the degrees are exact. -/
theorem integrate_default_exact (hne : vs ≠ []) (hcell : ∀ v ∈ vs, v.element.space.cell = c)
    (hE : ∀ v ∈ vs, (E v.element.space).IsBasisOf v.element.space)
    {domain : QuadratureDomain} (hdomain : domain.ExistsOn c) {values : IndexValues}
    (hvalues : ∀ v ∈ vs, v.InBounds values)
    (hgauss : ∀ alpha ≤ 2,
      ExactGaussJacobi (pointsForDegree (defaultQuadratureDegree vs)) alpha) :
    (forBasisFunctions vs domain none >>= fun x => x.integrate vs values) =
      .ok (∫ xi in (domain.referenceCell c).region,
        (vs.map fun v => v.derivative (E v.element.space) values c.dimension
          (domain.point c (v.restriction = .minus) xi)).prod) := by
  obtain ⟨R, x, hx, rfl, hexact, hplus, hminus⟩ := domain.exists_build hdomain hgauss
  obtain ⟨p, hp, heval⟩ := BasisFunction.exists_prod_polynomial hcell hdomain hE values
  have hsum : x.integrate vs values = .ok (R.weightedSum _ p) := by
    refine bind_eq_ok.mpr ⟨_, prepare_eq_ok x hE, ?_⟩
    refine (Integrand.integrate_eq_ok rfl hcell hvalues hplus hminus).trans (congrArg Except.ok ?_)
    refine congrArg List.sum (List.map_congr_left fun q hq => ?_)
    rw [(heval q.1 (hexact.length_eq q hq)).1]
  have hintegrand : ∀ xi, eval xi p = (vs.map fun v => v.derivative (E v.element.space) values
      x.cell.dimension (domain.point x.cell (v.restriction = .minus) xi)).prod := by
    intro xi
    have hpoint := (heval (List.ofFn xi) List.length_ofFn).2
    rw [coordinates_ofFn] at hpoint
    exact hpoint.symm
  rw [forBasisFunctions_eq_build hne hcell, hx]
  refine hsum.trans (congrArg Except.ok ?_)
  rw [hexact.weightedSum_eq p hp]
  exact integral_congr_ae (Filter.Eventually.of_forall hintegrand)

end ReferenceIntegrator

/-! ### A product over an interior facet -/

/-- Inverses of real matrices, and the eigenvalues of diagonal matrices, which are those that rules
with one point need. -/
@[reducible] noncomputable def diagonalNumerics : Numerics ℝ where
  sqrt := Real.sqrt
  inverse? A := if (Matrix.of A).det = 0 then none else some fun r c => (Matrix.of A)⁻¹ r c
  eigen A := (fun i => A i i, fun r c => if r = c then 1 else 0)

theorem invertsMatrices_diagonalNumerics : letI := diagonalNumerics
    Numerics.InvertsMatrices ℝ := by
  intro n A hA
  exact if_neg (isUnit_iff_ne_zero.mp ((Matrix.isUnit_iff_isUnit_det _).mp hA))

/-- The derivative of a linear function, seen from the minus side, and a constant. -/
def facetFactors : List BasisFunction :=
  let linear : Element := .lagrange 0 { cell := .triangle, degree := 1, components := some 2 }
  let constant : Element := .lagrange 1 { cell := .triangle, degree := 0 }
  [{ element := linear, index := .slot .primary 0 (List.range 6)
     components := [.slot .secondary 0 [0, 1]], restriction := .minus
     derivatives := [⟨linear, .fixed 1⟩] },
   { element := constant, index := .slot .primary 1 [0], restriction := .plus }]

theorem inBounds_facetFactors :
    ∀ v ∈ facetFactors, v.InBounds { primary := [4, 0], secondary := [1] } := by
  simp only [facetFactors, List.forall_mem_cons]
  refine ⟨⟨⟨4, rfl, by decide⟩, .cons ⟨1, rfl, by decide⟩ .nil, ?_⟩,
    ⟨⟨0, rfl, by decide⟩, .nil, List.forall_mem_nil _⟩, List.forall_mem_nil _⟩
  exact List.forall_mem_cons.mpr ⟨⟨1, rfl, by decide⟩, List.forall_mem_nil _⟩

theorem lagrange_facetFactors :
    ∀ v ∈ facetFactors, v.element.space = v.element.space.lagrange := by
  decide

theorem ReferenceIntegrator.integrate_default_exact_interiorFacet :
    letI := diagonalNumerics
    let domain : QuadratureDomain := .interiorFacet 0 2
    let values : IndexValues := { primary := [4, 0], secondary := [1] }
    ∃ E : FiniteElement → NodalElement ℝ,
      (∀ v ∈ facetFactors, (E v.element.space).IsBasisOf v.element.space) ∧
      (∀ v ∈ facetFactors, v.InBounds values) ∧
      (ReferenceIntegrator.forBasisFunctions facetFactors domain none >>= fun x =>
        x.integrate facetFactors values) =
        .ok (∫ xi in (domain.referenceCell .triangle).region,
          (facetFactors.map fun v => v.derivative (E v.element.space) values 2
            (domain.point .triangle (v.restriction = .minus) xi)).prod) := by
  let _ := diagonalNumerics
  intro domain values
  let E : FiniteElement → NodalElement ℝ := fun s => NodalElement.ofInverse ℝ s.lagrange
  have hE : ∀ v ∈ facetFactors, (E v.element.space).IsBasisOf v.element.space := by
    have hne : ∀ v ∈ facetFactors, v.element.space.cell ≠ .vertex := by decide
    exact fun v hv => NodalElement.isBasisOf_ofInverse invertsMatrices_diagonalNumerics
      (lagrange_facetFactors v hv) (hne v hv)
  have hgauss : ∀ alpha ≤ 2,
      ExactGaussJacobi (pointsForDegree (defaultQuadratureDegree facetFactors)) alpha :=
    fun alpha _ => exactGaussJacobi_one (fun A => ⟨rfl, one_pow 2⟩) alpha
  have hne : facetFactors ≠ [] := by decide
  have hcell : ∀ v ∈ facetFactors, v.element.space.cell = .triangle := by decide
  have hdomain : domain.ExistsOn .triangle := ⟨by decide, by decide⟩
  exact ⟨E, hE, inBounds_facetFactors, ReferenceIntegrator.integrate_default_exact hne hcell hE
    hdomain inBounds_facetFactors hgauss⟩

end WeakForm
