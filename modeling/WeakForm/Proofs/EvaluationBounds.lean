import WeakForm.Proofs.DefaultDegree
import WeakForm.Proofs.NodalBases
import WeakForm.Proofs.RulePoints

/-!
# Evaluations within the dimensions

Evaluating a basis function is left to the caller's care: the basis function, the component, the
directions and the point must be within the dimensions that the element reports.  An integrator
checks the values of all indices before the loop over the points, in which nothing is checked.

Here the loop is written as rows of evaluations, one for each weight (`Evaluates`, `sumOfRows`).
An integral is returned exactly if the values are in bounds (`exists_integrate_iff`); then each
point that is read exists and each evaluation is within the dimensions of its element, apart from
its directions (`exists_rows_of_integrate`).  The directions of a derivative are checked against the
element that the derivative carries, so they are within the dimensions exactly if they are below the
number of directions of the element that is evaluated (`inDimensions_at`); for derivatives that
carry an element with as many directions there is no difference.
-/

namespace WeakForm

/-! ### Bounds of indices -/

/-- Of an index that has a value, other bounds are bounds of that value. -/
theorem IndexValues.Bounds.iff_lt {values : IndexValues} {i : Index} {dim dim' : ℕ}
    (h : values.Bounds i dim) : values.Bounds i dim' ↔ i.valueIn values.assignment < dim' :=
  ⟨fun h' => h'.value?_eq.2, fun hlt => ⟨_, h.value?_eq.1, hlt⟩⟩

namespace BasisFunction

variable {v : BasisFunction} {values : IndexValues}

theorem bounds_of_resolveIndex {part : BasisPart} {i : Index} {dim y : ℕ}
    (h : v.resolveIndex values part i dim = .ok y) : values.Bounds i dim := by
  unfold resolveIndex at h
  cases hvalue : values.value? i with
  | none =>
    rw [hvalue] at h
    cases h
  | some value =>
    rw [hvalue] at h
    dsimp only at h
    split at h
    · exact ⟨value, hvalue, ‹_›⟩
    · cases h

theorem inBounds_of_resolve {r : ResolvedBasisFunction} (h : v.resolve values = .ok r) :
    v.InBounds values := by
  unfold resolve at h
  obtain ⟨basis, hbasis, h⟩ := bind_eq_ok.mp h
  by_cases hlen : v.components.length ≠ v.element.space.valueShape.length
  · rw [if_pos hlen] at h
    cases h
  · rw [if_neg hlen] at h
    obtain ⟨component, hcomponent, h⟩ := bind_eq_ok.mp h
    obtain ⟨directions, hdirections, -⟩ := bind_eq_ok.mp h
    refine ⟨bounds_of_resolveIndex hbasis, ?_, fun d hd => ?_⟩
    · refine List.forall₂_iff_zip.mpr ⟨not_not.mp hlen, fun {i dim} hmem => ?_⟩
      obtain ⟨y, hy⟩ := exists_of_mem_of_mapM_eq_ok hcomponent hmem
      exact bounds_of_resolveIndex hy
    · obtain ⟨y, hy⟩ := exists_of_mem_of_mapM_eq_ok hdirections hd
      exact bounds_of_resolveIndex hy

/-- A basis function gets its values exactly within the bounds of its element and of those that its
derivatives carry. -/
theorem resolve_eq_ok_iff {r : ResolvedBasisFunction} :
    v.resolve values = .ok r ↔ v.InBounds values ∧ r = v.resolved values := by
  constructor
  · intro h
    have hbounds := inBounds_of_resolve h
    exact ⟨hbounds, Except.ok.inj (h.symm.trans (resolve_eq_ok hbounds))⟩
  · rintro ⟨hbounds, rfl⟩
    exact resolve_eq_ok hbounds

/-- All indices of the basis function have values within the dimensions of its own element. -/
structure WithinElement (v : BasisFunction) (values : IndexValues) : Prop where
  index : values.Bounds v.index v.element.space.spaceDimension
  components : List.Forall₂ values.Bounds v.components v.element.space.valueShape
  derivatives : ∀ d ∈ v.derivatives, values.Bounds d.index v.element.space.shapeDimension

/-- The elements that the derivatives carry do not matter if they have the same directions. -/
theorem inBounds_iff_withinElement
    (h : ∀ d ∈ v.derivatives, d.element.space.shapeDimension = v.element.space.shapeDimension) :
    v.InBounds values ↔ v.WithinElement values := by
  constructor
  · intro hv
    exact ⟨hv.index, hv.components, fun d hd => h d hd ▸ hv.derivatives d hd⟩
  · intro hv
    exact ⟨hv.index, hv.components, fun d hd => (h d hd).symm ▸ hv.derivatives d hd⟩

end BasisFunction

/-! ### Evaluations -/

/-- The arguments of one evaluation of a basis function. -/
structure Evaluation (K : Type) where
  element : NodalElement K
  basis : ℕ
  component : List ℕ
  directions : List ℕ
  point : List K

section Evaluations

variable {K : Type}

namespace Evaluation

/-- The arguments other than the directions are within the dimensions of the element. -/
structure InDimensions (c : Evaluation K) : Prop where
  basis : c.basis < c.element.spaceDimension
  polynomial : c.basis % c.element.basis.length < c.element.basis.length
  component : List.Forall₂ (· < ·) c.component c.element.valueShape
  point : c.point.length = c.element.toFiniteElement.shapeDimension

/-- The directions are those of the element. -/
def DirectionsWithin (c : Evaluation K) : Prop :=
  ∀ k ∈ c.directions, k < c.element.toFiniteElement.shapeDimension

def value [Zero K] [One K] [Add K] [Mul K] [NatCast K] (c : Evaluation K) : K :=
  c.element.evaluate c.basis c.component c.directions c.point

end Evaluation

/-- The evaluation of a basis function at a point. -/
def ResolvedBasisFunction.at (v : ResolvedBasisFunction) (e : NodalElement K) (point : List K) :
    Evaluation K :=
  ⟨e, v.basis, v.component, v.directions, point⟩

theorem Integrand.resolve_eq_ok_iff {I : Integrand K} {v : BasisFunction} {values : IndexValues}
    {r : ResolvedBasisFunction} :
    I.resolve values v = .ok r ↔
      (v.element.space.cell = I.integrator.cell ∧ v.InBounds values) ∧ v.resolved values = r := by
  unfold resolve
  by_cases hcell : v.element.space.cell = I.integrator.cell
  · rw [if_pos hcell, mapError_eq_ok, BasisFunction.resolve_eq_ok_iff]
    exact ⟨fun h => ⟨⟨hcell, h.1⟩, h.2.symm⟩, fun h => ⟨h.1.2, h.2.symm⟩⟩
  · rw [if_neg hcell]
    exact ⟨fun h => absurd h (by simp), fun h => absurd h.1.1 hcell⟩

namespace ReferenceIntegrator

/-- The points as seen from a side. -/
def pointsOn (x : ReferenceIntegrator K) (minus : Bool) : List (List K) :=
  if minus then x.minus.points else x.plus.points

/-- For each weight there is a row of evaluations, one for each factor, at the point that its side
has at the place of the weight. -/
structure Evaluates (x : ReferenceIntegrator K)
    (factors : List (ResolvedBasisFunction × NodalElement K)) (rows : List (List (Evaluation K))) :
    Prop where
  length_rows : rows.length = x.plus.weights.length
  row : ∀ (q : ℕ) (row : List (Evaluation K)), rows[q]? = some row →
    List.Forall₂ (fun f c => ∃ point, (x.pointsOn f.1.minus)[q]? = some point ∧
      c = f.1.at f.2 point) factors row

/-- The sum over the weights of the products of the values. -/
def sumOfRows [Zero K] [One K] [Add K] [Mul K] [NatCast K] (x : ReferenceIntegrator K)
    (rows : List (List (Evaluation K))) : K :=
  (x.plus.weights.zip rows).foldl
    (fun sum (w, row) => sum + w * row.foldl (fun product c => product * c.value) 1) 0

/-- The point of a pair that is seen from a side. -/
def pointAt (nodes : (List K × K) × (List K × K)) (minus : Bool) : List K :=
  if minus then nodes.2.1 else nodes.1.1

/-- The row of evaluations at a pair of points. -/
def rowAt (factors : List (ResolvedBasisFunction × NodalElement K))
    (nodes : (List K × K) × (List K × K)) : List (Evaluation K) :=
  factors.map fun f => f.1.at f.2 (pointAt nodes f.1.minus)

def rows (x : ReferenceIntegrator K) (factors : List (ResolvedBasisFunction × NodalElement K)) :
    List (List (Evaluation K)) :=
  (x.plus.nodes.zip x.minus.nodes).map (rowAt factors)

theorem evaluates_rows {x : ReferenceIntegrator K}
    (hsize : x.plus.nodes.length = x.minus.nodes.length)
    (factors : List (ResolvedBasisFunction × NodalElement K)) :
    x.Evaluates factors (x.rows factors) where
  length_rows := by simp [rows, QuadratureRule.weights, hsize]
  row q row hrow := by
    rw [rows, List.getElem?_map, Option.map_eq_some_iff] at hrow
    obtain ⟨⟨p, m⟩, hnodes, rfl⟩ := hrow
    obtain ⟨hp, hm⟩ := List.getElem?_zip_eq_some.mp hnodes
    rw [rowAt, List.forall₂_map_right_iff, List.forall₂_same]
    intro f _
    refine ⟨_, ?_, rfl⟩
    unfold pointsOn pointAt
    split
    · rw [QuadratureRule.points, List.getElem?_map, hm, Option.map_some]
    · rw [QuadratureRule.points, List.getElem?_map, hp, Option.map_some]

theorem length_pointAt {x : ReferenceIntegrator K} {n size : ℕ} (hplus : x.plus.Fits n size)
    (hminus : x.minus.Fits n size) {nodes : (List K × K) × (List K × K)}
    (h : nodes ∈ x.plus.nodes.zip x.minus.nodes) (minus : Bool) :
    (pointAt nodes minus).length = n := by
  obtain ⟨p, m⟩ := nodes
  obtain ⟨hp, hm⟩ := List.of_mem_zip h
  cases minus with
  | true => exact hminus.length_point m hm
  | false => exact hplus.length_point p hp

/-- The factors as they are evaluated. -/
def evaluators [Zero K] [One K] [Add K] [Mul K] [NatCast K]
    (factors : List (ResolvedBasisFunction × NodalElement K)) :
    List (ResolvedBasisFunction × Evaluator K) :=
  factors.map fun f => (f.1, f.2.evaluator)

theorem sumOfRows_rows [Zero K] [One K] [Add K] [Mul K] [NatCast K] {x : ReferenceIntegrator K}
    (hsize : x.plus.nodes.length = x.minus.nodes.length)
    (factors : List (ResolvedBasisFunction × NodalElement K)) :
    x.sumOfRows (x.rows factors) = (x.plus.nodes.zip x.minus.nodes).foldl
      (fun sum ((plus, w), (minus, _)) =>
        sum + w * Integrand.product (evaluators factors) plus minus) 0 := by
  have hfst : (x.plus.nodes.zip x.minus.nodes).map Prod.fst = x.plus.nodes :=
    List.map_fst_zip hsize.le
  have hweights : x.plus.weights = (x.plus.nodes.zip x.minus.nodes).map (·.1.2) :=
    calc x.plus.weights = ((x.plus.nodes.zip x.minus.nodes).map Prod.fst).map (·.2) := by
          rw [hfst, QuadratureRule.weights]
      _ = (x.plus.nodes.zip x.minus.nodes).map (·.1.2) := List.map_map
  unfold sumOfRows
  rw [hweights, rows, List.zip_map', List.foldl_map]
  refine List.foldl_ext _ _ _ fun sum nodes _ => ?_
  have hproduct : (rowAt factors nodes).foldl (fun product c => product * c.value) 1 =
      Integrand.product (evaluators factors) nodes.1.1 nodes.2.1 := by
    rw [rowAt, Integrand.product, evaluators, List.foldl_map, List.foldl_map]
    rfl
  exact congrArg (fun product => sum + nodes.1.2 * product) hproduct

variable {x : ReferenceIntegrator K} {vs : List BasisFunction}
  {E : FiniteElement → NodalElement K} {values : IndexValues}

/-- The factors of a product for values of its indices. -/
def resolvedFactors (vs : List BasisFunction) (E : FiniteElement → NodalElement K)
    (values : IndexValues) : List (ResolvedBasisFunction × NodalElement K) :=
  vs.map fun v => (v.resolved values, E v.element.space)

theorem forall_mem_rows {P : Evaluation K → Prop} :
    (∀ row ∈ x.rows (resolvedFactors vs E values), ∀ e ∈ row, P e) ↔
      ∀ nodes ∈ x.plus.nodes.zip x.minus.nodes, ∀ v ∈ vs,
        let r := v.resolved values
        P (r.at (E v.element.space) (pointAt nodes r.minus)) := by
  simp only [rows, rowAt, resolvedFactors, List.forall_mem_map]

/-- All factors get their values exactly if each lies on the cell and is in bounds. -/
theorem mapM_resolve_eq_ok_iff [Zero K] [One K] [Add K] [Mul K] [NatCast K] {I : Integrand K}
    (hfactors : I.factors = vs.map fun v => (v, (E v.element.space).evaluator))
    {r : List (ResolvedBasisFunction × Evaluator K)} :
    (I.factors.mapM fun (v, e) => do return (← I.resolve values v, e)) = .ok r ↔
      (∀ v ∈ vs, v.element.space.cell = I.integrator.cell ∧ v.InBounds values) ∧
        evaluators (resolvedFactors vs E values) = r := by
  have hfactor : ∀ v s, (do return (← I.resolve values v, (E v.element.space).evaluator)) =
        (.ok s : Except (FormError K) _) ↔
      (v.element.space.cell = I.integrator.cell ∧ v.InBounds values) ∧
        (v.resolved values, (E v.element.space).evaluator) = s := by
    intro v s
    constructor
    · intro h
      obtain ⟨r, hr, h⟩ := bind_eq_ok.mp h
      obtain ⟨hv, rfl⟩ := Integrand.resolve_eq_ok_iff.mp hr
      exact ⟨hv, Except.ok.inj h⟩
    · rintro ⟨hv, rfl⟩
      exact bind_eq_ok.mpr ⟨_, Integrand.resolve_eq_ok_iff.mpr ⟨hv, rfl⟩, rfl⟩
  rw [mapM_eq_ok, hfactors, List.forall₂_map_left_iff]
  simp only [hfactor]
  rw [List.forall₂_and_left, resolvedFactors, evaluators, List.map_map,
    ← List.forall₂_map_left_iff, List.forall₂_eq_eq_eq]
  rfl

variable [Zero K] [One K] [Mul K] [Div K] [NatCast K] [Numerics K] [BEq K]

/-- An evaluation of a basis function in bounds, at a point of the cell, is within the dimensions of
its element, except that its directions are those of the elements that the derivatives carry. -/
theorem inDimensions_at {v : BasisFunction} {e : NodalElement K} {point : List K}
    (he : e.IsBasisOf v.element.space) (hv : v.InBounds values)
    (hpoint : point.length = v.element.space.cell.dimension) :
    ((v.resolved values).at e point).InDimensions ∧
      (((v.resolved values).at e point).DirectionsWithin ↔ v.WithinElement values) := by
  obtain ⟨hspace, hbuild⟩ := he
  obtain ⟨-, hlen, -⟩ := NodalElement.build_eq_ok hbuild
  have hdirections : v.element.space.shapeDimension = e.toFiniteElement.shapeDimension :=
    congrArg FiniteElement.shapeDimension hspace
  have hindex : (v.resolved values).basis < e.spaceDimension :=
    hv.index.value?_eq.2.trans_eq (congrArg FiniteElement.spaceDimension hspace)
  refine ⟨⟨hindex, ?_, ?_, ?_⟩, ?_⟩
  · have hdimension : e.spaceDimension ≤ e.basis.length * gridSize e.valueShape :=
      hlen.symm ▸ wrap_le _
    have hpos : 0 < e.basis.length * gridSize e.valueShape :=
      (Nat.zero_lt_of_lt hindex).trans_le hdimension
    exact Nat.mod_lt _ (Nat.pos_of_mul_pos_right hpos)
  · have hshape : v.element.space.valueShape = e.valueShape :=
      congrArg FiniteElement.valueShape hspace
    change List.Forall₂ (· < ·) (v.components.map (·.valueIn values.assignment)) e.valueShape
    rw [← hshape, List.forall₂_map_left_iff]
    exact hv.components.imp fun _ _ h => h.value?_eq.2
  · exact hpoint.trans (congrArg (·.cell.dimension) hspace)
  · have hwithin : v.WithinElement values ↔
        ∀ d ∈ v.derivatives, values.Bounds d.index v.element.space.shapeDimension :=
      ⟨fun h => h.derivatives, fun h => ⟨hv.index, hv.components, h⟩⟩
    change (∀ k ∈ v.derivatives.map (·.index.valueIn values.assignment),
      k < e.toFiniteElement.shapeDimension) ↔ _
    rw [hwithin, List.forall_mem_map, hdirections]
    exact forall₂_congr fun d hd => (hv.derivatives d hd).iff_lt.symm

variable [Add K]

/-- An integral is returned exactly if each basis function lies on the cell and is in bounds, and
it is the sum over the rows of evaluations. -/
theorem integrate_eq_ok_iff
    (hE : ∀ v ∈ vs, (E v.element.space).IsBasisOf v.element.space)
    (hsize : x.plus.nodes.length = x.minus.nodes.length) {s : K} :
    x.integrate vs values = .ok s ↔
      (∀ v ∈ vs, v.element.space.cell = x.cell ∧ v.InBounds values) ∧
        s = x.sumOfRows (x.rows (resolvedFactors vs E values)) := by
  let I : Integrand K := ⟨x, vs.map fun v => (v, (E v.element.space).evaluator)⟩
  have hsum := sumOfRows_rows hsize (resolvedFactors vs E values)
  have hprepare : x.integrate vs values = I.integrate values := by
    rw [integrate, prepare_eq_ok x hE]
    rfl
  rw [hprepare]
  constructor
  · intro h
    obtain ⟨factors, hfactors, h⟩ := bind_eq_ok.mp h
    obtain ⟨hv, rfl⟩ := (mapM_resolve_eq_ok_iff (I := I) rfl).mp hfactors
    exact ⟨hv, (hsum.trans (Except.ok.inj h)).symm⟩
  · rintro ⟨hv, rfl⟩
    have hfactors : (I.factors.mapM fun (v, e) => do return (← I.resolve values v, e)) =
        .ok (evaluators (resolvedFactors vs E values)) :=
      (mapM_resolve_eq_ok_iff rfl).mpr ⟨hv, rfl⟩
    exact bind_eq_ok.mpr ⟨_, hfactors, congrArg _ hsum.symm⟩

section Build

variable [Sub K] [LE K] [DecidableLE K] {c : Cell} {domain : QuadratureDomain} {d : ℕ}
  (hx : build c domain d = .ok x)
  (hE : ∀ v ∈ vs, (E v.element.space).IsBasisOf v.element.space)
include hx hE

theorem exists_integrate_iff :
    (∃ s, x.integrate vs values = .ok s) ↔
      ∀ v ∈ vs, v.element.space.cell = x.cell ∧ v.InBounds values := by
  obtain ⟨rfl, size, -, hplus, hminus⟩ := fits_build hx
  have hsize := hplus.length_nodes.trans hminus.length_nodes.symm
  simp only [integrate_eq_ok_iff hE hsize, exists_and_left, exists_eq, and_true]

/-- An integral that is returned is the sum over rows of evaluations whose points exist; all their
arguments but the directions are within the dimensions of the evaluated elements. -/
theorem exists_rows_of_integrate {s : K} (hs : x.integrate vs values = .ok s) :
    ∃ rows, x.Evaluates (resolvedFactors vs E values) rows ∧ s = x.sumOfRows rows ∧
      (∀ row ∈ rows, ∀ e ∈ row, e.InDimensions) ∧
      ((∀ row ∈ rows, ∀ e ∈ row, e.DirectionsWithin) ↔ ∀ v ∈ vs, v.WithinElement values) := by
  obtain ⟨rfl, size, hpos, hplus, hminus⟩ := fits_build hx
  have hsize := hplus.length_nodes.trans hminus.length_nodes.symm
  obtain ⟨hv, rfl⟩ := (integrate_eq_ok_iff hE hsize).mp hs
  have hat : ∀ nodes ∈ x.plus.nodes.zip x.minus.nodes, ∀ v ∈ vs,
      let e := (v.resolved values).at (E v.element.space)
        (pointAt nodes (v.resolved values).minus)
      e.InDimensions ∧ (e.DirectionsWithin ↔ v.WithinElement values) := by
    intro nodes hnodes v hv'
    refine inDimensions_at (hE v hv') (hv v hv').2 ?_
    rw [length_pointAt hplus hminus hnodes, (hv v hv').1]
  refine ⟨_, evaluates_rows hsize _, rfl, ?_, ?_⟩
  · exact forall_mem_rows.mpr fun nodes hnodes v hv' => (hat nodes hnodes v hv').1
  · obtain ⟨nodes, hnodes⟩ : ∃ nodes, nodes ∈ x.plus.nodes.zip x.minus.nodes := by
      refine List.exists_mem_of_length_pos ?_
      rwa [List.length_zip, hplus.length_nodes, hminus.length_nodes, Nat.min_self]
    rw [forall_mem_rows]
    constructor
    · exact fun h v hv' => (hat nodes hnodes v hv').2.mp (h nodes hnodes v hv')
    · exact fun h nodes hnodes v hv' => (hat nodes hnodes v hv').2.mpr (h v hv')

/-- The integral of a product of basis functions is returned exactly if each of them lies on the
cell and all of its indices have values below the dimensions of its element, those of derivatives
below the number of directions of the element that the derivative carries.  Then it is the sum of
products of evaluations whose points exist, within the dimensions of the evaluated elements.  Only
the directions are those of another element if a derivative carries one with more directions. -/
theorem integrate_within (values : IndexValues) :
    ((∃ s, x.integrate vs values = .ok s) ↔
      ∀ v ∈ vs, v.element.space.cell = x.cell ∧ v.InBounds values) ∧
    ((∀ v ∈ vs, ∀ d ∈ v.derivatives,
        d.element.space.shapeDimension = v.element.space.shapeDimension) →
      ((∃ s, x.integrate vs values = .ok s) ↔
        ∀ v ∈ vs, v.element.space.cell = x.cell ∧ v.WithinElement values)) ∧
    ∀ s, x.integrate vs values = .ok s → ∃ rows,
      x.Evaluates (resolvedFactors vs E values) rows ∧ s = x.sumOfRows rows ∧
      (∀ row ∈ rows, ∀ e ∈ row, e.InDimensions) ∧
      ((∀ row ∈ rows, ∀ e ∈ row, e.DirectionsWithin) ↔ ∀ v ∈ vs, v.WithinElement values) := by
  refine ⟨exists_integrate_iff hx hE, fun hown => ?_, fun s => exists_rows_of_integrate hx hE⟩
  rw [exists_integrate_iff hx hE]
  exact forall₂_congr fun v hv =>
    and_congr_right fun _ => BasisFunction.inBounds_iff_withinElement (hown v hv)

end Build

section Rational

/-- Nodal bases from inverse matrices. -/
noncomputable def nodalBasis (s : FiniteElement) : NodalElement ℚ :=
  NodalElement.ofInverse ℚ s.lagrange

theorem isBasisOf_nodalBasis (vs : List BasisFunction)
    (hlagrange : ∀ v ∈ vs, v.element.space = v.element.space.lagrange)
    (hvs : ∀ v ∈ vs, v.element.space.cell ≠ .vertex) :
    ∀ v ∈ vs, (nodalBasis v.element.space).IsBasisOf v.element.space :=
  fun v hv => NodalElement.isBasisOf_ofInverse Numerics.invertsMatrices_rat (hlagrange v hv)
    (hvs v hv)

theorem integrate_within_interiorFacet :
    ∃ x : ReferenceIntegrator ℚ, build .triangle (.interiorFacet 0 2) 1 = .ok x ∧
      (∀ v ∈ facetFactors, (nodalBasis v.element.space).IsBasisOf v.element.space) ∧
      ∃ s rows, x.integrate facetFactors { primary := [4, 0], secondary := [1] } = .ok s ∧
        x.Evaluates (resolvedFactors facetFactors nodalBasis
          { primary := [4, 0], secondary := [1] }) rows ∧
        s = x.sumOfRows rows ∧ ∀ row ∈ rows, ∀ e ∈ row, e.InDimensions ∧ e.DirectionsWithin := by
  obtain ⟨x, hx⟩ : ∃ x : ReferenceIntegrator ℚ, build .triangle (.interiorFacet 0 2) 1 = .ok x :=
    ⟨_, rfl⟩
  have hcell : ∀ v ∈ facetFactors, v.element.space.cell = x.cell := by
    rw [(fits_build hx).1]
    decide
  have hE := isBasisOf_nodalBasis facetFactors lagrange_facetFactors (by decide)
  obtain ⟨hok, hown, hrows⟩ := integrate_within hx hE { primary := [4, 0], secondary := [1] }
  obtain ⟨s, hs⟩ := hok.mpr fun v hv => ⟨hcell v hv, inBounds_facetFactors v hv⟩
  obtain ⟨rows, hrun, hsum, hdimensions, hdirections⟩ := hrows s hs
  have hwithin := (hown (by decide)).mp ⟨s, hs⟩
  exact ⟨x, hx, hE, s, rows, hs, hrun, hsum, fun row hrow e he => ⟨hdimensions row hrow e he,
    hdirections.mpr (fun v hv => (hwithin v hv).2) row hrow e he⟩⟩

/-- A linear function on a cell, differentiated in the third direction of another cell. -/
def foreignDerivative (own carried : Cell) : BasisFunction where
  element := .lagrange 0 { cell := own, degree := 1 }
  index := .fixed 0
  derivatives := [⟨.lagrange 1 { cell := carried, degree := 1 }, .fixed 2⟩]

/-- A derivative that carries another element is checked against that element: a function on a
triangle is evaluated in a third direction, and one on a tetrahedron is refused. -/
theorem integrate_foreignDerivative :
    (∃ x : ReferenceIntegrator ℚ, build .triangle .cell 1 = .ok x ∧
      ¬ (foreignDerivative .triangle .tetrahedron).WithinElement {} ∧
      ∃ s rows, x.integrate [foreignDerivative .triangle .tetrahedron] {} = .ok s ∧
        s = x.sumOfRows rows ∧ ¬ ∀ row ∈ rows, ∀ e ∈ row, e.DirectionsWithin) ∧
    ∃ x : ReferenceIntegrator ℚ, build .tetrahedron .cell 1 = .ok x ∧
      (foreignDerivative .tetrahedron .triangle).element.space.cell = x.cell ∧
      (foreignDerivative .tetrahedron .triangle).WithinElement {} ∧
      ¬ ∃ s, x.integrate [foreignDerivative .tetrahedron .triangle] {} = .ok s := by
  constructor
  · obtain ⟨x, hx⟩ : ∃ x : ReferenceIntegrator ℚ, build .triangle .cell 1 = .ok x := ⟨_, rfl⟩
    have hE := isBasisOf_nodalBasis [foreignDerivative .triangle .tetrahedron]
      (by decide) (by decide)
    have hcell := (fits_build hx).1
    have hbounds : (foreignDerivative .triangle .tetrahedron).InBounds {} :=
      ⟨⟨0, rfl, by decide⟩, .nil, List.forall_mem_singleton.mpr ⟨2, rfl, by decide⟩⟩
    have hout : ¬ (foreignDerivative .triangle .tetrahedron).WithinElement {} := by
      intro h
      obtain ⟨k, hk, hlt⟩ := h.derivatives _ List.mem_cons_self
      obtain rfl := Option.some.inj hk
      exact absurd hlt (by decide)
    obtain ⟨s, hs⟩ := (exists_integrate_iff hx hE).mpr
      (List.forall_mem_singleton.mpr ⟨hcell.symm, hbounds⟩)
    obtain ⟨rows, -, hsum, -, hdirections⟩ := exists_rows_of_integrate hx hE hs
    exact ⟨x, hx, hout, s, rows, hs, hsum, fun h =>
      hout (hdirections.mp h _ List.mem_cons_self)⟩
  · obtain ⟨x, hx⟩ : ∃ x : ReferenceIntegrator ℚ, build .tetrahedron .cell 1 = .ok x := ⟨_, rfl⟩
    have hE := isBasisOf_nodalBasis [foreignDerivative .tetrahedron .triangle]
      (by decide) (by decide)
    have hwithin : (foreignDerivative .tetrahedron .triangle).WithinElement {} :=
      ⟨⟨0, rfl, by decide⟩, .nil, List.forall_mem_singleton.mpr ⟨2, rfl, by decide⟩⟩
    refine ⟨x, hx, (fits_build hx).1.symm, hwithin, fun hok => ?_⟩
    have hbounds := (List.forall_mem_singleton.mp ((exists_integrate_iff hx hE).mp hok)).2
    obtain ⟨k, hk, hlt⟩ := hbounds.derivatives _ List.mem_cons_self
    obtain rfl := Option.some.inj hk
    exact absurd hlt (by decide)

end Rational

end ReferenceIntegrator

end Evaluations

end WeakForm
