import WeakForm.Element.NodalBasis
import WeakForm.Quadrature.Rule

/-!
# Integration of products of basis functions

An integrator holds the quadrature points of a domain, as seen from its plus and from its minus
side; both lists have the same weights.  To integrate a product, all indices are replaced by values
and checked against the dimensions of the elements; then the product of the values at each point is
added up.  Functions restricted to the minus side take the points of that side.
-/

namespace WeakForm

/-- Values for the slots of each kind, by identifier. -/
structure IndexValues where
  primary : List Nat := []
  secondary : List Nat := []
  auxiliary : List Nat := []
deriving DecidableEq, Inhabited

/-- The value of an index: that of a literal is its own. -/
def IndexValues.value? (values : IndexValues) : Index → Option Nat
  | .slot .primary id _ => values.primary[id]?
  | .slot .secondary id _ => values.secondary[id]?
  | .slot .auxiliary id _ => values.auxiliary[id]?
  | .fixed v => some v

/-- A basis function with values in place of its indices. -/
structure ResolvedBasisFunction where
  basis : Nat
  component : List Nat
  directions : List Nat
  minus : Bool
deriving DecidableEq, Inhabited

namespace BasisFunction

/-- The value of an index of `v`, which must be below `dim`. -/
def resolveIndex (v : BasisFunction) (values : IndexValues) (part : BasisPart) (index : Index)
    (dim : Nat) : Except TensorError Nat :=
  match values.value? index with
  | none => .error (.noValue index)
  | some value => if value < dim then .ok value else .error (.outOfBounds part value dim v)

/-- Replaces all indices by their values and checks them: argument, components, derivatives. -/
def resolve (v : BasisFunction) (values : IndexValues) :
    Except TensorError ResolvedBasisFunction := do
  let shape := v.element.space.valueShape
  let basis ← v.resolveIndex values .basisFunction v.index v.element.space.spaceDimension
  if v.components.length ≠ shape.length then
    throw (.componentCount v)
  let component ← (v.components.zip shape).mapM fun (index, dim) =>
    v.resolveIndex values .component index dim
  let directions ← v.derivatives.mapM fun d =>
    v.resolveIndex values .derivativeDirection d.index d.element.space.shapeDimension
  return { basis, component, directions, minus := v.restriction = .minus }

end BasisFunction

/-- The quadrature points of a domain of a cell, seen from both sides. -/
structure ReferenceIntegrator (K : Type) where
  cell : Cell
  domain : QuadratureDomain
  plus : QuadratureRule K
  minus : QuadratureRule K

/-- A product of basis functions, each with the evaluator of its element, ready to be integrated. -/
structure Integrand (K : Type) where
  integrator : ReferenceIntegrator K
  factors : List (BasisFunction × Evaluator K)

/-- The degree at which a product of basis functions is integrated exactly. -/
def defaultQuadratureDegree (vs : List BasisFunction) : Nat :=
  total (vs.map fun v => v.element.space.degree)

variable {K : Type} [Zero K] [One K] [Add K] [Mul K]

namespace Integrand

/-- Values for the indices of one factor, which must lie on the cell of the integrator. -/
def resolve (x : Integrand K) (values : IndexValues) (v : BasisFunction) :
    Except (FormError K) ResolvedBasisFunction :=
  if v.element.space.cell = x.integrator.cell then
    (v.resolve values).mapError .referenceTensor
  else
    .error (.unhandled (.foreignCell v x.integrator.cell))

/-- The product of the factors at a point, given from both sides. -/
def product (factors : List (ResolvedBasisFunction × Evaluator K)) (plus minus : List K) : K :=
  factors.foldl
    (fun product (v, e) =>
      product * e.evaluate v.basis v.component v.directions (if v.minus then minus else plus))
    1

/-- The integral of the product for the given values of its indices. -/
def integrate (x : Integrand K) (values : IndexValues) : Except (FormError K) K := do
  let resolved ← x.factors.mapM fun (v, e) => do return (← x.resolve values v, e)
  return (x.integrator.plus.nodes.zip x.integrator.minus.nodes).foldl
    (fun sum ((plus, w), (minus, _)) => sum + w * product resolved plus minus) 0

end Integrand

namespace ReferenceIntegrator

variable [Tabulation K]

/-- Gives each basis function the evaluator of its element. -/
def prepare (x : ReferenceIntegrator K) (vs : List BasisFunction) :
    Except (FormError K) (Integrand K) := do
  let factors ← vs.mapM fun v => do
    return (v, ← (Tabulation.tabulate v.element.space).mapError .unhandled)
  return { integrator := x, factors }

/-- The integral of a product of basis functions for the given values of its indices. -/
def integrate (x : ReferenceIntegrator K) (vs : List BasisFunction)
    (values : IndexValues) : Except (FormError K) K := do
  (← x.prepare vs).integrate values

variable [Sub K] [Div K] [NatCast K] [Numerics K] [LE K] [DecidableLE K]

/-- The integrator for a domain of a cell, exact for the given degree. -/
def build (cell : Cell) (domain : QuadratureDomain) (degree : Nat) :
    Except (FormError K) (ReferenceIntegrator K) := do
  match domain with
  | .cell =>
    let rule ← QuadratureRule.forCell K cell degree
    return { cell, domain, plus := rule, minus := rule }
  | .exteriorFacet facet =>
    let rule ← QuadratureRule.forFacet K cell facet degree
    return { cell, domain, plus := rule, minus := rule }
  | .interiorFacet p m =>
    let plus ← QuadratureRule.forFacet K cell p degree
    let minus ← QuadratureRule.forFacet K cell m degree
    return { cell, domain, plus, minus }

/-- The integrator for the cell of the first basis function; without a degree it is exact for their
product. -/
def forBasisFunctions (vs : List BasisFunction) (domain : QuadratureDomain)
    (degree? : Option Nat) : Except (FormError K) (ReferenceIntegrator K) :=
  match vs with
  | [] => .error (.unhandled .noBasisFunctions)
  | v :: _ => build v.element.space.cell domain (degree?.getD (defaultQuadratureDegree vs))

end ReferenceIntegrator

end WeakForm
