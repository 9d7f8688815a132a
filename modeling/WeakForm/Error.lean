import WeakForm.Balance

/-!
# Errors

The causes for which a form is rejected, grouped as they are reported, and their texts.
-/

namespace WeakForm

/-- The variants of an expression, as they are named in messages. -/
inductive ExprKind where
  | scalar
  | basisFunction
  | factor
  | product
  | sum
  | form
deriving DecidableEq, Inhabited

def ExprKind.text : ExprKind → String
  | scalar => "scalar"
  | basisFunction => "basis function"
  | factor => "factor"
  | product => "product"
  | sum => "sum"
  | form => "form"

/-- Expressions that have no meaning as multilinear forms. -/
inductive TermError (K : Type) where
  | cannotAdd (left right : ExprKind)
  | cannotMultiply (left right : ExprKind)
  | cannotDifferentiate
  | cannotIntegrateScalar (value : K)
  | alreadyIntegrated

/-- Violations of what is required of a form. -/
inductive InvariantError (K : Type) where
  /-- A monomial breaks the summation convention; its position, if it belongs to a form. -/
  | unbalanced (cause : Imbalance K) (position : Option Nat)
  | nonFinite (monomial : Monomial K)
  | missingSecondary (id : Nat) (monomial : Monomial K)
  | secondaryCountsDiffer (left right : Monomial K)
  | noRelabelling (left right : Monomial K)

/-- States that the simplifier must not reach. -/
inductive SimplificationError (K : Type) where
  | overflow (monomial : Monomial K)
  | unbalancedContraction (cause : Imbalance K)
  | unbalancedResult (cause : Imbalance K) (position : Nat)
  | unsettled

/-- The parts of a basis function that a value can be out of bounds for. -/
inductive BasisPart where
  | basisFunction
  | component
  | derivativeDirection
deriving DecidableEq, Inhabited

def BasisPart.text : BasisPart → String
  | basisFunction => "basis function"
  | component => "component"
  | derivativeDirection => "derivative direction"

/-- Reference tensors whose shape or entries are not determined. -/
inductive TensorError where
  | noValue (index : Index)
  | outOfBounds (part : BasisPart) (value dim : Nat) (v : BasisFunction)
  | componentCount (v : BasisFunction)
  | beyondValueRank (component : Nat) (v : BasisFunction)
  | noOccurrence (index : Index)
  | beyondDimension (value : Nat) (index : Index) (dim : Nat)
  | entryCount (shape : List Nat) (entries : Nat)
deriving DecidableEq

/-- Combinations of cell, element and domain that are not supported. -/
inductive Unsupported where
  | lagrangeOn (cell : Cell)
  | singularBasis (degree : Nat) (cell : Cell)
  | noFacet (facet : Nat) (cell : Cell)
  | facetIntegralOn (cell : Cell)
  | noBasisFunctions
  | foreignCell (v : BasisFunction) (cell : Cell)
  | facetCount (integral : Integral) (cell : Cell)
deriving DecidableEq

inductive QuadratureError where
  | noRule
deriving DecidableEq

/-- Everything that can go wrong between an expression and its reference tensors. -/
inductive FormError (K : Type) where
  | termAlgebra (cause : TermError K)
  | simplification (cause : SimplificationError K)
  | invariant (cause : InvariantError K)
  | referenceTensor (cause : TensorError)
  | unhandled (cause : Unsupported)
  | quadrature (cause : QuadratureError)

/-! ### Texts -/

/-- A list of numbers in brackets. -/
def bracketed (ns : List Nat) : String :=
  "[" ++ ", ".intercalate (ns.map toString) ++ "]"

variable {K : Type} [Constant K]

def TermError.text : TermError K → String
  | cannotAdd l r => s!"cannot add {l.text} with {r.text}"
  | cannotMultiply l r => s!"cannot multiply {l.text} with {r.text}"
  | cannotDifferentiate => "cannot differentiate an integrated form"
  | cannotIntegrateScalar x =>
    s!"cannot integrate scalar {Constant.text x}, the form has no arguments"
  | alreadyIntegrated => "form is already integrated"

def Imbalance.text (i : Imbalance K) : String :=
  match i.defect with
  | .repeated n => s!"index {i.index.text} occurs {n} times in a monomial"
  | .rangesDiffer => s!"index {i.index.text} occurs with different ranges"

/-- What is violated, without what helps to find it. -/
def InvariantError.headline : InvariantError K → String
  | unbalanced cause _ => cause.text
  | nonFinite _ => "monomial has a non-finite constant"
  | missingSecondary id _ => s!"secondary index a{id} does not occur in monomial"
  | secondaryCountsDiffer _ _ =>
    "monomials have common soft signature but different numbers of secondary indices"
  | noRelabelling _ _ =>
    "unable to find a reordering of indices for monomials with common soft signature"

/-- The monomials and places concerned. -/
def InvariantError.context : InvariantError K → List String
  | unbalanced cause none => [cause.monomial.text]
  | unbalanced cause (some p) => [cause.monomial.text, s!"monomial {p} of the form"]
  | nonFinite m => [m.text]
  | missingSecondary _ m => [m.text]
  | secondaryCountsDiffer p q => [p.text, q.text]
  | noRelabelling p q => [p.text, q.text, "<hard signature>"]

/-- The headline, then each item of the context on a line of its own. -/
def InvariantError.text (e : InvariantError K) : String :=
  "internal invariant violated: " ++ "\n    ".intercalate (e.headline :: e.context)

def SimplificationError.text : SimplificationError K → String
  | overflow m => s!"factorization overflowed to a non-finite constant in {m.text}"
  | unbalancedContraction i =>
    s!"index contraction produced an invalid monomial: {(InvariantError.unbalanced i none).text}"
  | unbalancedResult i p =>
    "simplified form violates the summation convention: " ++
      (InvariantError.unbalanced i (some p)).text
  | unsettled => "the form does not settle"

def TensorError.text : TensorError → String
  | noValue i => s!"no value given for index {i.text}"
  | outOfBounds part value dim v =>
    s!"{part.text} {value} is out of bounds (dimension {dim}) for {v.text}"
  | componentCount v =>
    s!"basis function {v.text} has {v.components.length} component indices, " ++
      s!"but its element has value rank {v.element.space.valueShape.length}"
  | beyondValueRank c v => s!"component {c} of {v.text} exceeds the value rank of its element"
  | noOccurrence i => s!"unable to find dimension of {i.text}"
  | beyondDimension value i dim =>
    s!"value {value} in the range of {i.text} exceeds its dimension {dim}"
  | entryCount shape n => s!"tensor of shape {bracketed shape} cannot hold {n} entries"

def Unsupported.text : Unsupported → String
  | lagrangeOn c => s!"Lagrange elements on a {c.name} cell"
  | singularBasis degree c =>
    s!"Lagrange element of degree {degree} on a {c.name}: singular nodal basis"
  | noFacet f c => s!"facet {f} of a {c.name} (which has {c.numFacets} facets)"
  | facetIntegralOn c => s!"facet integrals on a {c.name} cell"
  | noBasisFunctions => "integration of a monomial without basis functions"
  | foreignCell v c =>
    s!"basis function {v.text} on a {v.element.space.cell.name} cell " ++
      s!"integrated over a {c.name} cell"
  | facetCount i c =>
    s!"{i.text} integral over {i.numFacets} facets of a {c.name} cell, " ++
      s!"which has {c.numFacets} facets"

def QuadratureError.text : QuadratureError → String
  | noRule => "There is no quadrature rule satisfying the requirements available"

/-- The full message of an error: its group, then its cause. -/
def FormError.message : FormError K → String
  | termAlgebra e => "invalid form expression: " ++ e.text
  | simplification e => "simplification failed: " ++ e.text
  | invariant e => e.text
  | referenceTensor e => "failed to compute reference tensor: " ++ e.text
  | unhandled e => "unhandled case: " ++ e.text
  | quadrature e => "quadrature error: " ++ e.text

end WeakForm
