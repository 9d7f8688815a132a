import WeakForm.Error
import WeakForm.Polynomial

/-!
# Nodal bases

The scalar basis of a Lagrange element consists of the polynomials of its space that are one at one
node and zero at the others.  Their coefficients are the columns of the inverse of the matrix of
all monomials at all nodes.

Quadrature only evaluates the basis functions of an element (`Evaluator`).  How that is done is a
parameter of it (`Tabulation`), here instantiated by the Lagrange elements.
-/

namespace WeakForm

variable {K : Type}

/-- The equispaced nodes of a cell, the midpoint for degree zero: the exponents divided by the
degree. -/
def Cell.nodes (K : Type) [NatCast K] [Div K] (c : Cell) (degree : Nat) : List (List K) :=
  if degree = 0 then
    [c.midpoint K]
  else
    (c.monomialExponents (wrapHalf degree)).map fun e =>
      e.map fun (a : Nat) => (a : K) / (degree : K)

section Matrix

variable [One K] [Mul K]

/-- The product of powers of the coordinates of a point. -/
def monomialAt (x : List K) (e : List Nat) : K :=
  (x.zipWith power e).foldl (· * ·) 1

/-- The values of all monomials (columns) at all points (rows). -/
def vandermonde {n : Nat} (points : List (List K)) (exponents : List (List Nat)) (r c : Fin n) :
    K :=
  monomialAt (points.getD r []) (exponents.getD c [])

end Matrix

/-- A Lagrange element with its nodes and the polynomials of its scalar basis. -/
structure NodalElement (K : Type) extends LagrangeElement where
  nodes : List (List K)
  basis : List (Polynomial K)

namespace NodalElement

variable [Zero K] [One K] [Add K] [Mul K] [Div K] [NatCast K] [BEq K] [Numerics K]

/-- Computes the nodal basis.  There is none on a point, or if the matrix of monomials has no
inverse. -/
def build (K : Type) [Zero K] [One K] [Mul K] [Div K] [NatCast K] [BEq K] [Numerics K]
    (e : LagrangeElement) : Except Unsupported (NodalElement K) :=
  if e.cell = .vertex then
    .error (.lagrangeOn e.cell)
  else
    let exponents := e.exponents
    let nodes := e.cell.nodes K e.degree
    let n := exponents.length
    match Numerics.inverse? (vandermonde (K := K) (n := n) nodes exponents) with
    | none => .error (.singularBasis e.degree e.cell)
    | some coefficients =>
      .ok
        { toLagrangeElement := e
          nodes
          basis := (List.finRange n).map fun i =>
            (List.finRange n).filterMap fun j =>
              if coefficients j i == 0 then none
              else some { coefficient := coefficients j i, exponents := exponents.getD j [] } }

/-- A reference derivative of a component of a basis function.  Basis function `k` of a vector
element is the scalar basis function `k % n` in component `k / n`. -/
def evaluate (e : NodalElement K) (basis : Nat) (component directions : List Nat) (xi : List K) :
    K :=
  let n := e.basis.length
  let vanishes := match component with
    | [] => false
    | c :: _ => c != basis / n
  if vanishes then 0 else (e.basis.getD (basis % n) []).evaluateDerivative directions xi

end NodalElement

/-! ### Evaluation of elements -/

/-- The basis functions of an element: the value of a reference derivative of a component, given the
basis function, the component, the directions of the derivative and a point. -/
structure Evaluator (K : Type) where
  evaluate : Nat → List Nat → List Nat → List K → K

/-- The basis functions of a nodal basis. -/
def NodalElement.evaluator [Zero K] [One K] [Add K] [Mul K] [NatCast K] (e : NodalElement K) :
    Evaluator K where
  evaluate := e.evaluate

/-- How the basis functions of finite elements are evaluated. -/
class Tabulation (K : Type) where
  tabulate : FiniteElement → Except Unsupported (Evaluator K)

/-- Lagrange elements are evaluated by their nodal bases. -/
instance [Zero K] [One K] [Add K] [Mul K] [Div K] [NatCast K] [BEq K] [Numerics K] :
    Tabulation K where
  tabulate s := do
    return (← NodalElement.build K s.lagrange).evaluator

end WeakForm
