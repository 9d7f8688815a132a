import WeakForm.Numerics

/-!
# Polynomials

Polynomials in several variables as lists of terms, in any order and with repetitions allowed.
`Term.derivative?` differentiates one term; a term whose exponent is zero vanishes.
`evaluateDerivative` differentiates each term along all directions and adds up the values.
-/

namespace WeakForm

/-- A coefficient times a product of powers; exponents beyond the list are zero. -/
structure Term (K : Type) where
  coefficient : K
  exponents : List Nat

/-- The sum of its terms. -/
abbrev Polynomial (K : Type) := List (Term K)

namespace Term

variable {K : Type} [Zero K] [One K] [Add K] [Mul K] [NatCast K]

/-- The partial derivative of the term, if it does not vanish. -/
def derivative? (direction : Nat) (t : Term K) : Option (Term K) :=
  match t.exponents.getD direction 0 with
  | 0 => none
  | e + 1 =>
    some
      { coefficient := t.coefficient * ((e + 1 : Nat) : K)
        exponents := t.exponents.set direction e }

/-- The iterated partial derivative, if it does not vanish. -/
def derivatives? (directions : List Nat) (t : Term K) : Option (Term K) :=
  directions.foldlM (fun t d => t.derivative? d) t

def evaluate (t : Term K) (xi : List K) : K :=
  (xi.zip t.exponents).foldl (fun acc (x, e) => acc * power x e) t.coefficient

end Term

namespace Polynomial

variable {K : Type} [Zero K] [One K] [Add K] [Mul K] [NatCast K]

/-- The value at `xi` of the polynomial differentiated along all directions. -/
def evaluateDerivative (p : Polynomial K) (directions : List Nat) (xi : List K) : K :=
  p.foldl
    (fun sum t =>
      match t.derivatives? directions with
      | none => sum
      | some d => sum + d.evaluate xi)
    0

end Polynomial

end WeakForm
