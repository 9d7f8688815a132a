import WeakForm.Error
import WeakForm.Index.Generator

/-!
# Expressions

Forms are built from basis functions by addition, multiplication and differentiation, and finally
integration.  An expression that is linear in its factors converts to a product
(`Expr.linear?`), one that can be a summand converts to a list of products (`Expr.terms?`); the
operations are defined on these views, and fail where a view does.

Differentiation is one function for physical and reference directions.  It takes the derivative of
a single factor as a parameter, in a monad, since a physical derivative needs a fresh slot.
-/

namespace WeakForm

/-- A basis function with the transforms that its physical derivatives brought in. -/
structure Factor where
  basisFunction : BasisFunction
  transforms : List Transform := []
deriving DecidableEq, Inhabited

/-- An expression of the form language. -/
inductive Expr (K : Type) where
  | scalar (value : K)
  | basis (v : BasisFunction)
  | factor (f : Factor)
  | product (p : Product K)
  | sum (products : List (Product K))
  | form (f : Form K)

/-! ### Derivatives of factors and products -/

namespace Factor

/-- The derivative in a reference direction. -/
def referenceDerivative (direction : Index) (f : Factor) : Factor :=
  let v := f.basisFunction
  { f with
    basisFunction :=
      { v with derivatives := v.derivatives ++ [{ element := v.element, index := direction }] } }

/-- The derivative in a physical direction: the sum over a fresh slot of the derivatives in all
reference directions, each times an entry of the inverse Jacobian. -/
def derivative (direction : Index) (f : Factor) : StateM IndexGenerator Factor := do
  let v := f.basisFunction
  let index ← modifyGet (·.fresh .secondary (List.range v.element.space.shapeDimension))
  let g := f.referenceDerivative index
  return { g with transforms := g.transforms ++ [⟨.inverse, index, direction, v.restriction⟩] }

end Factor

section Products

variable {K : Type} {m : Type → Type} [Monad m]

/-- The product rule: one product for each basis function, which is replaced by its derivative. -/
def Product.differentiate (d : Factor → m Factor) (p : Product K) : m (List (Product K)) :=
  p.basisFunctions.zipIdx.mapM fun (v, position) => do
    let f ← d { basisFunction := v }
    return { p with
        basisFunctions := p.basisFunctions.set position f.basisFunction
        transforms := p.transforms ++ f.transforms }

end Products

namespace Factor

variable {K : Type} [One K]

def toProduct (f : Factor) : Product K :=
  { constant := 1, basisFunctions := [f.basisFunction], transforms := f.transforms }

end Factor

namespace Expr

variable {K : Type}

/-! ### Views -/

def kind : Expr K → ExprKind
  | scalar _ => .scalar
  | basis _ => .basisFunction
  | factor _ => .factor
  | product _ => .product
  | sum _ => .sum
  | form _ => .form

/-- The expression as a single product. -/
def linear? [One K] : Expr K → Option (Product K)
  | basis v => some (Factor.toProduct { basisFunction := v })
  | factor f => some f.toProduct
  | product p => some p
  | _ => none

/-- The expression as a sum of products. -/
def terms? [One K] : Expr K → Option (List (Product K))
  | sum ps => some ps
  | e => e.linear?.map fun p => [p]

/-- A multiple of an expression that has not been integrated. -/
def scaled? [One K] [Mul K] (a : K) : Expr K → Option (Expr K)
  | scalar b => some (scalar (b * a))
  | sum ps => some (sum (ps.map (·.scaled a)))
  | e => e.linear?.map fun p => product (p.scaled a)

/-! ### Arithmetic -/

section Arithmetic

variable [One K] [Neg K] [Add K] [Mul K]

/-- The negative of an expression; products are multiplied by minus one. -/
def neg : Expr K → Expr K
  | scalar a => scalar (-a)
  | basis v => product ((Factor.toProduct { basisFunction := v }).scaled (-1))
  | factor f => product (f.toProduct.scaled (-1))
  | product p => product (p.scaled (-1))
  | sum ps => sum (ps.map (·.scaled (-1)))
  | form f => form (f.map fun m => { m with constant := -m.constant })

/-- Scalars are added to scalars, forms to forms, and all else as sums of products. -/
def add (e f : Expr K) : Except (FormError K) (Expr K) :=
  match e, f with
  | scalar a, scalar b => .ok (scalar (a + b))
  | form f, form g => .ok (form (f ++ g))
  | e, f =>
    match e.terms?, f.terms? with
    | some ps, some qs => .ok (sum (ps ++ qs))
    | _, _ => .error (.termAlgebra (.cannotAdd e.kind f.kind))

def sub (e f : Expr K) : Except (FormError K) (Expr K) :=
  e.add f.neg

/-- The product of all pairs of terms, in left-major order. -/
def mulTerms (ps qs : List (Product K)) : List (Product K) :=
  ps.flatMap fun p => qs.map p.times

/-- Anything but an integrated form can be multiplied.  A product of two products is a product, and
one with a sum is a sum. -/
def mul (e f : Expr K) : Except (FormError K) (Expr K) :=
  let result? : Option (Expr K) :=
    match e, f with
    | scalar a, f => f.scaled? a
    | e, scalar a => e.scaled? a
    | e, f =>
      match e.linear?, f.linear? with
      | some p, some q => some (product (p.times q))
      | _, _ =>
        match e.terms?, f.terms? with
        | some ps, some qs => some (sum (mulTerms ps qs))
        | _, _ => none
  match result? with
  | some r => .ok r
  | none => .error (.termAlgebra (.cannotMultiply e.kind f.kind))

end Arithmetic

/-! ### Differentiation and integration -/

/-- Differentiates an expression, given the derivative of a factor.  Products follow the product
rule, and a scalar has no terms. -/
def differentiate {m : Type → Type} [Monad m] (d : Factor → m Factor) :
    Expr K → Except (FormError K) (m (Expr K))
  | scalar _ => .ok (pure (sum []))
  | basis v => .ok (factor <$> d { basisFunction := v })
  | factor f => .ok (factor <$> d f)
  | product p => .ok (sum <$> p.differentiate d)
  | sum ps => .ok ((fun qs => sum qs.flatten) <$> ps.mapM (Product.differentiate d))
  | form _ => .error (.termAlgebra .cannotDifferentiate)

/-- The derivative in a physical direction, with the generator after its fresh slots. -/
def derivative (direction : Index) (e : Expr K) (g : IndexGenerator) :
    Except (FormError K) (Expr K × IndexGenerator) := do
  return (← e.differentiate (Factor.derivative direction)).run g

/-- The derivative in a reference direction. -/
def referenceDerivative (direction : Index) (e : Expr K) : Except (FormError K) (Expr K) := do
  return (← e.differentiate fun f => (pure (f.referenceDerivative direction) : Id Factor)).run

/-- Integrates each term against the measure. -/
def integrate [One K] (integral : Integral) (e : Expr K) : Except (FormError K) (Form K) :=
  match e.terms?, e with
  | some ps, _ => .ok ⟨ps.map (·.integrate integral)⟩
  | none, scalar a => .error (.termAlgebra (.cannotIntegrateScalar a))
  | none, _ => .error (.termAlgebra .alreadyIntegrated)

end Expr

end WeakForm
