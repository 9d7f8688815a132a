import WeakForm.Element
import WeakForm.Indexed
import WeakForm.Integral

/-!
# Products

The factors of one term of a multilinear form: basis functions with their derivatives, entries of
the Jacobian of the coordinate map and of its inverse, coefficients of given functions, powers of
the Jacobian determinant, and a constant.

A product is an indexed structure: its indices are those of the basis functions, then those of the
transforms, then those of the coefficients.
-/

namespace WeakForm

open Indexed

/-- Constants of a form are written as text, and only finite ones can be simplified. -/
class Constant (K : Type) where
  isFinite : K → Bool
  text : K → String

/-! ### Basis functions -/

/-- Differentiation in the reference direction `index`. -/
structure Derivative where
  element : Element
  index : Index
deriving DecidableEq, Inhabited

/-- A component of a basis function of an element, with its derivatives.  The argument index is
primary for test and trial functions. -/
structure BasisFunction where
  element : Element
  index : Index
  components : List Index := []
  restriction : Restriction := .unrestricted
  derivatives : List Derivative := []
deriving DecidableEq, Inhabited

instance : Indexed Derivative where
  indices d := [d.index]
  refill d is := { d with index := is.headD d.index }
  refill_indices _ := rfl
  indices_refill d is h := by
    obtain ⟨i, rfl⟩ := List.length_eq_one_iff.1 h
    rfl
  refill_refill d is js h h' := by
    obtain ⟨i, rfl⟩ := List.length_eq_one_iff.1 h
    obtain ⟨j, rfl⟩ := List.length_eq_one_iff.1 h'
    rfl

namespace BasisFunction

/-- The test or trial function number `id` of an element. -/
def argument (element : Element) (id : Nat) : BasisFunction :=
  { element, index := .slot .primary id (List.range element.space.spaceDimension) }

/-- The number of indices of the basis function. -/
def numIndices (v : BasisFunction) : Nat :=
  1 + v.components.length + v.derivatives.length

def text (v : BasisFunction) : String :=
  let derivatives := v.derivatives.map fun d => s!"(d/dX_{d.index.text})"
  let name := if v.index.isKind .primary then "v" else "w"
  let components :=
    if v.components.isEmpty then "" else
      "[" ++ ", ".intercalate (v.components.map Index.text) ++ "]"
  s!"{String.join derivatives}{name}[{v.element.text}]_{v.index.text}{components}" ++
    v.restriction.text

end BasisFunction

instance : Indexed Index where
  indices i := [i]
  refill i is := is.headD i
  refill_indices _ := rfl
  indices_refill d is h := by
    obtain ⟨i, rfl⟩ := List.length_eq_one_iff.1 h
    rfl
  refill_refill d is js h h' := by
    obtain ⟨i, rfl⟩ := List.length_eq_one_iff.1 h
    obtain ⟨j, rfl⟩ := List.length_eq_one_iff.1 h'
    rfl

instance : Indexed BasisFunction where
  indices v := indices (v.index, v.components, v.derivatives)
  refill v is :=
    let (index, components, derivatives) := refill (v.index, v.components, v.derivatives) is
    { v with index, components, derivatives }
  refill_indices v := by simp only [refill_indices]
  indices_refill v is h := indices_refill (v.index, v.components, v.derivatives) is h
  refill_refill v is js h h' := by
    have := refill_refill (v.index, v.components, v.derivatives) is js h h'
    simp only [this]

/-- The argument comes first, then the components, then the derivatives. -/
theorem indices_basisFunction (v : BasisFunction) :
    indices v = v.index :: (v.components ++ v.derivatives.map (·.index)) := by
  show [v.index] ++ (listIndices v.components ++ listIndices v.derivatives) = _
  have hc : listIndices v.components = v.components := List.flatMap_singleton' _
  have hd : listIndices v.derivatives = v.derivatives.map (·.index) :=
    List.map_eq_flatMap.symm
  rw [hc, hd, List.singleton_append]

/-! ### Geometric factors -/

inductive TransformKind where
  /-- The derivative of a physical coordinate in a reference direction. -/
  | jacobian
  /-- The derivative of a reference coordinate in a physical direction. -/
  | inverse
deriving DecidableEq, Inhabited

/-- An entry of the Jacobian of the coordinate map or of its inverse. -/
structure Transform where
  kind : TransformKind
  reference : Index
  physical : Index
  restriction : Restriction := .unrestricted
deriving DecidableEq, Inhabited

instance : Indexed Transform where
  indices t := [t.reference, t.physical]
  refill t is :=
    { t with
      reference := is.headD t.reference
      physical := is.tail.headD t.physical }
  refill_indices _ := rfl
  indices_refill t is h := by
    match is, h with
    | [_, _], _ => rfl
  refill_refill t is js h h' := by
    match is, h, js, h' with
    | [_, _], _, [_, _], _ => rfl

def Transform.text (t : Transform) : String :=
  match t.kind with
  | .jacobian => s!"(dx_{t.physical.text}/dX_{t.reference.text}){t.restriction.text}"
  | .inverse => s!"(dX_{t.reference.text}/dx_{t.physical.text}){t.restriction.text}"

/-- A power of the Jacobian determinant. -/
structure Determinant where
  power : Int
  restriction : Restriction := .unrestricted
deriving DecidableEq, Inhabited

namespace Determinant

/-- Determinants multiply if they are taken on the same side, or if one of them is the same on both
sides; then the product is taken on the side of the other. -/
def multiply (d e : Determinant) : Option Determinant :=
  if d.restriction = e.restriction then
    some ⟨d.power + e.power, d.restriction⟩
  else if d.restriction = .constant then
    some ⟨d.power + e.power, e.restriction⟩
  else if e.restriction = .constant then
    some ⟨d.power + e.power, d.restriction⟩
  else
    none

def text (d : Determinant) : String :=
  s!"det{d.restriction.text}^{d.power}"

end Determinant

/-- An expansion coefficient of a given function: the number of the function, the number of its
projection, and the index of the coefficient. -/
structure Coefficient where
  function : Nat
  projection : Nat
  index : Index
deriving DecidableEq, Inhabited

instance : Indexed Coefficient where
  indices c := [c.index]
  refill c is := { c with index := is.headD c.index }
  refill_indices _ := rfl
  indices_refill c is h := by
    obtain ⟨i, rfl⟩ := List.length_eq_one_iff.1 h
    rfl
  refill_refill c is js h h' := by
    obtain ⟨i, rfl⟩ := List.length_eq_one_iff.1 h
    obtain ⟨j, rfl⟩ := List.length_eq_one_iff.1 h'
    rfl

def Coefficient.text (c : Coefficient) : String :=
  s!"c{c.function}_{c.projection}[{c.index.text}]"

/-! ### Products -/

/-- A product of a constant and factors, not integrated yet. -/
structure Product (K : Type) where
  constant : K
  basisFunctions : List BasisFunction := []
  transforms : List Transform := []
  coefficients : List Coefficient := []
  determinants : List Determinant := []
deriving Inhabited

namespace Product

variable {K : Type}

/-- Agreement of all factors; constants are not compared. -/
def sameFactors (p q : Product K) : Bool :=
  p.basisFunctions == q.basisFunctions && p.transforms == q.transforms &&
    p.coefficients == q.coefficients && p.determinants == q.determinants

/-- Products are equal if their constants are (as numbers) and all factors agree. -/
instance [BEq K] : BEq (Product K) where
  beq p q := p.constant == q.constant && p.sameFactors q

def withCoefficient (p : Product K) (c : Coefficient) : Product K :=
  { p with coefficients := p.coefficients ++ [c] }

def withDeterminant (p : Product K) (d : Determinant) : Product K :=
  { p with determinants := p.determinants ++ [d] }

def withTransform (p : Product K) (t : Transform) : Product K :=
  { p with transforms := p.transforms ++ [t] }

def scaled [Mul K] (p : Product K) (factor : K) : Product K :=
  { p with constant := p.constant * factor }

/-- The factors of both products, those of the first one first. -/
def times [Mul K] (p q : Product K) : Product K :=
  { constant := p.constant * q.constant
    basisFunctions := p.basisFunctions ++ q.basisFunctions
    transforms := p.transforms ++ q.transforms
    coefficients := p.coefficients ++ q.coefficients
    determinants := p.determinants ++ q.determinants }

/-- The number of leading indices that belong to basis functions. -/
def numBasisFunctionIndices (p : Product K) : Nat :=
  total (p.basisFunctions.map BasisFunction.numIndices)

end Product

instance {K : Type} : Indexed (Product K) where
  indices p := indices (p.basisFunctions, p.transforms, p.coefficients)
  refill p is :=
    let (basisFunctions, transforms, coefficients) :=
      refill (p.basisFunctions, p.transforms, p.coefficients) is
    { p with basisFunctions, transforms, coefficients }
  refill_indices p := by simp only [refill_indices]
  indices_refill p is h := indices_refill (p.basisFunctions, p.transforms, p.coefficients) is h
  refill_refill p is js h h' := by
    have := refill_refill (p.basisFunctions, p.transforms, p.coefficients) is js h h'
    simp only [this]

theorem sameFactors_iff {K : Type} {p q : Product K} :
    p.sameFactors q = true ↔ q = { p with constant := q.constant } := by
  cases p
  cases q
  simp only [Product.sameFactors, Bool.and_eq_true, beq_iff_eq, Product.mk.injEq, true_and]
  grind

end WeakForm
