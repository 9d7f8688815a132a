import WeakForm.Cell
import WeakForm.MultiIndex

/-!
# Finite elements

Of a finite element, forms see what it reports about itself: its cell, its degree, its dimensions
and a text that identifies it.  They refer to elements through handles, which pair the element with
the identifier under which a registry holds it.

A Lagrange element is described by its cell, its degree and, if its values are vectors, the number
of their components.
-/

namespace WeakForm

/-- What a finite element reports about itself. -/
structure FiniteElement where
  cell : Cell
  /-- The degree of its polynomials, by which quadrature rules are chosen. -/
  degree : Nat
  /-- The axes of the values: none for a scalar. -/
  valueShape : List Nat
  /-- The number of basis functions. -/
  spaceDimension : Nat
  /-- The number of reference directions. -/
  shapeDimension : Nat := cell.dimension
  /-- The text that identifies the element. -/
  signature : String
deriving DecidableEq, Inhabited

/-! ### Lagrange elements -/

/-- Lagrange elements with equispaced nodes.  A vector element has one copy of the scalar basis
for each component. -/
structure LagrangeElement where
  cell : Cell
  degree : Nat
  components : Option Nat := none
deriving DecidableEq, Inhabited

/-- Exponents of the monomials that span the polynomial space: total degree at most `degree` on
simplices, degree at most `degree` in each coordinate on the other cells. -/
def Cell.monomialExponents (c : Cell) (degree : Nat) : List (List Nat) :=
  (cartesian (List.replicate c.dimension (List.range (degree + 1)))).filter fun e =>
    !c.isSimplex || total e ≤ degree

namespace LagrangeElement

/-- The text that identifies the element. -/
def signature (e : LagrangeElement) : String :=
  match e.components with
  | none => s!"Lagrange({e.cell.name}, {e.degree})"
  | some n => s!"VectorLagrange({e.cell.name}, {e.degree}, {n})"

/-- The exponents of the monomials that span the scalar space.  Exponents are half as wide as
machine words, and so is the degree that bounds them. -/
def exponents (e : LagrangeElement) : List (List Nat) :=
  e.cell.monomialExponents (wrapHalf e.degree)

/-- The number of basis functions of each component. -/
def scalarDimension (e : LagrangeElement) : Nat :=
  e.exponents.length

/-- The axes of the values: none for a scalar, one for a vector. -/
def valueShape (e : LagrangeElement) : List Nat :=
  e.components.toList

/-- The number of basis functions, as a machine word. -/
def spaceDimension (e : LagrangeElement) : Nat :=
  wrap (e.scalarDimension * gridSize e.valueShape)

/-- What a Lagrange element reports. -/
def toFiniteElement (e : LagrangeElement) : FiniteElement where
  cell := e.cell
  degree := e.degree
  valueShape := e.valueShape
  spaceDimension := e.spaceDimension
  signature := e.signature

instance : Coe LagrangeElement FiniteElement where
  coe := toFiniteElement

end LagrangeElement

/-- The Lagrange element that reports the same cell, degree and components. -/
def FiniteElement.lagrange (s : FiniteElement) : LagrangeElement where
  cell := s.cell
  degree := s.degree
  components := s.valueShape.head?

theorem LagrangeElement.lagrange_toFiniteElement (e : LagrangeElement) :
    e.toFiniteElement.lagrange = e := by
  obtain ⟨c, d, components⟩ := e
  cases components <;> rfl

/-! ### Handles -/

/-- A handle to a registered element.  Handles are told apart by their identifiers: those of one
registry are equal if their identifiers are (`Element.OneRegistry`). -/
structure Element where
  id : Nat
  space : FiniteElement
deriving DecidableEq, Inhabited

namespace Element

def text (e : Element) : String :=
  s!"E{e.id}"

/-- The handle of a Lagrange element. -/
def lagrange (id : Nat) (e : LagrangeElement) : Element :=
  ⟨id, e⟩

/-- Handles are ordered by identifier. -/
instance : Ord Element where
  compare := compareOn id

/-- The handles of one registry: those with one identifier are of one element, so that comparing
identifiers is comparing handles. -/
def OneRegistry (handles : List Element) : Prop :=
  ∀ e ∈ handles, ∀ f ∈ handles, e.id = f.id → e = f

instance (handles : List Element) : Decidable (OneRegistry handles) :=
  inferInstanceAs (Decidable (∀ e ∈ handles, ∀ f ∈ handles, e.id = f.id → e = f))

theorem OneRegistry.mono {l l' : List Element} (h : OneRegistry l') (hl : l ⊆ l') :
    OneRegistry l :=
  fun e he f hf => h e (hl he) f (hl hf)

end Element

end WeakForm
