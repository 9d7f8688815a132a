import WeakForm.Product

/-!
# Monomials

A monomial is a product with the measure it is integrated against.
-/

namespace WeakForm

open Indexed

/-- One integrated term of a multilinear form. -/
structure Monomial (K : Type) extends Product K where
  integral : Integral := {}
deriving Inhabited

namespace Monomial

variable {K : Type}

/-- Agreement in everything but the constants. -/
def eqIgnoringConstant (m n : Monomial K) : Bool :=
  m.integral == n.integral && m.toProduct.sameFactors n.toProduct

/-- Monomials are equal if their constants are (as numbers) and all else agrees. -/
instance [BEq K] : BEq (Monomial K) where
  beq m n := m.constant == n.constant && m.eqIgnoringConstant n

instance : Indexed (Monomial K) where
  indices m := indices m.toProduct
  refill m is := { m with toProduct := refill m.toProduct is }
  refill_indices m := by simp only [refill_indices]
  indices_refill m is h := indices_refill m.toProduct is h
  refill_refill m is js h h' := by
    have := refill_refill m.toProduct is js h h'
    simp only [this]

/-- All indices: those of the basis functions, then those of the transforms, then those of the
coefficients. -/
def indices (m : Monomial K) : List Index :=
  Indexed.indices m

/-- The identifiers of the slots of one kind, in order of the indices. -/
def ids (m : Monomial K) (k : SlotKind) : List Nat :=
  m.indices.filterMap (Index.idOf? k)

/-- The largest identifier of a slot of the given kind. -/
def maxId? (m : Monomial K) (k : SlotKind) : Option Nat :=
  (m.ids k).max?

/-- One more than the largest identifier of a slot of the given kind. -/
def nextId (m : Monomial K) (k : SlotKind) : Nat :=
  match m.maxId? k with
  | none => 0
  | some id => id + 1

/-- The largest literal among the indices. -/
def maxLiteral? (m : Monomial K) : Option Nat :=
  ((m.indices.filter Index.isFixed).map Index.value).max?

/-- How many indices are the slot of the given kind and identifier or, without a kind, the literal
of the given value. -/
def countIndex (m : Monomial K) (kind? : Option SlotKind) (value : Nat) : Nat :=
  m.indices.countP (·.denotes kind? value)

/-- The monomial with a literal zero in place of every index. -/
def skeleton (m : Monomial K) : Monomial K :=
  mapIndices (fun _ => .fixed 0) m

/-- Agreement in everything but indices and constants. -/
def sameStructure (m n : Monomial K) : Bool :=
  m.skeleton.eqIgnoringConstant n.skeleton

/-- The written form of a monomial: constant, determinants, coefficients, transforms, basis
functions, measure. -/
def text [Constant K] (m : Monomial K) : String :=
  " * ".intercalate <|
    [Constant.text m.constant] ++ m.determinants.map Determinant.text ++
      m.coefficients.map Coefficient.text ++ m.transforms.map Transform.text ++
        m.basisFunctions.map BasisFunction.text ++ [m.integral.text]

theorem eqIgnoringConstant_iff {m n : Monomial K} :
    m.eqIgnoringConstant n = true ↔ n = { m with constant := n.constant } := by
  obtain ⟨p, i⟩ := m
  obtain ⟨q, j⟩ := n
  simp only [eqIgnoringConstant, Bool.and_eq_true, beq_iff_eq, sameFactors_iff, mk.injEq]
  grind

theorem eqIgnoringConstant_refl (m : Monomial K) : m.eqIgnoringConstant m = true :=
  eqIgnoringConstant_iff.2 rfl

end Monomial

/-- Integration gives a product its measure. -/
def Product.integrate {K : Type} (p : Product K) (integral : Integral) : Monomial K :=
  { toProduct := p, integral }

end WeakForm
