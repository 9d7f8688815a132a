import Mathlib.Algebra.Field.Basic
import Mathlib.LinearAlgebra.Matrix.Notation
import WeakForm.Proofs.Valuation

/-!
# The value of a form

An interpretation gives a value to each product of basis functions under its measure, once all
indices are literals, to the entries of the Jacobian of the coordinate map and of its inverse, to
the coefficients, and to the determinant of the Jacobian.  The value of a monomial is its constant
times the sum, over the values of its secondary and auxiliary slots, of the product of its factors
(`Interpretation.value`); it depends on the values of the primary slots.

An interpretation is a valuation (`Interpretation.toValuation`) in which the values of the factors
are related to each other.
-/

namespace WeakForm

open Indexed

/-- The same basis function, taken on the plus side if it does not depend on the side. -/
def BasisFunction.onPlusSide (v : BasisFunction) : BasisFunction :=
  if v.restriction = .constant then { v with restriction := .plus } else v

/-- The values of everything a monomial in dimension `d` is made of.  On interior facets a basis
function that is the same on both sides has the value it has on the plus side. -/
structure Interpretation (K : Type) [Field K] (d : ℕ) where
  integral : Integral → List BasisFunction → K
  /-- The derivatives of the physical coordinates in the reference directions. -/
  jacobian : Restriction → Matrix (Fin d) (Fin d) K
  /-- The derivatives of the reference coordinates in the physical directions. -/
  inverse : Restriction → Matrix (Fin d) (Fin d) K
  coefficient : ℕ → ℕ → ℕ → K
  determinant : Restriction → K
  integral_onPlusSide : ∀ i vs, i.domain = .interiorFacet →
    integral i (vs.map BasisFunction.onPlusSide) = integral i vs
  inverse_mul_jacobian : ∀ r, inverse r * jacobian r = 1
  determinant_ne_zero : ∀ r, determinant r ≠ 0

/-- The entry of a matrix, zero outside of it. -/
def entry {K : Type} [Zero K] {d : ℕ} (A : Matrix (Fin d) (Fin d) K) (i j : ℕ) : K :=
  if h : i < d ∧ j < d then A ⟨i, h.1⟩ ⟨j, h.2⟩ else 0

namespace Interpretation

variable {K : Type} [Field K] {d : ℕ}

/-- The entry of the Jacobian in a reference and a physical direction, or that of its inverse. -/
def transform (v : Interpretation K d) (kind : TransformKind) (restriction : Restriction)
    (reference physical : ℕ) : K :=
  match kind with
  | .jacobian => entry (v.jacobian restriction) physical reference
  | .inverse => entry (v.inverse restriction) reference physical

/-- The product of the values of transforms. -/
def transforms (v : Interpretation K d) (ts : List Transform) (a : Slot → ℕ) : K :=
  (ts.map fun t =>
    v.transform t.kind t.restriction (t.reference.valueIn a) (t.physical.valueIn a)).prod

/-- The product of the values of coefficients. -/
def coefficients (v : Interpretation K d) (cs : List Coefficient) (a : Slot → ℕ) : K :=
  (cs.map fun c => v.coefficient c.function c.projection (c.index.valueIn a)).prod

/-- The product of the values of powers of the determinant. -/
def determinants (v : Interpretation K d) (ds : List Determinant) : K :=
  (ds.map fun δ => v.determinant δ.restriction ^ δ.power).prod

/-- The product of the values of all factors but the constant. -/
def factors (v : Interpretation K d) (m : Monomial K) (a : Slot → ℕ) : K :=
  v.integral m.integral (m.basisFunctions.map (mapIndices (Index.resolve a))) *
    (v.transforms m.transforms a *
      (v.coefficients m.coefficients a * v.determinants m.determinants))

/-- The value of a monomial. -/
def value (v : Interpretation K d) (m : Monomial K) (a : Slot → ℕ) : K :=
  m.constant * sumIndices m.indices (v.factors m) a

/-- The value of a form on an integral, for given values of the primary slots. -/
def formValue (v : Interpretation K d) (f : Form K) (i : Integral) (values : ℕ → ℕ) : K :=
  (f.monomials.map fun m => if m.integral = i then v.value m (primaryValues values) else 0).sum

variable (v : Interpretation K d)

/-! ### Interpretations as valuations -/

/-- The values that an interpretation gives to resolved factors. -/
def toValuation : Valuation K where
  transform t := v.transform t.kind t.restriction t.reference.value t.physical.value
  coefficient c := v.coefficient c.function c.projection c.index.value
  determinant δ := v.determinant δ.restriction ^ δ.power
  integral := v.integral

/-- A summed slot of a monomial may be replaced by each of its values in turn. -/
theorem value_subst {m : Monomial K} {s : Slot} (hs : s ∈ summedSlots m.indices) (a : Slot → ℕ) :
    v.value m a = ∑ x ∈ slotValues m.indices s, v.value (mapIndices (Index.subst s x) m) a :=
  v.toValuation.value_subst hs a

/-- Monomials with the same constant and the same slots, whose factors have the same value, have the
same value. -/
theorem value_congr {m n : Monomial K} (hc : m.constant = n.constant)
    (hi : ∀ i : Index, i.isFixed = false → (i ∈ m.indices ↔ i ∈ n.indices))
    (hf : ∀ a, v.factors m a = v.factors n a) (a : Slot → ℕ) : v.value m a = v.value n a :=
  v.toValuation.value_congr hc hi hf a

end Interpretation

end WeakForm
