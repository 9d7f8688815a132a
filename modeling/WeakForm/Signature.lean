import WeakForm.Form

/-!
# Signatures

A signature holds what determines the reference tensor of a monomial: its measure and, for each
basis function, the identifier of the element, the restriction and the indices.  Transforms,
coefficients, determinants and the constant do not enter.  Basis functions are sorted, since their
order does not matter.

The hard signature keeps all identifiers; the soft signature forgets those of secondary slots.
-/

namespace WeakForm

/-- An index as it is seen by a signature: itself, or a secondary slot without its identifier. -/
inductive IndexSignature where
  | exact (index : Index)
  | anonymous (range : List Nat)
deriving DecidableEq, Inhabited

namespace IndexSignature

/-- The rank of the index; an anonymous slot is secondary. -/
def rank : IndexSignature → Nat
  | exact i => i.rank
  | anonymous _ => SlotKind.secondary.rank

/-- The identifier or value, if it is kept. -/
def value? : IndexSignature → Option Nat
  | exact i => some i.value
  | anonymous _ => none

def range : IndexSignature → List Nat
  | exact i => i.range
  | anonymous r => r

/-- Compared by rank, then by identifier or value (missing ones first), then by range. -/
instance : Ord IndexSignature where
  compare := compareLex (compareOn rank) (compareLex (compareOn value?) (compareOn range))

/-- Forgets the identifier of a secondary slot. -/
def soft : Index → IndexSignature
  | .slot .secondary _ r => anonymous r
  | i => exact i

end IndexSignature

/-- What a reference tensor depends on in a basis function. -/
structure BasisFunctionSignature where
  /-- The identifier of the element. -/
  element : Nat
  restriction : Restriction
  index : IndexSignature
  components : List IndexSignature
  derivatives : List IndexSignature
deriving DecidableEq, Inhabited

namespace BasisFunctionSignature

/-- Compared field by field, lists lexicographically. -/
instance : Ord BasisFunctionSignature where
  compare :=
    compareLex (compareOn element) <|
      compareLex (compareOn fun s => s.restriction.rank) <|
        compareLex (compareOn index) <|
          compareLex (compareOn components) (compareOn derivatives)

def ofBasisFunction (view : Index → IndexSignature) (v : BasisFunction) :
    BasisFunctionSignature where
  element := v.element.id
  restriction := v.restriction
  index := view v.index
  components := v.components.map view
  derivatives := v.derivatives.map fun d => view d.index

end BasisFunctionSignature

/-- What the reference tensor of a monomial depends on, up to its constant. -/
structure MonomialSignature where
  integral : Integral
  basisFunctions : List BasisFunctionSignature
deriving DecidableEq, Inhabited

namespace MonomialSignature

/-- Compared by the measure, then by the sorted basis functions. -/
instance : Ord MonomialSignature where
  compare := compareLex (compareOn integral) (compareOn basisFunctions)

end MonomialSignature

namespace Monomial

variable {K : Type}

/-- The signature of the monomial under a view of its indices. -/
def signature (view : Index → IndexSignature) (m : Monomial K) : MonomialSignature where
  integral := m.integral
  basisFunctions :=
    (m.basisFunctions.map (.ofBasisFunction view)).mergeSort fun s t => (compare s t).isLE

/-- The signature with all identifiers. -/
def hardSignature (m : Monomial K) : MonomialSignature :=
  m.signature .exact

/-- The signature without the identifiers of secondary slots. -/
def softSignature (m : Monomial K) : MonomialSignature :=
  m.signature .soft

end Monomial

end WeakForm
