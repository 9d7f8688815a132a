import WeakForm.DenseTensor
import WeakForm.Integrator

/-!
# Reference tensors

The reference tensor of a monomial has an axis for each primary and for each secondary slot of its
basis functions.  Its entry for values of these is the constant times the sum, over all values of
the auxiliary slots, of the integral of the basis functions.

An axis is as long as the place that the slot first occurs at allows; where the slot runs over
fewer values, the other entries are zero.  The number of axes is computed in machine words, so a
slot with the largest identifier has none.
-/

namespace WeakForm

namespace BasisFunction

/-- The indices of a basis function with the number of values that their places allow. -/
def places (v : BasisFunction) : List (Index × Except TensorError Nat) :=
  let space := v.element.space
  let components := v.components.zipIdx.map fun (index, position) =>
    match space.valueShape[position]? with
    | some dim => (index, .ok dim)
    | none => (index, .error (.beyondValueRank position v))
  let derivatives := v.derivatives.map fun d => (d.index, .ok d.element.space.shapeDimension)
  (v.index, .ok space.spaceDimension) :: (components ++ derivatives)

end BasisFunction

/-- The first occurrence of a slot or literal, with the number of values its place allows. -/
def findOccurrence (vs : List BasisFunction) (target : Index) : Except TensorError (Index × Nat) :=
  match (vs.flatMap BasisFunction.places).find? fun (index, _) => index.sameSlot target with
  | none => .error (.noOccurrence target)
  | some (index, dim) => return (index, ← dim)

/-- The number of values that the place of the first occurrence allows. -/
def findDimension (vs : List BasisFunction) (target : Index) : Except TensorError Nat := do
  return (← findOccurrence vs target).2

/-- The multi-index of the slots of one kind, which must be numbered without gaps.  Axes are as long
as the places of first occurrence allow, and every range must fit in its axis. -/
def createMultiIndex (vs : List BasisFunction) (k : SlotKind) : Except TensorError MultiIndex := do
  let ids := (Indexed.indices vs).filterMap (Index.idOf? k)
  let rank := ((ids.map fun id => wrap (id + 1)).max?).getD 0
  let axes ← (List.range rank).mapM fun id => do
    let (index, dim) ← findOccurrence vs (.slot k id [])
    match index.range.find? (dim ≤ ·) with
    | some value => throw (TensorError.beyondDimension value index dim)
    | none => return (index, dim)
  return { indices := axes.map (·.1), dims := axes.map (·.2) }

/-- The reference tensor of a monomial, with what it was computed from. -/
structure ReferenceTensor (K : Type) where
  i : MultiIndex
  a : MultiIndex
  b : MultiIndex
  constant : K
  basisFunctions : List BasisFunction
  integral : Integral
  entries : DenseTensor K

namespace ReferenceTensor

variable {K : Type} [Zero K] [Add K] [Mul K] [Enumeration]

/-- The constant times the sum of the integrals over all auxiliary values; zero for values outside
the ranges of the axes. -/
def entry (integral : IndexValues → Except (FormError K) K) (constant : K) (i a : MultiIndex)
    (bValues : List (List Nat)) (iValues aValues : List Nat) : Except (FormError K) K :=
  if i.contains iValues && a.contains aValues then do
    let sum ← bValues.foldlM
      (fun sum bValues => do
        return sum + (← integral
          { primary := iValues, secondary := aValues, auxiliary := bValues })) 0
    return constant * sum
  else
    .ok 0

/-- The reference tensor of a monomial, given the integral of its basis functions for all values of
their indices. -/
def compute (m : Monomial K) (integral : IndexValues → Except (FormError K) K) :
    Except (FormError K) (ReferenceTensor K) := do
  let axes (k : SlotKind) : Except (FormError K) MultiIndex :=
    (createMultiIndex m.basisFunctions k).mapError .referenceTensor
  let i ← axes .primary
  let a ← axes .secondary
  let b ← axes .auxiliary
  let bValues := b.values
  let aPositions := a.positions
  let positions := i.positions.flatMap fun iValues => aPositions.map fun aValues =>
    (iValues, aValues)
  let data ← positions.mapM fun (iValues, aValues) =>
    entry integral m.constant i a bValues iValues aValues
  let entries ← (DenseTensor.ofData (i.dims ++ a.dims) data.toArray).mapError .referenceTensor
  return {
    i, a, b, entries
    constant := m.constant
    basisFunctions := m.basisFunctions
    integral := m.integral }

/-- The entry for the given values of the primary and of the secondary slots. -/
def get? (t : ReferenceTensor K) (iValues aValues : List Nat) : Option K :=
  t.entries.get? (iValues ++ aValues)

end ReferenceTensor

end WeakForm
