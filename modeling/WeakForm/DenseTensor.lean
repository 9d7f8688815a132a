import WeakForm.Error
import WeakForm.Word

/-!
# Dense tensors

The entries of a tensor in lexicographic order of their positions.  The number of entries is the
product of the axis lengths, multiplied in a machine word; this is part of the type.  The place of a
position is computed in a machine word too.  Where the product fits into a word, there is an entry
for every position.
-/

namespace WeakForm

/-- The place of a position in lexicographic order as a machine word, if it is within the shape. -/
def linearIndex? (shape position : List Nat) : Option Nat :=
  go 0 shape position
where
  go (acc : Nat) : List Nat → List Nat → Option Nat
    | [], [] => some acc
    | dim :: dims, k :: ks => if k < dim then go (wrap (acc * dim + k)) dims ks else none
    | _, _ => none

/-- Entries for the positions of a shape. -/
structure DenseTensor (K : Type) where
  shape : List Nat
  data : Array K
  size_eq : data.size = wrap (gridSize shape)

namespace DenseTensor

variable {K : Type}

/-- The tensor with the given entries, if they are as many as the axis lengths multiply to. -/
def ofData (shape : List Nat) (data : Array K) : Except TensorError (DenseTensor K) :=
  if h : data.size = wrap (gridSize shape) then .ok { shape, data, size_eq := h }
  else .error (.entryCount shape data.size)

def zeros [Zero K] (shape : List Nat) : DenseTensor K where
  shape := shape
  data := .replicate (wrap (gridSize shape)) 0
  size_eq := by simp

/-- The number of axes. -/
def rank (t : DenseTensor K) : Nat :=
  t.shape.length

/-- The number of entries. -/
def size (t : DenseTensor K) : Nat :=
  t.data.size

/-- The entry at a position.  A place beyond the entries, which only a shape whose product does not
fit into a word has, is none either. -/
def get? (t : DenseTensor K) (position : List Nat) : Option K :=
  (linearIndex? t.shape position).bind fun k => t.data[k]?

/-- Writes the entry at a position, if there is one. -/
def set? (t : DenseTensor K) (position : List Nat) (x : K) : Option (DenseTensor K) :=
  (linearIndex? t.shape position).map fun k =>
    { t with
      data := t.data.setIfInBounds k x
      size_eq := by rw [Array.size_setIfInBounds, t.size_eq] }

end DenseTensor

end WeakForm
