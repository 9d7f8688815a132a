import WeakForm.Enumeration
import WeakForm.Index
import WeakForm.Word

/-!
# Multi-indices

A multi-index is a list of indices together with the length of the axis each of them runs along.
The positions along the axes and the values in the ranges are products of lists, in lexicographic
order.  A multi-index without indices has one position, the empty one.
-/

namespace WeakForm

/-- All positions of a grid with the given axis lengths, in lexicographic order. -/
def gridPositions (dims : List Nat) : List (List Nat) :=
  cartesian (dims.map List.range)

/-- The number of positions of a grid. -/
def gridSize (dims : List Nat) : Nat :=
  dims.foldr (· * ·) 1

theorem gridSize_cons (d : Nat) (dims : List Nat) : gridSize (d :: dims) = d * gridSize dims := rfl

/-- Indices with the lengths of their axes. -/
structure MultiIndex where
  indices : List Index
  dims : List Nat
deriving DecidableEq, Inhabited

namespace MultiIndex

/-- Each axis is as long as the range of its index. -/
def ofIndices (indices : List Index) : MultiIndex :=
  { indices, dims := indices.map (·.range.length) }

/-- The multi-index of the slots `0, 1, …` of one kind, each running over its whole axis. -/
def ofDims (k : SlotKind) (dims : List Nat) : MultiIndex :=
  ofIndices (dims.mapIdx fun id dim => .slot k id (List.range dim))

/-- The multi-index of the literals `0, 1, …, n - 1`. -/
def literals (n : Nat) : MultiIndex :=
  ofIndices ((List.range n).map .fixed)

/-- The number of indices. -/
def rank (m : MultiIndex) : Nat :=
  m.indices.length

/-- The number of positions along the axes as a machine word, one if there is no axis. -/
def size (m : MultiIndex) : Nat :=
  wrap (gridSize m.dims)

/-- Whether there is one value for each index, in its range. -/
def contains (m : MultiIndex) (values : List Nat) : Bool :=
  values.length == m.indices.length &&
    (m.indices.zip values).all fun (i, v) => i.range.contains v

section Enumeration

variable [Enumeration]

/-- All combinations of values in the ranges, the last index varying fastest. -/
def values (m : MultiIndex) : List (List Nat) :=
  if m.indices.isEmpty then [[]] else Enumeration.products (m.indices.map Index.range)

/-- All positions along the axes, the last axis varying fastest. -/
def positions (m : MultiIndex) : List (List Nat) :=
  if m.dims.isEmpty then [[]] else Enumeration.products (m.dims.map List.range)

theorem values_of_indices_eq_nil {m : MultiIndex} (h : m.indices = []) : m.values = [[]] := by
  simp [values, h]

theorem values_eq (m : MultiIndex) : m.values = cartesian (m.indices.map Index.range) := by
  unfold values
  split
  · rename_i h
    rw [List.isEmpty_iff.1 h]
    rfl
  · rename_i h
    rw [Enumeration.products_eq]
    simpa using h

theorem positions_eq (m : MultiIndex) : m.positions = gridPositions m.dims := by
  unfold positions
  split
  · rename_i h
    rw [List.isEmpty_iff.1 h]
    rfl
  · rename_i h
    rw [Enumeration.products_eq, gridPositions]
    simpa using h

end Enumeration

end MultiIndex

end WeakForm
