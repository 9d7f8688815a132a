/-!
# Inverse of a floating-point matrix

Gauss-Jordan elimination with partial pivoting on the rows of the matrix, extended by those of the
identity.
-/

namespace WeakForm.Binary64

/-- The row at or after `col` with the largest entry in that column. -/
def pivotRow (rows : Array (Array Float)) (col : Nat) : Nat :=
  let entry (r : Nat) : Float := ((rows.getD r #[]).getD col 0).abs
  (List.range rows.size).foldl
    (fun best r => if col < r && entry best < entry r then r else best) col

/-- The row with a multiple of another one subtracted. -/
def subtractRow (row pivot : Array Float) (factor : Float) : Array Float :=
  row.zipWith (fun x y => x - factor * y) pivot

/-- Makes the given column that of the identity; there is none if no pivot is left. -/
def eliminateColumn (rows : Array (Array Float)) (col : Nat) : Option (Array (Array Float)) :=
  let best := pivotRow rows col
  let pivot := rows.getD best #[]
  let p := pivot.getD col 0
  if p == 0 then
    none
  else
    let pivot := pivot.map (· / p)
    let rows := rows.swapIfInBounds best col
    some <| rows.mapIdx fun r row =>
      if r = col then pivot else subtractRow row pivot (row.getD col 0)

/-- The inverse of a matrix, if elimination finds a pivot in every column. -/
def inverse? {n : Nat} (matrix : Fin n → Fin n → Float) : Option (Fin n → Fin n → Float) :=
  let rows := Array.ofFn fun r : Fin n =>
    Array.ofFn (matrix r) ++ Array.ofFn fun c : Fin n => if r = c then (1 : Float) else 0
  ((List.range n).foldlM eliminateColumn rows).map fun rows r c =>
    (rows.getD r #[]).getD (n + c) 0

end WeakForm.Binary64
