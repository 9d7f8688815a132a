/-!
# Eigenvalues of a symmetric floating-point matrix

Cyclic rotations: each one makes one entry off the diagonal zero, and sweeps over all entries are
repeated.  Convergence is quadratic, so the number of sweeps is fixed.
-/

namespace WeakForm.Binary64

/-- A symmetric matrix on its way to a diagonal one, and the product of the rotations so far. -/
structure Rotations where
  matrix : Array (Array Float)
  vectors : Array (Array Float)

namespace Rotations

def entry (rows : Array (Array Float)) (r c : Nat) : Float :=
  (rows.getD r #[]).getD c 0

/-- Turns columns `p` and `q` by the rotation with the given cosine and sine. -/
def rotateColumns (p q : Nat) (c s : Float) (rows : Array (Array Float)) : Array (Array Float) :=
  rows.map fun row =>
    let x := row.getD p 0
    let y := row.getD q 0
    (row.setIfInBounds p (c * x - s * y)).setIfInBounds q (s * x + c * y)

/-- Turns rows `p` and `q` by the rotation with the given cosine and sine. -/
def rotateRows (p q : Nat) (c s : Float) (rows : Array (Array Float)) : Array (Array Float) :=
  let x := rows.getD p #[]
  let y := rows.getD q #[]
  (rows.setIfInBounds p (x.zipWith (fun x y => c * x - s * y) y)).setIfInBounds q
    (x.zipWith (fun x y => s * x + c * y) y)

/-- Rotates in the plane of `p` and `q` so that their common entry vanishes. -/
def annihilate (a : Rotations) (p q : Nat) : Rotations :=
  let apq := entry a.matrix p q
  if apq == 0 then
    a
  else
    let theta := (entry a.matrix q q - entry a.matrix p p) / (2 * apq)
    let root := (theta * theta + 1).sqrt
    let t := if theta < 0 then 1 / (theta - root) else 1 / (theta + root)
    let c := 1 / (t * t + 1).sqrt
    let s := t * c
    { matrix := rotateRows p q c s (rotateColumns p q c s a.matrix)
      vectors := rotateColumns p q c s a.vectors }

/-- One rotation for each entry above the diagonal. -/
def sweep (n : Nat) (a : Rotations) : Rotations :=
  (List.range n).foldl
    (fun a p => (List.range' (p + 1) (n - p - 1)).foldl (fun a q => a.annihilate p q) a) a

end Rotations

/-- Enough sweeps for any matrix that fits into memory. -/
def numSweeps : Nat := 24

/-- The eigenvalues and a matrix with the unit eigenvectors as columns. -/
def eigen {n : Nat} (matrix : Fin n → Fin n → Float) : (Fin n → Float) × (Fin n → Fin n → Float) :=
  let start : Rotations :=
    { matrix := Array.ofFn fun r : Fin n => Array.ofFn (matrix r)
      vectors := Array.ofFn fun r : Fin n => Array.ofFn fun c : Fin n => if r = c then 1 else 0 }
  let result := (List.range numSweeps).foldl (fun a _ => a.sweep n) start
  (fun k => Rotations.entry result.matrix k k, fun r k => Rotations.entry result.vectors r k)

end WeakForm.Binary64
