/-!
# Numerical operations

The numerical parts of the library are written once for any type of scalars: arithmetic comes from
the arithmetic classes, and `Numerics` supplies what arithmetic alone does not give.  Matrices are
functions of a row and a column.
-/

namespace WeakForm

/-- Square roots, inverses and eigendecompositions over a type of scalars. -/
class Numerics (K : Type) where
  /-- The square root. -/
  sqrt : K → K
  /-- The inverse of a square matrix, if it has one. -/
  inverse? : {n : Nat} → (Fin n → Fin n → K) → Option (Fin n → Fin n → K)
  /-- The eigenvalues of a symmetric matrix and a matrix with the unit eigenvectors as columns. -/
  eigen : {n : Nat} → (Fin n → Fin n → K) → (Fin n → K) × (Fin n → Fin n → K)

/-- The sum of natural numbers. -/
def total (l : List Nat) : Nat :=
  l.foldr (· + ·) 0

theorem total_cons (n : Nat) (l : List Nat) : total (n :: l) = n + total l := rfl

theorem total_perm {l l' : List Nat} (h : l.Perm l') : total l = total l' := by
  induction h with
  | nil => rfl
  | cons n _ ih => rw [total_cons, total_cons, ih]
  | swap m n l => exact Nat.add_left_comm n m (total l)
  | trans _ _ ih₁ ih₂ => rw [ih₁, ih₂]

/-- Repeated multiplication. -/
def power {K : Type} [One K] [Mul K] (x : K) : Nat → K
  | 0 => 1
  | n + 1 => power x n * x

end WeakForm
