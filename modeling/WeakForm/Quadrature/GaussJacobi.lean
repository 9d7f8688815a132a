import WeakForm.Error

/-!
# Gauss-Jacobi rules

The points of the rule with `n` points for the weight `(1 - x) ^ alpha * (1 + x) ^ beta` on
`[-1, 1]` are the eigenvalues of the symmetric tridiagonal matrix of the recurrence of the
orthogonal polynomials; the weights are the squared first components of its unit eigenvectors,
times the integral of the weight function.
-/

namespace WeakForm

/-- Points on a line with their weights. -/
abbrev LineRule (K : Type) := List (K × K)

section Recurrence

variable {K : Type} [Add K] [Sub K] [Mul K] [Div K] [NatCast K]

/-- Entry `k` of the diagonal. -/
def recurrenceDiagonal (k : Nat) (alpha beta : K) : K :=
  let ab := alpha + beta
  let two := ((2 : Nat) : K)
  if k = 0 then
    (beta - alpha) / (ab + two)
  else
    let t := two * (k : K) + ab
    (beta * beta - alpha * alpha) / (t * (t + two))

/-- The entry that couples rows `k - 1` and `k`, for `k` at least one. -/
def recurrenceOffDiagonal [One K] [Numerics K] (k : Nat) (alpha beta : K) : K :=
  let ab := alpha + beta
  let k := (k : K)
  let t := ((2 : Nat) : K) * k + ab
  let numerator := ((4 : Nat) : K) * k * (k + alpha) * (k + beta) * (k + ab)
  let denominator := t * t * (t + 1) * (t - 1)
  Numerics.sqrt (numerator / denominator)

end Recurrence

/-- The factorial as a scalar. -/
def factorialOf (K : Type) [One K] [Mul K] [NatCast K] : Nat → K
  | 0 => 1
  | n + 1 => factorialOf K n * ((n + 1 : Nat) : K)

section Rules

variable (K : Type) [Zero K] [One K] [Add K] [Sub K] [Mul K] [Div K] [NatCast K] [Numerics K]

/-- The symmetric tridiagonal matrix of the recurrence. -/
def recurrenceMatrix {n : Nat} (alpha beta : Nat) (r c : Fin n) : K :=
  if r.val = c.val then
    recurrenceDiagonal r.val (alpha : K) (beta : K)
  else if r.val + 1 = c.val ∨ c.val + 1 = r.val then
    recurrenceOffDiagonal (max r.val c.val) (alpha : K) (beta : K)
  else
    0

/-- The integral of the weight function over `[-1, 1]`. -/
def totalMass (alpha beta : Nat) : K :=
  power ((2 : Nat) : K) (alpha + beta + 1) * factorialOf K alpha * factorialOf K beta /
    factorialOf K (alpha + beta + 1)

variable [LE K] [DecidableLE K]

/-- The rule with `n` points, in ascending order.  There is no rule without points. -/
def gaussJacobi (n alpha beta : Nat) : Except QuadratureError (LineRule K) :=
  if h : n = 0 then
    .error .noRule
  else
    let (values, vectors) := Numerics.eigen (recurrenceMatrix K (n := n) alpha beta)
    let first : Fin n := ⟨0, Nat.pos_of_ne_zero h⟩
    let mass := totalMass K alpha beta
    let nodes := (List.finRange n).map fun k =>
      (values k, mass * vectors first k * vectors first k)
    .ok (nodes.mergeSort fun p q => decide (p.1 ≤ q.1))

/-- The rule for the weight `1`. -/
def gauss (n : Nat) : Except QuadratureError (LineRule K) :=
  gaussJacobi K n 0 0

/-- The rule for the weight `(1 - s) ^ alpha` on `[0, 1]`. -/
def unitGaussJacobi (n alpha : Nat) : Except QuadratureError (LineRule K) := do
  let scale := power ((1 : K) / ((2 : Nat) : K)) (alpha + 1)
  return (← gaussJacobi K n alpha 0).map fun (x, w) => ((x + 1) / ((2 : Nat) : K), scale * w)

/-- The rule for the weight `1` on `[0, 1]`. -/
def unitGauss (n : Nat) : Except QuadratureError (LineRule K) :=
  unitGaussJacobi K n 0

end Rules

end WeakForm
