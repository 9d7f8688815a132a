import WeakForm.Quadrature.GaussJacobi

/-!
# Quadrature rules

Rules on the unit interval, square, cube, triangle and tetrahedron, built from rules on lines.
Square and cube take products of lines.  Triangle and tetrahedron are parametrized by the cube
through `x = u`, `y = v (1 - u)`, `z = w (1 - u) (1 - v)`; the determinant of that map is the weight
function of the line rules.  `QuadratureRule.onFacet` maps a rule on the reference cell of a facet
into the cell.
-/

namespace WeakForm

/-- Points with their weights. -/
structure QuadratureRule (K : Type) where
  nodes : List (List K × K)

/-- The number of points per direction for polynomials of the given degree. -/
def pointsForDegree (degree : Nat) : Nat :=
  degree / 2 + 1

namespace QuadratureRule

section Basic

variable {K : Type}

def size (r : QuadratureRule K) : Nat :=
  r.nodes.length

def points (r : QuadratureRule K) : List (List K) :=
  r.nodes.map (·.1)

def weights (r : QuadratureRule K) : List K :=
  r.nodes.map (·.2)

/-- A rule on a line. -/
def ofLine (l : LineRule K) : QuadratureRule K :=
  ⟨l.map fun (x, w) => ([x], w)⟩

/-- The rule on the point: one point without coordinates. -/
def point [One K] : QuadratureRule K :=
  ⟨[([], 1)]⟩

/-- The sum of the values at the points, times the weights, in the order of the points. -/
def integrate [Zero K] [Add K] [Mul K] (r : QuadratureRule K) (f : List K → K) : K :=
  r.nodes.foldl (fun sum (x, w) => sum + w * f x) 0

/-- The product of two line rules, the second one varying fastest. -/
def square [Mul K] (u v : LineRule K) : QuadratureRule K :=
  ⟨u.flatMap fun (x, wx) => v.map fun (y, wy) => ([x, y], wx * wy)⟩

/-- The product of three line rules, the last one varying fastest. -/
def cube [Mul K] (u v w : LineRule K) : QuadratureRule K :=
  ⟨u.flatMap fun (x, wx) => v.flatMap fun (y, wy) => w.map fun (z, wz) =>
    ([x, y, z], wx * wy * wz)⟩

/-- The triangle as the collapsed square. -/
def collapsedSquare [One K] [Sub K] [Mul K] (u v : LineRule K) : QuadratureRule K :=
  ⟨u.flatMap fun (x, wx) => v.map fun (y, wy) => ([x, y * (1 - x)], wx * wy)⟩

/-- The tetrahedron as the collapsed cube. -/
def collapsedCube [One K] [Sub K] [Mul K] (u v w : LineRule K) : QuadratureRule K :=
  ⟨u.flatMap fun (x, wx) => v.flatMap fun (y, wy) => w.map fun (z, wz) =>
    ([x, y * (1 - x), z * (1 - x) * (1 - y)], wx * wy * wz)⟩

end Basic

section Cells

variable (K : Type) [Zero K] [One K] [Add K] [Sub K] [Mul K] [Div K] [NatCast K] [Numerics K]
variable [LE K] [DecidableLE K]

/-- A rule on a cell with the given number of points per direction. -/
def onCell (c : Cell) (n : Nat) : Except QuadratureError (QuadratureRule K) :=
  match c with
  | .vertex => return point
  | .interval => return ofLine (← unitGauss K n)
  | .quadrilateral => do
    let line ← unitGauss K n
    return square line line
  | .hexahedron => do
    let line ← unitGauss K n
    return cube line line line
  | .triangle => return collapsedSquare (← unitGaussJacobi K n 1) (← unitGaussJacobi K n 0)
  | .tetrahedron =>
    return collapsedCube (← unitGaussJacobi K n 2) (← unitGaussJacobi K n 1)
      (← unitGaussJacobi K n 0)

/-- A rule on a cell that is exact for polynomials of the given degree. -/
def forCell (c : Cell) (degree : Nat) : Except (FormError K) (QuadratureRule K) :=
  (onCell K c (pointsForDegree degree)).mapError .quadrature

/-- A rule on a facet of a cell, exact for the given degree, with points in the coordinates of the
cell and weights of the reference cell of the facet. -/
def forFacet (c : Cell) (facet degree : Nat) : Except (FormError K) (QuadratureRule K) := do
  let some facetCell := c.facetCell? | throw (.unhandled (.facetIntegralOn c))
  let some map := c.facetMap? K facet | throw (.unhandled (.noFacet facet c))
  let rule ← forCell K facetCell degree
  return ⟨rule.nodes.map fun (xi, w) => (map.apply xi, w)⟩

end Cells

end QuadratureRule

end WeakForm
