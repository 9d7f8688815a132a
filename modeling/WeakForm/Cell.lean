import WeakForm.Numerics

/-!
# Reference cells

The unit simplices have vertex `0` at the origin and vertex `k` at the `k`-th unit vector; the
square and the cube number their vertices with the first coordinate varying fastest.  Facet `f` of
a simplex lies opposite vertex `f`.

The vertices of a facet are listed so that `FacetMap.apply` of the map built from them takes the
reference cell of the facet onto the facet.
-/

namespace WeakForm

/-- The cells that forms are integrated over; a point occurs only as the facet of an interval. -/
inductive Cell where
  | vertex
  | interval
  | triangle
  | tetrahedron
  | quadrilateral
  | hexahedron
deriving DecidableEq, Inhabited

namespace Cell

def dimension : Cell → Nat
  | vertex => 0
  | interval => 1
  | triangle | quadrilateral => 2
  | tetrahedron | hexahedron => 3

def name : Cell → String
  | vertex => "vertex"
  | interval => "interval"
  | triangle => "triangle"
  | tetrahedron => "tetrahedron"
  | quadrilateral => "quadrilateral"
  | hexahedron => "hexahedron"

def isSimplex : Cell → Bool
  | quadrilateral | hexahedron => false
  | _ => true

/-- Coordinates of the vertices, each zero or one. -/
def corners : Cell → List (List Nat)
  | vertex => [[]]
  | interval => [[0], [1]]
  | triangle => [[0, 0], [1, 0], [0, 1]]
  | tetrahedron => [[0, 0, 0], [1, 0, 0], [0, 1, 0], [0, 0, 1]]
  | quadrilateral => [[0, 0], [1, 0], [0, 1], [1, 1]]
  | hexahedron =>
    [[0, 0, 0], [1, 0, 0], [0, 1, 0], [1, 1, 0], [0, 0, 1], [1, 0, 1], [0, 1, 1], [1, 1, 1]]

/-- The vertices of each facet. -/
def facets : Cell → List (List Nat)
  | vertex => []
  | interval => [[1], [0]]
  | triangle => [[1, 2], [0, 2], [0, 1]]
  | tetrahedron => [[1, 2, 3], [0, 2, 3], [0, 1, 3], [0, 1, 2]]
  | quadrilateral => [[0, 1], [0, 2], [1, 3], [2, 3]]
  | hexahedron =>
    [[0, 1, 2, 3], [0, 1, 4, 5], [0, 2, 4, 6], [1, 3, 5, 7], [2, 3, 6, 7], [4, 5, 6, 7]]

def numFacets (c : Cell) : Nat :=
  c.facets.length

/-- The reference cell of the facets. -/
def facetCell? : Cell → Option Cell
  | vertex => none
  | interval => some vertex
  | triangle | quadrilateral => some interval
  | tetrahedron => some triangle
  | hexahedron => some quadrilateral

theorem length_of_mem_corners {c : Cell} {v : List Nat} (h : v ∈ c.corners) :
    v.length = c.dimension := by
  revert v
  cases c <;> decide

/-! ### Coordinates -/

section Coordinates

variable {K : Type} [NatCast K]

/-- The vertices as points. -/
def vertices (K : Type) [NatCast K] (c : Cell) : List (List K) :=
  c.corners.map fun v => v.map Nat.cast

/-- The centroid of the vertices. -/
def midpoint (K : Type) [NatCast K] [Div K] (c : Cell) : List K :=
  (List.range c.dimension).map fun d =>
    (total (c.corners.map (·.getD d 0)) : K) / (c.corners.length : K)

end Coordinates

end Cell

/-- The affine map that takes `xi` to `origin + matrix * xi`. -/
structure FacetMap (K : Type) where
  origin : List K
  matrix : List (List K)

namespace FacetMap

variable {K : Type}

/-- The map into a cell of the given dimension whose origin is the first of the given vertices; one
column for each direction of the facet leads from it to the following vertices. -/
def ofCorners [NatCast K] [Sub K] (dimension : Nat) : List (List Nat) → FacetMap K
  | [] => ⟨[], []⟩
  | o :: rest =>
    { origin := o.map Nat.cast
      matrix := (List.range dimension).map fun d =>
        (rest.take (dimension - 1)).map fun v =>
          ((v.getD d 0 : Nat) : K) - ((o.getD d 0 : Nat) : K) }

def apply [Zero K] [Add K] [Mul K] (m : FacetMap K) (xi : List K) : List K :=
  m.origin.zipWith (fun o row => o + (row.zipWith (· * ·) xi).sum) m.matrix

end FacetMap

/-- The map onto a facet, if the cell has that facet. -/
def Cell.facetMap? (K : Type) [NatCast K] [Sub K] (c : Cell) (facet : Nat) : Option (FacetMap K) :=
  c.facets[facet]?.map fun vs =>
    .ofCorners c.dimension (vs.filterMap fun v => c.corners[v]?)

end WeakForm
