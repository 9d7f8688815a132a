import WeakForm.Integrator
import WeakForm.Proofs.FacetMaps
import WeakForm.Proofs.Failure

/-!
# Points of quadrature rules

Every rule has a power of the number of points of its line rules, and its points have the
coordinates of the cell (`QuadratureRule.Fits`), those of a rule on a facet too.  So the two lists
of points of an integrator have the same length and can be read in step
(`ReferenceIntegrator.fits_build`).
-/

namespace WeakForm

namespace QuadratureRule

section Products

variable {K : Type}

/-- A rule has the given number of points, each with the given number of coordinates. -/
structure Fits (R : QuadratureRule K) (dimension size : ℕ) : Prop where
  length_point : ∀ q ∈ R.nodes, q.1.length = dimension
  length_nodes : R.nodes.length = size

theorem fits_ofLine (l : LineRule K) : (ofLine l).Fits 1 l.length where
  length_point := List.forall_mem_map.mpr fun _ _ => rfl
  length_nodes := List.length_map _

/-- Rules on pairs of nodes of line rules. -/
theorem fits_pairs {f : K × K → K × K → List K × K} {n : ℕ} (hf : ∀ p q, (f p q).1.length = n)
    (u v : LineRule K) :
    Fits ⟨u.flatMap fun p => v.map (f p)⟩ n (u.length * v.length) where
  length_point r hr := by
    obtain ⟨p, -, hr⟩ := List.mem_flatMap.mp hr
    obtain ⟨q, -, rfl⟩ := List.mem_map.mp hr
    exact hf p q
  length_nodes := by simp [List.length_flatMap]

/-- Rules on triples of nodes of line rules. -/
theorem fits_triples {f : K × K → K × K → K × K → List K × K} {n : ℕ}
    (hf : ∀ p q r, (f p q r).1.length = n) (u v w : LineRule K) :
    Fits ⟨u.flatMap fun p => v.flatMap fun q => w.map (f p q)⟩ n
      (u.length * (v.length * w.length)) where
  length_point r hr := by
    obtain ⟨p, -, hr⟩ := List.mem_flatMap.mp hr
    obtain ⟨q, -, hr⟩ := List.mem_flatMap.mp hr
    obtain ⟨r, -, rfl⟩ := List.mem_map.mp hr
    exact hf p q r
  length_nodes := by simp [List.length_flatMap]

variable [Mul K]

theorem fits_square (u v : LineRule K) : (square u v).Fits 2 (u.length * v.length) :=
  fits_pairs (f := fun p q => ([p.1, q.1], p.2 * q.2)) (fun _ _ => rfl) u v

theorem fits_cube (u v w : LineRule K) :
    (cube u v w).Fits 3 (u.length * (v.length * w.length)) :=
  fits_triples (f := fun p q r => ([p.1, q.1, r.1], p.2 * q.2 * r.2)) (fun _ _ _ => rfl) u v w

variable [One K] [Sub K]

theorem fits_collapsedSquare (u v : LineRule K) :
    (collapsedSquare u v).Fits 2 (u.length * v.length) :=
  fits_pairs (f := fun p q => ([p.1, q.1 * (1 - p.1)], p.2 * q.2)) (fun _ _ => rfl) u v

theorem fits_collapsedCube (u v w : LineRule K) :
    (collapsedCube u v w).Fits 3 (u.length * (v.length * w.length)) :=
  fits_triples (f := fun p q r => ([p.1, q.1 * (1 - p.1), r.1 * (1 - p.1) * (1 - q.1)],
    p.2 * q.2 * r.2)) (fun _ _ _ => rfl) u v w

end Products

section Cells

variable {K : Type} [Zero K] [One K] [Add K] [Sub K] [Mul K] [Div K] [NatCast K] [Numerics K]
variable [LE K] [DecidableLE K]

theorem length_unitGaussJacobi {n alpha : ℕ} {l : LineRule K}
    (h : unitGaussJacobi K n alpha = .ok l) : l.length = n := by
  obtain ⟨nodes, hnodes, h⟩ := bind_eq_ok.mp h
  obtain rfl := Except.ok.inj h
  unfold gaussJacobi at hnodes
  split at hnodes
  · cases hnodes
  · obtain rfl := Except.ok.inj hnodes
    rw [List.length_map, List.length_mergeSort, List.length_map, List.length_finRange]

/-- A rule on a cell has its points in the coordinates of the cell. -/
theorem fits_onCell {c : Cell} {n : ℕ} {R : QuadratureRule K} (h : onCell K c n = .ok R) :
    R.Fits c.dimension (n ^ c.dimension) := by
  cases c with
  | vertex =>
    obtain rfl := Except.ok.inj h
    exact ⟨List.forall_mem_singleton.mpr rfl, rfl⟩
  | interval =>
    obtain ⟨l, hl, h⟩ := bind_eq_ok.mp h
    obtain rfl := Except.ok.inj h
    have hfits := fits_ofLine l
    rw [length_unitGaussJacobi hl, ← pow_one n] at hfits
    exact hfits
  | quadrilateral =>
    obtain ⟨l, hl, h⟩ := bind_eq_ok.mp h
    obtain rfl := Except.ok.inj h
    have hfits := fits_square l l
    rw [length_unitGaussJacobi hl, ← pow_two] at hfits
    exact hfits
  | triangle =>
    obtain ⟨u, hu, h⟩ := bind_eq_ok.mp h
    obtain ⟨v, hv, h⟩ := bind_eq_ok.mp h
    obtain rfl := Except.ok.inj h
    have hfits := fits_collapsedSquare u v
    rw [length_unitGaussJacobi hu, length_unitGaussJacobi hv, ← pow_two] at hfits
    exact hfits
  | hexahedron =>
    obtain ⟨l, hl, h⟩ := bind_eq_ok.mp h
    obtain rfl := Except.ok.inj h
    have hfits := fits_cube l l l
    rw [length_unitGaussJacobi hl, ← pow_two, ← pow_succ'] at hfits
    exact hfits
  | tetrahedron =>
    obtain ⟨u, hu, h⟩ := bind_eq_ok.mp h
    obtain ⟨v, hv, h⟩ := bind_eq_ok.mp h
    obtain ⟨w, hw, h⟩ := bind_eq_ok.mp h
    obtain rfl := Except.ok.inj h
    have hfits := fits_collapsedCube u v w
    rw [length_unitGaussJacobi hu, length_unitGaussJacobi hv, length_unitGaussJacobi hw, ← pow_two,
      ← pow_succ'] at hfits
    exact hfits

theorem fits_forCell {c : Cell} {d : ℕ} {R : QuadratureRule K} (h : forCell K c d = .ok R) :
    R.Fits c.dimension (pointsForDegree d ^ c.dimension) :=
  fits_onCell (mapError_eq_ok.mp h)

/-- A rule on a facet has its points in the coordinates of the cell. -/
theorem fits_forFacet {c : Cell} {f d : ℕ} {R : QuadratureRule K}
    (h : forFacet K c f d = .ok R) :
    R.Fits c.dimension (pointsForDegree d ^ (c.dimension - 1)) := by
  unfold forFacet at h
  cases hr : c.facetCell? with
  | none =>
    rw [hr] at h
    cases h
  | some r =>
    rw [hr] at h
    cases hm : c.facetMap? K f with
    | none =>
      rw [hm] at h
      cases h
    | some m =>
      rw [hm] at h
      obtain ⟨rule, hrule, h⟩ := bind_eq_ok.mp h
      obtain rfl := Except.ok.inj h
      have hfits := fits_forCell hrule
      rw [(Cell.facetCell_dimension hr).1] at hfits
      refine ⟨fun q hq => ?_, by rw [List.length_map, hfits.length_nodes]⟩
      obtain ⟨q, -, rfl⟩ := List.mem_map.mp hq
      exact Cell.length_apply_facetMap hm q.1

end Cells

end QuadratureRule

/-! ### Integrators -/

section Integrators

variable {K : Type} [Zero K] [One K] [Add K] [Sub K] [Mul K] [Div K] [NatCast K] [Numerics K]
variable [LE K] [DecidableLE K]

/-- Both sides of an integrator have the same number of points, at least one, and each of them has
the coordinates of the cell. -/
theorem ReferenceIntegrator.fits_build {c : Cell} {domain : QuadratureDomain} {d : ℕ}
    {x : ReferenceIntegrator K} (h : build c domain d = .ok x) :
    x.cell = c ∧
      ∃ size, 0 < size ∧ x.plus.Fits c.dimension size ∧ x.minus.Fits c.dimension size := by
  have hpos : ∀ n, 0 < pointsForDegree d ^ n := fun n => Nat.pow_pos (Nat.succ_pos _)
  cases domain with
  | cell =>
    obtain ⟨R, hR, h⟩ := bind_eq_ok.mp h
    obtain rfl := Except.ok.inj h
    have hfits := QuadratureRule.fits_forCell hR
    exact ⟨rfl, _, hpos _, hfits, hfits⟩
  | exteriorFacet f =>
    obtain ⟨R, hR, h⟩ := bind_eq_ok.mp h
    obtain rfl := Except.ok.inj h
    have hfits := QuadratureRule.fits_forFacet hR
    exact ⟨rfl, _, hpos _, hfits, hfits⟩
  | interiorFacet p m =>
    obtain ⟨P, hP, h⟩ := bind_eq_ok.mp h
    obtain ⟨M, hM, h⟩ := bind_eq_ok.mp h
    obtain rfl := Except.ok.inj h
    exact ⟨rfl, _, hpos _, QuadratureRule.fits_forFacet hP, QuadratureRule.fits_forFacet hM⟩

end Integrators

end WeakForm
