import Mathlib.Data.List.Basic
import WeakForm.Monomial

/-!
# Index maps, factor by factor

`Indexed.mapIndices` replaces the indices of a structure through the list of all of them.  Here it
is read factor by factor: for pairs and lists (`mapIndices_prod`, `mapIndices_list`), for the
factors of a product, and for monomials (`Monomial.mapIndices_eq`).

The second part is about monomials that agree in everything but their indices: each of them is the
other one refilled with its own indices (`Monomial.sameStructure_iff`).
-/

namespace WeakForm

open Indexed

namespace Indexed

variable {α β : Type} [Indexed α] [Indexed β]

theorem mapIndices_refill (f : Index → Index) (a : α) {is : List Index}
    (h : is.length = (indices a).length) : mapIndices f (refill a is) = refill a (is.map f) := by
  rw [mapIndices, indices_refill a is h, refill_refill a _ _ h (by rw [List.length_map, h])]

theorem mapIndices_congr {f g : Index → Index} {a : α} (h : ∀ i ∈ indices a, f i = g i) :
    mapIndices f a = mapIndices g a := by
  rw [mapIndices, mapIndices, List.map_congr_left h]

/-- A map that fixes all indices of a structure fixes the structure. -/
theorem mapIndices_eq_self {f : Index → Index} {a : α} (h : ∀ i ∈ indices a, f i = i) :
    mapIndices f a = a := by
  rw [mapIndices_congr (g := id) h, mapIndices_id]

theorem indices_list (as : List α) : indices as = as.flatMap indices := rfl

theorem mapIndices_prod (f : Index → Index) (p : α × β) :
    mapIndices f p = (mapIndices f p.1, mapIndices f p.2) := by
  show (refill p.1 (((indices p.1 ++ indices p.2).map f).take (indices p.1).length),
    refill p.2 (((indices p.1 ++ indices p.2).map f).drop (indices p.1).length)) = _
  rw [List.map_append, List.take_left' (by simp), List.drop_left' (by simp)]
  rfl

theorem mapIndices_list (f : Index → Index) (as : List α) :
    mapIndices f as = as.map (mapIndices f) := by
  show refillList as ((listIndices as).map f) = _
  induction as with
  | nil => rfl
  | cons a as ih =>
    have e : (listIndices (a :: as)).map f = (indices a).map f ++ (listIndices as).map f := by
      simp [listIndices]
    rw [e, refillList, List.take_left' (by simp), List.drop_left' (by simp), ih]
    rfl

end Indexed

/-! ### Factors -/

theorem mapIndices_transform (f : Index → Index) (t : Transform) :
    mapIndices f t = { t with reference := f t.reference, physical := f t.physical } := rfl

theorem mapIndices_coefficient (f : Index → Index) (c : Coefficient) :
    mapIndices f c = { c with index := f c.index } := rfl

theorem mapIndices_basisFunction (f : Index → Index) (v : BasisFunction) :
    mapIndices f v = { v with
      index := f v.index
      components := v.components.map f
      derivatives := v.derivatives.map fun d => { d with index := f d.index } } := by
  have h : mapIndices f (v.index, v.components, v.derivatives) =
      (f v.index, v.components.map f,
        v.derivatives.map fun d => { d with index := f d.index }) := by
    rw [mapIndices_prod, mapIndices_prod, mapIndices_list, mapIndices_list]
    rfl
  let t := mapIndices f (v.index, v.components, v.derivatives)
  change ({ v with index := t.1, components := t.2.1, derivatives := t.2.2 } : BasisFunction) = _
  rw [show t = _ from h]

theorem indices_transform (t : Transform) : indices t = [t.reference, t.physical] := rfl

theorem indices_coefficient (c : Coefficient) : indices c = [c.index] := rfl

/-! ### Monomials -/

namespace Monomial

variable {K : Type}

theorem indices_eq (m : Monomial K) :
    m.indices = Indexed.indices m.basisFunctions ++
      (Indexed.indices m.transforms ++ Indexed.indices m.coefficients) := rfl

theorem mapIndices_eq (f : Index → Index) (m : Monomial K) :
    mapIndices f m = { m with
      basisFunctions := m.basisFunctions.map (mapIndices f)
      transforms := m.transforms.map (mapIndices f)
      coefficients := m.coefficients.map (mapIndices f) } := by
  have h : mapIndices f (m.basisFunctions, m.transforms, m.coefficients) =
      (m.basisFunctions.map (mapIndices f), m.transforms.map (mapIndices f),
        m.coefficients.map (mapIndices f)) := by
    rw [mapIndices_prod, mapIndices_prod, mapIndices_list, mapIndices_list, mapIndices_list]
  let t := mapIndices f (m.basisFunctions, m.transforms, m.coefficients)
  change ({ m with basisFunctions := t.1, transforms := t.2.1, coefficients := t.2.2 } :
    Monomial K) = _
  rw [show t = _ from h]

theorem indices_mapIndices (f : Index → Index) (m : Monomial K) :
    (mapIndices f m).indices = m.indices.map f :=
  Indexed.indices_mapIndices f m

@[simp] theorem integral_refill (m : Monomial K) (is : List Index) :
    (refill m is).integral = m.integral := rfl

/-! ### Agreement up to indices -/

theorem skeleton_refill (m : Monomial K) {is : List Index} (h : is.length = m.indices.length) :
    (refill m is).skeleton = m.skeleton := by
  rw [skeleton, mapIndices_refill _ m h, skeleton, mapIndices]
  congr 1
  rw [List.map_const', List.map_const']
  exact congrArg (List.replicate · _) h

theorem refill_skeleton (m : Monomial K) {is : List Index} (h : is.length = m.indices.length) :
    refill m.skeleton is = refill m is := by
  rw [skeleton, mapIndices]
  exact refill_refill m _ is (by rw [List.length_map]) h

theorem length_indices_skeleton (m : Monomial K) :
    m.skeleton.indices.length = m.indices.length := by
  rw [skeleton, indices_mapIndices, List.length_map]

theorem indices_refill (m : Monomial K) {is : List Index} (h : is.length = m.indices.length) :
    (refill m is).indices = is :=
  Indexed.indices_refill m is h

/-- Monomials agree up to indices and constants exactly if one arises from the other by replacing
indices and the constant. -/
theorem sameStructure_iff {m n : Monomial K} :
    m.sameStructure n = true ↔ n.indices.length = m.indices.length ∧
      n = { refill m n.indices with constant := n.constant } := by
  rw [sameStructure, eqIgnoringConstant_iff]
  constructor
  · intro h
    have hl : n.indices.length = m.indices.length := by
      rw [← length_indices_skeleton n, h, ← length_indices_skeleton m]
      rfl
    refine ⟨hl, ?_⟩
    calc n = refill n.skeleton n.indices := by
          rw [refill_skeleton n rfl]
          exact (Indexed.refill_indices n).symm
      _ = { refill m.skeleton n.indices with constant := n.constant } := by
          rw [h]
          rfl
      _ = { refill m n.indices with constant := n.constant } := by rw [refill_skeleton m hl]
  · rintro ⟨hl, h⟩
    have e : n.skeleton = { (refill m n.indices).skeleton with constant := n.constant } :=
      congrArg skeleton h
    rw [e, skeleton_refill m hl]

end Monomial

end WeakForm
