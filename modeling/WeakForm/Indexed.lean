import WeakForm.Index

/-!
# Index slots of a structure

An indexed structure holds a number of indices in a fixed order.  `indices` lists them and
`refill` puts a list of indices in their place; the three laws say that the two are inverse to each
other and that only the last refill counts.  Renumbering, renaming, contraction and comparison all
go through these two functions, so they agree on the order of the indices by construction.
-/

namespace WeakForm

/-- A structure whose indices can be listed and replaced in order. -/
class Indexed (α : Type) where
  indices : α → List Index
  refill : α → List Index → α
  refill_indices : ∀ a, refill a (indices a) = a
  indices_refill : ∀ a is, is.length = (indices a).length → indices (refill a is) = is
  refill_refill : ∀ a is js, is.length = (indices a).length → js.length = (indices a).length →
    refill (refill a is) js = refill a js

namespace Indexed

variable {α β : Type} [Indexed α] [Indexed β]

/-- Replaces each index by its image. -/
def mapIndices (f : Index → Index) (a : α) : α :=
  refill a ((indices a).map f)

@[simp] theorem indices_mapIndices (f : Index → Index) (a : α) :
    indices (mapIndices f a) = (indices a).map f :=
  indices_refill a _ (by simp)

@[simp] theorem mapIndices_id (a : α) : mapIndices id a = a := by
  simp [mapIndices, refill_indices]

theorem mapIndices_mapIndices (f g : Index → Index) (a : α) :
    mapIndices g (mapIndices f a) = mapIndices (g ∘ f) a := by
  rw [mapIndices, indices_mapIndices, mapIndices, refill_refill _ _ _ (by simp) (by simp),
    mapIndices, List.map_map]

/-! ### Lists -/

/-- The indices of a list, element by element. -/
def listIndices (as : List α) : List Index :=
  as.flatMap indices

/-- Gives each element as many of the indices as it holds. -/
def refillList : List α → List Index → List α
  | [], _ => []
  | a :: as, is =>
    refill a (is.take (indices a).length) :: refillList as (is.drop (indices a).length)

theorem refillList_listIndices (as : List α) : refillList as (listIndices as) = as := by
  induction as with
  | nil => rfl
  | cons a as ih =>
    simp only [listIndices] at ih
    simp [refillList, listIndices, refill_indices, ih]

theorem listIndices_refillList (as : List α) (is : List Index)
    (h : is.length = (listIndices as).length) : listIndices (refillList as is) = is := by
  induction as generalizing is with
  | nil => simp_all [listIndices, refillList]
  | cons a as ih =>
    simp only [listIndices, List.flatMap_cons, List.length_append] at h
    have ha : indices (refill a (is.take (indices a).length)) = is.take (indices a).length :=
      indices_refill a _ (by rw [List.length_take]; omega)
    have has := ih (is.drop (indices a).length) (by
      rw [List.length_drop]; simp only [listIndices]; omega)
    simp only [listIndices] at has
    simp [refillList, listIndices, ha, has]

theorem refillList_refillList (as : List α) (is js : List Index)
    (h : is.length = (listIndices as).length) (h' : js.length = (listIndices as).length) :
    refillList (refillList as is) js = refillList as js := by
  induction as generalizing is js with
  | nil => rfl
  | cons a as ih =>
    simp only [listIndices, List.flatMap_cons, List.length_append] at h h'
    have hl : (is.take (indices a).length).length = (indices a).length := by
      rw [List.length_take]; omega
    have hl' : (js.take (indices a).length).length = (indices a).length := by
      rw [List.length_take]; omega
    have ha := indices_refill a _ hl
    have has := ih (is.drop (indices a).length) (js.drop (indices a).length)
      (by rw [List.length_drop]; simp only [listIndices]; omega)
      (by rw [List.length_drop]; simp only [listIndices]; omega)
    simp only [refillList, ha, hl, has, refill_refill a _ _ hl hl']

instance : Indexed (List α) where
  indices := listIndices
  refill := refillList
  refill_indices := refillList_listIndices
  indices_refill := listIndices_refillList
  refill_refill := refillList_refillList

/-! ### Pairs -/

instance : Indexed (α × β) where
  indices p := indices p.1 ++ indices p.2
  refill p is :=
    (refill p.1 (is.take (indices p.1).length), refill p.2 (is.drop (indices p.1).length))
  refill_indices p := by simp [refill_indices]
  indices_refill p is h := by
    rw [List.length_append] at h
    simp only
    rw [indices_refill p.1 _ (by rw [List.length_take]; omega),
      indices_refill p.2 _ (by rw [List.length_drop]; omega), List.take_append_drop]
  refill_refill p is js h h' := by
    rw [List.length_append] at h h'
    have hl : (is.take (indices p.1).length).length = (indices p.1).length := by
      rw [List.length_take]; omega
    have hr : (is.drop (indices p.1).length).length = (indices p.2).length := by
      rw [List.length_drop]; omega
    have hl' : (js.take (indices p.1).length).length = (indices p.1).length := by
      rw [List.length_take]; omega
    have hr' : (js.drop (indices p.1).length).length = (indices p.2).length := by
      rw [List.length_drop]; omega
    simp only [indices_refill p.1 _ hl, hl, refill_refill p.1 _ _ hl hl',
      refill_refill p.2 _ _ hr hr']

end Indexed

end WeakForm
