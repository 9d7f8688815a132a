import WeakForm.Enumeration

/-!
# Enumerations by recursion

Permutations and products as they are listed by `arrangements` and `cartesian`.  A search through
the permutations forms them only as far as needed.
-/

namespace WeakForm

/-- The first value of `f` on the arrangements, which are formed only as far as needed. -/
def findArrangement? {α β : Type} (f : List α → Option β) : Nat → List α → Option β
  | 0, _ => f []
  | n + 1, xs => (picks xs).findSome? fun (x, rest) => findArrangement? (fun l => f (x :: l)) n rest

theorem findArrangement?_eq {α β : Type} (f : List α → Option β) (n : Nat) (xs : List α) :
    findArrangement? f n xs = (arrangements n xs).findSome? f := by
  induction n generalizing f xs with
  | zero =>
    simp only [findArrangement?, arrangements, List.findSome?_cons, List.findSome?_nil]
    cases f [] <;> rfl
  | succ n ih =>
    simp only [findArrangement?, arrangements]
    induction picks xs with
    | nil => rfl
    | cons p ps ihp =>
      rw [List.findSome?_cons, List.flatMap_cons, List.findSome?_append, ihp, ih,
        List.findSome?_map]
      simp only [Function.comp_def]
      cases List.findSome? (fun l => f (p.1 :: l)) (arrangements n p.2) <;> rfl

instance : Enumeration where
  permutations items k := arrangements k items
  firstPermutation? f items k := findArrangement? f k items
  products := cartesian
  permutations_zero _ := rfl
  permutations_succ _ _ := rfl
  firstPermutation?_eq f items k := findArrangement?_eq f k items
  products_singleton _ := List.map_eq_flatMap.symm
  products_cons _ _ _ := rfl

open Enumeration

/-! The order of the documentation. -/

example : permutations [5, 6, 7] 2 = [[5, 6], [5, 7], [6, 5], [6, 7], [7, 5], [7, 6]] := by decide

example : products [[0, 1], [4, 5]] = [[0, 4], [0, 5], [1, 4], [1, 5]] := by decide

end WeakForm
