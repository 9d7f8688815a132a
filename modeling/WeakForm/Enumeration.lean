/-!
# Enumerations

The permutations of a list and the products of several lists are enumerated by a library.
`Enumeration` holds its functions with what they are documented to list, by recursion: permutations
begin with each of the items in turn, and the last list of a product varies fastest.  Nothing is
known about the product of no lists at all.

`arrangements` and `cartesian` are lists with these properties.  They are all that an enumeration
can return (`Enumeration.permutations_eq`, `Enumeration.products_eq`).
-/

namespace WeakForm

/-! ### Arrangements -/

/-- Each element together with the others, in order. -/
def picks {α : Type} : List α → List (α × List α)
  | [] => []
  | x :: xs => (x, xs) :: (picks xs).map fun (y, ys) => (y, x :: ys)

/-- All lists of `n` of the given elements, in lexicographic order of their places. -/
def arrangements {α : Type} : Nat → List α → List (List α)
  | 0, _ => [[]]
  | n + 1, xs => (picks xs).flatMap fun (x, rest) => (arrangements n rest).map (x :: ·)

theorem mem_picks {α : Type} {xs rest : List α} {x : α} :
    (x, rest) ∈ picks xs ↔ ∃ as bs, xs = as ++ x :: bs ∧ rest = as ++ bs := by
  induction xs generalizing rest with
  | nil => simp [picks]
  | cons y ys ih =>
    rw [picks, List.mem_cons, List.mem_map]
    constructor
    · rintro (h | ⟨⟨z, zs⟩, hz, h⟩)
      · cases h
        exact ⟨[], _, rfl, rfl⟩
      · cases h
        obtain ⟨as, bs, rfl, rfl⟩ := ih.mp hz
        exact ⟨y :: as, bs, rfl, rfl⟩
    · rintro ⟨as, bs, h, rfl⟩
      cases as with
      | nil =>
        cases h
        exact Or.inl rfl
      | cons a as =>
        cases h
        exact Or.inr ⟨_, ih.mpr ⟨as, bs, rfl, rfl⟩, rfl⟩

/-- The arrangements of all elements are the permutations. -/
theorem mem_arrangements {α : Type} {n : Nat} {xs l : List α} (hn : xs.length = n) :
    l ∈ arrangements n xs ↔ l.Perm xs := by
  induction n generalizing xs l with
  | zero =>
    obtain rfl := List.length_eq_zero_iff.mp hn
    rw [arrangements, List.mem_singleton, List.perm_nil]
  | succ n ih =>
    simp only [arrangements, List.mem_flatMap, List.mem_map, Prod.exists, mem_picks]
    constructor
    · rintro ⟨x, _, ⟨as, bs, rfl, rfl⟩, l, hl, rfl⟩
      have hlen : (as ++ bs).length = n := by
        simp only [List.length_append, List.length_cons] at hn ⊢
        omega
      exact (((ih hlen).mp hl).cons x).trans List.perm_middle.symm
    · intro h
      cases l with
      | nil =>
        rw [List.nil_perm] at h
        subst h
        cases hn
      | cons x l =>
        obtain ⟨as, bs, rfl⟩ := List.append_of_mem (h.subset List.mem_cons_self)
        have hlen : (as ++ bs).length = n := by
          simp only [List.length_append, List.length_cons] at hn ⊢
          omega
        have hl : l.Perm (as ++ bs) := (h.trans List.perm_middle).cons_inv
        exact ⟨x, _, ⟨as, bs, rfl, rfl⟩, l, (ih hlen).mpr hl, rfl⟩

/-! ### Products -/

/-- All choices of one element from each list, the last list varying fastest. -/
def cartesian {α : Type} : List (List α) → List (List α)
  | [] => [[]]
  | xs :: rest => xs.flatMap fun x => (cartesian rest).map (x :: ·)

@[simp] theorem cartesian_nil {α : Type} : cartesian ([] : List (List α)) = [[]] := rfl

theorem mem_cartesian_cons {α : Type} {xs : List α} {rest : List (List α)} {l : List α} :
    l ∈ cartesian (xs :: rest) ↔ ∃ x ∈ xs, ∃ t ∈ cartesian rest, l = x :: t := by
  simp [cartesian, eq_comm]

theorem length_of_mem_cartesian {α : Type} {ls : List (List α)} {l : List α}
    (h : l ∈ cartesian ls) : l.length = ls.length := by
  induction ls generalizing l with
  | nil => simp_all [cartesian]
  | cons xs rest ih =>
    obtain ⟨x, _, t, ht, rfl⟩ := mem_cartesian_cons.1 h
    simp [ih ht]

/-! ### Enumerations -/

/-- The enumerations of a library, with what they list. -/
class Enumeration where
  /-- All lists of `k` of the items. -/
  permutations : List Nat → Nat → List (List Nat)
  /-- The first value of a function on the permutations, which are formed only as far as needed. -/
  firstPermutation? : {β : Type} → (List Nat → Option β) → List Nat → Nat → Option β
  /-- All lists of one item from each of the given lists. -/
  products : List (List Nat) → List (List Nat)
  permutations_zero : ∀ items, permutations items 0 = [[]]
  permutations_succ : ∀ items k, permutations items (k + 1) =
    (picks items).flatMap fun (x, rest) => (permutations rest k).map (x :: ·)
  firstPermutation?_eq : ∀ {β : Type} (f : List Nat → Option β) items k,
    firstPermutation? f items k = (permutations items k).findSome? f
  products_singleton : ∀ items, products [items] = items.map ([·])
  products_cons : ∀ items ls, ls ≠ [] →
    products (items :: ls) = items.flatMap fun x => (products ls).map (x :: ·)

namespace Enumeration

variable [Enumeration]

theorem permutations_eq (items : List Nat) (k : Nat) :
    permutations items k = arrangements k items := by
  induction k generalizing items with
  | zero => exact permutations_zero items
  | succ k ih => simp only [permutations_succ, arrangements, ih]

/-- The product of one list is no exception to the recursion. -/
theorem products_eq {ls : List (List Nat)} (h : ls ≠ []) : products ls = cartesian ls := by
  induction ls with
  | nil => exact absurd rfl h
  | cons items ls ih =>
    by_cases hls : ls = []
    · subst hls
      rw [products_singleton, cartesian, List.map_eq_flatMap]
      rfl
    · rw [products_cons _ _ hls, ih hls, cartesian]

end Enumeration

end WeakForm
