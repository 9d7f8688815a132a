/-!
# Pairwise contraction

`contractPairwise` compares every item with all later ones, in order.  When two items combine, the
later one is dropped and the result takes the place of the earlier one, to be compared with the
items that remain.  The combination may fail or have other effects; it is called once for each pair
that is compared.
-/

namespace WeakForm

variable {α : Type} {m : Type → Type} [Monad m]

/-- Combines an item with each of the others that it combines with, from left to right; returns the
result and the others that are left. -/
def absorb (combine : α → α → m (Option α)) :
    α → (rest : List α) → m (α × { kept : List α // kept.length ≤ rest.length })
  | a, [] => pure (a, ⟨[], Nat.le_refl _⟩)
  | a, b :: rest => do
    match ← combine a b with
    | some c =>
      let (c, kept) ← absorb combine c rest
      pure (c, ⟨kept.val, Nat.le_succ_of_le kept.property⟩)
    | none =>
      let (a, kept) ← absorb combine a rest
      pure (a, ⟨b :: kept.val, Nat.succ_le_succ kept.property⟩)

/-- Combines items until every pair has been compared. -/
def contractPairwise (combine : α → α → m (Option α)) : List α → m (List α)
  | [] => pure []
  | a :: rest => do
    let (a, kept) ← absorb combine a rest
    have : kept.val.length < rest.length + 1 := Nat.lt_succ_of_le kept.property
    let others ← contractPairwise combine kept.val
    pure (a :: others)
termination_by items => items.length
decreasing_by exact this

/-- Pairwise contraction by a combination without effects. -/
def contractPairs (combine : α → α → Option α) (items : List α) : List α :=
  Id.run (contractPairwise (fun a b => pure (combine a b)) items)

end WeakForm
