import WeakForm.Form

/-!
# The summation convention

In a balanced monomial every slot occurs once or twice, with the same range at both places.
`Monomial.imbalance?` finds the first slot that breaks the convention, in order of kind and
identifier; it finds none exactly if the monomial is balanced (`imbalance?_eq_none_iff`).
-/

namespace WeakForm

/-- What is wrong with a slot. -/
inductive Defect where
  | repeated (count : Nat)
  | rangesDiffer
deriving DecidableEq, Inhabited

/-- A monomial and a slot that breaks the summation convention in it. -/
structure Imbalance (K : Type) where
  monomial : Monomial K
  index : Index
  defect : Defect

/-- What is wrong with a slot that occurs as these indices. -/
def defect? (occurrences : List Index) : Option (Index × Defect) :=
  match occurrences with
  | [] => none
  | first :: rest =>
    if occurrences.length > 2 then some (first, .repeated occurrences.length)
    else if rest.any fun i => i.range != first.range then some (first, .rangesDiffer)
    else none

namespace Monomial

variable {K : Type}

/-- The indices that denote the slot of the given kind and identifier. -/
def occurrences (m : Monomial K) (k : SlotKind) (id : Nat) : List Index :=
  m.indices.filter fun i => i.idOf? k == some id

/-- The first slot, in order of kind and identifier, that breaks the summation convention. -/
def imbalance? (m : Monomial K) : Option (Imbalance K) :=
  [SlotKind.primary, .secondary, .auxiliary].findSome? fun k =>
    (unionRange (m.ids k) []).findSome? fun id =>
      (defect? (m.occurrences k id)).map fun (index, defect) => { monomial := m, index, defect }

/-- Every slot occurs at most twice, always with the same range. -/
def Balanced (m : Monomial K) : Prop :=
  ∀ k id, (m.occurrences k id).length ≤ 2 ∧
    ∀ i ∈ m.occurrences k id, ∀ j ∈ m.occurrences k id, i.range = j.range

end Monomial

theorem defect?_eq_none_iff (is : List Index) :
    defect? is = none ↔ is.length ≤ 2 ∧ ∀ i ∈ is, ∀ j ∈ is, i.range = j.range := by
  cases is with
  | nil => simp [defect?]
  | cons first rest =>
    simp only [defect?]
    split
    · rename_i h
      simp only [reduceCtorEq, false_iff, not_and]
      omega
    · rename_i h
      split
      · rename_i hany
        obtain ⟨i, hi, hne⟩ := List.any_eq_true.1 hany
        simp only [reduceCtorEq, false_iff, not_and]
        intro _ hall
        simp [hall i (List.mem_cons_of_mem _ hi) first List.mem_cons_self] at hne
      · rename_i hany
        have hr : ∀ i ∈ first :: rest, i.range = first.range := by
          intro i hi
          rcases List.mem_cons.1 hi with rfl | hi
          · rfl
          · exact Decidable.byContradiction fun hne =>
              hany (List.any_eq_true.2 ⟨i, hi, by simpa using hne⟩)
        exact ⟨fun _ => ⟨by omega, fun i hi j hj => (hr i hi).trans (hr j hj).symm⟩, fun _ => rfl⟩

namespace Monomial

variable {K : Type}

theorem mem_ids_iff {m : Monomial K} {k : SlotKind} {id : Nat} :
    id ∈ m.ids k ↔ m.occurrences k id ≠ [] := by
  simp [ids, occurrences, List.filter_eq_nil_iff]

theorem imbalance?_eq_none_iff (m : Monomial K) : m.imbalance? = none ↔ m.Balanced := by
  have hk : ∀ k : SlotKind, k ∈ [SlotKind.primary, .secondary, .auxiliary] := by
    intro k
    cases k <;> simp
  simp only [imbalance?, List.findSome?_eq_none_iff, Option.map_eq_none_iff, defect?_eq_none_iff,
    mem_unionRange, List.not_mem_nil, or_false, Balanced]
  constructor
  · intro h k id
    by_cases hid : id ∈ m.ids k
    · exact h k (hk k) id hid
    · have : m.occurrences k id = [] := by simpa [mem_ids_iff] using hid
      simp [this]
  · intro h k _ id _
    exact h k id

end Monomial

/-- The first monomial that breaks the summation convention, with its position. -/
def Form.imbalance? {K : Type} (f : Form K) : Option (Imbalance K × Nat) :=
  f.monomials.zipIdx.findSome? fun (m, position) => m.imbalance?.map (·, position)

end WeakForm
