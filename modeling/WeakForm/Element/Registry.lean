import WeakForm.Element

/-!
# The element registry

A registry hands out one handle for each signature.  Identifiers count the elements in order of
first registration, so the element with identifier `n` is the `n`-th of the list, and a table leads
from the signatures to the identifiers; both are part of the type.
-/

namespace WeakForm

/-- Registered elements in order of their identifiers, and a table of their signatures. -/
structure ElementRegistry where
  elements : List Element := []
  ids : List (String × Nat) := []
  id_eq : ∀ n (h : n < elements.length), elements[n].id = n := by simp
  lookup_ids : ∀ text n, ids.lookup text = some n ↔
    ∃ h, elements[n]? = some h ∧ h.space.signature = text := by simp

namespace ElementRegistry

def size (r : ElementRegistry) : Nat :=
  r.elements.length

/-- The handle with the given identifier. -/
def get? (r : ElementRegistry) (id : Nat) : Option Element :=
  r.elements[id]?

/-- The identifier of the registered element with the signature of `e`. -/
def find? (r : ElementRegistry) (e : FiniteElement) : Option Nat :=
  r.ids.lookup e.signature

theorem lt_of_find? {r : ElementRegistry} {e : FiniteElement} {id : Nat}
    (h : r.find? e = some id) : id < r.elements.length := by
  obtain ⟨_, hget, _⟩ := (r.lookup_ids _ _).1 h
  exact (List.getElem?_eq_some_iff.1 hget).1

theorem exists_getElem?_concat {α : Type} {l : List α} {a : α} {n : Nat} {P : α → Prop} :
    (∃ x, (l ++ [a])[n]? = some x ∧ P x) ↔ (∃ x, l[n]? = some x ∧ P x) ∨ n = l.length ∧ P a := by
  rcases Nat.lt_trichotomy n l.length with hlt | rfl | hgt
  · have hne : n ≠ l.length := by omega
    simp [List.getElem?_append_left hlt, hne]
  · simp
  · have hne : n ≠ l.length := by omega
    simp [List.getElem?_eq_none (l := l ++ [a]) (i := n) (by simp; omega),
      List.getElem?_eq_none (Nat.le_of_lt hgt), hne]

/-- Appends an element with a new signature under the next identifier. -/
def append (r : ElementRegistry) (e : FiniteElement) (hnew : r.find? e = none) :
    ElementRegistry where
  elements := r.elements ++ [⟨r.size, e⟩]
  ids := (e.signature, r.size) :: r.ids
  id_eq n h := by
    rw [List.getElem_append]
    split
    · exact r.id_eq n _
    · simp only [List.length_append, List.length_singleton] at h
      simp only [List.getElem_singleton, size]
      omega
  lookup_ids text n := by
    have hold := r.lookup_ids text n
    rw [exists_getElem?_concat, ← hold, List.lookup_cons]
    by_cases htext : text = e.signature
    · subst htext
      have hnone : r.ids.lookup e.signature = none := hnew
      simp [hnone, size, eq_comm]
    · simp [beq_eq_false_iff_ne.2 htext, Ne.symm htext]

/-- The handle of the element and the registry that holds it.  An element whose signature is known
keeps its first handle. -/
def register (r : ElementRegistry) (e : FiniteElement) : Element × ElementRegistry :=
  match h : r.find? e with
  | some id => (r.elements.get ⟨id, lt_of_find? h⟩, r)
  | none => (⟨r.size, e⟩, r.append e h)

theorem id_of_get? {r : ElementRegistry} {id : Nat} {h : Element} (hh : r.get? id = some h) :
    h.id = id := by
  obtain ⟨hlt, rfl⟩ := List.getElem?_eq_some_iff.1 hh
  exact r.id_eq id hlt

/-- Handles that a registry holds are from one registry. -/
theorem oneRegistry {r : ElementRegistry} {handles : List Element}
    (h : ∀ e ∈ handles, r.get? e.id = some e) : Element.OneRegistry handles := by
  intro e he f hf hid
  exact Option.some.inj ((h e he).symm.trans (hid ▸ h f hf))

end ElementRegistry

end WeakForm
