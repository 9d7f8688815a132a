import Mathlib.Data.List.Infix
import WeakForm.Proofs.Renumbering

/-!
# Numbering in one scan

Slots can be numbered while they are read: an identifier that is met for the first time gets the
next number, and a table keeps the numbers that have been given.  The identifiers are overwritten
as the scan goes on, and the table for primary slots is handed from one monomial to the next.

A table only grows at its end, so a number once given stays the same (`prefix_scanIndices`), and
each index gets the number that its identifier has in the table at the end of the scan
(`scanIndices_eq_map`).  At the end a table holds the distinct identifiers in order of first
occurrence (`foldl_enter`), so the scan gives the same numbers as `Form.renumber`
(`Form.numberInOrder_eq`).
-/

namespace WeakForm

open Indexed

/-! ### Tables -/

/-- Enters an identifier at the end of a table, unless it is there.  Its number is its place. -/
def enter (table : List ℕ) (id : ℕ) : List ℕ :=
  if id ∈ table then table else table ++ [id]

theorem prefix_enter (table : List ℕ) (id : ℕ) : table <+: enter table id := by
  unfold enter
  split
  · exact List.prefix_rfl
  · exact List.prefix_append table [id]

theorem mem_enter_self (table : List ℕ) (id : ℕ) : id ∈ enter table id := by
  unfold enter
  split
  · assumption
  · exact List.mem_append_right _ (List.mem_singleton_self id)

theorem prefix_foldl_enter (table ids : List ℕ) : table <+: ids.foldl enter table := by
  induction ids generalizing table with
  | nil => exact List.prefix_rfl
  | cons id ids ih => exact (prefix_enter table id).trans (ih _)

/-- Entered one after the other, identifiers stand in the table in order of first occurrence. -/
theorem foldl_enter (ids : List ℕ) : ids.foldl enter [] = ids.eraseDups := by
  induction ids using List.reverseRecOn with
  | nil => rfl
  | append_singleton ids id ih =>
    rw [List.foldl_append, ih, List.foldl_cons, List.foldl_nil, List.eraseDups_append]
    by_cases h : id ∈ ids
    · simp [enter, List.removeAll, h]
    · simp [enter, List.removeAll, h, List.eraseDups_cons]

/-! ### Scans of indices -/

section

variable {κ : Type} [DecidableEq κ] (table? : Index → Option κ) (write : ℕ → Index → Index)

/-- Replaces the indices of a list one after the other.  The identifier of an index is entered into
the table that `table?` names, if any, and its number there is written to the index. -/
def scanIndices : (κ → List ℕ) → List Index → List Index × (κ → List ℕ)
  | tables, [] => ([], tables)
  | tables, i :: is =>
    match table? i with
    | none =>
      let (js, final) := scanIndices tables is
      (i :: js, final)
    | some k =>
      let table := enter (tables k) i.value
      let (js, final) := scanIndices (Function.update tables k table) is
      (write (table.idxOf i.value) i :: js, final)

/-- The identifiers that are entered into a table, in order of the indices. -/
def entries (k : κ) (is : List Index) : List ℕ :=
  (is.filter fun i => table? i = some k).map Index.value

/-- The index with its number in the given tables. -/
def numberFrom (tables : κ → List ℕ) (i : Index) : Index :=
  match table? i with
  | none => i
  | some k => write ((tables k).idxOf i.value) i

theorem tables_scanIndices (tables : κ → List ℕ) (is : List Index) (k : κ) :
    (scanIndices table? write tables is).2 k = (entries table? k is).foldl enter (tables k) := by
  induction is generalizing tables with
  | nil => rfl
  | cons i is ih =>
    simp only [entries] at ih
    rw [scanIndices, entries, List.filter_cons]
    cases hi : table? i with
    | none => simpa using ih tables
    | some l =>
      dsimp only
      rw [ih]
      by_cases hl : l = k
      · subst hl
        simp
      · simp [hl, Function.update_of_ne (Ne.symm hl)]

/-- What is in a table stays at its place. -/
theorem prefix_scanIndices (tables : κ → List ℕ) (is : List Index) (k : κ) :
    tables k <+: (scanIndices table? write tables is).2 k := by
  rw [tables_scanIndices]
  exact prefix_foldl_enter _ _

/-- Each index gets the number of its identifier at the end of the scan, and still has it in tables
that have grown since. -/
theorem scanIndices_eq_map (final : κ → List ℕ) {tables : κ → List ℕ} {is : List Index}
    (h : ∀ k, (scanIndices table? write tables is).2 k <+: final k) :
    (scanIndices table? write tables is).1 = is.map (numberFrom table? write final) := by
  induction is generalizing tables with
  | nil => rfl
  | cons i is ih =>
    rw [List.map_cons, numberFrom]
    rw [scanIndices] at h ⊢
    cases hi : table? i with
    | none =>
      rw [hi] at h
      exact congrArg (i :: ·) (ih h)
    | some k =>
      rw [hi] at h
      dsimp only at h ⊢
      have hprefix : enter (tables k) i.value <+: final k := by
        refine List.IsPrefix.trans ?_ (h k)
        have := prefix_scanIndices table? write
          (Function.update tables k (enter (tables k) i.value)) is k
        rwa [Function.update_self] at this
      rw [ih h, hprefix.idxOf_eq_of_mem (mem_enter_self _ _)]

end

/-! ### Monomials and forms -/

namespace Monomial

variable {K : Type}

/-- Numbers the slots of a monomial in one scan.  The table of primary slots is the one that earlier
monomials have left, and it is returned for the later ones; the other tables start empty. -/
def numberInOrder (primary : List ℕ) (m : Monomial K) : Monomial K × List ℕ :=
  let start : SlotKind → List ℕ := fun
    | .primary => primary
    | _ => []
  let (is, final) :=
    scanIndices Index.kind? (fun n => Index.rename (slotRenaming fun _ _ => n)) start m.indices
  (refill m is, final .primary)

theorem entries_kind? (m : Monomial K) (k : SlotKind) :
    entries Index.kind? k m.indices = m.ids k := by
  rw [entries, ids, ← List.filterMap_eq_map, List.filterMap_filter]
  apply List.filterMap_congr
  intro i _
  cases i with
  | fixed v => simp [Index.kind?, Index.idOf?]
  | slot l id r => simp [Index.kind?, Index.idOf?, Index.value]

theorem primary_numberInOrder (primary : List ℕ) (m : Monomial K) :
    (m.numberInOrder primary).2 = (m.ids .primary).foldl enter primary := by
  rw [numberInOrder]
  dsimp only
  rw [tables_scanIndices, entries_kind?]

theorem numberInOrder_eq {primary final : List ℕ} {m : Monomial K}
    (h : (m.numberInOrder primary).2 <+: final) :
    (m.numberInOrder primary).1 = m.renumber final := by
  let tables : SlotKind → List ℕ := fun
    | .primary => final
    | k => (m.ids k).eraseDups
  rw [numberInOrder] at h ⊢
  dsimp only at h ⊢
  rw [scanIndices_eq_map _ _ tables]
  · apply mapIndices_congr
    intro i _
    cases i with
    | fixed v => rfl
    | slot k id r => cases k <;> rfl
  · intro k
    cases k with
    | primary => exact h
    | secondary | auxiliary =>
      rw [tables_scanIndices, entries_kind?]
      dsimp only [tables]
      rw [foldl_enter]

end Monomial

namespace Form

variable {K : Type}

/-- Numbers the slots of monomials one after the other. -/
def numberFromTable : List ℕ → List (Monomial K) → List (Monomial K)
  | _, [] => []
  | primary, m :: ms =>
    let (n, primary) := m.numberInOrder primary
    n :: numberFromTable primary ms

/-- Numbers the slots of a form in one scan. -/
def numberInOrder (f : Form K) : Form K :=
  ⟨numberFromTable [] f.monomials⟩

theorem numberFromTable_eq {primary final : List ℕ} {ms : List (Monomial K)}
    (h : (ms.flatMap (·.ids .primary)).foldl enter primary <+: final) :
    numberFromTable primary ms = ms.map (Monomial.renumber final) := by
  induction ms generalizing primary with
  | nil => rfl
  | cons m ms ih =>
    rw [List.flatMap_cons, List.foldl_append, ← m.primary_numberInOrder] at h
    rw [numberFromTable, List.map_cons]
    dsimp only
    rw [ih h, Monomial.numberInOrder_eq ((prefix_foldl_enter _ _).trans h)]

/-- One scan gives every slot its number. -/
theorem numberInOrder_eq (f : Form K) : f.numberInOrder = f.renumber := by
  refine congrArg Form.mk (numberFromTable_eq ?_)
  rw [foldl_enter]
  exact List.prefix_rfl

end Form

end WeakForm
