import WeakForm.Proofs.FirstOccurrences
import WeakForm.Proofs.Grids
import WeakForm.Proofs.SlotSums

/-!
# The axes of a reference tensor

Axis number `id` of a multi-index of first occurrences belongs to the slot with that identifier, and
its range fits (`FirstAxes.axesOf`).  Hence a sum over these slots, one after the other, is a sum
over the values of the multi-index (`AxesOf.sumOver_eq`).
-/

namespace WeakForm

open Indexed

/-! ### Assignments by lists of values -/

/-- Gives the slots of a list the values of another list. -/
def assign (a : Slot → ℕ) : List Slot → List ℕ → Slot → ℕ
  | s :: ss, x :: xs => assign (Function.update a s x) ss xs
  | _, _ => a

/-- The slots `0, …, n - 1` of one kind. -/
def firstSlots (k : SlotKind) (n : ℕ) : List Slot :=
  (List.range n).map (Slot.mk k)

theorem mem_firstSlots {k : SlotKind} {n : ℕ} {s : Slot} :
    s ∈ firstSlots k n ↔ s.kind = k ∧ s.id < n := by
  obtain ⟨l, id⟩ := s
  simp only [firstSlots, List.mem_map, List.mem_range, Slot.mk.injEq]
  constructor
  · rintro ⟨id', h, rfl, rfl⟩
    exact ⟨rfl, h⟩
  · rintro ⟨rfl, h⟩
    exact ⟨id, h, rfl, rfl⟩

theorem nodup_firstSlots (k : SlotKind) (n : ℕ) : (firstSlots k n).Nodup :=
  (List.nodup_map_iff fun _ _ h => (Slot.mk.inj h).2).mpr List.nodup_range

theorem assign_firstSlots (a : Slot → ℕ) (k : SlotKind) (xs : List ℕ) (s : Slot) :
    assign a (firstSlots k xs.length) xs s =
      if s.kind = k ∧ s.id < xs.length then xs.getD s.id 0 else a s := by
  have h : ∀ (xs : List ℕ) (start : ℕ) (a : Slot → ℕ),
      assign a ((List.range' start xs.length).map (Slot.mk k)) xs s =
        if s.kind = k ∧ start ≤ s.id ∧ s.id < start + xs.length then xs.getD (s.id - start) 0
        else a s := by
    intro xs
    induction xs with
    | nil =>
      intro start a
      rw [if_neg (by simp only [List.length_nil]; omega)]
      rfl
    | cons x xs ih =>
      intro start a
      rw [List.length_cons, List.range'_succ, List.map_cons, assign, ih]
      by_cases hk : s.kind = k ∧ start + 1 ≤ s.id ∧ s.id < start + 1 + xs.length
      · have hid : s.id - start = s.id - (start + 1) + 1 := by omega
        rw [if_pos hk, if_pos ⟨hk.1, by omega, by omega⟩, hid, List.getD_cons_succ]
      · rw [if_neg hk]
        by_cases hs : s = ⟨k, start⟩
        · subst hs
          simp
        · -- another slot, which is none of those that follow either
          rw [Function.update_of_ne hs, if_neg]
          rintro ⟨hkind, hle, hlt⟩
          have hne : s.id ≠ start := fun hid => hs (by rw [← hkind, ← hid])
          exact hk ⟨hkind, by omega, by omega⟩
  have h0 := h xs 0 a
  rw [← List.range_eq_range'] at h0
  rw [firstSlots, h0]
  simp only [Nat.zero_le, true_and, Nat.zero_add, Nat.sub_zero]

/-- A sum over slots, one after the other, is a sum over the choices of a value for each of them. -/
theorem sumOver_eq_sum_cartesian {M : Type} [AddCommMonoid M] {range : Slot → Finset ℕ}
    {ss : List Slot} {ls : List (List ℕ)}
    (h : List.Forall₂ (fun s l => l.Nodup ∧ range s = l.toFinset) ss ls)
    (F : (Slot → ℕ) → M) (a : Slot → ℕ) :
    sumOver range ss F a = ((cartesian ls).map fun xs => F (assign a ss xs)).sum := by
  induction h generalizing a with
  | nil => simp [sumOver, assign]
  | @cons s l ss ls hsl _ ih =>
    rw [sumOver_cons, hsl.2, List.sum_toFinset _ hsl.1, cartesian, List.map_flatMap,
      List.flatMap_def, List.sum_flatten, List.map_map]
    congr 1
    refine List.map_congr_left fun x _ => ?_
    rw [ih, Function.comp_apply, List.map_map]
    rfl

/-! ### Axes -/

/-- The multi-index has an axis for each slot of one kind, in order, and all ranges fit. -/
structure AxesOf (vs : List BasisFunction) (k : SlotKind) (m : MultiIndex) : Prop where
  mem_slotIds_iff : ∀ id, id ∈ slotIds vs k ↔ id < m.indices.length
  slot? : ∀ (id : ℕ) (i : Index), m.indices[id]? = some i → i.slot? = some ⟨k, id⟩
  mem : ∀ i ∈ m.indices, i ∈ indices vs
  lt : List.Forall₂ (fun i d => ∀ x ∈ i.range, x < d) m.indices m.dims

theorem FirstAxes.axesOf {vs : List BasisFunction} {k : SlotKind} {m : MultiIndex}
    (h : FirstAxes vs k m) : AxesOf vs k m := by
  have haxis : ∀ (id : ℕ) (i : Index), m.indices[id]? = some i →
      ∃ o, FirstOccurrence vs k id o ∧ o.index = i := by
    intro id i hi
    have hlt : id < m.dims.length := h.length_eq ▸ (List.getElem?_eq_some_iff.mp hi).1
    obtain ⟨o, ho, hoi, -⟩ := h.axis id i _ hi (List.getElem?_eq_getElem hlt)
    exact ⟨o, ho, hoi⟩
  refine ⟨h.mem_iff, fun id i hi => ?_, fun i hi => ?_, h.range_lt⟩
  · obtain ⟨o, ho, rfl⟩ := haxis id i hi
    exact Index.slot?_eq_some.mpr ho.slot
  · obtain ⟨id, hid⟩ := List.mem_iff_getElem?.mp hi
    obtain ⟨o, ho, rfl⟩ := haxis id i hid
    exact Occurrence.index_mem ho.mem

/-! ### Sums over axes -/

namespace AxesOf

variable {vs : List BasisFunction} {k : SlotKind} {m : MultiIndex}

theorem lt_of_mem (h : AxesOf vs k m) {id : ℕ} {r : List ℕ}
    (hi : Index.slot k id r ∈ indices vs) : id < m.indices.length :=
  (h.mem_slotIds_iff id).mp (List.mem_filterMap.mpr ⟨_, hi, by simp [Index.idOf?]⟩)

variable [Enumeration]

/-- Values in range of the slots are values of the multi-index. -/
theorem map_range_mem_values (h : AxesOf vs k m) {x : ℕ → ℕ}
    (hx : ∀ id r, Index.slot k id r ∈ indices vs → x id ∈ r) :
    (List.range m.indices.length).map x ∈ m.values := by
  rw [m.values_eq, mem_cartesian, List.forall₂_map_left_iff, List.forall₂_map_right_iff,
    List.forall₂_iff_get]
  refine ⟨List.length_range, fun id _ hid => ?_⟩
  have hslot := h.slot? id _ (List.getElem?_eq_getElem hid)
  have hmem := h.mem _ (List.getElem_mem hid)
  rw [List.get_eq_getElem, List.get_eq_getElem, List.getElem_range]
  generalize m.indices[id] = i at hslot hmem
  cases i with
  | slot l id' r =>
    cases hslot
    exact hx id r hmem
  | fixed v => cases hslot

/-- A sum over the slots of the axes is a sum over the values of the multi-index. -/
theorem sumOver_eq {M : Type} [AddCommMonoid M] (h : AxesOf vs k m) {is : List Index}
    (his : RangesAgree is) (hsub : indices vs ⊆ is) (hn : ∀ i ∈ is, i.range.Nodup)
    (F : (Slot → ℕ) → M) (a : Slot → ℕ) :
    sumOver (slotValues is) (firstSlots k m.indices.length) F a =
      (m.values.map fun xs => F (assign a (firstSlots k m.indices.length) xs)).sum := by
  rw [m.values_eq]
  refine sumOver_eq_sum_cartesian ?_ F a
  rw [firstSlots, List.forall₂_map_left_iff, List.forall₂_map_right_iff, List.forall₂_iff_get]
  refine ⟨List.length_range, fun id hid hid' => ?_⟩
  have hi := hsub (h.mem _ (List.getElem_mem hid'))
  have hslot := h.slot? id _ (List.getElem?_eq_getElem hid')
  rw [List.get_eq_getElem, List.get_eq_getElem, List.getElem_range]
  exact ⟨hn _ hi, slotValues_eq his hi hslot⟩

end AxesOf

end WeakForm
