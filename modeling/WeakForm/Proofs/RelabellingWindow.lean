import WeakForm.Proofs.Failure
import WeakForm.Proofs.Reordering
import WeakForm.Proofs.SlotPatterns
import WeakForm.Proofs.Termination

/-!
# The window of a relabelling

A relabelling by a permutation of length `n` goes through the identifiers `n, …, 2n - 1`.  A slot
that a monomial has in this window is taken along: `n + id` becomes the target of `id`.

Without such slots (`Monomial.AvoidsWindow`) a relabelling is the simultaneous renaming by the
permutation, keeps slots apart and is undone by the inverse permutation.  Otherwise it merges two
slots, so it is none of these (`Monomial.relabelSecondary_exact`).
-/

namespace WeakForm

open Indexed

namespace Permutation

/-- Where the permutation takes an identifier.  Those beyond its length stay. -/
def apply (p : Permutation) (id : ℕ) : ℕ :=
  p.targets.getD id id

/-- The permutation that takes each target back to its place. -/
def inverse (p : Permutation) : Permutation where
  targets := (List.range p.size).map p.targets.idxOf
  nodup := by
    refine (List.nodup_map_iff_inj_on List.nodup_range).mpr fun s hs t _ h => ?_
    exact (List.idxOf_inj (p.perm_range.symm.subset hs)).mp h
  lt_length := by
    rw [List.length_map, List.length_range, List.forall_mem_map]
    exact fun t ht => List.idxOf_lt_length_of_mem (p.perm_range.symm.subset ht)

variable {p : Permutation} {id : ℕ}

@[simp] theorem size_inverse (p : Permutation) : p.inverse.size = p.size := by
  rw [size, inverse, List.length_map, List.length_range]

theorem apply_of_le (h : p.size ≤ id) : p.apply id = id :=
  List.getD_eq_default _ _ h

theorem apply_lt (h : id < p.size) : p.apply id < p.size := by
  rw [apply, List.getD_eq_getElem _ _ h]
  exact p.lt_length _ (List.getElem_mem h)

theorem apply_injective (p : Permutation) : Function.Injective p.apply :=
  (relabelling p.targets p.perm_range).injective

theorem apply_inverse_eq (p : Permutation) :
    p.inverse.apply = (relabelling p.targets p.perm_range).symm := by
  funext target
  change p.inverse.apply target = if target < p.size then p.targets.idxOf target else target
  split_ifs with h
  · rw [apply, inverse, List.getD_eq_getElem _ _ (by rwa [List.length_map, List.length_range]),
      List.getElem_map, List.getElem_range]
  · exact apply_of_le (p.size_inverse.symm ▸ Nat.le_of_not_lt h)

@[simp] theorem inverse_apply_apply (p : Permutation) (id : ℕ) :
    p.inverse.apply (p.apply id) = id := by
  rw [apply_inverse_eq]
  exact (relabelling p.targets p.perm_range).symm_apply_apply id

@[simp] theorem apply_inverse_apply (p : Permutation) (id : ℕ) :
    p.apply (p.inverse.apply id) = id := by
  rw [apply_inverse_eq]
  exact (relabelling p.targets p.perm_range).apply_symm_apply id

/-! ### Where the moves lead -/

theorem moved_of_lt (h : id < p.size) : moved p.targets id = p.apply id := by
  rw [moved]
  exact congrArg (p.targets.getD · id) (if_pos h)

theorem moved_of_le (h : 2 * p.size ≤ id) : moved p.targets id = id := by
  rw [size] at h
  rw [moved]
  split_ifs
  · omega
  · exact List.getD_eq_default _ _ (by omega)

/-- A slot in the window is moved to where the slot is moved that goes through its place. -/
theorem moved_add (h : id < p.size) : moved p.targets (id + p.size) = p.apply id := by
  rw [moved, if_neg (by rw [size]; omega), apply, size, Nat.add_sub_cancel,
    List.getD_eq_getElem _ _ h, List.getD_eq_getElem _ _ h]

end Permutation

namespace Monomial

variable {K : Type} {m : Monomial K} {p : Permutation}

/-- No secondary slot has an identifier from `n` to `2n - 1`. -/
def AvoidsWindow (m : Monomial K) (n : ℕ) : Prop :=
  ∀ id ∈ m.ids .secondary, n ≤ id → 2 * n ≤ id

instance (m : Monomial K) (n : ℕ) : Decidable (m.AvoidsWindow n) :=
  inferInstanceAs (Decidable (∀ id ∈ m.ids .secondary, n ≤ id → 2 * n ≤ id))

theorem AvoidsWindow.moved_eq (h : m.AvoidsWindow p.size) {id : ℕ} (hid : id ∈ m.ids .secondary) :
    moved p.targets id = p.apply id := by
  by_cases hlt : id < p.size
  · exact Permutation.moved_of_lt hlt
  · have hle := Nat.le_of_not_lt hlt
    rw [Permutation.moved_of_le (h id hid hle), Permutation.apply_of_le hle]

/-- If there is a slot in the window, it is taken to the target of a slot below. -/
theorem exists_of_not_avoidsWindow (h : ¬ m.AvoidsWindow p.size) :
    ∃ id < p.size, id + p.size ∈ m.ids .secondary := by
  simp only [AvoidsWindow, not_forall, Nat.not_le] at h
  obtain ⟨x, hx, hle, hlt⟩ := h
  obtain ⟨id, rfl⟩ := Nat.exists_eq_add_of_le' hle
  exact ⟨id, by omega, hx⟩

/-! ### The relabelled monomial -/

theorem relabelSecondary_eq_error :
    (∃ e, m.relabelSecondary p = .error e) ↔ ∃ id < p.size, id ∉ m.ids .secondary := by
  have hok : (∃ n, m.relabelSecondary p = .ok n) ↔ ∀ id < p.size, id ∈ m.ids .secondary := by
    rw [← missingSecondary?_eq_none_iff, relabelSecondary]
    cases m.missingSecondary? p.size with
    | none => simp
    | some id => simp
  rw [exists_eq_error_iff, hok]
  simp only [not_forall, exists_prop]

theorem relabelSecondary_eq_ok (h : ∀ id < p.size, id ∈ m.ids .secondary) :
    m.relabelSecondary p = .ok (m.renameSecondary (moved p.targets)) := by
  rw [relabelSecondary, missingSecondary?_eq_none_iff.mpr h]
  exact congrArg Except.ok (moveSecondary_eq_moved p.lt_length m)

/-- All slots that the inverse relabels are there. -/
theorem mem_ids_moved (h : ∀ id < p.size, id ∈ m.ids .secondary) :
    ∀ id < p.inverse.size, id ∈ (m.renameSecondary (moved p.targets)).ids .secondary := by
  intro id hid
  have hlt := Permutation.apply_lt hid
  rw [Permutation.size_inverse] at hlt
  rw [renameSecondary, ids_rename]
  refine List.mem_map.mpr ⟨_, h _ hlt, ?_⟩
  exact (Permutation.moved_of_lt hlt).trans (p.apply_inverse_apply id)

/-! ### What the window decides -/

theorem renameSecondary_moved_iff :
    m.renameSecondary (moved p.targets) = m.renameSecondary p.apply ↔ m.AvoidsWindow p.size := by
  rw [renameSecondary_eq_iff]
  refine ⟨fun h => ?_, fun h id => h.moved_eq⟩
  by_contra hw
  obtain ⟨id, hlt, hid⟩ := exists_of_not_avoidsWindow hw
  have htarget := Permutation.apply_lt hlt
  rw [← Permutation.moved_add hlt, h _ hid, Permutation.apply_of_le (Nat.le_add_left _ _)]
    at htarget
  omega

/-- A slot in the window is merged with another one. -/
theorem samePattern_moved_iff (h : ∀ id < p.size, id ∈ m.ids .secondary) :
    SamePattern m.indices (m.renameSecondary (moved p.targets)).indices ↔
      m.AvoidsWindow p.size := by
  rw [renameSecondary, samePattern_rename_iff]
  constructor
  · intro hapart
    by_contra hw
    obtain ⟨id, hlt, hid⟩ := exists_of_not_avoidsWindow hw
    have := hapart .secondary (id + p.size) hid id (h id hlt)
      ((Permutation.moved_add hlt).trans (Permutation.moved_of_lt hlt).symm)
    omega
  · intro hw k x hx y hy hxy
    cases k with
    | primary | auxiliary => exact hxy
    | secondary =>
      refine p.apply_injective ?_
      rw [← hw.moved_eq hx, ← hw.moved_eq hy]
      exact hxy

theorem relabelSecondary_inverse_iff (h : ∀ id < p.size, id ∈ m.ids .secondary) :
    (m.renameSecondary (moved p.targets)).relabelSecondary p.inverse = .ok m ↔
      m.AvoidsWindow p.size := by
  have hback : (m.renameSecondary (moved p.targets)).relabelSecondary p.inverse = .ok m ↔
      ∀ id ∈ m.ids .secondary, moved p.inverse.targets (moved p.targets id) = id := by
    rw [relabelSecondary_eq_ok (mem_ids_moved h), Except.ok.injEq, renameSecondary_renameSecondary]
    conv_lhs => rhs; rw [← m.renameSecondary_id]
    exact renameSecondary_eq_iff
  rw [hback]
  constructor
  · -- what comes from the window does not get back there
    intro hid
    by_contra hw
    obtain ⟨id, hlt, hmem⟩ := exists_of_not_avoidsWindow hw
    have hsize := p.size_inverse
    have hin : p.apply id < p.inverse.size := hsize ▸ Permutation.apply_lt hlt
    have := hid _ hmem
    rw [Permutation.moved_add hlt, Permutation.moved_of_lt hin, p.inverse_apply_apply] at this
    omega
  · intro hw id hid
    rw [hw.moved_eq hid]
    by_cases hlt : id < p.size
    · have hin : p.apply id < p.inverse.size := p.size_inverse ▸ Permutation.apply_lt hlt
      rw [Permutation.moved_of_lt hin, p.inverse_apply_apply]
    · have hle := Nat.le_of_not_lt hlt
      rw [Permutation.apply_of_le hle]
      exact Permutation.moved_of_le (p.size_inverse ▸ hw id hid hle)

/-- Relabelling fails exactly if a slot to be relabelled does not occur.  Otherwise it takes the
slots below `n`, and those that are `n` beyond, to their targets.  It is the simultaneous renaming
by the permutation, it keeps slots apart, and it is undone by the inverse permutation, each of them
exactly if the monomial has no slot in the window. -/
theorem relabelSecondary_exact (p : Permutation) (m : Monomial K) :
    ((∃ e, m.relabelSecondary p = .error e) ↔ ∃ id < p.size, id ∉ m.ids .secondary) ∧
    ((∀ id < p.size, id ∈ m.ids .secondary) → ∃ n,
      m.relabelSecondary p = .ok n ∧ n = m.renameSecondary (moved p.targets) ∧
      (n = m.renameSecondary p.apply ↔ m.AvoidsWindow p.size) ∧
      (SamePattern m.indices n.indices ↔ m.AvoidsWindow p.size) ∧
      (n.relabelSecondary p.inverse = .ok m ↔ m.AvoidsWindow p.size)) :=
  ⟨relabelSecondary_eq_error, fun h => ⟨_, relabelSecondary_eq_ok h, rfl,
    renameSecondary_moved_iff, samePattern_moved_iff h, relabelSecondary_inverse_iff h⟩⟩

/-- The directions of the two derivatives are exchanged. -/
theorem relabelSecondary_exact_chainTerm :
    let m := Form.chainTerm (1 : Float) .triangle 0
    let p : Permutation := ⟨[1, 0], by decide, by decide⟩
    (∀ id < p.size, id ∈ m.ids .secondary) ∧ m.AvoidsWindow p.size ∧ ∃ n,
      m.relabelSecondary p = .ok n ∧ n = m.renameSecondary p.apply ∧
        SamePattern m.indices n.indices ∧ n.relabelSecondary p.inverse = .ok m := by
  intro m p
  have hmem : ∀ id < p.size, id ∈ m.ids .secondary := by decide
  have hw : m.AvoidsWindow p.size := by decide
  obtain ⟨n, hn, -, heq, hpattern, hback⟩ := (relabelSecondary_exact p m).2 hmem
  exact ⟨hmem, hw, n, hn, heq.mpr hw, hpattern.mpr hw, hback.mpr hw⟩

/-- The identity of length one moves slot `0` to slot `1`, which is there, and takes both back to
slot `0`. -/
theorem relabelSecondary_merges :
    let m := Form.chainTerm (1 : Float) .triangle 0
    let p : Permutation := ⟨[0], by decide, by decide⟩
    (∀ id < p.size, id ∈ m.ids .secondary) ∧ ∃ n, m.relabelSecondary p = .ok n ∧
      (m.ids .secondary = [0, 1, 0, 1] ∧ n.ids .secondary = [0, 0, 0, 0]) ∧
      n ≠ m.renameSecondary p.apply ∧ ¬ SamePattern m.indices n.indices ∧
      n.relabelSecondary p.inverse ≠ .ok m := by
  intro m p
  have hmem : ∀ id < p.size, id ∈ m.ids .secondary := by decide
  have hw : ¬ m.AvoidsWindow p.size := by decide
  refine ⟨hmem, _, relabelSecondary_eq_ok hmem, ⟨by decide, by decide⟩, ?_, ?_, ?_⟩
  · exact mt renameSecondary_moved_iff.mp hw
  · exact mt (samePattern_moved_iff hmem).mp hw
  · exact mt (relabelSecondary_inverse_iff hmem).mp hw

end Monomial

end WeakForm
