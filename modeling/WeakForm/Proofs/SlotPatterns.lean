import WeakForm.Proofs.RenamingInvariance

/-!
# Patterns of slots

The pattern of a list of indices says which of its places hold the same slot.  It is kept by a map
of indices that neither joins nor parts slots of the list (`samePattern_map_iff`), so a renaming
keeps the pattern of a monomial exactly if it keeps its slots apart
(`Monomial.samePattern_rename_iff`).

Conversely, a numbering with the same pattern as another one is a renaming of it
(`exists_renaming`).
-/

namespace WeakForm

open Indexed

/-- Two places of the second list hold the same slot, or the same literal, exactly if these places
of the first list do. -/
def SamePattern (is js : List Index) : Prop :=
  ∀ (a b : ℕ) (i j i' j' : Index), is[a]? = some i → is[b]? = some j →
    js[a]? = some i' → js[b]? = some j' → (i'.sameSlot j' = true ↔ i.sameSlot j = true)

theorem samePattern_map_iff {is : List Index} {f : Index → Index} :
    SamePattern is (is.map f) ↔
      ∀ i ∈ is, ∀ j ∈ is, ((f i).sameSlot (f j) = true ↔ i.sameSlot j = true) := by
  constructor
  · intro h i hi j hj
    obtain ⟨a, ha⟩ := List.mem_iff_getElem?.mp hi
    obtain ⟨b, hb⟩ := List.mem_iff_getElem?.mp hj
    apply h a b i j _ _ ha hb
    · rw [List.getElem?_map, ha, Option.map_some]
    · rw [List.getElem?_map, hb, Option.map_some]
  · intro h a b i j i' j' ha hb ha' hb'
    rw [List.getElem?_map, ha, Option.map_some, Option.some.injEq] at ha'
    rw [List.getElem?_map, hb, Option.map_some, Option.some.injEq] at hb'
    rw [← ha', ← hb']
    exact h i (List.mem_of_getElem? ha) j (List.mem_of_getElem? hb)

/-- A numbering of places that tells them apart as another one does is a renaming of it. -/
theorem exists_renaming {ι : Type} {u v : ι → Option ℕ}
    (hsome : ∀ a, (v a).isSome = (u a).isSome)
    (h : ∀ a b x y x' y', u a = some x → u b = some y → v a = some x' → v b = some y' →
      (x' = y' ↔ x = y)) :
    ∃ ρ : ℕ → ℕ, (∀ a, v a = (u a).map ρ) ∧
      ∀ a b x y, u a = some x → u b = some y → ρ x = ρ y → x = y := by
  -- all places with one number have one new number
  have hex : ∀ x, ∃ x', ∀ a, u a = some x → v a = some x' := by
    intro x
    by_cases hx : ∃ b, u b = some x
    · obtain ⟨b, hb⟩ := hx
      obtain ⟨x', hx'⟩ := Option.isSome_iff_exists.mp ((hsome b).trans (by rw [hb]; rfl))
      refine ⟨x', fun a ha => ?_⟩
      obtain ⟨y', hy'⟩ := Option.isSome_iff_exists.mp ((hsome a).trans (by rw [ha]; rfl))
      rw [hy', (h a b x x y' x' ha hb hy' hx').mpr rfl]
    · exact ⟨0, fun a ha => absurd ⟨a, ha⟩ hx⟩
  choose ρ hρ using hex
  refine ⟨ρ, fun a => ?_, fun a b x y ha hb hxy => ?_⟩
  · cases ha : u a with
    | some x => exact hρ x a ha
    | none =>
      have hnone := hsome a
      rw [ha] at hnone
      exact Option.isNone_iff_eq_none.mp (Option.isSome_eq_false_iff.mp hnone)
  · exact (h a b x y _ _ ha hb (hρ x a ha) (hρ y b hb)).mp hxy

/-- Structures that agree after a map of their indices differ in their indices only. -/
theorem Indexed.eq_refill_of_mapIndices_eq {α : Type} [Indexed α] {f : Index → Index} {a b : α}
    (h : mapIndices f b = mapIndices f a) : b = refill a (indices b) := by
  have hl : (indices b).length = (indices a).length := by
    have := congrArg (fun c => (indices c).length) h
    simpa using this
  calc b = refill b (indices b) := (refill_indices b).symm
    _ = refill (mapIndices f b) (indices b) :=
      (refill_refill b _ _ (List.length_map f) rfl).symm
    _ = refill (mapIndices f a) (indices b) := by rw [h]
    _ = refill a (indices b) := refill_refill a _ _ (List.length_map f) hl

namespace Monomial

variable {K : Type} {m : Monomial K}

theorem mem_ids {k : SlotKind} {id : ℕ} :
    id ∈ m.ids k ↔ ∃ r, Index.slot k id r ∈ m.indices := by
  simp only [ids, List.mem_filterMap, Index.idOf?_eq_some]
  constructor
  · rintro ⟨i, hi, r, rfl⟩
    exact ⟨r, hi⟩
  · rintro ⟨r, hr⟩
    exact ⟨_, hr, r, rfl⟩

/-- A renaming keeps the pattern of a monomial exactly if it makes no two of its slots one. -/
theorem samePattern_rename_iff {σ : SlotKind → ℕ → ℕ} :
    SamePattern m.indices (m.rename (slotRenaming σ)).indices ↔ m.KeepsApart σ := by
  rw [rename, indices_mapIndices, samePattern_map_iff]
  constructor
  · intro h k x hx y hy hxy
    obtain ⟨r, hr⟩ := mem_ids.mp hx
    obtain ⟨s, hs⟩ := mem_ids.mp hy
    have hsame := (h _ hr _ hs).mp (Index.sameSlot_iff.mpr ⟨rfl, hxy⟩)
    exact (Index.sameSlot_iff.mp hsame).2
  · intro h i hi j hj
    cases i with
    | fixed v =>
      cases j with
      | fixed w => exact Iff.rfl
      | slot l y s => simp [Index.sameSlot_iff, Index.rename, Index.kind?]
    | slot k x r =>
      cases j with
      | fixed w => simp [Index.sameSlot_iff, Index.rename, Index.kind?]
      | slot l y s =>
        rw [Index.sameSlot_iff, Index.sameSlot_iff]
        refine and_congr_right fun hkl => ?_
        obtain rfl : k = l := Option.some.inj hkl
        exact ⟨h k x (mem_ids.mpr ⟨r, hi⟩) y (mem_ids.mpr ⟨s, hj⟩), congrArg (σ k)⟩

end Monomial

end WeakForm
