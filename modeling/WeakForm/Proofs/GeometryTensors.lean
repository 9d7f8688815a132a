import Mathlib.Algebra.Field.Basic
import WeakForm.Proofs.Axes

/-!
# Geometry tensors

The summed slots of a monomial that do not occur in its basis functions are the outer ones
(`Monomial.outerSlots`).  Summing the transforms and coefficients over the values of the outer slots
leaves a function of the values of the secondary slots of the basis functions, the geometry tensor
(`Geometry.geometryTensor`).

A sum over all summed slots is a sum over the axes of the reference tensor, then over the auxiliary
slots, then over the outer ones (`AxesOf.sumIndices_eq`).  What depends on the basis functions only
is a factor of the innermost sum (`sumOver_mul_left`).
-/

namespace WeakForm

open Indexed

/-! ### Nested sums -/

theorem sumOver_append {M : Type} [AddCommMonoid M] (range : Slot → Finset ℕ) (ss ts : List Slot)
    (F : (Slot → ℕ) → M) (a : Slot → ℕ) :
    sumOver range (ss ++ ts) F a = sumOver range ss (sumOver range ts F) a := by
  induction ss generalizing a with
  | nil => rfl
  | cons s ss ih =>
    rw [List.cons_append, sumOver_cons, sumOver_cons]
    exact Finset.sum_congr rfl fun x _ => ih _

/-- A factor that does not depend on the slots of the sum. -/
theorem sumOver_mul_left {R : Type} [NonUnitalNonAssocSemiring R] {range : Slot → Finset ℕ}
    {ss : List Slot} {Q : (Slot → ℕ) → R} {a : Slot → ℕ}
    (hQ : ∀ b : Slot → ℕ, (∀ s, s ∉ ss → b s = a s) → Q b = Q a) (F : (Slot → ℕ) → R) :
    sumOver range ss (fun b => Q b * F b) a = Q a * sumOver range ss F a := by
  rw [← mul_sumOver]
  refine sumOver_congr (fun s _ => rfl) fun c d hcd hab => ?_
  have hc : c = d := by
    funext s
    by_cases hs : s ∈ ss
    · exact hcd s hs
    · rw [(hab s hs).1, (hab s hs).2]
  rw [hQ c fun s hs => (hab s hs).1, hc]

/-! ### Outer slots -/

namespace Monomial

variable {K : Type}

/-- The summed slots that do not occur in basis functions. -/
def outerSlots (m : Monomial K) : List Slot :=
  (summedSlots m.indices).filter fun s =>
    !((Indexed.indices m.basisFunctions).filterMap Index.slot?).contains s

theorem nodup_outerSlots (m : Monomial K) : m.outerSlots.Nodup :=
  (nodup_summedSlots m.indices).filter _

theorem mem_outerSlots {m : Monomial K} {s : Slot} :
    s ∈ m.outerSlots ↔
      s ∈ summedSlots m.indices ∧ ∀ i ∈ Indexed.indices m.basisFunctions, i.slot? ≠ some s := by
  simp [outerSlots]

end Monomial

/-- The slots of the axes occur in basis functions. -/
theorem AxesOf.exists_slot?_eq {vs : List BasisFunction} {k : SlotKind} {m : MultiIndex}
    (h : AxesOf vs k m) {s : Slot} (hs : s ∈ firstSlots k m.indices.length) :
    ∃ i ∈ indices vs, i.slot? = some s := by
  obtain ⟨l, id⟩ := s
  obtain ⟨rfl, hlt⟩ := mem_firstSlots.mp hs
  obtain ⟨i, hi, hid⟩ := List.mem_filterMap.mp ((h.mem_slotIds_iff id).mpr hlt)
  exact ⟨i, hi, Index.slot?_eq_some.mpr hid⟩

/-- Axes for the slots of permuted basis functions. -/
theorem AxesOf.of_perm {vs ws : List BasisFunction} {k : SlotKind} {m : MultiIndex}
    (h : AxesOf vs k m) (hperm : ws.Perm vs) : AxesOf ws k m := by
  have hindices : (indices ws).Perm (indices vs) := hperm.flatMap_right _
  refine ⟨fun id => ?_, h.slot?, fun i hi => hindices.symm.subset (h.mem i hi), h.lt⟩
  rw [← h.mem_slotIds_iff]
  exact (hindices.filterMap _).mem_iff

section Split

variable {K : Type} {m : Monomial K} {k : SlotKind} {axes sec aux : MultiIndex}

theorem AxesOf.disjoint_outerSlots (h : AxesOf m.basisFunctions k axes) :
    List.Disjoint (firstSlots k axes.indices.length) m.outerSlots := by
  intro s hs hout
  obtain ⟨i, hi, his⟩ := h.exists_slot?_eq hs
  exact (Monomial.mem_outerSlots.mp hout).2 i hi his

/-- The slots of the axes are summed, unless they are primary ones. -/
theorem AxesOf.mem_summedSlots (h : AxesOf m.basisFunctions k axes) (hk : k ≠ .primary) {s : Slot}
    (hs : s ∈ firstSlots k axes.indices.length) : s ∈ summedSlots m.indices := by
  obtain ⟨i, hi, his⟩ := h.exists_slot?_eq hs
  refine WeakForm.mem_summedSlots.mpr ⟨⟨i, List.mem_append_left _ hi, his⟩, ?_⟩
  rw [Slot.isSummed, (mem_firstSlots.mp hs).1]
  exact bne_iff_ne.mpr hk

/-- A summed slot of a basis function is that of an axis. -/
theorem mem_firstSlots_of_mem (hs : AxesOf m.basisFunctions .secondary sec)
    (hx : AxesOf m.basisFunctions .auxiliary aux) {s : Slot} (hsum : s.isSummed = true) {i : Index}
    (hi : i ∈ Indexed.indices m.basisFunctions) (his : i.slot? = some s) :
    s ∈ firstSlots .secondary sec.indices.length ∨
      s ∈ firstSlots .auxiliary aux.indices.length := by
  obtain ⟨k, id⟩ := s
  have hid : id ∈ slotIds m.basisFunctions k :=
    List.mem_filterMap.mpr ⟨i, hi, Index.slot?_eq_some.mp his⟩
  cases k with
  | primary => cases hsum
  | secondary => exact Or.inl (mem_firstSlots.mpr ⟨rfl, (hs.mem_slotIds_iff id).mp hid⟩)
  | auxiliary => exact Or.inr (mem_firstSlots.mpr ⟨rfl, (hx.mem_slotIds_iff id).mp hid⟩)

/-- The summed slots are those of the axes, the auxiliary and the outer ones. -/
theorem summedSlots_perm (hs : AxesOf m.basisFunctions .secondary sec)
    (hx : AxesOf m.basisFunctions .auxiliary aux) : (summedSlots m.indices).Perm
      (firstSlots .secondary sec.indices.length ++
        (firstSlots .auxiliary aux.indices.length ++ m.outerSlots)) := by
  have hkinds : List.Disjoint (firstSlots .secondary sec.indices.length)
      (firstSlots .auxiliary aux.indices.length) := by
    intro s hmem hmem'
    have hkind := (mem_firstSlots.mp hmem).1.symm.trans (mem_firstSlots.mp hmem').1
    cases hkind
  have hnodup := (nodup_firstSlots .auxiliary aux.indices.length).append m.nodup_outerSlots
    hx.disjoint_outerSlots
  rw [List.perm_ext_iff_of_nodup (nodup_summedSlots _) ((nodup_firstSlots _ _).append hnodup
    (List.disjoint_append_right.mpr ⟨hkinds, hs.disjoint_outerSlots⟩))]
  intro s
  rw [List.mem_append, List.mem_append]
  constructor
  · intro hmem
    by_cases hbasis : ∃ i ∈ Indexed.indices m.basisFunctions, i.slot? = some s
    · obtain ⟨i, hi, his⟩ := hbasis
      exact (mem_firstSlots_of_mem hs hx (mem_summedSlots.mp hmem).2 hi his).imp_right
        Or.inl
    · exact Or.inr (Or.inr (Monomial.mem_outerSlots.mpr
        ⟨hmem, fun i hi his => hbasis ⟨i, hi, his⟩⟩))
  · rintro (h | h | h)
    · exact hs.mem_summedSlots (by decide) h
    · exact hx.mem_summedSlots (by decide) h
    · exact (Monomial.mem_outerSlots.mp h).1

/-- A sum over all summed slots is one over the axes, then over the auxiliary, then over the outer
slots. -/
theorem AxesOf.sumIndices_eq [Enumeration] {M : Type} [AddCommMonoid M]
    (hs : AxesOf m.basisFunctions .secondary sec) (hx : AxesOf m.basisFunctions .auxiliary aux)
    (hb : RangesAgree m.indices) (hn : ∀ i ∈ m.indices, i.range.Nodup) (F : (Slot → ℕ) → M)
    (a : Slot → ℕ) :
    sumIndices m.indices F a = (sec.values.map fun av => (aux.values.map fun bv =>
      sumOver (slotValues m.indices) m.outerSlots F
        (assign (assign a (firstSlots .secondary sec.indices.length) av)
          (firstSlots .auxiliary aux.indices.length) bv)).sum).sum := by
  have hsub : Indexed.indices m.basisFunctions ⊆ m.indices := List.subset_append_left _ _
  rw [sumIndices, sumOver_perm _ (summedSlots_perm hs hx), sumOver_append, hs.sumOver_eq hb hsub hn]
  refine congrArg List.sum (List.map_congr_left fun av _ => ?_)
  rw [sumOver_append, hx.sumOver_eq hb hsub hn]

end Split

/-! ### Values of transforms and coefficients -/

/-- The values of the entries of transforms and of the entries of coefficients. -/
structure Geometry (K : Type) where
  transform : TransformKind → Restriction → ℕ → ℕ → K
  coefficient : ℕ → ℕ → ℕ → K

namespace Geometry

variable {K : Type} [Field K] (γ : Geometry K) {m : Monomial K}

/-- The product of the transforms and coefficients. -/
def factors (m : Monomial K) (a : Slot → ℕ) : K :=
  (m.transforms.map fun t =>
    γ.transform t.kind t.restriction (t.reference.valueIn a) (t.physical.valueIn a)).prod *
  (m.coefficients.map fun c => γ.coefficient c.function c.projection (c.index.valueIn a)).prod

/-- The geometry tensor at values of the secondary slots of the basis functions: the sum over the
values of the outer slots. -/
def geometryTensor (m : Monomial K) (av : List ℕ) : K :=
  sumOver (slotValues m.indices) m.outerSlots (γ.factors m) fun s =>
    if s.kind = .secondary then av.getD s.id 0 else 0

/-- Only the values of the indices of transforms and coefficients matter. -/
theorem factors_congr {a b : Slot → ℕ}
    (h : ∀ i ∈ indices m.transforms ++ indices m.coefficients, i.valueIn a = i.valueIn b) :
    γ.factors m a = γ.factors m b := by
  rw [List.forall_mem_append] at h
  obtain ⟨ht, hc⟩ := h
  rw [factors, factors]
  congr 2
  · refine List.map_congr_left fun t hmem => ?_
    have hi : ∀ i ∈ indices t, i.valueIn a = i.valueIn b := fun i hi =>
      ht i (List.mem_flatMap.mpr ⟨t, hmem, hi⟩)
    rw [hi t.reference (by simp [indices_transform]), hi t.physical (by simp [indices_transform])]
  · refine List.map_congr_left fun c hmem => ?_
    rw [hc c.index (List.mem_flatMap.mpr ⟨c, hmem, by simp [indices_coefficient]⟩)]

/-- Renaming slots is renaming the slots that values are given to. -/
theorem factors_rename (f : SlotKind → ℕ → ℕ) (m : Monomial K) (a : Slot → ℕ) :
    γ.factors (m.rename (slotRenaming f)) a = γ.factors m (a ∘ Slot.rename f) := by
  simp only [factors, Monomial.rename, Monomial.mapIndices_eq, List.map_map, Function.comp_def,
    mapIndices_transform, mapIndices_coefficient, Index.valueIn_rename]

end Geometry

end WeakForm
