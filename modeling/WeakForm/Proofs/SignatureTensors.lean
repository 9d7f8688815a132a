import WeakForm.Enumeration.Recursive
import WeakForm.Proofs.Signatures
import WeakForm.Proofs.TensorRepresentation

/-!
# Equal signatures, equal tensors

The hard signature sorts the basis functions, names elements by their identifiers, and drops the
constant and all that describes the geometry.  A reference tensor reads lengths and ranges from
first occurrences in the given order.  For monomials that can share a tensor and whose elements are
from one registry nothing is lost: up to their constants, the reference tensors of monomials with
equal hard signatures are equal.
-/

namespace WeakForm

open Indexed

variable {K : Type}

/-- The integral of basis functions, where it exists, does not depend on their order. -/
def OrderFree (integrate : List BasisFunction → IndexValues → Except (FormError K) K) : Prop :=
  ∀ vs ws : List BasisFunction, vs.Perm ws → ∀ (values : IndexValues) (y z : K),
    integrate vs values = .ok y → integrate ws values = .ok z → y = z

/-- In exact arithmetic, quadrature is such an evaluator. -/
theorem ReferenceIntegrator.orderFree [Field K] [Tabulation K] (x : ReferenceIntegrator K) :
    OrderFree x.integrate := by
  intro vs ws hperm values y z hy hz
  rw [integrate_perm hz hperm, Except.ok.injEq] at hy
  exact hy.symm

namespace ReferenceTensor

section

variable [Enumeration]

/-- Entries for the same values, made from the same integrals with different constants. -/
theorem entry_mul_eq [CommRing K] {f g : IndexValues → Except (FormError K) K} {c d y z : K}
    {i a : MultiIndex} {bs : List (List ℕ)} {iv av : List ℕ}
    (hfg : ∀ values y z, f values = .ok y → g values = .ok z → y = z)
    (hy : entry f c i a bs iv av = .ok y) (hz : entry g d i a bs iv av = .ok z) :
    d * y = c * z := by
  by_cases hin : i.InRange iv ∧ a.InRange av
  · obtain ⟨ys, hys, rfl⟩ := (entry_of_inRange hin.1 hin.2).mp hy
    obtain ⟨zs, hzs, rfl⟩ := (entry_of_inRange hin.1 hin.2).mp hz
    have hlen : ys.length = zs.length := hys.length_eq.symm.trans hzs.length_eq
    have hsame : ys = zs := by
      refine List.ext_getElem hlen fun n hn hn' => ?_
      have hb : n < bs.length := hys.length_eq ▸ hn
      exact hfg _ _ _ ((List.forall₂_iff_get.mp hys).2 n hb hn)
        ((List.forall₂_iff_get.mp hzs).2 n hb hn')
    rw [hsame, mul_left_comm]
  · rw [entry_of_not_inRange hin, Except.ok.injEq] at hy hz
    rw [← hy, ← hz, mul_zero, mul_zero]

variable [CommRing K]

/-- Monomials whose basis functions are the same up to their order have the same tensor up to their
constants, if no primary or secondary slot occurs twice and auxiliary ranges agree. -/
theorem get?_mul_eq_of_perm {p q : Monomial K} {s t : ReferenceTensor K}
    {integrate : List BasisFunction → IndexValues → Except (FormError K) K}
    (hperm : p.basisFunctions.Perm q.basisFunctions)
    (hb : BalancedIndices (indices p.basisFunctions))
    (hprimary : (slotIds p.basisFunctions .primary).Nodup)
    (hsecondary : (slotIds p.basisFunctions .secondary).Nodup) (horder : OrderFree integrate)
    (hs : compute p (integrate p.basisFunctions) = .ok s)
    (ht : compute q (integrate q.basisFunctions) = .ok t) :
    s.entries.shape = t.entries.shape ∧ ∀ x : List ℕ,
      (s.entries.get? x).map (q.constant * ·) = (t.entries.get? x).map (p.constant * ·) := by
  obtain ⟨⟨hsi, hsa, hsb⟩, -⟩ := exists_data_of_compute hs
  obtain ⟨⟨hti, hta, htb⟩, -⟩ := exists_data_of_compute ht
  have hi : s.i = t.i := (hsi.of_perm hperm hprimary).unique hti
  have ha : s.a = t.a := (hsa.of_perm hperm hsecondary).unique hta
  have hvalues : s.b.values = t.b.values := by
    rw [s.b.values_eq, t.b.values_eq, hsb.map_range_eq htb hperm hb]
  have hshape : s.entries.shape = t.entries.shape := by
    rw [shape_of_compute hs, shape_of_compute ht, hi, ha]
  refine ⟨hshape, fun x => ?_⟩
  by_cases hx : x ∈ gridPositions s.entries.shape
  · obtain ⟨iv, av, rfl, hiv, hav⟩ := exists_append_of_mem_shape hs hx
    obtain ⟨y, hgety, hy⟩ := get?_of_compute hs hiv hav
    obtain ⟨z, hgetz, hz⟩ := get?_of_compute ht (hi ▸ hiv) (ha ▸ hav)
    rw [hi, ha, hvalues] at hy
    have hmul := entry_mul_eq (horder _ _ hperm) hy hz
    rw [get?] at hgety hgetz
    rw [hgety, hgetz, Option.map_some, Option.map_some, hmul]
  · have hnone := linearIndex?_eq_none hx
    rw [DenseTensor.get?, DenseTensor.get?, ← hshape, hnone]
    rfl

/-- Monomials of one registry with equal hard signatures share their reference tensor up to their
constants, and their quadrature degree.  It is enough that one of them is balanced and has no
primary or secondary slot twice in its basis functions. -/
theorem get?_mul_eq_of_hardSignature {p q : Monomial K}
    {integrate : List BasisFunction → IndexValues → Except (FormError K) K}
    (hsig : p.hardSignature = q.hardSignature)
    (hone : Element.OneRegistry ((p.basisFunctions ++ q.basisFunctions).map (·.element)))
    (hb : p.Balanced)
    (hp : ∀ v ∈ p.basisFunctions, ∀ d ∈ v.derivatives, d.element = v.element)
    (hq : ∀ v ∈ q.basisFunctions, ∀ d ∈ v.derivatives, d.element = v.element)
    (hn : ∀ k, k ≠ .auxiliary → (slotIds p.basisFunctions k).Nodup)
    (horder : OrderFree integrate) :
    (∀ s t, compute p (integrate p.basisFunctions) = .ok s →
      compute q (integrate q.basisFunctions) = .ok t →
        s.entries.shape = t.entries.shape ∧ ∀ x : List ℕ,
          (s.entries.get? x).map (q.constant * ·) = (t.entries.get? x).map (p.constant * ·)) ∧
    defaultQuadratureDegree p.basisFunctions = defaultQuadratureDegree q.basisFunctions := by
  have hperm := Monomial.basisFunctions_perm hsig hone hp hq
  have hbalanced : BalancedIndices (indices p.basisFunctions) := by
    refine BalancedIndices.subperm ?_ hb
    rw [Monomial.indices_eq]
    exact (List.sublist_append_left _ _).subperm
  refine ⟨fun s t => ?_, defaultQuadratureDegree_perm hperm⟩
  exact get?_mul_eq_of_perm hperm hbalanced (hn _ (by decide)) (hn _ (by decide)) horder

end

/-- The second monomial has another constant and its basis functions in reverse. -/
theorem get?_mul_eq_weightedTerm :
    let p : Monomial ℚ := Form.weightedTerm 2 .triangle (.slot .auxiliary 0 [0, 1])
    let q : Monomial ℚ := { p with constant := 3, basisFunctions := p.basisFunctions.reverse }
    let rule : QuadratureRule ℚ := ⟨[([1 / 3, 1 / 3], 1 / 2)]⟩
    let integrator : ReferenceIntegrator ℚ := ⟨.triangle, .cell, rule, rule⟩
    ∃ s t, compute p (integrator.integrate p.basisFunctions) = .ok s ∧
      compute q (integrator.integrate q.basisFunctions) = .ok t ∧
      s.entries.get? [0, 0, 0] = some (2 / 3) ∧ t.entries.get? [0, 0, 0] = some 1 ∧
      ∀ x : List ℕ, (s.entries.get? x).map (3 * ·) = (t.entries.get? x).map (2 * ·) := by
  intro p q rule integrator
  have hentry : ∀ m ∈ [p, q], ((compute m (integrator.integrate m.basisFunctions)).map fun t =>
      t.entries.get? [0, 0, 0]).toOption = some (some (m.constant / 3)) := by decide +kernel
  have hcomputed : ∀ m ∈ [p, q], ∃ t, compute m (integrator.integrate m.basisFunctions) = .ok t ∧
      t.entries.get? [0, 0, 0] = some (m.constant / 3) := by
    intro m hm
    have h := hentry m hm
    cases hc : compute m (integrator.integrate m.basisFunctions) with
    | ok t =>
      rw [hc] at h
      exact ⟨t, rfl, Option.some.inj h⟩
    | error e =>
      rw [hc] at h
      cases h
  obtain ⟨s, hs, hsget⟩ := hcomputed p List.mem_cons_self
  obtain ⟨t, ht, htget⟩ := hcomputed q (List.mem_cons_of_mem _ List.mem_cons_self)
  have hb : p.Balanced := (p.imbalance?_eq_none_iff).mp (by decide)
  have hn : ∀ k, k ≠ .auxiliary → (slotIds p.basisFunctions k).Nodup := by
    intro k
    cases k <;> decide
  have hsig : p.hardSignature = q.hardSignature :=
    Monomial.signature_eq_iff.mpr ⟨rfl, (List.reverse_perm p.basisFunctions).symm.map _⟩
  have hequal := get?_mul_eq_of_hardSignature hsig (by decide) hb (by decide) (by decide) hn
    integrator.orderFree
  exact ⟨s, t, hs, ht, hsget.trans (by decide +kernel), htget.trans (by decide +kernel),
    (hequal.1 s t hs ht).2⟩

end ReferenceTensor

end WeakForm
