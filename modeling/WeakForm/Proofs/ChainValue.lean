import WeakForm.Proofs.ContractionValue
import WeakForm.Proofs.Value

/-!
# Cancelling complete chains keeps values

A derivative along `l` with the chain `(dX_l/dx_m) (dx_m/dX_n)` stands for a derivative along `n`
because the sum over all physical directions `m` is the product of the inverse matrix with the
matrix, so it is one if `l` is `n` and zero otherwise.  For that, `m` has to run over all physical
directions, and `l` over all values of `n`: the chain has to be complete (`CompleteChain`).

Cancelling complete chains keeps the value of a balanced monomial in every valuation whose
transforms are the entries of such matrices (`Pullback`, `Valuation.value_simplifyDerivatives`).
-/

namespace WeakForm

open Indexed

/-! ### The slots of a chain -/

theorem Index.exists_slot? {i : Index} (h : i.isFixed = false) : ∃ s, i.slot? = some s := by
  cases i with
  | slot k id r => exact ⟨_, rfl⟩
  | fixed v => cases h

theorem mem_summedSlots_of_mem {is : List Index} {i : Index} {s : Slot} (hi : i ∈ is)
    (hs : i.slot? = some s) (hk : i.isKind .primary = false) : s ∈ summedSlots is := by
  refine mem_summedSlots.mpr ⟨⟨i, hi, hs⟩, ?_⟩
  cases i with
  | slot k id r =>
    obtain rfl : (⟨k, id⟩ : Slot) = s := by simpa [Index.slot?] using hs
    simpa [Slot.isSummed, Index.isKind, Index.kind?] using hk
  | fixed v => cases hs

theorem IsChain.factors {r : Restriction} {l : Index} {s t : Transform} (h : IsChain r l s t) :
    (s.kind = .inverse ∧ s.restriction = r) ∧ t.kind = .jacobian ∧ t.restriction = r := by
  obtain ⟨-, hs, ht⟩ := h
  simp only [Transform.startsChain, Transform.endsChain, Bool.and_eq_true, beq_iff_eq] at hs ht
  exact ⟨⟨hs.1.1.1, hs.1.2⟩, ht.1.1.1, ht.1.2⟩

theorem IsChain.isFixed {r : Restriction} {l : Index} {s t : Transform} (h : IsChain r l s t) :
    l.isFixed = false ∧ s.physical.isFixed = false ∧ t.reference.isFixed = false := by
  obtain ⟨hsec, hs, ht⟩ := h
  simp only [Transform.startsChain, Transform.endsChain, Bool.and_eq_true,
    Bool.not_eq_true'] at hs ht
  refine ⟨?_, hs.2, ht.2⟩
  cases l with
  | slot k id r => rfl
  | fixed v => cases hsec

/-- The three slots of a chain, in a balanced monomial: that of the derivative and that of the
physical direction occur at no other place. -/
structure ChainSlots (l : Index) (s t : Transform) (others : List Index) where
  derivative : Slot
  physical : Slot
  last : Slot
  slot_derivative : l.slot? = some derivative
  slot_reference : s.reference.slot? = some derivative
  slot_physical : s.physical.slot? = some physical
  slot_physical' : t.physical.slot? = some physical
  slot_last : t.reference.slot? = some last
  physical_ne : physical ≠ derivative
  last_ne_derivative : last ≠ derivative
  last_ne_physical : last ≠ physical
  derivative_notMem : ∀ x ∈ others, x.slot? ≠ some derivative
  physical_notMem : ∀ x ∈ others, x.slot? ≠ some physical

theorem IsChain.slots {r : Restriction} {l : Index} {s t : Transform} (h : IsChain r l s t)
    {others : List Index} (hb : BalancedIndices
      (l :: s.reference :: s.physical :: t.reference :: t.physical :: others)) :
    Nonempty (ChainSlots l s t others) := by
  obtain ⟨hl, hsp, htr⟩ := h.isFixed
  obtain ⟨-, hs, ht⟩ := h
  simp only [Transform.startsChain, Transform.endsChain, Bool.and_eq_true] at hs ht
  have hsl := hs.1.1.2
  have htp := ht.1.1.2
  obtain ⟨L, hL⟩ := Index.exists_slot? hl
  obtain ⟨M, hM⟩ := Index.exists_slot? hsp
  obtain ⟨N, hN⟩ := Index.exists_slot? htr
  rw [Index.sameSlot_iff_slot? hL] at hsl
  rw [Index.sameSlot_iff_slot? hM] at htp
  -- neither of the two pairs of occurrences leaves room for a third one
  have hLs := hb.slot?_ne hL hsl
  have hb' : BalancedIndices
      (s.physical :: t.physical :: l :: s.reference :: t.reference :: others) := by
    apply hb.perm
    rw [List.perm_iff_count]
    intro i
    simp only [List.count_cons]
    omega
  have hMs := hb'.slot?_ne hM htp
  simp only [List.forall_mem_cons] at hLs hMs
  refine ⟨⟨L, M, N, hL, hsl, hM, htp, hN, ?_, ?_, ?_, hLs.2.2.2, hMs.2.2.2⟩⟩
  · rintro rfl
    exact hLs.1 hM
  · rintro rfl
    exact hLs.2.1 hN
  · rintro rfl
    exact hMs.2.2.1 hN

namespace ChainSlots

variable {l : Index} {s t : Transform} {others : List Index} (c : ChainSlots l s t others)

/-- Gives values to the three slots. -/
def subst (x y z : ℕ) : Index → Index :=
  Index.subst c.last z ∘ Index.subst c.physical y ∘ Index.subst c.derivative x

theorem subst_derivative (x y z : ℕ) {i : Index} (hi : i.slot? = some c.derivative) :
    c.subst x y z i = .fixed x := by
  rw [subst, Function.comp_apply, Function.comp_apply, Index.subst_of_eq hi]
  rfl

theorem subst_physical (x y z : ℕ) {i : Index} (hi : i.slot? = some c.physical) :
    c.subst x y z i = .fixed y := by
  have hne : i.slot? ≠ some c.derivative := by
    rw [hi]
    simpa using c.physical_ne
  rw [subst, Function.comp_apply, Function.comp_apply, Index.subst_of_ne hne, Index.subst_of_eq hi]
  rfl

theorem subst_last (x y z : ℕ) : c.subst x y z t.reference = .fixed z := by
  have hne : t.reference.slot? ≠ some c.derivative := by
    rw [c.slot_last]
    simpa using c.last_ne_derivative
  have hne' : t.reference.slot? ≠ some c.physical := by
    rw [c.slot_last]
    simpa using c.last_ne_physical
  rw [subst, Function.comp_apply, Function.comp_apply, Index.subst_of_ne hne,
    Index.subst_of_ne hne', Index.subst_of_eq c.slot_last]

theorem subst_of_mem (x y z : ℕ) {i : Index} (hi : i ∈ others) :
    c.subst x y z i = i.subst c.last z := by
  rw [subst, Function.comp_apply, Function.comp_apply,
    Index.subst_of_ne (c.derivative_notMem i hi), Index.subst_of_ne (c.physical_notMem i hi)]

end ChainSlots

/-! ### Complete chains -/

/-- The chain of `s` and `t` runs over all physical directions, and the derivative along `l` takes
all values of the derivative at the end of the chain. -/
def CompleteChain (d : ℕ) (l : Index) (s t : Transform) : Prop :=
  ∀ n ∈ t.reference.range, (n ∈ l.range ∧ n < d) ∧ ∀ k < d, k ∈ s.physical.range

/-- All chains of the monomial are complete. -/
def Monomial.ChainsComplete {K : Type} (d : ℕ) (m : Monomial K) : Prop :=
  ∀ v ∈ m.basisFunctions, ∀ δ ∈ v.derivatives, ∀ s ∈ m.transforms, ∀ t ∈ m.transforms,
    IsChain v.restriction δ.index s t → CompleteChain d δ.index s t

instance (r : Restriction) (l : Index) (s t : Transform) : Decidable (IsChain r l s t) :=
  decidable_of_iff (l.isKind .secondary = true ∧ s.startsChain r l = true ∧
      t.endsChain r s.physical = true)
    ⟨fun h => ⟨h.1, h.2.1, h.2.2⟩, fun h => ⟨h.secondary, h.starts, h.ends⟩⟩

instance (d : ℕ) (l : Index) (s t : Transform) : Decidable (CompleteChain d l s t) :=
  inferInstanceAs (Decidable (∀ n ∈ t.reference.range, (n ∈ l.range ∧ n < d) ∧
    ∀ k < d, k ∈ s.physical.range))

instance {K : Type} (d : ℕ) (m : Monomial K) : Decidable (m.ChainsComplete d) :=
  inferInstanceAs (Decidable (∀ v ∈ m.basisFunctions, ∀ δ ∈ v.derivatives, ∀ s ∈ m.transforms,
    ∀ t ∈ m.transforms, IsChain v.restriction δ.index s t → CompleteChain d δ.index s t))

/-! ### Matrices -/

variable {R : Type} [CommRing R] {d : ℕ}

/-- Summed over all columns, the rows of a matrix and the columns of its inverse give the entries of
the unit matrix. -/
theorem sum_entry {A B : Matrix (Fin d) (Fin d) R} (hAB : A * B = 1) {ys : Finset ℕ}
    (hys : ∀ k < d, k ∈ ys) {l n : ℕ} (hn : n < d) :
    ∑ y ∈ ys, entry A l y * entry B y n = if l = n then 1 else 0 := by
  have hsub : ∑ y ∈ ys, entry A l y * entry B y n =
      ∑ y ∈ Finset.range d, entry A l y * entry B y n := by
    refine (Finset.sum_subset (fun y hy => hys y (Finset.mem_range.mp hy)) fun y _ hy => ?_).symm
    rw [Finset.mem_range] at hy
    have : entry A l y = 0 := dif_neg fun h => hy h.2
    rw [this, zero_mul]
  rw [hsub]
  by_cases hl : l < d
  · have hentry : ∑ y ∈ Finset.range d, entry A l y * entry B y n =
        ∑ y : Fin d, A ⟨l, hl⟩ y * B y ⟨n, hn⟩ := by
      rw [Finset.sum_range]
      apply Finset.sum_congr rfl
      intro y _
      rw [entry, dif_pos ⟨hl, y.isLt⟩, entry, dif_pos ⟨y.isLt, hn⟩]
    rw [hentry, ← Matrix.mul_apply, hAB, Matrix.one_apply]
    simp only [Fin.mk.injEq]
  · have hne : l ≠ n := by omega
    rw [if_neg hne]
    apply Finset.sum_eq_zero
    intro y _
    have : entry A l y = 0 := dif_neg fun h => hl h.1
    rw [this, zero_mul]

/-- The derivatives of the physical coordinates in the reference directions, and those of the
reference coordinates in the physical directions, for each restriction. -/
structure Pullback (R : Type) [CommRing R] (d : ℕ) where
  jacobian : Restriction → Matrix (Fin d) (Fin d) R
  inverse : Restriction → Matrix (Fin d) (Fin d) R
  inverse_mul_jacobian : ∀ r, inverse r * jacobian r = 1

namespace Pullback

/-- The entry of a matrix that a transform between literal directions stands for. -/
def transform (P : Pullback R d) (t : Transform) : R :=
  match t.kind with
  | .jacobian => entry (P.jacobian t.restriction) t.physical.value t.reference.value
  | .inverse => entry (P.inverse t.restriction) t.reference.value t.physical.value

theorem sum_transform (P : Pullback R d) (r : Restriction) {ys : Finset ℕ}
    (hys : ∀ k < d, k ∈ ys) {x z : ℕ} (hz : z < d) :
    ∑ y ∈ ys, P.transform ⟨.inverse, .fixed x, .fixed y, r⟩ *
      P.transform ⟨.jacobian, .fixed z, .fixed y, r⟩ = if x = z then 1 else 0 :=
  sum_entry (P.inverse_mul_jacobian r) hys hz

end Pullback

/-! ### Chains in valuations -/

/-- The directions of transforms are no primary slots. -/
def Monomial.SummedTransforms {K : Type} (m : Monomial K) : Prop :=
  ∀ i ∈ Indexed.indices m.transforms, i.isKind .primary = false

theorem Monomial.PrimaryArguments.summedTransforms {K : Type} {m : Monomial K}
    (h : m.PrimaryArguments) : m.SummedTransforms := fun i hi =>
  h i (List.mem_append_right _ (List.mem_append_left _ hi))

theorem Monomial.SummedTransforms.step {K : Type} {P : Index → Transform → Transform → Prop}
    {m n : Monomial K} (h : m.SummedTransforms) (hs : CancelStep P m n) : n.SummedTransforms := by
  cases hs with
  | @mk m s t ts rest p _ _ hts =>
    have hsub : ∀ u ∈ rest, u ∈ ts := fun u hu => hts.symm.subset (by simp [hu])
    intro i hi
    obtain ⟨u, hu, hiu⟩ := List.mem_flatMap.mp hi
    exact h i (List.mem_flatMap.mpr ⟨u, hsub u hu, hiu⟩)

theorem sum_rotate (X Y Z : Finset ℕ) (A B C : ℕ → ℕ → R) :
    ∑ x ∈ X, ∑ y ∈ Y, ∑ z ∈ Z, A x y * (B z y * C x z) =
      ∑ z ∈ Z, ∑ x ∈ X, (∑ y ∈ Y, A x y * B z y) * C x z := by
  rw [Finset.sum_comm (s := Z)]
  apply Finset.sum_congr rfl
  intro x _
  rw [Finset.sum_comm]
  apply Finset.sum_congr rfl
  intro z _
  rw [Finset.sum_mul]
  exact Finset.sum_congr rfl fun y _ => (mul_assoc _ _ _).symm

namespace Valuation

variable (v : Valuation R)

/-- Three summed slots replaced by their values in turn. -/
theorem value_subst_three {m : Monomial R} {L M N : Slot} (hL : L ∈ summedSlots m.indices)
    (hM : M ∈ summedSlots m.indices) (hN : N ∈ summedSlots m.indices) (hML : M ≠ L) (hNL : N ≠ L)
    (hNM : N ≠ M) (a : Slot → ℕ) :
    v.value m a = ∑ x ∈ slotValues m.indices L, ∑ y ∈ slotValues m.indices M,
      ∑ z ∈ slotValues m.indices N,
        v.value (mapIndices (Index.subst N z ∘ Index.subst M y ∘ Index.subst L x) m) a := by
  rw [v.value_subst hL]
  apply Finset.sum_congr rfl
  intro x _
  have hM' : M ∈ summedSlots (mapIndices (Index.subst L x) m).indices := by
    rw [Monomial.indices_mapIndices]
    exact mem_summedSlots_subst.mpr ⟨hM, hML⟩
  rw [v.value_subst hM', Monomial.indices_mapIndices, slotValues_subst hML]
  apply Finset.sum_congr rfl
  intro y _
  have hN' : N ∈ summedSlots
      (mapIndices (Index.subst M y) (mapIndices (Index.subst L x) m)).indices := by
    rw [Monomial.indices_mapIndices, Monomial.indices_mapIndices]
    exact mem_summedSlots_subst.mpr ⟨mem_summedSlots_subst.mpr ⟨hN, hNL⟩, hNM⟩
  rw [v.value_subst hN', Monomial.indices_mapIndices, Monomial.indices_mapIndices,
    slotValues_subst hNM, slotValues_subst hNL]
  apply Finset.sum_congr rfl
  intro z _
  rw [mapIndices_mapIndices, mapIndices_mapIndices, Function.comp_assoc]

/-- With values for the three slots of a chain, its transforms are literal factors. -/
theorem value_chain_subst (m : Monomial R) (p : DerivativePlace) {s t : Transform}
    {rest : List Transform} (h : IsChain p.function.restriction p.derivative.index s t)
    (c : ChainSlots p.derivative.index s t (m.otherIndices p rest)) (x y z : ℕ) (a : Slot → ℕ) :
    v.value (mapIndices (c.subst x y z)
        (m.withFactors (p.along p.derivative.index) (s :: t :: rest))) a =
      v.transform ⟨.inverse, .fixed x, .fixed y, p.function.restriction⟩ *
        (v.transform ⟨.jacobian, .fixed z, .fixed y, p.function.restriction⟩ *
          v.value (mapIndices (Index.subst c.last z)
            (m.withFactors (p.along (.fixed x)) rest)) a) := by
  have hother : ∀ i ∈ m.otherIndices p rest, c.subst x y z i = i.subst c.last z := fun i hi =>
    c.subst_of_mem x y z hi
  simp only [Monomial.otherIndices, List.mem_append] at hother
  have hvs : mapIndices (c.subst x y z) (p.along p.derivative.index) =
      mapIndices (Index.subst c.last z) (p.along (.fixed x)) := by
    refine p.mapIndices_along ?_ fun i hi => hother i ?_
    · rw [c.subst_derivative x y z c.slot_derivative]
      rfl
    · rw [List.mem_append] at hi
      tauto
  have hrest : mapIndices (c.subst x y z) rest = mapIndices (Index.subst c.last z) rest :=
    mapIndices_congr fun i hi => hother i (by tauto)
  have hcs : mapIndices (c.subst x y z) m.coefficients =
      mapIndices (Index.subst c.last z) m.coefficients :=
    mapIndices_congr fun i hi => hother i (by tauto)
  obtain ⟨⟨hsk, hsr⟩, htk, htr⟩ := h.factors
  have hst : mapIndices (c.subst x y z) (s :: t :: rest) =
      ⟨.inverse, .fixed x, .fixed y, p.function.restriction⟩ ::
        ⟨.jacobian, .fixed z, .fixed y, p.function.restriction⟩ ::
          mapIndices (c.subst x y z) rest := by
    rw [mapIndices_list, List.map_cons, List.map_cons, ← mapIndices_list, mapIndices_transform,
      mapIndices_transform, c.subst_derivative x y z c.slot_reference,
      c.subst_physical x y z c.slot_physical, c.subst_last, c.subst_physical x y z c.slot_physical',
      hsk, hsr, htk, htr]
  have hmap : mapIndices (c.subst x y z)
      (m.withFactors (p.along p.derivative.index) (s :: t :: rest)) =
        { mapIndices (Index.subst c.last z) (m.withFactors (p.along (.fixed x)) rest) with
          transforms := ⟨.inverse, .fixed x, .fixed y, p.function.restriction⟩ ::
            ⟨.jacobian, .fixed z, .fixed y, p.function.restriction⟩ ::
              (mapIndices (Index.subst c.last z)
                (m.withFactors (p.along (.fixed x)) rest)).transforms } := by
    rw [Monomial.mapIndices_withFactors, Monomial.mapIndices_withFactors, hvs, hst, hrest, hcs]
  rw [hmap, v.value_cons_transform, v.value_cons_transform]

/-- The value of a monomial with a chain, and that of the monomial with the chain cancelled, as sums
over the values of the three slots. -/
theorem value_chain (m : Monomial R) (p : DerivativePlace) {s t : Transform}
    {rest : List Transform} (h : IsChain p.function.restriction p.derivative.index s t)
    (hb : (m.withFactors (p.along p.derivative.index) (s :: t :: rest)).Balanced)
    (hp : (m.withFactors (p.along p.derivative.index) (s :: t :: rest)).SummedTransforms) :
    ∃ last, t.reference.slot? = some last ∧ ∀ a,
      v.value (m.withFactors (p.along t.reference) rest) a =
        ∑ z ∈ t.reference.range.toFinset,
          v.value (mapIndices (Index.subst last z) (m.withFactors (p.along (.fixed z)) rest)) a ∧
      v.value (m.withFactors (p.along p.derivative.index) (s :: t :: rest)) a =
        ∑ z ∈ t.reference.range.toFinset, ∑ x ∈ p.derivative.index.range.toFinset,
          (∑ y ∈ s.physical.range.toFinset,
            v.transform ⟨.inverse, .fixed x, .fixed y, p.function.restriction⟩ *
              v.transform ⟨.jacobian, .fixed z, .fixed y, p.function.restriction⟩) *
            v.value (mapIndices (Index.subst last z)
              (m.withFactors (p.along (.fixed x)) rest)) a := by
  have hperm := m.indices_chain_perm p p.derivative.index s t rest
  have hperm' := m.indices_along_perm p t.reference rest
  obtain ⟨c⟩ := h.slots (BalancedIndices.perm hperm.symm hb)
  have hkind : ∀ u ∈ [s, t], u.reference.isKind .primary = false ∧
      u.physical.isKind .primary = false := by
    intro u hu
    have hmem : ∀ i ∈ indices u, i.isKind .primary = false := fun i hi =>
      hp i (List.mem_flatMap.mpr ⟨u, by simp only [Monomial.withFactors]; grind, hi⟩)
    exact ⟨hmem _ (by simp [indices_transform]), hmem _ (by simp [indices_transform])⟩
  have hL := mem_summedSlots_of_mem (hperm.symm.subset (by simp)) c.slot_reference
    (hkind s (by simp)).1
  have hM := mem_summedSlots_of_mem (hperm.symm.subset (by simp)) c.slot_physical
    (hkind s (by simp)).2
  have hN := mem_summedSlots_of_mem (hperm.symm.subset (by simp)) c.slot_last
    (hkind t (by simp)).1
  have hN' := mem_summedSlots_of_mem (hperm'.symm.subset (by simp)) c.slot_last
    (hkind t (by simp)).1
  have hb' : BalancedIndices (m.withFactors (p.along t.reference) rest).indices := by
    refine BalancedIndices.subperm (hperm'.subperm.trans ?_) hb
    refine List.Subperm.trans (List.Sublist.subperm ?_) hperm.symm.subperm
    exact .cons _ (.cons _ (.cons _ (.cons_cons _ (.cons _ (List.Sublist.refl _)))))
  refine ⟨c.last, c.slot_last, fun a => ⟨?_, ?_⟩⟩
  · rw [v.value_subst hN', slotValues_eq hb'.rangesAgree (hperm'.symm.subset (by simp)) c.slot_last]
    apply Finset.sum_congr rfl
    intro z _
    rw [Monomial.mapIndices_withFactors, Monomial.mapIndices_withFactors,
      p.mapIndices_along (g := Index.subst c.last z) (j := .fixed z) _ fun _ _ => rfl]
    rw [Index.subst_of_eq c.slot_last]
    rfl
  · rw [v.value_subst_three hL hM hN c.physical_ne c.last_ne_derivative c.last_ne_physical,
      slotValues_eq (BalancedIndices.rangesAgree hb) (hperm.symm.subset (by simp)) c.slot_derivative,
      slotValues_eq (BalancedIndices.rangesAgree hb) (hperm.symm.subset (by simp)) c.slot_physical,
      slotValues_eq (BalancedIndices.rangesAgree hb) (hperm.symm.subset (by simp)) c.slot_last]
    have hterm := fun x y z => v.value_chain_subst m p h c x y z a
    simp only [ChainSlots.subst] at hterm
    simp only [hterm]
    exact sum_rotate _ _ _ _ _ _

variable {v} {P : Pullback R d} (hv : v.transform = P.transform)
include hv

/-- Cancelling a complete chain keeps the value. -/
theorem value_step {m n : Monomial R} (hs : Monomial.CancelStep (CompleteChain d) m n)
    (hb : m.Balanced) (hp : m.SummedTransforms) (a : Slot → ℕ) : v.value n a = v.value m a := by
  cases hs with
  | @mk m s t ts rest p hchain hcomplete hts =>
    have hb' : (m.withFactors (p.along p.derivative.index) (s :: t :: rest)).Balanced :=
      BalancedIndices.perm (m.indices_withFactors_perm _ hts.symm) hb
    have hp' : (m.withFactors (p.along p.derivative.index) (s :: t :: rest)).SummedTransforms := by
      intro i hi
      obtain ⟨u, hu, hiu⟩ := List.mem_flatMap.mp hi
      exact hp i (List.mem_flatMap.mpr ⟨u, hts.symm.subset hu, hiu⟩)
    obtain ⟨last, -, hvalue⟩ := v.value_chain m p hchain hb' hp'
    calc v.value (m.withFactors (p.along t.reference) rest) a
        = _ := (hvalue a).1
      _ = _ := by
        apply Finset.sum_congr rfl
        intro z hz
        obtain ⟨⟨hzl, hzd⟩, hphysical⟩ := hcomplete z (List.mem_toFinset.mp hz)
        have hys : ∀ k < d, k ∈ s.physical.range.toFinset := fun k hk =>
          List.mem_toFinset.mpr (hphysical k hk)
        -- the sum over the physical directions is one at `z` and zero elsewhere
        simp only [hv, P.sum_transform p.function.restriction hys hzd, ite_mul, one_mul, zero_mul,
          Finset.sum_ite_eq', List.mem_toFinset, hzl, if_true]
      _ = v.value (m.withFactors (p.along p.derivative.index) (s :: t :: rest)) a :=
        ((hvalue a).2).symm
      _ = v.value (m.withFactors (p.along p.derivative.index) ts) a :=
        v.value_perm_transforms (m.withFactors (p.along p.derivative.index) []) hts.symm a

theorem value_simplifyDerivatives {m : Monomial R} (hb : m.Balanced) (hp : m.SummedTransforms)
    (hc : m.ChainsComplete d) (a : Slot → ℕ) : v.value m.simplifyDerivatives a = v.value m a := by
  have hs := m.simplifyDerivatives_steps hc
  generalize m.simplifyDerivatives = n at hs
  have hkeep : n.Balanced ∧ n.SummedTransforms ∧ v.value n a = v.value m a := by
    induction hs with
    | refl => exact ⟨hb, hp, rfl⟩
    | tail _ hstep ih =>
      obtain ⟨ihb, ihp, ihv⟩ := ih
      exact ⟨hstep.balanced ihb, ihp.step hstep, (value_step hv hstep ihb ihp a).trans ihv⟩
  exact hkeep.2.2

end Valuation

/-! ### Chains in interpretations -/

namespace Interpretation

variable {K : Type} [Field K] (v : Interpretation K d)

/-- The matrices of an interpretation. -/
def pullback : Pullback K d where
  jacobian := v.jacobian
  inverse := v.inverse
  inverse_mul_jacobian := v.inverse_mul_jacobian

theorem transform_toValuation : v.toValuation.transform = v.pullback.transform := rfl

theorem value_simplifyDerivatives {m : Monomial K} (hb : m.Balanced) (hp : m.PrimaryArguments)
    (hc : m.ChainsComplete d) (a : Slot → ℕ) : v.value m.simplifyDerivatives a = v.value m a :=
  Valuation.value_simplifyDerivatives v.transform_toValuation hb hp.summedTransforms hc a

end Interpretation

end WeakForm
