import Mathlib
import WeakForm.Cell

/-!
# The reference cells as sets of points

A simplex is the set of points with nonnegative coordinates whose sum is at most one; the square
and the cube are boxes (`Cell.region`).  The integral of a monomial over the simplex of dimension
`n + 1` is that over the simplex of dimension `n`, times a line integral with the weight
`(1 - t) ^ n` (`integral_unitSimplex_succ`): the slice of the simplex at `t` is the smaller simplex,
scaled by `1 - t`.  Over a box it is a product of line integrals (`integral_unitBox`).
-/

namespace WeakForm

open MeasureTheory Set
open scoped Pointwise

/-- The simplex with the origin and the unit vectors as vertices. -/
def unitSimplex (n : ℕ) : Set (Fin n → ℝ) :=
  {x | (∀ i, 0 ≤ x i) ∧ ∑ i, x i ≤ 1}

theorem isClosed_unitSimplex (n : ℕ) : IsClosed (unitSimplex n) := by
  have hsum : Continuous fun x : Fin n → ℝ => ∑ i, x i :=
    continuous_finsetSum _ fun i _ => continuous_apply i
  rw [unitSimplex, ofPred_and]
  refine IsClosed.inter ?_ (isClosed_le hsum continuous_const)
  simp only [ofPred_forall]
  exact isClosed_iInter fun i => isClosed_le continuous_const (continuous_apply i)

theorem unitSimplex_subset_Icc (n : ℕ) : unitSimplex n ⊆ Icc 0 1 := by
  rintro x ⟨hx, hsum⟩
  refine ⟨hx, fun i => ?_⟩
  exact (Finset.single_le_sum (fun j _ => hx j) (Finset.mem_univ i)).trans hsum

theorem isCompact_unitSimplex (n : ℕ) : IsCompact (unitSimplex n) :=
  isCompact_Icc.of_isClosed_subset (isClosed_unitSimplex n) (unitSimplex_subset_Icc n)

theorem smul_unitSimplex {n : ℕ} {r : ℝ} (hr : 0 < r) :
    r • unitSimplex n = {x | (∀ i, 0 ≤ x i) ∧ ∑ i, x i ≤ r} := by
  ext x
  rw [mem_smul_set_iff_inv_smul_mem₀ hr.ne']
  simp only [unitSimplex, mem_ofPred_eq, Pi.smul_apply, smul_eq_mul, ← Finset.mul_sum]
  refine and_congr (forall_congr' fun i => ?_) ?_
  · exact mul_nonneg_iff_of_pos_left (inv_pos.mpr hr)
  · rw [inv_mul_le_iff₀ hr, mul_one]

/-- The slices of a simplex are scaled simplices. -/
theorem cons_mem_unitSimplex_iff {n : ℕ} {t : ℝ} (ht : t < 1) {y : Fin n → ℝ} :
    (Fin.cons t y : Fin (n + 1) → ℝ) ∈ unitSimplex (n + 1) ↔
      0 ≤ t ∧ y ∈ (1 - t) • unitSimplex n := by
  rw [smul_unitSimplex (sub_pos.mpr ht)]
  simp only [unitSimplex, mem_ofPred_eq, Fin.forall_fin_succ, Fin.sum_univ_succ, Fin.cons_zero,
    Fin.cons_succ, le_sub_iff_add_le', and_assoc]

/-- Integration over a simplex, slice by slice. -/
theorem integral_unitSimplex_slices {n : ℕ} {f : (Fin (n + 1) → ℝ) → ℝ} (hf : Continuous f) :
    ∫ x in unitSimplex (n + 1), f x =
      ∫ t in Ioo (0 : ℝ) 1, ∫ y in (1 - t) • unitSimplex n, f (Fin.cons t y) := by
  let e := (MeasurableEquiv.piFinSuccAbove (fun _ : Fin (n + 1) => ℝ) 0).symm
  have he : MeasurePreserving e :=
    (volume_preserving_piFinSuccAbove (fun _ : Fin (n + 1) => ℝ) 0).symm _
  have hcons : ∀ (t : ℝ) (y : Fin n → ℝ), e (t, y) = Fin.cons t y := fun t y =>
    Fin.insertNth_zero' t y
  have hmeas : ∀ n, MeasurableSet (unitSimplex n) := fun n => (isClosed_unitSimplex n).measurableSet
  have hint : Integrable ((unitSimplex (n + 1)).indicator f) :=
    (integrable_indicator_iff (hmeas _)).mpr
      (hf.continuousOn.integrableOn_compact (isCompact_unitSimplex _))
  have hprod : Integrable (fun p => (unitSimplex (n + 1)).indicator f (e p)) :=
    (he.integrable_comp_emb e.measurableEmbedding).mpr hint
  rw [← integral_indicator (hmeas _), ← he.integral_comp e.measurableEmbedding,
    Measure.volume_eq_prod, integral_prod _ hprod, ← integral_indicator measurableSet_Ioo]
  simp only [hcons]
  -- the slices at the two ends do not matter
  refine integral_congr_ae ?_
  filter_upwards [(Set.toFinite ({0, 1} : Set ℝ)).countable.ae_notMem volume] with t ht
  simp only [mem_insert_iff, mem_singleton_iff, not_or] at ht
  by_cases hin : t ∈ Ioo (0 : ℝ) 1
  · rw [indicator_of_mem hin, ← integral_indicator ((hmeas n).const_smul₀ (1 - t))]
    congr 1
    funext y
    by_cases hy : y ∈ (1 - t) • unitSimplex n
    · rw [indicator_of_mem ((cons_mem_unitSimplex_iff hin.2).mpr ⟨hin.1.le, hy⟩),
        indicator_of_mem hy]
    · rw [indicator_of_notMem fun h => hy ((cons_mem_unitSimplex_iff hin.2).mp h).2,
        indicator_of_notMem hy]
  · have hout : ∀ y : Fin n → ℝ, (Fin.cons t y : Fin (n + 1) → ℝ) ∉ unitSimplex (n + 1) := by
      intro y hy
      have h0 := unitSimplex_subset_Icc _ hy
      exact hin ⟨(h0.1 0).lt_of_ne (Ne.symm ht.1), (h0.2 0).lt_of_ne ht.2⟩
    simp only [indicator_of_notMem hin, indicator_of_notMem (hout _), integral_zero]

/-- Scaling a simplex scales the integral of a monomial by its degree and the dimension. -/
theorem integral_smul_unitSimplex {n : ℕ} {r : ℝ} (hr : 0 < r) (m : Fin n → ℕ) :
    ∫ y in r • unitSimplex n, ∏ i, y i ^ m i =
      r ^ (∑ i, m i + n) * ∫ y in unitSimplex n, ∏ i, y i ^ m i := by
  have hscale := Measure.setIntegral_comp_smul_of_pos volume (fun y : Fin n → ℝ => ∏ i, y i ^ m i)
    (unitSimplex n) hr
  simp only [Pi.smul_apply, smul_eq_mul, mul_pow, Finset.prod_mul_distrib,
    Finset.prod_pow_eq_pow_sum, integral_const_mul, Module.finrank_fintype_fun_eq_card,
    Fintype.card_fin] at hscale
  rw [pow_add, mul_comm (r ^ _), mul_assoc, hscale, mul_inv_cancel_left₀ (pow_pos hr n).ne']

/-- The integral of `t ^ a * (1 - t) ^ b` over the unit interval. -/
noncomputable def unitMoment (a b : ℕ) : ℝ :=
  ∫ t in (0 : ℝ)..1, t ^ a * (1 - t) ^ b

theorem integral_unitSimplex_succ {n : ℕ} (m : Fin (n + 1) → ℕ) :
    ∫ x in unitSimplex (n + 1), ∏ i, x i ^ m i =
      unitMoment (m 0) (∑ i : Fin n, m i.succ + n) *
        ∫ y in unitSimplex n, ∏ i, y i ^ m i.succ := by
  have hf : Continuous fun x : Fin (n + 1) → ℝ => ∏ i, x i ^ m i :=
    continuous_finsetProd _ fun i _ => (continuous_apply i).pow _
  rw [integral_unitSimplex_slices hf, unitMoment, intervalIntegral.integral_of_le zero_le_one,
    integral_Ioc_eq_integral_Ioo, ← integral_mul_const]
  refine setIntegral_congr_fun measurableSet_Ioo fun t ht => ?_
  simp only [Fin.prod_univ_succ, Fin.cons_zero, Fin.cons_succ]
  rw [integral_const_mul, integral_smul_unitSimplex (sub_pos.mpr ht.2), mul_assoc]

theorem integral_unitSimplex_zero (f : (Fin 0 → ℝ) → ℝ) : ∫ x in unitSimplex 0, f x = f 0 := by
  have huniv : unitSimplex 0 = univ := eq_univ_of_forall fun x => ⟨fun i => i.elim0, by simp⟩
  rw [huniv, Measure.restrict_univ, Measure.volume_pi_eq_dirac, integral_dirac]
  exact congrArg f (Subsingleton.elim _ _)

/-- The integral of a monomial over a box. -/
theorem integral_unitBox {n : ℕ} (m : Fin n → ℕ) :
    ∫ x in Icc (0 : Fin n → ℝ) 1, ∏ i, x i ^ m i = ∏ i, unitMoment (m i) 0 := by
  have hbox : Icc (0 : Fin n → ℝ) 1 = pi univ fun _ => Icc (0 : ℝ) 1 := (pi_univ_Icc 0 1).symm
  rw [hbox, volume_pi, Measure.restrict_pi_pi,
    integral_fin_nat_prod_eq_prod (fun i (t : ℝ) => t ^ m i)]
  refine Finset.prod_congr rfl fun i _ => ?_
  rw [unitMoment, intervalIntegral.integral_of_le zero_le_one, integral_Icc_eq_integral_Ioc]
  simp only [pow_zero, mul_one]

namespace Cell

/-- The points of the reference cell. -/
def region (c : Cell) : Set (Fin c.dimension → ℝ) :=
  if c.isSimplex then unitSimplex c.dimension else Icc 0 1

theorem isCompact_region (c : Cell) : IsCompact c.region := by
  unfold region
  split
  · exact isCompact_unitSimplex _
  · exact isCompact_Icc

end Cell

end WeakForm
