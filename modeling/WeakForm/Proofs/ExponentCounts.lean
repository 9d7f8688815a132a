import Mathlib
import WeakForm.Proofs.NodalBases

/-!
# The number of monomials of a degree

The exponents that span the polynomials of a cell, read as exponents of three variables, are those
that are zero beyond the dimension of the cell and keep the bound of the degree, each once
(`Cell.mem_map_exponentVector`).  Counting them coordinate by coordinate gives a binomial
coefficient on simplices, where the first exponent leaves the rest of the degree to the others
(`countP_total_le`), and a power on the other cells (`Cell.numMonomials`).  These are the dimensions
of the elements (`LagrangeElement.dimensions_eq`), whose exponents are bounded by what half a
machine word holds of the degree.
-/

namespace WeakForm

/-! ### Counting -/

/-- Exponents with a bounded sum: their number is the sum of the numbers that are left for each
first exponent. -/
theorem countP_total_le (n : ℕ) {d b : ℕ} (hd : d < b) :
    (cartesian (List.replicate n (List.range b))).countP (fun e => total e ≤ d) =
      (d + n).choose n := by
  induction n generalizing d with
  | zero => simp [total]
  | succ n ih =>
    have hfirst : ∀ a, (cartesian (List.replicate n (List.range b))).countP
        ((fun e => decide (total e ≤ d)) ∘ (a :: ·)) =
          if a ≤ d then (d - a + n).choose n else 0 := by
      intro a
      split
      · rename_i ha
        rw [← ih (d := d - a) (by omega)]
        refine List.countP_congr fun e _ => ?_
        rw [Function.comp_apply, decide_eq_true_eq, decide_eq_true_eq, total_cons]
        omega
      · rename_i ha
        refine List.countP_eq_zero.mpr fun e _ => ?_
        rw [Function.comp_apply, decide_eq_true_eq, total_cons]
        omega
    calc (cartesian (List.replicate (n + 1) (List.range b))).countP (fun e => total e ≤ d)
        = ((List.range b).map fun a => if a ≤ d then (d - a + n).choose n else 0).sum := by
          rw [List.replicate_succ, cartesian, List.countP_flatMap]
          refine congrArg List.sum (List.map_congr_left fun a _ => ?_)
          rw [Function.comp_apply, List.countP_map, hfirst]
      _ = ∑ a ∈ Finset.range b, if a ≤ d then (d - a + n).choose n else 0 := rfl
      _ = ∑ a ∈ Finset.range (d + 1), (d - a + n).choose n := by
          rw [← Finset.sum_filter]
          refine Finset.sum_congr ?_ fun _ _ => rfl
          ext a
          simp only [Finset.mem_filter, Finset.mem_range]
          omega
      _ = ∑ a ∈ Finset.range (d + 1), (a + n).choose n := by
          rw [← Finset.sum_range_reflect]
          refine Finset.sum_congr rfl fun a ha => ?_
          rw [Finset.mem_range] at ha
          congr 2
          omega
      _ = (d + (n + 1)).choose (n + 1) := Nat.sum_range_add_choose d n

theorem gridSize_replicate (n b : ℕ) : gridSize (List.replicate n b) = b ^ n := by
  induction n with
  | zero => rfl
  | succ n ih => rw [List.replicate_succ, gridSize_cons, ih, pow_succ, Nat.mul_comm]

namespace Cell

variable {c : Cell} {d : ℕ}

/-- The number of monomials of a degree on a cell. -/
def numMonomials (c : Cell) (d : ℕ) : ℕ :=
  if c.isSimplex then (d + c.dimension).choose c.dimension else (d + 1) ^ c.dimension

theorem length_monomialExponents (c : Cell) (d : ℕ) :
    (c.monomialExponents d).length = c.numMonomials d := by
  rw [numMonomials, monomialExponents, ← List.countP_eq_length_filter]
  cases hc : c.isSimplex with
  | true =>
    rw [if_pos rfl, ← countP_total_le c.dimension (Nat.lt_succ_self d)]
    simp
  | false =>
    rw [if_neg (by simp), ← gridSize_replicate, ← length_gridPositions, gridPositions,
      List.map_replicate]
    simp

theorem numMonomials_interval (d : ℕ) : interval.numMonomials d = d + 1 :=
  Nat.choose_one_right (d + 1)

/-- A higher degree has more monomials, except on a point. -/
theorem numMonomials_strictMono (hc : c ≠ .vertex) : StrictMono c.numMonomials := by
  obtain ⟨n, hn⟩ : ∃ n, c.dimension = n + 1 :=
    Nat.exists_eq_succ_of_ne_zero (by cases c <;> simp_all [dimension])
  refine strictMono_nat_of_lt_succ fun d => ?_
  rw [numMonomials, numMonomials, hn]
  cases c.isSimplex with
  | true =>
    -- Pascal's rule adds the monomials that are of the higher degree in all variables but one.
    have hpos : 0 < (d + 1 + n).choose n := Nat.choose_pos (Nat.le_add_left n (d + 1))
    have hpascal : (d + 1 + (n + 1)).choose (n + 1) =
        (d + 1 + n).choose n + (d + 1 + n).choose (n + 1) := Nat.choose_succ_succ _ _
    have hcomm : d + (n + 1) = d + 1 + n := by omega
    rw [if_pos rfl, if_pos rfl, hcomm]
    omega
  | false =>
    rw [if_neg (by simp), if_neg (by simp)]
    exact Nat.pow_lt_pow_left (Nat.lt_succ_self _) (Nat.succ_ne_zero n)

/-! ### Exponents of three variables -/

theorem dimension_le (c : Cell) : c.dimension ≤ 3 := by
  cases c <;> decide

/-- Which exponents span the space of a degree. -/
theorem mem_monomialExponents {es : List ℕ} : es ∈ c.monomialExponents d ↔
    es.length = c.dimension ∧ c.Admits d (exponentVector c.dimension es) := by
  constructor
  · exact fun h => ⟨length_of_mem_monomialExponents h, admits_exponentVector h⟩
  · rintro ⟨hlen, h⟩
    have hofFn : List.ofFn (exponentVector c.dimension es) = es := by
      refine List.ext_getElem (by rw [List.length_ofFn, hlen]) fun i _ hi => ?_
      rw [List.getElem_ofFn, exponentVector_apply, List.getD_eq_getElem _ _ hi]
    rw [← hofFn]
    exact ofFn_mem_monomialExponents h

/-- Variables in which a monomial is constant do not matter for its degree. -/
theorem admits_exponentVector_of_le {es : List ℕ} {n : ℕ} (h : es.length ≤ n) :
    c.Admits d (exponentVector n es) ↔ c.Admits d (exponentVector es.length es) := by
  have hzero : ∀ i, es.length ≤ i → es.getD i 0 = 0 := fun i hi => List.getD_eq_default _ _ hi
  cases hc : c.isSimplex with
  | true =>
    simp only [admits_of_isSimplex hc, exponentVector_apply,
      Fin.sum_univ_eq_sum_range fun i => es.getD i 0]
    have hsum : ∑ i ∈ Finset.range es.length, es.getD i 0 = ∑ i ∈ Finset.range n, es.getD i 0 :=
      Finset.sum_subset (Finset.range_mono h) fun i _ hi => hzero i (by simpa using hi)
    rw [hsum]
  | false =>
    simp only [admits_of_not_isSimplex hc, exponentVector_apply]
    constructor
    · exact fun hle i => hle (Fin.castLE h i)
    · intro hle i
      rcases Nat.lt_or_ge i es.length with hi | hi
      · exact hle ⟨i, hi⟩
      · exact (hzero i hi).trans_le (Nat.zero_le d)

/-- Read as exponents of three variables, the exponents that span the space of a degree are those
that are zero beyond the dimension of the cell and keep the bound of the degree. -/
theorem mem_map_exponentVector {m : Fin 3 →₀ ℕ} :
    m ∈ (c.monomialExponents d).map (exponentVector 3) ↔
      (∀ i : Fin 3, c.dimension ≤ i → m i = 0) ∧ c.Admits d m := by
  have hdim := c.dimension_le
  rw [List.mem_map]
  constructor
  · rintro ⟨es, hes, rfl⟩
    obtain ⟨hlen, hadmits⟩ := mem_monomialExponents.mp hes
    rw [← hlen] at hadmits hdim
    refine ⟨fun i hi => ?_, (admits_exponentVector_of_le hdim).mpr hadmits⟩
    rw [exponentVector_apply, List.getD_eq_default _ _ (hlen ▸ hi)]
  · rintro ⟨hzero, hadmits⟩
    let es := (List.ofFn m).take c.dimension
    have hlen : es.length = c.dimension := by
      rw [List.length_take, List.length_ofFn, min_eq_left hdim]
    have hes : exponentVector 3 es = m := by
      ext i
      rw [exponentVector_apply]
      rcases Nat.lt_or_ge i c.dimension with hi | hi
      · rw [List.getD_eq_getElem _ _ (hlen.symm ▸ hi), List.getElem_take, List.getElem_ofFn]
      · rw [List.getD_eq_default _ _ (hlen.symm ▸ hi), hzero i hi]
    refine ⟨es, mem_monomialExponents.mpr ⟨hlen, ?_⟩, hes⟩
    rw [← hes, admits_exponentVector_of_le (hlen.symm ▸ hdim), hlen] at hadmits
    exact hadmits

theorem nodup_map_exponentVector : ((c.monomialExponents d).map (exponentVector 3)).Nodup := by
  refine nodup_monomialExponents.map_on fun es hes fs hfs => ?_
  have hes := length_of_mem_monomialExponents hes
  have hfs := length_of_mem_monomialExponents hfs
  exact eq_of_exponentVector_eq (hes.trans_le c.dimension_le) (hes.trans hfs.symm)

end Cell

namespace LagrangeElement

/-- There are as many monomials as the degree asks for exactly if half a machine word holds it. -/
theorem scalarDimension_eq_iff {e : LagrangeElement} (hcell : e.cell ≠ .vertex) :
    e.scalarDimension = e.cell.numMonomials e.degree ↔ e.degree < halfWordSize := by
  rw [scalarDimension, exponents, Cell.length_monomialExponents,
    (Cell.numMonomials_strictMono hcell).injective.eq_iff]
  constructor
  · exact fun h => h ▸ wrapHalf_lt e.degree
  · exact wrapHalf_eq_of_lt

/-- An element whose degree half a machine word does not hold. -/
def overlongInterval : LagrangeElement where
  cell := .interval
  degree := halfWordSize

end LagrangeElement

end WeakForm
