import WeakForm.Proofs.JacobiRecurrence

/-!
# Exactness of the Gauss-Jacobi rules

If square roots are exact and eigenvectors of symmetric matrices are an orthonormal basis
(`Numerics.IsExact`), the components of the eigenvectors of the recurrence matrix are values of the
Jacobi polynomials at the eigenvalues (`prod_mul_vectors`).  So the weighted sum over the
eigenvalues vanishes on the multiples of the polynomial whose degree is the number of points, and
since the rows of an orthogonal matrix are orthonormal, it agrees with the integral on the
polynomials before it.
Hence the rules are exact (`gaussJacobi_exact`).
-/

section

open Polynomial

namespace WeakForm

/-- Square roots are those of the real numbers, and a symmetric matrix is taken to its eigenvalues
and an orthonormal basis of eigenvectors. -/
structure Numerics.IsExact (N : Numerics ℝ) : Prop where
  sqrt_eq : ∀ x : ℝ, 0 ≤ x → N.sqrt x = √x
  mul_vectors : ∀ {n : ℕ} {A : Fin n → Fin n → ℝ}, (Matrix.of A).IsSymm →
    Matrix.of A * Matrix.of (N.eigen A).2 = Matrix.of (N.eigen A).2 * .diagonal (N.eigen A).1
  orthonormal : ∀ {n : ℕ} {A : Fin n → Fin n → ℝ}, (Matrix.of A).IsSymm →
    (Matrix.of (N.eigen A).2).transpose * Matrix.of (N.eigen A).2 = 1

/-- The term of a sum at one value. -/
theorem sum_ite_val {n : ℕ} (f : ℕ → ℝ) (i : ℕ) (hi : n ≤ i → f i = 0) :
    ∑ c : Fin n, (if c.val = i then f c else 0) = f i := by
  rw [Fin.sum_univ_eq_sum_range (fun c => if c = i then f c else 0), Finset.sum_ite_eq']
  split
  · rfl
  · rename_i hmem
    exact (hi (Nat.le_of_not_lt fun hlt => hmem (Finset.mem_range.mpr hlt))).symm

/-! ### The recurrence matrix -/

section Matrices

variable [N : Numerics ℝ] {n alpha beta : ℕ}

theorem isSymm_recurrenceMatrix (n alpha beta : ℕ) :
    (Matrix.of (recurrenceMatrix (n := n) ℝ alpha beta)).IsSymm := by
  refine Matrix.IsSymm.ext fun r c => ?_
  simp only [Matrix.of_apply, recurrenceMatrix]
  by_cases h : r.val = c.val
  · rw [if_pos h, if_pos h.symm, h]
  · simp only [if_neg h, if_neg (Ne.symm h), or_comm, max_comm]

theorem sq_recurrenceOffDiagonal (h : N.IsExact) (alpha beta k : ℕ) :
    recurrenceOffDiagonal k (alpha : ℝ) (beta : ℝ) ^ 2 = couplingSq alpha beta k := by
  have hnonneg := couplingSq_nonneg alpha beta k
  rw [recurrenceOffDiagonal_eq, h.sqrt_eq _ hnonneg, Real.sq_sqrt hnonneg]

theorem recurrenceOffDiagonal_zero (h : N.IsExact) (alpha beta : ℕ) :
    recurrenceOffDiagonal 0 (alpha : ℝ) (beta : ℝ) = 0 := by
  have hsq := sq_recurrenceOffDiagonal h alpha beta 0
  rw [couplingSq_zero] at hsq
  exact pow_eq_zero_iff two_ne_zero |>.mp hsq

/-- The entries beside the diagonal and on it. -/
theorem recurrenceMatrix_eq (r c : Fin n) : recurrenceMatrix ℝ alpha beta r c =
    (if c.val + 1 = r then recurrenceOffDiagonal r (alpha : ℝ) (beta : ℝ) else 0) +
      (if c.val = r then recurrenceDiagonal r (alpha : ℝ) (beta : ℝ) else 0) +
      (if c.val = r + 1 then recurrenceOffDiagonal (r + 1) (alpha : ℝ) (beta : ℝ) else 0) := by
  rw [recurrenceMatrix]
  rcases Nat.lt_trichotomy c r with hlt | heq | hgt
  · rw [if_neg hlt.ne', if_neg hlt.ne, if_neg (by omega : ¬ c.val = r + 1), add_zero, add_zero]
    by_cases hnext : c.val + 1 = r
    · rw [if_pos (Or.inr hnext), if_pos hnext, max_eq_left hlt.le]
    · rw [if_neg (by omega), if_neg hnext]
  · rw [if_pos heq.symm, if_pos heq, if_neg (by omega : ¬ c.val + 1 = r),
      if_neg (by omega : ¬ c.val = r + 1), zero_add, add_zero]
  · rw [if_neg hgt.ne, if_neg hgt.ne', if_neg (by omega : ¬ c.val + 1 = r), zero_add, zero_add]
    by_cases hnext : c.val = r + 1
    · rw [if_pos (Or.inl hnext.symm), if_pos hnext, max_eq_right hgt.le, hnext]
    · rw [if_neg (by omega), if_neg hnext]

/-- A row of the recurrence matrix times a vector, which is zero beyond the matrix. -/
theorem sum_recurrenceMatrix (h : N.IsExact) {w : ℕ → ℝ} (hw : w n = 0) (r : Fin n) :
    ∑ c : Fin n, recurrenceMatrix ℝ alpha beta r c * w c =
      recurrenceOffDiagonal r (alpha : ℝ) (beta : ℝ) * w (r - 1) +
        recurrenceDiagonal r (alpha : ℝ) (beta : ℝ) * w r +
        recurrenceOffDiagonal (r + 1) (alpha : ℝ) (beta : ℝ) * w (r + 1) := by
  obtain ⟨r, hr⟩ := r
  simp only [recurrenceMatrix_eq, add_mul, ite_mul, zero_mul, Finset.sum_add_distrib]
  rw [sum_ite_val (fun c => recurrenceDiagonal r (alpha : ℝ) (beta : ℝ) * w c) r (by omega),
    sum_ite_val (fun c => recurrenceOffDiagonal (r + 1) (alpha : ℝ) (beta : ℝ) * w c) (r + 1)]
  · congr 2
    cases r with
    | zero => simp [recurrenceOffDiagonal_zero h]
    | succ r =>
      simp only [Nat.add_right_cancel_iff, Nat.add_sub_cancel]
      exact sum_ite_val (fun c => recurrenceOffDiagonal (r + 1) (alpha : ℝ) (beta : ℝ) * w c) r
        (by omega)
  · intro hle
    have hlast : r + 1 = n := Nat.le_antisymm hr hle
    rw [hlast, hw, mul_zero]

/-! ### Eigenvectors -/

/-- The eigenvalues of the recurrence matrix. -/
noncomputable def jacobiNodes (n alpha beta : ℕ) : Fin n → ℝ :=
  (Numerics.eigen (recurrenceMatrix ℝ alpha beta)).1

/-- The eigenvectors of the recurrence matrix, as columns. -/
noncomputable def jacobiVectors (n alpha beta : ℕ) : Matrix (Fin n) (Fin n) ℝ :=
  Matrix.of (Numerics.eigen (recurrenceMatrix ℝ alpha beta)).2

theorem recurrenceMatrix_mul_vectors (h : N.IsExact) (n alpha beta : ℕ) :
    Matrix.of (recurrenceMatrix ℝ alpha beta) * jacobiVectors n alpha beta =
      jacobiVectors n alpha beta * .diagonal (jacobiNodes n alpha beta) :=
  h.mul_vectors (isSymm_recurrenceMatrix n alpha beta)

/-- The rows of the matrix of eigenvectors are orthonormal, too. -/
theorem vectors_mul_transpose (h : N.IsExact) (n alpha beta : ℕ) :
    jacobiVectors n alpha beta * (jacobiVectors n alpha beta).transpose = 1 :=
  mul_eq_one_comm.mp (h.orthonormal (isSymm_recurrenceMatrix n alpha beta))

/-- The components of an eigenvector, continued by zeros. -/
noncomputable def jacobiComponent (n alpha beta : ℕ) (k : Fin n) (i : ℕ) : ℝ :=
  if hi : i < n then jacobiVectors n alpha beta ⟨i, hi⟩ k else 0

theorem jacobiComponent_eq (k i : Fin n) :
    jacobiComponent n alpha beta k i = jacobiVectors n alpha beta i k :=
  dif_pos i.isLt

theorem jacobiComponent_of_le (k : Fin n) {i : ℕ} (hi : n ≤ i) :
    jacobiComponent n alpha beta k i = 0 :=
  dif_neg (Nat.not_lt.mpr hi)

/-- The components of an eigenvector are the values of the Jacobi polynomials at the eigenvalue, up
to scale; the eigenvalue is a zero of the last one. -/
theorem prod_mul_vectors (h : N.IsExact) (alpha beta : ℕ) (k : Fin n) {i : ℕ} (hi : i ≤ n) :
    (∏ m ∈ Finset.range i, recurrenceOffDiagonal (m + 1) (alpha : ℝ) (beta : ℝ)) *
        jacobiComponent n alpha beta k i =
      (jacobiPolynomial alpha beta i).eval (jacobiNodes n alpha beta k) *
        jacobiComponent n alpha beta k 0 := by
  refine prod_mul_eigenvector (b := fun k => recurrenceOffDiagonal k (alpha : ℝ) (beta : ℝ))
    (couplingSq_zero alpha beta) (sq_recurrenceOffDiagonal h alpha beta) (fun i hi => ?_) hi
  have hrow := congrFun (congrFun (recurrenceMatrix_mul_vectors h n alpha beta) ⟨i, hi⟩) k
  rw [Matrix.mul_diagonal, Matrix.mul_apply] at hrow
  simp only [Matrix.of_apply, ← jacobiComponent_eq] at hrow
  rw [sum_recurrenceMatrix h (jacobiComponent_of_le k le_rfl)] at hrow
  rw [hrow, mul_comm]

/-! ### The weighted sum -/

/-- The sum of the values of a polynomial at the eigenvalues, with the weights of the rule. -/
noncomputable def jacobiSum (n alpha beta : ℕ) : ℝ[X] →ₗ[ℝ] ℝ where
  toFun p := ∑ k, totalMass ℝ alpha beta * jacobiComponent n alpha beta k 0 *
    jacobiComponent n alpha beta k 0 * p.eval (jacobiNodes n alpha beta k)
  map_add' p q := by
    simp only [eval_add, mul_add, Finset.sum_add_distrib]
  map_smul' a p := by
    simp only [eval_smul, smul_eq_mul, mul_left_comm _ a, ← Finset.mul_sum, RingHom.id_apply]

theorem jacobiSum_apply (n : ℕ) (p : ℝ[X]) : jacobiSum n alpha beta p =
    ∑ k, totalMass ℝ alpha beta * jacobiComponent n alpha beta k 0 *
      jacobiComponent n alpha beta k 0 * p.eval (jacobiNodes n alpha beta k) := rfl

/-- On the polynomials before the last one the sum is the integral. -/
theorem jacobiSum_jacobiPolynomial (h : N.IsExact) {i : ℕ} (hi : i < n) :
    jacobiSum n alpha beta (jacobiPolynomial alpha beta i) =
      jacobiIntegral alpha beta (jacobiPolynomial alpha beta i) := by
  have hn : 0 < n := Nat.zero_lt_of_lt hi
  let B := ∏ m ∈ Finset.range i, recurrenceOffDiagonal (m + 1) (alpha : ℝ) (beta : ℝ)
  have hrows : ∑ k, jacobiComponent n alpha beta k i * jacobiComponent n alpha beta k 0 =
      if i = 0 then 1 else 0 := by
    have hentry := congrFun (congrFun (vectors_mul_transpose h n alpha beta) ⟨i, hi⟩) ⟨0, hn⟩
    simp only [Matrix.mul_apply, Matrix.transpose_apply, Matrix.one_apply, Fin.mk.injEq,
      ← jacobiComponent_eq] at hentry
    exact hentry
  have hsum : jacobiSum n alpha beta (jacobiPolynomial alpha beta i) =
      totalMass ℝ alpha beta * B * if i = 0 then 1 else 0 := by
    rw [← hrows, Finset.mul_sum, jacobiSum_apply]
    refine Finset.sum_congr rfl fun k _ => ?_
    have hvalue := prod_mul_vectors h alpha beta k hi.le
    linear_combination -totalMass ℝ alpha beta * jacobiComponent n alpha beta k 0 * hvalue
  rw [hsum]
  cases i with
  | zero =>
    have hone : jacobiPolynomial alpha beta 0 = 1 := rfl
    rw [hone, jacobiIntegral_one]
    simp [B]
  | succ i => simp [jacobiIntegral_jacobiPolynomial]

/-- The eigenvalues are zeros of the last polynomial. -/
theorem jacobiSum_mul (h : N.IsExact) (q : ℝ[X]) :
    jacobiSum n alpha beta (jacobiPolynomial alpha beta n * q) = 0 := by
  rw [jacobiSum_apply]
  refine Finset.sum_eq_zero fun k _ => ?_
  have hvalue := prod_mul_vectors h alpha beta k le_rfl
  rw [jacobiComponent_of_le k le_rfl, mul_zero] at hvalue
  rw [eval_mul]
  linear_combination -totalMass ℝ alpha beta * jacobiComponent n alpha beta k 0 *
    q.eval (jacobiNodes n alpha beta k) * hvalue

theorem jacobiSum_eq (h : N.IsExact) {p : ℝ[X]} (hp : p.natDegree < 2 * n) :
    jacobiSum n alpha beta p = jacobiIntegral alpha beta p :=
  functional_eq_of_natDegree_lt (couplingSq_zero alpha beta)
    (jacobiIntegral_jacobiPolynomial alpha beta) (fun _ => jacobiSum_jacobiPolynomial h)
    (jacobiSum_mul h) hp

/-! ### Rules and powers of the matrix -/

/-- The weighted sum is that over the points of the rule. -/
theorem exists_gaussJacobi (hn : n ≠ 0) (alpha beta : ℕ) :
    ∃ l, gaussJacobi ℝ n alpha beta = .ok l ∧
      ∀ p : ℝ[X], (l.map fun q => q.2 * p.eval q.1).sum = jacobiSum n alpha beta p := by
  rw [gaussJacobi, dif_neg hn]
  refine ⟨_, rfl, fun p => ?_⟩
  rw [((List.mergeSort_perm _ _).map _).sum_eq, List.map_map, jacobiSum_apply, Fin.sum_univ_def]
  refine congrArg List.sum (List.map_congr_left fun k _ => ?_)
  have hzero : jacobiComponent n alpha beta k 0 =
      jacobiVectors n alpha beta ⟨0, Nat.pos_of_ne_zero hn⟩ k :=
    jacobiComponent_eq k ⟨0, Nat.pos_of_ne_zero hn⟩
  rw [hzero]
  rfl

/-- The powers of the matrix have the moments of the weighted sum. -/
theorem totalMass_mul_pow (h : N.IsExact) (hn : 0 < n) (alpha beta j : ℕ) :
    totalMass ℝ alpha beta *
        (Matrix.of (recurrenceMatrix (n := n) ℝ alpha beta) ^ j) ⟨0, hn⟩ ⟨0, hn⟩ =
      jacobiSum n alpha beta (X ^ j) := by
  let V := jacobiVectors n alpha beta
  have hpow : Matrix.of (recurrenceMatrix (n := n) ℝ alpha beta) ^ j =
      V * .diagonal (jacobiNodes n alpha beta) ^ j * V.transpose := by
    have hsemiconj : SemiconjBy V (.diagonal (jacobiNodes n alpha beta))
        (Matrix.of (recurrenceMatrix ℝ alpha beta)) :=
      (recurrenceMatrix_mul_vectors h n alpha beta).symm
    rw [(hsemiconj.pow_right j).eq, mul_assoc, vectors_mul_transpose h, mul_one]
  rw [hpow, Matrix.diagonal_pow, Matrix.mul_apply, Finset.mul_sum, jacobiSum_apply]
  refine Finset.sum_congr rfl fun k _ => ?_
  have hzero : jacobiComponent n alpha beta k 0 = V ⟨0, hn⟩ k := jacobiComponent_eq k ⟨0, hn⟩
  rw [Matrix.mul_diagonal, Matrix.transpose_apply, eval_pow, eval_X, hzero, Pi.pow_apply]
  ring

theorem exactGaussJacobi (h : N.IsExact) (hn : n ≠ 0) (alpha : ℕ) : ExactGaussJacobi n alpha := by
  intro l hl p hp
  obtain ⟨l', hl', hsum⟩ := exists_gaussJacobi hn alpha 0
  obtain rfl : l' = l := Except.ok.inj (hl'.symm.trans hl)
  rw [hsum, jacobiSum_eq h (by omega), jacobiIntegral_apply]
  simp only [pow_zero, mul_one]

/-- The rule with `n` points integrates the first `2 * n` powers exactly against the Jacobi weight.
The integrals are the first entries of the powers of the recurrence matrix, times the integral of
the weight function. -/
theorem gaussJacobi_exact (h : N.IsExact) (hn : 1 ≤ n) (alpha beta : ℕ) :
    ∃ l, gaussJacobi ℝ n alpha beta = .ok l ∧ ∀ j ≤ 2 * n - 1,
      (l.map fun q => q.2 * q.1 ^ j).sum =
        ∫ x in (-1 : ℝ)..1, x ^ j * (1 - x) ^ alpha * (1 + x) ^ beta ∧
      totalMass ℝ alpha beta *
        (Matrix.of (recurrenceMatrix (n := n) ℝ alpha beta) ^ j) ⟨0, hn⟩ ⟨0, hn⟩ =
        ∫ x in (-1 : ℝ)..1, x ^ j * (1 - x) ^ alpha * (1 + x) ^ beta := by
  obtain ⟨l, hl, hsum⟩ := exists_gaussJacobi (Nat.ne_of_gt hn) alpha beta
  refine ⟨l, hl, fun j hj => ?_⟩
  have hmoment : jacobiSum n alpha beta (X ^ j) =
      ∫ x in (-1 : ℝ)..1, x ^ j * (1 - x) ^ alpha * (1 + x) ^ beta := by
    rw [jacobiSum_eq h (by rw [natDegree_X_pow]; omega), jacobiIntegral_apply]
    simp only [eval_pow, eval_X, mul_assoc]
  have hrule := hsum (X ^ j)
  simp only [eval_pow, eval_X] at hrule
  exact ⟨hrule.trans hmoment, (totalMass_mul_pow h hn alpha beta j).trans hmoment⟩

end Matrices

/-! ### Real numbers -/

/-- Square roots, inverses and eigenvectors over the real numbers. -/
@[reducible] noncomputable def spectralNumerics : Numerics ℝ where
  sqrt := Real.sqrt
  inverse? A := if (Matrix.of A).det = 0 then none else some fun r c => (Matrix.of A)⁻¹ r c
  eigen A := if h : (Matrix.of A).IsHermitian then
    (h.eigenvalues, h.eigenvectorUnitary.val) else (0, 0)

theorem eigen_spectralNumerics {n : ℕ} {A : Fin n → Fin n → ℝ} (h : (Matrix.of A).IsHermitian) :
    spectralNumerics.eigen A = (h.eigenvalues, h.eigenvectorUnitary.val) :=
  dif_pos h

theorem isHermitian_of_isSymm {n : ℕ} {A : Matrix (Fin n) (Fin n) ℝ} (h : A.IsSymm) :
    A.IsHermitian := by
  rwa [Matrix.IsHermitian, Matrix.conjTranspose_eq_transpose_of_trivial]

theorem isExact_spectralNumerics : spectralNumerics.IsExact where
  sqrt_eq _ _ := rfl
  mul_vectors {n A} hA := by
    have h := isHermitian_of_isSymm hA
    let U := h.eigenvectorUnitary
    have hdiagonal : star U.val * Matrix.of A * U.val = .diagonal h.eigenvalues := by
      have hspectral := h.conjStarAlgAut_star_eigenvectorUnitary
      rwa [Unitary.conjStarAlgAut_star_apply] at hspectral
    have hunitary : U.val * star U.val = 1 := Unitary.coe_mul_star_self U
    rw [eigen_spectralNumerics h]
    calc Matrix.of A * U.val = U.val * star U.val * (Matrix.of A * U.val) := by
          rw [hunitary, one_mul]
      _ = U.val * (star U.val * Matrix.of A * U.val) := by simp only [mul_assoc]
      _ = U.val * .diagonal h.eigenvalues := by rw [hdiagonal]
  orthonormal {n A} hA := by
    have h := isHermitian_of_isSymm hA
    rw [eigen_spectralNumerics h, ← Matrix.conjTranspose_eq_transpose_of_trivial]
    exact Unitary.coe_star_mul_self h.eigenvectorUnitary

/-- A rule with two points, for the weight `1 + x`. -/
theorem gaussJacobi_exact_two : letI := spectralNumerics
    ∃ l, gaussJacobi ℝ 2 0 1 = .ok l ∧ (l.map fun q => q.2 * q.1 ^ 3).sum = 2 / 5 ∧
      totalMass ℝ 0 1 * (Matrix.of (recurrenceMatrix (n := 2) ℝ 0 1) ^ 3) 0 0 = 2 / 5 := by
  let _ := spectralNumerics
  obtain ⟨l, hl, hexact⟩ := gaussJacobi_exact isExact_spectralNumerics one_le_two 0 1
  have hmoment : ∫ x in (-1 : ℝ)..1, x ^ 3 * (1 - x) ^ 0 * (1 + x) ^ 1 = 2 / 5 := by
    have hsplit : ∀ x : ℝ, x ^ 3 * (1 - x) ^ 0 * (1 + x) ^ 1 = x ^ 3 + x ^ 4 := fun x => by ring
    simp only [hsplit]
    norm_num [integral_pow]
  have h3 := hexact 3 (by decide)
  rw [hmoment] at h3
  exact ⟨l, hl, h3⟩

end WeakForm

end
