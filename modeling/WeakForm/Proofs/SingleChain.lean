import Mathlib.LinearAlgebra.Matrix.Permutation
import WeakForm.Proofs.RoundValue

/-!
# A single chain

The form of one derivative with one chain (`Form.singleChain`) simplifies to the derivative at the
end of the chain.  Here the condition that the chain is complete is exact: the value is kept under
every interpretation if and only if the chain is complete (`Form.singleChain_sameValue_iff`).  The
interpretations that tell (`Interpretation.probe`) permute the directions and detect one of them.
-/

namespace WeakForm

open Indexed

variable {K : Type} [Field K]

/-! ### The form -/

/-- The derivative of an argument along an index. -/
def Monomial.singleDerivative (e : Element) (r : Restriction) (i : Index) : Monomial K where
  constant := 1
  basisFunctions := [{ BasisFunction.argument e 0 with restriction := r, derivatives := [⟨e, i⟩] }]

/-- The derivative of an argument with a chain of slots over these ranges. -/
def Monomial.singleChain (e : Element) (r : Restriction) (first physical last : List ℕ) :
    Monomial K :=
  { Monomial.singleDerivative e r (.slot .secondary 0 first) with
    transforms := [
      ⟨.inverse, .slot .secondary 0 first, .slot .secondary 1 physical, r⟩,
      ⟨.jacobian, .slot .secondary 2 last, .slot .secondary 1 physical, r⟩] }

namespace Form

/-- A form of one monomial, with a single chain. -/
def singleChain (e : Element) (r : Restriction) (first physical last : List ℕ) : Form K :=
  ⟨[Monomial.singleChain e r first physical last]⟩

variable (e : Element) (r : Restriction) (first physical last : List ℕ)

theorem renumber_singleChain :
    (singleChain e r first physical last : Form K).renumber =
      singleChain e r first physical last := rfl

theorem simplifyDerivatives_singleChain :
    (Monomial.singleChain e r first physical last : Monomial K).simplifyDerivatives =
      Monomial.singleDerivative e r (.slot .secondary 2 last) := by
  cases r <;> rfl

theorem balanced_singleChain :
    (Monomial.singleChain e r first physical last : Monomial K).Balanced := by
  have hindices : (Monomial.singleChain e r first physical last : Monomial K).indices =
      [.slot .primary 0 (List.range e.space.spaceDimension), .slot .secondary 0 first,
        .slot .secondary 0 first, .slot .secondary 1 physical, .slot .secondary 2 last,
        .slot .secondary 1 physical] := rfl
  rw [Monomial.balanced_iff, hindices]
  intro k id
  cases k <;> rcases id with _ | _ | _ | id <;> simp [Index.idOf?, Index.range]

theorem primaryArguments_singleChain :
    (Monomial.singleChain e r first physical last : Monomial K).PrimaryArguments := by
  have hinner : (Monomial.singleChain e r first physical last : Monomial K).innerIndices =
      [.slot .secondary 0 first, .slot .secondary 0 first, .slot .secondary 1 physical,
        .slot .secondary 2 last, .slot .secondary 1 physical] := rfl
  intro i hi
  rw [hinner] at hi
  simp only [List.mem_cons, List.not_mem_nil, or_false] at hi
  rcases hi with rfl | rfl | rfl | rfl | rfl <;> rfl

variable [BEq K] [Constant K] [ExactConstant K]

/-- The passes between contraction and the cancellation of chains leave it as it is. -/
theorem addUp_singleton {m : Monomial K} (hc : m.constant = 1) (hd : m.determinants = []) :
    (⟨[m]⟩ : Form K).factorize.eliminateZeros.contractDeterminants = ⟨[m]⟩ := by
  have hfac : (⟨[m]⟩ : Form K).factorize = ⟨[m]⟩ := by
    rw [factorize, contractPairs, contractPairwise_singleton]
    rfl
  have hzero : (⟨[m]⟩ : Form K).eliminateZeros = ⟨[m]⟩ := by
    have : (m.constant == 0) = false := by simp [hc]
    simp [eliminateZeros, this]
  have hdet : m.contractDeterminants = m := by
    simp only [Monomial.contractDeterminants, hd, contractPairs, contractPairwise]
    rw [← hd]
    rfl
  rw [hfac, hzero, contractDeterminants, map, List.map_singleton, hdet]

/-- On a form of one monomial without determinants, a round cancels the chains. -/
theorem round_singleton {m : Monomial K} (hc : m.constant = 1) (hd : m.determinants = []) :
    (⟨[m]⟩ : Form K).round = .ok (renumber (simplifyDerivatives (renumber ⟨[m]⟩))) := by
  obtain ⟨n, hn, hnc, hnd⟩ : ∃ n, renumber ⟨[m]⟩ = (⟨[n]⟩ : Form K) ∧ n.constant = 1 ∧
      n.determinants = [] := ⟨_, rfl, hc, hd⟩
  rw [round, contract_singleton, hn]
  simp only [bind, Except.bind, addUp_singleton hnc hnd, nonFinite?_of_exact]

theorem round_singleChain :
    (singleChain e r first physical last : Form K).round =
      .ok ⟨[Monomial.singleDerivative e r (.slot .secondary 0 last)]⟩ := by
  rw [singleChain, round_singleton rfl rfl, ← singleChain, renumber_singleChain, singleChain,
    simplifyDerivatives, map, List.map_singleton, simplifyDerivatives_singleChain]
  rfl

theorem simplify_singleChain :
    (singleChain e r first physical last : Form K).simplify =
      .ok ⟨[Monomial.singleDerivative e r (.slot .secondary 0 last)]⟩ := by
  have hb : (singleChain e r first physical last : Form K).Balanced := by
    intro m hm
    obtain rfl := List.mem_singleton.mp hm
    exact balanced_singleChain e r first physical last
  obtain ⟨n, -, hrun⟩ := simplify_runs hb (nonFinite?_of_exact _)
  have hrenumber : renumber ⟨[Monomial.singleDerivative e r (.slot .secondary 0 last)]⟩ =
      (⟨[Monomial.singleDerivative e r (.slot .secondary 0 last)]⟩ : Form K) := rfl
  have hchains : (Monomial.singleDerivative e r (.slot .secondary 0 last) :
      Monomial K).simplifyDerivatives = Monomial.singleDerivative e r (.slot .secondary 0 last) :=
    (Monomial.simplifyDerivatives_eq_or_shorter _).resolve_right (Nat.not_lt_zero _)
  have hround : (⟨[Monomial.singleDerivative e r (.slot .secondary 0 last)]⟩ : Form K).round =
      .ok ⟨[Monomial.singleDerivative e r (.slot .secondary 0 last)]⟩ := by
    rw [round_singleton rfl rfl, hrenumber, simplifyDerivatives, map, List.map_singleton, hchains,
      hrenumber]
  -- the first round changes the number of transforms, the second one nothing
  have hne : ¬ Settled (singleChain e r first physical last)
      (⟨[Monomial.singleDerivative e r (.slot .secondary 0 last)]⟩ : Form K) := by
    intro h
    have := weight_of_beq h
    simp [weight, singleChain, Monomial.weight, Monomial.singleChain,
      Monomial.singleDerivative] at this
  exact (hrun.unique (.again (round_singleChain e r first physical last) hne
    (.done hround (beq_self_of_finite (nonFinite?_of_exact _))))).2

end Form

/-! ### Probes -/

theorem isChain_singleChain (r : Restriction) (first physical last : List ℕ) :
    IsChain r (.slot .secondary 0 first)
      ⟨.inverse, .slot .secondary 0 first, .slot .secondary 1 physical, r⟩
      ⟨.jacobian, .slot .secondary 2 last, .slot .secondary 1 physical, r⟩ where
  secondary := rfl
  starts := by cases r <;> rfl
  ends := by cases r <;> rfl

/-- The directions are permuted by `σ`, and products of basis functions count if all derivatives are
taken along `k`. -/
def Interpretation.probe {d : ℕ} (σ : Equiv.Perm (Fin d)) (k : ℕ) : Interpretation K d where
  integral _ vs := if ∀ w ∈ vs, ∀ δ ∈ w.derivatives, δ.index = .fixed k then 1 else 0
  jacobian _ := Matrix.of fun i j => if σ j = i then 1 else 0
  inverse _ := Matrix.of fun i j => if σ i = j then 1 else 0
  coefficient _ _ _ := 1
  determinant _ := 1
  integral_onPlusSide i vs _ := by
    have h : ∀ w : BasisFunction, w.onPlusSide.derivatives = w.derivatives := by
      intro w
      unfold BasisFunction.onPlusSide
      split <;> rfl
    simp only [List.forall_mem_map, h]
  inverse_mul_jacobian r := by
    ext i j
    simp [Matrix.mul_apply, Matrix.one_apply, eq_comm]
  determinant_ne_zero _ := one_ne_zero

namespace Interpretation

variable {d : ℕ} (σ : Equiv.Perm (Fin d)) (k : ℕ)

theorem probe_inverse (r : Restriction) (x y : ℕ) :
    (probe σ k : Interpretation K d).transform .inverse r x y =
      if ∃ h : x < d, (σ ⟨x, h⟩ : ℕ) = y then 1 else 0 := by
  show entry (Matrix.of fun i j => if σ i = j then (1 : K) else 0) x y = _
  unfold entry
  by_cases hx : x < d
  · by_cases hy : y < d
    · rw [dif_pos ⟨hx, hy⟩, Matrix.of_apply]
      simp [hx, Fin.ext_iff]
    · rw [dif_neg fun h => hy h.2, if_neg]
      rintro ⟨_, rfl⟩
      exact hy (Fin.isLt _)
  · rw [dif_neg fun h => hx h.1, if_neg]
    rintro ⟨h, -⟩
    exact hx h

theorem probe_jacobian (r : Restriction) (z y : ℕ) :
    (probe σ k : Interpretation K d).transform .jacobian r z y =
      if ∃ h : z < d, (σ ⟨z, h⟩ : ℕ) = y then 1 else 0 := by
  rw [← probe_inverse (K := K) σ k r z y]
  show entry _ y z = entry _ z y
  unfold entry
  simp only [and_comm]
  rfl

theorem probe_fixed (e : Element) (r : Restriction) (x : ℕ) (a : Slot → ℕ) :
    (probe σ k : Interpretation K d).value (Monomial.singleDerivative e r (.fixed x)) a =
      if x = k then 1 else 0 := by
  have hsum : ∀ F : (Slot → ℕ) → K,
      sumIndices (Monomial.singleDerivative e r (.fixed x) : Monomial K).indices F a = F a :=
    fun _ => rfl
  rw [value, hsum]
  simp [Monomial.singleDerivative, factors, transforms, coefficients, determinants, probe,
    mapIndices_basisFunction, Index.resolve, Index.valueIn]

theorem probe_slot (e : Element) (r : Restriction) (range : List ℕ) (a : Slot → ℕ) :
    (probe σ k : Interpretation K d).value
        (Monomial.singleDerivative e r (.slot .secondary 0 range)) a =
      if k ∈ range then 1 else 0 := by
  have hslot : (⟨.secondary, 0⟩ : Slot) ∈ summedSlots
      (Monomial.singleDerivative e r (.slot .secondary 0 range) : Monomial K).indices :=
    List.mem_singleton.mpr rfl
  have hvalues : slotValues
      (Monomial.singleDerivative e r (.slot .secondary 0 range) : Monomial K).indices
        ⟨.secondary, 0⟩ = range.toFinset := by
    show (range ++ []).toFinset = _
    rw [List.append_nil]
  have hsubst : ∀ x, mapIndices (Index.subst ⟨.secondary, 0⟩ x)
      (Monomial.singleDerivative e r (.slot .secondary 0 range) : Monomial K) =
        Monomial.singleDerivative e r (.fixed x) := fun _ => rfl
  rw [value_subst _ hslot, hvalues]
  simp only [hsubst, probe_fixed, Finset.sum_ite_eq', List.mem_toFinset]

/-- Summed over some of the physical directions, the chain leads from `k` to itself if `k` is one of
the directions and its image is among those summed over, and nowhere otherwise. -/
theorem probe_sum (r : Restriction) (R : Finset ℕ) (z : ℕ) :
    ∑ y ∈ R, (probe σ k : Interpretation K d).transform .inverse r k y *
        (probe σ k : Interpretation K d).transform .jacobian r z y =
      if z = k ∧ ∃ h : k < d, (σ ⟨k, h⟩ : ℕ) ∈ R then 1 else 0 := by
  simp only [probe_inverse, probe_jacobian]
  by_cases hk : k < d
  · have hterm : ∀ y, ((if ∃ h : k < d, (σ ⟨k, h⟩ : ℕ) = y then (1 : K) else 0) *
        if ∃ h : z < d, (σ ⟨z, h⟩ : ℕ) = y then 1 else 0) =
          if (σ ⟨k, hk⟩ : ℕ) = y then (if z = k then 1 else 0) else 0 := by
      intro y
      by_cases hy : (σ ⟨k, hk⟩ : ℕ) = y
      · have hzk : (∃ h : z < d, (σ ⟨z, h⟩ : ℕ) = y) ↔ z = k := by
          constructor
          · rintro ⟨h, hz⟩
            have := σ.injective (Fin.ext (hz.trans hy.symm))
            exact congrArg Fin.val this
          · rintro rfl
            exact ⟨hk, hy⟩
        simp [hk, hy, hzk]
      · simp [hk, hy]
    simp only [hterm, Finset.sum_ite_eq]
    by_cases hz : z = k
    · simp [hz, hk]
    · simp [hz]
  · simp [hk]

/-- The value of a single chain: `k` has to be passed on from the first slot to the last one. -/
theorem probe_singleChain (e : Element) (r : Restriction) (first physical last : List ℕ)
    (a : Slot → ℕ) :
    (probe σ k : Interpretation K d).value (Monomial.singleChain e r first physical last) a =
      if k ∈ first ∧ k ∈ last ∧ ∃ h : k < d, (σ ⟨k, h⟩ : ℕ) ∈ physical then 1 else 0 := by
  let p : DerivativePlace := ⟨[], { BasisFunction.argument e 0 with restriction := r }, [],
    ⟨e, .slot .secondary 0 first⟩, [], []⟩
  let m : Monomial K := Monomial.singleDerivative e r (.slot .secondary 0 first)
  have hbalanced : (m.withFactors (p.along p.derivative.index)
      [⟨.inverse, .slot .secondary 0 first, .slot .secondary 1 physical, r⟩,
        ⟨.jacobian, .slot .secondary 2 last, .slot .secondary 1 physical, r⟩]).Balanced :=
    Form.balanced_singleChain e r first physical last
  obtain ⟨slot, hslot, hv⟩ := (probe σ k : Interpretation K d).toValuation.value_chain m p
    (isChain_singleChain r first physical last) hbalanced
    (Form.primaryArguments_singleChain e r first physical last).summedTransforms
  obtain rfl : ⟨.secondary, 2⟩ = slot := Option.some.inj hslot
  have hsum : (probe σ k : Interpretation K d).value
      (Monomial.singleChain e r first physical last) a =
        ∑ z ∈ last.toFinset, ∑ x ∈ first.toFinset,
          (∑ y ∈ physical.toFinset, (probe σ k : Interpretation K d).transform .inverse r x y *
            (probe σ k : Interpretation K d).transform .jacobian r z y) *
            (probe σ k : Interpretation K d).value
              (Monomial.singleDerivative e r (.fixed x)) a := (hv a).2
  simp only [probe_fixed, mul_ite, mul_one, mul_zero, Finset.sum_ite_eq', probe_sum,
    List.mem_toFinset] at hsum
  rw [hsum]
  by_cases hfirst : k ∈ first
  · by_cases hphysical : ∃ h : k < d, (σ ⟨k, h⟩ : ℕ) ∈ physical
    · simp only [hfirst, hphysical, and_true, true_and, if_true, Finset.sum_ite_eq',
        List.mem_toFinset]
    · simp [hphysical]
  · simp [hfirst]

end Interpretation

/-! ### Completeness is necessary -/

namespace Form

variable (e : Element) (r : Restriction) (first physical last : List ℕ) {d : ℕ} {C : Prop}

theorem chainsComplete_singleChain
    (h : ∀ n ∈ last, (n ∈ first ∧ n < d) ∧ ∀ k < d, k ∈ physical) :
    (Monomial.singleChain e r first physical last : Monomial K).ChainsComplete d := by
  intro v hv δ hδ s hs t ht hchain n hn
  obtain ⟨⟨hsk, -⟩, htk, -⟩ := hchain.factors
  obtain rfl := List.mem_singleton.mp hv
  obtain rfl := List.mem_singleton.mp hδ
  -- of the two transforms the first one is the inverse
  rcases List.mem_pair.mp hs with rfl | rfl
  · rcases List.mem_pair.mp ht with rfl | rfl
    · cases htk
    · exact h n hn
  · cases hsk

variable [BEq K] [Constant K] [ExactConstant K]

/-- Cancelling a single chain keeps the value under every interpretation if and only if the chain is
complete. -/
theorem singleChain_sameValue_iff :
    SameValue d C (singleChain e r first physical last : Form K)
        ⟨[Monomial.singleDerivative e r (.slot .secondary 0 last)]⟩ ↔
      ∀ n ∈ last, (n ∈ first ∧ n < d) ∧ ∀ k < d, k ∈ physical := by
  constructor
  · rintro ⟨ρ, -, hv⟩ n hn
    have hprobe : ∀ σ : Equiv.Perm (Fin d), n ∈ first ∧ ∃ h : n < d, (σ ⟨n, h⟩ : ℕ) ∈ physical := by
      intro σ
      have h := hv (.probe σ n) (fun _ _ _ => rfl) {} 0
      have hvalue : ∀ (m : Monomial K) (values : ℕ → ℕ), m.integral = {} →
          (Interpretation.probe σ n : Interpretation K d).formValue ⟨[m]⟩ {} values =
            (Interpretation.probe σ n : Interpretation K d).value m (primaryValues values) := by
        intro m values hm
        simp [Interpretation.formValue, hm]
      rw [hvalue _ _ rfl, singleChain, hvalue _ _ rfl, Interpretation.probe_slot,
        Interpretation.probe_singleChain, if_pos hn] at h
      by_contra hne
      rw [if_neg fun hc => hne ⟨hc.1, hc.2.2⟩] at h
      exact one_ne_zero h
    obtain ⟨hfirst, hnd, -⟩ := hprobe 1
    refine ⟨⟨hfirst, hnd⟩, fun k hk => ?_⟩
    -- the permutation that takes `n` to `k`
    obtain ⟨-, h, hphysical⟩ := hprobe (Equiv.swap ⟨n, hnd⟩ ⟨k, hk⟩)
    rwa [Equiv.swap_apply_left] at hphysical
  · intro h
    refine round_sameValue (round_singleChain e r first physical last) ?_ ?_
    · intro m hm
      obtain rfl := List.mem_singleton.mp hm
      refine ⟨balanced_singleChain e r first physical last,
        primaryArguments_singleChain e r first physical last, ?_⟩
      rintro ⟨δ, hδ, -⟩
      cases hδ
    · intro c hc m hm
      rw [singleChain, contract_singleton, ← singleChain, renumber_singleChain,
        Except.ok.injEq] at hc
      rw [← hc, singleChain, addUp_singleton rfl rfl] at hm
      obtain rfl := List.mem_singleton.mp hm
      exact chainsComplete_singleChain e r first physical last h

end Form

end WeakForm
