import WeakForm.Proofs.Preservation

/-!
# Cancellation of derivative chains

What the cancellation of derivative chains does to a single monomial, whatever the basis functions
are integrated to.  The transforms that are left stand in their order
(`Monomial.simplifyDerivatives_sublist`), two of them are gone for each chain
(`Monomial.exists_length_transforms`), and apart from transforms only the directions of derivatives
change (`Monomial.undirected_simplifyDerivatives`).

If each direction is a literal or is summed from zero to the dimension, then the value is kept as
well, for any matrices that are inverse to each other (`Monomial.simplifyDerivatives_exact`).
-/

namespace WeakForm

open Indexed

/-! ### The transforms that are left -/

theorem cancelChain_sublist {restriction : Restriction} {l n : Index} {ts rest : List Transform}
    (h : cancelChain restriction l ts = some (n, rest)) : rest.Sublist ts := by
  simp only [cancelChain, Option.bind_eq_bind, Option.bind_eq_some_iff, Option.pure_def,
    Option.some.injEq, Prod.mk.injEq] at h
  obtain ⟨-, -, s, -, t, -, -, rfl⟩ := h
  exact List.eraseP_sublist.trans List.eraseP_sublist

theorem cancelDerivatives_sublist (restriction : Restriction) (ds : List Derivative)
    (ts : List Transform) : (cancelDerivatives restriction ds ts).2.Sublist ts := by
  induction ds generalizing ts with
  | nil => exact List.Sublist.refl ts
  | cons d ds ih =>
    cases hc : cancelChain restriction d.index ts with
    | none =>
      simp only [cancelDerivatives, hc]
      exact ih ts
    | some p =>
      simp only [cancelDerivatives, hc]
      exact (ih p.2).trans (cancelChain_sublist hc)

theorem cancelChains_sublist (vs : List BasisFunction) (ts : List Transform) :
    (cancelChains vs ts).2.Sublist ts := by
  induction vs generalizing ts with
  | nil => exact List.Sublist.refl ts
  | cons v vs ih =>
    simp only [cancelChains]
    exact (ih _).trans (cancelDerivatives_sublist v.restriction v.derivatives ts)

namespace Monomial

section
variable {K : Type} {P : Index → Transform → Transform → Prop}

theorem simplifyDerivatives_sublist (m : Monomial K) :
    m.simplifyDerivatives.transforms.Sublist m.transforms :=
  cancelChains_sublist m.basisFunctions m.transforms

theorem exists_length_transforms (m : Monomial K) :
    ∃ k, m.transforms.length = m.simplifyDerivatives.transforms.length + 2 * k := by
  refine simplifyDerivatives_keeps
    (Q := fun n => ∃ k, m.transforms.length = n.transforms.length + 2 * k) ?_ ⟨0, rfl⟩
  rintro n n' hs ⟨k, hk⟩
  have := hs.length_transforms
  exact ⟨k + 1, by omega⟩

/-! ### What is left as it was -/

/-- The monomial without its transforms and without the directions of its derivatives. -/
def undirected (m : Monomial K) : Monomial K :=
  { m with
    basisFunctions := m.basisFunctions.map fun v =>
      { v with derivatives := v.derivatives.map fun δ => { δ with index := .fixed 0 } }
    transforms := [] }

theorem CancelStep.undirected_eq {m n : Monomial K} (hs : CancelStep P m n) :
    n.undirected = m.undirected := by
  cases hs with
  | mk p _ _ _ => simp [undirected, withFactors, DerivativePlace.along]

theorem undirected_simplifyDerivatives (m : Monomial K) :
    m.simplifyDerivatives.undirected = m.undirected :=
  simplifyDerivatives_keeps (Q := fun n => n.undirected = m.undirected)
    (fun _ _ hs h => hs.undirected_eq.trans h) rfl

/-! ### Values -/

/-- Derivatives and transforms are taken along literal directions, or along secondary and auxiliary
slots that run over all directions. -/
def SummedDirections (d : ℕ) (m : Monomial K) : Prop :=
  ∀ i ∈ m.directions, i.isFixed = false → i.isKind .primary = false ∧ ∀ x, x ∈ i.range ↔ x < d

theorem SummedDirections.summedTransforms {d : ℕ} {m : Monomial K} (h : m.SummedDirections d) :
    m.SummedTransforms := by
  intro i hi
  cases hf : i.isFixed with
  | false => exact (h i (List.mem_append_right _ hi) hf).1
  | true =>
    cases i with
    | slot k id r => cases hf
    | fixed v => rfl

end

/-- Cancellation of the chains of a balanced monomial, all of whose directions are literals or
summed over all directions: it keeps the value under every valuation whose transforms are the
entries of matrices inverse to each other, it keeps the summation convention, it takes pairs of
transforms out of the list of transforms, and it changes nothing else but directions of
derivatives. -/
theorem simplifyDerivatives_exact {R : Type} [CommRing R] {d : ℕ} (P : Pullback R d)
    (v : Valuation R) (hv : v.transform = P.transform) (m : Monomial R) (hb : m.Balanced)
    (hd : m.SummedDirections d) :
    (∀ a, v.value m.simplifyDerivatives a = v.value m a) ∧ m.simplifyDerivatives.Balanced ∧
      m.simplifyDerivatives.transforms.Sublist m.transforms ∧
      (∃ k, m.transforms.length = m.simplifyDerivatives.transforms.length + 2 * k) ∧
      m.simplifyDerivatives.undirected = m.undirected := by
  have hc : m.ChainsComplete d := chainsComplete_of_directions fun i hi hf => (hd i hi hf).2
  exact ⟨Valuation.value_simplifyDerivatives hv hb hd.summedTransforms hc,
    hb.simplifyDerivatives, m.simplifyDerivatives_sublist, m.exists_length_transforms,
    m.undirected_simplifyDerivatives⟩

/-- A chain in two dimensions, with a matrix that is no diagonal one and basis functions that
integrate to the sum of the directions of their derivatives. -/
theorem simplifyDerivatives_exact_singleChain :
    let A : Matrix (Fin 2) (Fin 2) ℚ := !![2, 1; 1, 1]
    let B : Matrix (Fin 2) (Fin 2) ℚ := !![1, -1; -1, 2]
    let m : Monomial ℚ := singleChain default .plus [0, 1] [0, 1] [0, 1]
    ∃ h : ∀ _ : Restriction, B * A = 1,
      let P : Pullback ℚ 2 := ⟨fun _ => A, fun _ => B, h⟩
      let v : Valuation ℚ :=
        { transform := P.transform, coefficient := fun _ => 1, determinant := fun _ => 1
          integral := fun _ vs => (vs.flatMap (·.derivatives)).map (fun δ => (δ.index.value : ℚ))
            |>.sum }
      (v.transform = P.transform ∧ m.Balanced ∧ m.SummedDirections 2) ∧
        (∀ a, v.value m.simplifyDerivatives a = v.value m a) ∧ m.simplifyDerivatives.Balanced ∧
        m.simplifyDerivatives.transforms.Sublist m.transforms ∧
        (∃ k, m.transforms.length = m.simplifyDerivatives.transforms.length + 2 * k) ∧
        m.simplifyDerivatives.undirected = m.undirected := by
  intro A B m
  have hBA : B * A = 1 := by decide +kernel
  refine ⟨fun _ => hBA, ?_⟩
  intro P v
  have hb : m.Balanced := Form.balanced_singleChain default .plus [0, 1] [0, 1] [0, 1]
  have hd : m.SummedDirections 2 := by
    have hrange : ∀ i ∈ m.directions, i.isKind .primary = false ∧ i.range = [0, 1] := by decide
    intro i hi _
    obtain ⟨h1, h2⟩ := hrange i hi
    refine ⟨h1, fun x => ?_⟩
    rw [h2, List.mem_pair]
    omega
  exact ⟨⟨rfl, hb, hd⟩, simplifyDerivatives_exact P v rfl m hb hd⟩

end Monomial

end WeakForm
