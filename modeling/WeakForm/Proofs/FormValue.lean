import Mathlib.Algebra.BigOperators.Group.List.Lemmas
import Mathlib.Algebra.GroupWithZero.Basic
import WeakForm.Proofs.ChainValue
import WeakForm.Proofs.SummationConvention

/-!
# What the passes do to values

Each pass of the simplifier keeps the value of a form on every integral: normalization of
restrictions, addition of equal monomials, elimination of zeros and multiplication of determinants
keep it as it is; renumbering and contraction rename the primary slots (`Form.SameValue`);
cancellation of chains keeps it if the chains are complete.
-/

namespace WeakForm

open Indexed

/-- A product of determinants is taken on the side of one of them; if their sides differ, the other
one is the same on both sides. -/
theorem Determinant.multiply_eq_some {δ ε ζ : Determinant} (h : δ.multiply ε = some ζ) :
    ζ.power = δ.power + ε.power ∧
      (ζ.restriction = δ.restriction ∨ ζ.restriction = ε.restriction) ∧
      (δ.restriction = ε.restriction ∨ δ.restriction = .constant ∨ ε.restriction = .constant) := by
  unfold multiply at h
  split at h
  · rename_i hr
    cases h
    exact ⟨rfl, .inl rfl, .inl hr⟩
  · split at h
    · rename_i hc
      cases h
      exact ⟨rfl, .inr rfl, .inr (.inl hc)⟩
    · split at h
      · rename_i hc
        cases h
        exact ⟨rfl, .inl rfl, .inr (.inr hc)⟩
      · cases h

variable {K : Type} [Field K] {d : ℕ}

namespace Interpretation

variable (v : Interpretation K d)

/-- The determinant is the same on both sides of a facet. -/
def OneDeterminant : Prop :=
  ∀ r s, v.determinant r = v.determinant s

/-! ### Monomials -/

theorem value_normalizeRestrictions (m : Monomial K) (a : Slot → ℕ) :
    v.value m.normalizeRestrictions a = v.value m a := by
  unfold Monomial.normalizeRestrictions
  split
  · rename_i hd
    apply v.value_congr
    · rfl
    · intro i _
      have := Monomial.indices_normalizeRestrictions m
      unfold Monomial.normalizeRestrictions at this
      rw [if_pos hd] at this
      rw [this]
    · intro b
      have hresolve : (m.basisFunctions.map BasisFunction.onPlusSide).map
            (mapIndices (Index.resolve b)) =
          (m.basisFunctions.map (mapIndices (Index.resolve b))).map BasisFunction.onPlusSide := by
        rw [List.map_map, List.map_map]
        apply List.map_congr_left
        intro w _
        simp only [Function.comp_apply, BasisFunction.onPlusSide, mapIndices_basisFunction]
        split <;> rfl
      have hintegral := v.integral_onPlusSide m.integral
        (m.basisFunctions.map (mapIndices (Index.resolve b))) hd
      rw [← hresolve] at hintegral
      exact congrArg (· * _) hintegral
  · rfl

/-- A product of determinants has the value of both. -/
theorem determinant_multiply {δ ε ζ : Determinant} (h : δ.multiply ε = some ζ)
    (hδ : δ.restriction = .constant → v.OneDeterminant)
    (hε : ε.restriction = .constant → v.OneDeterminant) :
    v.determinant ζ.restriction ^ ζ.power =
      v.determinant δ.restriction ^ δ.power * v.determinant ε.restriction ^ ε.power := by
  obtain ⟨hpower, hζ, hsides⟩ := δ.multiply_eq_some h
  have hsame : v.determinant δ.restriction = v.determinant ε.restriction := by
    rcases hsides with hsides | hsides | hsides
    · rw [hsides]
    · exact hδ hsides _ _
    · exact hε hsides _ _
  have hζv : v.determinant ζ.restriction = v.determinant ε.restriction := by
    rcases hζ with hζ | hζ
    · rw [hζ, hsame]
    · rw [hζ]
  rw [hpower, hζv, hsame, zpow_add₀ (v.determinant_ne_zero _)]

theorem determinants_contractPairs {ds : List Determinant}
    (h : (∃ δ ∈ ds, δ.restriction = .constant) → v.OneDeterminant) :
    v.determinants (contractPairs Determinant.multiply ds) = v.determinants ds := by
  have hrun := contracts_contractPairs Determinant.multiply ds
  -- products are sums in the additive notation
  have hsum := hrun.sum_map (P := fun δ => δ.restriction = .constant → v.OneDeterminant)
    (f := fun δ => Additive.ofMul (v.determinant δ.restriction ^ δ.power))
    (fun δ ε ζ hδ hε hm hζ => (δ.multiply_eq_some hm).2.1.elim
      (fun hr => hδ (hr ▸ hζ)) fun hr => hε (hr ▸ hζ))
    (fun δ ε ζ hδ hε hm => by rw [← ofMul_mul, v.determinant_multiply hm hδ hε])
    (fun δ hδ hc => h ⟨δ, hδ, hc⟩)
  have hprod : ∀ es : List Determinant, Additive.ofMul (v.determinants es) =
      (es.map fun δ => Additive.ofMul (v.determinant δ.restriction ^ δ.power)).sum := by
    intro es
    rw [determinants, ofMul_list_prod, List.map_map]
    rfl
  rw [← hprod, ← hprod] at hsum
  exact Additive.ofMul.injective hsum

theorem value_contractDeterminants {m : Monomial K}
    (h : (∃ δ ∈ m.determinants, δ.restriction = .constant) → v.OneDeterminant) (a : Slot → ℕ) :
    v.value m.contractDeterminants a = v.value m a := by
  apply v.value_congr
  · rfl
  · exact fun _ _ => Iff.rfl
  · intro b
    rw [factors, factors]
    simp only [Monomial.contractDeterminants]
    rw [v.determinants_contractPairs h]

/-! ### Forms -/

theorem formValue_map {f : Form K} {g : Monomial K → Monomial K} {i : Integral} {a b : ℕ → ℕ}
    (hi : ∀ m ∈ f.monomials, (g m).integral = m.integral)
    (hv : ∀ m ∈ f.monomials, v.value (g m) (primaryValues a) = v.value m (primaryValues b)) :
    v.formValue (f.map g) i a = v.formValue f i b := by
  rw [formValue, Form.monomials_map, List.map_map, formValue]
  refine congrArg List.sum (List.map_congr_left fun m hm => ?_)
  simp only [Function.comp_apply, hi m hm, hv m hm]

theorem formValue_normalizeRestrictions (f : Form K) (i : Integral) (values : ℕ → ℕ) :
    v.formValue f.normalizeRestrictions i values = v.formValue f i values := by
  refine v.formValue_map (fun m _ => ?_) fun m _ => v.value_normalizeRestrictions m _
  unfold Monomial.normalizeRestrictions
  split <;> rfl

theorem formValue_contractDeterminants {f : Form K}
    (h : ∀ m ∈ f.monomials, (∃ δ ∈ m.determinants, δ.restriction = .constant) → v.OneDeterminant)
    (i : Integral) (values : ℕ → ℕ) :
    v.formValue f.contractDeterminants i values = v.formValue f i values :=
  v.formValue_map (fun _ _ => rfl) fun m hm => v.value_contractDeterminants (h m hm) _

theorem formValue_simplifyDerivatives {f : Form K} (hb : f.Balanced)
    (hp : ∀ m ∈ f.monomials, m.PrimaryArguments) (hc : ∀ m ∈ f.monomials, m.ChainsComplete d)
    (i : Integral) (values : ℕ → ℕ) :
    v.formValue f.simplifyDerivatives i values = v.formValue f i values :=
  v.formValue_map (fun _ _ => rfl) fun m hm =>
    v.value_simplifyDerivatives (hb m hm) (hp m hm) (hc m hm) _

theorem formValue_factorize (f : Form K) (i : Integral) (values : ℕ → ℕ) :
    v.formValue f.factorize i values = v.formValue f i values :=
  v.toValuation.formValue_factorize f i values

theorem formValue_eliminateZeros [BEq K] [LawfulBEq K] (f : Form K) (i : Integral)
    (values : ℕ → ℕ) : v.formValue f.eliminateZeros i values = v.formValue f i values :=
  v.toValuation.formValue_eliminateZeros f i values

end Interpretation

/-! ### Values up to renumbering -/

namespace Form

/-- The two forms have the same value on every integral, up to a renumbering of the primary slots,
under every interpretation that has only one determinant in case of `C`. -/
def SameValue (d : ℕ) (C : Prop) (f g : Form K) : Prop :=
  ∃ ρ : ℕ → ℕ, Function.Injective ρ ∧ ∀ v : Interpretation K d, (C → v.OneDeterminant) →
    ∀ i values, v.formValue g i values = v.formValue f i (values ∘ ρ)

variable {C : Prop}

theorem SameValue.of_eq {f g : Form K}
    (h : ∀ v : Interpretation K d, (C → v.OneDeterminant) →
      ∀ i values, v.formValue g i values = v.formValue f i values) : SameValue d C f g :=
  ⟨id, Function.injective_id, h⟩

theorem SameValue.trans {f g h : Form K} (hfg : SameValue d C f g) (hgh : SameValue d C g h) :
    SameValue d C f h := by
  obtain ⟨ρ, hρ, hv⟩ := hfg
  obtain ⟨σ, hσ, hw⟩ := hgh
  refine ⟨σ ∘ ρ, hσ.comp hρ, fun v hC i values => ?_⟩
  rw [hw v hC, hv v hC]
  rfl

theorem sameValue_renumber (f : Form K) : SameValue d C f f.renumber :=
  ⟨_, numbering_injective _, fun v _ => v.toValuation.formValue_renumber f⟩

theorem sameValue_contract [BEq K] [LawfulBEq K] {f g : Form K} (h : f.contract = .ok g)
    (hp : ∀ m ∈ f.monomials, m.PrimaryArguments) : SameValue d C f g := by
  obtain ⟨ρ, hρ, hv⟩ := exists_formValue_contract h hp
  exact ⟨ρ, hρ, fun v _ => hv v.toValuation⟩

end Form

end WeakForm
