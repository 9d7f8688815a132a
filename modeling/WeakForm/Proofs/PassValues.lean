import WeakForm.Proofs.ContractionValue
import WeakForm.Proofs.NormalForm

/-!
# Contraction, factorization and zero elimination

Each of the three passes that change which monomials a form has keeps its value under every
valuation in a commutative ring, and leaves nothing to do for itself
(`Form.contract_factorize_eliminateZeros`): no pair of monomials contracts, no two agree up to their
constants, no constant is zero.

Contraction is tested on the monomials in order, so that it has come to an end is known from its
last sweep (`Form.contract_settled`).  One run of factorization is enough, because a sum agrees with
everything its left summand agrees with.
-/

namespace WeakForm

open Indexed

namespace Monomial

variable {K : Type}

/-- The monomial without its constant. -/
def shape (m : Monomial K) : Monomial Unit :=
  { m with constant := () }

theorem eqIgnoringConstant_iff_shape {m n : Monomial K} :
    m.eqIgnoringConstant n = true ↔ m.shape = n.shape := by
  rw [eqIgnoringConstant_iff]
  constructor
  · intro h
    rw [h]
    rfl
  · intro h
    obtain ⟨⟨c, vs, ts, cs, ds⟩, i⟩ := m
    obtain ⟨⟨c', vs', ts', cs', ds'⟩, i'⟩ := n
    simp only [shape, Monomial.mk.injEq, Product.mk.injEq, true_and] at h ⊢
    grind

theorem shape_factorize [Add K] {m n q : Monomial K} (h : m.factorize n = some q) :
    q.shape = m.shape := by
  unfold factorize at h
  split at h
  · cases h
    rfl
  · cases h

theorem shape_ne [Add K] {m n : Monomial K} (h : m.factorize n = none) : m.shape ≠ n.shape := by
  intro hs
  have := not_agree h
  rw [eqIgnoringConstant_iff_shape.mpr hs] at this
  cases this

end Monomial

namespace Form

/-- After factorization no two monomials agree up to their constants. -/
theorem pairwise_factorize {K : Type} [Add K] (f : Form K) :
    f.factorize.monomials.Pairwise fun m n => m.eqIgnoringConstant n = false := by
  have hnodup := (contracts_contractPairs Monomial.factorize f.monomials).nodup_map
    (fun _ _ _ => Monomial.shape_factorize) fun _ _ => Monomial.shape_ne
  refine (List.pairwise_map.mp hnodup).imp fun hne => ?_
  exact Bool.eq_false_iff.mpr fun h => hne (Monomial.eqIgnoringConstant_iff_shape.mp h)

variable {R : Type} [CommRing R]

/-- What contraction, factorization and zero elimination do.  Contraction of a balanced form whose
primary slots are arguments succeeds, and keeps the value on every integral up to one renumbering of
the primary slots; the result is numbered, and no pair of its monomials contracts.  Factorization
and zero elimination keep all values; after them no two monomials agree up to their constants, and
no constant is zero. -/
theorem contract_factorize_eliminateZeros [BEq R] [LawfulBEq R] {f : Form R} (hb : f.Balanced)
    (hp : ∀ m ∈ f.monomials, m.PrimaryArguments) :
    (∃ g, f.contract = .ok g ∧
      (∃ ρ : ℕ → ℕ, Function.Injective ρ ∧ ∀ (v : Valuation R) (i : Integral) (values : ℕ → ℕ),
        v.formValue g i values = v.formValue f i (values ∘ ρ)) ∧
      (g.monomials.Pairwise fun m n =>
        ¬ (m.mayContract n = true ∧ ∃ q, m.contract n = .ok (some q))) ∧
      g.Numbered ∧ g.renumber = g) ∧
    (∀ (v : Valuation R) (i : Integral) (values : ℕ → ℕ),
      v.formValue f.factorize i values = v.formValue f i values) ∧
    (f.factorize.monomials.Pairwise fun m n => m.eqIgnoringConstant n = false) ∧
    (∀ (v : Valuation R) (i : Integral) (values : ℕ → ℕ),
      v.formValue f.eliminateZeros i values = v.formValue f i values) ∧
    ∀ m ∈ f.eliminateZeros.monomials, m.constant ≠ 0 := by
  obtain ⟨g, hg, -⟩ := hb.contract
  obtain ⟨hr, hn, hpairs⟩ := contract_settled hg
  refine ⟨⟨g, hg, exists_formValue_contract hg hp, hpairs.imp fun h => ?_, hn, hr⟩,
    fun v => v.formValue_factorize f, f.pairwise_factorize, fun v => v.formValue_eliminateZeros f,
    fun m hm => ?_⟩
  · rintro ⟨hl, q, hq⟩
    exact Monomial.not_contracts h ⟨hl, hq⟩
  · simpa using (List.mem_filter.mp hm).2

theorem contract_factorize_eliminateZeros_chainTerms :
    let f := chainTerms (3 : ℤ) .triangle [0, 1]
    f.Balanced ∧ (∀ m ∈ f.monomials, m.PrimaryArguments) ∧
    (∃ g, f.contract = .ok g ∧
      (∃ ρ : ℕ → ℕ, Function.Injective ρ ∧ ∀ (v : Valuation ℤ) (i : Integral) (values : ℕ → ℕ),
        v.formValue g i values = v.formValue f i (values ∘ ρ)) ∧
      (g.monomials.Pairwise fun m n =>
        ¬ (m.mayContract n = true ∧ ∃ q, m.contract n = .ok (some q))) ∧
      g.Numbered ∧ g.renumber = g) ∧
    (∀ (v : Valuation ℤ) (i : Integral) (values : ℕ → ℕ),
      v.formValue f.factorize i values = v.formValue f i values) ∧
    (f.factorize.monomials.Pairwise fun m n => m.eqIgnoringConstant n = false) ∧
    (∀ (v : Valuation ℤ) (i : Integral) (values : ℕ → ℕ),
      v.formValue f.eliminateZeros i values = v.formValue f i values) ∧
    ∀ m ∈ f.eliminateZeros.monomials, m.constant ≠ 0 := by
  intro f
  have hb : f.Balanced := (imbalance?_eq_none_iff f).mp (by decide +kernel)
  have hp : ∀ m ∈ f.monomials, m.PrimaryArguments := by decide +kernel
  exact ⟨hb, hp, contract_factorize_eliminateZeros hb hp⟩

end Form

end WeakForm
