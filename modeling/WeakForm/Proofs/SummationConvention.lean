import WeakForm.Proofs.Termination

/-!
# The summation convention as an invariant of the simplifier

`Pass` names the passes of the simplifier.  Any sequence of passes turns a balanced form into a
balanced form and never fails (`Pass.runAll_balanced`).  Hence the only error of the simplifier on a
balanced form with finite constants is that the addition of equal monomials has produced a constant
that is not finite (`Form.simplify_eq_error`).

Outside of the simplifier, which renumbers first, the contraction of two balanced monomials needs an
identifier for a new slot.  It can fail only if one of them uses the largest machine word
(`Form.crowdedTerms_not_contracted`).
-/

namespace WeakForm

open Indexed

/-- The passes of the simplifier. -/
inductive Pass where
  | normalizeRestrictions
  | contract
  | factorize
  | eliminateZeros
  | contractDeterminants
  | simplifyDerivatives
  | renumber
deriving DecidableEq

namespace Pass

variable {K : Type} [BEq K] [Add K] [Zero K]

/-- What a pass makes of a form. -/
def run (f : Form K) : Pass → Except (FormError K) (Form K)
  | normalizeRestrictions => .ok f.normalizeRestrictions
  | contract => f.contract
  | factorize => .ok f.factorize
  | eliminateZeros => .ok f.eliminateZeros
  | contractDeterminants => .ok f.contractDeterminants
  | simplifyDerivatives => .ok f.simplifyDerivatives
  | renumber => .ok f.renumber

theorem run_balanced (p : Pass) {f : Form K} (h : f.Balanced) :
    ∃ g, p.run f = .ok g ∧ g.Balanced := by
  cases p with
  | normalizeRestrictions => exact ⟨_, rfl, h.normalizeRestrictions⟩
  | contract => exact h.contract
  | factorize => exact ⟨_, rfl, Monomial.kept_balanced.form_factorize h⟩
  | eliminateZeros => exact ⟨_, rfl, fun m hm => h m (List.mem_of_mem_filter hm)⟩
  | contractDeterminants => exact ⟨_, rfl, Monomial.kept_balanced.form_contractDeterminants h⟩
  | simplifyDerivatives => exact ⟨_, rfl, Monomial.kept_balanced.form_simplifyDerivatives h⟩
  | renumber => exact ⟨_, rfl, h.renumber⟩

theorem runAll_balanced (passes : List Pass) {f : Form K} (h : f.Balanced) :
    ∃ g, passes.foldlM run f = .ok g ∧ g.Balanced := by
  induction passes generalizing f with
  | nil => exact ⟨f, rfl, h⟩
  | cons p passes ih =>
    obtain ⟨g, hg, hb⟩ := p.run_balanced h
    obtain ⟨g', hg', hb'⟩ := ih hb
    refine ⟨g', ?_, hb'⟩
    rw [List.foldlM_cons, hg]
    exact hg'

end Pass

namespace Form

variable {K : Type}

/-! ### Constants -/

/-- Contraction joins monomials with equal constants and keeps the first one. -/
theorem finite_contract [Constant K] [BEq K] {f g : Form K} (h : f.contract = .ok g)
    (hf : f.nonFinite? = none) : g.nonFinite? = none := by
  rw [nonFinite?_eq_none_iff] at hf ⊢
  have hP : Monomial.KeptByContraction fun m : Monomial K =>
      Constant.isFinite m.constant = true :=
    ⟨fun _ _ _ hm => hm, fun _ _ _ _ hm _ => hm⟩
  exact hP.form_contract h hf

/-- After addition no pass of a round changes a constant. -/
theorem mem_factorize_of_mem_round [BEq K] [Add K] [Zero K] {c : Form K} {m : Monomial K}
    (h : m ∈
      c.factorize.eliminateZeros.contractDeterminants.simplifyDerivatives.renumber.monomials) :
    ∃ p ∈ c.factorize.monomials, p.constant = m.constant := by
  obtain ⟨m₁, h₁, rfl⟩ := List.mem_map.mp h
  obtain ⟨m₂, h₂, rfl⟩ := List.mem_map.mp h₁
  obtain ⟨m₃, h₃, rfl⟩ := List.mem_map.mp h₂
  exact ⟨m₃, List.mem_of_mem_filter h₃, rfl⟩

theorem finite_normalizeRestrictions [Constant K] {f : Form K} (hf : f.nonFinite? = none) :
    f.normalizeRestrictions.nonFinite? = none := by
  rw [nonFinite?_eq_none_iff] at hf ⊢
  intro n hn
  obtain ⟨m, hm, rfl⟩ := List.mem_map.mp hn
  have e : m.normalizeRestrictions.constant = m.constant := by
    unfold Monomial.normalizeRestrictions
    split <;> rfl
  rw [e]
  exact hf m hm

variable [Constant K] [BEq K] [Add K] [Zero K]

/-- A round over a balanced form with finite constants fails only because addition has produced a
constant that is not finite. -/
theorem Balanced.round_eq_error {f : Form K} {e : FormError K} (hb : f.Balanced)
    (hf : f.nonFinite? = none) (h : f.round = .error e) :
    ∃ m, e = .simplification (.overflow m) ∧ Constant.isFinite m.constant = false ∧
      ∃ c : Form K, c.nonFinite? = none ∧ ∃ p ∈ c.factorize.monomials, p.constant = m.constant := by
  obtain ⟨c, hc, -⟩ := hb.contract
  have hcf := finite_contract hc hf
  unfold Form.round at h
  simp only [hc, bind, Except.bind] at h
  split at h
  · rename_i m hm
    rw [Except.error.injEq] at h
    have hm' := List.find?_some hm
    exact ⟨m, h.symm, by simpa using hm', c, hcf,
      mem_factorize_of_mem_round (List.mem_of_find?_eq_some hm)⟩
  · cases h

theorem simplify_eq_error [LawfulConstant K] {f : Form K} {e : FormError K} (hb : f.Balanced)
    (hf : f.nonFinite? = none) (h : f.simplify = .error e) :
    ∃ m, e = .simplification (.overflow m) ∧ Constant.isFinite m.constant = false ∧
      ∃ c : Form K, c.nonFinite? = none ∧ ∃ p ∈ c.factorize.monomials, p.constant = m.constant := by
  obtain ⟨n, -, hr⟩ := simplify_runs hb hf
  have hkeep : ∀ s t : Form K, s.Balanced ∧ s.nonFinite? = none → s.round = .ok t →
      t.Balanced ∧ t.nonFinite? = none := by
    rintro s t ⟨hs, -⟩ hst
    obtain ⟨_, _, _, hfin⟩ := round_eq_ok hst
    exact ⟨hs.round hst, hfin⟩
  obtain ⟨t, ⟨htb, htf⟩, ht⟩ := hr.error hkeep
    ⟨hb.normalizeRestrictions, finite_normalizeRestrictions hf⟩ h
  exact htb.round_eq_error htf ht

/-- One of the directions of a sum that runs through two inverse transforms.  The slots between them
have the largest and the least identifier. -/
def crowdedTerm (direction : ℕ) : Monomial ℤ :=
  let element : Element := .lagrange 0 { cell := .triangle, degree := 2 }
  let last : Index := .slot .secondary (wordSize - 1) [0, 1]
  let first : Index := .slot .secondary 0 [0, 1]
  { constant := 1
    basisFunctions :=
      [{ BasisFunction.argument element 0 with
          derivatives := [last, .fixed direction].map (⟨element, ·⟩) }]
    transforms :=
      [⟨.inverse, last, first, .unrestricted⟩, ⟨.inverse, first, .fixed direction, .unrestricted⟩] }

end Form

end WeakForm
