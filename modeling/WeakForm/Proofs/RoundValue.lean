import WeakForm.Proofs.FormValue

/-!
# Rounds that keep values

What the passes need to know of a monomial to keep its value is an invariant of the rounds
(`Monomial.Regular`).  A round keeps the value of such a form, up to a renumbering of the primary
slots, if the chains that it finds are complete (`Form.round_sameValue`).
-/

namespace WeakForm

open Indexed

variable {K : Type}

/-! ### Invariants of the rounds -/

namespace Monomial

/-- What the simplifier asks of a monomial, and keeps: it is balanced, primary slots are arguments,
and determinants are the same on both sides in case of `C` only. -/
structure Regular (C : Prop) (m : Monomial K) : Prop where
  balanced : m.Balanced
  primaryArguments : m.PrimaryArguments
  determinants : (∃ δ ∈ m.determinants, δ.restriction = .constant) → C

theorem kept_regular [BEq K] (C : Prop) : Kept (Regular (K := K) C) where
  rename m f hf h :=
    ⟨h.balanced.rename hf, kept_primaryArguments.rename m f hf h.primaryArguments,
      h.determinants⟩
  joined m n d hl hm hn :=
    ⟨d.balanced_joined hm.balanced,
      kept_primaryArguments.joined m n d hl hm.primaryArguments hn.primaryArguments,
      hm.determinants⟩
  constant _ _ h := ⟨h.balanced, h.primaryArguments, h.determinants⟩
  contractDeterminants m h := by
    refine ⟨h.balanced, h.primaryArguments, ?_⟩
    rintro ⟨δ, hδ, hc⟩
    have hrun := contracts_contractPairs Determinant.multiply m.determinants
    refine hrun.forall_mem (P := fun δ => δ.restriction = .constant → C)
      (fun a b c ha hb habc hc => ?_) (fun δ hδ hc => h.determinants ⟨δ, hδ, hc⟩) δ hδ hc
    rcases (a.multiply_eq_some habc).2.1 with hr | hr
    · exact ha (hr ▸ hc)
    · exact hb (hr ▸ hc)
  simplifyDerivatives m h :=
    ⟨h.balanced.simplifyDerivatives,
      kept_primaryArguments.simplifyDerivatives m h.primaryArguments, h.determinants⟩

end Monomial

namespace Form

variable [Field K] [BEq K] [Constant K] [ExactConstant K] {d : ℕ} {C : Prop}

theorem round_sameValue {f g : Form K} (h : f.round = .ok g)
    (hf : ∀ m ∈ f.monomials, m.Regular C)
    (hc : ∀ c, f.contract = .ok c →
      ∀ m ∈ c.factorize.eliminateZeros.contractDeterminants.monomials, m.ChainsComplete d) :
    SameValue d C f g := by
  obtain ⟨c, hcon, rfl, -⟩ := round_eq_ok h
  have hP := Monomial.kept_regular (K := K) C
  have hreg := hP.form_contract hcon hf
  have hreg' := hP.form_addUp hreg
  have hdet : ∀ m ∈ c.factorize.eliminateZeros.monomials, m.Regular C := fun m hm =>
    hP.form_factorize hreg m (List.mem_of_mem_filter hm)
  have hadd : SameValue d C c c.factorize.eliminateZeros.contractDeterminants :=
    .of_eq fun v hv i values => by
      rw [v.formValue_contractDeterminants fun m hm hδ => hv ((hdet m hm).determinants hδ),
        v.formValue_eliminateZeros, v.formValue_factorize]
  have hchains := SameValue.of_eq (C := C) fun v _ i values =>
    v.formValue_simplifyDerivatives (f := c.factorize.eliminateZeros.contractDeterminants)
      (fun m hm => (hreg' m hm).balanced) (fun m hm => (hreg' m hm).primaryArguments)
      (hc c hcon) i values
  exact (((sameValue_contract hcon fun m hm => (hf m hm).primaryArguments).trans hadd).trans
    hchains).trans (sameValue_renumber _)

omit [Field K] in
theorem nonFinite?_of_exact (f : Form K) : f.nonFinite? = none :=
  f.nonFinite?_eq_none_iff.mpr fun m _ => ExactConstant.isFinite_eq_true m.constant

end Form

end WeakForm
