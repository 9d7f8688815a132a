import WeakForm.Enumeration.Recursive
import WeakForm.Proofs.AuxiliaryMarking
import WeakForm.Proofs.SharedTensors
import WeakForm.Proofs.SummationConvention
import WeakForm.Representation

/-!
# When accepted forms are rejected later

A form that passes the input checks is simplified to a balanced form, or a constant overflows.  The
only invariant that can be found violated afterwards concerns two monomials with equal soft
signatures: the search for a relabelling requires that both have equally many secondary slots
(`Form.reorder_ok_iff`), although slots outside basis functions have no part in the signatures.  A
relabelling exists nevertheless (`Monomial.Marked.exists_hardSignature_eq`).
-/

namespace WeakForm

/-- Monomials with equal soft signatures of which the second one must be relabelled to share the
tensor of the first one, but has not as many secondary slots. -/
structure Monomial.CountsDiffer {K : Type} (p q : Monomial K) : Prop where
  softSignature_eq : p.softSignature = q.softSignature
  hardSignature_ne : p.hardSignature ≠ q.hardSignature
  nextId_ne : p.nextId .secondary ≠ q.nextId .secondary

namespace Form

variable {K : Type} {f : Form K}

/-! ### Reordering of marked forms -/

/-- No monomial is so related to the first one of its class. -/
def CountsAgree (f : Form K) : Prop :=
  ∀ (i j : ℕ) (p q : Monomial K), IsLeast (f.softClass j) i → f.monomials[i]? = some p →
    f.monomials[j]? = some q → ¬ p.CountsDiffer q

variable [Enumeration]

theorem countsAgree_of_reorder {r : Form K × List (Option ℕ)} (h : f.reorder = .ok r) :
    f.CountsAgree := by
  obtain ⟨es, -, hr⟩ | ⟨e, _, _, he, -, -⟩ := f.reorder_cases
  · intro i j p q hleast hp hq hne
    obtain ⟨hlen, hentry⟩ := reached_iff.mp hr
    have hj : j < es.length := hlen ▸ (List.getElem?_eq_some_iff.mp hq).1
    have hent := hentry j q _ hq (List.getElem?_eq_getElem hj)
    obtain rfl := (isLeast_softClass_iff hq).mp hleast
    rcases Nat.eq_or_lt_of_le (leader_spec hq).1 with hl | hlt
    · rw [hl, hq, Option.some.injEq] at hp
      exact hne.nextId_ne (by rw [hp])
    · rw [entry_of_lt (hlt.trans (hlen ▸ hj)) hlt hp,
        SharedMonomial.shareWith_of_soft_eq hne.hardSignature_ne.symm hne.softSignature_eq.symm,
        Monomial.reorderTo_of_ne hne.nextId_ne] at hent
      cases hent
  · rw [h] at he
    cases he

/-- The only error of reordering a marked form is that the counts differ. -/
theorem reorder_eq_error (hM : ∀ m ∈ f.monomials, m.Marked) {e : FormError K}
    (h : f.reorder = .error e) : ∃ (i j : ℕ) (p q : Monomial K), IsLeast (f.softClass j) i ∧
      f.monomials[i]? = some p ∧ f.monomials[j]? = some q ∧ p.CountsDiffer q ∧
        e = .invariant (.secondaryCountsDiffer p q) := by
  obtain ⟨es, hes, -⟩ | ⟨e', j, q, he, hq, hent⟩ := f.reorder_cases
  · rw [h] at hes
    cases hes
  · obtain rfl : e = e' := by
      rw [h] at he
      exact Except.error.inj he
    obtain ⟨-, p, hp, hsoft, -⟩ := leader_spec hq
    have hlt : f.leader q < f.size ∧ f.leader q < j := by
      by_contra hn
      rw [entry, if_neg hn] at hent
      cases hent
    rw [entry_of_lt hlt.1 hlt.2 hp] at hent
    have hhard : q.hardSignature ≠ p.hardSignature := fun hh => by
      rw [SharedMonomial.shareWith_of_hard_eq hh] at hent
      cases hent
    have hnext : p.nextId .secondary ≠ q.nextId .secondary := fun hn => by
      obtain ⟨q', hq'⟩ := (hM p (List.mem_of_getElem? hp)).exists_reorderTo
        (hM q (List.mem_of_getElem? hq)) hsoft hn
      rw [SharedMonomial.shareWith_of_soft_eq hhard hsoft.symm, hq'] at hent
      cases hent
    refine ⟨_, j, p, q, isLeast_leader hq, hp, hq, ⟨hsoft, hhard.symm, hnext⟩, ?_⟩
    rw [SharedMonomial.shareWith_of_soft_eq hhard hsoft.symm,
      Monomial.reorderTo_of_ne hnext] at hent
    exact (Except.error.inj hent).symm

/-- Reordering accepts a marked form exactly if the counts agree. -/
theorem reorder_ok_iff (hM : ∀ m ∈ f.monomials, m.Marked) :
    (∃ r, f.reorder = .ok r) ↔ f.CountsAgree := by
  refine ⟨fun ⟨r, hr⟩ => countsAgree_of_reorder hr, fun hc => ?_⟩
  cases h : f.reorder with
  | ok r => exact ⟨r, rfl⟩
  | error e =>
    obtain ⟨i, j, p, q, hleast, hp, hq, hne, -⟩ := reorder_eq_error hM h
    exact absurd hne (hc i j p q hleast hp hq)

end Form

/-! ### Errors of the later stages -/

section Errors

variable {K : Type}

/-- The error does not report the violation of an invariant. -/
def FormError.Ordinary (e : FormError K) : Prop :=
  ∀ cause, e ≠ .invariant cause

theorem FailsOnly.mapError_ordinary {ε α : Type} {g : ε → FormError K} {x : Except ε α}
    (hg : ∀ e, (g e).Ordinary) : FailsOnly FormError.Ordinary (x.mapError g) :=
  .mapError fun e _ => hg e

theorem ordinary_referenceTensor (e : TensorError) :
    (FormError.referenceTensor e : FormError K).Ordinary := fun _ h => by cases h

theorem ordinary_unhandled (e : Unsupported) : (FormError.unhandled e : FormError K).Ordinary :=
  fun _ h => by cases h

theorem ordinary_quadrature (e : QuadratureError) :
    (FormError.quadrature e : FormError K).Ordinary := fun _ h => by cases h

theorem ordinary_resolve (x : Integrand K) (values : IndexValues) (v : BasisFunction) :
    FailsOnly FormError.Ordinary (x.resolve values v) := by
  unfold Integrand.resolve
  split
  · exact .mapError_ordinary ordinary_referenceTensor
  · exact .error (ordinary_unhandled _)

theorem ordinary_integrate [Zero K] [One K] [Add K] [Mul K] (x : Integrand K)
    (values : IndexValues) : FailsOnly FormError.Ordinary (x.integrate values) :=
  .bind (.mapM fun _ _ => .bind (ordinary_resolve x values _) fun _ _ => .ok _) fun _ _ => .ok _

theorem ordinary_prepare [Tabulation K] (x : ReferenceIntegrator K) (vs : List BasisFunction) :
    FailsOnly FormError.Ordinary (x.prepare vs) :=
  .bind (.mapM fun _ _ => .bind (.mapError_ordinary ordinary_unhandled) fun _ _ => .ok _)
    fun _ _ => .ok _

theorem ordinary_compute [Zero K] [Add K] [Mul K] [Enumeration] (m : Monomial K)
    {integral : IndexValues → Except (FormError K) K}
    (h : ∀ values, FailsOnly FormError.Ordinary (integral values)) :
    FailsOnly FormError.Ordinary (ReferenceTensor.compute m integral) := by
  have hentry : ∀ (i a : MultiIndex) (bValues : List (List ℕ)) (iValues aValues : List ℕ),
      FailsOnly FormError.Ordinary
        (ReferenceTensor.entry integral m.constant i a bValues iValues aValues) := by
    intro i a bValues iValues aValues
    unfold ReferenceTensor.entry
    split
    · exact .bind (.foldlM (fun _ _ _ => .bind (h _) fun _ _ => .ok _) 0) fun _ _ => .ok _
    · exact .ok 0
  unfold ReferenceTensor.compute
  refine .bind (.mapError_ordinary ordinary_referenceTensor) fun i _ => ?_
  refine .bind (.mapError_ordinary ordinary_referenceTensor) fun a _ => ?_
  refine .bind (.mapError_ordinary ordinary_referenceTensor) fun b _ => ?_
  refine .bind (.mapM fun _ _ => hentry i a _ _ _) fun data _ => ?_
  exact .bind (.mapError_ordinary ordinary_referenceTensor) fun _ _ => .ok _

variable [Zero K] [One K] [Add K] [Sub K] [Mul K] [Div K] [NatCast K] [Numerics K]
variable [LE K] [DecidableLE K]

theorem ordinary_forCell (c : Cell) (degree : ℕ) :
    FailsOnly FormError.Ordinary (QuadratureRule.forCell K c degree) :=
  .mapError_ordinary ordinary_quadrature

theorem ordinary_forFacet (c : Cell) (facet degree : ℕ) :
    FailsOnly FormError.Ordinary (QuadratureRule.forFacet K c facet degree) := by
  unfold QuadratureRule.forFacet
  split
  · split
    · exact .bind (ordinary_forCell _ degree) fun _ _ => .ok _
    · exact .error (ordinary_unhandled _)
  · exact .error (ordinary_unhandled _)

theorem ordinary_build (c : Cell) (domain : QuadratureDomain) (degree : ℕ) :
    FailsOnly FormError.Ordinary (ReferenceIntegrator.build (K := K) c domain degree) := by
  cases domain with
  | cell => exact .bind (ordinary_forCell c degree) fun _ _ => .ok _
  | exteriorFacet facet => exact .bind (ordinary_forFacet c facet degree) fun _ _ => .ok _
  | interiorFacet p m =>
    exact .bind (ordinary_forFacet c p degree) fun _ _ =>
      .bind (ordinary_forFacet c m degree) fun _ _ => .ok _

variable [Tabulation K] [Enumeration]

theorem ordinary_tensor (settings : CompilerSettings) (m : Monomial K)
    (domain : QuadratureDomain) :
    FailsOnly FormError.Ordinary (Form.referenceTensor settings m domain) := by
  refine .bind ?_ fun x _ => .bind (ordinary_prepare x _) fun y _ =>
    ordinary_compute m (ordinary_integrate y)
  unfold ReferenceIntegrator.forBasisFunctions
  split
  · exact .error (ordinary_unhandled _)
  · exact ordinary_build _ _ _

theorem ordinary_integralTensors (f : Form K) (factorization : List (Option ℕ))
    (settings : CompilerSettings) (integral : Integral) :
    FailsOnly FormError.Ordinary (f.integralTensors factorization settings integral) := by
  unfold Form.integralTensors
  dsimp only
  split
  · exact .error (ordinary_unhandled _)
  · refine .bind (.mapM fun domain _ => ?_) fun _ _ => .ok _
    exact .bind (.mapM fun x _ => .bind (ordinary_tensor settings x.2.2 domain) fun _ _ => .ok _)
      fun _ _ => .ok _

end Errors

/-! ### Accepted forms -/

namespace Form

section Simplified

variable {K : Type} [Constant K] [BEq K] [Add K] [Zero K] [LawfulConstant K] {f g : Form K}

theorem balanced_of_simplify (h : f.simplify = .ok g) : g.Balanced := by
  obtain ⟨hb, -⟩ := checks_of_simplify h
  refine simplify_forall_mem Monomial.kept_balanced h fun m hm => ?_
  exact hb.normalizeRestrictions _ (List.mem_map_of_mem hm)

/-- Marking accepts what simplification returns. -/
theorem markAuxiliary_of_simplify (h : f.simplify = .ok g) : ∃ m, g.markAuxiliary = .ok m :=
  ⟨_, markAuxiliary_eq_ok.mpr ⟨balanced_of_simplify h, rfl⟩⟩

end Simplified

section Compile

variable {K : Type} [Zero K] [One K] [Add K] [Sub K] [Mul K] [Div K] [NatCast K] [Numerics K]
variable [LE K] [DecidableLE K] [Tabulation K] [Enumeration] [Constant K] [BEq K]

theorem compile_of_reorder_error {f g h : Form K} (settings : CompilerSettings) {e : FormError K}
    (hg : f.simplify = .ok g) (hh : g.markAuxiliary = .ok h) (he : h.reorder = .error e) :
    f.compile settings = .error ⟨.factorization, e⟩ := by
  unfold compile
  simp only [hg, hh, he, Except.mapError, bind, Except.bind]

variable [LawfulConstant K]

/-- The only invariant that compilation finds violated in an accepted form is that the counts of
secondary slots agree. -/
theorem compile_eq_invariant {f : Form K} {settings : CompilerSettings} {e : CompileError K}
    {cause : InvariantError K} (hb : f.Balanced) (hf : f.nonFinite? = none)
    (h : f.compile settings = .error e) (he : e.cause = .invariant cause) :
    e.stage = .factorization ∧ ∃ p q, p.CountsDiffer q ∧ cause = .secondaryCountsDiffer p q := by
  unfold compile at h
  dsimp only at h
  rcases bind_eq_error.mp h with h | ⟨g, hg, h⟩
  · obtain ⟨e', hs, rfl⟩ := mapError_eq_error.mp h
    obtain ⟨m, rfl, -⟩ := simplify_eq_error hb hf hs
    cases he
  rw [mapError_eq_ok] at hg
  obtain ⟨g', hg'⟩ := markAuxiliary_of_simplify hg
  rcases bind_eq_error.mp h with h | ⟨m, hm, h⟩
  · obtain ⟨e', hs, rfl⟩ := mapError_eq_error.mp h
    rw [hg'] at hs
    cases hs
  rw [mapError_eq_ok] at hm
  rcases bind_eq_error.mp h with h | ⟨r, hr, h⟩
  · obtain ⟨e', hs, rfl⟩ := mapError_eq_error.mp h
    obtain ⟨_, _, p, q, -, -, -, hpq, rfl⟩ := reorder_eq_error (marked_of_markAuxiliary hm) hs
    exact ⟨rfl, p, q, hpq, (FormError.invariant.inj he).symm⟩
  rcases bind_eq_error.mp h with h | ⟨ts, hts, h⟩
  · obtain ⟨i, -, h⟩ := exists_of_mapM_eq_error h
    obtain ⟨e', hs, rfl⟩ := mapError_eq_error.mp h
    exact absurd he (ordinary_integralTensors _ _ _ _ e' hs cause)
  · cases h

/-- What happens to an accepted form after simplification.  Marking succeeds, and monomials with
equal soft signatures can be relabelled to equal hard signatures.  Reordering succeeds if and only
if no monomial that has to be relabelled has another number of secondary slots than the first one of
its class; this is the only invariant that compilation can find violated. -/
theorem accepted_reorder_iff {f : Form K} (hb : f.imbalance? = none) (hf : f.nonFinite? = none) :
    (∀ g, f.simplify = .ok g → ∃ h, g.markAuxiliary = .ok h ∧
      (∀ p ∈ h.monomials, ∀ q ∈ h.monomials, p.softSignature = q.softSignature →
        ∃ π : Equiv.Perm ℕ, (q.renameSecondary π).hardSignature = p.hardSignature) ∧
      ((∃ r, h.reorder = .ok r) ↔ h.CountsAgree)) ∧
    ∀ (settings : CompilerSettings) (e : CompileError K) (cause : InvariantError K),
      f.compile settings = .error e → e.cause = .invariant cause →
        e.stage = .factorization ∧ ∃ p q, p.CountsDiffer q ∧ cause = .secondaryCountsDiffer p q := by
  rw [imbalance?_eq_none_iff] at hb
  refine ⟨fun g hg => ?_, fun settings e cause h he => compile_eq_invariant hb hf h he⟩
  obtain ⟨h, hh⟩ := markAuxiliary_of_simplify hg
  have hM := marked_of_markAuxiliary hh
  exact ⟨h, hh, fun p hp q hq hpq => (hM p hp).exists_hardSignature_eq (hM q hq) hpq,
    reorder_ok_iff hM⟩

end Compile

/-- The derivatives of the arguments `first` and `second` in two physical directions. -/
def directionalTerm {K : Type} (constant : K) (cell : Cell) (first second : ℕ) (m n : Index) :
    Monomial K :=
  let element : Element := .lagrange 0 { cell, degree := 1 }
  let direction (id : ℕ) : Index := .slot .secondary id (List.range cell.dimension)
  let argument (id position : ℕ) : BasisFunction :=
    { BasisFunction.argument element id with derivatives := [⟨element, direction position⟩] }
  { constant
    basisFunctions := [argument first 0, argument second 1]
    transforms := [⟨.inverse, direction 0, m, .unrestricted⟩,
      ⟨.inverse, direction 1, n, .unrestricted⟩] }

/-- The derivatives along the first and the second physical direction, and the product of the
gradients with the arguments in the other order. -/
def mixedTerms {K : Type} (constant : K) (cell : Cell) : Form K :=
  let summed : Index := .slot .secondary 2 (List.range cell.dimension)
  ⟨[directionalTerm constant cell 0 1 (.fixed 0) (.fixed 1),
    directionalTerm constant cell 1 0 summed summed]⟩

theorem accepted_reorder_iff_chainTerms :
    let f := chainTerms (0.5 : Float) .triangle [0, 1]
    (f.imbalance? = none ∧ f.nonFinite? = none) ∧
      (∀ g, f.simplify = .ok g → ∃ h, g.markAuxiliary = .ok h ∧
        (∀ p ∈ h.monomials, ∀ q ∈ h.monomials, p.softSignature = q.softSignature →
          ∃ π : Equiv.Perm ℕ, (q.renameSecondary π).hardSignature = p.hardSignature) ∧
        ((∃ r, h.reorder = .ok r) ↔ h.CountsAgree)) ∧
      ∀ (settings : CompilerSettings) (e : CompileError Float) (cause : InvariantError Float),
        f.compile settings = .error e → e.cause = .invariant cause →
          e.stage = .factorization ∧
            ∃ p q, p.CountsDiffer q ∧ cause = .secondaryCountsDiffer p q := by
  intro f
  have hb : f.imbalance? = none := rfl
  have hf : f.nonFinite? = none := by decide +kernel
  exact ⟨⟨hb, hf⟩, accepted_reorder_iff hb hf⟩

/-- The mixed terms are in normal form, and their tensors agree up to an exchange of two secondary
slots.  They are rejected, because the second term has a secondary slot outside its basis
functions. -/
theorem mixedTerms_rejected :
    let f := mixedTerms (1 : Float) .triangle
    let p := directionalTerm (1 : Float) .triangle 0 1 (.fixed 0) (.fixed 1)
    let summed : Index := .slot .secondary 2 [0, 1]
    let q := directionalTerm (1 : Float) .triangle 1 0 summed summed
    (f.imbalance? = none ∧ f.nonFinite? = none) ∧
      (f.simplify = .ok f ∧ f.markAuxiliary = .ok f) ∧
      (q.renameSecondary fun id => if id < 2 then 1 - id else id).hardSignature =
        p.hardSignature ∧
      (∀ r, f.reorder ≠ .ok r) ∧
      ∀ settings : CompilerSettings, ∃ cause : InvariantError Float,
        f.compile settings = .error ⟨.factorization, .invariant cause⟩ := by
  intro f p summed q
  have hs : f.simplify = .ok f := by decide +kernel
  have hm : f.markAuxiliary = .ok f := by decide +kernel
  have hpq : p.CountsDiffer q := by
    refine ⟨Monomial.signature_eq_iff.mpr ⟨rfl, by decide⟩, fun h => ?_, by decide⟩
    exact absurd (Monomial.signature_eq_iff.mp h).2 (by decide)
  have hleast : IsLeast (f.softClass 1) 0 :=
    ⟨⟨q, p, rfl, rfl, hpq.softSignature_eq⟩, fun _ _ => Nat.zero_le _⟩
  have hr : ∀ r, f.reorder ≠ .ok r := fun r hr =>
    countsAgree_of_reorder hr 0 1 p q hleast rfl rfl hpq
  refine ⟨⟨rfl, by decide +kernel⟩, ⟨hs, hm⟩, ?_, hr, fun settings => ?_⟩
  · exact Monomial.signature_eq_iff.mpr ⟨rfl, by decide⟩
  · cases he : f.reorder with
    | ok r => exact absurd he (hr r)
    | error e =>
      obtain ⟨_, _, p, q, -, -, -, -, rfl⟩ := reorder_eq_error (marked_of_markAuxiliary hm) he
      exact ⟨_, compile_of_reorder_error settings hs hm he⟩

end Form

end WeakForm
