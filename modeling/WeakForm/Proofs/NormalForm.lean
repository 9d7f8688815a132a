import WeakForm.Proofs.SummationConvention

/-!
# The normal form

The rounds of the simplifier end when one of them leaves the form equal to what it was.  Equal forms
have the same weight, so none of the passes of that round has removed anything, and all it did was
to number the slots (`Form.round_fixed`).  The result is therefore left as it is by every pass, and
simplifying it again returns it (`Form.simplify_normal_form`).

Contraction compares each monomial with the later ones only.  That no pair contracts in the other
order either is the symmetry of `PairDifference`.
-/

namespace WeakForm

open Indexed

variable {K : Type}

deriving instance DecidableEq for Product, Monomial, Form

/-- Whether a computation returns a given result can be decided if results can be compared. -/
instance decidableEqOk {α ε : Type} [DecidableEq α] (e : Except ε α) (a : α) :
    Decidable (e = .ok a) :=
  match e with
  | .ok b => decidable_of_iff (b = a) (by rw [Except.ok.injEq])
  | .error _ => isFalse (by simp)

/-- Whether the result of a computation, if there is one, has a property. -/
instance decidableForallOk {α ε : Type} (P : α → Prop) [DecidablePred P] (e : Except ε α) :
    Decidable (∀ a, e = .ok a → P a) :=
  match e with
  | .ok a => decidable_of_iff (P a) (by simp)
  | .error _ => isTrue (by simp)

/-! ### Restrictions of basis functions -/

namespace Monomial

/-- On interior facets no basis function is marked as the same on both sides. -/
def Sided (m : Monomial K) : Prop :=
  m.integral.domain = .interiorFacet → ∀ v ∈ m.basisFunctions, v.restriction ≠ .constant

def restrictions (m : Monomial K) : List Restriction :=
  m.basisFunctions.map (·.restriction)

theorem sided_iff {m : Monomial K} :
    m.Sided ↔ (m.integral.domain = .interiorFacet → ∀ r ∈ m.restrictions, r ≠ .constant) := by
  simp [Sided, restrictions]

theorem restrictions_mapIndices (f : Index → Index) (m : Monomial K) :
    (mapIndices f m).restrictions = m.restrictions := by
  simp only [restrictions, mapIndices_eq, List.map_map]
  apply List.map_congr_left
  intro v _
  simp only [Function.comp_apply, mapIndices_basisFunction]

theorem restrictions_refill (m : Monomial K) {is : List Index}
    (h : is.length = m.indices.length) : (refill m is).restrictions = m.restrictions := by
  have := congrArg restrictions (skeleton_refill m h)
  rwa [skeleton, restrictions_mapIndices, skeleton, restrictions_mapIndices] at this

theorem Sided.step {P : Index → Transform → Transform → Prop} {m n : Monomial K} (h : m.Sided)
    (hs : CancelStep P m n) : n.Sided := by
  cases hs with
  | mk p _ _ _ =>
    rw [sided_iff] at h ⊢
    simpa [restrictions, withFactors, DerivativePlace.along] using h

theorem sided_normalizeRestrictions (m : Monomial K) : m.normalizeRestrictions.Sided := by
  intro hd
  unfold normalizeRestrictions at hd ⊢
  split
  · intro w hw
    obtain ⟨v, -, rfl⟩ := List.mem_map.mp hw
    split
    · simp
    · assumption
  · rename_i hne
    rw [if_neg hne] at hd
    exact absurd hd hne

theorem Sided.normalizeRestrictions_eq {m : Monomial K} (h : m.Sided) :
    m.normalizeRestrictions = m := by
  unfold normalizeRestrictions
  split
  · rename_i hd
    have e : m.basisFunctions.map (fun v =>
        if v.restriction = .constant then { v with restriction := .plus } else v) =
          m.basisFunctions := by
      refine (List.map_congr_left fun v hv => ?_).trans (List.map_id _)
      exact if_neg (h hd v hv)
    rw [e]
  · rfl

theorem kept_sided [BEq K] : Kept (Sided (K := K)) where
  rename m f _ h := by
    rw [sided_iff] at h ⊢
    rw [rename, restrictions_mapIndices, mapIndices_eq]
    exact h
  joined m n d _ h _ := by
    rw [sided_iff] at h ⊢
    rw [PairDifference.joined, PairDifference.withIndex,
      restrictions_refill m (by rw [d.indices_left]; simp), integral_refill]
    exact h
  constant _ _ h := h
  contractDeterminants _ h := h
  simplifyDerivatives _ h := simplifyDerivatives_keeps (fun _ _ hs h => h.step hs) h

end Monomial

/-! ### Pairs that do not combine -/

/-- What holds of the pairs of a list in the order of the list holds, in one of the two orders, at
any two positions. -/
theorem pairwise_getElem? {α : Type} {R : α → α → Prop} {l : List α} (h : l.Pairwise R) {p r : ℕ}
    {a b : α} (hpr : p ≠ r) (hp : l[p]? = some a) (hr : l[r]? = some b) : R a b ∨ R b a := by
  obtain ⟨hp', rfl⟩ := List.getElem?_eq_some_iff.mp hp
  obtain ⟨hr', rfl⟩ := List.getElem?_eq_some_iff.mp hr
  rcases Nat.lt_or_gt_of_ne hpr with hlt | hlt
  · exact .inl (List.pairwise_iff_getElem.mp h p r hp' hr' hlt)
  · exact .inr (List.pairwise_iff_getElem.mp h r p hr' hp' hlt)

theorem Monomial.not_agree [Add K] {m n : Monomial K} (h : m.factorize n = none) :
    m.eqIgnoringConstant n = false := by
  unfold factorize at h
  split at h
  · cases h
  · rename_i hne
    exact Bool.eq_false_iff.mpr hne

section
variable [BEq K]

/-- The comparison of the basis functions of two monomials does not depend on their order. -/
theorem Monomial.all_zip_comm (vs ws : List BasisFunction) :
    ((vs.zip ws).all fun (v, w) => v.element == w.element && v.index == w.index &&
      v.restriction == w.restriction && v.components.length == w.components.length &&
        v.derivatives.length == w.derivatives.length) =
    ((ws.zip vs).all fun (v, w) => v.element == w.element && v.index == w.index &&
      v.restriction == w.restriction && v.components.length == w.components.length &&
        v.derivatives.length == w.derivatives.length) := by
  induction vs generalizing ws with
  | nil => simp
  | cons v vs ih =>
    cases ws with
    | nil => rfl
    | cons w ws =>
      rw [List.zip_cons_cons, List.zip_cons_cons, List.all_cons, List.all_cons, ih ws]
      simp only [BEq.comm (a := v.element), BEq.comm (a := v.index),
        BEq.comm (a := v.restriction), BEq.comm (a := v.components.length),
        BEq.comm (a := v.derivatives.length)]

theorem Monomial.mayContract_comm [Constant K] [LawfulConstant K] (m n : Monomial K) :
    m.mayContract n = n.mayContract m := by
  unfold mayContract
  rw [all_zip_comm, LawfulConstant.beq_comm m.constant, BEq.comm (a := m.integral),
    BEq.comm (a := m.determinants), BEq.comm (a := m.coefficients.length),
    BEq.comm (a := m.transforms.length), BEq.comm (a := m.basisFunctions.length)]

theorem Monomial.not_contracts {m n q : Monomial K} (h : m.contractIfLikely n = .ok none) :
    ¬ (m.mayContract n = true ∧ m.contract n = .ok (some q)) := by
  rintro ⟨hl, hc⟩
  rw [contractIfLikely, if_pos hl, hc] at h
  cases h

/-- Whether a pair contracts does not depend on the order of its monomials. -/
theorem Monomial.not_contracts_symm [Constant K] [LawfulConstant K] {m n q : Monomial K}
    (h : m.contractIfLikely n = .ok none) :
    ¬ (n.mayContract m = true ∧ n.contract m = .ok (some q)) := by
  rintro ⟨hl, hc⟩
  obtain ⟨d, -⟩ := contract_eq_some hc
  rw [mayContract_comm] at hl
  rw [contractIfLikely, if_pos hl] at h
  exact contract_ne_none (d.symm (by rw [LawfulConstant.beq_comm, d.constant_beq])) h

end

/-! ### The last round -/

namespace Form

section
variable [BEq K]

/-- Contraction begins with renumbering, so renumbering before it changes nothing. -/
theorem contractOnce_renumber (f : Form K) : f.renumber.contractOnce = f.contractOnce := by
  rw [contractOnce, contractOnce, renumber_renumber]

theorem contract_renumber (f : Form K) : f.renumber.contract = f.contract := by
  rw [Form.contract, contractOnce_renumber, Form.contract]
  have e : f.renumber.size = f.size := by rw [renumber, size_map]
  rw [e]

/-- The last sweep of contraction has only numbered the form, and it has found no pair. -/
theorem contract_settled {f g : Form K} (h : f.contract = .ok g) :
    g.renumber = g ∧ g.Numbered ∧
      g.monomials.Pairwise fun m n => m.contractIfLikely n = .ok none := by
  obtain ⟨n, -, hrun⟩ := f.contract_runs
  obtain ⟨u, -, hu, hs⟩ := hrun.last (P := fun _ => True) (fun _ _ _ _ => trivial) trivial h
  have hlength : g.monomials.length = u.renumber.monomials.length := by
    rw [renumber, monomials_map, List.length_map]
    exact hs
  obtain ⟨hg, hp⟩ := (contractOnce_contracts hu).eq_of_length hlength
  obtain rfl : g = u.renumber := congrArg Form.mk hg
  exact ⟨u.renumber_renumber, u.numbered_renumber, hp⟩

/-- If contraction changes nothing, then no pair of monomials contracts. -/
theorem contractOnce_fixed {f : Form K} (h : f.contract = .ok f.renumber) :
    f.renumber.monomials.Pairwise fun m n => m.contractIfLikely n = .ok none :=
  (contract_settled h).2.2

end

variable [Constant K] [BEq K] [Add K] [Zero K]

/-- A round that ends the simplification has only numbered the form: every pass leaves the result
as it is. -/
theorem round_fixed {f g : Form K} (h : f.round = .ok g) (hs : Settled f g) :
    g = f.renumber ∧ g.renumber = g ∧ g.contract = .ok g ∧ g.factorize = g ∧
      g.eliminateZeros = g ∧ g.contractDeterminants = g ∧ g.simplifyDerivatives = g := by
  have hw := weight_of_beq hs
  obtain ⟨c, hc, hg, -⟩ := round_eq_ok h
  have h1 := contract_reduces hc
  have h2 := c.factorize_reduces
  have h3 := c.factorize.eliminateZeros_reduces
  have h4 := c.factorize.eliminateZeros.contractDeterminants_reduces
  have h5 := c.factorize.eliminateZeros.contractDeterminants.simplifyDerivatives_reduces
  have w1 := h1.weight_le
  have w2 := h2.weight_le
  have w3 := h3.weight_le
  have w4 := h4.weight_le
  have w5 := h5.weight_le
  have w6 : g.weight =
      c.factorize.eliminateZeros.contractDeterminants.simplifyDerivatives.weight := by
    rw [hg, weight_renumber]
  rw [weight_renumber] at w1
  -- the weights at both ends agree, so all weights between them do
  have e1 : c = f.renumber := h1.eq_of_weight (by rw [weight_renumber]; omega)
  have e2 : c.factorize = c := h2.eq_of_weight (by omega)
  rw [e2] at h3 h4 h5 w3 w4 w5 w6 hg
  have e3 : c.eliminateZeros = c := h3.eq_of_weight (by omega)
  rw [e3] at h4 h5 w4 w5 w6 hg
  have e4 : c.contractDeterminants = c := h4.eq_of_weight (by omega)
  rw [e4] at h5 w5 w6 hg
  have e5 : c.simplifyDerivatives = c := h5.eq_of_weight (by omega)
  have e6 : c.renumber = c := by rw [e1, renumber_renumber]
  have e : g = c := by rw [hg, e5, e6]
  rw [e]
  refine ⟨e1, e6, ?_, e2, e3, e4, e5⟩
  rw [← hc, e1, contract_renumber]

/-- A form that every pass leaves as it is, with finite constants, is its own simplification. -/
theorem simplify_of_fixed [LawfulConstant K] {g : Form K} (hb : g.Balanced)
    (hf : g.nonFinite? = none) (hn : g.normalizeRestrictions = g) (hr : g.round = .ok g) :
    g.simplify = .ok g := by
  obtain ⟨n, -, hrun⟩ := simplify_runs hb hf
  rw [hn] at hrun
  exact (hrun.unique (.done hr (beq_self_of_finite hf))).2

theorem round_of_fixed {g : Form K} (hf : g.nonFinite? = none) (hr : g.renumber = g)
    (hc : g.contract = .ok g) (hfac : g.factorize = g) (hz : g.eliminateZeros = g)
    (hdet : g.contractDeterminants = g) (hch : g.simplifyDerivatives = g) : g.round = .ok g := by
  simp only [round, hc, bind, Except.bind, hfac, hz, hdet, hch, hr, hf]

/-- A form is simplified only if it passes the checks. -/
theorem checks_of_simplify {f g : Form K} (h : f.simplify = .ok g) :
    f.Balanced ∧ f.nonFinite? = none := by
  rw [← imbalance?_eq_none_iff]
  unfold simplify at h
  cases hb : f.imbalance? with
  | some cause => simp [hb, bind, Except.bind, throw, throwThe, MonadExceptOf.throw] at h
  | none =>
    cases hf : f.nonFinite? with
    | some m => simp [hb, hf, bind, Except.bind, throw, throwThe, MonadExceptOf.throw] at h
    | none => exact ⟨rfl, rfl⟩

/-- What normalization establishes and the passes keep on single monomials holds of the result. -/
theorem simplify_forall_mem [LawfulConstant K] {P : Monomial K → Prop} (hP : Monomial.Kept P)
    {f g : Form K} (h : f.simplify = .ok g) (hf : ∀ m ∈ f.monomials, P m.normalizeRestrictions) :
    ∀ m ∈ g.monomials, P m := by
  obtain ⟨hb, hfin⟩ := checks_of_simplify h
  obtain ⟨n, -, hrun⟩ := simplify_runs hb hfin
  refine hrun.invariant (P := fun s => ∀ m ∈ s.monomials, P m)
    (fun s t hs hst => round_forall_mem hP hst hs) ?_ h
  intro n hn
  obtain ⟨m, hm, rfl⟩ := List.mem_map.mp hn
  exact hf m hm

/-- The result of the simplifier is a normal form of all its passes.  No constant is zero, no two
monomials agree up to their constants, no two contract, in either order; every pass and the whole
simplifier leave it as it is. -/
theorem simplify_normal_form [LawfulConstant K] {f g : Form K} (h : f.simplify = .ok g) :
    (∀ m ∈ g.monomials, (m.constant == 0) = false) ∧
    (∀ (p r : ℕ) (m n : Monomial K), p ≠ r → g.monomials[p]? = some m →
      g.monomials[r]? = some n → m.eqIgnoringConstant n = false ∧
        ¬ (m.mayContract n = true ∧ ∃ q, m.contract n = .ok (some q))) ∧
    (∀ p : Pass, p.run g = .ok g) ∧ g.simplify = .ok g := by
  obtain ⟨hb, hf⟩ := checks_of_simplify h
  obtain ⟨n, -, hrun⟩ := simplify_runs hb hf
  have hsided : ∀ m ∈ f.normalizeRestrictions.monomials, m.Sided := by
    intro m hm
    obtain ⟨m', -, rfl⟩ := List.mem_map.mp hm
    exact m'.sided_normalizeRestrictions
  -- the invariants hold of the form before the last round, hence of its result
  obtain ⟨u, ⟨hub, hus⟩, hu, hsettled⟩ := hrun.last
    (P := fun s => s.Balanced ∧ ∀ m ∈ s.monomials, m.Sided)
    (fun s t hs hst => ⟨hs.1.round hst, round_forall_mem Monomial.kept_sided hst hs.2⟩)
    ⟨hb.normalizeRestrictions, hsided⟩ h
  have hgb := hub.round hu
  have hgs := round_forall_mem Monomial.kept_sided hu hus
  obtain ⟨-, -, -, hgf⟩ := round_eq_ok hu
  obtain ⟨-, hr, hc, hfac, hz, hdet, hch⟩ := round_fixed hu hsettled
  have hn : g.normalizeRestrictions = g := by
    refine congrArg Form.mk ((List.map_congr_left fun m hm => ?_).trans (List.map_id _))
    exact (hgs m hm).normalizeRestrictions_eq
  have hround := round_of_fixed hgf hr hc hfac hz hdet hch
  refine ⟨fun m hm => ?_, fun p r m n hpr hp hr' => ⟨?_, ?_⟩, fun p => ?_,
    simplify_of_fixed hgb hgf hn hround⟩
  · rw [← hz] at hm
    simpa using (List.mem_filter.mp hm).2
  · have hpairs := (contracts_contractPairs Monomial.factorize g.monomials).eq_of_length
      (congrArg Form.size hfac)
    rcases pairwise_getElem? hpairs.2 hpr hp hr' with hmn | hnm
    · exact Monomial.not_agree hmn
    · rw [Monomial.eqIgnoringConstant_comm]
      exact Monomial.not_agree hnm
  · have hpairs := contractOnce_fixed (f := g) (by rw [hr, hc])
    rw [hr] at hpairs
    rintro ⟨hl, q, hq⟩
    rcases pairwise_getElem? hpairs hpr hp hr' with hmn | hnm
    · exact Monomial.not_contracts hmn ⟨hl, hq⟩
    · exact Monomial.not_contracts_symm hnm ⟨hl, hq⟩
  · cases p with
    | normalizeRestrictions => exact congrArg Except.ok hn
    | contract => exact hc
    | factorize => exact congrArg Except.ok hfac
    | eliminateZeros => exact congrArg Except.ok hz
    | contractDeterminants => exact congrArg Except.ok hdet
    | simplifyDerivatives => exact congrArg Except.ok hch
    | renumber => exact congrArg Except.ok hr

/-- The terms with all chains cancelled: both derivatives are taken along the same slot. -/
def derivativeTerms (constant : K) (cell : Cell) : Form K :=
  let m := chainTerm constant cell 0
  ⟨[{ m with
      basisFunctions := m.basisFunctions.map fun v => { v with
        derivatives := v.derivatives.map fun d =>
          { d with index := .slot .secondary 0 (List.range cell.dimension) } }
      transforms := [] }]⟩

theorem simplify_normal_form_chainTerms :
    let f := chainTerms (0.5 : Float) .triangle [0, 1]
    let g := derivativeTerms (0.5 : Float) .triangle
    f.simplify = .ok g ∧ (∀ m ∈ g.monomials, (m.constant == 0) = false) ∧
      (∀ (p r : ℕ) (m n : Monomial Float), p ≠ r → g.monomials[p]? = some m →
        g.monomials[r]? = some n → m.eqIgnoringConstant n = false ∧
          ¬ (m.mayContract n = true ∧ ∃ q, m.contract n = .ok (some q))) ∧
      (∀ p : Pass, p.run g = .ok g) ∧ g.simplify = .ok g := by
  intro f g
  have h : f.simplify = .ok g := by decide +kernel
  exact ⟨h, simplify_normal_form h⟩

end Form

end WeakForm
