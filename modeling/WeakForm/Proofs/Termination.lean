import WeakForm.Proofs.Rounds

/-!
# Termination of the simplifier

The rounds of `Form.simplify` are limited in the program; here they are compared with the loop that
has no limit.  A form that is numbered in order settles after at most one round for each monomial,
determinant and transform, and one more (`Form.rounds_of_renumbered`); the first round numbers the
form.  So the limit is never met, and `Form.simplify` returns what the loop returns
(`Form.simplify_runs`).
-/

namespace WeakForm

namespace Form

variable {K : Type}

/-! ### Equality of forms -/

theorem weight_of_eqIgnoringConstant {m n : Monomial K} (h : m.eqIgnoringConstant n = true) :
    m.weight = n.weight := by
  rw [Monomial.eqIgnoringConstant_iff.mp h]
  rfl

theorem weight_of_beq [BEq K] {f g : Form K} (h : (g == f) = true) : g.weight = f.weight := by
  obtain ⟨ms⟩ := f
  obtain ⟨ns⟩ := g
  have h' : (ns == ms) = true := h
  clear h
  induction ns generalizing ms with
  | nil =>
    cases ms with
    | nil => rfl
    | cons m ms => cases h'
  | cons n ns ih =>
    cases ms with
    | nil => cases h'
    | cons m ms =>
      rw [List.cons_beq_cons, Bool.and_eq_true] at h'
      have hnm : (n.constant == m.constant && n.eqIgnoringConstant m) = true := h'.1
      have hw := weight_of_eqIgnoringConstant (Bool.and_eq_true _ _ ▸ hnm).2
      have := ih ms h'.2
      simp only [weight, List.map_cons, List.sum_cons] at this ⊢
      omega

variable [Constant K]

theorem nonFinite?_eq_none_iff (f : Form K) :
    f.nonFinite? = none ↔ ∀ m ∈ f.monomials, Constant.isFinite m.constant = true := by
  simp [nonFinite?, List.find?_eq_none]

variable [BEq K]

/-- A form with finite constants is equal to itself. -/
theorem beq_self_of_finite [LawfulConstant K] {f : Form K} (hf : f.nonFinite? = none) :
    (f == f) = true := by
  rw [nonFinite?_eq_none_iff] at hf
  obtain ⟨ms⟩ := f
  show (ms == ms) = true
  induction ms with
  | nil => rfl
  | cons m ms ih =>
    rw [List.forall_mem_cons] at hf
    have hm : (m.constant == m.constant && m.eqIgnoringConstant m) = true := by
      rw [LawfulConstant.beq_self_of_isFinite _ hf.1, m.eqIgnoringConstant_refl, Bool.and_self]
    rw [List.cons_beq_cons, ih hf.2, Bool.and_true]
    exact hm

/-! ### One round -/

end Form

/-- A property of monomials that every pass of a round keeps. -/
structure Monomial.Kept {K : Type} [BEq K] (P : Monomial K → Prop) : Prop
    extends KeptByContraction P where
  constant : ∀ m c, P m → P { m with constant := c }
  contractDeterminants : ∀ m, P m → P m.contractDeterminants
  simplifyDerivatives : ∀ m, P m → P m.simplifyDerivatives

namespace Monomial.Kept

variable {K : Type} [BEq K] {P : Monomial K → Prop} (hP : Kept P) {f : Form K}
include hP

theorem form_factorize [Add K] (hf : ∀ m ∈ f.monomials, P m) :
    ∀ m ∈ f.factorize.monomials, P m := by
  refine (contracts_contractPairs factorize _).forall_mem (fun a b q ha _ hq => ?_) hf
  unfold factorize at hq
  split at hq
  · cases hq
    exact hP.constant a _ ha
  · cases hq

theorem form_contractDeterminants (hf : ∀ m ∈ f.monomials, P m) :
    ∀ m ∈ f.contractDeterminants.monomials, P m := by
  intro n hn
  obtain ⟨m, hm, rfl⟩ := List.mem_map.mp hn
  exact hP.contractDeterminants m (hf m hm)

/-- After all passes but the cancellation of chains and renumbering. -/
theorem form_addUp [Add K] [Zero K] (hf : ∀ m ∈ f.monomials, P m) :
    ∀ m ∈ f.factorize.eliminateZeros.contractDeterminants.monomials, P m :=
  hP.form_contractDeterminants fun m hm => hP.form_factorize hf m (List.mem_of_mem_filter hm)

theorem form_simplifyDerivatives (hf : ∀ m ∈ f.monomials, P m) :
    ∀ m ∈ f.simplifyDerivatives.monomials, P m := by
  intro n hn
  obtain ⟨m, hm, rfl⟩ := List.mem_map.mp hn
  exact hP.simplifyDerivatives m (hf m hm)

end Monomial.Kept

theorem Monomial.kept_balanced {K : Type} [BEq K] : Kept (Balanced (K := K)) where
  rename _ _ hf h := h.rename hf
  joined _ _ d _ h _ := d.balanced_joined h
  constant _ _ h := h
  contractDeterminants _ h := h
  simplifyDerivatives _ h := h.simplifyDerivatives

namespace Form

variable {K : Type} [Constant K] [BEq K] [Add K] [Zero K]

/-- A round that succeeds runs through all passes and leaves finite constants. -/
theorem round_eq_ok {f g : Form K} (h : f.round = .ok g) : ∃ c, f.contract = .ok c ∧
    g = c.factorize.eliminateZeros.contractDeterminants.simplifyDerivatives.renumber ∧
      g.nonFinite? = none := by
  unfold round at h
  cases hc : f.contract with
  | error e => simp [hc, bind, Except.bind] at h
  | ok c =>
    simp only [hc, bind, Except.bind] at h
    split at h
    · cases h
    · rename_i hn
      rw [Except.ok.injEq] at h
      subst h
      exact ⟨c, rfl, rfl, hn⟩

/-- No pass of a round makes the form heavier, and the result is numbered in order. -/
theorem round_reduces {f g : Form K} (h : f.round = .ok g) :
    f.renumber.Reduces g ∧ g.renumber = g := by
  obtain ⟨c, hc, rfl, -⟩ := round_eq_ok h
  refine ⟨?_, renumber_renumber _⟩
  have hpasses := (((contract_reduces hc).trans c.factorize_reduces).trans
    (eliminateZeros_reduces _)).trans
      ((contractDeterminants_reduces _).trans (simplifyDerivatives_reduces _))
  rcases hpasses with he | hlt
  · exact .inl (by rw [he, renumber_renumber])
  · exact .inr (by rwa [weight_renumber])

/-- What the passes of a round keep on single monomials holds of the monomials of the result. -/
theorem round_forall_mem {P : Monomial K → Prop} (hP : Monomial.Kept P) {f g : Form K}
    (h : f.round = .ok g) (hf : ∀ m ∈ f.monomials, P m) : ∀ m ∈ g.monomials, P m := by
  obtain ⟨c, hc, rfl, -⟩ := round_eq_ok h
  exact hP.form_renumber (hP.form_simplifyDerivatives (hP.form_addUp (hP.form_contract hc hf)))

theorem Balanced.round {f g : Form K} (hf : f.Balanced) (h : f.round = .ok g) : g.Balanced :=
  round_forall_mem Monomial.kept_balanced h hf

/-! ### All rounds -/

/-- The test by which the rounds end. -/
def Settled (f g : Form K) : Prop :=
  (g == f) = true

section
variable [LawfulConstant K]

/-- From a form numbered in order, every round but the last one makes the form lighter. -/
theorem rounds_of_renumbered (f : Form K) (hf : f.renumber = f) :
    ∃ n ≤ f.weight + 1, ∃ r, Runs Form.round Settled f n r := by
  cases h : f.round with
  | error e => exact ⟨1, by omega, _, .fail h⟩
  | ok g =>
    obtain ⟨hred, hg⟩ := round_reduces h
    rw [hf] at hred
    by_cases hs : Settled f g
    · exact ⟨1, by omega, _, .done h hs⟩
    · rcases hred with rfl | hlt
      · obtain ⟨-, -, -, hfin⟩ := round_eq_ok h
        exact absurd (beq_self_of_finite hfin) hs
      · obtain ⟨n, hn, r, hr⟩ := g.rounds_of_renumbered hg
        exact ⟨n + 1, by omega, r, .again h hs hr⟩
termination_by f.weight

/-- The rounds end after at most two more than there are monomials, determinants and transforms. -/
theorem rounds_le (f : Form K) : ∃ n ≤ f.weight + 2, ∃ r, Runs Form.round Settled f n r := by
  cases h : f.round with
  | error e => exact ⟨1, by omega, _, .fail h⟩
  | ok g =>
    obtain ⟨hred, hg⟩ := round_reduces h
    have hle := hred.weight_le
    rw [weight_renumber] at hle
    by_cases hs : Settled f g
    · exact ⟨1, by omega, _, .done h hs⟩
    · obtain ⟨n, hn, r, hr⟩ := g.rounds_of_renumbered hg
      exact ⟨n + 1, by omega, r, .again h hs hr⟩

end

/-- With enough rounds allowed, the limit changes nothing. -/
theorem settle_eq_of_runs {f : Form K} {n limit : ℕ} {r : Except (FormError K) (Form K)}
    (h : Runs Form.round Settled f n r) (hn : n ≤ limit) : f.settle limit = r := by
  induction h generalizing limit with
  | fail hb =>
    obtain ⟨limit, rfl⟩ := Nat.exists_eq_add_of_le' hn
    simp only [settle, hb, bind, Except.bind]
  | done hb hs =>
    obtain ⟨limit, rfl⟩ := Nat.exists_eq_add_of_le' hn
    unfold Settled at hs
    simp only [settle, hb, bind, Except.bind, hs, if_true]
  | again hb hs _ ih =>
    obtain ⟨limit, rfl⟩ := Nat.exists_eq_add_of_le' (Nat.le_trans (Nat.le_add_left 1 _) hn)
    unfold Settled at hs
    simp only [settle, hb, bind, Except.bind, hs]
    exact ih (by omega)

/-- A balanced form with finite constants is simplified by the rounds alone: the limit is not met,
and the result is balanced. -/
theorem simplify_runs [LawfulConstant K] {f : Form K} (hb : f.Balanced) (hf : f.nonFinite? = none) :
    ∃ n ≤ f.weight + 2, Runs Form.round Settled f.normalizeRestrictions n f.simplify := by
  obtain ⟨n, hn, r, hr⟩ := rounds_le f.normalizeRestrictions
  rw [weight_normalizeRestrictions] at hn
  refine ⟨n, hn, ?_⟩
  have hs : f.normalizeRestrictions.settle f.roundLimit = r :=
    settle_eq_of_runs hr (by rw [roundLimit_eq]; exact hn)
  have e : f.simplify = r := by
    unfold simplify
    rw [(imbalance?_eq_none_iff f).mpr hb, hf, hs]
    cases r with
    | error e => rfl
    | ok g =>
      have hg : g.Balanced := hr.invariant (P := Form.Balanced) (fun _ _ hP h => hP.round h)
        hb.normalizeRestrictions rfl
      simp only [bind, Except.bind, (imbalance?_eq_none_iff g).mpr hg]
      rfl
  rw [e]
  exact hr

/-- The simplifier terminates.  The rounds for a form that passes the checks end, with a form or an
error, after at most two more than it has monomials, determinants and transforms; and for any form,
whatever its indices and constants, the sweeps of contraction end after at most one more than it has
monomials. -/
theorem simplify_terminates :
    (∀ [LawfulConstant K] (f : Form K), f.imbalance? = none → f.nonFinite? = none →
      ∃ n ≤ f.size + f.numDeterminants + f.numTransforms + 2,
        Runs Form.round (fun f g => (g == f) = true) f.normalizeRestrictions n f.simplify) ∧
    ∀ f : Form K, ∃ n ≤ f.size + 1,
      Runs Form.contractOnce (fun f g => g.size = f.size) f n f.contract := by
  refine ⟨fun f hb hf => ?_, contract_runs⟩
  rw [← weight_eq]
  exact simplify_runs ((imbalance?_eq_none_iff f).mp hb) hf

/-- The derivatives of two arguments, connected through the physical direction `k`: the direction of
the first one is pulled back from `k`, that of the second one is pushed forward to it. -/
def chainTerm (constant : K) (cell : Cell) (k : ℕ) : Monomial K :=
  let element : Element := .lagrange 0 { cell, degree := 1 }
  let direction (id : ℕ) : Index := .slot .secondary id (List.range cell.dimension)
  let argument (id : ℕ) : BasisFunction :=
    { BasisFunction.argument element id with derivatives := [⟨element, direction id⟩] }
  { constant
    basisFunctions := [argument 0, argument 1]
    transforms := [⟨.inverse, direction 0, .fixed k, .unrestricted⟩,
      ⟨.jacobian, direction 1, .fixed k, .unrestricted⟩] }

/-- One term for each of the given physical directions. -/
def chainTerms (constant : K) (cell : Cell) (directions : List ℕ) : Form K :=
  ⟨directions.map (chainTerm constant cell)⟩

/-- The rounds for floating-point terms, and the sweeps for terms without a number. -/
theorem simplify_terminates_chainTerms :
    let f := chainTerms (0.5 : Float) .triangle [0, 1]
    let g := chainTerms (0 / 0 : Float) .triangle [0, 1]
    (f.imbalance? = none ∧ f.nonFinite? = none ∧ g.nonFinite?.isSome = true) ∧
      (∃ n ≤ 8, Runs Form.round (fun f g => (g == f) = true) f.normalizeRestrictions n f.simplify) ∧
      ∃ n ≤ 3, Runs Form.contractOnce (fun f g => g.size = f.size) g n g.contract := by
  intro f g
  have hb : f.imbalance? = none := rfl
  have hf : f.nonFinite? = none := by decide +kernel
  have hg : g.nonFinite?.isSome = true := by decide +kernel
  exact ⟨⟨hb, hf, hg⟩, simplify_terminates.1 f hb hf, simplify_terminates.2 g⟩

end Form

end WeakForm
