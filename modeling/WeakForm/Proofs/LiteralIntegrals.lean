import Mathlib.Algebra.BigOperators.Group.List.Basic
import Mathlib.Algebra.Field.Basic
import WeakForm.Proofs.Failure
import WeakForm.Proofs.Value
import WeakForm.Representation

/-!
# Integrals of basis functions with literal indices

The program integrates a product of basis functions with a list of values for the slots of each
kind.  Here the same integral is taken of the basis functions with literals in place of their
indices (`quadrature`), so that it is a function of an assignment of values to slots.  Both agree,
in whatever order the basis functions are taken (`quadrature_eq_ok`): the degree of the rule is a
sum over them, and so is the integrand a product, and their cells have to be the same.
-/

namespace WeakForm

open Indexed

/-- The assignment by lists of values; slots beyond them have the value zero. -/
def IndexValues.assignment (values : IndexValues) (s : Slot) : ℕ :=
  match s.kind with
  | .primary => values.primary.getD s.id 0
  | .secondary => values.secondary.getD s.id 0
  | .auxiliary => values.auxiliary.getD s.id 0

/-- The values of all indices of a list are given, and they are those of the assignment. -/
def IndexValues.Cover (values : IndexValues) (a : Slot → ℕ) (is : List Index) : Prop :=
  ∀ i ∈ is, values.value? i = some (i.valueIn a)

/-! ### Basis functions -/

namespace BasisFunction

variable {v w : BasisFunction} {values : IndexValues} {a : Slot → ℕ}

theorem resolveIndex_literal {part : BasisPart} {i : Index} {dim x : ℕ}
    (h : v.resolveIndex values part i dim = .ok x) (hi : values.value? i = some (i.valueIn a)) :
    w.resolveIndex {} part (i.resolve a) dim = .ok x := by
  rw [resolveIndex, hi] at h
  dsimp only at h
  split at h
  · rename_i hlt
    cases h
    exact if_pos hlt
  · cases h

theorem resolve_literal {r : ResolvedBasisFunction} (h : v.resolve values = .ok r)
    (ha : values.Cover a (indices v)) : (mapIndices (Index.resolve a) v).resolve {} = .ok r := by
  rw [IndexValues.Cover, indices_basisFunction] at ha
  simp only [List.forall_mem_cons, List.forall_mem_append, List.forall_mem_map] at ha
  obtain ⟨hindex, hcomp, hder⟩ := ha
  unfold resolve at h ⊢
  obtain ⟨basis, hb, h⟩ := bind_eq_ok.mp h
  split at h
  · cases h
  · rename_i hlen
    obtain ⟨component, hc, h⟩ := bind_eq_ok.mp h
    obtain ⟨directions, hd, h⟩ := bind_eq_ok.mp h
    cases h
    rw [mapIndices_basisFunction]
    dsimp only
    refine bind_eq_ok.mpr ⟨basis, resolveIndex_literal hb hindex, ?_⟩
    rw [if_neg (by rwa [List.length_map])]
    refine bind_eq_ok.mpr ⟨component, ?_, bind_eq_ok.mpr ⟨directions, ?_, rfl⟩⟩
    · rw [List.zip_map_left, ← List.map_id component]
      refine mapM_map_eq_ok hc fun x hx y hy => ?_
      exact resolveIndex_literal hy (hcomp _ (List.of_mem_zip hx).1)
    · rw [← List.map_id directions]
      exact mapM_map_eq_ok hd fun d hmem y hy => resolveIndex_literal hy (hder d hmem)

end BasisFunction

variable {K : Type} [Field K]

/-! ### Integrands -/

namespace Integrand

theorem product_eq_prod (factors : List (ResolvedBasisFunction × Evaluator K))
    (plus minus : List K) : product factors plus minus =
      (factors.map fun (v, e) =>
        e.evaluate v.basis v.component v.directions (if v.minus then minus else plus)).prod := by
  rw [List.prod_eq_foldl, List.foldl_map]
  rfl

theorem product_perm {factors factors' : List (ResolvedBasisFunction × Evaluator K)}
    (h : factors.Perm factors') (plus minus : List K) :
    product factors plus minus = product factors' plus minus := by
  rw [product_eq_prod, product_eq_prod]
  exact (h.map _).prod_eq

omit [Field K] in
theorem resolve_literal {x : Integrand K} {values : IndexValues} {a : Slot → ℕ}
    {v : BasisFunction} {r : ResolvedBasisFunction} (h : x.resolve values v = .ok r)
    (ha : values.Cover a (indices v)) :
    x.resolve {} (mapIndices (Index.resolve a) v) = .ok r := by
  have hcell : (mapIndices (Index.resolve a) v).element = v.element := by
    rw [mapIndices_basisFunction]
  unfold resolve at h ⊢
  rw [hcell]
  split at h
  · rename_i hv
    rw [mapError_eq_ok] at h
    rw [if_pos hv, mapError_eq_ok]
    exact BasisFunction.resolve_literal h ha
  · cases h

/-- The order of the factors does not matter. -/
theorem integrate_perm {x : Integrand K} {values : IndexValues} {y : K}
    {factors : List (BasisFunction × Evaluator K)} (h : x.integrate values = .ok y)
    (hperm : factors.Perm x.factors) :
    ({ x with factors } : Integrand K).integrate values = .ok y := by
  obtain ⟨resolved, hres, h⟩ := bind_eq_ok.mp h
  obtain ⟨resolved', hres', hperm'⟩ := mapM_perm_eq_ok hres hperm
  refine bind_eq_ok.mpr ⟨resolved', hres', ?_⟩
  rw [← h]
  simp only [product_perm hperm']

/-- The integral of a permuted product with literal indices. -/
theorem integrate_literal {x : Integrand K} {values : IndexValues} {a : Slot → ℕ} {y : K}
    {factors : List (BasisFunction × Evaluator K)} (h : x.integrate values = .ok y)
    (hperm : factors.Perm (x.factors.map fun (v, e) => (mapIndices (Index.resolve a) v, e)))
    (ha : ∀ v ∈ x.factors, values.Cover a (indices v.1)) :
    ({ x with factors } : Integrand K).integrate {} = .ok y := by
  obtain ⟨resolved, hres, h⟩ := bind_eq_ok.mp h
  have hliteral : (x.factors.map fun (v, e) => (mapIndices (Index.resolve a) v, e)).mapM
      (fun (v, e) => do return (← x.resolve {} v, e)) = .ok (resolved.map id) := by
    refine mapM_map_eq_ok hres fun (v, e) hv r hr => ?_
    obtain ⟨r', hr', hr⟩ := bind_eq_ok.mp hr
    cases hr
    exact bind_eq_ok.mpr ⟨r', resolve_literal hr' (ha _ hv), rfl⟩
  rw [List.map_id] at hliteral
  let literal : Integrand K :=
    { x with factors := x.factors.map fun (v, e) => (mapIndices (Index.resolve a) v, e) }
  have hx : literal.integrate {} = .ok y := bind_eq_ok.mpr ⟨resolved, hliteral, h⟩
  exact integrate_perm (x := literal) hx hperm

end Integrand

/-- Factors that can be resolved lie on the cell of the integrator. -/
theorem Integrand.cell_eq {x : Integrand K} {values : IndexValues} {y : K}
    (h : x.integrate values = .ok y) :
    ∀ v ∈ x.factors, v.1.element.space.cell = x.integrator.cell := by
  obtain ⟨resolved, hres, -⟩ := bind_eq_ok.mp h
  rintro ⟨v, e⟩ hv
  obtain ⟨r, hr⟩ := exists_of_mem_of_mapM_eq_ok hres hv
  obtain ⟨r', hr', -⟩ := bind_eq_ok.mp hr
  by_contra hne
  rw [resolve, if_neg hne] at hr'
  cases hr'

/-! ### Integrators -/

theorem defaultQuadratureDegree_perm {vs ws : List BasisFunction} (hperm : ws.Perm vs) :
    defaultQuadratureDegree ws = defaultQuadratureDegree vs :=
  total_perm (hperm.map _)

namespace ReferenceIntegrator

section Rules

variable [Numerics K] [LE K] [DecidableLE K]
variable {x : ReferenceIntegrator K} {vs ws : List BasisFunction}

/-- The integrator for basis functions on one cell does not depend on their order. -/
theorem forBasisFunctions_perm {domain : QuadratureDomain} {degree? : Option ℕ}
    (h : forBasisFunctions vs domain degree? = .ok x) (hperm : ws.Perm vs)
    (hcell : ∀ v ∈ vs, v.element.space.cell = x.cell) :
    forBasisFunctions ws domain degree? = .ok x := by
  have hdegree := defaultQuadratureDegree_perm hperm
  cases vs with
  | nil => cases h
  | cons v vs =>
    cases ws with
    | nil => exact absurd hperm.symm (by simp)
    | cons w ws =>
      have hw := hcell w (hperm.subset List.mem_cons_self)
      have hv := hcell v List.mem_cons_self
      rw [forBasisFunctions, ← hdegree, hv, ← hw] at h
      exact h

/-- The integrator sees no indices. -/
theorem forBasisFunctions_mapIndices (f : Index → Index) (domain : QuadratureDomain)
    (degree? : Option ℕ) : forBasisFunctions (K := K) (vs.map (mapIndices f)) domain degree? =
      forBasisFunctions vs domain degree? := by
  cases vs with
  | nil => rfl
  | cons v vs =>
    have helement : ∀ v : BasisFunction, (mapIndices f v).element = v.element := fun v => by
      rw [mapIndices_basisFunction]
    have hdegree : defaultQuadratureDegree ((v :: vs).map (mapIndices f)) =
        defaultQuadratureDegree (v :: vs) := by
      rw [defaultQuadratureDegree, List.map_map, defaultQuadratureDegree]
      simp only [Function.comp_def, helement]
    rw [forBasisFunctions, ← hdegree, ← helement v]
    rfl

end Rules

variable [Tabulation K]
variable {x : ReferenceIntegrator K} {vs ws : List BasisFunction} {y : Integrand K}

omit [Field K] in
theorem factors_of_prepare (h : x.prepare vs = .ok y) :
    y.integrator = x ∧ y.factors.map (·.1) = vs := by
  obtain ⟨factors, hf, hy⟩ := bind_eq_ok.mp h
  clear h
  cases hy
  refine ⟨rfl, ?_⟩
  have hforall := mapM_eq_ok.mp hf
  clear hf
  dsimp only
  induction hforall with
  | nil => rfl
  | cons hv _ ih =>
    obtain ⟨e, -, hv⟩ := bind_eq_ok.mp hv
    cases hv
    rw [List.map_cons, ih]

omit [Field K] in
/-- Elements are found for permuted basis functions with other indices. -/
theorem prepare_mapIndices (h : x.prepare vs = .ok y) (hperm : ws.Perm vs)
    (f : Index → Index) :
    ∃ factors, x.prepare (ws.map (mapIndices f)) = .ok { y with factors } ∧
      factors.Perm (y.factors.map fun (v, e) => (mapIndices f v, e)) := by
  obtain ⟨factors, hf, h⟩ := bind_eq_ok.mp h
  cases h
  obtain ⟨factors', hf', hperm'⟩ := mapM_perm_eq_ok hf hperm
  refine ⟨factors'.map fun (v, e) => (mapIndices f v, e), bind_eq_ok.mpr ⟨_, ?_, rfl⟩,
    hperm'.map _⟩
  refine mapM_map_eq_ok hf' fun v _ r hr => ?_
  obtain ⟨e, he, hr⟩ := bind_eq_ok.mp hr
  cases hr
  have helement : (mapIndices f v).element = v.element := by rw [mapIndices_basisFunction]
  exact bind_eq_ok.mpr ⟨e, by rw [helement]; exact he, rfl⟩

/-- The integral of a product does not depend on the order of its basis functions. -/
theorem integrate_perm {values : IndexValues} {z : K} (h : x.integrate vs values = .ok z)
    (hperm : ws.Perm vs) : x.integrate ws values = .ok z := by
  obtain ⟨y, hy, hz⟩ := bind_eq_ok.mp h
  obtain ⟨factors, hprep, hfactors⟩ := prepare_mapIndices hy hperm id
  have hid : (mapIndices id : BasisFunction → BasisFunction) = id := funext mapIndices_id
  rw [hid, List.map_id] at hprep
  simp only [hid, id, List.map_id'] at hfactors
  exact bind_eq_ok.mpr ⟨_, hprep, Integrand.integrate_perm hz hfactors⟩

end ReferenceIntegrator

variable [Numerics K] [LE K] [DecidableLE K] [Tabulation K]

/-- The integral of basis functions whose indices are given values. -/
def quadrature (settings : CompilerSettings) (domain : QuadratureDomain) (vs : List BasisFunction)
    (a : Slot → ℕ) : Except (FormError K) K := do
  let integrator ← ReferenceIntegrator.forBasisFunctions vs domain settings.quadratureDegree
  integrator.integrate (vs.map (mapIndices (Index.resolve a))) {}

/-- If the integral exists for lists of values, then so does the one with literal indices, and they
are equal. -/
theorem quadrature_eq_ok {settings : CompilerSettings} {domain : QuadratureDomain}
    {vs ws : List BasisFunction} {x : ReferenceIntegrator K} {y : Integrand K}
    {values : IndexValues} {a : Slot → ℕ} {z : K}
    (hx : ReferenceIntegrator.forBasisFunctions vs domain settings.quadratureDegree = .ok x)
    (hy : x.prepare vs = .ok y) (hz : y.integrate values = .ok z) (hperm : ws.Perm vs)
    (ha : values.Cover a (indices vs)) : quadrature settings domain ws a = .ok z := by
  obtain ⟨rfl, hfst⟩ := ReferenceIntegrator.factors_of_prepare hy
  have hmem : ∀ v ∈ y.factors, v.1 ∈ vs := fun v hv => hfst ▸ List.mem_map_of_mem hv
  have hcell : ∀ v ∈ vs, v.element.space.cell = y.integrator.cell := by
    rw [← hfst]
    exact List.forall_mem_map.mpr (Integrand.cell_eq hz)
  obtain ⟨factors, hprep, hfactors⟩ :=
    ReferenceIntegrator.prepare_mapIndices hy hperm (Index.resolve a)
  refine bind_eq_ok.mpr ⟨y.integrator, ReferenceIntegrator.forBasisFunctions_perm hx hperm hcell,
    bind_eq_ok.mpr ⟨_, hprep, ?_⟩⟩
  refine Integrand.integrate_literal hz hfactors fun v hv i hi => ha i ?_
  exact List.mem_flatMap.mpr ⟨v.1, hmem v hv, hi⟩

/-- Only the values of the slots of the basis functions matter. -/
theorem quadrature_congr {settings : CompilerSettings} {domain : QuadratureDomain}
    {vs : List BasisFunction} {a b : Slot → ℕ}
    (h : ∀ i ∈ indices vs, i.valueIn a = i.valueIn b) :
    quadrature (K := K) settings domain vs a = quadrature settings domain vs b := by
  have hvs : vs.map (mapIndices (Index.resolve a)) = vs.map (mapIndices (Index.resolve b)) := by
    rw [← mapIndices_list, ← mapIndices_list]
    refine mapIndices_congr fun i hi => ?_
    rw [Index.resolve, h i hi, Index.resolve]
  rw [quadrature, hvs, quadrature]

/-- Renaming the slots of basis functions is renaming the slots that values are given to. -/
theorem quadrature_rename (settings : CompilerSettings) (domain : QuadratureDomain)
    (vs : List BasisFunction) (f : SlotKind → ℕ → ℕ) (a : Slot → ℕ) :
    quadrature (K := K) settings domain (vs.map (mapIndices (Index.rename (slotRenaming f)))) a =
      quadrature settings domain vs (a ∘ Slot.rename f) := by
  have hresolve : Index.resolve a ∘ Index.rename (slotRenaming f) =
      Index.resolve (a ∘ Slot.rename f) := by
    funext i
    simp only [Function.comp_apply, Index.resolve, Index.valueIn_rename]
  rw [quadrature, quadrature, ReferenceIntegrator.forBasisFunctions_mapIndices, List.map_map]
  have hmap : mapIndices (Index.resolve a) ∘ mapIndices (Index.rename (slotRenaming f)) =
      (mapIndices (Index.resolve (a ∘ Slot.rename f)) : BasisFunction → BasisFunction) := by
    funext v
    rw [Function.comp_apply, mapIndices_mapIndices, hresolve]
  rw [hmap]

end WeakForm
