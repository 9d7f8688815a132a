import WeakForm.Proofs.BuiltForms
import WeakForm.Proofs.ContractionValue
import WeakForm.Proofs.NormalForm

/-!
# The sides of pullbacks

A physical derivative takes its entry of the inverse Jacobian on the side of the basis function.  In
a balanced form that is built from basis functions, a derivative therefore has the side of every
pullback that it is summed with (`Monomial.PullbacksOn`): a derivative on another side would be a
third occurrence of the slot.

Normalization changes the sides of basis functions, but not those of transforms, so afterwards the
basis function has the normalized side of the pullback (`Restriction.normalized`).  All other passes
keep this (`Monomial.kept_pullbacksOn`).  Hence the sides still agree after simplification, unless a
function that is the same on both sides is differentiated on interior facets
(`Form.simplify_pullbacksOn`); then they do not (`Form.constantDerivative_sides_differ`).
-/

namespace WeakForm

open Indexed

variable {K : Type}

/-- The side on which a basis function with this restriction is taken after normalization. -/
def Restriction.normalized (i : Integral) (r : Restriction) : Restriction :=
  if i.domain = .interiorFacet ∧ r = .constant then .plus else r

theorem Index.sameSlot_comm (i j : Index) : i.sameSlot j = j.sameSlot i := by
  rw [Bool.eq_iff_iff, Index.sameSlot_iff, Index.sameSlot_iff]
  exact and_congr eq_comm eq_comm

theorem BasisFunction.index_mem_indices {v : BasisFunction} {δ : Derivative}
    (h : δ ∈ v.derivatives) : δ.index ∈ Indexed.indices v := by
  rw [indices_basisFunction]
  exact List.mem_cons_of_mem _ (List.mem_append_right _ (List.mem_map_of_mem h))

/-- Indices that denote one slot in the joined monomial do so in the first one. -/
theorem PairDifference.sameSlot_left [BEq K] {m n : Monomial K} (d : PairDifference m n)
    {j x y : Index} (hx : x ∈ (d.withIndex j).indices) (hy : y ∈ (d.withIndex j).indices)
    (h : (if x = j then d.index else x).sameSlot (if y = j then d.index else y) = true) :
    (if x = j then d.left else x).sameSlot (if y = j then d.left else y) = true := by
  obtain ⟨k, id, hid⟩ := d.exists_idOf?_index
  have hother : ∀ x ∈ (d.withIndex j).indices, x ≠ j → x.idOf? k ≠ some id := by
    intro x hx hxj
    rcases List.mem_cons.mp ((d.perm_withIndex j).subset hx) with h' | hx
    · exact absurd h' hxj
    · rcases List.mem_cons.mp hx with h' | hx
      · exact absurd h' hxj
      · exact d.index_notMem hid x hx
  by_cases hxj : x = j
  · by_cases hyj : y = j
    · rw [if_pos hxj, if_pos hyj]
      exact Index.sameSlot_refl _
    · rw [if_pos hxj, if_neg hyj, Index.sameSlot_comm, Index.sameSlot_iff_idOf? hid] at h
      exact absurd h (hother y hy hyj)
  · by_cases hyj : y = j
    · rw [if_neg hxj, if_pos hyj, Index.sameSlot_iff_idOf? hid] at h
      exact absurd h (hother x hx hxj)
    · rw [if_neg hxj, if_neg hyj] at h ⊢
      exact h

namespace Monomial

/-! ### Sides of derivatives and pullbacks -/

/-- The transforms are entries of the inverse Jacobian, and a basis function that is differentiated
in the reference direction of one of them is taken on its side, up to `side`. -/
def PullbacksOn (side : Restriction → Restriction) (m : Monomial K) : Prop :=
  ∀ t ∈ m.transforms, t.kind = .inverse ∧ ∀ v ∈ m.basisFunctions, ∀ δ ∈ v.derivatives,
    δ.index.sameSlot t.reference = true → v.restriction = side t.restriction

instance (side : Restriction → Restriction) (m : Monomial K) : Decidable (m.PullbacksOn side) :=
  inferInstanceAs (Decidable (∀ t ∈ m.transforms, t.kind = .inverse ∧ ∀ v ∈ m.basisFunctions,
    ∀ δ ∈ v.derivatives, δ.index.sameSlot t.reference = true →
      v.restriction = side t.restriction))

/-- The directions of derivatives, each with the side of its basis function. -/
def sidedDirections (m : Monomial K) : List (Restriction × Index) :=
  m.basisFunctions.flatMap fun v => v.derivatives.map fun δ => (v.restriction, δ.index)

theorem pullbacksOn_iff {side : Restriction → Restriction} {m : Monomial K} :
    m.PullbacksOn side ↔ ∀ t ∈ m.transforms, t.kind = .inverse ∧ ∀ p ∈ m.sidedDirections,
      p.2.sameSlot t.reference = true → p.1 = side t.restriction := by
  simp only [PullbacksOn, sidedDirections, List.forall_mem_flatMap, List.forall_mem_map]

theorem sidedDirections_mapIndices (f : Index → Index) (m : Monomial K) :
    (mapIndices f m).sidedDirections = m.sidedDirections.map fun p => (p.1, f p.2) := by
  simp only [sidedDirections, mapIndices_eq, List.flatMap_map, List.map_flatMap,
    mapIndices_basisFunction, List.map_map]
  rfl

theorem mem_indices_of_sidedDirections {m : Monomial K} {p : Restriction × Index}
    (h : p ∈ m.sidedDirections) : p.2 ∈ m.indices := by
  obtain ⟨v, hv, hp⟩ := List.mem_flatMap.mp h
  obtain ⟨δ, hδ, rfl⟩ := List.mem_map.mp hp
  exact List.mem_append_left _ (List.mem_flatMap.mpr ⟨v, hv, BasisFunction.index_mem_indices hδ⟩)

theorem mem_indices_of_transforms {m : Monomial K} {t : Transform} (h : t ∈ m.transforms) :
    t.reference ∈ m.indices := by
  refine List.mem_append_right _ (List.mem_append_left _ (List.mem_flatMap.mpr ⟨t, h, ?_⟩))
  exact List.mem_cons_self

/-- In a balanced monomial, only one basis function is differentiated along the reference direction
of a transform. -/
theorem Balanced.basisFunction_eq {m : Monomial K} (hb : m.Balanced) {t : Transform}
    (ht : t ∈ m.transforms) (hfixed : t.reference.isFixed = false) {v w : BasisFunction}
    (hv : v ∈ m.basisFunctions) (hw : w ∈ m.basisFunctions) {δ ε : Derivative}
    (hδ : δ ∈ v.derivatives) (hε : ε ∈ w.derivatives)
    (hδt : δ.index.sameSlot t.reference = true) (hεt : ε.index.sameSlot t.reference = true) :
    v = w := by
  by_contra hvw
  -- the slot would occur in two basis functions and in the transform
  obtain ⟨k, id, hid⟩ : ∃ k id, t.reference.idOf? k = some id := by
    cases hr : t.reference with
    | slot k id r => exact ⟨k, id, if_pos rfl⟩
    | fixed x =>
      rw [hr] at hfixed
      cases hfixed
  obtain ⟨vs, hvs, hsub⟩ : [v, w].Subperm m.basisFunctions := by
    refine List.subperm_of_subset (by simp [hvw]) fun x hx => ?_
    rcases List.mem_pair.mp hx with rfl | rfl
    · exact hv
    · exact hw
  have hpair : [δ.index, ε.index].Subperm (Indexed.indices m.basisFunctions) := by
    have h2 : [δ.index, ε.index].Sublist ([v, w].flatMap Indexed.indices) := by
      rw [List.flatMap_cons, List.flatMap_singleton]
      exact (List.singleton_sublist.mpr (BasisFunction.index_mem_indices hδ)).append
        (List.singleton_sublist.mpr (BasisFunction.index_mem_indices hε))
    exact h2.subperm.trans
      ((hvs.symm.flatMap_right Indexed.indices).subperm.trans (hsub.flatMap _).subperm)
  have htriple : ([δ.index, ε.index] ++ [t.reference]).Subperm m.indices := by
    refine hpair.append (List.singleton_sublist.mpr ?_).subperm
    exact List.mem_append_left _ (List.mem_flatMap.mpr ⟨t, ht, List.mem_cons_self⟩)
  exact (BalancedIndices.subperm htriple hb).pair ((Index.sameSlot_iff_idOf? hid).mp hδt)
    ((Index.sameSlot_iff_idOf? hid).mp hεt) t.reference (List.mem_singleton_self _) hid

/-- The derivatives of a balanced monomial have the sides of their pullbacks, if every pullback has
the side of one derivative. -/
theorem pullbacksOn_of_paired {m : Monomial K} (hb : m.Balanced) (hm : m.toProduct.Paired) :
    m.PullbacksOn id := by
  intro t ht
  obtain ⟨hk, hfixed, w, hw, hwt, ε, hε, hεt⟩ := hm t ht
  refine ⟨hk, fun v hv δ hδ hδt => ?_⟩
  have hεt' : ε.index.sameSlot t.reference = true := hεt ▸ Index.sameSlot_refl ε.index
  obtain rfl := hb.basisFunction_eq ht hfixed hv hw hδ hε hδt hεt'
  exact hwt

/-! ### The passes -/

theorem integral_normalizeRestrictions (m : Monomial K) :
    m.normalizeRestrictions.integral = m.integral := by
  unfold normalizeRestrictions
  split <;> rfl

/-- Normalization changes the sides of basis functions. -/
theorem sidedDirections_normalizeRestrictions (m : Monomial K) :
    m.normalizeRestrictions.sidedDirections =
      m.sidedDirections.map fun p => (p.1.normalized m.integral, p.2) := by
  unfold normalizeRestrictions
  split
  · rename_i hd
    simp only [sidedDirections, List.flatMap_map, List.map_flatMap, List.map_map]
    apply List.flatMap_congr
    intro v _
    by_cases hc : v.restriction = .constant
    · simp [hc, hd, Restriction.normalized]
    · simp [hc, Restriction.normalized]
  · rename_i hd
    have hsame : ∀ r : Restriction, r.normalized m.integral = r := fun r =>
      if_neg fun h => hd h.1
    simp [hsame]

/-- Normalization takes the sides of derivatives, but not those of transforms, to the normalized
ones. -/
theorem PullbacksOn.normalizeRestrictions {side : Restriction → Restriction} {m : Monomial K}
    (h : m.PullbacksOn id)
    (hside : ∀ p ∈ m.sidedDirections, p.1.normalized m.integral = side p.1) :
    m.normalizeRestrictions.PullbacksOn side := by
  rw [pullbacksOn_iff] at h ⊢
  rw [m.transforms_normalizeRestrictions, m.sidedDirections_normalizeRestrictions]
  intro t ht
  obtain ⟨hk, hsides⟩ := h t ht
  refine ⟨hk, ?_⟩
  rw [List.forall_mem_map]
  intro p hp hpt
  have hpr : p.1 = t.restriction := hsides p hp hpt
  rw [← hpr]
  exact hside p hp

theorem simplifyDerivatives_eq_self {m : Monomial K} (h : ∀ t ∈ m.transforms, t.kind = .inverse) :
    m.simplifyDerivatives = m := by
  have hs := m.simplifyDerivatives_steps (P := fun _ _ _ => False) ?_
  · generalize m.simplifyDerivatives = n at hs
    cases hs with
    | refl => rfl
    | tail _ hstep =>
      cases hstep with
      | mk p _ hfalse _ => exact hfalse.elim
  · intro v _ δ _ s _ t ht hchain
    have hends := hchain.ends
    simp [Transform.endsChain, h t ht] at hends

variable [BEq K]

theorem pullbacksOn_joined {side : Restriction → Restriction} {m n : Monomial K}
    (d : PairDifference m n) (h : m.PullbacksOn side) : d.joined.PullbacksOn side := by
  obtain ⟨j, hj⟩ := d.exists_marker
  rw [← d.withIndex_left, d.withIndex_eq_mapIndices hj, pullbacksOn_iff,
    sidedDirections_mapIndices, mapIndices_eq] at h
  rw [PairDifference.joined, d.withIndex_eq_mapIndices hj, pullbacksOn_iff,
    sidedDirections_mapIndices, mapIndices_eq]
  simp only [List.forall_mem_map] at h ⊢
  intro t ht
  obtain ⟨hk, hsides⟩ := h t ht
  refine ⟨hk, fun p hp hpt => hsides p hp ?_⟩
  exact d.sameSlot_left (mem_indices_of_sidedDirections hp) (mem_indices_of_transforms ht) hpt

/-- The passes of a round keep the sides of all derivatives and pullbacks. -/
theorem kept_pullbacksOn (side : Integral → Restriction → Restriction) :
    Kept fun m : Monomial K => m.PullbacksOn (side m.integral) where
  rename m f hf h := by
    rw [pullbacksOn_iff] at h ⊢
    rw [Monomial.rename, sidedDirections_mapIndices, mapIndices_eq]
    dsimp only
    rw [List.forall_mem_map]
    intro t ht
    obtain ⟨hk, hsides⟩ := h t ht
    refine ⟨hk, ?_⟩
    rw [List.forall_mem_map]
    exact fun p hp hpt => hsides p hp (Index.sameSlot_of_rename hf hpt)
  joined m n d _ h _ := pullbacksOn_joined d h
  constant _ _ h := h
  contractDeterminants _ h := h
  simplifyDerivatives m h := by
    rw [simplifyDerivatives_eq_self fun t ht => (h t ht).1]
    exact h

end Monomial

/-! ### Simplification -/

namespace Form

variable [Constant K] [BEq K] [One K] [Neg K] [Add K] [Mul K] [Zero K] [LawfulConstant K]

/-- The sides of derivatives and pullbacks.  In a form that is built from basis functions and that
is simplified, derivatives and their pullbacks are on the same side.  In its simplification the
basis function is on the normalized side of the pullback, which is still the same side if no basis
function that is the same on both sides is differentiated on interior facets. -/
theorem simplify_pullbacksOn {f g : Form K} (hf : (Expr.form f).Built) (hg : f.simplify = .ok g) :
    (∀ m ∈ f.monomials, m.PullbacksOn id) ∧
    (∀ m ∈ g.monomials, m.PullbacksOn (Restriction.normalized m.integral)) ∧
    ((∀ m ∈ f.monomials, m.integral.domain = .interiorFacet →
        ∀ v ∈ m.basisFunctions, v.derivatives ≠ [] → v.restriction ≠ .constant) →
      ∀ m ∈ g.monomials, m.PullbacksOn id) := by
  obtain ⟨hb, -⟩ := checks_of_simplify hg
  have hsides : ∀ m ∈ f.monomials, m.PullbacksOn id := fun m hm =>
    Monomial.pullbacksOn_of_paired (hb m hm) (hf.paired _ (List.mem_map_of_mem hm))
  refine ⟨hsides, ?_, fun hc => ?_⟩
  · refine simplify_forall_mem (Monomial.kept_pullbacksOn Restriction.normalized) hg fun m hm => ?_
    rw [m.integral_normalizeRestrictions]
    exact (hsides m hm).normalizeRestrictions fun _ _ => rfl
  · refine simplify_forall_mem (Monomial.kept_pullbacksOn fun _ => id) hg fun m hm => ?_
    refine (hsides m hm).normalizeRestrictions fun p hp => ?_
    obtain ⟨v, hv, hp⟩ := List.mem_flatMap.mp hp
    obtain ⟨δ, hδ, rfl⟩ := List.mem_map.mp hp
    exact if_neg fun h => hc m hm h.1 v hv (List.ne_nil_of_mem hδ) h.2

/-- The derivative of an argument, with a pullback, times an argument on the minus side, on the
interior facets of the triangle.  The first argument and the pullback have the given sides. -/
def facetTerm (constant : K) (r s : Restriction) : Form K :=
  let element : Element := .lagrange 0 { cell := .triangle, degree := 1 }
  let direction : Index := .slot .secondary 0 [0, 1]
  let u : BasisFunction := { BasisFunction.argument element 0 with restriction := r }
  ⟨[{ constant
      basisFunctions := [{ u with derivatives := [⟨element, direction⟩] },
        { BasisFunction.argument element 1 with restriction := .minus }]
      transforms := [⟨.inverse, direction, .fixed 0, s⟩]
      integral := ⟨.interiorFacet, 3⟩ }]⟩

omit [Constant K] [BEq K] [Zero K] [LawfulConstant K] in
theorem built_facetTerm (r : Restriction) :
    (Expr.form (facetTerm (1 * 1 : K) r r)).Built := by
  let element : Element := .lagrange 0 { cell := .triangle, degree := 1 }
  let u : BasisFunction := { BasisFunction.argument element 0 with restriction := r }
  let v : BasisFunction := { BasisFunction.argument element 1 with restriction := .minus }
  let direction : Index := .slot .secondary 0 [0, 1]
  let du : Factor :=
    { basisFunction := { u with derivatives := [⟨element, direction⟩] }
      transforms := [⟨.inverse, direction, .fixed 0, r⟩] }
  have hu : (Expr.basis u : Expr K).derivative (.fixed 0) {} =
      .ok (.factor du, IndexGenerator.advance {} .secondary) := rfl
  have hmul : (Expr.factor du : Expr K).mul (.basis v) =
      .ok (.product (du.toProduct.times (Factor.toProduct { basisFunction := v }))) := rfl
  exact .integrate (.mul (.derivative (.basis u) hu) (.basis v) hmul) rfl

/-- Both sides of a derivative on the plus side stay as they are. -/
theorem simplify_pullbacksOn_facetTerm :
    let f := facetTerm (1 * 1 : Float) .plus .plus
    ((Expr.form f).Built ∧ f.simplify = .ok f ∧
      ∀ m ∈ f.monomials, m.integral.domain = .interiorFacet →
        ∀ v ∈ m.basisFunctions, v.derivatives ≠ [] → v.restriction ≠ .constant) ∧
    (∀ m ∈ f.monomials, m.PullbacksOn id) ∧
      ∀ m ∈ f.monomials, m.PullbacksOn (Restriction.normalized m.integral) := by
  intro f
  have hb : (Expr.form f).Built := built_facetTerm .plus
  have hf : f.simplify = .ok f := by decide +kernel
  have hc : ∀ m ∈ f.monomials, m.integral.domain = .interiorFacet →
      ∀ v ∈ m.basisFunctions, v.derivatives ≠ [] → v.restriction ≠ .constant := by decide
  obtain ⟨-, h2, h3⟩ := simplify_pullbacksOn hb hf
  exact ⟨⟨hb, hf, hc⟩, h3 hc, h2⟩

/-- The derivative of a function that is the same on both sides: after simplification the function
is on the plus side, its pullback is not. -/
theorem constantDerivative_sides_differ :
    let f := facetTerm (1 * 1 : Float) .constant .constant
    let g := facetTerm (1 * 1 : Float) .plus .constant
    (Expr.form f).Built ∧ f.simplify = .ok g ∧
      (∀ m ∈ g.monomials, ∀ t ∈ m.transforms, t.kind = .inverse) ∧
      ¬ ∀ m ∈ g.monomials, m.PullbacksOn id := by
  intro f g
  exact ⟨built_facetTerm .constant, by decide +kernel, by decide, by decide⟩

end Form

end WeakForm
