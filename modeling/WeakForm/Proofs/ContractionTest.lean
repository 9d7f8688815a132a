import WeakForm.Proofs.ContractionValue
import WeakForm.Proofs.NormalForm

/-!
# The test before a contraction

Before two monomials are contracted, `Monomial.mayContract` compares most of what a contraction
leaves as it is.  It also compares the arguments of the basis functions, which a contraction may
change: the test lets a pair that contracts pass exactly if the arguments of both monomials agree
(`Monomial.contractIfLikely_eq`).

Test and trial functions have arguments of their own, which occur at no other place
(`Monomial.FreeArguments`).  A pair of such monomials never differs in an argument, and contraction
keeps the condition, so the test makes no difference to the result (`Form.runs_sweep_contract`).  A
basis function that is summed over with the coefficients of a given function shares its argument
with the coefficient, and the test keeps its terms apart (`Form.coefficientTerms_kept_apart`).
-/

namespace WeakForm

open Indexed

variable {K : Type}

/-! ### Arguments -/

theorem Index.rename_injective {f : SlotKind → ℕ → ℕ} (hf : ∀ k, Function.Injective (f k)) :
    Function.Injective (Index.rename (slotRenaming f)) := by
  intro i j h
  cases i with
  | slot k id r =>
    cases j with
    | slot l id' r' =>
      simp only [Index.rename, Index.slot.injEq] at h
      obtain ⟨rfl, hid, rfl⟩ := h
      rw [hf k hid]
    | fixed v => cases h
  | fixed v =>
    cases j with
    | slot l id r => cases h
    | fixed w => exact h

namespace Monomial

theorem arguments_mapIndices (f : Index → Index) (m : Monomial K) :
    (mapIndices f m).arguments = m.arguments.map f := by
  simp only [arguments, mapIndices_eq, List.map_map]
  apply List.map_congr_left
  intro v _
  simp only [Function.comp_apply, mapIndices_basisFunction]

theorem arguments_subset (m : Monomial K) : m.arguments ⊆ m.indices := fun _ hi =>
  m.indices_perm_arguments.symm.subset (List.mem_append_left _ hi)

/-- Every argument of a basis function occurs at one place only. -/
def FreeArguments (m : Monomial K) : Prop :=
  ∀ i ∈ m.arguments, m.indices.count i ≤ 1

instance (m : Monomial K) : Decidable m.FreeArguments :=
  inferInstanceAs (Decidable (∀ i ∈ m.arguments, m.indices.count i ≤ 1))

theorem FreeArguments.rename {m : Monomial K} (h : m.FreeArguments) {f : SlotKind → ℕ → ℕ}
    (hf : ∀ k, Function.Injective (f k)) : (m.rename (slotRenaming f)).FreeArguments := by
  intro i hi
  rw [Monomial.rename, arguments_mapIndices] at hi
  obtain ⟨j, hj, rfl⟩ := List.mem_map.mp hi
  rw [Monomial.rename, indices_mapIndices,
    List.count_map_of_injective _ _ (Index.rename_injective hf)]
  exact h j hj

/-! ### What the test compares -/

/-- Basis functions that agree up to their indices, and in their arguments, pass the test. -/
theorem all_zip_of_map_eq {vs ws : List BasisFunction}
    (h : vs.map (mapIndices fun _ => .fixed 0) = ws.map (mapIndices fun _ => .fixed 0))
    (ha : vs.map (·.index) = ws.map (·.index)) :
    ((vs.zip ws).all fun (v, w) => v.element == w.element && v.index == w.index &&
      v.restriction == w.restriction && v.components.length == w.components.length &&
        v.derivatives.length == w.derivatives.length) = true := by
  induction vs generalizing ws with
  | nil => rfl
  | cons v vs ih =>
    cases ws with
    | nil => cases h
    | cons w ws =>
      rw [List.map_cons, List.map_cons, List.cons.injEq] at h ha
      have hshape := h.1
      rw [mapIndices_basisFunction, mapIndices_basisFunction, BasisFunction.mk.injEq] at hshape
      obtain ⟨helement, -, hcomponents, hrestriction, hderivatives⟩ := hshape
      have hcl := congrArg List.length hcomponents
      have hdl := congrArg List.length hderivatives
      rw [List.length_map, List.length_map] at hcl hdl
      rw [List.zip_cons_cons, List.all_cons, ih h.2 ha.2]
      simp only [helement, ha.1, hrestriction, hcl, hdl, beq_self_eq_true, Bool.and_self]

variable [BEq K]

/-- Of monomials that agree up to their indices, the test compares the arguments. -/
theorem mayContract_iff {m n : Monomial K} (hc : (m.constant == n.constant) = true)
    (hs : m.sameStructure n = true) : m.mayContract n = true ↔ m.arguments = n.arguments := by
  refine ⟨arguments_eq_of_mayContract, fun ha => ?_⟩
  simp only [sameStructure, eqIgnoringConstant, Product.sameFactors, skeleton, mapIndices_eq,
    Bool.and_eq_true, beq_iff_eq] at hs
  obtain ⟨hintegral, ⟨⟨hvs, hts⟩, hcs⟩, hds⟩ := hs
  have hvl := congrArg List.length hvs
  have htl := congrArg List.length hts
  have hcl := congrArg List.length hcs
  rw [List.length_map, List.length_map] at hvl htl hcl
  simp only [mayContract, hintegral, hc, hds, hcl, htl, hvl, all_zip_of_map_eq hvs ha,
    beq_self_eq_true, Bool.and_self]

/-- The test keeps those pairs from being contracted that differ in an argument, and no others. -/
theorem contractIfLikely_eq (m n : Monomial K) :
    m.contractIfLikely n = if m.arguments = n.arguments then m.contract n else .ok none := by
  unfold contractIfLikely
  obtain ⟨hn, -⟩ | ⟨d, -⟩ := m.contract_eq n
  · rw [hn, ite_self, ite_self]
  · simp only [mayContract_iff d.constant_beq d.same]

end Monomial

namespace PairDifference

variable [BEq K] {m n : Monomial K}

/-- Arguments are the same in both monomials, and in the joined one, unless the difference is at one
of them. -/
theorem arguments_withIndex (d : PairDifference m n) (h : d.left ∉ m.arguments) (i : Index) :
    (d.withIndex i).arguments = m.arguments := by
  obtain ⟨j, hj⟩ := d.exists_marker
  have hmap : ∀ k, (d.withIndex k).arguments =
      (d.withIndex j).arguments.map fun x => if x = j then k else x := by
    intro k
    rw [d.withIndex_eq_mapIndices hj, Monomial.arguments_mapIndices]
  have hm : m.arguments = (d.withIndex j).arguments.map fun x => if x = j then d.left else x := by
    rw [← hmap, d.withIndex_left]
  -- the marker would be the left index in the first monomial
  have hne : ∀ x ∈ (d.withIndex j).arguments, x ≠ j := by
    rintro x hx rfl
    refine h (hm ▸ List.mem_map.mpr ⟨x, hx, ?_⟩)
    exact if_pos rfl
  rw [hmap, hm]
  apply List.map_congr_left
  intro x hx
  rw [if_neg (hne x hx), if_neg (hne x hx)]

theorem left_notMem_arguments (d : PairDifference m n) (h : m.FreeArguments) :
    d.left ∉ m.arguments := by
  intro hl
  have hcount := h _ hl
  rw [d.perm_indices.count_eq, List.count_cons_self, List.count_cons_self] at hcount
  omega

theorem arguments_eq (d : PairDifference m n) (h : m.FreeArguments) :
    m.arguments = n.arguments := by
  have hn := congrArg Monomial.arguments d.withIndex_right
  exact ((d.arguments_withIndex (d.left_notMem_arguments h) d.right).symm.trans hn.symm)

theorem freeArguments_joined (d : PairDifference m n) (h : m.FreeArguments) :
    d.joined.FreeArguments := by
  intro i hi
  rw [joined, d.arguments_withIndex (d.left_notMem_arguments h)] at hi
  have hrest := h i hi
  have hleft : i ≠ d.left := fun he => d.left_notMem_arguments h (he ▸ hi)
  have hindex : i ≠ d.index := by
    intro he
    obtain ⟨k, id, hid⟩ := d.exists_idOf?_index
    -- the merged index occurs at the two places of the difference only
    have hmem := d.perm_indices.subset (m.arguments_subset hi)
    rcases List.mem_cons.mp hmem with h' | hmem
    · exact hleft h'
    · rcases List.mem_cons.mp hmem with h' | hmem
      · exact hleft h'
      · exact d.index_notMem hid i hmem (he ▸ hid)
  rw [d.perm_indices.count_eq, List.count_cons_of_ne hleft.symm,
    List.count_cons_of_ne hleft.symm] at hrest
  rw [joined, (d.perm_withIndex d.index).count_eq, List.count_cons_of_ne hindex.symm,
    List.count_cons_of_ne hindex.symm]
  exact hrest

end PairDifference

theorem Monomial.kept_freeArguments [BEq K] :
    KeptByContraction (FreeArguments (K := K)) where
  rename _ _ hf h := h.rename hf
  joined _ _ d _ h _ := d.freeArguments_joined h

/-- Between monomials whose arguments are free, the test makes no difference. -/
theorem Monomial.FreeArguments.contractIfLikely_eq [BEq K] {m : Monomial K} (h : m.FreeArguments)
    (n : Monomial K) : m.contractIfLikely n = m.contract n := by
  rw [Monomial.contractIfLikely_eq]
  obtain ⟨hn, -⟩ | ⟨d, -⟩ := m.contract_eq n
  · rw [hn, ite_self]
  · rw [if_pos (d.arguments_eq h)]

/-! ### Forms -/

namespace Form

variable [BEq K]

/-- Renumbers the form and joins each pair of monomials once, as far as `join` does. -/
def sweep (join : Monomial K → Monomial K → Except (FormError K) (Option (Monomial K)))
    (f : Form K) : Except (FormError K) (Form K) := do
  return ⟨← contractPairwise join f.renumber.monomials⟩

theorem contractOnce_eq_sweep {f : Form K} (hf : ∀ m ∈ f.monomials, m.FreeArguments) :
    f.contractOnce = f.sweep Monomial.contract := by
  have h : contractPairwise Monomial.contractIfLikely f.renumber.monomials =
      contractPairwise Monomial.contract f.renumber.monomials := by
    refine contractPairwise_congr (fun m n hm _ => hm.contractIfLikely_eq n)
      (fun a b c ha _ hc => ?_) (Monomial.kept_freeArguments.form_renumber hf)
    obtain ⟨-, d, rfl⟩ := Monomial.contractIfLikely_eq_some hc
    exact d.freeArguments_joined ha
  rw [contractOnce, h, sweep]

/-- For forms whose arguments are free, sweeps without the test lead to the same result as sweeps
with it. -/
theorem runs_sweep_contract {f : Form K} (hf : ∀ m ∈ f.monomials, m.FreeArguments) :
    ∃ n ≤ f.size + 1,
      Runs (sweep Monomial.contract) (fun f g => g.size = f.size) f n f.contract := by
  obtain ⟨n, hn, hr⟩ := f.contract_runs
  exact ⟨n, hn, hr.congr (P := fun f => ∀ m ∈ f.monomials, m.FreeArguments)
    (fun _ hs => contractOnce_eq_sweep hs)
    (fun _ _ hs h => Monomial.kept_freeArguments.form_contractOnce h hs) hf⟩

/-- What the test keeps from being contracted.  A pair that contracts passes the test exactly if the
arguments of both monomials agree.  If all arguments of a form are free, then contraction without
the test has the result that it has with it. -/
theorem contraction_test_exact :
    (∀ m n q : Monomial K, m.contract n = .ok (some q) →
      (m.mayContract n = true ↔ m.arguments = n.arguments)) ∧
    ∀ f : Form K, (∀ m ∈ f.monomials, m.FreeArguments) →
      ∃ n, Runs (sweep Monomial.contract) (fun f g => g.size = f.size) f n f.contract := by
  refine ⟨fun m n q h => ?_, fun f hf => ?_⟩
  · obtain ⟨d, -⟩ := Monomial.contract_eq_some h
    exact Monomial.mayContract_iff d.constant_beq d.same
  · obtain ⟨n, -, hr⟩ := runs_sweep_contract hf
    exact ⟨n, hr⟩

/-- The two physical directions of the triangle are joined, with and without the test. -/
theorem contraction_test_exact_chainTerms :
    let m := chainTerm (0.5 : Float) .triangle 0
    let n := chainTerm (0.5 : Float) .triangle 1
    let q : Monomial Float := { m with
      transforms := m.transforms.map fun t =>
        { t with physical := .slot .secondary 2 [0, 1] } }
    let f := chainTerms (0.5 : Float) .triangle [0, 1]
    (m.contract n = .ok (some q) ∧ ∀ m ∈ f.monomials, m.FreeArguments) ∧
      (m.mayContract n = true ↔ m.arguments = n.arguments) ∧
      ∃ n, Runs (sweep Monomial.contract) (fun f g => g.size = f.size) f n f.contract := by
  intro m n q f
  have hq : m.contract n = .ok (some q) := by decide +kernel
  have hf : ∀ m ∈ f.monomials, m.FreeArguments := by decide +kernel
  exact ⟨⟨hq, hf⟩, contraction_test_exact.1 m n q hq, contraction_test_exact.2 f hf⟩

/-- An argument times basis function `k` with its coefficient in the expansion of a given
function. -/
def coefficientTerm (constant : K) (cell : Cell) (k : Index) : Monomial K :=
  let element : Element := .lagrange 0 { cell, degree := 1 }
  { constant
    basisFunctions := [BasisFunction.argument element 0, { element, index := k }]
    coefficients := [⟨0, 0, k⟩] }

/-- Two terms of an expansion differ in the argument of a basis function and in the coefficient.
They contract, but the test keeps them apart: without it there is one term in the end, with it the
two terms stay. -/
theorem coefficientTerms_kept_apart :
    let m := coefficientTerm (1 : Float) .triangle (.fixed 0)
    let n := coefficientTerm (1 : Float) .triangle (.fixed 1)
    let q := coefficientTerm (1 : Float) .triangle (.slot .secondary 0 [0, 1])
    (m.contract n = .ok (some q) ∧ m.mayContract n = false) ∧
      (∃ k, Runs (sweep Monomial.contract) (fun f g => g.size = f.size) ⟨[m, n]⟩ k (.ok ⟨[q]⟩)) ∧
      (⟨[m, n]⟩ : Form Float).contract = .ok ⟨[m, n]⟩ := by
  intro m n q
  refine ⟨⟨by decide +kernel, by decide +kernel⟩, ⟨2, ?_⟩, by decide +kernel⟩
  have h : (⟨[m, n]⟩ : Form Float).sweep Monomial.contract = .ok ⟨[q]⟩ := by decide +kernel
  have h' : (⟨[q]⟩ : Form Float).sweep Monomial.contract = .ok ⟨[q]⟩ := by decide +kernel
  exact .again h (by decide) (.done h' rfl)

end Form

end WeakForm
