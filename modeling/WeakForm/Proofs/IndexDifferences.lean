import Mathlib.Data.List.Forall2
import Mathlib.Data.List.Nodup
import Mathlib.Data.List.Sort
import WeakForm.Proofs.Contraction
import WeakForm.Proofs.Termination

/-!
# What tells two monomials apart

`Monomial.differences?` compares the constants of two monomials, then everything but the indices,
then the indices place by place.  Agreement in everything but constants and indices is stated here
field by field (`AgreeUpToIndices`); it holds exactly if one monomial is the other one with other
indices in the same places (`agreeUpToIndices_iff`).  The listed differences are all there are, in
order of their places (`AllDifferences`), and putting the right index of each in its place leads
from the first monomial to the second one (`replaceAll_zipDifferences`).
-/

namespace WeakForm

open Indexed

/-! ### Differences of index lists -/

theorem mem_zipDifferences {start : ℕ} {is js : List Index} {d : IndexDifference} :
    d ∈ zipDifferences start is js ↔ ∃ k, d.position = start + k ∧ is[k]? = some d.left ∧
      js[k]? = some d.right ∧ d.left ≠ d.right := by
  obtain ⟨position, left, right⟩ := d
  induction is generalizing start js with
  | nil => simp [zipDifferences]
  | cons i is ih =>
    cases js with
    | nil => simp [zipDifferences]
    | cons j js =>
      rw [zipDifferences_cons, List.mem_append, ih]
      constructor
      · rintro (hhead | ⟨k, hp, hl, hr, hne⟩)
        · by_cases hij : i = j
          · simp [hij] at hhead
          · simp only [hij, if_false, List.mem_singleton, IndexDifference.mk.injEq] at hhead
            obtain ⟨rfl, rfl, rfl⟩ := hhead
            exact ⟨0, rfl, rfl, rfl, hij⟩
        · exact ⟨k + 1, by omega, hl, hr, hne⟩
      · rintro ⟨k, hp, hl, hr, hne⟩
        cases k with
        | zero =>
          obtain rfl : i = left := Option.some.inj hl
          obtain rfl : j = right := Option.some.inj hr
          left
          rw [if_neg hne, List.mem_singleton, IndexDifference.mk.injEq]
          exact ⟨hp, rfl, rfl⟩
        | succ k => exact .inr ⟨k, by omega, hl, hr, hne⟩

/-- Differences are listed in order of their places. -/
theorem pairwise_zipDifferences (start : ℕ) (is js : List Index) :
    (zipDifferences start is js).Pairwise fun d e => d.position < e.position := by
  induction is generalizing start js with
  | nil => exact .nil
  | cons i is ih =>
    cases js with
    | nil => exact .nil
    | cons j js =>
      rw [zipDifferences_cons, List.pairwise_append]
      refine ⟨?_, ih (start + 1) js, fun d hd e he => ?_⟩
      · split
        · exact .nil
        · exact List.pairwise_singleton _ _
      · have hstart : d.position = start := by
          split at hd
          · cases hd
          · rw [List.mem_singleton.mp hd]
        obtain ⟨k, hk, -⟩ := mem_zipDifferences.mp he
        omega

/-- Puts the right index of each difference in its place. -/
def replaceAll (is : List Index) (ds : List IndexDifference) : List Index :=
  ds.foldl (fun is d => is.set d.position d.right) is

/-- Replacing the differences of two lists leads from the first one to the second one. -/
theorem replaceAll_zipDifferences {is js : List Index} (h : js.length = is.length) :
    replaceAll is (zipDifferences 0 is js) = js := by
  -- the places before those that are left to compare agree already
  suffices hrest : ∀ before, replaceAll (before ++ is) (zipDifferences before.length is js) =
      before ++ js from hrest []
  induction is generalizing js with
  | nil =>
    obtain rfl := List.length_eq_zero_iff.mp h
    exact fun before => rfl
  | cons i is ih =>
    cases js with
    | nil => cases h
    | cons j js =>
      intro before
      have htail := ih (by simpa using h) (before ++ [j])
      rw [List.append_assoc, List.append_assoc, List.length_append, List.length_singleton] at htail
      rw [zipDifferences_cons, ← List.singleton_append (l := js), ← htail, List.singleton_append]
      by_cases hij : i = j
      · simp [hij]
      · have hset : (before ++ i :: is).set before.length j = before ++ j :: is := by
          rw [List.set_append_right _ _ le_rfl, Nat.sub_self, List.set_cons_zero]
        rw [if_neg hij, List.singleton_append, replaceAll, List.foldl_cons, hset]
        rfl

/-! ### Agreement field by field -/

theorem map_eq_map_iff_forall₂ {α β : Type} {f : α → β} {l l' : List α} :
    l.map f = l'.map f ↔ List.Forall₂ (fun a b => f a = f b) l l' := by
  rw [← List.forall₂_eq_eq_eq, List.forall₂_map_left_iff, List.forall₂_map_right_iff]

/-- Agreement of basis functions in everything but their indices. -/
structure BasisFunction.AgreeUpToIndices (v w : BasisFunction) : Prop where
  element : v.element = w.element
  restriction : v.restriction = w.restriction
  components : v.components.length = w.components.length
  derivatives : List.Forall₂ (fun d e => d.element = e.element) v.derivatives w.derivatives

theorem BasisFunction.agreeUpToIndices_iff {v w : BasisFunction} :
    v.AgreeUpToIndices w ↔
      mapIndices (fun _ => .fixed 0) v = mapIndices (fun _ => .fixed 0) w := by
  simp only [mapIndices_basisFunction, BasisFunction.mk.injEq, List.map_const',
    List.replicate_left_inj, map_eq_map_iff_forall₂, Derivative.mk.injEq, true_and, and_true]
  constructor
  · intro h
    exact ⟨h.element, h.components, h.restriction, h.derivatives⟩
  · rintro ⟨helement, hcomponents, hrestriction, hderivatives⟩
    exact ⟨helement, hrestriction, hcomponents, hderivatives⟩

namespace Monomial

variable {K : Type}

/-- Agreement of monomials in everything but their constants and indices. -/
structure AgreeUpToIndices (m n : Monomial K) : Prop where
  integral : m.integral = n.integral
  determinants : m.determinants = n.determinants
  basisFunctions :
    List.Forall₂ BasisFunction.AgreeUpToIndices m.basisFunctions n.basisFunctions
  transforms :
    List.Forall₂ (fun s t => s.kind = t.kind ∧ s.restriction = t.restriction)
      m.transforms n.transforms
  coefficients :
    List.Forall₂ (fun c d => c.function = d.function ∧ c.projection = d.projection)
      m.coefficients n.coefficients

theorem sameStructure_iff_agreeUpToIndices {m n : Monomial K} :
    m.sameStructure n = true ↔ m.AgreeUpToIndices n := by
  simp only [sameStructure, eqIgnoringConstant, Product.sameFactors, skeleton, mapIndices_eq,
    Bool.and_eq_true, beq_iff_eq, map_eq_map_iff_forall₂, ← BasisFunction.agreeUpToIndices_iff,
    mapIndices_transform, Transform.mk.injEq, mapIndices_coefficient, Coefficient.mk.injEq,
    true_and, and_true]
  constructor
  · rintro ⟨hintegral, ⟨⟨hfunctions, htransforms⟩, hcoefficients⟩, hdeterminants⟩
    exact ⟨hintegral, hdeterminants, hfunctions, htransforms, hcoefficients⟩
  · intro h
    exact ⟨h.integral, ⟨⟨h.basisFunctions, h.transforms⟩, h.coefficients⟩, h.determinants⟩

/-- All indices, field by field. -/
theorem indices_eq_fields (m : Monomial K) :
    m.indices =
      m.basisFunctions.flatMap (fun v => v.index :: (v.components ++ v.derivatives.map (·.index))) ++
        (m.transforms.flatMap (fun t => [t.reference, t.physical]) ++
          m.coefficients.map (·.index)) := by
  have hfunctions : Indexed.indices m.basisFunctions =
      m.basisFunctions.flatMap fun v => v.index :: (v.components ++ v.derivatives.map (·.index)) :=
    List.flatMap_congr fun v _ => indices_basisFunction v
  have hcoefficients : Indexed.indices m.coefficients = m.coefficients.map (·.index) :=
    List.map_eq_flatMap.symm
  rw [indices_eq, hfunctions, hcoefficients]
  rfl

/-- Monomials agree up to constants and indices exactly if one is the other one with other indices
in the same places and another constant. -/
theorem agreeUpToIndices_iff {m n : Monomial K} :
    m.AgreeUpToIndices n ↔ ∃ is : List Index, is.length = m.indices.length ∧
      n = { refill m is with constant := n.constant } := by
  rw [← sameStructure_iff_agreeUpToIndices, sameStructure_iff]
  constructor
  · rintro ⟨hlen, h⟩
    exact ⟨n.indices, hlen, h⟩
  · rintro ⟨is, hlen, h⟩
    have his : n.indices = is := by
      rw [h]
      exact indices_refill m hlen
    rw [his]
    exact ⟨hlen, h⟩

/-- Monomials of the same structure differ in their indices only. -/
theorem eqIgnoringConstant_iff_indices {m n : Monomial K} :
    m.eqIgnoringConstant n = true ↔ m.sameStructure n = true ∧ m.indices = n.indices := by
  rw [eqIgnoringConstant_iff, sameStructure_iff]
  constructor
  · intro h
    have hindices : n.indices = m.indices := by
      rw [h]
      rfl
    refine ⟨⟨congrArg List.length hindices, ?_⟩, hindices.symm⟩
    rw [hindices]
    exact h.trans (congrArg (fun m => { m with constant := n.constant })
      (Indexed.refill_indices m).symm)
  · rintro ⟨⟨-, h⟩, hindices⟩
    rw [← hindices] at h
    exact h.trans (congrArg (fun m => { m with constant := n.constant })
      (Indexed.refill_indices m))

/-! ### Differences of monomials -/

/-- The first monomial with the right index of each difference in its place. -/
def replaced (m : Monomial K) (ds : List IndexDifference) : Monomial K :=
  refill m (replaceAll m.indices ds)

/-- The differences of two monomials that agree up to their indices: all places at which they have
different indices, in increasing order, with the index of each monomial. -/
structure AllDifferences (m n : Monomial K) (ds : List IndexDifference) : Prop where
  agree : m.AgreeUpToIndices n
  ascending : ds.Pairwise fun d e => d.position < e.position
  mem_iff : ∀ d, d ∈ ds ↔ m.indices[d.position]? = some d.left ∧
    n.indices[d.position]? = some d.right ∧ d.left ≠ d.right

/-- There is one list of all differences only. -/
theorem AllDifferences.unique {m n : Monomial K} {ds es : List IndexDifference}
    (hd : AllDifferences m n ds) (he : AllDifferences m n es) : ds = es := by
  have hnodup : ∀ {ds}, AllDifferences m n ds → ds.Nodup := fun h =>
    h.ascending.imp fun {_ _} hlt heq => (heq ▸ hlt).ne rfl
  have hperm : ds.Perm es := (List.perm_ext_iff_of_nodup (hnodup hd) (hnodup he)).mpr fun d =>
    (hd.mem_iff d).trans (he.mem_iff d).symm
  refine hperm.eq_of_pairwise (fun d e _ _ hlt hgt => ?_) hd.ascending he.ascending
  omega

theorem allDifferences_zipDifferences {m n : Monomial K} (h : m.sameStructure n = true) :
    AllDifferences m n (zipDifferences 0 m.indices n.indices) where
  agree := sameStructure_iff_agreeUpToIndices.mp h
  ascending := pairwise_zipDifferences 0 _ _
  mem_iff d := by
    rw [mem_zipDifferences]
    constructor
    · rintro ⟨k, hp, hrest⟩
      rw [Nat.zero_add] at hp
      rwa [hp]
    · exact fun hrest => ⟨d.position, (Nat.zero_add _).symm, hrest⟩

variable [BEq K] {m n : Monomial K}

/-- Exactly the list of all differences is returned, if the constants are equal. -/
theorem differences?_iff_allDifferences {ds : List IndexDifference} :
    m.differences? n = some ds ↔ (m.constant == n.constant) = true ∧ AllDifferences m n ds := by
  rw [differences?_eq_some_iff]
  refine and_congr_right fun _ => ?_
  constructor
  · rintro ⟨hs, rfl⟩
    exact allDifferences_zipDifferences hs
  · intro hd
    have hs := sameStructure_iff_agreeUpToIndices.mpr hd.agree
    exact ⟨hs, (allDifferences_zipDifferences hs).unique hd⟩

/-- Replacing all differences leads from the first monomial to the second one. -/
theorem eq_replaced {ds : List IndexDifference} (h : m.differences? n = some ds) :
    n = { m.replaced ds with constant := n.constant } := by
  obtain ⟨-, hs, rfl⟩ := differences?_eq_some_iff.mp h
  obtain ⟨hlen, hn⟩ := sameStructure_iff.mp hs
  rw [replaced, replaceAll_zipDifferences hlen]
  exact hn

theorem differences?_eq_nil_iff : m.differences? n = some [] ↔ (m == n) = true := by
  have hbeq : (m == n) = (m.constant == n.constant && m.eqIgnoringConstant n) := rfl
  rw [hbeq, Bool.and_eq_true, eqIgnoringConstant_iff_indices, differences?_eq_some_iff]
  refine and_congr_right fun _ => and_congr_right fun hs => ?_
  constructor
  · exact eq_of_zipDifferences_eq_nil (sameStructure_iff.mp hs).1
  · intro hindices
    rw [hindices, zipDifferences_self]

theorem exists_differences?_iff : (∃ ds, m.differences? n = some ds) ↔
    (m.constant == n.constant) = true ∧ m.sameStructure n = true := by
  simp only [differences?_eq_some_iff, exists_and_left, exists_eq', and_true]

/-- A complete account of how two monomials differ.  Structures are compared field by field.  There
are differences to list exactly if the constants are equal and one monomial is the other one with
other indices in the same places.  The list is that of all differences, in order of their places,
and no other; replacing them leads from the first monomial to the second one; there are none exactly
if the monomials are equal.  Without the constants, monomials are equal exactly if they agree in
structure and, place by place, in their indices. -/
theorem differences?_complete (m n : Monomial K) :
    (m.indices =
      m.basisFunctions.flatMap (fun v => v.index :: (v.components ++ v.derivatives.map (·.index))) ++
        (m.transforms.flatMap (fun t => [t.reference, t.physical]) ++
          m.coefficients.map (·.index))) ∧
    (m.sameStructure n = true ↔ m.AgreeUpToIndices n) ∧
    ((∃ ds, m.differences? n = some ds) ↔ (m.constant == n.constant) = true ∧
      ∃ is : List Index, is.length = m.indices.length ∧
        n = { refill m is with constant := n.constant }) ∧
    (∀ ds, m.differences? n = some ds ↔
      (m.constant == n.constant) = true ∧ AllDifferences m n ds) ∧
    (∀ ds, m.differences? n = some ds →
      n = { m.replaced ds with constant := n.constant } ∧ (m.replaced ds == n) = true) ∧
    (m.differences? n = some [] ↔ (m == n) = true) ∧
    (m.eqIgnoringConstant n = true ↔ m.sameStructure n = true ∧
      ∀ (p : ℕ) (i j : Index), m.indices[p]? = some i → n.indices[p]? = some j → i = j) := by
  refine ⟨indices_eq_fields m, sameStructure_iff_agreeUpToIndices, ?_,
    fun ds => differences?_iff_allDifferences, fun ds h => ?_, differences?_eq_nil_iff, ?_⟩
  · rw [exists_differences?_iff, sameStructure_iff_agreeUpToIndices, agreeUpToIndices_iff]
  · have hn := eq_replaced h
    have hc : ((m.replaced ds).constant == n.constant) = true := (differences?_eq_some_iff.mp h).1
    have hbeq : (m.replaced ds == n) =
      ((m.replaced ds).constant == n.constant && (m.replaced ds).eqIgnoringConstant n) := rfl
    rw [hbeq, hc, Bool.true_and]
    exact ⟨hn, eqIgnoringConstant_iff.mpr hn⟩
  · rw [eqIgnoringConstant_iff_indices]
    refine and_congr_right fun hs => ?_
    constructor
    · intro hindices p i j hi hj
      rw [hindices, hj] at hi
      exact (Option.some.inj hi).symm
    · intro h
      have hlen := (sameStructure_iff.mp hs).1
      exact List.ext_getElem hlen.symm fun p hp hp' =>
        h p _ _ (List.getElem?_eq_getElem hp) (List.getElem?_eq_getElem hp')

/-- Terms of a chain differ in the physical direction, at the second index of each transform. -/
theorem differences?_complete_chainTerms :
    let m := Form.chainTerm (0.5 : Float) .triangle 0
    let n := Form.chainTerm (0.5 : Float) .triangle 1
    let ds : List IndexDifference := [⟨5, .fixed 0, .fixed 1⟩, ⟨7, .fixed 0, .fixed 1⟩]
    m.differences? n = some ds ∧ AllDifferences m n ds ∧ (m.replaced ds == n) = true ∧
      (m == n) = false := by
  intro m n ds
  have hds : m.differences? n = some ds := by decide +kernel
  obtain ⟨-, -, -, hall, hreplaced, hnil, -⟩ := differences?_complete m n
  refine ⟨hds, ((hall ds).mp hds).2, (hreplaced ds hds).2, ?_⟩
  rw [Bool.eq_false_iff]
  intro heq
  rw [hnil.mpr heq] at hds
  exact List.cons_ne_nil _ _ (Option.some.inj hds).symm

end Monomial

end WeakForm
