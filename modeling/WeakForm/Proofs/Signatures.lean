import Mathlib.Data.List.Perm.Basic
import WeakForm.Proofs.IndexMaps
import WeakForm.Signature

/-!
# What signatures tell

The order by which the basis functions of a signature are sorted is a linear order, so sorting them
forgets nothing but their order: signatures agree exactly if the measures do and the lists of what
is seen of the basis functions are permutations of each other (`Monomial.signature_eq_iff`).

What the soft signature sees of an index is determined by what the hard one sees, so monomials with
equal hard signatures have equal soft signatures (`Monomial.softSignature_eq`).

Of an element a signature sees the identifier only.  For handles from one registry this is enough:
the hard signature tells the basis functions up to their order (`Monomial.basisFunctions_perm`).
-/

namespace WeakForm

open Indexed

/-! ### Orders -/

instance : Std.TransOrd IndexSignature :=
  inferInstanceAs (Std.TransCmp (compareLex _ _))

instance : Std.TransOrd BasisFunctionSignature :=
  inferInstanceAs (Std.TransCmp (compareLex _ _))

theorem eq_of_compareOn {α β : Type} [Ord β] [Std.LawfulEqOrd β] {f : α → β} {a b : α}
    (h : compareOn f a b = .eq) : f a = f b :=
  Std.LawfulEqOrd.eq_of_compare h

/-- An index is determined by its rank, its identifier or value, and its range. -/
theorem Index.eq_of_rank {i j : Index} (hr : i.rank = j.rank) (hv : i.value = j.value)
    (h : i.range = j.range) : i = j := by
  have hlt : ∀ k : SlotKind, k.rank ≠ 3 := by
    intro k
    cases k <;> decide
  cases i with
  | slot k id r =>
    cases j with
    | slot l id' r' =>
      obtain rfl := SlotKind.rank_injective hr
      obtain rfl : id = id' := hv
      obtain rfl : r = r' := h
      rfl
    | fixed v => exact absurd hr (hlt k)
  | fixed v =>
    cases j with
    | slot l id' r' => exact absurd hr.symm (hlt l)
    | fixed w =>
      obtain rfl : v = w := hv
      rfl

instance : Std.LawfulEqOrd IndexSignature where
  eq_of_compare {s t} h := by
    obtain ⟨hr, h⟩ := compareLex_eq_eq.mp h
    obtain ⟨hv, h⟩ := compareLex_eq_eq.mp h
    have hr := eq_of_compareOn hr
    have hv := eq_of_compareOn hv
    have h := eq_of_compareOn h
    cases s with
    | exact i =>
      cases t with
      | exact j => exact congrArg _ (Index.eq_of_rank hr (Option.some.inj hv) h)
      | anonymous r => cases hv
    | anonymous r =>
      cases t with
      | exact j => cases hv
      | anonymous r' => exact congrArg _ h

instance : Std.LawfulEqOrd BasisFunctionSignature where
  eq_of_compare {s t} h := by
    obtain ⟨e, r, i, c, d⟩ := s
    obtain ⟨e', r', i', c', d'⟩ := t
    obtain ⟨he, h⟩ := compareLex_eq_eq.mp h
    obtain ⟨hr, h⟩ := compareLex_eq_eq.mp h
    obtain ⟨hi, h⟩ := compareLex_eq_eq.mp h
    obtain ⟨hc, hd⟩ := compareLex_eq_eq.mp h
    obtain rfl : e = e' := eq_of_compareOn he
    obtain rfl : r = r' := Restriction.rank_injective (eq_of_compareOn hr)
    obtain rfl : i = i' := eq_of_compareOn hi
    obtain rfl : c = c' := eq_of_compareOn hc
    obtain rfl : d = d' := eq_of_compareOn hd
    rfl

/-- Sorting by a linear order forgets the order of a list and nothing else. -/
theorem mergeSort_eq_iff_perm {α : Type} [Ord α] [Std.TransOrd α] [Std.LawfulEqOrd α]
    {l l' : List α} :
    (l.mergeSort fun a b => (compare a b).isLE) = (l'.mergeSort fun a b => (compare a b).isLE) ↔
      l.Perm l' := by
  have hsorted : ∀ l : List α, (l.mergeSort fun a b => (compare a b).isLE).Pairwise
      fun a b => (compare a b).isLE = true := by
    refine List.pairwise_mergeSort (fun a b c => Std.TransCmp.isLE_trans) fun a b => ?_
    have hswap : compare b a = (compare a b).swap := Std.OrientedCmp.eq_swap
    rw [hswap]
    cases compare a b <;> rfl
  constructor
  · intro h
    have hl := List.mergeSort_perm l fun a b => (compare a b).isLE
    rw [h] at hl
    exact hl.symm.trans (List.mergeSort_perm l' _)
  · intro h
    refine List.Perm.eq_of_pairwise (fun a b _ _ hab hba => ?_) (hsorted l) (hsorted l')
      (((List.mergeSort_perm l _).trans h).trans (List.mergeSort_perm l' _).symm)
    exact Std.LawfulEqCmp.eq_of_compare (Std.OrientedCmp.isLE_antisymm hab hba)

/-- Lists whose images are permutations of each other are so themselves, if the map tells their
elements apart. -/
theorem perm_of_map_perm {α β : Type} {f : α → β} {l l' : List α} (h : (l.map f).Perm (l'.map f))
    (hf : ∀ x ∈ l, ∀ y ∈ l', f x = f y → x = y) : l.Perm l' := by
  obtain ⟨ws, hws, hperm⟩ : Relation.Comp (· = List.map f ·) List.Perm (l.map f) l' := by
    rw [List.eq_map_comp_perm]
    exact h
  have hlen : l.length = ws.length := by rw [← List.length_map f, hws, List.length_map]
  have heq : l = ws := by
    refine List.ext_getElem hlen fun n hn hn' => ?_
    refine hf _ (List.getElem_mem hn) _ (hperm.subset (List.getElem_mem hn')) ?_
    rw [← List.getElem_map f, ← List.getElem_map f]
    · simp only [hws]
    · rwa [List.length_map]
    · rwa [List.length_map]
  rw [heq]
  exact hperm

/-! ### Basis functions -/

namespace BasisFunctionSignature

/-- What a signature sees of a basis function: the identifier of the element, the restriction, the
number of components and the indices in order. -/
theorem ofBasisFunction_eq_iff {view : Index → IndexSignature} {v w : BasisFunction} :
    ofBasisFunction view v = ofBasisFunction view w ↔ v.element.id = w.element.id ∧
      v.restriction = w.restriction ∧ v.components.length = w.components.length ∧
        (indices v).map view = (indices w).map view := by
  simp only [ofBasisFunction, mk.injEq, indices_basisFunction, List.map_cons, List.map_append,
    List.map_map, List.cons.injEq]
  constructor
  · rintro ⟨he, hr, hi, hc, hd⟩
    have hl := congrArg List.length hc
    rw [List.length_map, List.length_map] at hl
    exact ⟨he, hr, hl, hi, by rw [hc]; exact congrArg _ hd⟩
  · rintro ⟨he, hr, hl, hi, h⟩
    obtain ⟨hc, hd⟩ := List.append_inj h (by rw [List.length_map, List.length_map, hl])
    exact ⟨he, hr, hi, hc, hd⟩

/-- If the identifier decides which element it is, and derivatives belong to the elements of their
basis functions, the exact signature tells everything. -/
theorem eq_of_exact {v w : BasisFunction}
    (hid : v.element.id = w.element.id → v.element = w.element)
    (hv : ∀ d ∈ v.derivatives, d.element = v.element)
    (hw : ∀ d ∈ w.derivatives, d.element = w.element)
    (h : ofBasisFunction .exact v = ofBasisFunction .exact w) : v = w := by
  have hexact : ∀ i j : Index, IndexSignature.exact i = .exact j → i = j := fun i j =>
    IndexSignature.exact.inj
  have hds : ∀ ds : List Derivative, (∀ d ∈ ds, d.element = v.element) →
      ds = (ds.map (·.index)).map fun i => ⟨v.element, i⟩ := by
    intro ds hds
    rw [List.map_map]
    refine ((List.map_congr_left fun d hd => ?_).trans (List.map_id ds)).symm
    rw [Function.comp_apply, ← hds d hd, id]
  obtain ⟨e, i, c, r, d⟩ := v
  obtain ⟨e', i', c', r', d'⟩ := w
  simp only [ofBasisFunction, mk.injEq] at h
  obtain ⟨he, rfl, hi, hc, hd⟩ := h
  obtain rfl := hid he
  obtain rfl := hexact _ _ hi
  obtain rfl := (List.map_inj_right hexact).mp hc
  have hd : d.map (·.index) = d'.map (·.index) := by
    rw [← List.map_inj_right hexact, List.map_map, List.map_map]
    exact hd
  rw [hds d hv, hds d' hw, hd]

/-- Forgets the identifiers of secondary slots. -/
def soften (s : BasisFunctionSignature) : BasisFunctionSignature :=
  let forget : IndexSignature → IndexSignature
    | .exact i => .soft i
    | .anonymous r => .anonymous r
  { s with
    index := forget s.index
    components := s.components.map forget
    derivatives := s.derivatives.map forget }

theorem soften_exact (v : BasisFunction) :
    (ofBasisFunction .exact v).soften = ofBasisFunction .soft v := by
  simp only [soften, ofBasisFunction, List.map_map]
  rfl

end BasisFunctionSignature

/-! ### Monomials -/

namespace Monomial

variable {K : Type} {p q : Monomial K}

theorem signature_eq_iff {view : Index → IndexSignature} :
    p.signature view = q.signature view ↔ p.integral = q.integral ∧
      (p.basisFunctions.map (BasisFunctionSignature.ofBasisFunction view)).Perm
        (q.basisFunctions.map (BasisFunctionSignature.ofBasisFunction view)) := by
  rw [signature, signature, MonomialSignature.mk.injEq, mergeSort_eq_iff_perm]

/-- The hard signature is finer than the soft one. -/
theorem softSignature_eq (h : p.hardSignature = q.hardSignature) :
    p.softSignature = q.softSignature := by
  obtain ⟨hi, hperm⟩ := signature_eq_iff.mp h
  refine signature_eq_iff.mpr ⟨hi, ?_⟩
  have hsoften : BasisFunctionSignature.soften ∘ BasisFunctionSignature.ofBasisFunction .exact =
      BasisFunctionSignature.ofBasisFunction .soft := funext BasisFunctionSignature.soften_exact
  have hperm := hperm.map BasisFunctionSignature.soften
  rwa [List.map_map, List.map_map, hsoften] at hperm

/-- If all handles are from one registry, and derivatives belong to the elements of their basis
functions, the hard signature tells the basis functions up to their order. -/
theorem basisFunctions_perm (h : p.hardSignature = q.hardSignature)
    (hone : Element.OneRegistry ((p.basisFunctions ++ q.basisFunctions).map (·.element)))
    (hp : ∀ v ∈ p.basisFunctions, ∀ d ∈ v.derivatives, d.element = v.element)
    (hq : ∀ v ∈ q.basisFunctions, ∀ d ∈ v.derivatives, d.element = v.element) :
    p.basisFunctions.Perm q.basisFunctions :=
  perm_of_map_perm (signature_eq_iff.mp h).2 fun v hv w hw =>
    BasisFunctionSignature.eq_of_exact
      (hone _ (List.mem_map_of_mem (List.mem_append_left _ hv)) _
        (List.mem_map_of_mem (List.mem_append_right _ hw)))
      (hp v hv) (hq w hw)

end Monomial

end WeakForm
