import WeakForm.Proofs.Acceptance
import WeakForm.Proofs.AuxiliaryMarking
import WeakForm.Proofs.ContractionValue
import WeakForm.Proofs.GeometryTensors
import WeakForm.Proofs.NodalBases
import WeakForm.Proofs.NumberedAxes
import WeakForm.Proofs.SharedTensors
import WeakForm.Proofs.TensorEntries

/-!
# The tensor representation

The value of a monomial on a domain, by quadrature, is its constant times the sum over the values of
its summed slots of the integral of the basis functions times the transforms and coefficients
(`Monomial.quadratureSum`).  Contracting a reference tensor with the geometry tensor of a monomial
whose basis functions are those of the tensor gives this value, up to the constant
(`ReferenceTensor.contraction_eq`).

After marking and reordering, the tensor of the representative serves for all monomials that share
it, provided that the handles of elements come from one registry
(`Form.quadratureSum_eq_contraction`).
-/

namespace WeakForm

open Indexed

/-- The conditions under which a monomial is the contraction of a reference tensor: primary slots
are arguments, auxiliary slots are inside the tensor, each slot has one range, which does not repeat
values, and derivatives belong to the elements of their basis functions. -/
structure Monomial.Representable {K : Type} (m : Monomial K) : Prop where
  primaryArguments : m.PrimaryArguments
  auxiliary_inside : ∀ i ∈ Indexed.indices m.transforms ++ Indexed.indices m.coefficients,
    i.isKind .auxiliary = false
  /-- As in all balanced monomials. -/
  ranges_agree : RangesAgree m.indices
  nodup_range : ∀ i ∈ m.indices, i.range.Nodup
  element_eq : ∀ v ∈ m.basisFunctions, ∀ d ∈ v.derivatives, d.element = v.element
  /-- As for all lists in memory. -/
  length_lt : m.indices.length < wordSize

/-- All monomials are representable, and each of them contains each primary slot of the form
once. -/
structure Form.Representable {K : Type} (f : Form K) : Prop where
  monomial : ∀ m ∈ f.monomials, m.Representable
  primary_once : ∀ m ∈ f.monomials, ∀ id ∈ f.ids .primary, (m.ids .primary).count id = 1

/-- The handles of the elements of all basis functions. -/
def Form.elements {K : Type} (f : Form K) : List Element :=
  f.monomials.flatMap fun m => m.basisFunctions.map (·.element)

section Values

variable {K : Type} [Field K] [Numerics K] [LE K] [DecidableLE K] [Tabulation K]

/-- The value of a monomial on a domain, by quadrature, for given values of the primary slots. -/
def Monomial.quadratureSum (settings : CompilerSettings) (domain : QuadratureDomain)
    (γ : Geometry K) (m : Monomial K) (x : ℕ → ℕ) : K :=
  m.constant * sumIndices m.indices
    (fun a => quadratureValue settings domain m.basisFunctions a * γ.factors m a) (primaryValues x)

end Values

/-- The contraction of a reference tensor with the geometry tensor of a monomial. -/
def ReferenceTensor.contraction {K : Type} [Field K] [Enumeration] (t : ReferenceTensor K)
    (γ : Geometry K) (m : Monomial K) (iv : List ℕ) : K :=
  (t.a.positions.map fun av => (t.get? iv av).getD 0 * γ.geometryTensor m av).sum

/-! ### One monomial -/

section Contraction

variable {K : Type} [Field K] [Numerics K] [LE K] [DecidableLE K] [Tabulation K]
variable {settings : CompilerSettings} {domain : QuadratureDomain} {p q : Monomial K}
variable {t : ReferenceTensor K} {x : ℕ → ℕ}

/-- The assignment of values to the primary slots, then to the secondary and to the auxiliary ones
of the axes. -/
theorem assign_axes (x : ℕ → ℕ) (av bv : List ℕ) (s : Slot) :
    assign (assign (primaryValues x) (firstSlots .secondary av.length) av)
      (firstSlots .auxiliary bv.length) bv s =
      match s.kind with
      | .primary => x s.id
      | .secondary => av.getD s.id 0
      | .auxiliary => bv.getD s.id 0 := by
  have hdefault : ∀ (l : List ℕ) (id : ℕ), ¬ id < l.length → l.getD id 0 = 0 := fun l id h =>
    List.getD_eq_default _ _ (Nat.le_of_not_lt h)
  obtain ⟨k, id⟩ := s
  rw [assign_firstSlots, assign_firstSlots]
  cases k with
  | primary => simp [primaryValues]
  | secondary =>
    by_cases h : id < av.length
    · simp [h]
    · simp [h, primaryValues]
  | auxiliary =>
    by_cases h : id < bv.length
    · simp [h]
    · simp [h, primaryValues]

/-- The sum over the outer slots: the integral is a factor, and what is left is the geometry
tensor. -/
theorem sumOver_outerSlots (γ : Geometry K) (hq : q.Representable) {av : List ℕ} {a : Slot → ℕ}
    (ha : ∀ id, a ⟨.secondary, id⟩ = av.getD id 0) :
    sumOver (slotValues q.indices) q.outerSlots
      (fun b => quadratureValue settings domain q.basisFunctions b * γ.factors q b) a =
        quadratureValue settings domain q.basisFunctions a * γ.geometryTensor q av := by
  rw [sumOver_mul_left]
  · congr 1
    refine sumOver_congr (fun s _ => rfl) fun c d hcd hab => γ.factors_congr fun i hi => ?_
    cases i with
    | fixed v => rfl
    | slot k id r =>
      cases k with
      | primary =>
        have := hq.primaryArguments _ (List.mem_append_right _ hi)
        cases this
      | auxiliary =>
        have := hq.auxiliary_inside _ hi
        cases this
      | secondary =>
        change c ⟨.secondary, id⟩ = d ⟨.secondary, id⟩
        by_cases hs : (⟨.secondary, id⟩ : Slot) ∈ q.outerSlots
        · exact hcd _ hs
        · rw [(hab _ hs).1, (hab _ hs).2, ha, if_pos rfl]
  · intro b hb
    refine quadratureValue_congr fun i hi => ?_
    cases i with
    | fixed v => rfl
    | slot k id r =>
      exact hb ⟨k, id⟩ fun hs => (Monomial.mem_outerSlots.mp hs).2 _ hi rfl

variable [Enumeration]

/-- Where the slots of the basis functions have the values of the axes, so has the integral. -/
theorem quadratureValue_axes (hfits : p.FitsAxes)
    (ht : Form.referenceTensor settings p domain = .ok t)
    (hperm : q.basisFunctions.Perm p.basisFunctions) (x : ℕ → ℕ) (av bv : List ℕ) :
    quadratureValue (K := K) settings domain q.basisFunctions
      (assign (assign (primaryValues x) (firstSlots .secondary av.length) av)
        (firstSlots .auxiliary bv.length) bv) =
      quadratureValue settings domain q.basisFunctions
        (IndexValues.assignment ⟨(List.range t.i.indices.length).map x, av, bv⟩) := by
  have hi := (axes_of_referenceTensor hfits ht).1.of_perm hperm
  refine quadratureValue_congr fun i hmem => ?_
  cases i with
  | fixed v => rfl
  | slot k id r =>
    change assign _ _ _ ⟨k, id⟩ = _
    rw [assign_axes]
    cases k with
    | primary =>
      have hlen : id < ((List.range t.i.indices.length).map x).length := by
        rw [List.length_map, List.length_range]
        exact hi.lt_of_mem hmem
      change x id = ((List.range t.i.indices.length).map x).getD id 0
      rw [List.getD_eq_getElem _ _ hlen, List.getElem_map, List.getElem_range]
    | secondary | auxiliary => rfl

/-- The entries vanish outside the ranges of the axes, so the contraction is a sum over values. -/
theorem ReferenceTensor.contraction_eq_sum (γ : Geometry K) (hfits : p.FitsAxes)
    (ht : Form.referenceTensor settings p domain = .ok t)
    (hperm : q.basisFunctions.Perm p.basisFunctions) (hq : q.Representable) {iv : List ℕ}
    (hiv : iv ∈ t.i.values) : t.contraction γ q iv = p.constant * (t.a.values.map fun av =>
      (t.b.values.map fun bv => quadratureValue settings domain q.basisFunctions
        (IndexValues.assignment ⟨iv, av, bv⟩)).sum * γ.geometryTensor q av).sum := by
  have hs := (axes_of_referenceTensor hfits ht).2.1.of_perm hperm
  have hentries : t.contraction γ q iv = (t.a.positions.map fun av =>
      if t.a.contains av = true then p.constant * (t.b.values.map fun bv =>
        quadratureValue settings domain q.basisFunctions
          (IndexValues.assignment ⟨iv, av, bv⟩)).sum * γ.geometryTensor q av
      else 0).sum := by
    refine congrArg List.sum (List.map_congr_left fun av hav => ?_)
    rw [(get?_referenceTensor hfits ht hperm hiv hav).1, Option.getD_some, ite_mul, zero_mul]
  have hvalues := MultiIndex.filter_contains_perm hs.lt fun i hmem =>
    hq.nodup_range i (List.mem_append_left _ (hs.mem i hmem))
  rw [hentries, List.sum_map_ite, List.sum_map_zero, add_zero]
  simp only [Bool.decide_eq_true, mul_assoc, List.sum_map_mul_left]
  rw [(hvalues.map _).sum_eq]

/-- A reference tensor contracted with the geometry tensor of a monomial that has its basis
functions. -/
theorem ReferenceTensor.contraction_eq (γ : Geometry K) (hfits : p.FitsAxes)
    (ht : Form.referenceTensor settings p domain = .ok t)
    (hperm : q.basisFunctions.Perm p.basisFunctions) (hq : q.Representable)
    (hx : ∀ id r, Index.slot .primary id r ∈ q.indices → x id ∈ r) :
    t.contraction γ q ((List.range t.i.indices.length).map x) = p.constant * sumIndices q.indices
      (fun a => quadratureValue settings domain q.basisFunctions a * γ.factors q a)
      (primaryValues x) := by
  obtain ⟨hi, hs, hxx⟩ := axes_of_referenceTensor hfits ht
  have hiv : (List.range t.i.indices.length).map x ∈ t.i.values :=
    (hi.of_perm hperm).map_range_mem_values fun id r h => hx id r (List.mem_append_left _ h)
  rw [contraction_eq_sum γ hfits ht hperm hq hiv,
    (hs.of_perm hperm).sumIndices_eq (hxx.of_perm hperm) hq.ranges_agree hq.nodup_range]
  congr 2
  refine List.map_congr_left fun av hav => ?_
  rw [← List.sum_map_mul_right]
  refine congrArg List.sum (List.map_congr_left fun bv hbv => ?_)
  rw [← MultiIndex.length_of_mem_values hav, ← MultiIndex.length_of_mem_values hbv,
    sumOver_outerSlots γ hq fun id => assign_axes x av bv ⟨.secondary, id⟩,
    quadratureValue_axes hfits ht hperm]

end Contraction

/-! ### Relabelled monomials -/

namespace Monomial

variable {K : Type}

theorem Representable.relabel {q q' : Monomial K} (h : q.IsRelabelling q')
    (hq : q.Representable) : q'.Representable := by
  obtain ⟨π, -, rfl⟩ := h
  refine ⟨hq.primaryArguments.rename _, ?_, ?_, ?_, ?_, ?_⟩
  · rw [renameSecondary, rename, mapIndices_eq]
    simp only [indices_map_mapIndices, ← List.map_append, List.forall_mem_map]
    intro i hi
    have hkind := hq.auxiliary_inside i hi
    cases i <;> exact hkind
  · rw [indices_renameSecondary]
    exact hq.ranges_agree.rename (secondaryRenaming_injective π)
  · rw [renameSecondary, rename, indices_mapIndices, List.forall_mem_map]
    intro i hi
    rw [Index.range_rename]
    exact hq.nodup_range i hi
  · rw [basisFunctions_renameSecondary, List.forall_mem_map]
    intro v hv
    simp only [mapIndices_basisFunction, List.forall_mem_map]
    exact hq.element_eq v hv
  · rw [indices_renameSecondary, List.length_map]
    exact hq.length_lt

/-- Relabelling keeps the elements. -/
theorem IsRelabelling.map_element {q q' : Monomial K} (h : q.IsRelabelling q') :
    q'.basisFunctions.map (·.element) = q.basisFunctions.map (·.element) := by
  obtain ⟨π, -, rfl⟩ := h
  rw [basisFunctions_renameSecondary, List.map_map]
  exact List.map_congr_left fun v _ => by rw [Function.comp_apply, mapIndices_basisFunction]

variable [Field K] [Numerics K] [LE K] [DecidableLE K] [Tabulation K]

/-- The value by quadrature does not depend on how secondary slots are numbered. -/
theorem quadratureSum_relabel {q q' : Monomial K} (h : q.IsRelabelling q')
    (settings : CompilerSettings) (domain : QuadratureDomain) (γ : Geometry K) (x : ℕ → ℕ) :
    q'.quadratureSum settings domain γ x = q.quadratureSum settings domain γ x := by
  obtain ⟨π, -, rfl⟩ := h
  have hvalues : primaryValues x ∘ Slot.rename (secondaryRenaming π) = primaryValues x := by
    funext s
    obtain ⟨k, id⟩ := s
    cases k <;> rfl
  have hquad : ∀ a : Slot → ℕ, quadratureValue settings domain
      (q.renameSecondary π).basisFunctions a = (quadratureValue settings domain q.basisFunctions
        (a ∘ Slot.rename (secondaryRenaming π)) : K) := by
    intro a
    rw [basisFunctions_renameSecondary, quadratureValue, quadrature_rename, quadratureValue]
  have hfactors : ∀ a : Slot → ℕ, γ.factors (q.renameSecondary π) a =
      γ.factors q (a ∘ Slot.rename (secondaryRenaming π)) := fun a => γ.factors_rename _ q a
  rw [quadratureSum, indices_renameSecondary]
  simp only [hquad, hfactors]
  rw [sumIndices_rename (secondaryRenaming_injective π) q.indices
    (fun a => quadratureValue settings domain q.basisFunctions a * γ.factors q a), hvalues]
  rfl

/-- If the integrals exist for all values in range, then they do so before the relabelling. -/
theorem IsRelabelling.quadrature_eq_ok {q q' : Monomial K} (h : q.IsRelabelling q')
    {settings : CompilerSettings} {domain : QuadratureDomain}
    (hq' : ∀ a : Slot → ℕ, (∀ i ∈ Indexed.indices q'.basisFunctions, i.valueIn a ∈ i.range) →
      quadrature settings domain q'.basisFunctions a =
        .ok (quadratureValue settings domain q'.basisFunctions a : K)) (a : Slot → ℕ)
    (ha : ∀ i ∈ Indexed.indices q.basisFunctions, i.valueIn a ∈ i.range) :
    quadrature settings domain q.basisFunctions a =
      .ok (quadratureValue settings domain q.basisFunctions a : K) := by
  obtain ⟨π, -, rfl⟩ := h
  have hinv : (a ∘ Slot.rename (secondaryRenaming π.symm)) ∘
      Slot.rename (secondaryRenaming π) = a := by
    funext s
    obtain ⟨k, id⟩ := s
    cases k with
    | secondary => exact congrArg (fun id => a ⟨.secondary, id⟩) (π.symm_apply_apply id)
    | primary | auxiliary => rfl
  have hquad := hq' (a ∘ Slot.rename (secondaryRenaming π.symm)) (by
    rw [basisFunctions_renameSecondary, indices_map_mapIndices, List.forall_mem_map]
    intro i hi
    rw [Index.valueIn_rename, Index.range_rename, hinv]
    exact ha i hi)
  rw [quadratureValue, basisFunctions_renameSecondary, quadrature_rename, hinv] at hquad
  rw [hquad, quadratureValue, hquad]

end Monomial

/-! ### Forms -/

namespace Form

theorem rank_eq {K : Type} {f : Form K} {n : ℕ} (h : ∀ id, id ∈ f.ids .primary ↔ id < n) :
    f.rank = n := by
  rw [rank]
  cases hmax : (f.ids .primary).max? with
  | none =>
    rw [List.max?_eq_none_iff] at hmax
    by_contra hn
    have := (h 0).mpr (Nat.pos_of_ne_zero fun h0 => hn h0.symm)
    rw [hmax] at this
    cases this
  | some x =>
    have hx := (h x).mp (List.max?_mem hmax)
    have hle := List.le_max?_get_of_mem ((h (n - 1)).mpr (by omega))
    simp only [hmax, Option.get_some] at hle
    change x + 1 = n
    omega

/-- Every monomial has all arguments of the form. -/
theorem Representable.mem_slotIds_primary_iff {K : Type} {g : Form K} (hg : g.Representable)
    {q : Monomial K} (hq : q ∈ g.monomials) {id : ℕ} :
    id ∈ g.ids .primary ↔ id ∈ slotIds q.basisFunctions .primary := by
  constructor
  · intro hid
    have hcount := hg.primary_once q hq id hid
    have hmem : id ∈ q.ids .primary := List.count_pos_iff.mp (by omega)
    rw [Monomial.ids, Monomial.indices_eq, List.filterMap_append, List.mem_append] at hmem
    refine hmem.resolve_right fun hid => ?_
    obtain ⟨i, hi, hid⟩ := List.mem_filterMap.mp hid
    obtain ⟨r, rfl⟩ := Index.idOf?_eq_some.mp hid
    cases (hg.monomial q hq).primaryArguments _ (List.mem_append_right _ hi)
  · intro hid
    exact List.mem_flatMap.mpr ⟨q, hq, slotIds_subset q .primary hid⟩

theorem Representable.samePrimary {K : Type} {g : Form K} (hg : g.Representable) :
    g.SamePrimary := fun _ hm _ hn _ =>
  (hg.mem_slotIds_primary_iff hm).symm.trans (hg.mem_slotIds_primary_iff hn)

/-- A reordered monomial is a relabelling of the original one and has the basis functions of its
representative, which is a monomial of the form that reordering has kept. -/
theorem exists_sharing {K : Type} [Enumeration] {g h : Form K} {F : List (Option ℕ)}
    (hg : g.Representable) (hone : Element.OneRegistry g.elements)
    (hr : g.reorder = .ok (h, F)) {j : ℕ} {q q' : Monomial K} (hq : g.monomials[j]? = some q)
    (hq' : h.monomials[j]? = some q') :
    ∃ p ∈ g.monomials, h.monomials[F[j]?.join.getD j]? = some p ∧
      F[F[j]?.join.getD j]? = some none ∧ q.IsRelabelling q' ∧ p.integral = q.integral ∧
      q'.basisFunctions.Perm p.basisFunctions := by
  obtain ⟨es, hes, hreached⟩ | ⟨e, _, _, he, -, -⟩ := g.reorder_cases
  swap
  · rw [hr] at he
    cases he
  rw [hr] at hes
  cases hes
  obtain ⟨e, he, rfl⟩ : ∃ e, es[j]? = some e ∧ e.monomial = q' := by
    rwa [List.getElem?_map, Option.map_eq_some_iff] at hq'
  obtain ⟨p, hgp, hhp, hrep, hrel, hhard⟩ := hreached.exists_representative hq he
  have hqmem := List.mem_of_getElem? hq
  have hpmem := List.mem_of_getElem? hgp
  have hintegral : p.integral = q.integral := by
    rw [← (Monomial.signature_eq_iff.mp hhard).1, hrel.integral_eq]
  have helements : ∀ m ∈ g.monomials, m.basisFunctions.map (·.element) ⊆ g.elements :=
    fun m hm _ he => List.mem_flatMap.mpr ⟨m, hm, he⟩
  have hshared : Element.OneRegistry
      ((e.monomial.basisFunctions ++ p.basisFunctions).map (·.element)) := hone.mono <| by
    rw [List.map_append, hrel.map_element]
    exact List.append_subset.mpr ⟨helements q hqmem, helements p hpmem⟩
  exact ⟨p, hpmem, hhp, hrep, hrel, hintegral, Monomial.basisFunctions_perm hhard hshared
    ((hg.monomial q hqmem).relabel hrel).element_eq (hg.monomial p hpmem).element_eq⟩

section

variable {K : Type} [Field K] [Numerics K] [LE K] [DecidableLE K] [Tabulation K] [Enumeration]
variable {settings : CompilerSettings} {domain : QuadratureDomain} {p q : Monomial K}
variable {t : ReferenceTensor K} {f g : Form K}

/-- The primary axes of a tensor for the basis functions of a monomial of the form are as many as
the arguments of the form. -/
theorem rank_eq_length (hg : g.Representable) (hq : q ∈ g.monomials) (hfits : p.FitsAxes)
    (hperm : q.basisFunctions.Perm p.basisFunctions)
    (ht : Form.referenceTensor settings p domain = .ok t) : g.rank = t.i.indices.length := by
  have hi := (axes_of_referenceTensor hfits ht).1.of_perm hperm
  refine rank_eq fun id => ?_
  rw [hg.mem_slotIds_primary_iff hq, hi.mem_slotIds_iff]

/-- The monomials of a form over the elements of one registry are the contractions of the tensors of
their representatives. -/
theorem quadratureSum_eq_contraction {h : Form K} {F : List (Option ℕ)} (γ : Geometry K)
    (hm : f.markAuxiliary = .ok g) (hc : ∀ m ∈ f.monomials, m.constant ≠ 0)
    (hg : g.Representable) (hone : Element.OneRegistry g.elements) (hr : g.reorder = .ok (h, F))
    (hall : ∀ (r : ℕ) (p : Monomial K), F[r]? = some none → h.monomials[r]? = some p →
      ∀ domain ∈ p.integral.domains, ∃ t, referenceTensor settings p domain = .ok t)
    {j : ℕ} {q q' : Monomial K} (hq : g.monomials[j]? = some q) (hq' : h.monomials[j]? = some q')
    (hd : domain ∈ q.integral.domains) :
    ∃ p t, h.monomials[F[j]?.join.getD j]? = some p ∧ referenceTensor settings p domain = .ok t ∧
      (∀ a : Slot → ℕ, (∀ i ∈ indices q.basisFunctions, i.valueIn a ∈ i.range) →
        quadrature settings domain q.basisFunctions a =
          .ok (quadratureValue settings domain q.basisFunctions a : K)) ∧
      ∀ x : ℕ → ℕ, (∀ id r, Index.slot .primary id r ∈ q.indices → x id ∈ r) →
        (∀ av ∈ t.a.positions, ∃ y, t.get? ((List.range g.rank).map x) av = some y) ∧
        q.constant / p.constant * t.contraction γ q' ((List.range g.rank).map x) =
          q.quadratureSum settings domain γ x := by
  obtain ⟨p, hpmem, hhp, hrep, hrel, hintegral, hperm⟩ := exists_sharing hg hone hr hq hq'
  obtain ⟨t, ht⟩ := hall _ p hrep hhp domain (hintegral ▸ hd)
  have hrepresentable := (hg.monomial q (List.mem_of_getElem? hq)).relabel hrel
  have hnumbered : g.Numbered := by
    obtain ⟨-, rfl⟩ := markAuxiliary_eq_ok.mp hm
    exact numbered_renumber _
  have hfits := hnumbered.fitsAxes hg.samePrimary hpmem (hg.monomial p hpmem).length_lt
  have hi := (axes_of_referenceTensor hfits ht).1.of_perm hperm
  rw [rank_eq_length hg hpmem hfits (.refl _) ht]
  refine ⟨p, t, hhp, ht, hrel.quadrature_eq_ok fun a => quadrature_eq_ok_of_inRange hfits ht hperm,
    fun x hx => ⟨fun av hav => ?_, ?_⟩⟩
  · have hiv := hi.map_range_mem_values fun id r hmem =>
      hx id r (hrel.primary_mem_iff.mp (List.mem_append_left _ hmem))
    exact ⟨_, (get?_referenceTensor hfits ht hperm hiv hav).1⟩
  · have hp := constant_ne_zero_of_markAuxiliary hm hc p hpmem
    rw [ReferenceTensor.contraction_eq γ hfits ht hperm hrepresentable fun id r hmem =>
        hx id r (hrel.primary_mem_iff.mp hmem), ← mul_assoc, div_mul_cancel₀ _ hp,
      ← Monomial.quadratureSum_relabel hrel, Monomial.quadratureSum, hrel.constant_eq]

end

end Form

namespace Form

/-- The product of the derivatives of two arguments in one reference direction, weighted by a given
function. -/
def weightedTerm {K : Type} (constant : K) (cell : Cell) (direction : Index) : Monomial K :=
  let element : Element := .lagrange 0 { cell, degree := 1 }
  let weight : Index := .slot .secondary 0 (List.range element.space.spaceDimension)
  let argument (id : ℕ) : BasisFunction :=
    { BasisFunction.argument element id with derivatives := [⟨element, direction⟩] }
  { constant
    basisFunctions := [{ element, index := weight }, argument 0, argument 1]
    coefficients := [{ function := 0, projection := 0, index := weight }] }

theorem reorder_directionalTerm :
    let summed : Index := .slot .secondary 2 [0, 1]
    let p : Monomial ℚ := directionalTerm 1 .triangle 0 1 summed summed
    let q : Monomial ℚ := directionalTerm 2 .triangle 1 0 summed summed
    let m : Monomial ℚ := weightedTerm 3 .triangle (.slot .auxiliary 0 [0, 1])
    (⟨[p, q, m]⟩ : Form ℚ).reorder =
      .ok (⟨[p, q.renameSecondary fun id => if id < 2 then 1 - id else id, m]⟩,
        [none, some 0, none]) := by
  cbv

/-- The second term uses the tensor of the first one with its axes exchanged, and its geometry
tensor is a sum over a slot outside basis functions.  The third term has an auxiliary slot. -/
theorem quadratureSum_eq_contraction_directionalTerm :
    let summed : Index := .slot .secondary 2 [0, 1]
    let p : Monomial ℚ := directionalTerm 1 .triangle 0 1 summed summed
    let q : Monomial ℚ := directionalTerm 2 .triangle 1 0 summed summed
    let q' := q.renameSecondary fun id => if id < 2 then 1 - id else id
    let f : Form ℚ := ⟨[p, q, weightedTerm 3 .triangle (.slot .secondary 1 [0, 1])]⟩
    let m : Monomial ℚ := weightedTerm 3 .triangle (.slot .auxiliary 0 [0, 1])
    let g : Form ℚ := ⟨[p, q, m]⟩
    let settings : CompilerSettings := { quadratureDegree := some 1 }
    (f.markAuxiliary = .ok g ∧ g.Representable ∧
      g.reorder = .ok (⟨[p, q', m]⟩, [none, some 0, none])) ∧
      ∃ t, referenceTensor settings p .cell = .ok t ∧
        ∀ (γ : Geometry ℚ) (x : ℕ → ℕ), x 0 < 3 → x 1 < 3 →
          2 / 1 * t.contraction γ q' [x 0, x 1] = q.quadratureSum settings .cell γ x := by
  intro summed p q q' f m g settings
  have hm : f.markAuxiliary = .ok g := by decide +kernel
  have hc : ∀ m ∈ f.monomials, m.constant ≠ 0 := by decide +kernel
  have hfit : f.FitsMarking := by
    unfold Form.FitsMarking Monomial.FitsMarking
    decide
  have hmonomial : ∀ m ∈ g.monomials, m.PrimaryArguments ∧
      (∀ i ∈ indices m.transforms ++ indices m.coefficients, i.isKind .auxiliary = false) ∧
      (∀ i ∈ m.indices, i.range.Nodup) ∧
      (∀ v ∈ m.basisFunctions, ∀ d ∈ v.derivatives, d.element = v.element) ∧
      m.indices.length < wordSize := by decide
  have hg : g.Representable := by
    refine ⟨fun m hmem => ?_, by decide⟩
    obtain ⟨hprimary, hinside, hnodup, helement, hlength⟩ := hmonomial m hmem
    exact ⟨hprimary, hinside, (balanced_of_markAuxiliary hfit hm m hmem).rangesAgree, hnodup,
      helement, hlength⟩
  have hone : Element.OneRegistry g.elements := by decide
  have hr : g.reorder = .ok (⟨[p, q', m]⟩, [none, some 0, none]) := reorder_directionalTerm
  have htensors : ∀ m ∈ g.monomials, m.integral.domains = [.cell] ∧
      (referenceTensor settings m .cell).isOk = true := by decide +kernel
  have hall : ∀ (r : ℕ) (n : Monomial ℚ), [none, some 0, none][r]? = some none →
      [p, q', m][r]? = some n → ∀ domain ∈ n.integral.domains,
        ∃ t, referenceTensor settings n domain = .ok t := by
    intro r n hF hn domain hd
    have hmem : n ∈ g.monomials := by
      rcases r with _ | _ | _ | r
      · cases hn
        exact List.mem_cons_self
      · cases hF
      · cases hn
        exact List.mem_of_getElem? (i := 2) rfl
      · cases hn
    obtain ⟨hdomains, hok⟩ := htensors n hmem
    rw [hdomains, List.mem_singleton] at hd
    subst hd
    exact exists_eq_ok hok
  have hcontraction := fun γ : Geometry ℚ => quadratureSum_eq_contraction (j := 1) γ hm hc hg hone
    hr hall rfl rfl (List.mem_singleton.mpr rfl)
  obtain ⟨n, t, hn, ht, -, -⟩ := hcontraction ⟨fun _ _ _ _ => 0, fun _ _ _ => 0⟩
  obtain rfl : p = n := Option.some.inj hn
  refine ⟨⟨hm, hg, hr⟩, t, ht, fun γ x h0 h1 => ?_⟩
  obtain ⟨n, t', hn, ht', -, hsum⟩ := hcontraction γ
  obtain rfl : p = n := Option.some.inj hn
  obtain rfl : t = t' := by
    rw [ht] at ht'
    exact Except.ok.inj ht'
  refine (hsum x fun id r hid => ?_).2
  have hprimary : ∀ i ∈ q.indices, i = .slot .primary 0 [0, 1, 2] ∨
      i = .slot .primary 1 [0, 1, 2] ∨ i.isKind .primary = false := by decide
  obtain h | h | h := hprimary _ hid
  · cases h
    exact List.mem_range.mpr h0
  · cases h
    exact List.mem_range.mpr h1
  · cases h

end Form

end WeakForm
