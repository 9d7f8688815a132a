import WeakForm.Proofs.Termination
import WeakForm.Proofs.Valuation

/-!
# Contraction keeps values

Contraction joins two monomials that differ in one summed index over disjoint ranges, so the value
of the joined monomial is the sum of their values (`Valuation.value_joined`).  Every sweep keeps the
value of the form up to its renumbering (`Valuation.formValue_contractOnce`), hence so does the
whole contraction (`Form.exists_formValue_contract`).

That the index of the difference is summed at all needs an argument.  Primary slots are not summed;
here they occur as arguments of basis functions only (`Monomial.PrimaryArguments`), and the test
before a contraction compares the arguments of both monomials.
-/

namespace WeakForm

open Indexed

variable {K : Type}

namespace Monomial

/-! ### Arguments -/

/-- The arguments of the basis functions. -/
def arguments (m : Monomial K) : List Index :=
  m.basisFunctions.map (·.index)

/-- All indices that are not arguments of basis functions. -/
def innerIndices (m : Monomial K) : List Index :=
  m.basisFunctions.flatMap (fun v => v.components ++ v.derivatives.map (·.index)) ++
    (Indexed.indices m.transforms ++ Indexed.indices m.coefficients)

/-- Primary slots occur as arguments of basis functions only. -/
def PrimaryArguments (m : Monomial K) : Prop :=
  ∀ i ∈ m.innerIndices, i.isKind .primary = false

instance (m : Monomial K) : Decidable m.PrimaryArguments :=
  inferInstanceAs (Decidable (∀ i ∈ m.innerIndices, i.isKind .primary = false))

theorem indices_perm_arguments (m : Monomial K) :
    m.indices.Perm (m.arguments ++ m.innerIndices) := by
  have h : ∀ vs : List BasisFunction, (Indexed.indices vs).Perm
      (vs.map (·.index) ++
        vs.flatMap fun v => v.components ++ v.derivatives.map (·.index)) := by
    intro vs
    induction vs with
    | nil => exact List.Perm.refl _
    | cons v vs ih =>
      rw [indices_list] at ih ⊢
      rw [List.flatMap_cons, indices_basisFunction, List.map_cons, List.flatMap_cons,
        List.cons_append, List.cons_append, List.perm_cons]
      refine (ih.append_left _).trans ?_
      rw [List.perm_iff_count]
      intro i
      simp only [List.count_append]
      omega
  rw [indices_eq, arguments, innerIndices, ← List.append_assoc (m.basisFunctions.map (·.index))]
  exact (h _).append_right _

theorem innerIndices_mapIndices (f : Index → Index) (m : Monomial K) :
    (mapIndices f m).innerIndices = m.innerIndices.map f := by
  simp only [innerIndices, mapIndices_eq, List.map_append, List.flatMap_map, List.map_flatMap,
    indices_list, mapIndices_basisFunction, mapIndices_transform, mapIndices_coefficient,
    indices_transform, indices_coefficient, List.map_map]
  rfl

theorem arguments_eq_of_mayContract [BEq K] {m n : Monomial K} (h : m.mayContract n = true) :
    m.arguments = n.arguments := by
  simp only [mayContract, Bool.and_eq_true, beq_iff_eq, List.all_eq_true] at h
  obtain ⟨⟨-, hl⟩, hall⟩ := h
  refine List.ext_getElem (by simpa [arguments] using hl) fun p h1 h2 => ?_
  simp only [arguments, List.getElem_map]
  simp only [arguments, List.length_map] at h1 h2
  have hz : p < (m.basisFunctions.zip n.basisFunctions).length := by
    rw [List.length_zip]
    omega
  have := hall _ (List.getElem_mem hz)
  rw [List.getElem_zip] at this
  exact this.1.1.1.2

end Monomial

namespace PairDifference

variable [BEq K] {m n : Monomial K}

/-! ### Replacing the index of a difference -/

theorem exists_marker (d : PairDifference m n) :
    ∃ j, j ∉ d.before ++ (d.between ++ d.after) := by
  refine ⟨.slot .secondary (m.nextId .secondary) [], fun h => ?_⟩
  have hmem : m.nextId .secondary ∈ m.ids .secondary :=
    List.mem_filterMap.mpr ⟨.slot .secondary (m.nextId .secondary) [],
      d.perm_indices.symm.subset (List.mem_cons_of_mem _ (List.mem_cons_of_mem _ h)), rfl⟩
  exact absurd (Monomial.lt_nextId hmem) (lt_irrefl _)

/-- With an index at the two places that occurs nowhere else, all others arise from it by
replacement. -/
theorem withIndex_eq_mapIndices (d : PairDifference m n) {j : Index}
    (hj : j ∉ d.before ++ (d.between ++ d.after)) (i : Index) :
    d.withIndex i = mapIndices (fun x => if x = j then i else x) (d.withIndex j) := by
  have hmap : ∀ is : List Index, (∀ x ∈ is, x ≠ j) →
      is.map (fun x => if x = j then i else x) = is := fun is h =>
    (List.map_congr_left fun x hx => if_neg (h x hx)).trans (List.map_id _)
  have hne : ∀ is, is ⊆ d.before ++ (d.between ++ d.after) → ∀ x ∈ is, x ≠ j := by
    rintro is his x hx rfl
    exact hj (his hx)
  rw [withIndex, withIndex, mapIndices_refill _ m (by
    show _ = m.indices.length
    rw [d.indices_left]
    simp)]
  congr 1
  simp only [List.map_append, List.map_cons, if_true]
  rw [hmap d.before (hne _ (by simp)), hmap d.between (hne _ (by simp)),
    hmap d.after (hne _ (by simp))]

/-- What holds of the indices at some of the places of both monomials holds of those of the joined
one, if it passes on to the merged index. -/
theorem forall_mem_joined (d : PairDifference m n) {places : Monomial K → List Index}
    (hmap : ∀ f m, places (mapIndices f m) = (places m).map f)
    (hconst : ∀ m c, places { m with constant := c } = places m) {p : Index → Prop}
    (hindex : p d.left → p d.right → p d.index) (hm : ∀ i ∈ places m, p i)
    (hn : ∀ i ∈ places n, p i) : ∀ i ∈ places d.joined, p i := by
  obtain ⟨j, hj⟩ := d.exists_marker
  rw [← d.withIndex_left, d.withIndex_eq_mapIndices hj, hmap] at hm
  rw [d.withIndex_right, hconst, d.withIndex_eq_mapIndices hj, hmap] at hn
  rw [joined, d.withIndex_eq_mapIndices hj, hmap]
  rw [List.forall_mem_map] at hm hn ⊢
  intro x hx
  have hmx := hm x hx
  have hnx := hn x hx
  by_cases hxj : x = j
  · simp only [hxj, if_true] at hmx hnx ⊢
    exact hindex hmx hnx
  · simp only [hxj, if_false] at hmx ⊢
    exact hmx

/-- The index of a difference is not at an argument, so it is no primary slot. -/
theorem left_isKind (d : PairDifference m n) (ha : m.arguments = n.arguments)
    (hm : m.PrimaryArguments) : d.left.isKind .primary = false := by
  by_contra hp
  have h1 : m.indices.count d.left = m.arguments.count d.left := by
    rw [m.indices_perm_arguments.count_eq, List.count_append]
    have : m.innerIndices.count d.left = 0 := List.count_eq_zero.mpr fun h => hp (hm _ h)
    omega
  have h2 : n.arguments.count d.left ≤ n.indices.count d.left := by
    rw [n.indices_perm_arguments.count_eq, List.count_append]
    omega
  have hne : (d.right == d.left) = false := by simpa using d.ne.symm
  rw [← ha, ← h1, d.indices_left, d.indices_right] at h2
  simp only [List.count_append, List.count_cons, beq_self_eq_true, if_true, hne] at h2
  simp only [Bool.false_eq_true, if_false] at h2
  omega

theorem index_isKind (d : PairDifference m n) (h : d.left.isKind .primary = false) :
    d.index.isKind .primary = false := by
  rw [index]
  cases hl : d.left with
  | slot k id r =>
    rw [hl] at h
    exact h
  | fixed v => rfl

end PairDifference

namespace Monomial

theorem PrimaryArguments.step {P : Index → Transform → Transform → Prop} {m n : Monomial K}
    (h : m.PrimaryArguments) (hs : CancelStep P m n) : n.PrimaryArguments := by
  cases hs with
  | @mk m s t ts rest p _ _ hts =>
    have hsub : ∀ u ∈ rest, u ∈ ts := fun u hu => hts.symm.subset (by simp [hu])
    have ht : t ∈ ts := hts.symm.subset (by simp)
    intro i hi
    apply h
    simp only [innerIndices, withFactors, DerivativePlace.along, List.flatMap_append,
      List.flatMap_cons, List.map_append, List.map_cons, List.mem_append, List.mem_cons,
      indices_list, List.mem_flatMap, indices_transform] at hi ⊢
    grind

theorem PrimaryArguments.rename {m : Monomial K} (h : m.PrimaryArguments)
    (f : SlotKind → ℕ → ℕ) : (m.rename (slotRenaming f)).PrimaryArguments := by
  intro i hi
  rw [Monomial.rename, innerIndices_mapIndices] at hi
  obtain ⟨j, hj, rfl⟩ := List.mem_map.mp hi
  have := h j hj
  cases j <;> exact this

theorem kept_primaryArguments [BEq K] : Kept (PrimaryArguments (K := K)) where
  rename _ f _ h := h.rename f
  joined m n d hmay hm hn := by
    refine d.forall_mem_joined (fun f m => innerIndices_mapIndices f m) (fun _ _ => rfl)
      (fun _ _ => ?_) hm hn
    exact d.index_isKind (d.left_isKind (arguments_eq_of_mayContract hmay) hm)
  constant _ _ h := h
  contractDeterminants _ h := h
  simplifyDerivatives _ h := simplifyDerivatives_keeps (fun _ _ hs h => h.step hs) h

end Monomial

/-! ### Values -/

namespace Valuation

variable [CommRing K] [BEq K] (v : Valuation K) {m n : Monomial K}

/-- With an index that occurs at no other place, the value is the sum over the values of the
index. -/
theorem value_withIndex (p : PairDifference m n) {i : Index} (hi : i.isKind .primary = false)
    (hnot : ∀ k id, i.idOf? k = some id →
      ∀ x ∈ p.before ++ (p.between ++ p.after), x.idOf? k ≠ some id) (a : Slot → ℕ) :
    v.value (p.withIndex i) a = ∑ x ∈ i.range.toFinset, v.value (p.withIndex (.fixed x)) a := by
  cases i with
  | fixed x => simp [Index.range]
  | slot k id r =>
    have hslot : (Index.slot k id r).slot? = some ⟨k, id⟩ := rfl
    have hother : ∀ x ∈ p.before ++ (p.between ++ p.after), x.slot? ≠ some ⟨k, id⟩ := by
      intro x hx h
      exact hnot k id (by simp [Index.idOf?]) x hx (Index.slot?_eq_some.mp h)
    have hperm := p.perm_withIndex (.slot k id r)
    have hs : (⟨k, id⟩ : Slot) ∈ summedSlots (p.withIndex (.slot k id r)).indices := by
      refine mem_summedSlots.mpr ⟨⟨_, hperm.symm.subset List.mem_cons_self, rfl⟩, ?_⟩
      simpa [Slot.isSummed, Index.isKind, Index.kind?] using hi
    have hvalues : slotValues (p.withIndex (.slot k id r)).indices ⟨k, id⟩ = r.toFinset := by
      ext x
      rw [mem_slotValues, List.mem_toFinset]
      constructor
      · rintro ⟨j, hj, hjs, hx⟩
        rcases List.mem_cons.mp (hperm.subset hj) with rfl | hj
        · exact hx
        · rcases List.mem_cons.mp hj with rfl | hj
          · exact hx
          · exact absurd hjs (hother j hj)
      · intro hx
        exact ⟨_, hperm.symm.subset List.mem_cons_self, rfl, hx⟩
    rw [v.value_subst hs, hvalues]
    apply Finset.sum_congr rfl
    intro x _
    -- the slot is replaced at the two places of the difference only
    have hmap : ∀ is, is ⊆ p.before ++ (p.between ++ p.after) →
        is.map (Index.subst ⟨k, id⟩ x) = is := fun is his =>
      (List.map_congr_left fun j hj => Index.subst_of_ne (hother j (his hj))).trans (List.map_id _)
    rw [PairDifference.withIndex, mapIndices_refill _ m (by
      show _ = m.indices.length
      rw [p.indices_left]
      simp)]
    simp only [List.map_append, List.map_cons, Index.subst_of_eq hslot]
    rw [hmap p.before (by simp), hmap p.between (by simp), hmap p.after (by simp)]
    rfl

/-- Contraction keeps the value: the joined monomial has the values of both. -/
theorem value_joined [LawfulBEq K] (p : PairDifference m n) (ha : m.arguments = n.arguments)
    (hm : m.PrimaryArguments) (hn : n.PrimaryArguments) (a : Slot → ℕ) :
    v.value p.joined a = v.value m a + v.value n a := by
  have hleft := p.left_isKind ha hm
  have hc : n.constant = m.constant := (eq_of_beq p.constant_beq).symm
  have hsymm : (n.constant == m.constant) = true := beq_iff_eq.mpr hc
  have hright : p.right.isKind .primary = false := (p.symm hsymm).left_isKind ha.symm hn
  have hn' : n = p.withIndex p.right := by
    have := p.withIndex_right
    rwa [hc] at this
  have hd : Disjoint p.left.range.toFinset p.right.range.toFinset := by
    rw [Finset.disjoint_left]
    intro x hx hx'
    have := Index.overlaps_iff.mpr ⟨x, List.mem_toFinset.mp hx, List.mem_toFinset.mp hx'⟩
    rw [p.disjoint] at this
    cases this
  have hu : p.index.range.toFinset = p.left.range.toFinset ∪ p.right.range.toFinset := by
    ext x
    rw [PairDifference.index, Index.range_merged, List.mem_toFinset, mem_unionRange,
      Finset.mem_union, List.mem_toFinset, List.mem_toFinset]
  calc v.value p.joined a
      = ∑ x ∈ p.index.range.toFinset, v.value (p.withIndex (.fixed x)) a :=
        v.value_withIndex p (p.index_isKind hleft) (fun _ _ => p.index_notMem) a
    _ = ∑ x ∈ p.left.range.toFinset, v.value (p.withIndex (.fixed x)) a +
          ∑ x ∈ p.right.range.toFinset, v.value (p.withIndex (.fixed x)) a := by
        rw [hu, Finset.sum_union hd]
    _ = v.value (p.withIndex p.left) a + v.value (p.withIndex p.right) a := by
        rw [v.value_withIndex p hleft (fun _ _ => p.left_notMem),
          v.value_withIndex p hright (fun _ _ => (p.symm hsymm).left_notMem)]
    _ = v.value m a + v.value n a := by rw [p.withIndex_left, ← hn']

/-! ### Forms -/

/-- A sweep of contraction renumbers the primary slots and keeps the value. -/
theorem formValue_contractOnce [LawfulBEq K] {f g : Form K} (h : f.contractOnce = .ok g)
    (hp : ∀ m ∈ f.monomials, m.PrimaryArguments) (i : Integral) (values : ℕ → ℕ) :
    v.formValue g i values = v.formValue f i (values ∘ numbering (f.ids .primary)) := by
  have hkept := Monomial.kept_primaryArguments (K := K)
  rw [← v.formValue_renumber]
  refine (Form.contractOnce_contracts h).sum_map (fun a b c ha hb hc => ?_)
    (fun a b c ha hb hc => ?_) (hkept.form_renumber hp)
  · obtain ⟨hl, p, rfl⟩ := Monomial.contractIfLikely_eq_some hc
    exact hkept.joined a b p hl ha hb
  · obtain ⟨hl, p, rfl⟩ := Monomial.contractIfLikely_eq_some hc
    have hb' := congrArg Monomial.integral p.withIndex_right
    have hab : b.integral = a.integral := hb'
    have hj : p.joined.integral = a.integral := rfl
    rw [hab, hj, v.value_joined p (Monomial.arguments_eq_of_mayContract hl) ha hb]
    split
    · rfl
    · rw [add_zero]

end Valuation

/-- Contraction keeps the value, up to one renumbering of the primary slots for all valuations. -/
theorem Form.exists_formValue_contract [CommRing K] [BEq K] [LawfulBEq K] {f g : Form K}
    (h : f.contract = .ok g) (hp : ∀ m ∈ f.monomials, m.PrimaryArguments) :
    ∃ ρ : ℕ → ℕ, Function.Injective ρ ∧ ∀ (v : Valuation K) (i : Integral) (values : ℕ → ℕ),
      v.formValue g i values = v.formValue f i (values ∘ ρ) := by
  obtain ⟨n, -, hrun⟩ := f.contract_runs
  refine (hrun.invariant
    (P := fun s => (∃ ρ : ℕ → ℕ, Function.Injective ρ ∧ ∀ (v : Valuation K) (i : Integral)
      (values : ℕ → ℕ), v.formValue s i values = v.formValue f i (values ∘ ρ)) ∧
        ∀ m ∈ s.monomials, m.PrimaryArguments)
    (fun s t hs hst => ?_) ⟨⟨id, Function.injective_id, fun _ _ _ => rfl⟩, hp⟩ h).1
  obtain ⟨⟨ρ, hρ, hv⟩, hsp⟩ := hs
  refine ⟨⟨numbering (s.ids .primary) ∘ ρ, (numbering_injective _).comp hρ,
    fun v i values => ?_⟩, Monomial.kept_primaryArguments.form_contractOnce hst hsp⟩
  rw [v.formValue_contractOnce hst hsp, hv]
  rfl

end WeakForm
