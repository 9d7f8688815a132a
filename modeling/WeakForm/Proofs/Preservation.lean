import WeakForm.Proofs.NormalForm
import WeakForm.Proofs.SingleChain

/-!
# When simplification keeps values

Simplification does not keep the value of every form.  Contraction may join fixed physical
directions into a slot over some of the directions only, and cancellation of chains does not ask
whether the slot that it sums away runs over all of them (`Form.simplify_changes_value`).

The value is kept, on every integral and up to a renumbering of the primary slots, if every chain
that a round finds is complete (`Form.CancelsCompleteChains`).  That is so for forms whose
derivatives and transforms are summed over all directions (`Form.cancelsCompleteChains_of_full`).
For forms of a single chain it is necessary, too.  `Form.simplify_preserves_value` says all this.
-/

namespace WeakForm

open Indexed

variable {K : Type}

/-! ### Sums over all directions -/

namespace Monomial

/-- The directions of derivatives and transforms. -/
def directions (m : Monomial K) : List Index :=
  m.basisFunctions.flatMap (fun v => v.derivatives.map (·.index)) ++ Indexed.indices m.transforms

/-- Derivatives and transforms are summed over all directions. -/
def FullDirections (d : ℕ) (m : Monomial K) : Prop :=
  ∀ i ∈ m.directions, i.isFixed = false ∧ ∀ x, x ∈ i.range ↔ x < d

theorem directions_mapIndices (f : Index → Index) (m : Monomial K) :
    (mapIndices f m).directions = m.directions.map f := by
  simp only [directions, mapIndices_eq, List.map_append, List.flatMap_map, List.map_flatMap,
    indices_list, mapIndices_basisFunction, mapIndices_transform, indices_transform, List.map_map]
  rfl

theorem FullDirections.step {P : Index → Transform → Transform → Prop} {d : ℕ} {m n : Monomial K}
    (h : m.FullDirections d) (hs : CancelStep P m n) : n.FullDirections d := by
  cases hs with
  | @mk m s t ts rest p _ _ hts =>
    have hsub : ∀ u ∈ rest, u ∈ ts := fun u hu => hts.symm.subset (by simp [hu])
    have ht : t ∈ ts := hts.symm.subset (by simp)
    intro i hi
    apply h
    simp only [directions, withFactors, DerivativePlace.along, List.flatMap_append,
      List.flatMap_cons, List.map_append, List.map_cons, List.mem_append, List.mem_cons,
      indices_list, List.mem_flatMap, indices_transform] at hi ⊢
    grind

theorem kept_fullDirections [BEq K] (d : ℕ) : Kept (FullDirections (K := K) d) where
  rename m f _ h := by
    intro i hi
    rw [Monomial.rename, directions_mapIndices] at hi
    obtain ⟨j, hj, rfl⟩ := List.mem_map.mp hi
    have := h j hj
    cases j <;> exact this
  joined m n p _ hm hn := by
    refine p.forall_mem_joined (fun f m => directions_mapIndices f m) (fun _ _ => rfl)
      (fun hl hr => ?_) hm hn
    -- two ranges over all directions have a direction in common, unless there is none
    have hd : ∀ x, ¬ x < d := by
      intro x hx
      have := Index.overlaps_iff.mpr ⟨x, (hl.2 x).mpr hx, (hr.2 x).mpr hx⟩
      rw [p.disjoint] at this
      cases this
    refine ⟨?_, fun x => ?_⟩
    · rw [PairDifference.index]
      cases p.left <;> rfl
    · rw [PairDifference.index, Index.range_merged, mem_unionRange, hl.2, hr.2, or_self]
  constant _ _ h := h
  contractDeterminants _ h := h
  simplifyDerivatives _ h := simplifyDerivatives_keeps (fun _ _ hs h => h.step hs) h

/-- Chains over all directions are complete. -/
theorem chainsComplete_of_directions {d : ℕ} {m : Monomial K}
    (h : ∀ i ∈ m.directions, i.isFixed = false → ∀ x, x ∈ i.range ↔ x < d) :
    m.ChainsComplete d := by
  intro v hv δ hδ s hs t ht hchain n hn
  obtain ⟨hl, hp, hr⟩ := hchain.isFixed
  have hmem : ∀ u ∈ m.transforms, ∀ i ∈ Indexed.indices u, i ∈ m.directions := fun u hu i hi =>
    List.mem_append_right _ (List.mem_flatMap.mpr ⟨u, hu, hi⟩)
  have hlrange := h δ.index (List.mem_append_left _ (List.mem_flatMap.mpr
    ⟨v, hv, List.mem_map_of_mem hδ⟩)) hl
  have hprange := h s.physical (hmem s hs _ (by simp [indices_transform])) hp
  have hrrange := h t.reference (hmem t ht _ (by simp [indices_transform])) hr
  rw [hrrange] at hn
  exact ⟨⟨(hlrange n).mpr hn, hn⟩, fun k hk => (hprange k).mpr hk⟩

theorem FullDirections.chainsComplete {d : ℕ} {m : Monomial K} (h : m.FullDirections d) :
    m.ChainsComplete d :=
  chainsComplete_of_directions fun i hi _ => (h i hi).2

end Monomial

namespace Form

/-! ### Runs -/

section
variable [Add K] [Zero K] [Constant K] [BEq K]

/-- The forms that rounds make of a form, whether or not they go on so long. -/
def Reaches (f g : Form K) : Prop :=
  Relation.ReflTransGen (fun s t => s.round = .ok t) f g

/-- In every round, the chains that are there when their cancellation begins are complete. -/
def CancelsCompleteChains (d : ℕ) (f : Form K) : Prop :=
  ∀ s c : Form K, Reaches f.normalizeRestrictions s → s.contract = .ok c →
    ∀ m ∈ c.factorize.eliminateZeros.contractDeterminants.monomials, m.ChainsComplete d

theorem Reaches.forall_mem {P : Monomial K → Prop} (hP : Monomial.Kept P) {f g : Form K}
    (h : Reaches f g) (hf : ∀ m ∈ f.monomials, P m) : ∀ m ∈ g.monomials, P m := by
  induction h with
  | refl => exact hf
  | tail _ hst ih => exact round_forall_mem hP hst ih

/-- If all directions are summed over, then all chains are complete. -/
theorem cancelsCompleteChains_of_full {d : ℕ} {f : Form K}
    (hf : ∀ m ∈ f.monomials, m.FullDirections d) : f.CancelsCompleteChains d := by
  have hP := Monomial.kept_fullDirections (K := K) d
  have hn : ∀ m ∈ f.normalizeRestrictions.monomials, m.FullDirections d := by
    intro n hn
    obtain ⟨m, hm, rfl⟩ := List.mem_map.mp hn
    have e : m.normalizeRestrictions.directions = m.directions := by
      rw [Monomial.directions, m.flatMap_normalizeRestrictions fun _ _ => rfl,
        m.transforms_normalizeRestrictions, Monomial.directions]
    rw [Monomial.FullDirections, e]
    exact hf m hm
  intro s c hs hc m hm
  exact (hP.form_addUp (hP.form_contract hc (hs.forall_mem hP hn)) m hm).chainsComplete

end

variable [Field K] [BEq K] [Constant K] [ExactConstant K] {d : ℕ} {C : Prop}

/-- Simplification of a form with exact constants succeeds and keeps the value, if every chain that
a round cancels is complete. -/
theorem simplify_sameValue {f : Form K} (hf : ∀ m ∈ f.monomials, m.Regular C)
    (hc : f.CancelsCompleteChains d) : ∃ g, f.simplify = .ok g ∧ SameValue d C f g := by
  have hb : f.Balanced := fun m hm => (hf m hm).balanced
  have hreg : ∀ m ∈ f.normalizeRestrictions.monomials, m.Regular C := by
    intro n hn
    obtain ⟨m, hm, rfl⟩ := List.mem_map.mp hn
    obtain ⟨hmb, hmp, hmd⟩ := hf m hm
    refine ⟨hb.normalizeRestrictions _ hn, ?_, ?_⟩
    · rw [Monomial.PrimaryArguments, Monomial.innerIndices,
        m.flatMap_normalizeRestrictions fun _ _ => rfl, m.transforms_normalizeRestrictions,
        m.coefficients_normalizeRestrictions]
      exact hmp
    · unfold Monomial.normalizeRestrictions
      split <;> exact hmd
  obtain ⟨n, -, hrun⟩ := simplify_runs hb (nonFinite?_of_exact f)
  cases hg : f.simplify with
  | error e =>
    -- all constants are finite, so no error is left
    obtain ⟨m, -, hm, -⟩ := simplify_eq_error hb (nonFinite?_of_exact f) hg
    rw [ExactConstant.isFinite_eq_true] at hm
    cases hm
  | ok g =>
    rw [hg] at hrun
    have hinv := hrun.invariant
      (P := fun s => SameValue d C f s ∧ (∀ m ∈ s.monomials, m.Regular C) ∧
        Reaches f.normalizeRestrictions s)
      (fun s t hs hst => ?_) ⟨?_, hreg, .refl⟩ rfl
    · exact ⟨g, rfl, hinv.1⟩
    · obtain ⟨hv, hr, hreach⟩ := hs
      exact ⟨hv.trans (round_sameValue hst hr fun c hcon => hc s c hreach hcon),
        round_forall_mem (Monomial.kept_regular C) hst hr, hreach.tail hst⟩
    · exact .of_eq fun v _ => v.formValue_normalizeRestrictions f

omit [ExactConstant K] in
/-- If one round leads to a form that the next one leaves as it is, there are no others. -/
theorem Reaches.eq_or_eq {f g s : Form K} (hs : Reaches f s) (hf : f.round = .ok g)
    (hg : g.round = .ok g) : s = f ∨ s = g := by
  induction hs with
  | refl => exact .inl rfl
  | tail _ hst ih =>
    rcases ih with rfl | rfl
    · rw [hf, Except.ok.injEq] at hst
      exact .inr hst.symm
    · rw [hg, Except.ok.injEq] at hst
      exact .inr hst.symm

end Form

end WeakForm
