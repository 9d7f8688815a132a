import Mathlib.Data.List.Perm.Basic
import WeakForm.Factorization
import WeakForm.Proofs.Relabelling

/-!
# Relabelling to equal hard signatures

Monomials with equal soft signatures have, up to the order of their basis functions, the same
indices but for the identifiers of secondary slots.  If none of these slots occurs twice within the
basis functions, the identifiers correspond one to one, and a permutation makes the hard signatures
equal (`Monomial.exists_hardSignature_eq`).

`Monomial.reorderTo` tries all permutations of the secondary slots of its two monomials, so it
finds one, provided that both have equally many slots (`Monomial.exists_reorderTo`).
-/

namespace WeakForm

open Indexed

/-! ### Lists of indices -/

/-- Indices that look the same softly become equal if their secondary slots are renamed to each
other. -/
theorem map_rename_eq {π : ℕ → ℕ} {is js : List Index}
    (h : js.map IndexSignature.soft = is.map IndexSignature.soft)
    (hid : (js.filterMap (Index.idOf? .secondary)).map π = is.filterMap (Index.idOf? .secondary)) :
    js.map (Index.rename (slotRenaming (Monomial.secondaryRenaming π))) = is := by
  induction js generalizing is with
  | nil =>
    cases is with
    | nil => rfl
    | cons i is => cases h
  | cons j js ih =>
    cases is with
    | nil => cases h
    | cons i is =>
      rw [List.map_cons, List.map_cons, List.cons.injEq] at h
      obtain ⟨hji, h⟩ := h
      -- either both are secondary with the same range, or they are equal
      by_cases hk : ∃ x r y, j = .slot .secondary x r ∧ i = .slot .secondary y r
      · obtain ⟨x, r, y, rfl, rfl⟩ := hk
        simp only [List.filterMap_cons, Index.idOf?, if_pos, List.map_cons, List.cons.injEq] at hid
        rw [List.map_cons, ih h hid.2, ← hid.1]
        rfl
      · have hj : j = i ∧ i.idOf? .secondary = none ∧
            i.rename (slotRenaming (Monomial.secondaryRenaming π)) = i := by
          cases i with
          | fixed v =>
            cases j with
            | fixed w => exact ⟨IndexSignature.exact.inj hji, rfl, rfl⟩
            | slot l y s => cases l <;> cases hji
          | slot k x r =>
            cases j with
            | fixed w => cases k <;> cases hji
            | slot l y s =>
              cases k <;> cases l <;>
                first
                | exact ⟨IndexSignature.exact.inj hji, rfl, rfl⟩
                | cases hji
              exact absurd ⟨_, _, _, rfl, rfl⟩ hk
        obtain ⟨rfl, hnone, hfix⟩ := hj
        simp only [List.filterMap_cons, hnone] at hid
        rw [List.map_cons, ih h hid, hfix]

/-- The number of secondary slots is seen softly. -/
theorem length_ids_of_soft {is js : List Index}
    (h : js.map IndexSignature.soft = is.map IndexSignature.soft) :
    (js.filterMap (Index.idOf? .secondary)).length =
      (is.filterMap (Index.idOf? .secondary)).length := by
  have key : ∀ is : List Index, (is.filterMap (Index.idOf? .secondary)).length =
      (is.map IndexSignature.soft).countP (·.value?.isNone) := by
    intro is
    rw [List.countP_map, List.length_filterMap_eq_countP]
    refine List.countP_congr fun i _ => ?_
    cases i with
    | fixed v => simp [Index.idOf?, IndexSignature.soft, IndexSignature.value?]
    | slot k id r => cases k <;> simp [Index.idOf?, IndexSignature.soft, IndexSignature.value?]
  rw [key, key, h]

/-! ### Lists of basis functions -/

/-- The identifiers of the slots of one kind in basis functions, in order of the indices. -/
def slotIds (vs : List BasisFunction) (k : SlotKind) : List ℕ :=
  (indices vs).filterMap (Index.idOf? k)

theorem slotIds_cons (v : BasisFunction) (vs : List BasisFunction) (k : SlotKind) :
    slotIds (v :: vs) k = (indices v).filterMap (Index.idOf? k) ++ slotIds vs k := by
  rw [slotIds, indices_list, List.flatMap_cons, List.filterMap_append]
  rfl

theorem slotIds_perm {vs ws : List BasisFunction} (h : vs.Perm ws) (k : SlotKind) :
    (slotIds vs k).Perm (slotIds ws k) :=
  (h.flatMap_right _).filterMap _

theorem slotIds_subset (m : Monomial K) (k : SlotKind) :
    slotIds m.basisFunctions k ⊆ m.ids k := by
  rw [Monomial.ids, Monomial.indices_eq, List.filterMap_append]
  exact List.subset_append_left _ _

/-- Basis functions that look the same softly have indices that do. -/
theorem soft_indices {vs ws : List BasisFunction}
    (h : ws.map (BasisFunctionSignature.ofBasisFunction .soft) =
      vs.map (BasisFunctionSignature.ofBasisFunction .soft)) :
    (indices ws).map IndexSignature.soft = (indices vs).map IndexSignature.soft := by
  induction ws generalizing vs with
  | nil =>
    cases vs with
    | nil => rfl
    | cons v vs => cases h
  | cons w ws ih =>
    cases vs with
    | nil => cases h
    | cons v vs =>
      rw [List.map_cons, List.map_cons, List.cons.injEq,
        BasisFunctionSignature.ofBasisFunction_eq_iff] at h
      simp only [indices_list, List.flatMap_cons, List.map_append] at ih ⊢
      rw [h.1.2.2.2, ih h.2]

open BasisFunctionSignature in
/-- Basis functions that look the same softly look the same exactly if their secondary slots are
renamed to each other. -/
theorem map_exact_rename {π : ℕ → ℕ} {vs ws : List BasisFunction}
    (h : ws.map (ofBasisFunction .soft) = vs.map (ofBasisFunction .soft))
    (hid : (slotIds ws .secondary).map π = slotIds vs .secondary) :
    (ws.map (mapIndices (Index.rename (slotRenaming (Monomial.secondaryRenaming π))))).map
      (ofBasisFunction .exact) = vs.map (ofBasisFunction .exact) := by
  induction ws generalizing vs with
  | nil =>
    cases vs with
    | nil => rfl
    | cons v vs => cases h
  | cons w ws ih =>
    cases vs with
    | nil => cases h
    | cons v vs =>
      rw [List.map_cons, List.map_cons, List.cons.injEq, ofBasisFunction_eq_iff] at h
      obtain ⟨⟨he, hr, hc, hi⟩, h⟩ := h
      rw [slotIds_cons, slotIds_cons, List.map_append] at hid
      obtain ⟨hw, hws⟩ := List.append_inj hid (by rw [List.length_map, length_ids_of_soft hi])
      simp only [List.map_cons]
      rw [ih h hws]
      congr 1
      rw [ofBasisFunction_eq_iff, Indexed.indices_mapIndices, map_rename_eq hi hw,
        mapIndices_basisFunction]
      exact ⟨he, hr, by rw [List.length_map, hc], rfl⟩

namespace Monomial

variable {K : Type} {p q q' : Monomial K}

/-- If no secondary slot occurs twice within basis functions, equal soft signatures become equal
hard signatures under a permutation of the identifiers below `n`. -/
theorem exists_hardSignature_eq {n : ℕ} (h : p.softSignature = q.softSignature)
    (hp : (slotIds p.basisFunctions .secondary).Nodup)
    (hq : (slotIds q.basisFunctions .secondary).Nodup)
    (hpn : ∀ id ∈ slotIds p.basisFunctions .secondary, id < n)
    (hqn : ∀ id ∈ slotIds q.basisFunctions .secondary, id < n) :
    ∃ targets : List ℕ, targets.Perm (List.range n) ∧
      (q.renameSecondary fun id => targets.getD id id).hardSignature = p.hardSignature := by
  obtain ⟨hi, hperm⟩ := signature_eq_iff.mp h
  -- the basis functions of `q` in the order of those of `p`
  obtain ⟨ws, hws, hwq⟩ : Relation.Comp
      (· = List.map (BasisFunctionSignature.ofBasisFunction .soft) ·) List.Perm
      (p.basisFunctions.map (BasisFunctionSignature.ofBasisFunction .soft)) q.basisFunctions := by
    rw [List.eq_map_comp_perm]
    exact hperm
  have hids := slotIds_perm hwq .secondary
  have hlen : (slotIds p.basisFunctions .secondary).length = (slotIds ws .secondary).length :=
    length_ids_of_soft (soft_indices hws)
  obtain ⟨targets, ht, hmap⟩ := exists_relabelling hp (hids.nodup_iff.mpr hq) hlen hpn
    fun id hid => hqn id (hids.subset hid)
  refine ⟨targets, ht, signature_eq_iff.mpr ⟨hi.symm, ?_⟩⟩
  rw [basisFunctions_renameSecondary, ← map_exact_rename hws.symm hmap]
  exact (hwq.symm.map _).map _

/-! ### The search -/

end Monomial

theorem findSome?_congr {α β : Type} {f g : α → Option β} {l : List α}
    (h : ∀ a ∈ l, f a = g a) : l.findSome? f = l.findSome? g := by
  induction l with
  | nil => rfl
  | cons a l ih =>
    rw [List.forall_mem_cons] at h
    rw [List.findSome?_cons, List.findSome?_cons, h.1, ih h.2]

namespace Monomial

variable {K : Type} {p q q' : Monomial K}

/-- Every secondary slot below the largest one occurs. -/
def Numbered (m : Monomial K) : Prop :=
  ∀ id < m.nextId .secondary, id ∈ m.ids .secondary

theorem missingSecondary?_eq_none_iff {m : Monomial K} {n : ℕ} :
    m.missingSecondary? n = none ↔ ∀ id < n, id ∈ m.ids .secondary := by
  simp [missingSecondary?, List.find?_eq_none]

/-- The second monomial with its secondary slots moved to the given targets, if that gives it the
hard signature of the first one. -/
def matched? (p q : Monomial K) (targets : List ℕ) : Option (Monomial K) :=
  let renamed := q.moveSecondary targets
  if renamed.hardSignature = p.hardSignature then some renamed else none

theorem matched?_eq_some {targets : List ℕ} : p.matched? q targets = some q' ↔
    q' = q.moveSecondary targets ∧ q'.hardSignature = p.hardSignature := by
  rw [matched?, Option.ite_none_right_eq_some, Option.some.injEq]
  constructor
  · rintro ⟨h, rfl⟩
    exact ⟨rfl, h⟩
  · rintro ⟨rfl, h⟩
    exact ⟨h, rfl⟩

/-- A permutation of the secondary slots of a monomial is carried out by moves. -/
theorem moveSecondary_eq_of_perm {targets : List ℕ}
    (ht : targets.Perm (List.range (q.nextId .secondary))) :
    q.moveSecondary targets = q.renameSecondary fun id => targets.getD id id := by
  have hlen : targets.length = q.nextId .secondary := by rw [ht.length_eq, List.length_range]
  refine moveSecondary_eq (fun t hmem => ?_) fun id hid => ?_
  · rw [hlen]
    exact List.mem_range.mp (ht.subset hmem)
  · rw [hlen]
    exact lt_nextId hid

/-- What the search makes of what it has found. -/
def foundOr (p q : Monomial K) (found : Option (Monomial K)) : Except (FormError K) (Monomial K) :=
  found.elim (.error (.invariant (.noRelabelling p q))) .ok

variable [Enumeration]

theorem reorderTo_of_ne (h : p.nextId .secondary ≠ q.nextId .secondary) :
    p.reorderTo q = .error (.invariant (.secondaryCountsDiffer p q)) :=
  if_pos h

/-- Without secondary slots there is one arrangement, which moves nothing. -/
theorem reorderTo_of_eq_zero (hp : p.nextId .secondary = 0) (hq : q.nextId .secondary = 0) :
    p.reorderTo q = p.foundOr q (p.matched? q []) := by
  have hmove : q.moveSecondary [] = q := rfl
  have hmissing : q.missingSecondary? 0 = none := rfl
  unfold reorderTo
  simp only [hp, hq, ne_eq, not_true_eq_false, if_false, true_and, hmissing,
    Enumeration.firstPermutation?_eq, Enumeration.permutations_zero, List.findSome?_cons,
    List.findSome?_nil, false_and, matched?, hmove]
  split <;> rfl

theorem reorderTo_of_ne_zero (h : p.nextId .secondary = q.nextId .secondary)
    (h0 : q.nextId .secondary ≠ 0) (hq : q.Numbered) :
    p.reorderTo q = p.foundOr q
      ((arrangements (q.nextId .secondary) (List.range (q.nextId .secondary))).findSome?
        (p.matched? q)) := by
  have hmatched : ∀ targets ∈ arrangements (q.nextId .secondary)
      (List.range (q.nextId .secondary)), p.matched? q targets =
        if targets ≠ [] ∧ (q.moveSecondary targets).hardSignature = p.hardSignature then
          some (q.moveSecondary targets)
        else none := by
    intro targets ht
    have hlen := ((mem_arrangements List.length_range).mp ht).length_eq
    have hne : targets ≠ [] := by
      rintro rfl
      rw [List.length_range] at hlen
      exact h0 hlen.symm
    simp only [matched?, hne, ne_eq, not_false_eq_true, true_and]
  unfold reorderTo
  simp only [h, ne_eq, not_true_eq_false, if_false, h0, false_and,
    missingSecondary?_eq_none_iff.mpr hq, Enumeration.firstPermutation?_eq,
    Enumeration.permutations_eq]
  rw [findSome?_congr hmatched]
  cases List.findSome? _ _ <;> rfl

theorem reorderTo_of_eq (h : p.nextId .secondary = q.nextId .secondary) (hq : q.Numbered) :
    p.reorderTo q = p.foundOr q
      ((arrangements (q.nextId .secondary) (List.range (q.nextId .secondary))).findSome?
        (p.matched? q)) := by
  by_cases h0 : q.nextId .secondary = 0
  · rw [reorderTo_of_eq_zero (h.trans h0) h0, h0, arrangements, List.findSome?_cons,
      List.findSome?_nil]
    cases p.matched? q [] <;> rfl
  · exact reorderTo_of_ne_zero h h0 hq

/-- The search succeeds if both monomials have equally many secondary slots, all of which occur in
the second one, and if one of the permutations leads to the hard signature of the first one. -/
theorem reorderTo_eq_ok_iff : p.reorderTo q = .ok q' ↔
    p.nextId .secondary = q.nextId .secondary ∧ q.Numbered ∧
      (arrangements (q.nextId .secondary) (List.range (q.nextId .secondary))).findSome?
        (p.matched? q) = some q' := by
  constructor
  · intro h
    have hn : p.nextId .secondary = q.nextId .secondary := by
      by_contra hne
      rw [reorderTo_of_ne hne] at h
      cases h
    have hq : q.Numbered := by
      refine missingSecondary?_eq_none_iff.mp ?_
      by_cases h0 : q.nextId .secondary = 0
      · rw [h0]
        rfl
      unfold reorderTo at h
      simp only [hn, ne_eq, not_true_eq_false, if_false, h0, false_and] at h
      cases hm : q.missingSecondary? (q.nextId .secondary) with
      | none => rfl
      | some id =>
        rw [hm] at h
        cases h
    rw [reorderTo_of_eq hn hq, foundOr] at h
    refine ⟨hn, hq, ?_⟩
    generalize List.findSome? _ _ = found at h
    cases found with
    | some renamed => exact congrArg some (Except.ok.inj h)
    | none => cases h
  · rintro ⟨hn, hq, hfind⟩
    rw [reorderTo_of_eq hn hq, hfind]
    rfl

/-- The result of the search is the second monomial with its secondary slots permuted, and it has
the hard signature of the first one. -/
theorem reorderTo_eq_ok (h : p.reorderTo q = .ok q') :
    p.nextId .secondary = q.nextId .secondary ∧ q'.hardSignature = p.hardSignature ∧
      q.IsRelabelling q' := by
  obtain ⟨hn, -, hfind⟩ := reorderTo_eq_ok_iff.mp h
  obtain ⟨targets, ht, hr⟩ := List.exists_of_findSome?_eq_some hfind
  obtain ⟨rfl, hhard⟩ := matched?_eq_some.mp hr
  have hperm := (mem_arrangements List.length_range).mp ht
  exact ⟨hn, hhard, moveSecondary_eq_of_perm hperm ▸ .of_perm hperm⟩

/-- The search succeeds if there is a permutation to be found. -/
theorem exists_reorderTo (hn : p.nextId .secondary = q.nextId .secondary) (hq : q.Numbered)
    {targets : List ℕ} (ht : targets.Perm (List.range (q.nextId .secondary)))
    (h : (q.renameSecondary fun id => targets.getD id id).hardSignature = p.hardSignature) :
    ∃ q', p.reorderTo q = .ok q' := by
  rw [← moveSecondary_eq_of_perm ht] at h
  have hmatched : p.matched? q targets = some (q.moveSecondary targets) :=
    matched?_eq_some.mpr ⟨rfl, h⟩
  have hsome : ((arrangements (q.nextId .secondary) (List.range (q.nextId .secondary))).findSome?
      (p.matched? q)).isSome = true :=
    List.findSome?_isSome_iff.mpr ⟨targets, (mem_arrangements List.length_range).mpr ht, by
      rw [hmatched, Option.isSome_some]⟩
  obtain ⟨q', hq'⟩ := Option.isSome_iff_exists.mp hsome
  exact ⟨q', reorderTo_eq_ok_iff.mpr ⟨hn, hq, hq'⟩⟩

end Monomial

end WeakForm
