import WeakForm.Proofs.Reordering
import WeakForm.Proofs.SlotSums

/-!
# Marked forms

Marking takes away from the secondary slots of the basis functions those that are summed within
them (`Monomial.slotIds_markAuxiliary`).  In a balanced monomial, no other secondary slot occurs
twice within them, so the secondary slots that are left there are distinct
(`Monomial.nodup_markAuxiliary`).  Renumbering leaves no gaps (`Monomial.numbered_renumber`).

Both properties hold for all monomials of a marked form (`Form.marked_of_markAuxiliary`), and they
are what the search for a relabelling needs: it fails only for monomials with different numbers of
secondary slots (`Monomial.Marked.exists_reorderTo`).
-/

namespace WeakForm

open Indexed

theorem indices_map_mapIndices {α : Type} [Indexed α] (f : Index → Index) (as : List α) :
    indices (as.map (mapIndices f)) = (indices as).map f := by
  rw [← mapIndices_list, Indexed.indices_mapIndices]

namespace Monomial

variable {K : Type} {m p q : Monomial K}

/-! ### Marking -/

/-- What marking makes of an index: the slots in the list become auxiliary, with identifiers from
`next` on, as far as the machine word goes. -/
def markIndex (sums : List ℕ) (next : ℕ) : Index → Index
  | .slot .secondary id r =>
    if sums.contains id then .slot .auxiliary (wrap (next + sums.idxOf id)) r
    else .slot .secondary id r
  | i => i

theorem markAuxiliary_eq (m : Monomial K) :
    m.markAuxiliary = mapIndices (markIndex m.internalSums (m.nextId .auxiliary)) m := by
  apply mapIndices_congr
  intro i _
  cases i with
  | fixed v => rfl
  | slot k id r => cases k <;> rfl

theorem filterMap_markIndex (sums : List ℕ) (next : ℕ) (is : List Index) :
    (is.map (markIndex sums next)).filterMap (Index.idOf? .secondary) =
      (is.filterMap (Index.idOf? .secondary)).filter fun id => !sums.contains id := by
  rw [List.filterMap_map, List.filter_filterMap]
  refine List.filterMap_congr fun i _ => ?_
  cases i with
  | fixed v => rfl
  | slot k id r =>
    cases k with
    | primary | auxiliary => rfl
    | secondary =>
      simp only [Function.comp_apply, markIndex]
      split_ifs with h
      · simp only [Index.idOf?, reduceCtorEq, if_false, if_true, Option.filter_some, h,
          Bool.not_true, Bool.false_eq_true]
      · simp only [Index.idOf?, if_true, Option.filter_some, h, Bool.not_false]

theorem slotIds_markAuxiliary (m : Monomial K) :
    slotIds m.markAuxiliary.basisFunctions .secondary =
      (slotIds m.basisFunctions .secondary).filter fun id => !m.internalSums.contains id := by
  rw [markAuxiliary_eq, mapIndices_eq, slotIds, indices_map_mapIndices, filterMap_markIndex,
    slotIds]

/-- What marking makes of a slot. -/
def markSlot (sums : List ℕ) (next : ℕ) (s : Slot) : Slot :=
  if s.kind = .secondary ∧ s.id ∈ sums then ⟨.auxiliary, wrap (next + sums.idxOf s.id)⟩ else s

theorem slot?_markIndex (sums : List ℕ) (next : ℕ) (i : Index) :
    (markIndex sums next i).slot? = i.slot?.map (markSlot sums next) := by
  cases i with
  | fixed v => rfl
  | slot k id r =>
    cases k with
    | primary | auxiliary => rfl
    | secondary =>
      simp only [markIndex, List.contains_eq_mem, decide_eq_true_eq]
      split_ifs with h
      · simp [Index.slot?, markSlot, h]
      · simp [Index.slot?, markSlot, h]

theorem range_markIndex (sums : List ℕ) (next : ℕ) (i : Index) :
    (markIndex sums next i).range = i.range := by
  cases i with
  | fixed v => rfl
  | slot k id r =>
    cases k with
    | primary | auxiliary => rfl
    | secondary =>
      simp only [markIndex]
      split_ifs <;> rfl

/-- The identifiers of the new auxiliary slots are machine words. -/
def FitsMarking (m : Monomial K) : Prop :=
  m.nextId .auxiliary + m.internalSums.length ≤ wordSize

/-- Marked slots get identifiers that do not occur, if these are machine words. -/
theorem FitsMarking.markSlot_injOn (hfit : m.FitsMarking) :
    Set.InjOn (markSlot m.internalSums (m.nextId .auxiliary))
      {s | ∃ i ∈ m.indices, i.slot? = some s} := by
  have hwrap : ∀ id ∈ m.internalSums,
      wrap (m.nextId .auxiliary + m.internalSums.idxOf id) =
        m.nextId .auxiliary + m.internalSums.idxOf id := by
    intro id hid
    have := List.idxOf_lt_length_of_mem hid
    exact wrap_eq_of_lt (lt_of_lt_of_le (by omega) hfit)
  have hlt : ∀ s ∈ {s | ∃ i ∈ m.indices, i.slot? = some s}, s.kind = .auxiliary →
      s.id < m.nextId .auxiliary := by
    rintro s ⟨i, hi, his⟩ hk
    rw [Index.slot?_eq_some, hk] at his
    exact lt_nextId (List.mem_filterMap.mpr ⟨i, hi, his⟩)
  rintro ⟨k, x⟩ hs ⟨l, y⟩ ht h
  have hx := hlt _ hs
  have hy := hlt _ ht
  dsimp only at hx hy
  simp only [markSlot] at h
  split_ifs at h with h1 h2 h2
  · rw [hwrap x h1.2, hwrap y h2.2, Slot.mk.injEq, Nat.add_left_cancel_iff] at h
    rw [h1.1, h2.1, (List.idxOf_inj h1.2).mp h.2]
  · rw [hwrap x h1.2] at h
    obtain ⟨rfl, rfl⟩ := Slot.mk.inj h
    have := hy rfl
    omega
  · rw [hwrap y h2.2] at h
    obtain ⟨rfl, rfl⟩ := Slot.mk.inj h
    have := hx rfl
    omega
  · exact h

/-- Marking keeps a monomial balanced. -/
theorem Balanced.markAuxiliary (h : m.Balanced) (hfit : m.FitsMarking) :
    m.markAuxiliary.Balanced := by
  rw [balanced_iff, markAuxiliary_eq, indices_mapIndices]
  exact BalancedIndices.map h (fun i _ => slot?_markIndex _ _ i) (fun i _ => range_markIndex _ _ i)
    hfit.markSlot_injOn

theorem numBasisFunctionIndices_eq (m : Monomial K) :
    m.numBasisFunctionIndices = (Indexed.indices m.basisFunctions).length := by
  rw [Product.numBasisFunctionIndices, indices_list]
  induction m.basisFunctions with
  | nil => rfl
  | cons v vs ih =>
    rw [List.map_cons, total_cons, ih, List.flatMap_cons, List.length_append, indices_basisFunction,
      List.length_cons, List.length_append, List.length_map, BasisFunction.numIndices]
    omega

theorem mem_internalSums {id : ℕ} : id ∈ m.internalSums ↔
    (slotIds m.basisFunctions .secondary).count id = 2 ∧
      (m.ids .secondary).count id = 2 := by
  have hids : m.ids .secondary = slotIds m.basisFunctions .secondary ++
      (Indexed.indices m.transforms ++ Indexed.indices m.coefficients).filterMap
        (Index.idOf? .secondary) := by
    rw [ids, indices_eq, List.filterMap_append, slotIds]
  rw [internalSums, numBasisFunctionIndices_eq, hids, indices_eq, List.take_left, List.drop_left,
    List.mem_filter, List.mem_eraseDups, ← slotIds, List.count_append]
  simp only [Bool.and_eq_true, beq_iff_eq, Bool.not_eq_true', List.contains_eq_mem,
    decide_eq_false_iff_not, ← List.count_pos_iff]
  omega

/-- No slot occurs more than twice in a balanced monomial. -/
theorem Balanced.count_ids_le (h : m.Balanced) (k : SlotKind) (id : ℕ) :
    (m.ids k).count id ≤ 2 := by
  refine le_of_eq_of_le ?_ (h k id).1
  rw [ids, List.count_filterMap, occurrences, List.countP_eq_length_filter]

theorem nodup_markAuxiliary (h : m.Balanced) :
    (slotIds m.markAuxiliary.basisFunctions .secondary).Nodup := by
  rw [slotIds_markAuxiliary, List.nodup_iff_count_le_one]
  intro id
  by_cases hid : id ∈ m.internalSums
  · rw [List.count_eq_zero_of_not_mem fun hmem => by simp [hid] at hmem]
    exact Nat.zero_le 1
  · have hle : ((slotIds m.basisFunctions .secondary).filter fun id =>
        !m.internalSums.contains id).count id ≤ (slotIds m.basisFunctions .secondary).count id :=
      List.filter_sublist.count_le id
    have hsub : (slotIds m.basisFunctions .secondary).count id ≤ (m.ids .secondary).count id := by
      rw [ids, indices_eq, List.filterMap_append, List.count_append]
      exact Nat.le_add_right _ _
    have h2 := h.count_ids_le .secondary id
    rw [mem_internalSums] at hid
    omega

/-! ### Renumbering -/

/-- Places are numbered without gaps. -/
theorem numbered_renumber (primary : List ℕ) (m : Monomial K) :
    (m.renumber primary.eraseDups).Numbered := by
  intro id hid
  have hids : (m.renumber primary.eraseDups).ids .secondary =
      (m.ids .secondary).map (place (m.ids .secondary)) := by
    rw [renumber_eq_places, ids_rename]
    rfl
  rw [hids]
  have hlt : id < (m.ids .secondary).eraseDups.length := by
    rw [nextId, maxId?, hids] at hid
    cases hmax : ((m.ids .secondary).map (place (m.ids .secondary))).max? with
    | none =>
      rw [hmax] at hid
      cases hid
    | some x =>
      rw [hmax] at hid
      obtain ⟨y, hy, rfl⟩ := List.mem_map.mp (List.max?_mem hmax)
      exact Nat.lt_of_lt_of_le hid (List.idxOf_lt_length_of_mem (List.mem_eraseDups.mpr hy))
  exact List.mem_map.mpr (exists_place_eq hlt)

theorem slotIds_rename (m : Monomial K) (f : Option SlotKind → ℕ → ℕ) (k : SlotKind) :
    slotIds (m.rename f).basisFunctions k = (slotIds m.basisFunctions k).map (f (some k)) := by
  rw [rename, mapIndices_eq, slotIds, indices_map_mapIndices, List.filterMap_map, slotIds,
    List.map_filterMap]
  exact List.filterMap_congr fun i _ => Index.idOf?_rename f k i

theorem nodup_renumber {primary : List ℕ} (h : (slotIds m.basisFunctions .secondary).Nodup) :
    (slotIds (m.renumber primary.eraseDups).basisFunctions .secondary).Nodup := by
  rw [renumber_eq_places, slotIds_rename]
  exact (List.nodup_map_iff_inj_on h).mpr fun x hx y _ hxy =>
    place_injOn (slotIds_subset m .secondary hx) hxy

/-! ### Marked monomials -/

/-- The secondary slots are numbered without gaps, and none of them occurs twice within basis
functions. -/
structure Marked (m : Monomial K) : Prop where
  numbered : m.Numbered
  nodup : (slotIds m.basisFunctions .secondary).Nodup

/-- Equal soft signatures of marked monomials become equal hard signatures under a permutation of
secondary slots. -/
theorem Marked.exists_hardSignature_eq (hp : p.Marked) (hq : q.Marked)
    (h : p.softSignature = q.softSignature) : ∃ π : Equiv.Perm ℕ,
      (q.renameSecondary π).hardSignature = p.hardSignature := by
  obtain ⟨targets, ht, hhard⟩ := Monomial.exists_hardSignature_eq
    (n := max (p.nextId .secondary) (q.nextId .secondary)) h hp.nodup hq.nodup
    (fun id hid => (lt_nextId (slotIds_subset p .secondary hid)).trans_le (Nat.le_max_left _ _))
    (fun id hid => (lt_nextId (slotIds_subset q .secondary hid)).trans_le (Nat.le_max_right _ _))
  have hlen := ht.length_eq
  rw [List.length_range] at hlen
  exact ⟨relabelling targets (hlen ▸ ht), hhard⟩

/-- The search for a relabelling of marked monomials succeeds if both have equally many secondary
slots. -/
theorem Marked.exists_reorderTo [Enumeration] (hp : p.Marked) (hq : q.Marked)
    (h : p.softSignature = q.softSignature) (hn : p.nextId .secondary = q.nextId .secondary) :
    ∃ q', p.reorderTo q = .ok q' := by
  obtain ⟨targets, ht, hhard⟩ := Monomial.exists_hardSignature_eq h hp.nodup hq.nodup
    (fun id hid => hn ▸ lt_nextId (slotIds_subset p .secondary hid))
    (fun id hid => lt_nextId (slotIds_subset q .secondary hid))
  exact Monomial.exists_reorderTo hn hq.numbered ht hhard

end Monomial

namespace Form

variable {K : Type} {f g : Form K}

/-- Marking accepts exactly the balanced forms. -/
theorem markAuxiliary_eq_ok :
    f.markAuxiliary = .ok g ↔ f.Balanced ∧ g = (f.map Monomial.markAuxiliary).renumber := by
  have hb : f.monomials.findSome? Monomial.imbalance? = none ↔ f.Balanced := by
    simp only [List.findSome?_eq_none_iff, Monomial.imbalance?_eq_none_iff, Balanced]
  unfold markAuxiliary
  split
  · rename_i hsome
    rw [← hb, hsome]
    simp
  · rename_i hnone
    rw [Except.ok.injEq, eq_comm]
    exact ⟨fun h => ⟨hb.mp hnone, h⟩, And.right⟩

/-- The identifiers of the new auxiliary slots of all monomials are machine words. -/
def FitsMarking (f : Form K) : Prop :=
  ∀ m ∈ f.monomials, m.FitsMarking

/-- Marked forms are balanced. -/
theorem balanced_of_markAuxiliary (hfit : f.FitsMarking) (h : f.markAuxiliary = .ok g) :
    g.Balanced := by
  obtain ⟨hb, rfl⟩ := markAuxiliary_eq_ok.mp h
  refine Balanced.renumber fun n hn => ?_
  obtain ⟨m, hm, rfl⟩ := List.mem_map.mp hn
  exact (hb m hm).markAuxiliary (hfit m hm)

theorem constant_ne_zero_of_markAuxiliary [Zero K] (hm : f.markAuxiliary = .ok g)
    (hc : ∀ m ∈ f.monomials, m.constant ≠ 0) : ∀ m ∈ g.monomials, m.constant ≠ 0 := by
  obtain ⟨-, rfl⟩ := markAuxiliary_eq_ok.mp hm
  intro n hn
  obtain ⟨m', hm', rfl⟩ := List.mem_map.mp hn
  obtain ⟨m, hm, rfl⟩ := List.mem_map.mp hm'
  exact hc m hm

theorem marked_of_markAuxiliary (h : f.markAuxiliary = .ok g) : ∀ m ∈ g.monomials, m.Marked := by
  obtain ⟨hb, rfl⟩ := markAuxiliary_eq_ok.mp h
  intro n hn
  obtain ⟨m', hm', rfl⟩ := List.mem_map.mp hn
  obtain ⟨m, hm, rfl⟩ := List.mem_map.mp hm'
  exact ⟨Monomial.numbered_renumber _ _,
    Monomial.nodup_renumber (Monomial.nodup_markAuxiliary (hb m hm))⟩

end Form

end WeakForm
