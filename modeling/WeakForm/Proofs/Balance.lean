import WeakForm.Proofs.Chains
import WeakForm.Proofs.Contraction
import WeakForm.Proofs.Pairwise
import WeakForm.Proofs.Renumbering

/-!
# The summation convention under rewriting

Whether a monomial is balanced depends on the list of its indices only (`BalancedIndices`), and not
on their order.  It is kept when indices are taken away (`BalancedIndices.subperm`), when slots are
renamed injectively (`BalancedIndices.map_rename`), and when both occurrences of an index are
replaced by a slot that does not occur elsewhere (`BalancedIndices.replace_pair`).  The passes of
the simplifier do nothing else: cancellation of chains takes indices away, renumbering renames, and
contraction replaces a pair.
-/

namespace WeakForm

open Indexed

/-- No slot occurs more than twice in the list, or with two ranges. -/
def BalancedIndices (is : List Index) : Prop :=
  ∀ k id, (is.filter fun i => i.idOf? k == some id).length ≤ 2 ∧
    ∀ i ∈ is.filter fun i => i.idOf? k == some id,
      ∀ j ∈ is.filter fun i => i.idOf? k == some id, i.range = j.range

theorem Monomial.balanced_iff {K : Type} {m : Monomial K} :
    m.Balanced ↔ BalancedIndices m.indices := Iff.rfl

theorem Index.idOf?_eq_some {i : Index} {k : SlotKind} {id : ℕ} :
    i.idOf? k = some id ↔ ∃ r, i = .slot k id r := by
  cases i with
  | slot l id' r =>
    by_cases h : l = k
    · subst h
      simp [Index.idOf?]
    · simp [Index.idOf?, h]
  | fixed v => simp [Index.idOf?]

theorem Index.range_rename (f : SlotKind → ℕ → ℕ) (i : Index) :
    (i.rename (slotRenaming f)).range = i.range := by
  cases i <;> rfl

/-! ### Lists of indices -/

namespace BalancedIndices

theorem subperm {is js : List Index} (h : js.Subperm is) (hi : BalancedIndices is) :
    BalancedIndices js := by
  intro k id
  have hf := h.filter fun i => i.idOf? k == some id
  obtain ⟨h1, h2⟩ := hi k id
  exact ⟨hf.length_le.trans h1, fun i hi j hj => h2 i (hf.subset hi) j (hf.subset hj)⟩

theorem perm {is js : List Index} (h : js.Perm is) (hi : BalancedIndices is) :
    BalancedIndices js :=
  hi.subperm h.subperm

/-- The occurrences of a renamed slot are those of the slot. -/
theorem filter_map_rename {f : SlotKind → ℕ → ℕ} (hf : ∀ k, Function.Injective (f k))
    (is : List Index) (k : SlotKind) (id : ℕ) :
    (is.map (Index.rename (slotRenaming f))).filter (fun i => i.idOf? k == some (f k id)) =
      (is.filter fun i => i.idOf? k == some id).map (Index.rename (slotRenaming f)) := by
  rw [List.filter_map]
  congr 1
  apply List.filter_congr
  intro i _
  rw [Function.comp_apply, Index.idOf?_rename, Bool.eq_iff_iff, beq_iff_eq, beq_iff_eq]
  cases i.idOf? k with
  | none => simp
  | some x => simp [slotRenaming, (hf k).eq_iff]

theorem map_rename {is : List Index} {f : SlotKind → ℕ → ℕ} (hf : ∀ k, Function.Injective (f k))
    (hi : BalancedIndices is) : BalancedIndices (is.map (Index.rename (slotRenaming f))) := by
  intro k id
  by_cases hid : ∃ id', f k id' = id
  · obtain ⟨id', rfl⟩ := hid
    obtain ⟨h1, h2⟩ := hi k id'
    rw [filter_map_rename hf, List.length_map]
    refine ⟨h1, fun i' hi' j' hj' => ?_⟩
    obtain ⟨i, hi, rfl⟩ := List.mem_map.mp hi'
    obtain ⟨j, hj, rfl⟩ := List.mem_map.mp hj'
    rw [Index.range_rename, Index.range_rename, h2 i hi j hj]
  · -- a slot outside the image of the renaming does not occur
    have e : (is.map (Index.rename (slotRenaming f))).filter
        (fun i => i.idOf? k == some id) = [] := by
      rw [List.filter_map, List.map_eq_nil_iff]
      refine List.filter_eq_nil_iff.mpr fun i _ h => hid ?_
      rw [Function.comp_apply, Index.idOf?_rename, beq_iff_eq, Option.map_eq_some_iff] at h
      exact ⟨h.choose, h.choose_spec.2⟩
    simp [e]

theorem of_map_rename {is : List Index} {f : SlotKind → ℕ → ℕ} (hf : ∀ k, Function.Injective (f k))
    (hi : BalancedIndices (is.map (Index.rename (slotRenaming f)))) : BalancedIndices is := by
  intro k id
  obtain ⟨h1, h2⟩ := hi k (f k id)
  rw [filter_map_rename hf] at h1 h2
  rw [List.length_map] at h1
  refine ⟨h1, fun i hi j hj => ?_⟩
  have := h2 _ (List.mem_map_of_mem hi) _ (List.mem_map_of_mem hj)
  rwa [Index.range_rename, Index.range_rename] at this

/-- Two occurrences of a slot are all of them. -/
theorem pair {i j : Index} {rest : List Index} (h : BalancedIndices (i :: j :: rest))
    {k : SlotKind} {id : ℕ} (hi : i.idOf? k = some id) (hj : j.idOf? k = some id) :
    ∀ x ∈ rest, x.idOf? k ≠ some id := by
  intro x hx hxid
  have hle := (h k id).1
  have hpos : 0 < (rest.filter fun i => i.idOf? k == some id).length :=
    List.length_pos_of_mem (List.mem_filter.mpr ⟨hx, by simp [hxid]⟩)
  simp only [List.filter_cons, hi, hj, beq_self_eq_true, if_true, List.length_cons] at hle
  omega

/-- Both occurrences of an index may be replaced by a slot that occurs nowhere else. -/
theorem replace_pair {i j : Index} {rest : List Index} (hi : BalancedIndices (i :: i :: rest))
    (hj : ∀ k id, j.idOf? k = some id → ∀ x ∈ rest, x.idOf? k ≠ some id) :
    BalancedIndices (j :: j :: rest) := by
  have hrest : BalancedIndices rest :=
    hi.subperm ((List.sublist_cons_self i rest).trans (List.sublist_cons_self i _)).subperm
  intro k id
  by_cases h : j.idOf? k = some id
  · have e : rest.filter (fun x => x.idOf? k == some id) = [] :=
      List.filter_eq_nil_iff.mpr fun x hx => by simpa using hj k id h x hx
    simp [h, e]
  · have e : (j :: j :: rest).filter (fun x => x.idOf? k == some id) =
        rest.filter fun x => x.idOf? k == some id := by simp [h]
    rw [e]
    exact hrest k id

end BalancedIndices

/-! ### Monomials -/

namespace Monomial

variable {K : Type}

theorem Balanced.rename {m : Monomial K} {f : SlotKind → ℕ → ℕ}
    (hf : ∀ k, Function.Injective (f k)) (h : m.Balanced) :
    (m.rename (slotRenaming f)).Balanced := by
  rw [balanced_iff, Monomial.rename, indices_mapIndices]
  exact BalancedIndices.map_rename hf h

theorem CancelStep.balanced {P : Index → Transform → Transform → Prop} {m n : Monomial K}
    (hs : CancelStep P m n) (h : m.Balanced) : n.Balanced := by
  obtain ⟨l, s, t, others, hm, hn⟩ := hs.indices_perm
  have hsub : (t.reference :: others).Subperm
      (l :: s.reference :: s.physical :: t.reference :: t.physical :: others) := by
    apply List.Sublist.subperm
    refine .cons _ (.cons _ (.cons _ (.cons_cons _ (.cons _ (List.Sublist.refl _)))))
  exact BalancedIndices.subperm (hn.subperm.trans (hsub.trans hm.symm.subperm)) h

theorem Balanced.simplifyDerivatives {m : Monomial K} (h : m.Balanced) :
    m.simplifyDerivatives.Balanced :=
  simplifyDerivatives_keeps (fun _ _ hs => hs.balanced) h

/-- Normalization changes restrictions of basis functions only. -/
theorem flatMap_normalizeRestrictions {β : Type} {g : BasisFunction → List β}
    (hg : ∀ v r, g { v with restriction := r } = g v) (m : Monomial K) :
    m.normalizeRestrictions.basisFunctions.flatMap g = m.basisFunctions.flatMap g := by
  unfold normalizeRestrictions
  split
  · simp only [List.flatMap_map]
    apply List.flatMap_congr
    intro v _
    split
    · exact hg v .plus
    · rfl
  · rfl

theorem transforms_normalizeRestrictions (m : Monomial K) :
    m.normalizeRestrictions.transforms = m.transforms := by
  unfold normalizeRestrictions
  split <;> rfl

theorem coefficients_normalizeRestrictions (m : Monomial K) :
    m.normalizeRestrictions.coefficients = m.coefficients := by
  unfold normalizeRestrictions
  split <;> rfl

theorem indices_normalizeRestrictions (m : Monomial K) :
    m.normalizeRestrictions.indices = m.indices := by
  rw [indices_eq, indices_list,
    m.flatMap_normalizeRestrictions fun v r => by simp only [indices_basisFunction],
    transforms_normalizeRestrictions, coefficients_normalizeRestrictions]
  rfl

theorem lt_nextId {m : Monomial K} {k : SlotKind} {id : ℕ} (h : id ∈ m.ids k) :
    id < m.nextId k := by
  unfold nextId maxId?
  cases hm : (m.ids k).max? with
  | none =>
    rw [List.max?_eq_none_iff] at hm
    rw [hm] at h
    cases h
  | some x =>
    have := List.le_max?_get_of_mem h
    simp only [hm, Option.get_some] at this
    exact Nat.lt_succ_of_le this

end Monomial

theorem Index.denotes_some {i : Index} {k : SlotKind} {id : ℕ} :
    i.denotes (some k) id = (i.idOf? k == some id) := by
  cases i with
  | slot l id' r =>
    by_cases h : l = k
    · subst h
      simp [Index.denotes, Index.kind?, Index.value, Index.idOf?]
    · simp [Index.denotes, Index.kind?, Index.value, Index.idOf?, h]
  | fixed v => simp [Index.denotes, Index.kind?, Index.idOf?]

theorem Index.sameSlot_iff_idOf? {i j : Index} {k : SlotKind} {id : ℕ} (hj : j.idOf? k = some id) :
    i.sameSlot j = true ↔ i.idOf? k = some id := by
  obtain ⟨r, rfl⟩ := Index.idOf?_eq_some.mp hj
  have h : i.sameSlot (.slot k id r) = (i.idOf? k == some id) := Index.denotes_some
  rw [h, beq_iff_eq]

namespace PairDifference

variable {K : Type} [BEq K] {m n : Monomial K}

theorem perm_withIndex (d : PairDifference m n) (i : Index) :
    (d.withIndex i).indices.Perm (i :: i :: (d.before ++ (d.between ++ d.after))) := by
  rw [indices_withIndex, List.perm_iff_count]
  intro j
  simp only [List.count_append, List.count_cons]
  omega

theorem perm_indices (d : PairDifference m n) :
    m.indices.Perm (d.left :: d.left :: (d.before ++ (d.between ++ d.after))) := by
  have := d.perm_withIndex d.left
  rwa [d.withIndex_left] at this

/-- The two places of the difference are the only ones of its slot. -/
theorem left_notMem (d : PairDifference m n) {k : SlotKind} {id : ℕ}
    (h : d.left.idOf? k = some id) :
    ∀ x ∈ d.before ++ (d.between ++ d.after), x.idOf? k ≠ some id := by
  intro x hx hid
  obtain ⟨r, hl⟩ := Index.idOf?_eq_some.mp h
  have hc := d.summed_left
  rw [hl, Monomial.summedPair, Monomial.countIndex, d.perm_indices.countP_eq, hl] at hc
  simp only [Index.isFixed, Index.kind?, Index.value, Bool.false_or, beq_iff_eq,
    Index.denotes_some, List.countP_cons, Index.idOf?, if_true, beq_self_eq_true] at hc
  have h0 : (d.before ++ (d.between ++ d.after)).countP (fun i => i.idOf? k == some id) = 0 := by
    simp only [Index.idOf?]
    omega
  exact List.countP_eq_zero.mp h0 x hx (by simp [hid])

/-- The merged index is a slot. -/
theorem exists_idOf?_index (d : PairDifference m n) : ∃ k id, d.index.idOf? k = some id := by
  rw [index]
  cases d.left with
  | slot k id r => exact ⟨k, id, if_pos rfl⟩
  | fixed v => exact ⟨.secondary, max (m.nextId .secondary) (n.nextId .secondary), rfl⟩

/-- The merged index denotes a slot that occurs in the monomial at most at the two places of the
difference. -/
theorem index_notMem (d : PairDifference m n) {k : SlotKind} {id : ℕ}
    (h : d.index.idOf? k = some id) :
    ∀ x ∈ d.before ++ (d.between ++ d.after), x.idOf? k ≠ some id := by
  cases hl : d.left with
  | slot l id' r =>
    rw [index, hl] at h
    obtain ⟨_, h⟩ := Index.idOf?_eq_some.mp h
    obtain ⟨rfl, rfl, -⟩ := Index.slot.inj h
    exact d.left_notMem (by rw [hl]; simp [Index.idOf?])
  | fixed v =>
    -- a literal is replaced by a slot beyond all that occur
    intro x hx hid
    have hmem : id ∈ m.ids k :=
      List.mem_filterMap.mpr ⟨x, d.perm_indices.symm.subset (by simp [hx]), hid⟩
    rw [index, hl] at h
    obtain ⟨_, h⟩ := Index.idOf?_eq_some.mp h
    obtain ⟨rfl, rfl, -⟩ := Index.slot.inj h
    have := Monomial.lt_nextId hmem
    omega

theorem balanced_joined (d : PairDifference m n) (h : m.Balanced) : d.joined.Balanced := by
  have hm : BalancedIndices (d.left :: d.left :: (d.before ++ (d.between ++ d.after))) :=
    BalancedIndices.perm d.perm_indices.symm h
  exact BalancedIndices.perm (d.perm_withIndex d.index)
    (hm.replace_pair fun k id hid => d.index_notMem hid)

end PairDifference

namespace Monomial

variable {K : Type} [BEq K]

/-- Contraction of a balanced monomial never fails, and its result is balanced. -/
theorem Balanced.contract {m : Monomial K} (h : m.Balanced) (n : Monomial K) :
    ∃ r, m.contract n = .ok r ∧ ∀ q, r = some q → q.Balanced := by
  obtain ⟨hn, -⟩ | ⟨d, hd⟩ := m.contract_eq n
  · exact ⟨none, hn, by simp⟩
  · have hq := d.balanced_joined h
    rw [(imbalance?_eq_none_iff _).mpr hq] at hd
    refine ⟨_, hd, fun q hq' => ?_⟩
    rw [Option.some.injEq] at hq'
    exact hq' ▸ hq

theorem Balanced.contractIfLikely {m : Monomial K} (h : m.Balanced) (n : Monomial K) :
    ∃ r, m.contractIfLikely n = .ok r ∧ ∀ q, r = some q → q.Balanced := by
  unfold Monomial.contractIfLikely
  split
  · exact h.contract n
  · exact ⟨none, rfl, by simp⟩

end Monomial

/-! ### Forms -/

namespace Form

variable {K : Type}

/-- Every monomial keeps the summation convention. -/
def Balanced (f : Form K) : Prop :=
  ∀ m ∈ f.monomials, m.Balanced

theorem imbalance?_eq_none_iff (f : Form K) : f.imbalance? = none ↔ f.Balanced := by
  rw [imbalance?, List.findSome?_eq_none_iff]
  simp only [Prod.forall, Option.map_eq_none_iff, Monomial.imbalance?_eq_none_iff]
  constructor
  · intro h m hm
    obtain ⟨p, hp, rfl⟩ := List.mem_iff_getElem.mp hm
    exact h _ p (List.mk_mem_zipIdx_iff_getElem?.mpr (List.getElem?_eq_getElem hp))
  · intro h m p hm
    exact h m (List.mem_of_getElem? (List.mk_mem_zipIdx_iff_getElem?.mp hm))

theorem Balanced.renumber {f : Form K} (h : f.Balanced) : f.renumber.Balanced := by
  rw [renumber_eq_map]
  intro n hn
  obtain ⟨m, hm, rfl⟩ := List.mem_map.mp hn
  exact (h m hm).rename (m.numberings_injective _)

theorem Balanced.normalizeRestrictions {f : Form K} (h : f.Balanced) :
    f.normalizeRestrictions.Balanced := by
  intro n hn
  obtain ⟨m, hm, rfl⟩ := List.mem_map.mp hn
  rw [Monomial.balanced_iff, Monomial.indices_normalizeRestrictions]
  exact h m hm

variable [BEq K]

/-- One sweep of contraction over a balanced form succeeds and keeps it balanced. -/
theorem Balanced.contractOnce {f : Form K} (h : f.Balanced) :
    ∃ g, f.contractOnce = .ok g ∧ g.Balanced := by
  have hc : ∀ a b : Monomial K, a.Balanced → b.Balanced →
      ∃ r, a.contractIfLikely b = .ok r ∧ ∀ c, r = some c → c.Balanced :=
    fun a b ha _ => ha.contractIfLikely b
  obtain ⟨result, hr⟩ := contractPairwise_total hc h.renumber
  refine ⟨⟨result⟩, by simp only [Form.contractOnce, hr, bind, Except.bind]; rfl, ?_⟩
  refine (contractPairwise_ok hr).forall_mem ?_ h.renumber
  intro a b c ha hb habc
  obtain ⟨r, hr, hbal⟩ := hc a b ha hb
  rw [hr, Except.ok.injEq] at habc
  exact hbal c habc

/-- Contraction of a balanced form never fails, and its result is balanced. -/
theorem Balanced.contract {f : Form K} (h : f.Balanced) :
    ∃ g, f.contract = .ok g ∧ g.Balanced := by
  obtain ⟨g, hg, hb⟩ := h.contractOnce
  rw [Form.contract, hg]
  by_cases hlt : g.size < f.size
  · simp only [hlt, if_true]
    exact hb.contract
  · simp only [hlt, if_false]
    exact ⟨g, rfl, hb⟩
termination_by f.size

end Form

end WeakForm
