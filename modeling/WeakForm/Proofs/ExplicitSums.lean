import Mathlib.Data.List.Sort
import WeakForm.Proofs.ContractionTest
import WeakForm.Proofs.Relabelling

/-!
# Sums that are written out

A sum over a secondary slot can be written out: one term for each value, with the value in place of
the slot (`Monomial.replaceSlot`).  Contraction puts the terms together again.  The first term takes
in one value after the other (`Monomial.InnerPair.absorb_literals`), so one sweep leaves a single
term, which sums over a fresh slot; renumbering makes it the term that has the slot
(`Form.contract_literals`).  The order of the values does not matter, since the range of a merged
index is increasing.

The slot must occur at two places that are not arguments of basis functions (`Monomial.InnerPair`):
the test before a contraction keeps terms with different arguments apart.
-/

namespace WeakForm

open Indexed

variable {K : Type}

/-! ### Lists -/

/-- The first of several elements with a property. -/
theorem exists_append_of_countP {α : Type} {p : α → Bool} {l : List α} {n : ℕ}
    (h : l.countP p = n + 1) : ∃ before x after, l = before ++ x :: after ∧ p x = true ∧
      (∀ y ∈ before, p y = false) ∧ after.countP p = n := by
  induction l with
  | nil => cases h
  | cons x l ih =>
    cases hx : p x with
    | true =>
      rw [List.countP_cons_of_pos hx, Nat.add_right_cancel_iff] at h
      exact ⟨[], x, l, rfl, hx, by simp, h⟩
    | false =>
      rw [List.countP_cons_of_neg (by simp [hx])] at h
      obtain ⟨before, y, after, rfl, hy, hbefore, hafter⟩ := ih h
      exact ⟨x :: before, y, after, rfl, hy, List.forall_mem_cons.mpr ⟨hx, hbefore⟩, hafter⟩

/-- An increasing list is determined by its members. -/
theorem eq_mergeSort {r vs : List ℕ} (hr : r.Pairwise (· < ·)) (hvs : vs.Nodup)
    (hmem : ∀ x, x ∈ r ↔ x ∈ vs) : r = vs.mergeSort := by
  have hperm : r.Perm vs.mergeSort :=
    ((List.perm_ext_iff_of_nodup (hr.imp ne_of_lt) hvs).mpr hmem).trans
      (List.mergeSort_perm vs _).symm
  exact hperm.eq_of_pairwise' (hr.imp le_of_lt) (List.pairwise_mergeSort' _ vs)

/-! ### Replacing a slot -/

/-- Replaces a slot by an index. -/
def Index.replace (s : Slot) (i x : Index) : Index :=
  if x.slot? = some s then i else x

theorem Index.rename_replace {f : SlotKind → ℕ → ℕ} (hf : ∀ k, Function.Injective (f k)) (s : Slot)
    (i x : Index) : (Index.replace s i x).rename (slotRenaming f) =
      Index.replace (s.rename f) (i.rename (slotRenaming f)) (x.rename (slotRenaming f)) := by
  have h : (x.rename (slotRenaming f)).slot? = some (s.rename f) ↔ x.slot? = some s := by
    rw [Index.slot?_rename, Option.map_eq_some_iff]
    constructor
    · rintro ⟨t, ht, hts⟩
      rw [ht, Slot.rename_injective hf hts]
    · exact fun hx => ⟨s, hx, rfl⟩
  simp only [Index.replace, h]
  split <;> rfl

namespace Monomial

/-- The monomial with an index in place of a slot. -/
def replaceSlot (s : Slot) (i : Index) (m : Monomial K) : Monomial K :=
  mapIndices (Index.replace s i) m

theorem rename_replaceSlot {f : SlotKind → ℕ → ℕ} (hf : ∀ k, Function.Injective (f k)) (s : Slot)
    (i : Index) (m : Monomial K) : (m.replaceSlot s i).rename (slotRenaming f) =
      (m.rename (slotRenaming f)).replaceSlot (s.rename f) (i.rename (slotRenaming f)) := by
  rw [replaceSlot, rename, mapIndices_mapIndices, replaceSlot, rename, mapIndices_mapIndices]
  apply mapIndices_congr
  intro x _
  exact Index.rename_replace hf s i x

/-- Which literal takes the place of a slot does not matter to the slots that remain. -/
theorem ids_replaceSlot_fixed (s : Slot) (v w : ℕ) (m : Monomial K) (k : SlotKind) :
    (m.replaceSlot s (.fixed v)).ids k = (m.replaceSlot s (.fixed w)).ids k := by
  rw [ids, replaceSlot, indices_mapIndices, List.filterMap_map, ids, replaceSlot,
    indices_mapIndices, List.filterMap_map]
  apply List.filterMap_congr
  intro x _
  simp only [Function.comp_apply, Index.replace]
  split <;> rfl

theorem nextId_replaceSlot_fixed (s : Slot) (v w : ℕ) (m : Monomial K) (k : SlotKind) :
    (m.replaceSlot s (.fixed v)).nextId k = (m.replaceSlot s (.fixed w)).nextId k := by
  rw [nextId, maxId?, ids_replaceSlot_fixed s v w, nextId, maxId?]

/-! ### Slots that are summed at two places -/

/-- A slot that occurs at two places, neither of which is the argument of a basis function. -/
structure InnerPair (m : Monomial K) (s : Slot) where
  range : List ℕ
  before : List Index
  between : List Index
  after : List Index
  indices_eq : m.indices =
    before ++ .slot s.kind s.id range :: (between ++ .slot s.kind s.id range :: after)
  notMem : ∀ x ∈ before ++ (between ++ after), x.slot? ≠ some s
  argument_ne : ∀ i ∈ m.arguments, i.slot? ≠ some s

theorem exists_innerPair {m : Monomial K} {s : Slot} (hb : m.Balanced)
    (hs : m.countIndex (some s.kind) s.id = 2) (ha : ∀ i ∈ m.arguments, i.slot? ≠ some s) :
    Nonempty (m.InnerPair s) := by
  have hp : ∀ x : Index, x.denotes (some s.kind) s.id = true ↔ x.slot? = some s := by
    intro x
    rw [Index.denotes_some, beq_iff_eq, Index.slot?_eq_some]
  have hn : ∀ x : Index, x.denotes (some s.kind) s.id = false → x.slot? ≠ some s := by
    intro x hx h
    rw [(hp x).mpr h] at hx
    cases hx
  obtain ⟨before, x, rest, hm, hx, hbefore, hrest⟩ := exists_append_of_countP hs
  obtain ⟨between, y, after, rfl, hy, hbetween, hafter⟩ := exists_append_of_countP hrest
  have hslot : ∀ x : Index, x.denotes (some s.kind) s.id = true →
      ∃ r, x = .slot s.kind s.id r := fun x h =>
    Index.idOf?_eq_some.mp (Index.slot?_eq_some.mp ((hp x).mp h))
  obtain ⟨r, rfl⟩ := hslot x hx
  obtain ⟨r', rfl⟩ := hslot y hy
  obtain rfl : r = r' := by
    refine (balancedIndices_iff.mp hb s).2 (.slot s.kind s.id r) ?_ (.slot s.kind s.id r') ?_
      rfl rfl
    · rw [hm]
      simp
    · rw [hm]
      simp
  refine ⟨⟨r, before, between, after, hm, ?_, ha⟩⟩
  intro z hz
  apply hn
  simp only [List.mem_append] at hz
  rcases hz with hz | hz | hz
  · exact hbefore z hz
  · exact hbetween z hz
  · exact Bool.eq_false_iff.mpr (List.countP_eq_zero.mp hafter z hz)

namespace InnerPair

variable {m : Monomial K} {s : Slot}

/-- The indices at the other places. -/
def others (p : m.InnerPair s) : List Index :=
  p.before ++ (p.between ++ p.after)

theorem mem_others (p : m.InnerPair s) {x : Index} (hx : x ∈ m.indices) (h : x.slot? ≠ some s) :
    x ∈ p.others := by
  have hne : x ≠ .slot s.kind s.id p.range := fun he => h (by rw [he]; rfl)
  rw [p.indices_eq] at hx
  simpa [others, hne] using hx

/-- The index is a literal, or a slot that does not occur at another place. -/
def Free (p : m.InnerPair s) (i : Index) : Prop :=
  ∀ k id, i.idOf? k = some id → ∀ x ∈ p.others, x.idOf? k ≠ some id

theorem free_fixed (p : m.InnerPair s) (v : ℕ) : p.Free (.fixed v) := by
  intro k id h
  cases h

theorem indices_replaceSlot (p : m.InnerPair s) (i : Index) :
    (m.replaceSlot s i).indices = p.before ++ i :: (p.between ++ i :: p.after) := by
  have hmap : ∀ is, is ⊆ p.others → is.map (Index.replace s i) = is := fun is his =>
    (List.map_congr_left fun x hx => if_neg (p.notMem x (his hx))).trans (List.map_id _)
  have hs : Index.replace s i (.slot s.kind s.id p.range) = i := if_pos rfl
  rw [replaceSlot, indices_mapIndices, p.indices_eq]
  simp only [List.map_append, List.map_cons, hs]
  rw [hmap p.before (by simp [others]), hmap p.between (by simp [others]),
    hmap p.after (by simp [others])]

theorem perm_replaceSlot (p : m.InnerPair s) (i : Index) :
    (m.replaceSlot s i).indices.Perm (i :: i :: p.others) := by
  rw [p.indices_replaceSlot, others, List.perm_iff_count]
  intro j
  simp only [List.count_append, List.count_cons]
  omega

theorem replaceSlot_self (p : m.InnerPair s) :
    m.replaceSlot s (.slot s.kind s.id p.range) = m := by
  have h : (m.replaceSlot s (.slot s.kind s.id p.range)).indices = m.indices := by
    rw [p.indices_replaceSlot, p.indices_eq]
  rw [replaceSlot, indices_mapIndices] at h
  rw [replaceSlot, mapIndices]
  show refill m (m.indices.map _) = m
  rw [h]
  exact Indexed.refill_indices m

theorem balanced_replaceSlot (p : m.InnerPair s) (hb : m.Balanced) {i : Index} (hi : p.Free i) :
    (m.replaceSlot s i).Balanced := by
  rw [← p.replaceSlot_self] at hb
  have hm := BalancedIndices.perm (p.perm_replaceSlot _).symm hb
  exact BalancedIndices.perm (p.perm_replaceSlot i) (hm.replace_pair hi)

theorem summedPair_replaceSlot (p : m.InnerPair s) {i : Index} (hi : p.Free i) :
    (m.replaceSlot s i).summedPair i = true := by
  cases i with
  | fixed v => rfl
  | slot k id r =>
    have h0 : p.others.countP (fun x => x.idOf? k == some id) = 0 :=
      List.countP_eq_zero.mpr fun x hx => by simpa using hi k id (by simp [Index.idOf?]) x hx
    rw [summedPair, countIndex, (p.perm_replaceSlot _).countP_eq]
    simp only [Index.isFixed, Index.kind?, Index.value, Bool.false_or, beq_iff_eq,
      Index.denotes_some, List.countP_cons, Index.idOf?, if_true, beq_self_eq_true]
    simp only [Index.idOf?] at h0
    omega

theorem arguments_replaceSlot (p : m.InnerPair s) (i : Index) :
    (m.replaceSlot s i).arguments = m.arguments := by
  rw [replaceSlot, arguments_mapIndices]
  exact (List.map_congr_left fun x hx => if_neg (p.argument_ne x hx)).trans (List.map_id _)

/-- A renaming moves the slot and keeps its places. -/
def rename (p : m.InnerPair s) {f : SlotKind → ℕ → ℕ} (hf : ∀ k, Function.Injective (f k)) :
    (m.rename (slotRenaming f)).InnerPair (s.rename f) where
  range := p.range
  before := p.before.map (Index.rename (slotRenaming f))
  between := p.between.map (Index.rename (slotRenaming f))
  after := p.after.map (Index.rename (slotRenaming f))
  indices_eq := by
    rw [Monomial.rename, indices_mapIndices, p.indices_eq]
    simp only [List.map_append, List.map_cons]
    rfl
  notMem := by
    simp only [← List.map_append]
    rw [List.forall_mem_map]
    intro x hx h
    rw [Index.slot?_rename, Option.map_eq_some_iff] at h
    obtain ⟨t, ht, hts⟩ := h
    exact p.notMem x hx (ht.trans (congrArg some (Slot.rename_injective hf hts)))
  argument_ne := by
    rw [Monomial.rename, arguments_mapIndices, List.forall_mem_map]
    intro x hx h
    rw [Index.slot?_rename, Option.map_eq_some_iff] at h
    obtain ⟨t, ht, hts⟩ := h
    exact p.argument_ne x hx (ht.trans (congrArg some (Slot.rename_injective hf hts)))

/-! ### Joining two values -/

variable [BEq K]

/-- With two free indices over disjoint ranges in place of the slot, two monomials contract. -/
def pairDifference (p : m.InnerPair s) (hc : (m.constant == m.constant) = true) {i j : Index}
    (hi : p.Free i) (hj : p.Free j) (hne : i ≠ j) (hd : i.overlaps j = false) :
    PairDifference (m.replaceSlot s i) (m.replaceSlot s j) where
  left := i
  right := j
  before := p.before
  between := p.between
  after := p.after
  constant_beq := hc
  same := by
    simp only [sameStructure, skeleton, replaceSlot, mapIndices_mapIndices]
    exact eqIgnoringConstant_refl _
  indices_left := p.indices_replaceSlot i
  indices_right := p.indices_replaceSlot j
  ne := hne
  disjoint := hd
  summed_left := p.summedPair_replaceSlot hi
  summed_right := p.summedPair_replaceSlot hj

theorem withIndex_pairDifference (p : m.InnerPair s) {hc : (m.constant == m.constant) = true}
    {i j : Index} {hi : p.Free i} {hj : p.Free j} {hne : i ≠ j} {hd : i.overlaps j = false}
    (k : Index) : (p.pairDifference hc hi hj hne hd).withIndex k = m.replaceSlot s k := by
  have hl : ∀ i, (p.before ++ i :: (p.between ++ i :: p.after)).length = m.indices.length := by
    intro i
    rw [p.indices_eq]
    simp
  have hr : ∀ i, m.replaceSlot s i = refill m (p.before ++ i :: (p.between ++ i :: p.after)) := by
    intro i
    rw [← p.indices_replaceSlot, replaceSlot, indices_mapIndices]
    rfl
  show refill (m.replaceSlot s i) (p.before ++ k :: (p.between ++ k :: p.after)) = _
  rw [hr i, hr k]
  exact refill_refill m _ _ (hl i) (hl k)

/-- A literal is taken in by an index that does not hold it yet. -/
theorem contractIfLikely_literal (p : m.InnerPair s) (hb : m.Balanced)
    (hc : (m.constant == m.constant) = true) {i : Index} (hi : p.Free i) {w : ℕ}
    (hw : w ∉ i.range) : (m.replaceSlot s i).contractIfLikely (m.replaceSlot s (.fixed w)) =
      .ok (some (m.replaceSlot s (i.merged (.fixed w)
        (max ((m.replaceSlot s i).nextId .secondary)
          ((m.replaceSlot s (.fixed w)).nextId .secondary))))) := by
  have hne : i ≠ .fixed w := by
    rintro rfl
    exact hw List.mem_cons_self
  have hd : i.overlaps (.fixed w) = false := by
    rw [Bool.eq_false_iff]
    intro h
    obtain ⟨v, hv, hvw⟩ := Index.overlaps_iff.mp h
    exact hw (List.mem_singleton.mp hvw ▸ hv)
  let d := p.pairDifference hc hi (p.free_fixed w) hne hd
  have hj : d.joined = m.replaceSlot s d.index := p.withIndex_pairDifference d.index
  have hbal : d.joined.Balanced := by
    rw [hj]
    exact p.balanced_replaceSlot hb fun k id hid => d.index_notMem hid
  rw [Monomial.contractIfLikely_eq, p.arguments_replaceSlot, p.arguments_replaceSlot, if_pos rfl,
    contract_of_pairDifference d, (imbalance?_eq_none_iff _).mpr hbal]
  exact congrArg (fun q => Except.ok (some q)) hj

/-! ### Taking in all values -/

/-- The first identifier that no slot uses once the slot is gone. -/
def fresh (_p : m.InnerPair s) : ℕ :=
  (m.replaceSlot s (.fixed 0)).nextId .secondary

omit [BEq K] in
theorem free_fresh (p : m.InnerPair s) (r : List ℕ) : p.Free (.slot .secondary p.fresh r) := by
  intro k id h x hx hxid
  obtain ⟨_, h⟩ := Index.idOf?_eq_some.mp h
  obtain ⟨rfl, rfl, -⟩ := Index.slot.inj h
  have hmem : p.fresh ∈ (m.replaceSlot s (.fixed 0)).ids .secondary := by
    refine List.mem_filterMap.mpr ⟨x, ?_, hxid⟩
    exact (p.perm_replaceSlot _).symm.subset (List.mem_cons_of_mem _ (List.mem_cons_of_mem _ hx))
  exact lt_irrefl _ (lt_nextId hmem)

/-- The term that sums over some values takes in further ones, one after the other. -/
theorem absorb_literals (p : m.InnerPair s) (hb : m.Balanced)
    (hc : (m.constant == m.constant) = true) {r ws : List ℕ} (hr : r.Pairwise (· < ·))
    (hws : ws.Nodup) (hd : ∀ w ∈ ws, w ∉ r) :
    ∃ q, absorb contractIfLikely (m.replaceSlot s (.slot .secondary p.fresh r))
        (ws.map fun w => m.replaceSlot s (.fixed w)) = .ok q ∧ q.2.val = [] ∧
      ∃ r' : List ℕ, q.1 = m.replaceSlot s (.slot .secondary p.fresh r') ∧
        r'.Pairwise (· < ·) ∧ ∀ x, x ∈ r' ↔ x ∈ r ∨ x ∈ ws := by
  induction ws generalizing r with
  | nil => exact ⟨_, rfl, rfl, r, rfl, hr, by simp⟩
  | cons w ws ih =>
    rw [List.nodup_cons] at hws
    rw [List.forall_mem_cons] at hd
    have hdisjoint : ∀ x ∈ ws, x ∉ unionRange r [w] := by
      intro x hx h
      rcases mem_unionRange.mp h with h | h
      · exact hd.2 x hx h
      · exact hws.1 (List.mem_singleton.mp h ▸ hx)
    obtain ⟨q, hq, hkept, r', hr', hsorted, hmem⟩ :=
      ih (unionRange_pairwise r [w]) hws.2 hdisjoint
    have hstep := p.contractIfLikely_literal hb hc (p.free_fresh r) (w := w) hd.1
    refine ⟨(q.1, ⟨[], Nat.zero_le _⟩), ?_, rfl, r', hr', hsorted, fun x => ?_⟩
    · simp only [Index.merged, Index.range] at hstep
      show absorb contractIfLikely _ (m.replaceSlot s (.fixed w) ::
        ws.map fun w => m.replaceSlot s (.fixed w)) = _
      simp only [absorb, hstep, hq, hkept, bind, Except.bind]
      rfl
    · rw [hmem, mem_unionRange, List.mem_singleton, List.mem_cons, or_assoc]

/-- One sweep over the terms of a sum leaves one term. -/
theorem contractPairwise_literals (p : m.InnerPair s) (hb : m.Balanced)
    (hc : (m.constant == m.constant) = true) {vs : List ℕ} (hvs : vs.Nodup) (hl : 2 ≤ vs.length) :
    contractPairwise contractIfLikely (vs.map fun v => m.replaceSlot s (.fixed v)) =
      .ok [m.replaceSlot s (.slot .secondary p.fresh vs.mergeSort)] := by
  match vs, hl with
  | v :: w :: ws, _ =>
    obtain ⟨hv, hvs'⟩ := List.nodup_cons.mp hvs
    obtain ⟨hw, hws⟩ := List.nodup_cons.mp hvs'
    have hwv : w ∉ (Index.fixed v).range := fun h =>
      hv (List.mem_singleton.mp h ▸ List.mem_cons_self)
    have hd : ∀ x ∈ ws, x ∉ unionRange [v] [w] := by
      intro x hx h
      rcases mem_unionRange.mp h with h | h
      · exact hv (List.mem_singleton.mp h ▸ List.mem_cons_of_mem _ hx)
      · exact hw (List.mem_singleton.mp h ▸ hx)
    -- the first two terms are joined along the fresh slot, which takes in the others
    have hfresh : max ((m.replaceSlot s (.fixed v)).nextId .secondary)
        ((m.replaceSlot s (.fixed w)).nextId .secondary) = p.fresh := by
      rw [nextId_replaceSlot_fixed s v 0, nextId_replaceSlot_fixed s w 0, max_self, fresh]
    have hstep := p.contractIfLikely_literal hb hc (p.free_fixed v) hwv
    rw [hfresh] at hstep
    simp only [Index.merged, Index.range] at hstep
    obtain ⟨q, hq, hkept, r, hr, hsorted, hmem⟩ :=
      p.absorb_literals hb hc (unionRange_pairwise [v] [w]) hws hd
    have hsort : r = (v :: w :: ws).mergeSort := by
      refine eq_mergeSort hsorted hvs fun x => ?_
      rw [hmem, mem_unionRange]
      simp [or_assoc]
    rw [List.map_cons, List.map_cons, contractPairwise, absorb]
    simp only [hstep, hq, bind, Except.bind, pure, Except.pure]
    rw [hkept, contractPairwise, hr, hsort]
    rfl

end InnerPair

end Monomial

/-! ### Forms -/

namespace Form

/-- An injective renaming of a single term makes no difference to its renumbering. -/
theorem renumber_rename_singleton {f : SlotKind → ℕ → ℕ} (hf : ∀ k, Function.Injective (f k))
    (m : Monomial K) :
    renumber ⟨[m.rename (slotRenaming f)]⟩ = renumber (⟨[m]⟩ : Form K) := by
  refine IsRenaming.renumber_eq ⟨f .primary, fun x _ y _ h => hf .primary h, .cons ?_ .nil⟩
  exact ⟨f, rfl, fun k x _ y _ h => hf k h, rfl⟩

/-- A summed slot may be exchanged for one that does not occur. -/
theorem renumber_replaceSlot {m : Monomial K} {id : ℕ} (p : m.InnerPair ⟨.secondary, id⟩)
    (r : List ℕ) {fresh : ℕ} (hfresh : p.Free (.slot .secondary fresh r)) :
    renumber ⟨[m.replaceSlot ⟨.secondary, id⟩ (.slot .secondary fresh r)]⟩ =
      renumber (⟨[m.replaceSlot ⟨.secondary, id⟩ (.slot .secondary id r)]⟩ : Form K) := by
  let π := Equiv.swap id fresh
  let move := Index.rename (slotRenaming (Monomial.secondaryRenaming π))
  have hkeep : ∀ x ∈ p.others, move x = x := by
    intro x hx
    cases x with
    | fixed v => rfl
    | slot k id' r' =>
      cases k with
      | primary => rfl
      | auxiliary => rfl
      | secondary =>
        have hid : id' ≠ id := fun h => p.notMem _ hx (by rw [h]; rfl)
        have hid' : id' ≠ fresh := fun h =>
          hfresh .secondary fresh rfl _ hx (by rw [h]; rfl)
        exact congrArg (Index.slot .secondary · r') (Equiv.swap_apply_of_ne_of_ne hid hid')
  have hslot : move (.slot .secondary id r) = .slot .secondary fresh r :=
    congrArg (Index.slot .secondary · r) (Equiv.swap_apply_left id fresh)
  have he : (m.replaceSlot ⟨.secondary, id⟩ (.slot .secondary id r)).renameSecondary π =
      m.replaceSlot ⟨.secondary, id⟩ (.slot .secondary fresh r) := by
    rw [Monomial.renameSecondary, Monomial.rename, Monomial.replaceSlot, mapIndices_mapIndices]
    apply mapIndices_congr
    intro x hx
    simp only [Function.comp_apply, Index.replace]
    split
    · exact hslot
    · rename_i hne
      exact hkeep x (p.mem_others hx hne)
  rw [← he, Monomial.renameSecondary,
    renumber_rename_singleton (Monomial.secondaryRenaming_injective π)]

/-- Joined in a renaming of the monomial, the sum is renumbered to the one with the slot. -/
theorem renumber_joined {m : Monomial K} {id : ℕ} (p : m.InnerPair ⟨.secondary, id⟩)
    {f : SlotKind → ℕ → ℕ} (hf : ∀ k, Function.Injective (f k)) (r : List ℕ) :
    renumber ⟨[(m.rename (slotRenaming f)).replaceSlot (Slot.rename f ⟨.secondary, id⟩)
        (.slot .secondary (p.rename hf).fresh r)]⟩ =
      renumber (⟨[m.replaceSlot ⟨.secondary, id⟩ (.slot .secondary id r)]⟩ : Form K) := by
  rw [← renumber_rename_singleton hf (m.replaceSlot _ _), m.rename_replaceSlot hf]
  exact renumber_replaceSlot (p.rename hf) r ((p.rename hf).free_fresh r)

/-- The slots are numbered in the same way in all terms of a sum. -/
theorem exists_renumber_literals (m : Monomial K) (s : Slot) (vs : List ℕ) :
    ∃ f : SlotKind → ℕ → ℕ, (∀ k, Function.Injective (f k)) ∧
      renumber ⟨vs.map fun v => m.replaceSlot s (.fixed v)⟩ =
        ⟨vs.map fun v => (m.rename (slotRenaming f)).replaceSlot (s.rename f) (.fixed v)⟩ := by
  let term (v : ℕ) : Monomial K := m.replaceSlot s (.fixed v)
  let primary := (⟨vs.map term⟩ : Form K).ids .primary
  have hinj := (term 0).numberings_injective primary
  have hsame : ∀ v, (term v).numberings primary = (term 0).numberings primary := by
    intro v
    funext k
    cases k with
    | primary => rfl
    | secondary => exact congrArg numbering (m.ids_replaceSlot_fixed s v 0 .secondary)
    | auxiliary => exact congrArg numbering (m.ids_replaceSlot_fixed s v 0 .auxiliary)
  refine ⟨(term 0).numberings primary, hinj, ?_⟩
  rw [renumber_eq_map]
  refine congrArg Form.mk ?_
  rw [List.map_map]
  apply List.map_congr_left
  intro v _
  show (term v).rename (slotRenaming ((term v).numberings primary)) = _
  rw [hsame]
  exact m.rename_replaceSlot hinj s (.fixed v)

variable [BEq K]

/-- A sum that is written out, in any order of the values, contracts to the sum over the slot. -/
theorem contract_literals (m : Monomial K) (id : ℕ) (hb : m.Balanced)
    (hc : (m.constant == m.constant) = true) (hs : m.countIndex (some .secondary) id = 2)
    (ha : ∀ i ∈ m.arguments, i.slot? ≠ some ⟨.secondary, id⟩) (vs : List ℕ) (hvs : vs.Nodup)
    (hl : 2 ≤ vs.length) :
    ∃ q, (⟨vs.map fun v => m.replaceSlot ⟨.secondary, id⟩ (.fixed v)⟩ : Form K).contract =
        .ok ⟨[q]⟩ ∧
      (⟨[m.replaceSlot ⟨.secondary, id⟩ (.slot .secondary id vs.mergeSort)]⟩ : Form K).contract =
        .ok ⟨[q]⟩ := by
  obtain ⟨p⟩ := Monomial.exists_innerPair (s := ⟨.secondary, id⟩) hb hs ha
  obtain ⟨f, hf, hrenumber⟩ := exists_renumber_literals m ⟨.secondary, id⟩ vs
  refine ⟨_, ?_, contract_singleton _⟩
  generalize hterms : (⟨vs.map fun v => m.replaceSlot ⟨.secondary, id⟩ (.fixed v)⟩ : Form K) = terms
    at hrenumber ⊢
  have honce : terms.contractOnce = .ok ⟨[(m.rename (slotRenaming f)).replaceSlot
      (Slot.rename f ⟨.secondary, id⟩)
        (.slot .secondary (p.rename hf).fresh vs.mergeSort)]⟩ := by
    rw [contractOnce, hrenumber, (p.rename hf).contractPairwise_literals (hb.rename hf) hc hvs hl]
    rfl
  have hsize : 1 < terms.size := by
    rw [← hterms, size, List.length_map]
    omega
  rw [Form.contract, honce]
  refine (if_pos hsize).trans ?_
  rw [contract_singleton, renumber_joined p hf]
  rfl

/-- The three physical directions of the tetrahedron, the last one first. -/
theorem contract_literals_chainTerm :
    let t := chainTerm (0.5 : Float) .tetrahedron 0
    let m : Monomial Float := { t with
      transforms := t.transforms.map fun t => { t with physical := .slot .secondary 5 [0, 1, 2] } }
    let s : Slot := ⟨.secondary, 5⟩
    (m.imbalance? = none ∧ (m.constant == m.constant) = true ∧
      m.countIndex (some .secondary) 5 = 2 ∧ ∀ i ∈ m.arguments, i.slot? ≠ some s) ∧
    ∃ q, (⟨[2, 0, 1].map fun v => m.replaceSlot s (.fixed v)⟩ : Form Float).contract = .ok ⟨[q]⟩ ∧
      (⟨[m.replaceSlot s (.slot .secondary 5 [2, 0, 1].mergeSort)]⟩ : Form Float).contract =
        .ok ⟨[q]⟩ := by
  intro t m s
  have hb : m.imbalance? = none := rfl
  have hc : (m.constant == m.constant) = true := by decide +kernel
  have hs : m.countIndex (some .secondary) 5 = 2 := by decide
  have ha : ∀ i ∈ m.arguments, i.slot? ≠ some s := by decide
  exact ⟨⟨hb, hc, hs, ha⟩, contract_literals m 5 ((Monomial.imbalance?_eq_none_iff m).mp hb) hc hs
    ha [2, 0, 1] (by decide) (by decide)⟩

end Form

end WeakForm
