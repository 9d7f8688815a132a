import Mathlib.Algebra.BigOperators.Group.Finset.Sigma
import Mathlib.Algebra.BigOperators.Ring.Finset
import Mathlib.Data.List.Dedup
import WeakForm.Proofs.Balance

/-!
# Sums over slots

An assignment gives each slot a value.  `sumOver` sums a function of assignments over the values of
the slots of a list, one slot after the other; the order of the slots does not matter
(`sumOver_perm`), and the value that the assignment had at these slots before does not either
(`sumOver_congr`).

Which slots of a list of indices are summed, and over which values, depends on the indices that
occur in it only (`summedSlots`, `slotValues`).
-/

namespace WeakForm

/-- A slot without its values. -/
structure Slot where
  kind : SlotKind
  id : ℕ
deriving DecidableEq

namespace Slot

/-- Primary slots are the axes of a form, the others are summed. -/
def isSummed (s : Slot) : Bool :=
  s.kind != .primary

def rename (f : SlotKind → ℕ → ℕ) (s : Slot) : Slot :=
  ⟨s.kind, f s.kind s.id⟩

theorem rename_injective {f : SlotKind → ℕ → ℕ} (hf : ∀ k, Function.Injective (f k)) :
    Function.Injective (rename f) := by
  rintro ⟨k, id⟩ ⟨l, id'⟩ h
  simp only [rename, Slot.mk.injEq] at h
  obtain ⟨rfl, h⟩ := h
  rw [hf k h]

end Slot

namespace Index

def slot? : Index → Option Slot
  | slot k id _ => some ⟨k, id⟩
  | fixed _ => none

/-- The value of the index under an assignment. -/
def valueIn (a : Slot → ℕ) : Index → ℕ
  | slot k id _ => a ⟨k, id⟩
  | fixed v => v

/-- Replaces a slot by a value. -/
def subst (s : Slot) (x : ℕ) (i : Index) : Index :=
  if i.slot? = some s then .fixed x else i

theorem slot?_eq_some {i : Index} {s : Slot} : i.slot? = some s ↔ i.idOf? s.kind = some s.id := by
  cases i with
  | slot k id r =>
    obtain ⟨l, id'⟩ := s
    by_cases h : k = l
    · simp [slot?, idOf?, h]
    · simp [slot?, idOf?, h]
  | fixed v => simp [slot?, idOf?]

theorem sameSlot_iff_slot? {i j : Index} {s : Slot} (hj : j.slot? = some s) :
    i.sameSlot j = true ↔ i.slot? = some s :=
  (sameSlot_iff_idOf? (slot?_eq_some.mp hj)).trans slot?_eq_some.symm

theorem sameSlot_of_rename {f : SlotKind → ℕ → ℕ} (hf : ∀ k, Function.Injective (f k))
    {i j : Index}
    (h : (i.rename (slotRenaming f)).sameSlot (j.rename (slotRenaming f)) = true) :
    i.sameSlot j = true := by
  rw [sameSlot_iff] at h ⊢
  obtain ⟨hk, hv⟩ := h
  cases i with
  | slot k id r =>
    cases j with
    | slot l id' r' =>
      obtain rfl : k = l := Option.some.inj hk
      exact ⟨rfl, hf k hv⟩
    | fixed w => cases hk
  | fixed v =>
    cases j with
    | slot l id r => cases hk
    | fixed w => exact ⟨rfl, hv⟩

theorem slot?_rename (f : SlotKind → ℕ → ℕ) (i : Index) :
    (i.rename (slotRenaming f)).slot? = i.slot?.map (Slot.rename f) := by
  cases i <;> rfl

theorem valueIn_rename (f : SlotKind → ℕ → ℕ) (a : Slot → ℕ) (i : Index) :
    (i.rename (slotRenaming f)).valueIn a = i.valueIn (a ∘ Slot.rename f) := by
  cases i <;> rfl

theorem subst_of_ne {s : Slot} {x : ℕ} {i : Index} (h : i.slot? ≠ some s) : i.subst s x = i :=
  if_neg h

theorem subst_of_eq {s : Slot} {x : ℕ} {i : Index} (h : i.slot? = some s) :
    i.subst s x = .fixed x :=
  if_pos h

theorem slot?_subst {s t : Slot} {x : ℕ} {i : Index} :
    (i.subst s x).slot? = some t ↔ i.slot? = some t ∧ t ≠ s := by
  by_cases h : i.slot? = some s
  · rw [subst_of_eq h, h]
    simp only [slot?, Option.some.injEq, false_iff, reduceCtorEq, not_and, not_not]
    exact Eq.symm
  · rw [subst_of_ne h]
    refine ⟨fun hi => ⟨hi, ?_⟩, fun hi => hi.1⟩
    rintro rfl
    exact h hi

theorem valueIn_update (a : Slot → ℕ) (s : Slot) (x : ℕ) (i : Index) :
    i.valueIn (Function.update a s x) = (i.subst s x).valueIn a := by
  cases i with
  | slot k id r =>
    by_cases h : (⟨k, id⟩ : Slot) = s
    · subst h
      simp [valueIn, subst, slot?]
    · simp [valueIn, subst, slot?, h]
  | fixed v => rfl

end Index

/-! ### Sums -/

section
variable {M : Type} [AddCommMonoid M]

/-- The sum over the values of the slots of a list. -/
def sumOver (range : Slot → Finset ℕ) : List Slot → ((Slot → ℕ) → M) → (Slot → ℕ) → M
  | [], F, a => F a
  | s :: ss, F, a => ∑ x ∈ range s, sumOver range ss F (Function.update a s x)

theorem sumOver_cons (range : Slot → Finset ℕ) (s : Slot) (ss : List Slot) (F : (Slot → ℕ) → M)
    (a : Slot → ℕ) :
    sumOver range (s :: ss) F a = ∑ x ∈ range s, sumOver range ss F (Function.update a s x) := rfl

theorem sumOver_perm (range : Slot → Finset ℕ) {ss ts : List Slot} (h : ss.Perm ts)
    (F : (Slot → ℕ) → M) (a : Slot → ℕ) : sumOver range ss F a = sumOver range ts F a := by
  induction h generalizing a with
  | nil => rfl
  | cons s _ ih => exact Finset.sum_congr rfl fun x _ => ih _
  | swap s t ss =>
    by_cases hst : s = t
    · rw [hst]
    · simp only [sumOver_cons]
      rw [Finset.sum_comm]
      refine Finset.sum_congr rfl fun x _ => Finset.sum_congr rfl fun y _ => ?_
      rw [Function.update_comm hst]
  | trans _ _ ih₁ ih₂ => rw [ih₁, ih₂]

/-- Sums agree if the ranges do and the summands do wherever they are evaluated, that is at
assignments that agree outside the slots of the list. -/
theorem sumOver_congr {range range' : Slot → Finset ℕ} {ss : List Slot} {F G : (Slot → ℕ) → M}
    {a b : Slot → ℕ} (hr : ∀ s ∈ ss, range s = range' s)
    (hFG : ∀ c d : Slot → ℕ, (∀ s ∈ ss, c s = d s) → (∀ s, s ∉ ss → c s = a s ∧ d s = b s) →
      F c = G d) :
    sumOver range ss F a = sumOver range' ss G b := by
  induction ss generalizing a b with
  | nil => exact hFG a b (by simp) (by simp)
  | cons s ss ih =>
    rw [List.forall_mem_cons] at hr
    rw [sumOver_cons, sumOver_cons, hr.1]
    refine Finset.sum_congr rfl fun x _ => ih hr.2 fun c d hcd hab => hFG c d ?_ ?_
    · intro t ht
      by_cases hts : t ∈ ss
      · exact hcd t hts
      · obtain rfl : t = s := (List.mem_cons.mp ht).resolve_right hts
        rw [(hab t hts).1, (hab t hts).2, Function.update_self, Function.update_self]
    · intro t ht
      rw [List.mem_cons, not_or] at ht
      have := hab t ht.2
      rwa [Function.update_of_ne ht.1, Function.update_of_ne ht.1] at this

/-- Renaming the slots of a sum is reading the assignment through the renaming. -/
theorem sumOver_map {range range' : Slot → Finset ℕ} {ρ : Slot → Slot}
    (hρ : Function.Injective ρ) {ss : List Slot} (hr : ∀ s ∈ ss, range' (ρ s) = range s)
    (F : (Slot → ℕ) → M) (a : Slot → ℕ) :
    sumOver range' (ss.map ρ) (fun b => F (b ∘ ρ)) a = sumOver range ss F (a ∘ ρ) := by
  induction ss generalizing a with
  | nil => rfl
  | cons s ss ih =>
    rw [List.forall_mem_cons] at hr
    rw [List.map_cons, sumOver_cons, sumOver_cons, hr.1]
    apply Finset.sum_congr rfl
    intro x _
    rw [ih hr.2, Function.update_comp_eq_of_injective a hρ]

end

theorem mul_sumOver {R : Type} [NonUnitalNonAssocSemiring R] (c : R) (range : Slot → Finset ℕ)
    (ss : List Slot) (F : (Slot → ℕ) → R) (a : Slot → ℕ) :
    sumOver range ss (fun b => c * F b) a = c * sumOver range ss F a := by
  induction ss generalizing a with
  | nil => rfl
  | cons s ss ih =>
    rw [sumOver_cons, sumOver_cons, Finset.mul_sum]
    exact Finset.sum_congr rfl fun x _ => ih _

/-! ### Slots of a list of indices -/

/-- The slots of a list of indices that are summed, each once. -/
def summedSlots (is : List Index) : List Slot :=
  ((is.filterMap Index.slot?).filter Slot.isSummed).dedup

/-- The values of a slot in a list of indices. -/
def slotValues (is : List Index) (s : Slot) : Finset ℕ :=
  ((is.filter fun i => i.slot? == some s).flatMap Index.range).toFinset

theorem nodup_summedSlots (is : List Index) : (summedSlots is).Nodup :=
  List.nodup_dedup _

theorem mem_summedSlots {is : List Index} {s : Slot} :
    s ∈ summedSlots is ↔ (∃ i ∈ is, i.slot? = some s) ∧ s.isSummed = true := by
  simp [summedSlots]

theorem mem_slotValues {is : List Index} {s : Slot} {x : ℕ} :
    x ∈ slotValues is s ↔ ∃ i ∈ is, i.slot? = some s ∧ x ∈ i.range := by
  simp [slotValues, and_assoc]

theorem balancedIndices_iff {is : List Index} : BalancedIndices is ↔ ∀ s : Slot,
    (is.filter fun i => i.slot? == some s).length ≤ 2 ∧
      ∀ i ∈ is, ∀ j ∈ is, i.slot? = some s → j.slot? = some s → i.range = j.range := by
  have hslot : ∀ (k : SlotKind) (id : ℕ) (i : Index),
      (i.idOf? k == some id) = (i.slot? == some ⟨k, id⟩) := fun k id i => by
    rw [Bool.eq_iff_iff, beq_iff_eq, beq_iff_eq, Index.slot?_eq_some]
  have hrange : ∀ s : Slot,
      (∀ i ∈ is.filter fun i => i.slot? == some s, ∀ j ∈ is.filter fun i => i.slot? == some s,
        i.range = j.range) ↔
      ∀ i ∈ is, ∀ j ∈ is, i.slot? = some s → j.slot? = some s → i.range = j.range := by
    intro s
    simp only [List.mem_filter, beq_iff_eq]
    exact ⟨fun h i hi j hj his hjs => h i ⟨hi, his⟩ j ⟨hj, hjs⟩,
      fun h i hi j hj => h i hi.1 j hj.1 hi.2 hj.2⟩
  simp only [BalancedIndices, hslot, ← hrange]
  exact ⟨fun h s => h s.kind s.id, fun h k id => h ⟨k, id⟩⟩

/-- Slots may be replaced if those that occur remain distinct. -/
theorem BalancedIndices.map {is : List Index} {f : Index → Index} {ρ : Slot → Slot}
    (h : BalancedIndices is) (hf : ∀ i ∈ is, (f i).slot? = i.slot?.map ρ)
    (hr : ∀ i ∈ is, (f i).range = i.range)
    (hρ : Set.InjOn ρ {s | ∃ i ∈ is, i.slot? = some s}) : BalancedIndices (is.map f) := by
  rw [balancedIndices_iff] at h ⊢
  intro t
  by_cases ht : ∃ s, (∃ i ∈ is, i.slot? = some s) ∧ ρ s = t
  · obtain ⟨s, hs, rfl⟩ := ht
    have hiff : ∀ i ∈ is, (f i).slot? = some (ρ s) ↔ i.slot? = some s := by
      intro i hi
      rw [hf i hi, Option.map_eq_some_iff]
      constructor
      · rintro ⟨s', hs', heq⟩
        rw [hs', hρ ⟨i, hi, hs'⟩ hs heq]
      · exact fun his => ⟨s, his, rfl⟩
    have hfilter : (is.map f).filter (fun i => i.slot? == some (ρ s)) =
        (is.filter fun i => i.slot? == some s).map f := by
      rw [List.filter_map]
      refine congrArg _ (List.filter_congr fun i hi => ?_)
      rw [Function.comp_apply, Bool.eq_iff_iff, beq_iff_eq, beq_iff_eq, hiff i hi]
    rw [hfilter, List.length_map]
    refine ⟨(h s).1, List.forall_mem_map.mpr fun i hi => List.forall_mem_map.mpr fun j hj => ?_⟩
    rw [hiff i hi, hiff j hj, hr i hi, hr j hj]
    exact (h s).2 i hi j hj
  · -- a slot that is not the image of one that occurs does not occur
    have hne : ∀ i ∈ is.map f, i.slot? ≠ some t := by
      refine List.forall_mem_map.mpr fun i hi hit => ht ?_
      rw [hf i hi, Option.map_eq_some_iff] at hit
      obtain ⟨s, hs, hst⟩ := hit
      exact ⟨s, ⟨i, hi, hs⟩, hst⟩
    have hfilter : (is.map f).filter (fun i => i.slot? == some t) = [] :=
      List.filter_eq_nil_iff.mpr fun i hi => by simpa using hne i hi
    rw [hfilter]
    exact ⟨Nat.zero_le 2, fun i hi j _ his => absurd his (hne i hi)⟩

/-- Two occurrences of a slot in a balanced list are all of them. -/
theorem BalancedIndices.slot?_ne {i j : Index} {rest : List Index}
    (h : BalancedIndices (i :: j :: rest)) {s : Slot} (hi : i.slot? = some s)
    (hj : j.slot? = some s) : ∀ x ∈ rest, x.slot? ≠ some s := by
  rw [Index.slot?_eq_some] at hi hj
  intro x hx hxs
  exact h.pair hi hj x hx (Index.slot?_eq_some.mp hxs)

/-- All occurrences of a slot have one range. -/
def RangesAgree (is : List Index) : Prop :=
  ∀ i ∈ is, ∀ j ∈ is, i.sameSlot j = true → i.range = j.range

theorem BalancedIndices.rangesAgree {is : List Index} (h : BalancedIndices is) :
    RangesAgree is := by
  intro i hi j hj hij
  cases j with
  | slot k id r =>
    have hid : i.idOf? k = some id :=
      (Index.sameSlot_iff_idOf? (Index.idOf?_eq_some.mpr ⟨r, rfl⟩)).mp hij
    exact (h k id).2 i (List.mem_filter.mpr ⟨hi, by simp [hid]⟩) _
      (List.mem_filter.mpr ⟨hj, by simp [Index.idOf?]⟩)
  | fixed v =>
    cases i with
    | slot k id r => cases (Index.sameSlot_iff.mp hij).1
    | fixed u =>
      obtain rfl : u = v := (Index.sameSlot_iff.mp hij).2
      rfl

theorem Monomial.Balanced.rangesAgree {K : Type} {m : Monomial K} (h : m.Balanced) :
    RangesAgree m.indices :=
  BalancedIndices.rangesAgree h

theorem RangesAgree.rename {is : List Index} (h : RangesAgree is) {f : SlotKind → ℕ → ℕ}
    (hf : ∀ k, Function.Injective (f k)) :
    RangesAgree (is.map (Index.rename (slotRenaming f))) := by
  simp only [RangesAgree, List.forall_mem_map, Index.range_rename]
  exact fun i hi j hj hij => h i hi j hj (Index.sameSlot_of_rename hf hij)

/-- So every occurrence of a slot has all its values. -/
theorem slotValues_eq {is : List Index} (h : RangesAgree is) {i : Index} (hi : i ∈ is)
    {s : Slot} (hs : i.slot? = some s) : slotValues is s = i.range.toFinset := by
  ext x
  rw [mem_slotValues, List.mem_toFinset]
  constructor
  · rintro ⟨j, hj, hjs, hx⟩
    rwa [h i hi j hj ((Index.sameSlot_iff_slot? hjs).mpr hs)]
  · intro hx
    exact ⟨i, hi, hs, hx⟩

theorem mem_summedSlots_subst {is : List Index} {s t : Slot} {x : ℕ} :
    t ∈ summedSlots (is.map (Index.subst s x)) ↔ t ∈ summedSlots is ∧ t ≠ s := by
  simp only [mem_summedSlots, List.mem_map, exists_exists_and_eq_and, Index.slot?_subst]
  constructor
  · rintro ⟨⟨i, hi, hit, hts⟩, ht⟩
    exact ⟨⟨⟨i, hi, hit⟩, ht⟩, hts⟩
  · rintro ⟨⟨⟨i, hi, hit⟩, ht⟩, hts⟩
    exact ⟨⟨i, hi, hit, hts⟩, ht⟩

theorem slotValues_subst {is : List Index} {s t : Slot} {x : ℕ} (h : t ≠ s) :
    slotValues (is.map (Index.subst s x)) t = slotValues is t := by
  ext y
  simp only [mem_slotValues, List.mem_map, exists_exists_and_eq_and, Index.slot?_subst]
  refine exists_congr fun i => and_congr_right fun _ => ?_
  have hne : i.slot? = some t → i.slot? ≠ some s := by
    intro hi his
    rw [hi, Option.some.injEq] at his
    exact h his
  constructor
  · rintro ⟨⟨hi, -⟩, hy⟩
    rw [Index.subst_of_ne (hne hi)] at hy
    exact ⟨hi, hy⟩
  · rintro ⟨hi, hy⟩
    rw [Index.subst_of_ne (hne hi)]
    exact ⟨⟨hi, h⟩, hy⟩

/-- The sum over all summed slots of a list of indices. -/
def sumIndices {M : Type} [AddCommMonoid M] (is : List Index) (F : (Slot → ℕ) → M)
    (a : Slot → ℕ) : M :=
  sumOver (slotValues is) (summedSlots is) F a

section
variable {M : Type} [AddCommMonoid M]

/-- Only the slots that occur in a list of indices matter for the sum over them. -/
theorem sumIndices_congr {is js : List Index} {F G : (Slot → ℕ) → M} {a : Slot → ℕ}
    (hij : ∀ i : Index, i.isFixed = false → (i ∈ is ↔ i ∈ js)) (hFG : ∀ b, F b = G b) :
    sumIndices is F a = sumIndices js G a := by
  obtain rfl : F = G := funext hFG
  have hslot : ∀ (i : Index) (s : Slot), i.slot? = some s → (i ∈ is ↔ i ∈ js) := by
    intro i s hi
    cases i with
    | slot k id r => exact hij _ rfl
    | fixed v => cases hi
  have hs : (summedSlots is).Perm (summedSlots js) := by
    rw [List.perm_ext_iff_of_nodup (nodup_summedSlots is) (nodup_summedSlots js)]
    intro s
    rw [mem_summedSlots, mem_summedSlots]
    refine and_congr_left fun _ => exists_congr fun i => and_congr_left fun hi => hslot i s hi
  have hr : slotValues is = slotValues js := by
    ext s x
    rw [mem_slotValues, mem_slotValues]
    exact exists_congr fun i => and_congr_left fun hi => hslot i s hi.1
  rw [sumIndices, sumIndices, hr, sumOver_perm _ hs]

/-- A summed slot that occurs may be replaced by each of its values. -/
theorem sumIndices_subst {is : List Index} {s : Slot} (hs : s ∈ summedSlots is)
    (F : (Slot → ℕ) → M) (a : Slot → ℕ) :
    sumIndices is F a = ∑ x ∈ slotValues is s,
      sumIndices (is.map (Index.subst s x)) (fun b => F (Function.update b s x)) a := by
  have hperm := List.perm_cons_erase hs
  rw [sumIndices, sumOver_perm _ hperm, sumOver_cons]
  apply Finset.sum_congr rfl
  intro x _
  have hsub : (summedSlots (is.map (Index.subst s x))).Perm ((summedSlots is).erase s) := by
    rw [List.perm_ext_iff_of_nodup (nodup_summedSlots _) ((nodup_summedSlots is).erase s)]
    intro t
    rw [(nodup_summedSlots is).mem_erase_iff, mem_summedSlots_subst, and_comm]
  rw [sumIndices, sumOver_perm _ hsub]
  refine sumOver_congr (fun t ht => ?_) fun c d hcd hab => ?_
  · exact (slotValues_subst ((nodup_summedSlots is).mem_erase_iff.mp ht).1).symm
  · -- the first assignment has the value `x` at `s`, the second one is updated to it
    congr 1
    funext t
    by_cases hts : t = s
    · subst hts
      rw [Function.update_self]
      have := (hab t fun h => ((nodup_summedSlots is).mem_erase_iff.mp h).1 rfl).1
      rw [this, Function.update_self]
    · rw [Function.update_of_ne hts]
      by_cases ht : t ∈ (summedSlots is).erase s
      · exact hcd t ht
      · rw [(hab t ht).1, (hab t ht).2, Function.update_of_ne hts]

theorem sumIndices_rename {f : SlotKind → ℕ → ℕ} (hf : ∀ k, Function.Injective (f k))
    (is : List Index) (F : (Slot → ℕ) → M) (a : Slot → ℕ) :
    sumIndices (is.map (Index.rename (slotRenaming f))) (fun b => F (b ∘ Slot.rename f)) a =
      sumIndices is F (a ∘ Slot.rename f) := by
  have hρ := Slot.rename_injective hf
  have hslots : summedSlots (is.map (Index.rename (slotRenaming f))) =
      (summedSlots is).map (Slot.rename f) := by
    have e : (is.map (Index.rename (slotRenaming f))).filterMap Index.slot? =
        (is.filterMap Index.slot?).map (Slot.rename f) := by
      rw [List.filterMap_map, List.map_filterMap]
      exact List.filterMap_congr fun i _ => Index.slot?_rename f i
    rw [summedSlots, e, List.filter_map, List.dedup_map_of_injective hρ]
    rfl
  rw [sumIndices, hslots]
  refine sumOver_map hρ (fun s _ => ?_) F a
  ext x
  simp only [mem_slotValues, List.mem_map, exists_exists_and_eq_and, Index.slot?_rename,
    Index.range_rename]
  refine exists_congr fun i => and_congr_right fun _ => and_congr_left fun _ => ?_
  cases i.slot? with
  | none => simp
  | some t => simp [hρ.eq_iff]

end

theorem mul_sumIndices {R : Type} [NonUnitalNonAssocSemiring R] (c : R) (is : List Index)
    (F : (Slot → ℕ) → R) (a : Slot → ℕ) :
    sumIndices is (fun b => c * F b) a = c * sumIndices is F a :=
  mul_sumOver c _ _ F a

end WeakForm
