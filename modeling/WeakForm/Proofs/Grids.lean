import Mathlib.Data.List.Forall2
import Mathlib.Data.List.Nodup
import Mathlib.Data.List.Sort
import WeakForm.DenseTensor
import WeakForm.MultiIndex

/-!
# Positions of a grid

The choices of one element from each of several lists are listed without repetition
(`nodup_cartesian`) and are exactly the lists whose elements are in the given ones
(`mem_cartesian`).  They are in the lexicographic order of the places of the elements, and this
determines the list (`isLexicographic_iff`).  The place of a position in the list of all positions
is its linear index (`exists_linearIndex?`), so a dense tensor made from entries in that order has
them at their positions (`DenseTensor.exists_get?`).

Where the ranges of a multi-index fit in its axes, the positions that it contains are its values
(`MultiIndex.filter_contains_perm`).
-/

namespace WeakForm

/-! ### Choices -/

section Cartesian

variable {α : Type}

theorem mem_cartesian {ls : List (List α)} {l : List α} :
    l ∈ cartesian ls ↔ List.Forall₂ (· ∈ ·) l ls := by
  induction ls generalizing l with
  | nil => rw [cartesian_nil, List.mem_singleton, List.forall₂_nil_right_iff]
  | cons xs ls ih =>
    rw [mem_cartesian_cons, List.forall₂_cons_right_iff]
    simp only [ih]
    constructor
    · rintro ⟨x, hx, t, ht, rfl⟩
      exact ⟨x, t, hx, ht, rfl⟩
    · rintro ⟨x, t, hx, ht, rfl⟩
      exact ⟨x, hx, t, ht, rfl⟩

theorem nodup_cartesian {ls : List (List α)} (h : ∀ l ∈ ls, l.Nodup) : (cartesian ls).Nodup := by
  induction ls with
  | nil => exact List.nodup_singleton _
  | cons xs ls ih =>
    rw [List.forall_mem_cons] at h
    rw [cartesian, List.nodup_flatMap]
    refine ⟨fun x _ => (List.nodup_map_iff (List.cons_injective)).mpr (ih h.2), ?_⟩
    refine h.1.imp fun {x y} hxy l hx hy => ?_
    obtain ⟨s, -, rfl⟩ := List.mem_map.mp hx
    obtain ⟨t, -, ht⟩ := List.mem_map.mp hy
    exact hxy (List.cons.inj ht).1.symm

theorem cartesian_append (ls ms : List (List α)) :
    cartesian (ls ++ ms) = (cartesian ls).flatMap fun l => (cartesian ms).map (l ++ ·) := by
  induction ls with
  | nil => simp
  | cons xs ls ih =>
    simp only [List.cons_append, cartesian, ih, List.flatMap_assoc, List.map_flatMap,
      List.flatMap_map, List.map_map]
    rfl

end Cartesian

/-! ### Linear indices -/

/-- The element at place `k` of block `x`, if all blocks have the same length. -/
theorem getElem?_flatMap_range {α : Type} {f : ℕ → List α} {len : ℕ} (hf : ∀ x, (f x).length = len)
    {d x k : ℕ} (hx : x < d) (hk : k < len) :
    ((List.range d).flatMap f)[x * len + k]? = (f x)[k]? := by
  have hlen : ∀ d, ((List.range d).flatMap f).length = d * len := by
    intro d
    rw [List.length_flatMap, List.map_congr_left fun x _ => hf x, List.map_const',
      List.sum_replicate_nat, List.length_range]
  induction d with
  | zero => omega
  | succ d ih =>
    rw [List.range_succ, List.flatMap_append, List.flatMap_singleton]
    rcases Nat.lt_succ_iff_lt_or_eq.mp hx with hlt | rfl
    · rw [List.getElem?_append_left, ih hlt]
      rw [hlen]
      calc x * len + k < (x + 1) * len := by rw [Nat.add_mul]; omega
        _ ≤ d * len := Nat.mul_le_mul_right len hlt
    · rw [List.getElem?_append_right (by rw [hlen]; omega), hlen, Nat.add_sub_cancel_left]

theorem gridPositions_cons (d : ℕ) (dims : List ℕ) : gridPositions (d :: dims) =
    (List.range d).flatMap fun x => (gridPositions dims).map (x :: ·) := rfl

theorem length_gridPositions (dims : List ℕ) : (gridPositions dims).length = gridSize dims := by
  induction dims with
  | nil => rfl
  | cons d dims ih =>
    rw [gridPositions_cons, List.length_flatMap]
    simp only [List.length_map, ih, List.map_const', List.sum_replicate_nat, List.length_range,
      gridSize_cons]

theorem mem_gridPositions {dims position : List ℕ} :
    position ∈ gridPositions dims ↔ List.Forall₂ (· < ·) position dims := by
  rw [gridPositions, mem_cartesian, List.forall₂_map_right_iff]
  simp only [List.mem_range]

theorem gridPositions_append (ds es : List ℕ) : gridPositions (ds ++ es) =
    (gridPositions ds).flatMap fun l => (gridPositions es).map (l ++ ·) := by
  rw [gridPositions, List.map_append, cartesian_append]
  rfl

/-- A position is at the place of its linear index in the list of all positions, if their number is
a machine word. -/
theorem exists_linearIndex? {dims position : List ℕ} (hword : gridSize dims < wordSize)
    (h : position ∈ gridPositions dims) :
    ∃ k, linearIndex? dims position = some k ∧ (gridPositions dims)[k]? = some position := by
  have hgo : ∀ (dims position : List ℕ) (acc : ℕ), (acc + 1) * gridSize dims < wordSize →
      position ∈ gridPositions dims →
      ∃ k, linearIndex?.go acc dims position = some (acc * gridSize dims + k) ∧ k < gridSize dims ∧
        (gridPositions dims)[k]? = some position := by
    intro dims
    induction dims with
    | nil =>
      intro position acc _ h
      obtain rfl := List.mem_singleton.mp h
      exact ⟨0, by simp [linearIndex?.go, gridSize], Nat.one_pos, rfl⟩
    | cons d dims ih =>
      intro position acc hacc h
      obtain ⟨x, hx, t, ht, rfl⟩ := mem_cartesian_cons.mp h
      rw [List.mem_range] at hx
      have hblock : (acc * d + x + 1) * gridSize dims < wordSize :=
        calc (acc * d + x + 1) * gridSize dims ≤ ((acc + 1) * d) * gridSize dims :=
              Nat.mul_le_mul_right _ (by rw [Nat.add_mul]; omega)
          _ = (acc + 1) * gridSize (d :: dims) := by rw [gridSize_cons, Nat.mul_assoc]
          _ < wordSize := hacc
      obtain ⟨k, hgo, hk, hget⟩ := ih t (acc * d + x) hblock ht
      have hwrap : wrap (acc * d + x) = acc * d + x := by
        refine wrap_eq_of_lt (Nat.lt_of_succ_le ?_)
        exact (Nat.le_mul_of_pos_right _ (Nat.zero_lt_of_lt hk)).trans hblock.le
      refine ⟨x * gridSize dims + k, ?_, ?_, ?_⟩
      · rw [linearIndex?.go, if_pos hx, hwrap, hgo, gridSize_cons]
        congr 1
        rw [Nat.add_mul, Nat.mul_assoc, Nat.add_assoc]
      · rw [gridSize_cons]
        calc x * gridSize dims + k < (x + 1) * gridSize dims := by rw [Nat.add_mul]; omega
          _ ≤ d * gridSize dims := Nat.mul_le_mul_right _ hx
      · rw [gridPositions_cons, getElem?_flatMap_range
          (fun _ => by rw [List.length_map, length_gridPositions]) hx hk, List.getElem?_map, hget]
        rfl
  obtain ⟨k, hk, -, hget⟩ := hgo dims position 0 (by rwa [Nat.zero_add, Nat.one_mul]) h
  exact ⟨k, by rw [linearIndex?, hk, Nat.zero_mul, Nat.zero_add], hget⟩

/-- What is no position has no linear index. -/
theorem linearIndex?_eq_none {dims position : List ℕ} (h : position ∉ gridPositions dims) :
    linearIndex? dims position = none := by
  have hgo : ∀ acc, linearIndex?.go acc dims position = none := by
    rw [mem_gridPositions] at h
    induction dims generalizing position with
    | nil =>
      cases position with
      | nil => exact absurd .nil h
      | cons x t => exact fun acc => rfl
    | cons d dims ih =>
      cases position with
      | nil => exact fun acc => rfl
      | cons x t =>
        intro acc
        rw [linearIndex?.go]
        split
        · rename_i hx
          exact ih (fun ht => h (.cons hx ht)) _
        · rfl
  exact hgo 0

/-- A tensor has the entry for each position at that position. -/
theorem DenseTensor.exists_get? {K : Type} {shape : List ℕ} {data : List K} {t : DenseTensor K}
    (hword : gridSize shape < wordSize) (ht : DenseTensor.ofData shape data.toArray = .ok t)
    {position : List ℕ} (h : position ∈ gridPositions shape) :
    ∃ (k : ℕ) (x : K), (gridPositions shape)[k]? = some position ∧ data[k]? = some x ∧
      t.get? position = some x := by
  unfold ofData at ht
  split at ht
  · rename_i hsize
    cases ht
    obtain ⟨k, hk, hget⟩ := exists_linearIndex? hword h
    have hlt : k < data.length := by
      have := (List.getElem?_eq_some_iff.mp hget).1
      rwa [length_gridPositions, ← wrap_eq_of_lt hword, ← hsize, List.size_toArray] at this
    exact ⟨k, data[k], hget, List.getElem?_eq_getElem hlt, by simp [get?, hk, hlt]⟩
  · cases ht

/-! ### Lexicographic order -/

/-- Positions are listed in lexicographic order. -/
theorem pairwise_gridPositions (dims : List ℕ) : (gridPositions dims).Pairwise (· < ·) := by
  induction dims with
  | nil => exact List.pairwise_singleton _ _
  | cons d dims ih =>
    rw [gridPositions_cons, List.pairwise_flatMap]
    refine ⟨fun x _ => ?_, List.pairwise_lt_range.imp fun {x y} hxy p hp q hq => ?_⟩
    · rw [List.pairwise_map]
      exact ih.imp fun hpq => List.cons_lt_cons_iff.mpr (.inr ⟨rfl, hpq⟩)
    · obtain ⟨p, -, rfl⟩ := List.mem_map.mp hp
      obtain ⟨q, -, rfl⟩ := List.mem_map.mp hq
      exact List.cons_lt_cons_iff.mpr (.inl hxy)

/-- Choices are listed in the order of the places of their elements. -/
theorem map_cartesian {α : Type} (ls : List (List α)) : (cartesian ls).map (·.map some) =
    (gridPositions (ls.map List.length)).map fun p => List.zipWith (fun l x => l[x]?) ls p := by
  induction ls with
  | nil => rfl
  | cons xs ls ih =>
    have hxs : xs.map some = (List.range xs.length).map fun x => xs[x]? := by
      refine List.ext_getElem (by simp) fun x hx _ => ?_
      rw [List.length_map] at hx
      simp [List.getElem?_eq_getElem hx]
    calc (cartesian (xs :: ls)).map (·.map some)
        = (xs.map some).flatMap fun y => ((cartesian ls).map (·.map some)).map (y :: ·) := by
          simp only [cartesian, List.map_flatMap, List.flatMap_map, List.map_map]
          rfl
      _ = _ := by
          rw [hxs, ih, List.map_cons, gridPositions_cons]
          simp only [List.map_flatMap, List.flatMap_map, List.map_map]
          rfl

/-- The list of all choices of one element from each list, in the lexicographic order of their
places. -/
def IsLexicographic {α : Type} (ls choices : List (List α)) : Prop :=
  ∃ places : List (List ℕ), places.Pairwise (· < ·) ∧
    (∀ p, p ∈ places ↔ List.Forall₂ (fun x l => x < l.length) p ls) ∧
    choices.map (·.map some) = places.map fun p => List.zipWith (fun l x => l[x]?) ls p

theorem isLexicographic_iff {α : Type} {ls choices : List (List α)} :
    IsLexicographic ls choices ↔ choices = cartesian ls := by
  have hmem : ∀ p, p ∈ gridPositions (ls.map List.length) ↔
      List.Forall₂ (fun x l => x < l.length) p ls := fun p => by
    rw [mem_gridPositions, List.forall₂_map_right_iff]
  constructor
  · rintro ⟨places, hsorted, hplaces, hchoices⟩
    have hperm : places.Perm (gridPositions (ls.map List.length)) :=
      (List.perm_ext_iff_of_nodup hsorted.nodup (pairwise_gridPositions _).nodup).mpr fun p =>
        (hplaces p).trans (hmem p).symm
    obtain rfl := hperm.eq_of_pairwise' hsorted (pairwise_gridPositions _)
    rw [← map_cartesian] at hchoices
    exact List.map_injective_iff.mpr (List.map_injective_iff.mpr (Option.some_injective α)) hchoices
  · rintro rfl
    exact ⟨_, pairwise_gridPositions _, hmem, map_cartesian ls⟩

/-! ### Multi-indices -/

/-- Values of ranges that fit in axes are on these axes. -/
theorem forall₂_lt_of_mem {xs ds : List ℕ} {is : List Index}
    (hx : List.Forall₂ (fun x i => x ∈ i.range) xs is)
    (hlt : List.Forall₂ (fun i d => ∀ x ∈ i.range, x < d) is ds) :
    List.Forall₂ (· < ·) xs ds := by
  induction hx generalizing ds with
  | nil =>
    cases hlt
    exact .nil
  | cons hx _ ih =>
    obtain ⟨d, ds, hd, htail, rfl⟩ := List.forall₂_cons_left_iff.mp hlt
    exact .cons (hd _ hx) (ih htail)

namespace MultiIndex

variable [Enumeration]

theorem length_of_mem_values {m : MultiIndex} {values : List ℕ} (h : values ∈ m.values) :
    values.length = m.indices.length := by
  rw [length_of_mem_cartesian (m.values_eq ▸ h), List.length_map]

theorem contains_iff {m : MultiIndex} {values : List ℕ} :
    m.contains values = true ↔ values ∈ m.values := by
  rw [m.values_eq, mem_cartesian, List.forall₂_map_right_iff]
  obtain ⟨is, dims⟩ := m
  simp only [contains, Bool.and_eq_true, beq_iff_eq, List.all_eq_true]
  induction is generalizing values with
  | nil => cases values <;> simp
  | cons i is ih =>
    cases values with
    | nil => simp
    | cons x values =>
      rw [List.forall₂_cons, ← ih]
      simp only [List.zip_cons_cons, List.forall_mem_cons, List.length_cons,
        Nat.add_right_cancel_iff, List.contains_iff_mem]
      tauto

variable {m : MultiIndex}

/-- If all ranges fit in their axes, the values are positions. -/
theorem mem_positions (hlt : List.Forall₂ (fun i d => ∀ x ∈ i.range, x < d) m.indices m.dims)
    {values : List ℕ} (hv : values ∈ m.values) : values ∈ m.positions := by
  rw [m.values_eq, mem_cartesian, List.forall₂_map_right_iff] at hv
  rw [m.positions_eq, mem_gridPositions]
  exact forall₂_lt_of_mem hv hlt

/-- The positions that are contained are the values, provided that no range repeats a value. -/
theorem filter_contains_perm
    (hlt : List.Forall₂ (fun i d => ∀ x ∈ i.range, x < d) m.indices m.dims)
    (hn : ∀ i ∈ m.indices, i.range.Nodup) : (m.positions.filter m.contains).Perm m.values := by
  refine (List.perm_ext_iff_of_nodup (.filter _ ?_) ?_).mpr fun values => ?_
  · rw [m.positions_eq]
    refine nodup_cartesian fun l hl => ?_
    obtain ⟨d, -, rfl⟩ := List.mem_map.mp hl
    exact List.nodup_range
  · rw [m.values_eq]
    refine nodup_cartesian fun l hl => ?_
    obtain ⟨i, hi, rfl⟩ := List.mem_map.mp hl
    exact hn i hi
  · rw [List.mem_filter, contains_iff]
    exact ⟨And.right, fun hv => ⟨mem_positions hlt hv, hv⟩⟩

end MultiIndex

end WeakForm
