import WeakForm.Proofs.Failure
import WeakForm.Proofs.Reordering
import WeakForm.ReferenceTensor

/-!
# First occurrences of slots

The indices of basis functions stand at places (`Occurrence`): the argument comes first, then the
components, then the derivatives.  Each place allows a number of values, but a component beyond the
value rank of its element allows none (`Occurrence.dimension?`).

`createMultiIndex` makes one axis for each of the slots `0, 1, …` of a kind.  Index and length of
the axis are those of the first occurrence (`SlotAxes`).  Their number is computed in a machine
word.  It fails only if the numbering has a gap, the first occurrence of a slot is a component
beyond the value rank, or a range does not fit (`AxisDefect`, `axisDefect_of_createMultiIndex`).  If
no slot has the largest identifier (`SlotsFit`), all slots have axes (`FirstAxes`), and there is no
such defect (`FirstAxes.not_axisDefect`).

The order of the basis functions does not matter for slots that occur once (`SlotAxes.of_perm`),
and for ranges that all occurrences agree in (`SlotAxes.map_range_eq`).
-/

namespace WeakForm

open Indexed

/-! ### Places -/

/-- What a place of a basis function is the place of.  A derivative has the element whose reference
directions it counts. -/
inductive Place where
  | argument
  | component (position : ℕ)
  | derivative (element : Element)

/-- An index at a place of a basis function. -/
structure Occurrence where
  basisFunction : BasisFunction
  place : Place
  index : Index

namespace Occurrence

/-- The number of values that the place allows. -/
def dimension? (o : Occurrence) : Option ℕ :=
  match o.place with
  | .argument => some o.basisFunction.element.space.spaceDimension
  | .component position => o.basisFunction.element.space.valueShape[position]?
  | .derivative element => some element.space.shapeDimension

end Occurrence

/-- The indices of a basis function in order. -/
def BasisFunction.occurrences (v : BasisFunction) : List Occurrence :=
  ⟨v, .argument, v.index⟩ ::
    ((v.components.zipIdx.map fun (index, position) => ⟨v, .component position, index⟩) ++
      v.derivatives.map fun d => ⟨v, .derivative d.element, d.index⟩)

/-- The indices of basis functions in order. -/
def occurrences (vs : List BasisFunction) : List Occurrence :=
  vs.flatMap BasisFunction.occurrences

theorem BasisFunction.map_index_occurrences (v : BasisFunction) :
    v.occurrences.map (·.index) = indices v := by
  rw [occurrences, indices_basisFunction, List.map_cons, List.map_append, List.map_map,
    List.map_map]
  congr 2
  exact List.zipIdx_map_fst 0 v.components

theorem map_index_occurrences (vs : List BasisFunction) :
    (occurrences vs).map (·.index) = indices vs := by
  rw [occurrences, List.map_flatMap, indices_list]
  simp only [BasisFunction.map_index_occurrences]

theorem Occurrence.index_mem {vs : List BasisFunction} {o : Occurrence}
    (h : o ∈ occurrences vs) : o.index ∈ indices vs := by
  rw [← map_index_occurrences]
  exact List.mem_map_of_mem h

/-- An occurrence of a slot that no other one precedes. -/
structure FirstOccurrence (vs : List BasisFunction) (k : SlotKind) (id : ℕ) (o : Occurrence) :
    Prop where
  slot : o.index.idOf? k = some id
  first : ∃ before after, occurrences vs = before ++ o :: after ∧
    ∀ o' ∈ before, o'.index.idOf? k ≠ some id

variable {vs : List BasisFunction} {k : SlotKind} {id : ℕ} {o o' : Occurrence}

theorem firstOccurrence_iff : FirstOccurrence vs k id o ↔
    (occurrences vs).find? (fun o => o.index.idOf? k = some id) = some o := by
  rw [List.find?_eq_some_iff_append]
  simp only [decide_eq_true_eq, Bool.not_eq_true', decide_eq_false_iff_not]
  exact ⟨fun h => ⟨h.slot, h.first⟩, fun h => ⟨h.1, h.2⟩⟩

theorem FirstOccurrence.unique (h : FirstOccurrence vs k id o) (h' : FirstOccurrence vs k id o') :
    o = o' := by
  rw [firstOccurrence_iff] at h h'
  exact Option.some.inj (h.symm.trans h')

theorem FirstOccurrence.mem (h : FirstOccurrence vs k id o) : o ∈ occurrences vs := by
  obtain ⟨before, after, hvs, -⟩ := h.first
  rw [hvs]
  exact List.mem_append_right _ List.mem_cons_self

theorem mem_slotIds_iff_exists :
    id ∈ slotIds vs k ↔ ∃ o ∈ occurrences vs, o.index.idOf? k = some id := by
  rw [slotIds, ← map_index_occurrences, List.mem_filterMap]
  simp only [List.mem_map, exists_exists_and_eq_and]

/-- A slot that occurs has a first occurrence. -/
theorem mem_slotIds_iff_firstOccurrence :
    id ∈ slotIds vs k ↔ ∃ o, FirstOccurrence vs k id o := by
  rw [mem_slotIds_iff_exists]
  constructor
  · rintro ⟨o, ho, hid⟩
    have hsome := List.find?_isSome (p := fun o : Occurrence => o.index.idOf? k = some id)
      |>.mpr ⟨o, ho, decide_eq_true hid⟩
    obtain ⟨first, hfirst⟩ := Option.isSome_iff_exists.mp hsome
    exact ⟨first, firstOccurrence_iff.mpr hfirst⟩
  · rintro ⟨o, h⟩
    exact ⟨o, h.mem, h.slot⟩

/-! ### The search -/

/-- The number of values that the place allows, or the reason why there is none. -/
def Occurrence.dimension (o : Occurrence) : Except TensorError ℕ :=
  match o.place with
  | .argument => .ok o.basisFunction.element.space.spaceDimension
  | .component position =>
    match o.basisFunction.element.space.valueShape[position]? with
    | some dim => .ok dim
    | none => .error (.beyondValueRank position o.basisFunction)
  | .derivative element => .ok element.space.shapeDimension

theorem Occurrence.dimension_eq_ok {d : ℕ} : o.dimension = .ok d ↔ o.dimension? = some d := by
  obtain ⟨v, place, i⟩ := o
  cases place with
  | argument => simp [dimension, dimension?]
  | component position =>
    rw [dimension, dimension?]
    dsimp only
    split <;> simp_all
  | derivative element => simp [dimension, dimension?]

theorem Occurrence.dimension_eq_error {e : TensorError} (h : o.dimension = .error e) :
    ∃ position, o.place = .component position ∧
      o.basisFunction.element.space.valueShape.length ≤ position ∧
        e = .beyondValueRank position o.basisFunction := by
  obtain ⟨v, place, i⟩ := o
  cases place with
  | argument => cases h
  | component position =>
    rw [dimension] at h
    dsimp only at h
    split at h
    · cases h
    · rename_i hnone
      cases h
      exact ⟨position, rfl, List.getElem?_eq_none_iff.mp hnone, rfl⟩
  | derivative element => cases h

theorem BasisFunction.places_eq (v : BasisFunction) :
    v.places = v.occurrences.map fun o => (o.index, o.dimension) := by
  rw [places, occurrences, List.map_cons, List.map_append, List.map_map, List.map_map]
  congr 2
  refine List.map_congr_left fun ⟨i, position⟩ _ => ?_
  simp only [Function.comp_apply, Occurrence.dimension]
  cases v.element.space.valueShape[position]? <;> rfl

theorem findOccurrence_eq (vs : List BasisFunction) (k : SlotKind) (id : ℕ) :
    findOccurrence vs (.slot k id []) =
      match (occurrences vs).find? (fun o => o.index.idOf? k = some id) with
      | none => .error (.noOccurrence (.slot k id []))
      | some o => do return (o.index, ← o.dimension) := by
  have hplaces : vs.flatMap BasisFunction.places =
      (occurrences vs).map fun o => (o.index, o.dimension) := by
    rw [occurrences, List.map_flatMap]
    exact List.flatMap_congr fun v _ => v.places_eq
  have hslot : ∀ i : Index, i.sameSlot (.slot k id []) = decide (i.idOf? k = some id) := fun i =>
    Bool.eq_iff_iff.mpr ((Index.sameSlot_iff_idOf? (Index.idOf?_eq_some.mpr ⟨[], rfl⟩)).trans
      decide_eq_true_iff.symm)
  rw [findOccurrence, hplaces, List.find?_map]
  simp only [Function.comp_def, hslot]
  cases (occurrences vs).find? fun o => o.index.idOf? k = some id <;> rfl

theorem findOccurrence_of_first (h : FirstOccurrence vs k id o) :
    findOccurrence vs (.slot k id []) = do return (o.index, ← o.dimension) := by
  rw [findOccurrence_eq, firstOccurrence_iff.mp h]

theorem findOccurrence_of_notMem (h : id ∉ slotIds vs k) :
    findOccurrence vs (.slot k id []) = .error (.noOccurrence (.slot k id [])) := by
  have hnone : (occurrences vs).find? (fun o => o.index.idOf? k = some id) = none := by
    rw [List.find?_eq_none]
    exact fun o ho hid => h (mem_slotIds_iff_exists.mpr ⟨o, ho, of_decide_eq_true hid⟩)
  rw [findOccurrence_eq, hnone]

/-! ### One axis -/

/-- The index and the length of the axis of a slot. -/
def axisOf (vs : List BasisFunction) (k : SlotKind) (id : ℕ) : Except TensorError (Index × ℕ) := do
  let (index, dim) ← findOccurrence vs (.slot k id [])
  match index.range.find? (dim ≤ ·) with
  | some value => throw (TensorError.beyondDimension value index dim)
  | none => return (index, dim)

/-- An occurrence can be an axis: its place allows values, and all values of its range are among
them. -/
structure Occurrence.Fits (o : Occurrence) (d : ℕ) : Prop where
  dimension_eq : o.dimension? = some d
  lt : ∀ x ∈ o.index.range, x < d

theorem Occurrence.Fits.unique {d d' : ℕ} (h : o.Fits d) (h' : o.Fits d') : d = d' :=
  Option.some.inj (h.dimension_eq.symm.trans h'.dimension_eq)

/-- What keeps a slot from having an axis, with the error that says so. -/
inductive AxisDefect (vs : List BasisFunction) (k : SlotKind) : TensorError → Prop
  /-- A slot that a larger one of the same kind is used without. -/
  | missing {id larger : ℕ} : id < larger → larger ∈ slotIds vs k → id ∉ slotIds vs k →
    AxisDefect vs k (.noOccurrence (.slot k id []))
  /-- A slot that occurs first as a component beyond the value rank. -/
  | beyondValueRank {id position : ℕ} {o : Occurrence} : FirstOccurrence vs k id o →
    o.place = .component position →
    o.basisFunction.element.space.valueShape.length ≤ position →
    AxisDefect vs k (.beyondValueRank position o.basisFunction)
  /-- A slot whose range has a value that the place of its first occurrence does not allow. -/
  | beyondDimension {id d x : ℕ} {o : Occurrence} : FirstOccurrence vs k id o →
    o.dimension? = some d → x ∈ o.index.range → d ≤ x →
    AxisDefect vs k (.beyondDimension x o.index d)

/-- Nothing is wrong if no slot is missing and all first occurrences can be axes. -/
theorem not_axisDefect_of_fits
    (hgap : ∀ {id larger}, id < larger → larger ∈ slotIds vs k → id ∈ slotIds vs k)
    (hfits : ∀ id o, FirstOccurrence vs k id o → ∃ d, o.Fits d) (e : TensorError) :
    ¬ AxisDefect vs k e := by
  intro hdefect
  cases hdefect with
  | missing hlt hl hid => exact hid (hgap hlt hl)
  | beyondValueRank ho hplace hlen =>
    obtain ⟨d, hfits⟩ := hfits _ _ ho
    have hdim := hfits.dimension_eq
    simp only [Occurrence.dimension?, hplace, List.getElem?_eq_none hlen] at hdim
    cases hdim
  | beyondDimension ho hdim hx hle =>
    obtain ⟨d, hfits⟩ := hfits _ _ ho
    rw [hfits.dimension_eq, Option.some.injEq] at hdim
    have := hfits.lt _ hx
    omega

/-- The axis of a slot is that of its first occurrence, if this can be one. -/
theorem axisOf_eq_ok {i : Index} {d : ℕ} (h : axisOf vs k id = .ok (i, d)) :
    ∃ o, FirstOccurrence vs k id o ∧ o.index = i ∧ o.Fits d := by
  obtain ⟨⟨index, dim⟩, hfind, h⟩ := bind_eq_ok.mp h
  by_cases hid : id ∈ slotIds vs k
  · obtain ⟨o, ho⟩ := mem_slotIds_iff_firstOccurrence.mp hid
    rw [findOccurrence_of_first ho] at hfind
    obtain ⟨dim', hdim, hfind⟩ := bind_eq_ok.mp hfind
    cases hfind
    dsimp only at h
    split at h
    · cases h
    · rename_i hnone
      cases h
      refine ⟨o, ho, rfl, ⟨Occurrence.dimension_eq_ok.mp hdim, fun x hx => ?_⟩⟩
      simpa using List.find?_eq_none.mp hnone x hx
  · rw [findOccurrence_of_notMem hid] at hfind
    cases hfind

/-- A slot without an axis, among those up to the largest one, has a defect. -/
theorem axisOf_eq_error {larger : ℕ} (hle : id ≤ larger) (hl : larger ∈ slotIds vs k)
    {e : TensorError} (h : axisOf vs k id = .error e) : AxisDefect vs k e := by
  by_cases hid : id ∈ slotIds vs k
  · obtain ⟨o, ho⟩ := mem_slotIds_iff_firstOccurrence.mp hid
    rw [axisOf, findOccurrence_of_first ho] at h
    rcases bind_eq_error.mp h with h | ⟨⟨i, d⟩, hok, h⟩
    · obtain hdim | ⟨_, -, h⟩ := bind_eq_error.mp h
      · obtain ⟨position, hplace, hlen, rfl⟩ := Occurrence.dimension_eq_error hdim
        exact .beyondValueRank ho hplace hlen
      · cases h
    · obtain ⟨_, hdim, hok⟩ := bind_eq_ok.mp hok
      cases hok
      dsimp only at h
      split at h
      · rename_i x hx
        cases h
        exact .beyondDimension ho (Occurrence.dimension_eq_ok.mp hdim)
          (List.mem_of_find?_eq_some hx) (by simpa using List.find?_some hx)
      · cases h
  · rw [axisOf, findOccurrence_of_notMem hid] at h
    cases h
    refine .missing (lt_of_le_of_ne hle fun hne => hid (hne ▸ hl)) hl hid

/-! ### All axes -/

/-- The number of axes: the largest of the numbers after the identifiers, as machine words. -/
def slotRank (vs : List BasisFunction) (k : SlotKind) : ℕ :=
  (((slotIds vs k).map fun id => wrap (id + 1)).max?).getD 0

/-- The numbers after the identifiers are machine words. -/
def SlotsFit (vs : List BasisFunction) (k : SlotKind) : Prop :=
  ∀ id ∈ slotIds vs k, id + 1 < wordSize

/-- The numbers after the identifiers of all slots of a tensor are machine words. -/
def Monomial.FitsAxes {K : Type} (m : Monomial K) : Prop :=
  ∀ k, SlotsFit m.basisFunctions k

theorem lt_slotRank_iff : id < slotRank vs k ↔ ∃ larger ∈ slotIds vs k, id < wrap (larger + 1) := by
  unfold slotRank
  cases hmax : ((slotIds vs k).map fun id => wrap (id + 1)).max? with
  | none =>
    rw [List.max?_eq_none_iff, List.map_eq_nil_iff] at hmax
    simp [hmax]
  | some largest =>
    rw [List.max?_eq_some_iff, List.mem_map, List.forall_mem_map] at hmax
    obtain ⟨⟨larger, hl, rfl⟩, hle⟩ := hmax
    exact ⟨fun h => ⟨larger, hl, h⟩, fun ⟨id', hid', h⟩ => h.trans_le (hle id' hid')⟩

theorem slotRank_perm {ws : List BasisFunction} (h : vs.Perm ws) (k : SlotKind) :
    slotRank vs k = slotRank ws k :=
  eq_of_forall_lt_iff fun id => by
    simp only [lt_slotRank_iff, (slotIds_perm h k).mem_iff]

theorem createMultiIndex_eq (vs : List BasisFunction) (k : SlotKind) : createMultiIndex vs k = do
    let axes ← (List.range (slotRank vs k)).mapM (axisOf vs k)
    return { indices := axes.map (·.1), dims := axes.map (·.2) } := rfl

/-- The multi-index has as many axes as are computed for the slots of one kind.  Each of them is the
index of a first occurrence with the number of values that the place there allows. -/
structure SlotAxes (vs : List BasisFunction) (k : SlotKind) (m : MultiIndex) : Prop where
  length_eq : m.dims.length = m.rank
  rank_eq : m.rank = slotRank vs k
  axis : ∀ (id : ℕ) (i : Index) (d : ℕ), m.indices[id]? = some i → m.dims[id]? = some d →
    ∃ o, FirstOccurrence vs k id o ∧ o.index = i ∧ o.Fits d

/-- The multi-index has an axis for each slot of one kind, in order: the index of its first
occurrence with the number of values that the place there allows. -/
structure FirstAxes (vs : List BasisFunction) (k : SlotKind) (m : MultiIndex) : Prop
    extends SlotAxes vs k m where
  mem_iff : ∀ id, id ∈ slotIds vs k ↔ id < m.rank

theorem slotAxes_of_createMultiIndex {m : MultiIndex} (h : createMultiIndex vs k = .ok m) :
    SlotAxes vs k m := by
  rw [createMultiIndex_eq] at h
  obtain ⟨axes, haxes, h⟩ := bind_eq_ok.mp h
  cases h
  obtain ⟨hlen, hget⟩ := getElem?_of_mapM_eq_ok haxes
  rw [List.length_range] at hlen
  have haxis : ∀ id i d, axes[id]? = some (i, d) →
      ∃ o, FirstOccurrence vs k id o ∧ o.index = i ∧ o.Fits d := by
    intro id i d hid
    have hlt := (List.getElem?_eq_some_iff.mp hid).1
    exact axisOf_eq_ok (hget id id (i, d) (List.getElem?_range (hlen ▸ hlt)) hid)
  refine ⟨by simp [MultiIndex.rank], by rw [MultiIndex.rank, List.length_map, hlen],
    fun id i d hi hd => ?_⟩
  rw [List.getElem?_map, Option.map_eq_some_iff] at hi hd
  obtain ⟨⟨i', d'⟩, hid, rfl⟩ := hi
  obtain ⟨axis, hid', rfl⟩ := hd
  rw [hid, Option.some.injEq] at hid'
  subst hid'
  exact haxis id i' d' hid

theorem axisDefect_of_createMultiIndex {e : TensorError} (h : createMultiIndex vs k = .error e) :
    AxisDefect vs k e := by
  rw [createMultiIndex_eq] at h
  rcases bind_eq_error.mp h with h | ⟨axes, -, h⟩
  · obtain ⟨id, hid, h⟩ := exists_of_mapM_eq_error h
    obtain ⟨larger, hl, hlt⟩ := lt_slotRank_iff.mp (List.mem_range.mp hid)
    exact axisOf_eq_error (Nat.le_of_lt_succ (hlt.trans_le (wrap_le _))) hl h
  · cases h

namespace SlotAxes

variable {m m' : MultiIndex}

/-- An axis is that of the first occurrence of its slot. -/
theorem exists_first (h : SlotAxes vs k m) (hid : id < m.rank) :
    ∃ o d, FirstOccurrence vs k id o ∧ m.indices[id]? = some o.index ∧ m.dims[id]? = some d ∧
      o.Fits d := by
  have hi := List.getElem?_eq_getElem hid
  have hd := List.getElem?_eq_getElem (h.length_eq ▸ hid)
  obtain ⟨o, ho, hoi, hfits⟩ := h.axis id _ _ hi hd
  exact ⟨o, _, ho, by rw [hi, hoi], hd, hfits⟩

/-- All ranges fit in their axes. -/
theorem range_lt (h : SlotAxes vs k m) :
    List.Forall₂ (fun i d => ∀ x ∈ i.range, x < d) m.indices m.dims := by
  refine List.forall₂_iff_get.mpr ⟨h.length_eq.symm, fun id hi hd => ?_⟩
  obtain ⟨o, -, hoi, hfits⟩ := h.axis id _ _ (List.getElem?_eq_getElem hi)
    (List.getElem?_eq_getElem hd)
  rw [List.get_eq_getElem, List.get_eq_getElem, ← hoi]
  exact hfits.lt

/-- The multi-index is determined by the first occurrences. -/
theorem unique (h : SlotAxes vs k m) (h' : SlotAxes vs k m') : m = m' := by
  have hrank : m.rank = m'.rank := h.rank_eq.trans h'.rank_eq.symm
  have haxis : ∀ id < m.rank, m.indices[id]? = m'.indices[id]? ∧ m.dims[id]? = m'.dims[id]? := by
    intro id hid
    obtain ⟨o, d, ho, hi, hd, hfits⟩ := h.exists_first hid
    obtain ⟨o', d', ho', hi', hd', hfits'⟩ := h'.exists_first (hrank ▸ hid)
    obtain rfl := ho.unique ho'
    rw [hi, hi', hd, hd', hfits.unique hfits']
    exact ⟨rfl, rfl⟩
  have hext : ∀ {α : Type} {l l' : List α}, l.length = m.rank → l'.length = m.rank →
      (∀ id < m.rank, l[id]? = l'[id]?) → l = l' := by
    intro α l l' hl hl' hget
    refine List.ext_getElem? fun id => ?_
    by_cases hid : id < m.rank
    · exact hget id hid
    · rw [List.getElem?_eq_none (by omega), List.getElem?_eq_none (by omega)]
  obtain ⟨indices, dims⟩ := m
  obtain ⟨indices', dims'⟩ := m'
  rw [MultiIndex.mk.injEq]
  exact ⟨hext rfl hrank.symm fun id hid => (haxis id hid).1,
    hext h.length_eq (h'.length_eq.trans hrank.symm) fun id hid => (haxis id hid).2⟩

/-- Every slot has an axis if the numbers after the identifiers are machine words. -/
theorem firstAxes (h : SlotAxes vs k m) (hfit : SlotsFit vs k) : FirstAxes vs k m := by
  refine ⟨h, fun id => ⟨fun hid => ?_, fun hid => ?_⟩⟩
  · rw [h.rank_eq]
    refine lt_slotRank_iff.mpr ⟨id, hid, ?_⟩
    rw [wrap_eq_of_lt (hfit id hid)]
    exact Nat.lt_succ_self id
  · obtain ⟨o, -, ho, -⟩ := h.exists_first hid
    exact mem_slotIds_iff_firstOccurrence.mpr ⟨o, ho⟩

end SlotAxes

theorem firstAxes_of_createMultiIndex {m : MultiIndex} (hfit : SlotsFit vs k)
    (h : createMultiIndex vs k = .ok m) : FirstAxes vs k m :=
  (slotAxes_of_createMultiIndex h).firstAxes hfit

namespace FirstAxes

variable {m : MultiIndex}

theorem exists_axis (h : FirstAxes vs k m) (ho : FirstOccurrence vs k id o) :
    ∃ d, m.indices[id]? = some o.index ∧ m.dims[id]? = some d ∧ o.Fits d := by
  obtain ⟨o', d, ho', hi, hd, hfits⟩ :=
    h.exists_first ((h.mem_iff id).mp (mem_slotIds_iff_firstOccurrence.mpr ⟨o, ho⟩))
  obtain rfl := ho.unique ho'
  exact ⟨d, hi, hd, hfits⟩

theorem not_axisDefect (h : FirstAxes vs k m) (e : TensorError) : ¬ AxisDefect vs k e := by
  refine not_axisDefect_of_fits (fun hlt hl => ?_) (fun id o ho => ?_) e
  · exact (h.mem_iff _).mpr (hlt.trans ((h.mem_iff _).mp hl))
  · obtain ⟨d, -, -, hfits⟩ := h.exists_axis ho
    exact ⟨d, hfits⟩

end FirstAxes

/-! ### Basis functions in another order -/

section Perm

variable {ws : List BasisFunction} {m m' : MultiIndex}

theorem slotIds_eq_filterMap (vs : List BasisFunction) (k : SlotKind) :
    slotIds vs k = (occurrences vs).filterMap fun o => o.index.idOf? k := by
  rw [slotIds, ← map_index_occurrences, List.filterMap_map]
  rfl

/-- If no slot occurs twice, every occurrence is a first one. -/
theorem firstOccurrence_of_nodup (hn : (slotIds vs k).Nodup) (ho : o ∈ occurrences vs)
    (hid : o.index.idOf? k = some id) : FirstOccurrence vs k id o := by
  obtain ⟨first, hfirst⟩ :=
    mem_slotIds_iff_firstOccurrence.mp (mem_slotIds_iff_exists.mpr ⟨o, ho, hid⟩)
  obtain ⟨before, after, hvs, hbefore⟩ := hfirst.first
  rw [hvs, List.mem_append, List.mem_cons] at ho
  rcases ho with ho | rfl | ho
  · exact absurd hid (hbefore o ho)
  · exact hfirst
  · -- a later occurrence would list the identifier a second time
    have hcons : (first :: after).filterMap (fun o => o.index.idOf? k) =
        id :: after.filterMap fun o => o.index.idOf? k :=
      List.filterMap_cons_some (f := fun o : Occurrence => o.index.idOf? k) hfirst.slot
    rw [slotIds_eq_filterMap, hvs, List.filterMap_append, hcons, List.nodup_append] at hn
    exact absurd (List.mem_filterMap.mpr ⟨o, ho, hid⟩) (List.nodup_cons.mp hn.2.1).1

/-- If no slot occurs twice, the axes do not depend on the order of the basis functions. -/
theorem SlotAxes.of_perm (h : SlotAxes vs k m) (hperm : vs.Perm ws)
    (hn : (slotIds vs k).Nodup) : SlotAxes ws k m := by
  refine ⟨h.length_eq, h.rank_eq.trans (slotRank_perm hperm k), fun id i d hi hd => ?_⟩
  obtain ⟨o, ho, hoi, hfits⟩ := h.axis id i d hi hd
  have hmem : o ∈ occurrences ws := (hperm.flatMap_right _).mem_iff.mp ho.mem
  exact ⟨o, firstOccurrence_of_nodup ((slotIds_perm hperm k).nodup_iff.mp hn) hmem ho.slot, hoi,
    hfits⟩

/-- If the occurrences of each slot agree in their ranges, then so do the axes for the basis
functions in any order. -/
theorem SlotAxes.map_range_eq (h : SlotAxes vs k m) (h' : SlotAxes ws k m')
    (hperm : vs.Perm ws) (hb : BalancedIndices (indices vs)) :
    m.indices.map Index.range = m'.indices.map Index.range := by
  have hrank : m.rank = m'.rank := by rw [h.rank_eq, h'.rank_eq, slotRank_perm hperm k]
  refine List.ext_getElem? fun id => ?_
  rw [List.getElem?_map, List.getElem?_map]
  by_cases hid : id < m.rank
  · obtain ⟨o, -, ho, hi, -⟩ := h.exists_first hid
    obtain ⟨o', -, ho', hi', -⟩ := h'.exists_first (hrank ▸ hid)
    have ho'mem : o' ∈ occurrences vs := (hperm.flatMap_right _).mem_iff.mpr ho'.mem
    have hrange := (hb k id).2
      _ (List.mem_filter.mpr ⟨Occurrence.index_mem ho.mem, by rw [ho.slot, beq_self_eq_true]⟩)
      _ (List.mem_filter.mpr ⟨Occurrence.index_mem ho'mem, by rw [ho'.slot, beq_self_eq_true]⟩)
    rw [hi, hi', Option.map_some, Option.map_some, hrange]
  · rw [List.getElem?_eq_none (Nat.le_of_not_lt hid),
      List.getElem?_eq_none (hrank.symm.trans_le (Nat.le_of_not_lt hid))]

end Perm

end WeakForm
