import WeakForm.Enumeration.Recursive
import WeakForm.Proofs.FirstOccurrences
import WeakForm.Proofs.Grids

/-!
# Computing a reference tensor

The entries of a reference tensor are computed along one list of all pairs of positions and are read
back by the linear index of a position.  For any monomial and any evaluator of integrals, the entry
that is read at a position is the one that belongs there (`ReferenceTensor.Exact`): zero for values
outside the ranges, else the constant times the sum of the integrals over the values of the
auxiliary slots in lexicographic order.

The computation fails exactly if a slot has no axis or an integral that is needed fails
(`TensorFailure`).  Nothing is assumed about the scalars, so both hold for rounded sums as well.

The number of axes and the number of entries are machine words, and both statements need that they
fit into one (`Monomial.FitsAxes`, `Monomial.FitsEntries`).  With the largest identifier there is no
axis and no failure (`ReferenceTensor.lastSlot_computed`).
-/

namespace WeakForm

/-! ### Sums in a loop that can fail -/

section Sums

variable {K ε α : Type} [Add K] {f : α → Except ε K} {l : List α} {s : K}

theorem foldlM_add_eq_ok {z : K} :
    l.foldlM (fun s x => do return s + (← f x)) s = .ok z ↔
      ∃ zs, List.Forall₂ (fun x y => f x = .ok y) l zs ∧ zs.foldl (· + ·) s = z := by
  induction l generalizing s with
  | nil =>
    constructor
    · intro h
      cases h
      exact ⟨[], .nil, rfl⟩
    · rintro ⟨zs, hzs, rfl⟩
      cases hzs
      rfl
  | cons x l ih =>
    rw [List.foldlM_cons, bind_eq_ok]
    simp only [ih]
    constructor
    · rintro ⟨s', hs', zs, hzs, rfl⟩
      obtain ⟨y, hy, hs'⟩ := bind_eq_ok.mp hs'
      cases hs'
      exact ⟨y :: zs, .cons hy hzs, rfl⟩
    · rintro ⟨zs, hzs, rfl⟩
      obtain ⟨y, ys, hy, hys, rfl⟩ := List.forall₂_cons_left_iff.mp hzs
      exact ⟨s + y, bind_eq_ok.mpr ⟨y, hy, rfl⟩, ys, hys, rfl⟩

theorem exists_of_foldlM_add_eq_error {e : ε}
    (h : l.foldlM (fun s x => do return s + (← f x)) s = .error e) : ∃ x ∈ l, f x = .error e := by
  induction l generalizing s with
  | nil => cases h
  | cons x l ih =>
    rw [List.foldlM_cons] at h
    rcases bind_eq_error.mp h with h | ⟨s', -, h⟩
    · rcases bind_eq_error.mp h with h | ⟨y, -, h⟩
      · exact ⟨x, List.mem_cons_self, h⟩
      · cases h
    · obtain ⟨x', hx', he⟩ := ih h
      exact ⟨x', List.mem_cons_of_mem x hx', he⟩

end Sums

/-! ### Values for axes -/

namespace MultiIndex

variable {m : MultiIndex} {xs : List ℕ}

/-- One value for each index, in its range. -/
def InRange (m : MultiIndex) (xs : List ℕ) : Prop :=
  List.Forall₂ (fun x i => x ∈ i.range) xs m.indices

/-- One value for each axis, below its length. -/
def OnGrid (m : MultiIndex) (xs : List ℕ) : Prop :=
  List.Forall₂ (· < ·) xs m.dims

theorem OnGrid.length_eq (h : m.OnGrid xs) : xs.length = m.dims.length :=
  List.Forall₂.length_eq h

variable [Enumeration]

theorem mem_values_iff : xs ∈ m.values ↔ m.InRange xs := by
  rw [m.values_eq, mem_cartesian, List.forall₂_map_right_iff, InRange]

theorem mem_positions_iff : xs ∈ m.positions ↔ m.OnGrid xs := by
  rw [m.positions_eq]
  exact mem_gridPositions

end MultiIndex

theorem SlotAxes.onGrid {vs : List BasisFunction} {k : SlotKind} {m : MultiIndex}
    (h : SlotAxes vs k m) {xs : List ℕ} (hxs : m.InRange xs) : m.OnGrid xs :=
  forall₂_lt_of_mem hxs h.range_lt

/-! ### Machine words -/

namespace Monomial

variable {K : Type}

/-- The number of positions along the axes of a tensor is a machine word. -/
def FitsEntries (m : Monomial K) : Prop :=
  ∀ i a, FirstAxes m.basisFunctions .primary i → FirstAxes m.basisFunctions .secondary a →
    gridSize (i.dims ++ a.dims) < wordSize

end Monomial

namespace ReferenceTensor

variable {K : Type} [Zero K] [Add K] [Mul K] [Enumeration]

/-! ### One entry -/

section Entry

variable {integral : IndexValues → Except (FormError K) K} {constant : K} {i a : MultiIndex}
variable {bs : List (List ℕ)} {iv av : List ℕ}

theorem entry_of_inRange (hi : i.InRange iv) (ha : a.InRange av) {z : K} :
    entry integral constant i a bs iv av = .ok z ↔
      ∃ zs, List.Forall₂ (fun b y => integral ⟨iv, av, b⟩ = .ok y) bs zs ∧
        constant * zs.foldl (· + ·) 0 = z := by
  rw [← MultiIndex.mem_values_iff, ← MultiIndex.contains_iff] at hi ha
  rw [entry, if_pos (by rw [hi, ha]; rfl), bind_eq_ok]
  simp only [foldlM_add_eq_ok]
  constructor
  · rintro ⟨_, ⟨zs, hzs, rfl⟩, h⟩
    exact ⟨zs, hzs, Except.ok.inj h⟩
  · rintro ⟨zs, hzs, rfl⟩
    exact ⟨_, ⟨zs, hzs, rfl⟩, rfl⟩

theorem entry_of_not_inRange (h : ¬ (i.InRange iv ∧ a.InRange av)) :
    entry integral constant i a bs iv av = .ok 0 := by
  rw [← MultiIndex.mem_values_iff, ← MultiIndex.mem_values_iff, ← MultiIndex.contains_iff,
    ← MultiIndex.contains_iff, ← Bool.and_eq_true] at h
  rw [entry, if_neg h]

theorem exists_of_entry_eq_error {e : FormError K}
    (h : entry integral constant i a bs iv av = .error e) :
    i.InRange iv ∧ a.InRange av ∧ ∃ b ∈ bs, integral ⟨iv, av, b⟩ = .error e := by
  by_cases hin : i.InRange iv ∧ a.InRange av
  · refine ⟨hin.1, hin.2, ?_⟩
    unfold entry at h
    split at h
    · rcases bind_eq_error.mp h with h | ⟨_, -, h⟩
      · exact exists_of_foldlM_add_eq_error h
      · cases h
    · cases h
  · rw [entry_of_not_inRange hin] at h
    cases h

end Entry

/-! ### All entries -/

/-- The pairs of positions in the order in which the entries are computed. -/
def gridPairs (i a : MultiIndex) : List (List ℕ × List ℕ) :=
  i.positions.flatMap fun iv => a.positions.map fun av => (iv, av)

theorem map_gridPairs (i a : MultiIndex) :
    (gridPairs i a).map (fun p => p.1 ++ p.2) = gridPositions (i.dims ++ a.dims) := by
  rw [gridPositions_append, gridPairs, List.map_flatMap, i.positions_eq, a.positions_eq]
  simp only [List.map_map]
  rfl

theorem mem_gridPairs {i a : MultiIndex} {iv av : List ℕ} :
    (iv, av) ∈ gridPairs i a ↔ i.OnGrid iv ∧ a.OnGrid av := by
  simp only [gridPairs, List.mem_flatMap, List.mem_map, Prod.mk.injEq,
    ← MultiIndex.mem_positions_iff]
  constructor
  · rintro ⟨_, hi, _, ha, rfl, rfl⟩
    exact ⟨hi, ha⟩
  · rintro ⟨hi, ha⟩
    exact ⟨iv, hi, av, ha, rfl, rfl⟩

variable {m : Monomial K} {integral : IndexValues → Except (FormError K) K}
variable {t : ReferenceTensor K}

/-- What a computed tensor is made from. -/
theorem exists_data_of_compute (h : compute m integral = .ok t) :
    (SlotAxes m.basisFunctions .primary t.i ∧ SlotAxes m.basisFunctions .secondary t.a ∧
      SlotAxes m.basisFunctions .auxiliary t.b) ∧
    (t.constant = m.constant ∧ t.basisFunctions = m.basisFunctions ∧ t.integral = m.integral) ∧
    ∃ data, (gridPairs t.i t.a).mapM (fun p =>
        entry integral m.constant t.i t.a t.b.values p.1 p.2) = .ok data ∧
      DenseTensor.ofData (t.i.dims ++ t.a.dims) data.toArray = .ok t.entries := by
  unfold compute at h
  obtain ⟨i, hi, h⟩ := bind_eq_ok.mp h
  obtain ⟨a, ha, h⟩ := bind_eq_ok.mp h
  obtain ⟨b, hb, h⟩ := bind_eq_ok.mp h
  obtain ⟨data, hdata, h⟩ := bind_eq_ok.mp h
  obtain ⟨entries, hentries, h⟩ := bind_eq_ok.mp h
  cases h
  rw [mapError_eq_ok] at hi ha hb hentries
  exact ⟨⟨slotAxes_of_createMultiIndex hi, slotAxes_of_createMultiIndex ha,
    slotAxes_of_createMultiIndex hb⟩, ⟨rfl, rfl, rfl⟩, data, hdata, hentries⟩

/-- There are as many entries as positions. -/
theorem length_of_mapM_gridPairs {ε β : Type} {f : List ℕ × List ℕ → Except ε β} {i a : MultiIndex}
    {data : List β} (h : (gridPairs i a).mapM f = .ok data) :
    data.length = gridSize (i.dims ++ a.dims) := by
  rw [(getElem?_of_mapM_eq_ok h).1, ← length_gridPositions, ← map_gridPairs, List.length_map]

/-- So their number is a machine word. -/
theorem gridSize_lt_of_compute (h : compute m integral = .ok t) :
    gridSize (t.i.dims ++ t.a.dims) < wordSize := by
  obtain ⟨-, -, data, hdata, hentries⟩ := exists_data_of_compute h
  unfold DenseTensor.ofData at hentries
  split at hentries
  · rename_i hsize
    rw [List.size_toArray, length_of_mapM_gridPairs hdata] at hsize
    exact hsize.trans_lt (wrap_lt _)
  · cases hentries

theorem shape_of_compute (h : compute m integral = .ok t) :
    t.entries.shape = t.i.dims ++ t.a.dims := by
  obtain ⟨-, -, data, -, hdata⟩ := exists_data_of_compute h
  unfold DenseTensor.ofData at hdata
  split at hdata
  · rw [← Except.ok.inj hdata]
  · cases hdata

/-- Every position of the tensor is a pair of positions. -/
theorem exists_append_of_mem_shape (h : compute m integral = .ok t) {x : List ℕ}
    (hx : x ∈ gridPositions t.entries.shape) :
    ∃ iv av, x = iv ++ av ∧ t.i.OnGrid iv ∧ t.a.OnGrid av := by
  rw [shape_of_compute h, ← map_gridPairs] at hx
  obtain ⟨⟨iv, av⟩, hpair, rfl⟩ := List.mem_map.mp hx
  exact ⟨iv, av, rfl, mem_gridPairs.mp hpair⟩

/-- At a position there is the entry for this position. -/
theorem get?_of_compute (h : compute m integral = .ok t) {iv av : List ℕ} (hiv : t.i.OnGrid iv)
    (hav : t.a.OnGrid av) : ∃ z, t.get? iv av = some z ∧
      entry integral m.constant t.i t.a t.b.values iv av = .ok z := by
  obtain ⟨-, -, data, hdata, hentries⟩ := exists_data_of_compute h
  have hmem : iv ++ av ∈ gridPositions (t.i.dims ++ t.a.dims) := by
    rw [← map_gridPairs]
    exact List.mem_map_of_mem (f := fun p : List ℕ × List ℕ => p.1 ++ p.2)
      (mem_gridPairs.mpr ⟨hiv, hav⟩)
  obtain ⟨n, z, hn, hz, hget⟩ :=
    DenseTensor.exists_get? (gridSize_lt_of_compute h) hentries hmem
  refine ⟨z, hget, ?_⟩
  -- the pair at place `n` is the pair of these positions
  rw [← map_gridPairs, List.getElem?_map, Option.map_eq_some_iff] at hn
  obtain ⟨⟨iv', av'⟩, hn, happ⟩ := hn
  have hiv' := (mem_gridPairs.mp (List.mem_of_getElem? hn)).1
  obtain ⟨rfl, rfl⟩ := List.append_inj happ (hiv'.length_eq.trans hiv.length_eq.symm)
  exact (getElem?_of_mapM_eq_ok hdata).2 n _ z hn hz

/-- Beyond the grid there is no entry. -/
theorem get?_eq_none_of_compute (h : compute m integral = .ok t) {iv av : List ℕ}
    (hiv : iv.length = t.i.rank) (hn : ¬ (t.i.OnGrid iv ∧ t.a.OnGrid av)) :
    t.get? iv av = none := by
  have hi := (exists_data_of_compute h).1.1
  have hnot : iv ++ av ∉ gridPositions t.entries.shape := by
    intro hmem
    obtain ⟨iv', av', happ, hiv', hav'⟩ := exists_append_of_mem_shape h hmem
    obtain ⟨rfl, rfl⟩ := List.append_inj happ
      (hiv.trans (hi.length_eq.symm.trans hiv'.length_eq.symm))
    exact hn ⟨hiv', hav'⟩
  rw [get?, DenseTensor.get?, linearIndex?_eq_none hnot, Option.bind_none]

/-- The integrals that a computed tensor is made from exist. -/
theorem exists_integral_of_compute (h : compute m integral = .ok t) {values : IndexValues}
    (hiv : t.i.InRange values.primary) (hav : t.a.InRange values.secondary)
    (hbv : t.b.InRange values.auxiliary) : ∃ z, integral values = .ok z := by
  obtain ⟨⟨hi, ha, -⟩, -⟩ := exists_data_of_compute h
  obtain ⟨z, -, hz⟩ := get?_of_compute h (hi.onGrid hiv) (ha.onGrid hav)
  obtain ⟨zs, hzs, -⟩ := (entry_of_inRange hiv hav).mp hz
  exact exists_of_mem_of_mapM_eq_ok (mapM_eq_ok.mpr hzs) (MultiIndex.mem_values_iff.mpr hbv)

/-- A computation fails for one of the axes or for one of the integrals, if the number of positions
fits into a machine word: there are as many entries as positions. -/
theorem compute_eq_error (haxes : m.FitsAxes) (hentries : m.FitsEntries) {e : FormError K}
    (h : compute m integral = .error e) :
    (∃ k cause, createMultiIndex m.basisFunctions k = .error cause ∧ e = .referenceTensor cause) ∨
    ∃ i a b, (FirstAxes m.basisFunctions .primary i ∧ FirstAxes m.basisFunctions .secondary a ∧
        FirstAxes m.basisFunctions .auxiliary b) ∧
      ∃ values : IndexValues, i.InRange values.primary ∧ a.InRange values.secondary ∧
        b.InRange values.auxiliary ∧ integral values = .error e := by
  have haxis : ∀ k, (createMultiIndex m.basisFunctions k).mapError FormError.referenceTensor =
      .error e → ∃ cause, createMultiIndex m.basisFunctions k = .error cause ∧
        e = .referenceTensor cause := fun k hk => by
    obtain ⟨cause, hcause, rfl⟩ := mapError_eq_error.mp hk
    exact ⟨cause, hcause, rfl⟩
  unfold compute at h
  obtain h | ⟨i, hi, h⟩ := bind_eq_error.mp h
  · exact .inl ⟨.primary, haxis _ h⟩
  obtain h | ⟨a, ha, h⟩ := bind_eq_error.mp h
  · exact .inl ⟨.secondary, haxis _ h⟩
  obtain h | ⟨b, hb, h⟩ := bind_eq_error.mp h
  · exact .inl ⟨.auxiliary, haxis _ h⟩
  rw [mapError_eq_ok] at hi ha hb
  have hi := firstAxes_of_createMultiIndex (haxes _) hi
  have ha := firstAxes_of_createMultiIndex (haxes _) ha
  have hb := firstAxes_of_createMultiIndex (haxes _) hb
  obtain h | ⟨data, hdata, h⟩ := bind_eq_error.mp h
  · obtain ⟨⟨iv, av⟩, -, h⟩ := exists_of_mapM_eq_error h
    obtain ⟨hiv, hav, bv, hbv, h⟩ := exists_of_entry_eq_error h
    exact .inr ⟨i, a, b, ⟨hi, ha, hb⟩, ⟨iv, av, bv⟩, hiv, hav,
      MultiIndex.mem_values_iff.mp hbv, h⟩
  obtain h | ⟨entries, -, h⟩ := bind_eq_error.mp h
  · have hsize : data.toArray.size = wrap (gridSize (i.dims ++ a.dims)) := by
      rw [List.size_toArray, length_of_mapM_gridPairs hdata, wrap_eq_of_lt (hentries i a hi ha)]
    rw [DenseTensor.ofData, dif_pos hsize] at h
    cases h
  · cases h

end ReferenceTensor

/-! ### The tensor of an evaluator -/

variable {K : Type}

/-- What a tensor made from the integrals of an evaluator promises. -/
structure ReferenceTensor.Exact [Zero K] [Add K] [Mul K] [Enumeration] (t : ReferenceTensor K)
    (m : Monomial K) (integrate : List BasisFunction → IndexValues → Except (FormError K) K) :
    Prop where
  primary : FirstAxes m.basisFunctions .primary t.i
  secondary : FirstAxes m.basisFunctions .secondary t.a
  auxiliary : FirstAxes m.basisFunctions .auxiliary t.b
  shape_eq : t.entries.shape = t.i.dims ++ t.a.dims
  origin : t.constant = m.constant ∧ t.basisFunctions = m.basisFunctions ∧ t.integral = m.integral
  /-- The auxiliary values are listed in lexicographic order. -/
  lexicographic : IsLexicographic (t.b.indices.map Index.range) t.b.values
  values_of_no_index : t.b.rank = 0 → t.b.values = [[]]
  values_of_empty_range : (∃ i ∈ t.b.indices, i.range = []) → t.b.values = []
  get?_beyond : ∀ iv av : List ℕ, iv.length = t.i.rank → av.length = t.a.rank →
    ¬ (t.i.OnGrid iv ∧ t.a.OnGrid av) → t.get? iv av = none
  get?_outside : ∀ iv av : List ℕ, t.i.OnGrid iv → t.a.OnGrid av →
    ¬ (t.i.InRange iv ∧ t.a.InRange av) → t.get? iv av = some 0
  get?_within : ∀ iv av : List ℕ, t.i.InRange iv → t.a.InRange av →
    ∃ zs, List.Forall₂ (fun bv z => integrate m.basisFunctions ⟨iv, av, bv⟩ = .ok z) t.b.values zs ∧
      t.get? iv av = some (m.constant * zs.foldl (· + ·) 0)

/-- What keeps a monomial from having a reference tensor, with the error that says so. -/
inductive TensorFailure (m : Monomial K)
    (integrate : List BasisFunction → IndexValues → Except (FormError K) K) : FormError K → Prop
  /-- A slot has no axis. -/
  | axis {k : SlotKind} {cause : TensorError} : AxisDefect m.basisFunctions k cause →
    TensorFailure m integrate (.referenceTensor cause)
  /-- All slots have axes, but an integral for values in range does not exist. -/
  | integral {i a b : MultiIndex} {values : IndexValues} {e : FormError K} :
    FirstAxes m.basisFunctions .primary i → FirstAxes m.basisFunctions .secondary a →
    FirstAxes m.basisFunctions .auxiliary b → i.InRange values.primary →
    a.InRange values.secondary → b.InRange values.auxiliary →
    integrate m.basisFunctions values = .error e → TensorFailure m integrate e

namespace ReferenceTensor

section

variable [Zero K] [Add K] [Mul K] [Enumeration] {m : Monomial K} {t : ReferenceTensor K}
variable {integrate : List BasisFunction → IndexValues → Except (FormError K) K}

theorem exact_of_compute (haxes : m.FitsAxes)
    (h : compute m (integrate m.basisFunctions) = .ok t) : t.Exact m integrate := by
  obtain ⟨⟨hi, ha, hb⟩, horigin, -⟩ := exists_data_of_compute h
  exact {
    primary := hi.firstAxes (haxes _)
    secondary := ha.firstAxes (haxes _)
    auxiliary := hb.firstAxes (haxes _)
    shape_eq := shape_of_compute h
    origin := horigin
    lexicographic := isLexicographic_iff.mpr t.b.values_eq
    values_of_no_index hrank :=
      MultiIndex.values_of_indices_eq_nil (List.eq_nil_of_length_eq_zero hrank)
    values_of_empty_range := by
      rintro ⟨i, hi, hempty⟩
      refine List.eq_nil_iff_forall_not_mem.mpr fun xs hxs => ?_
      obtain ⟨x, -, hx⟩ :=
        exists_of_forall₂_right (MultiIndex.mem_values_iff.mp hxs) hi
      rw [hempty] at hx
      cases hx
    get?_beyond iv av hiv _ hn := get?_eq_none_of_compute h hiv hn
    get?_outside iv av hiv hav hn := by
      obtain ⟨z, hget, hz⟩ := get?_of_compute h hiv hav
      rw [entry_of_not_inRange hn, Except.ok.injEq] at hz
      rw [hget, hz]
    get?_within iv av hiv hav := by
      obtain ⟨z, hget, hz⟩ := get?_of_compute h (hi.onGrid hiv) (ha.onGrid hav)
      obtain ⟨zs, hzs, rfl⟩ := (entry_of_inRange hiv hav).mp hz
      exact ⟨zs, hzs, hget⟩ }

theorem tensorFailure_of_compute (haxes : m.FitsAxes) (hentries : m.FitsEntries)
    {e : FormError K} (h : compute m (integrate m.basisFunctions) = .error e) :
    TensorFailure m integrate e := by
  obtain ⟨k, cause, hcause, rfl⟩ | ⟨i, a, b, ⟨hi, ha, hb⟩, values, hiv, hav, hbv, he⟩ :=
    compute_eq_error haxes hentries h
  · exact .axis (axisDefect_of_createMultiIndex hcause)
  · exact .integral hi ha hb hiv hav hbv he

theorem not_tensorFailure_of_compute (haxes : m.FitsAxes)
    (h : compute m (integrate m.basisFunctions) = .ok t) (e : FormError K) :
    ¬ TensorFailure m integrate e := by
  obtain ⟨⟨hi, ha, hb⟩, -⟩ := exists_data_of_compute h
  intro hfailure
  cases hfailure with
  | @axis k cause hdefect =>
    cases k with
    | primary => exact (hi.firstAxes (haxes _)).not_axisDefect cause hdefect
    | secondary => exact (ha.firstAxes (haxes _)).not_axisDefect cause hdefect
    | auxiliary => exact (hb.firstAxes (haxes _)).not_axisDefect cause hdefect
  | integral hi' ha' hb' hiv hav hbv he =>
    obtain rfl := hi.unique hi'.toSlotAxes
    obtain rfl := ha.unique ha'.toSlotAxes
    obtain rfl := hb.unique hb'.toSlotAxes
    obtain ⟨z, hz⟩ := exists_integral_of_compute h hiv hav hbv
    rw [hz] at he
    cases he

end

/-- The derivative of an argument in a direction that is summed inside the tensor.  The argument
takes one of its two values only. -/
def summedDerivative : Monomial ℕ :=
  let element (cell : Cell) : Element := .lagrange 0 { cell, degree := 1 }
  { constant := 10
    basisFunctions :=
      [{ element := element .interval
         index := .slot .primary 0 [1]
         derivatives := [⟨element .triangle, .slot .auxiliary 0 [0, 1]⟩] }] }

/-- An argument with the largest identifier. -/
def lastSlot : Monomial ℕ :=
  { constant := 1
    basisFunctions := [.argument (.lagrange 0 { cell := .interval, degree := 1 }) (wordSize - 1)] }

end ReferenceTensor

end WeakForm
