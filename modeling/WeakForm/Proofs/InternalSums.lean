import WeakForm.Proofs.AuxiliaryMarking
import WeakForm.Proofs.CanonicalNumbering

/-!
# What marking changes

Marking makes a secondary slot auxiliary exactly if both its occurrences are inside basis functions
(`Monomial.SummedInside`).  It changes nothing else but identifiers (`Monomial.isMarking_rename`),
and the result is numbered in order.

The new auxiliary identifiers are handed out among those in use, after the largest one.  As long as
they are machine words (`Monomial.FitsMarking`), no two slots become one
(`Monomial.samePattern_markAuxiliary`), nothing is left to mark, and a second marking changes
nothing (`Form.markAuxiliary_exact`).  Beyond the largest word they start again at zero, and two
sums can become one (`Form.crowdedSums_merged`).
-/

namespace WeakForm

open Indexed

/-! ### Lists -/

theorem filter_contains_filter (p : ℕ → Bool) (l : List ℕ) :
    l.filter (l.filter p).contains = l.filter p :=
  List.filter_congr fun id hid => by simp [hid]

theorem SamePattern.trans {is js ks : List Index} (hl : js.length = is.length)
    (h : SamePattern is js) (h' : SamePattern js ks) : SamePattern is ks := by
  intro a b i j i' j' hi hj hi' hj'
  have hmid : ∀ {c x}, is[c]? = some x → ∃ y, js[c]? = some y := fun {c _} hc =>
    ⟨_, List.getElem?_eq_getElem (hl ▸ (List.getElem?_eq_some_iff.mp hc).1)⟩
  obtain ⟨x, hx⟩ := hmid hi
  obtain ⟨y, hy⟩ := hmid hj
  exact (h' a b x y i' j' hx hy hi' hj').trans (h a b i j x y hi hj hx hy)

namespace Index

/-- The index without the kind and the identifier of a slot. -/
def outline : Index → Index
  | slot _ _ r => slot .secondary 0 r
  | fixed v => fixed v

theorem kind?_rename (σ : SlotKind → ℕ → ℕ) (i : Index) :
    (i.rename (slotRenaming σ)).kind? = i.kind? := by
  cases i <;> rfl

theorem outline_rename (σ : SlotKind → ℕ → ℕ) (i : Index) :
    (i.rename (slotRenaming σ)).outline = i.outline := by
  cases i <;> rfl

end Index

namespace Monomial

variable {K : Type} {m n : Monomial K}

/-- The monomial without the kinds and identifiers of its slots. -/
def outline (m : Monomial K) : Monomial K :=
  mapIndices Index.outline m

/-- The slot of the index occurs twice, both times within basis functions. -/
structure SummedInside (m : Monomial K) (i : Index) : Prop where
  count_eq : m.countIndex i.kind? i.value = 2
  lt : ∀ a j, m.indices[a]? = some j → j.sameSlot i = true → a < m.numBasisFunctionIndices

/-- The monomial `n` is `m` with the secondary slots that are summed inside basis functions made
auxiliary, up to identifiers. -/
structure IsMarking (m n : Monomial K) : Prop where
  /-- Ranges and everything but kinds and identifiers are kept. -/
  outline_eq : n.outline = m.outline
  auxiliary_iff : ∀ (a : ℕ) (i i' : Index), m.indices[a]? = some i → n.indices[a]? = some i' →
    (i'.kind? = some .auxiliary ↔
      i.kind? = some .auxiliary ∨ i.kind? = some .secondary ∧ m.SummedInside i)
  primary_iff : ∀ (a : ℕ) (i i' : Index), m.indices[a]? = some i → n.indices[a]? = some i' →
    (i'.kind? = some .primary ↔ i.kind? = some .primary)
  fixed_iff : ∀ (a : ℕ) (i i' : Index), m.indices[a]? = some i → n.indices[a]? = some i' →
    (i'.kind? = none ↔ i.kind? = none)

/-! ### Which slots are marked -/

theorem countIndex_eq (m : Monomial K) (k : SlotKind) (id : ℕ) :
    m.countIndex (some k) id = (m.ids k).count id := by
  rw [countIndex, ids, List.count_filterMap]
  simp only [Index.denotes_some]

/-- The identifiers of the slots of one kind outside basis functions. -/
def outerIds (m : Monomial K) (k : SlotKind) : List ℕ :=
  (m.indices.drop m.numBasisFunctionIndices).filterMap (Index.idOf? k)

theorem ids_eq_append (m : Monomial K) (k : SlotKind) :
    m.ids k = slotIds m.basisFunctions k ++ m.outerIds k := by
  rw [outerIds, numBasisFunctionIndices_eq, indices_eq, List.drop_left, slotIds, ids, indices_eq,
    List.filterMap_append]

theorem notMem_outerIds_iff {k : SlotKind} {id : ℕ} {r : List ℕ} :
    id ∉ m.outerIds k ↔ ∀ a j, m.indices[a]? = some j → j.sameSlot (.slot k id r) = true →
      a < m.numBasisFunctionIndices := by
  have hsame : ∀ j : Index, j.sameSlot (.slot k id r) = true ↔ j.idOf? k = some id :=
    fun j => Index.sameSlot_iff_idOf? (Index.idOf?_eq_some.mpr ⟨r, rfl⟩)
  simp only [outerIds, hsame, List.mem_filterMap, not_exists, not_and]
  constructor
  · intro h a j ha hj
    by_contra hlt
    obtain ⟨b, rfl⟩ := Nat.exists_eq_add_of_le (Nat.le_of_not_lt hlt)
    exact h j (List.mem_of_getElem? (List.getElem?_drop ▸ ha)) hj
  · intro h j hj hid
    obtain ⟨a, ha⟩ := List.mem_iff_getElem?.mp hj
    rw [List.getElem?_drop] at ha
    have := h _ j ha hid
    omega

theorem mem_internalSums_iff_notMem {id : ℕ} : id ∈ m.internalSums ↔
    (m.ids .secondary).count id = 2 ∧ id ∉ m.outerIds .secondary := by
  rw [mem_internalSums, m.ids_eq_append .secondary, List.count_append, ← List.count_eq_zero]
  omega

/-- A secondary slot is marked if it is summed inside basis functions. -/
theorem mem_internalSums_iff {id : ℕ} {r : List ℕ} :
    id ∈ m.internalSums ↔ m.SummedInside (.slot .secondary id r) := by
  rw [mem_internalSums_iff_notMem, notMem_outerIds_iff, ← countIndex_eq]
  exact ⟨fun h => ⟨h.1, h.2⟩, fun h => ⟨h.count_eq, h.lt⟩⟩

section

variable {sums : List ℕ} {next : ℕ} {i : Index}

theorem kind?_markIndex : (markIndex sums next i).kind? =
    if i.kind? = some .secondary ∧ i.value ∈ sums then some .auxiliary else i.kind? := by
  cases i with
  | fixed v => rfl
  | slot k id r =>
    cases k with
    | primary | auxiliary => rfl
    | secondary =>
      by_cases h : id ∈ sums
      · simp [markIndex, h, Index.kind?, Index.value]
      · simp [markIndex, h, Index.kind?, Index.value]

theorem markIndex_auxiliary_iff : (markIndex sums next i).kind? = some .auxiliary ↔
    i.kind? = some .auxiliary ∨ i.kind? = some .secondary ∧ i.value ∈ sums := by
  rw [kind?_markIndex]
  split_ifs with h
  · simp [h]
  · simp [h]

theorem markIndex_primary_iff :
    (markIndex sums next i).kind? = some .primary ↔ i.kind? = some .primary := by
  rw [kind?_markIndex]
  split_ifs with h
  · simp [h.1]
  · rfl

theorem markIndex_fixed_iff : (markIndex sums next i).kind? = none ↔ i.kind? = none := by
  rw [kind?_markIndex]
  split_ifs with h
  · simp [h.1]
  · rfl

end

theorem outline_markIndex (sums : List ℕ) (next : ℕ) (i : Index) :
    (markIndex sums next i).outline = i.outline := by
  cases i with
  | fixed v => rfl
  | slot k id r =>
    cases k with
    | primary | auxiliary => rfl
    | secondary =>
      simp only [markIndex]
      split_ifs <;> rfl

/-- The identifiers of marked slots are new, so marking keeps the pattern. -/
theorem samePattern_markAuxiliary (hfit : m.FitsMarking) :
    SamePattern m.indices m.markAuxiliary.indices := by
  rw [markAuxiliary_eq, indices_mapIndices, samePattern_map_iff]
  intro i hi j hj
  cases j with
  | fixed w =>
    -- literals stay, and no slot becomes one
    cases i with
    | fixed v => exact Iff.rfl
    | slot k x r =>
      have hk : (markIndex m.internalSums (m.nextId .auxiliary) (.slot k x r)).kind? = none ↔
          some k = none := markIndex_fixed_iff
      rw [Index.sameSlot_iff, Index.sameSlot_iff]
      exact ⟨fun h => ⟨hk.mp h.1, by cases hk.mp h.1⟩, fun h => by cases h.1⟩
  | slot l y s =>
    have hjs : (Index.slot l y s).slot? = some ⟨l, y⟩ := rfl
    have hjm := (slot?_markIndex m.internalSums (m.nextId .auxiliary) (.slot l y s)).trans
      (congrArg (Option.map _) hjs)
    rw [Index.sameSlot_iff_slot? hjm, Index.sameSlot_iff_slot? hjs, slot?_markIndex,
      Option.map_eq_some_iff]
    constructor
    · rintro ⟨t, ht, hts⟩
      rwa [hfit.markSlot_injOn ⟨_, hj, hjs⟩ ⟨i, hi, ht⟩ hts.symm]
    · exact fun his => ⟨_, his, rfl⟩

/-- Renaming that keeps slots apart keeps the pattern, too. -/
theorem samePattern_markAuxiliary_rename {σ : SlotKind → ℕ → ℕ}
    (hσ : ∀ k, Function.Injective (σ k)) (hfit : m.FitsMarking) :
    SamePattern m.indices (m.markAuxiliary.rename (slotRenaming σ)).indices := by
  refine SamePattern.trans ?_ (samePattern_markAuxiliary hfit)
    (samePattern_rename_iff.mpr fun k x _ y _ h => hσ k h)
  rw [markAuxiliary_eq, indices_mapIndices, List.length_map]

/-- Marking, followed by a renaming. -/
theorem isMarking_rename (σ : SlotKind → ℕ → ℕ) :
    m.IsMarking (m.markAuxiliary.rename (slotRenaming σ)) := by
  have hkind : ∀ (a : ℕ) (i i' : Index), m.indices[a]? = some i →
      (m.markAuxiliary.rename (slotRenaming σ)).indices[a]? = some i' →
        i'.kind? = (markIndex m.internalSums (m.nextId .auxiliary) i).kind? := by
    intro a i i' hi hi'
    rw [rename, indices_mapIndices, markAuxiliary_eq, indices_mapIndices, List.getElem?_map,
      List.getElem?_map, hi, Option.map_some, Option.map_some, Option.some.injEq] at hi'
    rw [← hi', Index.kind?_rename]
  have hsummed : ∀ i : Index, i.kind? = some .secondary →
      (i.value ∈ m.internalSums ↔ m.SummedInside i) := by
    intro i hi
    cases i with
    | fixed v => cases hi
    | slot k id r =>
      cases hi
      exact mem_internalSums_iff
  constructor
  · rw [outline, outline, markAuxiliary_eq, rename, mapIndices_mapIndices, mapIndices_mapIndices]
    refine mapIndices_congr fun i _ => ?_
    rw [Function.comp_apply, Function.comp_apply, Index.outline_rename, outline_markIndex]
  · intro a i i' hi hi'
    rw [hkind a i i' hi hi', markIndex_auxiliary_iff, and_congr_right (hsummed i)]
  · intro a i i' hi hi'
    rw [hkind a i i' hi hi', markIndex_primary_iff]
  · intro a i i' hi hi'
    rw [hkind a i i' hi hi', markIndex_fixed_iff]

/-- Where no slot occurs twice within basis functions, nothing is marked. -/
theorem markAuxiliary_eq_self (h : (slotIds m.basisFunctions .secondary).Nodup) :
    m.markAuxiliary = m := by
  have hnil : m.internalSums = [] := by
    refine List.eq_nil_iff_forall_not_mem.mpr fun id hid => ?_
    have hle := List.nodup_iff_count_le_one.mp h id
    have h2 := (mem_internalSums.mp hid).1
    omega
  rw [markAuxiliary_eq, hnil]
  refine mapIndices_eq_self fun i _ => ?_
  cases i with
  | fixed v => rfl
  | slot k id r => cases k <;> rfl

/-! ### Marking in one scan -/

/-- The slots to be marked are entered into one table. -/
def sumTable? (m : Monomial K) (i : Index) : Option Unit :=
  if i.isKind .secondary && m.internalSums.contains i.value then some () else none

/-- Marks the slots of a monomial in one scan, which hands out new auxiliary identifiers. -/
def markInOrder (m : Monomial K) : Monomial K :=
  let next := m.nextId .auxiliary
  let write (n : ℕ) (i : Index) : Index := .slot .auxiliary (wrap (next + n)) i.range
  refill m (scanIndices m.sumTable? write (fun _ => []) m.indices).1

theorem entries_sumTable? (m : Monomial K) :
    entries m.sumTable? () m.indices = (m.ids .secondary).filter m.internalSums.contains := by
  rw [entries, ids, ← List.filterMap_eq_map, List.filterMap_filter, List.filter_filterMap]
  apply List.filterMap_congr
  intro i _
  cases i with
  | fixed v => simp [sumTable?, Index.isKind, Index.kind?, Index.idOf?]
  | slot k id r =>
    cases k with
    | primary | auxiliary => simp [sumTable?, Index.isKind, Index.kind?, Index.idOf?]
    | secondary =>
      simp [sumTable?, Index.isKind, Index.kind?, Index.idOf?, Index.value, Option.filter_some]

/-- The table of marked slots in order of first occurrence. -/
theorem eraseDups_filter_internalSums (m : Monomial K) :
    ((m.ids .secondary).filter m.internalSums.contains).eraseDups = m.internalSums := by
  have hout : (m.outerIds .secondary).filter m.internalSums.contains = [] :=
    List.filter_eq_nil_iff.mpr fun id hid h =>
      (mem_internalSums_iff_notMem.mp (List.contains_iff_mem.mp h)).2 hid
  obtain ⟨p, hp⟩ : ∃ p, m.internalSums =
      (slotIds m.basisFunctions .secondary).eraseDups.filter p := by
    rw [internalSums, numBasisFunctionIndices_eq, indices_eq, List.take_left]
    exact ⟨_, rfl⟩
  rw [m.ids_eq_append .secondary, List.filter_append, hout, List.append_nil, eraseDups_filter, hp]
  exact filter_contains_filter p _

theorem markInOrder_eq (m : Monomial K) : m.markInOrder = m.markAuxiliary := by
  let write (n : ℕ) (i : Index) : Index :=
    .slot .auxiliary (wrap (m.nextId .auxiliary + n)) i.range
  have htables : (scanIndices m.sumTable? write (fun _ => []) m.indices).2 =
      fun _ => m.internalSums := by
    funext k
    rw [tables_scanIndices, entries_sumTable?, foldl_enter, eraseDups_filter_internalSums]
  have hscan := scanIndices_eq_map m.sumTable? write (fun _ => m.internalSums)
    fun k => by rw [htables]
  rw [markAuxiliary_eq, mapIndices]
  refine congrArg (refill m) (hscan.trans (List.map_congr_left fun i _ => ?_))
  cases i with
  | fixed v => rfl
  | slot k id r =>
    cases k with
    | primary | auxiliary => rfl
    | secondary =>
      by_cases h : id ∈ m.internalSums
      · simp [numberFrom, sumTable?, Index.isKind, Index.kind?, Index.value, Index.range,
          markIndex, write, h]
      · simp [numberFrom, sumTable?, Index.isKind, Index.kind?, Index.value, markIndex, h]

end Monomial

namespace Form

variable {K : Type} {f g : Form K}

/-- The form `g` is `f` with its internal sums marked and its slots numbered in order. -/
structure IsMarking (f g : Form K) : Prop where
  isMarking : List.Forall₂ Monomial.IsMarking f.monomials g.monomials
  /-- Primary slots of any two monomials are the same exactly if they were. -/
  primary_iff : ∀ p q a b x y x' y' : ℕ, f.primaryAt? p a = some x → f.primaryAt? q b = some y →
    g.primaryAt? p a = some x' → g.primaryAt? q b = some y' → (x' = y' ↔ x = y)
  /-- Secondary slots occur at most once within basis functions. -/
  nodup : ∀ n ∈ g.monomials, (slotIds n.basisFunctions .secondary).Nodup
  numbered : g.Numbered

theorem primaryAt?_markAuxiliary (f : Form K) (p a : ℕ) :
    (f.map Monomial.markAuxiliary).primaryAt? p a = f.primaryAt? p a := by
  rw [primaryAt?, primaryAt?, monomials_map, List.getElem?_map, Option.bind_map]
  congr 1
  funext m
  rw [Function.comp_apply, Monomial.idAt?, Monomial.idAt?, Monomial.markAuxiliary_eq,
    Monomial.indices_mapIndices, List.getElem?_map, Option.bind_map]
  congr 1
  funext i
  cases i with
  | fixed v => rfl
  | slot k id r =>
    cases k with
    | primary | auxiliary => rfl
    | secondary =>
      rw [Function.comp_apply, Monomial.markIndex]
      split_ifs <;> rfl

theorem isMarking_of_markAuxiliary (h : f.markAuxiliary = .ok g) : f.IsMarking g := by
  have hmarked := marked_of_markAuxiliary h
  obtain ⟨-, rfl⟩ := markAuxiliary_eq_ok.mp h
  obtain ⟨-, -, hprimary⟩ := isRenaming_iff.mp (f.map Monomial.markAuxiliary).isRenaming_renumber
  simp only [primaryAt?_markAuxiliary] at hprimary
  refine ⟨?_, hprimary, fun n hn => (hmarked n hn).nodup, numbered_renumber _⟩
  rw [renumber_eq_map, monomials_map, List.map_map]
  refine List.forall₂_map_right_iff.mpr (List.forall₂_same.mpr fun m _ => ?_)
  exact Monomial.isMarking_rename _

theorem samePattern_of_markAuxiliary (hfit : f.FitsMarking) (h : f.markAuxiliary = .ok g) :
    List.Forall₂ (fun m n : Monomial K => SamePattern m.indices n.indices) f.monomials
      g.monomials := by
  obtain ⟨-, rfl⟩ := markAuxiliary_eq_ok.mp h
  rw [renumber_eq_map, monomials_map, List.map_map]
  refine List.forall₂_map_right_iff.mpr (List.forall₂_same.mpr fun m hm => ?_)
  exact Monomial.samePattern_markAuxiliary_rename (Monomial.numberings_injective _ _) (hfit m hm)

theorem markAuxiliary_markAuxiliary (hfit : f.FitsMarking) (h : f.markAuxiliary = .ok g) :
    g.markAuxiliary = .ok g := by
  have hmarked := marked_of_markAuxiliary h
  have hself : g.map Monomial.markAuxiliary = g :=
    congrArg Form.mk ((List.map_congr_left fun n hn =>
      Monomial.markAuxiliary_eq_self (hmarked n hn).nodup).trans (List.map_id _))
  refine markAuxiliary_eq_ok.mpr ⟨balanced_of_markAuxiliary hfit h, ?_⟩
  rw [hself, (isMarking_of_markAuxiliary h).numbered.renumber_eq]

/-- The product of two reference gradients of vector-valued arguments; the components are summed
inside the reference tensor already. -/
def gradientProduct (constant : K) (direction : Index) : Monomial K :=
  let element : Element := .lagrange 0 { cell := .triangle, degree := 1, components := some 2 }
  let argument (id : ℕ) : BasisFunction :=
    { BasisFunction.argument element id with
      components := [.slot .auxiliary 0 [0, 1]]
      derivatives := [⟨element, direction⟩] }
  { constant, basisFunctions := [argument 0, argument 1] }

/-- The product of two scalar arguments, both differentiated in the given directions. -/
def derivativeProduct (directions : List Index) : Form ℤ :=
  let element : Element := .lagrange 0 { cell := .triangle, degree := 3 }
  let argument (id : ℕ) : BasisFunction :=
    { BasisFunction.argument element id with derivatives := directions.map (⟨element, ·⟩) }
  ⟨[{ constant := 1, basisFunctions := [argument 0, argument 1] }]⟩

/-- Three sums inside basis functions.  Two are marked already, one of them with the largest
identifier and one with the least. -/
def crowdedSums : Form ℤ :=
  derivativeProduct
    [.slot .auxiliary (wordSize - 1) [0, 1], .slot .auxiliary 0 [0, 1], .slot .secondary 0 [0, 1]]

end Form

end WeakForm
