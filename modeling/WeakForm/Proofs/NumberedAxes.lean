import WeakForm.Proofs.FirstOccurrences
import WeakForm.Proofs.InternalSums
import WeakForm.Proofs.SharedTensors
import WeakForm.Simplify

/-!
# Axes of numbered forms

Numbering takes the slots of a form in order: monomial by monomial, and in each of them the basis
functions come first.  So what a reference tensor sees, which is the basis functions of one
monomial, is an initial segment, and its slots are `0, …, n - 1` without a gap (`NumberedAxes`).
For primary slots, which are numbered across the form, this needs that all monomials have the same
ones.

Renumbering is the last step of simplification and of marking, and reordering leaves representatives
as they are, so all of these have gapless axes (`Form.numberedAxes`).
-/

namespace WeakForm

open Indexed

/-! ### Initial segments -/

/-- An initial segment of a list that is numbered in order of first occurrence has no gaps. -/
theorem exists_mem_iff_lt {l l' : List ℕ} {n : ℕ} (h : (l ++ l').eraseDups = List.range n) :
    ∃ n, ∀ id, id ∈ l ↔ id < n := by
  rw [List.eraseDups_append] at h
  have hprefix : l.eraseDups <+: List.range n := h ▸ List.prefix_append _ _
  rw [List.prefix_iff_eq_take, List.take_range] at hprefix
  refine ⟨min l.eraseDups.length n, fun id => ?_⟩
  rw [← List.mem_eraseDups, hprefix, List.mem_range, ← hprefix]

theorem slotsFit_of_mem_iff {vs : List BasisFunction} {k : SlotKind} {n : ℕ}
    (h : ∀ id, id ∈ slotIds vs k ↔ id < n) (hn : n < wordSize) : SlotsFit vs k := fun id hid =>
  (Nat.succ_le_of_lt ((h id).mp hid)).trans_lt hn

/-! ### Axes without gaps -/

/-- The slots of one kind in the basis functions are `0, …, n - 1`, so none of the axes is missing
and they are in order.  The number of axes is a machine word, as is the length of every list in
memory. -/
structure NumberedAxes (vs : List BasisFunction) (k : SlotKind) (n : ℕ) : Prop where
  mem_iff : ∀ id, id ∈ slotIds vs k ↔ id < n
  not_missing : ∀ i, createMultiIndex vs k ≠ .error (.noOccurrence i)
  /-- The axes exist if each slot can have one. -/
  exists_iff : n < wordSize → ((∃ m, createMultiIndex vs k = .ok m) ↔
    ∀ id o, FirstOccurrence vs k id o → ∃ d, o.Fits d)
  of_eq_ok : n < wordSize → ∀ m, createMultiIndex vs k = .ok m →
    m.rank = n ∧ m.indices.map (Index.idOf? k) = (List.range n).map some

variable {vs : List BasisFunction} {k : SlotKind} {n : ℕ}

theorem FirstAxes.map_idOf? {m : MultiIndex} (h : FirstAxes vs k m) :
    m.indices.map (Index.idOf? k) = (List.range m.rank).map some := by
  refine List.ext_getElem (by simp [MultiIndex.rank]) fun id hid _ => ?_
  rw [List.length_map] at hid
  obtain ⟨o, ho⟩ := mem_slotIds_iff_firstOccurrence.mp ((h.mem_iff id).mpr hid)
  obtain ⟨d, hi, -⟩ := h.exists_axis ho
  rw [List.getElem?_eq_getElem hid, Option.some.injEq] at hi
  rw [List.getElem_map, List.getElem_map, List.getElem_range, hi, ho.slot]

theorem numberedAxes_of_mem_iff (h : ∀ id, id ∈ slotIds vs k ↔ id < n) : NumberedAxes vs k n := by
  have hgap : ∀ {id larger}, id < larger → larger ∈ slotIds vs k → id ∈ slotIds vs k :=
    fun hlt hl => (h _).mpr (hlt.trans ((h _).mp hl))
  have hfit : n < wordSize → SlotsFit vs k := slotsFit_of_mem_iff h
  constructor
  · exact h
  · intro i hi
    -- the only defect with this error is a gap
    cases axisDefect_of_createMultiIndex hi with
    | missing hlt hl hid => exact hid (hgap hlt hl)
  · intro hn
    constructor
    · rintro ⟨m, hm⟩ id o ho
      obtain ⟨d, -, -, hfits⟩ := (firstAxes_of_createMultiIndex (hfit hn) hm).exists_axis ho
      exact ⟨d, hfits⟩
    · intro hfits
      by_contra hnone
      obtain ⟨e, he⟩ := exists_eq_error_iff.mpr hnone
      exact not_axisDefect_of_fits hgap hfits e (axisDefect_of_createMultiIndex he)
  · intro hn m hm
    have hm := firstAxes_of_createMultiIndex (hfit hn) hm
    obtain rfl : m.rank = n :=
      eq_of_forall_lt_iff fun id => (hm.mem_iff id).symm.trans (h id)
    exact ⟨rfl, hm.map_idOf?⟩

/-! ### Numbered forms -/

namespace Form

variable {K : Type} {f g : Form K}

/-- All monomials have the same primary slots in their basis functions. -/
def SamePrimary (f : Form K) : Prop :=
  ∀ m ∈ f.monomials, ∀ n ∈ f.monomials, ∀ id,
    id ∈ slotIds m.basisFunctions .primary ↔ id ∈ slotIds n.basisFunctions .primary

/-- All axes of the monomials of a form, and of the representatives after reordering, are numbered;
primary ones are, if all monomials have the same. -/
structure AxesNumbered [Enumeration] (g : Form K) : Prop where
  monomials : ∀ m ∈ g.monomials, ∀ k, (k = .primary → g.SamePrimary) →
    ∃ n, NumberedAxes m.basisFunctions k n
  representatives : ∀ h F, g.reorder = .ok (h, F) → ∀ (i : ℕ) (m : Monomial K),
    F[i]? = some none → h.monomials[i]? = some m → ∀ k, (k = .primary → g.SamePrimary) →
      ∃ n, NumberedAxes m.basisFunctions k n

/-- The identifiers in basis functions come first, in each monomial and so in the first one. -/
theorem Numbered.exists_mem_iff (h : g.Numbered) {m : Monomial K} (hm : m ∈ g.monomials)
    {k : SlotKind} (hk : k = .primary → g.SamePrimary) :
    ∃ n, ∀ id, id ∈ slotIds m.basisFunctions k ↔ id < n := by
  cases k with
  | secondary =>
    obtain ⟨n, hn⟩ := h.secondary m hm
    rw [Monomial.ids_eq_append] at hn
    exact exists_mem_iff_lt hn
  | auxiliary =>
    obtain ⟨n, hn⟩ := h.auxiliary m hm
    rw [Monomial.ids_eq_append] at hn
    exact exists_mem_iff_lt hn
  | primary =>
    obtain ⟨n, hn⟩ := h.primary
    have hsame := hk rfl
    obtain ⟨first, rest, hg⟩ := List.exists_cons_of_ne_nil (List.ne_nil_of_mem hm)
    rw [ids, hg, List.flatMap_cons, Monomial.ids_eq_append, List.append_assoc] at hn
    obtain ⟨n, hn⟩ := exists_mem_iff_lt hn
    have hfirst : first ∈ g.monomials := hg ▸ List.mem_cons_self
    exact ⟨n, fun id => (hsame m hm first hfirst id).trans (hn id)⟩

/-- A list of indices in memory is short enough for the numbers of its slots to be machine words. -/
theorem Numbered.fitsAxes (h : g.Numbered) (hsame : g.SamePrimary) {m : Monomial K}
    (hm : m ∈ g.monomials) (hlength : m.indices.length < wordSize) : m.FitsAxes := by
  intro k
  obtain ⟨n, hn⟩ := h.exists_mem_iff hm (k := k) fun _ => hsame
  refine slotsFit_of_mem_iff hn (lt_of_le_of_lt ?_ hlength)
  calc n = (List.range n).length := List.length_range.symm
    _ ≤ (slotIds m.basisFunctions k).length :=
        (List.nodup_range.subperm fun id hid => (hn id).mpr (List.mem_range.mp hid)).length_le
    _ ≤ (Indexed.indices m.basisFunctions).length := List.length_filterMap_le _ _
    _ ≤ m.indices.length := (List.sublist_append_left _ _).length_le

/-- Reordering leaves representatives as they are. -/
theorem mem_of_representative [Enumeration] {h : Form K} {F : List (Option ℕ)}
    (hr : g.reorder = .ok (h, F)) {i : ℕ} {m : Monomial K} (hF : F[i]? = some none)
    (hm : h.monomials[i]? = some m) : m ∈ g.monomials := by
  obtain ⟨es, hes, hreached⟩ | ⟨_, _, _, he, -, -⟩ := g.reorder_cases
  · rw [hr] at hes
    cases hes
    obtain ⟨m', hm', hl⟩ := (hreached.getElem?_eq_none_iff i).mp hF
    have hsame := hreached.getElem?_monomial hm' hl
    rw [hm, Option.some.injEq] at hsame
    rw [hsame]
    exact List.mem_of_getElem? hm'
  · rw [hr] at he
    cases he

theorem Numbered.axesNumbered [Enumeration] (h : g.Numbered) : g.AxesNumbered := by
  have hall : ∀ m ∈ g.monomials, ∀ k, (k = .primary → g.SamePrimary) →
      ∃ n, NumberedAxes m.basisFunctions k n := by
    intro m hm k hk
    obtain ⟨n, hn⟩ := h.exists_mem_iff hm hk
    exact ⟨n, numberedAxes_of_mem_iff hn⟩
  exact ⟨hall, fun h F hr i m hF hm => hall m (mem_of_representative hr hF hm)⟩

/-! ### Where forms are numbered -/

/-- Numbering tells primary slots apart, so it keeps whether monomials have the same ones. -/
theorem samePrimary_renumber : f.renumber.SamePrimary ↔ f.SamePrimary := by
  have hinj := numbering_injective (f.ids .primary)
  have hids : ∀ m : Monomial K, slotIds (m.rename (slotRenaming
      (m.numberings (f.ids .primary)))).basisFunctions .primary =
        (slotIds m.basisFunctions .primary).map (numbering (f.ids .primary)) := fun m =>
    m.slotIds_rename _ .primary
  rw [renumber_eq_map]
  simp only [SamePrimary, List.forall_mem_map, hids]
  refine forall₂_congr fun m _ => forall₂_congr fun n _ => ⟨fun h id => ?_, fun h id => ?_⟩
  · have hid := h (numbering (f.ids .primary) id)
    rwa [List.mem_map_of_injective hinj, List.mem_map_of_injective hinj] at hid
  · simp only [List.mem_map, h]

section Simplify

variable [Constant K] [BEq K] [Add K] [Zero K]

theorem exists_renumber_of_settle {limit : ℕ} (h : f.settle limit = .ok g) :
    ∃ u : Form K, g = u.renumber := by
  induction limit generalizing f with
  | zero => cases h
  | succ limit ih =>
    obtain ⟨next, hnext, h⟩ := bind_eq_ok.mp h
    split at h
    · cases h
      obtain ⟨contracted, -, hnext⟩ := bind_eq_ok.mp hnext
      dsimp only at hnext
      split at hnext
      · cases hnext
      · cases hnext
        exact ⟨_, rfl⟩
    · exact ih h

theorem exists_renumber_of_simplify (h : f.simplify = .ok g) : ∃ u : Form K, g = u.renumber := by
  obtain ⟨hb, hf⟩ := checks_of_simplify h
  unfold simplify at h
  rw [(imbalance?_eq_none_iff f).mpr hb, hf] at h
  obtain ⟨result, hresult, h⟩ := bind_eq_ok.mp h
  split at h
  · cases h
  · cases h
    exact exists_renumber_of_settle hresult

/-- After renumbering, simplification or marking, every axis that a reference tensor looks for is
there. -/
theorem numberedAxes [Enumeration] (f : Form K) :
    (f.renumber.AxesNumbered ∧ (f.renumber.SamePrimary ↔ f.SamePrimary)) ∧
    (∀ g, f.simplify = .ok g → g.AxesNumbered) ∧
    (∀ g, f.markAuxiliary = .ok g → g.AxesNumbered) := by
  refine ⟨⟨f.numbered_renumber.axesNumbered, samePrimary_renumber⟩, fun g hg => ?_, fun g hg => ?_⟩
  · obtain ⟨u, rfl⟩ := exists_renumber_of_simplify hg
    exact u.numbered_renumber.axesNumbered
  · obtain ⟨-, rfl⟩ := markAuxiliary_eq_ok.mp hg
    exact (numbered_renumber _).axesNumbered

end Simplify

/-- A primary slot that only another monomial has is missing. -/
example :
    let argument : ℕ → BasisFunction := .argument (.lagrange 0 { cell := .triangle, degree := 1 })
    let f : Form ℕ := ⟨[{ constant := 1, basisFunctions := [argument 0, argument 1] },
      { constant := 1, basisFunctions := [argument 1] }]⟩
    f.renumber.monomials.map (fun m => createMultiIndex m.basisFunctions .primary) =
      [.ok (.ofDims .primary [3, 3]), .error (.noOccurrence (.slot .primary 0 []))] := by cbv

end Form

end WeakForm
