import Mathlib.Algebra.Ring.Int.Defs
import WeakForm.Proofs.Pairwise
import WeakForm.Proofs.Renumbering
import WeakForm.Simplify

/-!
# Products of determinants

Determinants on the same side of a facet are multiplied, and a constant one is multiplied with the
first determinant that it meets.  One sweep leaves nothing to multiply: while the first determinant
absorbs the others, its power is the sum of the powers on its side and of the constant powers
(`Determinant.absorbs_multiply`), so no constant determinant is left for the second one.

The result has one determinant for each side that occurs (`Determinant.bySide`); if there are only
constant determinants, it is one constant determinant (`Monomial.contractDeterminants_closedForm`).
-/

namespace WeakForm

/-- The first of two sides, where `constant` is none. -/
def Restriction.orElse (r s : Restriction) : Restriction :=
  if r = .constant then s else r

theorem Restriction.orElse_assoc (r s t : Restriction) :
    (r.orElse s).orElse t = r.orElse (s.orElse t) := by
  cases r <;> rfl

namespace Determinant

/-! ### Sides and powers -/

/-- The determinants that end up in one determinant on the given side: those on that side and the
constant ones. -/
def joins (r : Restriction) (d : Determinant) : Bool :=
  d.restriction = r ∨ d.restriction = .constant

/-- The sum of the powers. -/
def totalPower (ds : List Determinant) : ℤ :=
  (ds.map (·.power)).sum

/-- The sum of the powers of the determinants with one restriction. -/
def powerOn (r : Restriction) (ds : List Determinant) : ℤ :=
  totalPower (ds.filter (·.restriction = r))

/-- The restrictions other than `constant`, in order of first occurrence. -/
def sides (ds : List Determinant) : List Restriction :=
  ((ds.map (·.restriction)).filter (· ≠ .constant)).eraseDups

/-- One determinant for each side, with the powers on that side.  The first one takes the constant
powers along. -/
def bySide (ds : List Determinant) : List Determinant :=
  ((sides ds).map fun r => ⟨powerOn r ds, r⟩).modifyHead fun d =>
    { d with power := d.power + powerOn .constant ds }

/-- The first side; if there is none, all determinants are constant. -/
def firstSide (ds : List Determinant) : Restriction :=
  (sides ds).headD .constant

theorem mem_sides {r : Restriction} {ds : List Determinant} :
    r ∈ sides ds ↔ r ≠ .constant ∧ ∃ d ∈ ds, d.restriction = r := by
  simp [sides, and_comm]

theorem nodup_sides (ds : List Determinant) : (sides ds).Nodup :=
  nodup_eraseDups _

theorem sides_eq_nil_iff {ds : List Determinant} :
    sides ds = [] ↔ ∀ d ∈ ds, d.restriction = .constant := by
  rw [List.eq_nil_iff_forall_not_mem]
  constructor
  · intro h d hd
    by_contra hne
    exact h _ (mem_sides.mpr ⟨hne, d, hd, rfl⟩)
  · intro h r hr
    obtain ⟨hne, d, hd, rfl⟩ := mem_sides.mp hr
    exact hne (h d hd)

/-- The determinants that do not join a side have the other sides, in order. -/
theorem sides_filter_joins (r : Restriction) (ds : List Determinant) :
    sides (ds.filter fun d => !joins r d) = (sides ds).filter (· ≠ r) := by
  have hmap : (ds.filter fun d => !joins r d).map (·.restriction) =
      (ds.map (·.restriction)).filter fun s => s ≠ r ∧ s ≠ .constant := by
    rw [List.filter_map]
    congr 1
    refine List.filter_congr fun d _ => ?_
    simp [joins]
  rw [sides, sides, hmap, ← eraseDups_filter, List.filter_filter, List.filter_filter]
  congr 1
  refine List.filter_congr fun s _ => ?_
  by_cases hs : s = .constant <;> simp [hs]

theorem firstSide_cons (d : Determinant) (ds : List Determinant) :
    firstSide (d :: ds) = d.restriction.orElse (firstSide ds) := by
  rw [firstSide, sides, List.map_cons, List.filter_cons, Restriction.orElse]
  by_cases hd : d.restriction = .constant
  · simp only [hd, ne_eq, not_true_eq_false, decide_false, Bool.false_eq_true, if_false, if_true]
    rfl
  · simp [hd, List.eraseDups_cons]

theorem joins_firstSide (d : Determinant) (ds : List Determinant) :
    joins (firstSide (d :: ds)) d = true := by
  rw [firstSide_cons, Restriction.orElse, joins]
  by_cases hd : d.restriction = .constant <;> simp [hd]

/-! ### One product -/

theorem multiply_eq_none_iff {d e : Determinant} : d.multiply e = none ↔
    d.restriction ≠ e.restriction ∧ d.restriction ≠ .constant ∧ e.restriction ≠ .constant := by
  unfold multiply
  split_ifs <;> simp_all

/-- A product is taken on the first side of its factors. -/
theorem eq_of_multiply_eq_some {d e p : Determinant} (h : d.multiply e = some p) :
    p = ⟨d.power + e.power, d.restriction.orElse e.restriction⟩ := by
  unfold multiply at h
  split_ifs at h with heq hd he
  · cases h
    rw [heq, Restriction.orElse, ite_self]
  · cases h
    rw [Restriction.orElse, if_pos hd]
  · cases h
    rw [Restriction.orElse, if_neg hd]

theorem joins_of_multiply_eq_some {d e p : Determinant} (h : d.multiply e = some p)
    (ds : List Determinant) : joins (firstSide (d :: e :: ds)) e = true := by
  by_cases hd : d.restriction = .constant
  · rw [firstSide_cons, Restriction.orElse, if_pos hd]
    exact joins_firstSide e ds
  · rw [firstSide_cons, Restriction.orElse, if_neg hd, joins, decide_eq_true_iff]
    by_contra hne
    rw [not_or] at hne
    rw [multiply_eq_none_iff.mpr ⟨Ne.symm hne.1, hd, hne.2⟩] at h
    cases h

/-! ### One sweep -/

/-- The first determinant absorbs those that join its side, or the first side that it meets. -/
theorem absorbs_multiply {d p : Determinant} {rest kept : List Determinant}
    (h : Absorbs (fun d e r => d.multiply e = r) d rest p kept) :
    p = ⟨totalPower ((d :: rest).filter (joins (firstSide (d :: rest)))), firstSide (d :: rest)⟩ ∧
      kept = rest.filter fun e => !joins (firstSide (d :: rest)) e := by
  induction h with
  | nil d =>
    have hside : firstSide [d] = d.restriction := by
      rw [firstSide_cons]
      cases d.restriction <;> rfl
    rw [List.filter_cons_of_pos (joins_firstSide d []), hside]
    simp [totalPower]
  | @combine d e c p rest kept hr _ ih =>
    have he := joins_of_multiply_eq_some hr rest
    obtain rfl := eq_of_multiply_eq_some hr
    have hside : firstSide (⟨d.power + e.power, d.restriction.orElse e.restriction⟩ :: rest) =
        firstSide (d :: e :: rest) := by
      rw [firstSide_cons, firstSide_cons d, firstSide_cons e, Restriction.orElse_assoc]
    rw [List.filter_cons_of_pos (joins_firstSide _ rest), hside] at ih
    rw [List.filter_cons_of_pos (joins_firstSide d _), List.filter_cons_of_pos he,
      List.filter_cons_of_neg (by rw [he]; decide)]
    simpa [totalPower, add_assoc] using ih
  | @keep d e p rest kept hr _ ih =>
    obtain ⟨hne, hd, he⟩ := multiply_eq_none_iff.mp hr
    have hside : ∀ ds, firstSide (d :: ds) = d.restriction := fun ds => by
      rw [firstSide_cons, Restriction.orElse, if_neg hd]
    have hjoins : joins d.restriction e = false := by simp [joins, hne.symm, he]
    rw [List.filter_cons_of_pos (joins_firstSide d _), hside] at ih ⊢
    rw [List.filter_cons_of_neg (by rw [hjoins]; decide),
      List.filter_cons_of_pos (by rw [hjoins]; rfl), ih.2]
    exact ⟨ih.1, rfl⟩

/-- What joins a side has the powers on that side and the constant ones. -/
theorem totalPower_filter_joins {r : Restriction} (hr : r ≠ .constant) (ds : List Determinant) :
    totalPower (ds.filter (joins r)) = powerOn r ds + powerOn .constant ds := by
  induction ds with
  | nil => rfl
  | cons d ds ih =>
    simp only [powerOn, totalPower] at ih ⊢
    by_cases h : d.restriction = r
    · simp [joins, h, hr, ih, add_assoc]
    · by_cases hc : d.restriction = .constant
      · simp [joins, hc, hr.symm, ih, add_left_comm]
      · simp [joins, h, hc, ih]

/-- What does not join a side has the other powers. -/
theorem powerOn_filter_joins {r s : Restriction} (hs : joins r ⟨0, s⟩ = false)
    (ds : List Determinant) : powerOn s (ds.filter fun d => !joins r d) = powerOn s ds := by
  rw [powerOn, List.filter_filter, powerOn]
  congr 1
  refine List.filter_congr fun d _ => ?_
  by_cases hd : d.restriction = s
  · simp only [joins] at hs ⊢
    simp [hd, hs]
  · simp [hd]

/-! ### Runs -/

theorem map_restriction_bySide (ds : List Determinant) :
    (bySide ds).map (·.restriction) = sides ds := by
  rw [bySide]
  cases sides ds with
  | nil => rfl
  | cons r rs => simp [Function.comp_def]

/-- Without the determinants that join the first side, those on the other sides are left. -/
theorem bySide_filter_joins {r : Restriction} {rs : List Restriction} {ds : List Determinant}
    (h : sides ds = r :: rs) : bySide (ds.filter fun d => !joins r d) =
      rs.map fun s => ⟨powerOn s ds, s⟩ := by
  have hnodup := nodup_sides ds
  rw [h, List.nodup_cons] at hnodup
  have hsides : sides (ds.filter fun d => !joins r d) = rs := by
    rw [sides_filter_joins, h, List.filter_cons_of_neg (by simp)]
    exact List.filter_eq_self.mpr fun s hs => by
      simpa using fun hsr : s = r => hnodup.1 (hsr ▸ hs)
  have hconstant : powerOn .constant (ds.filter fun d => !joins r d) = 0 := by
    rw [powerOn, List.filter_filter, List.filter_eq_nil_iff.mpr]
    · rfl
    · intro d _
      simp only [joins, Bool.and_eq_true, decide_eq_true_eq, Bool.not_eq_true',
        decide_eq_false_iff_not, not_and_not_right]
      exact Or.inr
  have hpower : ∀ s ∈ rs, powerOn s (ds.filter fun d => !joins r d) = powerOn s ds := by
    intro s hs
    have hne := (mem_sides.mp (h ▸ List.mem_cons_of_mem r hs)).1
    refine powerOn_filter_joins ?_ ds
    simp only [joins, hne, or_false, decide_eq_false_iff_not]
    exact fun hsr => hnodup.1 (hsr ▸ hs)
  rw [bySide, hsides, hconstant, List.map_congr_left fun s hs => by rw [hpower s hs]]
  cases rs with
  | nil => rfl
  | cons s rs => simp

/-- A run puts the determinants of each side together. -/
theorem contracts_multiply {ds es : List Determinant}
    (h : Contracts (fun d e r => d.multiply e = r) ds es) :
    es = if ds ≠ [] ∧ ∀ d ∈ ds, d.restriction = .constant then [⟨totalPower ds, .constant⟩]
      else bySide ds := by
  induction h with
  | nil => rfl
  | @cons d p rest kept result ha _ ih =>
    obtain ⟨rfl, hkept⟩ := absorbs_multiply ha
    have hd := joins_firstSide d rest
    rw [← List.filter_cons_of_neg (p := fun e => !joins (firstSide (d :: rest)) e)
      (by rw [hd]; decide)] at hkept
    have hne : d :: rest ≠ [] := List.cons_ne_nil d rest
    generalize d :: rest = ds at hkept hne
    cases hsides : sides ds with
    | nil =>
      have hall := sides_eq_nil_iff.mp hsides
      have hside : firstSide ds = .constant := by rw [firstSide, hsides]; rfl
      have hjoins : ∀ e ∈ ds, joins .constant e = true := fun e he => by simp [joins, hall e he]
      rw [hside] at hkept ⊢
      have hnil : kept = [] := by
        rw [hkept, List.filter_eq_nil_iff]
        exact fun e he => by rw [hjoins e he]; decide
      rw [if_pos ⟨hne, hall⟩, List.filter_eq_self.mpr hjoins, ih, hnil]
      rfl
    | cons r rs =>
      have hside : firstSide ds = r := by rw [firstSide, hsides]; rfl
      have hr := (mem_sides.mp (hsides ▸ List.mem_cons_self : r ∈ sides ds)).1
      have hnot : ¬ ∀ e ∈ ds, e.restriction = .constant := by
        rw [← sides_eq_nil_iff, hsides]
        exact List.cons_ne_nil r rs
      have hkept' : ¬ (kept ≠ [] ∧ ∀ e ∈ kept, e.restriction = .constant) := by
        rintro ⟨hne, hall⟩
        obtain ⟨e, he⟩ := List.exists_mem_of_ne_nil kept hne
        have hc := hall e he
        rw [hkept, List.mem_filter] at he
        simp [joins, hc] at he
      rw [if_neg fun h => hnot h.2, ih, if_neg hkept', hkept, hside, bySide_filter_joins hsides,
        totalPower_filter_joins hr, bySide, hsides]
      rfl

/-! ### Results -/

theorem pairwise_bySide (ds : List Determinant) :
    (bySide ds).Pairwise fun d e => d.multiply e = none ∧ e.multiply d = none := by
  have hne : ∀ d ∈ bySide ds, d.restriction ≠ .constant := fun d hd =>
    (mem_sides.mp (map_restriction_bySide ds ▸ List.mem_map_of_mem hd)).1
  have hnodup := nodup_sides ds
  rw [← map_restriction_bySide, List.Nodup, List.pairwise_map] at hnodup
  refine hnodup.imp_of_mem fun {d e} hd he hde => ?_
  exact ⟨multiply_eq_none_iff.mpr ⟨hde, hne d hd, hne e he⟩,
    multiply_eq_none_iff.mpr ⟨hde.symm, hne e he, hne d hd⟩⟩

end Determinant

/-- The closed form of the determinants of a monomial after multiplication. -/
theorem Monomial.contractDeterminants_closedForm {K : Type} (m : Monomial K) :
    let ds := m.determinants
    let n := m.contractDeterminants
    n = { m with determinants := n.determinants } ∧
    (n.determinants =
      if ds ≠ [] ∧ ∀ d ∈ ds, d.restriction = .constant then
        [⟨Determinant.totalPower ds, .constant⟩]
      else Determinant.bySide ds) ∧
    (n.determinants.Pairwise fun d e => d.multiply e = none ∧ e.multiply d = none) ∧
    Determinant.totalPower n.determinants = Determinant.totalPower ds ∧
    n.contractDeterminants = n := by
  intro ds n
  have hrun := contracts_contractPairs Determinant.multiply ds
  have hform := Determinant.contracts_multiply hrun
  have hpair : n.determinants.Pairwise fun d e => d.multiply e = none ∧ e.multiply d = none := by
    change (contractPairs Determinant.multiply ds).Pairwise _
    rw [hform]
    split_ifs
    · exact List.pairwise_singleton _ _
    · exact Determinant.pairwise_bySide ds
  refine ⟨rfl, hform, hpair, ?_, ?_⟩
  · refine hrun.sum_map (P := fun _ => True) (fun _ _ _ _ _ _ => trivial) ?_ fun _ _ => trivial
    intro d e p _ _ hp
    rw [Determinant.eq_of_multiply_eq_some hp]
  · have hrun' := contracts_contractPairs Determinant.multiply n.determinants
    have heq := hrun'.eq_of_pairwise (hpair.imp fun h c hc => by rw [h.1] at hc; cases hc)
    change { n with determinants := contractPairs Determinant.multiply n.determinants } = n
    rw [heq]

/-- The first side takes the constant powers, those after it as well. -/
example : contractPairs Determinant.multiply
    [⟨2, .constant⟩, ⟨3, .plus⟩, ⟨5, .minus⟩, ⟨7, .constant⟩, ⟨11, .minus⟩] =
      [⟨12, .plus⟩, ⟨16, .minus⟩] := by cbv

end WeakForm
