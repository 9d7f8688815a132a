import Mathlib.Data.List.Basic
import Mathlib.Data.List.Zip
import WeakForm.Contraction
import WeakForm.Proofs.IndexMaps

/-!
# Which pairs contract

`Monomial.contract` joins two monomials exactly if they differ in one summed index
(`PairDifference`): their indices are `before ++ i :: (between ++ i :: after)` and
`before ++ j :: (between ++ j :: after)`, where the ranges of `i` and `j` have no value in common.
The joined monomial has the merged index at both places (`PairDifference.joined`).
`Monomial.contract_eq` is this description; it is symmetric in the two monomials
(`PairDifference.symm`).
-/

namespace WeakForm

open Indexed

/-! ### Differences of index lists -/

/-- The places, counted from `start`, at which two index lists differ. -/
def zipDifferences (start : ℕ) (is js : List Index) : List IndexDifference :=
  ((is.zip js).zipIdx start).filterMap fun ((left, right), position) =>
    if left = right then none else some { position, left, right }

theorem zipDifferences_cons (start : ℕ) (i j : Index) (is js : List Index) :
    zipDifferences start (i :: is) (j :: js) =
      (if i = j then [] else [{ position := start, left := i, right := j }]) ++
        zipDifferences (start + 1) is js := by
  by_cases h : i = j <;> simp [zipDifferences, h]

theorem zipDifferences_append (start : ℕ) (before is js : List Index) :
    zipDifferences start (before ++ is) (before ++ js) =
      zipDifferences (start + before.length) is js := by
  induction before generalizing start with
  | nil => rfl
  | cons i before ih =>
    rw [List.cons_append, List.cons_append, zipDifferences_cons, ih, List.length_cons]
    have e : start + 1 + before.length = start + (before.length + 1) := by omega
    simp [e]

theorem zipDifferences_self (start : ℕ) (is : List Index) : zipDifferences start is is = [] := by
  have := zipDifferences_append start is [] []
  simpa [zipDifferences] using this

theorem eq_of_zipDifferences_eq_nil {start : ℕ} {is js : List Index} (hl : js.length = is.length)
    (h : zipDifferences start is js = []) : is = js := by
  induction is generalizing start js with
  | nil => exact (List.length_eq_zero_iff.mp hl).symm
  | cons i is ih =>
    cases js with
    | nil => cases hl
    | cons j js =>
      rw [zipDifferences_cons, List.append_eq_nil_iff] at h
      have hij : i = j := by
        by_contra hij
        simp [hij] at h
      rw [hij, ih (by simpa using hl) h.2]

/-- Up to the first difference the lists agree, and the other differences are those of the rest. -/
theorem zipDifferences_eq_cons {start : ℕ} {is js : List Index} {d : IndexDifference}
    {ds : List IndexDifference} (hl : js.length = is.length)
    (h : zipDifferences start is js = d :: ds) :
    ∃ before is' js', is = before ++ d.left :: is' ∧ js = before ++ d.right :: js' ∧
      d.position = start + before.length ∧ d.left ≠ d.right ∧ js'.length = is'.length ∧
      zipDifferences (start + before.length + 1) is' js' = ds := by
  induction is generalizing start js with
  | nil => simp [zipDifferences] at h
  | cons i is ih =>
    cases js with
    | nil => cases hl
    | cons j js =>
      have hl' : js.length = is.length := by simpa using hl
      rw [zipDifferences_cons] at h
      by_cases hij : i = j
      · subst hij
        simp only [if_true, List.nil_append] at h
        obtain ⟨before, is', js', rfl, rfl, hp, hne, hlen, hds⟩ := ih hl' h
        refine ⟨i :: before, is', js', rfl, rfl, ?_, hne, hlen, ?_⟩
        · rw [hp, List.length_cons]
          omega
        · rw [List.length_cons, ← hds]
          congr 1
          omega
      · simp only [hij, if_false, List.singleton_append, List.cons.injEq] at h
        obtain ⟨rfl, rfl⟩ := h
        exact ⟨[], is, js, rfl, rfl, rfl, hij, hl', rfl⟩

/-! ### Pairs that contract -/

variable {K : Type} [BEq K]

theorem Monomial.differences?_eq_some_iff {m n : Monomial K} {ds : List IndexDifference} :
    m.differences? n = some ds ↔ (m.constant == n.constant) = true ∧ m.sameStructure n = true ∧
      zipDifferences 0 m.indices n.indices = ds := by
  rw [← and_assoc, ← Bool.and_eq_true, differences?]
  split
  · rename_i h
    rw [Option.some.injEq]
    exact (and_iff_right h).symm
  · rename_i h
    exact ⟨nofun, fun hds => absurd hds.1 h⟩

/-- Two monomials that agree up to the index at two places, where the first one has `left` and the
second one has `right`, over disjoint ranges. -/
structure PairDifference (m n : Monomial K) where
  left : Index
  right : Index
  before : List Index
  between : List Index
  after : List Index
  constant_beq : (m.constant == n.constant) = true
  same : m.sameStructure n = true
  indices_left : m.indices = before ++ left :: (between ++ left :: after)
  indices_right : n.indices = before ++ right :: (between ++ right :: after)
  ne : left ≠ right
  disjoint : left.overlaps right = false
  summed_left : m.summedPair left = true
  summed_right : n.summedPair right = true

theorem Index.overlaps_comm (i j : Index) : i.overlaps j = j.overlaps i := by
  rw [Bool.eq_iff_iff, Index.overlaps_iff, Index.overlaps_iff]
  exact exists_congr fun _ => and_comm

omit [BEq K] in
theorem Monomial.eqIgnoringConstant_comm (m n : Monomial K) :
    m.eqIgnoringConstant n = n.eqIgnoringConstant m := by
  rw [Bool.eq_iff_iff, eqIgnoringConstant_iff, eqIgnoringConstant_iff]
  constructor
  · intro h
    rw [h]
  · intro h
    rw [h]

omit [BEq K] in
theorem Monomial.sameStructure_comm (m n : Monomial K) :
    m.sameStructure n = n.sameStructure m := by
  rw [sameStructure, eqIgnoringConstant_comm, sameStructure]

namespace PairDifference

variable {m n : Monomial K}

/-- The first monomial with another index at the two places. -/
def withIndex (d : PairDifference m n) (i : Index) : Monomial K :=
  refill m (d.before ++ i :: (d.between ++ i :: d.after))

/-- The index over the values of both. -/
def index (d : PairDifference m n) : Index :=
  d.left.merged d.right (max (m.nextId .secondary) (n.nextId .secondary))

/-- The monomial that sums over the values of both. -/
def joined (d : PairDifference m n) : Monomial K :=
  d.withIndex d.index

/-- If numbers are equal in both directions, the difference can be read from the other side. -/
def symm (d : PairDifference m n) (h : (n.constant == m.constant) = true) :
    PairDifference n m where
  left := d.right
  right := d.left
  before := d.before
  between := d.between
  after := d.after
  constant_beq := h
  same := by rw [Monomial.sameStructure_comm, d.same]
  indices_left := d.indices_right
  indices_right := d.indices_left
  ne := d.ne.symm
  disjoint := by rw [Index.overlaps_comm, d.disjoint]
  summed_left := d.summed_right
  summed_right := d.summed_left

theorem indices_withIndex (d : PairDifference m n) (i : Index) :
    (d.withIndex i).indices = d.before ++ i :: (d.between ++ i :: d.after) :=
  Monomial.indices_refill m (by rw [d.indices_left]; simp)

theorem withIndex_left (d : PairDifference m n) : d.withIndex d.left = m := by
  rw [withIndex, ← d.indices_left]
  exact Indexed.refill_indices m

theorem withIndex_right (d : PairDifference m n) :
    n = { d.withIndex d.right with constant := n.constant } := by
  have h := (Monomial.sameStructure_iff.mp d.same).2
  rwa [d.indices_right] at h

theorem differences?_eq (d : PairDifference m n) : m.differences? n =
    some [⟨d.before.length, d.left, d.right⟩,
      ⟨d.before.length + 1 + d.between.length, d.left, d.right⟩] := by
  have h : zipDifferences 0 m.indices n.indices = [⟨d.before.length, d.left, d.right⟩,
      ⟨d.before.length + 1 + d.between.length, d.left, d.right⟩] := by
    rw [d.indices_left, d.indices_right, zipDifferences_append, zipDifferences_cons,
      zipDifferences_append, zipDifferences_cons, zipDifferences_self, Nat.zero_add]
    simp [d.ne]
  exact Monomial.differences?_eq_some_iff.mpr ⟨d.constant_beq, d.same, h⟩

end PairDifference

namespace Monomial

/-- Replacing the two entries of a list one after the other. -/
theorem set_set_append (before between after : List Index) (i j k : Index) :
    ((before ++ i :: (between ++ j :: after)).set before.length k).set
      (before.length + 1 + between.length) k = before ++ k :: (between ++ k :: after) := by
  rw [List.set_append_right _ _ le_rfl, Nat.sub_self, List.set_cons_zero,
    List.set_append_right _ _ (by omega)]
  have e : before.length + 1 + between.length - before.length = between.length + 1 := by omega
  rw [e, List.set_cons_succ, List.set_append_right _ _ le_rfl, Nat.sub_self, List.set_cons_zero]

/-- Two differences with one index on each side, over disjoint ranges and summed at no other
place, are a `PairDifference`. -/
theorem exists_pairDifference {m n : Monomial K} {first second : IndexDifference}
    (h : m.differences? n = some [first, second])
    (hc : (decide (first.left = second.left) && decide (first.right = second.right) &&
      !first.left.overlaps first.right && m.summedPair first.left &&
        n.summedPair first.right) = true) :
    ∃ d : PairDifference m n, d.left = first.left ∧ d.right = first.right ∧
      first.position = d.before.length ∧
      second.position = d.before.length + 1 + d.between.length := by
  obtain ⟨hconstant, hsame, hz⟩ := differences?_eq_some_iff.mp h
  simp only [Bool.and_eq_true, decide_eq_true_eq, Bool.not_eq_true'] at hc
  obtain ⟨⟨⟨⟨hl, hr⟩, ho⟩, hm⟩, hn⟩ := hc
  have hlen := (sameStructure_iff.mp hsame).1
  obtain ⟨before, is, js, hi, hj, hp, hne, hlen', hz'⟩ := zipDifferences_eq_cons hlen hz
  obtain ⟨between, after, js', rfl, rfl, hp', -, hlen'', hz''⟩ := zipDifferences_eq_cons hlen' hz'
  obtain rfl := eq_of_zipDifferences_eq_nil hlen'' hz''
  rw [← hl] at hi
  rw [← hr] at hj
  refine ⟨⟨first.left, first.right, before, between, after, hconstant, hsame, hi, hj, hne, ho, hm,
    hn⟩,
    rfl, rfl, by simpa using hp, ?_⟩
  show second.position = before.length + 1 + between.length
  omega

/-- A pair with a difference is joined, unless that breaks the summation convention. -/
theorem contract_of_pairDifference {m n : Monomial K} (d : PairDifference m n) :
    m.contract n = match d.joined.imbalance? with
      | some cause => .error (.simplification (.unbalancedContraction cause))
      | none => .ok (some d.joined) := by
  have e : refill m ((m.indices.set d.before.length d.index).set
      (d.before.length + 1 + d.between.length) d.index) = d.joined := by
    rw [d.indices_left, set_set_append]
    rfl
  rw [contract, contractAt, d.differences?_eq]
  simp only [decide_true, Bool.true_and, d.disjoint, d.summed_left, d.summed_right,
    Bool.not_false, if_true]
  rw [← e]
  rfl

/-- A monomial contracts with another one exactly if they differ in one summed index. -/
theorem contract_eq (m n : Monomial K) :
    (m.contract n = .ok none ∧ IsEmpty (PairDifference m n)) ∨
      ∃ d : PairDifference m n, m.contract n = match d.joined.imbalance? with
        | some cause => .error (.simplification (.unbalancedContraction cause))
        | none => .ok (some d.joined) := by
  by_cases hd : Nonempty (PairDifference m n)
  · obtain ⟨d⟩ := hd
    exact .inr ⟨d, contract_of_pairDifference d⟩
  · refine .inl ⟨?_, ⟨fun d => hd ⟨d⟩⟩⟩
    unfold contract contractAt
    split
    · rename_i first second h
      dsimp only
      split
      · rename_i hc
        exact absurd ⟨(exists_pairDifference h hc).choose⟩ hd
      · rfl
    · rfl

theorem contract_eq_some {m n q : Monomial K} (h : m.contract n = .ok (some q)) :
    ∃ d : PairDifference m n, q = d.joined := by
  obtain ⟨hn, -⟩ | ⟨d, hd⟩ := m.contract_eq n
  · rw [hn] at h
    cases h
  · rw [hd] at h
    split at h
    · cases h
    · cases h
      exact ⟨d, rfl⟩

theorem contract_ne_none {m n : Monomial K} (d : PairDifference m n) : m.contract n ≠ .ok none := by
  intro h
  obtain ⟨-, he⟩ | ⟨d', hd⟩ := m.contract_eq n
  · exact he.elim d
  · rw [hd] at h
    split at h <;> cases h

theorem contractIfLikely_eq_some {m n q : Monomial K} (h : m.contractIfLikely n = .ok (some q)) :
    m.mayContract n = true ∧ ∃ d : PairDifference m n, q = d.joined := by
  unfold contractIfLikely at h
  split at h
  · rename_i hl
    exact ⟨hl, contract_eq_some h⟩
  · cases h

end Monomial

end WeakForm
