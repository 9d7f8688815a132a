import Mathlib.Data.List.Permutation
import Mathlib.Data.List.Sort
import WeakForm.Enumeration.Recursive
import WeakForm.Permutation

/-!
# Acceptance and enumeration of permutations

Distinct numbers below their number leave none out (`Permutation.perm_range`), so the accepted lists
of targets are the rearrangements of `0, …, n - 1` (`Permutation.exists_ofList?_iff`).

By recursion on what an enumeration lists, the arrangements of increasing elements are in
lexicographic order (`arrangements_pairwise`).  Those of `0, …, n - 1` are the accepted lists of
length `n`, so there are `n!` of them, and their order leaves no other list of all of them
(`Permutation.accepted_listed`).
-/

namespace WeakForm

open scoped Nat

namespace Permutation

variable {targets : List ℕ} {p : Permutation}

/-! ### Acceptance -/

/-- The targets of a permutation of length `n` are `0, …, n - 1` in some order. -/
theorem perm_range (p : Permutation) : p.targets.Perm (List.range p.size) :=
  List.Subperm.perm_of_length_le
    (List.subperm_of_subset p.nodup fun t ht => List.mem_range.mpr (p.lt_length t ht))
    List.length_range.le

/-- What is accepted is kept as it is, and the targets of every permutation are accepted. -/
theorem ofList?_eq_some_iff : ofList? targets = some p ↔ p.targets = targets := by
  unfold ofList?
  constructor
  · intro h
    split at h
    · rw [← Option.some.inj h]
    · cases h
  · rintro rfl
    rw [dif_pos (isSome_visitAll?_iff.mpr ⟨p.nodup, p.lt_length⟩)]

theorem exists_ofList?_iff :
    (∃ p, ofList? targets = some p) ↔ targets.Perm (List.range targets.length) := by
  simp only [ofList?_eq_some_iff]
  constructor
  · rintro ⟨p, rfl⟩
    exact p.perm_range
  · exact fun h => ⟨ofPerm targets h, rfl⟩

end Permutation

/-! ### Lexicographic order -/

/-- What is picked first comes first, and it is smaller. -/
theorem picks_pairwise {xs : List ℕ} (h : xs.Pairwise (· < ·)) :
    (picks xs).Pairwise fun p q => p.1 < q.1 := by
  induction xs with
  | nil => exact .nil
  | cons x xs ih =>
    obtain ⟨hx, hxs⟩ := List.pairwise_cons.mp h
    refine List.pairwise_cons.mpr ⟨?_, List.pairwise_map.mpr (ih hxs)⟩
    rw [List.forall_mem_map]
    rintro ⟨y, ys⟩ hy
    obtain ⟨as, bs, rfl, -⟩ := mem_picks.mp hy
    exact hx y (List.mem_append_right _ List.mem_cons_self)

/-- The arrangements of increasing elements are in lexicographic order. -/
theorem arrangements_pairwise (n : ℕ) {xs : List ℕ} (h : xs.Pairwise (· < ·)) :
    (arrangements n xs).Pairwise (· < ·) := by
  induction n generalizing xs with
  | zero => exact List.pairwise_singleton _ _
  | succ n ih =>
    rw [arrangements, List.pairwise_flatMap]
    constructor
    · rintro ⟨x, rest⟩ hx
      obtain ⟨as, bs, rfl, rfl⟩ := mem_picks.mp hx
      have hrest : (as ++ bs).Pairwise (· < ·) :=
        h.sublist (List.Sublist.append_left (List.sublist_cons_self x bs) as)
      exact List.pairwise_map.mpr
        ((ih hrest).imp fun hl => List.cons_lt_cons_iff.mpr (.inr ⟨rfl, hl⟩))
    · refine (picks_pairwise h).imp fun {p q} hpq => ?_
      simp only [List.forall_mem_map]
      exact fun l _ l' _ => List.cons_lt_cons_iff.mpr (.inl hpq)

/-- There are `n!` arrangements of `n` increasing elements. -/
theorem length_arrangements {n : ℕ} {xs : List ℕ} (hn : xs.length = n) (h : xs.Pairwise (· < ·)) :
    (arrangements n xs).length = n ! := by
  have hperm : (arrangements n xs).Perm xs.permutations := by
    refine (List.perm_ext_iff_of_nodup (arrangements_pairwise n h).nodup
      (List.nodup_permutations xs h.nodup)).mpr fun l => ?_
    rw [mem_arrangements hn, List.mem_permutations]
  rw [hperm.length_eq, List.length_permutations, hn]

namespace Permutation

/-! ### Enumeration -/

/-- The accepted lists of `n` targets in strictly increasing lexicographic order. -/
structure ListsAccepted (n : ℕ) (ls : List (List ℕ)) : Prop where
  mem_iff : ∀ l, l ∈ ls ↔ l.length = n ∧ ∃ p, ofList? l = some p
  ascending : ls.Pairwise (· < ·)

/-- There is only one such list. -/
theorem ListsAccepted.unique {n : ℕ} {ls ls' : List (List ℕ)} (h : ListsAccepted n ls)
    (h' : ListsAccepted n ls') : ls = ls' := by
  have hperm : ls.Perm ls' :=
    (List.perm_ext_iff_of_nodup h.ascending.nodup h'.ascending.nodup).mpr fun l =>
      (h.mem_iff l).trans (h'.mem_iff l).symm
  exact hperm.eq_of_pairwise' h.ascending h'.ascending

section

variable [Enumeration]

theorem listsAccepted_all (n : ℕ) : ListsAccepted n ((all n).map targets) := by
  rw [map_targets_all]
  refine ⟨fun l => ?_, arrangements_pairwise n List.pairwise_lt_range⟩
  rw [mem_arrangements List.length_range, exists_ofList?_iff]
  constructor
  · intro h
    have hlen : l.length = n := h.length_eq.trans List.length_range
    exact ⟨hlen, hlen.symm ▸ h⟩
  · rintro ⟨rfl, h⟩
    exact h

/-- A list of targets is accepted, and then kept as it is, exactly if it is a rearrangement of
`0, …, n - 1`.  All permutations of one length `n` are listed in strictly increasing lexicographic
order.  They are those with the accepted lists of length `n` as their targets, each of them once, so
there are `n!`, and for `n = 0` the one without targets; no other list has these properties. -/
theorem accepted_listed :
    (∀ l, (∃ p, ofList? l = some p) ↔ l.Perm (List.range l.length)) ∧
    (∀ l p, ofList? l = some p ↔ p.targets = l) ∧
    (∀ n, ListsAccepted n ((all n).map targets) ∧ (all n).Nodup ∧ (all n).length = n ! ∧
      ∀ ls, ListsAccepted n ls ↔ ls = (all n).map targets) ∧
    (all 0).map targets = [[]] := by
  refine ⟨fun l => exists_ofList?_iff, fun l p => ofList?_eq_some_iff, fun n => ?_,
    map_targets_all 0⟩
  have hall := listsAccepted_all n
  refine ⟨hall, hall.ascending.nodup.of_map _, ?_, fun ls => ⟨fun h => h.unique hall, ?_⟩⟩
  · calc (all n).length = (arrangements n (List.range n)).length := by
          rw [← map_targets_all, List.length_map]
      _ = n ! := length_arrangements List.length_range List.pairwise_lt_range
  · rintro rfl
    exact hall

end

/-- The six permutations of length three, in their order. -/
theorem accepted_listed_three : ListsAccepted 3 ((all 3).map targets) ∧
    (all 3).map targets = [[0, 1, 2], [0, 2, 1], [1, 0, 2], [1, 2, 0], [2, 0, 1], [2, 1, 0]] ∧
    (all 3).length = 3 ! ∧ ofList? [1, 1, 0] = none := by
  obtain ⟨haccept, -, hlisted, -⟩ := accepted_listed
  refine ⟨(hlisted 3).1, by decide, (hlisted 3).2.2.1, ?_⟩
  rw [← Option.not_isSome_iff_eq_none, Option.isSome_iff_exists, haccept]
  decide

end Permutation

end WeakForm
