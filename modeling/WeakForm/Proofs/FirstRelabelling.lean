import Mathlib.Data.List.Lex
import WeakForm.Proofs.Acceptance
import WeakForm.Proofs.RelabellingWindow

/-!
# The first relabelling

Permutations are tried in lexicographic order, and a permutation of all slots renames them at once
(`Monomial.relabelSecondary_of_numbered`).  So what the search for a relabelling of `q` to the hard
signature of `p` finds is due to the first permutation that leads there
(`Monomial.first_of_reorderTo`).

For marked monomials with equal soft signatures there is a permutation to be found whenever both
have equally many secondary slots (`Monomial.Marked.reorderTo_exact`).
-/

namespace WeakForm

/-- What is found in an increasing list is the least of what could be found. -/
theorem exists_least_of_findSome? {α β : Type} [Preorder α] {f : α → Option β} {l : List α} {b : β}
    (hl : l.Pairwise (· < ·)) (h : l.findSome? f = some b) :
    ∃ a ∈ l, f a = some b ∧ ∀ a' ∈ l, f a' ≠ none → a ≤ a' := by
  obtain ⟨before, a, after, rfl, ha, hnone⟩ := List.findSome?_eq_some_iff.mp h
  refine ⟨a, List.mem_append_right _ List.mem_cons_self, ha, fun a' ha' hf => ?_⟩
  rcases List.mem_append.mp ha' with hbefore | hrest
  · exact absurd (hnone a' hbefore) hf
  · rcases List.mem_cons.mp hrest with rfl | hafter
    · exact le_rfl
    · exact ((List.pairwise_cons.mp (List.pairwise_append.mp hl).2.1).1 a' hafter).le

namespace Monomial

variable {K : Type} {p q q' : Monomial K} {π : Permutation}

/-- Relabelling `q` by the permutation gives it the hard signature of `p`. -/
structure Matches (p q : Monomial K) (π : Permutation) : Prop where
  size_eq : π.size = p.nextId .secondary
  hardSignature_eq : ∃ r, q.relabelSecondary π = .ok r ∧ r.hardSignature = p.hardSignature

theorem relabelSecondary_eq_moveSecondary (hq : q.Numbered) (hπ : π.size = q.nextId .secondary) :
    q.relabelSecondary π = .ok (q.moveSecondary π.targets) := by
  rw [relabelSecondary, missingSecondary?_eq_none_iff.mpr fun id hid => hq id (hπ ▸ hid)]

/-- Where all slots are relabelled, they are renamed at once. -/
theorem relabelSecondary_of_numbered (hq : q.Numbered) (hπ : π.size = q.nextId .secondary) :
    q.relabelSecondary π = .ok (q.renameSecondary π.apply) :=
  (relabelSecondary_eq_moveSecondary hq hπ).trans
    (congrArg Except.ok (moveSecondary_eq_of_perm (hπ ▸ π.perm_range)))

theorem matches_iff (hn : p.nextId .secondary = q.nextId .secondary) (hq : q.Numbered) :
    p.Matches q π ↔ π.size = q.nextId .secondary ∧
      (q.moveSecondary π.targets).hardSignature = p.hardSignature := by
  constructor
  · rintro ⟨hsize, r, hr, hhard⟩
    rw [hn] at hsize
    obtain rfl := Except.ok.inj (hr.symm.trans (relabelSecondary_eq_moveSecondary hq hsize))
    exact ⟨hsize, hhard⟩
  · rintro ⟨hsize, hhard⟩
    exact ⟨hsize.trans hn.symm, _, relabelSecondary_eq_moveSecondary hq hsize, hhard⟩

/-- The search returns the second monomial relabelled by the first permutation that matches. -/
theorem first_of_reorderTo [Enumeration] (h : p.reorderTo q = .ok q') :
    ∃ π, p.Matches q π ∧ (∀ τ, p.Matches q τ → π.targets ≤ τ.targets) ∧
      q.relabelSecondary π = .ok q' := by
  obtain ⟨hn, hq, hfind⟩ := reorderTo_eq_ok_iff.mp h
  obtain ⟨targets, hmem, hr, hleast⟩ :=
    exists_least_of_findSome? (arrangements_pairwise _ List.pairwise_lt_range) hfind
  obtain ⟨rfl, hhard⟩ := matched?_eq_some.mp hr
  have hperm := (mem_arrangements List.length_range).mp hmem
  let π := Permutation.ofPerm targets hperm
  have hsize : π.size = q.nextId .secondary := hperm.length_eq.trans List.length_range
  refine ⟨π, (matches_iff hn hq).mpr ⟨hsize, hhard⟩, fun τ hτ => ?_,
    relabelSecondary_eq_moveSecondary hq hsize⟩
  obtain ⟨hτ, hhard'⟩ := (matches_iff hn hq).mp hτ
  refine hleast _ ((mem_arrangements List.length_range).mpr (hτ ▸ τ.perm_range)) ?_
  rw [matched?_eq_some.mpr ⟨rfl, hhard'⟩]
  exact Option.some_ne_none _

/-- Among marked monomials with equal soft signatures, the search succeeds exactly if both have
equally many secondary slots.  It returns the second monomial relabelled by the lexicographically
first permutation that makes the hard signatures equal. -/
theorem Marked.reorderTo_exact [Enumeration] (hp : p.Marked) (hq : q.Marked)
    (h : p.softSignature = q.softSignature) :
    ((∃ q', p.reorderTo q = .ok q') ↔ p.nextId .secondary = q.nextId .secondary) ∧
    (p.nextId .secondary = q.nextId .secondary → ∃ π q', p.reorderTo q = .ok q' ∧
      q.relabelSecondary π = .ok q' ∧ q' = q.renameSecondary π.apply ∧
      p.Matches q π ∧ ∀ τ, p.Matches q τ → π.targets ≤ τ.targets) := by
  refine ⟨⟨fun ⟨q', hq'⟩ => (reorderTo_eq_ok hq').1, hp.exists_reorderTo hq h⟩, fun hn => ?_⟩
  obtain ⟨q', hq'⟩ := hp.exists_reorderTo hq h hn
  obtain ⟨π, hπ, hfirst, hrelabel⟩ := first_of_reorderTo hq'
  refine ⟨π, q', hq', hrelabel, ?_, hπ, hfirst⟩
  rw [relabelSecondary_of_numbered hq.numbered (hπ.size_eq.trans hn)] at hrelabel
  exact (Except.ok.inj hrelabel).symm

/-- The derivatives along two physical directions, with the arguments in either order. -/
theorem Marked.reorderTo_exact_directionalTerm :
    let p := Form.directionalTerm (1 : Float) .triangle 0 1 (.fixed 0) (.fixed 1)
    let q := Form.directionalTerm (1 : Float) .triangle 1 0 (.fixed 0) (.fixed 1)
    (p.Marked ∧ q.Marked ∧ p.softSignature = q.softSignature ∧
      p.nextId .secondary = q.nextId .secondary) ∧
    ∃ π q', p.reorderTo q = .ok q' ∧ q.relabelSecondary π = .ok q' ∧
      q' = q.renameSecondary π.apply ∧ p.Matches q π ∧
      ∀ τ, p.Matches q τ → π.targets ≤ τ.targets := by
  intro p q
  have hp : p.Marked := ⟨by unfold Numbered; decide, by decide⟩
  have hq : q.Marked := ⟨by unfold Numbered; decide, by decide⟩
  have hsoft : p.softSignature = q.softSignature := signature_eq_iff.mpr ⟨rfl, by decide⟩
  have hn : p.nextId .secondary = q.nextId .secondary := by decide
  exact ⟨⟨hp, hq, hsoft, hn⟩, (Marked.reorderTo_exact hp hq hsoft).2 hn⟩

end Monomial

end WeakForm
