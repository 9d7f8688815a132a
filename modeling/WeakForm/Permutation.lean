import WeakForm.Enumeration
import WeakForm.Renumbering

/-!
# Permutations

A permutation of `0, …, n - 1` is the list of its `n` targets: distinct numbers below `n`.
`Permutation.ofList?` decides this in one pass over the targets, with a table of those already
visited (`isSome_visitAll?_iff`).  `Permutation.all` lists all permutations of one length in the
order of their enumeration, which lists nothing else (`mem_arrangements`).

`Monomial.relabelSecondary` renames the secondary slots below `n` by a permutation.  Slots are first
moved by `n` and then to their targets.
-/

namespace WeakForm

/-- Distinct targets below their number. -/
structure Permutation where
  targets : List Nat
  nodup : targets.Nodup
  lt_length : ∀ t ∈ targets, t < targets.length
deriving DecidableEq

/-! ### Acceptance -/

/-- Marks a target as visited, unless it has no entry in the table or is marked already. -/
def visit? (visited : Array Bool) (target : Nat) : Option (Array Bool) :=
  match visited[target]? with
  | some false => some (visited.setIfInBounds target true)
  | _ => none

/-- Visits the targets, one after another, in a table that has as many entries. -/
def visitAll? (targets : List Nat) : Option (Array Bool) :=
  targets.foldlM visit? (Array.replicate targets.length false)

theorem visit?_eq_some_iff {visited visited' : Array Bool} {target : Nat} :
    visit? visited target = some visited' ↔
      visited[target]? = some false ∧ visited.setIfInBounds target true = visited' := by
  unfold visit?
  split
  · rename_i h
    rw [h, Option.some.injEq]
    exact ⟨fun he => ⟨rfl, he⟩, And.right⟩
  · rename_i h
    exact ⟨nofun, fun he => absurd he.1 h⟩

/-- What can still be visited after a visit: anything but its target. -/
theorem getElem?_setIfInBounds_true {visited : Array Bool} {target t : Nat} :
    (visited.setIfInBounds target true)[t]? = some false ↔
      target ≠ t ∧ visited[t]? = some false := by
  rw [Array.getElem?_setIfInBounds]
  split
  · rename_i h
    split <;> simp [h]
  · rename_i h
    exact (and_iff_right h).symm

/-- All targets can be visited exactly if they are distinct and each of them could be visited
first. -/
theorem isSome_foldlM_visit? {targets : List Nat} {visited : Array Bool} :
    (targets.foldlM visit? visited).isSome ↔
      targets.Nodup ∧ ∀ t ∈ targets, visited[t]? = some false := by
  induction targets generalizing visited with
  | nil => simp
  | cons target targets ih =>
    rw [List.foldlM_cons, List.nodup_cons, List.forall_mem_cons]
    constructor
    · intro h
      obtain ⟨last, hlast⟩ := Option.isSome_iff_exists.mp h
      obtain ⟨next, hnext, hrest⟩ := Option.bind_eq_some_iff.mp hlast
      obtain ⟨hfree, rfl⟩ := visit?_eq_some_iff.mp hnext
      obtain ⟨hnodup, hall⟩ := ih.mp (Option.isSome_of_eq_some hrest)
      refine ⟨⟨fun hmem => ?_, hnodup⟩, hfree, fun t ht => ?_⟩
      · exact (getElem?_setIfInBounds_true.mp (hall target hmem)).1 rfl
      · exact (getElem?_setIfInBounds_true.mp (hall t ht)).2
    · rintro ⟨⟨hmem, hnodup⟩, hfree, hall⟩
      rw [visit?_eq_some_iff.mpr ⟨hfree, rfl⟩]
      refine ih.mpr ⟨hnodup, fun t ht => getElem?_setIfInBounds_true.mpr ⟨?_, hall t ht⟩⟩
      rintro rfl
      exact hmem ht

/-- The pass accepts exactly the distinct targets below their number. -/
theorem isSome_visitAll?_iff {targets : List Nat} :
    (visitAll? targets).isSome ↔ targets.Nodup ∧ ∀ t ∈ targets, t < targets.length := by
  simp only [visitAll?, isSome_foldlM_visit?, Array.getElem?_replicate,
    Option.ite_none_right_eq_some, and_true]

namespace Permutation

/-- The permutation with the given targets, if all of them can be visited. -/
def ofList? (targets : List Nat) : Option Permutation :=
  if h : (visitAll? targets).isSome then
    some ⟨targets, (isSome_visitAll?_iff.mp h).1, (isSome_visitAll?_iff.mp h).2⟩
  else
    none

/-- The permutation with the numbers `0, …, n - 1` in some order as its targets. -/
def ofPerm {n : Nat} (targets : List Nat) (h : targets.Perm (List.range n)) : Permutation where
  targets := targets
  nodup := h.nodup_iff.mpr List.nodup_range
  lt_length t ht := by
    rw [h.length_eq, List.length_range]
    exact List.mem_range.mp (h.subset ht)

def size (p : Permutation) : Nat :=
  p.targets.length

end Permutation

/-! ### Enumeration -/

/-- All permutations of `0, …, n - 1`, in the order of their enumeration. -/
def Permutation.all [Enumeration] (n : Nat) : List Permutation :=
  (Enumeration.permutations (List.range n) n).pmap ofPerm fun _ h =>
    (mem_arrangements List.length_range).mp (Enumeration.permutations_eq _ n ▸ h)

theorem Permutation.map_targets_all [Enumeration] (n : Nat) :
    (all n).map targets = arrangements n (List.range n) := by
  rw [all, List.map_pmap, ← Enumeration.permutations_eq]
  exact List.pmap_eq_self.mpr fun _ _ => rfl

/-! ### Relabelling -/

namespace Monomial

variable {K : Type}

/-- The least identifier below `n` that no secondary slot has. -/
def missingSecondary? (m : Monomial K) (n : Nat) : Option Nat :=
  (List.range n).find? fun id => !(m.ids .secondary).contains id

/-- Moves the secondary slots `0, …, n - 1` by `n` and then to the given targets, one after
another. -/
def moveSecondary (targets : List Nat) (m : Monomial K) : Monomial K :=
  let n := targets.length
  let moved := (List.range n).foldl (fun m id => m.renameIndex (some .secondary) id (id + n)) m
  targets.zipIdx.foldl (fun m (target, id) => m.renameIndex (some .secondary) (id + n) target) moved

/-- Renames the secondary slots `0, …, n - 1` by a permutation of length `n`.  Each of them must
occur in the monomial. -/
def relabelSecondary (p : Permutation) (m : Monomial K) : Except (FormError K) (Monomial K) :=
  match m.missingSecondary? p.size with
  | some id => .error (.invariant (.missingSecondary id m))
  | none => .ok (m.moveSecondary p.targets)

end Monomial

end WeakForm
