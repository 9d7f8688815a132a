import Mathlib.Data.List.GetD
import Mathlib.Data.List.Nodup
import Mathlib.Data.List.Range
import Mathlib.Logic.Equiv.Basic
import WeakForm.Proofs.Balance
import WeakForm.Proofs.Permutations
import WeakForm.Proofs.RenamingInvariance
import WeakForm.Proofs.Signatures

/-!
# Relabelling secondary slots

The moves by which `Monomial.moveSecondary` relabels a monomial go through a window of identifiers
(`Monomial.moveSecondary_eq_moved`).  If the monomial has no slots but those to be relabelled, they
rename them by the list of targets (`Monomial.moveSecondary_eq`).  The lists that are tried are the
permutations of `0, …, n - 1`, and each of them is a bijection of all identifiers (`relabelling`).
-/

namespace WeakForm

open Indexed

/-! ### Permutations of identifiers -/

/-- A permutation of `0, …, n - 1`, as a bijection of all numbers that fixes the others. -/
def relabelling (targets : List ℕ) (h : targets.Perm (List.range targets.length)) :
    Equiv.Perm ℕ where
  toFun id := targets.getD id id
  invFun target := if target < targets.length then targets.idxOf target else target
  left_inv id := by
    dsimp only
    by_cases hid : id < targets.length
    · have hnodup : targets.Nodup := h.nodup_iff.mpr List.nodup_range
      have hlt : targets[id] < targets.length :=
        List.mem_range.mp (h.subset (List.getElem_mem hid))
      rw [List.getD_eq_getElem _ _ hid, if_pos hlt, hnodup.idxOf_getElem]
    · rw [List.getD_eq_default _ _ (Nat.le_of_not_lt hid), if_neg hid]
  right_inv target := by
    dsimp only
    split_ifs with ht
    · have hmem : target ∈ targets := h.symm.subset (List.mem_range.mpr ht)
      have hlt := List.idxOf_lt_length_of_mem hmem
      rw [List.getD_eq_getElem _ _ hlt, List.getElem_idxOf hlt]
    · exact List.getD_eq_default _ _ (Nat.le_of_not_lt ht)

/-- Equally many distinct identifiers below `n` are mapped to each other by a permutation of
`0, …, n - 1`. -/
theorem exists_relabelling {n : ℕ} {xs ys : List ℕ} (hx : xs.Nodup) (hy : ys.Nodup)
    (hl : xs.length = ys.length) (hxn : ∀ x ∈ xs, x < n) (hyn : ∀ y ∈ ys, y < n) :
    ∃ targets : List ℕ, targets.Perm (List.range n) ∧ ys.map (fun y => targets.getD y y) = xs := by
  -- both lists are completed to permutations, and the places of the second are those of the first
  have complete : ∀ zs : List ℕ, zs.Nodup → (∀ z ∈ zs, z < n) →
      (zs ++ (List.range n).filter (· ∉ zs)).Perm (List.range n) := by
    intro zs hz hzn
    refine (List.perm_ext_iff_of_nodup ?_ List.nodup_range).mpr fun z => ?_
    · refine hz.append (List.nodup_range.filter _) fun z hz hz' => ?_
      simp only [List.mem_filter, decide_eq_true_eq] at hz'
      exact hz'.2 hz
    · simp only [List.mem_append, List.mem_filter, List.mem_range, decide_eq_true_eq]
      have := hzn z
      tauto
  have hxs := complete xs hx hxn
  have hys := complete ys hy hyn
  generalize (List.range n).filter (· ∉ xs) = xs' at hxs
  generalize (List.range n).filter (· ∉ ys) = ys' at hys
  have hlen : (xs ++ xs').length = (ys ++ ys').length := hxs.length_eq.trans hys.length_eq.symm
  let target (id : ℕ) : ℕ := (xs ++ xs').getD ((ys ++ ys').idxOf id) 0
  have hmap : (ys ++ ys').map target = xs ++ xs' := by
    refine List.ext_getElem (by rw [List.length_map, hlen]) fun i h _ => ?_
    rw [List.length_map] at h
    rw [List.getElem_map]
    dsimp only [target]
    rw [(hys.nodup_iff.mpr List.nodup_range).idxOf_getElem _ h, List.getD_eq_getElem]
  refine ⟨(List.range n).map target, ?_, ?_⟩
  · have := (hys.symm.map target).trans (hmap ▸ hxs)
    exact this
  · rw [List.map_append] at hmap
    rw [← (List.append_inj hmap (by rw [List.length_map, hl])).1]
    refine List.map_congr_left fun y hy => ?_
    have := hyn y hy
    rw [List.getD_eq_getElem _ _ (by rwa [List.length_map, List.length_range]), List.getElem_map,
      List.getElem_range]

/-! ### Moves -/

/-- Where the moves of pairs of a source and a target, one after another, take an identifier. -/
def moves (steps : List (ℕ × ℕ)) (id : ℕ) : ℕ :=
  steps.foldl (fun v step => if v = step.1 then step.2 else v) id

theorem moves_of_forall_ne {steps : List (ℕ × ℕ)} {id : ℕ} (h : ∀ step ∈ steps, id ≠ step.1) :
    moves steps id = id := by
  induction steps with
  | nil => rfl
  | cons step steps ih =>
    rw [List.forall_mem_cons] at h
    rw [moves, List.foldl_cons, if_neg h.1]
    exact ih h.2

/-- A move to a target that is not a source is not followed by another one. -/
theorem moves_of_mem {steps : List (ℕ × ℕ)} {s t : ℕ} (hn : (steps.map (·.1)).Nodup)
    (h : (s, t) ∈ steps) (ht : ∀ step ∈ steps, t ≠ step.1) : moves steps s = t := by
  induction steps with
  | nil => cases h
  | cons step steps ih =>
    rw [List.map_cons, List.nodup_cons] at hn
    rw [List.forall_mem_cons] at ht
    rw [moves, List.foldl_cons]
    rcases List.mem_cons.mp h with rfl | h
    · rw [if_pos rfl]
      exact moves_of_forall_ne ht.2
    · have hne : s ≠ step.1 := fun hs => hn.1 (hs ▸ List.mem_map_of_mem h)
      rw [if_neg hne]
      exact ih hn.2 h ht.2

/-- The moves of the identifiers below `n` into the window, by `n`. -/
def movesAway (n : ℕ) : List (ℕ × ℕ) :=
  (List.range n).map fun id => (id, id + n)

/-- The moves from the window to the targets. -/
def movesBack (targets : List ℕ) : List (ℕ × ℕ) :=
  targets.zipIdx.map fun p => (p.2 + targets.length, p.1)

theorem moves_movesAway (n id : ℕ) :
    moves (movesAway n) id = if id < n then id + n else id := by
  have hsources : ((movesAway n).map (·.1)).Nodup := by
    rw [movesAway, List.map_map]
    exact (List.nodup_map_iff fun _ _ h => h).mpr List.nodup_range
  split_ifs with h
  · refine moves_of_mem hsources (List.mem_map.mpr ⟨id, List.mem_range.mpr h, rfl⟩) ?_
    simp only [movesAway, List.forall_mem_map, List.mem_range]
    omega
  · refine moves_of_forall_ne ?_
    simp only [movesAway, List.forall_mem_map, List.mem_range]
    omega

/-- What is in the window is moved to the target with its number, and what is beyond it stays. -/
theorem moves_movesBack {targets : List ℕ} (ht : ∀ t ∈ targets, t < targets.length) (id : ℕ) :
    moves (movesBack targets) (id + targets.length) =
      targets.getD id (id + targets.length) := by
  have hsources : ((movesBack targets).map (·.1)).Nodup := by
    have h : (movesBack targets).map (·.1) =
        (targets.zipIdx.map Prod.snd).map (· + targets.length) := by
      rw [movesBack, List.map_map, List.map_map]
      rfl
    rw [h, List.zipIdx_map_snd]
    exact (List.nodup_map_iff (add_left_injective _)).mpr List.nodup_range'
  by_cases hid : id < targets.length
  · rw [List.getD_eq_getElem _ _ hid]
    refine moves_of_mem hsources (List.mem_map.mpr ⟨(targets[id], id), ?_, rfl⟩) ?_
    · exact List.mk_mem_zipIdx_iff_getElem?.mpr (List.getElem?_eq_getElem hid)
    · -- no move starts at a target
      simp only [movesBack, List.forall_mem_map]
      intro _ _
      have := ht _ (List.getElem_mem hid)
      omega
  · rw [List.getD_eq_default _ _ (Nat.le_of_not_lt hid)]
    refine moves_of_forall_ne ?_
    simp only [movesBack, List.forall_mem_map]
    intro p hp
    have := List.snd_lt_of_mem_zipIdx hp
    omega

/-- Where all moves of a relabelling by `n` targets take an identifier: slots at most `n` beyond
those to be relabelled share their targets. -/
def moved (targets : List ℕ) (id : ℕ) : ℕ :=
  targets.getD (if id < targets.length then id else id - targets.length) id

theorem moves_eq_moved {targets : List ℕ} (ht : ∀ t ∈ targets, t < targets.length) (id : ℕ) :
    moves (movesBack targets) (moves (movesAway targets.length) id) = moved targets id := by
  rw [moves_movesAway, moved]
  split_ifs with hid
  · rw [moves_movesBack ht, List.getD_eq_getElem _ _ hid, List.getD_eq_getElem _ _ hid]
  · obtain ⟨k, rfl⟩ := Nat.exists_eq_add_of_le' (Nat.le_of_not_lt hid)
    rw [moves_movesBack ht, Nat.add_sub_cancel]

namespace Monomial

variable {K : Type}

/-- The renaming of secondary slots that leaves the others as they are. -/
def secondaryRenaming (π : ℕ → ℕ) : SlotKind → ℕ → ℕ
  | .secondary, id => π id
  | _, id => id

/-- Renames the secondary slots. -/
def renameSecondary (π : ℕ → ℕ) (m : Monomial K) : Monomial K :=
  m.rename (slotRenaming (secondaryRenaming π))

theorem renameSecondary_renameSecondary (f g : ℕ → ℕ) (m : Monomial K) :
    (m.renameSecondary f).renameSecondary g = m.renameSecondary (g ∘ f) := by
  rw [renameSecondary, renameSecondary, rename_rename]
  congr 2
  funext k
  cases k <;> rfl

theorem renameSecondary_congr {f g : ℕ → ℕ} {m : Monomial K}
    (h : ∀ id ∈ m.ids .secondary, f id = g id) : m.renameSecondary f = m.renameSecondary g := by
  apply rename_congr
  intro k id hid
  cases k with
  | secondary => exact h id hid
  | primary | auxiliary => rfl

theorem renameSecondary_eq_iff {f g : ℕ → ℕ} {m : Monomial K} :
    m.renameSecondary f = m.renameSecondary g ↔ ∀ id ∈ m.ids .secondary, f id = g id := by
  refine ⟨fun h => ?_, renameSecondary_congr⟩
  have hids := congrArg (fun l => l.ids .secondary) h
  simp only [renameSecondary, ids_rename] at hids
  exact List.map_inj_left.mp hids

@[simp] theorem renameSecondary_id (m : Monomial K) : m.renameSecondary id = m :=
  rename_eq_self fun k _ _ => by cases k <;> rfl

theorem renameIndex_secondary (s t : ℕ) (m : Monomial K) :
    m.renameIndex (some .secondary) s t = m.renameSecondary fun v => if v = s then t else v := by
  apply mapIndices_congr
  intro i _
  cases i with
  | fixed v => simp [Index.rename, slotRenaming]
  | slot k id r => cases k <;> simp [Index.rename, slotRenaming, secondaryRenaming]

theorem foldl_renameIndex (steps : List (ℕ × ℕ)) (m : Monomial K) :
    steps.foldl (fun m step => m.renameIndex (some .secondary) step.1 step.2) m =
      m.renameSecondary (moves steps) := by
  induction steps generalizing m with
  | nil => exact m.renameSecondary_id.symm
  | cons step steps ih =>
    rw [List.foldl_cons, ih, renameIndex_secondary, renameSecondary_renameSecondary]
    rfl

/-- The moves take a slot below the number `n` of targets to its target, and a slot `n + id` in the
window, through which they go, to the target of `id`. -/
theorem moveSecondary_eq_moved {targets : List ℕ} (ht : ∀ t ∈ targets, t < targets.length)
    (m : Monomial K) : m.moveSecondary targets = m.renameSecondary (moved targets) := by
  calc m.moveSecondary targets
      = (m.renameSecondary (moves (movesAway targets.length))).renameSecondary
          (moves (movesBack targets)) := by
        rw [← foldl_renameIndex, ← foldl_renameIndex, movesAway, movesBack, List.foldl_map,
          List.foldl_map]
        rfl
    _ = m.renameSecondary (moved targets) := by
        rw [renameSecondary_renameSecondary]
        exact congrArg m.renameSecondary (funext (moves_eq_moved ht))

/-- The slots below the number of targets are taken to their targets. -/
theorem moveSecondary_eq {targets : List ℕ} (ht : ∀ t ∈ targets, t < targets.length)
    {m : Monomial K} (hm : ∀ id ∈ m.ids .secondary, id < targets.length) :
    m.moveSecondary targets = m.renameSecondary fun id => targets.getD id id := by
  rw [moveSecondary_eq_moved ht]
  refine renameSecondary_congr fun id hid => ?_
  rw [moved, if_pos (hm id hid)]

/-- The second monomial is the first one with its secondary slots permuted; the permutation fixes
the identifiers beyond those of the monomial. -/
def IsRelabelling (m q : Monomial K) : Prop :=
  ∃ π : Equiv.Perm ℕ, (∀ id, m.nextId .secondary ≤ id → π id = id) ∧ q = m.renameSecondary π

theorem IsRelabelling.refl (m : Monomial K) : m.IsRelabelling m :=
  ⟨Equiv.refl ℕ, fun _ _ => rfl, m.renameSecondary_id.symm⟩

theorem IsRelabelling.of_perm {targets : List ℕ} {m : Monomial K}
    (ht : targets.Perm (List.range (m.nextId .secondary))) :
    m.IsRelabelling (m.renameSecondary fun id => targets.getD id id) := by
  have hlen : targets.length = m.nextId .secondary := by rw [ht.length_eq, List.length_range]
  refine ⟨relabelling targets (hlen ▸ ht), fun id hid => ?_, rfl⟩
  exact List.getD_eq_default _ _ (hlen ▸ hid)

/-! ### What a relabelling keeps -/

theorem secondaryRenaming_injective (π : Equiv.Perm ℕ) (k : SlotKind) :
    Function.Injective (secondaryRenaming π k) := by
  cases k with
  | secondary => exact π.injective
  | primary | auxiliary => exact fun _ _ h => h

theorem indices_renameSecondary (π : ℕ → ℕ) (m : Monomial K) : (m.renameSecondary π).indices =
    m.indices.map (Index.rename (slotRenaming (secondaryRenaming π))) := by
  rw [renameSecondary, rename, indices_mapIndices]

theorem basisFunctions_renameSecondary (π : ℕ → ℕ) (m : Monomial K) :
    (m.renameSecondary π).basisFunctions = m.basisFunctions.map
      (mapIndices (Index.rename (slotRenaming (secondaryRenaming π)))) := by
  rw [renameSecondary, rename, mapIndices_eq]

section

variable {q q' : Monomial K}

theorem IsRelabelling.integral_eq (h : q.IsRelabelling q') : q'.integral = q.integral := by
  obtain ⟨π, -, rfl⟩ := h
  rfl

theorem IsRelabelling.constant_eq (h : q.IsRelabelling q') : q'.constant = q.constant := by
  obtain ⟨π, -, rfl⟩ := h
  rfl

/-- Primary slots stay as they are. -/
theorem IsRelabelling.primary_mem_iff (h : q.IsRelabelling q') {id : ℕ} {r : List ℕ} :
    Index.slot .primary id r ∈ q'.indices ↔ Index.slot .primary id r ∈ q.indices := by
  obtain ⟨π, -, rfl⟩ := h
  rw [indices_renameSecondary, List.mem_map]
  constructor
  · rintro ⟨i, hi, heq⟩
    cases i with
    | fixed v => cases heq
    | slot k id' r' =>
      cases k with
      | primary =>
        cases heq
        exact hi
      | secondary | auxiliary => cases heq
  · exact fun hi => ⟨_, hi, rfl⟩

end

end Monomial

end WeakForm
