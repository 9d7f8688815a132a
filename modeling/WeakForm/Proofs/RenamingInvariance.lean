import WeakForm.Proofs.NormalForm

/-!
# Simplification does not depend on the numbering

Two forms are renamings of each other if they differ in the identifiers of slots only: those of
primary slots are renamed throughout the form, those of other slots within each monomial, and no two
identifiers become one (`Form.IsRenaming`).  Renumbering makes such forms equal
(`Form.IsRenaming.renumber_eq`), and the first round of the simplifier sees no more of a form than
its renumbering (`Form.round_renumber`).

After the first round both runs are in the same state, but one of them may have ended with it,
because its form was in order from the start.  Then the round has found a form that further rounds
leave as it is (`Form.runs_unique_of_round_eq`).
-/

namespace WeakForm

open Indexed

/-- Places are kept by a renaming that keeps identifiers apart. -/
theorem place_map {f : ℕ → ℕ} {ids : List ℕ} (hf : ∀ x ∈ ids, ∀ y ∈ ids, f x = f y → x = y) {x : ℕ}
    (hx : x ∈ ids) : place (ids.map f) (f x) = place ids x := by
  rw [place, eraseDups_map ids hf]
  exact idxOf_map fun y hy h => hf y (List.mem_eraseDups.mp hy) x hx h

/-! ### Renamings of monomials -/

namespace Monomial

variable {K : Type}

theorem rename_rename (f g : SlotKind → ℕ → ℕ) (m : Monomial K) :
    (m.rename (slotRenaming f)).rename (slotRenaming g) =
      m.rename (slotRenaming fun k => g k ∘ f k) := by
  rw [rename, rename, mapIndices_mapIndices]
  apply mapIndices_congr
  intro i _
  cases i <;> rfl

/-- The renaming keeps the slots of the monomial apart. -/
def KeepsApart (m : Monomial K) (f : SlotKind → ℕ → ℕ) : Prop :=
  ∀ k, ∀ x ∈ m.ids k, ∀ y ∈ m.ids k, f k x = f k y → x = y

/-- Renumbering undoes a renaming, provided that the lists of primary identifiers correspond. -/
theorem renumber_rename {m : Monomial K} {f : SlotKind → ℕ → ℕ} {primary : List ℕ}
    (hf : m.KeepsApart f)
    (hp : ∀ x ∈ primary, ∀ y ∈ primary, f .primary x = f .primary y → x = y)
    (hm : ∀ id ∈ m.ids .primary, id ∈ primary) :
    (m.rename (slotRenaming f)).renumber (primary.map (f .primary)).eraseDups =
      m.renumber primary.eraseDups := by
  rw [renumber_eq_places, renumber_eq_places, rename_rename]
  apply rename_congr
  intro k id hid
  cases k with
  | primary => exact place_map hp (hm id hid)
  | secondary =>
    simp only [Function.comp_apply, places, ids_rename]
    exact place_map (hf .secondary) hid
  | auxiliary =>
    simp only [Function.comp_apply, places, ids_rename]
    exact place_map (hf .auxiliary) hid

theorem ids_normalizeRestrictions (m : Monomial K) (k : SlotKind) :
    m.normalizeRestrictions.ids k = m.ids k := by
  rw [ids, indices_normalizeRestrictions, ids]

theorem normalizeRestrictions_rename (f : SlotKind → ℕ → ℕ) (m : Monomial K) :
    (m.rename (slotRenaming f)).normalizeRestrictions =
      m.normalizeRestrictions.rename (slotRenaming f) := by
  have hd : (m.rename (slotRenaming f)).integral = m.integral := rfl
  unfold normalizeRestrictions
  rw [hd]
  split
  · simp only [rename, mapIndices_eq, List.map_map]
    congr 2
    apply List.map_congr_left
    intro v _
    simp only [Function.comp_apply, mapIndices_basisFunction]
    split <;> rfl
  · rfl

end Monomial

namespace Form

variable {K : Type}

/-! ### Renamings of forms -/

/-- The second form is the first one with other identifiers: `ρ` renames the primary slots of all
monomials, and each monomial has its own renamings of the other slots. -/
def IsRenaming (f g : Form K) : Prop :=
  ∃ ρ : ℕ → ℕ, (∀ x ∈ f.ids .primary, ∀ y ∈ f.ids .primary, ρ x = ρ y → x = y) ∧
    List.Forall₂ (fun m n => ∃ σ : SlotKind → ℕ → ℕ, σ .primary = ρ ∧ m.KeepsApart σ ∧
      n = m.rename (slotRenaming σ)) f.monomials g.monomials

theorem IsRenaming.ids_primary {ρ : ℕ → ℕ} {ms ns : List (Monomial K)}
    (h : List.Forall₂ (fun m n => ∃ σ : SlotKind → ℕ → ℕ, σ .primary = ρ ∧ m.KeepsApart σ ∧
      n = m.rename (slotRenaming σ)) ms ns) :
    (⟨ns⟩ : Form K).ids .primary = ((⟨ms⟩ : Form K).ids .primary).map ρ := by
  induction h with
  | nil => rfl
  | cons hmn _ ih =>
    obtain ⟨σ, rfl, -, rfl⟩ := hmn
    simp only [ids, List.flatMap_cons, List.map_append] at ih ⊢
    rw [ih, Monomial.ids_rename]
    rfl

/-- Renamings of one form have the same renumbering. -/
theorem IsRenaming.renumber_eq {f g : Form K} (h : f.IsRenaming g) : g.renumber = f.renumber := by
  obtain ⟨ms⟩ := f
  obtain ⟨ns⟩ := g
  obtain ⟨ρ, hρ, hmn⟩ := h
  have hids := ids_primary hmn
  refine congrArg Form.mk ?_
  rw [hids]
  have hsub : ∀ m ∈ ms, ∀ id ∈ m.ids .primary, id ∈ (⟨ms⟩ : Form K).ids .primary :=
    fun m hm id hid => mem_ids_of_mem (f := ⟨ms⟩) hm hid
  generalize (⟨ms⟩ : Form K).ids .primary = primary at hρ hsub
  clear hids
  dsimp only at hmn ⊢
  induction hmn with
  | nil => rfl
  | cons hmn _ ih =>
    obtain ⟨σ, rfl, hσ, rfl⟩ := hmn
    rw [List.forall_mem_cons] at hsub
    rw [List.map_cons, List.map_cons, ih hsub.2, Monomial.renumber_rename hσ hρ hsub.1]

theorem renumber_normalizeRestrictions (f : Form K) :
    f.normalizeRestrictions.renumber = f.renumber.normalizeRestrictions := by
  have hids : f.normalizeRestrictions.ids .primary = f.ids .primary := by
    rw [ids, ids, normalizeRestrictions, monomials_map, List.flatMap_map]
    exact List.flatMap_congr fun m _ => m.ids_normalizeRestrictions .primary
  refine congrArg Form.mk ?_
  rw [hids]
  simp only [normalizeRestrictions, renumber, monomials_map, List.map_map]
  apply List.map_congr_left
  intro m _
  simp only [Function.comp_apply, Monomial.renumber_eq_places,
    Monomial.normalizeRestrictions_rename]
  congr 2
  funext k
  cases k with
  | primary => rfl
  | secondary => rw [Monomial.places, Monomial.places, Monomial.ids_normalizeRestrictions]
  | auxiliary => rw [Monomial.places, Monomial.places, Monomial.ids_normalizeRestrictions]

/-! ### What the checks see -/

/-- A form is balanced exactly if its renumbering is. -/
theorem balanced_renumber_iff (f : Form K) : f.renumber.Balanced ↔ f.Balanced := by
  refine ⟨fun h m hm => ?_, Balanced.renumber⟩
  rw [renumber_eq_map] at h
  have hm' := h _ (List.mem_map_of_mem hm)
  rw [Monomial.balanced_iff, Monomial.rename, Monomial.indices_mapIndices] at hm'
  exact BalancedIndices.of_map_rename (m.numberings_injective _) hm'

theorem nonFinite?_renumber_eq_none_iff [Constant K] (f : Form K) :
    f.renumber.nonFinite? = none ↔ f.nonFinite? = none := by
  rw [nonFinite?_eq_none_iff, nonFinite?_eq_none_iff, renumber, monomials_map, List.forall_mem_map]
  rfl

variable [Constant K] [BEq K] [Add K] [Zero K]

/-! ### Rounds -/

theorem round_renumber (f : Form K) : f.renumber.round = f.round := by
  rw [Form.round, contract_renumber, Form.round]

variable [LawfulConstant K]

/-- A round that ends the rounds has reached a form that the next one leaves as it is. -/
theorem runs_of_settled {f g : Form K} (h : f.round = .ok g) (hs : Settled f g) :
    Runs Form.round Settled g 1 (.ok g) := by
  obtain ⟨-, -, -, hfin⟩ := round_eq_ok h
  obtain ⟨-, hr, hc, hfac, hz, hdet, hch⟩ := round_fixed h hs
  exact .done (round_of_fixed hfin hr hc hfac hz hdet hch) (beq_self_of_finite hfin)

/-- Two runs of the rounds whose first rounds agree have the same result. -/
theorem runs_unique_of_round_eq {f g : Form K} (h : f.round = g.round) {n n' : ℕ}
    {r r' : Except (FormError K) (Form K)} (hf : Runs Form.round Settled f n r)
    (hg : Runs Form.round Settled g n' r') : r = r' := by
  cases hf with
  | fail hb => exact ((Runs.fail (h ▸ hb)).unique hg).2
  | done hb hs =>
    cases hg with
    | fail hb' => rw [← h, hb] at hb'; cases hb'
    | done hb' _ => rw [← h, hb] at hb'; exact hb'
    | again hb' _ hr =>
      -- the second run goes on from where the first one has ended
      rw [← h, hb] at hb'
      cases hb'
      exact ((runs_of_settled hb hs).unique hr).2
  | again hb _ hr =>
    rw [h] at hb
    cases hg with
    | fail hb' => rw [hb] at hb'; cases hb'
    | done hb' hs' =>
      rw [hb] at hb'
      cases hb'
      exact (hr.unique (runs_of_settled hb hs')).2
    | again hb' _ hr' =>
      rw [hb] at hb'
      cases hb'
      exact (hr.unique hr').2

/-- Simplification sees no more of a form than its renumbering. -/
theorem simplify_eq_ok_of_renumber_eq {f g s : Form K} (h : g.renumber = f.renumber)
    (hf : f.simplify = .ok s) : g.simplify = .ok s := by
  obtain ⟨hfb, hff⟩ := checks_of_simplify hf
  have hgb : g.Balanced := by
    rw [← balanced_renumber_iff, h, balanced_renumber_iff]
    exact hfb
  have hgf : g.nonFinite? = none := by
    rw [← nonFinite?_renumber_eq_none_iff, h, nonFinite?_renumber_eq_none_iff]
    exact hff
  obtain ⟨n, -, hrf⟩ := simplify_runs hfb hff
  obtain ⟨n', -, hrg⟩ := simplify_runs hgb hgf
  have hround : f.normalizeRestrictions.round = g.normalizeRestrictions.round := by
    rw [← round_renumber, renumber_normalizeRestrictions, ← h, ← renumber_normalizeRestrictions,
      round_renumber]
  rw [← runs_unique_of_round_eq hround hrf hrg, hf]

/-- The result of simplification does not depend on how the slots are numbered: a form is simplified
exactly if a renaming of it is, and to the same form. -/
theorem simplify_renaming_invariant {f g : Form K} (h : f.IsRenaming g) (s : Form K) :
    f.simplify = .ok s ↔ g.simplify = .ok s :=
  ⟨simplify_eq_ok_of_renumber_eq h.renumber_eq, simplify_eq_ok_of_renumber_eq h.renumber_eq.symm⟩

/-- Both terms with other primary slots, the first one with its secondary slots exchanged and the
second one with secondary slots further apart. -/
theorem simplify_renaming_invariant_chainTerms :
    let m := chainTerm (0.5 : Float) .triangle 0
    let n := chainTerm (0.5 : Float) .triangle 1
    let f := chainTerms (0.5 : Float) .triangle [0, 1]
    let exchanged : SlotKind → ℕ → ℕ
      | .primary, id => id + 3
      | _, id => 1 - id
    let apart : SlotKind → ℕ → ℕ
      | .primary, id => id + 3
      | _, id => 4 * id + 2
    let g : Form Float :=
      ⟨[m.rename (slotRenaming exchanged), n.rename (slotRenaming apart)]⟩
    let s := derivativeTerms (0.5 : Float) .triangle
    f.IsRenaming g ∧ f.simplify = .ok s ∧ g.simplify = .ok s := by
  intro m n f exchanged apart g s
  have hg : f.IsRenaming g := by
    refine ⟨(· + 3), fun _ _ _ _ h => Nat.add_right_cancel h, .cons ⟨exchanged, rfl, ?_, rfl⟩
      (.cons ⟨apart, rfl, ?_, rfl⟩ .nil)⟩
    · intro k
      cases k <;> decide
    · intro k
      cases k <;> decide
  have hf : f.simplify = .ok s := by decide +kernel
  exact ⟨hg, hf, (simplify_renaming_invariant hg s).mp hf⟩

end Form

end WeakForm
