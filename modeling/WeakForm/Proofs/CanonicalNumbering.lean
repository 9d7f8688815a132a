import WeakForm.Proofs.Failure
import WeakForm.Proofs.NumberingScan
import WeakForm.Proofs.SlotPatterns

/-!
# Renumbering is canonical

Renumbering changes nothing but identifiers, keeps apart what was apart, and numbers slots in order
of first occurrence (`Form.IsNumbering`).  These properties determine the form
(`Form.isNumbering_iff`).

To be a renaming is an equivalence relation on forms (`Form.IsRenaming.symm`,
`Form.IsRenaming.trans`), and the renumbering of a form is a renaming of it
(`Form.isRenaming_renumber`).  So two forms have one renumbering exactly if they are renamings of
each other (`Form.renumber_canonical`).
-/

namespace WeakForm

open Indexed

theorem place_eq_self {ids : List ℕ} {n : ℕ} (h : ids.eraseDups = List.range n) {x : ℕ}
    (hx : x ∈ ids) : place ids x = x := by
  have hlt : x < n := by rwa [← List.mem_eraseDups, h, List.mem_range] at hx
  have hx' : x < (List.range n).length := by rwa [List.length_range]
  have hidx := List.nodup_range.idxOf_getElem x hx'
  rwa [List.getElem_range, ← h] at hidx

/-- An index is a renaming of another one that agrees with it but for the identifier. -/
theorem Index.eq_rename {i i' : Index} {σ : SlotKind → ℕ → ℕ}
    (h : i'.rename (slotRenaming fun _ _ => 0) = i.rename (slotRenaming fun _ _ => 0))
    (hid : ∀ k, i'.idOf? k = (i.idOf? k).map (σ k)) : i' = i.rename (slotRenaming σ) := by
  cases i with
  | fixed v =>
    cases i' with
    | fixed w => exact h
    | slot l y s => cases h
  | slot k x r =>
    cases i' with
    | fixed w => cases h
    | slot l y s =>
      obtain ⟨rfl, -, rfl⟩ := Index.slot.inj h
      have hy := hid l
      simp only [Index.idOf?, if_true, Option.map_some, Option.some.injEq] at hy
      rw [hy]
      rfl

namespace Monomial

variable {K : Type} {m n : Monomial K}

/-! ### Monomials -/

/-- The monomial without the identifiers of its slots. -/
def anonymous (m : Monomial K) : Monomial K :=
  m.rename (slotRenaming fun _ _ => 0)

theorem anonymous_rename (σ : SlotKind → ℕ → ℕ) (m : Monomial K) :
    (m.rename (slotRenaming σ)).anonymous = m.anonymous :=
  rename_rename σ _ m

/-- The second monomial is the first one with other identifiers; `ρ` renames the primary slots. -/
def RenamedBy (ρ : ℕ → ℕ) (m n : Monomial K) : Prop :=
  ∃ σ : SlotKind → ℕ → ℕ, σ .primary = ρ ∧ m.KeepsApart σ ∧ n = m.rename (slotRenaming σ)

/-- The identifier of the slot of one kind at a place. -/
def idAt? (m : Monomial K) (k : SlotKind) (a : ℕ) : Option ℕ :=
  m.indices[a]?.bind (Index.idOf? k)

theorem mem_ids_iff_idAt? {k : SlotKind} {id : ℕ} :
    id ∈ m.ids k ↔ ∃ a, m.idAt? k a = some id := by
  simp only [ids, List.mem_filterMap, idAt?, Option.bind_eq_some_iff]
  constructor
  · rintro ⟨i, hi, hid⟩
    obtain ⟨a, ha⟩ := List.mem_iff_getElem?.mp hi
    exact ⟨a, i, ha, hid⟩
  · rintro ⟨a, i, ha, hid⟩
    exact ⟨i, List.mem_of_getElem? ha, hid⟩

theorem idAt?_rename (σ : SlotKind → ℕ → ℕ) (m : Monomial K) (k : SlotKind) (a : ℕ) :
    (m.rename (slotRenaming σ)).idAt? k a = (m.idAt? k a).map (σ k) := by
  rw [idAt?, idAt?, rename, indices_mapIndices, List.getElem?_map, Option.bind_map, Option.map_bind]
  congr 1
  funext i
  exact Index.idOf?_rename _ k i

theorem isSome_idAt? (h : n.anonymous = m.anonymous) (k : SlotKind) (a : ℕ) :
    (n.idAt? k a).isSome = (m.idAt? k a).isSome := by
  have hid := congrArg (fun l => (l.idAt? k a).isSome) h
  simpa only [anonymous, idAt?_rename, Option.isSome_map] using hid

/-- Within a pattern, identifiers of one kind agree where they did. -/
theorem idAt?_iff (h : SamePattern m.indices n.indices) {k : SlotKind} {a b x y x' y' : ℕ}
    (hx : m.idAt? k a = some x) (hy : m.idAt? k b = some y) (hx' : n.idAt? k a = some x')
    (hy' : n.idAt? k b = some y') : x' = y' ↔ x = y := by
  simp only [idAt?, Option.bind_eq_some_iff, Index.idOf?_eq_some] at hx hy hx' hy'
  obtain ⟨i, hi, r, rfl⟩ := hx
  obtain ⟨j, hj, s, rfl⟩ := hy
  obtain ⟨i', hi', r', rfl⟩ := hx'
  obtain ⟨j', hj', s', rfl⟩ := hy'
  have hiff := h a b _ _ _ _ hi hj hi' hj'
  rw [Index.sameSlot_iff, Index.sameSlot_iff] at hiff
  simpa only [Index.kind?, Index.value, true_and] using hiff

/-- Monomials that agree but for identifiers, and have the same slots at the same places, are
renamings of each other; the primary slots may be renamed by any map that renames them. -/
theorem renamedBy_of_samePattern {ρ : ℕ → ℕ} (ha : n.anonymous = m.anonymous)
    (h : SamePattern m.indices n.indices)
    (hρ : ∀ a, n.idAt? .primary a = (m.idAt? .primary a).map ρ) : m.RenamedBy ρ n := by
  have hex : ∀ k, ∃ σ : ℕ → ℕ, ∀ a, n.idAt? k a = (m.idAt? k a).map σ := by
    intro k
    obtain ⟨σ, hσ, -⟩ := exists_renaming (isSome_idAt? ha k)
      fun a b x y x' y' hx hy hx' hy' => idAt?_iff h hx hy hx' hy'
    exact ⟨σ, hσ⟩
  choose others hothers using hex
  let σ := Function.update others .primary ρ
  have hσ : ∀ k a, n.idAt? k a = (m.idAt? k a).map (σ k) := by
    intro k a
    cases k with
    | primary => exact hρ a
    | secondary | auxiliary => exact hothers _ a
  have hindices : n.indices = m.indices.map (Index.rename (slotRenaming σ)) := by
    apply List.ext_getElem?
    intro a
    have hanon := congrArg (fun l => l.indices[a]?) ha
    simp only [anonymous, rename, indices_mapIndices, List.getElem?_map] at hanon
    have hids := fun k => hσ k a
    simp only [idAt?] at hids
    rw [List.getElem?_map]
    cases hm : m.indices[a]? <;> cases hn : n.indices[a]? <;>
      simp only [hm, hn, Option.map_none, Option.map_some, reduceCtorEq, Option.some.injEq] at hanon
    · rfl
    · simp only [hm, hn, Option.bind_some] at hids
      exact congrArg some (Index.eq_rename hanon hids)
  have hn : n = m.rename (slotRenaming σ) := by
    rw [Indexed.eq_refill_of_mapIndices_eq ha, rename, mapIndices]
    exact congrArg (refill m) hindices
  refine ⟨σ, rfl, samePattern_rename_iff.mp ?_, hn⟩
  rwa [← hn]

/-- A renaming can be undone. -/
theorem RenamedBy.symm {ρ τ : ℕ → ℕ} (h : m.RenamedBy ρ n)
    (hτ : ∀ x ∈ m.ids .primary, τ (ρ x) = x) : n.RenamedBy τ m := by
  obtain ⟨σ, rfl, hσ, rfl⟩ := h
  let back := Function.update (fun k => Function.invFunOn (σ k) {x | x ∈ m.ids k}) .primary τ
  have hback : ∀ k, ∀ x ∈ m.ids k, back k (σ k x) = x := by
    intro k x hx
    have hinv : Function.invFunOn (σ k) {x | x ∈ m.ids k} (σ k x) = x :=
      Set.InjOn.leftInvOn_invFunOn (fun x hx y hy h => hσ k x hx y hy h) hx
    cases k with
    | primary => exact hτ x hx
    | secondary | auxiliary => exact hinv
  refine ⟨back, rfl, ?_, ?_⟩
  · intro k y hy z hz hyz
    rw [ids_rename] at hy hz
    obtain ⟨x, hx, rfl⟩ := List.mem_map.mp hy
    obtain ⟨w, hw, rfl⟩ := List.mem_map.mp hz
    have hxw : x = w := ((hback k x hx).symm.trans hyz).trans (hback k w hw)
    rw [hxw]
  · rw [rename_rename]
    exact (rename_eq_self fun k x hx => hback k x hx).symm

theorem RenamedBy.trans {l : Monomial K} {ρ τ : ℕ → ℕ} (h : m.RenamedBy ρ n)
    (h' : n.RenamedBy τ l) : m.RenamedBy (τ ∘ ρ) l := by
  obtain ⟨σ, rfl, hσ, rfl⟩ := h
  obtain ⟨σ', rfl, hσ', rfl⟩ := h'
  refine ⟨fun k => σ' k ∘ σ k, rfl, fun k x hx y hy hxy => ?_, rename_rename σ σ' m⟩
  have hmem : ∀ z ∈ m.ids k, σ k z ∈ (m.rename (slotRenaming σ)).ids k := fun z hz => by
    rw [ids_rename]
    exact List.mem_map_of_mem hz
  exact hσ k x hx y hy (hσ' k _ (hmem x hx) _ (hmem y hy) hxy)

end Monomial

namespace Form

variable {K : Type} {f g h : Form K}

/-! ### Renamings are an equivalence relation -/

theorem IsRenaming.symm (hfg : f.IsRenaming g) : g.IsRenaming f := by
  obtain ⟨ρ, hρ, hmn⟩ := hfg
  have hmem : ∀ m ∈ f.monomials, ∀ x ∈ m.ids .primary, x ∈ f.ids .primary :=
    fun m hm x hx => mem_ids_of_mem hm hx
  let τ := Function.invFunOn ρ {x | x ∈ f.ids .primary}
  have hτ : ∀ x ∈ f.ids .primary, τ (ρ x) = x := fun x hx =>
    Set.InjOn.leftInvOn_invFunOn (fun x hx y hy h => hρ x hx y hy h) hx
  refine ⟨τ, ?_, ?_⟩
  · rw [IsRenaming.ids_primary hmn]
    intro y hy z hz hyz
    obtain ⟨x, hx, rfl⟩ := List.mem_map.mp hy
    obtain ⟨w, hw, rfl⟩ := List.mem_map.mp hz
    have hxw : x = w := ((hτ x hx).symm.trans hyz).trans (hτ w hw)
    rw [hxw]
  · apply List.Forall₂.flip
    refine ((List.forall₂_and_left _ _).mpr ⟨hmem, hmn⟩).imp fun m n hn => ?_
    exact Monomial.RenamedBy.symm hn.2 fun x hx => hτ x (hn.1 x hx)

theorem IsRenaming.trans (hfg : f.IsRenaming g) (hgh : g.IsRenaming h) : f.IsRenaming h := by
  obtain ⟨ρ, hρ, hmn⟩ := hfg
  obtain ⟨τ, hτ, hnl⟩ := hgh
  refine ⟨τ ∘ ρ, fun x hx y hy hxy => ?_, ?_⟩
  · rw [IsRenaming.ids_primary hmn] at hτ
    exact hρ x hx y hy (hτ _ (List.mem_map_of_mem hx) _ (List.mem_map_of_mem hy) hxy)
  · clear hρ hτ
    generalize f.monomials = ms, g.monomials = ns, h.monomials = ls at hmn hnl
    induction hmn generalizing ls with
    | nil =>
      cases hnl
      exact .nil
    | cons hmn _ ih =>
      cases hnl with
      | cons hnl hrest => exact .cons (Monomial.RenamedBy.trans hmn hnl) (ih _ hrest)

theorem isRenaming_renumber (f : Form K) : f.IsRenaming f.renumber := by
  rw [renumber_eq_map]
  refine ⟨numbering (f.ids .primary), fun x _ y _ h => numbering_injective _ h, ?_⟩
  refine List.forall₂_map_right_iff.mpr (List.forall₂_same.mpr fun m _ => ?_)
  exact ⟨_, rfl, fun k x _ y _ h => m.numberings_injective _ k h, rfl⟩

/-! ### Renamings by what they keep -/

/-- The identifier of the primary slot at place `a` of the monomial at position `p`. -/
def primaryAt? (f : Form K) (p a : ℕ) : Option ℕ :=
  f.monomials[p]?.bind fun m => m.idAt? .primary a

theorem mem_ids_primary {x : ℕ} : x ∈ f.ids .primary ↔ ∃ p a, f.primaryAt? p a = some x := by
  simp only [ids, List.mem_flatMap, Monomial.mem_ids_iff_idAt?, primaryAt?, Option.bind_eq_some_iff]
  constructor
  · rintro ⟨m, hm, a, ha⟩
    obtain ⟨p, hp⟩ := List.mem_iff_getElem?.mp hm
    exact ⟨p, a, m, hp, ha⟩
  · rintro ⟨p, a, m, hp, ha⟩
    exact ⟨m, List.mem_of_getElem? hp, a, ha⟩

/-- The monomials of the forms stand in pairs. -/
theorem getElem?_of_map_anonymous (ha : h.map Monomial.anonymous = f.map Monomial.anonymous)
    (p : ℕ) : h.monomials[p]?.map Monomial.anonymous = f.monomials[p]?.map Monomial.anonymous := by
  rw [← List.getElem?_map, ← List.getElem?_map]
  exact congrArg (·.monomials[p]?) ha

theorem primaryAt?_of_renamedBy {ρ : ℕ → ℕ}
    (hmn : List.Forall₂ (Monomial.RenamedBy ρ) f.monomials h.monomials) (p a : ℕ) :
    h.primaryAt? p a = (f.primaryAt? p a).map ρ := by
  obtain ⟨hlen, hget⟩ := List.forall₂_iff_get.mp hmn
  by_cases hp : p < f.monomials.length
  · obtain ⟨σ, rfl, -, hn⟩ := hget p hp (hlen ▸ hp)
    simp only [List.get_eq_getElem] at hn
    rw [primaryAt?, primaryAt?, List.getElem?_eq_getElem hp, List.getElem?_eq_getElem (hlen ▸ hp),
      Option.bind_some, Option.bind_some, hn, Monomial.idAt?_rename]
  · rw [primaryAt?, primaryAt?, List.getElem?_eq_none (Nat.le_of_not_lt hp),
      List.getElem?_eq_none (hlen ▸ Nat.le_of_not_lt hp)]
    rfl

/-- Renamings are the forms that agree but for identifiers, and that have the same slots at the same
places of each monomial and the same primary slots at the same places of all monomials. -/
theorem isRenaming_iff : f.IsRenaming h ↔
    h.map Monomial.anonymous = f.map Monomial.anonymous ∧
    List.Forall₂ (fun m n => SamePattern m.indices n.indices) f.monomials h.monomials ∧
    ∀ p q a b x y x' y' : ℕ, f.primaryAt? p a = some x → f.primaryAt? q b = some y →
      h.primaryAt? p a = some x' → h.primaryAt? q b = some y' → (x' = y' ↔ x = y) := by
  constructor
  · rintro ⟨ρ, hρ, hmn⟩
    refine ⟨congrArg Form.mk (map_eq_of_forall₂ hmn ?_), hmn.imp ?_, ?_⟩
    · rintro m n ⟨σ, -, -, rfl⟩
      exact Monomial.anonymous_rename σ m
    · rintro m n ⟨σ, -, hσ, rfl⟩
      exact Monomial.samePattern_rename_iff.mpr hσ
    · intro p q a b x y x' y' hx hy hx' hy'
      rw [primaryAt?_of_renamedBy hmn, hx, Option.map_some, Option.some.injEq] at hx'
      rw [primaryAt?_of_renamedBy hmn, hy, Option.map_some, Option.some.injEq] at hy'
      rw [← hx', ← hy']
      exact ⟨hρ x (mem_ids_primary.mpr ⟨p, a, hx⟩) y (mem_ids_primary.mpr ⟨q, b, hy⟩), congrArg ρ⟩
  · rintro ⟨hanon, hpattern, hprimary⟩
    have hpair := getElem?_of_map_anonymous hanon
    have hsome : ∀ x : ℕ × ℕ,
        (h.primaryAt? x.1 x.2).isSome = (f.primaryAt? x.1 x.2).isSome := by
      intro x
      rw [primaryAt?, primaryAt?]
      have hp := hpair x.1
      cases hf : f.monomials[x.1]? <;> cases hh : h.monomials[x.1]? <;>
        simp only [hf, hh, Option.map_none, Option.map_some, reduceCtorEq, Option.some.injEq] at hp
      · rfl
      · exact Monomial.isSome_idAt? hp _ _
    obtain ⟨ρ, hρ, hapart⟩ := exists_renaming hsome
      fun x y => hprimary x.1 y.1 x.2 y.2
    refine ⟨ρ, fun x hx y hy => ?_, ?_⟩
    · obtain ⟨p, a, hx⟩ := mem_ids_primary.mp hx
      obtain ⟨q, b, hy⟩ := mem_ids_primary.mp hy
      exact hapart (p, a) (q, b) x y hx hy
    · obtain ⟨hlen, hget⟩ := List.forall₂_iff_get.mp hpattern
      refine List.forall₂_iff_get.mpr ⟨hlen, fun p hp hp' => ?_⟩
      have hm := List.getElem?_eq_getElem hp
      have hn := List.getElem?_eq_getElem hp'
      have hp := hpair p
      rw [hm, hn, Option.map_some, Option.map_some, Option.some.injEq] at hp
      refine Monomial.renamedBy_of_samePattern hp (hget p _ _) fun a => ?_
      have := hρ (p, a)
      simp only [primaryAt?, hm, hn, Option.bind_some] at this
      exact this

/-! ### The numbering is determined -/

/-- The form `h` is `f` with its slots numbered in order of first occurrence. -/
structure IsNumbering (f h : Form K) : Prop where
  /-- The forms agree but for the identifiers of slots. -/
  anonymous_eq : h.map Monomial.anonymous = f.map Monomial.anonymous
  /-- Within a monomial, two places hold the same slot exactly if they did. -/
  samePattern : List.Forall₂ (fun m n => SamePattern m.indices n.indices) f.monomials h.monomials
  /-- Primary slots of any two monomials are the same exactly if they were. -/
  primary_iff : ∀ p q a b x y x' y' : ℕ, f.primaryAt? p a = some x → f.primaryAt? q b = some y →
    h.primaryAt? p a = some x' → h.primaryAt? q b = some y' → (x' = y' ↔ x = y)
  /-- The identifiers are `0, 1, 2, …` in order of first occurrence. -/
  numbered : h.Numbered

theorem isNumbering_iff_isRenaming : f.IsNumbering h ↔ f.IsRenaming h ∧ h.Numbered := by
  rw [isRenaming_iff]
  constructor
  · intro hn
    exact ⟨⟨hn.anonymous_eq, hn.samePattern, hn.primary_iff⟩, hn.numbered⟩
  · rintro ⟨⟨ha, hp, hi⟩, hn⟩
    exact ⟨ha, hp, hi, hn⟩

/-- A form that is numbered in order is left as it is. -/
theorem Numbered.renumber_eq (hn : f.Numbered) : f.renumber = f := by
  refine congrArg Form.mk ((List.map_congr_left fun m hm => ?_).trans (List.map_id _))
  rw [Monomial.renumber_eq_places]
  apply Monomial.rename_eq_self
  intro k id hid
  cases k with
  | primary =>
    obtain ⟨n, hn⟩ := hn.primary
    exact place_eq_self hn (mem_ids_of_mem hm hid)
  | secondary =>
    obtain ⟨n, hn⟩ := hn.secondary m hm
    exact place_eq_self hn hid
  | auxiliary =>
    obtain ⟨n, hn⟩ := hn.auxiliary m hm
    exact place_eq_self hn hid

/-- There is one numbering in order of first occurrence, and it is the renumbering. -/
theorem isNumbering_iff : f.IsNumbering h ↔ h = f.renumber := by
  rw [isNumbering_iff_isRenaming]
  constructor
  · rintro ⟨hr, hn⟩
    rw [← hr.renumber_eq, hn.renumber_eq]
  · rintro rfl
    exact ⟨f.isRenaming_renumber, f.numbered_renumber⟩

/-- Renumbering, by one scan, keeps all but the identifiers of slots and numbers them in order of
first occurrence, which determines the result.  Forms are renumbered to the same form exactly if
they are renamings of each other, and a second renumbering changes nothing. -/
theorem renumber_canonical (f g : Form K) :
    f.numberInOrder = f.renumber ∧
    (∀ h, f.IsNumbering h ↔ h = f.renumber) ∧
    (f.renumber = g.renumber ↔ f.IsRenaming g) ∧
    f.renumber.renumber = f.renumber := by
  refine ⟨f.numberInOrder_eq, fun h => isNumbering_iff, ⟨fun hfg => ?_, fun hfg => ?_⟩,
    f.renumber_renumber⟩
  · apply f.isRenaming_renumber.trans
    rw [hfg]
    exact g.isRenaming_renumber.symm
  · exact hfg.renumber_eq.symm

end Form

end WeakForm
