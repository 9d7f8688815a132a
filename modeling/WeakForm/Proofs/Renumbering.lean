import Mathlib.Data.List.Basic
import Mathlib.Data.List.Dedup
import Mathlib.Data.List.Induction
import Mathlib.Logic.Function.Basic
import WeakForm.Proofs.IndexMaps
import WeakForm.Renumbering

/-!
# Renumbering as a renaming

Renumbering replaces the identifier of a slot by its place among the distinct identifiers of its
kind (`place`).  A place determines the identifier, so renumbering is an injective renaming
(`Form.renumber_eq_map`), and a place is its own place among places, so a renumbered form
is left as it is (`Form.renumber_renumber`): its identifiers are numbered in order of first
occurrence (`Form.numbered_renumber`).
-/

namespace WeakForm

open Indexed

/-! ### Places -/

theorem eraseDups_map {α β : Type} [BEq α] [LawfulBEq α] [BEq β] [LawfulBEq β] {f : α → β} :
    ∀ l : List α,
    (∀ x ∈ l, ∀ y ∈ l, f x = f y → x = y) → (l.map f).eraseDups = l.eraseDups.map f
  | [], _ => rfl
  | x :: l, hf => by
    have hf' : ∀ y ∈ l, ∀ z ∈ l, f y = f z → y = z := fun y hy z hz =>
      hf y (List.mem_cons_of_mem x hy) z (List.mem_cons_of_mem x hz)
    have e : (l.map f).filter (fun b => !b == f x) = (l.filter fun b => !b == x).map f := by
      rw [List.filter_map]
      congr 1
      apply List.filter_congr
      intro y hy
      have : (f y == f x) = (y == x) := by
        rw [Bool.eq_iff_iff, beq_iff_eq, beq_iff_eq]
        exact ⟨hf y (List.mem_cons_of_mem x hy) x List.mem_cons_self, congrArg f⟩
      simp [this]
    rw [List.map_cons, List.eraseDups_cons, List.eraseDups_cons, List.map_cons, e,
      eraseDups_map _ fun y hy z hz => hf' y (List.mem_of_mem_filter hy) z
        (List.mem_of_mem_filter hz)]
termination_by l => l.length
decreasing_by
  have := List.length_filter_le (fun b => !b == x) l
  simp only [List.length_cons]
  omega

theorem idxOf_map {f : ℕ → ℕ} {x : ℕ} : ∀ {l : List ℕ},
    (∀ y ∈ l, f y = f x → y = x) → (l.map f).idxOf (f x) = l.idxOf x
  | [], _ => rfl
  | y :: l, hf => by
    have : (f y == f x) = (y == x) := by
      rw [Bool.eq_iff_iff, beq_iff_eq, beq_iff_eq]
      exact ⟨hf y List.mem_cons_self, congrArg f⟩
    rw [List.map_cons, List.idxOf_cons, List.idxOf_cons, this,
      idxOf_map fun z hz => hf z (List.mem_cons_of_mem y hz)]

/-- The place of an identifier among the distinct ones of a list, in order of first occurrence. -/
def place (ids : List ℕ) (id : ℕ) : ℕ :=
  ids.eraseDups.idxOf id

theorem place_injOn {ids : List ℕ} {x y : ℕ} (hx : x ∈ ids) (h : place ids x = place ids y) :
    x = y :=
  (List.idxOf_inj (List.mem_eraseDups.mpr hx)).mp h

theorem nodup_eraseDups {α : Type} [BEq α] [LawfulBEq α] : ∀ l : List α, l.eraseDups.Nodup
  | [] => List.nodup_nil
  | x :: l => by
    rw [List.eraseDups_cons]
    refine List.nodup_cons.mpr ⟨fun h => ?_, nodup_eraseDups _⟩
    simpa using List.mem_eraseDups.mp h
termination_by l => l.length
decreasing_by
  have := List.length_filter_le (fun b => !b == x) l
  simp only [List.length_cons]
  omega

theorem eraseDups_filter {α : Type} [BEq α] [LawfulBEq α] (p : α → Bool) (l : List α) :
    (l.filter p).eraseDups = l.eraseDups.filter p := by
  induction l using List.reverseRecOn with
  | nil => rfl
  | append_singleton l x ih =>
    rw [List.eraseDups_append, List.filter_append, List.filter_append, List.eraseDups_append, ih]
    by_cases hp : p x
    · by_cases hx : x ∈ l
      · simp [List.removeAll, hp, hx]
      · simp [List.removeAll, hp, hx, List.eraseDups_cons]
    · by_cases hx : x ∈ l
      · simp [List.removeAll, hp, hx]
      · simp [List.removeAll, hp, hx, List.eraseDups_cons]

/-- Every number below that of distinct identifiers is the place of one. -/
theorem exists_place_eq {ids : List ℕ} {n : ℕ} (hn : n < ids.eraseDups.length) :
    ∃ x ∈ ids, place ids x = n :=
  ⟨_, List.mem_eraseDups.mp (List.getElem_mem hn), (nodup_eraseDups ids).idxOf_getElem n hn⟩

/-- Among places, every place is its own. -/
theorem place_map_place (ids : List ℕ) (x : ℕ) :
    place (ids.map (place ids)) (place ids x) = place ids x := by
  rw [place, eraseDups_map ids fun y hy z _ h => place_injOn hy h]
  exact idxOf_map fun y hy h => place_injOn (List.mem_eraseDups.mp hy) h

/-- Places are numbered in order of first occurrence. -/
theorem eraseDups_map_idxOf {α : Type} [BEq α] [LawfulBEq α] (l : List α) :
    (l.map l.eraseDups.idxOf).eraseDups = List.range l.eraseDups.length := by
  rw [eraseDups_map l fun x hx y _ h => (List.idxOf_inj (List.mem_eraseDups.mpr hx)).mp h]
  refine List.ext_getElem (by simp) fun n h _ => ?_
  rw [List.length_map] at h
  rw [List.getElem_map, List.getElem_range]
  exact (nodup_eraseDups l).idxOf_getElem n h

/-- The places of identifiers are numbered in order of first occurrence. -/
theorem eraseDups_map_place (ids : List ℕ) :
    (ids.map (place ids)).eraseDups = List.range ids.eraseDups.length :=
  eraseDups_map_idxOf ids

/-- Places, continued injectively to the identifiers that do not occur. -/
def numbering (ids : List ℕ) (id : ℕ) : ℕ :=
  if id ∈ ids then place ids id else ids.eraseDups.length + id

theorem numbering_of_mem {ids : List ℕ} {x : ℕ} (hx : x ∈ ids) : numbering ids x = place ids x :=
  if_pos hx

theorem numbering_injective (ids : List ℕ) : Function.Injective (numbering ids) := by
  have hlt : ∀ x ∈ ids, place ids x < ids.eraseDups.length := fun x hx =>
    List.idxOf_lt_length_of_mem (List.mem_eraseDups.mpr hx)
  intro x y h
  unfold numbering at h
  split_ifs at h with hx hy hy
  · exact place_injOn hx h
  · have := hlt x hx
    omega
  · have := hlt y hy
    omega
  · omega

/-! ### Renamings -/

/-- A renaming of slots that leaves literals as they are. -/
def slotRenaming (f : SlotKind → ℕ → ℕ) : Option SlotKind → ℕ → ℕ
  | some k, id => f k id
  | none, v => v

theorem Index.idOf?_rename (f : Option SlotKind → ℕ → ℕ) (k : SlotKind) (i : Index) :
    (i.rename f).idOf? k = (i.idOf? k).map (f (some k)) := by
  cases i with
  | slot l id r =>
    by_cases h : l = k
    · simp [Index.rename, Index.idOf?, h]
    · simp [Index.rename, Index.idOf?, h]
  | fixed v => rfl

namespace Monomial

variable {K : Type}

theorem ids_rename (f : Option SlotKind → ℕ → ℕ) (m : Monomial K) (k : SlotKind) :
    (m.rename f).ids k = (m.ids k).map (f (some k)) := by
  rw [ids, rename, indices_mapIndices, List.filterMap_map, ids, List.map_filterMap]
  exact List.filterMap_congr fun i _ => Index.idOf?_rename f k i

theorem rename_congr {f g : SlotKind → ℕ → ℕ} {m : Monomial K}
    (h : ∀ k, ∀ id ∈ m.ids k, f k id = g k id) :
    m.rename (slotRenaming f) = m.rename (slotRenaming g) := by
  apply mapIndices_congr
  intro i hi
  cases i with
  | slot k id r =>
    have : id ∈ m.ids k := List.mem_filterMap.mpr ⟨_, hi, by simp [Index.idOf?]⟩
    simp only [Index.rename, slotRenaming, h k id this]
  | fixed v => rfl

theorem rename_eq_self {f : SlotKind → ℕ → ℕ} {m : Monomial K}
    (h : ∀ k, ∀ id ∈ m.ids k, f k id = id) : m.rename (slotRenaming f) = m := by
  apply mapIndices_eq_self
  intro i hi
  cases i with
  | slot k id r =>
    have : id ∈ m.ids k := List.mem_filterMap.mpr ⟨_, hi, by simp [Index.idOf?]⟩
    simp only [Index.rename, slotRenaming, h k id this]
  | fixed v => rfl

/-- The place of every slot: that of a primary one among the given identifiers, that of any other
one among those of the monomial. -/
def places (primary : List ℕ) (m : Monomial K) : SlotKind → ℕ → ℕ
  | .primary => place primary
  | .secondary => place (m.ids .secondary)
  | .auxiliary => place (m.ids .auxiliary)

theorem renumber_eq_places (primary : List ℕ) (m : Monomial K) :
    m.renumber primary.eraseDups = m.rename (slotRenaming (m.places primary)) := by
  apply mapIndices_congr
  intro i _
  cases i with
  | slot k id r => cases k <;> rfl
  | fixed v => rfl

/-- The same, continued injectively. -/
def numberings (primary : List ℕ) (m : Monomial K) : SlotKind → ℕ → ℕ
  | .primary => numbering primary
  | .secondary => numbering (m.ids .secondary)
  | .auxiliary => numbering (m.ids .auxiliary)

theorem numberings_injective (primary : List ℕ) (m : Monomial K) (k : SlotKind) :
    Function.Injective (m.numberings primary k) := by
  cases k <;> exact numbering_injective _

theorem renumber_eq_rename {primary : List ℕ} {m : Monomial K}
    (h : ∀ id ∈ m.ids .primary, id ∈ primary) :
    m.renumber primary.eraseDups = m.rename (slotRenaming (m.numberings primary)) := by
  rw [renumber_eq_places]
  apply rename_congr
  intro k id hid
  cases k with
  | primary => exact (numbering_of_mem (h id hid)).symm
  | secondary => exact (numbering_of_mem hid).symm
  | auxiliary => exact (numbering_of_mem hid).symm

end Monomial

namespace Form

variable {K : Type}

theorem mem_ids_of_mem {f : Form K} {m : Monomial K} (hm : m ∈ f.monomials) {k : SlotKind}
    {id : ℕ} (hid : id ∈ m.ids k) : id ∈ f.ids k :=
  List.mem_flatMap.mpr ⟨m, hm, hid⟩

/-- Every monomial of a renumbered form is an injective renaming of one of the form, with one
renaming of the primary slots for all of them. -/
theorem renumber_eq_map (f : Form K) : f.renumber =
    ⟨f.monomials.map fun m => m.rename (slotRenaming (m.numberings (f.ids .primary)))⟩ := by
  refine congrArg Form.mk (List.map_congr_left fun m hm => ?_)
  exact Monomial.renumber_eq_rename fun id hid => mem_ids_of_mem hm hid

theorem ids_renumber_primary (f : Form K) :
    f.renumber.ids .primary = (f.ids .primary).map (place (f.ids .primary)) := by
  rw [ids, renumber, monomials_map, List.flatMap_map, ids, List.map_flatMap]
  apply List.flatMap_congr
  intro m _
  rw [Monomial.renumber_eq_places, Monomial.ids_rename]
  rfl

theorem renumber_renumber (f : Form K) : f.renumber.renumber = f.renumber := by
  refine congrArg Form.mk ?_
  rw [ids_renumber_primary]
  refine (List.map_congr_left fun n hn => ?_).trans (List.map_id _)
  obtain ⟨m, hm, rfl⟩ := List.mem_map.mp hn
  rw [Monomial.renumber_eq_places, Monomial.renumber_eq_places]
  apply Monomial.rename_eq_self
  intro k id hid
  rw [Monomial.ids_rename] at hid
  obtain ⟨x, hx, rfl⟩ := List.mem_map.mp hid
  cases k with
  | primary => exact place_map_place _ x
  | secondary =>
    rw [Monomial.places, Monomial.ids_rename]
    exact place_map_place _ x
  | auxiliary =>
    rw [Monomial.places, Monomial.ids_rename]
    exact place_map_place _ x

/-- All slots are numbered in order of first occurrence: primary ones across the form, the others
within each monomial. -/
structure Numbered (f : Form K) : Prop where
  primary : ∃ n, (f.ids .primary).eraseDups = List.range n
  secondary : ∀ m ∈ f.monomials, ∃ n, (m.ids .secondary).eraseDups = List.range n
  auxiliary : ∀ m ∈ f.monomials, ∃ n, (m.ids .auxiliary).eraseDups = List.range n

theorem numbered_renumber (f : Form K) : f.renumber.Numbered := by
  have hmem : ∀ n ∈ f.renumber.monomials, ∃ m ∈ f.monomials,
      n = m.rename (slotRenaming (m.places (f.ids .primary))) := by
    intro n hn
    obtain ⟨m, hm, rfl⟩ := List.mem_map.mp hn
    exact ⟨m, hm, m.renumber_eq_places _⟩
  constructor
  · rw [ids_renumber_primary]
    exact ⟨_, eraseDups_map_place _⟩
  · intro n hn
    obtain ⟨m, -, rfl⟩ := hmem n hn
    rw [Monomial.ids_rename]
    exact ⟨_, eraseDups_map_place _⟩
  · intro n hn
    obtain ⟨m, -, rfl⟩ := hmem n hn
    rw [Monomial.ids_rename]
    exact ⟨_, eraseDups_map_place _⟩

end Form

end WeakForm
