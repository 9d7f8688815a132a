import Mathlib
import WeakForm.Element.Registry
import WeakForm.Proofs.Renumbering

/-!
# Registration of elements

A registry holds each element once (`nodup_spaces`).  If signatures tell elements apart
(`SignaturesDecide`), a sequence of registrations leaves the distinct elements in order of first
registration (`registerAll_eq`), and each handle has the place of its element as identifier.

The signature of a Lagrange element determines its cell, its degree and its components
(`LagrangeElement.signature_injective`).  That settles how identifiers count, when two handles are
the same and what is found behind an identifier (`registerAll_interns`).
-/

namespace WeakForm

/-! ### Signatures -/

/-- Two lists that are split at the first occurrence of an element. -/
theorem append_cons_inj {α : Type} {x : α} {as bs cs ds : List α} (ha : x ∉ as) (hb : x ∉ bs)
    (h : as ++ x :: cs = bs ++ x :: ds) : as = bs ∧ cs = ds := by
  rcases List.append_eq_append_iff.mp h with ⟨m, rfl, hm⟩ | ⟨m, rfl, hm⟩
  · cases m with
    | nil => simpa using hm
    | cons y m =>
      obtain ⟨rfl, -⟩ := List.cons.inj hm
      exact absurd (List.mem_append_right _ List.mem_cons_self) hb
  · cases m with
    | nil => simpa [eq_comm] using hm
    | cons y m =>
      obtain ⟨rfl, -⟩ := List.cons.inj hm
      exact absurd (List.mem_append_right _ List.mem_cons_self) ha

theorem notMem_repr {c : Char} (hc : c.isDigit = false) (n : ℕ) : c ∉ n.repr.toList := by
  intro h
  rw [Nat.toList_repr] at h
  have hdigit := Nat.isDigit_of_mem_toDigits (by omega) (by omega) h
  rw [hc] at hdigit
  cases hdigit

/-- A number is read up to the first character that is no digit. -/
theorem repr_append_inj {c : Char} (hc : c.isDigit = false) {m n : ℕ} {cs ds : List Char}
    (h : m.repr.toList ++ c :: cs = n.repr.toList ++ c :: ds) : m = n ∧ cs = ds := by
  obtain ⟨hmn, hrest⟩ := append_cons_inj (notMem_repr hc m) (notMem_repr hc n) h
  exact ⟨Nat.repr_inj.mp (String.toList_inj.mp hmn), hrest⟩

theorem Cell.comma_notMem_name (c : Cell) : ',' ∉ c.name.toList := by
  cases c <;> decide

theorem Cell.name_injective {c d : Cell} (h : c.name = d.name) : c = d := by
  cases c <;> cases d <;> simp_all [name]

namespace LagrangeElement

theorem toList_signature_scalar (c : Cell) (d : ℕ) :
    (signature ⟨c, d, none⟩).toList =
      "Lagrange(".toList ++ (c.name.toList ++ ',' :: ' ' :: (d.repr.toList ++ [')'])) := by
  simp [signature, toString]

theorem toList_signature_vector (c : Cell) (d n : ℕ) :
    (signature ⟨c, d, some n⟩).toList = "VectorLagrange(".toList ++ (c.name.toList ++
      ',' :: ' ' :: (d.repr.toList ++ ',' :: ' ' :: (n.repr.toList ++ [')']))) := by
  simp [signature, toString]

/-- The signature determines cell, degree and components. -/
theorem signature_injective {e f : LagrangeElement} (h : e.signature = f.signature) : e = f := by
  have hchars := congrArg String.toList h
  obtain ⟨c, d, components⟩ := e
  obtain ⟨c', d', components'⟩ := f
  cases components with
  | none =>
    cases components' with
    | none =>
      rw [toList_signature_scalar, toList_signature_scalar, List.append_cancel_left_eq] at hchars
      obtain ⟨hname, hrest⟩ := append_cons_inj c.comma_notMem_name c'.comma_notMem_name hchars
      obtain ⟨rfl, -⟩ := repr_append_inj (by decide) (List.cons.inj hrest).2
      rw [Cell.name_injective (String.toList_inj.mp hname)]
    | some n =>
      rw [toList_signature_scalar, toList_signature_vector] at hchars
      simp at hchars
  | some m =>
    cases components' with
    | none =>
      rw [toList_signature_scalar, toList_signature_vector] at hchars
      simp at hchars
    | some n =>
      rw [toList_signature_vector, toList_signature_vector, List.append_cancel_left_eq] at hchars
      obtain ⟨hname, hrest⟩ := append_cons_inj c.comma_notMem_name c'.comma_notMem_name hchars
      obtain ⟨rfl, hcount⟩ := repr_append_inj (by decide) (List.cons.inj hrest).2
      obtain ⟨rfl, -⟩ := repr_append_inj (by decide) (List.cons.inj hcount).2
      rw [Cell.name_injective (String.toList_inj.mp hname)]

theorem toFiniteElement_injective : Function.Injective toFiniteElement := fun e f h => by
  rw [← e.lagrange_toFiniteElement, h, f.lagrange_toFiniteElement]

end LagrangeElement

/-- Elements with one signature are equal. -/
def SignaturesDecide (es : List FiniteElement) : Prop :=
  ∀ e ∈ es, ∀ f ∈ es, e.signature = f.signature → e = f

theorem SignaturesDecide.mono {es fs : List FiniteElement} (h : SignaturesDecide fs)
    (hsub : es ⊆ fs) : SignaturesDecide es :=
  fun e he f hf => h e (hsub he) f (hsub hf)

theorem signaturesDecide_lagrange (es : List LagrangeElement) :
    SignaturesDecide (es.map LagrangeElement.toFiniteElement) := by
  simp only [SignaturesDecide, List.forall_mem_map]
  exact fun e _ f _ h => congrArg _ (LagrangeElement.signature_injective h)

/-! ### Sequences of registrations -/

theorem eraseDups_of_nodup {α : Type} [BEq α] [LawfulBEq α] {l : List α} (h : l.Nodup) :
    l.eraseDups = l := by
  induction l using List.reverseRecOn with
  | nil => rfl
  | append_singleton l x ih =>
    obtain ⟨hl, -, hx⟩ := List.nodup_append.mp h
    have hnew : x ∉ l := fun hmem => hx x hmem x (List.mem_singleton_self x) rfl
    rw [List.eraseDups_append, ih hl]
    simp [List.removeAll, hnew, List.eraseDups_cons]

/-- Duplicates may be erased from a part first. -/
theorem eraseDups_eraseDups_append {α : Type} [BEq α] [LawfulBEq α] (l m : List α) :
    (l.eraseDups ++ m).eraseDups = (l ++ m).eraseDups := by
  have hrest : m.removeAll l.eraseDups = m.removeAll l := by
    simp [List.removeAll]
  rw [List.eraseDups_append, List.eraseDups_append, eraseDups_of_nodup (nodup_eraseDups l), hrest]

namespace ElementRegistry

/-- Registers one element after the other: the handles that are returned, and the final registry. -/
def registerAll (r : ElementRegistry) : List FiniteElement → List Element × ElementRegistry
  | [] => ([], r)
  | e :: es =>
    let (h, r) := r.register e
    let (hs, r) := r.registerAll es
    (h :: hs, r)

/-- The elements in order of their identifiers. -/
def spaces (r : ElementRegistry) : List FiniteElement :=
  r.elements.map (·.space)

variable {r : ElementRegistry} {e : FiniteElement} {es : List FiniteElement}

theorem size_eq (r : ElementRegistry) : r.size = r.spaces.length :=
  (List.length_map _).symm

theorem get?_eq (r : ElementRegistry) (id : ℕ) :
    r.get? id = r.spaces[id]?.map fun e => ⟨id, e⟩ := by
  rw [spaces, List.getElem?_map, ← get?]
  cases h : r.get? id with
  | none => rfl
  | some handle => simp [← id_of_get? h]

theorem find?_of_getElem? {id : ℕ} (h : r.spaces[id]? = some e) : r.find? e = some id := by
  rw [spaces, List.getElem?_map, Option.map_eq_some_iff] at h
  obtain ⟨handle, hget, rfl⟩ := h
  exact (r.lookup_ids _ _).mpr ⟨handle, hget, rfl⟩

theorem find?_eq_some_iff (hdecide : SignaturesDecide (r.spaces ++ [e])) {id : ℕ} :
    r.find? e = some id ↔ r.spaces[id]? = some e := by
  refine ⟨fun h => ?_, find?_of_getElem?⟩
  obtain ⟨handle, hget, hsig⟩ := (r.lookup_ids _ _).mp h
  have hspace : r.spaces[id]? = some handle.space := by rw [spaces, List.getElem?_map, hget]; rfl
  rw [hspace, hdecide _ (List.mem_append_left _ (List.mem_of_getElem? hspace)) e
    (List.mem_append_right _ (List.mem_singleton_self e)) hsig]

theorem nodup_spaces (r : ElementRegistry) : r.spaces.Nodup := by
  rw [List.nodup_iff_getElem?_ne_getElem?]
  intro i j hij hj heq
  obtain ⟨e, he⟩ : ∃ e, r.spaces[j]? = some e := ⟨_, List.getElem?_eq_getElem hj⟩
  have hi := find?_of_getElem? (heq.trans he)
  have hj := find?_of_getElem? he
  have := Option.some.inj (hi.symm.trans hj)
  omega

theorem find?_eq_none_iff (hdecide : SignaturesDecide (r.spaces ++ [e])) :
    r.find? e = none ↔ e ∉ r.spaces := by
  rw [Option.eq_none_iff_forall_ne_some, List.mem_iff_getElem?, not_exists]
  exact forall_congr' fun id => not_congr (find?_eq_some_iff hdecide)

/-- A new element is entered at the end of the list; the handle has the place of the element. -/
theorem register_eq (hdecide : SignaturesDecide (r.spaces ++ [e])) :
    (r.register e).2.spaces = (r.spaces ++ [e]).eraseDups ∧
      (r.register e).1 = ⟨(r.register e).2.spaces.idxOf e, e⟩ := by
  rw [List.eraseDups_append, eraseDups_of_nodup r.nodup_spaces]
  unfold register
  split
  · rename_i id hfind
    have hspace := (find?_eq_some_iff hdecide).mp hfind
    have hmem : e ∈ r.spaces := List.mem_of_getElem? hspace
    have hplace : r.spaces.idxOf e = id := by
      obtain ⟨hlt, rfl⟩ := List.getElem?_eq_some_iff.mp hspace
      exact r.nodup_spaces.idxOf_getElem id hlt
    have hhandle : r.get? id = some ⟨id, e⟩ := by rw [get?_eq, hspace, Option.map_some]
    refine ⟨by simp [List.removeAll, hmem], ?_⟩
    rw [hplace]
    exact Option.some.inj ((List.getElem?_eq_getElem _).symm.trans hhandle)
  · rename_i hfind
    have hnew := (find?_eq_none_iff hdecide).mp hfind
    have hspaces : (r.append e hfind).spaces = r.spaces ++ [e] := List.map_append
    rw [hspaces]
    refine ⟨by simp [List.removeAll, hnew, List.eraseDups_cons], ?_⟩
    rw [List.idxOf_append_of_notMem hnew, List.idxOf_cons_self, size_eq, Nat.add_zero]

/-- After a sequence of registrations the list holds the distinct elements in order of first
registration, and each handle has the place of its element. -/
theorem registerAll_eq (hdecide : SignaturesDecide (r.spaces ++ es)) :
    (r.registerAll es).2.spaces = (r.spaces ++ es).eraseDups ∧
      (r.registerAll es).1 = es.map fun e => ⟨(r.registerAll es).2.spaces.idxOf e, e⟩ := by
  induction es generalizing r with
  | nil => exact ⟨by rw [List.append_nil, eraseDups_of_nodup r.nodup_spaces]; rfl, rfl⟩
  | cons e es ih =>
    obtain ⟨hspaces, hhandle⟩ := register_eq (r := r) (e := e) (hdecide.mono (by simp))
    have hsub : (r.register e).2.spaces ++ es ⊆ r.spaces ++ e :: es := by
      intro f hf
      simpa [hspaces, or_assoc] using hf
    obtain ⟨hall, hhandles⟩ := ih (hdecide.mono hsub)
    have hfinal : (r.registerAll (e :: es)).2 = ((r.register e).2.registerAll es).2 := rfl
    have hfirst : ((r.register e).2.registerAll es).2.spaces.idxOf e =
        (r.register e).2.spaces.idxOf e := by
      have hmem : e ∈ (r.register e).2.spaces := by
        rw [hspaces, List.mem_eraseDups]
        exact List.mem_append_right _ List.mem_cons_self
      rw [hall, List.eraseDups_append, eraseDups_of_nodup (nodup_spaces _),
        List.idxOf_append_of_mem hmem]
    constructor
    · rw [hfinal, hall, hspaces, eraseDups_eraseDups_append, List.append_assoc,
        List.singleton_append]
    · change (r.register e).1 :: ((r.register e).2.registerAll es).1 = _
      rw [hfinal, hhandle, hhandles, List.map_cons, hfirst]

/-- Later registrations keep every identifier that has been given. -/
theorem get?_registerAll_of_lt (hdecide : SignaturesDecide (r.spaces ++ es)) {id : ℕ}
    (h : id < r.size) : (r.registerAll es).2.get? id = r.get? id := by
  rw [size_eq] at h
  rw [get?_eq, get?_eq, (registerAll_eq hdecide).1, List.eraseDups_append,
    eraseDups_of_nodup r.nodup_spaces, List.getElem?_append_left h]

/-! ### Registration of Lagrange elements -/

/-- The handles and the registry after the registration of Lagrange elements. -/
def registerLagrange (es : List LagrangeElement) : List Element × ElementRegistry :=
  ({} : ElementRegistry).registerAll (es.map LagrangeElement.toFiniteElement)

section Lagrange

variable {es : List LagrangeElement} {e : LagrangeElement} {h : Element}

theorem spaces_registerLagrange (es : List LagrangeElement) :
    (registerLagrange es).2.spaces = (es.map LagrangeElement.toFiniteElement).eraseDups :=
  (registerAll_eq (signaturesDecide_lagrange es)).1

theorem handles_registerLagrange (es : List LagrangeElement) :
    (registerLagrange es).1 =
      es.map fun e => ⟨(registerLagrange es).2.spaces.idxOf e.toFiniteElement, e⟩ := by
  rw [registerLagrange, (registerAll_eq (signaturesDecide_lagrange es)).2, List.map_map]
  rfl

/-- Identifiers count the elements in order of first registration. -/
theorem ids_registerLagrange (es : List LagrangeElement) :
    ((registerLagrange es).1.map (·.id)).eraseDups = List.range (registerLagrange es).2.size := by
  have hids : (registerLagrange es).1.map (·.id) =
      (es.map LagrangeElement.toFiniteElement).map (registerLagrange es).2.spaces.idxOf := by
    rw [handles_registerLagrange, List.map_map, List.map_map]
    rfl
  rw [hids, size_eq, spaces_registerLagrange, eraseDups_map_idxOf]

theorem size_registerLagrange (es : List LagrangeElement) :
    (registerLagrange es).2.size = es.toFinset.card := by
  have hset : (registerLagrange es).2.spaces.toFinset =
      es.toFinset.image LagrangeElement.toFiniteElement := by
    ext
    simp [spaces_registerLagrange]
  rw [size_eq, ← List.toFinset_card_of_nodup (nodup_spaces _), hset,
    Finset.card_image_of_injective _ LagrangeElement.toFiniteElement_injective]

/-- The handle of an element has its place as identifier. -/
theorem eq_of_mem_zip (hmem : (e, h) ∈ es.zip (registerLagrange es).1) :
    e.toFiniteElement ∈ (registerLagrange es).2.spaces ∧
      h = ⟨(registerLagrange es).2.spaces.idxOf e.toFiniteElement, e⟩ := by
  rw [handles_registerLagrange, ← List.map_prod_left_eq_zip, List.mem_map] at hmem
  obtain ⟨f, hf, heq⟩ := hmem
  obtain ⟨rfl, rfl⟩ := Prod.mk.inj heq
  rw [spaces_registerLagrange]
  exact ⟨List.mem_eraseDups.mpr (List.mem_map_of_mem hf), rfl⟩

/-- An identifier leads back to its handle. -/
theorem get?_of_mem_zip (hmem : (e, h) ∈ es.zip (registerLagrange es).1) :
    (registerLagrange es).2.get? h.id = some h := by
  obtain ⟨he, rfl⟩ := eq_of_mem_zip hmem
  have hlt := List.idxOf_lt_length_of_mem he
  rw [get?_eq, List.getElem?_eq_getElem hlt, List.getElem_idxOf, Option.map_some]

/-- Also after later registrations. -/
theorem get?_registerAll_of_mem_zip (hmem : (e, h) ∈ es.zip (registerLagrange es).1)
    (later : List LagrangeElement) : ((registerLagrange es).2.registerAll
      (later.map LagrangeElement.toFiniteElement)).2.get? h.id = some h := by
  have hdecide : SignaturesDecide ((registerLagrange es).2.spaces ++
      later.map LagrangeElement.toFiniteElement) :=
    (signaturesDecide_lagrange (es ++ later)).mono fun s hs => by
      simpa [spaces_registerLagrange] using hs
  have hlt := (List.getElem?_eq_some_iff.mp (get?_of_mem_zip hmem)).1
  rw [get?_registerAll_of_lt hdecide hlt, get?_of_mem_zip hmem]

end Lagrange

/-- What a sequence of registrations returns and the registry that it leaves behind: one handle
for each distinct element. -/
structure Interns (es : List LagrangeElement) (handles : List Element) (r : ElementRegistry) :
    Prop where
  length_eq : handles.length = es.length
  /-- Identifiers count the elements in order of first registration. -/
  ids_eq : (handles.map (·.id)).eraseDups = List.range r.size
  size_eq : r.size = es.toFinset.card
  /-- Two handles are the same exactly for the same data. -/
  eq_iff : ∀ e h f k, (e, h) ∈ es.zip handles → (f, k) ∈ es.zip handles →
    (h.id = k.id ↔ e.cell = f.cell ∧ e.degree = f.degree ∧ e.components = f.components)
  /-- An identifier leads back to its handle, which has the data of each element registered
  under it. -/
  get?_eq : ∀ e h, (e, h) ∈ es.zip handles → r.get? h.id = some h ∧ h.space = e.toFiniteElement
  /-- Later registrations do not change that. -/
  kept : ∀ e h, ∀ later : List LagrangeElement, (e, h) ∈ es.zip handles →
    (r.registerAll (later.map LagrangeElement.toFiniteElement)).2.get? h.id = some h
  get?_eq_none : ∀ id, (∀ h ∈ handles, h.id ≠ id) → r.get? id = none

theorem registerAll_interns (es : List LagrangeElement) :
    Interns es (({} : ElementRegistry).registerAll (es.map LagrangeElement.toFiniteElement)).1
      (({} : ElementRegistry).registerAll (es.map LagrangeElement.toFiniteElement)).2 := by
  change Interns es (registerLagrange es).1 (registerLagrange es).2
  refine ⟨?_, ids_registerLagrange es, size_registerLagrange es, ?_, ?_, ?_, ?_⟩
  · rw [handles_registerLagrange, List.length_map]
  · intro e h f k he hf
    obtain ⟨hmem, rfl⟩ := eq_of_mem_zip he
    obtain ⟨-, rfl⟩ := eq_of_mem_zip hf
    rw [List.idxOf_inj hmem, LagrangeElement.toFiniteElement_injective.eq_iff]
    cases e
    cases f
    simp
  · intro e h hmem
    exact ⟨get?_of_mem_zip hmem, congrArg Element.space (eq_of_mem_zip hmem).2⟩
  · exact fun e h later hmem => get?_registerAll_of_mem_zip hmem later
  · intro id hid
    refine List.getElem?_eq_none (Nat.le_of_not_lt fun hlt => ?_)
    have hmem : id ∈ ((registerLagrange es).1.map (·.id)).eraseDups := by
      rw [ids_registerLagrange]
      exact List.mem_range.mpr hlt
    obtain ⟨h, hh, hhid⟩ := List.mem_map.mp (List.mem_eraseDups.mp hmem)
    exact hid h hh hhid

end ElementRegistry

end WeakForm
