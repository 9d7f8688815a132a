import Mathlib.Data.List.Forall2
import Mathlib.Data.List.Perm.Basic

/-!
# Computations that can fail

A chain of steps succeeds if each step does, and fails with the error of the first one that does
not.  `FailsOnly P x` says that all errors of `x` satisfy `P`; this is kept by the ways in which
computations are put together.
-/

namespace WeakForm

variable {ε ε' α β : Type}

/-! ### Results -/

theorem exists_eq_ok {x : Except ε α} (h : x.isOk = true) : ∃ a, x = .ok a := by
  cases x with
  | ok a => exact ⟨a, rfl⟩
  | error e => cases h

/-- What does not succeed fails. -/
theorem exists_eq_error_iff {x : Except ε α} : (∃ e, x = .error e) ↔ ¬ ∃ a, x = .ok a := by
  cases x with
  | ok a => simp
  | error e => simp

theorem bind_eq_ok {x : Except ε α} {f : α → Except ε β} {b : β} :
    (x >>= f) = .ok b ↔ ∃ a, x = .ok a ∧ f a = .ok b := by
  cases x with
  | error e => simp [bind, Except.bind]
  | ok a => simp [bind, Except.bind]

theorem bind_eq_error {x : Except ε α} {f : α → Except ε β} {e : ε} :
    (x >>= f) = .error e ↔ x = .error e ∨ ∃ a, x = .ok a ∧ f a = .error e := by
  cases x with
  | error e' => simp [bind, Except.bind]
  | ok a => simp [bind, Except.bind]

theorem mapError_eq_error {g : ε → ε'} {x : Except ε α} {e : ε'} :
    x.mapError g = .error e ↔ ∃ e', x = .error e' ∧ g e' = e := by
  cases x <;> simp [Except.mapError]

theorem mapError_eq_ok {g : ε → ε'} {x : Except ε α} {a : α} :
    x.mapError g = .ok a ↔ x = .ok a := by
  cases x <;> simp [Except.mapError]

/-- A list is mapped if each of its elements is. -/
theorem mapM_eq_ok {f : α → Except ε β} {l : List α} {r : List β} :
    l.mapM f = .ok r ↔ List.Forall₂ (fun a b => f a = .ok b) l r := by
  induction l generalizing r with
  | nil =>
    rw [List.mapM_nil, List.forall₂_nil_left_iff]
    exact ⟨fun h => (Except.ok.inj h).symm, fun h => h ▸ rfl⟩
  | cons a l ih =>
    rw [List.mapM_cons, bind_eq_ok, List.forall₂_cons_left_iff]
    constructor
    · rintro ⟨b, hb, h⟩
      obtain ⟨bs, hbs, h⟩ := bind_eq_ok.mp h
      exact ⟨b, bs, hb, ih.mp hbs, (Except.ok.inj h).symm⟩
    · rintro ⟨b, bs, hb, hbs, rfl⟩
      exact ⟨b, hb, bind_eq_ok.mpr ⟨bs, ih.mpr hbs, rfl⟩⟩

theorem getElem?_of_mapM_eq_ok {f : α → Except ε β} {l : List α} {r : List β}
    (h : l.mapM f = .ok r) : r.length = l.length ∧
      ∀ (i : ℕ) (a : α) (b : β), l[i]? = some a → r[i]? = some b → f a = .ok b := by
  obtain ⟨hl, h⟩ := List.forall₂_iff_get.mp (mapM_eq_ok.mp h)
  refine ⟨hl.symm, fun i a b ha hb => ?_⟩
  obtain ⟨hi, rfl⟩ := List.getElem?_eq_some_iff.mp ha
  obtain ⟨hi', rfl⟩ := List.getElem?_eq_some_iff.mp hb
  exact h i hi hi'

theorem exists_of_mem_of_mapM_eq_ok {f : α → Except ε β} {l : List α} {r : List β}
    (h : l.mapM f = .ok r) {a : α} (ha : a ∈ l) : ∃ b, f a = .ok b := by
  obtain ⟨hlen, hget⟩ := getElem?_of_mapM_eq_ok h
  obtain ⟨i, hi⟩ := List.mem_iff_getElem?.mp ha
  have hlt : i < r.length := hlen ▸ (List.getElem?_eq_some_iff.mp hi).1
  exact ⟨_, hget i a _ hi (List.getElem?_eq_getElem hlt)⟩

theorem exists_of_forall₂_right {R : α → β → Prop} {l : List α} {r : List β}
    (h : List.Forall₂ R l r) {b : β} (hb : b ∈ r) : ∃ a ∈ l, R a b := by
  induction h with
  | nil => cases hb
  | cons hab _ ih =>
    rcases List.mem_cons.mp hb with rfl | hb
    · exact ⟨_, List.mem_cons_self, hab⟩
    · obtain ⟨a, ha, hab⟩ := ih hb
      exact ⟨a, List.mem_cons_of_mem _ ha, hab⟩

theorem map_eq_of_forall₂ {γ : Type} {R : α → β → Prop} {f : α → γ} {g : β → γ} {l : List α}
    {r : List β} (h : List.Forall₂ R l r) (hR : ∀ a b, R a b → g b = f a) : r.map g = l.map f := by
  induction h with
  | nil => rfl
  | cons hab _ ih => rw [List.map_cons, List.map_cons, ih, hR _ _ hab]

theorem eq_map_of_mapM_eq_ok {f : α → Except ε β} {g : α → β} {l : List α} {r : List β}
    (h : l.mapM f = .ok r) (hg : ∀ a ∈ l, ∀ b, f a = .ok b → g a = b) : r = l.map g := by
  have hr := mapM_eq_ok.mp h
  clear h
  induction hr with
  | nil => rfl
  | cons hab _ ih =>
    rw [List.forall_mem_cons] at hg
    rw [List.map_cons, hg.1 _ hab, ih hg.2]

/-- The results for other elements, each of which stands for one of the list. -/
theorem mapM_map_eq_ok {γ δ : Type} {f : α → Except ε β} {g : γ → Except ε' δ} {φ : α → γ}
    {ψ : β → δ} {l : List α} {r : List β} (h : l.mapM f = .ok r)
    (hfg : ∀ a ∈ l, ∀ b, f a = .ok b → g (φ a) = .ok (ψ b)) :
    (l.map φ).mapM g = .ok (r.map ψ) := by
  rw [mapM_eq_ok] at h ⊢
  rw [List.forall₂_map_left_iff, List.forall₂_map_right_iff]
  induction h with
  | nil => exact .nil
  | cons hab _ ih =>
    rw [List.forall_mem_cons] at hfg
    exact .cons (hfg.1 _ hab) (ih hfg.2)

/-- Mapping a permuted list permutes the results. -/
theorem mapM_perm_eq_ok {f : α → Except ε β} {l l' : List α} {r : List β}
    (h : l.mapM f = .ok r) (hl : l'.Perm l) : ∃ r', l'.mapM f = .ok r' ∧ r'.Perm r := by
  obtain ⟨r', hr', hperm⟩ := List.perm_comp_forall₂ hl (mapM_eq_ok.mp h)
  exact ⟨r', mapM_eq_ok.mpr hr', hperm⟩

/-- Mapping fails with the error of one of the elements. -/
theorem exists_of_mapM_eq_error {f : α → Except ε β} {l : List α} {e : ε}
    (h : l.mapM f = .error e) : ∃ a ∈ l, f a = .error e := by
  induction l with
  | nil => cases h
  | cons a l ih =>
    rw [List.mapM_cons] at h
    cases ha : f a with
    | error e' =>
      rw [ha] at h
      cases h
      exact ⟨a, List.mem_cons_self, ha⟩
    | ok b =>
      cases hl : l.mapM f with
      | error e' =>
        rw [ha, hl] at h
        cases h
        obtain ⟨a', ha', he⟩ := ih hl
        exact ⟨a', List.mem_cons_of_mem a ha', he⟩
      | ok bs =>
        rw [ha, hl] at h
        cases h

/-! ### Errors -/

/-- All errors of the computation satisfy `P`. -/
def FailsOnly (P : ε → Prop) (x : Except ε α) : Prop :=
  ∀ e, x = .error e → P e

namespace FailsOnly

variable {P : ε → Prop}

theorem ok (a : α) : FailsOnly P (.ok a) :=
  fun _ h => by cases h

theorem error {e : ε} (h : P e) : FailsOnly P (.error e : Except ε α) :=
  fun _ he => Except.error.inj he ▸ h

theorem bind {x : Except ε α} {f : α → Except ε β} (hx : FailsOnly P x)
    (hf : ∀ a, x = .ok a → FailsOnly P (f a)) : FailsOnly P (x >>= f) := by
  intro e he
  cases h : x with
  | error e' =>
    rw [h] at he
    cases he
    exact hx e h
  | ok a =>
    rw [h] at he
    exact hf a h e he

theorem mapM {f : α → Except ε β} {l : List α} (hf : ∀ a ∈ l, FailsOnly P (f a)) :
    FailsOnly P (l.mapM f) := by
  intro e he
  obtain ⟨a, ha, h⟩ := exists_of_mapM_eq_error he
  exact hf a ha e h

theorem foldlM {f : β → α → Except ε β} {l : List α} (hf : ∀ b, ∀ a ∈ l, FailsOnly P (f b a))
    (b : β) : FailsOnly P (l.foldlM f b) := by
  induction l generalizing b with
  | nil => exact ok b
  | cons a l ih =>
    rw [List.foldlM_cons]
    exact (hf b a List.mem_cons_self).bind fun b' _ =>
      ih (fun b a ha => hf b a (List.mem_cons_of_mem _ ha)) b'

theorem mapError {P : ε' → Prop} {g : ε → ε'} {x : Except ε α} (h : FailsOnly (P ∘ g) x) :
    FailsOnly P (x.mapError g) := by
  intro e he
  cases hx : x with
  | error e' =>
    rw [hx] at he
    cases he
    exact h e' hx
  | ok a =>
    rw [hx] at he
    cases he

end FailsOnly

end WeakForm
