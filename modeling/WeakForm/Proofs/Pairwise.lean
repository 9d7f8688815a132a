import Mathlib.Algebra.BigOperators.Group.List.Basic
import WeakForm.Pairwise

/-!
# Runs of pairwise contraction

`Absorbs R a rest b kept` and `Contracts R items result` are the runs of `absorb` and of
`contractPairwise` as relations; `R a b r` says that the combination of `a` and `b` returns `r`.
Both the combinations that can fail (`contractPairwise_ok`) and those that cannot
(`contracts_contractPairs`) have such runs, so what follows from a run is proved once.

A run keeps what every combination keeps (`Contracts.forall_mem`), it keeps sums that every
combination keeps (`Contracts.sum_map`), and it returns part of what it was given as far as the
left partner determines the combination (`Contracts.sublist_map`).  A run that returns as many
items as it was given has changed nothing and found no pair (`Contracts.eq_of_length`); if a key
decides which items combine, then one run is enough (`Contracts.nodup_map`).  Combinations that
agree on the items that can occur have the same result (`contractPairwise_congr`).
-/

namespace WeakForm

variable {α β ε : Type}

/-- Comparing `a` with the others from left to right ends with `b` and leaves `kept`. -/
inductive Absorbs (R : α → α → Option α → Prop) : α → List α → α → List α → Prop
  | nil (a : α) : Absorbs R a [] a []
  | combine {a b c d : α} {rest kept : List α} :
      R a b (some c) → Absorbs R c rest d kept → Absorbs R a (b :: rest) d kept
  | keep {a b d : α} {rest kept : List α} :
      R a b none → Absorbs R a rest d kept → Absorbs R a (b :: rest) d (b :: kept)

/-- Every item absorbs the later ones that are left when its turn comes. -/
inductive Contracts (R : α → α → Option α → Prop) : List α → List α → Prop
  | nil : Contracts R [] []
  | cons {a b : α} {rest kept result : List α} :
      Absorbs R a rest b kept → Contracts R kept result → Contracts R (a :: rest) (b :: result)

/-! ### The runs of the executable functions -/

theorem absorb_ok {combine : α → α → Except ε (Option α)} {a : α} {rest : List α}
    {p : α × { kept : List α // kept.length ≤ rest.length }} (h : absorb combine a rest = .ok p) :
    Absorbs (fun a b r => combine a b = .ok r) a rest p.1 p.2.val := by
  induction rest generalizing a with
  | nil =>
    cases h
    exact .nil a
  | cons b rest ih =>
    simp only [absorb] at h
    cases hab : combine a b with
    | error e => simp [hab, bind, Except.bind] at h
    | ok r =>
      cases r with
      | some c =>
        cases hc : absorb combine c rest with
        | error e => simp [hab, hc, bind, Except.bind] at h
        | ok q =>
          simp only [hab, hc, bind, Except.bind, pure, Except.pure, Except.ok.injEq] at h
          subst h
          exact .combine hab (ih hc)
      | none =>
        cases ha : absorb combine a rest with
        | error e => simp [hab, ha, bind, Except.bind] at h
        | ok q =>
          simp only [hab, ha, bind, Except.bind, pure, Except.pure, Except.ok.injEq] at h
          subst h
          exact .keep hab (ih ha)

theorem contractPairwise_ok {combine : α → α → Except ε (Option α)} {items result : List α}
    (h : contractPairwise combine items = .ok result) :
    Contracts (fun a b r => combine a b = .ok r) items result := by
  match items with
  | [] =>
    rw [contractPairwise] at h
    cases h
    exact .nil
  | a :: rest =>
    rw [contractPairwise] at h
    cases ha : absorb combine a rest with
    | error e => simp [ha, bind, Except.bind] at h
    | ok p =>
      cases hk : contractPairwise combine p.2.val with
      | error e => simp [ha, hk, bind, Except.bind] at h
      | ok others =>
        simp only [ha, hk, bind, Except.bind, pure, Except.pure, Except.ok.injEq] at h
        subst h
        have hlt : p.2.val.length < rest.length + 1 := Nat.lt_succ_of_le p.2.property
        exact .cons (absorb_ok ha) (contractPairwise_ok hk)
termination_by items.length

/-- A combination that fails on no pair of items with `P`, and keeps `P`, lets the run succeed. -/
theorem absorb_total {combine : α → α → Except ε (Option α)} {P : α → Prop}
    (hP : ∀ a b, P a → P b → ∃ r, combine a b = .ok r ∧ ∀ c, r = some c → P c)
    {a : α} {rest : List α} (ha : P a) (hrest : ∀ b ∈ rest, P b) :
    ∃ p, absorb combine a rest = .ok p ∧ P p.1 ∧ ∀ b ∈ p.2.val, P b := by
  induction rest generalizing a with
  | nil => exact ⟨_, rfl, ha, by simp⟩
  | cons b rest ih =>
    have hb := hrest b List.mem_cons_self
    have hrest' := fun x hx => hrest x (List.mem_cons_of_mem b hx)
    obtain ⟨r, hr, hc⟩ := hP a b ha hb
    cases r with
    | some c =>
      obtain ⟨p, hp, h1, h2⟩ := ih (hc c rfl) hrest'
      exact ⟨_, by simp only [absorb, hr, hp, bind, Except.bind]; rfl, h1, h2⟩
    | none =>
      obtain ⟨p, hp, h1, h2⟩ := ih ha hrest'
      refine ⟨_, by simp only [absorb, hr, hp, bind, Except.bind]; rfl, h1, ?_⟩
      intro x hx
      rcases List.mem_cons.mp hx with rfl | hx
      · exact hb
      · exact h2 x hx

theorem contractPairwise_total {combine : α → α → Except ε (Option α)} {P : α → Prop}
    (hP : ∀ a b, P a → P b → ∃ r, combine a b = .ok r ∧ ∀ c, r = some c → P c)
    {items : List α} (hitems : ∀ a ∈ items, P a) :
    ∃ result, contractPairwise combine items = .ok result := by
  match items with
  | [] => exact ⟨[], by rw [contractPairwise]; rfl⟩
  | a :: rest =>
    obtain ⟨p, hp, _, h2⟩ := absorb_total hP (hitems a List.mem_cons_self)
      (fun x hx => hitems x (List.mem_cons_of_mem a hx))
    have hlt : p.2.val.length < rest.length + 1 := Nat.lt_succ_of_le p.2.property
    obtain ⟨others, ho⟩ := contractPairwise_total hP h2
    exact ⟨p.1 :: others, by rw [contractPairwise]; simp only [hp, ho, bind, Except.bind]; rfl⟩
termination_by items.length

theorem absorbs_absorb (combine : α → α → Option α) (a : α) (rest : List α) :
    Absorbs (fun a b r => combine a b = r) a rest
      (Id.run (absorb (fun a b => pure (combine a b)) a rest)).1
      (Id.run (absorb (fun a b => pure (combine a b)) a rest)).2.val := by
  induction rest generalizing a with
  | nil => exact .nil a
  | cons b rest ih =>
    cases hab : combine a b with
    | some c =>
      simp only [absorb, Id.run, bind, pure, hab]
      exact .combine hab (ih c)
    | none =>
      simp only [absorb, Id.run, bind, pure, hab]
      exact .keep hab (ih a)

theorem contracts_contractPairs (combine : α → α → Option α) (items : List α) :
    Contracts (fun a b r => combine a b = r) items (contractPairs combine items) := by
  match items with
  | [] =>
    rw [contractPairs, contractPairwise]
    exact .nil
  | a :: rest =>
    rw [contractPairs, contractPairwise]
    have hlt := Nat.lt_succ_of_le
      (Id.run (absorb (fun a b => pure (combine a b)) a rest)).2.property
    exact .cons (absorbs_absorb combine a rest) (contracts_contractPairs combine _)
termination_by items.length

theorem contractPairwise_singleton {m : Type → Type} [Monad m] [LawfulMonad m]
    (combine : α → α → m (Option α)) (a : α) : contractPairwise combine [a] = pure [a] := by
  rw [contractPairwise]
  simp only [absorb, pure_bind]
  rw [contractPairwise, pure_bind]

/-! ### What a run keeps -/

section
variable {R : α → α → Option α → Prop}

theorem Absorbs.forall_mem {P : α → Prop} (hP : ∀ a b c, P a → P b → R a b (some c) → P c)
    {a b : α} {rest kept : List α} (h : Absorbs R a rest b kept) (ha : P a)
    (hrest : ∀ x ∈ rest, P x) : P b ∧ ∀ x ∈ kept, P x := by
  induction h with
  | nil => exact ⟨ha, hrest⟩
  | @combine a b c d rest kept hr _ ih =>
    rw [List.forall_mem_cons] at hrest
    exact ih (hP a b c ha hrest.1 hr) hrest.2
  | keep _ _ ih =>
    rw [List.forall_mem_cons] at hrest ⊢
    obtain ⟨h1, h2⟩ := ih ha hrest.2
    exact ⟨h1, hrest.1, h2⟩

theorem Contracts.forall_mem {P : α → Prop} (hP : ∀ a b c, P a → P b → R a b (some c) → P c)
    {items result : List α} (h : Contracts R items result) (hitems : ∀ x ∈ items, P x) :
    ∀ x ∈ result, P x := by
  induction h with
  | nil => exact hitems
  | cons ha _ ih =>
    rw [List.forall_mem_cons] at hitems ⊢
    obtain ⟨h1, h2⟩ := ha.forall_mem hP hitems.1 hitems.2
    exact ⟨h1, ih h2⟩

theorem Absorbs.sum_map [AddCommMonoid β] {P : α → Prop} {f : α → β}
    (hP : ∀ a b c, P a → P b → R a b (some c) → P c)
    (hf : ∀ a b c, P a → P b → R a b (some c) → f c = f a + f b)
    {a b : α} {rest kept : List α} (h : Absorbs R a rest b kept) (ha : P a)
    (hrest : ∀ x ∈ rest, P x) : f b + (kept.map f).sum = f a + (rest.map f).sum := by
  induction h with
  | nil => rfl
  | @combine a b c d rest kept hr _ ih =>
    rw [List.forall_mem_cons] at hrest
    rw [ih (hP a b c ha hrest.1 hr) hrest.2, hf a b c ha hrest.1 hr, List.map_cons, List.sum_cons,
      add_assoc]
  | @keep a b d rest kept _ _ ih =>
    rw [List.forall_mem_cons] at hrest
    rw [List.map_cons, List.sum_cons, List.map_cons, List.sum_cons, add_left_comm,
      ih ha hrest.2, add_left_comm]

/-- A sum over the items is kept if every combination keeps it. -/
theorem Contracts.sum_map [AddCommMonoid β] {P : α → Prop} {f : α → β}
    (hP : ∀ a b c, P a → P b → R a b (some c) → P c)
    (hf : ∀ a b c, P a → P b → R a b (some c) → f c = f a + f b)
    {items result : List α} (h : Contracts R items result) (hitems : ∀ x ∈ items, P x) :
    (result.map f).sum = (items.map f).sum := by
  induction h with
  | nil => rfl
  | cons ha _ ih =>
    rw [List.forall_mem_cons] at hitems
    have hkept := (ha.forall_mem hP hitems.1 hitems.2).2
    rw [List.map_cons, List.sum_cons, List.map_cons, List.sum_cons, ih hkept]
    exact ha.sum_map hP hf hitems.1 hitems.2

theorem Absorbs.sublist_map {g : α → β} (hg : ∀ a b c, R a b (some c) → g c = g a)
    {a b : α} {rest kept : List α} (h : Absorbs R a rest b kept) :
    g b = g a ∧ (kept.map g).Sublist (rest.map g) := by
  induction h with
  | nil => exact ⟨rfl, List.Sublist.refl _⟩
  | combine hr _ ih => exact ⟨ih.1.trans (hg _ _ _ hr), ih.2.cons _⟩
  | keep _ _ ih => exact ⟨ih.1, ih.2.cons_cons _⟩

/-- What the left partner passes on to the combination is, for the results, a part of what it is
for the items. -/
theorem Contracts.sublist_map {g : α → β} (hg : ∀ a b c, R a b (some c) → g c = g a)
    {items result : List α} (h : Contracts R items result) :
    (result.map g).Sublist (items.map g) := by
  induction h with
  | nil => exact List.Sublist.refl _
  | cons ha _ ih =>
    obtain ⟨h1, h2⟩ := ha.sublist_map hg
    rw [List.map_cons, List.map_cons, h1]
    exact (ih.trans h2).cons_cons _

theorem Contracts.length_le {items result : List α} (h : Contracts R items result) :
    result.length ≤ items.length := by
  have := (h.sublist_map (g := fun _ => ()) (fun _ _ _ _ => rfl)).length_le
  simpa using this

theorem Absorbs.eq_of_length {a b : α} {rest kept : List α} (h : Absorbs R a rest b kept)
    (hl : kept.length = rest.length) : b = a ∧ kept = rest ∧ ∀ x ∈ rest, R a x none := by
  induction h with
  | nil => exact ⟨rfl, rfl, by simp⟩
  | combine _ h _ =>
    -- the rest without one item cannot be as long as the rest
    have := (h.sublist_map (g := fun _ => ()) (fun _ _ _ _ => rfl)).2.length_le
    simp only [List.length_map] at this
    simp only [List.length_cons] at hl
    omega
  | keep hr _ ih =>
    simp only [List.length_cons, Nat.add_right_cancel_iff] at hl
    obtain ⟨h1, h2, h3⟩ := ih hl
    exact ⟨h1, by rw [h2], List.forall_mem_cons.mpr ⟨hr, h3⟩⟩

/-- A run that returns as many items as it was given has found no pair to combine. -/
theorem Contracts.eq_of_length {items result : List α} (h : Contracts R items result)
    (hl : result.length = items.length) :
    result = items ∧ items.Pairwise fun a b => R a b none := by
  induction h with
  | nil => exact ⟨rfl, .nil⟩
  | cons ha hc ih =>
    have h1 := hc.length_le
    have h2 := (ha.sublist_map (g := fun _ => ()) (fun _ _ _ _ => rfl)).2.length_le
    simp only [List.length_map] at h2
    simp only [List.length_cons, Nat.add_right_cancel_iff] at hl
    obtain ⟨hb, hk, hnone⟩ := ha.eq_of_length (by omega)
    obtain ⟨hr, hp⟩ := ih (by omega)
    subst hb hk
    exact ⟨by rw [hr], List.pairwise_cons.mpr ⟨hnone, hp⟩⟩

theorem Absorbs.eq_of_forall_not {a b : α} {rest kept : List α} (h : Absorbs R a rest b kept)
    (hn : ∀ x ∈ rest, ∀ c, ¬ R a x (some c)) : b = a ∧ kept = rest := by
  induction h with
  | nil => exact ⟨rfl, rfl⟩
  | combine hr _ _ => exact absurd hr (hn _ List.mem_cons_self _)
  | keep _ _ ih =>
    obtain ⟨rfl, rfl⟩ := ih fun x hx => hn x (List.mem_cons_of_mem _ hx)
    exact ⟨rfl, rfl⟩

/-- If no two items can be combined, a run leaves them as they are. -/
theorem Contracts.eq_of_pairwise {items result : List α} (h : Contracts R items result)
    (hp : items.Pairwise fun a b => ∀ c, ¬ R a b (some c)) : result = items := by
  induction h with
  | nil => rfl
  | cons ha _ ih =>
    rw [List.pairwise_cons] at hp
    obtain ⟨rfl, rfl⟩ := ha.eq_of_forall_not hp.1
    rw [ih hp.2]

theorem Absorbs.forall_ne {g : α → β} (hsome : ∀ a b c, R a b (some c) → g c = g a)
    (hnone : ∀ a b, R a b none → g a ≠ g b) {a b : α} {rest kept : List α}
    (h : Absorbs R a rest b kept) : ∀ x ∈ kept, g a ≠ g x := by
  induction h with
  | nil => simp
  | combine hr _ ih => rwa [← hsome _ _ _ hr]
  | keep hr _ ih => exact List.forall_mem_cons.mpr ⟨hnone _ _ hr, ih⟩

/-- Items combine unless a key tells them apart, and keep that of the left partner: then the keys of
the results are distinct. -/
theorem Contracts.nodup_map {g : α → β} (hsome : ∀ a b c, R a b (some c) → g c = g a)
    (hnone : ∀ a b, R a b none → g a ≠ g b) {items result : List α}
    (h : Contracts R items result) : (result.map g).Nodup := by
  induction h with
  | nil => exact List.nodup_nil
  | @cons a b rest kept result ha hc ih =>
    rw [List.map_cons, List.nodup_cons]
    refine ⟨fun hmem => ?_, ih⟩
    obtain ⟨x, hx, hgx⟩ := List.mem_map.mp ((hc.sublist_map hsome).subset hmem)
    rw [(ha.sublist_map hsome).1] at hgx
    exact ha.forall_ne hsome hnone x hx hgx.symm

end

/-! ### Combinations that agree -/

section
variable {combine combine' : α → α → Except ε (Option α)} {P : α → Prop}

theorem absorb_congr (heq : ∀ a b, P a → P b → combine a b = combine' a b)
    (hP : ∀ a b c, P a → P b → combine a b = .ok (some c) → P c) {a : α} {rest : List α}
    (ha : P a) (hrest : ∀ b ∈ rest, P b) : absorb combine a rest = absorb combine' a rest := by
  induction rest generalizing a with
  | nil => rfl
  | cons b rest ih =>
    rw [List.forall_mem_cons] at hrest
    simp only [absorb, ← heq a b ha hrest.1]
    cases hab : combine a b with
    | error e => rfl
    | ok r =>
      cases r with
      | some c => simp only [bind, Except.bind, ih (hP a b c ha hrest.1 hab) hrest.2]
      | none => simp only [bind, Except.bind, ih ha hrest.2]

/-- Combinations that agree on pairs of items with `P`, and keep `P`, have the same result. -/
theorem contractPairwise_congr (heq : ∀ a b, P a → P b → combine a b = combine' a b)
    (hP : ∀ a b c, P a → P b → combine a b = .ok (some c) → P c) {items : List α}
    (hitems : ∀ a ∈ items, P a) :
    contractPairwise combine items = contractPairwise combine' items := by
  match items with
  | [] => rw [contractPairwise, contractPairwise]
  | a :: rest =>
    rw [List.forall_mem_cons] at hitems
    rw [contractPairwise, contractPairwise, ← absorb_congr heq hP hitems.1 hitems.2]
    cases ha : absorb combine a rest with
    | error e => rfl
    | ok p =>
      have hkept := ((absorb_ok ha).forall_mem hP hitems.1 hitems.2).2
      have hlt : p.2.val.length < rest.length + 1 := Nat.lt_succ_of_le p.2.property
      simp only [bind, Except.bind, contractPairwise_congr heq hP hkept]
termination_by items.length

end

end WeakForm
