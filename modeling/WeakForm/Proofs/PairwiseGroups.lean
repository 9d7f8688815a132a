import Mathlib.Data.List.Perm.Basic
import WeakForm.Pairwise

/-!
# The calls of pairwise contraction

A combination may have a state of its own and may fail.  `recording` writes down its calls, and
`Absorption` and `Contraction` are the runs of `absorb` and `contractPairwise` with the calls that
they make and with their results, failures included (`exists_contraction`).

From the run follows what pairwise contraction does with the items (`contractPairwise_grouping`).
If it succeeds, the positions fall into groups, each of which is folded from left to right into one
result, and the calls are those of each group with all later positions that no earlier group holds
(`IsGrouping`).  If no combination succeeds, all pairs have been compared and nothing has changed.
It fails with the error of the first call that fails, which is its last one.
-/

namespace WeakForm

variable {α ε σ : Type}

/-- A call of a combination, with the answer. -/
structure Call (ε α : Type) where
  left : α
  right : α
  answer : Except ε (Option α)

/-- The combination, which also appends each of its calls to a list. -/
def recording (combine : α → α → ExceptT ε (StateM σ) (Option α)) (a b : α) :
    ExceptT ε (StateM (σ × List (Call ε α))) (Option α) :=
  ExceptT.mk fun (s, calls) =>
    let (answer, t) := (combine a b).run.run s
    (answer, t, calls ++ [⟨a, b, answer⟩])

/-- The calls are answered one after the other, each in the state that the one before has left. -/
inductive Transcript (combine : α → α → ExceptT ε (StateM σ) (Option α)) :
    σ → List (Call ε α) → σ → Prop
  | nil (s : σ) : Transcript combine s [] s
  | cons {s t u : σ} {call : Call ε α} {calls : List (Call ε α)} :
      (combine call.left call.right).run.run s = (call.answer, t) →
        Transcript combine t calls u → Transcript combine s (call :: calls) u

theorem Transcript.append {combine : α → α → ExceptT ε (StateM σ) (Option α)} {s t u : σ}
    {calls calls' : List (Call ε α)} (h : Transcript combine s calls t)
    (h' : Transcript combine t calls' u) : Transcript combine s (calls ++ calls') u := by
  induction h with
  | nil => exact h'
  | cons hcall _ ih => exact .cons hcall (ih h')

/-! ### Runs with their calls -/

/-- Comparing `a` with the others makes these calls and ends with this result. -/
inductive Absorption : α → List α → List (Call ε α) → Except ε (α × List α) → Prop
  | nil (a : α) : Absorption a [] [] (.ok (a, []))
  | combine {a b c : α} {rest : List α} {calls : List (Call ε α)} {r : Except ε (α × List α)} :
      Absorption c rest calls r → Absorption a (b :: rest) (⟨a, b, .ok (some c)⟩ :: calls) r
  | keep {a b : α} {rest : List α} {calls : List (Call ε α)} {r : Except ε (α × List α)} :
      Absorption a rest calls r →
        Absorption a (b :: rest) (⟨a, b, .ok none⟩ :: calls) (r.map fun p => (p.1, b :: p.2))
  | fail {a b : α} {rest : List α} {e : ε} :
      Absorption a (b :: rest) [⟨a, b, .error e⟩] (.error e)

/-- Pairwise contraction of the items makes these calls and ends with this result. -/
inductive Contraction : List α → List (Call ε α) → Except ε (List α) → Prop
  | nil : Contraction [] [] (.ok [])
  | cons {a b : α} {rest kept : List α} {calls calls' : List (Call ε α)}
      {r : Except ε (List α)} :
      Absorption a rest calls (.ok (b, kept)) → Contraction kept calls' r →
        Contraction (a :: rest) (calls ++ calls') (r.map (b :: ·))
  | fail {a : α} {rest : List α} {calls : List (Call ε α)} {e : ε} :
      Absorption a rest calls (.error e) → Contraction (a :: rest) calls (.error e)

theorem run_bind_ok {β γ : Type} {x : ExceptT ε (StateM σ) β} {f : β → ExceptT ε (StateM σ) γ}
    {s t : σ} {b : β} (h : x.run.run s = (.ok b, t)) :
    (x >>= f).run.run s = (f b).run.run t := by
  rw [ExceptT.run_bind, StateT.run_bind, h]
  rfl

theorem run_bind_error {β γ : Type} {x : ExceptT ε (StateM σ) β}
    {f : β → ExceptT ε (StateM σ) γ} {s t : σ} {e : ε} (h : x.run.run s = (.error e, t)) :
    (x >>= f).run.run s = (.error e, t) := by
  rw [ExceptT.run_bind, StateT.run_bind, h]
  rfl

/-- A run that goes on with a function of its value. -/
theorem run_bind_pure {β γ : Type} {x : ExceptT ε (StateM σ) β} (g : β → γ) {s t : σ}
    {r : Except ε β} (h : x.run.run s = (r, t)) :
    (x >>= fun b => pure (g b)).run.run s = (r.map g, t) := by
  cases r with
  | error e => exact run_bind_error h
  | ok b => exact run_bind_ok h

section
variable (combine : α → α → ExceptT ε (StateM σ) (Option α))

theorem run_recording (a b : α) (s : σ) (log : List (Call ε α)) :
    (recording combine a b).run.run (s, log) =
      (((combine a b).run.run s).1, ((combine a b).run.run s).2,
        log ++ [⟨a, b, ((combine a b).run.run s).1⟩]) := rfl

theorem exists_absorption (a : α) (rest : List α) (s : σ) (log : List (Call ε α)) :
    ∃ r t calls, (absorb combine a rest).run.run s = (r, t) ∧
      (absorb (recording combine) a rest).run.run (s, log) = (r, t, log ++ calls) ∧
      Transcript combine s calls t ∧
      Absorption a rest calls (r.map fun p => (p.1, p.2.val)) := by
  induction rest generalizing a s log with
  | nil => exact ⟨_, s, [], rfl, by rw [List.append_nil]; rfl, .nil s, .nil a⟩
  | cons b rest ih =>
    have hrec := run_recording combine a b s log
    rcases hab : (combine a b).run.run s with ⟨answer, t⟩
    rw [hab] at hrec
    match answer, hab, hrec with
    | .error e, hab, hrec =>
      exact ⟨.error e, t, [⟨a, b, .error e⟩], run_bind_error hab, run_bind_error hrec,
        .cons hab (.nil t), .fail⟩
    | .ok (some c), hab, hrec =>
      obtain ⟨r, u, calls, hr, hrec', htrans, habs⟩ := ih c t (log ++ [⟨a, b, .ok (some c)⟩])
      rw [List.append_assoc, List.singleton_append] at hrec'
      let g (p : α × { kept : List α // kept.length ≤ rest.length }) :
          α × { kept : List α // kept.length ≤ (b :: rest).length } :=
        (p.1, ⟨p.2.val, Nat.le_succ_of_le p.2.property⟩)
      refine ⟨r.map g, u, _, (run_bind_ok hab).trans (run_bind_pure g hr),
        (run_bind_ok hrec).trans (run_bind_pure g hrec'), .cons hab htrans, ?_⟩
      cases r <;> exact .combine habs
    | .ok none, hab, hrec =>
      obtain ⟨r, u, calls, hr, hrec', htrans, habs⟩ := ih a t (log ++ [⟨a, b, .ok none⟩])
      rw [List.append_assoc, List.singleton_append] at hrec'
      let g (p : α × { kept : List α // kept.length ≤ rest.length }) :
          α × { kept : List α // kept.length ≤ (b :: rest).length } :=
        (p.1, ⟨b :: p.2.val, Nat.succ_le_succ p.2.property⟩)
      refine ⟨r.map g, u, _, (run_bind_ok hab).trans (run_bind_pure g hr),
        (run_bind_ok hrec).trans (run_bind_pure g hrec'), .cons hab htrans, ?_⟩
      cases r <;> exact .keep habs

/-- Recording the calls changes neither the result nor the final state. -/
theorem exists_contraction (items : List α) (s : σ) (log : List (Call ε α)) :
    ∃ r t calls, (contractPairwise combine items).run.run s = (r, t) ∧
      (contractPairwise (recording combine) items).run.run (s, log) = (r, t, log ++ calls) ∧
      Transcript combine s calls t ∧ Contraction items calls r := by
  match items with
  | [] =>
    rw [contractPairwise, contractPairwise]
    exact ⟨.ok [], s, [], rfl, by rw [List.append_nil]; rfl, .nil s, .nil⟩
  | a :: rest =>
    rw [contractPairwise, contractPairwise]
    obtain ⟨r, t, calls, hr, hrec, htrans, habs⟩ := exists_absorption combine a rest s log
    cases r with
    | error e =>
      exact ⟨.error e, t, calls, run_bind_error hr, run_bind_error hrec, htrans, .fail habs⟩
    | ok p =>
      have hlt : p.2.val.length < rest.length + 1 := Nat.lt_succ_of_le p.2.property
      obtain ⟨r', u, calls', hr', hrec', htrans', hcontr⟩ :=
        exists_contraction p.2.val t (log ++ calls)
      rw [List.append_assoc] at hrec'
      exact ⟨r'.map (p.1 :: ·), u, calls ++ calls',
        (run_bind_ok hr).trans (run_bind_pure _ hr'),
        (run_bind_ok hrec).trans (run_bind_pure _ hrec'), htrans.append htrans',
        .cons habs hcontr⟩
termination_by items.length

end

/-! ### Failures -/

theorem Absorption.error_iff {a : α} {rest : List α} {calls : List (Call ε α)}
    {r : Except ε (α × List α)} (h : Absorption a rest calls r) (e : ε) :
    r = .error e ↔ ∃ call ∈ calls, call.answer = .error e := by
  induction h with
  | nil => simp
  | combine _ ih => simpa using ih
  | @keep _ _ _ _ r _ ih => cases r <;> simpa [Except.map] using ih
  | fail => simp

theorem Absorption.eq_nil_of_error {a : α} {rest : List α} {calls : List (Call ε α)}
    {r : Except ε (α × List α)} (h : Absorption a rest calls r)
    {before after : List (Call ε α)} {call : Call ε α} {e : ε}
    (hcalls : calls = before ++ call :: after) (he : call.answer = .error e) : after = [] := by
  induction h generalizing before with
  | nil => simp at hcalls
  | combine _ ih | keep _ ih =>
    cases before with
    | nil =>
      cases hcalls
      cases he
    | cons first before =>
      cases hcalls
      exact ih rfl
  | fail =>
    cases before with
    | nil =>
      cases hcalls
      rfl
    | cons first before =>
      cases before <;> cases hcalls

/-- A run fails exactly if some call does, and with its error. -/
theorem Contraction.error_iff {items : List α} {calls : List (Call ε α)}
    {r : Except ε (List α)} (h : Contraction items calls r) (e : ε) :
    r = .error e ↔ ∃ call ∈ calls, call.answer = .error e := by
  induction h with
  | nil => simp
  | @cons _ b _ _ calls calls' r habs _ ih =>
    have hok := habs.error_iff e
    simp only [reduceCtorEq, false_iff, not_exists, not_and] at hok
    have hmap : r.map (b :: ·) = .error e ↔ r = .error e := by
      cases r <;> simp [Except.map]
    rw [hmap, ih]
    simp only [List.mem_append, or_and_right, exists_or]
    exact ⟨Or.inr, fun h => h.resolve_left fun ⟨call, hcall, he⟩ => hok call hcall he⟩
  | fail habs =>
    rw [← habs.error_iff e, Except.error.injEq, Except.error.injEq]

/-- After a call that fails there is no other one. -/
theorem Contraction.eq_nil_of_error {items : List α} {calls : List (Call ε α)}
    {r : Except ε (List α)} (h : Contraction items calls r)
    {before after : List (Call ε α)} {call : Call ε α} {e : ε}
    (hcalls : calls = before ++ call :: after) (he : call.answer = .error e) : after = [] := by
  induction h generalizing before with
  | nil => simp at hcalls
  | @cons _ _ _ _ calls calls' r habs _ ih =>
    -- no call of the first item fails, so the call is one of the later items
    rcases List.append_eq_append_iff.mp hcalls with ⟨middle, rfl, hcalls'⟩ | ⟨middle, hm, hcalls'⟩
    · exact ih hcalls'
    · cases middle with
      | nil =>
        have hlater : calls' = [] ++ call :: after := hcalls'.symm
        exact ih hlater
      | cons first middle =>
        cases hcalls'
        have hmem : call ∈ calls := by rw [hm]; simp
        exact absurd ((habs.error_iff e).mpr ⟨call, hmem, he⟩) (by simp)
  | fail habs => exact habs.eq_nil_of_error hcalls he

/-! ### Runs without a combination -/

/-- The pairs of an item with each later one, in the lexicographic order of their positions. -/
def laterPairs (items : List (α × ℕ)) : List (α × α) :=
  items.flatMap fun x => (items.filter (x.2 < ·.2)).map fun y => (x.1, y.1)

theorem laterPairs_cons {x : α × ℕ} {xs : List (α × ℕ)} (h : ∀ y ∈ xs, x.2 < y.2) :
    laterPairs (x :: xs) = xs.map (fun y => (x.1, y.1)) ++ laterPairs xs := by
  have hfirst : (x :: xs).filter (x.2 < ·.2) = xs := by
    rw [List.filter_cons_of_neg (by simp), List.filter_eq_self]
    exact fun y hy => decide_eq_true (h y hy)
  have hrest : ∀ y ∈ xs, (x :: xs).filter (y.2 < ·.2) = xs.filter (y.2 < ·.2) := fun y hy =>
    List.filter_cons_of_neg (by simpa using Nat.le_of_lt (h y hy))
  unfold laterPairs
  rw [List.flatMap_cons, hfirst]
  exact congrArg (_ ++ ·) (List.flatMap_congr fun y hy => by rw [hrest y hy])

theorem Absorption.eq_of_forall_none {a : α} {rest : List α} {calls : List (Call ε α)}
    {r : Except ε (α × List α)} (h : Absorption a rest calls r)
    (hnone : ∀ call ∈ calls, call.answer = .ok none) :
    r = .ok (a, rest) ∧ calls = rest.map fun b => ⟨a, b, .ok none⟩ := by
  induction h with
  | nil => exact ⟨rfl, rfl⟩
  | combine => simp at hnone
  | keep _ ih =>
    rw [List.forall_mem_cons] at hnone
    obtain ⟨rfl, rfl⟩ := ih hnone.2
    exact ⟨rfl, rfl⟩
  | fail => simp at hnone

/-- If no call combines its arguments, all pairs are compared and the items are kept. -/
theorem Contraction.eq_of_forall_none {xs : List (α × ℕ)} (hxs : xs.Pairwise (·.2 < ·.2))
    {calls : List (Call ε α)} {r : Except ε (List α)}
    (h : Contraction (xs.map Prod.fst) calls r) (hnone : ∀ call ∈ calls, call.answer = .ok none) :
    r = .ok (xs.map Prod.fst) ∧
      calls = (laterPairs xs).map fun p => ⟨p.1, p.2, .ok none⟩ := by
  induction xs generalizing calls r with
  | nil =>
    cases h
    exact ⟨rfl, rfl⟩
  | cons x xs ih =>
    rw [List.pairwise_cons] at hxs
    cases h with
    | cons habs hcontr =>
      rw [List.forall_mem_append] at hnone
      obtain ⟨hr, rfl⟩ := habs.eq_of_forall_none hnone.1
      cases hr
      obtain ⟨rfl, rfl⟩ := ih hxs.2 hcontr hnone.2
      refine ⟨rfl, ?_⟩
      rw [laterPairs_cons hxs.1, List.map_append, List.map_map, List.map_map]
      rfl
    | fail habs => cases (habs.eq_of_forall_none hnone).1

/-! ### Groups -/

/-- Positions whose items are combined, and for each position what the items of the group before it
have been combined to. -/
structure Group (α : Type) where
  least : ℕ
  later : List ℕ
  folded : ℕ → α

namespace Group

/-- The positions in ascending order. -/
def positions (g : Group α) : List ℕ :=
  g.least :: g.later

/-- What has been combined is compared with a later item: an item of the group is combined with it,
any other one is not. -/
def call (g : Group α) (x : α × ℕ) : Call ε α where
  left := g.folded x.2
  right := x.1
  answer := .ok (if x.2 ∈ g.later then some (g.folded (x.2 + 1)) else none)

/-- The position comes after the first one of the group, and no earlier group holds it. -/
def Compares (groups : List (Group α)) (g : Group α) (p : ℕ) : Prop :=
  g.least < p ∧ ∀ h ∈ groups, p ∈ h.positions → g.least ≤ h.least

instance (groups : List (Group α)) (g : Group α) (p : ℕ) : Decidable (g.Compares groups p) :=
  inferInstanceAs (Decidable (_ ∧ _))

end Group

/-- Items with their positions are combined by groups. -/
structure IsGrouping (items : List (α × ℕ)) (calls : List (Call ε α)) (result : List α)
    (groups : List (Group α)) : Prop where
  /-- Every position is in one group, once. -/
  partition : (groups.flatMap Group.positions).Perm (items.map Prod.snd)
  ascending : ∀ g ∈ groups, g.positions.Pairwise (· < ·)
  ordered : groups.Pairwise fun g h => g.least < h.least
  /-- A group starts with its first item. -/
  folded_least : ∀ g ∈ groups, (g.folded (g.least + 1), g.least) ∈ items
  /-- Items of other groups are passed over. -/
  folded_other : ∀ g ∈ groups, ∀ p, g.least < p → p ∉ g.later → g.folded (p + 1) = g.folded p
  result_eq : ∀ q, (∀ x ∈ items, x.2 < q) → result = groups.map (·.folded q)
  /-- The calls are those of one group after the other. -/
  calls_eq : calls = groups.flatMap fun g => (items.filter (g.Compares groups ·.2)).map g.call

namespace Group

/-- The group starts with `a` and folds into `b` those of the items that are not kept. -/
structure FoldsFrom (g : Group α) (a : α) (items : List (α × ℕ)) (b : α) (kept : List α)
    (calls : List (Call ε α)) : Prop where
  later_eq : g.later = (items.map Prod.snd).filter (· ∈ g.later)
  kept_eq : kept = (items.filter (·.2 ∉ g.later)).map Prod.fst
  folded_first : ∀ p ≤ g.least + 1, g.folded p = a
  folded_other : ∀ p, p ∉ g.later → g.folded (p + 1) = g.folded p
  folded_last : ∀ q, g.least < q → (∀ x ∈ items, x.2 < q) → g.folded q = b
  calls_eq : calls = items.map g.call

/-- The group that starts at an earlier position with another item. -/
def startAt (g : Group α) (i : ℕ) (a : α) (later : List ℕ) : Group α where
  least := i
  later
  folded p := if p ≤ g.least then a else g.folded p

variable {g : Group α} {a b c : α} {i j : ℕ} {later : List ℕ}

theorem folded_startAt_of_le {p : ℕ} (h : p ≤ g.least) : (g.startAt i a later).folded p = a :=
  if_pos h

theorem folded_startAt_of_lt {p : ℕ} (h : g.least < p) :
    (g.startAt i a later).folded p = g.folded p :=
  if_neg (Nat.not_le.mpr h)

section
variable {y : α} {xs : List (α × ℕ)} {kept : List α} {calls : List (Call ε α)}

theorem FoldsFrom.lt_of_mem_later (hg : g.FoldsFrom c xs b kept calls)
    (hlt : ∀ x ∈ xs, g.least < x.2) {p : ℕ} (hp : p ∈ g.later) : g.least < p := by
  rw [hg.later_eq] at hp
  obtain ⟨x, hx, rfl⟩ := List.mem_map.mp (List.mem_filter.mp hp).1
  exact hlt x hx

/-- What holds of the fold and of the calls whether or not the new item is combined. -/
theorem FoldsFrom.startAt (hg : g.FoldsFrom c xs b kept calls) (hlt : ∀ x ∈ xs, g.least < x.2)
    (hi : i < g.least) (hlater : ∀ p, g.least < p → (p ∈ later ↔ p ∈ g.later))
    (hc : g.least ∉ later → c = a) :
    (∀ p ≤ i + 1, (g.startAt i a later).folded p = a) ∧
      (∀ p, p ∉ later → (g.startAt i a later).folded (p + 1) = (g.startAt i a later).folded p) ∧
      (∀ q, (∀ x ∈ (y, g.least) :: xs, x.2 < q) → (g.startAt i a later).folded q = b) ∧
      calls = xs.map (g.startAt i a later).call := by
  refine ⟨fun p hp => folded_startAt_of_le (by omega), fun p hp => ?_, fun q hq => ?_, ?_⟩
  · rcases Nat.lt_trichotomy p g.least with hlt' | rfl | hgt
    · rw [folded_startAt_of_le (by omega), folded_startAt_of_le (by omega)]
    · rw [folded_startAt_of_lt (by omega), folded_startAt_of_le (by omega),
        hg.folded_first _ (by omega), hc hp]
    · rw [folded_startAt_of_lt (by omega), folded_startAt_of_lt hgt]
      exact hg.folded_other p fun h => hp ((hlater p hgt).mpr h)
  · rw [List.forall_mem_cons] at hq
    rw [folded_startAt_of_lt hq.1]
    exact hg.folded_last q hq.1 hq.2
  · rw [hg.calls_eq]
    refine List.map_congr_left fun x hx => ?_
    have hx' := hlt x hx
    unfold call
    rw [folded_startAt_of_lt hx', folded_startAt_of_lt (by omega)]
    simp only [Group.startAt, hlater x.2 hx']

theorem FoldsFrom.keep (hg : g.FoldsFrom a xs b kept calls) (hlt : ∀ x ∈ xs, g.least < x.2)
    (hi : i < g.least) : (g.startAt i a g.later).FoldsFrom a ((y, g.least) :: xs) b (y :: kept)
      (⟨a, y, .ok none⟩ :: calls) := by
  have hnot : g.least ∉ g.later := fun h => Nat.lt_irrefl _ (hg.lt_of_mem_later hlt h)
  obtain ⟨hfirst, hother, hlast, hcalls⟩ :=
    hg.startAt (y := y) hlt hi (fun _ _ => Iff.rfl) fun _ => rfl
  refine ⟨?_, ?_, hfirst, hother, fun q _ => hlast q, ?_⟩
  · change g.later = (g.least :: xs.map Prod.snd).filter (· ∈ g.later)
    rw [List.filter_cons_of_neg (by simpa using hnot)]
    exact hg.later_eq
  · change y :: kept = (((y, g.least) :: xs).filter (·.2 ∉ g.later)).map Prod.fst
    rw [List.filter_cons_of_pos (by simpa using hnot)]
    exact congrArg (y :: ·) hg.kept_eq
  · have hcall : (g.startAt i a g.later).call (ε := ε) (y, g.least) = ⟨a, y, .ok none⟩ := by
      unfold call
      dsimp only
      rw [folded_startAt_of_le (Nat.le_refl _)]
      exact congrArg _ (congrArg _ (if_neg hnot))
    rw [List.map_cons, hcall, hcalls]

theorem FoldsFrom.combine (hg : g.FoldsFrom c xs b kept calls) (hlt : ∀ x ∈ xs, g.least < x.2)
    (hi : i < g.least) :
    (g.startAt i a (g.least :: g.later)).FoldsFrom a ((y, g.least) :: xs) b kept
      (⟨a, y, .ok (some c)⟩ :: calls) := by
  have hlater : ∀ p, g.least < p → (p ∈ g.least :: g.later ↔ p ∈ g.later) := fun p hp =>
    ⟨fun h => (List.mem_cons.mp h).resolve_left (by omega), List.mem_cons_of_mem _⟩
  obtain ⟨hfirst, hother, hlast, hcalls⟩ :=
    hg.startAt (y := y) (a := a) hlt hi hlater fun h => absurd List.mem_cons_self h
  refine ⟨?_, ?_, hfirst, hother, fun q _ => hlast q, ?_⟩
  · change g.least :: g.later =
      (g.least :: xs.map Prod.snd).filter (· ∈ g.least :: g.later)
    rw [List.filter_cons_of_pos (by simp)]
    refine congrArg (g.least :: ·) (hg.later_eq.trans (List.filter_congr fun p hp => ?_))
    obtain ⟨x, hx, rfl⟩ := List.mem_map.mp hp
    exact decide_eq_decide.mpr (hlater x.2 (hlt x hx)).symm
  · change kept = (((y, g.least) :: xs).filter (·.2 ∉ g.least :: g.later)).map Prod.fst
    rw [List.filter_cons_of_neg (by simp), hg.kept_eq]
    refine congrArg (List.map Prod.fst) (List.filter_congr fun x hx => ?_)
    exact decide_eq_decide.mpr (not_congr (hlater x.2 (hlt x hx)).symm)
  · have hcall : (g.startAt i a (g.least :: g.later)).call (ε := ε) (y, g.least) =
        ⟨a, y, .ok (some c)⟩ := by
      unfold call
      dsimp only
      rw [folded_startAt_of_le (Nat.le_refl _), folded_startAt_of_lt (Nat.lt_succ_self _),
        hg.folded_first _ (Nat.le_refl _)]
      exact congrArg _ (congrArg _ (if_pos List.mem_cons_self))
    rw [List.map_cons, hcall, hcalls]

end

section
variable {x : α × ℕ} {xs : List (α × ℕ)} {groups : List (Group α)}

/-- The first group is compared with all items after its own. -/
theorem filter_compares_first (hx : g.least = x.2) (hxs : ∀ y ∈ xs, g.least < y.2)
    (hgroups : ∀ k ∈ groups, g.least < k.least) :
    (x :: xs).filter (g.Compares (g :: groups) ·.2) = xs := by
  rw [List.filter_cons_of_neg (by simp [Compares, hx]), List.filter_eq_self]
  intro y hy
  have hall : ∀ k ∈ g :: groups, g.least ≤ k.least :=
    List.forall_mem_cons.mpr ⟨Nat.le_refl _, fun k hk => Nat.le_of_lt (hgroups k hk)⟩
  exact decide_eq_true ⟨hxs y hy, fun k hk _ => hall k hk⟩

/-- A later group is compared with the items that the first one leaves as if there were no first
one. -/
theorem filter_compares_later {k : Group α} (hx : g.least = x.2) (hxs : ∀ y ∈ xs, g.least < y.2)
    (hk : g.least < k.least) : (x :: xs).filter (k.Compares (g :: groups) ·.2) =
      (xs.filter (·.2 ∉ g.later)).filter (k.Compares groups ·.2) := by
  have hskip : ¬ k.Compares (g :: groups) x.2 := fun h => Nat.lt_asymm hk (hx ▸ h.1)
  rw [List.filter_cons_of_neg (by simpa using hskip), List.filter_filter]
  refine List.filter_congr fun y hy => ?_
  -- an item is compared with a later group unless the first one holds it
  have hy' : y.2 ∈ g.positions ↔ y.2 ∈ g.later :=
    ⟨fun h => (List.mem_cons.mp h).resolve_left (Nat.ne_of_gt (hxs y hy)), List.mem_cons_of_mem _⟩
  rw [← Bool.decide_and, decide_eq_decide]
  unfold Compares
  rw [List.forall_mem_cons, hy']
  constructor
  · rintro ⟨hlt, hnot, hall⟩
    exact ⟨⟨hlt, hall⟩, fun hmem => absurd (hnot hmem) (Nat.not_le.mpr hk)⟩
  · rintro ⟨⟨hlt, hall⟩, hnot⟩
    exact ⟨hlt, fun hmem => absurd hmem hnot, hall⟩

end

end Group

/-- An item that absorbs others makes a group with them. -/
theorem Absorption.exists_group {a b : α} {i : ℕ} {xs : List (α × ℕ)} {kept : List α}
    {calls : List (Call ε α)} (hxs : (i :: xs.map Prod.snd).Pairwise (· < ·))
    (h : Absorption a (xs.map Prod.fst) calls (.ok (b, kept))) :
    ∃ g : Group α, g.least = i ∧ g.FoldsFrom a xs b kept calls := by
  induction xs generalizing a i kept calls with
  | nil =>
    cases h
    exact ⟨⟨i, [], fun _ => b⟩, rfl, rfl, rfl, fun _ _ => rfl, fun _ _ => rfl, fun _ _ _ => rfl,
      rfl⟩
  | cons x xs ih =>
    obtain ⟨y, j⟩ := x
    obtain ⟨hi, hxs⟩ := List.pairwise_cons.mp hxs
    have hij : i < j := hi j List.mem_cons_self
    have hlt : ∀ x ∈ xs, j < x.2 := fun x hx =>
      (List.pairwise_cons.mp hxs).1 x.2 (List.mem_map_of_mem hx)
    generalize hr : (Except.ok (b, kept) : Except ε (α × List α)) = r at h
    cases h with
    | combine h =>
      subst hr
      obtain ⟨g, rfl, hg⟩ := ih hxs h
      exact ⟨_, rfl, hg.combine hlt hij⟩
    | @keep _ _ _ _ r h =>
      cases r with
      | error e => cases hr
      | ok p =>
        cases hr
        obtain ⟨g, rfl, hg⟩ := ih hxs h
        exact ⟨_, rfl, hg.keep hlt hij⟩
    | fail => cases hr

/-- A group in front of the groups of the items that it has left. -/
theorem IsGrouping.cons {x : α × ℕ} {xs : List (α × ℕ)} {b : α} {kept result : List α}
    {calls calls' : List (Call ε α)} {g : Group α} {groups : List (Group α)}
    (hxs : ∀ y ∈ xs, x.2 < y.2) (hsorted : (xs.map Prod.snd).Pairwise (· < ·))
    (hleast : g.least = x.2) (hg : g.FoldsFrom x.1 xs b kept calls)
    (h : IsGrouping (xs.filter (·.2 ∉ g.later)) calls' result groups) :
    IsGrouping (x :: xs) (calls ++ calls') (b :: result) (g :: groups) := by
  rw [← hleast] at hxs
  have hgroups : ∀ k ∈ groups, g.least < k.least := by
    intro k hk
    have hmem := h.partition.subset (List.mem_flatMap.mpr ⟨k, hk, List.mem_cons_self⟩)
    obtain ⟨y, hy, hyk⟩ := List.mem_map.mp hmem
    exact hyk ▸ hxs y (List.mem_filter.mp hy).1
  refine ⟨?_, ?_, ?_, ?_, ?_, ?_, ?_⟩
  · rw [List.flatMap_cons, List.map_cons, Group.positions, hleast, List.cons_append]
    refine List.Perm.cons _ ?_
    have hkept : ((xs.map Prod.snd).filter (· ∉ g.later)) =
        (xs.filter (·.2 ∉ g.later)).map Prod.snd := List.filter_map
    refine (List.Perm.append_left g.later h.partition).trans ?_
    rw [← hkept]
    nth_rewrite 1 [hg.later_eq]
    simpa using List.filter_append_perm (· ∈ g.later) (xs.map Prod.snd)
  · refine List.forall_mem_cons.mpr ⟨?_, h.ascending⟩
    refine List.pairwise_cons.mpr ⟨fun p hp => hg.lt_of_mem_later hxs hp, ?_⟩
    rw [hg.later_eq]
    exact hsorted.filter _
  · exact List.pairwise_cons.mpr ⟨hgroups, h.ordered⟩
  · refine List.forall_mem_cons.mpr ⟨?_, fun k hk => ?_⟩
    · rw [hg.folded_first _ (Nat.le_refl _), hleast]
      exact List.mem_cons_self
    · exact List.mem_cons_of_mem _ (List.mem_filter.mp (h.folded_least k hk)).1
  · exact List.forall_mem_cons.mpr ⟨fun p _ => hg.folded_other p, h.folded_other⟩
  · intro q hq
    rw [List.forall_mem_cons] at hq
    rw [List.map_cons, hg.folded_last q (hleast ▸ hq.1) hq.2]
    exact congrArg (b :: ·) (h.result_eq q fun y hy => hq.2 y (List.mem_filter.mp hy).1)
  · rw [List.flatMap_cons, Group.filter_compares_first hleast hxs hgroups, hg.calls_eq, h.calls_eq]
    refine congrArg (_ ++ ·) (List.flatMap_congr fun k hk => ?_)
    rw [Group.filter_compares_later hleast hxs (hgroups k hk)]

/-- A run that succeeds combines the items by groups. -/
theorem Contraction.exists_grouping {xs : List (α × ℕ)}
    (hxs : (xs.map Prod.snd).Pairwise (· < ·)) {calls : List (Call ε α)} {result : List α}
    (h : Contraction (xs.map Prod.fst) calls (.ok result)) :
    ∃ groups, IsGrouping xs calls result groups := by
  generalize hitems : xs.map Prod.fst = items at h
  generalize hr : (Except.ok result : Except ε (List α)) = r at h
  induction h generalizing xs result with
  | nil =>
    cases hr
    obtain rfl := List.map_eq_nil_iff.mp hitems
    exact ⟨[], .nil, by simp, .nil, by simp, by simp, fun _ _ => rfl, rfl⟩
  | @cons _ _ _ _ _ _ r habs _ ih =>
    obtain ⟨x, xs, rfl, rfl, rfl⟩ := List.map_eq_cons_iff.mp hitems
    cases r with
    | error e => cases hr
    | ok others =>
      cases hr
      obtain ⟨hlt, hsorted⟩ := List.pairwise_cons.mp hxs
      rw [List.forall_mem_map] at hlt
      obtain ⟨g, hleast, hg⟩ := habs.exists_group hxs
      have hkept : ((xs.filter (·.2 ∉ g.later)).map Prod.snd).Pairwise (· < ·) :=
        hsorted.sublist (List.filter_sublist.map _)
      obtain ⟨groups, hgroups⟩ := ih hkept hg.kept_eq.symm rfl
      exact ⟨g :: groups, hgroups.cons hlt hsorted hleast hg⟩
  | fail => cases hr

/-! ### Pairwise contraction -/

/-- Pairwise contraction by any combination, which may have a state and may fail, neither loses nor
duplicates an item.  If it succeeds, the positions fall into groups, each result is the left fold of
the items of a group, and the calls are those of each group with the later positions that no earlier
group holds; if no call combines its arguments, all pairs have been compared and the items are kept.
It fails with the error of the first call that fails, and makes no call after it. -/
theorem contractPairwise_grouping (combine : α → α → ExceptT ε (StateM σ) (Option α))
    (items : List α) (s : σ) :
    ∃ (r : Except ε (List α)) (t : σ) (calls : List (Call ε α)),
      (contractPairwise combine items).run.run s = (r, t) ∧
      (contractPairwise (recording combine) items).run.run (s, []) = (r, t, calls) ∧
      Transcript combine s calls t ∧
      (∀ result, r = .ok result → ∃ groups, IsGrouping items.zipIdx calls result groups) ∧
      ((∀ call ∈ calls, call.answer = .ok none) → r = .ok items ∧
        calls = (laterPairs items.zipIdx).map fun p => ⟨p.1, p.2, .ok none⟩) ∧
      (∀ e, r = .error e ↔ ∃ call ∈ calls, call.answer = .error e) ∧
      ∀ before call after e, calls = before ++ call :: after → call.answer = .error e →
        after = [] := by
  obtain ⟨r, t, calls, hr, hrec, htrans, hcontr⟩ := exists_contraction combine items s []
  rw [List.nil_append] at hrec
  have hitems : items.zipIdx.map Prod.fst = items := List.zipIdx_map_fst _ _
  have hsorted : (items.zipIdx.map Prod.snd).Pairwise (· < ·) := by
    rw [List.zipIdx_map_snd, ← List.range_eq_range']
    exact List.pairwise_lt_range
  refine ⟨r, t, calls, hr, hrec, htrans, ?_, fun hnone => ?_, hcontr.error_iff,
    fun _ _ _ _ => hcontr.eq_nil_of_error⟩
  · rintro result rfl
    rw [← hitems] at hcontr
    exact hcontr.exists_grouping hsorted
  · rw [← hitems] at hcontr
    have hall := hcontr.eq_of_forall_none (List.pairwise_map.mp hsorted) hnone
    rwa [hitems] at hall

end WeakForm
