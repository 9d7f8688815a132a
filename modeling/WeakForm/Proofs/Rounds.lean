import Mathlib.Algebra.BigOperators.Group.List.Basic
import Mathlib.Algebra.GroupWithZero.Nat
import WeakForm.Proofs.Balance
import WeakForm.Proofs.Constants

/-!
# Rounds of the simplifier

`Runs body stop s n r` is the run of a loop that repeats `body` until `stop` relates the states
before and after it: from `s` the loop ends in round `n` with the result `r`.  The sweeps of
contraction (`Form.contract_runs`) and the rounds of simplification (`Form.simplify_runs`) are such
loops without a limit, and the executable functions return their results.

Both end because of the `Form.weight`, the number of monomials, determinants and transforms.  No
pass makes it larger, and a pass that keeps it only renumbers the form (`Form.Reduces`).  A round
that keeps it leaves a renumbered form as it is (`Form.round_reduces`), so at most the first round
can change the form without making it lighter.
-/

namespace WeakForm

open Indexed

/-! ### Loops -/

/-- From `s`, the loop ends in round `n` with the result `r`. -/
inductive Runs {σ ε : Type} (body : σ → Except ε σ) (stop : σ → σ → Prop) :
    σ → ℕ → Except ε σ → Prop
  | fail {s : σ} {e : ε} : body s = .error e → Runs body stop s 1 (.error e)
  | done {s t : σ} : body s = .ok t → stop s t → Runs body stop s 1 (.ok t)
  | again {s t : σ} {n : ℕ} {r : Except ε σ} :
      body s = .ok t → ¬ stop s t → Runs body stop t n r → Runs body stop s (n + 1) r

/-- A loop has one run from every state. -/
theorem Runs.unique {σ ε : Type} {body : σ → Except ε σ} {stop : σ → σ → Prop} {s : σ} {n n' : ℕ}
    {r r' : Except ε σ} (h : Runs body stop s n r) (h' : Runs body stop s n' r') :
    n = n' ∧ r = r' := by
  induction h generalizing n' r' with
  | fail hb =>
    cases h' with
    | fail hb' => rw [hb] at hb'; cases hb'; exact ⟨rfl, rfl⟩
    | done hb' _ => rw [hb] at hb'; cases hb'
    | again hb' _ _ => rw [hb] at hb'; cases hb'
  | done hb hs =>
    cases h' with
    | fail hb' => rw [hb] at hb'; cases hb'
    | done hb' _ => rw [hb] at hb'; cases hb'; exact ⟨rfl, rfl⟩
    | again hb' hs' _ => rw [hb] at hb'; cases hb'; exact absurd hs hs'
  | again hb hs _ ih =>
    cases h' with
    | fail hb' => rw [hb] at hb'; cases hb'
    | done hb' hs' => rw [hb] at hb'; cases hb'; exact absurd hs' hs
    | again hb' _ hr' =>
      rw [hb] at hb'
      cases hb'
      obtain ⟨rfl, rfl⟩ := ih hr'
      exact ⟨rfl, rfl⟩

/-- What the body keeps holds of the result. -/
theorem Runs.invariant {σ ε : Type} {body : σ → Except ε σ} {stop : σ → σ → Prop} {P : σ → Prop}
    (hP : ∀ s t, P s → body s = .ok t → P t) {s t : σ} {n : ℕ} {r : Except ε σ}
    (h : Runs body stop s n r) (hs : P s) (hr : r = .ok t) : P t := by
  induction h with
  | fail _ => cases hr
  | done hb _ => cases hr; exact hP _ _ hs hb
  | again hb _ _ ih => exact ih (hP _ _ hs hb) hr

/-- A loop that ends without an error ends because of its test. -/
theorem Runs.last {σ ε : Type} {body : σ → Except ε σ} {stop : σ → σ → Prop} {P : σ → Prop}
    (hP : ∀ s t, P s → body s = .ok t → P t) {s t : σ} {n : ℕ} {r : Except ε σ}
    (h : Runs body stop s n r) (hs : P s) (hr : r = .ok t) :
    ∃ u, P u ∧ body u = .ok t ∧ stop u t := by
  induction h with
  | fail _ => cases hr
  | done hb hst => cases hr; exact ⟨_, hs, hb, hst⟩
  | again hb _ _ ih => exact ih (hP _ _ hs hb) hr

/-- An error of the loop is one of the body, in a state that the body has reached. -/
theorem Runs.error {σ ε : Type} {body : σ → Except ε σ} {stop : σ → σ → Prop} {P : σ → Prop}
    (hP : ∀ s t, P s → body s = .ok t → P t) {s : σ} {e : ε} {n : ℕ} {r : Except ε σ}
    (h : Runs body stop s n r) (hs : P s) (hr : r = .error e) : ∃ t, P t ∧ body t = .error e := by
  induction h with
  | fail hb => cases hr; exact ⟨_, hs, hb⟩
  | done _ _ => cases hr
  | again hb _ _ ih => exact ih (hP _ _ hs hb) hr

/-- Bodies that agree on the states that are reached have the same runs. -/
theorem Runs.congr {σ ε : Type} {body body' : σ → Except ε σ} {stop : σ → σ → Prop} {P : σ → Prop}
    (heq : ∀ s, P s → body s = body' s) (hP : ∀ s t, P s → body s = .ok t → P t) {s : σ} {n : ℕ}
    {r : Except ε σ} (h : Runs body stop s n r) (hs : P s) : Runs body' stop s n r := by
  induction h with
  | fail hb => exact .fail (heq _ hs ▸ hb)
  | done hb hst => exact .done (heq _ hs ▸ hb) hst
  | again hb hst _ ih => exact .again (heq _ hs ▸ hb) hst (ih (hP _ _ hs hb))

/-! ### Weight -/

variable {K : Type}

/-- What a pass can remove: the monomial itself, its determinants and its transforms. -/
def Monomial.weight (m : Monomial K) : ℕ :=
  1 + m.determinants.length + m.transforms.length

theorem Monomial.weight_pos (m : Monomial K) : 0 < m.weight := by
  unfold Monomial.weight
  omega

theorem Monomial.weight_mapIndices (f : Index → Index) (m : Monomial K) :
    (mapIndices f m).weight = m.weight := by
  simp [Monomial.weight, Monomial.mapIndices_eq]

theorem Monomial.weight_refill (m : Monomial K) {is : List Index}
    (h : is.length = m.indices.length) : (refill m is).weight = m.weight := by
  have := congrArg Monomial.weight (Monomial.skeleton_refill m h)
  rwa [Monomial.skeleton, Monomial.weight_mapIndices, Monomial.skeleton,
    Monomial.weight_mapIndices] at this

namespace Form

def numDeterminants (f : Form K) : ℕ :=
  (f.monomials.map fun m => m.determinants.length).sum

def numTransforms (f : Form K) : ℕ :=
  (f.monomials.map fun m => m.transforms.length).sum

def weight (f : Form K) : ℕ :=
  (f.monomials.map Monomial.weight).sum

theorem weight_eq (f : Form K) : f.weight = f.size + f.numDeterminants + f.numTransforms := by
  unfold weight size numDeterminants numTransforms
  induction f.monomials with
  | nil => rfl
  | cons m ms ih =>
    simp only [List.map_cons, List.sum_cons, List.length_cons, ih, Monomial.weight]
    omega

theorem roundLimit_eq (f : Form K) : f.roundLimit = f.weight + 2 := by
  unfold roundLimit weight size
  congr 1
  induction f.monomials with
  | nil => rfl
  | cons m ms ih =>
    simp only [List.map_cons, total_cons, List.sum_cons, List.length_cons, Monomial.weight] at *
    omega

theorem weight_map {g : Monomial K → Monomial K} (hg : ∀ m, (g m).weight = m.weight) (f : Form K) :
    (f.map g).weight = f.weight := by
  rw [weight, monomials_map, List.map_map]
  exact congrArg List.sum (List.map_congr_left fun m _ => hg m)

theorem weight_renumber (f : Form K) : f.renumber.weight = f.weight :=
  weight_map (fun m => m.weight_mapIndices _) f

theorem weight_normalizeRestrictions (f : Form K) :
    f.normalizeRestrictions.weight = f.weight := by
  refine weight_map (fun m => ?_) f
  unfold Monomial.normalizeRestrictions
  split <;> rfl

/-- A form is unchanged or has become lighter. -/
def Reduces (f g : Form K) : Prop :=
  g = f ∨ g.weight < f.weight

theorem Reduces.weight_le {f g : Form K} (h : f.Reduces g) : g.weight ≤ f.weight := by
  obtain rfl | h := h
  · exact le_rfl
  · exact h.le

theorem Reduces.trans {f g h : Form K} (hfg : f.Reduces g) (hgh : g.Reduces h) : f.Reduces h := by
  obtain rfl | hfg := hfg
  · exact hgh
  · exact .inr (hgh.weight_le.trans_lt hfg)

theorem Reduces.eq_of_weight {f g : Form K} (h : f.Reduces g) (hw : f.weight ≤ g.weight) :
    g = f :=
  h.resolve_right (not_lt_of_ge hw)

/-! ### The passes reduce -/

theorem sum_add_length_le {l₁ l₂ : List ℕ} (h : l₁.Sublist l₂) (hpos : ∀ x ∈ l₂, 0 < x) :
    l₁.sum + l₂.length ≤ l₂.sum + l₁.length := by
  induction h with
  | slnil => rfl
  | @cons l₁ l₂ x h ih =>
    rw [List.forall_mem_cons] at hpos
    have := ih hpos.2
    have := hpos.1
    simp only [List.sum_cons, List.length_cons]
    omega
  | @cons_cons l₁ l₂ x h ih =>
    rw [List.forall_mem_cons] at hpos
    have := ih hpos.2
    simp only [List.sum_cons, List.length_cons]
    omega

/-- A run of pairwise contraction whose combinations weigh as much as their left partner. -/
theorem reduces_of_contracts {R : Monomial K → Monomial K → Option (Monomial K) → Prop}
    (hR : ∀ a b c, R a b (some c) → c.weight = a.weight) {items result : List (Monomial K)}
    (h : Contracts R items result) : Reduces ⟨items⟩ (⟨result⟩ : Form K) := by
  by_cases hl : result.length = items.length
  · exact .inl (congrArg Form.mk (h.eq_of_length hl).1)
  · have hle := h.length_le
    have := sum_add_length_le (h.sublist_map hR) (fun x hx => by
      obtain ⟨m, -, rfl⟩ := List.mem_map.mp hx
      exact m.weight_pos)
    simp only [List.length_map] at this
    refine .inr ?_
    show (result.map Monomial.weight).sum < (items.map Monomial.weight).sum
    omega

theorem reduces_map {g : Monomial K → Monomial K}
    (hg : ∀ m, g m = m ∨ (g m).weight < m.weight) (f : Form K) : f.Reduces (f.map g) := by
  obtain ⟨ms⟩ := f
  induction ms with
  | nil => exact .inl rfl
  | cons m ms ih =>
    have e : (map g ⟨m :: ms⟩).weight = (g m).weight + (map g ⟨ms⟩).weight := by
      simp [weight, map]
    have e' : weight (⟨m :: ms⟩ : Form K) = m.weight + weight (⟨ms⟩ : Form K) := by
      simp [weight]
    have hle := ih.weight_le
    rcases hg m with hm | hm
    · rcases ih with ih | ih
      · refine .inl (congrArg Form.mk ?_)
        rw [List.map_cons, hm]
        exact congrArg (m :: ·) (congrArg Form.monomials ih)
      · exact .inr (by rw [e, e', hm]; omega)
    · exact .inr (by rw [e, e']; omega)

theorem factorize_reduces [Add K] (f : Form K) : f.Reduces f.factorize := by
  refine reduces_of_contracts (fun a b c h => ?_) (contracts_contractPairs Monomial.factorize _)
  unfold Monomial.factorize at h
  split at h
  · cases h
    rfl
  · cases h

theorem eliminateZeros_reduces [BEq K] [Zero K] (f : Form K) : f.Reduces f.eliminateZeros := by
  by_cases hl : f.eliminateZeros.monomials.length = f.monomials.length
  · exact .inl (congrArg Form.mk (List.filter_sublist.eq_of_length hl))
  · have hs : (f.eliminateZeros.monomials.map Monomial.weight).Sublist
        (f.monomials.map Monomial.weight) := List.filter_sublist.map _
    have hle := hs.length_le
    have := sum_add_length_le hs (fun x hx => by
      obtain ⟨m, -, rfl⟩ := List.mem_map.mp hx
      exact m.weight_pos)
    simp only [List.length_map] at this hle
    refine .inr ?_
    show (f.eliminateZeros.monomials.map Monomial.weight).sum <
      (f.monomials.map Monomial.weight).sum
    omega

theorem contractDeterminants_reduces (f : Form K) : f.Reduces f.contractDeterminants := by
  refine reduces_map (fun m => ?_) f
  have h := contracts_contractPairs Determinant.multiply m.determinants
  by_cases hl : (contractPairs Determinant.multiply m.determinants).length = m.determinants.length
  · refine .inl ?_
    rw [Monomial.contractDeterminants, (h.eq_of_length hl).1]
  · have := h.length_le
    refine .inr ?_
    show 1 + (contractPairs Determinant.multiply m.determinants).length + m.transforms.length < _
    unfold Monomial.weight
    omega

theorem simplifyDerivatives_reduces (f : Form K) : f.Reduces f.simplifyDerivatives := by
  refine reduces_map (fun m => ?_) f
  rcases m.simplifyDerivatives_eq_or_shorter with h | h
  · exact .inl h
  · refine .inr ?_
    show 1 + m.determinants.length + m.simplifyDerivatives.transforms.length < _
    unfold Monomial.weight
    omega

section
variable [BEq K]

theorem contractOnce_contracts {f g : Form K} (h : f.contractOnce = .ok g) :
    Contracts (fun a b r => Monomial.contractIfLikely a b = .ok r) f.renumber.monomials
      g.monomials := by
  unfold Form.contractOnce at h
  cases hc : contractPairwise Monomial.contractIfLikely f.renumber.monomials with
  | error e => simp [hc, bind, Except.bind] at h
  | ok ms =>
    simp only [hc, bind, Except.bind, pure, Except.pure, Except.ok.injEq] at h
    subst h
    exact contractPairwise_ok hc

theorem contractOnce_reduces {f g : Form K} (h : f.contractOnce = .ok g) :
    f.renumber.Reduces g := by
  refine reduces_of_contracts (fun a b c hc => ?_) (contractOnce_contracts h)
  obtain ⟨-, d, rfl⟩ := Monomial.contractIfLikely_eq_some hc
  exact a.weight_refill (by rw [d.indices_left]; simp)

theorem contractOnce_size_le {f g : Form K} (h : f.contractOnce = .ok g) : g.size ≤ f.size := by
  have := (contractOnce_contracts h).length_le
  simpa [size, renumber] using this

/-- The sweeps of contraction end after one more than there are monomials, for any form. -/
theorem contract_runs (f : Form K) :
    ∃ n ≤ f.size + 1, Runs contractOnce (fun f g => g.size = f.size) f n f.contract := by
  cases h : f.contractOnce with
  | error e =>
    refine ⟨1, by omega, ?_⟩
    rw [Form.contract, h]
    exact .fail h
  | ok g =>
    have hle := contractOnce_size_le h
    by_cases hlt : g.size < f.size
    · obtain ⟨n, hn, hr⟩ := g.contract_runs
      refine ⟨n + 1, by omega, ?_⟩
      rw [Form.contract, h]
      simp only [hlt, if_true]
      exact .again h (by omega) hr
    · refine ⟨1, by omega, ?_⟩
      rw [Form.contract, h]
      simp only [hlt, if_false]
      exact .done h (by omega)
termination_by f.size

/-- Contraction renumbers a form of one monomial. -/
theorem contract_singleton (m : Monomial K) :
    (⟨[m]⟩ : Form K).contract = .ok (renumber ⟨[m]⟩) := by
  have honce : (⟨[m]⟩ : Form K).contractOnce = .ok (renumber ⟨[m]⟩) := by
    rw [contractOnce, renumber, map, List.map_singleton, contractPairwise_singleton]
    rfl
  rw [Form.contract, honce]
  rfl

theorem contract_reduces {f g : Form K} (h : f.contract = .ok g) : f.renumber.Reduces g := by
  rw [Form.contract] at h
  cases ho : f.contractOnce with
  | error e =>
    rw [ho] at h
    cases h
  | ok c =>
    rw [ho] at h
    have hc := contractOnce_reduces ho
    by_cases hlt : c.size < f.size
    · simp only [hlt, if_true] at h
      have hg := (contract_reduces h).weight_le
      rw [weight_renumber] at hg
      rcases hc with rfl | hc
      · -- a renumbered form has as many monomials as before
        rw [renumber, size_map] at hlt
        omega
      · exact .inr (by omega)
    · simp only [hlt, if_false, Except.ok.injEq] at h
      exact h ▸ hc
termination_by f.size

end

end Form

/-- A property of monomials that renumbering and the joining of two monomials keep. -/
structure Monomial.KeptByContraction {K : Type} [BEq K] (P : Monomial K → Prop) : Prop where
  rename : ∀ m (f : SlotKind → ℕ → ℕ), (∀ k, Function.Injective (f k)) → P m →
    P (m.rename (slotRenaming f))
  joined : ∀ m n (d : PairDifference m n), m.mayContract n = true → P m → P n → P d.joined

namespace Monomial.KeptByContraction

variable [BEq K] {P : Monomial K → Prop} (hP : KeptByContraction P) {f : Form K}
include hP

theorem form_renumber (hf : ∀ m ∈ f.monomials, P m) : ∀ m ∈ f.renumber.monomials, P m := by
  rw [Form.renumber_eq_map]
  intro n hn
  obtain ⟨m, hm, rfl⟩ := List.mem_map.mp hn
  exact hP.rename m _ (m.numberings_injective _) (hf m hm)

theorem form_contractOnce {g : Form K} (h : f.contractOnce = .ok g)
    (hf : ∀ m ∈ f.monomials, P m) : ∀ m ∈ g.monomials, P m := by
  refine (Form.contractOnce_contracts h).forall_mem (fun a b c ha hb hc => ?_) (hP.form_renumber hf)
  obtain ⟨hl, d, rfl⟩ := contractIfLikely_eq_some hc
  exact hP.joined a b d hl ha hb

theorem form_contract {g : Form K} (h : f.contract = .ok g) (hf : ∀ m ∈ f.monomials, P m) :
    ∀ m ∈ g.monomials, P m := by
  obtain ⟨n, -, hr⟩ := f.contract_runs
  exact hr.invariant (P := fun f => ∀ m ∈ f.monomials, P m)
    (fun _ _ hs hst => hP.form_contractOnce hst hs) hf h

end Monomial.KeptByContraction

end WeakForm
