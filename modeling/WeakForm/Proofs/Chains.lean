import Mathlib.Data.List.Perm.Subperm
import Mathlib.Logic.Relation
import WeakForm.Proofs.IndexMaps
import WeakForm.Simplify

/-!
# Steps of chain cancellation

Cancelling the derivative chains of a monomial is a sequence of single cancellations
(`Monomial.simplifyDerivatives_steps`).  One step takes two transforms `s` and `t` out of the
monomial and turns a derivative along the first index of `s` into one along the first index of `t`
(`Monomial.CancelStep`); a condition `P` on the chains that occur at the start holds of all chains
that are cancelled.

A step leaves all other indices where they are (`Monomial.CancelStep.indices_perm`) and shortens the
list of transforms, so a monomial that keeps its number of transforms is not changed at all
(`Monomial.simplifyDerivatives_eq_or_shorter`).
-/

namespace WeakForm

open Indexed

/-! ### Chains -/

/-- The transforms `s` and `t` form a chain that acts on a derivative along `l`. -/
structure IsChain (restriction : Restriction) (l : Index) (s t : Transform) : Prop where
  secondary : l.isKind .secondary = true
  starts : s.startsChain restriction l = true
  ends : t.endsChain restriction s.physical = true

theorem find?_perm_eraseP {α : Type} {p : α → Bool} {a : α} :
    ∀ {as : List α}, as.find? p = some a → as.Perm (a :: as.eraseP p)
  | b :: as, h => by
    rw [List.find?_cons] at h
    rw [List.eraseP_cons]
    cases hb : p b with
    | true =>
      simp only [hb, Option.some.injEq] at h
      subst h
      exact List.Perm.refl _
    | false =>
      simp only [hb] at h
      exact ((find?_perm_eraseP h).cons b).trans (List.Perm.swap a b _)

theorem find?_eraseP {α : Type} {p q : α → Bool} (hpq : ∀ a, p a = true → q a = false) :
    ∀ as : List α, (as.eraseP p).find? q = as.find? q
  | [] => rfl
  | a :: as => by
    rw [List.eraseP_cons]
    cases ha : p a with
    | true => simp [hpq a ha]
    | false => rw [cond_false, List.find?_cons, List.find?_cons, find?_eraseP hpq as]

/-- A cancelled chain consists of two transforms of the list; the others are left. -/
theorem cancelChain_eq_some {restriction : Restriction} {l n : Index} {ts rest : List Transform}
    (h : cancelChain restriction l ts = some (n, rest)) :
    ∃ s t, IsChain restriction l s t ∧ n = t.reference ∧ ts.Perm (s :: t :: rest) := by
  have hl : l.isKind .secondary = true := by
    by_contra hl
    simp [cancelChain, guard, hl, failure, Alternative.failure] at h
  simp only [cancelChain, hl, guard, if_true, Option.bind_eq_bind, Option.bind_eq_some_iff,
    Option.pure_def, Option.some.injEq, Prod.mk.injEq, exists_const, true_and] at h
  obtain ⟨s, hs, t, ht, rfl, rfl⟩ := h
  have hst : ∀ u : Transform, u.startsChain restriction l = true →
      u.endsChain restriction s.physical = false := by
    intro u hu
    simp only [Transform.startsChain, Transform.endsChain, Bool.and_eq_true, beq_iff_eq] at hu ⊢
    simp [hu.1.1.1]
  have ht' := find?_eraseP hst ts ▸ ht
  exact ⟨s, t, ⟨hl, List.find?_some hs, List.find?_some ht⟩, rfl,
    (find?_perm_eraseP hs).trans ((find?_perm_eraseP ht').cons s)⟩

/-! ### One derivative among others -/

/-- A derivative with all that stands before and after it among the basis functions of a
monomial. -/
structure DerivativePlace where
  before : List BasisFunction
  function : BasisFunction
  derivativesBefore : List Derivative
  derivative : Derivative
  derivativesAfter : List Derivative
  after : List BasisFunction

namespace DerivativePlace

/-- The basis functions with the derivative taken along `i`. -/
def along (p : DerivativePlace) (i : Index) : List BasisFunction :=
  p.before ++ { p.function with
    derivatives :=
      p.derivativesBefore ++ { p.derivative with index := i } :: p.derivativesAfter } ::
      p.after

def indicesBefore (p : DerivativePlace) : List Index :=
  indices p.before ++
    p.function.index :: (p.function.components ++ p.derivativesBefore.map (·.index))

def indicesAfter (p : DerivativePlace) : List Index :=
  p.derivativesAfter.map (·.index) ++ indices p.after

theorem indices_along (p : DerivativePlace) (i : Index) :
    indices (p.along i) = p.indicesBefore ++ i :: p.indicesAfter := by
  simp [along, indicesBefore, indicesAfter, indices_list, indices_basisFunction]

/-- Maps of indices change the direction of the derivative and the other indices independently. -/
theorem mapIndices_along (p : DerivativePlace) {f g : Index → Index} {i j : Index}
    (hij : f i = g j) (h : ∀ x ∈ p.indicesBefore ++ p.indicesAfter, f x = g x) :
    mapIndices f (p.along i) = mapIndices g (p.along j) := by
  simp only [indicesBefore, indicesAfter, List.mem_append, List.mem_cons, indices_list,
    List.mem_flatMap, List.mem_map] at h
  have hvs : ∀ vs : List BasisFunction, (∀ v ∈ vs, ∀ x ∈ indices v, f x = g x) →
      vs.map (mapIndices f) = vs.map (mapIndices g) := fun vs hvs =>
    List.map_congr_left fun v hv => mapIndices_congr (hvs v hv)
  have hds : ∀ ds : List Derivative, (∀ d ∈ ds, f d.index = g d.index) →
      ds.map (fun d => { d with index := f d.index }) =
        ds.map fun d => { d with index := g d.index } := fun ds hds =>
    List.map_congr_left fun d hd => by rw [hds d hd]
  have hcs : p.function.components.map f = p.function.components.map g :=
    List.map_congr_left fun x hx => h x (by simp [hx])
  rw [along, along, mapIndices_list, mapIndices_list, List.map_append, List.map_append,
    List.map_cons, List.map_cons, hvs p.before fun v hv x hx => h x (.inl (.inl ⟨v, hv, hx⟩)),
    hvs p.after fun v hv x hx => h x (.inr (.inr ⟨v, hv, hx⟩)), mapIndices_basisFunction,
    mapIndices_basisFunction]
  simp only [List.map_append, List.map_cons]
  rw [hds p.derivativesBefore fun d hd => h d.index (.inl (.inr (.inr (.inr ⟨d, hd, rfl⟩)))),
    hds p.derivativesAfter fun d hd => h d.index (.inr (.inl ⟨d, hd, rfl⟩)), hcs, hij,
    h p.function.index (.inl (.inr (.inl rfl)))]

end DerivativePlace

/-! ### Steps -/

namespace Monomial

variable {K : Type} {P : Index → Transform → Transform → Prop}

/-- The monomial with these basis functions and transforms in place of its own. -/
def withFactors (m : Monomial K) (vs : List BasisFunction) (ts : List Transform) : Monomial K :=
  { m with basisFunctions := vs, transforms := ts }

/-- One cancellation of a chain that satisfies `P`. -/
inductive CancelStep (P : Index → Transform → Transform → Prop) : Monomial K → Monomial K → Prop
  | mk {m : Monomial K} {s t : Transform} {ts rest : List Transform} (p : DerivativePlace) :
      IsChain p.function.restriction p.derivative.index s t → P p.derivative.index s t →
      ts.Perm (s :: t :: rest) →
      CancelStep P (m.withFactors (p.along p.derivative.index) ts)
        (m.withFactors (p.along t.reference) rest)

theorem cancelDerivatives_steps (m : Monomial K) (pre post : List BasisFunction)
    (v : BasisFunction) (es : List Derivative) :
    ∀ (ds : List Derivative) (ts : List Transform),
      (∀ d ∈ es, ∀ s ∈ ts, ∀ t ∈ ts, IsChain v.restriction d.index s t → P d.index s t) →
      Relation.ReflTransGen (CancelStep P)
        (m.withFactors (pre ++ { v with derivatives := ds ++ es } :: post) ts)
        (m.withFactors (pre ++ { v with
            derivatives := ds ++ (cancelDerivatives v.restriction es ts).1 } :: post)
          (cancelDerivatives v.restriction es ts).2) ∧
      ∀ t ∈ (cancelDerivatives v.restriction es ts).2, t ∈ ts := by
  induction es with
  | nil => exact fun ds ts _ => ⟨.refl, fun t ht => ht⟩
  | cons d es ih =>
    intro ds ts hP
    cases hc : cancelChain v.restriction d.index ts with
    | none =>
      simp only [cancelDerivatives, hc]
      have := ih (ds ++ [d]) ts fun e he => hP e (List.mem_cons_of_mem d he)
      simpa using this
    | some p =>
      obtain ⟨n, rest⟩ := p
      obtain ⟨s, t, hst, rfl, hperm⟩ := cancelChain_eq_some hc
      have hsub : ∀ u ∈ rest, u ∈ ts := fun u hu => hperm.symm.subset (by simp [hu])
      have hs : s ∈ ts := hperm.symm.subset (by simp)
      have ht : t ∈ ts := hperm.symm.subset (by simp)
      simp only [cancelDerivatives, hc]
      obtain ⟨h1, h2⟩ := ih (ds ++ [{ d with index := t.reference }]) rest
        fun e he u hu w hw => hP e (List.mem_cons_of_mem d he) u (hsub u hu) w (hsub w hw)
      have hstep := CancelStep.mk (m := m) ⟨pre, v, ds, d, es, post⟩ hst
        (hP d List.mem_cons_self s hs t ht hst) hperm
      refine ⟨Relation.ReflTransGen.head hstep ?_, fun u hu => hsub u (h2 u hu)⟩
      simpa [DerivativePlace.along] using h1

theorem cancelChains_steps (m : Monomial K) (vs : List BasisFunction) :
    ∀ (pre : List BasisFunction) (ts : List Transform),
      (∀ v ∈ vs, ∀ d ∈ v.derivatives, ∀ s ∈ ts, ∀ t ∈ ts,
        IsChain v.restriction d.index s t → P d.index s t) →
      Relation.ReflTransGen (CancelStep P) (m.withFactors (pre ++ vs) ts)
        (m.withFactors (pre ++ (cancelChains vs ts).1) (cancelChains vs ts).2) := by
  induction vs with
  | nil => exact fun pre ts _ => .refl
  | cons v vs ih =>
    intro pre ts hP
    simp only [cancelChains]
    obtain ⟨h1, h2⟩ := cancelDerivatives_steps (P := P) m pre vs v v.derivatives [] ts
      (hP v List.mem_cons_self)
    have h3 := ih (pre ++ [{ v with
        derivatives := (cancelDerivatives v.restriction v.derivatives ts).1 }])
      (cancelDerivatives v.restriction v.derivatives ts).2
      fun w hw d hd s hs t ht => hP w (List.mem_cons_of_mem v hw) d hd s (h2 s hs) t (h2 t ht)
    simp only [List.nil_append] at h1
    simp only [List.append_assoc, List.singleton_append] at h3
    exact h1.trans h3

/-- The chains of a monomial are cancelled one after the other.  What holds of all chains at the
start holds of each one that is cancelled. -/
theorem simplifyDerivatives_steps (m : Monomial K)
    (hP : ∀ v ∈ m.basisFunctions, ∀ d ∈ v.derivatives, ∀ s ∈ m.transforms, ∀ t ∈ m.transforms,
      IsChain v.restriction d.index s t → P d.index s t) :
    Relation.ReflTransGen (CancelStep P) m m.simplifyDerivatives :=
  cancelChains_steps m m.basisFunctions [] m.transforms hP

/-- What single cancellations keep holds after all of them. -/
theorem simplifyDerivatives_keeps {Q : Monomial K → Prop}
    (hQ : ∀ m n, CancelStep (fun _ _ _ => True) m n → Q m → Q n) {m : Monomial K} (h : Q m) :
    Q m.simplifyDerivatives := by
  have hs := m.simplifyDerivatives_steps (P := fun _ _ _ => True) (by simp)
  generalize m.simplifyDerivatives = n at hs
  induction hs with
  | refl => exact h
  | tail _ hstep ih => exact hQ _ _ hstep ih

theorem CancelStep.length_transforms {m n : Monomial K} (h : CancelStep P m n) :
    m.transforms.length = n.transforms.length + 2 := by
  cases h with
  | mk _ _ _ hts =>
    have := hts.length_eq
    simpa [withFactors] using this

theorem steps_eq_or_shorter {m n : Monomial K} (h : Relation.ReflTransGen (CancelStep P) m n) :
    n = m ∨ n.transforms.length < m.transforms.length := by
  induction h with
  | refl => exact .inl rfl
  | tail _ hs ih =>
    have := hs.length_transforms
    rcases ih with rfl | ih
    · exact .inr (by omega)
    · exact .inr (by omega)

theorem simplifyDerivatives_eq_or_shorter (m : Monomial K) :
    m.simplifyDerivatives = m ∨
      m.simplifyDerivatives.transforms.length < m.transforms.length :=
  steps_eq_or_shorter (m.simplifyDerivatives_steps (P := fun _ _ _ => True) (by simp))

/-! ### Indices -/

theorem indices_withFactors (m : Monomial K) (vs : List BasisFunction) (ts : List Transform) :
    (m.withFactors vs ts).indices =
      Indexed.indices vs ++ (Indexed.indices ts ++ Indexed.indices m.coefficients) := rfl

theorem mapIndices_withFactors (f : Index → Index) (m : Monomial K) (vs : List BasisFunction)
    (ts : List Transform) : mapIndices f (m.withFactors vs ts) =
      { m with
        basisFunctions := mapIndices f vs
        transforms := mapIndices f ts
        coefficients := mapIndices f m.coefficients } := by
  simp only [mapIndices_eq, withFactors, mapIndices_list]

theorem indices_withFactors_perm (m : Monomial K) (vs : List BasisFunction)
    {ts ts' : List Transform} (h : ts.Perm ts') :
    (m.withFactors vs ts).indices.Perm (m.withFactors vs ts').indices := by
  rw [indices_withFactors, indices_withFactors]
  exact ((h.flatMap_right Indexed.indices).append_right _).append_left _

/-- The indices of a monomial but those of a derivative and of the transforms of its chain. -/
def otherIndices (m : Monomial K) (p : DerivativePlace) (rest : List Transform) : List Index :=
  p.indicesBefore ++ (p.indicesAfter ++ (Indexed.indices rest ++ Indexed.indices m.coefficients))

theorem indices_along_perm (m : Monomial K) (p : DerivativePlace) (i : Index)
    (rest : List Transform) :
    (m.withFactors (p.along i) rest).indices.Perm (i :: m.otherIndices p rest) := by
  rw [indices_withFactors, p.indices_along, otherIndices, List.append_assoc, List.cons_append]
  exact List.perm_middle

theorem indices_chain_perm (m : Monomial K) (p : DerivativePlace) (i : Index) (s t : Transform)
    (rest : List Transform) :
    (m.withFactors (p.along i) (s :: t :: rest)).indices.Perm
      (i :: s.reference :: s.physical :: t.reference :: t.physical :: m.otherIndices p rest) := by
  refine (m.indices_along_perm p i _).trans ?_
  rw [List.perm_iff_count]
  intro j
  simp only [otherIndices, indices_list, List.flatMap_cons, indices_transform, List.count_append,
    List.count_cons, List.count_nil]
  omega

/-- A step takes the four indices of the chain away and puts the last one in the place of the
derivative's own. -/
theorem CancelStep.indices_perm {m n : Monomial K} (h : CancelStep P m n) :
    ∃ (l : Index) (s t : Transform) (others : List Index),
      m.indices.Perm (l :: s.reference :: s.physical :: t.reference :: t.physical :: others) ∧
      n.indices.Perm (t.reference :: others) := by
  cases h with
  | @mk m s t ts rest p _ _ hts =>
    exact ⟨p.derivative.index, s, t, m.otherIndices p rest,
      (m.indices_withFactors_perm _ hts).trans (m.indices_chain_perm p _ s t rest),
      m.indices_along_perm p _ rest⟩

end Monomial

end WeakForm
