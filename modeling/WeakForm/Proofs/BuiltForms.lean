import WeakForm.Proofs.TermAlgebra

/-!
# Forms built from basis functions

`Expr.Built` are the expressions that are made of scalars and basis functions by physical
derivatives, addition, subtraction, multiplication and integration.  What an operation does is read
off the products of its operands (`Expr.products`): it collects them, scales them, multiplies them
in pairs, or replaces them by the terms of the product rule (`Product.IsDerivative`).

In the products of such an expression the transforms are the pullbacks of derivatives: each one is
an entry of the inverse Jacobian, on the side of a basis function that is differentiated in its
reference direction (`Product.Paired`, `Expr.Built.paired`).
-/

namespace WeakForm

variable {K : Type}

/-! ### Products of an expression -/

namespace Product

/-- A term of the product rule for `p`: the basis function at a position is differentiated along a
slot, and the pullback to the physical direction is taken on its side. -/
def IsDerivative (direction : Index) (p q : Product K) : Prop :=
  ∃ position v index, p.basisFunctions[position]? = some v ∧ index.isFixed = false ∧
    q = { p with
      basisFunctions := p.basisFunctions.set position
        { v with derivatives := v.derivatives ++ [{ element := v.element, index }] }
      transforms := p.transforms ++ [⟨.inverse, index, direction, v.restriction⟩] }

end Product

/-- Every result of a stateful map is the result for one of the elements, in some state. -/
theorem mem_run_mapM {σ α β : Type} {f : α → StateM σ β} {l : List α} {s : σ} {b : β}
    (h : b ∈ ((l.mapM f).run s).1) : ∃ a ∈ l, ∃ s', b = ((f a).run s').1 := by
  induction l generalizing s with
  | nil => cases h
  | cons a l ih =>
    rw [List.mapM_cons] at h
    rcases List.mem_cons.mp h with rfl | h
    · exact ⟨a, List.mem_cons_self, s, rfl⟩
    · obtain ⟨x, hx, s', rfl⟩ := ih h
      exact ⟨x, List.mem_cons_of_mem a hx, s', rfl⟩

theorem Product.isDerivative_of_mem {p q : Product K} {direction : Index} {g : IndexGenerator}
    (h : q ∈ ((p.differentiate (Factor.derivative direction)).run g).1) :
    p.IsDerivative direction q := by
  obtain ⟨⟨v, position⟩, hv, g', rfl⟩ := mem_run_mapM h
  have hget : p.basisFunctions[position]? = some v := List.mk_mem_zipIdx_iff_getElem?.mp hv
  exact ⟨position, v, (g'.fresh .secondary (List.range v.element.space.shapeDimension)).1, hget,
    rfl, rfl⟩

namespace Expr

section
variable [One K]

/-- The products that an expression is the sum of. -/
def products : Expr K → List (Product K)
  | scalar _ => []
  | basis v => [Factor.toProduct { basisFunction := v }]
  | factor f => [f.toProduct]
  | product p => [p]
  | sum ps => ps
  | form f => f.monomials.map (·.toProduct)

theorem products_of_linear? {e : Expr K} {p : Product K} (h : e.linear? = some p) :
    e.products = [p] := by
  cases e <;> cases h <;> rfl

theorem products_of_terms? {e : Expr K} {ps : List (Product K)} (h : e.terms? = some ps) :
    e.products = ps := by
  cases e <;> cases h <;> rfl

/-- Differentiation replaces products by terms of the product rule. -/
theorem isDerivative_of_derivative {e r : Expr K} {direction : Index} {g g' : IndexGenerator}
    (h : e.derivative direction g = .ok (r, g')) :
    ∀ q ∈ r.products, ∃ p ∈ e.products, p.IsDerivative direction q := by
  cases e with
  | scalar _ =>
    cases h
    intro q hq
    cases hq
  | basis v =>
    cases h
    intro q hq
    obtain rfl := List.mem_singleton.mp hq
    exact ⟨_, List.mem_singleton_self _, 0, v, _, rfl, rfl, rfl⟩
  | factor f =>
    cases h
    intro q hq
    obtain rfl := List.mem_singleton.mp hq
    exact ⟨_, List.mem_singleton_self _, 0, f.basisFunction, _, rfl, rfl, rfl⟩
  | product p =>
    cases h
    intro q hq
    exact ⟨p, List.mem_singleton_self _, Product.isDerivative_of_mem hq⟩
  | sum ps =>
    cases h
    intro q hq
    obtain ⟨qs, hqs, hq⟩ := List.mem_flatten.mp hq
    obtain ⟨p, hp, g', rfl⟩ := mem_run_mapM hqs
    exact ⟨p, hp, Product.isDerivative_of_mem hq⟩
  | form _ => cases h

theorem products_integrate {e : Expr K} {integral : Integral} {f : Form K}
    (h : e.integrate integral = .ok f) : (form f).products = e.products := by
  unfold integrate at h
  split at h
  · rename_i ps hps
    cases h
    rw [products_of_terms? hps, products, List.map_map]
    exact List.map_id ps
  · cases h
  · cases h

theorem products_scaled? [Mul K] {e r : Expr K} {a : K} (h : e.scaled? a = some r) :
    r.products = e.products.map (·.scaled a) := by
  cases e <;> cases h <;> rfl

theorem products_neg [Neg K] [Mul K] (e : Expr K) :
    ∀ q ∈ e.neg.products, ∃ p ∈ e.products, ∃ c, q = { p with constant := c } := by
  intro q hq
  cases e with
  | scalar _ => cases hq
  | sum ps =>
    obtain ⟨p, hp, rfl⟩ := List.mem_map.mp hq
    exact ⟨p, hp, _, rfl⟩
  | form f =>
    obtain ⟨m, hm, rfl⟩ := List.mem_map.mp hq
    obtain ⟨n, hn, rfl⟩ := List.mem_map.mp hm
    exact ⟨n.toProduct, List.mem_map_of_mem hn, _, rfl⟩
  | _ =>
    obtain rfl := List.mem_singleton.mp hq
    exact ⟨_, List.mem_singleton_self _, _, rfl⟩

theorem products_add [Add K] {e f r : Expr K} (h : e.add f = .ok r) :
    r.products = e.products ++ f.products := by
  unfold add at h
  split at h
  · cases h
    rfl
  · cases h
    exact List.map_append
  · split at h
    · rename_i hps hqs
      cases h
      rw [products_of_terms? hps, products_of_terms? hqs]
      rfl
    · cases h

theorem products_mul [Mul K] {e f r : Expr K} (h : e.mul f = .ok r) :
    ∀ q ∈ r.products, (∃ p ∈ e.products ++ f.products, ∃ c, q = { p with constant := c }) ∨
      ∃ p ∈ e.products, ∃ p' ∈ f.products, q = p.times p' := by
  have hscaled : ∀ (e' r' : Expr K) (a : K), e'.scaled? a = some r' →
      e'.products ⊆ e.products ++ f.products →
      ∀ q ∈ r'.products, ∃ p ∈ e.products ++ f.products, ∃ c, q = { p with constant := c } := by
    intro e' r' a hr hsub q hq
    rw [products_scaled? hr] at hq
    obtain ⟨p, hp, rfl⟩ := List.mem_map.mp hq
    exact ⟨p, hsub hp, _, rfl⟩
  rcases mul_cases e f with hform | ⟨x, r', rfl, hf, h'⟩ | ⟨x, r', rfl, he, h'⟩ |
    ⟨p, p', he, hf, h'⟩ | ⟨ps, ps', he, hf, h'⟩
  · rw [mul_of_form hform] at h
    cases h
  · obtain rfl := Except.ok.inj (h'.symm.trans h)
    exact fun q hq => .inl (hscaled _ _ x hf (List.subset_append_right _ _) q hq)
  · obtain rfl := Except.ok.inj (h'.symm.trans h)
    exact fun q hq => .inl (hscaled _ _ x he (List.subset_append_left _ _) q hq)
  · obtain rfl := Except.ok.inj (h'.symm.trans h)
    intro q hq
    obtain rfl := List.mem_singleton.mp hq
    rw [products_of_linear? he, products_of_linear? hf]
    exact .inr ⟨p, List.mem_singleton_self p, p', List.mem_singleton_self p', rfl⟩
  · obtain rfl := Except.ok.inj (h'.symm.trans h)
    intro q hq
    obtain ⟨p, hp, hq⟩ := List.mem_flatMap.mp hq
    obtain ⟨p', hp', rfl⟩ := List.mem_map.mp hq
    rw [products_of_terms? he, products_of_terms? hf]
    exact .inr ⟨p, hp, p', hp', rfl⟩

variable [Neg K] [Add K] [Mul K]

/-- The expressions that are built from basis functions, up to forms. -/
inductive Built : Expr K → Prop
  | scalar (a : K) : Built (scalar a)
  | basis (v : BasisFunction) : Built (basis v)
  | derivative {e r : Expr K} {direction : Index} {g g' : IndexGenerator} :
      Built e → e.derivative direction g = .ok (r, g') → Built r
  | neg {e : Expr K} : Built e → Built e.neg
  | add {e f r : Expr K} : Built e → Built f → e.add f = .ok r → Built r
  | sub {e f r : Expr K} : Built e → Built f → e.sub f = .ok r → Built r
  | mul {e f r : Expr K} : Built e → Built f → e.mul f = .ok r → Built r
  | integrate {e : Expr K} {integral : Integral} {f : Form K} :
      Built e → e.integrate integral = .ok f → Built (form f)

end

end Expr

/-! ### Pullbacks and their derivatives -/

namespace Product

/-- Every transform is the pullback of a derivative: an entry of the inverse Jacobian, on the side
of a basis function that is differentiated in its reference direction. -/
def Paired (p : Product K) : Prop :=
  ∀ t ∈ p.transforms, t.kind = .inverse ∧ t.reference.isFixed = false ∧
    ∃ v ∈ p.basisFunctions, v.restriction = t.restriction ∧
      ∃ δ ∈ v.derivatives, δ.index = t.reference

theorem Paired.times [Mul K] {p q : Product K} (hp : p.Paired) (hq : q.Paired) :
    (p.times q).Paired := by
  intro t ht
  rcases List.mem_append.mp ht with ht | ht
  · obtain ⟨hk, hf, v, hv, h⟩ := hp t ht
    exact ⟨hk, hf, v, List.mem_append_left _ hv, h⟩
  · obtain ⟨hk, hf, v, hv, h⟩ := hq t ht
    exact ⟨hk, hf, v, List.mem_append_right _ hv, h⟩

theorem Paired.derivative {p q : Product K} {direction : Index} (hp : p.Paired)
    (h : p.IsDerivative direction q) : q.Paired := by
  obtain ⟨position, v, index, hv, hindex, rfl⟩ := h
  obtain ⟨hlt, rfl⟩ := List.getElem?_eq_some_iff.mp hv
  intro t ht
  rcases List.mem_append.mp ht with ht | ht
  · obtain ⟨hk, hf, w, hw, hr, δ, hδ, hi⟩ := hp t ht
    refine ⟨hk, hf, ?_⟩
    obtain ⟨n, hn, rfl⟩ := List.mem_iff_getElem.mp hw
    by_cases hp : position = n
    · -- the partner is the basis function that is differentiated once more
      subst hp
      exact ⟨_, List.mem_set hlt _, hr, δ, List.mem_append_left _ hδ, hi⟩
    · refine ⟨_, List.mem_iff_getElem.mpr ⟨n, by rw [List.length_set]; exact hn, ?_⟩, hr, δ, hδ, hi⟩
      rw [List.getElem_set_ne hp]
  · obtain rfl := List.mem_singleton.mp ht
    exact ⟨rfl, hindex, _, List.mem_set hlt _, rfl, _,
      List.mem_append_right _ (List.mem_singleton_self _), rfl⟩

end Product

/-- In the products of an expression that is built from basis functions, every transform is the
pullback of a derivative. -/
theorem Expr.Built.paired [One K] [Neg K] [Add K] [Mul K] {e : Expr K} (h : e.Built) :
    ∀ p ∈ e.products, p.Paired := by
  have hadd : ∀ {e f r : Expr K}, e.add f = .ok r → (∀ p ∈ e.products, p.Paired) →
      (∀ p ∈ f.products, p.Paired) → ∀ p ∈ r.products, p.Paired := by
    intro e f r hr he hf
    rw [products_add hr]
    exact List.forall_mem_append.mpr ⟨he, hf⟩
  have hneg : ∀ {e : Expr K}, (∀ p ∈ e.products, p.Paired) → ∀ p ∈ e.neg.products, p.Paired := by
    intro e he q hq
    obtain ⟨p, hp, c, rfl⟩ := products_neg e q hq
    exact he p hp
  induction h with
  | scalar a =>
    intro p hp
    cases hp
  | basis v =>
    intro p hp
    obtain rfl := List.mem_singleton.mp hp
    intro t ht
    cases ht
  | derivative _ hr ih =>
    intro q hq
    obtain ⟨p, hp, hpq⟩ := isDerivative_of_derivative hr q hq
    exact (ih p hp).derivative hpq
  | neg _ ih => exact hneg ih
  | add _ _ hr ihe ihf => exact hadd hr ihe ihf
  | sub _ _ hr ihe ihf => exact hadd hr ihe (hneg ihf)
  | mul _ _ hr ihe ihf =>
    intro q hq
    rcases products_mul hr q hq with ⟨p, hp, c, rfl⟩ | ⟨p, hp, p', hp', rfl⟩
    · rcases List.mem_append.mp hp with hp | hp
      · exact ihe p hp
      · exact ihf p hp
    · exact (ihe p hp).times (ihf p' hp')
  | integrate _ hr ih =>
    rw [products_integrate hr]
    exact ih

end WeakForm
