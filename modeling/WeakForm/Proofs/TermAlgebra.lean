import WeakForm.Expression
import WeakForm.Proofs.Valuation

/-!
# The term algebra

Under values for all factors, in a commutative ring, an expression has a value for every assignment
of values to its slots; there are no sums over slots here.  A form has one value for each integral
(`Expr.value`).  The operations on expressions are those of the ring (`Expr.term_algebra`), and fail
for the combinations without a meaning only.

Addition and multiplication look at their operands through the views `Expr.terms?` and
`Expr.linear?`.  A view keeps the value (`value_of_terms?`, `value_of_linear?`), and it is there for
all variants but those that the operations have set apart before (`terms?_eq_none_iff`,
`linear?_eq_none_iff`).
-/

namespace WeakForm

open Indexed

variable {R : Type} [CommRing R]

/-- Values of all factors of a product, once their indices are literals. -/
structure PointValues (R : Type) extends FactorValues R where
  basisFunction : BasisFunction → R

/-! ### Products -/

namespace Product

/-- The value of a product: its constant times the values of its factors. -/
def value (v : PointValues R) (a : Slot → ℕ) (p : Product R) : R :=
  p.constant * (resolvedProd v.basisFunction p.basisFunctions a * v.outer p a)

variable (v : PointValues R) (a : Slot → ℕ)

theorem value_scaled (p : Product R) (x : R) : (p.scaled x).value v a = p.value v a * x := by
  have houter : v.outer (p.scaled x) a = v.outer p a := rfl
  rw [value, houter, value]
  simp only [scaled]
  ring

theorem value_times (p q : Product R) : (p.times q).value v a = p.value v a * q.value v a := by
  simp only [value, times, FactorValues.outer, resolvedProd_append, List.map_append,
    List.prod_append]
  ring

/-- The value of a sum of products. -/
def sumValue (ps : List (Product R)) : R :=
  (ps.map (value v a)).sum

theorem sumValue_append (ps qs : List (Product R)) :
    sumValue v a (ps ++ qs) = sumValue v a ps + sumValue v a qs := by
  rw [sumValue, List.map_append, List.sum_append]
  rfl

theorem sumValue_scaled (ps : List (Product R)) (x : R) :
    sumValue v a (ps.map (·.scaled x)) = sumValue v a ps * x := by
  induction ps with
  | nil => simp [sumValue]
  | cons p ps ih =>
    simp only [sumValue, List.map_cons, List.sum_cons] at ih ⊢
    rw [ih, value_scaled, add_mul]

theorem sumValue_times (p : Product R) (qs : List (Product R)) :
    sumValue v a (qs.map p.times) = p.value v a * sumValue v a qs := by
  induction qs with
  | nil => simp [sumValue]
  | cons q qs ih =>
    simp only [sumValue, List.map_cons, List.sum_cons] at ih ⊢
    rw [ih, value_times, mul_add]

theorem sumValue_mulTerms (ps qs : List (Product R)) :
    sumValue v a (Expr.mulTerms ps qs) = sumValue v a ps * sumValue v a qs := by
  induction ps with
  | nil => simp [sumValue, Expr.mulTerms]
  | cons p ps ih =>
    have hcons : Expr.mulTerms (p :: ps) qs = qs.map p.times ++ Expr.mulTerms ps qs :=
      List.flatMap_cons
    have hp : sumValue v a (p :: ps) = p.value v a + sumValue v a ps := List.sum_cons
    rw [hcons, sumValue_append, sumValue_times, ih, hp, add_mul]

end Product

/-! ### Expressions -/

namespace Expr

theorem length_mulTerms (ps qs : List (Product R)) :
    (mulTerms ps qs).length = ps.length * qs.length := by
  rw [mulTerms, List.length_flatMap]
  simp only [List.length_map, List.map_const', List.sum_replicate_nat]

/-- The products stand in left-major order. -/
theorem getElem?_mulTerms {ps qs : List (Product R)} {i j : ℕ} {p q : Product R}
    (hp : ps[i]? = some p) (hq : qs[j]? = some q) :
    (mulTerms ps qs)[i * qs.length + j]? = some (p.times q) := by
  have hj : j < qs.length := (List.getElem?_eq_some_iff.mp hq).1
  have hcons : ∀ p' ps', mulTerms (p' :: ps') qs = qs.map p'.times ++ mulTerms ps' qs :=
    fun _ _ => List.flatMap_cons
  induction ps generalizing i with
  | nil => cases hp
  | cons p' ps ih =>
    rw [hcons]
    cases i with
    | zero =>
      cases hp
      rw [Nat.zero_mul, Nat.zero_add, List.getElem?_append_left (by simpa using hj),
        List.getElem?_map, hq]
      rfl
    | succ i =>
      rw [List.getElem?_cons_succ] at hp
      have hskip : (i + 1) * qs.length + j - qs.length = i * qs.length + j := by
        rw [Nat.succ_mul]
        omega
      rw [List.getElem?_append_right (by rw [List.length_map, Nat.succ_mul]; omega),
        List.length_map, hskip]
      exact ih hp

/-- The value of an expression; that of a form is taken on one integral. -/
def value (v : PointValues R) (i : Integral) (a : Slot → ℕ) : Expr R → R
  | scalar x => x
  | basis b => v.basisFunction (mapIndices (Index.resolve a) b)
  | factor f =>
    v.basisFunction (mapIndices (Index.resolve a) f.basisFunction) *
      resolvedProd v.transform f.transforms a
  | product p => p.value v a
  | sum ps => Product.sumValue v a ps
  | form f => (f.monomials.map fun m => if m.integral = i then m.toProduct.value v a else 0).sum

variable (v : PointValues R) (i : Integral) (a : Slot → ℕ)

/-! ### Views -/

theorem linear?_eq_none_iff {e : Expr R} :
    e.linear? = none ↔ e.kind = .scalar ∨ e.kind = .sum ∨ e.kind = .form := by
  cases e <;> simp [linear?, kind]

theorem terms?_eq_none_iff {e : Expr R} :
    e.terms? = none ↔ e.kind = .scalar ∨ e.kind = .form := by
  cases e <;> simp [terms?, linear?, kind]

theorem value_of_linear? {e : Expr R} {p : Product R} (h : e.linear? = some p) :
    e.value v i a = p.value v a := by
  cases e with
  | scalar _ => cases h
  | basis b =>
    cases h
    simp [value, Product.value, FactorValues.outer, Factor.toProduct, resolvedProd]
  | factor f =>
    cases h
    simp [value, Product.value, FactorValues.outer, Factor.toProduct, resolvedProd]
  | product q =>
    cases h
    rfl
  | sum _ => cases h
  | form _ => cases h

theorem value_of_terms? {e : Expr R} {ps : List (Product R)} (h : e.terms? = some ps) :
    e.value v i a = Product.sumValue v a ps := by
  by_cases hs : ∃ qs, e = sum qs
  · obtain ⟨qs, rfl⟩ := hs
    cases h
    rfl
  · have hl : e.terms? = e.linear?.map fun p => [p] := by
      cases e with
      | sum qs => exact absurd ⟨qs, rfl⟩ hs
      | _ => rfl
    rw [hl, Option.map_eq_some_iff] at h
    obtain ⟨p, hp, rfl⟩ := h
    rw [value_of_linear? v i a hp]
    simp [Product.sumValue]

theorem value_of_scaled? {e r : Expr R} {x : R} (h : e.scaled? x = some r) :
    r.value v i a = e.value v i a * x := by
  have hlinear : ∀ (e : Expr R), (e.linear?.map fun p => product (p.scaled x)) = some r →
      r.value v i a = e.value v i a * x := by
    intro e h
    obtain ⟨p, hp, rfl⟩ := Option.map_eq_some_iff.mp h
    rw [value_of_linear? v i a hp]
    exact p.value_scaled v a x
  cases e with
  | scalar y =>
    cases h
    rfl
  | sum ps =>
    cases h
    exact Product.sumValue_scaled v a ps x
  | basis b => exact hlinear _ h
  | factor f => exact hlinear _ h
  | product p => exact hlinear _ h
  | form f => cases h

/-! ### Forms -/

theorem value_form_append (f g : Form R) :
    (form (f ++ g)).value v i a = (form f).value v i a + (form g).value v i a := by
  have hmap : (f ++ g).monomials = f.monomials ++ g.monomials := rfl
  simp only [value, hmap, List.map_append, List.sum_append]

theorem value_form_neg (f : Form R) :
    (form (f.map fun m => ({ m with constant := -m.constant } : Monomial R))).value v i a =
      -(form f).value v i a := by
  obtain ⟨ms⟩ := f
  simp only [value, Form.monomials_map]
  induction ms with
  | nil => simp
  | cons m ms ih =>
    rw [List.map_cons, List.map_cons, List.sum_cons, ih, List.map_cons, List.sum_cons, neg_add]
    congr 1
    split
    · rw [Product.value, Product.value, neg_mul]
      rfl
    · rw [neg_zero]

theorem value_neg (e : Expr R) : e.neg.value v i a = -e.value v i a := by
  have hlinear : ∀ (e : Expr R) (p : Product R), e.linear? = some p →
      (product (p.scaled (-1))).value v i a = -e.value v i a := by
    intro e p hp
    rw [value_of_linear? v i a hp, value, Product.value_scaled, mul_neg_one]
  cases e with
  | scalar x => rfl
  | basis b => exact hlinear _ _ rfl
  | factor f => exact hlinear _ _ rfl
  | product p => exact hlinear _ _ rfl
  | sum ps => rw [neg, value, Product.sumValue_scaled, mul_neg_one, value]
  | form f => exact value_form_neg v i a f

/-! ### Operations -/

/-- One operand is a form and the other is not, or one is a scalar and the other is not. -/
def Mixed (e f : Expr R) : Prop :=
  ¬ (e.kind = .form ↔ f.kind = .form) ∨ ¬ (e.kind = .scalar ↔ f.kind = .scalar)

theorem mixed_neg {e f : Expr R} : e.Mixed f.neg ↔ e.Mixed f := by
  have hform : f.neg.kind = .form ↔ f.kind = .form := by cases f <;> simp [neg, kind]
  have hscalar : f.neg.kind = .scalar ↔ f.kind = .scalar := by cases f <;> simp [neg, kind]
  rw [Mixed, hform, hscalar, Mixed]

/-- What addition does: the operands are both scalars, both forms or both sums of products, or they
are mixed. -/
theorem add_cases (e f : Expr R) :
    (∃ x y, e = scalar x ∧ f = scalar y ∧ e.add f = .ok (scalar (x + y))) ∨
    (∃ g h, e = form g ∧ f = form h ∧ e.add f = .ok (form (g ++ h))) ∨
    (∃ ps qs, e.terms? = some ps ∧ f.terms? = some qs ∧ e.add f = .ok (sum (ps ++ qs))) ∨
    e.Mixed f ∧ e.add f = .error (.termAlgebra (.cannotAdd e.kind f.kind)) := by
  cases e with
  | scalar x =>
    cases f with
    | scalar y => exact .inl ⟨x, y, rfl, rfl, rfl⟩
    | _ => exact .inr (.inr (.inr ⟨.inr (by simp [kind]), rfl⟩))
  | form g =>
    cases f with
    | form h => exact .inr (.inl ⟨g, h, rfl, rfl, rfl⟩)
    | _ => exact .inr (.inr (.inr ⟨.inl (by simp [kind]), rfl⟩))
  | _ =>
    cases f with
    | scalar y => exact .inr (.inr (.inr ⟨.inr (by simp [kind]), rfl⟩))
    | form h => exact .inr (.inr (.inr ⟨.inl (by simp [kind]), rfl⟩))
    | _ => exact .inr (.inr (.inl ⟨_, _, rfl, rfl, rfl⟩))

/-- What multiplication does: one operand is a form, one is a scalar that multiplies the other one,
both are single products, or both are sums of products. -/
theorem mul_cases {K : Type} [One K] [Mul K] (e f : Expr K) :
    (e.kind = .form ∨ f.kind = .form) ∨
    (∃ x r, e = scalar x ∧ f.scaled? x = some r ∧ e.mul f = .ok r) ∨
    (∃ x r, f = scalar x ∧ e.scaled? x = some r ∧ e.mul f = .ok r) ∨
    (∃ p q, e.linear? = some p ∧ f.linear? = some q ∧ e.mul f = .ok (product (p.times q))) ∨
    ∃ ps qs, e.terms? = some ps ∧ f.terms? = some qs ∧ e.mul f = .ok (sum (mulTerms ps qs)) := by
  cases e with
  | scalar x =>
    cases f with
    | form h => exact .inl (.inr rfl)
    | _ => exact .inr (.inl ⟨x, _, rfl, rfl, rfl⟩)
  | form g => exact .inl (.inl rfl)
  | sum ps =>
    cases f with
    | form h => exact .inl (.inr rfl)
    | scalar y => exact .inr (.inr (.inl ⟨y, _, rfl, rfl, rfl⟩))
    | _ => exact .inr (.inr (.inr (.inr ⟨_, _, rfl, rfl, rfl⟩)))
  | _ =>
    cases f with
    | form h => exact .inl (.inr rfl)
    | scalar y => exact .inr (.inr (.inl ⟨y, _, rfl, rfl, rfl⟩))
    | sum qs => exact .inr (.inr (.inr (.inr ⟨_, _, rfl, rfl, rfl⟩)))
    | _ => exact .inr (.inr (.inr (.inl ⟨_, _, rfl, rfl, rfl⟩)))

/-- The computation returns an expression with these values. -/
def Returns (c : Except (FormError R) (Expr R))
    (values : PointValues R → Integral → (Slot → ℕ) → R) : Prop :=
  ∃ r, c = .ok r ∧ ∀ v i a, r.value v i a = values v i a

theorem kind_of_terms? {e : Expr R} {ps : List (Product R)} (h : e.terms? = some ps) :
    e.kind ≠ .scalar ∧ e.kind ≠ .form := by
  rw [← not_or, ← terms?_eq_none_iff, h]
  simp

theorem add_of_mixed {e f : Expr R} (h : e.Mixed f) :
    e.add f = .error (.termAlgebra (.cannotAdd e.kind f.kind)) := by
  rcases add_cases e f with ⟨x, y, rfl, rfl, -⟩ | ⟨g, k, rfl, rfl, -⟩ | ⟨ps, qs, he, hf, -⟩ | ⟨-, h⟩
  · simp [Mixed, kind] at h
  · simp [Mixed, kind] at h
  · simp [Mixed, kind_of_terms? he, kind_of_terms? hf] at h
  · exact h

theorem add_returns {e f : Expr R} (h : ¬ e.Mixed f) :
    Returns (e.add f) fun v i a => e.value v i a + f.value v i a := by
  rcases add_cases e f with ⟨x, y, rfl, rfl, h'⟩ | ⟨g, k, rfl, rfl, h'⟩ | ⟨ps, qs, he, hf, h'⟩ | h'
  · exact ⟨_, h', fun _ _ _ => rfl⟩
  · exact ⟨_, h', fun v i a => value_form_append v i a g k⟩
  · refine ⟨_, h', fun v i a => ?_⟩
    show _ = e.value v i a + f.value v i a
    rw [value_of_terms? v i a he, value_of_terms? v i a hf]
    exact Product.sumValue_append v a ps qs
  · exact absurd h'.1 h

theorem mul_of_form {K : Type} [One K] [Mul K] {e f : Expr K}
    (h : e.kind = .form ∨ f.kind = .form) :
    e.mul f = .error (.termAlgebra (.cannotMultiply e.kind f.kind)) := by
  cases e with
  | form g => cases f <;> rfl
  | _ =>
    cases f with
    | form k => rfl
    | _ => simp [kind] at h

theorem mul_returns {e f : Expr R} (h : ¬ (e.kind = .form ∨ f.kind = .form)) :
    Returns (e.mul f) fun v i a => e.value v i a * f.value v i a := by
  rcases mul_cases e f with h' | ⟨x, r, rfl, hf, h'⟩ | ⟨x, r, rfl, he, h'⟩ | ⟨p, q, he, hf, h'⟩ |
    ⟨ps, qs, he, hf, h'⟩
  · exact absurd h' h
  · refine ⟨r, h', fun v i a => ?_⟩
    rw [value_of_scaled? v i a hf, mul_comm]
    rfl
  · exact ⟨r, h', fun v i a => value_of_scaled? v i a he⟩
  · refine ⟨_, h', fun v i a => ?_⟩
    show _ = e.value v i a * f.value v i a
    rw [value_of_linear? v i a he, value_of_linear? v i a hf]
    exact p.value_times v a q
  · refine ⟨_, h', fun v i a => ?_⟩
    show _ = e.value v i a * f.value v i a
    rw [value_of_terms? v i a he, value_of_terms? v i a hf]
    exact Product.sumValue_mulTerms v a ps qs

/-- The operations on expressions are those of the ring.  Addition and subtraction fail for mixed
operands, multiplication for forms, and nothing else fails.  In all other cases the values are
added, subtracted, multiplied or negated.  The product of two sums has the concatenations of their
terms as its terms, in left-major order.  An expression has a single product unless it is a scalar,
a sum or a form, and terms unless it is a scalar or a form. -/
theorem term_algebra (e f : Expr R) (x : R) :
    (e.Mixed f → e.add f = .error (.termAlgebra (.cannotAdd e.kind f.kind)) ∧
      e.sub f = .error (.termAlgebra (.cannotAdd e.kind f.neg.kind))) ∧
    (¬ e.Mixed f → Returns (e.add f) (fun v i a => e.value v i a + f.value v i a) ∧
      Returns (e.sub f) fun v i a => e.value v i a - f.value v i a) ∧
    (e.kind = .form ∨ f.kind = .form →
      e.mul f = .error (.termAlgebra (.cannotMultiply e.kind f.kind))) ∧
    (¬ (e.kind = .form ∨ f.kind = .form) →
      Returns (e.mul f) fun v i a => e.value v i a * f.value v i a) ∧
    (e.kind ≠ .form → Returns ((scalar x).mul e) fun v i a => x * e.value v i a) ∧
    (∀ (v : PointValues R) (i : Integral) (a : Slot → ℕ),
      e.neg.value v i a = -e.value v i a) ∧
    (∀ ps qs : List (Product R), ∃ rs, (sum ps).mul (sum qs) = .ok (sum rs) ∧
      rs.length = ps.length * qs.length ∧
      ∀ (j k : ℕ) (p q : Product R), ps[j]? = some p → qs[k]? = some q →
        rs[j * qs.length + k]? = some
          { constant := p.constant * q.constant
            basisFunctions := p.basisFunctions ++ q.basisFunctions
            transforms := p.transforms ++ q.transforms
            coefficients := p.coefficients ++ q.coefficients
            determinants := p.determinants ++ q.determinants }) ∧
    (e.linear? = none ↔ e.kind = .scalar ∨ e.kind = .sum ∨ e.kind = .form) ∧
    (e.terms? = none ↔ e.kind = .scalar ∨ e.kind = .form) := by
  refine ⟨fun h => ⟨add_of_mixed h, add_of_mixed (mixed_neg.mpr h)⟩, fun h => ⟨add_returns h, ?_⟩,
    mul_of_form, mul_returns, fun h => ?_, fun v i a => value_neg v i a e, fun ps qs => ?_,
    linear?_eq_none_iff, terms?_eq_none_iff⟩
  · obtain ⟨r, hr, hv⟩ := add_returns (mt mixed_neg.mp h)
    refine ⟨r, hr, fun v i a => ?_⟩
    rw [hv]
    show _ + f.neg.value v i a = _ - _
    rw [value_neg, sub_eq_add_neg]
  · exact mul_returns (e := scalar x) (not_or.mpr ⟨nofun, h⟩)
  · exact ⟨mulTerms ps qs, rfl, length_mulTerms ps qs, fun _ _ _ _ => getElem?_mulTerms⟩

end Expr

end WeakForm
