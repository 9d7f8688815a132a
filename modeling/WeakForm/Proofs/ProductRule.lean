import WeakForm.Proofs.BoundValues

/-!
# The product rule

With the slots bound that a physical derivative takes from the generator, a derivative is a
derivation: it obeys the product rule, is additive, vanishes on scalars and treats all factors but
basis functions as constants (`Expr.IsDerivation`).  On a basis function it is the chain rule, the
sum over the reference directions of the derivatives times entries of the inverse Jacobian
(`Expr.derivative_isDerivation`).  Derivatives in reference directions obey the same laws, with no
slots bound.

All laws follow from one formula for the value of a derivative, a sum over the basis functions of
each product (`Product.ruleValue`, `Expr.FollowsRule`).
-/

namespace WeakForm

open Indexed

variable {R : Type} [CommRing R]

/-! ### The value of a derivative -/

/-- The sum over the elements of a list of the derivative of one times the values of the others. -/
def leibniz {β : Type} (V D : β → R) : List β → R
  | [] => 0
  | b :: bs => D b * (bs.map V).prod + V b * leibniz V D bs

theorem leibniz_append {β : Type} (V D : β → R) (xs ys : List β) :
    leibniz V D (xs ++ ys) =
      leibniz V D xs * (ys.map V).prod + (xs.map V).prod * leibniz V D ys := by
  induction xs with
  | nil => simp [leibniz]
  | cons x xs ih =>
    simp only [List.cons_append, leibniz, ih, List.map_append, List.prod_append, List.map_cons,
      List.prod_cons]
    ring

theorem sum_zipIdx_leibniz {β : Type} (V D : β → R) (bs : List β) :
    (bs.zipIdx.map fun (b, k) => D b * ((bs.eraseIdx k).map V).prod).sum = leibniz V D bs := by
  induction bs with
  | nil => rfl
  | cons b bs ih =>
    -- the places of the tail are those of the whole list, one further on
    have htail : ((bs.zipIdx.map (Prod.map id (· + 1))).map fun (b', k) =>
        D b' * (((b :: bs).eraseIdx k).map V).prod).sum = V b * leibniz V D bs := by
      rw [← ih, List.map_map, ← List.sum_map_mul_left]
      refine congrArg List.sum (List.map_congr_left fun q _ => ?_)
      simp only [Function.comp_apply, Prod.map, id, List.eraseIdx_cons_succ, List.map_cons,
        List.prod_cons]
      ring
    rw [List.zipIdx_cons', List.map_cons, List.sum_cons, htail, leibniz]
    rfl

namespace Product

/-- The value of the derivative of a product, given the values of the derivatives of basis
functions: all other factors are constants. -/
def ruleValue (v : PointValues R) (a : Slot → ℕ) (D : BasisFunction → R) (p : Product R) : R :=
  p.constant * (leibniz (fun b => v.basisFunction (mapIndices (Index.resolve a) b)) D
    p.basisFunctions * v.outer p a)

variable (v : PointValues R) (a : Slot → ℕ) (D : BasisFunction → R)

theorem ruleValue_scaled (p : Product R) (x : R) :
    (p.scaled x).ruleValue v a D = p.ruleValue v a D * x := by
  have houter : v.outer (p.scaled x) a = v.outer p a := rfl
  rw [ruleValue, houter, ruleValue]
  simp only [scaled]
  ring

theorem ruleValue_times (p q : Product R) : (p.times q).ruleValue v a D =
    p.ruleValue v a D * q.value v a + p.value v a * q.ruleValue v a D := by
  simp only [ruleValue, value, times, FactorValues.outer, resolvedProd, leibniz_append,
    List.map_append, List.prod_append]
  ring

end Product

namespace FunctionPlace

variable {s : FunctionPlace R} {v : PointValues R} {a : Slot → ℕ}

/-- The value of all factors of the product but the basis function at the place. -/
def restValue (v : PointValues R) (a : Slot → ℕ) (s : FunctionPlace R) : R :=
  s.product.constant * (resolvedProd v.basisFunction (s.product.basisFunctions.eraseIdx s.position)
    a * v.outer s.product a)

theorem value_replace (h : s.product.basisFunctions[s.position]? = some s.function) (f : Factor) :
    (s.replace f).value v a = v.basisFunction (mapIndices (Index.resolve a) f.basisFunction) *
      resolvedProd v.transform f.transforms a * s.restValue v a := by
  obtain ⟨hlt, -⟩ := List.getElem?_eq_some_iff.mp h
  have hset : resolvedProd v.basisFunction
      (s.product.basisFunctions.set s.position f.basisFunction) a =
      v.basisFunction (mapIndices (Index.resolve a) f.basisFunction) *
        resolvedProd v.basisFunction (s.product.basisFunctions.eraseIdx s.position) a := by
    rw [resolvedProd, ((List.set_perm_cons_eraseIdx hlt f.basisFunction).map _).prod_eq,
      List.map_cons, List.prod_cons]
    rfl
  simp only [Product.value, replace, FactorValues.outer, hset, resolvedProd_append, restValue]
  ring

/-- The sum over all places of a product is the product rule. -/
theorem sum_places (D : BasisFunction → R) (p : Product R) :
    (p.places.map fun s => D s.function * s.restValue v a).sum = p.ruleValue v a D := by
  rw [Product.ruleValue, ← sum_zipIdx_leibniz, Product.places, List.map_map, mul_comm,
    mul_assoc, ← List.sum_map_mul_right]
  refine congrArg List.sum (List.map_congr_left fun q _ => ?_)
  simp only [Function.comp_apply, restValue, resolvedProd]
  ring

end FunctionPlace

/-! ### The value of a term -/

/-- The chain rule: the sum over the reference directions of an entry of the inverse Jacobian, on
the side of the basis function, times the derivative in that direction. -/
def PointValues.chainRule (v : PointValues R) (a : Slot → ℕ) (direction : Index)
    (b : BasisFunction) : R :=
  ∑ x ∈ Finset.range b.element.space.shapeDimension,
    v.transform ⟨.inverse, .fixed x, direction.resolve a, b.restriction⟩ *
      v.basisFunction (mapIndices (Index.resolve a) (b.appendDerivative (.fixed x)))

theorem BasisFunction.mapIndices_appendDerivative (f : Index → Index) (b : BasisFunction)
    (i : Index) :
    mapIndices f (b.appendDerivative i) = (mapIndices f b).appendDerivative (f i) := by
  rw [mapIndices_basisFunction, mapIndices_basisFunction]
  simp only [appendDerivative, List.map_append, List.map_cons, List.map_nil]

namespace FunctionPlace

variable {s : FunctionPlace R} {v : PointValues R} {a : Slot → ℕ} {direction : Index} {N id : ℕ}

theorem restValue_congr {b : Slot → ℕ} (h : ∀ i ∈ indices s.product, i.valueIn a = i.valueIn b) :
    s.restValue v a = s.restValue v b := by
  have hsub : ∀ i ∈ indices (s.product.basisFunctions.eraseIdx s.position),
      i ∈ indices s.product := by
    intro i hi
    obtain ⟨b', hb, hi⟩ := List.mem_flatMap.mp hi
    exact List.mem_append_left _ (List.mem_flatMap.mpr ⟨b', List.mem_of_mem_eraseIdx hb, hi⟩)
  rw [restValue, restValue, v.outer_congr h, resolvedProd_congr fun i hi => h i (hsub i hi)]

/-- The value of a term where the slot along which it is taken has a value. -/
theorem value_derivative_update (h : s.product.basisFunctions[s.position]? = some s.function)
    (havoids : s.product.Avoids (freshSlot N)) (hdirection : direction.Avoids (freshSlot N))
    (hid : N ≤ id) (x : ℕ) :
    (s.derivative direction id).value v (Function.update a ⟨.secondary, id⟩ x) =
      v.transform ⟨.inverse, .fixed x, direction.resolve a, s.function.restriction⟩ *
        v.basisFunction (mapIndices (Index.resolve a) (s.function.appendDerivative (.fixed x))) *
        s.restValue v a := by
  -- the slot of the term is fresh, so all other indices keep their values
  have hkept : ∀ t, freshSlot N t = false → Function.update a ⟨.secondary, id⟩ x t = a t := by
    intro t ht
    refine Function.update_of_ne ?_ _ _
    rintro rfl
    rw [freshSlot_iff.mpr ⟨rfl, hid⟩] at ht
    cases ht
  have hvalue : ∀ i : Index, i.Avoids (freshSlot N) →
      i.resolve (Function.update a ⟨.secondary, id⟩ x) = i.resolve a := fun i hi => by
    rw [Index.resolve, hi.valueIn_eq hkept, Index.resolve]
  have hslot : (s.function.referenceSlot id).resolve (Function.update a ⟨.secondary, id⟩ x) =
      .fixed x := congrArg Index.fixed (Function.update_self _ _ _)
  have hfunction : ∀ i ∈ indices s.function,
      i.resolve (Function.update a ⟨.secondary, id⟩ x) = i.resolve a := fun i hi =>
    hvalue i (havoids i (List.mem_append_left _
      (List.mem_flatMap.mpr ⟨_, List.mem_of_getElem? h, hi⟩)))
  rw [derivative, value_replace h, restValue_congr fun i hi => (havoids i hi).valueIn_eq hkept]
  simp only [BasisFunction.pullback, resolvedProd, List.map_cons, List.map_nil, List.prod_cons,
    List.prod_nil, mul_one, mapIndices_transform, BasisFunction.mapIndices_appendDerivative,
    hslot, hvalue direction hdirection, mapIndices_congr hfunction]
  rw [mul_comm (v.basisFunction _)]
  rfl

/-- A term of a physical derivative is summed over the slot along which it is taken. -/
theorem valueOver_derivative (h : s.product.basisFunctions[s.position]? = some s.function)
    (havoids : s.product.Avoids (freshSlot N)) (hdirection : direction.Avoids (freshSlot N))
    (hid : N ≤ id) : (s.derivative direction id).valueOver (freshSlot N) v a =
      v.chainRule a direction s.function * s.restValue v a := by
  have hmem := fun i => (s.indices_derivative h direction id).mem_iff (a := i)
  have honly : ∀ i ∈ indices (s.derivative direction id), ∀ t, i.slot? = some t →
      freshSlot N t = true → i = s.function.referenceSlot id := by
    intro i hi t ht hfresh
    simp only [hmem, List.mem_cons] at hi
    rcases hi with rfl | rfl | rfl | hi
    · rfl
    · rfl
    · exact absurd ht (hdirection.slot?_ne hfresh)
    · exact absurd ht ((havoids i hi).slot?_ne hfresh)
  have hself : s.function.referenceSlot id ∈ indices (s.derivative direction id) :=
    (hmem _).mpr List.mem_cons_self
  have hslots : ((s.derivative direction id).boundSlots (freshSlot N)).Perm
      [⟨.secondary, id⟩] := by
    rw [List.perm_ext_iff_of_nodup Product.nodup_boundSlots (List.nodup_singleton _)]
    intro t
    rw [Product.mem_boundSlots, List.mem_singleton]
    constructor
    · rintro ⟨⟨i, hi, ht⟩, -, hfresh⟩
      rw [honly i hi t ht hfresh] at ht
      exact (Option.some.inj ht).symm
    · rintro rfl
      exact ⟨⟨_, hself, rfl⟩, rfl, freshSlot_iff.mpr ⟨rfl, hid⟩⟩
  have hvalues : slotValues (indices (s.derivative direction id)) ⟨.secondary, id⟩ =
      Finset.range s.function.element.space.shapeDimension := by
    ext x
    rw [mem_slotValues, Finset.mem_range, ← List.mem_range]
    constructor
    · rintro ⟨i, hi, ht, hx⟩
      rwa [honly i hi _ ht (freshSlot_iff.mpr ⟨rfl, hid⟩)] at hx
    · exact fun hx => ⟨_, hself, rfl, hx⟩
  rw [Product.valueOver, Product.sumBound, sumOver_perm _ hslots, sumOver_cons, hvalues,
    PointValues.chainRule, Finset.sum_mul]
  exact Finset.sum_congr rfl fun x _ => value_derivative_update h havoids hdirection hid x

end FunctionPlace

/-! ### Derivations -/

namespace Expr

/-- The sum of the products of the derivative of one operand with the other one. -/
def productRule (differentiate differentiate' : Expr R → Except (FormError R) (Expr R))
    (e f : Expr R) : Except (FormError R) (Expr R) := do
  let e' ← differentiate e
  let f' ← differentiate' f
  (← e'.mul f).add (← e.mul f')

/-- The laws of a derivative that is taken in one of several ways, for the values with these slots
bound and for expressions in which they do not occur.  `D` is the derivative of basis functions. -/
structure IsDerivation {ι : Type} (bound : Slot → Bool) (v : PointValues R) (a : Slot → ℕ)
    (differentiate : ι → Expr R → Except (FormError R) (Expr R)) (D : BasisFunction → R) :
    Prop where
  /-- The product rule. -/
  mul : ∀ {e f r : Expr R}, e.Avoids bound → f.Avoids bound → e.mul f = .ok r → ∀ i j k,
    ∃ s t, differentiate i r = .ok s ∧
      productRule (differentiate j) (differentiate k) e f = .ok t ∧
      s.valueOver bound v a = t.valueOver bound v a
  /-- The derivative of a sum. -/
  add : ∀ {e f r : Expr R}, e.kind ≠ .form → f.kind ≠ .form → e.Avoids bound → f.Avoids bound →
    e.add f = .ok r → ∀ i j k, ∃ s t, differentiate i r = .ok s ∧
      (do (← differentiate j e).add (← differentiate k f)) = .ok t ∧
      s.valueOver bound v a = t.valueOver bound v a
  /-- Scalars are constants. -/
  scalar : ∀ i x, ∃ r, differentiate i (scalar x) = .ok r ∧ r.valueOver bound v a = 0
  basis : ∀ i b, (basis b : Expr R).Avoids bound → ∃ r, differentiate i (basis b) = .ok r ∧
    r.valueOver bound v a = D b
  /-- The transforms of a factor are constants. -/
  factor : ∀ i f, (factor f : Expr R).Avoids bound → ∃ r, differentiate i (factor f) = .ok r ∧
    r.valueOver bound v a = D f.basisFunction * resolvedProd v.transform f.transforms a
  /-- All factors of a product but its basis functions are constants. -/
  product : ∀ i j p, (product p).Avoids bound → ∃ r s, differentiate i (product p) = .ok r ∧
    differentiate j (product { constant := 1, basisFunctions := p.basisFunctions }) = .ok s ∧
    r.valueOver bound v a = p.constant * v.outer p a * s.valueOver bound v a
  /-- Forms have been integrated. -/
  form : ∀ i f, differentiate i (form f) = .error (.termAlgebra .cannotDifferentiate)
  /-- The values of expressions that have not been differentiated have no sums. -/
  value_eq : ∀ (e : Expr R) (i : Integral), e.kind ≠ .form → e.Avoids bound →
    e.valueOver bound v a = e.value v i a

/-- A derivative of an expression has the value that the product rule gives for its products. -/
def FollowsRule {ι : Type} (bound : Slot → Bool) (v : PointValues R) (a : Slot → ℕ)
    (differentiate : ι → Expr R → Except (FormError R) (Expr R)) (D : BasisFunction → R) : Prop :=
  ∀ i (e : Expr R), e.kind ≠ .form → e.Avoids bound → ∃ r, differentiate i e = .ok r ∧
    r.kind ≠ .scalar ∧ r.kind ≠ .form ∧
    r.valueOver bound v a = (e.products.map (Product.ruleValue v a D)).sum

theorem sum_places (v : PointValues R) (a : Slot → ℕ) (D : BasisFunction → R) (e : Expr R) :
    (e.places.map fun s => D s.function * s.restValue v a).sum =
      (e.products.map (Product.ruleValue v a D)).sum := by
  rw [places, List.map_flatMap, List.flatMap_def, List.sum_flatten, List.map_map]
  exact congrArg List.sum (List.map_congr_left fun p _ => FunctionPlace.sum_places D p)

theorem followsRule_derivative (v : PointValues R) (a : Slot → ℕ) {direction : Index} {N : ℕ}
    (hdirection : direction.Avoids (freshSlot N)) :
    FollowsRule (freshSlot N) v a
      (fun (g : { g : IndexGenerator // N ≤ g.secondary }) e =>
        (e.derivative direction g.val).map Prod.fst)
      (v.chainRule a direction) := by
  rintro ⟨g, hg⟩ e he havoids
  obtain ⟨r, hr, hscalar, hform, hproducts⟩ := derivative_eq he direction g
  refine ⟨r, congrArg (Except.map Prod.fst) hr, hscalar, hform, ?_⟩
  rw [valueOver_of_kind hscalar, hproducts, List.map_map, ← sum_places]
  have hterm : ∀ q ∈ e.places.zipIdx g.secondary,
      (q.1.derivative direction q.2).valueOver (freshSlot N) v a =
        v.chainRule a direction q.1.function * q.1.restValue v a := by
    rintro ⟨s, id⟩ hq
    obtain ⟨hle, -, hs⟩ := List.mem_zipIdx hq
    obtain ⟨hmem, hfunction⟩ := mem_places.mp (hs ▸ List.getElem_mem _)
    exact FunctionPlace.valueOver_derivative hfunction (havoids _ hmem) hdirection (hg.trans hle)
  calc _ = ((e.places.zipIdx g.secondary).map fun q =>
        v.chainRule a direction q.1.function * q.1.restValue v a).sum :=
        congrArg List.sum (List.map_congr_left hterm)
    _ = (((e.places.zipIdx g.secondary).map Prod.fst).map fun s =>
        v.chainRule a direction s.function * s.restValue v a).sum := by
        rw [List.map_map]
        rfl
    _ = _ := by rw [List.zipIdx_map_fst]

theorem followsRule_referenceDerivative (v : PointValues R) (a : Slot → ℕ) (direction : Index) :
    FollowsRule (fun _ => false) v a (fun (_ : Unit) e => e.referenceDerivative direction)
      (fun b => v.basisFunction (mapIndices (Index.resolve a) (b.appendDerivative direction))) := by
  intro _ e he _
  obtain ⟨r, hr, hscalar, hform, hproducts⟩ := referenceDerivative_eq he direction
  refine ⟨r, hr, hscalar, hform, ?_⟩
  rw [valueOver_of_kind hscalar, hproducts, List.map_map, ← sum_places]
  refine congrArg List.sum (List.map_congr_left fun s hs => ?_)
  have hfree : (s.referenceDerivative direction).Avoids fun _ => false := fun _ _ _ _ => rfl
  rw [Function.comp_apply, hfree.valueOver_eq, FunctionPlace.referenceDerivative,
    FunctionPlace.value_replace (mem_places.mp hs).2]
  simp only [resolvedProd, List.map_nil, List.prod_nil, mul_one]

section Laws

variable {bound : Slot → Bool} {v : PointValues R} {a : Slot → ℕ} {D : BasisFunction → R}
  {e f r : Expr R}

theorem kind_ne_of_mul (h : e.mul f = .ok r) : e.kind ≠ .form ∧ f.kind ≠ .form := by
  by_contra hform
  rw [not_and_or, not_not, not_not] at hform
  rw [mul_of_form hform] at h
  cases h

theorem sum_ruleValue_mul (he : e.Avoids bound) (hf : f.Avoids bound) (h : e.mul f = .ok r) :
    (r.products.map (Product.ruleValue v a D)).sum =
      (e.products.map (Product.ruleValue v a D)).sum * f.valueOver bound v a +
        e.valueOver bound v a * (f.products.map (Product.ruleValue v a D)).sum := by
  have hscaled : ∀ (e' : Expr R) (x : R), e'.scaled? x = some r →
      (r.products.map (Product.ruleValue v a D)).sum =
        (e'.products.map (Product.ruleValue v a D)).sum * x := by
    intro e' x hr
    rw [products_scaled? hr, List.map_map, ← List.sum_map_mul_right]
    exact congrArg List.sum (List.map_congr_left fun p _ => p.ruleValue_scaled v a D x)
  rcases mul_eq_ok h with ⟨x, rfl, hr⟩ | ⟨x, rfl, hr⟩ | ⟨hes, hfs, -, -, hproducts⟩
  · rw [hscaled f x hr]
    simp [products, valueOver, mul_comm]
  · rw [hscaled e x hr]
    simp [products, valueOver]
  · have htimes : ∀ p ∈ e.products, ∀ q ∈ f.products, (p.times q).ruleValue v a D =
        p.ruleValue v a D * q.valueOver bound v a + p.valueOver bound v a * q.ruleValue v a D := by
      intro p hp q hq
      rw [Product.ruleValue_times, (he p hp).valueOver_eq, (hf q hq).valueOver_eq]
    rw [valueOver_of_kind hes, valueOver_of_kind hfs, hproducts, Product.sum_map_mulTerms,
      ← List.sum_map_mul_right, ← List.sum_map_mul_right, ← List.sum_map_add]
    refine congrArg List.sum (List.map_congr_left fun p hp => ?_)
    rw [← List.sum_map_mul_left, ← List.sum_map_mul_left, ← List.sum_map_add]
    exact congrArg List.sum (List.map_congr_left fun q hq => htimes p hp q hq)

variable {ι : Type} {differentiate : ι → Expr R → Except (FormError R) (Expr R)}

theorem FollowsRule.mul (h : FollowsRule bound v a differentiate D)
    (he : e.Avoids bound) (hf : f.Avoids bound) (hr : e.mul f = .ok r) (i j k : ι) :
    ∃ s t, differentiate i r = .ok s ∧
      productRule (differentiate j) (differentiate k) e f = .ok t ∧
      s.valueOver bound v a = t.valueOver bound v a := by
  obtain ⟨hek, hfk⟩ := kind_ne_of_mul hr
  obtain ⟨s, hs, -, -, hsv⟩ := h i r (kind_mul hr).2 (he.mul hf hr)
  obtain ⟨e', he', hes, hef, hev⟩ := h j e hek he
  obtain ⟨f', hf', hfs, hff, hfv⟩ := h k f hfk hf
  -- a derivative is a factor or a sum, so the two products can be added
  obtain ⟨x, hx, -⟩ := mul_returns (e := e') (f := f) (not_or.mpr ⟨hef, hfk⟩)
  obtain ⟨y, hy, -⟩ := mul_returns (e := e) (f := f') (not_or.mpr ⟨hek, hff⟩)
  have hxs : x.kind ≠ .scalar := fun hk => hes ((kind_mul hx).1.mp hk).1
  have hys : y.kind ≠ .scalar := fun hk => hfs ((kind_mul hy).1.mp hk).2
  obtain ⟨t, ht, -⟩ := add_returns (e := x) (f := y)
    (by simp [Mixed, hxs, hys, (kind_mul hx).2, (kind_mul hy).2])
  refine ⟨s, t, hs, ?_, ?_⟩
  · simp only [productRule, he', hf', hx, hy, ht, bind, Except.bind]
  · rw [hsv, sum_ruleValue_mul he hf hr, valueOver_add hxs hys ht, valueOver_mul (.inr hf) hx,
      valueOver_mul (.inl he) hy, hev, hfv]

theorem FollowsRule.add (h : FollowsRule bound v a differentiate D) (hek : e.kind ≠ .form)
    (hfk : f.kind ≠ .form) (he : e.Avoids bound) (hf : f.Avoids bound) (hr : e.add f = .ok r)
    (i j k : ι) : ∃ s t, differentiate i r = .ok s ∧
      (do (← differentiate j e).add (← differentiate k f)) = .ok t ∧
      s.valueOver bound v a = t.valueOver bound v a := by
  have hproducts := products_add hr
  have hav : r.Avoids bound := by
    rw [Avoids, hproducts]
    exact List.forall_mem_append.mpr ⟨he, hf⟩
  obtain ⟨s, hs, -, -, hsv⟩ := h i r (kind_add hek hr) hav
  obtain ⟨e', he', hes, hef, hev⟩ := h j e hek he
  obtain ⟨f', hf', hfs, hff, hfv⟩ := h k f hfk hf
  obtain ⟨t, ht, -⟩ := add_returns (e := e') (f := f') (by simp [Mixed, hes, hfs, hef, hff])
  refine ⟨s, t, hs, ?_, ?_⟩
  · simp only [he', hf', ht, bind, Except.bind]
  · rw [hsv, hproducts, List.map_append, List.sum_append, valueOver_add hes hfs ht, hev, hfv]

/-- The product rule for products gives all laws. -/
theorem FollowsRule.isDerivation (h : FollowsRule bound v a differentiate D)
    (hform : ∀ i f, differentiate i (.form f) = .error (.termAlgebra .cannotDifferentiate)) :
    IsDerivation bound v a differentiate D where
  mul he hf hr i j k := h.mul he hf hr i j k
  add hek hfk he hf hr i j k := h.add hek hfk he hf hr i j k
  scalar i x := by
    obtain ⟨r, hr, -, -, hv⟩ := h i (.scalar x) (by simp [kind]) (List.forall_mem_nil _)
    exact ⟨r, hr, hv⟩
  basis i b hb := by
    obtain ⟨r, hr, -, -, hv⟩ := h i (.basis b) (by simp [kind]) hb
    refine ⟨r, hr, hv.trans ?_⟩
    simp [products, Product.ruleValue, Factor.toProduct, leibniz, FactorValues.outer, resolvedProd]
  factor i f hf := by
    obtain ⟨r, hr, -, -, hv⟩ := h i (.factor f) (by simp [kind]) hf
    refine ⟨r, hr, hv.trans ?_⟩
    simp [products, Product.ruleValue, Factor.toProduct, leibniz, FactorValues.outer, resolvedProd]
  product i j p hp := by
    have hbasis : (Expr.product { constant := 1, basisFunctions := p.basisFunctions } :
        Expr R).Avoids bound := by
      refine List.forall_mem_singleton.mpr fun t ht => hp p (List.mem_singleton_self p) t ?_
      simp only [Product.indices_eq, indices_list, List.flatMap_nil, List.append_nil] at ht
      exact List.mem_append_left _ ht
    obtain ⟨r, hr, -, -, hrv⟩ := h i (.product p) (by simp [kind]) hp
    obtain ⟨s, hs, -, -, hsv⟩ := h j (.product _) (by simp [kind]) hbasis
    refine ⟨r, s, hr, hs, ?_⟩
    rw [hrv, hsv]
    simp only [products, List.map_cons, List.map_nil, List.sum_singleton, Product.ruleValue,
      FactorValues.outer, resolvedProd, List.prod_nil]
    ring
  form := hform
  value_eq e i he hav := hav.valueOver_eq he i

end Laws

/-- Differentiation is a derivation, with the chain rule for physical directions.  The slots that a
physical derivative takes from the generator are summed over, and they are none of those of the
operands and the direction if the generator has handed out all of these. -/
theorem derivative_isDerivation (v : PointValues R) (a : Slot → ℕ) {direction : Index} {N : ℕ}
    (hdirection : direction.Avoids (freshSlot N)) :
    IsDerivation (freshSlot N) v a
      (fun (g : { g : IndexGenerator // N ≤ g.secondary }) e =>
        (e.derivative direction g.val).map Prod.fst)
      (fun b => ∑ x ∈ Finset.range b.element.space.shapeDimension,
        v.transform ⟨.inverse, .fixed x, direction.resolve a, b.restriction⟩ *
          v.basisFunction (mapIndices (Index.resolve a) (b.appendDerivative (.fixed x)))) ∧
    IsDerivation (fun _ => false) v a
      (fun (_ : Unit) e => e.referenceDerivative direction)
      (fun b => v.basisFunction (mapIndices (Index.resolve a) (b.appendDerivative direction))) :=
  ⟨(followsRule_derivative v a hdirection).isDerivation fun _ _ => rfl,
    (followsRule_referenceDerivative v a direction).isDerivation fun _ _ => rfl⟩

/-- A product of two arguments, differentiated in the direction of a slot that is not summed. -/
theorem derivative_isDerivation_arguments :
    let element : Element := .lagrange 0 { cell := .triangle, degree := 1 }
    let direction : Index := .slot .secondary 0 [0, 1]
    let v : Expr ℤ := basis (BasisFunction.argument element 0)
    let w : Expr ℤ := basis (BasisFunction.argument element 1)
    let values : PointValues ℤ :=
      { basisFunction := fun b => 1 + (b.derivatives.map (·.index.value)).sum
        transform := fun t => 3 + t.reference.value
        coefficient := fun _ => 1
        determinant := fun _ => 1 }
    let differentiate (e : Expr ℤ) := (e.derivative direction { secondary := 1 }).map Prod.fst
    (∃ r, differentiate v = .ok r ∧ r.valueOver (freshSlot 1) values (fun _ => 0) = 11) ∧
      ∃ r s t, v.mul w = .ok r ∧ differentiate r = .ok s ∧
        productRule differentiate differentiate v w = .ok t ∧
        s.valueOver (freshSlot 1) values (fun _ => 0) =
          t.valueOver (freshSlot 1) values (fun _ => 0) := by
  intro element direction v w values differentiate
  have hargument : ∀ id, (basis (BasisFunction.argument element id) : Expr ℤ).Avoids
      (freshSlot 1) := by
    intro id
    refine List.forall_mem_singleton.mpr fun i hi s hs => ?_
    obtain rfl := List.mem_singleton.mp hi
    cases hs
    rfl
  have hdirection : direction.Avoids (freshSlot 1) := Index.avoids_secondary Nat.one_pos
  have hlaws := (derivative_isDerivation values (fun _ => 0) hdirection).1
  let g : { g : IndexGenerator // 1 ≤ g.secondary } := ⟨{ secondary := 1 }, le_rfl⟩
  obtain ⟨r, hr, hvalue⟩ := hlaws.basis g _ (hargument 0)
  obtain ⟨s, t, hs, ht, hst⟩ := hlaws.mul (hargument 0) (hargument 1) rfl g g g
  exact ⟨⟨r, hr, hvalue.trans (by decide)⟩, _, s, t, rfl, hs, ht, hst⟩

end Expr

end WeakForm
