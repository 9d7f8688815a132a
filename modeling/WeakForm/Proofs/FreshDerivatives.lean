import WeakForm.Proofs.DerivativeTerms

/-!
# The summation convention under differentiation

An expression conforms to a generator if its products are balanced and all their secondary slots
have been handed out (`Expr.Conforms`).  Each term of a physical derivative adds the direction and
a pair of occurrences of a slot that is used nowhere else (`Expr.derivative_isFreshTerm`), so a
derivative conforms to the generator that it leaves behind (`Expr.Conforms.derivative`), and so does
whatever is differentiated any number of times (`Expr.Conforms.reaches`).
-/

namespace WeakForm

open Indexed

variable {K : Type}

/-! ### Lists of indices -/

/-- The number of indices that denote the slot. -/
def slotCount (is : List Index) (s : Slot) : ℕ :=
  is.countP fun i => i.slot? == some s

theorem slotCount_cons (i : Index) (is : List Index) (s : Slot) :
    slotCount (i :: is) s = slotCount is s + if i.slot? = some s then 1 else 0 := by
  simp [slotCount, List.countP_cons]

theorem slotCount_eq_zero {is : List Index} {s : Slot} (h : ∀ i ∈ is, i.slot? ≠ some s) :
    slotCount is s = 0 :=
  List.countP_eq_zero.mpr fun i hi => by simpa using h i hi

/-- An index may be added if it denotes a slot that occurs at most once, with the same range. -/
theorem BalancedIndices.cons {i : Index} {is : List Index} (h : BalancedIndices is)
    (hi : ∀ s, i.slot? = some s → slotCount is s ≤ 1 ∧
      ∀ j ∈ is, j.slot? = some s → j.range = i.range) : BalancedIndices (i :: is) := by
  rw [balancedIndices_iff] at h ⊢
  intro s
  obtain ⟨hcount, hrange⟩ := h s
  by_cases his : i.slot? = some s
  · obtain ⟨hle, heq⟩ := hi s his
    rw [slotCount, List.countP_eq_length_filter] at hle
    have hmem : ∀ j ∈ i :: is, j.slot? = some s → j.range = i.range :=
      List.forall_mem_cons.mpr ⟨fun _ => rfl, heq⟩
    refine ⟨?_, fun j hj k hk hjs hks => (hmem j hj hjs).trans (hmem k hk hks).symm⟩
    rw [List.filter_cons_of_pos (by rw [his, beq_self_eq_true]), List.length_cons]
    omega
  · have hmem : ∀ j ∈ i :: is, j.slot? = some s → j ∈ is := by
      intro j hj hjs
      rcases List.mem_cons.mp hj with rfl | hj
      · exact absurd hjs his
      · exact hj
    refine ⟨?_, fun j hj k hk hjs hks => hrange j (hmem j hj hjs) k (hmem k hk hks) hjs hks⟩
    rwa [List.filter_cons_of_neg (by rwa [beq_iff_eq])]

/-- A slot that does not occur may be added twice. -/
theorem BalancedIndices.cons_pair {i : Index} {is : List Index} (h : BalancedIndices is)
    (hi : ∀ s, i.slot? = some s → ∀ j ∈ is, j.slot? ≠ some s) : BalancedIndices (i :: i :: is) := by
  refine (h.cons fun s hs => ?_).cons fun s hs => ?_
  · rw [slotCount_eq_zero (hi s hs)]
    exact ⟨Nat.zero_le 1, fun j hj hjs => absurd hjs (hi s hs j hj)⟩
  · rw [slotCount_cons, slotCount_eq_zero (hi s hs), if_pos hs]
    refine ⟨le_rfl, List.forall_mem_cons.mpr ⟨fun _ => rfl, fun j hj hjs => ?_⟩⟩
    exact absurd hjs (hi s hs j hj)

/-! ### Products -/

namespace Product

/-- No slot occurs more than twice in the product, or with two ranges. -/
def Balanced (p : Product K) : Prop :=
  BalancedIndices (indices p)

/-- The number of derivatives of all basis functions. -/
def numDerivatives (p : Product K) : ℕ :=
  (p.basisFunctions.map fun v => v.derivatives.length).sum

/-- The number of entries of the inverse Jacobian. -/
def numInverses (p : Product K) : ℕ :=
  p.transforms.countP (·.kind == .inverse)

/-- A direction that can be added to the product: it denotes a slot that occurs at most once, with
the same range, or it is a literal. -/
def AllowsDirection (p : Product K) (direction : Index) : Prop :=
  ∀ s, direction.slot? = some s → slotCount (indices p) s ≤ 1 ∧
    ∀ i ∈ indices p, i.slot? = some s → i.range = direction.range

end Product

/-! ### Terms -/

namespace FunctionPlace

variable {s : FunctionPlace K} {direction : Index} {N id : ℕ}

theorem numDerivatives_derivative (h : s.product.basisFunctions[s.position]? = some s.function)
    (direction : Index) (id : ℕ) :
    (s.derivative direction id).numDerivatives = s.product.numDerivatives + 1 := by
  obtain ⟨hlt, hget⟩ := List.getElem?_eq_some_iff.mp h
  have hself := ((List.getElem_cons_eraseIdx_perm hlt).map fun v => v.derivatives.length).sum_eq
  have hset := ((List.set_perm_cons_eraseIdx hlt
    (s.function.appendDerivative (s.function.referenceSlot id))).map
      fun v => v.derivatives.length).sum_eq
  rw [hget, List.map_cons, List.sum_cons] at hself
  rw [List.map_cons, List.sum_cons, BasisFunction.appendDerivative, List.length_append] at hset
  refine hset.trans ?_
  rw [Product.numDerivatives, ← hself, List.length_singleton]
  omega

theorem numInverses_derivative (s : FunctionPlace K) (direction : Index) (id : ℕ) :
    (s.derivative direction id).numInverses = s.product.numInverses + 1 :=
  List.countP_append

theorem slot?_referenceSlot (v : BasisFunction) (id : ℕ) :
    (v.referenceSlot id).slot? = some ⟨.secondary, id⟩ := rfl

/-- A slot that has been handed out is not one of the next ones. -/
theorem slot?_ne_of_avoids {i : Index} (h : i.Avoids (freshSlot N)) (hid : N ≤ id) :
    i.slot? ≠ some ⟨.secondary, id⟩ :=
  h.slot?_ne (freshSlot_iff.mpr ⟨rfl, hid⟩)

theorem slotCount_derivative (h : s.product.basisFunctions[s.position]? = some s.function)
    (direction : Index) (id : ℕ) (t : Slot) :
    slotCount (indices (s.derivative direction id)) t = slotCount (indices s.product) t +
      (if direction.slot? = some t then 1 else 0) + if ⟨.secondary, id⟩ = t then 2 else 0 := by
  rw [slotCount, (s.indices_derivative h direction id).countP_eq, ← slotCount, slotCount_cons,
    slotCount_cons, slotCount_cons, slot?_referenceSlot]
  simp only [Option.some.injEq]
  split <;> split <;> omega

theorem balanced_derivative (h : s.product.basisFunctions[s.position]? = some s.function)
    (hbalanced : s.product.Balanced) (havoids : s.product.Avoids (freshSlot N))
    (hdirection : direction.Avoids (freshSlot N)) (hallows : s.product.AllowsDirection direction)
    (hid : N ≤ id) : (s.derivative direction id).Balanced := by
  have hpair : BalancedIndices (s.function.referenceSlot id :: s.function.referenceSlot id ::
      direction :: indices s.product) := by
    refine (BalancedIndices.cons hbalanced hallows).cons_pair fun t ht => ?_
    cases ht
    exact List.forall_mem_cons.mpr ⟨slot?_ne_of_avoids hdirection hid,
      fun i hi => slot?_ne_of_avoids (havoids i hi) hid⟩
  exact hpair.perm (s.indices_derivative h direction id)

theorem avoids_derivative (h : s.product.basisFunctions[s.position]? = some s.function)
    (havoids : s.product.Avoids (freshSlot N)) (hdirection : direction.Avoids (freshSlot N))
    {N' : ℕ} (hN : N ≤ N') (hid : id < N') :
    (s.derivative direction id).Avoids (freshSlot N') := by
  intro i hi
  simp only [(s.indices_derivative h direction id).mem_iff, List.mem_cons] at hi
  rcases hi with rfl | rfl | rfl | hi
  · exact Index.avoids_secondary hid
  · exact Index.avoids_secondary hid
  · exact hdirection.mono hN
  · exact (havoids i hi).mono hN

end FunctionPlace

/-! ### Expressions -/

namespace Expr

variable [One K]

/-- A direction that can be added to every product of the expression, and that is none of the slots
that the generator hands out next. -/
def AllowsDirection (e : Expr K) (g : IndexGenerator) (direction : Index) : Prop :=
  direction.Avoids (freshSlot g.secondary) ∧ ∀ p ∈ e.products, p.AllowsDirection direction

/-- The expression has not been integrated, its products are balanced, and the generator has handed
out all their secondary slots. -/
structure Conforms (e : Expr K) (g : IndexGenerator) : Prop where
  kind_ne : e.kind ≠ .form
  balanced : ∀ p ∈ e.products, p.Balanced
  avoids : e.Avoids (freshSlot g.secondary)

/-- The `n`-th of the terms is the derivative at a place of the expression, along a slot that occurs
twice in it, and neither in another term nor in the expression. -/
structure IsFreshTerm (e : Expr K) (direction : Index) (terms : List (Product K)) (n id : ℕ)
    (s : FunctionPlace K) (q : Product K) : Prop where
  eq_derivative : q = s.derivative direction id
  numDerivatives_eq : q.numDerivatives = s.product.numDerivatives + 1
  numInverses_eq : q.numInverses = s.product.numInverses + 1
  slotCount_eq : slotCount (indices q) ⟨.secondary, id⟩ = 2
  slotCount_products : ∀ p ∈ e.products, slotCount (indices p) ⟨.secondary, id⟩ = 0
  slotCount_terms : ∀ n' q', terms[n']? = some q' → n' ≠ n →
    slotCount (indices q') ⟨.secondary, id⟩ = 0

/-- What a generator and an expression become by differentiation in a direction that the expression
allows, and by handing out slots for other purposes. -/
inductive Differentiates : Expr K × IndexGenerator → Expr K × IndexGenerator → Prop
  | derivative {e r : Expr K} {g g' : IndexGenerator} {direction : Index} :
      e.AllowsDirection g direction → e.derivative direction g = .ok (r, g') →
      Differentiates (e, g) (r, g')
  | advance (e : Expr K) (g : IndexGenerator) (k : SlotKind) :
      Differentiates (e, g) (e, g.advance k)

theorem length_places (e : Expr K) :
    e.places.length = (e.products.map fun p => p.basisFunctions.length).sum := by
  simp only [places, List.length_flatMap, Product.length_places]

variable {e r : Expr K} {g g' : IndexGenerator} {direction : Index}

theorem Conforms.advance (h : e.Conforms g) (k : SlotKind) : e.Conforms (g.advance k) := by
  refine ⟨h.kind_ne, h.balanced, fun p hp i hi => (h.avoids p hp i hi).mono ?_⟩
  cases k with
  | secondary => exact Nat.le_succ _
  | _ => exact le_rfl

/-- The terms of a derivative, with the places they come from. -/
theorem getElem?_derivative
    (hr : r.products = (e.places.zipIdx g.secondary).map fun (s, id) => s.derivative direction id)
    (n : ℕ) :
    r.products[n]? = (e.places[n]?).map fun s => s.derivative direction (g.secondary + n) := by
  rw [hr, List.getElem?_map, List.getElem?_zipIdx, Option.map_map]
  rfl

/-- A derivative conforms to the generator that it leaves behind. -/
theorem Conforms.derivative (h : e.Conforms g) (hdirection : e.AllowsDirection g direction)
    (hr : e.derivative direction g = .ok (r, g')) : r.Conforms g' := by
  obtain ⟨r', hr', -, hkind, hproducts⟩ := derivative_eq h.kind_ne direction g
  cases hr'.symm.trans hr
  have hterm : ∀ q ∈ r.products,
      q.Balanced ∧ q.Avoids (freshSlot (g.skip e.places.length).secondary) := by
    intro q hq
    obtain ⟨n, hn⟩ := List.mem_iff_getElem?.mp hq
    rw [getElem?_derivative hproducts, Option.map_eq_some_iff] at hn
    obtain ⟨s, hs, rfl⟩ := hn
    obtain ⟨hmem, hfunction⟩ := mem_places.mp (List.mem_of_getElem? hs)
    have hlt : n < e.places.length := (List.getElem?_eq_some_iff.mp hs).1
    have havoids := h.avoids s.product hmem
    exact ⟨FunctionPlace.balanced_derivative hfunction (h.balanced _ hmem) havoids hdirection.1
        (hdirection.2 _ hmem) (Nat.le_add_right _ _),
      FunctionPlace.avoids_derivative hfunction havoids hdirection.1 (Nat.le_add_right _ _)
        (Nat.add_lt_add_left hlt _)⟩
  exact ⟨hkind, fun q hq => (hterm q hq).1, fun q hq => (hterm q hq).2⟩

/-- Any number of differentiations keeps the summation convention. -/
theorem Conforms.reaches (h : e.Conforms g)
    (hr : Relation.ReflTransGen Differentiates (e, g) (r, g')) : r.Conforms g' := by
  have hstep : ∀ x y : Expr K × IndexGenerator, Differentiates x y → x.1.Conforms x.2 →
      y.1.Conforms y.2 := by
    intro x y hxy hx
    cases hxy with
    | derivative hdirection hok => exact hx.derivative hdirection hok
    | advance _ _ k => exact hx.advance k
  suffices hall : ∀ y, Relation.ReflTransGen Differentiates (e, g) y → y.1.Conforms y.2 from
    hall (r, g') hr
  intro y hy
  induction hy with
  | refl => exact h
  | tail _ hyz ih => exact hstep _ _ hyz ih

/-- Each term of a derivative is taken along a slot of its own. -/
theorem Conforms.isFreshTerm (h : e.Conforms g) (hdirection : e.AllowsDirection g direction)
    (hr : r.products = (e.places.zipIdx g.secondary).map fun (s, id) => s.derivative direction id)
    {n : ℕ} {s : FunctionPlace K} (hs : e.places[n]? = some s) :
    ∃ q, r.products[n]? = some q ∧
      e.IsFreshTerm direction r.products n (g.secondary + n) s q := by
  obtain ⟨hmem, hfunction⟩ := mem_places.mp (List.mem_of_getElem? hs)
  have hle : g.secondary ≤ g.secondary + n := Nat.le_add_right _ _
  have hproducts : ∀ p ∈ e.products,
      slotCount (indices p) ⟨.secondary, g.secondary + n⟩ = 0 := fun p hp =>
    slotCount_eq_zero fun i hi => FunctionPlace.slot?_ne_of_avoids (h.avoids p hp i hi) hle
  have hne : direction.slot? ≠ some ⟨.secondary, g.secondary + n⟩ :=
    FunctionPlace.slot?_ne_of_avoids hdirection.1 hle
  refine ⟨_, by rw [getElem?_derivative hr, hs]; rfl, rfl,
    FunctionPlace.numDerivatives_derivative hfunction _ _, s.numInverses_derivative _ _, ?_,
    hproducts, fun n' q' hq' hn' => ?_⟩
  · rw [FunctionPlace.slotCount_derivative hfunction, hproducts _ hmem, if_neg hne, if_pos rfl]
  · -- the slot of another term has another identifier
    rw [getElem?_derivative hr, Option.map_eq_some_iff] at hq'
    obtain ⟨s', hs', rfl⟩ := hq'
    obtain ⟨hmem', hfunction'⟩ := mem_places.mp (List.mem_of_getElem? hs')
    have hid : (⟨.secondary, g.secondary + n'⟩ : Slot) ≠ ⟨.secondary, g.secondary + n⟩ := by
      simpa using hn'
    rw [FunctionPlace.slotCount_derivative hfunction', hproducts _ hmem', if_neg hne, if_neg hid]

/-- Differentiation keeps the summation convention.  A derivative has one term for each basis
function of each product, with one more derivative and one more entry of the inverse Jacobian, and
with a slot that occurs twice in it and nowhere else; the generator has then handed out all slots in
use, so that the same holds for any number of further derivatives. -/
theorem derivative_conforms (h : e.Conforms g) :
    (∀ direction, e.AllowsDirection g direction → ∃ r g',
      e.derivative direction g = .ok (r, g') ∧ r.Conforms g' ∧
      (e.Avoids (freshSlot g'.secondary) ∧ direction.Avoids (freshSlot g'.secondary)) ∧
      r.products.length = (e.products.map fun p => p.basisFunctions.length).sum ∧
      ∀ n s, e.places[n]? = some s → ∃ q, r.products[n]? = some q ∧
        e.IsFreshTerm direction r.products n (g.secondary + n) s q) ∧
    ∀ r g', Relation.ReflTransGen Differentiates (e, g) (r, g') → r.Conforms g' := by
  refine ⟨fun direction hdirection => ?_, fun _ _ hr => h.reaches hr⟩
  obtain ⟨r, hr, -, -, hproducts⟩ := derivative_eq h.kind_ne direction g
  have hle : g.secondary ≤ (g.skip e.places.length).secondary := Nat.le_add_right _ _
  refine ⟨r, _, hr, h.derivative hdirection hr,
    ⟨fun p hp i hi => (h.avoids p hp i hi).mono hle, hdirection.1.mono hle⟩, ?_,
    fun n s hs => h.isFreshTerm hdirection hproducts hs⟩
  rw [hproducts, List.length_map, List.length_zipIdx, length_places]

/-- A function times the physical derivative of another one, differentiated in the same direction:
twice that direction is a slot that is summed over. -/
theorem derivative_conforms_directional :
    let element : Element := .lagrange 0 { cell := .triangle, degree := 1 }
    let direction : Index := .slot .secondary 0 [0, 1]
    let v := BasisFunction.argument element 0
    let w := (BasisFunction.argument element 1).pullback direction (.slot .secondary 1 [0, 1])
    let p : Product ℤ := { w.toProduct with basisFunctions := [v, w.basisFunction] }
    ∃ r g', (product p).derivative direction { secondary := 2 } = .ok (r, g') ∧ r.Conforms g' ∧
      r.products.length = 2 := by
  intro element direction v w p
  have hfresh : ∀ i ∈ indices p, i.slot?.all (fun s => !freshSlot 2 s) = true := by decide
  have havoids : p.Avoids (freshSlot 2) := fun i hi s hs => by
    have hi' := hfresh i hi
    rw [hs] at hi'
    simpa using hi'
  have hconforms : (product p).Conforms { secondary := 2 } :=
    ⟨nofun, List.forall_mem_singleton.mpr
      ((p.integrate {}).imbalance?_eq_none_iff.mp rfl), List.forall_mem_singleton.mpr havoids⟩
  have hdirection : (product p).AllowsDirection { secondary := 2 } direction := by
    refine ⟨Index.avoids_secondary Nat.two_pos, List.forall_mem_singleton.mpr ?_⟩
    rintro s hs
    cases hs
    exact ⟨by decide, by decide⟩
  obtain ⟨r, g', hr, hconforms', -, hlength, -⟩ :=
    (derivative_conforms hconforms).1 direction hdirection
  exact ⟨r, g', hr, hconforms', hlength⟩

end Expr

end WeakForm
