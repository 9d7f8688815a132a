import Mathlib.Tactic.Ring
import WeakForm.Proofs.SlotSums

/-!
# Values of forms in a commutative ring

A valuation gives a value in a commutative ring to every factor of a monomial, once all indices are
literals: to each transform, coefficient and determinant for itself (`FactorValues`), and to all
basis functions together with their measure.  Nothing relates these values to each other.

The value of a monomial is its constant times the sum, over the values of its secondary and
auxiliary slots, of the product of its factors (`Valuation.value`); it depends on the values of the
primary slots.  Renaming slots is renaming the values of the primary slots (`value_rename`), and a
slot may be replaced by each of its values in turn (`value_subst`).  The order of the transforms
does not matter (`value_perm_transforms`), and those between literal directions are constant factors
(`value_cons_transform`).
-/

namespace WeakForm

open Indexed

/-- The index as a literal. -/
def Index.resolve (a : Slot → ℕ) (i : Index) : Index :=
  .fixed (i.valueIn a)

/-- The assignment that gives the primary slots these values. -/
def primaryValues (values : ℕ → ℕ) (s : Slot) : ℕ :=
  if s.kind = .primary then values s.id else 0

variable {R : Type}

/-! ### Products of resolved factors -/

section
variable [CommMonoid R] {α : Type} [Indexed α]

/-- The product of the values that factors have once their indices are literals. -/
def resolvedProd (value : α → R) (xs : List α) (a : Slot → ℕ) : R :=
  (xs.map fun x => value (mapIndices (Index.resolve a) x)).prod

theorem resolvedProd_append (value : α → R) (xs ys : List α) (a : Slot → ℕ) :
    resolvedProd value (xs ++ ys) a = resolvedProd value xs a * resolvedProd value ys a := by
  rw [resolvedProd, List.map_append, List.prod_append]
  rfl

theorem resolve_comp {f : Index → Index} {a b : Slot → ℕ}
    (h : ∀ i : Index, (f i).valueIn a = i.valueIn b) : Index.resolve a ∘ f = Index.resolve b := by
  funext i
  rw [Function.comp_apply, Index.resolve, h, Index.resolve]

/-- Indices enter through their values only. -/
theorem map_resolve_map {f : Index → Index} {a b : Slot → ℕ}
    (h : ∀ i : Index, (f i).valueIn a = i.valueIn b) (xs : List α) :
    (xs.map (mapIndices f)).map (mapIndices (Index.resolve a)) =
      xs.map (mapIndices (Index.resolve b)) := by
  rw [List.map_map]
  apply List.map_congr_left
  intro x _
  rw [Function.comp_apply, mapIndices_mapIndices, resolve_comp h]

theorem resolvedProd_map {f : Index → Index} {a b : Slot → ℕ}
    (h : ∀ i : Index, (f i).valueIn a = i.valueIn b) (value : α → R) (xs : List α) :
    resolvedProd value (xs.map (mapIndices f)) a = resolvedProd value xs b := by
  rw [resolvedProd, List.map_map, resolvedProd]
  refine congrArg List.prod (List.map_congr_left fun x _ => ?_)
  simp only [Function.comp_apply, mapIndices_mapIndices, resolve_comp h]

end

/-! ### Values of factors -/

/-- Values of the factors of a product that are no basis functions, once their indices are
literals. -/
structure FactorValues (R : Type) where
  transform : Transform → R
  coefficient : Coefficient → R
  determinant : Determinant → R

/-- The product of the values of transforms, coefficients and determinants. -/
def FactorValues.outer {K : Type} [CommMonoid R] (v : FactorValues R) (p : Product K)
    (a : Slot → ℕ) : R :=
  resolvedProd v.transform p.transforms a *
    (resolvedProd v.coefficient p.coefficients a * (p.determinants.map v.determinant).prod)

/-- Values of all factors of a monomial: those of the basis functions, taken together, depend on
the measure. -/
structure Valuation (R : Type) extends FactorValues R where
  integral : Integral → List BasisFunction → R

namespace Valuation

variable [CommRing R] (v : Valuation R)

/-- The product of the values of all factors but the constant. -/
def factors (m : Monomial R) (a : Slot → ℕ) : R :=
  v.integral m.integral (m.basisFunctions.map (mapIndices (Index.resolve a))) *
    v.outer m.toProduct a

/-- The value of a monomial. -/
def value (m : Monomial R) (a : Slot → ℕ) : R :=
  m.constant * sumIndices m.indices (v.factors m) a

/-- The value of a form on an integral, for given values of the primary slots. -/
def formValue (f : Form R) (i : Integral) (values : ℕ → ℕ) : R :=
  (f.monomials.map fun m => if m.integral = i then v.value m (primaryValues values) else 0).sum

/-! ### Monomials -/

theorem factors_mapIndices {f : Index → Index} {a b : Slot → ℕ}
    (h : ∀ i : Index, (f i).valueIn a = i.valueIn b) (m : Monomial R) :
    v.factors (mapIndices f m) a = v.factors m b := by
  rw [factors, Monomial.mapIndices_eq, factors, FactorValues.outer, FactorValues.outer]
  dsimp only
  rw [map_resolve_map h, resolvedProd_map h, resolvedProd_map h]

/-- Renaming the slots of a monomial is renaming the slots that values are given to. -/
theorem value_rename {f : SlotKind → ℕ → ℕ} (hf : ∀ k, Function.Injective (f k)) (m : Monomial R)
    (a : Slot → ℕ) : v.value (m.rename (slotRenaming f)) a = v.value m (a ∘ Slot.rename f) := by
  have hF : v.factors (m.rename (slotRenaming f)) = fun b => v.factors m (b ∘ Slot.rename f) := by
    funext b
    exact v.factors_mapIndices (Index.valueIn_rename f b) m
  rw [value, hF, Monomial.rename, Monomial.indices_mapIndices, sumIndices_rename hf]
  rfl

/-- A summed slot of a monomial may be replaced by each of its values in turn. -/
theorem value_subst {m : Monomial R} {s : Slot} (hs : s ∈ summedSlots m.indices) (a : Slot → ℕ) :
    v.value m a = ∑ x ∈ slotValues m.indices s, v.value (mapIndices (Index.subst s x) m) a := by
  rw [value, sumIndices_subst hs, Finset.mul_sum]
  apply Finset.sum_congr rfl
  intro x _
  have hF : v.factors (mapIndices (Index.subst s x) m) =
      fun b => v.factors m (Function.update b s x) := by
    funext b
    exact v.factors_mapIndices (fun i => (Index.valueIn_update b s x i).symm) m
  rw [value, Monomial.indices_mapIndices, hF]
  rfl

/-- Monomials with the same constant and the same slots, whose factors have the same value, have the
same value. -/
theorem value_congr {m n : Monomial R} (hc : m.constant = n.constant)
    (hi : ∀ i : Index, i.isFixed = false → (i ∈ m.indices ↔ i ∈ n.indices))
    (hf : ∀ a, v.factors m a = v.factors n a) (a : Slot → ℕ) : v.value m a = v.value n a := by
  rw [value, value, hc, sumIndices_congr hi hf]

theorem value_perm_transforms (m : Monomial R) {ts ts' : List Transform} (h : ts.Perm ts')
    (a : Slot → ℕ) :
    v.value { m with transforms := ts } a = v.value { m with transforms := ts' } a := by
  apply v.value_congr
  · rfl
  · intro i _
    simp only [Monomial.indices_eq, List.mem_append, indices_list, List.mem_flatMap, h.mem_iff]
  · intro b
    have hp : resolvedProd v.transform ts b = resolvedProd v.transform ts' b :=
      (h.map _).prod_eq
    simp only [factors, FactorValues.outer, hp]

/-- A transform between literal directions is a constant factor. -/
theorem value_cons_transform (m : Monomial R) (kind : TransformKind) (restriction : Restriction)
    (x y : ℕ) (ts : List Transform) (a : Slot → ℕ) :
    v.value { m with transforms := ⟨kind, .fixed x, .fixed y, restriction⟩ :: ts } a =
      v.transform ⟨kind, .fixed x, .fixed y, restriction⟩ *
        v.value { m with transforms := ts } a := by
  have hF : v.factors { m with transforms := ⟨kind, .fixed x, .fixed y, restriction⟩ :: ts } =
      fun b => v.transform ⟨kind, .fixed x, .fixed y, restriction⟩ *
        v.factors { m with transforms := ts } b := by
    funext b
    simp only [factors, FactorValues.outer, resolvedProd, List.map_cons, List.prod_cons,
      mapIndices_transform, Index.resolve, Index.valueIn]
    ring
  rw [value, hF, mul_sumIndices, value, mul_left_comm]
  congr 2
  refine sumIndices_congr (fun i hi => ?_) fun _ => rfl
  simp only [Monomial.indices_eq, List.mem_append, indices_list, List.flatMap_cons,
    indices_transform, List.mem_cons, List.not_mem_nil]
  cases i with
  | slot k id r => simp
  | fixed x => cases hi

/-- Monomials that agree up to their constants have values that do. -/
theorem value_factorize {m n q : Monomial R} (h : m.factorize n = some q) (a : Slot → ℕ) :
    q.integral = m.integral ∧ n.integral = m.integral ∧
      v.value q a = v.value m a + v.value n a := by
  unfold Monomial.factorize at h
  split at h
  · rename_i heq
    rw [Option.some.injEq] at h
    have hn := Monomial.eqIgnoringConstant_iff.mp heq
    subst h
    refine ⟨rfl, by rw [hn], ?_⟩
    have hv : v.value n a = n.constant * sumIndices m.indices (v.factors m) a := by
      rw [hn]
      rfl
    have hq : v.value { m with constant := m.constant + n.constant } a =
        (m.constant + n.constant) * sumIndices m.indices (v.factors m) a := rfl
    rw [hv, hq, value, add_mul]
  · cases h

/-! ### Forms -/

/-- The sum of equal monomials keeps the value of a form. -/
theorem formValue_factorize (f : Form R) (i : Integral) (values : ℕ → ℕ) :
    v.formValue f.factorize i values = v.formValue f i values := by
  have hrun := contracts_contractPairs Monomial.factorize f.monomials
  refine hrun.sum_map (P := fun _ => True) (fun _ _ _ _ _ _ => trivial)
    (fun m n q _ _ h => ?_) fun _ _ => trivial
  obtain ⟨hq, hn, hv⟩ := v.value_factorize h (primaryValues values)
  rw [hq, hn, hv]
  split
  · rfl
  · rw [add_zero]

theorem formValue_eliminateZeros [BEq R] [LawfulBEq R] (f : Form R) (i : Integral)
    (values : ℕ → ℕ) : v.formValue f.eliminateZeros i values = v.formValue f i values := by
  obtain ⟨ms⟩ := f
  induction ms with
  | nil => rfl
  | cons m ms ih =>
    have hcons : ∀ ns : List (Monomial R), v.formValue ⟨m :: ns⟩ i values =
        (if m.integral = i then v.value m (primaryValues values) else 0) +
          v.formValue ⟨ns⟩ i values := fun ns => List.sum_cons
    rw [hcons, ← ih, Form.eliminateZeros, Form.eliminateZeros]
    dsimp only
    rw [List.filter_cons]
    split
    · exact hcons _
    · rename_i hz
      have h0 : m.constant = 0 := by simpa using hz
      rw [value, h0, zero_mul, ite_self, zero_add]

/-- Renumbering takes the values of the primary slots to their new identifiers. -/
theorem formValue_renumber (f : Form R) (i : Integral) (values : ℕ → ℕ) :
    v.formValue f.renumber i values =
      v.formValue f i (values ∘ numbering (f.ids .primary)) := by
  rw [Form.renumber_eq_map, formValue, List.map_map, formValue]
  refine congrArg List.sum (List.map_congr_left fun m _ => ?_)
  have hvalues : primaryValues values ∘ Slot.rename (m.numberings (f.ids .primary)) =
      primaryValues (values ∘ numbering (f.ids .primary)) := by
    funext s
    obtain ⟨k, id⟩ := s
    cases k <;> rfl
  rw [Function.comp_apply, v.value_rename (m.numberings_injective _), hvalues]
  rfl

end Valuation

end WeakForm
