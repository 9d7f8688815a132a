import WeakForm.Proofs.BuiltForms

/-!
# The terms of a derivative

Differentiation replaces each basis function of an expression in turn, at the places that
`Expr.places` lists.  A physical derivative takes one secondary slot from the generator for each of
them, in their order (`Expr.derivative_eq`), a derivative in a reference direction takes none
(`Expr.referenceDerivative_eq`).

Slots are fresh for an expression if their identifiers are beyond all that occur in it
(`freshSlot`, `Expr.Avoids`).
-/

namespace WeakForm

open Indexed

variable {K : Type}

/-! ### Slots that do not occur -/

/-- The secondary slots with identifiers from `N` on. -/
def freshSlot (N : ℕ) (s : Slot) : Bool :=
  s.kind == .secondary && decide (N ≤ s.id)

theorem freshSlot_iff {N : ℕ} {s : Slot} :
    freshSlot N s = true ↔ s.kind = .secondary ∧ N ≤ s.id := by
  simp [freshSlot]

/-- The index is none of the slots. -/
def Index.Avoids (bound : Slot → Bool) (i : Index) : Prop :=
  ∀ s, i.slot? = some s → bound s = false

/-- No index of the product is one of the slots. -/
def Product.Avoids (bound : Slot → Bool) (p : Product K) : Prop :=
  ∀ i ∈ indices p, i.Avoids bound

theorem Index.Avoids.slot?_ne {bound : Slot → Bool} {i : Index} (h : i.Avoids bound) {s : Slot}
    (hs : bound s = true) : i.slot? ≠ some s := by
  intro hi
  rw [h s hi] at hs
  cases hs

theorem Index.Avoids.mono {N N' : ℕ} {i : Index} (h : i.Avoids (freshSlot N)) (hN : N ≤ N') :
    i.Avoids (freshSlot N') := by
  intro s hs
  have hlt := h s hs
  rw [← Bool.not_eq_true, freshSlot_iff] at hlt ⊢
  exact fun hfresh => hlt ⟨hfresh.1, hN.trans hfresh.2⟩

theorem Index.avoids_secondary {N id : ℕ} {r : List ℕ} (h : id < N) :
    (slot .secondary id r).Avoids (freshSlot N) := by
  intro s hs
  cases hs
  rw [← Bool.not_eq_true, freshSlot_iff]
  exact fun hfresh => absurd h (Nat.not_lt.mpr hfresh.2)

/-! ### Places of basis functions -/

/-- A basis function of a product, with its position among the basis functions. -/
structure FunctionPlace (K : Type) where
  product : Product K
  function : BasisFunction
  position : ℕ

/-- The places of the basis functions of a product. -/
def Product.places (p : Product K) : List (FunctionPlace K) :=
  p.basisFunctions.zipIdx.map fun (v, position) => ⟨p, v, position⟩

theorem Product.length_places (p : Product K) : p.places.length = p.basisFunctions.length := by
  rw [places, List.length_map, List.length_zipIdx]

theorem Product.mem_places {p : Product K} {s : FunctionPlace K} :
    s ∈ p.places ↔ s.product = p ∧ p.basisFunctions[s.position]? = some s.function := by
  obtain ⟨q, v, position⟩ := s
  simp only [places, List.mem_map, Prod.exists, FunctionPlace.mk.injEq,
    List.mk_mem_zipIdx_iff_getElem?]
  constructor
  · rintro ⟨w, n, hw, rfl, rfl, rfl⟩
    exact ⟨rfl, hw⟩
  · rintro ⟨rfl, hv⟩
    exact ⟨v, position, hv, rfl, rfl, rfl⟩

/-- The product with a factor in place of the basis function. -/
def FunctionPlace.replace (s : FunctionPlace K) (f : Factor) : Product K :=
  { s.product with
    basisFunctions := s.product.basisFunctions.set s.position f.basisFunction
    transforms := s.product.transforms ++ f.transforms }

namespace BasisFunction

/-- The derivative in the direction of the index. -/
def appendDerivative (v : BasisFunction) (index : Index) : BasisFunction :=
  { v with derivatives := v.derivatives ++ [{ element := v.element, index }] }

/-- The secondary slot of this identifier over the reference directions. -/
def referenceSlot (v : BasisFunction) (id : ℕ) : Index :=
  .slot .secondary id (List.range v.element.space.shapeDimension)

/-- The part of a physical derivative in one reference direction. -/
def pullback (direction : Index) (v : BasisFunction) (index : Index) : Factor :=
  { basisFunction := v.appendDerivative index
    transforms := [⟨.inverse, index, direction, v.restriction⟩] }

end BasisFunction

/-- The term of a physical derivative at a place, along the slot of this identifier. -/
def FunctionPlace.derivative (direction : Index) (s : FunctionPlace K) (id : ℕ) : Product K :=
  s.replace (s.function.pullback direction (s.function.referenceSlot id))

/-- The term of a derivative in a reference direction at a place. -/
def FunctionPlace.referenceDerivative (direction : Index) (s : FunctionPlace K) : Product K :=
  s.replace { basisFunction := s.function.appendDerivative direction }

theorem BasisFunction.indices_appendDerivative (v : BasisFunction) (i : Index) :
    indices (v.appendDerivative i) = indices v ++ [i] := by
  rw [indices_basisFunction, indices_basisFunction, appendDerivative, List.map_append,
    List.cons_append, List.append_assoc]
  rfl

theorem Product.indices_eq (p : Product K) : indices p =
    indices p.basisFunctions ++ (indices p.transforms ++ indices p.coefficients) := rfl

/-- A term of a physical derivative has three more indices: twice the slot along which it is taken,
and the direction. -/
theorem FunctionPlace.indices_derivative {s : FunctionPlace K}
    (h : s.product.basisFunctions[s.position]? = some s.function) (direction : Index) (id : ℕ) :
    (indices (s.derivative direction id)).Perm (s.function.referenceSlot id ::
      s.function.referenceSlot id :: direction :: indices s.product) := by
  obtain ⟨p, v, position⟩ := s
  obtain ⟨hlt, hget⟩ := List.getElem?_eq_some_iff.mp h
  have hself := (List.getElem_cons_eraseIdx_perm hlt).flatMap_right indices
  have hset := (List.set_perm_cons_eraseIdx hlt
    (v.appendDerivative (v.referenceSlot id))).flatMap_right indices
  rw [hget, List.flatMap_cons] at hself
  rw [List.flatMap_cons, BasisFunction.indices_appendDerivative] at hset
  rw [List.perm_iff_count]
  intro i
  have hcount : ∀ q : Product K, (indices q).count i = (q.basisFunctions.flatMap indices).count i +
      ((q.transforms.flatMap indices).count i + (indices q.coefficients).count i) := fun q => by
    rw [Product.indices_eq, List.count_append, List.count_append]
    rfl
  have hselfi := hself.count_eq i
  have hseti := hset.count_eq i
  rw [List.count_cons, List.count_cons, List.count_cons, hcount, hcount]
  simp only [List.count_append, List.count_cons, List.count_nil] at hselfi hseti
  simp only [derivative, replace, BasisFunction.pullback, List.flatMap_append, List.flatMap_cons,
    List.flatMap_nil, indices_transform, List.append_nil, List.count_append, List.count_cons,
    List.count_nil, hseti]
  omega

/-! ### Runs of the generator -/

section
variable {α β γ : Type}

theorem run_mapM_cons {σ : Type} (f : α → StateM σ β) (a : α) (l : List α) (s : σ) :
    ((a :: l).mapM f).run s =
      (((f a).run s).1 :: ((l.mapM f).run ((f a).run s).2).1,
        ((l.mapM f).run ((f a).run s).2).2) := by
  rw [List.mapM_cons]
  rfl

/-- The generator after a number of secondary slots. -/
def IndexGenerator.skip (g : IndexGenerator) (n : ℕ) : IndexGenerator :=
  { g with secondary := g.secondary + n }

theorem IndexGenerator.skip_skip (g : IndexGenerator) (m n : ℕ) :
    (g.skip m).skip n = g.skip (m + n) := by
  rw [skip, skip, skip, Nat.add_assoc]

/-- A map that takes one secondary slot for each element takes them in order. -/
theorem run_mapM_fresh {f : α → StateM IndexGenerator β} {F : α → ℕ → β}
    (hf : ∀ a g, (f a).run g = (F a g.secondary, g.skip 1)) (l : List α) (g : IndexGenerator) :
    (l.mapM f).run g = ((l.zipIdx g.secondary).map fun (a, id) => F a id, g.skip l.length) := by
  induction l generalizing g with
  | nil => rfl
  | cons a l ih =>
    rw [run_mapM_cons, hf, ih, IndexGenerator.skip_skip, Nat.add_comm 1]
    rfl

/-- A map that takes one secondary slot for each place of each element takes them in the order of
all places. -/
theorem run_mapM_places {f : α → StateM IndexGenerator (List β)} {places : α → List γ}
    {F : γ → ℕ → β} (hf : ∀ a g, (f a).run g =
      (((places a).zipIdx g.secondary).map fun (s, id) => F s id, g.skip (places a).length))
    (l : List α) (g : IndexGenerator) :
    ((l.mapM f).run g).1.flatten =
        ((l.flatMap places).zipIdx g.secondary).map (fun (s, id) => F s id) ∧
      ((l.mapM f).run g).2 = g.skip (l.flatMap places).length := by
  induction l generalizing g with
  | nil => exact ⟨rfl, rfl⟩
  | cons a l ih =>
    obtain ⟨hfirst, hsecond⟩ := ih (g.skip (places a).length)
    rw [run_mapM_cons, hf]
    constructor
    · rw [List.flatten_cons, hfirst, List.flatMap_cons, List.zipIdx_append, List.map_append]
      rfl
    · rw [hsecond, IndexGenerator.skip_skip, List.flatMap_cons, List.length_append]

end

theorem Product.run_differentiate (direction : Index) (p : Product K) (g : IndexGenerator) :
    (p.differentiate (Factor.derivative direction)).run g =
      ((p.places.zipIdx g.secondary).map fun (s, id) => s.derivative direction id,
        g.skip p.places.length) := by
  have hrun := run_mapM_fresh (f := fun (v, position) => do
      let f ← Factor.derivative direction { basisFunction := v }
      return ({ p with
        basisFunctions := p.basisFunctions.set position f.basisFunction
        transforms := p.transforms ++ f.transforms } : Product K))
    (F := fun q id => FunctionPlace.derivative direction ⟨p, q.1, q.2⟩ id)
    (fun _ _ => rfl) p.basisFunctions.zipIdx g
  rw [differentiate, hrun, places, List.length_map, List.zipIdx_map, List.map_map]
  rfl

theorem Product.differentiate_reference (direction : Index) (p : Product K) :
    p.differentiate (fun f => (pure (f.referenceDerivative direction) : Id Factor)) =
      p.places.map (·.referenceDerivative direction) := by
  rw [places, List.map_map, differentiate]
  exact List.idRun_mapM

/-! ### Derivatives of expressions -/

namespace Expr

variable [One K]

/-- No index of the expression is one of the slots. -/
def Avoids (bound : Slot → Bool) (e : Expr K) : Prop :=
  ∀ p ∈ e.products, p.Avoids bound

/-- The places of all basis functions of an expression. -/
def places (e : Expr K) : List (FunctionPlace K) :=
  e.products.flatMap Product.places

theorem mem_places {e : Expr K} {s : FunctionPlace K} :
    s ∈ e.places ↔ s.product ∈ e.products ∧
      s.product.basisFunctions[s.position]? = some s.function := by
  simp only [places, List.mem_flatMap, Product.mem_places]
  constructor
  · rintro ⟨p, hp, rfl, hs⟩
    exact ⟨hp, hs⟩
  · rintro ⟨hp, hs⟩
    exact ⟨_, hp, rfl, hs⟩

/-- A physical derivative has one term for each place, along the next unused slots. -/
theorem derivative_eq {e : Expr K} (h : e.kind ≠ .form) (direction : Index)
    (g : IndexGenerator) : ∃ r, e.derivative direction g = .ok (r, g.skip e.places.length) ∧
      r.kind ≠ .scalar ∧ r.kind ≠ .form ∧
      r.products = (e.places.zipIdx g.secondary).map fun (s, id) => s.derivative direction id := by
  cases e with
  | scalar _ => exact ⟨sum [], rfl, nofun, nofun, rfl⟩
  | basis v => exact ⟨_, rfl, nofun, nofun, rfl⟩
  | factor f => exact ⟨_, rfl, nofun, nofun, rfl⟩
  | product p =>
    have hrun : (product p).derivative direction g =
        .ok (sum ((p.differentiate (Factor.derivative direction)).run g).1,
          ((p.differentiate (Factor.derivative direction)).run g).2) := rfl
    have hplaces : (product p).places = p.places := List.flatMap_singleton _ _
    rw [hrun, p.run_differentiate, hplaces]
    exact ⟨_, rfl, nofun, nofun, rfl⟩
  | sum ps =>
    obtain ⟨hproducts, hgenerator⟩ := run_mapM_places (Product.run_differentiate direction) ps g
    have hrun : (sum ps).derivative direction g =
        .ok (sum ((ps.mapM (Product.differentiate (Factor.derivative direction))).run g).1.flatten,
          ((ps.mapM (Product.differentiate (Factor.derivative direction))).run g).2) := rfl
    rw [hrun, hproducts, hgenerator]
    exact ⟨_, rfl, nofun, nofun, rfl⟩
  | form _ => exact absurd rfl h

/-- A derivative in a reference direction has one term for each place. -/
theorem referenceDerivative_eq {e : Expr K} (h : e.kind ≠ .form) (direction : Index) :
    ∃ r, e.referenceDerivative direction = .ok r ∧ r.kind ≠ .scalar ∧ r.kind ≠ .form ∧
      r.products = e.places.map (·.referenceDerivative direction) := by
  cases e with
  | scalar _ => exact ⟨sum [], rfl, nofun, nofun, rfl⟩
  | basis v => exact ⟨_, rfl, nofun, nofun, rfl⟩
  | factor f =>
    refine ⟨_, rfl, nofun, nofun, ?_⟩
    have hreplace : (f.toProduct : Product K).transforms ++ [] = f.transforms := List.append_nil _
    show [_] = [FunctionPlace.referenceDerivative direction ⟨f.toProduct, f.basisFunction, 0⟩]
    rw [FunctionPlace.referenceDerivative, FunctionPlace.replace, hreplace]
    rfl
  | product p =>
    have hrun : (product p).referenceDerivative direction = .ok (sum (p.differentiate
        fun f => (pure (f.referenceDerivative direction) : Id Factor))) := rfl
    have hplaces : (product p).places = p.places := List.flatMap_singleton _ _
    rw [hrun, p.differentiate_reference, hplaces]
    exact ⟨_, rfl, nofun, nofun, rfl⟩
  | sum ps =>
    have hrun : (sum ps).referenceDerivative direction = .ok (sum (ps.mapM (Product.differentiate
        fun f => (pure (f.referenceDerivative direction) : Id Factor)) : Id _).flatten) := rfl
    have hmap : (ps.mapM (Product.differentiate
        fun f => (pure (f.referenceDerivative direction) : Id Factor)) : Id _) =
        ps.map fun p => p.places.map (·.referenceDerivative direction) := by
      exact List.idRun_mapM.trans
        (List.map_congr_left fun p _ => p.differentiate_reference direction)
    rw [hrun, hmap, places, List.map_flatMap]
    exact ⟨_, rfl, nofun, nofun, rfl⟩
  | form _ => exact absurd rfl h

end Expr

end WeakForm
