import WeakForm.Proofs.DerivativeTerms

/-!
# Values with bound slots

Values of expressions are taken with sums over some of their slots, the bound ones; all other slots
have a value by an assignment (`Expr.valueOver`).  Each product of an expression has sums of its
own, so that slots may be bound in several products.  Multiplication is that of the ring if one of
the operands has no bound slots (`Expr.valueOver_mul`): its values can be taken out of the sums.
Addition always is (`Expr.valueOver_add`).
-/

namespace WeakForm

open Indexed

variable {R : Type} [CommRing R]

/-! ### Sums over bound slots -/

/-- Factors have the same values if their indices do. -/
theorem resolvedProd_congr {α : Type} [Indexed α] {value : α → R} {xs : List α} {a b : Slot → ℕ}
    (h : ∀ i ∈ indices xs, i.valueIn a = i.valueIn b) :
    resolvedProd value xs a = resolvedProd value xs b := by
  refine congrArg List.prod (List.map_congr_left fun x hx => congrArg value ?_)
  refine mapIndices_congr fun i hi => ?_
  rw [Index.resolve, Index.resolve, h i (List.mem_flatMap.mpr ⟨x, hx, hi⟩)]

theorem FactorValues.outer_congr {K : Type} (v : FactorValues R) {p : Product K} {a b : Slot → ℕ}
    (h : ∀ i ∈ indices p, i.valueIn a = i.valueIn b) : v.outer p a = v.outer p b := by
  simp only [Product.indices_eq, List.mem_append] at h
  rw [outer, outer, resolvedProd_congr fun i hi => h i (.inr (.inl hi)),
    resolvedProd_congr fun i hi => h i (.inr (.inr hi))]

/-- Sums from one assignment agree if the summands do wherever that assignment is kept outside the
slots of the list. -/
theorem sumOver_congr_of_kept {range range' : Slot → Finset ℕ} {ss : List Slot}
    {F G : (Slot → ℕ) → R} {a : Slot → ℕ} (hr : ∀ s ∈ ss, range s = range' s)
    (hFG : ∀ c : Slot → ℕ, (∀ s, s ∉ ss → c s = a s) → F c = G c) :
    sumOver range ss F a = sumOver range' ss G a := by
  refine sumOver_congr hr fun c d hcd hab => ?_
  have hc : c = d := funext fun s => by
    by_cases hs : s ∈ ss
    · exact hcd s hs
    · exact (hab s hs).1.trans (hab s hs).2.symm
  rw [← hc]
  exact hFG c fun s hs => (hab s hs).1

theorem Index.Avoids.valueIn_eq {bound : Slot → Bool} {i : Index} (h : i.Avoids bound)
    {a b : Slot → ℕ} (hab : ∀ s, bound s = false → a s = b s) : i.valueIn a = i.valueIn b := by
  cases i with
  | slot k id r => exact hab _ (h _ rfl)
  | fixed x => rfl

namespace Product

section
variable {K : Type} {bound : Slot → Bool} {p q : Product K}

/-- The bound slots of a product. -/
def boundSlots (bound : Slot → Bool) (p : Product K) : List Slot :=
  (summedSlots (indices p)).filter bound

theorem nodup_boundSlots : (p.boundSlots bound).Nodup :=
  (nodup_summedSlots _).filter _

theorem mem_boundSlots {s : Slot} : s ∈ p.boundSlots bound ↔
    (∃ i ∈ indices p, i.slot? = some s) ∧ s.isSummed = true ∧ bound s = true := by
  rw [boundSlots, List.mem_filter, mem_summedSlots, and_assoc]

/-- The sum over the values of the bound slots of a product. -/
def sumBound (bound : Slot → Bool) (p : Product K) (F : (Slot → ℕ) → R) (a : Slot → ℕ) : R :=
  sumOver (slotValues (indices p)) (p.boundSlots bound) F a

/-- The sum depends on the bound indices of the product only. -/
theorem sumBound_congr (h : ∀ i s, i.slot? = some s → bound s = true →
    (i ∈ indices p ↔ i ∈ indices q)) (F : (Slot → ℕ) → R) (a : Slot → ℕ) :
    p.sumBound bound F a = q.sumBound bound F a := by
  have hslots : (p.boundSlots bound).Perm (q.boundSlots bound) := by
    rw [List.perm_ext_iff_of_nodup nodup_boundSlots nodup_boundSlots]
    intro s
    rw [mem_boundSlots, mem_boundSlots]
    exact and_congr_left fun hs => exists_congr fun i => and_congr_left fun hi => h i s hi hs.2
  have hvalues : ∀ s ∈ q.boundSlots bound,
      slotValues (indices p) s = slotValues (indices q) s := by
    intro s hs
    ext x
    rw [mem_slotValues, mem_slotValues]
    exact exists_congr fun i => and_congr_left fun hi => h i s hi.1 (mem_boundSlots.mp hs).2.2
  rw [sumBound, sumOver_perm _ hslots]
  exact sumOver_congr_of_kept hvalues fun _ _ => rfl

theorem mem_indices_times [Mul K] {i : Index} :
    i ∈ indices (p.times q) ↔ i ∈ indices p ∨ i ∈ indices q := by
  simp only [indices_eq, times, indices_list, List.flatMap_append, List.mem_append]
  tauto

theorem Avoids.times [Mul K] (hp : p.Avoids bound) (hq : q.Avoids bound) :
    (p.times q).Avoids bound :=
  fun i hi => (mem_indices_times.mp hi).elim (hp i) (hq i)

end

/-- The value of a product, with a sum over the values of each of its bound slots. -/
def valueOver (bound : Slot → Bool) (v : PointValues R) (a : Slot → ℕ) (p : Product R) : R :=
  p.sumBound bound (fun b => p.value v b) a

variable {bound : Slot → Bool} {v : PointValues R} {a : Slot → ℕ} {p q : Product R}

/-- The value of a product without bound slots depends on the other slots only. -/
theorem Avoids.value_eq (h : p.Avoids bound) {b : Slot → ℕ}
    (hab : ∀ s, bound s = false → a s = b s) : p.value v a = p.value v b := by
  have hindex : ∀ i ∈ indices p, i.valueIn a = i.valueIn b := fun i hi => (h i hi).valueIn_eq hab
  rw [value, value, v.outer_congr hindex,
    resolvedProd_congr fun i hi => hindex i (List.mem_append_left _ hi)]

theorem Avoids.valueOver_eq (h : p.Avoids bound) : p.valueOver bound v a = p.value v a := by
  have hnil : p.boundSlots bound = [] := by
    refine List.eq_nil_iff_forall_not_mem.mpr fun s hs => ?_
    obtain ⟨⟨i, hi, his⟩, -, hbound⟩ := mem_boundSlots.mp hs
    exact (h i hi).slot?_ne hbound his
  rw [valueOver, sumBound, hnil]
  rfl

theorem valueOver_scaled (p : Product R) (x : R) :
    (p.scaled x).valueOver bound v a = p.valueOver bound v a * x := by
  have hvalue : ∀ b, (p.scaled x).value v b = x * p.value v b := fun b => by
    rw [value_scaled, mul_comm]
  have hsum : (p.scaled x).valueOver bound v a =
      p.sumBound bound (fun b => x * p.value v b) a := by
    rw [valueOver, funext hvalue]
    rfl
  rw [hsum, sumBound, mul_sumOver, mul_comm]
  rfl

/-- A factor without bound slots can be taken out of the sums. -/
theorem valueOver_times_right (hq : q.Avoids bound) :
    (p.times q).valueOver bound v a = p.valueOver bound v a * q.valueOver bound v a := by
  have hmem : ∀ i s, i.slot? = some s → bound s = true →
      (i ∈ indices (p.times q) ↔ i ∈ indices p) := by
    intro i s hi hs
    rw [mem_indices_times, or_iff_left fun hiq => (hq i hiq).slot?_ne hs hi]
  have hfactor : p.sumBound bound (fun b => (p.times q).value v b) a =
      p.sumBound bound (fun b => q.value v a * p.value v b) a := by
    refine sumOver_congr_of_kept (fun _ _ => rfl) fun c hc => ?_
    -- the sums change bound slots only, and the second factor has none
    have hq' : q.value v c = q.value v a := hq.value_eq fun s hs => by
      refine hc s fun hmem => ?_
      rw [(mem_boundSlots.mp hmem).2.2] at hs
      cases hs
    rw [value_times, hq', mul_comm]
  rw [valueOver, sumBound_congr hmem, hfactor, sumBound, mul_sumOver, mul_comm, hq.valueOver_eq]
  rfl

theorem valueOver_times (h : p.Avoids bound ∨ q.Avoids bound) :
    (p.times q).valueOver bound v a = p.valueOver bound v a * q.valueOver bound v a := by
  rcases h with hp | hq
  · have hcomm : (p.times q).valueOver bound v a = (q.times p).valueOver bound v a := by
      have hvalue : ∀ b, (p.times q).value v b = (q.times p).value v b := fun b => by
        rw [value_times, value_times, mul_comm]
      rw [valueOver, funext hvalue, sumBound_congr fun i _ _ _ => ?_]
      · rfl
      · rw [mem_indices_times, mem_indices_times, or_comm]
    rw [hcomm, valueOver_times_right hp, mul_comm]
  · exact valueOver_times_right hq

end Product

/-! ### Products of sums -/

theorem Product.sum_map_mulTerms (F : Product R → R) (ps qs : List (Product R)) :
    ((Expr.mulTerms ps qs).map F).sum =
      (ps.map fun p => (qs.map fun q => F (p.times q)).sum).sum := by
  rw [Expr.mulTerms, List.map_flatMap, List.flatMap_def, List.sum_flatten, List.map_map]
  simp only [Function.comp_def, List.map_map]

namespace Expr

theorem kind_scaled? {e r : Expr R} {x : R} (h : e.scaled? x = some r) :
    (r.kind = .scalar ↔ e.kind = .scalar) ∧ r.kind ≠ .form := by
  cases e <;> cases h <;> simp [kind]

theorem terms?_of_linear? {e : Expr R} {p : Product R} (h : e.linear? = some p) :
    e.terms? = some [p] := by
  cases e <;> cases h <;> rfl

/-- What a multiplication that returns has done: one operand is a scalar that multiplies the other
one, or the products of both are multiplied in pairs. -/
theorem mul_eq_ok {e f r : Expr R} (h : e.mul f = .ok r) :
    (∃ x, e = scalar x ∧ f.scaled? x = some r) ∨ (∃ x, f = scalar x ∧ e.scaled? x = some r) ∨
      (e.kind ≠ .scalar ∧ f.kind ≠ .scalar ∧ r.kind ≠ .scalar ∧ r.kind ≠ .form ∧
        r.products = mulTerms e.products f.products) := by
  rcases mul_cases e f with hform | ⟨x, r', rfl, hf, h'⟩ | ⟨x, r', rfl, he, h'⟩ |
    ⟨p, q, he, hf, h'⟩ | ⟨ps, qs, he, hf, h'⟩
  · rw [mul_of_form hform] at h
    cases h
  · cases h'.symm.trans h
    exact .inl ⟨x, rfl, hf⟩
  · cases h'.symm.trans h
    exact .inr (.inl ⟨x, rfl, he⟩)
  · cases h'.symm.trans h
    refine .inr (.inr ⟨(kind_of_terms? (terms?_of_linear? he)).1,
      (kind_of_terms? (terms?_of_linear? hf)).1, nofun, nofun, ?_⟩)
    rw [products_of_linear? he, products_of_linear? hf]
    rfl
  · cases h'.symm.trans h
    refine .inr (.inr ⟨(kind_of_terms? he).1, (kind_of_terms? hf).1, nofun, nofun, ?_⟩)
    rw [products_of_terms? he, products_of_terms? hf]
    rfl

theorem kind_mul {e f r : Expr R} (h : e.mul f = .ok r) :
    (r.kind = .scalar ↔ e.kind = .scalar ∧ f.kind = .scalar) ∧ r.kind ≠ .form := by
  rcases mul_eq_ok h with ⟨x, rfl, hf⟩ | ⟨x, rfl, he⟩ | ⟨he, hf, hr, hform, -⟩
  · obtain ⟨hscalar, hform⟩ := kind_scaled? hf
    exact ⟨hscalar.trans (by simp [kind]), hform⟩
  · obtain ⟨hscalar, hform⟩ := kind_scaled? he
    exact ⟨hscalar.trans (by simp [kind]), hform⟩
  · exact ⟨by simp [he, hf, hr], hform⟩

theorem kind_add {e f r : Expr R} (he : e.kind ≠ .form) (h : e.add f = .ok r) :
    r.kind ≠ .form := by
  rcases add_cases e f with ⟨x, y, rfl, rfl, h'⟩ | ⟨g, k, rfl, rfl, h'⟩ | ⟨ps, qs, _, _, h'⟩ |
    ⟨-, h'⟩
  · cases h'.symm.trans h
    nofun
  · exact absurd rfl he
  · cases h'.symm.trans h
    nofun
  · cases h'.symm.trans h

theorem Avoids.mul {bound : Slot → Bool} {e f r : Expr R} (he : e.Avoids bound)
    (hf : f.Avoids bound) (h : e.mul f = .ok r) : r.Avoids bound := by
  intro q hq
  rcases products_mul h q hq with ⟨p, hp, c, rfl⟩ | ⟨p, hp, p', hp', rfl⟩
  · rcases List.mem_append.mp hp with hp | hp
    · exact he p hp
    · exact hf p hp
  · exact (he p hp).times (hf p' hp')

/-- The value of an expression, with a sum over the values of the bound slots of each product. -/
def valueOver (bound : Slot → Bool) (v : PointValues R) (a : Slot → ℕ) : Expr R → R
  | scalar x => x
  | e => (e.products.map (Product.valueOver bound v a)).sum

variable {bound : Slot → Bool} {v : PointValues R} {a : Slot → ℕ} {e f r : Expr R}

theorem valueOver_of_kind (h : e.kind ≠ .scalar) :
    e.valueOver bound v a = (e.products.map (Product.valueOver bound v a)).sum := by
  cases e with
  | scalar x => exact absurd rfl h
  | _ => rfl

theorem valueOver_scaled? {x : R} (h : e.scaled? x = some r) :
    r.valueOver bound v a = e.valueOver bound v a * x := by
  by_cases he : e.kind = .scalar
  · cases e with
    | scalar y =>
      cases h
      rfl
    | _ => cases he
  · rw [valueOver_of_kind he, valueOver_of_kind (mt (kind_scaled? h).1.mp he),
      products_scaled? h, List.map_map, ← List.sum_map_mul_right]
    exact congrArg List.sum (List.map_congr_left fun p _ => p.valueOver_scaled x)

/-- Multiplication is that of the ring, if the operands have no bound slots in common. -/
theorem valueOver_mul (hav : e.Avoids bound ∨ f.Avoids bound) (h : e.mul f = .ok r) :
    r.valueOver bound v a = e.valueOver bound v a * f.valueOver bound v a := by
  rcases mul_eq_ok h with ⟨x, rfl, hf⟩ | ⟨x, rfl, he⟩ | ⟨he, hf, hr, -, hproducts⟩
  · rw [valueOver_scaled? hf, mul_comm]
    rfl
  · exact valueOver_scaled? he
  · have htimes : ∀ p ∈ e.products, ∀ q ∈ f.products, (p.times q).valueOver bound v a =
        p.valueOver bound v a * q.valueOver bound v a := fun p hp q hq =>
      Product.valueOver_times (hav.imp (fun h => h p hp) (fun h => h q hq))
    rw [valueOver_of_kind he, valueOver_of_kind hf, valueOver_of_kind hr, hproducts,
      Product.sum_map_mulTerms, ← List.sum_map_mul_right]
    refine congrArg List.sum (List.map_congr_left fun p hp => ?_)
    rw [← List.sum_map_mul_left]
    exact congrArg List.sum (List.map_congr_left fun q hq => htimes p hp q hq)

theorem valueOver_add (he : e.kind ≠ .scalar) (hf : f.kind ≠ .scalar) (h : e.add f = .ok r) :
    r.valueOver bound v a = e.valueOver bound v a + f.valueOver bound v a := by
  have hr : r.kind ≠ .scalar := by
    rcases add_cases e f with ⟨x, y, rfl, rfl, h'⟩ | ⟨g, k, rfl, rfl, h'⟩ | ⟨ps, qs, _, _, h'⟩ |
      ⟨-, h'⟩
    · exact absurd rfl he
    · cases h'.symm.trans h
      nofun
    · cases h'.symm.trans h
      nofun
    · cases h'.symm.trans h
  rw [valueOver_of_kind he, valueOver_of_kind hf, valueOver_of_kind hr, products_add h,
    List.map_append, List.sum_append]

/-- Without bound slots the value is that of the expression. -/
theorem Avoids.valueOver_eq (h : e.Avoids bound) (he : e.kind ≠ .form) (i : Integral) :
    e.valueOver bound v a = e.value v i a := by
  have hsum : (e.products.map (Product.valueOver bound v a)).sum =
      Product.sumValue v a e.products :=
    congrArg List.sum (List.map_congr_left fun p hp => (h p hp).valueOver_eq)
  cases hterms : e.terms? with
  | none =>
    cases e with
    | scalar x => rfl
    | form g => exact absurd rfl he
    | _ => cases hterms
  | some ps =>
    rw [valueOver_of_kind (kind_of_terms? hterms).1, hsum, products_of_terms? hterms,
      value_of_terms? v i a hterms]

end Expr

end WeakForm
