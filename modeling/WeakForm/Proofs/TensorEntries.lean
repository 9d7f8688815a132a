import WeakForm.Proofs.Axes
import WeakForm.Proofs.LiteralIntegrals
import WeakForm.Proofs.ReferenceTensors

/-!
# The entries of a reference tensor

A reference tensor that has been computed has an axis for every primary and every secondary slot of
its basis functions, if their numbers are machine words.  Where the values of the axes are in range,
its entry is the constant times the sum over the values of the auxiliary slots of the integral of
the basis functions; elsewhere it is zero (`get?_referenceTensor`).  The integrals exist for all
values in range (`quadrature_eq_ok_of_inRange`).  All this holds for the basis functions in any
order.
-/

namespace WeakForm

open Indexed

/-! ### Values for all axes -/

/-- Values for all axes are values for all slots of the basis functions. -/
theorem cover_of_axes {vs : List BasisFunction} {i a b : MultiIndex} {values : IndexValues}
    (hi : AxesOf vs .primary i) (ha : AxesOf vs .secondary a) (hb : AxesOf vs .auxiliary b)
    (hiv : values.primary.length = i.indices.length)
    (hav : values.secondary.length = a.indices.length)
    (hbv : values.auxiliary.length = b.indices.length) :
    values.Cover values.assignment (indices vs) := by
  intro j hj
  cases j with
  | fixed v => rfl
  | slot k id r =>
    have hget : ∀ xs : List ℕ, id < xs.length → xs[id]? = some (xs.getD id 0) := fun xs hlt => by
      rw [List.getElem?_eq_getElem hlt, List.getD_eq_getElem _ _ hlt]
    cases k with
    | primary => exact hget _ (hiv ▸ hi.lt_of_mem hj)
    | secondary => exact hget _ (hav ▸ ha.lt_of_mem hj)
    | auxiliary => exact hget _ (hbv ▸ hb.lt_of_mem hj)

/-! ### Entries and integrals -/

section Entries

variable {K : Type} [Field K] [Numerics K] [LE K] [DecidableLE K] [Tabulation K]

/-- The integral of basis functions whose indices are given values, zero if it does not exist. -/
def quadratureValue (settings : CompilerSettings) (domain : QuadratureDomain)
    (vs : List BasisFunction) (a : Slot → ℕ) : K :=
  match quadrature settings domain vs a with
  | .ok z => z
  | .error _ => 0

theorem quadratureValue_of_eq_ok {settings : CompilerSettings} {domain : QuadratureDomain}
    {vs : List BasisFunction} {a : Slot → ℕ} {z : K} (h : quadrature settings domain vs a = .ok z) :
    quadratureValue settings domain vs a = z := by
  rw [quadratureValue, h]

theorem quadratureValue_congr {settings : CompilerSettings} {domain : QuadratureDomain}
    {vs : List BasisFunction} {a b : Slot → ℕ}
    (h : ∀ i ∈ indices vs, i.valueIn a = i.valueIn b) :
    quadratureValue (K := K) settings domain vs a = quadratureValue settings domain vs b := by
  rw [quadratureValue, quadrature_congr h, quadratureValue]

variable [Enumeration] {settings : CompilerSettings} {domain : QuadratureDomain} {p : Monomial K}
variable {t : ReferenceTensor K} {ws : List BasisFunction}

theorem axes_of_referenceTensor (hfits : p.FitsAxes)
    (ht : Form.referenceTensor settings p domain = .ok t) :
    AxesOf p.basisFunctions .primary t.i ∧ AxesOf p.basisFunctions .secondary t.a ∧
      AxesOf p.basisFunctions .auxiliary t.b := by
  obtain ⟨_, -, ht⟩ := bind_eq_ok.mp ht
  obtain ⟨_, -, ht⟩ := bind_eq_ok.mp ht
  obtain ⟨⟨hi, ha, hb⟩, -⟩ := ReferenceTensor.exists_data_of_compute ht
  exact ⟨(hi.firstAxes (hfits _)).axesOf, (ha.firstAxes (hfits _)).axesOf,
    (hb.firstAxes (hfits _)).axesOf⟩

/-- The entry of a computed tensor, and the existence of the integrals it is the sum of. -/
theorem get?_referenceTensor (hfits : p.FitsAxes)
    (ht : Form.referenceTensor settings p domain = .ok t) (hperm : ws.Perm p.basisFunctions)
    {iv av : List ℕ} (hiv : iv ∈ t.i.values) (hav : av ∈ t.a.positions) :
    t.get? iv av = some (if t.a.contains av then p.constant * (t.b.values.map fun bv =>
      quadratureValue settings domain ws (IndexValues.assignment ⟨iv, av, bv⟩)).sum else 0) ∧
    (t.a.contains av = true → ∀ bv ∈ t.b.values, ∃ z : K,
      quadrature settings domain ws (IndexValues.assignment ⟨iv, av, bv⟩) = .ok z) := by
  obtain ⟨hi, ha, hb⟩ := axes_of_referenceTensor hfits ht
  obtain ⟨x, hx, ht⟩ := bind_eq_ok.mp ht
  obtain ⟨y, hy, ht⟩ := bind_eq_ok.mp ht
  obtain ⟨z, hget, hz⟩ := ReferenceTensor.get?_of_compute ht
    (MultiIndex.mem_positions_iff.mp (MultiIndex.mem_positions hi.lt hiv))
    (MultiIndex.mem_positions_iff.mp hav)
  rw [hget]
  by_cases hc : t.a.contains av = true
  · obtain ⟨zs, hzs, rfl⟩ := (ReferenceTensor.entry_of_inRange (MultiIndex.mem_values_iff.mp hiv)
      (MultiIndex.mem_values_iff.mp (MultiIndex.contains_iff.mp hc))).mp hz
    rw [← mapM_eq_ok] at hzs
    rw [← List.sum_eq_foldl]
    have hquad : ∀ bv ∈ t.b.values, ∀ z, y.integrate ⟨iv, av, bv⟩ = .ok z →
        quadrature settings domain ws (IndexValues.assignment ⟨iv, av, bv⟩) = .ok z :=
      fun bv hbv z hz => quadrature_eq_ok hx hy hz hperm <| cover_of_axes hi ha hb
        (MultiIndex.length_of_mem_values hiv)
        (MultiIndex.length_of_mem_values (MultiIndex.contains_iff.mp hc))
        (MultiIndex.length_of_mem_values hbv)
    refine ⟨?_, fun _ bv hbv => ?_⟩
    · rw [if_pos hc]
      congr 3
      exact eq_map_of_mapM_eq_ok hzs fun bv hbv z hz => quadratureValue_of_eq_ok (hquad bv hbv z hz)
    · obtain ⟨z, hz⟩ := exists_of_mem_of_mapM_eq_ok hzs hbv
      exact ⟨z, hquad bv hbv z hz⟩
  · rw [ReferenceTensor.entry_of_not_inRange fun h =>
      hc (MultiIndex.contains_iff.mpr (MultiIndex.mem_values_iff.mpr h.2))] at hz
    cases hz
    exact ⟨by rw [if_neg hc], fun h => absurd h hc⟩

/-- The integral exists for all values in range. -/
theorem quadrature_eq_ok_of_inRange (hfits : p.FitsAxes)
    (ht : Form.referenceTensor settings p domain = .ok t) (hperm : ws.Perm p.basisFunctions)
    {a : Slot → ℕ} (ha : ∀ i ∈ indices ws, i.valueIn a ∈ i.range) :
    quadrature (K := K) settings domain ws a = .ok (quadratureValue settings domain ws a) := by
  obtain ⟨hi, hs, hb⟩ := axes_of_referenceTensor hfits ht
  have hindices : (indices ws).Perm (indices p.basisFunctions) := hperm.flatMap_right _
  have ha' : ∀ i ∈ indices p.basisFunctions, i.valueIn a ∈ i.range := fun i hi =>
    ha i (hindices.mem_iff.mpr hi)
  let values (k : SlotKind) (m : MultiIndex) : List ℕ :=
    (List.range m.indices.length).map fun id => a ⟨k, id⟩
  have hvalues : ∀ (k : SlotKind) (m : MultiIndex), AxesOf p.basisFunctions k m →
      values k m ∈ m.values := fun k m h => h.map_range_mem_values fun id r hmem => ha' _ hmem
  have hav := hvalues _ _ hs
  obtain ⟨z, hz⟩ := (get?_referenceTensor hfits ht hperm (hvalues _ _ hi)
    (MultiIndex.mem_positions hs.lt hav)).2 (MultiIndex.contains_iff.mpr hav) _ (hvalues _ _ hb)
  -- on the slots of the basis functions, the assignment is the one by these lists
  have hcongr : quadrature (K := K) settings domain ws a = .ok z := by
    rw [← hz]
    refine quadrature_congr fun i hmem => ?_
    have hget : ∀ k id m, id < m.indices.length → a ⟨k, id⟩ = (values k m).getD id 0 := by
      intro k id m hlt
      have hlen : id < (values k m).length := by rwa [List.length_map, List.length_range]
      rw [List.getD_eq_getElem _ _ hlen, List.getElem_map, List.getElem_range]
    rw [hindices.mem_iff] at hmem
    cases i with
    | fixed v => rfl
    | slot k id r =>
      cases k with
      | primary => exact hget _ _ _ (hi.lt_of_mem hmem)
      | secondary => exact hget _ _ _ (hs.lt_of_mem hmem)
      | auxiliary => exact hget _ _ _ (hb.lt_of_mem hmem)
  rw [hcongr, quadratureValue_of_eq_ok hcongr]

end Entries

end WeakForm
