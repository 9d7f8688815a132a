import Mathlib.Data.List.Nodup
import Mathlib.Data.List.Perm.Basic
import WeakForm.Enumeration.Recursive
import WeakForm.Proofs.TensorRepresentation

/-!
# Complete and consistent representations

Compilation groups the monomials of the simplified form by their measures and computes the tensors
of each group by itself.  `TensorRepresentation.Consistent` says that the groups fit together: every
monomial is a term of its own measure once, and the representative of a term is a term of the same
group, whose tensors are there on all domains.  `Form.compile_consistent` proves it of everything
that compilation returns.

The representative that reordering has found for a monomial lies in the same group because hard
signatures contain the measure.  Its constant is not zero because the last round of the simplifier
has dropped such monomials, and nothing after it changes constants.
-/

namespace WeakForm

open Indexed

/-! ### Order of first occurrence -/

/-- Duplicates are erased so that the first occurrences remain in order. -/
theorem pairwise_eraseDups {α : Type} [DecidableEq α] (l : List α) :
    l.eraseDups.Pairwise fun x y => l.idxOf x < l.idxOf y := by
  induction l using List.reverseRecOn with
  | nil => exact .nil
  | append_singleton l x ih =>
    rw [List.eraseDups_append]
    have hold : ∀ y ∈ l.eraseDups, (l ++ [x]).idxOf y = l.idxOf y := fun y hy =>
      List.idxOf_append_of_mem (List.mem_eraseDups.mp hy)
    have hpast : l.eraseDups.Pairwise fun y z => (l ++ [x]).idxOf y < (l ++ [x]).idxOf z := by
      refine ih.imp_of_mem fun hy hz h => ?_
      rwa [hold _ hy, hold _ hz]
    by_cases hx : x ∈ l
    · have hnone : [x].removeAll l = [] := by simp [List.removeAll, hx]
      rw [hnone]
      simpa using hpast
    · have hone : [x].removeAll l = [x] := by simp [List.removeAll, hx]
      rw [hone]
      refine List.pairwise_append.mpr ⟨hpast, List.pairwise_singleton _ _, fun y hy z hz => ?_⟩
      obtain rfl : z = x := by simpa using hz
      rw [hold y hy, List.idxOf_append_of_notMem hx]
      have := List.idxOf_lt_length_of_mem (List.mem_eraseDups.mp hy)
      omega

/-! ### Constants -/

section Constants

variable {K : Type} [Constant K] [BEq K] [Zero K]

/-- The constant is finite and not zero. -/
def Monomial.Scalable (m : Monomial K) : Prop :=
  Constant.isFinite m.constant = true ∧ (m.constant == 0) = false

theorem Monomial.Scalable.mapIndices {m : Monomial K} (h : m.Scalable) (f : Index → Index) :
    (mapIndices f m).Scalable := by
  rw [Monomial.mapIndices_eq]
  exact h

namespace Form

variable {f g : Form K}

theorem scalable_of_round [Add K] (h : f.round = .ok g) : ∀ m ∈ g.monomials, m.Scalable := by
  obtain ⟨c, -, hg, hfinite⟩ := round_eq_ok h
  intro m hm
  refine ⟨by simpa using List.find?_eq_none.mp hfinite m hm, ?_⟩
  -- the passes after zero elimination keep constants
  rw [hg, renumber_eq_map] at hm
  obtain ⟨m₃, hm₃, rfl⟩ := List.mem_map.mp hm
  obtain ⟨m₂, hm₂, rfl⟩ := List.mem_map.mp hm₃
  obtain ⟨m₁, hm₁, rfl⟩ := List.mem_map.mp hm₂
  have hne : (m₁.constant == 0) = false := by simpa using (List.mem_filter.mp hm₁).2
  exact hne

theorem scalable_of_simplify [Add K] [LawfulConstant K] (h : f.simplify = .ok g) :
    ∀ m ∈ g.monomials, m.Scalable := by
  obtain ⟨hb, hf⟩ := checks_of_simplify h
  obtain ⟨n, -, hrun⟩ := simplify_runs hb hf
  obtain ⟨u, -, hu, -⟩ := hrun.last (P := fun _ => True) (fun _ _ _ _ => trivial) trivial h
  exact scalable_of_round hu

theorem scalable_of_markAuxiliary (h : f.markAuxiliary = .ok g)
    (hf : ∀ m ∈ f.monomials, m.Scalable) : ∀ m ∈ g.monomials, m.Scalable := by
  obtain ⟨-, rfl⟩ := markAuxiliary_eq_ok.mp h
  intro n hn
  obtain ⟨m', hm', rfl⟩ := List.mem_map.mp hn
  obtain ⟨m, hm, rfl⟩ := List.mem_map.mp hm'
  exact ((hf m hm).mapIndices _).mapIndices _

end Form

end Constants

/-! ### Sharing -/

namespace Form

variable {K : Type} {f g : Form K} {F : List (Option ℕ)}

/-- Every monomial has a representative with its measure, which represents itself. -/
structure Represented (f : Form K) (F : List (Option ℕ)) : Prop where
  length_eq : F.length = f.size
  exists_representative : ∀ (j : ℕ) (q : Monomial K), f.monomials[j]? = some q →
    ∃ p, f.monomials[F[j]?.join.getD j]? = some p ∧ p.integral = q.integral ∧
      F[F[j]?.join.getD j]? = some none

/-- Reordering relabels monomials, and gives each of them a representative. -/
theorem reorder_spec [Enumeration] (h : f.reorder = .ok (g, F)) :
    List.Forall₂ Monomial.IsRelabelling f.monomials g.monomials ∧ g.Represented F := by
  obtain ⟨es, hes, hreached⟩ | ⟨e, _, _, he, -, -⟩ := f.reorder_cases
  swap
  · rw [h] at he
    cases he
  rw [h] at hes
  cases hes
  have hlen := (reached_iff.mp hreached).1
  refine ⟨hreached.forall₂_isRelabelling, by simp [size], fun j q hq => ?_⟩
  obtain ⟨e, he, rfl⟩ : ∃ e, es[j]? = some e ∧ e.monomial = q := by
    rwa [List.getElem?_map, Option.map_eq_some_iff] at hq
  have hj : j < f.size := hlen ▸ (List.getElem?_eq_some_iff.mp he).1
  obtain ⟨p, -, hp, hrep, -, hhard⟩ :=
    hreached.exists_representative (List.getElem?_eq_getElem hj) he
  exact ⟨p, hp, (Monomial.signature_eq_iff.mp hhard).1.symm, hrep⟩

theorem scalable_of_reorder [Enumeration] [Constant K] [BEq K] [Zero K] (h : f.reorder = .ok (g, F))
    (hf : ∀ m ∈ f.monomials, m.Scalable) : ∀ m ∈ g.monomials, m.Scalable := by
  obtain ⟨hrel, -⟩ := reorder_spec h
  intro q' hq'
  obtain ⟨j, hj⟩ := List.mem_iff_getElem?.mp hq'
  obtain ⟨hlen, hget⟩ := List.forall₂_iff_get.mp hrel
  obtain ⟨hj', rfl⟩ := List.getElem?_eq_some_iff.mp hj
  have hq := hget j (by omega) hj'
  rw [Monomial.Scalable, List.get_eq_getElem, List.get_eq_getElem] at *
  rw [hq.constant_eq]
  exact hf _ (List.getElem_mem _)

/-- The monomials of a measure, with their positions and those of their representatives. -/
theorem mem_sharing {i : Integral} {j r : ℕ} {m : Monomial K} :
    (j, r, m) ∈ f.sharing F i ↔ f.monomials[j]? = some m ∧ m.integral = i ∧
      ∃ s, F[j]? = some s ∧ r = s.getD j := by
  simp only [sharing, List.mem_map, List.mem_filter, decide_eq_true_eq, Prod.exists,
    Prod.mk.injEq, List.mem_zipIdx_iff_getElem?, List.getElem?_zip_eq_some]
  constructor
  · rintro ⟨m', s, j', ⟨⟨hm, hs⟩, hi⟩, rfl, rfl, rfl⟩
    exact ⟨hm, hi, s, hs, rfl⟩
  · rintro ⟨hm, hi, s, hs, rfl⟩
    exact ⟨m, s, j, ⟨⟨hm, hs⟩, hi⟩, rfl, rfl, rfl⟩

/-- The representative of a monomial is there with the same measure. -/
theorem Represented.mem_sharing (hF : f.Represented F) {i : Integral} {j r : ℕ} {m : Monomial K}
    (h : (j, r, m) ∈ f.sharing F i) :
    ∃ p, f.monomials[r]? = some p ∧ p.integral = i ∧ F[r]? = some none ∧
      (r, r, p) ∈ f.sharing F i := by
  obtain ⟨hm, hi, s, hs, rfl⟩ := Form.mem_sharing.mp h
  obtain ⟨p, hp, hpi, hrep⟩ := hF.exists_representative j m hm
  rw [hs, Option.join_some] at hp hrep
  exact ⟨p, hp, hpi.trans hi, hrep, Form.mem_sharing.mpr ⟨hp, hpi.trans hi, none, hrep, rfl⟩⟩

theorem Represented.mem_positions (hF : f.Represented F) {i : Integral} {j : ℕ} :
    j ∈ (f.sharing F i).map (·.1) ↔ ∃ m, f.monomials[j]? = some m ∧ m.integral = i := by
  simp only [List.mem_map, Prod.exists, Form.mem_sharing, exists_and_right, exists_eq_right]
  constructor
  · rintro ⟨r, m, hm, hi, -⟩
    exact ⟨m, hm, hi⟩
  · rintro ⟨m, hm, hi⟩
    have hj : j < F.length := hF.length_eq ▸ (List.getElem?_eq_some_iff.mp hm).1
    exact ⟨_, m, hm, hi, _, List.getElem?_eq_getElem hj, rfl⟩

theorem nodup_positions_sharing (f : Form K) (F : List (Option ℕ)) (i : Integral) :
    ((f.sharing F i).map (·.1)).Nodup := by
  have hall : ((f.monomials.zip F).zipIdx.map Prod.snd).Nodup := by
    rw [List.zipIdx_map_snd]
    exact List.nodup_range' _
  rw [sharing, List.map_map]
  exact hall.sublist (List.filter_sublist.map _)

/-- The monomials of a measure that represent themselves. -/
def representatives (f : Form K) (F : List (Option ℕ)) (i : Integral) :
    List (ℕ × ℕ × Monomial K) :=
  (f.sharing F i).filter fun (position, representative, _) => representative = position

theorem mem_representatives {i : Integral} {j r : ℕ} {m : Monomial K} :
    (j, r, m) ∈ f.representatives F i ↔ (j, r, m) ∈ f.sharing F i ∧ r = j := by
  rw [representatives, List.mem_filter, decide_eq_true_eq]

theorem nodup_positions_representatives (f : Form K) (F : List (Option ℕ)) (i : Integral) :
    ((f.representatives F i).map (·.1)).Nodup :=
  (f.nodup_positions_sharing F i).sublist (List.filter_sublist.map _)

/-- The monomials that represent themselves are the representatives of all monomials. -/
theorem Represented.mem_positions_representatives (hF : f.Represented F) {i : Integral} {r : ℕ} :
    r ∈ (f.representatives F i).map (·.1) ↔ r ∈ (f.sharing F i).map fun x => x.2.1 := by
  constructor
  · intro hr
    obtain ⟨⟨j, r', m⟩, hx, rfl⟩ := List.mem_map.mp hr
    obtain ⟨hx, hr'⟩ := Form.mem_representatives.mp hx
    exact List.mem_map.mpr ⟨_, hx, hr'⟩
  · intro hr
    obtain ⟨⟨j, r', m⟩, hx, rfl⟩ := List.mem_map.mp hr
    obtain ⟨p, -, -, -, hp⟩ := hF.mem_sharing hx
    exact List.mem_map.mpr ⟨_, Form.mem_representatives.mpr ⟨hp, rfl⟩, rfl⟩

/-- The positions of the monomials of all measures are those of the form. -/
theorem perm_positions (hF : f.Represented F) :
    (f.integrals.flatMap fun i => (f.sharing F i).map (·.1)).Perm
      (List.range f.size) := by
  have hdisjoint : f.integrals.Pairwise (Function.onFun List.Disjoint fun i =>
      (f.sharing F i).map (·.1)) := by
    refine (pairwise_eraseDups _).imp fun hlt j hj hj' => ?_
    obtain ⟨m, hm, rfl⟩ := hF.mem_positions.mp hj
    obtain ⟨m', hm', rfl⟩ := hF.mem_positions.mp hj'
    rw [hm, Option.some.injEq] at hm'
    rw [hm'] at hlt
    exact lt_irrefl _ hlt
  have hnodup := List.nodup_flatMap.mpr
    ⟨fun i _ => nodup_positions_sharing f F i, hdisjoint⟩
  refine (List.perm_ext_iff_of_nodup hnodup List.nodup_range).mpr fun j => ?_
  rw [List.mem_flatMap, List.mem_range]
  constructor
  · rintro ⟨i, -, hj⟩
    obtain ⟨m, hm, -⟩ := hF.mem_positions.mp hj
    exact (List.getElem?_eq_some_iff.mp hm).1
  · intro hj
    have hm : f.monomials[j]? = some f.monomials[j] := List.getElem?_eq_getElem hj
    exact ⟨_, List.mem_eraseDups.mpr (List.mem_map_of_mem (List.mem_of_getElem? hm)),
      hF.mem_positions.mpr ⟨_, hm, rfl⟩⟩

end Form

/-! ### Tensors of an integral -/

theorem lookup_of_mem {β : Type} {l : List (ℕ × β)} (hn : (l.map (·.1)).Nodup) {k : ℕ} {b : β}
    (h : (k, b) ∈ l) : l.lookup k = some b := by
  induction l with
  | nil => cases h
  | cons x l ih =>
    rw [List.map_cons, List.nodup_cons] at hn
    rcases List.mem_cons.mp h with rfl | h
    · simp [List.lookup]
    · have hne : k ≠ x.1 := fun hk => hn.1 (hk ▸ List.mem_map_of_mem h)
      rw [List.lookup, beq_eq_false_iff_ne.mpr hne]
      exact ih hn.2 h

section Tensors

variable {K : Type} [Zero K] [One K] [Add K] [Sub K] [Mul K] [Div K] [NatCast K] [Numerics K]
variable [LE K] [DecidableLE K] [Tabulation K] [Enumeration]

/-- The tensors of one domain are those of the given monomials, with their positions. -/
def DomainTensors.Holds (settings : CompilerSettings) (shared : List (ℕ × ℕ × Monomial K))
    (domain : QuadratureDomain) (d : DomainTensors K) : Prop :=
  d.domain = domain ∧ List.Forall₂ (fun (position, _, m) tensor => tensor.1 = position ∧
    Form.referenceTensor settings m domain = .ok tensor.2) shared d.tensors

section

variable {settings : CompilerSettings} {shared : List (ℕ × ℕ × Monomial K)}
variable {domain : QuadratureDomain} {d : DomainTensors K}

theorem DomainTensors.Holds.positions (h : d.Holds settings shared domain) :
    d.tensors.map (·.1) = shared.map (·.1) :=
  map_eq_of_forall₂ h.2 fun _ _ hab => hab.1

/-- The tensor of each of the monomials is found. -/
theorem DomainTensors.Holds.exists_tensorFor? (h : d.Holds settings shared domain)
    (hn : (shared.map (·.1)).Nodup) {j r : ℕ} {m : Monomial K} (hm : (j, r, m) ∈ shared) :
    ∃ T, d.tensorFor? j = some T ∧ Form.referenceTensor settings m d.domain = .ok T := by
  rw [← h.positions] at hn
  obtain ⟨rfl, hall⟩ := h
  obtain ⟨n, hn'⟩ := List.mem_iff_getElem?.mp hm
  obtain ⟨hlen, hget⟩ := List.forall₂_iff_get.mp hall
  obtain ⟨hlt, hj⟩ := List.getElem?_eq_some_iff.mp hn'
  have hT := hget n hlt (hlen ▸ hlt)
  rw [List.get_eq_getElem, hj] at hT
  have hmem : (j, (d.tensors.get ⟨n, hlen ▸ hlt⟩).2) ∈ d.tensors := by
    rw [← hT.1]
    exact List.get_mem _ _
  exact ⟨_, lookup_of_mem hn hmem, hT.2⟩

end

namespace Form

variable {f : Form K} {F : List (Option ℕ)} {settings : CompilerSettings} {i : Integral}
variable {t : IntegralTensors K}

theorem integralTensors_eq_ok (h : f.integralTensors F settings i = .ok t) :
    t.integral = i ∧
    t.terms = (f.sharing F i).map (fun (monomial, representative, m) =>
      { monomial, representative
        scale := m.constant / (f.monomials[representative]?.getD m).constant }) ∧
    List.Forall₂ (DomainTensors.Holds settings (f.representatives F i)) i.domains t.domains := by
  unfold integralTensors at h
  dsimp only at h
  split at h
  · cases h
  · obtain ⟨-, -, h⟩ := bind_eq_ok.mp h
    obtain ⟨ds, hds, h⟩ := bind_eq_ok.mp h
    cases h
    refine ⟨rfl, rfl, (mapM_eq_ok.mp hds).imp fun domain d hd => ?_⟩
    obtain ⟨ts, hts, hd⟩ := bind_eq_ok.mp hd
    cases hd
    refine ⟨rfl, (mapM_eq_ok.mp hts).imp fun x tensor hx => ?_⟩
    obtain ⟨T, hT, hx⟩ := bind_eq_ok.mp hx
    cases hx
    exact ⟨rfl, hT⟩

theorem map_monomial_terms (h : f.integralTensors F settings i = .ok t) :
    t.terms.map (·.monomial) = (f.sharing F i).map (·.1) := by
  obtain ⟨-, hterms, -⟩ := integralTensors_eq_ok h
  rw [hterms, List.map_map]
  rfl

theorem map_representative_terms (h : f.integralTensors F settings i = .ok t) :
    t.terms.map (·.representative) = (f.sharing F i).map fun x => x.2.1 := by
  obtain ⟨-, hterms, -⟩ := integralTensors_eq_ok h
  rw [hterms, List.map_map]
  rfl

end Form

/-! ### Representations -/

variable [BEq K]

/-- A term with its monomial `m` and its representative `p`: both have the measure of the term's
group, and the representative is a term of the group itself, with its own tensor on each domain. -/
structure TensorTerm.Consistent (term : TensorTerm K) (rep : TensorRepresentation K)
    (settings : CompilerSettings) (t : IntegralTensors K) (m p : Monomial K) : Prop where
  monomial_eq : rep.form.monomials[term.monomial]? = some m
  integral_eq : m.integral = t.integral
  representative_eq : rep.form.monomials[term.representative]? = some p
  integral_representative : p.integral = t.integral
  is_representative : rep.factorization[term.representative]? = some none
  mem_terms : (⟨term.representative, term.representative, 1⟩ : TensorTerm K) ∈ t.terms
  tensor : ∀ d ∈ t.domains, ∃ T, d.tensorFor? term.representative = some T ∧
    Form.referenceTensor settings p d.domain = .ok T
  divisor_ne_zero : (p.constant == 0) = false
  scale_eq : term.scale = m.constant / p.constant
  /-- Without rounding, the scale takes the constant of the representative to that of the
  monomial. -/
  scale_mul : (∀ x y : K, (y == 0) = false → x / y * y = x) → term.scale * p.constant = m.constant

/-- Every monomial is a term of its measure once, measures stand in order of first occurrence, and
terms share the tensors that are there. -/
structure TensorRepresentation.Consistent (rep : TensorRepresentation K)
    (settings : CompilerSettings) : Prop where
  monomials_perm : (rep.integrals.flatMap fun t => t.terms.map (·.monomial)).Perm
    (List.range rep.form.size)
  mem_integrals : ∀ i, i ∈ rep.integrals.map (·.integral) ↔
    i ∈ rep.form.monomials.map (·.integral)
  integrals_pairwise : (rep.integrals.map (·.integral)).Pairwise fun i j =>
    (rep.form.monomials.map (·.integral)).idxOf i < (rep.form.monomials.map (·.integral)).idxOf j
  domains_eq : ∀ t ∈ rep.integrals, t.domains.map (·.domain) = t.integral.domains
  terms : ∀ t ∈ rep.integrals, ∀ term ∈ t.terms, ∃ m p, term.Consistent rep settings t m p
  /-- Each domain has the tensors of the representatives, each once. -/
  tensors : ∀ t ∈ rep.integrals, ∀ d ∈ t.domains, (d.tensors.map (·.1)).Nodup ∧
    ∀ r, r ∈ d.tensors.map (·.1) ↔ r ∈ t.terms.map (·.representative)

namespace Form

variable {f : Form K} {rep : TensorRepresentation K} {settings : CompilerSettings}

theorem compile_eq_ok [Constant K] : f.compile settings = .ok rep ↔
    ∃ g g', f.simplify = .ok g ∧ g.markAuxiliary = .ok g' ∧
      g'.reorder = .ok (rep.form, rep.factorization) ∧
      List.Forall₂ (fun i t => rep.form.integralTensors rep.factorization settings i = .ok t)
        rep.form.integrals rep.integrals := by
  unfold compile
  dsimp only
  constructor
  · intro h
    obtain ⟨g, hg, h⟩ := bind_eq_ok.mp h
    obtain ⟨g', hg', h⟩ := bind_eq_ok.mp h
    obtain ⟨⟨form, F⟩, hr, h⟩ := bind_eq_ok.mp h
    obtain ⟨ts, hts, h⟩ := bind_eq_ok.mp h
    cases h
    rw [mapError_eq_ok] at hg hg' hr
    refine ⟨g, g', hg, hg', hr, (mapM_eq_ok.mp hts).imp fun i t ht => ?_⟩
    exact mapError_eq_ok.mp ht
  · rintro ⟨g, g', hg, hg', hr, hts⟩
    refine bind_eq_ok.mpr ⟨g, mapError_eq_ok.mpr hg, bind_eq_ok.mpr ⟨g', mapError_eq_ok.mpr hg',
      bind_eq_ok.mpr ⟨_, mapError_eq_ok.mpr hr, bind_eq_ok.mpr ⟨rep.integrals, ?_, rfl⟩⟩⟩⟩
    exact mapM_eq_ok.mpr (hts.imp fun i t ht => mapError_eq_ok.mpr ht)

section

variable {form : Form K} {F : List (Option ℕ)} {i : Integral} {t : IntegralTensors K}

theorem consistent_term [Constant K] [LawfulDivision K]
    (hF : rep.form.Represented rep.factorization)
    (hs : ∀ m ∈ rep.form.monomials, m.Scalable)
    (ht : rep.form.integralTensors rep.factorization settings i = .ok t) {term : TensorTerm K}
    (hterm : term ∈ t.terms) : ∃ m p, term.Consistent rep settings t m p := by
  obtain ⟨hi, hterms, hdomains⟩ := integralTensors_eq_ok ht
  rw [hterms] at hterm
  obtain ⟨⟨j, r, m⟩, hx, rfl⟩ := List.mem_map.mp hterm
  obtain ⟨hm, hmi, -⟩ := mem_sharing.mp hx
  obtain ⟨p, hp, hpi, hrep, hpx⟩ := hF.mem_sharing hx
  obtain ⟨hfinite, hne⟩ := hs p (List.mem_of_getElem? hp)
  refine ⟨m, p, hm, hmi.trans hi.symm, hp, hpi.trans hi.symm, hrep, ?_, fun d hd => ?_, hne, ?_,
    fun hdiv => ?_⟩
  · rw [hterms]
    refine List.mem_map.mpr ⟨_, hpx, ?_⟩
    simp only [hp, Option.getD_some, LawfulDivision.div_self _ hfinite hne]
  · obtain ⟨domain, -, hd⟩ := exists_of_forall₂_right hdomains hd
    exact hd.exists_tensorFor? (nodup_positions_representatives _ _ i)
      (mem_representatives.mpr ⟨hpx, rfl⟩)
  · simp only [hp, Option.getD_some]
  · simp only [hp, Option.getD_some]
    exact hdiv _ _ hne

end

/-- What compilation returns is complete and consistent. -/
theorem compile_consistent [Constant K] [LawfulConstant K] [LawfulDivision K]
    (h : f.compile settings = .ok rep) : rep.Consistent settings := by
  obtain ⟨g, g', hg, hg', hr, hall⟩ := compile_eq_ok.mp h
  obtain ⟨-, hF⟩ := reorder_spec hr
  have hs := scalable_of_reorder hr (scalable_of_markAuxiliary hg' (scalable_of_simplify hg))
  have hintegrals : rep.integrals.map (·.integral) = rep.form.integrals.map id :=
    map_eq_of_forall₂ hall fun i t ht => (integralTensors_eq_ok ht).1
  rw [List.map_id] at hintegrals
  have hmonomials : (rep.integrals.flatMap fun t => t.terms.map (·.monomial)) =
      rep.form.integrals.flatMap fun i => (rep.form.sharing rep.factorization i).map (·.1) := by
    rw [List.flatMap_def, List.flatMap_def]
    exact congrArg List.flatten (map_eq_of_forall₂ hall fun i t ht => map_monomial_terms ht)
  refine ⟨?_, fun i => ?_, ?_, fun t ht => ?_, fun t ht term hterm => ?_, fun t ht d hd => ?_⟩
  · rw [hmonomials]
    exact perm_positions hF
  · rw [hintegrals]
    exact List.mem_eraseDups
  · rw [hintegrals]
    exact pairwise_eraseDups _
  · obtain ⟨i, -, hi⟩ := exists_of_forall₂_right hall ht
    obtain ⟨rfl, -, hdomains⟩ := integralTensors_eq_ok hi
    rw [map_eq_of_forall₂ (f := id) hdomains fun _ _ hd => hd.1, List.map_id]
  · obtain ⟨i, -, hi⟩ := exists_of_forall₂_right hall ht
    exact consistent_term hF hs hi hterm
  · obtain ⟨i, -, hi⟩ := exists_of_forall₂_right hall ht
    obtain ⟨-, -, hdomains⟩ := integralTensors_eq_ok hi
    obtain ⟨domain, -, hd⟩ := exists_of_forall₂_right hdomains hd
    rw [hd.positions, map_representative_terms hi]
    exact ⟨nodup_positions_representatives _ _ i, fun r => hF.mem_positions_representatives⟩

end Form

end Tensors

namespace Form

/-- The product of two arguments on the interval. -/
def massTerm {K : Type} (constant : K) (integral : Integral) : Monomial K :=
  let element : Element := .lagrange 0 { cell := .interval, degree := 1 }
  { constant
    basisFunctions := [.argument element 0, .argument element 1]
    integral }

/-- Two terms over the cell share a tensor, with a term over the facets between them. -/
theorem compile_consistent_massTerm :
    let ds : Integral := ⟨.exteriorFacet, 2⟩
    let f : Form ℚ := ⟨[massTerm 2 {}, massTerm 3 ds,
      { massTerm 6 {} with determinants := [{ power := 1 }] }]⟩
    let settings : CompilerSettings := { quadratureDegree := some 1 }
    ∃ rep, f.compile settings = .ok rep ∧
      rep.integrals.map (fun t => (t.integral, t.terms.map fun term =>
        (term.monomial, term.representative, term.scale))) =
          [({}, [(0, 0, 1), (2, 0, 3)]), (ds, [(1, 1, 1)])] ∧
      rep.Consistent settings := by
  intro ds f settings
  have hs : f.simplify = .ok f := by decide +kernel
  have hm : f.markAuxiliary = .ok f := by decide +kernel
  have hr : f.reorder = .ok (f, [none, none, some 0]) := by cbv
  let tensors := f.integrals.mapM (f.integralTensors [none, none, some 0] settings)
  have hok : tensors.isOk = true := by decide +kernel
  obtain ⟨ts, hts⟩ := exists_eq_ok hok
  have hterms : ∀ ts, tensors = .ok ts → ts.map (fun t => (t.integral, t.terms.map fun term =>
      (term.monomial, term.representative, term.scale))) =
        [({}, [(0, 0, 1), (2, 0, 3)]), (ds, [(1, 1, 1)])] := by decide +kernel
  have hrep : f.compile settings = .ok ⟨f, [none, none, some 0], ts⟩ :=
    compile_eq_ok.mpr ⟨f, f, hs, hm, hr, mapM_eq_ok.mp hts⟩
  exact ⟨_, hrep, hterms ts hts, compile_consistent hrep⟩

end Form

end WeakForm
