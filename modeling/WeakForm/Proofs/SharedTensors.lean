import Mathlib
import WeakForm.Enumeration.Recursive
import WeakForm.Proofs.Failure
import WeakForm.Proofs.Reordering

/-!
# Which monomials share a reference tensor

The scan of `Form.reorder` takes the monomials in order, and each of them may rewrite the later
ones.  What it does to a monomial depends only on the first one with the same soft signature
(`Form.leader`), because relabelling keeps soft signatures: nothing, before the scan has passed its
leader; from then on, the monomial shares the tensor of its leader.

`Form.entry` states this for each monomial by itself.  A step of the scan takes these entries to the
next ones (`Form.step`), so the whole scan succeeds if all entries are defined, and fails with the
error of one that is not (`Form.run`).
-/

namespace WeakForm

namespace SharedMonomial

variable {K : Type} [Enumeration] {position i : ℕ} {p m : Monomial K} {e : SharedMonomial K}

/-! ### One monomial -/

theorem shareWith_of_shared (h : e.representative = some i) :
    shareWith position p e = .ok e := by
  simp [shareWith, h]
  rfl

theorem shareWith_of_soft_ne (h : m.softSignature ≠ p.softSignature) :
    shareWith position p { monomial := m } = .ok { monomial := m } := by
  have hh : m.hardSignature ≠ p.hardSignature := fun hh => h (Monomial.softSignature_eq hh)
  simp [shareWith, h, hh]
  rfl

theorem shareWith_of_hard_eq (h : m.hardSignature = p.hardSignature) :
    shareWith position p { monomial := m } = .ok ⟨m, some position⟩ := by
  simp [shareWith, h]
  rfl

theorem shareWith_of_soft_eq (hh : m.hardSignature ≠ p.hardSignature)
    (h : m.softSignature = p.softSignature) :
    shareWith position p { monomial := m } =
      do return { monomial := ← p.reorderTo m, representative := some position } := by
  simp [shareWith, h, hh]

/-- A monomial with the soft signature of `p` shares its tensor, unless its secondary slots cannot
be permuted so that the hard signatures agree. -/
theorem shareWith_eq_ok (h : m.softSignature = p.softSignature)
    (he : shareWith position p { monomial := m } = .ok e) :
    e.representative = some position ∧ e.monomial.hardSignature = p.hardSignature ∧
      m.IsRelabelling e.monomial := by
  by_cases hh : m.hardSignature = p.hardSignature
  · rw [shareWith_of_hard_eq hh] at he
    cases he
    exact ⟨rfl, hh, .refl m⟩
  · rw [shareWith_of_soft_eq hh h] at he
    obtain ⟨q, hq, he⟩ := bind_eq_ok.mp he
    cases he
    obtain ⟨-, hhard, ht⟩ := Monomial.reorderTo_eq_ok hq
    exact ⟨rfl, hhard, ht⟩

end SharedMonomial

namespace Form

variable {K : Type} {f : Form K}

/-! ### Leaders -/

/-- The position of the first monomial that has the soft signature of `m`. -/
def leader (f : Form K) (m : Monomial K) : ℕ :=
  (f.monomials.map Monomial.softSignature).idxOf m.softSignature

theorem leader_congr {m m' : Monomial K} (h : m.softSignature = m'.softSignature) :
    f.leader m = f.leader m' := by
  rw [leader, leader, h]

/-- A monomial of the form has a leader, and it is not behind it. -/
theorem leader_spec {j : ℕ} {m : Monomial K} (hm : f.monomials[j]? = some m) :
    f.leader m ≤ j ∧ ∃ p, f.monomials[f.leader m]? = some p ∧
      p.softSignature = m.softSignature ∧ f.leader p = f.leader m := by
  have hj : (f.monomials.map Monomial.softSignature)[j]? = some m.softSignature := by
    rw [List.getElem?_map, hm]
    rfl
  have hmem := List.mem_of_getElem? hj
  have hlt := List.idxOf_lt_length_of_mem hmem
  have hget := List.getElem_idxOf hlt
  rw [List.getElem_map] at hget
  rw [List.length_map] at hlt
  refine ⟨?_, _, List.getElem?_eq_getElem hlt, hget, leader_congr hget⟩
  by_contra hlt
  have hne := List.not_of_lt_findIdx (Nat.lt_of_not_le hlt)
  rw [(List.getElem_eq_iff _).mpr hj, beq_self_eq_true] at hne
  cases hne

/-! ### The scan -/

section Scan

variable [Enumeration]

/-- What becomes of the monomial `m` at position `j` once the scan has passed the positions below
`n`. -/
def entry (f : Form K) (n j : ℕ) (m : Monomial K) : Except (FormError K) (SharedMonomial K) :=
  if f.leader m < n ∧ f.leader m < j then
    SharedMonomial.shareWith (f.leader m) (f.monomials.getD (f.leader m) m) { monomial := m }
  else
    .ok { monomial := m }

theorem entry_of_le {n j : ℕ} {m : Monomial K} (h : n ≤ f.leader m ∨ j ≤ f.leader m) :
    f.entry n j m = .ok { monomial := m } :=
  if_neg (by omega)

theorem entry_of_lt {n j : ℕ} {m p : Monomial K} (hn : f.leader m < n) (hj : f.leader m < j)
    (hp : f.monomials[f.leader m]? = some p) :
    f.entry n j m = SharedMonomial.shareWith (f.leader m) p { monomial := m } := by
  rw [entry, if_pos ⟨hn, hj⟩, List.getD_eq_getElem?_getD, hp]
  rfl

/-- The list holds what becomes of each monomial once the scan has passed the positions below
`n`. -/
def Reached (f : Form K) (n : ℕ) (es : List (SharedMonomial K)) : Prop :=
  List.Forall₂ (fun (m, j) e => f.entry n j m = .ok e) f.monomials.zipIdx es

theorem reached_iff {n : ℕ} {es : List (SharedMonomial K)} :
    f.Reached n es ↔ es.length = f.size ∧
      ∀ j m e, f.monomials[j]? = some m → es[j]? = some e → f.entry n j m = .ok e := by
  rw [Reached, List.forall₂_iff_get]
  simp only [List.length_zipIdx, List.get_eq_getElem, List.getElem_zipIdx, Nat.zero_add]
  refine and_congr eq_comm ⟨fun h j m e hm he => ?_, fun h j hj hj' => ?_⟩
  · obtain ⟨hj, rfl⟩ := List.getElem?_eq_some_iff.mp hm
    obtain ⟨hj', rfl⟩ := List.getElem?_eq_some_iff.mp he
    exact h j hj hj'
  · exact h j _ _ (List.getElem?_eq_getElem hj) (List.getElem?_eq_getElem hj')

/-- The next entry of a monomial behind the position, if there is a representative. -/
theorem entry_succ_of_lt {n j : ℕ} {m p : Monomial K} {e : SharedMonomial K} (hj : n < j)
    (hm : f.monomials[j]? = some m) (hp : f.monomials[n]? = some p) (hl : f.leader p = n)
    (he : f.entry n j m = .ok e) :
    f.entry (n + 1) j m = SharedMonomial.shareWith n p e := by
  obtain ⟨hle, p', hp', hsoft, hlead⟩ := leader_spec hm
  rcases Nat.lt_trichotomy (f.leader m) n with hlt | heq | hgt
  · -- the monomial shares an earlier tensor
    rw [entry_of_lt hlt (by omega) hp'] at he
    rw [entry_of_lt (by omega) (by omega) hp', he,
      SharedMonomial.shareWith_of_shared (SharedMonomial.shareWith_eq_ok hsoft.symm he).1]
  · rw [entry_of_le (by omega)] at he
    cases he
    rw [heq, hp] at hp'
    cases hp'
    rw [entry_of_lt (by omega) (by omega) (by rwa [heq]), heq]
  · -- the monomial has another leader
    have hne : m.softSignature ≠ p.softSignature := fun h => by
      have := leader_congr (f := f) h
      omega
    rw [entry_of_le (by omega)] at he
    cases he
    rw [entry_of_le (by omega), SharedMonomial.shareWith_of_soft_ne hne]

/-- No entry changes at a position that is not its leader's. -/
theorem entry_succ_of_ne {n j : ℕ} {m : Monomial K} (h : f.leader m ≠ n ∨ j ≤ n) :
    f.entry (n + 1) j m = f.entry n j m := by
  have hiff : (f.leader m < n + 1 ∧ f.leader m < j) ↔ (f.leader m < n ∧ f.leader m < j) := by
    omega
  simp only [entry, hiff]

theorem entry_error_succ {n j : ℕ} {m : Monomial K} {e : FormError K}
    (h : f.entry n j m = .error e) : f.entry (n + 1) j m = .error e := by
  have hn : ¬ (n ≤ f.leader m ∨ j ≤ f.leader m) := fun hn => by
    rw [entry_of_le hn] at h
    cases h
  rw [entry_succ_of_ne (by omega), h]

/-- The positions behind that of a representative are taken to their next entries. -/
theorem step_of_representative {n : ℕ} {es : List (SharedMonomial K)} {p : Monomial K}
    (hp : f.monomials[n]? = some p) (hl : f.leader p = n) (h : f.Reached n es) :
    (∃ later, (es.drop (n + 1)).mapM (SharedMonomial.shareWith n p) = .ok later ∧
      f.Reached (n + 1) (es.take (n + 1) ++ later)) ∨
    ∃ e j m, (es.drop (n + 1)).mapM (SharedMonomial.shareWith n p) = .error e ∧
      f.monomials[j]? = some m ∧ f.entry (n + 1) j m = .error e := by
  obtain ⟨hlen, hentry⟩ := reached_iff.mp h
  have hn : n < f.size := (List.getElem?_eq_some_iff.mp hp).1
  cases hmap : (es.drop (n + 1)).mapM (SharedMonomial.shareWith n p) with
  | error e =>
    refine Or.inr ?_
    obtain ⟨x, hx, he⟩ := exists_of_mapM_eq_error hmap
    obtain ⟨k, hk⟩ := List.mem_iff_getElem?.mp hx
    rw [List.getElem?_drop] at hk
    have hj : n + 1 + k < f.monomials.length := by
      have := (List.getElem?_eq_some_iff.mp hk).1
      rwa [hlen] at this
    have hm := List.getElem?_eq_getElem hj
    refine ⟨e, _, _, rfl, hm, ?_⟩
    rw [entry_succ_of_lt (by omega) hm hp hl (hentry _ _ _ hm hk), he]
  | ok later =>
    refine Or.inl ⟨later, rfl, reached_iff.mpr ?_⟩
    obtain ⟨hlen', hlater⟩ := getElem?_of_mapM_eq_ok hmap
    have htake : (es.take (n + 1)).length = n + 1 := by
      rw [List.length_take]
      omega
    rw [List.length_drop] at hlen'
    refine ⟨by rw [List.length_append, htake]; omega, fun j m e hm he => ?_⟩
    by_cases hj : n < j
    · have hjlen : j < es.length := hlen ▸ (List.getElem?_eq_some_iff.mp hm).1
      have hx : es[j]? = some es[j] := List.getElem?_eq_getElem hjlen
      rw [List.getElem?_append_right (by omega), htake] at he
      rw [entry_succ_of_lt hj hm hp hl (hentry _ _ _ hm hx)]
      refine hlater _ _ _ ?_ he
      rw [List.getElem?_drop, ← hx]
      congr 1
      omega
    · rw [List.getElem?_append_left (by omega), List.getElem?_take_of_lt (by omega)] at he
      rw [entry_succ_of_ne (Or.inr (by omega))]
      exact hentry j m e hm he

/-- One step of the scan takes all entries to the next ones, or it fails with the error of one of
them. -/
theorem step {n : ℕ} {es : List (SharedMonomial K)} (hn : n < f.size) (h : f.Reached n es) :
    (∃ es', SharedMonomial.shareFrom es n = .ok es' ∧ f.Reached (n + 1) es') ∨
    ∃ e j m, SharedMonomial.shareFrom es n = .error e ∧ f.monomials[j]? = some m ∧
      f.entry (n + 1) j m = .error e := by
  obtain ⟨hlen, hentry⟩ := reached_iff.mp h
  have hp : f.monomials[n]? = some f.monomials[n] := List.getElem?_eq_getElem hn
  have he : es[n]? = some es[n] := List.getElem?_eq_getElem (by omega)
  have hpe := hentry n _ _ hp he
  obtain ⟨hle, p', hp', hsoft, -⟩ := leader_spec hp
  rcases Nat.eq_or_lt_of_le hle with hl | hlt
  · rw [entry_of_le (Or.inl hl.ge), Except.ok.injEq] at hpe
    rw [SharedMonomial.shareFrom, he, ← hpe]
    dsimp only
    obtain ⟨later, hmap, hr⟩ | ⟨e, j, m, hmap, hm, hent⟩ := step_of_representative hp hl h
    · exact Or.inl ⟨_, by rw [hmap]; rfl, hr⟩
    · exact Or.inr ⟨e, j, m, by rw [hmap]; rfl, hm, hent⟩
  · -- the position is that of a monomial which shares a tensor already
    rw [entry_of_lt hlt hlt hp'] at hpe
    have hshared := (SharedMonomial.shareWith_eq_ok hsoft.symm hpe).1
    refine Or.inl ⟨es, ?_, reached_iff.mpr ⟨hlen, fun j m e hm hej => ?_⟩⟩
    · rw [SharedMonomial.shareFrom, he]
      generalize es[n] = e at hshared
      obtain ⟨m, r⟩ := e
      obtain rfl : r = some _ := hshared
      rfl
    · have hne : f.leader m ≠ n := fun hmn => by
        obtain ⟨-, q, hq, -, hqm⟩ := leader_spec hm
        rw [hmn, hp, Option.some.injEq] at hq
        rw [← hq, hmn] at hqm
        omega
      rw [entry_succ_of_ne (Or.inl hne)]
      exact hentry j m e hm hej

/-- The scan of the positions below `n` reaches all entries, or it fails with the error of one of
them. -/
theorem run (n : ℕ) (hn : n ≤ f.size) :
    let start := f.monomials.map fun m => ({ monomial := m } : SharedMonomial K)
    (∃ es, (List.range n).foldlM SharedMonomial.shareFrom start = .ok es ∧ f.Reached n es) ∨
    ∃ e j m, (List.range n).foldlM SharedMonomial.shareFrom start = .error e ∧
      f.monomials[j]? = some m ∧ f.entry n j m = .error e := by
  intro start
  induction n with
  | zero =>
    refine Or.inl ⟨start, rfl, reached_iff.mpr ⟨List.length_map _, fun j m e hm he => ?_⟩⟩
    rw [List.getElem?_map, hm] at he
    cases he
    exact entry_of_le (Or.inl (Nat.zero_le _))
  | succ n ih =>
    rw [List.range_succ, List.foldlM_append]
    obtain ⟨es, hes, hr⟩ | ⟨e, j, m, he, hm, hent⟩ := ih (by omega)
    · rw [hes]
      obtain ⟨es', hes', hr'⟩ | ⟨e, j, m, he, hm, hent⟩ := step hn hr
      · exact Or.inl ⟨es', by simp [bind, Except.bind, hes', List.foldlM_cons]; rfl, hr'⟩
      · exact Or.inr ⟨e, j, m, by simp [bind, Except.bind, he, List.foldlM_cons], hm, hent⟩
    · rw [he]
      exact Or.inr ⟨e, j, m, rfl, hm, entry_error_succ hent⟩

/-- Reordering gives every monomial its entry, or it fails with the error of one of them. -/
theorem reorder_cases (f : Form K) :
    (∃ es, f.reorder = .ok (⟨es.map (·.monomial)⟩, es.map (·.representative)) ∧
      f.Reached f.size es) ∨
    ∃ e j m, f.reorder = .error e ∧ f.monomials[j]? = some m ∧ f.entry f.size j m = .error e := by
  unfold reorder
  dsimp only
  obtain ⟨es, hes, hr⟩ | ⟨e, j, m, he, hm, hent⟩ := run (f := f) f.size le_rfl
  · exact Or.inl ⟨es, by rw [hes]; rfl, hr⟩
  · exact Or.inr ⟨e, j, m, by rw [he]; rfl, hm, hent⟩

end Scan

/-! ### The partition -/

/-- The positions of the monomials that have the soft signature of the one at position `j`. -/
def softClass (f : Form K) (j : ℕ) : Set ℕ :=
  {k | ∃ m q, f.monomials[j]? = some m ∧ f.monomials[k]? = some q ∧
    q.softSignature = m.softSignature}

theorem isLeast_leader {j : ℕ} {m : Monomial K} (hm : f.monomials[j]? = some m) :
    IsLeast (f.softClass j) (f.leader m) := by
  obtain ⟨-, p, hp, hsoft, -⟩ := leader_spec hm
  refine ⟨⟨m, p, hm, hp, hsoft⟩, ?_⟩
  rintro k ⟨m', q, hm', hq, hqm⟩
  rw [hm, Option.some.injEq] at hm'
  subst hm'
  rw [← leader_congr hqm]
  exact (leader_spec hq).1

theorem isLeast_softClass_iff {i j : ℕ} {m : Monomial K} (hm : f.monomials[j]? = some m) :
    IsLeast (f.softClass j) i ↔ f.leader m = i :=
  ⟨(isLeast_leader hm).unique, fun h => h ▸ isLeast_leader hm⟩

theorem softClass_nonempty_iff {j : ℕ} : (f.softClass j).Nonempty ↔ j < f.size := by
  constructor
  · rintro ⟨k, m, q, hm, -⟩
    exact (List.getElem?_eq_some_iff.mp hm).1
  · intro hj
    exact ⟨j, _, _, List.getElem?_eq_getElem hj, List.getElem?_eq_getElem hj, rfl⟩

/-- A form `h` and a list `F` of representatives that partition the monomials of `f` by their soft
signatures. -/
structure IsSoftPartition (f h : Form K) (F : List (Option ℕ)) : Prop where
  /-- Only secondary slots are renamed, by permutations. -/
  relabelled : List.Forall₂ Monomial.IsRelabelling f.monomials h.monomials
  length_eq : F.length = f.size
  /-- A monomial shares a tensor with the first one of its class, if that precedes it. -/
  shared_iff : ∀ i j : ℕ, F[j]? = some (some i) ↔ i < j ∧ IsLeast (f.softClass j) i
  /-- The other monomials are the first ones of their classes. -/
  representative_iff : ∀ j : ℕ, F[j]? = some none ↔ IsLeast (f.softClass j) j
  representative_of_shared : ∀ i j : ℕ, F[j]? = some (some i) → F[i]? = some none
  unchanged : ∀ i : ℕ, F[i]? = some none → h.monomials[i]? = f.monomials[i]?
  hardSignature_eq : ∀ (i j : ℕ) (p q : Monomial K), F[j]? = some (some i) →
    h.monomials[i]? = some p → h.monomials[j]? = some q → q.hardSignature = p.hardSignature
  /-- Representatives are told apart by their soft signatures. -/
  representatives_apart : ∀ (i j : ℕ) (p q : Monomial K), F[i]? = some none → F[j]? = some none →
    h.monomials[i]? = some p → h.monomials[j]? = some q → p.softSignature = q.softSignature → i = j

section Partition

variable [Enumeration]

/-- What has become of a monomial after the whole scan. -/
theorem Reached.cases {es : List (SharedMonomial K)} (h : f.Reached f.size es) {j : ℕ}
    {m : Monomial K} {e : SharedMonomial K} (hm : f.monomials[j]? = some m)
    (he : es[j]? = some e) :
    (f.leader m = j ∧ e = { monomial := m }) ∨
      (f.leader m < j ∧ e.representative = some (f.leader m) ∧ m.IsRelabelling e.monomial ∧
        ∃ p, f.monomials[f.leader m]? = some p ∧
          e.monomial.hardSignature = p.hardSignature) := by
  have hent := (reached_iff.mp h).2 j m e hm he
  have hj : j < f.size := (List.getElem?_eq_some_iff.mp hm).1
  obtain ⟨hle, p, hp, hsoft, -⟩ := leader_spec hm
  rcases Nat.eq_or_lt_of_le hle with hl | hlt
  · rw [entry_of_le (Or.inr hl.ge)] at hent
    cases hent
    exact Or.inl ⟨hl, rfl⟩
  · rw [entry_of_lt (hlt.trans hj) hlt hp] at hent
    obtain ⟨hrep, hhard, hrel⟩ := SharedMonomial.shareWith_eq_ok hsoft.symm hent
    exact Or.inr ⟨hlt, hrep, hrel, p, hp, hhard⟩

theorem Reached.getElem?_representative {es : List (SharedMonomial K)}
    (h : f.Reached f.size es) (j : ℕ) : (es.map (·.representative))[j]? =
      f.monomials[j]?.map fun m => if f.leader m = j then none else some (f.leader m) := by
  have hlen := (reached_iff.mp h).1
  rw [List.getElem?_map]
  by_cases hj : j < f.size
  · have hm : f.monomials[j]? = some f.monomials[j] := List.getElem?_eq_getElem hj
    have he : es[j]? = some es[j] := List.getElem?_eq_getElem (by omega)
    rw [hm, he, Option.map_some, Option.map_some]
    rcases h.cases hm he with ⟨hl, he⟩ | ⟨hlt, hrep, -⟩
    · rw [he, if_pos hl]
    · rw [hrep, if_neg (Nat.ne_of_lt hlt)]
  · rw [List.getElem?_eq_none (by omega), List.getElem?_eq_none (Nat.le_of_not_lt hj)]
    rfl

theorem Reached.getElem?_eq_none_iff {es : List (SharedMonomial K)} (h : f.Reached f.size es)
    (j : ℕ) : (es.map (·.representative))[j]? = some none ↔
      ∃ m, f.monomials[j]? = some m ∧ f.leader m = j := by
  simp [h.getElem?_representative]

theorem Reached.getElem?_eq_some_iff {es : List (SharedMonomial K)} (h : f.Reached f.size es)
    (i j : ℕ) : (es.map (·.representative))[j]? = some (some i) ↔
      ∃ m, f.monomials[j]? = some m ∧ f.leader m = i ∧ i < j := by
  rw [h.getElem?_representative, Option.map_eq_some_iff]
  refine exists_congr fun m => and_congr_right fun hm => ?_
  have hle := (leader_spec hm).1
  split_ifs with hl
  · simp only [false_iff]
    omega
  · simp only [Option.some.injEq]
    omega

/-- A monomial that shares no tensor stays as it is. -/
theorem Reached.getElem?_monomial {es : List (SharedMonomial K)} (h : f.Reached f.size es) {j : ℕ}
    {m : Monomial K} (hm : f.monomials[j]? = some m) (hl : f.leader m = j) :
    (es.map (·.monomial))[j]? = some m := by
  have hj : j < es.length := (reached_iff.mp h).1 ▸ (List.getElem?_eq_some_iff.mp hm).1
  have he : es[j]? = some es[j] := List.getElem?_eq_getElem hj
  rcases h.cases hm he with ⟨-, he'⟩ | ⟨hlt, -⟩
  · rw [List.getElem?_map, he, he']
    rfl
  · omega

/-- The monomial that a monomial is relabelled to, and the representative whose tensor it uses. -/
theorem Reached.exists_representative {es : List (SharedMonomial K)} (h : f.Reached f.size es)
    {j : ℕ} {m : Monomial K} {e : SharedMonomial K} (hm : f.monomials[j]? = some m)
    (he : es[j]? = some e) :
    let r := (es.map (·.representative))[j]?.join.getD j
    ∃ p, f.monomials[r]? = some p ∧ (es.map (·.monomial))[r]? = some p ∧
      (es.map (·.representative))[r]? = some none ∧ m.IsRelabelling e.monomial ∧
        e.monomial.hardSignature = p.hardSignature := by
  intro r
  obtain ⟨-, p, hp, -, hlead⟩ := leader_spec hm
  have hr : r = f.leader m := by
    dsimp only [r]
    rw [h.getElem?_representative, hm, Option.map_some]
    split_ifs with hl
    · exact hl.symm
    · rfl
  rw [hr]
  refine ⟨p, hp, h.getElem?_monomial hp hlead, (h.getElem?_eq_none_iff _).mpr ⟨p, hp, hlead⟩, ?_⟩
  rcases h.cases hm he with ⟨hl, rfl⟩ | ⟨-, -, hrel, p', hp', hhard⟩
  · rw [hl, hm, Option.some.injEq] at hp
    exact ⟨.refl m, by rw [hp]⟩
  · rw [hp, Option.some.injEq] at hp'
    exact ⟨hrel, by rw [hhard, hp']⟩

theorem Reached.forall₂_isRelabelling {es : List (SharedMonomial K)} (h : f.Reached f.size es) :
    List.Forall₂ Monomial.IsRelabelling f.monomials (es.map (·.monomial)) := by
  have hlen := (reached_iff.mp h).1
  refine List.forall₂_iff_get.mpr ⟨by rw [List.length_map, hlen]; rfl, fun j hj hj' => ?_⟩
  rw [List.length_map] at hj'
  rw [List.get_eq_getElem, List.get_eq_getElem, List.getElem_map]
  rcases h.cases (List.getElem?_eq_getElem hj) (List.getElem?_eq_getElem hj') with
    ⟨-, he⟩ | ⟨-, -, hrel, -⟩
  · rw [he]
    exact .refl _
  · exact hrel

theorem Reached.isSoftPartition {es : List (SharedMonomial K)} (h : f.Reached f.size es) :
    f.IsSoftPartition ⟨es.map (·.monomial)⟩ (es.map (·.representative)) where
  relabelled := h.forall₂_isRelabelling
  length_eq := by rw [List.length_map, (reached_iff.mp h).1]
  shared_iff i j := by
    rw [h.getElem?_eq_some_iff]
    constructor
    · rintro ⟨m, hm, hl, hlt⟩
      exact ⟨hlt, (isLeast_softClass_iff hm).mpr hl⟩
    · rintro ⟨hlt, hleast⟩
      have hj := softClass_nonempty_iff.mp ⟨i, hleast.1⟩
      have hm : f.monomials[j]? = some f.monomials[j] := List.getElem?_eq_getElem hj
      exact ⟨_, hm, (isLeast_softClass_iff hm).mp hleast, hlt⟩
  representative_iff j := by
    rw [h.getElem?_eq_none_iff]
    constructor
    · rintro ⟨m, hm, hl⟩
      exact (isLeast_softClass_iff hm).mpr hl
    · intro hleast
      have hj := softClass_nonempty_iff.mp ⟨j, hleast.1⟩
      have hm : f.monomials[j]? = some f.monomials[j] := List.getElem?_eq_getElem hj
      exact ⟨_, hm, (isLeast_softClass_iff hm).mp hleast⟩
  representative_of_shared i j hij := by
    obtain ⟨m, hm, rfl, -⟩ := (h.getElem?_eq_some_iff i j).mp hij
    obtain ⟨-, p, hp, -, hl⟩ := leader_spec hm
    exact (h.getElem?_eq_none_iff _).mpr ⟨p, hp, hl⟩
  unchanged i hi := by
    obtain ⟨m, hm, hl⟩ := (h.getElem?_eq_none_iff i).mp hi
    rw [hm]
    exact h.getElem?_monomial hm hl
  hardSignature_eq i j p q hij hp hq := by
    obtain ⟨m, hm, rfl, hlt⟩ := (h.getElem?_eq_some_iff i j).mp hij
    obtain ⟨-, p', hp', -, hl⟩ := leader_spec hm
    rw [h.getElem?_monomial hp' hl, Option.some.injEq] at hp
    obtain ⟨e, he, rfl⟩ : ∃ e, es[j]? = some e ∧ e.monomial = q := by
      rwa [List.getElem?_map, Option.map_eq_some_iff] at hq
    rcases h.cases hm he with ⟨hlj, -⟩ | ⟨-, -, -, r, hr, hhard⟩
    · omega
    · rw [hp', Option.some.injEq] at hr
      rw [hhard, ← hr, hp]
  representatives_apart i j p q hi hj hp hq hpq := by
    obtain ⟨m, hm, hmi⟩ := (h.getElem?_eq_none_iff i).mp hi
    obtain ⟨n, hn, hnj⟩ := (h.getElem?_eq_none_iff j).mp hj
    rw [h.getElem?_monomial hm hmi, Option.some.injEq] at hp
    rw [h.getElem?_monomial hn hnj, Option.some.injEq] at hq
    rw [← hmi, ← hnj, hp, hq]
    exact leader_congr hpq

/-- Reordering partitions the monomials by their soft signatures, relabels within the classes, and
keeps the first monomial of each class. -/
theorem reorder_isSoftPartition {f h : Form K} {F : List (Option ℕ)}
    (hr : f.reorder = .ok (h, F)) : f.IsSoftPartition h F := by
  obtain ⟨es, hes, hreached⟩ | ⟨e, _, _, he, -, -⟩ := f.reorder_cases
  · rw [hr] at hes
    cases hes
    exact hreached.isSoftPartition
  · rw [hr] at he
    cases he

end Partition

theorem reorder_chainTerms :
    (⟨[chainTerm (1 : ℕ) .triangle 0, chainTerm 1 .triangle 1,
      (chainTerm 1 .triangle 0).renameSecondary (1 - ·)]⟩ : Form ℕ).reorder =
      .ok (⟨[chainTerm 1 .triangle 0, chainTerm 1 .triangle 1, chainTerm 1 .triangle 0]⟩,
        [none, some 0, some 0]) := by
  cbv

/-- The second term agrees with the first one but for its transforms, and the third one is the first
one with its secondary slots exchanged. -/
theorem reorder_isSoftPartition_chainTerms :
    let m := chainTerm (1 : ℕ) .triangle 0
    let n := chainTerm (1 : ℕ) .triangle 1
    let f : Form ℕ := ⟨[m, n, m.renameSecondary (1 - ·)]⟩
    let h : Form ℕ := ⟨[m, n, m]⟩
    f.reorder = .ok (h, [none, some 0, some 0]) ∧
      f.IsSoftPartition h [none, some 0, some 0] := by
  intro m n f h
  exact ⟨reorder_chainTerms, reorder_isSoftPartition reorder_chainTerms⟩

end Form

end WeakForm
