/-!
# Indices

An index of a form is a literal value, or a *slot*: a kind, an identifier, and the list of values
the slot runs over.  Two occurrences denote the same slot when kind and identifier agree,
whatever their ranges (`Index.sameSlot`); equality of indices compares the ranges too.

The main operation is `Index.merged`, which joins the ranges of two indices.  Its range is
strictly increasing (`unionRange_pairwise`) and holds exactly the values of both
(`mem_unionRange`).
-/

namespace WeakForm

/-- The role of a slot: primary slots are the axes of the form, secondary slots are summed between
reference tensor and geometry, auxiliary slots are summed inside the reference tensor. -/
inductive SlotKind where
  | primary
  | secondary
  | auxiliary
deriving DecidableEq, Inhabited

/-- An index is a slot with the values it runs over, or a literal value. -/
inductive Index where
  | slot (kind : SlotKind) (id : Nat) (range : List Nat)
  | fixed (value : Nat)
deriving DecidableEq, Inhabited

namespace SlotKind

/-- The letter under which slots of the kind are written. -/
def letter : SlotKind → String
  | primary => "i"
  | secondary => "a"
  | auxiliary => "b"

/-- Primary slots come first, auxiliary slots last. -/
def rank : SlotKind → Nat
  | primary => 0
  | secondary => 1
  | auxiliary => 2

theorem rank_injective {k l : SlotKind} (h : k.rank = l.rank) : k = l := by
  cases k <;> cases l <;> simp_all [rank]

end SlotKind

/-! ### Ranges -/

/-- The values of both ranges in increasing order, each once. -/
def unionRange (r s : List Nat) : List Nat :=
  (r ++ s).foldr insertValue []
where
  /-- Inserts a value into an increasing list that may already hold it. -/
  insertValue (v : Nat) : List Nat → List Nat
    | [] => [v]
    | w :: ws => if v < w then v :: w :: ws else if v = w then w :: ws else w :: insertValue v ws

theorem mem_insertValue {v w : Nat} {l : List Nat} :
    w ∈ unionRange.insertValue v l ↔ w = v ∨ w ∈ l := by
  induction l with
  | nil => simp [unionRange.insertValue]
  | cons u us ih =>
    unfold unionRange.insertValue
    split
    · simp
    · split
      · simp_all
      · simp [ih, or_left_comm]

theorem insertValue_pairwise {v : Nat} {l : List Nat} (h : l.Pairwise (· < ·)) :
    (unionRange.insertValue v l).Pairwise (· < ·) := by
  induction l with
  | nil => simp [unionRange.insertValue]
  | cons u us ih =>
    rw [List.pairwise_cons] at h
    unfold unionRange.insertValue
    split
    · rename_i hlt
      refine List.pairwise_cons.2 ⟨fun w hw => ?_, List.pairwise_cons.2 h⟩
      rcases List.mem_cons.1 hw with rfl | hw
      · exact hlt
      · exact Nat.lt_trans hlt (h.1 w hw)
    · split
      · exact List.pairwise_cons.2 h
      · refine List.pairwise_cons.2 ⟨fun w hw => ?_, ih h.2⟩
        rcases mem_insertValue.1 hw with rfl | hw
        · omega
        · exact h.1 w hw

theorem mem_unionRange {v : Nat} {r s : List Nat} : v ∈ unionRange r s ↔ v ∈ r ∨ v ∈ s := by
  rw [← List.mem_append, unionRange]
  induction r ++ s with
  | nil => simp
  | cons u us ih => simp [mem_insertValue, ih]

theorem unionRange_pairwise (r s : List Nat) : (unionRange r s).Pairwise (· < ·) := by
  rw [unionRange]
  induction r ++ s with
  | nil => simp
  | cons u us ih => exact insertValue_pairwise ih

namespace Index

/-! ### Parts of an index -/

/-- The identifier of a slot, the value of a literal. -/
def value : Index → Nat
  | slot _ id _ => id
  | fixed v => v

/-- The values the index takes; a literal takes its own. -/
def range : Index → List Nat
  | slot _ _ r => r
  | fixed v => [v]

/-- The kind of a slot; a literal has none. -/
def kind? : Index → Option SlotKind
  | slot k _ _ => some k
  | fixed _ => none

def isFixed : Index → Bool
  | slot .. => false
  | fixed _ => true

/-- Whether the index is a slot of the given kind. -/
def isKind (i : Index) (k : SlotKind) : Bool :=
  i.kind? == some k

/-- The identifier of a slot of the given kind, nothing for any other index. -/
def idOf? (k : SlotKind) : Index → Option Nat
  | slot l id _ => if l = k then some id else none
  | fixed _ => none

/-- Whether the index is the slot of the given kind and identifier or, without a kind, the literal
of the given value. -/
def denotes (i : Index) (kind? : Option SlotKind) (value : Nat) : Bool :=
  i.kind? == kind? && i.value == value

/-- Whether two indices denote the same slot or the same literal, whatever their ranges. -/
def sameSlot (i j : Index) : Bool :=
  i.denotes j.kind? j.value

/-- Whether the ranges have a value in common. -/
def overlaps (i j : Index) : Bool :=
  i.range.any j.range.contains

/-- The index over the values of both.  A literal cannot hold more than one value, so it becomes
the secondary slot with the identifier `fresh`. -/
def merged (i j : Index) (fresh : Nat) : Index :=
  match i with
  | slot k id r => slot k id (unionRange r j.range)
  | fixed v => slot .secondary fresh (unionRange [v] j.range)

/-- The written form of an index does not show its range. -/
def text : Index → String
  | slot k id _ => k.letter ++ toString id
  | fixed v => toString v

@[simp] theorem range_merged (i j : Index) (fresh : Nat) :
    (i.merged j fresh).range = unionRange i.range j.range := by
  cases i <;> rfl

theorem sameSlot_refl (i : Index) : i.sameSlot i = true := by
  simp [sameSlot, denotes]

theorem denotes_iff {i : Index} {kind? : Option SlotKind} {value : Nat} :
    i.denotes kind? value = true ↔ i.kind? = kind? ∧ i.value = value := by
  simp [denotes]

theorem sameSlot_iff {i j : Index} :
    i.sameSlot j = true ↔ i.kind? = j.kind? ∧ i.value = j.value :=
  denotes_iff

theorem overlaps_iff {i j : Index} : i.overlaps j = true ↔ ∃ v, v ∈ i.range ∧ v ∈ j.range := by
  simp [overlaps]

/-! ### Order -/

/-- Slots precede literals; slots are ordered by kind. -/
def rank : Index → Nat
  | slot k _ _ => k.rank
  | fixed _ => 3

/-- Indices are compared by rank, then by identifier or value, then by range. -/
instance : Ord Index where
  compare := compareLex (compareOn rank) (compareLex (compareOn value) (compareOn range))

end Index

end WeakForm
