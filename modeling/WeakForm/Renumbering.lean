import WeakForm.Error
import WeakForm.Word

/-!
# Renumbering

`Form.renumber` numbers slots in order of first occurrence: primary slots across the whole form,
the others within each monomial.  The new identifier of a slot is the position of the old one in
the list of the distinct identifiers, so it depends on the pattern of occurrences only.

`Form.markAuxiliary` turns secondary slots that are summed within the basis functions of their
monomial into auxiliary ones.
-/

namespace WeakForm

open Indexed

/-- Changes what the index denotes: the identifier of a slot, given its kind, or the value of a
literal, which has no kind. -/
def Index.rename (f : Option SlotKind → Nat → Nat) : Index → Index
  | slot k id r => slot k (f (some k) id) r
  | fixed v => fixed (f none v)

namespace Monomial

variable {K : Type}

/-- Changes what all indices denote. -/
def rename (f : Option SlotKind → Nat → Nat) (m : Monomial K) : Monomial K :=
  mapIndices (Index.rename f) m

/-- Renames one slot or, without a kind, replaces one literal. -/
def renameIndex (kind? : Option SlotKind) (source target : Nat) (m : Monomial K) : Monomial K :=
  m.rename fun k v => if k = kind? ∧ v = source then target else v

/-- Numbers secondary and auxiliary slots in order of first occurrence, and primary slots by their
place in the given list.  Literals stay. -/
def renumber (primary : List Nat) (m : Monomial K) : Monomial K :=
  let secondary := (m.ids .secondary).eraseDups
  let auxiliary := (m.ids .auxiliary).eraseDups
  m.rename fun
    | some .primary, id => primary.idxOf id
    | some .secondary, id => secondary.idxOf id
    | some .auxiliary, id => auxiliary.idxOf id
    | none, v => v

/-- The secondary slots that occur twice within basis functions and nowhere else, in order of first
occurrence. -/
def internalSums (m : Monomial K) : List Nat :=
  let inside := (m.indices.take m.numBasisFunctionIndices).filterMap (Index.idOf? .secondary)
  let outside := (m.indices.drop m.numBasisFunctionIndices).filterMap (Index.idOf? .secondary)
  inside.eraseDups.filter fun id => inside.count id == 2 && !outside.contains id

/-- Turns the secondary slots summed within basis functions into auxiliary slots with the
identifiers after the largest one, as far as the machine word goes; then they start again at
zero. -/
def markAuxiliary (m : Monomial K) : Monomial K :=
  let sums := m.internalSums
  let next := m.nextId .auxiliary
  mapIndices
    (fun i =>
      match i with
      | .slot .secondary id r =>
        if sums.contains id then .slot .auxiliary (wrap (next + sums.idxOf id)) r else i
      | _ => i)
    m

end Monomial

namespace Form

variable {K : Type}

/-- Numbers all slots in order of first occurrence. -/
def renumber (f : Form K) : Form K :=
  let primary := (f.ids .primary).eraseDups
  f.map (Monomial.renumber primary)

/-- Turns the sums within basis functions into sums over auxiliary slots, and renumbers the form.
Every monomial must be balanced. -/
def markAuxiliary (f : Form K) : Except (FormError K) (Form K) :=
  match f.monomials.findSome? Monomial.imbalance? with
  | some cause => .error (.invariant (.unbalanced cause none))
  | none => .ok (f.map Monomial.markAuxiliary).renumber

end Form

end WeakForm
