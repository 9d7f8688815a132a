import WeakForm.Pairwise
import WeakForm.Renumbering

/-!
# Contraction of monomials

Two monomials that differ in one summed direction only are one monomial with a larger range.
`Monomial.differences?` lists the places at which two monomials of the same structure have
different indices, `Monomial.contract` joins them if there are exactly two such places with one
index each, and `Form.contract` does so for all pairs until none is left.

Literals are joined into a new secondary slot.  `Monomial.contractWrapped` computes its identifier
in a machine word; it is the one of `Monomial.contract` unless a monomial uses the largest word
(`Monomial.contractWrapped_eq`).  `Form.contract` renumbers before it contracts, so identifiers are
below the number of indices there and cannot come near that.
-/

namespace WeakForm

open Indexed

/-- A position at which two monomials have different indices. -/
structure IndexDifference where
  position : Nat
  left : Index
  right : Index
deriving DecidableEq

namespace Monomial

variable {K : Type} [BEq K]

/-- The positions at which the indices differ, provided that the monomials differ in nothing
else. -/
def differences? (m n : Monomial K) : Option (List IndexDifference) :=
  if m.constant == n.constant && m.sameStructure n then
    some <| (m.indices.zip n.indices).zipIdx.filterMap fun ((left, right), position) =>
      if left = right then none else some { position, left, right }
  else
    none

/-- A cheap test of what can be compared without the components, the derivatives and the geometry.
It asks for equal argument indices, so it also turns away pairs that would contract along an
argument. -/
def mayContract (m n : Monomial K) : Bool :=
  m.integral == n.integral && m.constant == n.constant && m.determinants == n.determinants &&
    m.coefficients.length == n.coefficients.length &&
    m.transforms.length == n.transforms.length &&
    m.basisFunctions.length == n.basisFunctions.length &&
    (m.basisFunctions.zip n.basisFunctions).all fun (v, w) =>
      v.element == w.element && v.index == w.index && v.restriction == w.restriction &&
        v.components.length == w.components.length &&
        v.derivatives.length == w.derivatives.length

/-- Whether the places of an index are exactly the two at which it is replaced.  A slot that occurs
elsewhere would keep its old range there. -/
def summedPair (m : Monomial K) (i : Index) : Bool :=
  i.isFixed || m.countIndex i.kind? i.value == 2

/-- The monomial that sums over the directions of both, if they differ in one summed index with
disjoint ranges.  Literals become the secondary slot with the identifier `fresh`. -/
def contractAt (fresh : Nat) (m n : Monomial K) : Except (FormError K) (Option (Monomial K)) :=
  match m.differences? n with
  | some [first, second] =>
    let i := first.left
    let j := first.right
    if i = second.left && j = second.right && !i.overlaps j && m.summedPair i && n.summedPair j
    then
      let index := i.merged j fresh
      let joined := refill m ((m.indices.set first.position index).set second.position index)
      match joined.imbalance? with
      | some cause => .error (.simplification (.unbalancedContraction cause))
      | none => .ok (some joined)
    else
      .ok none
  | _ => .ok none

/-- The least identifier above those of the secondary slots of both. -/
def freshSecondary (m n : Monomial K) : Nat :=
  max (m.nextId .secondary) (n.nextId .secondary)

/-- Contraction with a new slot for literals. -/
def contract (m n : Monomial K) : Except (FormError K) (Option (Monomial K)) :=
  m.contractAt (m.freshSecondary n) n

/-- Contraction with the identifier of the new slot in a machine word.  After the largest word
comes zero, which may be in use. -/
def contractWrapped (m n : Monomial K) : Except (FormError K) (Option (Monomial K)) :=
  m.contractAt (wrap (m.freshSecondary n)) n

theorem contractWrapped_eq {m n : Monomial K} (hm : m.nextId .secondary < wordSize)
    (hn : n.nextId .secondary < wordSize) : m.contractWrapped n = m.contract n := by
  have h : m.freshSecondary n < wordSize := Nat.max_lt.mpr ⟨hm, hn⟩
  rw [contractWrapped, wrap_eq_of_lt h, contract]

/-- Contraction after the cheap test. -/
def contractIfLikely (m n : Monomial K) : Except (FormError K) (Option (Monomial K)) :=
  if m.mayContract n then m.contract n else .ok none

end Monomial

namespace Form

variable {K : Type} [BEq K]

/-- Renumbers the form and contracts each pair of monomials once. -/
def contractOnce (f : Form K) : Except (FormError K) (Form K) := do
  return ⟨← contractPairwise Monomial.contractIfLikely f.renumber.monomials⟩

/-- Contracts pairs of monomials until no pair is left that contracts.  Every contraction removes a
monomial, so the form shrinks as long as there is one. -/
def contract (f : Form K) : Except (FormError K) (Form K) :=
  match f.contractOnce with
  | .error e => .error e
  | .ok g => if g.size < f.size then g.contract else .ok g
termination_by f.size

end Form

end WeakForm
