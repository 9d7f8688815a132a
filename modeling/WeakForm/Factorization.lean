import WeakForm.Permutation
import WeakForm.Signature

/-!
# Factorization into reference tensors

Monomials with equal hard signatures share one reference tensor.  Monomials with equal soft
signatures can share one after their secondary slots have been renamed: `Monomial.reorderTo` looks
for the first permutation that makes the hard signatures agree, in the order of the enumeration.

`Form.reorder` takes the monomials in order.  Each one that shares no earlier tensor becomes the
representative of the later monomials that can share its own.
-/

namespace WeakForm

/-- A monomial with the position of the earlier monomial whose reference tensor it shares. -/
structure SharedMonomial (K : Type) where
  monomial : Monomial K
  representative : Option Nat := none

namespace Monomial

variable {K : Type} [Enumeration]

/-- Renames the secondary slots of `q` so that its hard signature becomes that of `p`, by the first
permutation that does.  All permutations rename the same slots, so it is checked once that none of
these is missing.  Without secondary slots there is nothing to rename. -/
def reorderTo (p q : Monomial K) : Except (FormError K) (Monomial K) :=
  let n := p.nextId .secondary
  let hard := p.hardSignature
  if n ≠ q.nextId .secondary then
    .error (.invariant (.secondaryCountsDiffer p q))
  else if n = 0 ∧ q.hardSignature = hard then
    .ok q
  else
    match q.missingSecondary? n with
    | some id => .error (.invariant (.missingSecondary id q))
    | none =>
      let renamed? (targets : List Nat) : Option (Monomial K) :=
        let renamed := q.moveSecondary targets
        if targets ≠ [] ∧ renamed.hardSignature = hard then some renamed else none
      match Enumeration.firstPermutation? renamed? (List.range n) n with
      | some renamed => .ok renamed
      | none => .error (.invariant (.noRelabelling p q))

end Monomial

namespace SharedMonomial

variable {K : Type} [Enumeration]

/-- Lets a monomial share the tensor of `p`, the monomial at the given position, if its signature
allows that. -/
def shareWith (position : Nat) (p : Monomial K) (e : SharedMonomial K) :
    Except (FormError K) (SharedMonomial K) := do
  if e.representative.isSome then
    return e
  else if e.monomial.hardSignature = p.hardSignature then
    return { e with representative := some position }
  else if e.monomial.softSignature = p.softSignature then
    return { monomial := ← p.reorderTo e.monomial, representative := some position }
  else
    return e

/-- Lets the monomials after the given position share the tensor of the monomial there, if that is
a representative. -/
def shareFrom (es : List (SharedMonomial K)) (position : Nat) :
    Except (FormError K) (List (SharedMonomial K)) :=
  match es[position]? with
  | some { monomial := p, representative := none } => do
    let later ← (es.drop (position + 1)).mapM (shareWith position p)
    return es.take (position + 1) ++ later
  | _ => .ok es

end SharedMonomial

namespace Form

variable {K : Type} [Enumeration]

/-- Renames secondary slots so that monomials with a common reference tensor have equal hard
signatures.  Returns the form and, for each monomial that is not a representative, the position of
its representative. -/
def reorder (f : Form K) : Except (FormError K) (Form K × List (Option Nat)) := do
  let start := f.monomials.map fun m => ({ monomial := m } : SharedMonomial K)
  let shared ← (List.range f.size).foldlM SharedMonomial.shareFrom start
  return (⟨shared.map (·.monomial)⟩, shared.map (·.representative))

end Form

end WeakForm
