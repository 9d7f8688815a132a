import WeakForm.Numerics

/-!
# Integrals

The measure of a monomial is a kind of domain with the number of facets of the cell.  It stands for
one or several quadrature domains: the cell, every facet, or every ordered pair of facets.
-/

namespace WeakForm

/-- The side of an interior facet on which a quantity is evaluated. -/
inductive Restriction where
  | unrestricted
  | plus
  | minus
  | constant
deriving DecidableEq, Inhabited

namespace Restriction

def text : Restriction → String
  | unrestricted => ""
  | plus => "(+)"
  | minus => "(-)"
  | constant => "(0)"

/-- A rank that orders restrictions as they are listed. -/
def rank : Restriction → Nat
  | unrestricted => 0
  | plus => 1
  | minus => 2
  | constant => 3

theorem rank_injective {r s : Restriction} (h : r.rank = s.rank) : r = s := by
  cases r <;> cases s <;> simp_all [rank]

end Restriction

inductive DomainKind where
  | cell
  | exteriorFacet
  | interiorFacet
deriving DecidableEq, Inhabited

namespace DomainKind

/-- A rank that orders kinds of domains as they are listed. -/
def rank : DomainKind → Nat
  | cell => 0
  | exteriorFacet => 1
  | interiorFacet => 2

end DomainKind

/-- The measure that a monomial is integrated against. -/
structure Integral where
  domain : DomainKind := .cell
  /-- The number of facets of the cell, for integrals over facets. -/
  numFacets : Nat := 0
deriving DecidableEq, Inhabited

/-- The part of the reference cell that is integrated over.  An interior facet is given by its
numbers in the cells on its plus and minus side. -/
inductive QuadratureDomain where
  | cell
  | exteriorFacet (facet : Nat)
  | interiorFacet (plus minus : Nat)
deriving DecidableEq, Inhabited

namespace QuadratureDomain

def text : QuadratureDomain → String
  | cell => "cell"
  | exteriorFacet f => s!"exterior facet {f}"
  | interiorFacet p m => s!"interior facet ({p}, {m})"

end QuadratureDomain

namespace Integral

def text (i : Integral) : String :=
  match i.domain with
  | .cell => "dx"
  | .exteriorFacet => "ds"
  | .interiorFacet => "dS"

/-- Integrals are compared by the kind of their domain, then by the number of facets. -/
instance : Ord Integral where
  compare := compareLex (compareOn fun i => i.domain.rank) (compareOn numFacets)

/-- The cell, every facet, or every ordered pair of facets. -/
def domains (i : Integral) : List QuadratureDomain :=
  match i.domain with
  | .cell => [.cell]
  | .exteriorFacet => (List.range i.numFacets).map .exteriorFacet
  | .interiorFacet =>
    (List.range i.numFacets).flatMap fun p => (List.range i.numFacets).map (.interiorFacet p)

end Integral

end WeakForm
