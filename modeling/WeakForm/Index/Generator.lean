import WeakForm.Index

/-!
# Fresh slots

A generator hands out slots whose identifiers have not been used before, counting each kind for
itself.  Identifiers are only unique within one form; renumbering makes them canonical.
-/

namespace WeakForm

/-- The next unused identifier of each kind. -/
structure IndexGenerator where
  primary : Nat := 0
  secondary : Nat := 0
  auxiliary : Nat := 0
deriving DecidableEq, Inhabited

namespace IndexGenerator

/-- The next unused identifier of the given kind. -/
def next (g : IndexGenerator) : SlotKind → Nat
  | .primary => g.primary
  | .secondary => g.secondary
  | .auxiliary => g.auxiliary

/-- The generator after one more slot of the given kind. -/
def advance (g : IndexGenerator) : SlotKind → IndexGenerator
  | .primary => { g with primary := g.primary + 1 }
  | .secondary => { g with secondary := g.secondary + 1 }
  | .auxiliary => { g with auxiliary := g.auxiliary + 1 }

/-- A slot with the next unused identifier of its kind. -/
def fresh (g : IndexGenerator) (k : SlotKind) (range : List Nat) : Index × IndexGenerator :=
  (.slot k (g.next k) range, g.advance k)

end IndexGenerator

end WeakForm
