import WeakForm.Contraction

/-!
# Simplification

`Form.simplify` brings a form into normal form.  After constant restrictions have been normalized,
rounds of the following passes are repeated until a round leaves the form as it was: contraction of
monomials, addition of equal monomials, elimination of zeros, multiplication of determinants,
cancellation of derivative chains, and renumbering.

A round that removes no monomial, no determinant and no transform only renumbers the form, so the
number of rounds is bounded by their total (`Form.roundLimit`).
-/

namespace WeakForm

namespace Monomial

variable {K : Type}

/-- On interior facets, a basis function that is the same on both sides is taken on the plus
side. -/
def normalizeRestrictions (m : Monomial K) : Monomial K :=
  if m.integral.domain = .interiorFacet then
    { m with
      basisFunctions := m.basisFunctions.map fun v =>
        if v.restriction = .constant then { v with restriction := .plus } else v }
  else
    m

/-- Multiplies determinants that can be multiplied. -/
def contractDeterminants (m : Monomial K) : Monomial K :=
  { m with determinants := contractPairs Determinant.multiply m.determinants }

/-- The sum of two monomials that agree in everything but their constants. -/
def factorize [Add K] (m n : Monomial K) : Option (Monomial K) :=
  if m.eqIgnoringConstant n then some { m with constant := m.constant + n.constant } else none

end Monomial

/-! ### Derivative chains -/

/-- The entry of the inverse Jacobian by which a derivative along `l` is pulled back. -/
def Transform.startsChain (restriction : Restriction) (l : Index) (t : Transform) : Bool :=
  t.kind == .inverse && t.reference.sameSlot l && t.restriction == restriction &&
    !t.physical.isFixed

/-- The entry of the Jacobian that leads back from the physical direction `m`. -/
def Transform.endsChain (restriction : Restriction) (m : Index) (t : Transform) : Bool :=
  t.kind == .jacobian && t.physical.sameSlot m && t.restriction == restriction &&
    !t.reference.isFixed

/-- Cancels the chain of two transforms that acts on a derivative along the secondary slot `l`.
Returns the reference direction at its end and the other transforms. -/
def cancelChain (restriction : Restriction) (l : Index) (ts : List Transform) :
    Option (Index × List Transform) := do
  guard (l.isKind .secondary)
  let first ← ts.find? (·.startsChain restriction l)
  let second ← ts.find? (·.endsChain restriction first.physical)
  return (second.reference,
    (ts.eraseP (·.startsChain restriction l)).eraseP (·.endsChain restriction first.physical))

/-- Cancels at most one chain for each derivative, from left to right. -/
def cancelDerivatives (restriction : Restriction) :
    List Derivative → List Transform → List Derivative × List Transform
  | [], ts => ([], ts)
  | d :: ds, ts =>
    let (d, ts) :=
      match cancelChain restriction d.index ts with
      | some (index, ts) => ({ d with index }, ts)
      | none => (d, ts)
    let (ds, ts) := cancelDerivatives restriction ds ts
    (d :: ds, ts)

/-- Cancels chains for the derivatives of all basis functions, from left to right. -/
def cancelChains : List BasisFunction → List Transform → List BasisFunction × List Transform
  | [], ts => ([], ts)
  | v :: vs, ts =>
    let (derivatives, ts) := cancelDerivatives v.restriction v.derivatives ts
    let (vs, ts) := cancelChains vs ts
    ({ v with derivatives } :: vs, ts)

namespace Monomial

variable {K : Type}

/-- Turns a derivative along `L` with the chain `(dX_L/dx_M) (dx_M/dX_N)` into one along `N`. -/
def simplifyDerivatives (m : Monomial K) : Monomial K :=
  let (basisFunctions, transforms) := cancelChains m.basisFunctions m.transforms
  { m with basisFunctions, transforms }

end Monomial

namespace Form

variable {K : Type}

def normalizeRestrictions (f : Form K) : Form K :=
  f.map Monomial.normalizeRestrictions

def contractDeterminants (f : Form K) : Form K :=
  f.map Monomial.contractDeterminants

def simplifyDerivatives (f : Form K) : Form K :=
  f.map Monomial.simplifyDerivatives

/-- Adds up monomials that agree in everything but their constants. -/
def factorize [Add K] (f : Form K) : Form K :=
  ⟨contractPairs Monomial.factorize f.monomials⟩

/-- Drops monomials whose constant is zero. -/
def eliminateZeros [BEq K] [Zero K] (f : Form K) : Form K :=
  ⟨f.monomials.filter fun m => !(m.constant == 0)⟩

/-- The first monomial whose constant is not finite. -/
def nonFinite? [Constant K] (f : Form K) : Option (Monomial K) :=
  f.monomials.find? fun m => !Constant.isFinite m.constant

variable [Constant K] [BEq K] [Add K] [Zero K]

/-- All passes once. -/
def round (f : Form K) : Except (FormError K) (Form K) := do
  let contracted ← f.contract
  let result :=
    contracted.factorize.eliminateZeros.contractDeterminants.simplifyDerivatives.renumber
  match result.nonFinite? with
  | some m => .error (.simplification (.overflow m))
  | none => .ok result

/-- Repeats rounds until one leaves the form as it was, at most `limit` of them. -/
def settle (limit : Nat) (f : Form K) : Except (FormError K) (Form K) :=
  match limit with
  | 0 => .error (.simplification .unsettled)
  | limit + 1 => do
    let next ← f.round
    if next == f then .ok next else next.settle limit

/-- Two rounds more than there are monomials, determinants and transforms that a round can
remove. -/
def roundLimit (f : Form K) : Nat :=
  f.size + total (f.monomials.map fun m => m.determinants.length + m.transforms.length) + 2

/-- The normal form.  Every monomial must be balanced and have a finite constant. -/
def simplify (f : Form K) : Except (FormError K) (Form K) := do
  if let some (cause, position) := f.imbalance? then
    throw (.invariant (.unbalanced cause (some position)))
  if let some m := f.nonFinite? then
    throw (.invariant (.nonFinite m))
  let result ← f.normalizeRestrictions.settle f.roundLimit
  if let some (cause, position) := result.imbalance? then
    throw (.simplification (.unbalancedResult cause position))
  return result

end Form

end WeakForm
