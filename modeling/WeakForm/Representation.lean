import WeakForm.Factorization
import WeakForm.ReferenceTensor
import WeakForm.Simplify

/-!
# Tensor representation of a form

`Form.compile` simplifies a form, marks sums inside reference tensors, finds the monomials that
share a reference tensor, and computes one tensor for each representative and each domain of its
measure.
-/

namespace WeakForm

structure CompilerSettings where
  /-- The degree of the quadrature; without it every product is integrated exactly. -/
  quadratureDegree : Option Nat := none
  /-- Whether entries may be computed in parallel.  The result does not depend on it. -/
  parallel : Bool := true
deriving DecidableEq, Inhabited

/-- A monomial and the one whose reference tensor it uses, by position, with the factor between
their tensors. -/
structure TensorTerm (K : Type) where
  monomial : Nat
  representative : Nat
  scale : K

/-- The reference tensors of the representatives on one domain, with their positions. -/
structure DomainTensors (K : Type) where
  domain : QuadratureDomain
  tensors : List (Nat × ReferenceTensor K)

/-- The terms of one measure and their tensors on each of its domains. -/
structure IntegralTensors (K : Type) where
  integral : Integral
  terms : List (TensorTerm K)
  domains : List (DomainTensors K)

/-- A simplified form with the sharing of tensors among its monomials and the tensors. -/
structure TensorRepresentation (K : Type) where
  form : Form K
  factorization : List (Option Nat)
  integrals : List (IntegralTensors K)

/-- The stages of compilation that can fail. -/
inductive CompileStage where
  | simplification
  | auxiliaryMarking
  | factorization
  | referenceTensors (integral : Integral)
deriving DecidableEq

def CompileStage.text : CompileStage → String
  | simplification => "failed to simplify form"
  | auxiliaryMarking => "failed to mark auxiliary indices"
  | factorization => "failed to factorize form"
  | referenceTensors i => s!"failed to compute reference tensors for {i.text} integral"

/-- What went wrong, and where. -/
structure CompileError (K : Type) where
  stage : CompileStage
  cause : FormError K

variable {K : Type}

/-- The tensor of the representative at the given position. -/
def DomainTensors.tensorFor? (d : DomainTensors K) (representative : Nat) :
    Option (ReferenceTensor K) :=
  d.tensors.lookup representative

/-- The first basis function whose cell does not have as many facets as the measure says. -/
def Monomial.facetMismatch? (m : Monomial K) : Option Unsupported :=
  if m.integral.domain = .cell then
    none
  else
    (m.basisFunctions.find? fun v => v.element.space.cell.numFacets != m.integral.numFacets).map
      fun v => .facetCount m.integral v.element.space.cell

namespace Form

/-- The monomials of one measure with their positions and those of their representatives. -/
def sharing (f : Form K) (factorization : List (Option Nat)) (integral : Integral) :
    List (Nat × Nat × Monomial K) :=
  ((f.monomials.zip factorization).zipIdx.filter fun ((m, _), _) => m.integral = integral).map
    fun ((m, representative), position) => (position, representative.getD position, m)

variable [Zero K] [One K] [Add K] [Sub K] [Mul K] [Div K] [NatCast K] [Numerics K] [LE K]
variable [DecidableLE K] [Tabulation K] [Enumeration]

/-- The reference tensor of a monomial on a domain. -/
def referenceTensor (settings : CompilerSettings) (m : Monomial K) (domain : QuadratureDomain) :
    Except (FormError K) (ReferenceTensor K) := do
  let integrator ←
    ReferenceIntegrator.forBasisFunctions m.basisFunctions domain settings.quadratureDegree
  let integrand ← integrator.prepare m.basisFunctions
  ReferenceTensor.compute m integrand.integrate

/-- The terms of one measure, and the tensors of their representatives on all its domains. -/
def integralTensors (f : Form K) (factorization : List (Option Nat)) (settings : CompilerSettings)
    (integral : Integral) : Except (FormError K) (IntegralTensors K) := do
  let shared := f.sharing factorization integral
  if let some cause := shared.findSome? fun (_, _, m) => m.facetMismatch? then
    throw (.unhandled cause)
  let terms := shared.map fun (monomial, representative, m) =>
    let constant := (f.monomials[representative]?.getD m).constant
    ({ monomial, representative, scale := m.constant / constant } : TensorTerm K)
  let representatives := shared.filter fun (position, representative, _) =>
    representative = position
  let domains ← integral.domains.mapM fun domain => do
    let tensors ← representatives.mapM fun (position, _, m) => do
      return (position, ← referenceTensor settings m domain)
    return ({ domain, tensors } : DomainTensors K)
  return { integral, terms, domains }

/-- Compiles a form into its tensor representation. -/
def compile [Constant K] [BEq K] (f : Form K) (settings : CompilerSettings) :
    Except (CompileError K) (TensorRepresentation K) := do
  let inStage {α : Type} (stage : CompileStage) (x : Except (FormError K) α) :
      Except (CompileError K) α :=
    x.mapError fun cause => { stage, cause }
  let simplified ← inStage .simplification f.simplify
  let marked ← inStage .auxiliaryMarking simplified.markAuxiliary
  let (form, factorization) ← inStage .factorization marked.reorder
  let integrals ← form.integrals.mapM fun integral =>
    inStage (.referenceTensors integral) (form.integralTensors factorization settings integral)
  return { form, factorization, integrals }

end Form

end WeakForm
