import WeakForm.Representation

/-!
# Records

Forms and tensor representations as trees of named fields, for storage and exchange.  Structures
become fields under their names, lists and pairs become lists, variants without data become their
names, other variants a single field, and an element its identifier.  Constants and tensor entries
are leaves of their own kinds, since they may be written with different precision.
-/

namespace WeakForm

/-- A tree of fields, lists and leaves. -/
inductive Record (K : Type) where
  | null
  | number (n : Int)
  | text (s : String)
  | constant (x : K)
  | entry (x : K)
  | list (items : List (Record K))
  | fields (items : List (String × Record K))

namespace Record

variable {K : Type}

def ofNat (n : Nat) : Record K :=
  number n

def ofNats (ns : List Nat) : Record K :=
  list (ns.map ofNat)

def ofSlotKind : SlotKind → Record K
  | .primary => text "Primary"
  | .secondary => text "Secondary"
  | .auxiliary => text "Auxiliary"

def ofIndex (i : Index) : Record K :=
  fields
    [("kind", i.kind?.elim (text "Fixed") ofSlotKind),
     ("value", ofNat i.value),
     ("range", ofNats i.range)]

def ofElement (e : Element) : Record K :=
  ofNat e.id

def ofRestriction : Restriction → Record K
  | .unrestricted => text "Unrestricted"
  | .plus => text "Plus"
  | .minus => text "Minus"
  | .constant => text "Constant"

def ofIntegral (i : Integral) : Record K :=
  let domain := match i.domain with
    | .cell => "Cell"
    | .exteriorFacet => "ExteriorFacet"
    | .interiorFacet => "InteriorFacet"
  fields [("domain", text domain), ("num_facets", ofNat i.numFacets)]

def ofDerivative (d : Derivative) : Record K :=
  fields [("element", ofElement d.element), ("index", ofIndex d.index)]

def ofBasisFunction (v : BasisFunction) : Record K :=
  fields
    [("element", ofElement v.element),
     ("index", ofIndex v.index),
     ("components", list (v.components.map ofIndex)),
     ("restriction", ofRestriction v.restriction),
     ("derivatives", list (v.derivatives.map ofDerivative))]

def ofTransform (t : Transform) : Record K :=
  let kind := match t.kind with
    | .jacobian => "J"
    | .inverse => "JInv"
  fields
    [("kind", text kind),
     ("index0", ofIndex t.reference),
     ("index1", ofIndex t.physical),
     ("restriction", ofRestriction t.restriction)]

def ofCoefficient (c : Coefficient) : Record K :=
  fields [("n0", ofNat c.function), ("n1", ofNat c.projection), ("index", ofIndex c.index)]

def ofDeterminant (d : Determinant) : Record K :=
  fields [("power", number d.power), ("restriction", ofRestriction d.restriction)]

def ofMonomial (m : Monomial K) : Record K :=
  fields
    [("constant", constant m.constant),
     ("basis_functions", list (m.basisFunctions.map ofBasisFunction)),
     ("transforms", list (m.transforms.map ofTransform)),
     ("coefficients", list (m.coefficients.map ofCoefficient)),
     ("determinants", list (m.determinants.map ofDeterminant)),
     ("integral", ofIntegral m.integral)]

def ofForm (f : Form K) : Record K :=
  fields [("monomials", list (f.monomials.map ofMonomial))]

def ofMultiIndex (m : MultiIndex) : Record K :=
  fields [("indices", list (m.indices.map ofIndex)), ("dims", ofNats m.dims)]

def ofDenseTensor (t : DenseTensor K) : Record K :=
  fields [("shape", ofNats t.shape), ("data", list (t.data.toList.map entry))]

def ofReferenceTensor (t : ReferenceTensor K) : Record K :=
  fields
    [("i", ofMultiIndex t.i),
     ("a", ofMultiIndex t.a),
     ("b", ofMultiIndex t.b),
     ("constant", constant t.constant),
     ("basis_functions", list (t.basisFunctions.map ofBasisFunction)),
     ("integral", ofIntegral t.integral),
     ("a0", ofDenseTensor t.entries)]

def ofQuadratureDomain : QuadratureDomain → Record K
  | .cell => text "Cell"
  | .exteriorFacet f => fields [("ExteriorFacet", ofNat f)]
  | .interiorFacet p m => fields [("InteriorFacet", ofNats [p, m])]

def ofTerm (t : TensorTerm K) : Record K :=
  fields
    [("monomial", ofNat t.monomial),
     ("representative", ofNat t.representative),
     ("scale", constant t.scale)]

def ofDomainTensors (d : DomainTensors K) : Record K :=
  fields
    [("domain", ofQuadratureDomain d.domain),
     ("tensors", list (d.tensors.map fun (p, t) => list [ofNat p, ofReferenceTensor t]))]

def ofIntegralTensors (t : IntegralTensors K) : Record K :=
  fields
    [("integral", ofIntegral t.integral),
     ("terms", list (t.terms.map ofTerm)),
     ("domains", list (t.domains.map ofDomainTensors))]

def ofRepresentation (r : TensorRepresentation K) : Record K :=
  fields
    [("form", ofForm r.form),
     ("factorization", list (r.factorization.map fun p => p.elim null ofNat)),
     ("integrals", list (r.integrals.map ofIntegralTensors))]

end Record

end WeakForm
