import WeakForm.Monomial

/-!
# Forms

A multilinear form is a sum of monomials.
-/

namespace WeakForm

/-- The sum of its monomials. -/
structure Form (K : Type) where
  monomials : List (Monomial K)
deriving Inhabited

namespace Form

variable {K : Type}

instance [BEq K] : BEq (Form K) where
  beq f g := f.monomials == g.monomials

/-- The number of monomials. -/
def size (f : Form K) : Nat :=
  f.monomials.length

/-- Changes each monomial for itself. -/
def map (g : Monomial K → Monomial K) (f : Form K) : Form K :=
  ⟨f.monomials.map g⟩

def push (f : Form K) (m : Monomial K) : Form K :=
  ⟨f.monomials ++ [m]⟩

instance : Append (Form K) where
  append f g := ⟨f.monomials ++ g.monomials⟩

/-- The identifiers of the slots of one kind, monomial by monomial. -/
def ids (f : Form K) (k : SlotKind) : List Nat :=
  f.monomials.flatMap (·.ids k)

/-- The number of arguments: one more than the largest primary identifier. -/
def rank (f : Form K) : Nat :=
  match (f.ids .primary).max? with
  | none => 0
  | some id => id + 1

/-- The measures of the form, each once, in order of first occurrence. -/
def integrals (f : Form K) : List Integral :=
  (f.monomials.map (·.integral)).eraseDups

def text [Constant K] (f : Form K) : String :=
  if f.monomials.isEmpty then "0" else " + ".intercalate (f.monomials.map Monomial.text)

@[simp] theorem monomials_map (g : Monomial K → Monomial K) (f : Form K) :
    (f.map g).monomials = f.monomials.map g := rfl

@[simp] theorem size_map (g : Monomial K → Monomial K) (f : Form K) : (f.map g).size = f.size := by
  simp [size]

end Form

end WeakForm
