/-!
# Shortest decimals of binary floating-point numbers

A positive binary number `m * 2 ^ q` stands for all reals that round to it: those between the
midpoints to its neighbours, the midpoints included if `m` is even.  `shortest` returns the decimal
with the fewest digits in that interval, the one nearest to the number if there are two, and the
larger one if both are equally near.  All comparisons are exact.

`positional` writes a decimal without an exponent.
-/

namespace WeakForm.Binary64

/-- The decimal `digits * 10 ^ exponent`. -/
structure Decimal where
  digits : Nat
  exponent : Int
deriving DecidableEq, Inhabited

/-- A number with the interval of the reals that round to it, in units of `2 ^ exponent`. -/
structure Rounding where
  value : Nat
  low : Nat
  high : Nat
  exponent : Int
  /-- Whether the ends of the interval round to the number. -/
  closed : Bool
deriving DecidableEq, Inhabited

/-- The interval of `m * 2 ^ q`.  Below a power of two the neighbour is only half as far away,
unless the exponent is the least one. -/
def rounding (m : Nat) (q : Int) : Rounding where
  value := 4 * m
  low := if m = Nat.pow 2 52 ∧ q ≠ -1074 then 4 * m - 1 else 4 * m - 2
  high := 4 * m + 2
  exponent := q - 2
  closed := m % 2 == 0

/-- The multiple of `10 ^ p` in the interval, if there is one: the nearer of the two neighbours of
the number on that grid, the upper one on a tie. -/
def Rounding.onGrid? (r : Rounding) (p : Int) : Option Nat :=
  -- `k * 10 ^ p` against `x * 2 ^ exponent` is `k * a` against `x * b`
  let a := Nat.pow 10 p.toNat * Nat.pow 2 (-r.exponent).toNat
  let b := Nat.pow 2 r.exponent.toNat * Nat.pow 10 (-p).toNat
  let inside (k : Nat) : Bool :=
    if r.closed then r.low * b ≤ k * a && k * a ≤ r.high * b
    else r.low * b < k * a && k * a < r.high * b
  let k := r.value * b / a
  match inside k, inside (k + 1) with
  | false, false => none
  | true, false => some k
  | false, true => some (k + 1)
  | true, true => some (if (2 * k + 1) * a ≤ 2 * r.value * b then k + 1 else k)

/-- An exponent of ten above the number, but not by much. -/
def decimalTop (m : Nat) (q : Int) : Int :=
  let bits := (m.log2 : Int) + 1 + q
  if bits ≥ 0 then bits * 31 / 100 + 1 else bits * 3 / 10 + 1

/-- The decimal with the fewest digits that rounds to `m * 2 ^ q`, nearest to it.  The grids
`10 ^ p` are tried from the coarsest one. -/
def shortest (m : Nat) (q : Int) : Decimal :=
  let grids := (List.range 40).map fun (n : Nat) => decimalTop m q - n
  let found? := grids.findSome? fun p =>
    ((rounding m q).onGrid? p).map fun digits => { digits, exponent := p : Decimal }
  found?.getD { digits := m * Nat.pow 2 q.toNat, exponent := 0 }

/-- The decimal without an exponent: as many digits after the point as are needed. -/
def Decimal.positional (d : Decimal) : String :=
  let digits := toString d.digits
  if d.exponent ≥ 0 then
    digits ++ "".pushn '0' d.exponent.toNat
  else
    let places := (-d.exponent).toNat
    let padded := "".pushn '0' (places + 1 - digits.length) ++ digits
    let whole := padded.length - places
    String.ofList (padded.toList.take whole) ++ "." ++ String.ofList (padded.toList.drop whole)

/-! ### Binary64 -/

/-- The magnitude `m * 2 ^ q` of a finite number, from its bits. -/
def magnitude (bits : Nat) : Nat × Int :=
  let fraction : Nat := bits % Nat.pow 2 52
  let biased : Nat := bits / Nat.pow 2 52 % Nat.pow 2 11
  if biased = 0 then (fraction, -1074) else (Nat.pow 2 52 + fraction, (biased : Int) - 1075)

/-- The shortest text that reads back as the number with the given bits, never with an exponent,
and without a fraction for whole numbers. -/
def text (bits : Nat) : String :=
  let sign := if bits / Nat.pow 2 63 % 2 = 1 then "-" else ""
  if bits / Nat.pow 2 52 % Nat.pow 2 11 = 2047 then
    if bits % Nat.pow 2 52 = 0 then sign ++ "inf" else "NaN"
  else
    let (m, q) := magnitude bits
    if m = 0 then sign ++ "0" else sign ++ (shortest m q).positional

end WeakForm.Binary64
