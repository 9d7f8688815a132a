/-!
# Machine words

Identifiers, numbers of entries and numbers of basis functions are held in machine words.  A result
beyond the word wraps around, so it is exact as long as it fits (`wrap_eq_of_lt`).
-/

namespace WeakForm

/-- How many numbers a machine word of 64 bits can hold. -/
def wordSize : Nat :=
  0x10000000000000000

/-- How many numbers half a machine word can hold. -/
def halfWordSize : Nat :=
  0x100000000

/-- What a machine word holds of a number. -/
def wrap (n : Nat) : Nat :=
  n % wordSize

/-- What half a machine word holds of a number. -/
def wrapHalf (n : Nat) : Nat :=
  n % halfWordSize

theorem wrap_eq_of_lt {n : Nat} (h : n < wordSize) : wrap n = n :=
  Nat.mod_eq_of_lt h

theorem wrapHalf_eq_of_lt {n : Nat} (h : n < halfWordSize) : wrapHalf n = n :=
  Nat.mod_eq_of_lt h

theorem wrap_lt (n : Nat) : wrap n < wordSize :=
  Nat.mod_lt n (by decide)

theorem wrapHalf_lt (n : Nat) : wrapHalf n < halfWordSize :=
  Nat.mod_lt n (by decide)

theorem wrap_le (n : Nat) : wrap n ≤ n :=
  Nat.mod_le n wordSize

theorem wrapHalf_le (n : Nat) : wrapHalf n ≤ n :=
  Nat.mod_le n halfWordSize

end WeakForm
