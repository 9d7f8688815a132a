import Mathlib.Algebra.Field.Rat
import WeakForm.Binary64

/-!
# Laws of constants

Equality of floating-point constants is neither reflexive, because of NaN, nor equality, because of
the two zeros.  The theory of the simplifier needs less (`LawfulConstant`), and floating-point
numbers have it; they also give one if they are divided by themselves (`LawfulDivision`).  Only the
theory of values asks for constants without rounding (`ExactConstant`).
-/

namespace WeakForm

/-- Laws of constants that also hold of floating-point numbers: a finite number is equal to itself,
and equality goes both ways. -/
class LawfulConstant (K : Type) [Constant K] [BEq K] : Prop where
  beq_self_of_isFinite : ∀ x : K, Constant.isFinite x = true → (x == x) = true
  beq_comm : ∀ x y : K, (x == y) = (y == x)

/-- Constants without rounding: equality is equality, and all constants are finite. -/
class ExactConstant (K : Type) [Constant K] [BEq K] : Prop extends LawfulBEq K where
  isFinite_eq_true : ∀ x : K, Constant.isFinite x = true

/-- A finite number divided by itself is one, unless it is zero. -/
class LawfulDivision (K : Type) [Constant K] [BEq K] [Zero K] [One K] [Div K] : Prop where
  div_self : ∀ x : K, Constant.isFinite x = true → (x == 0) = false → x / x = 1

instance {K : Type} [Constant K] [BEq K] [ExactConstant K] : LawfulConstant K where
  beq_self_of_isFinite x _ := beq_self_eq_true x
  beq_comm _ _ := BEq.comm

instance : Constant ℚ where
  isFinite _ := true
  text := toString

instance : ExactConstant ℚ where
  isFinite_eq_true _ := rfl

instance {K : Type} [Field K] [Constant K] [BEq K] [ExactConstant K] : LawfulDivision K where
  div_self x _ hx := div_self (by simpa using hx)

/-! ### Floating-point numbers -/

section

open Float.Model

/-- How two positive numbers are compared: by their exponents, then by their mantissas. -/
theorem Binary64.comparePositive_swap (m m' : ℕ) (e e' : ℤ) :
    (compare e' e).then (compare m' m) = ((compare e e').then (compare m m')).swap := by
  rw [Ordering.swap_then, ← Std.OrientedOrd.eq_swap, ← Std.OrientedOrd.eq_swap]

theorem Binary64.compare_self {x : UnpackedFloat} (h : x.isFinite = true) :
    x.compare x = some .eq := by
  cases x with
  | infinity s => cases h
  | notANumber => cases h
  | zero s => rfl
  | finite s m e hm =>
    have hself : (compare e e).then (compare m m) = .eq := by simp
    cases s with
    | positive => exact congrArg some hself
    | negative => exact congrArg (fun o => some o.swap) hself

/-- Both directions of a comparison agree; not-a-number compares with nothing in either one. -/
theorem Binary64.compare_swap (x y : UnpackedFloat) : y.compare x = (x.compare y).map .swap := by
  rcases x with (_ | _) | _ | _ | ⟨_ | _, m, e, hm⟩ <;>
    rcases y with (_ | _) | _ | _ | ⟨_ | _, m', e', hm'⟩ <;>
    first
    | rfl
    | exact congrArg some (comparePositive_swap m m' e e')
    | exact congrArg (fun o => some o.swap) (comparePositive_swap m m' e e')

theorem Binary64.beq_comm (x y : UnpackedFloat) : x.beq y = y.beq x := by
  change (x.compare y == some .eq) = (y.compare x == some .eq)
  rw [compare_swap x y]
  cases x.compare y with
  | none => rfl
  | some o => cases o <;> rfl

instance : LawfulConstant Float where
  beq_self_of_isFinite x hx := by
    have h : x.toModel.unpack.compare x.toModel.unpack = some .eq := Binary64.compare_self hx
    change (x.toModel.unpack.compare x.toModel.unpack == some .eq) = true
    rw [h]
    rfl
  beq_comm x y := Binary64.beq_comm x.toModel.unpack y.toModel.unpack

/-- The quotient of two equal mantissas is a power of two without a remainder. -/
theorem Binary64.divCore_self {m : ℕ} (hm : 0 < m) (e : ℤ) :
    UnpackedFloat.divCore Format.binary64 m e m e = (2 ^ 53, -53, .exact) := by
  have htarget : min (e - e)
      (Format.binary64.targetExponent (totalExponent m e - totalExponent m e)) = -53 := by
    rw [Int.sub_self, Int.sub_self]
    rfl
  have hshift : m <<< (e - e - -53).toNat = m * 2 ^ 53 := by
    rw [Int.sub_self]
    exact Nat.shiftLeft_eq m 53
  rw [UnpackedFloat.divCore, htarget]
  simp only [hshift, Nat.mul_div_cancel_left _ hm, Nat.mul_mod_right]
  rfl

instance : LawfulDivision Float where
  div_self x hx h0 := by
    change Float.ofModel (pack (UnpackedFloat.div Format.binary64 x.toModel.unpack
      x.toModel.unpack)) = 1
    change (x.toModel.unpack.compare (.zero .positive) == some .eq) = false at h0
    change x.toModel.unpack.isFinite = true at hx
    cases hu : x.toModel.unpack with
    | infinity s =>
      rw [hu] at hx
      cases hx
    | notANumber =>
      rw [hu] at hx
      cases hx
    | zero s =>
      rw [hu] at h0
      cases h0
    | finite s m e hm =>
      let q := UnpackedFloat.divCore Format.binary64 m e m e
      have hq : q = (2 ^ 53, -53, .exact) := Binary64.divCore_self hm e
      change Float.ofModel (pack (UnpackedFloat.roundWithAccuracy Format.binary64 (s / s) q.1 q.2.1
        q.2.2)) = 1
      rw [hq]
      cases s <;> rfl

end

end WeakForm
