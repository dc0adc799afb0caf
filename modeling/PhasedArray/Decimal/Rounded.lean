import PhasedArray.Decimal.Layout
import PhasedArray.Dyadic

set_option autoImplicit false

/-!
# Rounding to a decimal

The exact value of a float, rounded once: to a number of places after the point,
or to a number of significant digits.  A tie goes to the even neighbour.
-/

namespace PhasedArray

namespace Decimal

/-- The quotient `num / den` to the nearest whole number, ties to even. -/
def roundQuotient (num den : Nat) : Nat :=
  let q := num / den
  let r := num % den
  if 2 * r < den then q
  else if den < 2 * r then q + 1
  else if q % 2 = 0 then q else q + 1

/-- The quotient of the magnitude by `10 ^ unit`. -/
def overPowerOfTen (d : Dyadic) (unit : Int) : Nat × Nat :=
  let (num, den) := d.quotient
  match unit with
  | .ofNat k => (num, den * Nat.pow 10 k)
  | .negSucc k => (num * Nat.pow 10 (k + 1), den)

/-- Whether the magnitude is at least `10 ^ power`. -/
def reaches (d : Dyadic) (power : Int) : Bool :=
  let (num, den) := overPowerOfTen d power
  den ≤ num

/-- The power of ten of the leading digit of a number other than zero.  The binary
length gives it up to one; comparing with the powers themselves decides. -/
def leadingPower (d : Dyadic) : Int :=
  let guess := ((Nat.log2 d.digits : Int) + d.exponent) * 30103 / 100000
  if reaches d (guess + 1) then guess + 1
  else if reaches d guess then guess
  else guess - 1

/-- Rounds to a multiple of `10 ^ unit`. -/
def roundAt (unit : Int) (d : Dyadic) : Decimal :=
  let (num, den) := overPowerOfTen d unit
  ⟨d.negative, roundQuotient num den, unit⟩

/-- Rounds to `places` digits after the point. -/
def ofPlaces (places : Nat) (d : Dyadic) : Decimal := roundAt (-places) d

/-- Rounds to `count` significant digits. -/
def ofSignificant (count : Nat) (d : Dyadic) : Decimal :=
  if d.digits = 0 then ⟨d.negative, 0, 0⟩
  else roundAt (leadingPower d - (count - 1 : Nat)) d

end Decimal

end PhasedArray
