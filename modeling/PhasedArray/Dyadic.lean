set_option autoImplicit false

/-!
# Dyadic numbers: the exact value of a binary64 number

A finite `Float` is a whole number times a power of two.  `Dyadic.ofFloat?` reads
that pair off the bits, so that rounding, remainders and decimal text can be
worked out on whole numbers, where nothing is lost.
-/

namespace PhasedArray

/-- The number `digits * 2 ^ exponent`, negated if `negative` is set. -/
structure Dyadic where
  negative : Bool
  digits : Nat
  exponent : Int
  deriving DecidableEq, Repr, Inhabited

namespace Dyadic

/-- The exponent of the smallest positive binary64 number. -/
def lowestExponent : Int := -1074

/-- The smallest significand that fills all 53 binary digits. -/
def fullSignificand : Nat := Nat.pow 2 52

/-- The exact value of a finite number; `none` for an infinity or an undefined value. -/
def ofFloat? (x : Float) : Option Dyadic :=
  let bits := x.toBits.toNat
  let negative := bits / Nat.pow 2 63 == 1
  let biased := bits / Nat.pow 2 52 % Nat.pow 2 11
  let fraction := bits % Nat.pow 2 52
  if biased = 2047 then none
  else if biased = 0 then some ⟨negative, fraction, lowestExponent⟩
  else some ⟨negative, fullSignificand + fraction, lowestExponent + (biased - 1 : Nat)⟩

/-- The magnitude as a quotient of two whole numbers, the second a power of two. -/
def quotient (d : Dyadic) : Nat × Nat :=
  match d.exponent with
  | .ofNat e => (d.digits * Nat.pow 2 e, 1)
  | .negSucc e => (d.digits, Nat.pow 2 (e + 1))

/-- The part before the binary point. -/
def truncate (d : Dyadic) : Int :=
  let (num, den) := d.quotient
  if d.negative then -(num / den : Nat) else (num / den : Nat)

/-- The significands of two magnitudes over their smaller exponent, and that exponent. -/
def align (a b : Dyadic) : Nat × Nat × Int :=
  let e := min a.exponent b.exponent
  (a.digits * Nat.pow 2 (a.exponent - e).toNat, b.digits * Nat.pow 2 (b.exponent - e).toNat, e)

/-- The remainder of the magnitudes, `a` by `b`. -/
def remainder (a b : Dyadic) : Dyadic :=
  let (x, y, e) := align a b
  ⟨false, x % y, e⟩

/-- The float of a dyadic number that fits one. -/
def toFloat (d : Dyadic) : Float :=
  let magnitude := (Float.ofNat d.digits).scaleB d.exponent
  if d.negative then -magnitude else magnitude

end Dyadic

end PhasedArray
