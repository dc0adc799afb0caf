import PhasedArray.Dyadic
import PhasedArray.Scalar

set_option autoImplicit false

/-!
# The scalars a computation runs on: binary64

Most operations are the machine's own.  Some are not: the length of a vector is
scaled so that it neither overflows nor vanishes before its components do, the
remainder is worked out exactly, halves round to the even neighbour, a decimal far out
of range is not worked out, and a short number has eleven binary digits.
-/

namespace PhasedArray

namespace Binary64

/-- Zero. -/
def zero : Float := 0.0

/-- One. -/
def one : Float := 1.0

/-- Above this size the square of a component keeps its digits. -/
def leastSquared : Float := 1e-140

/-- Below this size the sum of two squares is finite. -/
def greatestSquared : Float := 1e140

/-- The length of the vector `(x, y)`, infinite if a component is. -/
def hypot (x y : Float) : Float :=
  let a := x.abs
  let b := y.abs
  if a.isInf || b.isInf then 1.0 / 0.0
  else
    let larger := if a < b then b else a
    if leastSquared < larger && larger < greatestSquared then Float.sqrt (x * x + y * y)
    else if larger == zero then a + b
    else
      let u := x / larger
      let v := y / larger
      larger * Float.sqrt (u * u + v * v)

/-- The nearest whole number; halves go to the even neighbour. -/
def roundEven (x : Float) : Float :=
  let below := x.floor
  let gap := x - below
  if gap < 0.5 then below
  else if gap > 0.5 then below + 1.0
  else if (below / 2.0).floor * 2.0 == below then below
  else below + 1.0

/-- The remainder of `x` by `y` with the sign of `y`, without rounding on the way. -/
def modulo (x y : Float) : Float :=
  match Dyadic.ofFloat? x, Dyadic.ofFloat? y with
  | some a, some b =>
      if b.digits = 0 then 0.0 / 0.0
      else
        let r := Dyadic.remainder a b
        if r.digits = 0 then 0.0
        else if a.negative = b.negative then { r with negative := a.negative }.toFloat
        else { r with negative := a.negative }.toFloat + y
  | _, _ => 0.0 / 0.0

/-- The whole number next to a finite value on the side of zero. -/
def truncate (x : Float) : Int :=
  match Dyadic.ofFloat? x with
  | some d => d.truncate
  | none => 0

/-- The number `digits * 10 ^ exponent`, or `digits / 10 ^ exponent` if `negative` is set.
Powers of ten far out of range are not worked out. -/
def ofScientific (digits : Nat) (negative : Bool) (exponent : Nat) : Float :=
  let length := Nat.log2 digits * 30103 / 100000 + 1
  if digits = 0 then 0.0
  else if !negative && 320 < exponent + length then 1.0 / 0.0
  else if negative && length + 340 < exponent then 0.0
  else Float.ofScientific digits negative exponent

/-- The least power of two that a short number is counted in. -/
def shortExponent : Int := -24

/-- Short numbers are smaller than this. -/
def shortBound : Float := 65536.0

/-- The nearest number of eleven binary digits; infinite from the bound on. -/
def short (x : Float) : Float :=
  match Dyadic.ofFloat? x with
  | none => x
  | some d =>
      if d.digits = 0 then x
      else
        let unit := one.scaleB (max (d.exponent + Nat.log2 d.digits - 10) shortExponent)
        let y := roundEven (x / unit) * unit
        if y.abs < shortBound then y else y / zero

end Binary64

instance : Scalar Float where
  zero := Binary64.zero
  one := Binary64.one
  ofNat := Float.ofNat
  ofScientific := Binary64.ofScientific
  add := Float.add
  sub := Float.sub
  mul := Float.mul
  div := Float.div
  neg := Float.neg
  lt x y := x < y
  le x y := x ≤ y
  decLt x y := inferInstanceAs (Decidable (x < y))
  decLe x y := inferInstanceAs (Decidable (x ≤ y))
  isFinite := Float.isFinite
  pi := 3.141592653589793
  sqrt := Float.sqrt
  exp := Float.exp
  log := Float.log
  log10 := Float.log10
  pow := Float.pow
  sin := Float.sin
  cos := Float.cos
  arcsin := Float.asin
  atan2 := Float.atan2
  hypot := Binary64.hypot
  roundEven := Binary64.roundEven
  modulo := Binary64.modulo
  truncate := Binary64.truncate
  short := Binary64.short

end PhasedArray
