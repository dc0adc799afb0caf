import PhasedArray.Mat
import PhasedArray.Scalar.Float

set_option autoImplicit false

/-!
# Scales of binary64 numbers

A solver that squares its numbers has to keep them in the middle of their range.  A
matrix or a column is therefore multiplied by a power of two on the way in and divided
by it on the way out, which costs no digit.
-/

namespace PhasedArray

namespace Binary64

/-- `x` with the sign of `y`. -/
@[inline] def withSign (x y : Float) : Float :=
  if y.toBits >>> 63 == 1 then -x.abs else x.abs

/-- The distance from one to the next larger number. -/
def ulp : Float := 2.220446049250313e-16

/-- The least number whose reciprocal is finite, and which has all its digits. -/
def leastNormal : Float := 2.2250738585072014e-308

/-- The larger of the magnitudes of the two parts. -/
@[inline] def largerPart (z : Cplx Float) : Float :=
  let a := z.re.abs
  let b := z.im.abs
  if a < b then b else a

/-- The sum of the magnitudes of the two parts. -/
@[inline] def partSum (z : Cplx Float) : Float := z.re.abs + z.im.abs

/-- The power of two next to a positive magnitude; zero for zero. -/
@[inline] def binaryExponent (x : Float) : Int := if x == 0.0 then 0 else x.frExp.2

/-- A complex number times a power of two. -/
@[inline] def scaleParts (e : Int) (z : Cplx Float) : Cplx Float :=
  ⟨z.re.scaleB e, z.im.scaleB e⟩

/-- The largest magnitude of a part of any of the numbers. -/
def largestPart (zs : Array (Cplx Float)) : Float :=
  zs.foldl (fun acc z => let a := largerPart z; if acc < a then a else acc) 0.0

/-- The length of a list of complex numbers, free of overflow on the way. -/
def length (zs : Array (Cplx Float)) : Float :=
  let e := binaryExponent (largestPart zs)
  let sum := zs.foldl (fun acc z => acc + (scaleParts (-e) z).normSq) 0.0
  sum.sqrt.scaleB e

end Binary64

end PhasedArray
