import PhasedArray.Solvers.Scale

set_option autoImplicit false

/-!
# Working matrices of binary64 numbers

Iterative solvers change a matrix a few thousand times before they are done.
`Columns` stores one column after the other in two flat arrays of unboxed numbers,
so that a step changes them in place.
-/

namespace PhasedArray

/-- A matrix of `height` rows, column after column, real and imaginary parts apart. -/
structure Columns where
  height : Nat
  re : FloatArray
  im : FloatArray
  deriving Inhabited

/-- A unitary change of two columns `x`, `y` into `c x - s ū y` and `s x + c ū y`,
where `u` is a point of the unit circle. -/
structure PlaneRotation where
  c : Float
  s : Float
  u : Cplx Float

namespace PlaneRotation

/-- The tangent of the smaller angle that diagonalises a real symmetric matrix of two
rows with diagonal `a`, `b` and the value `r` beside it. -/
def tangent (a b r : Float) : Float :=
  let τ := (b - a) / (2.0 * r)
  if τ < 0.0 then -1.0 / (Float.sqrt (1.0 + τ * τ) - τ)
  else 1.0 / (τ + Float.sqrt (1.0 + τ * τ))

/-- The rotation that diagonalises the Hermitian matrix of two rows with diagonal `a`,
`b` and the complex value of modulus `r` and direction `u` above it. -/
def diagonalizing (a b r : Float) (u : Cplx Float) : PlaneRotation :=
  let t := tangent a b r
  let c := 1.0 / Float.sqrt (1.0 + t * t)
  ⟨c, t * c, u⟩

end PlaneRotation

namespace Columns

/-- The entry in row `i` and column `j`. -/
@[inline] def get (A : Columns) (i j : Nat) : Cplx Float :=
  ⟨A.re.get! (j * A.height + i), A.im.get! (j * A.height + i)⟩

/-- Replaces one entry. -/
def set (A : Columns) (i j : Nat) (z : Cplx Float) : Columns :=
  match A with
  | ⟨h, re, im⟩ => ⟨h, re.set! (j * h + i) z.re, im.set! (j * h + i) z.im⟩

/-- The columns of the given height, one entry after the other. -/
def ofEntries (height : Nat) (entries : List (Cplx Float)) : Columns :=
  { height
    re := entries.foldl (fun acc z => acc.push z.re) ⟨#[]⟩
    im := entries.foldl (fun acc z => acc.push z.im) ⟨#[]⟩ }

/-- The columns of a matrix. -/
def ofMat {m n : Nat} (A : Mat (Cplx Float) m n) : Columns :=
  ofEntries m ((List.finRange n).flatMap fun j => (List.finRange m).map fun i => A i j)

/-- The matrix of the columns at the given places. -/
def toMat {m n : Nat} (A : Columns) (places : Vector Nat n) : Mat (Cplx Float) m n :=
  Mat.of fun i j => A.get i (places.get j)

/-- Rotates columns `p` and `q`. -/
def rotate (A : Columns) (p q : Nat) (R : PlaneRotation) : Columns :=
  match A with
  | ⟨h, re, im⟩ => Id.run do
    let mut re := re
    let mut im := im
    for i in [0:h] do
      let a := p * h + i
      let b := q * h + i
      let xr := re.get! a
      let xi := im.get! a
      let yr := re.get! b * R.u.re + im.get! b * R.u.im
      let yi := im.get! b * R.u.re - re.get! b * R.u.im
      re := (re.set! a (R.c * xr - R.s * yr)).set! b (R.s * xr + R.c * yr)
      im := (im.set! a (R.c * xi - R.s * yi)).set! b (R.s * xi + R.c * yi)
    return ⟨h, re, im⟩

/-- Rotates rows `p` and `q` of a square matrix by the adjoint rotation. -/
def rotateRows (A : Columns) (p q : Nat) (R : PlaneRotation) : Columns :=
  match A with
  | ⟨h, re, im⟩ => Id.run do
    let mut re := re
    let mut im := im
    for j in [0:h] do
      let a := j * h + p
      let b := j * h + q
      let xr := re.get! a
      let xi := im.get! a
      let yr := re.get! b * R.u.re - im.get! b * R.u.im
      let yi := im.get! b * R.u.re + re.get! b * R.u.im
      re := (re.set! a (R.c * xr - R.s * yr)).set! b (R.s * xr + R.c * yr)
      im := (im.set! a (R.c * xi - R.s * yi)).set! b (R.s * xi + R.c * yi)
    return ⟨h, re, im⟩

/-- The power of two next to the largest part of column `p`. -/
def exponent (A : Columns) (p : Nat) : Int := Id.run do
  let h := A.height
  let mut top := 0.0
  for i in [0:h] do
    top := max top (Binary64.largerPart ⟨A.re.get! (p * h + i), A.im.get! (p * h + i)⟩)
  return Binary64.binaryExponent top

/-- The inner product of columns `p` and `q`, the first conjugated, each divided by a power
of two. -/
def inner (A : Columns) (p q : Nat) (d e : Int) : Cplx Float := Id.run do
  let h := A.height
  let mut re := 0.0
  let mut im := 0.0
  for i in [0:h] do
    let x := Binary64.scaleParts (-d) ⟨A.re.get! (p * h + i), A.im.get! (p * h + i)⟩
    let y := Binary64.scaleParts (-e) ⟨A.re.get! (q * h + i), A.im.get! (q * h + i)⟩
    re := re + (x.re * y.re + x.im * y.im)
    im := im + (x.re * y.im - x.im * y.re)
  return ⟨re, im⟩

end Columns

end PhasedArray
