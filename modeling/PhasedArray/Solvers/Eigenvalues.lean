import PhasedArray.Solvers.Balance
import PhasedArray.Solvers.ComplexSteps
import PhasedArray.Solvers.RealSteps

set_option autoImplicit false

/-!
# Eigenvalues of a square matrix (SPEC §4.5)

A matrix of extreme size is brought into range, then balanced.  What balancing has
moved out of the block is an eigenvalue as it stands; the block itself is freed of
everything below its first subdiagonal and solved by steps, by real ones if it is
real.
-/

namespace PhasedArray

namespace Eigenvalues

/-- Squares of numbers above this size have no digits lost. -/
def least : Float := 6.717818874042573e-139

/-- Squares of numbers below this size are in range. -/
def greatest : Float := 1.4885766e138

/-- The power of two that brings a matrix with largest part `size` into range. -/
def rangeExponent (size : Float) : Int :=
  if size == 0.0 then 0
  else if size < least then Binary64.binaryExponent least - Binary64.binaryExponent size
  else if greatest < size then Binary64.binaryExponent greatest - Binary64.binaryExponent size
  else 0

/-- The eigenvalues of a matrix of `n` rows. -/
def ofBlock (n : Nat) (A : Rows (Cplx Float)) : List (Cplx Float) :=
  let H := (Rows.clearBelow n A #[]).1
  if H.all fun row => row.all fun z => z.im == 0.0 then
    RealSteps.eigenvalues n (H.mapEntries Cplx.re)
  else ComplexSteps.eigenvalues n H

/-- The eigenvalues of a square matrix, each as often as its multiplicity. -/
def of {n : Nat} (A : Mat (Cplx Float) n n) : Vector (Cplx Float) n :=
  let e := rangeExponent (Binary64.largestPart A.toArray)
  let B := Balance.of n ((Rows.ofMat A).mapEntries (Binary64.scaleParts e))
  let inner := (ofBlock (B.last - B.first) (B.rows.block B.first (B.last - B.first))).toArray
  Vector.ofFn fun i =>
    let z :=
      if B.first ≤ i.val && i.val < B.last then inner.getD (i.val - B.first) 0
      else B.rows.entry i i
    Binary64.scaleParts (-e) z

end Eigenvalues

end PhasedArray
