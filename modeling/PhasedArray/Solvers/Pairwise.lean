import PhasedArray.Solvers.Columns

set_option autoImplicit false

/-!
# Eigenvectors and singular vectors by plane rotations (SPEC §4.3, §4.5)

Both problems are solved by making pairs of columns independent of each other, one
pair after the other, in sweeps over all pairs.  A symmetric matrix is rotated from
both sides until it is diagonal; for singular vectors the columns are rotated until
they are orthogonal.  Every step is unitary, so what has been reached is an
orthonormal basis whatever the number of sweeps; each sweep squares the distance from
the goal once that is small.
-/

namespace PhasedArray

namespace Pairwise

/-- More sweeps than any matrix of moderate size needs. -/
def sweepLimit : Nat := 60

/-- The pairs of places below `n`, row by row. -/
def pairs (n : Nat) : List (Nat × Nat) :=
  (List.range n).flatMap fun p => ((List.range n).drop (p + 1)).map fun q => (p, q)

/-- Repeats `step` on every pair, sweep after sweep, until a sweep changes nothing. -/
def sweeps {σ : Type} (order : List (Nat × Nat)) (step : σ → Nat → Nat → σ × Bool) :
    (fuel : Nat) → σ → σ
  | 0, state => state
  | fuel + 1, state =>
      let (next, changed) := order.foldl
        (fun (acc : σ × Bool) pair =>
          match acc with
          | (s, changed) =>
              match step s pair.1 pair.2 with
              | (s, c) => (s, changed || c))
        (state, false)
      if changed then sweeps order step fuel next else next

/-- A matrix under rotation, and the rotations so far. -/
structure Work where
  matrix : Columns
  basis : Columns
  deriving Inhabited

/-- The columns of the identity. -/
def identity (n : Nat) : Columns := Columns.ofMat (Mat.identity n)

/-! ## Symmetric matrices -/

/-- Makes the entry at `(p, q)` zero unless it is negligible against the diagonal around
it. -/
def diagonalize (w : Work) (p q : Nat) : Work × Bool :=
  match w with
  | ⟨A, V⟩ =>
    let z := A.get p q
    let r := z.abs
    let a := (A.get p p).re
    let b := (A.get q q).re
    if r ≤ 1e-300 || r ≤ 1e-17 * (a.abs.sqrt * b.abs.sqrt) then (⟨A, V⟩, false)
    else
      let R := PlaneRotation.diagonalizing a b r ⟨z.re / r, z.im / r⟩
      let t := PlaneRotation.tangent a b r
      let A := (A.rotate p q R).rotateRows p q R
      let A := (A.set p p (.ofReal (a - t * r))).set q q (.ofReal (b + t * r))
      let A := (A.set p q 0).set q p 0
      (⟨A, V.rotate p q R⟩, true)

/-! ## Singular vectors -/

/-- Makes columns `p` and `q` orthogonal unless they are so already.  Both are brought to
moderate length first, so that a short column keeps its direction; a column of zeros has
none and is left alone. -/
def orthogonalize (w : Work) (p q : Nat) : Work × Bool :=
  match w with
  | ⟨A, V⟩ =>
    let d := A.exponent p
    let e := A.exponent q
    let a := (A.inner p p d d).re
    let b := (A.inner q q e e).re
    let z := A.inner p q d e
    let r := z.abs
    if a == 0.0 || b == 0.0 || r ≤ 1e-15 * Float.sqrt (a * b) then (⟨A, V⟩, false)
    else
      let R := PlaneRotation.diagonalizing (a.scaleB (d - e)) (b.scaleB (e - d)) r
        ⟨z.re / r, z.im / r⟩
      (⟨A.rotate p q R, V.rotate p q R⟩, true)

/-- The length of column `p`. -/
def length (A : Columns) (p : Nat) : Float :=
  let e := A.exponent p
  (A.inner p p e e).re.sqrt.scaleB e

/-- The places `0, ..., n - 1` sorted by a key, ascending; equal keys keep their order. -/
def placesBy (n : Nat) (key : Nat → Float) : Vector Nat n :=
  ⟨((List.range n).mergeSort fun i j => decide (key i ≤ key j)).toArray, by simp⟩

/-- The singular values of a matrix in descending order, with right singular vectors
as columns.  The matrix is brought to moderate size first. -/
def rightSingular {m n : Nat} (A : Mat (Cplx Float) m n) :
    Vector Float (min m n) × Mat (Cplx Float) n n :=
  let e := Binary64.binaryExponent (Binary64.largestPart A.toArray)
  let w := sweeps (pairs n) orthogonalize sweepLimit
    ⟨Columns.ofMat (A.map (Binary64.scaleParts (-e))), identity n⟩
  let places := placesBy n fun i => -length w.matrix i
  (Vector.ofFn fun i =>
      (length w.matrix (places.get (i.castLE (Nat.min_le_right m n)))).scaleB e,
    w.basis.toMat places)

end Pairwise

end PhasedArray
