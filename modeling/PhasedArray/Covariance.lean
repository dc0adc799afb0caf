import PhasedArray.Reading
import PhasedArray.Solvers

set_option autoImplicit false

/-!
# Covariance of received snapshots (SPEC §4.2)

`n` snapshots of `m` elements form an `m × n` matrix `X`.  The sample covariance is
`X Xᴴ / n`, made Hermitian to the last bit; forward-backward averaging adds the
covariance of the array seen from its other end.  Loading adds a multiple of the
identity, in proportion to the mean power of an element.

Deviation from SPEC §4.2, disclosed: a covariance without power is loaded as if its mean power
were one, where the formula there adds nothing.
-/

namespace PhasedArray

/-- Received samples: at least one element, at least one snapshot, every sample finite. -/
structure Snapshots (α : Type) [Scalar α] where
  elements : Nat
  count : Nat
  samples : Mat (Cplx α) elements count
  elements_pos : 0 < elements
  count_pos : 0 < count
  finite : samples.isFinite = true

namespace Snapshots

variable {α : Type} [Scalar α]

/-- Reads a matrix of samples. -/
def ofMat {m n : Nat} (X : Mat (Cplx α) m n) : Outcome α (Snapshots α) :=
  if hm : 0 < m then
    if hn : 0 < n then
      if hX : X.isFinite then .ok ⟨m, n, X, hm, hn, hX⟩ else .error .snapshotsNotFinite
    else .error (.snapshotsEmpty [m, n])
  else .error (.snapshotsEmpty [m, n])

/-- The samples of a matrix from a tensor: where that holds values that are no numbers,
it is not looked at for others. -/
def ofEntries {m n : Nat} (t : Tensor α) (X : Mat (Cplx α) m n) : Outcome α (Snapshots α) :=
  if t.isAssorted ∧ 0 < m ∧ 0 < n then .error .assortedEntries else ofMat X

/-- Reads a tensor of samples; a tensor with one axis is a single snapshot. -/
def ofTensor (t : Tensor α) : Outcome α (Snapshots α) :=
  match t.shape, t.asColumn? with
  | [m, 0], _ => .error (.snapshotsEmpty [m, 0])
  | _, some ⟨_, X⟩ => ofEntries t X
  | _, none =>
      match t.asMatrix? with
      | some ⟨_, _, X⟩ => ofEntries t X
      | none => .error (.snapshotRank t.shape)

end Snapshots

namespace Covariance

variable {α : Type} [Scalar α] {m n : Nat}

/-- The mean of the outer products of the columns. -/
@[specialize] def outerMean (X : Mat (Cplx α) m n) : Mat (Cplx α) m m :=
  (X * X.adjoint).divReal (Scalar.ofNat n)

/-- The mean of a matrix and its conjugate transpose. -/
def symmetrize (R : Mat (Cplx α) m m) : Mat (Cplx α) m m := (R + R.adjoint).divReal 2

/-- The matrix with ones on the other diagonal. -/
def reversal (m : Nat) : Mat (Cplx α) m m := Mat.of fun i j => if i.rev = j then 1 else 0

/-- Rows and columns in reverse order.  As a product with the reversal it spreads an
undefined entry over its row and column. -/
@[specialize] def exchange (R : Mat (Cplx α) m m) : Mat (Cplx α) m m :=
  let J : Mat (Cplx α) m m := reversal m
  J * R * J

/-- The mean of a covariance and the one seen from the other end of the array. -/
def average (R : Mat (Cplx α) m m) : Mat (Cplx α) m m := (R + exchange R.conj).divReal 2

/-- The sample covariance, with forward-backward averaging if asked for. -/
def sample (averaging : Bool) (X : Mat (Cplx α) m n) : Mat (Cplx α) m m :=
  let R := symmetrize (outerMean X)
  if averaging then average R else R

/-- The largest magnitude of a list of eigenvalues, zero for none. -/
def largestMagnitude (values : List α) : α :=
  (Scalar.maximum? (values.map Scalar.abs)).getD 0

/-- The rounding error of eigenvalues of a matrix of extent `m`. -/
def roundingError (values : List α) (m : Nat) : α :=
  largestMagnitude values * Scalar.ofNat m * Scalar.ulpOfOne

/-- The number of eigenvalues above `tolerance`, or above the rounding error of a
matrix of their size. -/
def effectiveRank (S : Solvers α) (C : Mat (Cplx α) m m) (tolerance : Option α) : Nat :=
  let values := (S.hermitianValues C).toList
  let bound := tolerance.getD (roundingError values m)
  values.countP fun x => bound < x

/-- A mean power, or one if that is not positive. -/
def positiveLevel (level : α) : α := if level ≤ 0 then 1 else level

/-- The mean of the diagonal, or one if that is not positive. -/
def loadingLevel (trace : α) (m : Nat) : α := positiveLevel (trace / Scalar.ofNat m)

/-- A multiple of the identity, entry by entry. -/
@[inline] def loadEntry (load : α) (i j : Nat) : Cplx α :=
  .ofReal (load * (if i = j then 1 else 0))

/-- Adds `factor` times the mean element power to the diagonal. -/
def load (factor : α) (C : Mat (Cplx α) m m) : Mat (Cplx α) m m :=
  let amount := factor * loadingLevel C.realTrace m
  Mat.of fun i j => C i j + loadEntry amount i j

/-- The default factor of a load. -/
def defaultLoading : Setting α := .real 1e-3

/-- Whether two entries agree up to a relative and an absolute tolerance.  Equal infinities
agree; an undefined entry agrees with nothing. -/
def agree (tolerance : α) (x y : Cplx α) : Bool :=
  (y.isFinite && decide ((x - y).abs ≤ tolerance + 1e-5 * y.abs)) || x.same y

/-- Whether a matrix equals its conjugate transpose up to a tolerance. -/
def isHermitian (tolerance : α) (A : Mat (Cplx α) m m) : Bool :=
  (List.finRange m).all fun i => (List.finRange m).all fun j =>
    agree tolerance (A i j) (A j i).conj

/-! ## Tensors of any shape -/

/-- The identity of extent `n`, scaled, as a real tensor. -/
def loadTensor (load : α) (n : Nat) : Tensor α :=
  { Tensor.ofMat (Mat.of fun i j : Fin n => loadEntry load i j) with kind := .real }

/-- A sum with one more entry, which has to be a number. -/
def addEntry (sum : Number α) (e : Entry α) : Outcome α (Number α) :=
  match e.number? with
  | none => .error .assortedEntries
  | some n =>
      match sum.add? n with
      | some next => .ok next
      | none => .error .numberTooLarge

/-- The real part of the sum of the entries of a tensor at `places`.  Words keep to their
range, and other whole numbers have none. -/
def sumAt (t : Tensor α) (places : List Nat) : Outcome α (Number α) :=
  match t.kind, t.kind.words? with
  | .assorted values, _ => (places.map fun k => values.getD k .nothing).foldlM addEntry (.whole 0)
  | _, some (w, values) =>
      .ok (.whole ((w.getD .signed).sum (places.map fun k => values.getD k 0)))
  | _, none => .ok (.real (Scalar.sum (places.map fun k => (t.entries.getD k 0).re)))

/-- The load of a tensor of two axes or more, whose extents stretch over the identity.  Axes
behind the first two may have no extent but one, since the sum of the diagonal has to be a
single number. -/
def loadExtents (factor : Number α) (t : Tensor α) : Outcome α (Tensor α) :=
  match t.shape with
  | [] => .error .placeMissing
  | [_] => .error .shapesDisagree
  | m :: n :: rest => do
      if t.isTextual then throw .assortedEntries
      if volume rest ≠ 1 then throw .shapesDisagree
      let trace ← sumAt t ((List.range (min m n)).map fun k => k * n + k)
      let level ← trace.toQuotient m
      let factor ← factor.toScalar
      Extent.check Extent.countable (m * m)
      let t ← t.toAddends
      match Tensor.combine? (· + ·) t (loadTensor (factor * positiveLevel level) m) with
      | some r => return r
      | none => throw .shapesDisagree

/-- The load of a tensor by a factor as it was given.  A square matrix is loaded as a
covariance. -/
def loadAny (given : Setting α) (t : Tensor α) : Outcome α (Tensor α) := do
  let factor ← given.toNumber "loading"
  if factor.belowZero then throw (.loading given)
  match t.asSquare?, t.kind with
  | some ⟨_, C⟩, .complex => do
      let factor ← factor.toScalar
      return Tensor.ofMat (load factor C)
  | some ⟨_, C⟩, .real => do
      let factor ← factor.toScalar
      return { Tensor.ofMat (load factor C) with kind := .real }
  | _, _ => loadExtents factor t

/-- The number of scalars above the bounds that stretch over them; lists of bounds may
stretch the scalars as well. -/
def countAbove (values bounds : Tensor α) : Outcome α Nat :=
  match Tensor.pairing? values bounds with
  | none => .error .shapesDisagree
  | some (_, pairs) =>
      .ok (pairs.countP fun p => (bounds.entries.getD p.2 0).re < (values.entries.getD p.1 0).re)

/-- The real tensor of the given shape with the values of a list, whose number has to agree. -/
def listed (shape : List Nat) (values : List α) : Outcome α (Tensor α) :=
  match Tensor.ofEntries? shape (values.map Cplx.ofReal).toArray .real with
  | some t => .ok t
  | none => .error .shapesDisagree

/-- The effective rank of a tensor, which has to be a square matrix of finite entries, or
several of them along axes in front: their ranks add up, under one bound.  The tolerance is
looked at last. -/
def effectiveRankAny (S : Solvers α) (t : Tensor α) (tolerance : Setting α) : Outcome α Nat := do
  let t ← t.toSolver
  if !t.isFinite then throw .undefinedNumber
  match t.asSquare?, t.asSquares? with
  | some ⟨_, C⟩, _ =>
      match tolerance with
      | .nothing => return effectiveRank S C none
      | given => do
          let bounds ← given.toBounds "tol"
          match bounds.scalar? with
          | some bound => return effectiveRank S C (some bound)
          | none =>
              let values ← listed t.shape.dropLast (S.hermitianValues C).toList
              countAbove values bounds
  | none, none => throw .shapesDisagree
  | none, some ⟨_, Cs⟩ =>
      let values := Cs.flatMap fun C => (S.hermitianValues C).toList
      let bounds ← match tolerance with
        | .nothing => pure (Tensor.ofScalar (roundingError values (t.shape.headD 0)))
        | given => given.toBounds "tol"
      let values ← listed t.shape.dropLast values
      countAbove values bounds

/-- The effective rank of the sample covariance of a tensor of snapshots. -/
def rankOfSnapshots (S : Solvers α) (averaging : Bool) (t : Tensor α) (tolerance : Setting α) :
    Outcome α Nat := do
  let X ← Snapshots.ofTensor t
  effectiveRankAny S (.ofMat (sample averaging X.samples)) tolerance

/-- The absolute tolerances of a symmetry test. -/
def tolerancesOf (given : Setting α) : Outcome α (Tensor α) :=
  match given with
  | .list _ => do
      let t ← given.toTensor
      t.toAddends
  | given => (given.toScalar "atol").map Tensor.ofScalar

/-- Whether a tensor is a Hermitian matrix.  Several tolerances stretch over the entries, or
the entries over them. -/
def isHermitianAny (tolerance : Setting α) (t : Tensor α) : Outcome α Bool :=
  match t.asSquare? with
  | none => .ok false
  | some ⟨_, A⟩ => do
      if t.isAssorted then throw .assortedEntries
      let bounds ← tolerancesOf tolerance
      match bounds.scalar?, Tensor.pairing? t bounds with
      | some bound, _ => return isHermitian bound A
      | none, none => throw .shapesDisagree
      | none, some (_, pairs) =>
          let adjoint := Tensor.ofMat A.adjoint
          return pairs.all fun p =>
            agree (bounds.entries.getD p.2 0).re (t.entries.getD p.1 0) (adjoint.entries.getD p.1 0)

/-- The absolute tolerance of the symmetry test. -/
def defaultSymmetryTolerance : Setting α := .real 1e-10

end Covariance

end PhasedArray
