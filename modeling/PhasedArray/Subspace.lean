import PhasedArray.Covariance
import PhasedArray.Cut
import PhasedArray.SourceCount

set_option autoImplicit false

/-!
# Signal and noise subspaces (SPEC §4.3)

The eigenvectors of a covariance, in descending order of their eigenvalues, split
into the first `K`, which span what the sources can produce, and the rest, which
carry noise alone.
-/

namespace PhasedArray

/-- The eigenpairs of an `m × m` covariance in descending order, cut after the first
`sources`. -/
structure Decomposition (α : Type) (m : Nat) where
  values : Vector α m
  vectors : Mat (Cplx α) m m
  sources : SourceCount m

namespace Decomposition

variable {α : Type} [Scalar α] {m : Nat}

/-- The places of a vector's entries in descending order; equal entries keep theirs. -/
def descending (values : Vector α m) : Vector (Fin m) m :=
  ⟨((List.finRange m).mergeSort fun i j => decide (values.get j ≤ values.get i)).toArray, by simp⟩

/-- The eigenpairs of the Hermitian matrix with the lower triangle of `C`, descending. -/
def eigenpairs (S : Solvers α) (C : Mat (Cplx α) m m) : Vector α m × Mat (Cplx α) m m :=
  let (values, vectors) := S.hermitian C.ofLower
  let order := descending values
  (order.map values.get, Mat.of fun i j => vectors i (order.get j))

/-- The subspaces of a finite covariance. -/
def ofCovariance (S : Solvers α) (C : Mat (Cplx α) m m) (k : SourceCount m) :
    Outcome α (Decomposition α m) :=
  if C.isFinite then
    let (values, vectors) := eigenpairs S C
    .ok ⟨values, vectors, k⟩
  else .error .covarianceNotFinite

variable (D : Decomposition α m)

/-- The eigenvectors of the `K` largest eigenvalues. -/
def signal : Mat (Cplx α) m D.sources :=
  D.vectors.takeColumns D.sources (Nat.le_of_lt D.sources.2.2)

/-- The other eigenvectors. -/
def noise : Mat (Cplx α) m (m - D.sources) := D.vectors.dropColumns D.sources

/-- The `K` largest eigenvalues. -/
def signalValues : List α := D.values.toList.take D.sources

/-- The other eigenvalues. -/
def noiseValues : List α := D.values.toList.drop D.sources

/-- The projector onto the span of orthonormal columns. -/
def projector {k : Nat} (U : Mat (Cplx α) m k) : Mat (Cplx α) m m := U * U.adjoint

/-- The projector onto the noise subspace. -/
def noiseProjector : Mat (Cplx α) m m := projector D.noise

/-- The projector onto the signal subspace. -/
def signalProjector : Mat (Cplx α) m m := projector D.signal

/-! ## Signal-to-noise ratio -/

/-- The least power a mean is taken to have. -/
def powerFloor : α := 1e-20

/-- The ratio in decibels of the mean signal to the mean noise eigenvalue. -/
def snrDecibels (signal noise : List α) : α :=
  10 * Scalar.log10
    (Scalar.atLeast powerFloor (Scalar.mean signal) / Scalar.atLeast powerFloor (Scalar.mean noise))

/-- The estimate for a tensor of eigenvalues, cut along its first axis.  The cut is a whole
number, or nothing, which leaves all values on either side. -/
def snrOfCut (t : Tensor α) (cut : Setting α) : Outcome α α :=
  let rows := t.slices.map fun row => row.map Cplx.re
  match t.shape, cut with
  | [], _ => .error .placeMissing
  | _, .nothing => .ok (snrDecibels rows.flatten rows.flatten)
  | _, cut => do
      match ← cut.toNumber "num_sources" with
      | .whole k => return snrDecibels (cutTake k rows).flatten (cutDrop k rows).flatten
      | .real _ => throw .unwrittenCount

/-- The estimate for this decomposition. -/
def snr : α := snrDecibels D.signalValues D.noiseValues

/-! ## Tensors of any shape -/

/-- The eigenpairs of a tensor, which has to be a square matrix of finite entries. -/
def eigenvaluesOfTensor (S : Solvers α) (t : Tensor α) : Outcome α (List α) :=
  match t.asSquare? with
  | some ⟨_, C⟩ =>
      if t.isAssorted then .error .assortedEntries
      else if C.isFinite then .ok (eigenpairs S C).1.toList
      else .error .covarianceNotFinite
  | none => .error (.covarianceNotSquare t.shape)

/-- The subspaces of the square matrix `C` from a tensor. -/
def ofEntries (S : Solvers α) (t : Tensor α) (C : Mat (Cplx α) m m) (k : SourceCount m) :
    Outcome α (Decomposition α m) :=
  if t.isAssorted then .error .assortedEntries else ofCovariance S C k

/-- The subspaces of a tensor.  The number of sources is checked against the first
extent before the shape is. -/
def ofTensor (S : Solvers α) (t : Tensor α) (given : Setting α) :
    Outcome α ((n : Nat) × Decomposition α n) :=
  match t.shape with
  | [] => .error .placeMissing
  | rows :: _ =>
      match SourceCount.ofSetting rows (.whole rows) given, t.asSquare? with
      | .error e, _ => .error e
      | .ok _, none => .error (.covarianceNotSquare t.shape)
      | .ok _, some ⟨n, C⟩ => do
          let k ← SourceCount.ofSetting n (.whole n) given
          let D ← ofEntries S t C k
          return ⟨n, D⟩

end Decomposition

end PhasedArray
