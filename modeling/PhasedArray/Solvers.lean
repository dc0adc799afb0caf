import PhasedArray.Mat

set_option autoImplicit false

/-!
# Solvers: the linear algebra the array theory relies on (SPEC §4.3, §4.5, §4.7)

Subspace methods rest on eigenvectors, singular vectors and linear systems.  How
those are found is no concern of the theory, so every function that needs them
takes a `Solvers` record; what it promises can be stated for every record whose
answers are exact, whichever of the many exact answers it gives.

Every iteration converges: the failure to find eigenvectors (SPEC §4.3) is left out.
-/

namespace PhasedArray

/-- A choice of solvers for complex matrices. -/
structure Solvers (α : Type) where
  /-- The eigenvalues of a Hermitian matrix in ascending order, and an orthonormal
  eigenvector for each, as columns. -/
  hermitian : {n : Nat} → Mat (Cplx α) n n → Vector α n × Mat (Cplx α) n n
  /-- The eigenvalues of a square matrix, with their multiplicities. -/
  eigenvalues : {n : Nat} → Mat (Cplx α) n n → Vector (Cplx α) n
  /-- The singular values of a matrix in descending order, and a unitary matrix of
  right singular vectors, as columns; columns beyond the singular values span the rest. -/
  rightSingular : {m n : Nat} → Mat (Cplx α) m n → Vector α (min m n) × Mat (Cplx α) n n
  /-- The solution `X` of `A X = B`; `none` if elimination meets a zero pivot. -/
  solve : {n p : Nat} → Mat (Cplx α) n n → Mat (Cplx α) n p → Option (Mat (Cplx α) n p)

namespace Solvers

variable {α : Type} [Scalar α] (S : Solvers α)

/-- The inverse, column by column. -/
def inverse {n : Nat} (A : Mat (Cplx α) n n) : Option (Mat (Cplx α) n n) :=
  S.solve A (Mat.identity n)

/-- The eigenvalues of the Hermitian matrix with the lower triangle of `A`, ascending. -/
def hermitianValues {n : Nat} (A : Mat (Cplx α) n n) : Vector α n := (S.hermitian A.ofLower).1

/-- The singular values, descending. -/
def singularValues {m n : Nat} (A : Mat (Cplx α) m n) : Vector α (min m n) :=
  (S.rightSingular A).1

end Solvers

end PhasedArray
