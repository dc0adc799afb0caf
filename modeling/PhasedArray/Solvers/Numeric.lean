import PhasedArray.Solvers
import PhasedArray.Solvers.Eigenvalues
import PhasedArray.Solvers.Elimination
import PhasedArray.Solvers.Hermitian

set_option autoImplicit false

/-!
# The solvers of a computation (SPEC §4.3, §4.5, §4.7)
-/

namespace PhasedArray

/-- Plane rotations for eigenvectors and singular vectors, elimination for linear
systems, shifted steps on a balanced matrix for the eigenvalues of general matrices. -/
def Solvers.numeric : Solvers Float where
  hermitian := Hermitian.eigenpairs
  eigenvalues := Eigenvalues.of
  rightSingular := Pairwise.rightSingular
  solve := Elimination.solve

end PhasedArray
