import PhasedArray.Proofs.Exact.Ideal
import PhasedArray.Proofs.FiniteEstimates

set_option autoImplicit false

/-!
# Exact solvers beside infinities

Solvers for real numbers answer for finite matrices as they do among the real numbers.  What they
say of other matrices does not matter: nobody asks them.
-/

namespace PhasedArray

open Extended

/-- The real number that a finite value is; zero stands for the others. -/
def Extended.toReal : Extended → ℝ
  | finite x => x
  | _ => 0

namespace Cplx

/-- A complex number among those with infinite parts. -/
def lifted (z : Cplx ℝ) : Cplx Extended := ⟨finite z.re, finite z.im⟩

/-- The complex number that one with finite parts is. -/
def lowered (z : Cplx Extended) : Cplx ℝ := ⟨z.re.toReal, z.im.toReal⟩

theorem isFinite_lifted (z : Cplx ℝ) : z.lifted.isFinite = true := rfl

end Cplx

/-- Solvers for real numbers as solvers for finite values. -/
def Solvers.extended (S : Solvers ℝ) : Solvers Extended where
  hermitian A :=
    let (values, vectors) := S.hermitian (A.map Cplx.lowered)
    (values.map finite, vectors.map Cplx.lifted)
  eigenvalues A := (S.eigenvalues (A.map Cplx.lowered)).map Cplx.lifted
  rightSingular A :=
    let (values, vectors) := S.rightSingular (A.map Cplx.lowered)
    (values.map finite, vectors.map Cplx.lifted)
  solve A B := (S.solve (A.map Cplx.lowered) (B.map Cplx.lowered)).map (Mat.map Cplx.lifted)

theorem Solvers.keepsFinite_extended (S : Solvers ℝ) : S.extended.KeepsFinite where
  eigenvalues _ i := by
    rw [extended, Vec.get_map]
    exact Cplx.isFinite_lifted _
  rightSingular _ := Mat.isFinite_of fun _ _ => Cplx.isFinite_lifted _
  solve _ _ hX := by
    obtain ⟨Y, -, rfl⟩ := Option.map_eq_some_iff.mp hX
    exact Mat.isFinite_of fun _ _ => Cplx.isFinite_lifted _

end PhasedArray
