import Mathlib.LinearAlgebra.Matrix.PosDef
import PhasedArray.Covariance
import PhasedArray.Proofs.Exact.Matrix

set_option autoImplicit false

/-!
# Sample covariance (SPEC §4.2)

Over the real numbers the sample covariance of snapshots `X` is `X Xᴴ / n`; making it
Hermitian changes nothing.  Forward-backward averaging takes the mean with the same
matrix conjugated and read backwards.  Both are Hermitian and positive semidefinite.
-/

namespace PhasedArray.Covariance

open Matrix
open scoped ComplexOrder

variable {m n : ℕ}

/-- Division by two, as the formulas write it. -/
theorem toMatrix_half (R : Mat (Cplx ℝ) m m) :
    (R.divReal 2).toMatrix = (2 : ℂ)⁻¹ • R.toMatrix := Mat.toMatrix_divReal R 2

theorem toMatrix_outerMean (X : Mat (Cplx ℝ) m n) :
    (outerMean X).toMatrix = (n : ℂ)⁻¹ • (X.toMatrix * X.toMatrixᴴ) := by
  rw [outerMean, Mat.toMatrix_divReal, Mat.toMatrix_mul, Mat.toMatrix_adjoint,
    Exact.scalar_ofNat, Complex.ofReal_natCast]

/-- A Hermitian matrix is its own Hermitian part. -/
theorem symmetrize_eq_self {R : Mat (Cplx ℝ) m m} (hR : R.toMatrix.IsHermitian) :
    symmetrize R = R := by
  apply Mat.toMatrix_injective
  rw [symmetrize, toMatrix_half, Mat.toMatrix_add, Mat.toMatrix_adjoint, hR.eq, ← two_smul ℂ,
    smul_smul, inv_mul_cancel₀ two_ne_zero, one_smul]

theorem toMatrix_reversal_mul {ι : Type} (M : Matrix (Fin m) ι ℂ) :
    (reversal m : Mat (Cplx ℝ) m m).toMatrix * M = M.submatrix Fin.rev id := by
  ext i j
  rw [Matrix.mul_apply, Finset.sum_eq_single i.rev]
  · simp [reversal]
  · intro b _ hb
    simp [reversal, hb.symm]
  · simp

theorem mul_toMatrix_reversal (M : Matrix (Fin m) (Fin m) ℂ) :
    M * (reversal m : Mat (Cplx ℝ) m m).toMatrix = M.submatrix id Fin.rev := by
  ext i j
  rw [Matrix.mul_apply, Finset.sum_eq_single j.rev]
  · simp [reversal]
  · intro b _ hb
    have hne : ¬ b.rev = j := fun h => hb (by rw [← h, Fin.rev_rev])
    simp [reversal, hne]
  · simp

theorem toMatrix_exchange (R : Mat (Cplx ℝ) m m) :
    (exchange R).toMatrix = R.toMatrix.submatrix Fin.rev Fin.rev := by
  rw [exchange, Mat.toMatrix_mul, Mat.toMatrix_mul, toMatrix_reversal_mul, mul_toMatrix_reversal]
  rfl

theorem toMatrix_average (R : Mat (Cplx ℝ) m m) :
    (average R).toMatrix =
      (2 : ℂ)⁻¹ • (R.toMatrix + (R.toMatrix.map star).submatrix Fin.rev Fin.rev) := by
  rw [average, toMatrix_half, Mat.toMatrix_add, toMatrix_exchange, Mat.toMatrix_conj]

theorem posSemidef_outerMean (X : Mat (Cplx ℝ) m n) : (outerMean X).toMatrix.PosSemidef := by
  rw [toMatrix_outerMean]
  apply (posSemidef_self_mul_conjTranspose X.toMatrix).smul
  positivity

/-- Without averaging, the sample covariance is the mean of the outer products. -/
theorem sample_false (X : Mat (Cplx ℝ) m n) : sample false X = outerMean X :=
  symmetrize_eq_self (posSemidef_outerMean X).isHermitian

/-- With averaging, it is the mean of that and the same read backwards and conjugated. -/
theorem sample_true (X : Mat (Cplx ℝ) m n) : sample true X = average (outerMean X) :=
  congrArg average (sample_false X)

/-- Both sample covariances are positive semidefinite. -/
theorem posSemidef_sample (averaging : Bool) (X : Mat (Cplx ℝ) m n) :
    (sample averaging X).toMatrix.PosSemidef := by
  have hmean := posSemidef_outerMean X
  cases averaging with
  | false => rwa [sample_false]
  | true =>
    rw [sample_true, toMatrix_average]
    have hconj : (outerMean X).toMatrix.map star = (outerMean X).toMatrixᵀ :=
      congrArg transpose hmean.isHermitian.eq
    rw [hconj]
    exact (hmean.add (hmean.transpose.submatrix Fin.rev)).smul (by positivity)

end PhasedArray.Covariance
