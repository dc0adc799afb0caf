import PhasedArray.Proofs.Covariance
import PhasedArray.Proofs.Energy
import PhasedArray.Proofs.Estimator

set_option autoImplicit false

/-!
# Averaging as more snapshots (SPEC §4.2)

A snapshot seen from the other end of the array is its conjugate in reverse order.  The mean of
the outer products of such mirrored snapshots is the mean of the snapshots' own, conjugated and
read backwards, so that forward-backward averaging is what plain averaging does with twice as
many snapshots: each one, and each one mirrored.  What is true of every plain covariance holds of
the averaged one for that reason, and the averaged one looks the same from either end.
-/

namespace PhasedArray

open Matrix
open scoped ComplexOrder

variable {m n p : ℕ}

namespace Covariance

/-! ## The other end of the array -/

/-- The snapshots of the array seen from its other end. -/
def mirrored {α : Type} [Scalar α] (X : Mat (Cplx α) m n) : Mat (Cplx α) m n :=
  (reversal m : Mat (Cplx α) m m) * X.conj

theorem toMatrix_mirrored (X : Mat (Cplx ℝ) m n) :
    (mirrored X).toMatrix = (X.toMatrix.map star).submatrix Fin.rev id := by
  rw [mirrored, Mat.toMatrix_mul, toMatrix_reversal_mul, Mat.toMatrix_conj]

/-- The mean of the two looks the same from either end. -/
theorem exchange_conj_average (R : Mat (Cplx ℝ) m m) :
    exchange (average R).conj = average R := by
  apply Mat.toMatrix_injective
  rw [toMatrix_exchange, Mat.toMatrix_conj, toMatrix_average]
  have hhalf : star (2 : ℂ)⁻¹ = 2⁻¹ := by rw [star_inv₀, star_ofNat]
  ext i j
  simp only [submatrix_apply, Matrix.map_apply, Matrix.smul_apply, Matrix.add_apply, smul_eq_mul,
    star_mul', hhalf, star_add, star_star, Fin.rev_rev, add_comm]

/-- Mirrored snapshots have the covariance seen from the other end. -/
theorem outerMean_mirrored (X : Mat (Cplx ℝ) m n) :
    outerMean (mirrored X) = exchange (outerMean X).conj := by
  apply Mat.toMatrix_injective
  rw [toMatrix_exchange, Mat.toMatrix_conj, toMatrix_outerMean, toMatrix_outerMean,
    toMatrix_mirrored]
  ext i j
  simp [Matrix.mul_apply]

/-- The products of the rows of two matrices side by side add up. -/
theorem beside_mul_conjTranspose (X : Mat (Cplx ℝ) m n) (Y : Mat (Cplx ℝ) m p) :
    (X.beside Y).toMatrix * (X.beside Y).toMatrixᴴ =
      X.toMatrix * X.toMatrixᴴ + Y.toMatrix * Y.toMatrixᴴ := by
  ext i j
  simp [Matrix.mul_apply, Fin.sum_univ_add, Mat.toMatrix_apply, Mat.beside]

/-- As many snapshots again give the mean of both means. -/
theorem outerMean_beside (X Y : Mat (Cplx ℝ) m n) :
    outerMean (X.beside Y) = (outerMean X + outerMean Y).divReal 2 := by
  have hcount : ((n + n : ℕ) : ℂ)⁻¹ = 2⁻¹ * (n : ℂ)⁻¹ := by
    rw [← two_mul, Nat.cast_mul, mul_inv, Nat.cast_ofNat]
  apply Mat.toMatrix_injective
  rw [toMatrix_half, Mat.toMatrix_add, toMatrix_outerMean, toMatrix_outerMean, toMatrix_outerMean,
    beside_mul_conjTranspose, hcount, ← smul_add, smul_smul]

/-- Averaging is what the mirrored snapshots add. -/
theorem sample_true_eq (X : Mat (Cplx ℝ) m n) :
    sample true X = sample false (X.beside (mirrored X)) := by
  rw [sample_true, sample_false, outerMean_beside, outerMean_mirrored, average]

/-! ## Power -/

/-- The power of all samples. -/
noncomputable def totalPower (X : Mat (Cplx ℝ) m n) : ℝ := ∑ i, power (X.toMatrix i)

theorem totalPower_mirrored (X : Mat (Cplx ℝ) m n) : totalPower (mirrored X) = totalPower X := by
  have hrow : ∀ i, (mirrored X).toMatrix i = star (X.toMatrix i.rev) := by
    intro i
    rw [toMatrix_mirrored]
    rfl
  simp only [totalPower, hrow, power_star]
  exact Equiv.sum_comp Fin.revPerm fun i => power (X.toMatrix i)

theorem totalPower_beside (X : Mat (Cplx ℝ) m n) (Y : Mat (Cplx ℝ) m p) :
    totalPower (X.beside Y) = totalPower X + totalPower Y := by
  simp [totalPower, power, Fin.sum_univ_add, Mat.toMatrix_apply, Mat.beside,
    Finset.sum_add_distrib]

/-- The trace is the mean power of a snapshot. -/
theorem trace_outerMean (X : Mat (Cplx ℝ) m n) :
    (outerMean X).toMatrix.trace = ((totalPower X / n : ℝ) : ℂ) := by
  have hrow : ∀ i, (X.toMatrix * X.toMatrixᴴ) i i = (power (X.toMatrix i) : ℂ) := by
    intro i
    rw [← star_dotProduct_self, dotProduct_comm]
    rfl
  have hproduct : (X.toMatrix * X.toMatrixᴴ).trace = (totalPower X : ℂ) := by
    rw [totalPower, Complex.ofReal_sum]
    exact Finset.sum_congr rfl fun i _ => hrow i
  rw [toMatrix_outerMean, trace_smul, hproduct, smul_eq_mul, inv_mul_eq_div, Complex.ofReal_div,
    Complex.ofReal_natCast]

/-- Averaging keeps the power. -/
theorem trace_sample (averaging : Bool) (X : Mat (Cplx ℝ) m n) :
    (sample averaging X).toMatrix.trace = ((totalPower X / n : ℝ) : ℂ) := by
  cases averaging with
  | false => rw [sample_false, trace_outerMean]
  | true =>
    rw [sample_true_eq, sample_false, trace_outerMean, totalPower_beside, totalPower_mirrored,
      ← two_mul, ← two_mul, Nat.cast_mul, Nat.cast_ofNat, mul_div_mul_left _ _ two_ne_zero]

end Covariance

/-- The snapshots, and each one mirrored. -/
noncomputable def Snapshots.augmented (X : Snapshots ℝ) : Snapshots ℝ where
  elements := X.elements
  count := X.count + X.count
  samples := X.samples.beside (Covariance.mirrored X.samples)
  elements_pos := X.elements_pos
  count_pos := Nat.add_pos_left X.count_pos _
  finite := Mat.isFinite_eq_true _

namespace Covariance

/-- Averaging the covariance of snapshots is augmenting them.  Either covariance is Hermitian and
positive semidefinite and its trace is the mean power of a snapshot, and the averaged one is
itself seen from the other end. -/
theorem averaging_augments (X : Snapshots ℝ) :
    (Snapshots.ofTensor (.ofMat X.samples) = .ok X ∧
      Snapshots.ofTensor (.ofMat X.augmented.samples) = .ok X.augmented) ∧
    sample true X.samples = sample false X.augmented.samples ∧
    (∀ averaging, (sample averaging X.samples).toMatrix.IsHermitian ∧
      (sample averaging X.samples).toMatrix.PosSemidef ∧
      (sample averaging X.samples).toMatrix.trace =
        ((1 / X.count * ∑ i, ∑ j, ‖X.samples.toMatrix i j‖ ^ 2 : ℝ) : ℂ)) ∧
    exchange (sample true X.samples).conj = sample true X.samples := by
  refine ⟨⟨Snapshots.ofTensor_ofMat X.elements_pos X.count_pos X.finite,
    Snapshots.ofTensor_ofMat X.augmented.elements_pos X.augmented.count_pos X.augmented.finite⟩,
    sample_true_eq X.samples, ?_, ?_⟩
  · intro averaging
    have hpos := posSemidef_sample averaging X.samples
    refine ⟨hpos.isHermitian, hpos, ?_⟩
    rw [trace_sample, one_div_mul_eq_div]
    rfl
  · rw [sample_true, exchange_conj_average]

end Covariance

end PhasedArray
