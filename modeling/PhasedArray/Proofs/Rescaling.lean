import PhasedArray.Proofs.Covariance
import PhasedArray.Proofs.Subspace

set_option autoImplicit false

/-!
# Rescaled covariances (SPEC §4.3)

Scaling a covariance and adding the same noise to every element keeps its eigenvectors and the
order of its eigenvalues; only their scale and their floor change.  Snapshots that are scaled
and mixed among each other by a unitary matrix have such a covariance: the scale is the squared
modulus of the factor, and the mixing drops out of `X Xᴴ`.
-/

namespace PhasedArray

open Matrix

variable {m n : ℕ}

/-! ## Covariances -/

namespace Covariance

/-- The covariance `s C + t`. -/
noncomputable def rescaled (s t : ℝ) (C : Mat (Cplx ℝ) m m) : Mat (Cplx ℝ) m m :=
  .ofMatrix ((s : ℂ) • C.toMatrix + (t : ℂ) • 1)

theorem toMatrix_rescaled (s t : ℝ) (C : Mat (Cplx ℝ) m m) :
    (rescaled s t C).toMatrix = (s : ℂ) • C.toMatrix + (t : ℂ) • 1 := Mat.toMatrix_ofMatrix _

/-- The `k`-th largest eigenvalue of a Hermitian covariance lies above the next one. -/
def HasGap (C : Mat (Cplx ℝ) m m) (k : SourceCount m) : Prop :=
  ∃ D : Decomposition ℝ m, D.IsSpectral C ∧ D.sources = k ∧ D.HasGap

/-- Every decomposition of such a covariance shows the gap. -/
theorem HasGap.solved {C : Mat (Cplx ℝ) m m} {k : SourceCount m} (h : HasGap C k)
    {S : Solvers ℝ} (hS : S.IsHermitianExact) :
    (Decomposition.solved S C k).IsSpectral C ∧ (Decomposition.solved S C k).HasGap := by
  obtain ⟨⟨values, vectors, k⟩, hD, rfl, hgap⟩ := h
  have hsolved := Decomposition.isSpectral_solved hS hD.basis.isHermitian k
  refine ⟨hsolved, ?_⟩
  rw [Decomposition.HasGap, ← hD.values_eq hsolved]
  exact hgap

end Covariance

/-! ## Decompositions -/

namespace Decomposition

/-- The decomposition with its eigenvalues rescaled. -/
noncomputable def rescaled (s t : ℝ) (D : Decomposition ℝ m) : Decomposition ℝ m :=
  ⟨D.values.map fun x => s * x + t, D.vectors, D.sources⟩

variable {D : Decomposition ℝ m} {C : Mat (Cplx ℝ) m m} {s : ℝ}

theorem get_rescaled (s t : ℝ) (D : Decomposition ℝ m) :
    (D.rescaled s t).values.get = fun i => s * D.values.get i + t :=
  funext fun i => Vec.get_map _ _ i

/-- A decomposition of a covariance is rescaled with it. -/
theorem IsSpectral.rescaled (h : D.IsSpectral C) (hs : 0 < s) (t : ℝ) :
    (D.rescaled s t).IsSpectral (Covariance.rescaled s t C) where
  basis := by
    rw [Covariance.toMatrix_rescaled, get_rescaled]
    exact h.basis.rescale s t
  descending := by
    rw [get_rescaled]
    intro i j hij
    exact add_le_add_left (mul_le_mul_of_nonneg_left (h.descending hij) hs.le) t

theorem HasGap.rescaled (h : D.HasGap) (hs : 0 < s) (t : ℝ) : (D.rescaled s t).HasGap := by
  rw [HasGap, get_rescaled]
  exact add_lt_add_left (mul_lt_mul_of_pos_left h hs) t

end Decomposition

/-! ## Snapshots -/

/-- The matrix `c X U`: its columns are mixed by `U` and scaled by `c`. -/
noncomputable def Mat.mixed (c : ℂ) (U : Matrix (Fin n) (Fin n) ℂ) (X : Mat (Cplx ℝ) m n) :
    Mat (Cplx ℝ) m n :=
  .ofMatrix (c • (X.toMatrix * U))

namespace Covariance

variable {c : ℂ} {U : Matrix (Fin n) (Fin n) ℂ}

theorem toMatrix_outerMean_mixed (hU : Uᴴ * U = 1) (c : ℂ) (X : Mat (Cplx ℝ) m n) :
    (outerMean (X.mixed c U)).toMatrix = ((‖c‖ ^ 2 : ℝ) : ℂ) • (outerMean X).toMatrix := by
  have hcomplete : U * Uᴴ = 1 := mul_eq_one_comm.mp hU
  have hproduct : X.toMatrix * U * (X.toMatrix * U)ᴴ = X.toMatrix * X.toMatrixᴴ := by
    rw [conjTranspose_mul, Matrix.mul_assoc, ← Matrix.mul_assoc U, hcomplete, Matrix.one_mul]
  have hmodulus : c * star c = ((‖c‖ ^ 2 : ℝ) : ℂ) := by
    rw [RCLike.star_def, Complex.mul_conj', Complex.ofReal_pow]
  rw [toMatrix_outerMean, toMatrix_outerMean, Mat.mixed, Mat.toMatrix_ofMatrix,
    conjTranspose_smul, Matrix.smul_mul, Matrix.mul_smul, hproduct, smul_smul c, hmodulus,
    smul_comm]

/-- The covariance of mixed snapshots is rescaled, with and without averaging. -/
theorem sample_mixed (hU : Uᴴ * U = 1) (c : ℂ) (X : Mat (Cplx ℝ) m n) (averaging : Bool) :
    sample averaging (X.mixed c U) = rescaled (‖c‖ ^ 2) 0 (sample averaging X) := by
  apply Mat.toMatrix_injective
  rw [toMatrix_rescaled, Complex.ofReal_zero, zero_smul, add_zero]
  cases averaging with
  | false => rw [sample_false, sample_false, toMatrix_outerMean_mixed hU]
  | true =>
    have hreal : star ((‖c‖ ^ 2 : ℝ) : ℂ) = ((‖c‖ ^ 2 : ℝ) : ℂ) := Complex.conj_ofReal _
    have hreversed : ∀ M : Matrix (Fin m) (Fin m) ℂ,
        ((((‖c‖ ^ 2 : ℝ) : ℂ) • M).map star).submatrix Fin.rev Fin.rev =
          ((‖c‖ ^ 2 : ℝ) : ℂ) • (M.map star).submatrix Fin.rev Fin.rev := by
      intro M
      ext i j
      simp only [submatrix_apply, Matrix.map_apply, Matrix.smul_apply, smul_eq_mul, star_mul',
        hreal]
    rw [sample_true, sample_true, toMatrix_average, toMatrix_average,
      toMatrix_outerMean_mixed hU, hreversed, ← smul_add, smul_comm]

/-- Without snapshots there is no gap. -/
theorem HasGap.snapshots_pos {X : Mat (Cplx ℝ) m n} {averaging : Bool} {k : SourceCount m}
    (h : HasGap (sample averaging X) k) : 0 < n := by
  obtain ⟨D, hD, -, hgap⟩ := h
  rw [Nat.pos_iff_ne_zero]
  rintro rfl
  have hmean : (outerMean X).toMatrix = 0 := by
    simp [toMatrix_outerMean]
  have hzero : (sample averaging X).toMatrix = 0 := by
    cases averaging with
    | false => rw [sample_false, hmean]
    | true =>
      rw [sample_true, toMatrix_average, hmean]
      ext i j
      simp
  have hvalues : ∀ i, D.values.get i = 0 := by
    intro i
    by_contra hne
    have hcard := hD.basis.card_ne_zero
    rw [hzero, rank_zero, Fintype.card_eq_zero_iff] at hcard
    exact hcard.false ⟨i, hne⟩
  rw [Decomposition.HasGap, hvalues, hvalues] at hgap
  exact lt_irrefl 0 hgap

end Covariance

end PhasedArray
