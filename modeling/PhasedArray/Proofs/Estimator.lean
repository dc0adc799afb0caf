import PhasedArray.Estimator
import PhasedArray.Proofs.Subspace

set_option autoImplicit false

/-!
# What an estimator does with a covariance (SPEC §4.4, §4.5)

Over the real numbers a covariance of the right extents is always accepted: the solver's
decomposition of it is searched, and the only faults left are those of the search itself.
-/

namespace PhasedArray

/-- Snapshots that are there are read as they are. -/
theorem Snapshots.ofTensor_ofMat {α : Type} [Scalar α] {m n : ℕ} (hm : 0 < m) (hn : 0 < n)
    {X : Mat (Cplx α) m n} (hX : X.isFinite = true) :
    ofTensor (.ofMat X) = .ok ⟨m, n, X, hm, hn, hX⟩ := by
  have hentries : ofEntries (.ofMat X) X = .ok ⟨m, n, X, hm, hn, hX⟩ := by
    rw [ofEntries, if_neg (by exact fun h => nomatch h.1), ofMat, dif_pos hm, dif_pos hn,
      dif_pos hX]
  obtain ⟨l, rfl⟩ := Nat.exists_eq_succ_of_ne_zero hn.ne'
  have hshape : (Tensor.ofMat X).shape = [m, l + 1] := rfl
  have hcolumn : (Tensor.ofMat X).asColumn? = none := rfl
  unfold ofTensor
  rw [hshape, hcolumn, Tensor.asMatrix?_ofMat]
  exact hentries

namespace Estimator

variable (S : Solvers ℝ) (E : Estimator ℝ)

theorem checkCovariance_ofMat (g : Geometry ℝ) (C : Mat (Cplx ℝ) g.size g.size) :
    checkCovariance g (.ofMat C) = .ok C := by
  rw [checkCovariance, Tensor.asMat?_ofMat]

theorem ofEntries_ofMat {m : ℕ} (C : Mat (Cplx ℝ) m m) (k : SourceCount m) :
    Decomposition.ofEntries S (.ofMat C) C k = .ok (Decomposition.solved S C k) := by
  rw [Decomposition.ofEntries, if_neg (by exact Bool.false_ne_true), Decomposition.ofCovariance_eq]

/-- The estimate from a covariance is that from its decomposition. -/
theorem ofCovarianceTensor_ofMat (C : Mat (Cplx ℝ) E.geometry.size E.geometry.size) :
    E.ofCovarianceTensor S (.ofMat C) =
      ofDecomposition S E (Decomposition.solved S C E.sources) := by
  rw [ofCovarianceTensor, checkCovariance_ofMat]
  change (Decomposition.ofEntries S (.ofMat C) C E.sources >>= ofDecomposition S E) = _
  rw [ofEntries_ofMat]
  rfl

/-- The estimate from snapshots of the array is that from their covariance. -/
theorem estimate_ofMat {n : ℕ} (hn : 0 < n) (X : Mat (Cplx ℝ) E.geometry.size n) :
    E.estimate S (.ofMat X) =
      ofDecomposition S E
        (Decomposition.solved S (Covariance.sample E.averaging X) E.sources) := by
  have hcovariance : E.covarianceOf ⟨_, n, X, E.geometry.size_pos, hn, X.isFinite_eq_true⟩ =
      .ok (Covariance.sample E.averaging X) := dif_pos rfl
  rw [estimate, Snapshots.ofTensor_ofMat E.geometry.size_pos hn X.isFinite_eq_true]
  change E.estimateSnapshots S _ = _
  rw [estimateSnapshots, hcovariance]
  change ofCovariance S E _ = _
  rw [ofCovariance, Decomposition.ofCovariance_eq]
  rfl

section Search

variable {α : Type} [Scalar α] (S : Solvers α) {E : Estimator α}

/-- A spectral search turns what it finds into the estimate. -/
theorem ofDecomposition_spectral {s : SpectralSearch α} (hE : E.search = .spectral s)
    (D : Decomposition α E.geometry.size) :
    ofDecomposition S E D = (s.find E.geometry D).map fun found =>
      { sources := E.sources, eigenvalues := D.values.toList, finding := .spectral found } := by
  rw [ofDecomposition, hE]
  dsimp only
  cases s.find E.geometry D <;> rfl

/-- A rotation fit turns its angles, if it has any, into the estimate. -/
theorem ofDecomposition_rotational {kind : RotationFit} {tolerance : Outcome α α}
    (hE : E.search = .rotational kind tolerance) (D : Decomposition α E.geometry.size) :
    ofDecomposition S E D =
      (Rotation.ofSubspace S kind tolerance E.geometry D.signal).map fun angles =>
        { sources := E.sources
          eigenvalues := D.values.toList
          finding := .rotational kind angles } := by
  rw [ofDecomposition, hE]
  dsimp only
  cases Rotation.ofSubspace S kind tolerance E.geometry D.signal <;> rfl

end Search

end Estimator

end PhasedArray
