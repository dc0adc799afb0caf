import PhasedArray.Proofs.BasisChange
import PhasedArray.Proofs.Estimator
import PhasedArray.Proofs.Exact.Ideal
import PhasedArray.Proofs.RotationRecovery
import PhasedArray.Proofs.Spectrum

set_option autoImplicit false

/-!
# Estimates do not depend on the eigenbasis (SPEC §4.4, §4.5)

A solver is free to return any orthonormal eigenbasis, and inside an eigenspace there are
many.  As long as a gap separates the signal from the noise eigenvalues, the two subspaces
are the same in all of them.  A spectral estimate then is the same altogether; a rotation fit
has a result in both bases or in neither, and the same directions in some order.
-/

namespace PhasedArray

open Matrix

/-- What an estimate says regardless of the order of its angles. -/
def Estimate.unordered (e : Estimate ℝ) : Bool × Option (Multiset ℝ) :=
  (e.degenerate, e.angles?.map Multiset.ofList)

/-- The spectrum depends on the noise vectors through the leakage alone. -/
theorem SpectralSearch.spectrumAt_congr (s : SpectralSearch ℝ) {g : Geometry ℝ} {p p' n : ℕ}
    {N : Mat (Cplx ℝ) g.size p} {N' : Mat (Cplx ℝ) g.size p'}
    (h : ∀ a, leakage N a = leakage N' a) (θ : Vector ℝ n) :
    s.spectrumAt g N θ = s.spectrumAt g N' θ := by
  rw [spectrumAt, spectrumAt]
  simp only [h]

/-- The directions of a rotation depend on its polynomial alone. -/
theorem Rotation.map_directions {S : Solvers ℝ} (hS : S.IsExact) (g : Geometry ℝ) {k : ℕ}
    (Ψ : Option (Mat (Cplx ℝ) k k)) :
    (Ψ.map (directions S g)).map Multiset.ofList =
      (Ψ.map invariant).map fun p => p.roots.map fun z => directionOfStep g z.arg := by
  rw [Option.map_map, Option.map_map]
  congr 1
  funext Ψ
  exact coe_directions hS g Ψ

namespace Decomposition.IsSpectral

variable {m : ℕ} {D D' : Decomposition ℝ m} {C : Mat (Cplx ℝ) m m}

/-- What leaks into the noise space does not depend on its basis. -/
theorem leakage_noise_basis (h : D.IsSpectral C) (h' : D'.IsSpectral C) (hgap : D.HasGap)
    (hk : D'.sources = D.sources) (a : Vector (Cplx ℝ) m) :
    SpectralSearch.leakage D.noise a = SpectralSearch.leakage D'.noise a := by
  obtain ⟨Q, hQ, hcolumns⟩ := h.exists_unitary_noise h' hgap
  obtain ⟨values', vectors', sources'⟩ := D'
  cases hk
  refine (SpectralSearch.leakage_eq_of_unitary hQ ?_ a).symm
  rw [toMatrix_noise]
  exact hcolumns

/-- The directions of the signal space do not depend on its basis. -/
theorem ofSubspace_basis {S S' : Solvers ℝ} (hS : S.IsExact) (hS' : S'.IsExact)
    (h : D.IsSpectral C) (h' : D'.IsSpectral C) (hgap : D.HasGap) (hk : D'.sources = D.sources)
    (kind : RotationFit) (hfit : kind = .totalLeastSquares →
      Rotation.HasGap S D.sources.2.1 D.signal.dropLastRow D.signal.dropFirstRow)
    (tolerance : Outcome ℝ ℝ) (g : Geometry ℝ) :
    (Rotation.ofSubspace S kind tolerance g D.signal).map (Option.map Multiset.ofList) =
      (Rotation.ofSubspace S' kind tolerance g D'.signal).map (Option.map Multiset.ofList) := by
  obtain ⟨Q, hQ, hcolumns⟩ := h.exists_unitary_signal h' hgap
  obtain ⟨values', vectors', sources'⟩ := D'
  cases hk
  have hsignal : (Decomposition.mk values' vectors' D.sources).signal.toMatrix =
      D.signal.toMatrix * Q := by
    rw [toMatrix_signal]
    exact hcolumns
  have hfirst : (Decomposition.mk values' vectors' D.sources).signal.dropLastRow.toMatrix =
      D.signal.dropLastRow.toMatrix * Q := by
    rw [Mat.toMatrix_dropLastRow, Mat.toMatrix_dropLastRow, hsignal]
    exact submatrix_mul _ _ _ id id Function.bijective_id
  have hlast : (Decomposition.mk values' vectors' D.sources).signal.dropFirstRow.toMatrix =
      D.signal.dropFirstRow.toMatrix * Q := by
    rw [Mat.toMatrix_dropFirstRow, Mat.toMatrix_dropFirstRow, hsignal]
    exact submatrix_mul _ _ _ id id Function.bijective_id
  have hinvariant := Rotation.fit_basis hS hS' hQ hfirst hlast D.sources.2.1 kind hfit tolerance
  have hread : ∀ {S : Solvers ℝ}, S.IsExact → ∀ r : Outcome ℝ (Option (Mat (Cplx ℝ) _ _)),
      (r.map (Option.map (Rotation.directions S g))).map (Option.map Multiset.ofList) =
        (r.map (Option.map (Rotation.invariant (k := D.sources)))).map
          (Option.map fun p => p.roots.map fun z => Rotation.directionOfStep g z.arg) := by
    intro S hS r
    cases r with
    | error e => rfl
    | ok Ψ => exact congrArg Except.ok (Rotation.map_directions hS g Ψ)
  rw [Rotation.ofSubspace_eq, Rotation.ofSubspace_eq, hread hS, hread hS', hinvariant]

end Decomposition.IsSpectral

namespace Estimator

/-- What a rotation fit estimates, regardless of order, is what it finds. -/
theorem map_unordered_rotational (S : Solvers ℝ) {E : Estimator ℝ} {kind : RotationFit}
    {tolerance : Outcome ℝ ℝ} (hE : E.search = .rotational kind tolerance)
    (D : Decomposition ℝ E.geometry.size) :
    (ofDecomposition S E D).map Estimate.unordered =
      ((Rotation.ofSubspace S kind tolerance E.geometry D.signal).map
        (Option.map Multiset.ofList)).map fun angles => (angles.isNone, angles) := by
  rw [ofDecomposition_rotational S hE]
  cases Rotation.ofSubspace S kind tolerance E.geometry D.signal with
  | error e => rfl
  | ok angles => cases angles <;> rfl

/-- Estimates do not depend on the eigenbasis that a solver happens to return.  Take two
orthonormal eigenbases of a covariance, in descending order of the eigenvalues, with a gap
between signal and noise.  The spectrum is the same in all directions and the spectral
estimate is the same altogether.  A least-squares fit is degenerate in both bases or in
neither, and finds the same directions; so does a total-least-squares fit if the singular
values of the sub-arrays side by side fall after the first `K`. -/
theorem estimate_basis_independent {S S' : Solvers ℝ} (hS : S.IsExact) (hS' : S'.IsExact)
    (E : Estimator ℝ) {C : Mat (Cplx ℝ) E.geometry.size E.geometry.size}
    {D D' : Decomposition ℝ E.geometry.size} (hD : D.IsSpectral C) (hD' : D'.IsSpectral C)
    (hsources : D'.sources = D.sources) (hgap : D.HasGap) :
    (∀ (s : SpectralSearch ℝ) {n : ℕ} (θ : Vector ℝ n),
      s.spectrumAt E.geometry D.noise θ = s.spectrumAt E.geometry D'.noise θ) ∧
    (∀ s, E.search = .spectral s → ofDecomposition S E D = ofDecomposition S' E D') ∧
    (∀ tolerance, E.search = .rotational .leastSquares tolerance →
      (ofDecomposition S E D).map Estimate.unordered =
        (ofDecomposition S' E D').map Estimate.unordered) ∧
    (∀ tolerance, E.search = .rotational .totalLeastSquares tolerance →
      Rotation.HasGap S D.sources.2.1 D.signal.dropLastRow D.signal.dropFirstRow →
      (ofDecomposition S E D).map Estimate.unordered =
        (ofDecomposition S' E D').map Estimate.unordered) := by
  have hspectrum : ∀ (s : SpectralSearch ℝ) {n : ℕ} (θ : Vector ℝ n),
      s.spectrumAt E.geometry D.noise θ = s.spectrumAt E.geometry D'.noise θ := fun s _ θ =>
    s.spectrumAt_congr (hD.leakage_noise_basis hD' hgap hsources) θ
  refine ⟨hspectrum, ?_, ?_, ?_⟩
  · intro s hE
    have hfind : s.find E.geometry D = s.find E.geometry D' := by
      rw [SpectralSearch.find, SpectralSearch.find, SpectralSearch.spectrum,
        SpectralSearch.spectrum, hspectrum]
      simp only [hsources]
    rw [ofDecomposition_spectral S hE, ofDecomposition_spectral S' hE, hfind,
      hD.values_eq hD']
  · intro tolerance hE
    rw [map_unordered_rotational S hE, map_unordered_rotational S' hE,
      hD.ofSubspace_basis hS hS' hD' hgap hsources .leastSquares nofun tolerance]
  · intro tolerance hE hfit
    rw [map_unordered_rotational S hE, map_unordered_rotational S' hE,
      hD.ofSubspace_basis hS hS' hD' hgap hsources _ (fun _ => hfit) tolerance]

/-- One source before two elements, in an eigenbasis and in the one of opposite sign. -/
theorem estimate_basis_independent_pair :
    ∃ D D' : Decomposition ℝ Geometry.pair.size, D'.vectors = -D.vectors ∧
      (ofDecomposition .ideal (.pair (.rotational .totalLeastSquares (.ok 0))) D).map
          Estimate.unordered =
        (ofDecomposition .ideal (.pair (.rotational .totalLeastSquares (.ok 0))) D').map
          Estimate.unordered := by
  let k : SourceCount Geometry.pair.size := ⟨1, by decide⟩
  let X : NoiselessScene .pair k 1 := NoiselessScene.single .pair 0
  let D := Decomposition.solved .ideal (X.covariance false) k
  have hD : D.IsSpectral (X.covariance false) :=
    Decomposition.isSpectral_solved Solvers.ideal_isExact.toIsHermitianExact
      (X.covariance_isHermitian k.2.1 false) _
  obtain ⟨Ψ, hgram, hshift, -⟩ := Rotation.exists_shift (D := D) X hD
  refine ⟨D, ⟨D.values, -D.vectors, D.sources⟩, rfl, ?_⟩
  exact (estimate_basis_independent Solvers.ideal_isExact Solvers.ideal_isExact
    (.pair (.rotational .totalLeastSquares (.ok 0))) hD hD.neg rfl
    (NoiselessScene.hasGap (D := D) X hD)).2.2.2 (.ok 0) rfl
      (Rotation.hasGap_of_shift Solvers.ideal_isExact D.sources.2.1 hgram hshift)

end Estimator

end PhasedArray
