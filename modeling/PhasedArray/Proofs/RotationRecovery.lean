import PhasedArray.Proofs.Estimator
import PhasedArray.Proofs.Exact.Ideal
import PhasedArray.Proofs.NoiselessScene
import PhasedArray.Proofs.Rotation

set_option autoImplicit false

/-!
# Rotation fits of scenes (SPEC §4.5)

The signal vectors of a scene are `A T` with an invertible `T`, so the two sub-arrays differ
by `T⁻¹ Z T`, where `Z` holds the phasors of the sources.  That is the rotation that both
fits find; its eigenvalues are the phasors, and their phase steps give back the directions
as long as they do not wrap around.
-/

namespace PhasedArray

open Matrix Polynomial

namespace Rotation

variable {g : Geometry ℝ} {n : ℕ} {D : Decomposition ℝ g.size}

/-- The characteristic polynomial of the rotation has the phasors as its roots. -/
theorem roots_charpoly_similar {k : ℕ} {T : Matrix (Fin k) (Fin k) ℂ} (hT : IsUnit T.det)
    (z : Fin k → ℂ) : (T⁻¹ * (diagonal z * T)).charpoly.roots = Finset.univ.val.map z := by
  have hcharpoly : (T⁻¹ * (diagonal z * T)).charpoly = ∏ j, (X - C (z j)) := by
    rw [charpoly_mul_comm, Matrix.mul_assoc, mul_nonsing_inv _ hT, Matrix.mul_one,
      charpoly_diagonal]
  rw [hcharpoly, roots_prod _ _ (Finset.prod_ne_zero_iff.mpr fun j _ => X_sub_C_ne_zero _)]
  simp

/-- The signal vectors of a scene, seen by the two sub-arrays, differ by an invertible shift
with the phasors as its eigenvalues. -/
theorem exists_shift (X : NoiselessScene g D.sources n) {averaging : Bool}
    (hD : D.IsSpectral (X.covariance averaging)) :
    ∃ Ψ : Matrix (Fin D.sources) (Fin D.sources) ℂ,
      (D.signal.dropLastRow.toMatrixᴴ * D.signal.dropLastRow.toMatrix).det ≠ 0 ∧
      D.signal.dropFirstRow.toMatrix = D.signal.dropLastRow.toMatrix * Ψ ∧
      Ψ.charpoly.roots = Finset.univ.val.map X.phasors := by
  obtain ⟨T, hT, hsignal⟩ := X.exists_signal_eq hD
  have hfirst : D.signal.dropLastRow.toMatrix = nodes (g.size - 1) X.phasors * T := by
    rw [Mat.toMatrix_dropLastRow, hsignal, submatrix_mul _ _ _ id id Function.bijective_id,
      NoiselessScene.steering, nodes_dropLast, submatrix_id_id]
  have hlast : D.signal.dropFirstRow.toMatrix =
      nodes (g.size - 1) X.phasors * (diagonal X.phasors * T) := by
    rw [Mat.toMatrix_dropFirstRow, hsignal, submatrix_mul _ _ _ id id Function.bijective_id,
      NoiselessScene.steering, nodes_dropFirst, submatrix_id_id, Matrix.mul_assoc]
  refine ⟨T⁻¹ * (diagonal X.phasors * T), ?_, ?_, roots_charpoly_similar hT X.phasors⟩
  · have hinjective : Function.Injective (nodes (g.size - 1) X.phasors).mulVec :=
      nodes_mulVec_injective X.distinct (Nat.le_sub_one_of_lt D.sources.2.2)
    rw [hfirst, conjTranspose_mul, Matrix.mul_assoc, ← Matrix.mul_assoc _ _ T, det_mul, det_mul,
      det_conjTranspose]
    exact mul_ne_zero (star_ne_zero.mpr hT.ne_zero)
      (mul_ne_zero (isUnit_det_gram hinjective).ne_zero hT.ne_zero)
  · rw [hlast, hfirst, Matrix.mul_assoc, ← Matrix.mul_assoc T, mul_nonsing_inv _ hT,
      Matrix.one_mul]

/-- A rotation fit of a scene finds a rotation with the phasors as its eigenvalues unless a
positive number is within the tolerance. -/
theorem exists_fit_scene {S : Solvers ℝ} (hS : S.IsExact) (X : NoiselessScene g D.sources n)
    {averaging : Bool} (hD : D.IsSpectral (X.covariance averaging)) (kind : RotationFit)
    (tolerance : Outcome ℝ ℝ) :
    ∃ (σ : ℝ) (Ψ : Mat (Cplx ℝ) D.sources D.sources), 0 < σ ∧
      Ψ.toMatrix.charpoly.roots = Finset.univ.val.map X.phasors ∧
      fit S kind tolerance D.signal.dropLastRow D.signal.dropFirstRow =
        tolerance.map fun τ => if σ ≤ τ then none else some Ψ := by
  obtain ⟨Ψ, hgram, hshift, hroots⟩ := exists_shift X hD
  obtain ⟨σ, hσ, hfit⟩ := fit_of_shift hS D.sources.2.1 hgram hshift kind tolerance
  refine ⟨σ, .ofMatrix Ψ, hσ, ?_, hfit⟩
  rw [Mat.toMatrix_ofMatrix, hroots]

/-- A rotation with the phasors as its eigenvalues has the directions of the sources. -/
theorem directions_perm {S : Solvers ℝ} (hS : S.IsExact) {k : ℕ} (X : NoiselessScene g k n)
    (hangles : ∀ j, X.angles.get j ∈ Set.Icc (-(Real.pi / 2)) (Real.pi / 2))
    (hphases : ∀ j, g.phaseStep (X.angles.get j) ∈ Set.Ioc (-Real.pi) Real.pi)
    {Ψ : Mat (Cplx ℝ) k k} (hroots : Ψ.toMatrix.charpoly.roots = Finset.univ.val.map X.phasors) :
    (directions S g Ψ).Perm X.angles.toList := by
  rw [← Multiset.coe_eq_coe, coe_directions hS, hroots, Multiset.map_map, Vec.toList_eq_ofFn,
    ← Fin.univ_val_map]
  apply Multiset.map_congr rfl
  intro j _
  exact directionOfStep_phasor (hangles j) (hphases j)

/-- A rotation fit of a scene finds all directions unless a positive number is within the
tolerance. -/
theorem ofSubspace_scene {S : Solvers ℝ} (hS : S.IsExact) (X : NoiselessScene g D.sources n)
    {averaging : Bool} (hD : D.IsSpectral (X.covariance averaging))
    (hangles : ∀ j, X.angles.get j ∈ Set.Icc (-(Real.pi / 2)) (Real.pi / 2))
    (hphases : ∀ j, g.phaseStep (X.angles.get j) ∈ Set.Ioc (-Real.pi) Real.pi)
    (kind : RotationFit) (tolerance : Outcome ℝ ℝ) :
    ∃ (σ : ℝ) (angles : List ℝ), 0 < σ ∧ angles.Perm X.angles.toList ∧
      ofSubspace S kind tolerance g D.signal =
        tolerance.map fun τ => if σ ≤ τ then none else some angles := by
  obtain ⟨σ, Ψ, hσ, hroots, hfit⟩ := exists_fit_scene hS X hD kind tolerance
  refine ⟨σ, directions S g Ψ, hσ, directions_perm hS X hangles hphases hroots, ?_⟩
  rw [ofSubspace_eq, hfit]
  cases tolerance with
  | error e => rfl
  | ok τ =>
    simp only [Except.map]
    split_ifs <;> rfl

end Rotation

namespace Estimator

/-- Rotation fits recover the directions of noiseless sources.  Whatever bases the solvers
return, and with or without averaging, an estimate from the covariance that has angles has
those of the sources, each as often as it was given; there is an estimate for every tolerance
that is a number, and with tolerance zero it has angles. -/
theorem rotational_recovers_sources {S : Solvers ℝ} (hS : S.IsExact) {E : Estimator ℝ}
    {kind : RotationFit} {tolerance : Outcome ℝ ℝ} (hE : E.search = .rotational kind tolerance)
    {n : ℕ} {angles : Vector ℝ E.sources} {symbols : Mat (Cplx ℝ) E.sources n}
    (hangles : ∀ j, angles.get j ∈ Set.Icc (-(Real.pi / 2)) (Real.pi / 2))
    (hphases : ∀ j, E.geometry.phaseStep (angles.get j) ∈ Set.Ioc (-Real.pi) Real.pi)
    (hdistinct : Function.Injective fun j => E.geometry.phaseStep (angles.get j))
    (hrank : symbols.toMatrix.rank = E.sources) (averaging : Bool) :
    let C := Covariance.sample averaging (E.geometry.steeringMatrix angles * symbols)
    (∀ estimate, E.ofCovarianceTensor S (.ofMat C) = .ok estimate →
      estimate.degenerate = false →
        ∃ found, estimate.angles? = some found ∧ found.Perm angles.toList) ∧
    (∀ τ, tolerance = .ok τ → ∃ estimate, E.ofCovarianceTensor S (.ofMat C) = .ok estimate) ∧
    (tolerance = .ok 0 → ∃ estimate,
      E.ofCovarianceTensor S (.ofMat C) = .ok estimate ∧ estimate.degenerate = false) := by
  have hphasors : Function.Injective fun j => E.geometry.phasor (angles.get j) := by
    intro i j hij
    apply hdistinct
    change E.geometry.phaseStep _ = E.geometry.phaseStep _
    rw [← Rotation.arg_phasor (hphases i), ← Rotation.arg_phasor (hphases j)]
    exact congrArg Complex.arg hij
  let X : NoiselessScene E.geometry E.sources n := ⟨angles, symbols, hphasors, hrank⟩
  let D := Decomposition.solved S (X.covariance averaging) E.sources
  have hD : D.IsSpectral (X.covariance averaging) :=
    Decomposition.isSpectral_solved hS.toIsHermitianExact
      (X.covariance_isHermitian E.sources.2.1 averaging) _
  obtain ⟨σ, found, hσ, hperm, hfound⟩ :=
    Rotation.ofSubspace_scene (D := D) hS X hD hangles hphases kind tolerance
  have hestimate : E.ofCovarianceTensor S (.ofMat (X.covariance averaging)) =
      tolerance.map fun τ => ⟨E.sources, D.values.toList,
        .rotational kind (if σ ≤ τ then none else some found), none⟩ := by
    rw [ofCovarianceTensor_ofMat, ofDecomposition_rotational S hE, hfound]
    cases tolerance <;> rfl
  refine ⟨?_, ?_, ?_⟩
  · intro estimate hreturned hregular
    cases tolerance with
    | error e => cases hestimate.symm.trans hreturned
    | ok τ =>
      cases hestimate.symm.trans hreturned
      by_cases hflag : σ ≤ τ
      · simp [Estimate.degenerate, Estimate.angles?, hflag] at hregular
      · exact ⟨found, if_neg hflag, hperm⟩
  · rintro τ rfl
    exact ⟨_, hestimate⟩
  · rintro rfl
    refine ⟨_, hestimate, ?_⟩
    simp [Estimate.degenerate, Estimate.angles?, not_le.mpr hσ]

/-- Total least squares finds a source before two elements. -/
theorem rotational_recovers_sources_pair :
    ∃ estimate, (Estimator.pair (.rotational .totalLeastSquares (.ok 0))).ofCovarianceTensor .ideal
        (.ofMat ((NoiselessScene.single .pair (-(Real.pi / 6))).covariance true)) = .ok estimate ∧
      estimate.angles? = some [-(Real.pi / 6)] := by
  let E := Estimator.pair (.rotational .totalLeastSquares (.ok 0))
  let X : NoiselessScene E.geometry E.sources 1 := NoiselessScene.single .pair (-(Real.pi / 6))
  have hpi := Real.pi_pos
  have hangle : ∀ j, X.angles.get j = -(Real.pi / 6) := NoiselessScene.single_angle .pair _
  have hphase : ∀ j, E.geometry.phaseStep (X.angles.get j) = -(Real.pi / 2) := by
    intro j
    rw [hangle, Geometry.phaseStep_eq, Real.sin_neg, Real.sin_pi_div_six]
    change 2 * Real.pi * 0.5 * -(1 / 2) = -(Real.pi / 2)
    ring
  have hangles : ∀ j, X.angles.get j ∈ Set.Icc (-(Real.pi / 2)) (Real.pi / 2) := by
    intro j
    rw [hangle]
    constructor <;> linarith
  have hphases : ∀ j, E.geometry.phaseStep (X.angles.get j) ∈ Set.Ioc (-Real.pi) Real.pi := by
    intro j
    rw [hphase]
    constructor <;> linarith
  have hdistinct : Function.Injective fun j : Fin 1 =>
      E.geometry.phaseStep (X.angles.get j) := Function.injective_of_subsingleton _
  obtain ⟨hfound, -, hregular⟩ := rotational_recovers_sources Solvers.ideal_isExact (E := E) rfl
    hangles hphases hdistinct X.fullRank true
  obtain ⟨estimate, hestimate, hflag⟩ := hregular rfl
  obtain ⟨angles, hangles, hperm⟩ := hfound estimate hestimate hflag
  refine ⟨estimate, hestimate, ?_⟩
  rw [hangles, List.perm_singleton.mp hperm]

end Estimator

end PhasedArray
