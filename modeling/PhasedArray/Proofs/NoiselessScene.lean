import Mathlib.Analysis.Matrix.Order
import PhasedArray.Estimator
import PhasedArray.Proofs.Covariance
import PhasedArray.Proofs.Manifold
import PhasedArray.Proofs.Subspace

set_option autoImplicit false

/-!
# Noiseless scenes (SPEC §4.6)

A scene is what an array hears without noise: as many directions as the array can tell
apart, with distinct phasors, and symbols that are independent from source to source.
Its covariance has the form `A P Aᴴ`, where the columns of `A` are the steering vectors and
`P` is positive definite, with and without forward-backward averaging.  From that form
alone follows what the subspace methods rest on: the noise vectors are orthogonal to all
steering vectors, and the signal vectors are an invertible combination of them.
-/

namespace PhasedArray

open Matrix
open scoped ComplexOrder

/-! ## Covariances of full-rank sources -/

section Factored

variable {m k : ℕ} {A : Matrix (Fin m) (Fin k) ℂ} {P : Matrix (Fin k) (Fin k) ℂ}

/-- A positive semidefinite matrix of full rank is positive definite. -/
theorem posDef_of_rank_eq (hP : P.PosSemidef) (hrank : P.rank = k) : P.PosDef := by
  rw [hP.posDef_iff_isUnit, ← mulVec_surjective_iff_isUnit]
  have hrange : LinearMap.range P.mulVecLin = ⊤ := by
    apply Submodule.eq_top_of_finrank_eq
    rw [Module.finrank_fin_fun]
    exact hrank
  exact LinearMap.range_eq_top.mp hrange

theorem isUnit_det_gram (hA : Function.Injective A.mulVec) : IsUnit (Aᴴ * A).det :=
  (isUnit_iff_isUnit_det _).mp (PosDef.conjTranspose_mul_self A hA).isUnit

/-- Independent sources leave their number of eigenvalues that are not zero. -/
theorem rank_factored (hA : Function.Injective A.mulVec) (hP : P.PosDef) :
    (A * P * Aᴴ).rank = k := by
  have hgram := isUnit_det_gram hA
  have hPdet : IsUnit P.det := (isUnit_iff_isUnit_det _).mp hP.isUnit
  apply le_antisymm
  · calc (A * P * Aᴴ).rank ≤ (A * P).rank := rank_mul_le_left _ _
      _ ≤ k := rank_le_width _
  · have hcore : (Aᴴ * A * P * (Aᴴ * A)).rank = k := by
      rw [rank_mul_eq_left_of_isUnit_det _ _ hgram, rank_mul_eq_left_of_isUnit_det _ _ hPdet,
        rank_of_isUnit _ ((isUnit_iff_isUnit_det _).mpr hgram), Fintype.card_fin]
    calc k = (Aᴴ * A * P * (Aᴴ * A)).rank := hcore.symm
      _ = (Aᴴ * (A * P * Aᴴ * A)).rank := by simp only [Matrix.mul_assoc]
      _ ≤ (A * P * Aᴴ * A).rank := rank_mul_le_right _ _
      _ ≤ (A * P * Aᴴ).rank := rank_mul_le_left _ _

/-- What the covariance annihilates is orthogonal to the columns of `A`. -/
theorem conjTranspose_mul_eq_zero {ι : Type} {N : Matrix (Fin m) ι ℂ}
    (hA : Function.Injective A.mulVec) (hP : P.PosDef) (hN : A * P * Aᴴ * N = 0) :
    Aᴴ * N = 0 := by
  have hgram := isUnit_det_gram hA
  have hPdet : IsUnit P.det := (isUnit_iff_isUnit_det _).mp hP.isUnit
  calc Aᴴ * N = P⁻¹ * ((Aᴴ * A)⁻¹ * (Aᴴ * A)) * P * (Aᴴ * N) := by
        rw [nonsing_inv_mul _ hgram, Matrix.mul_one, nonsing_inv_mul _ hPdet, Matrix.one_mul]
    _ = P⁻¹ * (Aᴴ * A)⁻¹ * Aᴴ * (A * P * Aᴴ * N) := by simp only [Matrix.mul_assoc]
    _ = 0 := by rw [hN, Matrix.mul_zero]

end Factored

namespace Decomposition.IsSpectral

variable {m : ℕ} {D : Decomposition ℝ m} {C : Mat (Cplx ℝ) m m}
  {A : Matrix (Fin m) (Fin D.sources) ℂ} {P : Matrix (Fin D.sources) (Fin D.sources) ℂ}

theorem posSemidef_of_factored (hP : P.PosDef) (hC : C.toMatrix = A * P * Aᴴ) :
    C.toMatrix.PosSemidef := by
  rw [hC]
  exact hP.posSemidef.mul_mul_conjTranspose_same A

/-- The noise eigenvalues of independent noiseless sources are zero. -/
theorem noise_value_eq_zero (h : D.IsSpectral C) (hP : P.PosDef) (hC : C.toMatrix = A * P * Aᴴ)
    (hA : Function.Injective A.mulVec) {i : Fin m} (hi : D.sources ≤ i.val) :
    D.values.get i = 0 := by
  apply eq_zero_of_card_le h.descending (h.basis.nonneg (posSemidef_of_factored hP hC)) _ hi
  rw [h.basis.card_ne_zero, hC, rank_factored hA hP]

/-- Their signal eigenvalues are positive. -/
theorem signal_value_pos (h : D.IsSpectral C) (hP : P.PosDef) (hC : C.toMatrix = A * P * Aᴴ)
    (hA : Function.Injective A.mulVec) {i : Fin m} (hi : i.val < D.sources) :
    0 < D.values.get i := by
  apply pos_of_le_card h.descending (h.basis.nonneg (posSemidef_of_factored hP hC)) _ hi
  rw [h.basis.card_ne_zero, hC, rank_factored hA hP]

/-- The noise vectors are orthogonal to the steering vectors of the sources. -/
theorem noise_mul_eq_zero (h : D.IsSpectral C) (hP : P.PosDef) (hC : C.toMatrix = A * P * Aᴴ)
    (hA : Function.Injective A.mulVec) : D.noise.toMatrixᴴ * A = 0 := by
  have hkernel : A * P * Aᴴ * D.noise.toMatrix = 0 := by
    rw [← hC, toMatrix_noise]
    ext i j
    have hentry := congrFun (congrFun h.basis.eigen i) (Mat.after D.sources j)
    rw [mul_diagonal, h.noise_value_eq_zero hP hC hA (Nat.le_add_right _ _), Complex.ofReal_zero,
      mul_zero] at hentry
    exact hentry
  have hadjoint := conjTranspose_mul_eq_zero hA hP hkernel
  rw [← conjTranspose_eq_zero, conjTranspose_mul, conjTranspose_conjTranspose]
  exact hadjoint

/-- The signal vectors are an invertible combination of the steering vectors. -/
theorem exists_signal_eq_mul (h : D.IsSpectral C) (hP : P.PosDef)
    (hC : C.toMatrix = A * P * Aᴴ) (hA : Function.Injective A.mulVec) :
    ∃ T : Matrix (Fin D.sources) (Fin D.sources) ℂ,
      IsUnit T.det ∧ D.signal.toMatrix = A * T := by
  let inverses : Fin D.sources → ℂ := fun i =>
    ((D.values.get (i.castLE D.sources.2.2.le) : ℝ) : ℂ)⁻¹
  have hvectors : D.signal.toMatrix =
      A * (P * Aᴴ * D.signal.toMatrix * diagonal inverses) := by
    have heigen : C.toMatrix * D.signal.toMatrix * diagonal inverses = D.signal.toMatrix := by
      rw [toMatrix_signal]
      ext i j
      have hpos := h.signal_value_pos hP hC hA (i := j.castLE D.sources.2.2.le) j.isLt
      have hne : ((D.values.get (j.castLE D.sources.2.2.le) : ℝ) : ℂ) ≠ 0 := by
        exact_mod_cast hpos.ne'
      have hentry := congrFun (congrFun h.basis.eigen i) (j.castLE D.sources.2.2.le)
      rw [mul_diagonal] at hentry ⊢
      calc _ = (C.toMatrix * D.vectors.toMatrix) i (j.castLE D.sources.2.2.le) * inverses j := rfl
        _ = D.vectors.toMatrix i (j.castLE D.sources.2.2.le) := by
          rw [hentry, mul_assoc, mul_inv_cancel₀ hne, mul_one]
    conv_lhs => rw [← heigen, hC]
    simp only [Matrix.mul_assoc]
  refine ⟨_, ?_, hvectors⟩
  apply isUnit_det_of_left_inverse (B := D.signal.toMatrixᴴ * A)
  rw [Matrix.mul_assoc, ← hvectors, h.signal_orthonormal]

end Decomposition.IsSpectral

/-! ## Scenes -/

/-- What `k` sources of distinct phasors send to the array in `n` snapshots, without noise. -/
structure NoiselessScene (g : Geometry ℝ) (k n : ℕ) where
  angles : Vector ℝ k
  symbols : Mat (Cplx ℝ) k n
  distinct : Function.Injective fun j => g.phasor (angles.get j)
  fullRank : symbols.toMatrix.rank = k

namespace NoiselessScene

variable {g : Geometry ℝ} {k n : ℕ} (X : NoiselessScene g k n)

/-- The received snapshots. -/
noncomputable def snapshots : Mat (Cplx ℝ) g.size n := g.steeringMatrix X.angles * X.symbols

/-- Their sample covariance. -/
noncomputable def covariance (averaging : Bool) : Mat (Cplx ℝ) g.size g.size :=
  Covariance.sample averaging X.snapshots

/-- The phasor of each source. -/
noncomputable def phasors (j : Fin k) : ℂ := g.phasor (X.angles.get j)

/-- The steering vectors of the sources, as columns. -/
noncomputable def steering : Matrix (Fin g.size) (Fin k) ℂ := nodes g.size X.phasors

theorem steering_mulVec_injective (hk : k ≤ g.size) : Function.Injective X.steering.mulVec :=
  nodes_mulVec_injective X.distinct hk

/-- The mean power of the symbols. -/
noncomputable def power : Matrix (Fin k) (Fin k) ℂ :=
  (n : ℂ)⁻¹ • (X.symbols.toMatrix * X.symbols.toMatrixᴴ)

include X in
theorem snapshots_pos (hk : 0 < k) : 0 < n := by
  have hrank := rank_le_width X.symbols.toMatrix
  rw [X.fullRank] at hrank
  omega

theorem posDef_power (hk : 0 < k) : X.power.PosDef := by
  have hn : (0 : ℂ) < (n : ℂ)⁻¹ := by
    have hpos := X.snapshots_pos hk
    positivity
  have hsymbols : (X.symbols.toMatrix * X.symbols.toMatrixᴴ).PosDef := by
    apply posDef_of_rank_eq (posSemidef_self_mul_conjTranspose _)
    rw [rank_self_mul_conjTranspose, X.fullRank]
  exact hsymbols.smul hn

theorem toMatrix_snapshots : X.snapshots.toMatrix = X.steering * X.symbols.toMatrix := by
  rw [snapshots, Mat.toMatrix_mul, Geometry.toMatrix_steeringMatrix]
  rfl

theorem toMatrix_outerMean :
    (Covariance.outerMean X.snapshots).toMatrix = X.steering * X.power * X.steeringᴴ := by
  rw [Covariance.toMatrix_outerMean, toMatrix_snapshots, power, conjTranspose_mul,
    Matrix.mul_smul, Matrix.smul_mul]
  simp only [Matrix.mul_assoc]

/-- How each column turns when the array is seen from its other end. -/
noncomputable def turn : Matrix (Fin k) (Fin k) ℂ :=
  diagonal fun j => star (X.phasors j) ^ (g.size - 1)

/-- The covariance seen from the other end of the array has the same form. -/
theorem exchanged_outerMean :
    ((Covariance.outerMean X.snapshots).toMatrix.map star).submatrix Fin.rev Fin.rev =
      X.steering * (X.turn * X.power.map star * X.turnᴴ) * X.steeringᴴ := by
  have hreversed : (X.steering.map star).submatrix Fin.rev id = X.steering * X.turn :=
    nodes_reversed fun j => g.norm_phasor (X.angles.get j)
  have hcolumns : (X.steeringᴴ.map star).submatrix id Fin.rev = X.turnᴴ * X.steeringᴴ := by
    rw [← conjTranspose_mul, ← hreversed]
    rfl
  rw [toMatrix_outerMean, map_star_mul, map_star_mul,
    submatrix_mul _ _ Fin.rev id Fin.rev Function.bijective_id,
    submatrix_mul _ _ Fin.rev id id Function.bijective_id, hreversed, hcolumns]
  simp only [Matrix.mul_assoc]
  rfl

/-- The covariance of a scene comes from independent sources, with and without averaging. -/
theorem exists_factor (hk : 0 < k) (averaging : Bool) :
    ∃ P : Matrix (Fin k) (Fin k) ℂ, P.PosDef ∧
      (X.covariance averaging).toMatrix = X.steering * P * X.steeringᴴ := by
  cases averaging with
  | false =>
    refine ⟨X.power, X.posDef_power hk, ?_⟩
    rw [covariance, Covariance.sample_false, toMatrix_outerMean]
  | true =>
    have hturned : (X.turn * X.power.map star * X.turnᴴ).PosSemidef := by
      apply PosSemidef.mul_mul_conjTranspose_same
      have htranspose : X.power.map star = X.powerᵀ := by
        ext i j
        exact (X.posDef_power hk).isHermitian.apply j i
      rw [htranspose]
      exact (X.posDef_power hk).posSemidef.transpose
    have hhalf : (0 : ℂ) < 2⁻¹ := by positivity
    refine ⟨(2 : ℂ)⁻¹ • (X.power + X.turn * X.power.map star * X.turnᴴ),
      ((X.posDef_power hk).add_posSemidef hturned).smul hhalf, ?_⟩
    rw [covariance, Covariance.sample_true, Covariance.toMatrix_average, exchanged_outerMean,
      toMatrix_outerMean, Matrix.mul_smul, Matrix.smul_mul, Matrix.mul_add, Matrix.add_mul]

/-! ## Subspaces of a scene -/

theorem covariance_isHermitian (hk : 0 < k) (averaging : Bool) :
    (X.covariance averaging).toMatrix.IsHermitian := by
  obtain ⟨P, hP, hC⟩ := X.exists_factor hk averaging
  rw [hC]
  exact (hP.posSemidef.mul_mul_conjTranspose_same X.steering).isHermitian

/-- An exact solver decomposes the covariance. -/
theorem isSpectral_solved {S : Solvers ℝ} (hS : S.IsHermitianExact) (hk : 0 < k)
    (averaging : Bool) (c : SourceCount g.size) :
    (Decomposition.solved S (X.covariance averaging) c).IsSpectral (X.covariance averaging) :=
  Decomposition.isSpectral_solved hS (X.covariance_isHermitian hk averaging) c

section Spectral

variable {D : Decomposition ℝ g.size} (Y : NoiselessScene g D.sources n) {averaging : Bool}

/-- The noise vectors are orthogonal to the steering vectors of all sources. -/
theorem noise_mul_steering (h : D.IsSpectral (Y.covariance averaging)) :
    D.noise.toMatrixᴴ * Y.steering = 0 := by
  obtain ⟨P, hP, hC⟩ := Y.exists_factor D.sources.2.1 averaging
  exact h.noise_mul_eq_zero hP hC (Y.steering_mulVec_injective D.sources.2.2.le)

/-- The signal vectors are an invertible combination of the steering vectors. -/
theorem exists_signal_eq (h : D.IsSpectral (Y.covariance averaging)) :
    ∃ T : Matrix (Fin D.sources) (Fin D.sources) ℂ,
      IsUnit T.det ∧ D.signal.toMatrix = Y.steering * T := by
  obtain ⟨P, hP, hC⟩ := Y.exists_factor D.sources.2.1 averaging
  exact h.exists_signal_eq_mul hP hC (Y.steering_mulVec_injective D.sources.2.2.le)

/-- A gap separates the eigenvalues of the sources from those of the noise. -/
theorem hasGap (h : D.IsSpectral (Y.covariance averaging)) : D.HasGap := by
  obtain ⟨P, hP, hC⟩ := Y.exists_factor D.sources.2.1 averaging
  have hA := Y.steering_mulVec_injective D.sources.2.2.le
  rw [Decomposition.HasGap, h.noise_value_eq_zero hP hC hA le_rfl]
  exact h.signal_value_pos hP hC hA (Nat.sub_lt D.sources.2.1 one_pos)

end Spectral

/-! ## Sources that take turns -/

/-- Each source sends once, alone. -/
noncomputable def inTurn (angles : Vector ℝ k)
    (distinct : Function.Injective fun j => g.phasor (angles.get j)) : NoiselessScene g k k where
  angles := angles
  symbols := .identity k
  distinct := distinct
  fullRank := by rw [Mat.toMatrix_identity, rank_one, Fintype.card_fin]

/-- One source that sends once. -/
noncomputable def single (g : Geometry ℝ) (θ : ℝ) : NoiselessScene g 1 1 :=
  inTurn (Vector.ofFn fun _ => θ) (Function.injective_of_subsingleton _)

theorem single_angle (g : Geometry ℝ) (θ : ℝ) (j : Fin 1) : (single g θ).angles.get j = θ :=
  Vec.get_ofFn _ j

end NoiselessScene

/-- Two elements half a wavelength apart. -/
noncomputable def Geometry.pair : Geometry ℝ where
  size := 2
  spacing := 0.5
  size_pos := two_pos
  spacing_pos := by norm_num

theorem Geometry.phaseStep_pair (θ : ℝ) : Geometry.pair.phaseStep θ = Real.pi * Real.sin θ := by
  rw [Geometry.phaseStep_eq]
  change 2 * Real.pi * 0.5 * Real.sin θ = _
  ring

theorem Geometry.phasor_pair (θ : ℝ) :
    Geometry.pair.phasor θ = Complex.exp ((Real.pi * Real.sin θ : ℝ) * Complex.I) := by
  rw [Geometry.phasor, Geometry.phaseStep_pair]

/-- Ahead of the array the elements are in step. -/
theorem Geometry.phasor_pair_zero : Geometry.pair.phasor 0 = 1 := by simp [phasor_pair]

/-- A sixth of a half turn from broadside, neighbouring elements differ by a right angle. -/
theorem Geometry.phasor_pair_sixth : Geometry.pair.phasor (-(Real.pi / 6)) = -Complex.I := by
  rw [phasor_pair, Real.sin_neg, Real.sin_pi_div_six]
  have hangle : ((Real.pi * -(1 / 2) : ℝ) : ℂ) * Complex.I = -(Real.pi / 2 * Complex.I) := by
    push_cast
    ring
  rw [hangle, Complex.exp_neg, Complex.exp_pi_div_two_mul_I, Complex.inv_I]

/-- On the other side of broadside the angle is the opposite one. -/
theorem Geometry.phasor_pair_mirrored : Geometry.pair.phasor (Real.pi / 6) = Complex.I := by
  rw [phasor_pair, Real.sin_pi_div_six]
  have hangle : ((Real.pi * (1 / 2) : ℝ) : ℂ) * Complex.I = Real.pi / 2 * Complex.I := by
    push_cast
    ring
  rw [hangle, Complex.exp_pi_div_two_mul_I]

/-- At the end of the array they differ by a half turn. -/
theorem Geometry.phasor_pair_end : Geometry.pair.phasor (-(Real.pi / 2)) = -1 := by
  simp [phasor_pair, Complex.exp_neg]

theorem Geometry.toComplex_steering_pair (θ : ℝ) :
    Vec.toComplex (Geometry.pair.steering θ) = ![1, Geometry.pair.phasor θ] := by
  rw [toComplex_steering]
  funext i
  fin_cases i
  · exact pow_zero _
  · exact pow_one _

/-- An estimator for one source before two elements. -/
noncomputable def Estimator.pair (search : Search ℝ) : Estimator ℝ :=
  ⟨.pair, ⟨1, by decide⟩, true, search⟩

end PhasedArray
