import PhasedArray.Proofs.Exact.Solvers
import PhasedArray.Proofs.Manifold
import PhasedArray.Rotation

set_option autoImplicit false

/-!
# Rotation fits (SPEC §4.5)

If the second sub-array is a linear map of the first, `U₂ = U₁ Ψ`, and the columns of the
first are independent, then both fits find `Ψ` and nothing else: the normal equations
have no other solution, and the right singular vectors of `[U₁ | U₂]` for the value zero
are those of the kernel, which is the graph of `-Ψ`.  A fit only fails to return `Ψ` by
flagging a regular matrix whose smallest singular value is within the tolerance.
-/

namespace PhasedArray.Rotation

open Matrix
open scoped ComplexOrder

variable {m k l n : ℕ} {S : Solvers ℝ}

/-! ## The test for singular matrices -/

/-- The smallest singular value of a square matrix. -/
noncomputable def leastSingular (S : Solvers ℝ) (A : Mat (Cplx ℝ) n n) (hn : 0 < n) : ℝ :=
  (S.singularValues A).get ⟨n - 1, (Nat.sub_lt hn one_pos).trans_eq (min_self n).symm⟩

/-- A matrix is flagged if its smallest singular value is within the tolerance. -/
theorem isSingular_eq (S : Solvers ℝ) (tolerance : Outcome ℝ ℝ) (A : Mat (Cplx ℝ) n n)
    (hn : 0 < n) :
    isSingular S tolerance A = tolerance.map fun τ => decide (leastSingular S A hn ≤ τ) := by
  have hlast : (S.singularValues A).toList.getLast? = some (leastSingular S A hn) := by
    rw [List.getLast?_eq_getElem?, Vector.length_toList, Vector.getElem?_toList]
    exact Vector.getElem?_eq_some_iff.mpr ⟨by omega, by simp [leastSingular, Vec.get_eq_getElem]⟩
  rw [isSingular, if_pos (Mat.isFinite_eq_true A), hlast]

/-- It is the last of the singular values, which a square matrix has for every column. -/
theorem padded_last (S : Solvers ℝ) (A : Mat (Cplx ℝ) n n) (hn : 0 < n) :
    padded (S.singularValues A).get ⟨n - 1, Nat.sub_lt hn one_pos⟩ = leastSingular S A hn :=
  dif_pos ((Nat.sub_lt hn one_pos).trans_eq (min_self n).symm)

/-- The smallest singular value of a regular matrix is positive. -/
theorem leastSingular_pos (hS : S.IsExact) {A : Mat (Cplx ℝ) n n} (hA : A.toMatrix.det ≠ 0)
    (hn : 0 < n) : 0 < leastSingular S A hn := by
  have hrank : n ≤ A.toMatrix.rank := by
    rw [rank_of_isUnit _ ((isUnit_iff_isUnit_det _).mpr hA.isUnit), Fintype.card_fin]
  rw [← padded_last]
  exact (hS.singular_basis A).pos_of_le_rank hrank (Nat.sub_lt hn one_pos)

/-! ## Blocks of right singular vectors -/

theorem toMatrix_upperBlock (V : Mat (Cplx ℝ) (k + l) (k + l)) :
    (upperBlock V).toMatrix = V.toMatrix.submatrix (Fin.castAdd l) (Fin.natAdd k) := by
  rw [upperBlock, Mat.toMatrix_of]
  rfl

theorem toMatrix_lowerBlock (V : Mat (Cplx ℝ) (k + l) (k + l)) :
    (lowerBlock V).toMatrix = V.toMatrix.submatrix (Fin.natAdd k) (Fin.natAdd k) := by
  rw [lowerBlock, Mat.toMatrix_of]
  rfl

/-- The two blocks share the columns of the smallest singular values, which are orthonormal. -/
theorem upperBlock_gram_add_lowerBlock_gram {V : Mat (Cplx ℝ) (k + l) (k + l)}
    (hV : V.toMatrixᴴ * V.toMatrix = 1) :
    (upperBlock V).toMatrixᴴ * (upperBlock V).toMatrix +
      (lowerBlock V).toMatrixᴴ * (lowerBlock V).toMatrix = 1 := by
  rw [← orthonormal_columns hV (Fin.natAdd_injective l k), toMatrix_upperBlock,
    toMatrix_lowerBlock]
  ext i j
  simp [Matrix.mul_apply, Fin.sum_univ_add]

/-! ## The two fits -/

/-- The matrix of the normal equations. -/
theorem posSemidef_gram (A : Mat (Cplx ℝ) m k) : (A.adjoint * A).toMatrix.PosSemidef := by
  rw [Mat.toMatrix_mul, Mat.toMatrix_adjoint]
  exact posSemidef_conjTranspose_mul_self _

/-- Over the real numbers least squares solves the normal equations unless they are flagged. -/
theorem leastSquares_eq (S : Solvers ℝ) (tolerance : Outcome ℝ ℝ) (U₁ U₂ : Mat (Cplx ℝ) m k) :
    leastSquares S tolerance U₁ U₂ =
      (isSingular S tolerance (U₁.adjoint * U₁)).map fun singular =>
        if singular then none else S.solve (U₁.adjoint * U₁) (U₁.adjoint * U₂) := by
  rw [leastSquares, solveNormal, if_pos (Mat.isFinite_eq_true _),
    Mat.ofUpper_eq_self (posSemidef_gram U₁).isHermitian]
  cases isSingular S tolerance (U₁.adjoint * U₁) with
  | error e => rfl
  | ok singular => cases singular <;> rfl

/-- Total least squares divides two blocks of right singular vectors unless the divisor is
flagged. -/
theorem totalLeastSquares_eq (S : Solvers ℝ) (tolerance : Outcome ℝ ℝ)
    (U₁ U₂ : Mat (Cplx ℝ) m k) :
    totalLeastSquares S tolerance U₁ U₂ =
      (isSingular S tolerance (lowerBlock (S.rightSingular (U₁.beside U₂)).2)).map
        fun singular =>
          if singular then none
          else (S.inverse (lowerBlock (S.rightSingular (U₁.beside U₂)).2)).map fun inv =>
            -upperBlock (S.rightSingular (U₁.beside U₂)).2 * inv := by
  rw [totalLeastSquares, if_pos (Mat.isFinite_eq_true _)]
  dsimp only
  cases isSingular S tolerance (lowerBlock (S.rightSingular (U₁.beside U₂)).2) with
  | error e => rfl
  | ok singular => cases singular <;> rfl

section Shift

variable {U₁ U₂ : Mat (Cplx ℝ) m k} {Ψ : Matrix (Fin k) (Fin k) ℂ}

/-- Side by side, two matrices of which one is a multiple of the other have no more rank than
columns of one. -/
theorem rank_beside_le (hshift : U₂.toMatrix = U₁.toMatrix * Ψ) :
    (U₁.beside U₂).toMatrix.rank ≤ k := by
  have hfactor : (U₁.beside U₂).toMatrix =
      U₁.toMatrix * Matrix.of fun i => Fin.addCases ((1 : Matrix (Fin k) (Fin k) ℂ) i) (Ψ i) := by
    ext i j
    induction j using Fin.addCases with
    | left j => simp [Matrix.mul_apply, Mat.toMatrix_apply, Mat.beside, Matrix.one_apply]
    | right j =>
      have hentry := congrFun (congrFun hshift i) j
      rw [Matrix.mul_apply] at hentry
      rw [Mat.toMatrix_apply, Mat.beside, Mat.of_apply, Matrix.mul_apply, Fin.addCases_right]
      simp only [Matrix.of_apply, Fin.addCases_right]
      exact hentry
  rw [hfactor]
  exact (rank_mul_le_left _ _).trans (rank_le_width _)

/-- The blocks of the right singular vectors satisfy the equation of the shift. -/
theorem upperBlock_eq (hU₁ : (U₁.toMatrixᴴ * U₁.toMatrix).det ≠ 0)
    (hshift : U₂.toMatrix = U₁.toMatrix * Ψ) {V : Mat (Cplx ℝ) (k + k) (k + k)}
    {σ : Fin (min m (k + k)) → ℝ}
    (hV : IsSingularBasis (U₁.beside U₂).toMatrix V.toMatrix σ) :
    (upperBlock V).toMatrix = -(Ψ * (lowerBlock V).toMatrix) := by
  have hzero : (U₁.beside U₂).toMatrix * V.toMatrix.submatrix id (Fin.natAdd k) = 0 := by
    ext i j
    exact hV.mul_apply_eq_zero (hV.eq_zero_of_rank_le (rank_beside_le hshift) (by simp)) i
  have hkernel : U₁.toMatrix * ((upperBlock V).toMatrix + Ψ * (lowerBlock V).toMatrix) = 0 := by
    rw [Mat.toMatrix_beside_mul, hshift, Matrix.mul_assoc, ← Matrix.mul_add] at hzero
    rw [toMatrix_upperBlock, toMatrix_lowerBlock]
    exact hzero
  rw [← add_eq_zero_iff_eq_neg]
  calc (upperBlock V).toMatrix + Ψ * (lowerBlock V).toMatrix
      = (U₁.toMatrixᴴ * U₁.toMatrix)⁻¹ * (U₁.toMatrixᴴ * (U₁.toMatrix *
          ((upperBlock V).toMatrix + Ψ * (lowerBlock V).toMatrix))) := by
        rw [← Matrix.mul_assoc U₁.toMatrixᴴ, nonsing_inv_mul_cancel_left _ _ hU₁.isUnit]
    _ = 0 := by rw [hkernel, Matrix.mul_zero, Matrix.mul_zero]

/-- The block that total least squares inverts is regular. -/
theorem det_lowerBlock_ne_zero (hU₁ : (U₁.toMatrixᴴ * U₁.toMatrix).det ≠ 0)
    (hshift : U₂.toMatrix = U₁.toMatrix * Ψ) {V : Mat (Cplx ℝ) (k + k) (k + k)}
    {σ : Fin (min m (k + k)) → ℝ}
    (hV : IsSingularBasis (U₁.beside U₂).toMatrix V.toMatrix σ) :
    (lowerBlock V).toMatrix.det ≠ 0 := by
  have hsum := upperBlock_gram_add_lowerBlock_gram hV.orthonormal
  rw [upperBlock_eq hU₁ hshift hV, conjTranspose_neg, neg_mul_neg, conjTranspose_mul,
    Matrix.mul_assoc, ← Matrix.mul_add] at hsum
  have hadjoint := isUnit_det_of_right_inverse hsum
  rw [det_conjTranspose] at hadjoint
  exact star_ne_zero.mp hadjoint.ne_zero

/-! ## Exactness of the fits -/

/-- Least squares finds the shift unless the products of the columns are flagged. -/
theorem leastSquares_of_shift (hS : S.IsExact) (hU₁ : (U₁.toMatrixᴴ * U₁.toMatrix).det ≠ 0)
    (hshift : U₂.toMatrix = U₁.toMatrix * Ψ) (tolerance : Outcome ℝ ℝ) :
    leastSquares S tolerance U₁ U₂ =
      (isSingular S tolerance (U₁.adjoint * U₁)).map fun singular =>
        if singular then none else some (.ofMatrix Ψ) := by
  have hsolve : S.solve (U₁.adjoint * U₁) (U₁.adjoint * U₂) = some (.ofMatrix Ψ) := by
    rw [hS.solve_iff, Mat.toMatrix_mul, Mat.toMatrix_mul, Mat.toMatrix_adjoint,
      Mat.toMatrix_ofMatrix, hshift, Matrix.mul_assoc]
    exact ⟨hU₁, rfl⟩
  rw [leastSquares_eq, hsolve]

/-- Total least squares finds the shift unless the block it inverts is flagged. -/
theorem totalLeastSquares_of_shift (hS : S.IsExact)
    (hU₁ : (U₁.toMatrixᴴ * U₁.toMatrix).det ≠ 0) (hshift : U₂.toMatrix = U₁.toMatrix * Ψ)
    (tolerance : Outcome ℝ ℝ) :
    totalLeastSquares S tolerance U₁ U₂ =
      (isSingular S tolerance (lowerBlock (S.rightSingular (U₁.beside U₂)).2)).map
        fun singular => if singular then none else some (.ofMatrix Ψ) := by
  have hV := hS.singular_basis (U₁.beside U₂)
  have hlower := det_lowerBlock_ne_zero hU₁ hshift hV
  have hinverse : S.inverse (lowerBlock (S.rightSingular (U₁.beside U₂)).2) =
      some (.ofMatrix ((lowerBlock (S.rightSingular (U₁.beside U₂)).2).toMatrix⁻¹ *
        (Mat.identity k : Mat (Cplx ℝ) k k).toMatrix)) :=
    hS.solve_regular (.identity k) hlower
  have hquotient : -upperBlock (S.rightSingular (U₁.beside U₂)).2 *
      .ofMatrix ((lowerBlock (S.rightSingular (U₁.beside U₂)).2).toMatrix⁻¹ *
        (Mat.identity k : Mat (Cplx ℝ) k k).toMatrix) = Mat.ofMatrix Ψ := by
    apply Mat.toMatrix_injective
    rw [Mat.toMatrix_mul, Mat.toMatrix_neg, Mat.toMatrix_ofMatrix, Mat.toMatrix_ofMatrix,
      Mat.toMatrix_identity, Matrix.mul_one, upperBlock_eq hU₁ hshift hV, neg_neg,
      mul_nonsing_inv_cancel_right _ _ hlower.isUnit]
  rw [totalLeastSquares_eq, hinverse, Option.map_some, hquotient]

/-- Either fit finds the shift unless a positive number is within the tolerance. -/
theorem fit_of_shift (hS : S.IsExact) (hk : 0 < k)
    (hU₁ : (U₁.toMatrixᴴ * U₁.toMatrix).det ≠ 0) (hshift : U₂.toMatrix = U₁.toMatrix * Ψ)
    (kind : RotationFit) (tolerance : Outcome ℝ ℝ) :
    ∃ σ : ℝ, 0 < σ ∧ fit S kind tolerance U₁ U₂ =
      tolerance.map fun τ => if σ ≤ τ then none else some (.ofMatrix Ψ) := by
  have hflag : ∀ A : Mat (Cplx ℝ) k k, (isSingular S tolerance A).map (fun singular =>
      if singular then none else some (Mat.ofMatrix Ψ)) =
        tolerance.map fun τ => if leastSingular S A hk ≤ τ then none else some (.ofMatrix Ψ) := by
    intro A
    rw [isSingular_eq S tolerance A hk]
    cases tolerance with
    | error e => rfl
    | ok τ => simp [Except.map]
  cases kind with
  | leastSquares =>
    have hgram : (U₁.adjoint * U₁).toMatrix.det ≠ 0 := by
      rw [Mat.toMatrix_mul, Mat.toMatrix_adjoint]
      exact hU₁
    exact ⟨_, leastSingular_pos hS hgram hk,
      (leastSquares_of_shift hS hU₁ hshift tolerance).trans (hflag _)⟩
  | totalLeastSquares =>
    have hlower := det_lowerBlock_ne_zero hU₁ hshift (hS.singular_basis (U₁.beside U₂))
    exact ⟨_, leastSingular_pos hS hlower hk,
      (totalLeastSquares_of_shift hS hU₁ hshift tolerance).trans (hflag _)⟩

end Shift

/-! ## Directions -/

/-- What a search returns is the fit with its directions read off. -/
theorem ofSubspace_eq (S : Solvers ℝ) (kind : RotationFit) (tolerance : Outcome ℝ ℝ)
    (g : Geometry ℝ) (U : Mat (Cplx ℝ) m k) :
    ofSubspace S kind tolerance g U =
      (fit S kind tolerance U.dropLastRow U.dropFirstRow).map (Option.map (directions S g)) := by
  rw [ofSubspace]
  cases fit S kind tolerance U.dropLastRow U.dropFirstRow <;> rfl

/-- A fit reads a complex matrix as it is. -/
theorem ofTensor_ofMat (S : Solvers ℝ) (kind : RotationFit) (tolerance : Outcome ℝ ℝ)
    (g : Geometry ℝ) (U : Mat (Cplx ℝ) m k) :
    ofTensor S kind tolerance g (.ofMat U) =
      (ofSubspace S kind tolerance g U).map fun found => (k, found) := by
  have hoperand : Operand.ofTensor? (Tensor.ofMat U) = some ⟨m, k, U, none⟩ := by
    rw [Operand.ofTensor?, Tensor.asMatrix?_ofMat]
    rfl
  have htaken : operandOf kind (Tensor.ofMat U) = .ok (Tensor.ofMat U) := by
    cases kind <;> rfl
  have hfit : fitOperands S kind tolerance (Operand.mk U none).dropLastRow
      (Operand.mk U none).dropFirstRow = fit S kind tolerance U.dropLastRow U.dropFirstRow := by
    cases kind <;> rfl
  have hrank : ¬ (Tensor.ofMat U).rank < 2 := lt_irrefl 2
  rw [ofSubspace_eq, ← hfit]
  unfold ofTensor
  rw [if_neg hrank, htaken]
  simp only [bind, Except.bind, hoperand]
  cases fitOperands S kind tolerance (Operand.mk U none).dropLastRow
    (Operand.mk U none).dropFirstRow <;> rfl

/-- The directions of a rotation depend on its characteristic polynomial alone. -/
theorem coe_directions (hS : S.IsExact) (g : Geometry ℝ) (Ψ : Mat (Cplx ℝ) k k) :
    (directions S g Ψ : Multiset ℝ) =
      Ψ.toMatrix.charpoly.roots.map fun z => directionOfStep g z.arg := by
  rw [← hS.eigenvalues_roots, Multiset.map_map]
  rfl

/-- A phase step that does not wrap around is the argument of its phasor. -/
theorem arg_phasor {g : Geometry ℝ} {θ : ℝ} (hφ : g.phaseStep θ ∈ Set.Ioc (-Real.pi) Real.pi) :
    (g.phasor θ).arg = g.phaseStep θ := by
  have hend : -Real.pi + 2 * Real.pi = Real.pi := by ring
  rw [Geometry.phasor, Complex.arg_exp_mul_I, toIocMod_eq_self, hend]
  exact hφ

/-- The direction is the arcsine, which ends where the quotient is held. -/
theorem directionOfStep_eq (g : Geometry ℝ) (φ : ℝ) :
    directionOfStep g φ = Real.arcsin (φ / (2 * Real.pi * g.spacing)) := Exact.arcsin_clamp _

/-- The direction of such a phasor. -/
theorem directionOfStep_phasor {g : Geometry ℝ} {θ : ℝ}
    (hθ : θ ∈ Set.Icc (-(Real.pi / 2)) (Real.pi / 2))
    (hφ : g.phaseStep θ ∈ Set.Ioc (-Real.pi) Real.pi) :
    directionOfStep g (g.phasor θ).arg = θ := by
  have hspacing : 2 * Real.pi * g.spacing ≠ 0 :=
    (mul_pos Real.two_pi_pos g.spacing_pos).ne'
  rw [arg_phasor hφ, directionOfStep_eq, g.phaseStep_eq, mul_div_cancel_left₀ _ hspacing,
    Real.arcsin_sin' hθ]

end PhasedArray.Rotation
