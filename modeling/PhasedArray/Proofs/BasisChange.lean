import PhasedArray.Proofs.Rotation

set_option autoImplicit false

/-!
# Rotation fits under a change of basis (SPEC §4.5)

The same signal space has many orthonormal bases; two of them differ by a unitary matrix
`Q`.  In another basis the rotation `Ψ` becomes `Qᴴ Ψ Q`, which has the same characteristic
polynomial, and the matrices that a fit tests and inverts keep their singular values: the
normal matrix is conjugated by `Q`, the block of right singular vectors is multiplied by
unitary matrices on either side.  So a fit returns the same polynomial, or nothing, in every
basis and with every exact solver.
-/

namespace PhasedArray.Rotation

open Matrix
open scoped ComplexOrder

variable {m k n : ℕ} {S S' : Solvers ℝ}

/-- Conjugation by a unitary matrix keeps the characteristic polynomial. -/
theorem charpoly_conj {Q : Matrix (Fin k) (Fin k) ℂ} (hQ : Qᴴ * Q = 1)
    (M : Matrix (Fin k) (Fin k) ℂ) : (Qᴴ * (M * Q)).charpoly = M.charpoly := by
  rw [charpoly_mul_comm, Matrix.mul_assoc, mul_eq_one_comm.mp hQ, Matrix.mul_one]

/-- Two matrices with the same singular values are flagged alike. -/
theorem isSingular_congr (hS : S.IsExact) (hS' : S'.IsExact) {A A' : Mat (Cplx ℝ) n k}
    (hgram : (A.toMatrixᴴ * A.toMatrix).charpoly = (A'.toMatrixᴴ * A'.toMatrix).charpoly)
    (tolerance : Outcome ℝ ℝ) : isSingular S tolerance A = isSingular S' tolerance A' := by
  rw [isSingular, isSingular, if_pos (Mat.isFinite_eq_true A), if_pos (Mat.isFinite_eq_true A'),
    hS.singularValues_eq hS' hgram]

/-- What a rotation is up to a change of basis. -/
noncomputable def invariant (Ψ : Mat (Cplx ℝ) k k) : Polynomial ℂ := Ψ.toMatrix.charpoly

/-- Unitary factors on either side do not make a matrix singular or regular. -/
theorem det_mul_mul_eq_zero_iff {P R : Matrix (Fin k) (Fin k) ℂ} (hP : Pᴴ * P = 1)
    (hR : Rᴴ * R = 1) (M : Matrix (Fin k) (Fin k) ℂ) : (Pᴴ * (M * R)).det = 0 ↔ M.det = 0 := by
  have hPdet : Pᴴ.det ≠ 0 := (isUnit_det_of_right_inverse hP).ne_zero
  have hRdet : R.det ≠ 0 := (isUnit_det_of_left_inverse hR).ne_zero
  rw [det_mul, det_mul]
  simp only [mul_eq_zero, hPdet, hRdet, false_or, or_false]

/-- The products of the columns are conjugated by a factor on the right. -/
theorem gram_mul {P : Matrix (Fin n) (Fin n) ℂ} {R : Matrix (Fin k) (Fin k) ℂ} (hP : Pᴴ * P = 1)
    (M : Matrix (Fin n) (Fin k) ℂ) :
    (Pᴴ * (M * R))ᴴ * (Pᴴ * (M * R)) = Rᴴ * (Mᴴ * M * R) := by
  have hcomplete : P * Pᴴ = 1 := mul_eq_one_comm.mp hP
  calc (Pᴴ * (M * R))ᴴ * (Pᴴ * (M * R)) = Rᴴ * (Mᴴ * (P * Pᴴ) * (M * R)) := by
        simp only [conjTranspose_mul, conjTranspose_conjTranspose, Matrix.mul_assoc]
    _ = Rᴴ * (Mᴴ * M * R) := by rw [hcomplete, Matrix.mul_one, ← Matrix.mul_assoc Mᴴ]

/-- A system turned on both sides has the turned solution, or none if there was none. -/
theorem solve_turned (hS : S.IsExact) (hS' : S'.IsExact) {l : ℕ}
    {P R : Matrix (Fin k) (Fin k) ℂ} {T : Matrix (Fin l) (Fin l) ℂ} (hP : Pᴴ * P = 1)
    (hR : Rᴴ * R = 1) {A A' : Mat (Cplx ℝ) k k} {B B' : Mat (Cplx ℝ) k l}
    (hA : A'.toMatrix = Pᴴ * (A.toMatrix * R)) (hB : B'.toMatrix = Pᴴ * (B.toMatrix * T)) :
    (S'.solve A' B').map Mat.toMatrix =
      (S.solve A B).map fun X => Rᴴ * (X.toMatrix * T) := by
  have hdet := det_mul_mul_eq_zero_iff hP hR A.toMatrix
  rw [← hA] at hdet
  by_cases hregular : A.toMatrix.det = 0
  · rw [hS.solve_singular _ hregular, hS'.solve_singular _ (hdet.mpr hregular), Option.map_none,
      Option.map_none]
  · have hinverse : A'.toMatrix⁻¹ = Rᴴ * (A.toMatrix⁻¹ * P) := by
      rw [hA, Matrix.mul_inv_rev, Matrix.mul_inv_rev, inv_eq_left_inv hR, inv_eq_right_inv hP,
        Matrix.mul_assoc]
    have hcomplete : P * Pᴴ = 1 := mul_eq_one_comm.mp hP
    have hsolution : A'.toMatrix⁻¹ * B'.toMatrix = Rᴴ * (A.toMatrix⁻¹ * B.toMatrix * T) := by
      calc A'.toMatrix⁻¹ * B'.toMatrix
          = Rᴴ * (A.toMatrix⁻¹ * ((P * Pᴴ) * (B.toMatrix * T))) := by
            rw [hinverse, hB]
            simp only [Matrix.mul_assoc]
        _ = Rᴴ * (A.toMatrix⁻¹ * B.toMatrix * T) := by
            rw [hcomplete, Matrix.one_mul, Matrix.mul_assoc]
    rw [hS.solve_regular _ hregular, hS'.solve_regular _ (hdet.not.mpr hregular),
      Option.map_some, Option.map_some, Mat.toMatrix_ofMatrix, Mat.toMatrix_ofMatrix, hsolution]

/-- A result that a flag may hold back says the same as another such result if the two say
the same when they are let through. -/
theorem map_flagged_congr {β γ δ : Type} {f : β → δ} {f' : γ → δ} {x : Option β} {y : Option γ}
    (h : x.map f = y.map f') (flag : Outcome ℝ Bool) :
    (flag.map fun singular => if singular then none else x).map (Option.map f) =
      (flag.map fun singular => if singular then none else y).map (Option.map f') := by
  cases flag with
  | error e => rfl
  | ok singular =>
    cases singular with
    | true => rfl
    | false => exact congrArg Except.ok h

/-! ## Two changes of basis side by side -/

section Blockwise

variable {l : ℕ} {P : Matrix (Fin k) (Fin k) ℂ} {R : Matrix (Fin l) (Fin l) ℂ}

/-- The change of basis of two matrices side by side. -/
def blockwise (P : Matrix (Fin k) (Fin k) ℂ) (R : Matrix (Fin l) (Fin l) ℂ) :
    Matrix (Fin (k + l)) (Fin (k + l)) ℂ :=
  (fromBlocks P 0 0 R).submatrix finSumFinEquiv.symm finSumFinEquiv.symm

theorem blockwise_orthonormal (hP : Pᴴ * P = 1) (hR : Rᴴ * R = 1) :
    (blockwise P R)ᴴ * blockwise P R = 1 := by
  rw [blockwise, conjTranspose_submatrix, fromBlocks_conjTranspose, submatrix_mul_equiv,
    fromBlocks_multiply]
  simp [hP, hR, submatrix_one_equiv]

theorem beside_eq_mul_blockwise {A A' : Mat (Cplx ℝ) m k} {B B' : Mat (Cplx ℝ) m l}
    (hA : A'.toMatrix = A.toMatrix * P) (hB : B'.toMatrix = B.toMatrix * R) :
    (A'.beside B').toMatrix = (A.beside B).toMatrix * blockwise P R := by
  rw [Mat.toMatrix_beside_mul]
  ext i j
  induction j using Fin.addCases with
  | left j =>
    have hentry := congrFun (congrFun hA i) j
    rw [Matrix.mul_apply] at hentry
    simpa [Mat.toMatrix_apply, Mat.beside, blockwise, Matrix.mul_apply] using hentry
  | right j =>
    have hentry := congrFun (congrFun hB i) j
    rw [Matrix.mul_apply] at hentry
    simpa [Mat.toMatrix_apply, Mat.beside, blockwise, Matrix.mul_apply] using hentry

theorem blockwise_mul_upper (X : Matrix (Fin (k + l)) (Fin n) ℂ) :
    ((blockwise P R)ᴴ * X).submatrix (Fin.castAdd l) id = Pᴴ * X.submatrix (Fin.castAdd l) id := by
  ext i j
  simp [blockwise, Matrix.mul_apply, Fin.sum_univ_add]

theorem blockwise_mul_lower (X : Matrix (Fin (k + l)) (Fin n) ℂ) :
    ((blockwise P R)ᴴ * X).submatrix (Fin.natAdd k) id = Rᴴ * X.submatrix (Fin.natAdd k) id := by
  ext i j
  simp [blockwise, Matrix.mul_apply, Fin.sum_univ_add]

end Blockwise

section BasisChange

variable {U₁ U₂ U₁' U₂' : Mat (Cplx ℝ) m k} {Q : Matrix (Fin k) (Fin k) ℂ}

/-! ## Least squares -/

theorem leastSquares_basis (hS : S.IsExact) (hS' : S'.IsExact) (hQ : Qᴴ * Q = 1)
    (h₁ : U₁'.toMatrix = U₁.toMatrix * Q) (h₂ : U₂'.toMatrix = U₂.toMatrix * Q)
    (tolerance : Outcome ℝ ℝ) :
    (leastSquares S tolerance U₁ U₂).map (Option.map invariant) =
      (leastSquares S' tolerance U₁' U₂').map (Option.map invariant) := by
  have hcross : ∀ {V V' : Mat (Cplx ℝ) m k}, V'.toMatrix = V.toMatrix * Q →
      (U₁'.adjoint * V').toMatrix = Qᴴ * ((U₁.adjoint * V).toMatrix * Q) := by
    intro V V' hV
    simp only [Mat.toMatrix_mul, Mat.toMatrix_adjoint, h₁, hV, conjTranspose_mul,
      Matrix.mul_assoc]
  have hflag : isSingular S tolerance (U₁.adjoint * U₁) =
      isSingular S' tolerance (U₁'.adjoint * U₁') := by
    apply isSingular_congr hS hS'
    rw [hcross h₁, gram_mul hQ, charpoly_conj hQ]
  have hsolve : (S.solve (U₁.adjoint * U₁) (U₁.adjoint * U₂)).map invariant =
      (S'.solve (U₁'.adjoint * U₁') (U₁'.adjoint * U₂')).map invariant := by
    have hturned := congrArg (Option.map charpoly)
      (solve_turned hS hS' hQ hQ (hcross h₁) (hcross h₂))
    rw [Option.map_map, Option.map_map] at hturned
    refine Eq.trans ?_ hturned.symm
    congr 1
    funext Ψ
    exact (charpoly_conj hQ Ψ.toMatrix).symm
  rw [leastSquares_eq, leastSquares_eq, hflag]
  exact map_flagged_congr hsolve _

/-! ## Total least squares -/

/-- The singular values of `[U₁ | U₂]` fall after the first `k` of them; those beyond the
smaller extent are zero. -/
def HasGap (S : Solvers ℝ) (hk : 0 < k) (U₁ U₂ : Mat (Cplx ℝ) m k) : Prop :=
  padded (S.singularValues (U₁.beside U₂)).get ⟨k, Nat.lt_add_of_pos_left hk⟩ <
    padded (S.singularValues (U₁.beside U₂)).get
      ⟨k - 1, (Nat.sub_le k 1).trans_lt (Nat.lt_add_of_pos_left hk)⟩

/-- Sub-arrays that differ by a shift have that gap. -/
theorem hasGap_of_shift (hS : S.IsExact) (hk : 0 < k) {Ψ : Matrix (Fin k) (Fin k) ℂ}
    (hU₁ : (U₁.toMatrixᴴ * U₁.toMatrix).det ≠ 0) (hshift : U₂.toMatrix = U₁.toMatrix * Ψ) :
    HasGap S hk U₁ U₂ := by
  have hV := hS.singular_basis (U₁.beside U₂)
  have hrank : k ≤ (U₁.beside U₂).toMatrix.rank := by
    calc k = (U₁.toMatrixᴴ * U₁.toMatrix).rank := by
          rw [rank_of_isUnit _ ((isUnit_iff_isUnit_det _).mpr hU₁.isUnit), Fintype.card_fin]
      _ = U₁.toMatrix.rank := rank_conjTranspose_mul_self _
      _ ≤ (U₁.beside U₂).toMatrix.rank := by
          rw [← Mat.toMatrix_beside_left U₁ U₂]
          exact rank_submatrix_le _ _ _
  rw [HasGap]
  have hzero := hV.eq_zero_of_rank_le (rank_beside_le hshift)
    (j := ⟨k, Nat.lt_add_of_pos_left hk⟩) le_rfl
  have hpos := hV.pos_of_le_rank hrank (j := ⟨k - 1, by omega⟩) (Nat.sub_lt hk one_pos)
  exact hzero.trans_lt hpos

/-- The blocks of right singular vectors in two bases differ by unitary matrices. -/
theorem exists_unitary_blocks (hS : S.IsExact) (hS' : S'.IsExact) (hQ : Qᴴ * Q = 1)
    (h₁ : U₁'.toMatrix = U₁.toMatrix * Q) (h₂ : U₂'.toMatrix = U₂.toMatrix * Q) {hk : 0 < k}
    (hgap : HasGap S hk U₁ U₂) :
    ∃ R : Matrix (Fin k) (Fin k) ℂ, Rᴴ * R = 1 ∧
      (upperBlock (S'.rightSingular (U₁'.beside U₂')).2).toMatrix =
        Qᴴ * ((upperBlock (S.rightSingular (U₁.beside U₂)).2).toMatrix * R) ∧
      (lowerBlock (S'.rightSingular (U₁'.beside U₂')).2).toMatrix =
        Qᴴ * ((lowerBlock (S.rightSingular (U₁.beside U₂)).2).toMatrix * R) := by
  have hV := hS.singular_basis (U₁.beside U₂)
  have hV' := hS'.singular_basis (U₁'.beside U₂')
  have hblock := blockwise_orthonormal hQ hQ
  have hgram : (U₁'.beside U₂').toMatrixᴴ * (U₁'.beside U₂').toMatrix =
      (blockwise Q Q)ᴴ * ((U₁.beside U₂).toMatrixᴴ * (U₁.beside U₂).toMatrix * blockwise Q Q) := by
    rw [beside_eq_mul_blockwise h₁ h₂, conjTranspose_mul]
    simp only [Matrix.mul_assoc]
  have hvalues := hV.values_unique hV' (by rw [hgram, charpoly_conj hblock])
  have hturned := hV.gram.conj hblock
  have hbasis' := hV'.gram
  rw [hgram, ← hvalues] at hbasis'
  have hseparate : ∀ i ∉ Set.range (Fin.natAdd k : Fin k → Fin (k + k)), ∀ a : Fin k,
      padded (S.rightSingular (U₁.beside U₂)).1.get i ^ 2 ≠
        padded (S.rightSingular (U₁.beside U₂)).1.get (Fin.natAdd k a) ^ 2 := by
    intro i hi a
    induction i using Fin.addCases with
    | right i => exact absurd ⟨i, rfl⟩ hi
    | left i =>
      have hantitone := padded_antitone hV.descending hV.nonneg
      have hfirst : (Fin.castAdd k i : Fin (k + k)) ≤ ⟨k - 1, by omega⟩ := Nat.le_sub_one_of_lt i.2
      have hlast : (⟨k, Nat.lt_add_of_pos_left hk⟩ : Fin (k + k)) ≤ Fin.natAdd k a :=
        Nat.le_add_right k a
      have hlt := ((hantitone hlast).trans_lt hgap).trans_le (hantitone hfirst)
      exact (pow_lt_pow_left₀ hlt (padded_nonneg hV.nonneg _) two_ne_zero).ne'
  obtain ⟨R, hR, hcolumns⟩ := hturned.exists_unitary hbasis' (Fin.natAdd_injective k k) hseparate
  rw [submatrix_mul _ _ id id _ Function.bijective_id, submatrix_id_id, Matrix.mul_assoc]
    at hcolumns
  refine ⟨R, hR, ?_, ?_⟩
  · rw [toMatrix_upperBlock, toMatrix_upperBlock]
    exact (congrArg (fun M => M.submatrix (Fin.castAdd k) id) hcolumns).trans
      (blockwise_mul_upper _)
  · rw [toMatrix_lowerBlock, toMatrix_lowerBlock]
    exact (congrArg (fun M => M.submatrix (Fin.natAdd k) id) hcolumns).trans
      (blockwise_mul_lower _)

/-- The quotient of two blocks turned alike is turned on both sides. -/
theorem quotient_basis (hS : S.IsExact) (hS' : S'.IsExact) (hQ : Qᴴ * Q = 1)
    {R : Matrix (Fin k) (Fin k) ℂ} (hR : Rᴴ * R = 1) {W L W' L' : Mat (Cplx ℝ) k k}
    (hW : W'.toMatrix = Qᴴ * (W.toMatrix * R)) (hL : L'.toMatrix = Qᴴ * (L.toMatrix * R)) :
    (S.inverse L).map (fun inv => invariant (-W * inv)) =
      (S'.inverse L').map fun inv => invariant (-W' * inv) := by
  have hidentity : (Mat.identity k : Mat (Cplx ℝ) k k).toMatrix =
      Qᴴ * ((Mat.identity k : Mat (Cplx ℝ) k k).toMatrix * Q) := by
    rw [Mat.toMatrix_identity, Matrix.one_mul, hQ]
  have hturned := congrArg (Option.map fun M => (-W'.toMatrix * M).charpoly)
    (solve_turned hS hS' hQ hR hL hidentity)
  rw [Option.map_map, Option.map_map] at hturned
  have hread : ∀ (W inv : Mat (Cplx ℝ) k k),
      invariant (-W * inv) = (-W.toMatrix * inv.toMatrix).charpoly := by
    intro W inv
    rw [invariant, Mat.toMatrix_mul, Mat.toMatrix_neg]
  have hcomplete : R * Rᴴ = 1 := mul_eq_one_comm.mp hR
  simp only [Solvers.inverse, hread]
  refine Eq.trans ?_ hturned.symm
  congr 1
  funext inv
  calc (-W.toMatrix * inv.toMatrix).charpoly
      = (Qᴴ * (-W.toMatrix * inv.toMatrix * Q)).charpoly := (charpoly_conj hQ _).symm
    _ = (-W'.toMatrix * (Rᴴ * (inv.toMatrix * Q))).charpoly := by
        congr 1
        rw [hW]
        simp only [Matrix.neg_mul, Matrix.mul_neg, Matrix.mul_assoc]
        rw [← Matrix.mul_assoc R Rᴴ, hcomplete, Matrix.one_mul]

theorem totalLeastSquares_basis (hS : S.IsExact) (hS' : S'.IsExact) (hQ : Qᴴ * Q = 1)
    (h₁ : U₁'.toMatrix = U₁.toMatrix * Q) (h₂ : U₂'.toMatrix = U₂.toMatrix * Q) {hk : 0 < k}
    (hgap : HasGap S hk U₁ U₂) (tolerance : Outcome ℝ ℝ) :
    (totalLeastSquares S tolerance U₁ U₂).map (Option.map invariant) =
      (totalLeastSquares S' tolerance U₁' U₂').map (Option.map invariant) := by
  obtain ⟨R, hR, hupper, hlower⟩ := exists_unitary_blocks hS hS' hQ h₁ h₂ hgap
  have hflag : isSingular S tolerance (lowerBlock (S.rightSingular (U₁.beside U₂)).2) =
      isSingular S' tolerance (lowerBlock (S'.rightSingular (U₁'.beside U₂')).2) := by
    apply isSingular_congr hS hS'
    rw [hlower, gram_mul hQ, charpoly_conj hR]
  have hquotient := quotient_basis hS hS' hQ hR hupper hlower
  rw [totalLeastSquares_eq, totalLeastSquares_eq, hflag]
  apply map_flagged_congr
  rw [Option.map_map, Option.map_map]
  exact hquotient

/-- Either fit is the same in every basis. -/
theorem fit_basis (hS : S.IsExact) (hS' : S'.IsExact) (hQ : Qᴴ * Q = 1)
    (h₁ : U₁'.toMatrix = U₁.toMatrix * Q) (h₂ : U₂'.toMatrix = U₂.toMatrix * Q) (hk : 0 < k)
    (kind : RotationFit) (hgap : kind = .totalLeastSquares → HasGap S hk U₁ U₂)
    (tolerance : Outcome ℝ ℝ) :
    (fit S kind tolerance U₁ U₂).map (Option.map invariant) =
      (fit S' kind tolerance U₁' U₂').map (Option.map invariant) := by
  cases kind with
  | leastSquares => exact leastSquares_basis hS hS' hQ h₁ h₂ tolerance
  | totalLeastSquares => exact totalLeastSquares_basis hS hS' hQ h₁ h₂ (hgap rfl) tolerance

end BasisChange

end PhasedArray.Rotation
