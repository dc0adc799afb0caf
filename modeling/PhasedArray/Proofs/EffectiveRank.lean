import PhasedArray.Proofs.Exact.Ideal
import PhasedArray.Proofs.Exact.Reading
import PhasedArray.Proofs.Manifold
import PhasedArray.Proofs.MirroredSnapshots

set_option autoImplicit false

/-!
# The effective rank of a sample covariance (SPEC §4.2)

The eigenvalues above a bound that is not negative are among those that are not zero, so an
effective rank does not exceed the rank of the matrix, whatever the bound is made of.  The rank of
a sample covariance is at most that of the snapshots behind it, those of averaging included.
Mirroring multiplies each steering vector by a number, so the mirrored snapshots of a noiseless
scene lie in the span of the same steering vectors, and averaging adds no dimension.
-/

namespace PhasedArray.Covariance

open Matrix
open scoped ComplexOrder

variable {m n p k : ℕ}

/-! ## Counted eigenvalues -/

theorem roundingError_nonneg (values : List ℝ) (m : ℕ) : 0 ≤ roundingError values m := by
  have hulp : (0 : ℝ) ≤ Scalar.ulpOfOne := by
    rw [Scalar.ulpOfOne, Exact.scalar_ofNat]
    positivity
  have hmagnitude : 0 ≤ largestMagnitude values := Exact.maximum_abs_nonneg values
  rw [roundingError, Exact.scalar_ofNat]
  positivity

/-- The entries of a vector that are not zero. -/
theorem countP_ne_zero (values : Vector ℝ n) :
    (values.toList.countP fun x => decide (x ≠ 0)) = Fintype.card {i // values.get i ≠ 0} := by
  rw [Fintype.card_subtype, ← Multiset.coe_countP, Vec.toList_eq_ofFn, ← Fin.univ_val_map,
    Multiset.countP_map]
  rfl

/-- No more eigenvalues lie above a bound that is not negative than the rank of the matrix. -/
theorem effectiveRank_le_rank {S : Solvers ℝ} (hS : S.IsHermitianExact) {C : Mat (Cplx ℝ) m m}
    (hC : C.toMatrix.IsHermitian) {tolerance : Option ℝ} (ht : ∀ t ∈ tolerance, 0 ≤ t) :
    effectiveRank S C tolerance ≤ C.toMatrix.rank := by
  have hbound : 0 ≤ tolerance.getD (roundingError (S.hermitianValues C).toList m) := by
    cases tolerance with
    | none => exact roundingError_nonneg _ m
    | some t => exact ht t rfl
  have hvalues : S.hermitianValues C = (S.hermitian C).1 := by
    rw [Solvers.hermitianValues, Mat.ofLower_eq_self hC]
  rw [← (hS.hermitian_basis C hC).card_ne_zero, ← countP_ne_zero, ← hvalues]
  apply List.countP_mono_left
  intro x _ habove
  have hpos : 0 < x := hbound.trans_lt (of_decide_eq_true habove)
  exact decide_eq_true hpos.ne'

/-! ## The rank of snapshots -/

theorem rank_sample_false_le (X : Mat (Cplx ℝ) m n) :
    (sample false X).toMatrix.rank ≤ X.toMatrix.rank := by
  rw [sample_false, toMatrix_outerMean, ← Matrix.mul_smul]
  exact rank_mul_le_left _ _

/-- Averaging counts every snapshot twice at most. -/
theorem rank_sample_le (averaging : Bool) (X : Mat (Cplx ℝ) m n) :
    (sample averaging X).toMatrix.rank ≤ min m (if averaging then 2 * n else n) := by
  apply le_min (rank_le_height _)
  cases averaging with
  | false => exact (rank_sample_false_le X).trans (rank_le_width _)
  | true =>
    rw [sample_true_eq, if_pos rfl, two_mul]
    exact (rank_sample_false_le _).trans (rank_le_width _)

/-- Columns that are combinations of the same ones are so side by side. -/
theorem toMatrix_beside_of_mul {A : Matrix (Fin m) (Fin k) ℂ} {X : Mat (Cplx ℝ) m n}
    {Y : Mat (Cplx ℝ) m p} {P : Mat (Cplx ℝ) k n} {Q : Mat (Cplx ℝ) k p}
    (hX : X.toMatrix = A * P.toMatrix) (hY : Y.toMatrix = A * Q.toMatrix) :
    (X.beside Y).toMatrix = A * (P.beside Q).toMatrix := by
  ext i j
  induction j using Fin.addCases with
  | left j =>
    have hentry := congrFun (congrFun hX i) j
    simpa [Mat.beside, Mat.toMatrix_apply, Matrix.mul_apply] using hentry
  | right j =>
    have hentry := congrFun (congrFun hY i) j
    simpa [Mat.beside, Mat.toMatrix_apply, Matrix.mul_apply] using hentry

/-- Mirroring turns each steering vector by a factor. -/
theorem exists_mirrored_eq_mul (g : Geometry ℝ) (θ : Vector ℝ k) (symbols : Mat (Cplx ℝ) k n) :
    ∃ turned : Mat (Cplx ℝ) k n,
      (mirrored (g.steeringMatrix θ * symbols)).toMatrix =
        (g.steeringMatrix θ).toMatrix * turned.toMatrix := by
  let z : Fin k → ℂ := fun j => g.phasor (θ.get j)
  refine ⟨Mat.ofMatrix (diagonal (fun j => star (z j) ^ (g.size - 1)) * symbols.toMatrix.map star),
    ?_⟩
  have hreversed := nodes_reversed (m := g.size) (z := z) fun j => g.norm_phasor (θ.get j)
  rw [toMatrix_mirrored, Mat.toMatrix_mul, Geometry.toMatrix_steeringMatrix, map_star_mul,
    submatrix_mul _ _ Fin.rev id id Function.bijective_id, hreversed, Mat.toMatrix_ofMatrix,
    Matrix.mul_assoc]
  rfl

/-- Noiseless snapshots span no more dimensions than there are directions, averaged or not. -/
theorem rank_sample_noiseless_le (g : Geometry ℝ) (θ : Vector ℝ k) (symbols : Mat (Cplx ℝ) k n)
    (averaging : Bool) :
    (sample averaging (g.steeringMatrix θ * symbols)).toMatrix.rank ≤ k := by
  have hcolumns : ∀ {p : ℕ} {X : Mat (Cplx ℝ) g.size p} (P : Mat (Cplx ℝ) k p),
      X.toMatrix = (g.steeringMatrix θ).toMatrix * P.toMatrix →
      (sample false X).toMatrix.rank ≤ k := by
    intro p X P hX
    refine (rank_sample_false_le X).trans ?_
    rw [hX]
    exact (rank_mul_le_left _ _).trans (rank_le_width _)
  have hsymbols := Mat.toMatrix_mul (g.steeringMatrix θ) symbols
  cases averaging with
  | false => exact hcolumns symbols hsymbols
  | true =>
    obtain ⟨turned, hturned⟩ := exists_mirrored_eq_mul g θ symbols
    rw [sample_true_eq]
    exact hcolumns (symbols.beside turned) (toMatrix_beside_of_mul hsymbols hturned)

/-! ## Requests -/

/-- The tolerance is left out, or is a number that is not negative. -/
def IsTolerance (tolerance : Setting ℝ) : Prop :=
  tolerance = .nothing ∨ ∃ t : Number ℝ, 0 ≤ t.value ∧ tolerance = .number t

/-- The effective rank of a square matrix is counted with such a tolerance as the bound. -/
theorem exists_effectiveRankAny_ofMat (S : Solvers ℝ) (C : Mat (Cplx ℝ) m m)
    {tolerance : Setting ℝ} (ht : IsTolerance tolerance) :
    ∃ bound : Option ℝ, (∀ t ∈ bound, 0 ≤ t) ∧
      effectiveRankAny S (.ofMat C) tolerance = .ok (effectiveRank S C bound) := by
  have hfinite : (Tensor.ofMat C).isFinite = true := by
    simp [Tensor.isFinite]
  have hread : (Tensor.ofMat C).toSolver = .ok (.ofMat C) := rfl
  have hsquare := Tensor.asSquare?_ofMat C
  rcases ht with rfl | ⟨t, ht, rfl⟩
  · refine ⟨none, by simp, ?_⟩
    rw [effectiveRankAny, hread]
    dsimp only [bind, Except.bind]
    rw [hfinite, hsquare]
    rfl
  · refine ⟨some t.value, by simpa using ht, ?_⟩
    rw [effectiveRankAny, hread]
    dsimp only [bind, Except.bind]
    rw [hfinite, hsquare]
    dsimp only
    rw [Setting.toBounds_number]
    rfl

/-- An effective rank does not exceed what the data can span.  With or without a tolerance, that
of the sample covariance of `n` snapshots of `m` elements is at most `m` and at most `n`, or twice
`n` with averaging; and that of noiseless snapshots is at most the number of directions, with
averaging as without it. -/
theorem effectiveRank_le_data {S : Solvers ℝ} (hS : S.IsHermitianExact) {tolerance : Setting ℝ}
    (ht : IsTolerance tolerance) (averaging : Bool) {n : ℕ} (hn : 0 < n) :
    (∀ {m : ℕ}, 0 < m → ∀ X : Mat (Cplx ℝ) m n,
      ∃ r, rankOfSnapshots S averaging (.ofMat X) tolerance = .ok r ∧
        r ≤ min m (if averaging then 2 * n else n)) ∧
    ∀ (g : Geometry ℝ) {k : ℕ} (θ : Vector ℝ k) (symbols : Mat (Cplx ℝ) k n),
      ∃ r, rankOfSnapshots S averaging (.ofMat (g.steeringMatrix θ * symbols)) tolerance = .ok r ∧
        r ≤ k := by
  have hrank : ∀ {m : ℕ}, 0 < m → ∀ X : Mat (Cplx ℝ) m n,
      ∃ r, rankOfSnapshots S averaging (.ofMat X) tolerance = .ok r ∧
        r ≤ (sample averaging X).toMatrix.rank := by
    intro m hm X
    obtain ⟨bound, hbound, heq⟩ := exists_effectiveRankAny_ofMat S (sample averaging X) ht
    refine ⟨_, ?_, effectiveRank_le_rank hS (posSemidef_sample averaging X).isHermitian hbound⟩
    rw [rankOfSnapshots, Snapshots.ofTensor_ofMat hm hn X.isFinite_eq_true]
    exact heq
  constructor
  · intro m hm X
    obtain ⟨r, hr, hle⟩ := hrank hm X
    exact ⟨r, hr, hle.trans (rank_sample_le averaging X)⟩
  · intro g k θ symbols
    obtain ⟨r, hr, hle⟩ := hrank g.size_pos (g.steeringMatrix θ * symbols)
    exact ⟨r, hr, hle.trans (rank_sample_noiseless_le g θ symbols averaging)⟩

/-- Eight elements that hear two sources in five snapshots, averaged. -/
theorem effectiveRank_le_data_standard :
    ∃ r, rankOfSnapshots .ideal true
        (.ofMat (Geometry.standard.steeringMatrix #v[0, Real.pi / 6] *
          Mat.of fun (i : Fin 2) (j : Fin 5) => Cplx.ofReal (i.val + j.val : ℝ))) .nothing = .ok r ∧
      r ≤ 2 := by
  obtain ⟨-, hnoiseless⟩ := effectiveRank_le_data (n := 5) Solvers.ideal_isExact.toIsHermitianExact
    (.inl rfl) true (by decide)
  exact hnoiseless .standard #v[0, Real.pi / 6] _

end PhasedArray.Covariance
