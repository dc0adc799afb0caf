import PhasedArray.Proofs.Eigenbasis
import PhasedArray.Proofs.Exact.Matrix
import PhasedArray.Solvers

set_option autoImplicit false

/-!
# Exact solvers

What a `Solvers` record promises, said of the real numbers, where a solver can keep its
word: eigenvectors are orthonormal and belong to their eigenvalues, singular vectors
belong to a factorisation, a regular system has its one solution and a singular one has
none.  The promise leaves every choice open that the mathematics leaves open, so a
statement about all exact solvers is a statement about every basis one may return.
-/

namespace PhasedArray

open Matrix
open scoped ComplexOrder

variable {m n p : ℕ}

/-! ## Singular values -/

/-- The singular value of column `j`; columns beyond the smaller extent have zero. -/
def padded (σ : Fin (min m n) → ℝ) (j : Fin n) : ℝ :=
  if h : j.val < min m n then σ ⟨j, h⟩ else 0

/-- The matrix with the singular values on its diagonal. -/
def rectangular (σ : Fin (min m n) → ℝ) : Matrix (Fin m) (Fin n) ℂ :=
  Matrix.of fun i j => if i.val = j.val then (padded σ j : ℂ) else 0

/-- The numbers `σ`, descending and not negative, and the unitary matrix `V` are singular
values and right singular vectors of `A`. -/
structure IsSingularBasis (A : Matrix (Fin m) (Fin n) ℂ) (V : Matrix (Fin n) (Fin n) ℂ)
    (σ : Fin (min m n) → ℝ) : Prop where
  nonneg : ∀ i, 0 ≤ σ i
  descending : Antitone σ
  orthonormal : Vᴴ * V = 1
  factor : ∃ U : Matrix (Fin m) (Fin m) ℂ, Uᴴ * U = 1 ∧ A = U * rectangular σ * Vᴴ

/-- The singular values stand in front. -/
theorem padded_castLE (σ : Fin (min m n) → ℝ) (i : Fin (min m n)) :
    padded σ (i.castLE (min_le_right m n)) = σ i := dif_pos i.isLt

theorem padded_nonneg {σ : Fin (min m n) → ℝ} (h : ∀ i, 0 ≤ σ i) (j : Fin n) :
    0 ≤ padded σ j := by
  unfold padded
  split_ifs
  · exact h _
  · exact le_rfl

theorem padded_antitone {σ : Fin (min m n) → ℝ} (hσ : Antitone σ) (h : ∀ i, 0 ≤ σ i) :
    Antitone (padded σ) := by
  intro i j hij
  by_cases hj : j.val < min m n
  · have hi : i.val < min m n := lt_of_le_of_lt hij hj
    rw [padded, padded, dif_pos hi, dif_pos hj]
    exact hσ hij
  · rw [padded, dif_neg hj]
    exact padded_nonneg h i

theorem padded_injective : Function.Injective (padded (m := m) (n := n)) := by
  intro σ τ h
  funext i
  have hi : i.val < n := lt_of_lt_of_le i.isLt (min_le_right m n)
  have hentry := congrFun h ⟨i, hi⟩
  rw [padded, padded, dif_pos i.isLt, dif_pos i.isLt] at hentry
  exact hentry

theorem rectangular_gram (σ : Fin (min m n) → ℝ) :
    (rectangular σ)ᴴ * rectangular σ = diagonal fun j => ((padded σ j ^ 2 : ℝ) : ℂ) := by
  ext j k
  rw [Matrix.mul_apply, diagonal_apply]
  simp only [conjTranspose_apply, rectangular, Matrix.of_apply]
  by_cases hj : j.val < m
  · rw [Finset.sum_eq_single ⟨j, hj⟩]
    · by_cases hjk : j = k
      · subst hjk
        simp [pow_two]
      · have hne : ¬ j.val = k.val := fun h => hjk (Fin.ext h)
        simp [hjk, hne]
    · intro i _ hi
      have hne : ¬ i.val = j.val := fun h => hi (Fin.ext h)
      simp [hne]
    · simp
  · have hzero : padded σ j = 0 := dif_neg fun h => hj (lt_of_lt_of_le h (min_le_left m n))
    simp [hzero]

namespace IsSingularBasis

variable {A B : Matrix (Fin m) (Fin n) ℂ} {V W : Matrix (Fin n) (Fin n) ℂ}
  {σ τ : Fin (min m n) → ℝ}

/-- Right singular vectors are eigenvectors of the products of the columns, for the squares
of the singular values. -/
theorem gram (h : IsSingularBasis A V σ) :
    IsEigenbasis (Aᴴ * A) V fun j => padded σ j ^ 2 where
  orthonormal := h.orthonormal
  eigen := by
    obtain ⟨U, hU, hA⟩ := h.factor
    have hAV : A * V = U * rectangular σ := by
      rw [hA, Matrix.mul_assoc, h.orthonormal, Matrix.mul_one]
    calc Aᴴ * A * V = V * ((rectangular σ)ᴴ * (Uᴴ * U) * rectangular σ) := by
          rw [Matrix.mul_assoc, hAV, hA]
          simp only [conjTranspose_mul, conjTranspose_conjTranspose, Matrix.mul_assoc]
      _ = V * diagonal fun j => ((padded σ j ^ 2 : ℝ) : ℂ) := by
          rw [hU, Matrix.mul_one, rectangular_gram]

theorem gram_antitone (h : IsSingularBasis A V σ) : Antitone fun j => padded σ j ^ 2 :=
  fun _ _ hij => pow_le_pow_left₀ (padded_nonneg h.nonneg _)
    (padded_antitone h.descending h.nonneg hij) 2

/-- The singular values depend only on the characteristic polynomial of the products of the
columns. -/
theorem values_unique (h : IsSingularBasis A V σ) (h' : IsSingularBasis B W τ)
    (hgram : (Aᴴ * A).charpoly = (Bᴴ * B).charpoly) : σ = τ := by
  have hsquares := h.gram.values_unique h'.gram h.gram_antitone h'.gram_antitone hgram
  apply padded_injective
  funext j
  exact (pow_left_inj₀ (padded_nonneg h.nonneg j) (padded_nonneg h'.nonneg j) two_ne_zero).mp
    (congrFun hsquares j)

/-- The singular values of a contraction are at most one. -/
theorem padded_le_one (h : IsSingularBasis A V σ) (hA : (1 - Aᴴ * A).PosSemidef) (j : Fin n) :
    padded σ j ≤ 1 :=
  (sq_le_one_iff₀ (padded_nonneg h.nonneg j)).mp (sub_nonneg.mp (h.gram.lack.nonneg hA j))

/-- Beyond the rank the singular values are zero. -/
theorem eq_zero_of_rank_le (h : IsSingularBasis A V σ) {k : ℕ} (hrank : A.rank ≤ k) {j : Fin n}
    (hj : k ≤ j.val) : padded σ j = 0 := by
  have hcard : Fintype.card {i // padded σ i ^ 2 ≠ 0} ≤ k := by
    rw [h.gram.card_ne_zero, rank_conjTranspose_mul_self]
    exact hrank
  exact pow_eq_zero_iff two_ne_zero |>.mp
    (eq_zero_of_card_le h.gram_antitone (fun i => sq_nonneg _) hcard hj)

/-- Up to the rank the singular values are positive. -/
theorem pos_of_le_rank (h : IsSingularBasis A V σ) {k : ℕ} (hrank : k ≤ A.rank) {j : Fin n}
    (hj : j.val < k) : 0 < padded σ j := by
  have hcard : k ≤ Fintype.card {i // padded σ i ^ 2 ≠ 0} := by
    rw [h.gram.card_ne_zero, rank_conjTranspose_mul_self]
    exact hrank
  have hpos := pos_of_le_card h.gram_antitone (fun i => sq_nonneg _) hcard hj
  exact lt_of_le_of_ne (padded_nonneg h.nonneg j) fun hzero => by simp [← hzero] at hpos

/-- A right singular vector for the singular value zero is in the kernel. -/
theorem mul_apply_eq_zero (h : IsSingularBasis A V σ) {j : Fin n} (hj : padded σ j = 0)
    (i : Fin m) : (A * V) i j = 0 := by
  obtain ⟨U, -, hA⟩ := h.factor
  rw [hA, Matrix.mul_assoc, h.orthonormal, Matrix.mul_one, Matrix.mul_apply]
  apply Finset.sum_eq_zero
  intro k _
  simp [rectangular, hj]

end IsSingularBasis

/-! ## Exactness -/

/-- A Hermitian solver whose answers are orthonormal eigenbases, in ascending order. -/
structure Solvers.IsHermitianExact (S : Solvers ℝ) : Prop where
  hermitian_basis : ∀ {n : ℕ} (A : Mat (Cplx ℝ) n n), A.toMatrix.IsHermitian →
    IsEigenbasis A.toMatrix (S.hermitian A).2.toMatrix (S.hermitian A).1.get
  hermitian_ascending : ∀ {n : ℕ} (A : Mat (Cplx ℝ) n n), A.toMatrix.IsHermitian →
    Monotone (S.hermitian A).1.get

/-- Solvers whose answers are those of linear algebra. -/
structure Solvers.IsExact (S : Solvers ℝ) : Prop extends S.IsHermitianExact where
  eigenvalues_roots : ∀ {n : ℕ} (A : Mat (Cplx ℝ) n n),
    Multiset.map Cplx.toComplex (S.eigenvalues A).toList = A.toMatrix.charpoly.roots
  singular_basis : ∀ {m n : ℕ} (A : Mat (Cplx ℝ) m n),
    IsSingularBasis A.toMatrix (S.rightSingular A).2.toMatrix (S.rightSingular A).1.get
  solve_iff : ∀ {n p : ℕ} (A : Mat (Cplx ℝ) n n) (B X : Mat (Cplx ℝ) n p),
    S.solve A B = some X ↔ A.toMatrix.det ≠ 0 ∧ A.toMatrix * X.toMatrix = B.toMatrix

namespace Solvers.IsExact

variable {S S' : Solvers ℝ}

/-- A regular system has its one solution. -/
theorem solve_regular (hS : S.IsExact) {A : Mat (Cplx ℝ) n n} (B : Mat (Cplx ℝ) n p)
    (hA : A.toMatrix.det ≠ 0) :
    S.solve A B = some (.ofMatrix (A.toMatrix⁻¹ * B.toMatrix)) := by
  rw [hS.solve_iff, Mat.toMatrix_ofMatrix]
  refine ⟨hA, ?_⟩
  rw [← Matrix.mul_assoc, mul_nonsing_inv _ hA.isUnit, Matrix.one_mul]

/-- A singular system has none. -/
theorem solve_singular (hS : S.IsExact) {A : Mat (Cplx ℝ) n n} (B : Mat (Cplx ℝ) n p)
    (hA : A.toMatrix.det = 0) : S.solve A B = none := by
  rw [Option.eq_none_iff_forall_ne_some]
  intro X hX
  exact ((hS.solve_iff A B X).mp hX).1 hA

/-- Singular values do not depend on the solver, and not on a change of orthonormal bases
on either side. -/
theorem singularValues_eq (hS : S.IsExact) (hS' : S'.IsExact) {A B : Mat (Cplx ℝ) m n}
    (hgram : (A.toMatrixᴴ * A.toMatrix).charpoly = (B.toMatrixᴴ * B.toMatrix).charpoly) :
    S.singularValues A = S'.singularValues B := by
  have hvalues := (hS.singular_basis A).values_unique (hS'.singular_basis B) hgram
  apply Vector.ext
  intro i hi
  exact congrFun hvalues ⟨i, hi⟩

end Solvers.IsExact

end PhasedArray
