import PhasedArray.Proofs.Exact.Solvers
import PhasedArray.Subspace

set_option autoImplicit false

/-!
# Signal and noise subspaces (SPEC §4.3)

What a decomposition has to be: the columns are an orthonormal eigenbasis of the
covariance and the eigenvalues descend (`Decomposition.IsSpectral`).  Exact solvers give
such a decomposition of every Hermitian matrix, and every statement about subspaces is
made of all of them.
-/

namespace PhasedArray.Decomposition

open Matrix

variable {m : ℕ}

/-- The eigenpairs of `D` are those of `C`, in descending order. -/
structure IsSpectral (D : Decomposition ℝ m) (C : Mat (Cplx ℝ) m m) : Prop where
  basis : IsEigenbasis C.toMatrix D.vectors.toMatrix D.values.get
  descending : Antitone D.values.get

/-- The smallest signal eigenvalue lies above the largest noise eigenvalue. -/
def HasGap (D : Decomposition ℝ m) : Prop :=
  D.values.get ⟨D.sources, D.sources.2.2⟩ <
    D.values.get ⟨D.sources - 1, Nat.lt_of_le_of_lt (Nat.sub_le _ _) D.sources.2.2⟩

/-! ## The descending order -/

theorem descending_injective (values : Vector ℝ m) :
    Function.Injective (descending values).get := by
  intro i j h
  have hnodup := (List.mergeSort_perm (List.finRange m) fun i j =>
    decide (values.get j ≤ values.get i)).nodup_iff.mpr (List.nodup_finRange m)
  have hlt : ∀ i : Fin m, i.val < ((List.finRange m).mergeSort fun i j =>
      decide (values.get j ≤ values.get i)).length := by simp
  rw [Vec.get_eq_getElem, Vec.get_eq_getElem] at h
  apply Fin.ext
  apply (@List.Nodup.getElem_inj_iff _ _ hnodup _ (hlt i) _ (hlt j)).mp
  simpa [descending] using h

/-- The places in descending order, as a permutation. -/
noncomputable def order (values : Vector ℝ m) : Equiv.Perm (Fin m) :=
  Equiv.ofBijective (descending values).get
    (Finite.injective_iff_bijective.mp (descending_injective values))

/-- The descending order: larger values first, and equal ones as they stood. -/
theorem order_precedes (values : Vector ℝ m) {i j : Fin m} (hij : i < j) :
    values.get (order values j) < values.get (order values i) ∨
      values.get (order values i) = values.get (order values j) ∧
        order values i < order values j := by
  have hsorted := Exact.descending_pairwise values.get (List.pairwise_lt_finRange m)
  have hpair := List.pairwise_iff_getElem.mp hsorted i j (by simp) (by simp) hij
  simpa [order, Vec.get_eq_getElem, descending] using hpair

theorem antitone_order (values : Vector ℝ m) : Antitone (values.get ∘ order values) := by
  intro i j hij
  rcases hij.eq_or_lt with rfl | hlt
  · exact le_rfl
  · rcases order_precedes values hlt with hless | ⟨hequal, -⟩
    · exact hless.le
    · exact hequal.ge

/-! ## Solved decompositions -/

/-- The decomposition that a solver gives. -/
noncomputable def solved (S : Solvers ℝ) (C : Mat (Cplx ℝ) m m) (k : SourceCount m) :
    Decomposition ℝ m :=
  ⟨(eigenpairs S C).1, (eigenpairs S C).2, k⟩

theorem ofCovariance_eq (S : Solvers ℝ) (C : Mat (Cplx ℝ) m m) (k : SourceCount m) :
    ofCovariance S C k = .ok (solved S C k) := by
  rw [ofCovariance, if_pos (Mat.isFinite_eq_true C)]
  rfl

/-- The eigenvalues are those of the solver, reordered. -/
theorem get_values_solved (S : Solvers ℝ) {C : Mat (Cplx ℝ) m m} (hC : C.toMatrix.IsHermitian)
    (k : SourceCount m) :
    (solved S C k).values.get = (S.hermitian C).1.get ∘ order (S.hermitian C).1 := by
  funext i
  simp [solved, eigenpairs, Mat.ofLower_eq_self hC, order]

/-- The eigenvectors are reordered with them. -/
theorem toMatrix_vectors_solved (S : Solvers ℝ) {C : Mat (Cplx ℝ) m m}
    (hC : C.toMatrix.IsHermitian) (k : SourceCount m) :
    (solved S C k).vectors.toMatrix =
      (S.hermitian C).2.toMatrix.submatrix id (order (S.hermitian C).1) := by
  simp only [solved, eigenpairs, Mat.ofLower_eq_self hC, Mat.toMatrix_of]
  rfl

/-- An exact solver decomposes a Hermitian matrix. -/
theorem isSpectral_solved {S : Solvers ℝ} (hS : S.IsHermitianExact) {C : Mat (Cplx ℝ) m m}
    (hC : C.toMatrix.IsHermitian) (k : SourceCount m) : (solved S C k).IsSpectral C := by
  constructor
  · rw [get_values_solved S hC, toMatrix_vectors_solved S hC]
    exact (hS.hermitian_basis C hC).reorder _
  · rw [get_values_solved S hC]
    exact antitone_order _

/-! ## The two blocks -/

theorem toMatrix_signal (D : Decomposition ℝ m) :
    D.signal.toMatrix = D.vectors.toMatrix.submatrix id (Fin.castLE D.sources.2.2.le) :=
  Mat.toMatrix_takeColumns _ _ _

theorem toMatrix_noise (D : Decomposition ℝ m) :
    D.noise.toMatrix = D.vectors.toMatrix.submatrix id (Mat.after D.sources) :=
  Mat.toMatrix_dropColumns _ _

theorem toMatrix_projector {k : ℕ} (U : Mat (Cplx ℝ) m k) :
    (projector U).toMatrix = U.toMatrix * U.toMatrixᴴ := by
  rw [projector, Mat.toMatrix_mul, Mat.toMatrix_adjoint]

/-- A sum over all places is the sum over the first `k` and the sum over those after them. -/
theorem sum_first_add_after {β : Type} [AddCommMonoid β] {k : ℕ} (h : k ≤ m) (f : Fin m → β) :
    ∑ i, f i = ∑ i, f (Fin.castLE h i) + ∑ j, f (Mat.after k j) := by
  have hk : k + (m - k) = m := Nat.add_sub_cancel' h
  rw [← Equiv.sum_comp (finCongr hk) f, Fin.sum_univ_add]
  rfl

theorem after_injective (k : ℕ) : Function.Injective (Mat.after (n := m) k) := by
  intro i j h
  have hval := congrArg Fin.val h
  simp only [Mat.after] at hval
  exact Fin.ext (by omega)

theorem mem_range_castLE {k : ℕ} (h : k ≤ m) {i : Fin m} :
    i ∈ Set.range (Fin.castLE h) ↔ i.val < k := by
  constructor
  · rintro ⟨j, rfl⟩
    exact j.isLt
  · intro hi
    exact ⟨⟨i, hi⟩, rfl⟩

theorem mem_range_after {k : ℕ} {i : Fin m} : i ∈ Set.range (Mat.after k) ↔ k ≤ i.val := by
  constructor
  · rintro ⟨j, rfl⟩
    exact Nat.le_add_right k j
  · intro hi
    exact ⟨⟨i - k, by omega⟩, Fin.ext (Nat.add_sub_cancel' hi)⟩

namespace IsSpectral

variable {D D' : Decomposition ℝ m} {C : Mat (Cplx ℝ) m m}

/-- Signal and noise vectors together resolve the identity. -/
theorem signal_add_noise (h : D.IsSpectral C) :
    D.signal.toMatrix * D.signal.toMatrixᴴ + D.noise.toMatrix * D.noise.toMatrixᴴ = 1 := by
  rw [← h.basis.complete, toMatrix_signal, toMatrix_noise]
  ext x y
  rw [Matrix.add_apply, Matrix.mul_apply, Matrix.mul_apply, Matrix.mul_apply,
    sum_first_add_after D.sources.2.2.le]
  rfl

theorem signal_orthonormal (h : D.IsSpectral C) : D.signal.toMatrixᴴ * D.signal.toMatrix = 1 := by
  rw [toMatrix_signal]
  exact orthonormal_columns h.basis.orthonormal (Fin.castLE_injective _)

theorem noise_orthonormal (h : D.IsSpectral C) : D.noise.toMatrixᴴ * D.noise.toMatrix = 1 := by
  rw [toMatrix_noise]
  exact orthonormal_columns h.basis.orthonormal (after_injective _)

/-- All decompositions of a covariance have the same eigenvalues. -/
theorem values_eq (h : D.IsSpectral C) (h' : D'.IsSpectral C) : D.values = D'.values := by
  have hvalues := h.basis.values_unique h'.basis h.descending h'.descending rfl
  apply Vector.ext
  intro i hi
  exact congrFun hvalues ⟨i, hi⟩

/-- With a gap, every signal eigenvalue lies above every noise eigenvalue. -/
theorem lt_of_hasGap (h : D.IsSpectral C) (hgap : D.HasGap) {i j : Fin m}
    (hi : i.val < D.sources) (hj : D.sources ≤ j.val) : D.values.get j < D.values.get i := by
  have hpos := D.sources.2.1
  calc D.values.get j ≤ D.values.get ⟨D.sources, D.sources.2.2⟩ := h.descending hj
    _ < D.values.get ⟨D.sources - 1, by omega⟩ := hgap
    _ ≤ D.values.get i := h.descending (show i.val ≤ D.sources.val - 1 by omega)

/-- The signal vectors of two decompositions span the same space. -/
theorem exists_unitary_signal (h : D.IsSpectral C) (h' : D'.IsSpectral C) (hgap : D.HasGap) :
    ∃ Q : Matrix (Fin D.sources) (Fin D.sources) ℂ, Qᴴ * Q = 1 ∧
      D'.vectors.toMatrix.submatrix id (Fin.castLE D.sources.2.2.le) = D.signal.toMatrix * Q := by
  rw [toMatrix_signal]
  have hbasis' := h'.basis
  rw [← h.values_eq h'] at hbasis'
  apply h.basis.exists_unitary hbasis' (Fin.castLE_injective _)
  intro i hi a
  rw [mem_range_castLE, not_lt] at hi
  exact (h.lt_of_hasGap hgap a.isLt hi).ne

/-- The noise vectors of two decompositions span the same space. -/
theorem exists_unitary_noise (h : D.IsSpectral C) (h' : D'.IsSpectral C) (hgap : D.HasGap) :
    ∃ Q : Matrix (Fin (m - D.sources)) (Fin (m - D.sources)) ℂ, Qᴴ * Q = 1 ∧
      D'.vectors.toMatrix.submatrix id (Mat.after D.sources) = D.noise.toMatrix * Q := by
  rw [toMatrix_noise]
  have hbasis' := h'.basis
  rw [← h.values_eq h'] at hbasis'
  apply h.basis.exists_unitary hbasis' (after_injective _)
  intro i hi a
  rw [mem_range_after, not_le] at hi
  exact (h.lt_of_hasGap hgap hi (Nat.le_add_right _ _)).ne'

/-- Eigenvectors of the opposite sign serve as well. -/
theorem neg (h : D.IsSpectral C) :
    (Decomposition.mk D.values (-D.vectors) D.sources).IsSpectral C where
  basis := by
    constructor
    · rw [Mat.toMatrix_neg, conjTranspose_neg, neg_mul_neg, h.basis.orthonormal]
    · rw [Mat.toMatrix_neg, Matrix.mul_neg, Matrix.neg_mul, h.basis.eigen]
  descending := h.descending

end IsSpectral

end PhasedArray.Decomposition
