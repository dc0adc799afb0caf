import Mathlib.Analysis.Complex.Polynomial.Basic
import Mathlib.Analysis.Matrix.Spectrum
import Mathlib.Data.Fin.Tuple.Sort
import PhasedArray.Proofs.Exact.Solvers

set_option autoImplicit false

/-!
# Ideal solvers

Exact solvers exist: the spectral theorem gives the eigenvectors, the fundamental theorem
of algebra the eigenvalues, and an orthonormal basis that extends the images of the right
singular vectors gives the singular value decomposition.  Which of the many answers the
ideal solvers give is left to choice; they show that a statement about all exact solvers
speaks of something.
-/

namespace PhasedArray

open Matrix
open scoped ComplexOrder

variable {m n p : ℕ}

/-! ## Eigenvectors -/

/-- Every Hermitian matrix has an orthonormal eigenbasis in ascending order. -/
theorem exists_eigenbasis {H : Matrix (Fin n) (Fin n) ℂ} (hH : H.IsHermitian) :
    ∃ (V : Matrix (Fin n) (Fin n) ℂ) (values : Fin n → ℝ),
      IsEigenbasis H V values ∧ Monotone values := by
  have hbasis : IsEigenbasis H hH.eigenvectorUnitary hH.eigenvalues := by
    refine ⟨mem_unitaryGroup_iff'.mp hH.eigenvectorUnitary.2, ?_⟩
    have hspectral := congrArg (· * (hH.eigenvectorUnitary : Matrix (Fin n) (Fin n) ℂ))
      hH.spectral_theorem
    rw [Unitary.conjStarAlgAut_apply, Matrix.mul_assoc, Unitary.coe_star_mul_self,
      Matrix.mul_one] at hspectral
    exact hspectral
  exact ⟨_, _, hbasis.reorder (Tuple.sort hH.eigenvalues), Tuple.monotone_sort _⟩

/-! ## Singular vectors -/

/-- The products of the columns of a matrix are inner products. -/
theorem gram_apply (W : Matrix (Fin m) (Fin n) ℂ) (j k : Fin n) :
    (Wᴴ * W) j k = star (W.col j) ⬝ᵥ W.col k := rfl

/-- Orthonormal vectors at some places are columns of a unitary matrix. -/
theorem exists_unitary_of_orthonormal {s : Set (Fin m)} {x : Fin m → Fin m → ℂ}
    (hx : ∀ i ∈ s, ∀ j ∈ s, star (x i) ⬝ᵥ x j = if i = j then 1 else 0) :
    ∃ U : Matrix (Fin m) (Fin m) ℂ, Uᴴ * U = 1 ∧ ∀ i ∈ s, U.col i = x i := by
  have hdim : Module.finrank ℂ (EuclideanSpace ℂ (Fin m)) = Fintype.card (Fin m) :=
    finrank_euclideanSpace
  have horthonormal : Orthonormal ℂ (s.domRestrict fun i => WithLp.toLp 2 (x i)) := by
    rw [orthonormal_iff_ite]
    rintro ⟨i, hi⟩ ⟨j, hj⟩
    rw [Set.domRestrict_apply, Set.domRestrict_apply, EuclideanSpace.inner_toLp_toLp,
      dotProduct_comm, hx i hi j hj]
    simp only [Subtype.mk.injEq]
  obtain ⟨b, hb⟩ := horthonormal.exists_orthonormalBasis_extension_of_card_eq hdim
  refine ⟨Matrix.of fun i k => b k i, ?_, fun i hi => congrArg WithLp.ofLp (hb i hi)⟩
  ext j k
  rw [gram_apply, Matrix.one_apply, dotProduct_comm, ← EuclideanSpace.inner_toLp_toLp]
  exact orthonormal_iff_ite.mp b.orthonormal j k

/-- The columns of `W` at places with a positive singular value, scaled to length one. -/
noncomputable def scaledColumn (W : Matrix (Fin m) (Fin n) ℂ) (σ : Fin (min m n) → ℝ)
    (i : Fin m) : Fin m → ℂ :=
  if h : i.val < n then (padded σ ⟨i, h⟩ : ℂ)⁻¹ • W.col ⟨i, h⟩ else 0

/-- The places with a positive singular value. -/
def positivePlaces (σ : Fin (min m n) → ℝ) : Set (Fin m) :=
  {i | ∃ h : i.val < n, padded σ ⟨i, h⟩ ≠ 0}

theorem star_scaledColumn_dotProduct {W : Matrix (Fin m) (Fin n) ℂ} {σ : Fin (min m n) → ℝ}
    (hW : Wᴴ * W = diagonal fun j => ((padded σ j ^ 2 : ℝ) : ℂ)) {i j : Fin m}
    (hi : i ∈ positivePlaces σ) (hj : j ∈ positivePlaces σ) :
    star (scaledColumn W σ i) ⬝ᵥ scaledColumn W σ j = if i = j then 1 else 0 := by
  obtain ⟨hi, hσi⟩ := hi
  obtain ⟨hj, -⟩ := hj
  rw [scaledColumn, dif_pos hi, scaledColumn, dif_pos hj, star_smul, smul_dotProduct,
    dotProduct_smul, ← gram_apply, hW, diagonal_apply]
  by_cases hij : i = j
  · subst hij
    have hne : (padded σ ⟨i, hi⟩ : ℂ) ≠ 0 := by exact_mod_cast hσi
    simp only [if_true, star_inv₀, Complex.star_def, Complex.conj_ofReal, Complex.ofReal_pow,
      smul_eq_mul]
    field_simp
  · have hne : ¬ (⟨i, hi⟩ : Fin n) = ⟨j, hj⟩ := fun h => hij (Fin.ext (Fin.mk.inj h))
    rw [if_neg hne, if_neg hij, smul_zero, smul_zero]

/-- Orthogonal columns of the given lengths come from the columns of a unitary matrix. -/
theorem exists_unitary_columns {W : Matrix (Fin m) (Fin n) ℂ} {σ : Fin (min m n) → ℝ}
    (hW : Wᴴ * W = diagonal fun j => ((padded σ j ^ 2 : ℝ) : ℂ)) :
    ∃ U : Matrix (Fin m) (Fin m) ℂ, Uᴴ * U = 1 ∧ W = U * rectangular σ := by
  obtain ⟨U, hU, hcolumns⟩ := exists_unitary_of_orthonormal (s := positivePlaces σ)
    fun i hi j hj => star_scaledColumn_dotProduct hW hi hj
  refine ⟨U, hU, ?_⟩
  ext i j
  rw [Matrix.mul_apply]
  simp only [rectangular, Matrix.of_apply]
  by_cases hσ : padded σ j = 0
  · have hlength := gram_apply W j j
    rw [hW, diagonal_apply_eq, hσ, zero_pow two_ne_zero, Complex.ofReal_zero] at hlength
    have hentry : W i j = 0 := congrFun (dotProduct_star_self_eq_zero.mp hlength.symm) i
    simp [hentry, hσ]
  · have hj : j.val < min m n := by
      by_contra h
      exact hσ (dif_neg h)
    have hjm : j.val < m := lt_of_lt_of_le hj (min_le_left m n)
    have hentry : U i ⟨j, hjm⟩ = (padded σ j : ℂ)⁻¹ * W i j := by
      have hcolumn := hcolumns ⟨j, hjm⟩ ⟨j.isLt, hσ⟩
      rw [scaledColumn, dif_pos j.isLt] at hcolumn
      exact congrFun hcolumn i
    rw [Finset.sum_eq_single ⟨j, hjm⟩]
    · have hne : (padded σ j : ℂ) ≠ 0 := by exact_mod_cast hσ
      rw [if_pos rfl, hentry]
      field_simp
    · intro k _ hk
      have hne : ¬ k.val = j.val := fun h => hk (Fin.ext h)
      rw [if_neg hne, mul_zero]
    · intro h
      exact absurd (Finset.mem_univ _) h

/-- Every matrix has singular values and right singular vectors. -/
theorem exists_singularBasis (A : Matrix (Fin m) (Fin n) ℂ) :
    ∃ (V : Matrix (Fin n) (Fin n) ℂ) (σ : Fin (min m n) → ℝ), IsSingularBasis A V σ := by
  have hgram : (Aᴴ * A).PosSemidef := posSemidef_conjTranspose_mul_self A
  obtain ⟨V, ascending, hbasis, hascending⟩ := exists_eigenbasis hgram.isHermitian
  let values : Fin n → ℝ := ascending ∘ Fin.revPerm
  have hdescending : Antitone values := hascending.comp_antitone Fin.rev_anti
  have hreversed : IsEigenbasis (Aᴴ * A) (V.submatrix id Fin.revPerm) values :=
    hbasis.reorder Fin.revPerm
  have hnonneg : ∀ i, 0 ≤ values i := hreversed.nonneg hgram
  have hrank : Fintype.card {i // values i ≠ 0} ≤ min m n := by
    rw [hreversed.card_ne_zero, rank_conjTranspose_mul_self]
    exact le_min (rank_le_height A) (rank_le_width A)
  let σ : Fin (min m n) → ℝ := fun i => √(values (i.castLE (min_le_right m n)))
  have hσ : ∀ i, 0 ≤ σ i := fun i => Real.sqrt_nonneg _
  have hsquares : (fun j => padded σ j ^ 2) = values := by
    funext j
    unfold padded
    split_ifs with hj
    · exact Real.sq_sqrt (hnonneg j)
    · rw [eq_zero_of_card_le hdescending hnonneg hrank (not_lt.mp hj)]
      exact zero_pow two_ne_zero
  have hcolumns : (A * V.submatrix id Fin.revPerm)ᴴ * (A * V.submatrix id Fin.revPerm) =
      diagonal fun j => ((padded σ j ^ 2 : ℝ) : ℂ) := by
    rw [conjTranspose_mul, Matrix.mul_assoc, ← Matrix.mul_assoc Aᴴ, hreversed.eigen,
      ← Matrix.mul_assoc, hreversed.orthonormal, Matrix.one_mul]
    congr 1
    funext j
    rw [← congrFun hsquares j]
  obtain ⟨U, hU, hfactor⟩ := exists_unitary_columns hcolumns
  refine ⟨V.submatrix id Fin.revPerm, σ, hσ, ?_, hreversed.orthonormal, U, hU, ?_⟩
  · exact fun i j hij => Real.sqrt_le_sqrt (hdescending hij)
  · rw [← hfactor, Matrix.mul_assoc, hreversed.complete, Matrix.mul_one]

/-- The singular values of a positive semidefinite matrix are its eigenvalues. -/
theorem IsSingularBasis.exists_eigenbasis {A W : Matrix (Fin n) (Fin n) ℂ}
    {σ : Fin (min n n) → ℝ} (h : IsSingularBasis A W σ) (hA : A.PosSemidef) :
    ∃ V, IsEigenbasis A V (padded σ) := by
  obtain ⟨V, ascending, hbasis, hascending⟩ := PhasedArray.exists_eigenbasis hA.isHermitian
  have hreversed : IsEigenbasis A (V.submatrix id Fin.revPerm) (ascending ∘ Fin.revPerm) :=
    hbasis.reorder Fin.revPerm
  have hnonneg := hreversed.nonneg hA
  have hdescending : Antitone (ascending ∘ Fin.revPerm) := hascending.comp_antitone Fin.rev_anti
  have hsquares := h.gram.values_unique hreversed.gram h.gram_antitone
    (fun _ j hij => pow_le_pow_left₀ (hnonneg j) (hdescending hij) 2) rfl
  have hvalues : padded σ = ascending ∘ Fin.revPerm := by
    funext j
    exact (pow_left_inj₀ (padded_nonneg h.nonneg j) (hnonneg j) two_ne_zero).mp
      (congrFun hsquares j)
  rw [hvalues]
  exact ⟨_, hreversed⟩

/-! ## The solvers -/

/-- The characteristic polynomial of a matrix of extent `n` has `n` roots. -/
theorem card_roots_charpoly (M : Matrix (Fin n) (Fin n) ℂ) : M.charpoly.roots.card = n := by
  rw [← (IsAlgClosed.splits M.charpoly).natDegree_eq_card_roots, charpoly_natDegree_eq_dim,
    Fintype.card_fin]

open Classical in
/-- Solvers that are exact. -/
noncomputable def Solvers.ideal : Solvers ℝ where
  hermitian A :=
    if h : A.toMatrix.IsHermitian then
      let basis := exists_eigenbasis h
      (Vector.ofFn basis.choose_spec.choose, .ofMatrix basis.choose)
    else (Vector.ofFn fun _ => 0, .ofMatrix 1)
  eigenvalues A :=
    ⟨(A.toMatrix.charpoly.roots.toList.map Cplx.ofComplex).toArray, by
      rw [List.size_toArray, List.length_map, Multiset.length_toList, card_roots_charpoly]⟩
  rightSingular A :=
    let basis := exists_singularBasis A.toMatrix
    (Vector.ofFn basis.choose_spec.choose, .ofMatrix basis.choose)
  solve A B :=
    if A.toMatrix.det ≠ 0 then some (.ofMatrix (A.toMatrix⁻¹ * B.toMatrix)) else none

/-- The entries of a vector made from a rule are the rule. -/
theorem get_ofFn_eq {β : Type} (f : Fin n → β) : (Vector.ofFn f).get = f :=
  funext fun i => Vec.get_ofFn f i

theorem Solvers.ideal_isExact : Solvers.ideal.IsExact where
  hermitian_basis A hA := by
    simp only [ideal, dif_pos hA, get_ofFn_eq, Mat.toMatrix_ofMatrix]
    exact (exists_eigenbasis hA).choose_spec.choose_spec.1
  hermitian_ascending A hA := by
    simp only [ideal, dif_pos hA, get_ofFn_eq]
    exact (exists_eigenbasis hA).choose_spec.choose_spec.2
  eigenvalues_roots A := by
    simp [ideal, Function.comp_def, Vector.toList]
  singular_basis A := by
    simp only [ideal, get_ofFn_eq, Mat.toMatrix_ofMatrix]
    exact (exists_singularBasis A.toMatrix).choose_spec.choose_spec
  solve_iff A B X := by
    simp only [ideal]
    split_ifs with hA
    · rw [Option.some_inj]
      constructor
      · rintro rfl
        refine ⟨hA, ?_⟩
        rw [Mat.toMatrix_ofMatrix, ← Matrix.mul_assoc, mul_nonsing_inv _ hA.isUnit,
          Matrix.one_mul]
      · rintro ⟨-, hX⟩
        apply Mat.toMatrix_injective
        rw [Mat.toMatrix_ofMatrix, ← hX, ← Matrix.mul_assoc, nonsing_inv_mul _ hA.isUnit,
          Matrix.one_mul]
    · simp [hA]

end PhasedArray
