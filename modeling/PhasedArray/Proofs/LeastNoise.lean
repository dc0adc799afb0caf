import PhasedArray.Proofs.Energy
import PhasedArray.Proofs.Estimator
import PhasedArray.Proofs.Exact.Ideal

set_option autoImplicit false

/-!
# The noise space takes the least power (SPEC §4.3)

A projector of rank `r` puts a weight between zero and one on each eigenvector of a Hermitian
matrix, and the weights add up to `r`.  The power that it takes from the matrix is the weighted
sum of the eigenvalues, which is least where all weight lies on the `r` smallest ones.  A
decomposition splits the eigenvectors there, whatever the signs and the multiplicities of the
eigenvalues, so its noise projector takes the least power that a projector of its rank can.
-/

namespace PhasedArray

open Matrix
open scoped ComplexOrder

variable {m n r : ℕ}

/-! ## Orthogonal projectors -/

/-- `Q` projects orthogonally onto a space of dimension `r`. -/
structure IsProjector (Q : Matrix (Fin n) (Fin n) ℂ) (r : ℕ) : Prop where
  isHermitian : Q.IsHermitian
  idempotent : Q * Q = Q
  rank : Q.rank = r

namespace IsProjector

variable {Q : Matrix (Fin n) (Fin n) ℂ}

/-- Orthonormal columns give the projector onto their span. -/
theorem of_orthonormal {U : Matrix (Fin n) (Fin r) ℂ} (hU : Uᴴ * U = 1) :
    IsProjector (U * Uᴴ) r where
  isHermitian := isHermitian_mul_conjTranspose_self U
  idempotent := by
    rw [Matrix.mul_assoc, ← Matrix.mul_assoc Uᴴ, hU, Matrix.one_mul]
  rank := by
    rw [rank_self_mul_conjTranspose, ← rank_conjTranspose_mul_self, hU, rank_one, Fintype.card_fin]

theorem energy_nonneg (h : IsProjector Q r) (x : Fin n → ℂ) : 0 ≤ energy Q x := by
  have hgram : Qᴴ * Q = Q := by rw [h.isHermitian.eq, h.idempotent]
  rw [← hgram, energy_gram]
  exact power_nonneg _

/-- What `Q` leaves is projected by `1 - Q`. -/
theorem complement (h : IsProjector Q r) : IsProjector (1 - Q) (1 - Q).rank where
  isHermitian := isHermitian_one.sub h.isHermitian
  idempotent := IsIdempotentElem.one_sub h.idempotent
  rank := rfl

theorem energy_le (h : IsProjector Q r) (x : Fin n → ℂ) : energy Q x ≤ power x := by
  have hrest := h.complement.energy_nonneg x
  rw [energy_sub, energy_one] at hrest
  exact sub_nonneg.mp hrest

/-- The trace of a projector is its rank. -/
theorem trace_eq (h : IsProjector Q r) : Q.trace = r := by
  have hproj : IsIdempotentElem Q.toLin' :=
    (toLin'_mul Q Q).symm.trans (congrArg toLin' h.idempotent)
  rw [← h.rank, ← trace_toLin'_eq, (LinearMap.IsIdempotentElem.isProj_range _ hproj).trace]
  rfl

end IsProjector

/-! ## Weights on the eigenvectors -/

/-- Weights between zero and one that add up to `n - k` give a descending sequence a weighted sum
that is at least the sum of its last `n - k` values. -/
theorem sum_after_le {values w : Fin n → ℝ} (hvalues : Antitone values) {k : ℕ} (hk : k < n)
    (hnonneg : ∀ i, 0 ≤ w i) (hone : ∀ i, w i ≤ 1) (hsum : ∑ i, w i = (n - k : ℕ)) :
    ∑ j, values (Mat.after k j) ≤ ∑ i, w i * values i := by
  -- what is missing on the last values lies on earlier ones, on the other side of `t`
  let t := values ⟨k, hk⟩
  have hfirst : ∑ i : Fin k, t * w (i.castLE hk.le) ≤
      ∑ i : Fin k, w (i.castLE hk.le) * values (i.castLE hk.le) := by
    apply Finset.sum_le_sum
    intro i _
    have hle : t ≤ values (i.castLE hk.le) := hvalues i.isLt.le
    rw [mul_comm t]
    exact mul_le_mul_of_nonneg_left hle (hnonneg _)
  have hafter : ∑ j, values (Mat.after k j) - t * ∑ j, (1 - w (Mat.after k j)) ≤
      ∑ j, w (Mat.after k j) * values (Mat.after k j) := by
    rw [Finset.mul_sum, ← Finset.sum_sub_distrib]
    apply Finset.sum_le_sum
    intro j _
    have hle : values (Mat.after k j) ≤ t := hvalues (Nat.le_add_right k j)
    have hproduct := mul_le_mul_of_nonneg_left hle (sub_nonneg.mpr (hone (Mat.after k j)))
    linarith
  have hmissing : ∑ j : Fin (n - k), (1 - w (Mat.after k j)) = ∑ i : Fin k, w (i.castLE hk.le) := by
    rw [Decomposition.sum_first_add_after hk.le] at hsum
    rw [Finset.sum_sub_distrib, Finset.sum_const, Finset.card_univ, Fintype.card_fin, nsmul_one,
      ← hsum, add_sub_cancel_right]
  rw [Decomposition.sum_first_add_after hk.le]
  rw [hmissing] at hafter
  rw [← Finset.mul_sum] at hfirst
  linarith

namespace IsEigenbasis

variable {H V Q : Matrix (Fin n) (Fin n) ℂ} {values : Fin n → ℝ}

theorem power_col (h : IsEigenbasis H V values) (i : Fin n) : power (V.col i) = 1 := by
  have hentry : star (V.col i) ⬝ᵥ V.col i = 1 := by
    have hdiagonal := congrFun (congrFun h.orthonormal i) i
    rwa [one_apply_eq] at hdiagonal
  rw [star_dotProduct_self] at hentry
  exact_mod_cast hentry

/-- The diagonal of a Hermitian matrix in the basis. -/
theorem conj_apply_self (hQ : Q.IsHermitian) (i : Fin n) :
    (Vᴴ * Q * V) i i = ((energy Q (V.col i) : ℝ) : ℂ) := by
  have henergy : energy Q (V.col i) = ((Vᴴ * Q * V) i i).re := by
    rw [Matrix.mul_assoc]
    rfl
  rw [henergy]
  exact ((isHermitian_conjTranspose_mul_mul V hQ).coe_re_apply_self i).symm

/-- The energies of the basis vectors add up to the trace. -/
theorem sum_energy (h : IsEigenbasis H V values) (hQ : Q.IsHermitian) :
    ((∑ i, energy Q (V.col i) : ℝ) : ℂ) = Q.trace := by
  calc ((∑ i, energy Q (V.col i) : ℝ) : ℂ) = (Vᴴ * Q * V).trace := by
        rw [Complex.ofReal_sum, trace]
        exact Finset.sum_congr rfl fun i _ => (conj_apply_self hQ i).symm
    _ = Q.trace := by
        rw [trace_mul_cycle, h.complete, Matrix.one_mul]

/-- The power that `Q` takes from `H` is the sum of the eigenvalues, weighted by the energies. -/
theorem trace_mul (h : IsEigenbasis H V values) (hQ : Q.IsHermitian) :
    (Q * H).trace = ((∑ i, energy Q (V.col i) * values i : ℝ) : ℂ) := by
  calc (Q * H).trace = (Vᴴ * Q * V * diagonal fun i => (values i : ℂ)).trace := by
        conv_lhs => rw [h.spectral]
        rw [← Matrix.mul_assoc, trace_mul_comm, ← Matrix.mul_assoc, ← Matrix.mul_assoc]
    _ = ((∑ i, energy Q (V.col i) * values i : ℝ) : ℂ) := by
        rw [trace, Complex.ofReal_sum]
        apply Finset.sum_congr rfl
        intro i _
        rw [diag_apply, mul_diagonal, conj_apply_self hQ, Complex.ofReal_mul]

/-- No projector of rank `n - k` takes less than the last `n - k` eigenvalues. -/
theorem sum_after_le_trace (h : IsEigenbasis H V values) (hvalues : Antitone values) {k : ℕ}
    (hk : k < n) (hQ : IsProjector Q (n - k)) :
    ((∑ j, values (Mat.after k j) : ℝ) : ℂ) ≤ (Q * H).trace := by
  have hsum := h.sum_energy hQ.isHermitian
  rw [hQ.trace_eq] at hsum
  rw [h.trace_mul hQ.isHermitian, Complex.real_le_real]
  apply sum_after_le hvalues hk fun i => hQ.energy_nonneg _
  · intro i
    rw [← h.power_col i]
    exact hQ.energy_le _
  · exact_mod_cast hsum

end IsEigenbasis

/-! ## The noise projector -/

namespace Decomposition

variable {D : Decomposition ℝ m} {C : Mat (Cplx ℝ) m m}

/-- The noise space of `D` takes the sum of the noise eigenvalues from `C`, and that is the least
power that a projector of its rank takes.  Complex numbers are compared where their imaginary
parts agree, so all these powers are real. -/
structure TakesLeast (D : Decomposition ℝ m) (C : Mat (Cplx ℝ) m m) : Prop where
  projector : IsProjector D.noiseProjector.toMatrix (m - D.sources)
  trace : (D.noiseProjector.toMatrix * C.toMatrix).trace = ((D.noiseValues.sum : ℝ) : ℂ)
  least : IsLeast {t | ∃ Q, IsProjector Q (m - D.sources) ∧ t = (Q * C.toMatrix).trace}
    ((D.noiseValues.sum : ℝ) : ℂ)

theorem noiseValues_eq (D : Decomposition ℝ m) :
    D.noiseValues = List.ofFn fun j => D.values.get (Mat.after D.sources j) := by
  apply List.ext_getElem
  · simp [noiseValues]
  · intro i _ _
    rw [List.getElem_ofFn]
    simp [noiseValues, Mat.after, Vec.get_eq_getElem]

/-- The covariance acts on the noise vectors by the noise eigenvalues. -/
theorem IsSpectral.mul_noise (h : D.IsSpectral C) :
    C.toMatrix * D.noise.toMatrix =
      D.noise.toMatrix * diagonal fun j => (D.values.get (Mat.after D.sources j) : ℂ) := by
  rw [toMatrix_noise]
  ext i j
  have hentry := congrFun (congrFun h.basis.eigen i) (Mat.after D.sources j)
  rw [mul_diagonal] at hentry ⊢
  exact hentry

theorem IsSpectral.takesLeast (h : D.IsSpectral C) : D.TakesLeast C := by
  have hprojector : IsProjector D.noiseProjector.toMatrix (m - D.sources) := by
    rw [noiseProjector, toMatrix_projector]
    exact .of_orthonormal h.noise_orthonormal
  have htrace : (D.noiseProjector.toMatrix * C.toMatrix).trace =
      ((D.noiseValues.sum : ℝ) : ℂ) := by
    rw [noiseProjector, toMatrix_projector, Matrix.mul_assoc, trace_mul_comm, Matrix.mul_assoc,
      h.mul_noise, ← Matrix.mul_assoc, h.noise_orthonormal, Matrix.one_mul, trace_diagonal,
      noiseValues_eq, List.sum_ofFn, Complex.ofReal_sum]
  refine ⟨hprojector, htrace, ⟨_, hprojector, htrace.symm⟩, ?_⟩
  rintro _ ⟨Q, hQ, rfl⟩
  rw [noiseValues_eq, List.sum_ofFn]
  exact h.basis.sum_after_le_trace h.descending D.sources.2.2 hQ

/-! ## From the solver to the decomposition -/

/-- `D` holds the eigenpairs that the solver found for `C`, pair `i` being the one in place `e i`:
every vector still belongs to its value, the values descend, and equal ones stand as the solver
had them. -/
structure Arranges (S : Solvers ℝ) (C : Mat (Cplx ℝ) m m) (e : Equiv.Perm (Fin m))
    (D : Decomposition ℝ m) : Prop where
  values : D.values.get = (S.hermitian C).1.get ∘ e
  vectors : D.vectors.toMatrix = (S.hermitian C).2.toMatrix.submatrix id e
  spectral : D.IsSpectral C
  stable : ∀ i j, i < j → D.values.get i = D.values.get j → e i < e j

theorem arranges_solved {S : Solvers ℝ} (hS : S.IsHermitianExact) (hC : C.toMatrix.IsHermitian)
    (k : SourceCount m) : Arranges S C (order (S.hermitian C).1) (solved S C k) where
  values := get_values_solved S hC k
  vectors := toMatrix_vectors_solved S hC k
  spectral := isSpectral_solved hS hC k
  stable := by
    intro i j hij hequal
    rw [get_values_solved S hC] at hequal
    rcases order_precedes (S.hermitian C).1 hij with hless | ⟨-, hplaces⟩
    · exact absurd hequal hless.ne'
    · exact hplaces

/-- A square matrix is decomposed for every number of sources between zero and its extent. -/
theorem ofTensor_ofMat (S : Solvers ℝ) (C : Mat (Cplx ℝ) m m) (k : SourceCount m) :
    ofTensor S (.ofMat C) (.whole k.val) = .ok ⟨m, solved S C k⟩ := by
  have hcount : SourceCount.ofSetting m (.whole m) (.whole k.val) = (.ok k : Outcome ℝ _) := by
    rw [SourceCount.ofSetting, Setting.toWhole_whole]
    exact dif_pos k.2
  have hshape : (Tensor.ofMat C).shape = [m, m] := rfl
  unfold ofTensor
  rw [hshape, Tensor.asSquare?_ofMat]
  dsimp only
  rw [hcount]
  simp only [Outcome.bind_eq_ok]
  exact ⟨k, hcount, solved S C k, Estimator.ofEntries_ofMat S C k, rfl⟩

/-- A Hermitian matrix is split at the best place.  Whatever eigenpairs the solver returns, the
decomposition lists them in descending order, equal ones as they came, and its noise projector, an
orthogonal projector of rank `m - k`, takes the sum of the noise eigenvalues from the matrix, which
is the least that any orthogonal projector of that rank takes. -/
theorem ofTensor_takes_least {S : Solvers ℝ} (hS : S.IsHermitianExact) (hC : C.toMatrix.IsHermitian)
    (k : SourceCount m) :
    ∃ D e, ofTensor S (.ofMat C) (.whole k.val) = .ok ⟨m, D⟩ ∧ D.sources = k ∧
      Arranges S C e D ∧ D.TakesLeast C := by
  have harranged := arranges_solved hS hC k
  exact ⟨solved S C k, order (S.hermitian C).1, ofTensor_ofMat S C k, rfl, harranged,
    harranged.spectral.takesLeast⟩

/-- Equal negative eigenvalues: every projector of rank two takes minus two from the negative of
the identity of extent three, and so does the noise projector. -/
theorem ofTensor_takes_least_negative :
    ∃ D e, ofTensor .ideal (.ofMat (-Mat.identity 3)) (.whole 1) = .ok ⟨3, D⟩ ∧
      Arranges .ideal (-Mat.identity 3) e D ∧ D.noiseValues.sum = -2 := by
  have hmatrix : (-Mat.identity 3 : Mat (Cplx ℝ) 3 3).toMatrix = -1 := by
    rw [Mat.toMatrix_neg, Mat.toMatrix_identity]
  have hC : (-Mat.identity 3 : Mat (Cplx ℝ) 3 3).toMatrix.IsHermitian := by
    rw [hmatrix]
    exact isHermitian_one.neg
  obtain ⟨D, e, hD, hsources, harranged, hleast⟩ :=
    ofTensor_takes_least Solvers.ideal_isExact.toIsHermitianExact hC ⟨1, by decide⟩
  refine ⟨D, e, hD, harranged, ?_⟩
  have htrace := hleast.trace
  rw [hmatrix, Matrix.mul_neg, Matrix.mul_one, trace_neg, hleast.projector.trace_eq, hsources]
    at htrace
  apply Complex.ofReal_injective
  rw [← htrace]
  norm_num

end Decomposition

end PhasedArray
