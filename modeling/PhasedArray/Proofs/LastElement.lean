import PhasedArray.Proofs.Energy
import PhasedArray.Proofs.Exact.Ideal
import PhasedArray.Proofs.NoiselessScene
import PhasedArray.Proofs.Rotation

set_option autoImplicit false

/-!
# The last element decides (SPEC §4.5)

The first sub-array is the whole array without its last element.  For orthonormal columns `U` its
normal matrix is therefore the identity less the rank-one matrix of the last row `r`, and all its
singular values are one but the smallest, which is `1 - ‖r‖²`.  That is the squared distance of
the last element's unit vector from the span of the columns: a least-squares fit has no result
exactly when the signal comes from the last element alone, up to the tolerance.  Both matrices
that a fit tests are contractions, which is why the tolerance is an absolute one.
-/

namespace PhasedArray

open Matrix
open scoped ComplexOrder

variable {m k : ℕ}

/-! ## The identity less a matrix of rank one -/

section Downdate

variable {r : Fin k → ℂ} {V : Matrix (Fin k) (Fin k) ℂ}

theorem trace_vecMulVec_star (r : Fin k → ℂ) : (vecMulVec (star r) r).trace = (power r : ℂ) := by
  rw [trace_vecMulVec, star_dotProduct_self]

theorem det_downdate (r : Fin k → ℂ) :
    (1 - vecMulVec (star r) r).det = ((1 - power r : ℝ) : ℂ) := by
  have hadd : 1 - vecMulVec (star r) r =
      1 + replicateCol Unit (-star r) * replicateRow Unit r := by
    rw [← vecMulVec_eq, neg_vecMulVec, sub_eq_add_neg]
  rw [hadd, det_one_add_replicateCol_mul_replicateRow, dotProduct_neg, dotProduct_comm,
    star_dotProduct_self, Complex.ofReal_sub, Complex.ofReal_one, sub_eq_add_neg]

/-- If the identity less the products of the entries of `r` has no negative eigenvalue, its
singular values are one but for the last, which lacks the power of `r`. -/
theorem IsSingularBasis.padded_downdate {σ : Fin (min k k) → ℝ}
    (h : IsSingularBasis (1 - vecMulVec (star r) r) V σ)
    (hpos : (1 - vecMulVec (star r) r).PosSemidef) (j : Fin k) :
    padded σ j = if j.val + 1 < k then 1 else 1 - power r := by
  obtain ⟨W, hW⟩ := h.exists_eigenbasis hpos
  -- what the singular values lack to one are the eigenvalues of a matrix of rank one
  have hlack := hW.lack
  rw [sub_sub_cancel] at hlack
  have hnonneg := hlack.nonneg (posSemidef_vecMulVec_star_self r)
  have hrank : Fintype.card {i : Fin k // 1 - padded σ i.rev ≠ 0} ≤ 1 :=
    (hlack.reorder Fin.revPerm).card_ne_zero.trans_le (rank_vecMulVec_le _ _)
  have hdescending : Antitone fun i => 1 - padded σ (Fin.rev i) := fun i i' hle =>
    sub_le_sub_left (padded_antitone h.descending h.nonneg (Fin.rev_le_rev.mpr hle)) 1
  have hone : ∀ i : Fin k, i.val + 1 < k → 1 - padded σ i = 0 := by
    intro i hi
    have hzero := eq_zero_of_card_le hdescending (fun i => hnonneg i.rev) hrank (i := i.rev)
      (by rw [Fin.val_rev]; omega)
    rwa [Fin.rev_rev] at hzero
  split_ifs with hj
  · linarith [hone j hj]
  · have hsum := hlack.sum_values
    rw [trace_vecMulVec_star, Complex.ofReal_re, Finset.sum_eq_single j] at hsum
    · linarith
    · intro i _ hij
      apply hone i
      have hne : i.val ≠ j.val := fun h => hij (Fin.ext h)
      omega
    · exact fun h => absurd (Finset.mem_univ j) h

end Downdate

namespace Rotation

/-! ## The last element -/

variable {U : Mat (Cplx ℝ) m k}

/-- The last element. -/
def lastElement (hm : 0 < m) : Fin m := ⟨m - 1, Nat.sub_lt hm one_pos⟩

/-- What each column receives at the last element. -/
def lastRow (U : Mat (Cplx ℝ) m k) (hm : 0 < m) : Fin k → ℂ := U.toMatrix (lastElement hm)

/-- The squared distance of the last element's unit vector from the span of orthonormal
columns. -/
noncomputable def lastDistance (U : Mat (Cplx ℝ) m k) (hm : 0 < m) : ℝ := 1 - power (lastRow U hm)

/-- A sum over all elements is the sum over those of the first sub-array and the last. -/
theorem sum_first_add_last {β : Type} [AddCommMonoid β] (hm : 0 < m) (f : Fin m → β) :
    ∑ i, f i = ∑ i, f (Fin.castLE (Nat.sub_le m 1) i) + f (lastElement hm) := by
  obtain ⟨p, rfl⟩ := Nat.exists_eq_succ_of_ne_zero hm.ne'
  exact Fin.sum_univ_castSucc f

/-- Dropping the last element takes the products of its row away. -/
theorem gram_dropLastRow (hm : 0 < m) (hU : U.toMatrixᴴ * U.toMatrix = 1) :
    (U.dropLastRow.adjoint * U.dropLastRow).toMatrix =
      1 - vecMulVec (star (lastRow U hm)) (lastRow U hm) := by
  rw [Mat.toMatrix_mul, Mat.toMatrix_adjoint, Mat.toMatrix_dropLastRow, ← hU, eq_sub_iff_add_eq]
  ext i j
  rw [Matrix.mul_apply, sum_first_add_last hm]
  rfl

/-- Near a vector `v` of the span the last element's unit vector is as far from it as `v` is from
its own projection, and further by the distance of the span. -/
theorem power_lastElement_sub (hm : 0 < m) (hU : U.toMatrixᴴ * U.toMatrix = 1) (v : Fin k → ℂ) :
    power (Pi.single (lastElement hm) 1 - U.toMatrix *ᵥ v) =
      lastDistance U hm + power (v - star (lastRow U hm)) := by
  have hunit : power (Pi.single (lastElement hm) (1 : ℂ)) = 1 := by
    have hself := star_dotProduct_self (Pi.single (lastElement hm) (1 : ℂ))
    rw [Pi.star_single, star_one, single_one_dotProduct, Pi.single_eq_same] at hself
    exact_mod_cast hself.symm
  have himage : power (U.toMatrix *ᵥ v) = power v := by
    rw [← energy_gram, hU, energy_one]
  have hentry : star (Pi.single (lastElement hm) (1 : ℂ)) ⬝ᵥ U.toMatrix *ᵥ v =
      lastRow U hm ⬝ᵥ v := by
    rw [Pi.star_single, star_one, single_one_dotProduct]
    rfl
  have hmixed : (star v ⬝ᵥ star (lastRow U hm)).re = (lastRow U hm ⬝ᵥ v).re := by
    rw [star_dotProduct_star, RCLike.star_def, Complex.conj_re]
  rw [power_sub, power_sub, hunit, himage, hentry, hmixed, power_star, lastDistance]
  ring

/-- The span has no vector nearer to the last element's unit vector. -/
theorem isLeast_lastDistance (hm : 0 < m) (hU : U.toMatrixᴴ * U.toMatrix = 1) :
    IsLeast (Set.range fun v => power (Pi.single (lastElement hm) 1 - U.toMatrix *ᵥ v))
      (lastDistance U hm) := by
  constructor
  · refine ⟨star (lastRow U hm), ?_⟩
    have hzero : power (0 : Fin k → ℂ) = 0 := by simp [power]
    exact (power_lastElement_sub hm hU _).trans (by rw [sub_self, hzero, add_zero])
  · rintro - ⟨v, rfl⟩
    exact (le_add_of_nonneg_right (power_nonneg _)).trans_eq (power_lastElement_sub hm hU v).symm

theorem lastDistance_nonneg (hm : 0 < m) (hU : U.toMatrixᴴ * U.toMatrix = 1) :
    0 ≤ lastDistance U hm := by
  obtain ⟨v, hv⟩ := (isLeast_lastDistance hm hU).1
  exact hv ▸ power_nonneg _

/-! ## The matrices that a fit tests -/

section Tested

variable {S : Solvers ℝ} (hS : S.IsExact) (hU : U.toMatrixᴴ * U.toMatrix = 1)
include hS hU

/-- The singular values of the normal matrix are one, but for the last. -/
theorem padded_gram_dropLastRow (hm : 0 < m) (j : Fin k) :
    padded (S.singularValues (U.dropLastRow.adjoint * U.dropLastRow)).get j =
      if j.val + 1 < k then 1 else lastDistance U hm := by
  have hbasis := hS.singular_basis (U.dropLastRow.adjoint * U.dropLastRow)
  have hpos := posSemidef_gram U.dropLastRow
  rw [gram_dropLastRow hm hU] at hbasis hpos
  exact hbasis.padded_downdate hpos j

theorem leastSingular_gram_dropLastRow (hm : 0 < m) (hk : 0 < k) :
    leastSingular S (U.dropLastRow.adjoint * U.dropLastRow) hk = lastDistance U hm := by
  have hlast : ¬ k - 1 + 1 < k := by omega
  exact (padded_last S _ hk).symm.trans
    ((padded_gram_dropLastRow hS hU hm _).trans (if_neg hlast))

/-- The singular values of the normal matrix are no more than one. -/
theorem singularValues_gram_dropLastRow_mem (hm : 0 < m) (i : Fin (min k k)) :
    (S.singularValues (U.dropLastRow.adjoint * U.dropLastRow)).get i ∈ Set.Icc 0 1 := by
  refine ⟨(hS.singular_basis _).nonneg i, ?_⟩
  rw [← padded_castLE (S.singularValues _).get i, padded_gram_dropLastRow hS hU hm]
  split_ifs
  · exact le_rfl
  · exact sub_le_self 1 (power_nonneg _)

/-- Least squares has no result if the last element's unit vector is within the tolerance of the
span, or in it. -/
theorem ofSubspace_leastSquares_eq_none_iff (hm : 0 < m) (hk : 0 < k) (τ : ℝ) (g : Geometry ℝ) :
    ∃ found, ofSubspace S .leastSquares (.ok τ) g U = .ok found ∧
      (found = none ↔ lastDistance U hm ≤ max τ 0) := by
  have hdet : (U.dropLastRow.adjoint * U.dropLastRow).toMatrix.det = (lastDistance U hm : ℂ) := by
    rw [gram_dropLastRow hm hU, det_downdate, lastDistance]
  rw [ofSubspace_eq, fit, leastSquares_eq, isSingular_eq S _ _ hk,
    leastSingular_gram_dropLastRow hS hU hm]
  refine ⟨_, rfl, ?_⟩
  rw [Option.map_eq_none_iff]
  simp only [decide_eq_true_eq]
  by_cases hflag : lastDistance U hm ≤ τ
  · rw [if_pos hflag]
    exact iff_of_true rfl (hflag.trans (le_max_left _ _))
  · rw [if_neg hflag, le_max_iff, or_iff_right hflag]
    rcases (lastDistance_nonneg hm hU).eq_or_lt with hzero | hpos
    · have hsolve := hS.solve_singular (U.dropLastRow.adjoint * U.dropFirstRow)
        (hdet.trans (by rw [← hzero, Complex.ofReal_zero]))
      exact iff_of_true hsolve hzero.ge
    · have hsolve := hS.solve_regular (U.dropLastRow.adjoint * U.dropFirstRow)
        (hdet.trans_ne (Complex.ofReal_ne_zero.mpr hpos.ne'))
      rw [hsolve]
      exact iff_of_false (Option.some_ne_none _) (not_le_of_gt hpos)

end Tested

/-- The singular values of the block that total least squares inverts are no more than one. -/
theorem singularValues_lowerBlock_mem {S : Solvers ℝ} (hS : S.IsExact) {l n : ℕ}
    (A : Mat (Cplx ℝ) n (k + l)) (i : Fin (min l l)) :
    (S.singularValues (lowerBlock (S.rightSingular A).2)).get i ∈ Set.Icc 0 1 := by
  have hbasis := hS.singular_basis (lowerBlock (S.rightSingular A).2)
  refine ⟨hbasis.nonneg i, ?_⟩
  rw [← padded_castLE (S.singularValues _).get i]
  apply hbasis.padded_le_one
  rw [← upperBlock_gram_add_lowerBlock_gram (hS.singular_basis A).orthonormal,
    add_sub_cancel_right]
  exact posSemidef_conjTranspose_mul_self _

/-! ## Degenerate subspaces -/

/-- A subspace is degenerate for least squares if the last element's unit vector is within the
tolerance of it, or in it whatever the tolerance.  What either fit tests has no singular value
above one. -/
theorem degenerate_iff_last_element_near {S : Solvers ℝ} (hS : S.IsExact) (g : Geometry ℝ)
    {U : Mat (Cplx ℝ) m k} (hk : 0 < k) (hkm : k < m) (hU : U.toMatrixᴴ * U.toMatrix = 1) (τ : ℝ) :
    (∃ found, ofTensor S .leastSquares (.ok τ) g (.ofMat U) = .ok (k, found) ∧
      (found = none ↔ lastDistance U (hk.trans hkm) ≤ max τ 0)) ∧
    IsLeast (Set.range fun v => power (Pi.single (lastElement (hk.trans hkm)) 1 -
      U.toMatrix *ᵥ v)) (lastDistance U (hk.trans hkm)) ∧
    (∀ i, (S.singularValues (U.dropLastRow.adjoint * U.dropLastRow)).get i ∈ Set.Icc 0 1) ∧
    ∀ i, (S.singularValues (lowerBlock
      (S.rightSingular (U.dropLastRow.beside U.dropFirstRow)).2)).get i ∈ Set.Icc 0 1 := by
  obtain ⟨found, hfound, hnone⟩ :=
    ofSubspace_leastSquares_eq_none_iff hS hU (hk.trans hkm) hk τ g
  refine ⟨⟨found, ?_, hnone⟩, isLeast_lastDistance _ hU,
    singularValues_gram_dropLastRow_mem hS hU (hk.trans hkm),
    singularValues_lowerBlock_mem hS _⟩
  rw [ofTensor_ofMat, hfound]
  rfl

/-- A subspace of one dimension that two elements receive. -/
noncomputable def received (a b : ℝ) : Mat (Cplx ℝ) 2 1 := .ofMatrix !![(a : ℂ); (b : ℂ)]

theorem received_gram {a b : ℝ} (h : a ^ 2 + b ^ 2 = 1) :
    (received a b).toMatrixᴴ * (received a b).toMatrix = 1 := by
  have hentry : ((received a b).toMatrixᴴ * (received a b).toMatrix) 0 0 =
      ((a ^ 2 + b ^ 2 : ℝ) : ℂ) := by
    simp [received, Matrix.mul_apply, pow_two]
  ext i j
  rw [Subsingleton.elim i 0, Subsingleton.elim j 0, hentry, h, Complex.ofReal_one,
    Matrix.one_apply_eq]

theorem lastDistance_received (a b : ℝ) : lastDistance (received a b) two_pos = 1 - b ^ 2 := by
  simp [lastDistance, lastRow, lastElement, received, power]

/-- At the bound itself the subspace is degenerate. -/
theorem degenerate_at_bound :
    (received (3 / 5) (4 / 5)).toMatrixᴴ * (received (3 / 5) (4 / 5)).toMatrix = 1 ∧
    lastDistance (received (3 / 5) (4 / 5)) two_pos = 9 / 25 ∧
    ofTensor Solvers.ideal .leastSquares (.ok (9 / 25)) .pair
      (.ofMat (received (3 / 5) (4 / 5))) = .ok (1, none) := by
  have hgram := received_gram (show (3 / 5 : ℝ) ^ 2 + (4 / 5) ^ 2 = 1 by norm_num)
  have hdistance : lastDistance (received (3 / 5) (4 / 5)) two_pos = 9 / 25 := by
    rw [lastDistance_received]
    norm_num
  obtain ⟨⟨found, hfound, hnone⟩, -⟩ := degenerate_iff_last_element_near Solvers.ideal_isExact
    .pair one_pos one_lt_two hgram (9 / 25)
  refine ⟨hgram, hdistance, ?_⟩
  rw [hfound, hnone.mpr (hdistance.trans_le (le_max_left _ _))]

/-- No tolerance keeps what the last element alone receives from being degenerate. -/
theorem degenerate_beyond_negative_tolerance :
    (received 0 1).toMatrixᴴ * (received 0 1).toMatrix = 1 ∧
    ofTensor Solvers.ideal .leastSquares (.ok (-1)) .pair (.ofMat (received 0 1)) =
      .ok (1, none) ∧
    ¬ lastDistance (received 0 1) two_pos ≤ -1 := by
  have hgram := received_gram (show (0 : ℝ) ^ 2 + 1 ^ 2 = 1 by norm_num)
  have hdistance : lastDistance (received 0 1) two_pos = 0 := by
    rw [lastDistance_received]
    norm_num
  obtain ⟨found, hfound, hnone⟩ := ofSubspace_leastSquares_eq_none_iff Solvers.ideal_isExact
    hgram two_pos one_pos (-1) .pair
  refine ⟨hgram, ?_, ?_⟩
  · rw [ofTensor_ofMat, hfound, hnone.mpr (hdistance.trans_le (le_max_right _ _))]
    rfl
  · rw [hdistance]
    norm_num

end Rotation

end PhasedArray
