import PhasedArray.Proofs.Covariance
import PhasedArray.Proofs.Estimator
import PhasedArray.Proofs.MinimumVariance

set_option autoImplicit false

/-!
# Loaded covariances (SPEC §4.2, §4.7)

The sample covariance of few snapshots is singular.  Loading it by any positive factor makes it
positive definite, and since the largest eigenvalue is at most the trace, it also bounds how far
apart the eigenvalues can be: with `m` elements by the ratio of `m` and the factor.  A covariance
without power is loaded as if its mean power were one.
-/

namespace PhasedArray

open Matrix
open scoped ComplexOrder

variable {m n : ℕ}

/-- Under a load the singular values of a positive semidefinite matrix lie between the load and
its sum with the trace. -/
theorem IsSingularBasis.mem_Icc_of_load {H W : Matrix (Fin m) (Fin m) ℂ}
    {σ : Fin (min m m) → ℝ} {s : ℝ} (hs : 0 ≤ s) (hH : H.PosSemidef)
    (h : IsSingularBasis (H + (s : ℂ) • 1) W σ) (i : Fin (min m m)) :
    σ i ∈ Set.Icc s (H.trace.re + s) := by
  have hload : ((s : ℂ) • (1 : Matrix (Fin m) (Fin m) ℂ)).PosSemidef :=
    PosSemidef.one.smul (by exact_mod_cast hs)
  obtain ⟨V, hV⟩ := h.exists_eigenbasis (hH.add hload)
  have hlow := hV.unload.nonneg hH (i.castLE (min_le_right m m))
  have hhigh := hV.unload.le_trace hH (i.castLE (min_le_right m m))
  rw [padded_castLE] at hlow hhigh
  exact ⟨by linarith, by linarith⟩

namespace Covariance

/-! ## The level of a load -/

theorem realTrace_eq (C : Mat (Cplx ℝ) m m) : C.realTrace = C.toMatrix.trace.re := by
  rw [Mat.realTrace, Matrix.trace, Complex.re_sum]
  exact map_total id Nat.cast_zero (fun _ _ => rfl) m _

theorem loadingLevel_pos (trace : ℝ) (m : ℕ) : 0 < loadingLevel trace m := by
  unfold loadingLevel positiveLevel
  split_ifs with h
  · exact one_pos
  · exact not_le.mp h

/-- The trace is at most what the level gives to all elements. -/
theorem trace_le_mul_loadingLevel (hm : 0 < m) (trace : ℝ) :
    trace ≤ m * loadingLevel trace m := by
  have hcount : (0 : ℝ) < m := Nat.cast_pos.mpr hm
  rw [← div_le_iff₀' hcount]
  unfold loadingLevel positiveLevel
  split_ifs with h
  · exact le_trans h zero_le_one
  · exact le_rfl

/-- What a load adds to the diagonal. -/
noncomputable def amount (l : ℝ) (C : Mat (Cplx ℝ) m m) : ℝ := l * loadingLevel C.realTrace m

theorem toMatrix_load (l : ℝ) (C : Mat (Cplx ℝ) m m) :
    (load l C).toMatrix = C.toMatrix + (amount l C : ℂ) • 1 := by
  rw [load, Mat.toMatrix_of]
  ext i j
  rw [Matrix.of_apply, Matrix.add_apply, Matrix.smul_apply, Matrix.one_apply, Cplx.toComplex_add,
    loadEntry, Cplx.toComplex_ofReal, smul_eq_mul]
  by_cases hij : i = j
  · rw [if_pos hij, if_pos (congrArg Fin.val hij), mul_one, mul_one]
    rfl
  · rw [if_neg hij, if_neg (fun h => hij (Fin.ext h)), mul_zero, mul_zero]
    rfl

/-- A load of a matrix given as a tensor. -/
theorem loadAny_ofMat {l : ℝ} (hl : 0 < l) (C : Mat (Cplx ℝ) m m) :
    loadAny (.real l) (.ofMat C) = .ok (.ofMat (load l C)) := by
  have hnumber : (Setting.real l).toNumber "loading" = .ok (.real l) := rfl
  have hpositive : ¬(Number.real l).belowZero = true := by
    rw [Number.belowZero_eq, decide_eq_true_iff]
    exact not_lt.mpr hl.le
  have hsquare : (Tensor.ofMat C).asSquare? = some ⟨m, C⟩ := by
    refine (dif_pos rfl).trans ?_
    rw [Tensor.toMat_ofMat]
  rw [loadAny, hnumber]
  dsimp only [bind, Except.bind]
  rw [if_neg hpositive, hsquare]
  rfl

/-! ## Minimum-variance weights -/

variable {l ratio : ℝ}

/-- The loaded covariance is positive definite. -/
theorem posDef_load (hl : 0 < l) {C : Mat (Cplx ℝ) m m} (hC : C.toMatrix.PosSemidef) :
    (load l C).toMatrix.PosDef := by
  have hamount : 0 < amount l C := mul_pos hl (loadingLevel_pos _ _)
  rw [toMatrix_load]
  exact PosDef.posSemidef_add hC (PosDef.one.smul (by exact_mod_cast hamount))

/-- A loaded covariance passes the test of singularity if the bound is small enough for the
factor and the number of elements. -/
theorem checkInterference_load {S : Solvers ℝ} (hS : S.IsExact) (hm : 0 < m) (hl : 0 < l)
    (hratio : ratio * (m + l) < l) {C : Mat (Cplx ℝ) m m} (hC : C.toMatrix.PosSemidef) :
    Weights.checkInterference S (.ok ratio) (load l C) = .ok () := by
  have hlevel := loadingLevel_pos C.realTrace m
  have hamount : 0 < amount l C := mul_pos hl hlevel
  have htrace : C.realTrace ≤ m * loadingLevel C.realTrace m := trace_le_mul_loadingLevel hm _
  have hvalues : ∀ i, (S.singularValues (load l C)).get i ∈
      Set.Icc (amount l C) (loadingLevel C.realTrace m * (m + l)) := by
    intro i
    have hbasis := hS.singular_basis (load l C)
    rw [toMatrix_load] at hbasis
    obtain ⟨hlow, hhigh⟩ := hbasis.mem_Icc_of_load hamount.le hC i
    rw [← realTrace_eq] at hhigh
    refine ⟨hlow, hhigh.trans ?_⟩
    unfold amount
    linarith
  refine Weights.checkInterference_eq_ok hamount ?_ hvalues
  calc loadingLevel C.realTrace m * (m + l) * ratio
      = loadingLevel C.realTrace m * (ratio * (m + l)) := by ring
    _ < loadingLevel C.realTrace m * l := mul_lt_mul_of_pos_left hratio hlevel
    _ = amount l C := mul_comm _ _

end Covariance

namespace Weights

theorem ofSnapshots_ofMat (S : Solvers ℝ) {l : ℝ} (hl : 0 < l) (ratio : ℝ) {g : Geometry ℝ}
    (hsize : g.size < Extent.greatestKept) {n : ℕ} (hn : 0 < n) (averaging : Bool)
    (X : Mat (Cplx ℝ) g.size n) (θ : ℝ) :
    ofSnapshots S (.real ratio) (.real l) g averaging (.ofMat X) (.real θ) =
      (minimumVariance S ratio g (Covariance.load l (Covariance.sample averaging X)) θ).map
        fun w => (.ofVector w, response w (g.steering θ)) := by
  rw [ofSnapshots, Snapshots.ofTensor_ofMat g.size_pos hn X.isFinite_eq_true]
  dsimp only [bind, Except.bind]
  rw [Covariance.loadAny_ofMat hl]
  dsimp only
  exact minimumVarianceOfTensor_ofMat S ratio hsize _ θ

/-- However few the snapshots and whatever they hold, a sample covariance that is loaded has
minimum-variance weights toward every direction.  They have unit power, and their response to
the direction is real and positive.  The bound on the ratio of the singular values has to leave
room for the factor: a covariance of rank one is loaded to singular values `l` and `m + l`, up to
the level. -/
theorem exists_minimumVariance_of_load {S : Solvers ℝ} (hS : S.IsExact) (g : Geometry ℝ) {n : ℕ}
    (hn : 0 < n) (X : Mat (Cplx ℝ) g.size n) (averaging : Bool) {l ratio : ℝ} (hl : 0 < l)
    (hratio : ratio * (g.size + l) < l) (θ : ℝ) :
    ∃ w, minimumVariance S ratio g (Covariance.load l (Covariance.sample averaging X)) θ = .ok w ∧
      Vec.norm w = 1 ∧ 0 < (response w (g.steering θ)).re ∧
      (response w (g.steering θ)).im = 0 ∧
      (g.size < Extent.greatestKept →
        ofSnapshots S (.real ratio) (.real l) g averaging (.ofMat X) (.real θ) =
          .ok (.ofVector w, response w (g.steering θ))) := by
  have hC := Covariance.posSemidef_sample averaging X
  have hcheck := Covariance.checkInterference_load hS g.size_pos hl hratio hC
  obtain ⟨w, hw, hnorm, hre, him⟩ :=
    exists_minimumVariance hS hcheck (Covariance.posDef_load hl hC) θ
  refine ⟨w, hw, hnorm, hre, him, fun hsize => ?_⟩
  rw [ofSnapshots_ofMat S hl ratio hsize hn, hw]
  rfl

/-- A single snapshot without a signal, whose covariance is zero. -/
theorem exists_minimumVariance_of_silence :
    ∃ w, minimumVariance .ideal 0.1 .standard (Covariance.load 1 (Covariance.sample true
        (Mat.of fun (_ : Fin Geometry.standard.size) (_ : Fin 1) => 0))) 0 = .ok w ∧
      Vec.norm w = 1 ∧ 0 < (response w (Geometry.standard.steering 0)).re ∧
      (response w (Geometry.standard.steering 0)).im = 0 ∧
      ofSnapshots .ideal (.real 0.1) (.real 1) .standard true
          (.ofMat (Mat.of fun (_ : Fin Geometry.standard.size) (_ : Fin 1) => 0)) (.real 0) =
        .ok (.ofVector w, response w (Geometry.standard.steering 0)) := by
  have hroom : (0.1 : ℝ) * (Geometry.standard.size + 1) < 1 := by
    norm_num [Geometry.standard]
  have hsize : Geometry.standard.size < Extent.greatestKept := by
    norm_num [Geometry.standard, Extent.greatestKept]
  obtain ⟨w, hw, hnorm, hre, him, htensor⟩ := exists_minimumVariance_of_load
    Solvers.ideal_isExact .standard one_pos (Mat.of fun _ _ => 0) true one_pos hroom 0
  exact ⟨w, hw, hnorm, hre, him, htensor hsize⟩

end Weights

end PhasedArray
