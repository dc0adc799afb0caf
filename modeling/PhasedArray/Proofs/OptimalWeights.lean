import Mathlib.Analysis.Matrix.Order
import PhasedArray.Proofs.Loading

set_option autoImplicit false

/-!
# Minimum-variance weights are optimal (SPEC §4.7)

Under a covariance `C` the weights `v` let the power `vᵀ C v̄` through, and the gain of `v` toward
`a` is the power of its response per power let through.  The inequality of Cauchy and Schwarz in
the inner product of `C` bounds every gain by `aᴴ C⁻¹ a`.  Minimum-variance weights reach the
bound before they are scaled, and scaling does not change a gain.
-/

namespace PhasedArray

open Matrix
open scoped ComplexOrder MatrixOrder

variable {n : ℕ}

/-! ## The inner product of a positive definite matrix -/

section Inner

variable {B : Matrix (Fin n) (Fin n) ℂ} (hB : B.PosDef)
include hB

theorem energy_pos {x : Fin n → ℂ} (hx : x ≠ 0) : 0 < energy B x :=
  (Complex.pos_iff.mp (hB.dotProduct_mulVec_pos hx)).1

/-- The energy of a vector under `B⁻¹` is that of its image under `B⁻¹`, taken under `B`. -/
theorem energy_inverse_mulVec (a : Fin n → ℂ) : energy B (B⁻¹ *ᵥ a) = energy B⁻¹ a := by
  have hunit : IsUnit B.det := hB.det_pos.ne'.isUnit
  rw [energy_mulVec, hB.inv.isHermitian.eq, nonsing_inv_mul B hunit, Matrix.one_mul]

/-- The inequality of Cauchy and Schwarz: with `B = Rᴴ R`, the product of `x̄` and `a` is that of
the conjugate of `R x` and `R B⁻¹ a`. -/
theorem norm_star_dotProduct_sq_le (x a : Fin n → ℂ) :
    ‖star x ⬝ᵥ a‖ ^ 2 ≤ energy B x * energy B⁻¹ a := by
  have hunit : IsUnit B.det := hB.det_pos.ne'.isUnit
  obtain ⟨R, hR⟩ := CStarAlgebra.nonneg_iff_eq_star_mul_self.mp hB.posSemidef.nonneg
  rw [star_eq_conjTranspose] at hR
  have hproduct : star x ⬝ᵥ a = star (R *ᵥ x) ⬝ᵥ R *ᵥ B⁻¹ *ᵥ a := by
    rw [star_mulVec, ← dotProduct_mulVec, mulVec_mulVec, ← hR, mulVec_mulVec,
      mul_nonsing_inv B hunit, one_mulVec]
  calc ‖star x ⬝ᵥ a‖ ^ 2 = ‖star (R *ᵥ x) ⬝ᵥ R *ᵥ B⁻¹ *ᵥ a‖ ^ 2 := by rw [hproduct]
    _ ≤ power (star (R *ᵥ x)) * power (R *ᵥ B⁻¹ *ᵥ a) := norm_dotProduct_sq_le _ _
    _ = energy B x * energy B (B⁻¹ *ᵥ a) := by
      rw [power_star, ← energy_gram, ← energy_gram, ← hR]
    _ = energy B x * energy B⁻¹ a := by rw [energy_inverse_mulVec hB]

end Inner

namespace Weights

/-! ## Gains -/

/-- The quadratic form `vᵀ C v̄`, which the weights `v` let through under the covariance `C`. -/
noncomputable def outputForm (C : Mat (Cplx ℝ) n n) (v : Vector (Cplx ℝ) n) : ℂ :=
  Vec.toComplex v ⬝ᵥ C.toMatrix *ᵥ star (Vec.toComplex v)

/-- Its real part is a power. -/
noncomputable def outputPower (C : Mat (Cplx ℝ) n n) (v : Vector (Cplx ℝ) n) : ℝ :=
  (outputForm C v).re

/-- The power of the response to `a` per power let through. -/
noncomputable def gain (C : Mat (Cplx ℝ) n n) (a v : Vector (Cplx ℝ) n) : ℝ :=
  ‖(response v a).toComplex‖ ^ 2 / outputPower C v

theorem outputPower_eq_energy (C : Mat (Cplx ℝ) n n) (v : Vector (Cplx ℝ) n) :
    outputPower C v = energy C.toMatrix (star (Vec.toComplex v)) := by
  rw [outputPower, outputForm, energy, star_star]

/-- Weights that are a multiple of others let the square of it through. -/
theorem outputPower_unit (C : Mat (Cplx ℝ) n n) (v : Vector (Cplx ℝ) n) :
    outputPower C (unit v) = (Vec.norm v)⁻¹ ^ 2 * outputPower C v := by
  rw [outputPower_eq_energy, outputPower_eq_energy, toComplex_unit, star_smul, RCLike.star_def,
    Complex.conj_ofReal, energy_smul_vec, Complex.norm_real, Real.norm_eq_abs, sq_abs]

/-- Scaling weights to unit power does not change a gain. -/
theorem gain_unit (C : Mat (Cplx ℝ) n n) (a : Vector (Cplx ℝ) n) {v : Vector (Cplx ℝ) n}
    (hv : 0 < power (Vec.toComplex v)) : gain C a (unit v) = gain C a v := by
  have hlength : (Vec.norm v)⁻¹ ^ 2 ≠ 0 := by
    rw [inv_pow, Vec.sq_norm]
    exact inv_ne_zero hv.ne'
  have hresponse : ‖(response (unit v) a).toComplex‖ ^ 2 =
      (Vec.norm v)⁻¹ ^ 2 * ‖(response v a).toComplex‖ ^ 2 := by
    rw [toComplex_response, toComplex_response, toComplex_unit,
      smul_dotProduct, smul_eq_mul, norm_mul, mul_pow, Complex.norm_real, Real.norm_eq_abs, sq_abs]
  rw [gain, gain, hresponse, outputPower_unit, mul_div_mul_left _ _ hlength]

/-- Weights of unit power that answer `a` by a positive number, and whose gain toward `a` is the
power `aᴴ C⁻¹ a` and greatest among all weights. -/
structure IsOptimal (C : Mat (Cplx ℝ) n n) (a w : Vector (Cplx ℝ) n) : Prop where
  norm_eq_one : Vec.norm w = 1
  re_pos : 0 < (response w a).re
  im_eq_zero : (response w a).im = 0
  gain_eq : (gain C a w : ℂ) = star (Vec.toComplex a) ⬝ᵥ C.toMatrix⁻¹ *ᵥ Vec.toComplex a
  outputForm_eq : ∀ v, outputForm C v = (outputPower C v : ℂ)
  outputPower_pos : ∀ v, Vec.toComplex v ≠ 0 → 0 < outputPower C v
  gain_le : ∀ v, Vec.toComplex v ≠ 0 → gain C a v ≤ gain C a w

section Optimal

variable {C : Mat (Cplx ℝ) n n} (hC : C.toMatrix.PosDef) {a : Vector (Cplx ℝ) n}
include hC

/-- The power let through is real. -/
theorem outputForm_eq (v : Vector (Cplx ℝ) n) : outputForm C v = (outputPower C v : ℂ) := by
  apply Complex.ext
  · rfl
  · have him := hC.isHermitian.im_star_dotProduct_mulVec_self (star (Vec.toComplex v))
    rwa [star_star] at him

theorem outputPower_pos {v : Vector (Cplx ℝ) n} (hv : Vec.toComplex v ≠ 0) :
    0 < outputPower C v := by
  rw [outputPower_eq_energy]
  exact energy_pos hC (star_ne_zero.mpr hv)

/-- No weights have a greater gain toward `a` than the power of `a` under the inverse. -/
theorem gain_le_inversePower {v : Vector (Cplx ℝ) n} (hv : Vec.toComplex v ≠ 0) :
    gain C a v ≤ inversePower C a := by
  have hbound := norm_star_dotProduct_sq_le hC (star (Vec.toComplex v)) (Vec.toComplex a)
  rw [star_star, ← outputPower_eq_energy] at hbound
  rw [gain, div_le_iff₀' (outputPower_pos hC hv), toComplex_response]
  exact hbound

/-- The weights before scaling let the inverse of that power through. -/
theorem outputPower_direction : outputPower C (direction C a) = (inversePower C a)⁻¹ := by
  have hstar : star (Vec.toComplex (direction C a)) =
      (((inversePower C a)⁻¹ : ℝ) : ℂ) • C.toMatrix⁻¹ *ᵥ Vec.toComplex a := by
    rw [toComplex_direction, star_smul, star_star, Complex.ofReal_inv, RCLike.star_def, map_inv₀,
      Complex.conj_ofReal]
  rw [outputPower_eq_energy, hstar, energy_smul_vec, Complex.norm_real, Real.norm_eq_abs, sq_abs,
    energy_inverse_mulVec hC]
  change (inversePower C a)⁻¹ ^ 2 * inversePower C a = _
  rcases eq_or_ne (inversePower C a) 0 with hzero | hne
  · rw [hzero]
    simp
  · field_simp

theorem gain_direction (ha : Vec.toComplex a ≠ 0) :
    gain C a (direction C a) = inversePower C a := by
  rw [gain, response_direction hC ha, norm_one, one_pow, outputPower_direction hC, one_div, inv_inv]

theorem isOptimal_unit_direction (ha : Vec.toComplex a ≠ 0) :
    IsOptimal C a (unit (direction C a)) := by
  have hgain : gain C a (unit (direction C a)) = inversePower C a :=
    (gain_unit C a (power_direction_pos hC ha)).trans (gain_direction hC ha)
  obtain ⟨hre, him⟩ := response_unit_direction hC ha
  refine ⟨norm_unit_direction hC ha, hre, him, ?_, outputForm_eq hC,
    fun _ => outputPower_pos hC, ?_⟩
  · rw [hgain, star_dotProduct_inverse hC]
  · intro v hv
    rw [hgain]
    exact gain_le_inversePower hC hv

end Optimal

/-! ## Toward a direction -/

/-- Under a positive definite covariance that passes the test of singularity there are weights
toward every direction, and they are optimal. -/
theorem minimumVariance_optimal {S : Solvers ℝ} (hS : S.IsExact) {ratio : ℝ} {g : Geometry ℝ}
    {C : Mat (Cplx ℝ) g.size g.size} (hC : C.toMatrix.PosDef)
    (hcheck : checkInterference S (.ok ratio) C = .ok ()) (θ : ℝ) :
    ∃ w, minimumVariance S ratio g C θ = .ok w ∧ IsOptimal C (g.steering θ) w ∧
      (g.size < Extent.greatestKept →
        minimumVarianceOfTensor S (.real ratio) g (.ofMat C) (.real θ) =
          .ok (.ofVector w, response w (g.steering θ))) := by
  have hw := minimumVariance_eq hS hcheck hC θ
  refine ⟨_, hw, isOptimal_unit_direction hC (steering_ne_zero g θ), fun hsize => ?_⟩
  rw [minimumVarianceOfTensor_ofMat S ratio hsize, hw]
  rfl

/-- The loaded covariance of one snapshot of a wave from broadside. -/
theorem minimumVariance_optimal_broadside :
    ∃ w, minimumVariance .ideal 0.1 .standard (Covariance.load 1 (Covariance.sample true
        (Mat.of fun (_ : Fin Geometry.standard.size) (_ : Fin 1) => .ofReal 1))) 0 = .ok w ∧
      IsOptimal (Covariance.load 1 (Covariance.sample true
        (Mat.of fun (_ : Fin Geometry.standard.size) (_ : Fin 1) => .ofReal 1)))
        (Geometry.standard.steering 0) w ∧
      minimumVarianceOfTensor .ideal (.real 0.1) .standard
          (.ofMat (Covariance.load 1 (Covariance.sample true
            (Mat.of fun (_ : Fin Geometry.standard.size) (_ : Fin 1) => .ofReal 1)))) (.real 0) =
        .ok (.ofVector w, response w (Geometry.standard.steering 0)) := by
  have hC := Covariance.posSemidef_sample true
    (Mat.of fun (_ : Fin Geometry.standard.size) (_ : Fin 1) => (.ofReal 1 : Cplx ℝ))
  have hroom : (0.1 : ℝ) * (Geometry.standard.size + 1) < 1 := by
    norm_num [Geometry.standard]
  have hsize : Geometry.standard.size < Extent.greatestKept := by
    norm_num [Geometry.standard, Extent.greatestKept]
  have hcheck := Covariance.checkInterference_load Solvers.ideal_isExact
    Geometry.standard.size_pos one_pos hroom hC
  obtain ⟨w, hw, hoptimal, htensor⟩ := minimumVariance_optimal Solvers.ideal_isExact
    (Covariance.posDef_load one_pos hC) hcheck 0
  exact ⟨w, hw, hoptimal, htensor hsize⟩

end Weights

end PhasedArray
