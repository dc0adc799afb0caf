import PhasedArray.Proofs.NoiselessScene
import PhasedArray.Proofs.OptimalWeights

set_option autoImplicit false

/-!
# Minimum variance against a lone interferer (SPEC §4.7)

White noise and one interferer make a covariance of the form `σ I + p b bᴴ`.  Weights of unit power
let the noise through as it is, and of the interferer as much as they respond to it.  So the gain of
weights is a matter of two responses: minimum-variance weights have the greatest gain, the matched
filter has the greatest response to the target, and the former cannot respond to the interferer more
than the latter.  They respond to it as much only if they are the matched filter up to a phase, for
which the steering vector has to be an eigenvector of the covariance.
-/

namespace PhasedArray

open Matrix
open scoped ComplexOrder

namespace Weights

variable {n : ℕ}

/-! ## The covariance -/

/-- The covariance of white noise and of one interferer that arrives with the vector `b`. -/
noncomputable def loneInterferer (noise strength : ℝ) (b : Vector (Cplx ℝ) n) :
    Mat (Cplx ℝ) n n :=
  .ofMatrix ((noise : ℂ) • 1 +
    (strength : ℂ) • vecMulVec (Vec.toComplex b) (star (Vec.toComplex b)))

theorem toMatrix_loneInterferer (noise strength : ℝ) (b : Vector (Cplx ℝ) n) :
    (loneInterferer noise strength b).toMatrix = (noise : ℂ) • 1 +
      (strength : ℂ) • vecMulVec (Vec.toComplex b) (star (Vec.toComplex b)) :=
  Mat.toMatrix_ofMatrix _

/-- The weights let the noise through by their power, and the interferer by their response. -/
theorem outputPower_loneInterferer (noise strength : ℝ) (b v : Vector (Cplx ℝ) n) :
    outputPower (loneInterferer noise strength b) v =
      noise * power (Vec.toComplex v) + strength * ‖(response v b).toComplex‖ ^ 2 := by
  have hinterferer := energy_vecMulVec (star (Vec.toComplex v)) (star (Vec.toComplex b))
  rw [star_star, star_dotProduct_star, norm_star, dotProduct_comm, ← toComplex_response]
    at hinterferer
  rw [outputPower_eq_energy, toMatrix_loneInterferer, energy_add, energy_smul, energy_smul,
    energy_one, power_star, hinterferer]

section Interferer

variable {noise strength : ℝ} (hnoise : 0 < noise) (hstrength : 0 ≤ strength)
  (b : Vector (Cplx ℝ) n)

include hstrength in
theorem posSemidef_interferer : ((strength : ℂ) •
    vecMulVec (Vec.toComplex b) (star (Vec.toComplex b))).PosSemidef :=
  (posSemidef_vecMulVec_self_star _).smul (by exact_mod_cast hstrength)

include hnoise hstrength in
theorem posDef_loneInterferer : (loneInterferer noise strength b).toMatrix.PosDef := by
  rw [toMatrix_loneInterferer]
  exact (PosDef.one.smul (by exact_mod_cast hnoise)).add_posSemidef
    (posSemidef_interferer hstrength b)

include hnoise hstrength in
/-- It passes the test of singularity if the trace is not too large for the noise. -/
theorem checkInterference_loneInterferer {S : Solvers ℝ} (hS : S.IsExact) {ratio : ℝ}
    (hratio : (strength * power (Vec.toComplex b) + noise) * ratio < noise) :
    checkInterference S (.ok ratio) (loneInterferer noise strength b) = .ok () := by
  have htrace : (((strength : ℂ) •
      vecMulVec (Vec.toComplex b) (star (Vec.toComplex b))).trace).re =
        strength * power (Vec.toComplex b) := by
    rw [trace_smul, trace_vecMulVec, dotProduct_comm, star_dotProduct_self, smul_eq_mul,
      ← Complex.ofReal_mul, Complex.ofReal_re]
  refine checkInterference_eq_ok hnoise hratio fun i => ?_
  have hbasis := hS.singular_basis (loneInterferer noise strength b)
  rw [toMatrix_loneInterferer, add_comm] at hbasis
  have hvalue := hbasis.mem_Icc_of_load hnoise.le (posSemidef_interferer hstrength b) i
  rwa [htrace] at hvalue

/-! ## Weights with a greater gain -/

variable {a : Vector (Cplx ℝ) n} (ha : Vec.toComplex a ≠ 0)

include hnoise hstrength in
/-- Weights of unit power that answer `a` less than the matched filter, but gain as much toward it,
hear less of the interferer. -/
theorem heard_lt_of_gain_le {v : Vector (Cplx ℝ) n} (hv : Vec.norm v = 1)
    (hfilter : Vec.norm (filterOf a) = 1)
    (hless : ‖(response v a).toComplex‖ < ‖(response (filterOf a) a).toComplex‖)
    (hgain : gain (loneInterferer noise strength b) a (filterOf a) ≤
      gain (loneInterferer noise strength b) a v) :
    strength * ‖(response v b).toComplex‖ ^ 2 <
      strength * ‖(response (filterOf a) b).toComplex‖ ^ 2 := by
  have hheard : ∀ u : Vector (Cplx ℝ) n, 0 < noise + strength * ‖(response u b).toComplex‖ ^ 2 :=
    fun u => add_pos_of_pos_of_nonneg hnoise (mul_nonneg hstrength (sq_nonneg _))
  rw [gain, gain, outputPower_loneInterferer, outputPower_loneInterferer,
    Vec.norm_eq_one_iff.mp hv, Vec.norm_eq_one_iff.mp hfilter, mul_one,
    div_le_div_iff₀ (hheard _) (hheard _)] at hgain
  have hsquare := pow_lt_pow_left₀ hless (norm_nonneg _) two_ne_zero
  have hnoisy : noise + strength * ‖(response v b).toComplex‖ ^ 2 <
      noise + strength * ‖(response (filterOf a) b).toComplex‖ ^ 2 := by
    refine lt_of_mul_lt_mul_left (hgain.trans_lt ?_) (sq_nonneg _)
    exact mul_lt_mul_of_pos_right hsquare (hheard _)
  exact lt_of_add_lt_add_left hnoisy

include hnoise hstrength ha in
/-- Minimum-variance weights are the matched filter up to a phase, or hear less of the interferer
than that. -/
theorem phase_or_heard_lt :
    (∃ z : ℂ, ‖z‖ = 1 ∧ Vec.toComplex (unit (direction (loneInterferer noise strength b) a)) =
      z • Vec.toComplex (filterOf a)) ∨
    strength * ‖(response (unit (direction (loneInterferer noise strength b) a)) b).toComplex‖ ^ 2 <
      strength * ‖(response (filterOf a) b).toComplex‖ ^ 2 := by
  have hoptimal := isOptimal_unit_direction (posDef_loneInterferer hnoise hstrength b) ha
  have hfilter : Vec.norm (filterOf a) = 1 := norm_filterOf ha
  have hnonzero : Vec.toComplex (filterOf a) ≠ 0 := by
    intro h
    rw [Vec.norm_eq_one_iff, h] at hfilter
    simp [power] at hfilter
  by_cases hloud : Vec.norm a ≤
      ‖(response (unit (direction (loneInterferer noise strength b) a)) a).toComplex‖
  · exact .inl (exists_phase hoptimal.norm_eq_one ha hloud)
  · refine .inr (heard_lt_of_gain_le hnoise hstrength b hoptimal.norm_eq_one hfilter ?_
      (hoptimal.gain_le _ hnonzero))
    rw [response_filterOf, Complex.norm_real, Real.norm_of_nonneg (norm_pos ha).le]
    exact not_le.mp hloud

include ha in
/-- Minimum-variance weights that are the matched filter up to a phase come from a steering vector
that is an eigenvector of the covariance. -/
theorem exists_eigenvalue_of_phase {C : Mat (Cplx ℝ) n n} (hC : C.toMatrix.PosDef) {z : ℂ}
    (hphase : Vec.toComplex (unit (direction C a)) = z • Vec.toComplex (filterOf a)) :
    ∃ μ : ℂ, C.toMatrix *ᵥ Vec.toComplex a = μ • Vec.toComplex a := by
  have hscale : (((Vec.norm (direction C a))⁻¹ : ℝ) : ℂ) * (inversePower C a : ℂ)⁻¹ ≠ 0 := by
    have hlength : Vec.norm (direction C a) ≠ 0 :=
      (Vec.norm_pos_iff.mpr (power_direction_pos hC ha)).ne'
    exact mul_ne_zero (Complex.ofReal_ne_zero.mpr (inv_ne_zero hlength))
      (inv_ne_zero (Complex.ofReal_ne_zero.mpr (inversePower_pos hC ha).ne'))
  rw [toComplex_unit, toComplex_direction, toComplex_filterOf, smul_smul, smul_smul,
    ← eq_inv_smul_iff₀ hscale, smul_smul] at hphase
  -- without the conjugates the inverse scales the steering vector, hence so does the covariance
  obtain ⟨c, hinverse⟩ : ∃ c : ℂ, C.toMatrix⁻¹ *ᵥ Vec.toComplex a = c • Vec.toComplex a := by
    have hconj := congrArg star hphase
    rw [star_star, star_smul, star_star] at hconj
    exact ⟨_, hconj⟩
  have hback : Vec.toComplex a = c • C.toMatrix *ᵥ Vec.toComplex a := by
    rw [← mulVec_smul, ← hinverse, mulVec_mulVec, mul_nonsing_inv _ hC.det_pos.ne'.isUnit,
      one_mulVec]
  have hc : c ≠ 0 := by
    rintro rfl
    exact ha (hback.trans (zero_smul ℂ _))
  exact ⟨c⁻¹, (eq_inv_smul_iff₀ hc).mpr hback.symm⟩

/-- A steering vector that is an eigenvector of the covariance and has a part along the interferer
is parallel to it. -/
theorem parallel_of_eigenvalue (hpresent : strength ≠ 0) {μ : ℂ}
    (heigen : (loneInterferer noise strength b).toMatrix *ᵥ Vec.toComplex a = μ • Vec.toComplex a)
    (hpart : star (Vec.toComplex b) ⬝ᵥ Vec.toComplex a ≠ 0) :
    ∃ z : ℂ, Vec.toComplex b = z • Vec.toComplex a := by
  have himage : (loneInterferer noise strength b).toMatrix *ᵥ Vec.toComplex a =
      (noise : ℂ) • Vec.toComplex a +
        ((strength : ℂ) * (star (Vec.toComplex b) ⬝ᵥ Vec.toComplex a)) • Vec.toComplex b := by
    rw [toMatrix_loneInterferer, add_mulVec, smul_mulVec, one_mulVec, smul_mulVec,
      vecMulVec_mulVec, op_smul_eq_smul, smul_smul]
  rw [himage, add_comm, ← eq_sub_iff_add_eq, ← sub_smul] at heigen
  have hscale : (strength : ℂ) * (star (Vec.toComplex b) ⬝ᵥ Vec.toComplex a) ≠ 0 :=
    mul_ne_zero (Complex.ofReal_ne_zero.mpr hpresent) hpart
  rw [← eq_inv_smul_iff₀ hscale, smul_smul] at heigen
  exact ⟨_, heigen⟩

include hnoise hstrength ha in
/-- Minimum-variance weights never hear the interferer louder than the matched filter. -/
theorem norm_response_direction_le :
    ‖(response (unit (direction (loneInterferer noise strength b) a)) b).toComplex‖ ≤
      ‖(response (filterOf a) b).toComplex‖ := by
  rcases phase_or_heard_lt hnoise hstrength b ha with ⟨z, hz, hphase⟩ | hless
  · rw [toComplex_response, toComplex_response, hphase, smul_dotProduct, smul_eq_mul, norm_mul, hz,
      one_mul]
  · exact (lt_of_pow_lt_pow_left₀ 2 (norm_nonneg _) (lt_of_mul_lt_mul_left hless hstrength)).le

include hnoise hstrength ha in
/-- They hear it less if it is there, the matched filter hears it, and it does not arrive like the
target. -/
theorem norm_response_direction_lt (hpresent : 0 < strength)
    (happart : ¬∃ z : ℂ, Vec.toComplex b = z • Vec.toComplex a)
    (hheard : (response (filterOf a) b).toComplex ≠ 0) :
    ‖(response (unit (direction (loneInterferer noise strength b) a)) b).toComplex‖ <
      ‖(response (filterOf a) b).toComplex‖ := by
  rcases phase_or_heard_lt hnoise hstrength b ha with ⟨z, -, hphase⟩ | hless
  · obtain ⟨μ, heigen⟩ :=
      exists_eigenvalue_of_phase ha (posDef_loneInterferer hnoise hstrength b) hphase
    refine absurd (parallel_of_eigenvalue b hpresent.ne' heigen ?_) happart
    intro hzero
    apply hheard
    rw [toComplex_response, toComplex_filterOf, smul_dotProduct, star_dotProduct, hzero, star_zero,
      smul_zero]
  · exact lt_of_pow_lt_pow_left₀ 2 (norm_nonneg _) (lt_of_mul_lt_mul_left hless hstrength)

end Interferer

/-! ## Toward a direction -/

/-- Whatever vector an interferer arrives with, minimum-variance weights toward a direction respond
to it no louder than the matched filter of that direction, and less loud if there is power in the
interferer, the matched filter responds to it, and it does not arrive like the direction. -/
theorem minimumVariance_quieter {S : Solvers ℝ} (hS : S.IsExact) {ratio noise strength : ℝ}
    (hnoise : 0 < noise) (hstrength : 0 ≤ strength) {g : Geometry ℝ} (b : Vector (Cplx ℝ) g.size)
    (hcheck : checkInterference S (.ok ratio) (loneInterferer noise strength b) = .ok ())
    (θ : ℝ) :
    ∃ w m, minimumVariance S ratio g (loneInterferer noise strength b) θ = .ok w ∧
      matched g θ = .ok m ∧ (response w b).abs ≤ (response m b).abs ∧
      (0 < strength → (¬∃ z : ℂ, Vec.toComplex b = z • Vec.toComplex (g.steering θ)) →
        (response m b).abs ≠ 0 → (response w b).abs < (response m b).abs) ∧
      (g.size < Extent.greatestKept →
        minimumVarianceOfTensor S (.real ratio) g (.ofMat (loneInterferer noise strength b))
            (.real θ) = .ok (.ofVector w, response w (g.steering θ)) ∧
        matchedToward g (.real θ) = .ok (.ofVector m)) := by
  have ha := steering_ne_zero g θ
  have hw := minimumVariance_eq hS hcheck (posDef_loneInterferer hnoise hstrength b) θ
  refine ⟨_, _, hw, matched_eq g θ, ?_, ?_, fun hsize => ⟨?_, matchedToward_eq g θ hsize⟩⟩
  · rw [Cplx.abs_eq_norm, Cplx.abs_eq_norm]
    exact norm_response_direction_le hnoise hstrength b ha
  · intro hpresent happart hheard
    rw [Cplx.abs_eq_norm] at hheard
    rw [Cplx.abs_eq_norm, Cplx.abs_eq_norm]
    exact norm_response_direction_lt hnoise hstrength b ha hpresent happart
      (norm_ne_zero_iff.mp hheard)
  · rw [minimumVarianceOfTensor_ofMat S ratio hsize, hw]
    rfl

/-- Two elements that look straight ahead, with an interferer as strong as the noise at a sixth of
a half turn. -/
theorem minimumVariance_quieter_pair :
    ∃ w m, minimumVariance .ideal 0.1 .pair
        (loneInterferer 1 1 (Geometry.pair.steering (Real.pi / 6))) 0 = .ok w ∧
      matched .pair 0 = .ok m ∧
      (response w (Geometry.pair.steering (Real.pi / 6))).abs <
        (response m (Geometry.pair.steering (Real.pi / 6))).abs := by
  have hahead : Vec.toComplex (Geometry.pair.steering 0) = ![1, 1] := by
    rw [Geometry.toComplex_steering_pair, Geometry.phasor_pair_zero]
  have haside : Vec.toComplex (Geometry.pair.steering (Real.pi / 6)) = ![1, Complex.I] := by
    rw [Geometry.toComplex_steering_pair, Geometry.phasor_pair_mirrored]
  have hpower : power (Vec.toComplex (Geometry.pair.steering (Real.pi / 6))) = 2 := by
    exact (power_of_norm_eq_one (Geometry.pair.norm_steering _)).trans Nat.cast_two
  have hcheck : checkInterference .ideal (.ok 0.1)
      (loneInterferer 1 1 (Geometry.pair.steering (Real.pi / 6))) = .ok () := by
    apply checkInterference_loneInterferer one_pos zero_le_one _ Solvers.ideal_isExact
    rw [hpower]
    norm_num
  have happart : ¬∃ z : ℂ, Vec.toComplex (Geometry.pair.steering (Real.pi / 6)) =
      z • Vec.toComplex (Geometry.pair.steering 0) := by
    rintro ⟨z, hz⟩
    rw [haside, hahead] at hz
    have hfirst : 1 = z * 1 := congrFun hz 0
    have hsecond : Complex.I = z * 1 := congrFun hz 1
    exact zero_ne_one (congrArg Complex.re (hsecond.trans hfirst.symm))
  obtain ⟨w, m, hw, hm, -, hless, -⟩ := minimumVariance_quieter Solvers.ideal_isExact one_pos
    zero_le_one (Geometry.pair.steering (Real.pi / 6)) hcheck 0
  refine ⟨w, m, hw, hm, hless one_pos happart ?_⟩
  have hfilter : m = filterOf (Geometry.pair.steering 0) :=
    Except.ok.inj (hm.symm.trans (matched_eq _ _))
  rw [hfilter, Cplx.abs_eq_norm, norm_ne_zero_iff, toComplex_response, toComplex_filterOf,
    smul_dotProduct, haside, hahead, norm_steering]
  have hlength : √(Geometry.pair.size : ℝ) ≠ 0 :=
    (Real.sqrt_pos.mpr (Nat.cast_pos.mpr Geometry.pair.size_pos)).ne'
  have hsum : star ![1, 1] ⬝ᵥ ![1, Complex.I] = 1 + Complex.I := by
    rw [dotProduct, Fin.sum_univ_two]
    simp
  refine smul_ne_zero (Complex.ofReal_ne_zero.mpr (inv_ne_zero hlength)) fun hzero => ?_
  have hre := congrArg Complex.re (hsum.symm.trans hzero)
  norm_num at hre

end Weights

end PhasedArray
