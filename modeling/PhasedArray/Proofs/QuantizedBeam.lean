import PhasedArray.Proofs.MatchedFilter
import PhasedArray.Proofs.PhaseQuantization

set_option autoImplicit false

/-!
# Beams of quantised phase (SPEC §4.7)

Phase shifters keep the phases of weights up to half a step and forget their moduli.  What each
element contributes then turns away from the common phase by half a step at most, so that its
real part keeps the cosine of that, and so does the sum over all elements.  A matched filter has
equal moduli to begin with: quantising its phases costs no more than that factor of its gain.
-/

namespace PhasedArray

open Matrix

namespace Weights

/-! ## Matched filters -/

variable (g : Geometry ℝ) (θ : ℝ)

/-- The moduli of a matched filter add up to its gain. -/
theorem sum_norm_matchedFilter : ∑ i, ‖Vec.toComplex (matchedFilter g θ) i‖ = √g.size := by
  have heach : ∀ i, ‖Vec.toComplex (matchedFilter g θ) i‖ = 1 / √g.size := by
    intro i
    rw [Vec.toComplex_apply, ← Cplx.abs_eq_norm]
    exact abs_unit_of_unimodular (norm_conj_steering g θ) i
  simp only [heach]
  rw [Finset.sum_const, Finset.card_univ, Fintype.card_fin, nsmul_eq_mul, mul_one_div,
    Real.div_sqrt]

/-- Scaled weights respond to the steering vector as the weights do to its matched filter. -/
theorem response_unit_steering {v : Vector (Cplx ℝ) g.size}
    (hv : ∀ i, ‖Vec.toComplex v i‖ = 1) :
    (response (unit v) (g.steering θ)).toComplex =
      Vec.toComplex v ⬝ᵥ star (Vec.toComplex (matchedFilter g θ)) := by
  have hfilter : star (Vec.toComplex (matchedFilter g θ)) =
      (((√g.size)⁻¹ : ℝ) : ℂ) • Vec.toComplex (g.steering θ) := by
    rw [matchedFilter, toComplex_unit,
      norm_of_unimodular (norm_conj_steering g θ), Vec.toComplex_map_conj, star_smul,
      RCLike.star_def, Complex.conj_ofReal, star_star]
  rw [toComplex_response, toComplex_unit,
    norm_of_unimodular hv, hfilter, smul_dotProduct, dotProduct_smul]

end Weights

namespace PhaseShifter

/-! ## Angles -/

/-- The cosine sees the distance on the circle. -/
theorem cos_circularDistance (x y : ℝ) : Real.cos (circularDistance x y) = Real.cos (x - y) := by
  rw [circularDistance, AddCircle.norm_eq, Real.cos_abs, turn_eq, Real.cos_sub_int_mul_two_pi]

theorem cos_le_of_circularDistance_le {x y δ : ℝ} (hδ : δ ≤ Real.pi)
    (h : circularDistance x y ≤ δ) : Real.cos δ ≤ Real.cos (x - y) := by
  rw [← cos_circularDistance]
  exact Real.cos_le_cos_of_nonneg_of_le_pi (norm_nonneg _) hδ h

/-- Wrapping an angle takes whole turns away. -/
theorem cos_sub_wrap (x y : ℝ) : Real.cos (x - wrap y) = Real.cos (x - y) := by
  have hwrap : wrap y = y - ((⌊y / turn⌋ : ℤ) : ℝ) * (2 * Real.pi) := by
    have hlt := (Exact.modulo_mem turn_pos y).2
    calc wrap y = Exact.modulo y turn := if_neg (not_le.mpr hlt)
      _ = _ := by rw [Exact.modulo, turn_eq, mul_comm]
  rw [hwrap, ← sub_add, Real.cos_add_int_mul_two_pi]

/-- A phasor against a complex number. -/
theorem re_exp_mul_star (ψ : ℝ) (z : ℂ) :
    (Complex.exp (ψ * Complex.I) * star z).re = ‖z‖ * Real.cos (ψ - z.arg) := by
  have hstar : star z = (‖z‖ : ℂ) * Complex.exp (-(z.arg * Complex.I)) := by
    conv_lhs => rw [← Complex.norm_mul_exp_arg_mul_I z]
    rw [star_mul', RCLike.star_def, Complex.conj_ofReal, ← Complex.exp_conj, map_mul,
      Complex.conj_ofReal, Complex.conj_I, mul_neg]
  rw [hstar, mul_left_comm, ← Complex.exp_add, ← sub_eq_add_neg, ← sub_mul, ← Complex.ofReal_sub,
    Complex.re_ofReal_mul, Complex.exp_ofReal_mul_I_re]

/-! ## Weights of quantised phase -/

variable {n : ℕ}

/-- The phasors of the quantised phases of weights. -/
noncomputable def phased (b : ℕ) (w : Vector (Cplx ℝ) n) : Vector (Cplx ℝ) n :=
  w.map fun z => Cplx.cis (quantize b (phase z))

theorem toComplex_phased (b : ℕ) (w : Vector (Cplx ℝ) n) (i : Fin n) :
    Vec.toComplex (phased b w) i = Complex.exp (quantize b (phase (w.get i)) * Complex.I) := by
  rw [phased, Vec.toComplex_map]
  exact Cplx.toComplex_cis _

theorem norm_phased (b : ℕ) (w : Vector (Cplx ℝ) n) (i : Fin n) :
    ‖Vec.toComplex (phased b w) i‖ = 1 := by
  rw [toComplex_phased, Complex.norm_exp_ofReal_mul_I]

/-- The weights of phases that are read off a vector. -/
theorem weights_mapReal (g : Geometry ℝ) (f : Cplx ℝ → ℝ) (w : Vector (Cplx ℝ) g.size) :
    weights g (.tensor ((Tensor.ofVector w).mapReal f)) =
      Weights.normalize (w.map fun z => Cplx.cis (f z)) := by
  have hvector : ((Tensor.ofVector w).mapReal f).asVectorOf? g.size =
      some (w.map fun z => .ofReal (f z)) := dif_pos rfl
  have hcis : ((w.map fun z => Cplx.ofReal (f z)).map Cplx.re).map Cplx.cis =
      w.map fun z => Cplx.cis (f z) := by
    simp [Function.comp_def, Cplx.ofReal]
  rw [weights, Setting.toReal_mapReal]
  simp only [bind, Except.bind, hvector, weightsOf, hcis]

/-- Weights that are quantised are those phasors, scaled. -/
theorem quantizedWeights_ofVector (g : Geometry ℝ) (b : ℕ) (w : Vector (Cplx ℝ) g.size) :
    quantizedWeights g (.ofVector w) (.whole b) = .ok (Weights.unit (phased b w)) := by
  have hphases : phases (.ofVector w) = .ok ((Tensor.ofVector w).mapReal phase) := rfl
  have hlevels : quantizeAll (.whole b) (.tensor ((Tensor.ofVector w).mapReal phase)) =
      .ok ((Tensor.ofVector w).mapReal fun z => quantize b (phase z)) := by
    have hrank : ((Tensor.ofVector w).mapReal phase).rank ≠ 0 := Nat.one_ne_zero
    rw [quantizeAll_of_toReal b (Setting.toReal_mapReal _ _) hrank, Tensor.mapReal_mapReal]
    rfl
  rw [← Weights.normalize_of_unimodular (norm_phased b w) g.size_pos, phased, ← weights_mapReal]
  simp only [quantizedWeights, hphases, hlevels, bind, Except.bind]

/-- Each weight keeps its direction up to half a step. -/
theorem le_re_phased_mul_star {b : ℕ} (hb : b ≤ 16) (w : Vector (Cplx ℝ) n) (i : Fin n) :
    Real.cos (Real.pi / 2 ^ b) * ‖Vec.toComplex w i‖ ≤
      (Vec.toComplex (phased b w) i * star (Vec.toComplex w i)).re := by
  have hclose := (forall_circularDistance_le_iff b).mpr hb (phase (w.get i))
  rw [half_step_eq] at hclose
  have hhalf : Real.pi / 2 ^ b ≤ Real.pi :=
    div_le_self Real.pi_pos.le (one_le_pow₀ one_le_two)
  have hcos := cos_le_of_circularDistance_le hhalf hclose
  rw [phase, cos_sub_wrap, Cplx.arg_eq_arg] at hcos
  rw [toComplex_phased, re_exp_mul_star, mul_comm]
  exact mul_le_mul_of_nonneg_left hcos (norm_nonneg _)

/-- All of them together keep as much of the sum of the moduli. -/
theorem le_norm_phased_dotProduct {b : ℕ} (hb : b ≤ 16) (w : Vector (Cplx ℝ) n) :
    Real.cos (Real.pi / 2 ^ b) * ∑ i, ‖Vec.toComplex w i‖ ≤
      ‖Vec.toComplex (phased b w) ⬝ᵥ star (Vec.toComplex w)‖ := by
  rw [Finset.mul_sum]
  refine (Finset.sum_le_sum fun i _ => le_re_phased_mul_star hb w i).trans ?_
  rw [← Complex.re_sum]
  exact Complex.re_le_norm _

/-- Quantising a matched filter leaves its elements equal moduli and unit power, and no less than
the cosine of half a step of its gain. -/
theorem quantizedWeights_matched (g : Geometry ℝ) (θ : ℝ) {b : ℕ} (hb : b ≤ 16) :
    ∃ w wq : Vector (Cplx ℝ) g.size, Weights.matched g θ = .ok w ∧
      (g.size < Extent.greatestKept →
        Weights.matchedToward g (.real θ) = .ok (.ofVector w)) ∧
      quantizedWeights g (.ofVector w) (.whole b) = .ok wq ∧
      (∀ i, (wq.get i).abs = 1 / √g.size) ∧ Vec.norm wq = 1 ∧
      ∃ r, Weights.responseOfTensors (.ofVector wq) (.ofVector (g.steering θ)) = .ok r ∧
        Real.cos (Real.pi / 2 ^ b) * √g.size ≤ r.abs := by
  have hphased := norm_phased b (Weights.matchedFilter g θ)
  refine ⟨_, _, Weights.matched_eq g θ, Weights.matchedToward_eq g θ,
    quantizedWeights_ofVector g b _, Weights.abs_unit_of_unimodular hphased, ?_, _,
    Weights.responseOfTensors_ofVector _ _, ?_⟩
  · rw [Vec.norm_eq_one_iff]
    apply Weights.power_unit
    rw [power_of_norm_eq_one hphased]
    exact_mod_cast g.size_pos
  · rw [Cplx.abs_eq_norm, Weights.response_unit_steering g θ hphased,
      ← Weights.sum_norm_matchedFilter g θ]
    exact le_norm_phased_dotProduct hb _

/-- With three bits, eight elements keep more than nine tenths of their gain. -/
theorem quantizedWeights_matched_three_bits :
    ∃ w wq : Vector (Cplx ℝ) Geometry.standard.size,
      Weights.matched .standard (Real.pi / 6) = .ok w ∧
      quantizedWeights .standard (.ofVector w) (.whole 3) = .ok wq ∧
      ∃ r, Weights.responseOfTensors (.ofVector wq)
          (.ofVector (Geometry.standard.steering (Real.pi / 6))) = .ok r ∧
        √(2 + √2) / 2 * √8 ≤ r.abs := by
  obtain ⟨w, wq, hw, -, hwq, -, -, r, hr, hgain⟩ :=
    quantizedWeights_matched .standard (Real.pi / 6) (b := 3) (by decide)
  have hcos : Real.cos (Real.pi / 2 ^ 3) = √(2 + √2) / 2 := by
    rw [← Real.cos_pi_div_eight]
    norm_num
  have hsize : (Geometry.standard.size : ℝ) = 8 := Nat.cast_ofNat
  rw [hcos, hsize] at hgain
  exact ⟨w, wq, hw, hwq, r, hr, hgain⟩

end PhaseShifter

end PhasedArray
