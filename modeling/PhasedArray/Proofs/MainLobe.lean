import Mathlib.Analysis.Real.Pi.Bounds
import Mathlib.Analysis.SpecialFunctions.Trigonometric.Bounds
import PhasedArray.Proofs.Spectrum

set_option autoImplicit false

/-!
# The beam of eight elements (SPEC §11)

With one source, a direction leaks into the noise space what the beam toward the source does not
pick up from it.  Before eight elements the picked up part depends on the cosine of the difference
of phase alone, as `picked`.  Near the source it falls almost in proportion to that cosine; further
off, side lobes included, it stays well below what it is there.
-/

namespace PhasedArray

/-! ## The lobe -/

/-- The part of the power of a direction that the beam of eight elements toward the source picks
up, when the phase between neighbouring elements differs from that of the source by an angle of
cosine `c`. -/
noncomputable def picked (c : ℝ) : ℝ := 0.5 * (1 + c) * (c * (c ^ 2 - (1 - c ^ 2))) ^ 2

/-- A factor for half the angle, one for the angle and one for its double. -/
theorem picked_eq (c : ℝ) : picked c = (1 + c) / 2 * (c * (2 * c ^ 2 - 1)) ^ 2 := by
  unfold picked
  ring

theorem norm_one_add_sq {z : ℂ} (hz : ‖z‖ = 1) : ‖1 + z‖ ^ 2 = 2 * (1 + z.re) := by
  have hsq : z.re * z.re + z.im * z.im = 1 := by
    rw [← Complex.normSq_apply, Complex.normSq_eq_norm_sq, hz, one_pow]
  rw [← Complex.normSq_eq_norm_sq, Complex.normSq_apply]
  simp only [Complex.add_re, Complex.add_im, Complex.one_re, Complex.one_im]
  linarith

/-- Doubling an angle. -/
theorem re_sq_of_norm {z : ℂ} (hz : ‖z‖ = 1) : (z ^ 2).re = 2 * z.re ^ 2 - 1 := by
  have hsq : z.re * z.re + z.im * z.im = 1 := by
    rw [← Complex.normSq_apply, Complex.normSq_eq_norm_sq, hz, one_pow]
  rw [pow_two, Complex.mul_re]
  linarith

/-- Eight powers of a phasor add up by halves. -/
theorem norm_sum_pow_eight {z : ℂ} (hz : ‖z‖ = 1) :
    ‖∑ i ∈ Finset.range 8, z ^ i‖ ^ 2 = 64 * picked z.re := by
  have hsplit : ∑ i ∈ Finset.range 8, z ^ i = (1 + z) * (1 + z ^ 2) * (1 + (z ^ 2) ^ 2) := by
    simp only [Finset.sum_range_succ, Finset.sum_range_zero]
    ring
  have hz2 : ‖z ^ 2‖ = 1 := by rw [norm_pow, hz, one_pow]
  have hz4 : ‖(z ^ 2) ^ 2‖ = 1 := by rw [norm_pow, hz2, one_pow]
  rw [hsplit, norm_mul, norm_mul, mul_pow, mul_pow, norm_one_add_sq hz, norm_one_add_sq hz2,
    norm_one_add_sq hz4, re_sq_of_norm hz2, re_sq_of_norm hz, picked_eq]
  ring

/-- Toward the source all power is picked up. -/
theorem picked_one : picked 1 = 1 := by norm_num [picked_eq]

/-- Away from the source the beam picks up less than nearby, in all side lobes. -/
theorem picked_le {c : ℝ} (hlow : -1 ≤ c) (hhigh : c ≤ 0.99) : picked c ≤ 0.91 := by
  have hnonneg : 0 ≤ (1 + c) / 2 := by linarith
  rcases le_total c 0.8 with hc | hc
  · have hsq : c ^ 2 ≤ 1 := (sq_le_one_iff_abs_le_one c).mpr (abs_le.mpr ⟨hlow, by linarith⟩)
    have hdouble : (2 * c ^ 2 - 1) ^ 2 ≤ 1 :=
      (sq_le_one_iff_abs_le_one _).mpr (abs_le.mpr ⟨by linarith [sq_nonneg c], by linarith⟩)
    have hrest : (c * (2 * c ^ 2 - 1)) ^ 2 ≤ 1 := by
      rw [mul_pow]
      exact mul_le_one₀ hsq (sq_nonneg _) hdouble
    calc picked c = (1 + c) / 2 * (c * (2 * c ^ 2 - 1)) ^ 2 := picked_eq c
      _ ≤ (1 + c) / 2 * 1 := mul_le_mul_of_nonneg_left hrest hnonneg
      _ ≤ 0.91 := by linarith
  · have hsqlow : 0.64 ≤ c ^ 2 := by nlinarith
    have hsqhigh : c ^ 2 ≤ 0.9801 := by nlinarith
    have hrest : c * (2 * c ^ 2 - 1) ≤ 0.99 * 0.9602 :=
      mul_le_mul hhigh (by linarith) (by linarith) (by norm_num)
    have hpos : 0 ≤ c * (2 * c ^ 2 - 1) := mul_nonneg (by linarith) (by linarith)
    calc picked c = (1 + c) / 2 * (c * (2 * c ^ 2 - 1)) ^ 2 := picked_eq c
      _ ≤ 1 * (0.99 * 0.9602) ^ 2 :=
          mul_le_mul (by linarith) (pow_le_pow_left₀ hpos hrest 2) (sq_nonneg _) zero_le_one
      _ ≤ 0.91 := by norm_num

section Near

variable {c c' : ℝ}

/-- Near the source the picked up part falls at least nine times as fast as the cosine. -/
theorem nine_mul_sub_le (hc' : 0.99 ≤ c') (hle : c' ≤ c) :
    9 * (c - c') ≤ picked c - picked c' := by
  have hfall : 4.88 * (c - c') ≤ c * (2 * c ^ 2 - 1) - c' * (2 * c' ^ 2 - 1) := by
    have hsum : 4.88 ≤ 2 * (c ^ 2 + c * c' + c' ^ 2) - 1 := by nlinarith
    calc 4.88 * (c - c') ≤ (2 * (c ^ 2 + c * c' + c' ^ 2) - 1) * (c - c') :=
          mul_le_mul_of_nonneg_right hsum (sub_nonneg.mpr hle)
      _ = _ := by ring
  have hlow : 0.95 ≤ c' * (2 * c' ^ 2 - 1) := by
    have hdouble : 0.9602 ≤ 2 * c' ^ 2 - 1 := by nlinarith
    calc (0.95 : ℝ) ≤ 0.99 * 0.9602 := by norm_num
      _ ≤ c' * (2 * c' ^ 2 - 1) := mul_le_mul hc' hdouble (by norm_num) (by linarith)
  rw [picked_eq, picked_eq]
  generalize c * (2 * c ^ 2 - 1) = b at hfall ⊢
  generalize c' * (2 * c' ^ 2 - 1) = b' at hfall hlow ⊢
  have hstep : 4.88 * (c - c') * 1.9 ≤ (b - b') * (b + b') :=
    mul_le_mul hfall (by linarith) (by norm_num) (by linarith)
  have hfirst : 0.995 * (4.88 * (c - c') * 1.9) ≤ (1 + c) / 2 * ((b - b') * (b + b')) :=
    mul_le_mul (by linarith) hstep (by linarith) (by linarith)
  have hsecond : 0.9025 * ((c - c') / 2) ≤ b' ^ 2 * ((c - c') / 2) :=
    mul_le_mul_of_nonneg_right (by nlinarith) (by linarith)
  calc 9 * (c - c') ≤ 0.995 * (4.88 * (c - c') * 1.9) + 0.9025 * ((c - c') / 2) := by linarith
    _ ≤ (1 + c) / 2 * ((b - b') * (b + b')) + b' ^ 2 * ((c - c') / 2) := add_le_add hfirst hsecond
    _ = (1 + c) / 2 * b ^ 2 - (1 + c') / 2 * b' ^ 2 := by ring

/-- It falls at most ten and a half times as fast. -/
theorem one_sub_picked_le (hc : 0.99 ≤ c) (hone : c ≤ 1) :
    1 - picked c ≤ 10.5 * (1 - c) := by
  have hfall : 1 - c * (2 * c ^ 2 - 1) ≤ 5 * (1 - c) := by
    have hsum : 1 + 2 * c + 2 * c ^ 2 ≤ 5 := by nlinarith
    calc 1 - c * (2 * c ^ 2 - 1) = (1 + 2 * c + 2 * c ^ 2) * (1 - c) := by ring
      _ ≤ 5 * (1 - c) := mul_le_mul_of_nonneg_right hsum (sub_nonneg.mpr hone)
  have hhigh : c * (2 * c ^ 2 - 1) ≤ 1 := mul_le_one₀ hone (by nlinarith) (by nlinarith)
  have hnonneg : 0 ≤ c * (2 * c ^ 2 - 1) := mul_nonneg (by linarith) (by nlinarith)
  rw [picked_eq]
  generalize c * (2 * c ^ 2 - 1) = b at hfall hhigh hnonneg ⊢
  have hfirst : (1 - b) * (1 + b) ≤ 5 * (1 - c) * 2 :=
    mul_le_mul hfall (by linarith) (by linarith) (by linarith)
  have hsecond : b ^ 2 * ((1 - c) / 2) ≤ 1 * ((1 - c) / 2) :=
    mul_le_mul_of_nonneg_right (pow_le_one₀ hnonneg hhigh) (by linarith)
  calc 1 - (1 + c) / 2 * b ^ 2 = (1 - b) * (1 + b) + b ^ 2 * ((1 - c) / 2) := by ring
    _ ≤ 5 * (1 - c) * 2 + 1 * ((1 - c) / 2) := add_le_add hfirst hsecond
    _ = 10.5 * (1 - c) := by ring

/-- What is not picked up, near the source or anywhere else. -/
theorem min_le_one_sub_picked (hlow : -1 ≤ c) (hone : c ≤ 1) :
    min 0.09 (9 * (1 - c)) ≤ 1 - picked c := by
  rcases le_total c 0.99 with hc | hc
  · have hfar := picked_le hlow hc
    exact (min_le_left _ _).trans (by linarith)
  · have hnear := nine_mul_sub_le hc hone
    rw [picked_one] at hnear
    exact (min_le_right _ _).trans hnear

/-- If one direction is further from the source than a direction close to it, by more than the
margin of a peak, then so much more of it is not picked up. -/
theorem one_sub_picked_lt (hc : 0.999 ≤ c) (hone : c < 1) (hlow : -1 ≤ c')
    (hapart : (1 + 1.9e-9) * (1 - c) ≤ 1 - c') :
    1 - picked c < (1 - 1e-9) * (1 - picked c') := by
  have hnear := one_sub_picked_le (by linarith) hone.le
  rcases le_total c' 0.99 with hc' | hc'
  · have hfar := picked_le hlow hc'
    linarith
  · have hfall := nine_mul_sub_le hc' (by linarith : c' ≤ c)
    linarith

end Near

/-! ## Distances in sine -/

/-- The values of a spectrum with the default floor and sentinel are positive. -/
theorem SpectralSearch.value_pos (e : ℝ) : 0 < value 1e-10 1e10 e := by
  unfold value
  split_ifs with h
  · exact one_div_pos.mpr (lt_of_lt_of_le (by norm_num) h)
  · norm_num

/-- The leakage of a direction whose sine differs by `d` from that of the source. -/
noncomputable def leakAt (d : ℝ) : ℝ := 8 * (1 - picked (Real.cos (Real.pi * d)))

/-- Small angles are little more than their sines. -/
theorem le_sin_of_small {t : ℝ} (ht : 0 ≤ t) (hsmall : t ≤ 0.1) : 0.99 * t ≤ Real.sin t := by
  rcases ht.eq_or_lt with rfl | hpos
  · rw [mul_zero, Real.sin_zero]
  · have hsq : t ^ 2 ≤ 0.01 := by nlinarith
    have hcube : t ^ 3 ≤ 0.01 * t := by
      rw [pow_succ]
      exact mul_le_mul_of_nonneg_right hsq ht
    linarith [Real.sin_gt_sub_cube hpos]

/-- What lies further off in sine differs by more in the cosine of the phase. -/
theorem one_sub_cos_le {a b : ℝ} (ha : 0 ≤ a) (hsmall : a ≤ 0.01) (hab : (1 + 1e-9) * a ≤ b)
    (hb : b ≤ 1) :
    (1 + 1.9e-9) * (1 - Real.cos (Real.pi * a)) ≤ 1 - Real.cos (Real.pi * b) := by
  have hpi := Real.pi_pos
  have hfour := Real.pi_le_four
  have hstretched : Real.cos (Real.pi * b) ≤ Real.cos (Real.pi * ((1 + 1e-9) * a)) := by
    apply Real.cos_le_cos_of_nonneg_of_le_pi
    · positivity
    · nlinarith
    · nlinarith
  have hquadratic : 1 - Real.cos (Real.pi * a) ≤ (Real.pi * a) ^ 2 / 2 := by
    linarith [Real.one_sub_sq_div_two_le_cos (x := Real.pi * a)]
  -- the difference of the cosines is a product of two sines of small angles
  have hproduct : Real.cos (Real.pi * a) - Real.cos (Real.pi * ((1 + 1e-9) * a)) =
      2 * (Real.sin ((2 + 1e-9) * (Real.pi * a) / 2) * Real.sin (1e-9 * (Real.pi * a) / 2)) := by
    rw [Real.cos_sub_cos]
    have hsum : (Real.pi * a + Real.pi * ((1 + 1e-9) * a)) / 2 =
        (2 + 1e-9) * (Real.pi * a) / 2 := by ring
    have hdifference : (Real.pi * a - Real.pi * ((1 + 1e-9) * a)) / 2 =
        -(1e-9 * (Real.pi * a) / 2) := by ring
    rw [hsum, hdifference, Real.sin_neg]
    ring
  generalize hx : Real.pi * a = x at hquadratic hproduct ⊢
  have hxpos : 0 ≤ x := hx ▸ mul_nonneg hpi.le ha
  have hxsmall : x ≤ 0.04 := by nlinarith
  have hsum := le_sin_of_small (t := (2 + 1e-9) * x / 2) (by positivity) (by linarith)
  have hdifference := le_sin_of_small (t := 1e-9 * x / 2) (by positivity) (by linarith)
  have hsines := mul_le_mul hsum hdifference (by positivity) (le_trans (by positivity) hsum)
  nlinarith [sq_nonneg x]

/-- Directions that differ in sine differ in the cosine of the phase. -/
theorem two_mul_sq_le_one_sub_cos {d : ℝ} (hd : 0 ≤ d) (hone : d ≤ 1) :
    2 * d ^ 2 ≤ 1 - Real.cos (Real.pi * d) := by
  have hpi := Real.pi_pos
  have hrange : |Real.pi * d| ≤ Real.pi := by
    rw [abs_of_nonneg (mul_nonneg hpi.le hd)]
    exact mul_le_of_le_one_right hpi.le hone
  have hbound := Real.cos_le_one_sub_mul_cos_sq hrange
  have hcancel : 2 / Real.pi ^ 2 * (Real.pi * d) ^ 2 = 2 * d ^ 2 := by
    field_simp
  linarith

theorem leakAt_abs (d : ℝ) : leakAt |d| = leakAt d := by
  have hcos : Real.cos (Real.pi * |d|) = Real.cos (Real.pi * d) := by
    rw [← Real.cos_abs (Real.pi * d), abs_mul, abs_of_pos Real.pi_pos]
  rw [leakAt, leakAt, hcos]

theorem leakAt_zero : leakAt 0 = 0 := by
  rw [leakAt, mul_zero, Real.cos_zero, picked_one, sub_self, mul_zero]

/-- How much leaks at least from a distance in sine. -/
theorem min_le_leakAt {d : ℝ} (hd : 0 ≤ d) (hone : d ≤ 1) :
    min 0.72 (144 * d ^ 2) ≤ leakAt d := by
  have hcos := two_mul_sq_le_one_sub_cos hd hone
  have hlost := min_le_one_sub_picked (Real.neg_one_le_cos (Real.pi * d)) (Real.cos_le_one _)
  rw [leakAt]
  rcases min_le_iff.mp hlost with h | h
  · exact (min_le_left _ _).trans (by linarith)
  · exact (min_le_right _ _).trans (by linarith)

/-- Near the source more leaks from further off. -/
theorem leakAt_mono {a b : ℝ} (ha : 0 ≤ a) (hab : a ≤ b) (hb : b ≤ 0.01) :
    leakAt a ≤ leakAt b := by
  have hpi := Real.pi_pos
  have hclose : Real.pi * b ≤ 4 * 0.01 :=
    mul_le_mul Real.pi_le_four hb (ha.trans hab) (by norm_num)
  have hcos : Real.cos (Real.pi * b) ≤ Real.cos (Real.pi * a) := by
    apply Real.cos_le_cos_of_nonneg_of_le_pi (mul_nonneg hpi.le ha)
    · linarith [Real.pi_gt_three]
    · exact mul_le_mul_of_nonneg_left hab hpi.le
  have hnear : 0.99 ≤ Real.cos (Real.pi * b) := by
    have hsq : (Real.pi * b) ^ 2 ≤ (4 * 0.01) ^ 2 :=
      pow_le_pow_left₀ (mul_nonneg hpi.le (ha.trans hab)) hclose 2
    linarith [Real.one_sub_sq_div_two_le_cos (x := Real.pi * b)]
  have hfall := nine_mul_sub_le hnear hcos
  unfold leakAt
  linarith

section Distances

variable {a b : ℝ} (ha : 0 ≤ a) (hsmall : a ≤ 0.01) (hab : (1 + 1e-9) * a ≤ b) (hb : b ≤ 1)

include ha hsmall hab hb in
/-- More leaks from further off, by more than the margin of a peak. -/
theorem leakAt_lt (hne : a ≠ 0) : leakAt a < (1 - 1e-9) * leakAt b := by
  have hpos : 0 < a ^ 2 := pow_pos (lt_of_le_of_ne ha hne.symm) 2
  have hone : Real.cos (Real.pi * a) < 1 := by
    linarith [two_mul_sq_le_one_sub_cos ha (by linarith)]
  have hnear : 0.999 ≤ Real.cos (Real.pi * a) := by
    have hx : Real.pi * a ≤ 4 * 0.01 :=
      mul_le_mul Real.pi_le_four hsmall ha (by norm_num)
    have hsq : (Real.pi * a) ^ 2 ≤ (4 * 0.01) ^ 2 :=
      pow_le_pow_left₀ (mul_nonneg Real.pi_pos.le ha) hx 2
    linarith [Real.one_sub_sq_div_two_le_cos (x := Real.pi * a)]
  have hlost := one_sub_picked_lt hnear hone (Real.neg_one_le_cos _)
    (one_sub_cos_le ha hsmall hab hb)
  unfold leakAt
  linarith

/-- What leaks less than the floor is close to the source. -/
theorem lt_of_leakAt_lt (ha : 0 ≤ a) (hone : a ≤ 1) (h : leakAt a < 1e-10) : a < 1e-6 := by
  have hmin := (min_le_leakAt ha hone).trans_lt h
  rcases min_lt_iff.mp hmin with hfar | hnear
  · norm_num at hfar
  · apply lt_of_pow_lt_pow_left₀ 2 (by norm_num)
    linarith

/-- What is not that close leaks more. -/
theorem lt_leakAt_of_apart (hapart : 1.4e-5 ≤ b) (hb : b ≤ 1) :
    1e-10 < (1 - 1e-9) * leakAt b := by
  have hsq : (1.4e-5) ^ 2 ≤ b ^ 2 := pow_le_pow_left₀ (by norm_num) hapart 2
  have hmin := min_le_leakAt (by linarith : 0 ≤ b) hb
  rcases min_le_iff.mp hmin with h | h
  · linarith
  · linarith

include ha hsmall hab hb in
/-- The spectrum at a point that is further off than one close to the source stays below it by
more than the margin of a peak, the sentinel included, unless both could be on the source. -/
theorem value_leakAt_lt (hapart : 1.5e-5 ≤ a + b) :
    SpectralSearch.value 1e-10 1e10 (leakAt b) <
      (1 - 1e-9) * SpectralSearch.value 1e-10 1e10 (leakAt a) := by
  unfold SpectralSearch.value
  by_cases hfloor : 1e-10 ≤ leakAt a
  · have hne : a ≠ 0 := by
      rintro rfl
      rw [leakAt_zero] at hfloor
      norm_num at hfloor
    have hlt := leakAt_lt ha hsmall hab hb hne
    have hleak : 0 < leakAt a := lt_of_lt_of_le (by norm_num) hfloor
    have hmore : leakAt a ≤ leakAt b := by linarith
    rw [if_pos hfloor, if_pos (hfloor.trans hmore)]
    change 1 / leakAt b < (1 - 1e-9) * (1 / leakAt a)
    rw [mul_one_div, div_lt_div_iff₀ (hleak.trans_le hmore) hleak, one_mul]
    exact hlt
  · have hclose := lt_of_leakAt_lt ha (by linarith) (not_le.mp hfloor)
    have hlt := lt_leakAt_of_apart (by linarith) hb
    have hleak : 1e-10 ≤ leakAt b := by linarith
    rw [if_neg hfloor, if_pos hleak]
    change 1 / leakAt b < (1 - 1e-9) * 1e10
    rw [div_lt_iff₀ (lt_of_lt_of_le (by norm_num) hleak)]
    linarith

end Distances

/-! ## Directions before the standard array -/

namespace Geometry

theorem phasor_standard (θ : ℝ) :
    Geometry.standard.phasor θ = Complex.exp ((Real.pi * Real.sin θ : ℝ) * Complex.I) := by
  have hstep : Geometry.standard.phaseStep θ = Real.pi * Real.sin θ := by
    rw [phaseStep_eq]
    change 2 * Real.pi * 0.5 * Real.sin θ = _
    ring
  rw [phasor, hstep]

/-- The phases of two directions differ by the difference of their sines. -/
theorem re_star_phasor_mul (θ θ' : ℝ) :
    (star (Geometry.standard.phasor θ') * Geometry.standard.phasor θ).re =
      Real.cos (Real.pi * (Real.sin θ - Real.sin θ')) := by
  have hdifference : star (Geometry.standard.phasor θ') * Geometry.standard.phasor θ =
      Complex.exp ((Real.pi * (Real.sin θ - Real.sin θ') : ℝ) * Complex.I) := by
    rw [phasor_standard, phasor_standard, RCLike.star_def, ← Complex.exp_conj, map_mul,
      Complex.conj_I, Complex.conj_ofReal, ← Complex.exp_add]
    congr 1
    push_cast
    ring
  rw [hdifference, Complex.exp_ofReal_mul_I_re]

end Geometry

namespace SpectralSearch

/-- With one source, what leaks depends on the difference of the sines. -/
theorem leakage_standard {D : Decomposition ℝ Geometry.standard.size} (hk : D.sources.val = 1)
    {n : ℕ} (X : NoiselessScene .standard D.sources n) {averaging : Bool}
    (hD : D.IsSpectral (X.covariance averaging)) (j : Fin D.sources) (θ : ℝ) :
    leakage D.noise (Geometry.standard.steering θ) =
      leakAt (Real.sin θ - Real.sin (X.angles.get j)) := by
  have hnorm : ‖star (X.phasors j) * Geometry.standard.phasor θ‖ = 1 := by
    rw [norm_mul, norm_star, NoiselessScene.phasors, Geometry.norm_phasor, Geometry.norm_phasor,
      one_mul]
  have hbeam : ‖∑ i ∈ Finset.range Geometry.standard.size,
      (star (X.phasors j) * Geometry.standard.phasor θ) ^ i‖ ^ 2 = _ := norm_sum_pow_eight hnorm
  have hsize : (Geometry.standard.size : ℝ) = 8 := Nat.cast_ofNat
  have hphase := Geometry.re_star_phasor_mul θ (X.angles.get j)
  rw [leakage_noise_of_single hk X hD j, hbeam, NoiselessScene.phasors, hphase, hsize, leakAt]
  ring

end SpectralSearch

end PhasedArray
