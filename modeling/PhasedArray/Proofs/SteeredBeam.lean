import PhasedArray.Proofs.DistinctDirections
import PhasedArray.Proofs.MatchedFilter
import PhasedArray.Proofs.Spectrum
import PhasedArray.Proofs.UnchargedAscent

set_option autoImplicit false

/-!
# Beams that are steered to a point of the grid (SPEC §4.8, §11)

Up to half a wavelength between elements the directions of the half turn have different phasors.
The matched filter of a direction then answers no other as loud, since it would have to be the
matched filter of that as well.  So its pattern has one peak, which is the point it is steered to.
For the optimizer the matched filter is a fixed point: without a charge a step makes it longer, and
scaling takes that back.
-/

namespace PhasedArray

open Matrix

/-! ## Responses of the matched filter -/

namespace Weights

variable {g : Geometry ℝ}

/-- The matched filter of another direction answers as loud only if the phasors are the same. -/
theorem phasor_eq_of_norm_response (hsize : 2 ≤ g.size) {θ φ : ℝ}
    (h : √g.size ≤ ‖(response (matchedFilter g θ) (g.steering φ)).toComplex‖) :
    g.phasor φ = g.phasor θ := by
  rw [← norm_steering g φ] at h
  obtain ⟨z, -, hphase⟩ :=
    exists_phase (norm_filterOf (steering_ne_zero g θ)) (steering_ne_zero g φ) h
  have hroot : (((√g.size)⁻¹ : ℝ) : ℂ) ≠ 0 := by
    rw [Complex.ofReal_ne_zero]
    exact inv_ne_zero (Real.sqrt_pos.mpr (Nat.cast_pos.mpr g.size_pos)).ne'
  -- the first two elements tell the phase and the phasor
  have hentry : ∀ i : Fin g.size,
      star (g.phasor θ ^ i.val) = z * star (g.phasor φ ^ i.val) := by
    intro i
    have hi := congrFun hphase i
    rw [toComplex_filterOf, toComplex_filterOf, norm_steering, norm_steering, smul_comm z,
      g.toComplex_steering, g.toComplex_steering] at hi
    exact mul_left_cancel₀ hroot hi
  have hone : z = 1 := by
    have hfirst := hentry ⟨0, g.size_pos⟩
    rwa [pow_zero, pow_zero, star_one, mul_one, eq_comm] at hfirst
  have hsecond := hentry ⟨1, hsize⟩
  rw [hone, one_mul, pow_one, pow_one] at hsecond
  exact (star_injective hsecond).symm

end Weights

/-! ## Patterns of the matched filter -/

namespace Pattern

section Steered

variable {g : Geometry ℝ} {points : Setting ℝ} {grid : SearchGrid ℝ}
  (hgrid : SearchGrid.ofSetting points = .ok grid) (i : Fin grid.size)

/-- The matched filter of a point answers that by the root of the number of elements. -/
theorem samplesOn_self :
    (samplesOn g (Weights.matchedFilter g (grid.point i)) grid).get i = √g.size := by
  rw [samplesOn, Vec.get_ofFn, arrayFactor, Cplx.abs_eq_norm, Weights.matchedFilter_eq,
    Weights.response_filterOf, Weights.norm_steering, Complex.norm_real,
    Real.norm_of_nonneg (Real.sqrt_nonneg _)]

/-- It answers no other point as loud. -/
theorem peakPlace_samplesOn (hsize : 2 ≤ g.size) (hspacing : g.spacing ≤ 1 / 2) :
    peakPlace (SearchGrid.size_pos hgrid)
      (samplesOn g (Weights.matchedFilter g (grid.point i)) grid) = i := by
  apply peakPlace_eq
  intro j hj
  rw [samplesOn_self, samplesOn, Vec.get_ofFn, arrayFactor, Cplx.abs_eq_norm] at hj
  have hpoint : grid.point j = grid.point i :=
    Geometry.injOn_phasor_iff.mpr hspacing (SearchGrid.point_mem hgrid j)
      (SearchGrid.point_mem hgrid i) (Weights.phasor_eq_of_norm_response hsize hj)
  exact (SearchGrid.point_strictMono (SearchGrid.steps_pos hgrid)).injective hpoint

end Steered

end Pattern

/-! ## The matched filter as a fixed point -/

namespace Weights

/-- Scaling takes back that weights were made longer. -/
theorem normalize_of_smul {n : ℕ} {w v : Vector (Cplx ℝ) n} {x : ℝ} (hx : 0 < x)
    (hv : Vec.norm v = 1) (h : Vec.toComplex w = (x : ℂ) • Vec.toComplex v) :
    normalize w = .ok v := by
  have hpower : power (Vec.toComplex w) = x ^ 2 := by
    rw [h, power_smul, Complex.norm_real, Real.norm_of_nonneg hx.le, Vec.norm_eq_one_iff.mp hv,
      mul_one]
  refine normalize_eq_ok_iff.mpr ⟨hpower ▸ pow_pos hx 2, ?_⟩
  apply Vec.toComplex_injective
  rw [toComplex_unit, Vec.norm_eq_sqrt, hpower, Real.sqrt_sq hx.le, h, smul_smul,
    ← Complex.ofReal_mul, inv_mul_cancel₀ hx.ne', Complex.ofReal_one, one_smul]

end Weights

namespace Ascent

variable {m k : ℕ} {A : Ascent ℝ m k} (hA : A.IsSound) (hfree : A.isCharged = false)
include hA hfree

/-- Without a charge a step makes the matched filter longer. -/
theorem toComplex_moved_filterOf (i : ℕ) :
    Vec.toComplex (A.moved (Weights.filterOf A.target) i) =
      ((1 + A.rate i * m : ℝ) : ℂ) • Vec.toComplex (Weights.filterOf A.target) := by
  have hform : A.form *ᵥ star (Vec.toComplex A.target) =
      (m : ℂ) • star (Vec.toComplex A.target) := by
    rw [form_of_uncharged hfree, vecMulVec_mulVec, hA.target_dotProduct_star, op_smul_eq_smul]
  rw [toComplex_moved, Weights.toComplex_filterOf, mulVec_smul, operator, add_mulVec, one_mulVec,
    smul_mulVec, hform, smul_comm _ (((Vec.norm A.target)⁻¹ : ℝ) : ℂ), smul_smul (A.rate i : ℂ)]
  congr 1
  push_cast
  rw [add_smul, one_smul]

variable (htarget : Vec.toComplex A.target ≠ 0)
include htarget

/-- After scaling nothing has changed. -/
theorem advance_filterOf (i : ℕ) :
    A.advance i (Weights.filterOf A.target) = .ok (Weights.filterOf A.target) := by
  have hlonger : 0 < 1 + A.rate i * m :=
    add_pos_of_pos_of_nonneg one_pos (mul_nonneg (hA.rate_pos i).le (Nat.cast_nonneg m))
  rw [advance_eq]
  exact Weights.normalize_of_smul hlonger (Weights.norm_filterOf htarget)
    (toComplex_moved_filterOf hA hfree i)

theorem iterate_filterOf (i : ℕ) :
    A.iterate (Weights.filterOf A.target) i = Weights.filterOf A.target := by
  induction i with
  | zero => rfl
  | succ i ih =>
    apply iterate_succ
    rw [ih]
    exact advance_filterOf hA hfree htarget i

end Ascent

/-! ## Runs that start from the matched filter -/

namespace Plan.IsMadeBy

variable {p : Plan ℝ} {o : Optimizer ℝ} {r : BeamRequest ℝ} (h : p.IsMadeBy o r)
include h

/-- Directions are only read before an array whose elements can be counted off. -/
theorem size_lt : p.geometry.size < Extent.greatestKept := by
  have hdirections := h.answers.directions
  simp only [Geometry.directionsAmong, Outcome.bind_eq_ok] at hdirections
  obtain ⟨-, -, u, hextent, -⟩ := hdirections
  unfold Geometry.checkExtent Extent.check at hextent
  split_ifs at hextent with hsize
  exact hsize

variable {θ : ℝ} (hθ : r.target = .real θ)
include hθ

theorem target_eq : p.ascent.target = p.geometry.steering θ := by
  have htarget := h.answers.target
  rw [hθ, Optimizer.targetOf_real h.size_lt, Except.ok.injEq] at htarget
  exact htarget.symm

variable (hstart : r.start = .nothing)
include hstart

/-- A request that gives no weights starts from the matched filter. -/
theorem start_eq : p.start = Weights.matchedFilter p.geometry θ := by
  obtain ⟨t, ht, hread⟩ := h.answers.start
  rw [hstart] at ht
  obtain rfl : none = t := Except.ok.inj ht
  rw [h.target_eq hθ, Optimizer.startWeights] at hread
  exact Except.ok.inj (hread.symm.trans (Weights.matched_eq p.geometry θ))

/-- Without a charge its run ends where it starts. -/
theorem exists_run (hfree : o.penalty.value = 0 ∨ p.interferers = []) {t : Number ℝ}
    (ht : p.threshold.toNumber "snr_threshold" = .ok t) :
    ∃ f, p.run = .ok f ∧ f.weights = Weights.matchedFilter p.geometry θ := by
  have huncharged := h.isCharged_eq_false_iff.mpr hfree
  have hmatched : p.start = Weights.filterOf p.ascent.target := by
    rw [h.start_eq hθ hstart, h.target_eq hθ, Weights.matchedFilter_eq]
  have htarget : Vec.toComplex p.ascent.target ≠ 0 := by
    rw [h.target_eq hθ]
    exact Weights.steering_ne_zero p.geometry θ
  obtain ⟨f, hf⟩ := Plan.exists_run ht fun i _ =>
    h.advances (Ascent.isGentle_of_uncharged huncharged) i
  obtain ⟨i, hi⟩ := (Plan.run_ends hf).exists_iterate
  refine ⟨f, hf, ?_⟩
  rw [hi, hmatched, Ascent.iterate_filterOf h.isSound huncharged htarget, h.target_eq hθ,
    Weights.matchedFilter_eq]

end Plan.IsMadeBy

/-! ## Beams toward a point of the grid -/

namespace Weights

/-- The matched filter of a point of the grid has its main lobe there, and the peak is the root of
the number of elements.  The optimizer hands it back with that pattern if it is asked for a beam
toward the point, neither charges for interferers nor is given weights to start from. -/
theorem steered_peaks {g : Geometry ℝ} (hsize : 2 ≤ g.size) (hspacing : g.spacing ≤ 1 / 2)
    {points : Setting ℝ} {grid : SearchGrid ℝ} (hgrid : SearchGrid.ofSetting points = .ok grid)
    (i : Fin grid.size) :
    ∃ w pattern, matched g (grid.point i) = .ok w ∧
      (g.size < Extent.greatestKept →
        matchedToward g (.real (grid.point i)) = .ok (.ofVector w)) ∧
      Pattern.ofWeights g points (.ofVector w) = .ok pattern ∧
      pattern.direction = grid.point i ∧ pattern.peak = √g.size ∧
      ∀ {o : Optimizer ℝ} {r : BeamRequest ℝ} {p : Plan ℝ} {t : Number ℝ}, p.IsMadeBy o r →
        p.geometry = g → o.patternPoints = points → r.target = .real (grid.point i) →
        r.start = .nothing → (o.penalty.value = 0 ∨ p.interferers = []) →
        p.threshold.toNumber "snr_threshold" = .ok t →
        ∃ beam, o.optimize r = .ok beam ∧ beam.weights = w.toList ∧ beam.pattern = pattern := by
  have hpeak := Pattern.peakPlace_samplesOn hgrid i hsize hspacing
  refine ⟨_, _, matched_eq g _, matchedToward_eq g _, Pattern.ofWeights_ofVector g _ hgrid,
    ?_, ?_, ?_⟩
  · change grid.points.get (Pattern.peakPlace _ _) = _
    rw [hpeak, SearchGrid.points, Vec.get_ofFn]
  · change (Pattern.samplesOn g _ grid).get (Pattern.peakPlace _ _) = _
    rw [hpeak, Pattern.samplesOn_self]
  · rintro o r p t hp rfl rfl htarget hstart hfree ht
    obtain ⟨f, hf, hw⟩ := hp.exists_run htarget hstart hfree ht
    have hpattern := Pattern.ofWeights_ofVector p.geometry f.weights hgrid
    refine ⟨_, Optimizer.optimize_eq_ok_iff.mpr ⟨p, hp.read, f, hf, _, hpattern, rfl⟩, ?_⟩
    rw [Plan.beam, hw]
    exact ⟨rfl, rfl⟩

/-- Two elements on a grid of three points, steered to the last of these. -/
theorem steered_peaks_pair :
    ∃ w pattern beam, matched .pair (Real.pi / 6) = .ok w ∧
      Pattern.ofWeights .pair (.whole 3) (.ofVector w) = .ok pattern ∧
      pattern.direction = Real.pi / 6 ∧ pattern.peak = √(2 : ℕ) ∧
      (Optimizer.ofRates 1 3).optimize { BeamRequest.ofNumbers .pair (Real.pi / 6) [] first 0.9 5
        with start := .nothing } = .ok beam ∧
      beam.weights = w.toList ∧ beam.pattern = pattern := by
  have hspacing : Geometry.pair.spacing ≤ 1 / 2 := by norm_num [Geometry.pair]
  obtain ⟨w, pattern, hw, -, hpattern, hdirection, hpeak, hbeam⟩ :=
    steered_peaks (g := .pair) le_rfl hspacing SpectralSearch.coarse_grid ⟨2, Nat.lt_succ_self 2⟩
  rw [SpectralSearch.coarse_point_two] at hw hdirection hbeam
  have hstart : ∃ t, Setting.nothing.toTensor? = .ok t ∧
      Optimizer.startWeights .pair (Geometry.pair.steering (Real.pi / 6)) t =
        .ok (matchedFilter .pair (Real.pi / 6)) := ⟨none, rfl, matched_eq _ _⟩
  have hread : (Optimizer.ofRates 1 3).plan
      { BeamRequest.ofNumbers .pair (Real.pi / 6) [] first 0.9 5 with start := .nothing } =
        .ok { Plan.ofNumbers (.ofRates 1 3) .pair 0.9 (Real.pi / 6) [] first 0.9 5 with
          start := matchedFilter .pair (Real.pi / 6) } :=
    Optimizer.plan_from Geometry.ofSettings_pair (by decide) rfl hstart
  obtain ⟨beam, hok, hweights, hsame⟩ :=
    hbeam ⟨Optimizer.exists_ofConfig one_pos zero_le_three, hread⟩ rfl rfl rfl rfl (.inr rfl) rfl
  exact ⟨w, pattern, beam, hw, hpattern, hdirection, hpeak, hok, hweights, hsame⟩

end Weights

end PhasedArray
