import Mathlib.Analysis.PSeries
import PhasedArray.Proofs.MonotoneAscent

set_option autoImplicit false

/-!
# Which thresholds a run can reach (SPEC §4.8)

Without a charge, a step multiplies the part of the weights along the matched filter and
leaves the rest as it is, before both are scaled.  The response after `k` steps therefore
has a closed form in the product of those factors (`growth`).  The steps shrink like the
harmonic series, whose sum diverges, and so does the product: whatever part of the matched
filter the start has, it takes over in the end, and every threshold below the response of
the matched filter is reached.  No run, with a charge or without, responds beyond that.
-/

namespace PhasedArray

open Matrix Filter

/-! ## Growth -/

/-- The product of the factors of the first `n` steps. -/
noncomputable def growth (rate : ℝ) (n : ℕ) : ℝ := ∏ j ∈ Finset.range n, (1 + rate / (j + 1 : ℕ))

@[simp] theorem growth_zero (rate : ℝ) : growth rate 0 = 1 := Finset.prod_range_zero _

theorem growth_succ (rate : ℝ) (n : ℕ) :
    growth rate (n + 1) = (1 + rate / (n + 1 : ℕ)) * growth rate n := by
  rw [growth, Finset.prod_range_succ, mul_comm]
  rfl

section Growth

variable {rate : ℝ} (hrate : 0 ≤ rate)
include hrate

theorem growth_pos (n : ℕ) : 0 < growth rate n :=
  Finset.prod_pos fun j _ => add_pos_of_pos_of_nonneg one_pos (by positivity)

/-- The product exceeds the sum. -/
theorem sum_le_growth (n : ℕ) :
    1 + rate * ∑ j ∈ Finset.range n, 1 / ((j : ℝ) + 1) ≤ growth rate n := by
  induction n with
  | zero => simp
  | succ n ih =>
    have hterm : 0 ≤ rate / ((n : ℝ) + 1) := by positivity
    have hsum : 0 ≤ rate * ∑ j ∈ Finset.range n, 1 / ((j : ℝ) + 1) :=
      mul_nonneg hrate (Finset.sum_nonneg fun j _ => by positivity)
    have hscaled := mul_le_mul_of_nonneg_left ih hterm
    have hlater : rate / ((n : ℝ) + 1) ≤
        rate / ((n : ℝ) + 1) * (1 + rate * ∑ j ∈ Finset.range n, 1 / ((j : ℝ) + 1)) :=
      le_mul_of_one_le_right hterm (le_add_of_nonneg_right hsum)
    rw [growth_succ, Finset.sum_range_succ, Nat.cast_add_one]
    calc 1 + rate * (∑ j ∈ Finset.range n, 1 / ((j : ℝ) + 1) + 1 / ((n : ℝ) + 1))
        = 1 + rate * ∑ j ∈ Finset.range n, 1 / ((j : ℝ) + 1) + rate / ((n : ℝ) + 1) := by ring
      _ ≤ growth rate n + rate / ((n : ℝ) + 1) * growth rate n :=
        add_le_add ih (hlater.trans hscaled)
      _ = (1 + rate / ((n : ℝ) + 1)) * growth rate n := by ring

end Growth

/-- Harmonic steps grow beyond every bound. -/
theorem tendsto_growth {rate : ℝ} (hrate : 0 < rate) : Tendsto (growth rate) atTop atTop := by
  apply tendsto_atTop_mono (sum_le_growth hrate.le)
  apply tendsto_atTop_add_const_left
  exact Real.tendsto_sum_range_one_div_nat_succ_atTop.const_mul_atTop hrate

/-! ## Responses that grow -/

/-- The response of weights of unit power before `m` elements, once their part along the
matched filter, which responded by `r`, has grown by the factor `P`. -/
noncomputable def amplified (m P r : ℝ) : ℝ := √m * P * r / √(P ^ 2 * r ^ 2 + m - r ^ 2)

section Amplified

variable {m r : ℝ} (hm : 0 < m)
include hm

theorem amplified_one : amplified m 1 r = r := by
  have hpower : (1 : ℝ) ^ 2 * r ^ 2 + m - r ^ 2 = m := by ring
  rw [amplified, hpower, mul_one, mul_div_cancel_left₀ _ (Real.sqrt_pos.mpr hm).ne']

variable (hr : r ^ 2 ≤ m)
include hr

theorem amplified_power_pos {P : ℝ} (hP : 0 < P) : 0 < P ^ 2 * r ^ 2 + m - r ^ 2 := by
  rcases eq_or_ne r 0 with rfl | hne
  · simpa using hm
  · have hpart : 0 < P ^ 2 * r ^ 2 := by positivity
    linarith

/-- One more step multiplies the factor. -/
theorem amplified_step {P c : ℝ} (hP : 0 < P) (hc : 0 ≤ c) :
    (1 + c * m) * amplified m P r / √(1 + (2 * c + c ^ 2 * m) * amplified m P r ^ 2) =
      amplified m ((1 + c * m) * P) r := by
  have hnow := amplified_power_pos hm hr hP
  have hfactor : 0 < (1 + c * m) * P := by positivity
  have hnext := amplified_power_pos hm hr hfactor
  have hsquare : amplified m P r ^ 2 = m * P ^ 2 * r ^ 2 / (P ^ 2 * r ^ 2 + m - r ^ 2) := by
    rw [amplified, div_pow, mul_pow, mul_pow, Real.sq_sqrt hm.le, Real.sq_sqrt hnow.le]
  have hpower : 1 + (2 * c + c ^ 2 * m) * amplified m P r ^ 2 =
      (((1 + c * m) * P) ^ 2 * r ^ 2 + m - r ^ 2) / (P ^ 2 * r ^ 2 + m - r ^ 2) := by
    rw [hsquare, eq_div_iff hnow.ne', add_mul, mul_assoc, div_mul_cancel₀ _ hnow.ne']
    ring
  have hroot := (Real.sqrt_pos.mpr hnow).ne'
  rw [hpower, Real.sqrt_div hnext.le, amplified, amplified]
  field_simp

/-- A factor that is large enough lifts the response to any threshold below that of the matched
filter. -/
theorem le_amplified {P t : ℝ} (hP : 0 < P) (hr₀ : 0 ≤ r)
    (hlarge : t ^ 2 * m ≤ P ^ 2 * (r ^ 2 * (m - t ^ 2))) : t ≤ amplified m P r := by
  have hpower := amplified_power_pos hm hr hP
  rw [amplified, le_div_iff₀ (Real.sqrt_pos.mpr hpower)]
  apply le_of_sq_le_sq _ (by positivity)
  rw [mul_pow, mul_pow, mul_pow, Real.sq_sqrt hpower.le, Real.sq_sqrt hm.le]
  calc t ^ 2 * (P ^ 2 * r ^ 2 + m - r ^ 2)
      = t ^ 2 * m + P ^ 2 * (r ^ 2 * t ^ 2) - (t * r) ^ 2 := by ring
    _ ≤ P ^ 2 * (r ^ 2 * (m - t ^ 2)) + P ^ 2 * (r ^ 2 * t ^ 2) - (t * r) ^ 2 := by gcongr
    _ ≤ P ^ 2 * (r ^ 2 * (m - t ^ 2)) + P ^ 2 * (r ^ 2 * t ^ 2) :=
      sub_le_self _ (sq_nonneg _)
    _ = m * P ^ 2 * r ^ 2 := by ring

end Amplified

/-- Harmonic steps lift every positive response to any threshold below that of the matched
filter. -/
theorem exists_le_amplified {m r rate t : ℝ} (hm : 0 < m) (hr : r ^ 2 ≤ m) (hr₀ : 0 < r)
    (hrate : 0 < rate) (ht : t < √m) : ∃ n, 0 < n ∧ t ≤ amplified m (growth rate n) r := by
  rcases lt_or_ge t 0 with hneg | hpos
  · refine ⟨1, one_pos, hneg.le.trans ?_⟩
    exact div_nonneg (mul_nonneg (mul_nonneg (Real.sqrt_nonneg m) (growth_pos hrate.le 1).le)
      hr₀.le) (Real.sqrt_nonneg _)
  · have hgap : 0 < r ^ 2 * (m - t ^ 2) := by
      have hbelow : t ^ 2 < m := (Real.lt_sqrt hpos).mp ht
      have hdifference := sub_pos.mpr hbelow
      positivity
    have hlarge := (tendsto_growth hrate).eventually_ge_atTop
      (max 1 (t ^ 2 * m / (r ^ 2 * (m - t ^ 2))))
    obtain ⟨n, hn, hsome⟩ := (hlarge.and (eventually_gt_atTop 0)).exists
    refine ⟨n, hsome, le_amplified hm hr (growth_pos hrate.le n) hr₀.le ?_⟩
    rw [← div_le_iff₀ hgap]
    calc t ^ 2 * m / (r ^ 2 * (m - t ^ 2)) ≤ growth rate n := (le_max_right _ _).trans hn
      _ ≤ growth rate n ^ 2 := le_self_pow₀ ((le_max_left _ _).trans hn) two_ne_zero

/-! ## Steps without a charge -/

namespace Ascent

variable {m k : ℕ} {A : Ascent ℝ m k}

/-- Without a charge every step is gentle. -/
theorem isGentle_of_uncharged (hfree : A.isCharged = false) : A.IsGentle := by
  rw [IsGentle]
  rcases A.isCharged_eq_false_iff.mp hfree with hzero | hnone
  · rw [hzero, mul_zero, zero_mul, zero_mul]
    exact one_pos
  · have hcount : (k : ℝ) = 0 := Nat.cast_eq_zero.mpr hnone
    rw [hcount, mul_zero]
    exact one_pos

theorem form_of_uncharged (hfree : A.isCharged = false) :
    A.form = vecMulVec (star (Vec.toComplex A.target)) (Vec.toComplex A.target) := by
  rw [form, A.charge_eq_zero hfree, sub_zero]

theorem IsSound.target_dotProduct_star (hA : A.IsSound) :
    Vec.toComplex A.target ⬝ᵥ star (Vec.toComplex A.target) = m := by
  rw [dotProduct]
  simp [Complex.mul_conj', hA.target_unit]

section Uncharged

variable (hA : A.IsSound) (hfree : A.isCharged = false)
include hA hfree

/-- Applying the matrix of the target twice multiplies it by the number of elements. -/
theorem form_mul_form : A.form * A.form = (m : ℂ) • A.form := by
  rw [form_of_uncharged hfree, vecMulVec_mul_vecMulVec, hA.target_dotProduct_star, vecMulVec_smul]

/-- A step multiplies the response before scaling. -/
theorem operator_mulVec_dotProduct (i : ℕ) (x : Fin m → ℂ) :
    (A.operator i *ᵥ x) ⬝ᵥ Vec.toComplex A.target =
      ((1 + A.rate i * m : ℝ) : ℂ) * (x ⬝ᵥ Vec.toComplex A.target) := by
  have hsquare : star (Vec.toComplex A.target) ⬝ᵥ Vec.toComplex A.target = m := by
    rw [dotProduct_comm, hA.target_dotProduct_star]
  rw [operator, form_of_uncharged hfree, add_mulVec, one_mulVec, smul_mulVec, vecMulVec_mulVec,
    add_dotProduct, smul_dotProduct, op_smul_eq_smul, smul_dotProduct, hsquare, smul_eq_mul,
    smul_eq_mul, dotProduct_comm (Vec.toComplex A.target)]
  push_cast
  ring

/-- A step adds to the power by what it adds to the response. -/
theorem power_operator_mulVec (i : ℕ) (x : Fin m → ℂ) :
    power (A.operator i *ᵥ x) = power x +
      (2 * A.rate i + A.rate i ^ 2 * m) * ‖x ⬝ᵥ Vec.toComplex A.target‖ ^ 2 := by
  have htwice : A.operator i * A.operator i =
      1 + ((2 * A.rate i + A.rate i ^ 2 * m : ℝ) : ℂ) • A.form := by
    rw [operator, Matrix.add_mul, Matrix.mul_add, Matrix.mul_add, Matrix.one_mul, Matrix.one_mul,
      Matrix.mul_one, Matrix.smul_mul, Matrix.mul_smul, form_mul_form hA hfree, smul_smul,
      smul_smul, add_assoc, ← add_smul, ← add_smul]
    congr 2
    push_cast
    ring
  have hadjoint : power (A.operator i *ᵥ x) = energy (A.operator i * A.operator i) x := by
    rw [← energy_gram, (A.operator_isHermitian i).eq]
  rw [hadjoint, htwice, energy_add, energy_one, energy_smul, form_of_uncharged hfree,
    energy_vecMulVec]

/-- A step on weights of unit power, in terms of the response alone. -/
theorem targetResponse_advance {i : ℕ} {w v : Vector (Cplx ℝ) m}
    (hw : power (Vec.toComplex w) = 1) (h : A.advance i w = .ok v) :
    A.targetResponse v = (1 + A.rate i * m) * A.targetResponse w /
      √(1 + (2 * A.rate i + A.rate i ^ 2 * m) * A.targetResponse w ^ 2) := by
  rw [advance_eq, Weights.normalize_eq_ok_iff] at h
  obtain ⟨-, rfl⟩ := h
  have hfactor : 0 ≤ 1 + A.rate i * m :=
    add_nonneg zero_le_one (mul_nonneg (hA.rate_pos i).le (Nat.cast_nonneg m))
  rw [targetResponse_unit, toComplex_moved, operator_mulVec_dotProduct hA hfree,
    power_operator_mulVec hA hfree, hw, norm_mul, Complex.norm_real, Real.norm_of_nonneg hfactor,
    ← targetResponse_eq]

end Uncharged

end Ascent

/-! ## Runs -/

/-- A plan without a charge: `m` elements, the first step `μ`, and a start that responds by
`r₀`. -/
structure Plan.IsUncharged (p : Plan ℝ) (o : Optimizer ℝ) (r : BeamRequest ℝ) (m : ℕ)
    (μ r₀ : ℝ) : Prop where
  made : p.IsMadeBy o r
  free : o.penalty.value = 0 ∨ p.interferers = []
  size : p.geometry.size = m
  step : o.stepSize.value = μ
  response : p.response 0 = r₀

/-- No iterate responds beyond the matched filter. -/
theorem Plan.IsMadeBy.response_le {p : Plan ℝ} {o : Optimizer ℝ} {r : BeamRequest ℝ}
    (h : p.IsMadeBy o r) (k : ℕ) : p.response k ≤ √p.geometry.size :=
  h.isSound.targetResponse_le (h.power_iterate k)

namespace Plan.IsUncharged

variable {p : Plan ℝ} {o : Optimizer ℝ} {r : BeamRequest ℝ} {m : ℕ} {μ r₀ : ℝ}
  (h : p.IsUncharged o r m μ r₀)
include h

theorem isCharged_eq_false : p.ascent.isCharged = false :=
  h.made.isCharged_eq_false_iff.mpr h.free

theorem isGentle : p.ascent.IsGentle := Ascent.isGentle_of_uncharged h.isCharged_eq_false

theorem size_pos : (0 : ℝ) < m := by
  rw [← h.size]
  exact_mod_cast p.geometry.size_pos

theorem step_pos : 0 < μ := by
  rw [← h.step, ← h.made.answers.stepSize]
  exact h.made.isSound.step_pos

theorem rate_pos : 0 < μ * m := mul_pos h.step_pos h.size_pos

theorem start_sq_le : r₀ ^ 2 ≤ m := by
  have hnonneg : 0 ≤ p.response 0 := p.ascent.targetResponse_nonneg _
  have hbound := h.made.response_le 0
  rw [h.response] at hnonneg hbound
  rw [h.size] at hbound
  exact (Real.le_sqrt hnonneg h.size_pos.le).mp hbound

/-- The response after `k` iterations. -/
theorem response_eq (k : ℕ) : p.response k = amplified m (growth (μ * m) k) r₀ := by
  induction k with
  | zero => rw [growth_zero, amplified_one h.size_pos, h.response]
  | succ k ih =>
    have hrate : p.ascent.rate k * m = μ * m / (k + 1 : ℕ) := by
      rw [Ascent.rate, h.made.answers.stepSize, h.step, div_mul_eq_mul_div]
    have hstep := Ascent.targetResponse_advance h.made.isSound h.isCharged_eq_false
      (h.made.power_iterate k) (h.made.advances h.isGentle k)
    have hsize : (p.geometry.size : ℝ) = m := by rw [h.size]
    rw [hsize] at hstep
    calc p.response (k + 1)
        = (1 + p.ascent.rate k * m) * p.response k /
          √(1 + (2 * p.ascent.rate k + p.ascent.rate k ^ 2 * m) * p.response k ^ 2) := hstep
      _ = amplified m ((1 + p.ascent.rate k * m) * growth (μ * m) k) r₀ := by
        rw [ih]
        exact amplified_step h.size_pos h.start_sq_le (growth_pos h.rate_pos.le k)
          (h.made.isSound.rate_pos k).le
      _ = amplified m (growth (μ * m) (k + 1)) r₀ := by rw [hrate, growth_succ]

/-- A run whose budget lasts until the threshold is reached converges. -/
theorem exists_converged {n : ℕ} (hn : 0 < n) {threshold : Number ℝ}
    (hreached : threshold.value ≤ amplified m (growth (μ * m) n) r₀)
    (hthreshold : p.threshold.toNumber "snr_threshold" = .ok threshold) {grid : SearchGrid ℝ}
    (hgrid : SearchGrid.ofSetting o.patternPoints = .ok grid) (hbudget : n ≤ p.budget) :
    ∃ beam, o.optimize r = .ok beam ∧ beam.converged = true := by
  obtain ⟨beam, hbeam⟩ := h.made.exists_optimize h.isGentle hthreshold hgrid
  obtain ⟨w, hreports⟩ := Optimizer.exists_reports h.made.read hbeam
  refine ⟨beam, hbeam, ?_⟩
  by_contra hconverged
  obtain ⟨hlimit, hmissed, -⟩ := hreports.exhausted (Bool.eq_false_of_not_eq_true hconverged)
  -- the response of iterate `n` is in the history of a run that exhausts its budget
  have hmember : p.response n ∈ beam.history :=
    hreports.mem_history_iff.mpr ⟨n, hn, hbudget.trans hlimit.ge, rfl⟩
  rw [← h.response_eq] at hreached
  exact Setting.not_isReachedBy (hmissed _ hmember) ⟨threshold, hthreshold, hreached⟩

end Plan.IsUncharged

namespace Beam.Reports

variable {beam : Beam ℝ} {p : Plan ℝ} {w : Vector (Cplx ℝ) p.geometry.size}
  (h : beam.Reports p w) {o : Optimizer ℝ} {r : BeamRequest ℝ} (hp : p.IsMadeBy o r)
include h hp

theorem history_le {y : ℝ} (hy : y ∈ beam.history) : y ≤ √p.geometry.size := by
  obtain ⟨k, -, -, rfl⟩ := h.mem_history_iff.mp hy
  exact hp.response_le k

theorem targetResponse_le : beam.targetResponse ≤ √p.geometry.size := by
  have hw : power (Vec.toComplex w) = 1 := Vec.norm_eq_one_iff.mp h.length_one
  rw [h.targetResponse]
  exact hp.isSound.targetResponse_le hw

/-- A threshold beyond the response of the matched filter is not reached. -/
theorem converged_eq_false {threshold : Number ℝ}
    (hthreshold : p.threshold.toNumber "snr_threshold" = .ok threshold)
    (hbeyond : √p.geometry.size < threshold.value) : beam.converged = false := by
  rw [← Bool.not_eq_true, h.converged_iff]
  rintro ⟨y, hy, t, ht, hreached⟩
  rw [hthreshold, Except.ok.injEq] at ht
  subst ht
  have hbound := h.history_le hp (List.mem_of_getLast? hy)
  exact absurd (hreached.trans hbound) (not_le.mpr hbeyond)

end Beam.Reports

namespace Optimizer

/-- **Thresholds that are reached.**  Without a charge the responses have a closed form.  So a
start that responds at all reaches every threshold below the response of the matched filter,
given a budget that depends on the array, the step, the start's response and the threshold
alone, and a start that does not respond never does.  With a charge or without, no threshold
beyond the response of the matched filter is reached. -/
theorem optimize_reaches :
    (∀ {o : Optimizer ℝ} {r : BeamRequest ℝ} {p : Plan ℝ} {m : ℕ} {μ r₀ : ℝ},
      p.IsUncharged o r m μ r₀ →
        (∀ k, p.Advances k ∧ p.response k = amplified m (growth (μ * m) k) r₀) ∧
        (r₀ = 0 → ∀ k, p.response k = 0) ∧
        ∀ {beam}, o.optimize r = .ok beam → beam.history =
          (List.range beam.iterations).map fun k => amplified m (growth (μ * m) (k + 1)) r₀) ∧
    (∀ {m : ℕ} {μ t r₀ : ℝ}, t < √m → 0 < r₀ → ∃ n, ∀ {o : Optimizer ℝ} {r : BeamRequest ℝ}
      {p : Plan ℝ} {threshold : Number ℝ} {grid : SearchGrid ℝ},
      p.IsUncharged o r m μ r₀ → p.threshold.toNumber "snr_threshold" = .ok threshold →
        threshold.value = t → SearchGrid.ofSetting o.patternPoints = .ok grid →
        n ≤ p.budget → ∃ beam, o.optimize r = .ok beam ∧ beam.converged = true) ∧
    ∀ {o : Optimizer ℝ} {r : BeamRequest ℝ} {p : Plan ℝ} {beam : Beam ℝ}, p.IsMadeBy o r →
      o.optimize r = .ok beam →
        (∀ y ∈ beam.history, y ≤ √p.geometry.size) ∧
        beam.targetResponse ≤ √p.geometry.size ∧
        ∀ {threshold : Number ℝ}, p.threshold.toNumber "snr_threshold" = .ok threshold →
          √p.geometry.size < threshold.value →
            beam.converged = false ∧ beam.iterations = p.budget := by
  refine ⟨?_, ?_, ?_⟩
  · intro o r p m μ r₀ h
    refine ⟨fun k => ⟨h.made.advances h.isGentle k, h.response_eq k⟩, ?_, ?_⟩
    · rintro rfl k
      rw [h.response_eq, amplified, mul_zero, zero_div]
    · intro beam hbeam
      obtain ⟨w, hreports⟩ := exists_reports h.made.read hbeam
      rw [hreports.history]
      exact List.map_congr_left fun k _ => h.response_eq (k + 1)
  · intro m μ t r₀ ht hr₀
    by_cases hrun : ∃ o r p, Plan.IsUncharged p o r m μ r₀
    · obtain ⟨_, _, _, h⟩ := hrun
      obtain ⟨n, hn, hreached⟩ :=
        exists_le_amplified h.size_pos h.start_sq_le hr₀ h.rate_pos ht
      refine ⟨n, ?_⟩
      rintro o r p threshold grid h' hthreshold rfl hgrid hbudget
      exact h'.exists_converged hn hreached hthreshold hgrid hbudget
    · -- no array, step and start fit these numbers
      refine ⟨0, ?_⟩
      intro o r p _ _ h'
      exact absurd ⟨o, r, p, h'⟩ hrun
  · intro o r p beam hp hbeam
    obtain ⟨w, hreports⟩ := exists_reports hp.read hbeam
    refine ⟨fun y hy => hreports.history_le hp hy, hreports.targetResponse_le hp, ?_⟩
    intro threshold hthreshold hbeyond
    have hconverged := hreports.converged_eq_false hp hthreshold hbeyond
    exact ⟨hconverged, (hreports.exhausted hconverged).1⟩

/-- Two elements without an interferer reach a threshold of 1.4 from one of them alone, and never
one of 1.5. -/
theorem optimize_reaches_pair :
    (∀ k, (Plan.pair 0.1 0 [] 1.4 7).response k = amplified 2 (growth (0.1 * 2) k) 1) ∧
    (∃ n, ∀ budget, n ≤ budget → ∃ beam,
      (ofRates 0.1 0).optimize (.pair [] 1.4 budget) = .ok beam ∧ beam.converged = true) ∧
    ∃ beam, (ofRates 0.1 0).optimize (.pair [] 1.5 7) = .ok beam ∧
      beam.converged = false ∧ beam.iterations = 7 := by
  have hplan : ∀ threshold budget, (Plan.pair 0.1 0 [] threshold budget).IsUncharged
      (ofRates 0.1 0) (.pair [] threshold budget) 2 0.1 1 := by
    intro threshold budget
    have hstep : (0 : ℝ) < 0.1 := by norm_num
    exact ⟨Plan.pair_isMadeBy [] threshold budget hstep le_rfl, .inr rfl, rfl, rfl,
      Plan.pair_response_zero [] threshold budget⟩
  have hbelow : (1.4 : ℝ) < √(2 : ℕ) := Real.lt_sqrt_of_sq_lt (by norm_num)
  have hbeyond : √(2 : ℕ) < (1.5 : ℝ) := (Real.sqrt_lt' (by norm_num)).mpr (by norm_num)
  have hgrid := ofRates_grid 0.1 0
  obtain ⟨hclosed, hreach, hbounded⟩ := optimize_reaches
  refine ⟨fun k => ((hclosed (hplan 1.4 7)).1 k).2, ?_, ?_⟩
  · obtain ⟨n, hn⟩ := @hreach 2 0.1 1.4 1 hbelow one_pos
    refine ⟨n, ?_⟩
    intro budget hbudget
    have hthreshold : (Plan.pair 0.1 0 [] 1.4 budget).threshold.toNumber "snr_threshold" =
        .ok (.real 1.4) := rfl
    exact hn (hplan 1.4 budget) hthreshold rfl hgrid hbudget
  · have hthreshold : (Plan.pair 0.1 0 [] 1.5 7).threshold.toNumber "snr_threshold" =
        .ok (.real 1.5) := rfl
    have hmade := (hplan 1.5 7).made
    obtain ⟨beam, hbeam⟩ :=
      hmade.exists_optimize (hplan 1.5 7).isGentle hthreshold hgrid
    obtain ⟨-, -, hnever⟩ := hbounded hmade hbeam
    exact ⟨beam, hbeam, hnever hthreshold hbeyond⟩

end Optimizer

end PhasedArray
