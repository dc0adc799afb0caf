import PhasedArray.Proofs.OptimizerBeam

set_option autoImplicit false

/-!
# Gentle steps climb (SPEC §4.8, §11)

Where the charge is small against the step, no iteration fails and none lowers the
objective, so the weights that are handed back are as good as the last iterate.  Without a
charge the objective is the squared response, and the responses climb as well; this is the case
of SPEC §11, which need not hold with a charge.
-/

namespace PhasedArray

/-- Without a charge the objective is the squared response. -/
theorem Ascent.objective_of_uncharged {m k : ℕ} {A : Ascent ℝ m k} (h : A.isCharged = false)
    (w : Vector (Cplx ℝ) m) : A.objective w = A.targetResponse w ^ 2 := by
  unfold objective
  rw [h, Exact.scalar_sq]
  rfl

theorem Ascent.targetResponse_nonneg {m k : ℕ} (A : Ascent ℝ m k) (w : Vector (Cplx ℝ) m) :
    0 ≤ A.targetResponse w := by
  rw [targetResponse_eq]
  exact norm_nonneg _

namespace Plan.IsMadeBy

variable {p : Plan ℝ} {o : Optimizer ℝ} {r : BeamRequest ℝ} (h : p.IsMadeBy o r)
include h

/-- The iterates have unit power. -/
theorem power_iterate (i : ℕ) : power (Vec.toComplex (p.iterate i)) = 1 :=
  p.ascent.power_iterate h.power_start i

section Gentle

variable (hgentle : p.ascent.IsGentle)
include hgentle

/-- A gentle iteration does not fail and does not lower the objective. -/
theorem advances_and_climbs (i : ℕ) : p.Advances i ∧ p.objective i ≤ p.objective (i + 1) := by
  obtain ⟨v, hv, hclimb⟩ := h.isSound.exists_advance hgentle (h.power_iterate i) i
  have hnext : p.iterate (i + 1) = v := Ascent.iterate_succ hv
  constructor
  · rw [Plan.Advances, hnext]
    exact hv
  · rw [Plan.objective, Plan.objective, hnext]
    exact hclimb

theorem advances (i : ℕ) : p.Advances i := (h.advances_and_climbs hgentle i).1

theorem objective_monotone : Monotone p.objective :=
  monotone_nat_of_le_succ fun i => (h.advances_and_climbs hgentle i).2

/-- Without a charge the responses climb. -/
theorem response_monotone (hfree : p.ascent.isCharged = false) : Monotone p.response := by
  intro i j hij
  have hclimb := h.objective_monotone hgentle hij
  rw [Plan.objective, Plan.objective, Ascent.objective_of_uncharged hfree,
    Ascent.objective_of_uncharged hfree] at hclimb
  exact (sq_le_sq₀ (p.ascent.targetResponse_nonneg _) (p.ascent.targetResponse_nonneg _)).mp hclimb

/-- A gentle run has a beam on every grid that a setting makes. -/
theorem exists_optimize {t : Number ℝ} (ht : p.threshold.toNumber "snr_threshold" = .ok t)
    {grid : SearchGrid ℝ} (hgrid : SearchGrid.ofSetting o.patternPoints = .ok grid) :
    ∃ beam, o.optimize r = .ok beam := by
  obtain ⟨f, hf⟩ := Plan.exists_run ht fun i _ => h.advances hgentle i
  obtain ⟨pattern, hbeam⟩ := Optimizer.exists_optimize h.read hf hgrid
  exact ⟨_, hbeam⟩

end Gentle

end Plan.IsMadeBy

namespace Beam.Reports

variable {beam : Beam ℝ} {p : Plan ℝ} {w : Vector (Cplx ℝ) p.geometry.size}

/-- If the objectives climb, the weights that are handed back are as good as the last
iterate. -/
theorem objective_eq (h : beam.Reports p w) (hclimb : Monotone p.objective) :
    p.ascent.objective w = p.objective beam.iterations := by
  cases hconverged : beam.converged with
  | true =>
    obtain ⟨hw, -⟩ := h.converged hconverged
    rw [hw]
    rfl
  | false =>
    obtain ⟨-, -, b, hw, hmax⟩ := h.exhausted hconverged
    rw [hw]
    exact le_antisymm (hclimb hmax.le) (hmax.max _ le_rfl)

/-- If the responses climb, so does the history after the response of the start. -/
theorem history_pairwise (h : beam.Reports p w) (hclimb : Monotone p.response) :
    (p.response 0 :: beam.history).Pairwise (· ≤ ·) := by
  have hlist : p.response 0 :: beam.history =
      (List.range (beam.iterations + 1)).map p.response := by
    rw [h.history, List.range_succ_eq_map, List.map_cons, List.map_map]
    rfl
  rw [hlist, List.pairwise_map]
  exact List.pairwise_lt_range.imp fun hij => hclimb hij.le

end Beam.Reports

namespace Optimizer

variable {o : Optimizer ℝ} {r : BeamRequest ℝ} {p : Plan ℝ}

/-- **Monotone ascent.**  With a charge that is small against the first step, every iteration
succeeds, the objective never decreases, and the weights that are handed back have the
objective of the last iterate.  Without a charge the history does not decrease either, from
the response of the start on. -/
theorem optimize_ascends (hp : p.IsMadeBy o r)
    (hsmall : o.stepSize.value * o.penalty.value * p.geometry.size * p.interferers.length < 1) :
    (∀ i, p.Advances i) ∧ Monotone p.objective ∧
    (∀ {t grid}, p.threshold.toNumber "snr_threshold" = .ok t →
      SearchGrid.ofSetting o.patternPoints = .ok grid → ∃ beam, o.optimize r = .ok beam) ∧
    ∀ {beam}, o.optimize r = .ok beam →
      (∃ w, beam.weights = w.toList ∧ p.ascent.objective w = p.objective beam.iterations) ∧
      (o.penalty.value = 0 ∨ p.interferers = [] →
        (p.response 0 :: beam.history).Pairwise (· ≤ ·)) := by
  have hgentle := hp.isGentle hsmall
  have hclimb := hp.objective_monotone hgentle
  refine ⟨hp.advances hgentle, hclimb, fun ht hgrid => hp.exists_optimize hgentle ht hgrid, ?_⟩
  intro beam hbeam
  obtain ⟨w, hw⟩ := exists_reports hp.read hbeam
  constructor
  · exact ⟨w, hw.weights, hw.objective_eq hclimb⟩
  · intro hfree
    apply hw.history_pairwise
    exact hp.response_monotone hgentle (hp.isCharged_eq_false_iff.mpr hfree)

/-- A tenth of a step and half a charge are gentle for two elements and one interferer. -/
theorem optimize_ascends_pair :
    Monotone (Plan.pair 0.1 0.5 [-(Real.pi / 2)] 1.4 7).objective ∧
    ∃ beam w, (ofRates 0.1 0.5).optimize (.pair [-(Real.pi / 2)] 1.4 7) = .ok beam ∧
      beam.weights = w.toList ∧
      (Plan.pair 0.1 0.5 [-(Real.pi / 2)] 1.4 7).ascent.objective w =
        (Plan.pair 0.1 0.5 [-(Real.pi / 2)] 1.4 7).objective beam.iterations := by
  have hstep : (0 : ℝ) < 0.1 := by norm_num
  have hcharge : (0 : ℝ) ≤ 0.5 := by norm_num
  have hsmall : (0.1 : ℝ) * 0.5 * (2 : ℕ) * (1 : ℕ) < 1 := by norm_num
  obtain ⟨-, hclimb, hexists, hbeams⟩ := optimize_ascends
    (Plan.pair_isMadeBy [-(Real.pi / 2)] 1.4 7 hstep hcharge) hsmall
  obtain ⟨beam, hbeam⟩ := hexists (t := .real 1.4) rfl (ofRates_grid 0.1 0.5)
  obtain ⟨⟨w, hw, hobjective⟩, -⟩ := hbeams hbeam
  exact ⟨hclimb, beam, w, hbeam, hw, hobjective⟩

end Optimizer

end PhasedArray
