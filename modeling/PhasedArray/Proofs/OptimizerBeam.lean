import PhasedArray.Proofs.OptimizerRequest

set_option autoImplicit false

/-!
# What a beam says of its run (SPEC §4.8)

A beam is a record of the run that led to it: how many iterations there were and what each
responded, whether the last of them reached the threshold, and the weights that were handed
back.  `Beam.Reports` states how these belong together, and every beam that is returned
satisfies it.

The threshold is compared with the responses of the iterates only.  A run that exhausts its
budget may hand back the start, and then the start may well reach the threshold; this is the
one way in which a beam that reaches the threshold is not said to have converged.  It takes an
interferer that costs more than the target earns: the example lets two elements start there.
-/

namespace PhasedArray

/-- Every iterate of weights of unit power has unit power. -/
theorem Ascent.power_iterate {m k : ℕ} (A : Ascent ℝ m k) {w : Vector (Cplx ℝ) m}
    (hw : power (Vec.toComplex w) = 1) (i : ℕ) : power (Vec.toComplex (A.iterate w i)) = 1 := by
  induction i with
  | zero => exact hw
  | succ i ih =>
    cases hadvance : A.advance i (A.iterate w i) with
    | ok v =>
      rw [iterate_succ hadvance]
      exact A.power_of_advance hadvance
    | error e =>
      rw [iterate, hadvance]
      exact ih

/-- A beam with the weights `w` belongs to the run of a plan. -/
structure Beam.Reports (beam : Beam ℝ) (p : Plan ℝ) (w : Vector (Cplx ℝ) p.geometry.size) :
    Prop where
  weights : beam.weights = w.toList
  length_one : Vec.norm w = 1
  targetResponse : beam.targetResponse = p.ascent.targetResponse w
  iterations : beam.iterations = beam.history.length
  within : beam.iterations ≤ p.budget
  advances : ∀ i < beam.iterations, p.Advances i
  history : beam.history = (List.range beam.iterations).map fun i => p.response (i + 1)
  earlier : ∀ y ∈ beam.history.dropLast, p.threshold.IsMissedBy y
  converged_iff : beam.converged = true ↔
    ∃ y, beam.history.getLast? = some y ∧ p.threshold.IsReachedBy y
  converged : beam.converged = true →
    w = p.iterate beam.iterations ∧ beam.history.getLast? = some beam.targetResponse
  exhausted : beam.converged = false →
    beam.iterations = p.budget ∧ (∀ y ∈ beam.history, p.threshold.IsMissedBy y) ∧
      ∃ b, w = p.iterate b ∧ IsFirstMax p.objective beam.iterations b

/-- The history holds the responses of the iterates after the start. -/
theorem Beam.Reports.mem_history_iff {beam : Beam ℝ} {p : Plan ℝ}
    {w : Vector (Cplx ℝ) p.geometry.size} (h : beam.Reports p w) {y : ℝ} :
    y ∈ beam.history ↔ ∃ i, 0 < i ∧ i ≤ beam.iterations ∧ p.response i = y := by
  rw [h.history, List.mem_map]
  constructor
  · rintro ⟨i, hi, rfl⟩
    exact ⟨i + 1, Nat.succ_pos i, List.mem_range.mp hi, rfl⟩
  · rintro ⟨i, hpos, hi, rfl⟩
    refine ⟨i - 1, ?_, ?_⟩
    · rw [List.mem_range]
      omega
    · rw [Nat.sub_add_cancel hpos]

namespace Finished.Ends

variable {p : Plan ℝ} {f : Finished ℝ p.geometry.size}

/-- The beam of a run that has ended reports it. -/
theorem beam_reports (h : f.Ends p.ascent p.start p.threshold p.budget)
    (hstart : power (Vec.toComplex p.start) = 1) (pattern : Pattern ℝ) :
    (p.beam f pattern).Reports p f.weights := by
  have hlast : f.converged = true →
      f.run.history.getLast? = some (p.ascent.targetResponse f.run.weights) := by
    intro hconverged
    obtain ⟨hpos, -⟩ := h.converged hconverged
    exact h.traces.getLast?_history hpos
  constructor
  · rfl
  · obtain ⟨i, hi⟩ := h.exists_iterate
    rw [Vec.norm_eq_one_iff, hi]
    exact p.ascent.power_iterate hstart i
  · rfl
  · change f.run.iterations = f.run.history.length
    rw [h.traces.history, List.length_map, List.length_range]
  · exact h.within
  · exact h.traces.advance
  · exact h.traces.history
  · exact h.earlier
  · constructor
    · intro hconverged
      obtain ⟨-, hreached⟩ := h.converged hconverged
      exact ⟨_, hlast hconverged, hreached⟩
    · rintro ⟨y, hy, hreached⟩
      -- a run out of budget has missed the threshold with its last response, too
      by_contra hconverged
      obtain ⟨-, hmissed⟩ := h.exhausted (Bool.eq_false_of_not_eq_true hconverged)
      exact Setting.not_isReachedBy (hmissed y (List.mem_of_getLast? hy)) hreached
  · intro hconverged
    have hweights : f.weights = f.run.weights := if_pos hconverged
    refine ⟨hweights.trans h.traces.weights, (hlast hconverged).trans ?_⟩
    rw [← hweights]
    rfl
  · intro hexhausted
    obtain ⟨hlimit, hmissed⟩ := h.exhausted hexhausted
    obtain ⟨b, hbest, -, hmax⟩ := h.traces.best
    have hweights : f.weights = f.run.best := if_neg (Bool.eq_false_iff.mp hexhausted)
    exact ⟨hlimit, hmissed, b, hweights.trans hbest, hmax⟩

end Finished.Ends

/-! ## Beams that are returned -/

namespace Optimizer

variable {o : Optimizer ℝ} {r : BeamRequest ℝ} {beam : Beam ℝ}

theorem exists_reports {p : Plan ℝ} (hp : o.plan r = .ok p) (h : o.optimize r = .ok beam) :
    ∃ w, beam.Reports p w := by
  obtain ⟨p', hp', f, hf, pattern, -, rfl⟩ := optimize_eq_ok_iff.mp h
  rw [hp, Except.ok.injEq] at hp'
  subst hp'
  obtain ⟨t, -, hstart⟩ := (plan_eq_ok_iff.mp hp).start
  exact ⟨f.weights, (Plan.run_ends hf).beam_reports (power_startWeights hstart) pattern⟩

/-- Every beam that is returned reports the run of the plan of its request. -/
theorem optimize_reports (h : o.optimize r = .ok beam) :
    ∃ p w, o.plan r = .ok p ∧ beam.Reports p w := by
  obtain ⟨p, hp, -⟩ := optimize_eq_ok_iff.mp h
  obtain ⟨w, hw⟩ := exists_reports hp h
  exact ⟨p, w, hp, hw⟩

/-- So does the beam of the example. -/
theorem optimize_reports_pair :
    ∃ beam p w, (ofRates 1 3).optimize (.pair [-(Real.pi / 2)] 0.9 1) = .ok beam ∧
      (ofRates 1 3).plan (.pair [-(Real.pi / 2)] 0.9 1) = .ok p ∧ beam.Reports p w := by
  obtain ⟨beam, hbeam⟩ := Plan.pair_exists_beam 0.9 zero_le_three
  obtain ⟨p, w, hp, hw⟩ := optimize_reports hbeam
  exact ⟨beam, p, w, hbeam, hp, hw⟩

/-- A beam that converged reaches the threshold.  One that reaches the threshold converged,
unless it is the start, which no iterate below the threshold improved upon. -/
theorem converged_iff_reached_unless_start {p : Plan ℝ} (hp : o.plan r = .ok p)
    (h : o.optimize r = .ok beam) :
    (beam.converged = true → p.threshold.IsReachedBy beam.targetResponse) ∧
    (p.threshold.IsReachedBy beam.targetResponse → beam.converged = true ∨
      beam.iterations = p.budget ∧ beam.weights = p.start.toList ∧
        ∀ i, 0 < i → i ≤ p.budget →
          p.threshold.IsMissedBy (p.response i) ∧ p.objective i ≤ p.objective 0) := by
  obtain ⟨w, hreports⟩ := exists_reports hp h
  constructor
  · intro hconverged
    obtain ⟨y, hy, hreached⟩ := hreports.converged_iff.mp hconverged
    obtain ⟨-, hlast⟩ := hreports.converged hconverged
    rw [hlast, Option.some.injEq] at hy
    rwa [hy]
  · intro hreached
    cases hconverged : beam.converged with
    | true => exact .inl rfl
    | false =>
      right
      obtain ⟨hbudget, hmissed, b, hw, hmax⟩ := hreports.exhausted hconverged
      have hbelow : ∀ i, 0 < i → i ≤ p.budget → p.threshold.IsMissedBy (p.response i) := by
        intro i hpos hi
        exact hmissed _ (hreports.mem_history_iff.mpr ⟨i, hpos, hi.trans hbudget.ge, rfl⟩)
      -- an iterate after the start has missed the threshold
      have hstart : b = 0 := by
        by_contra hlater
        apply Setting.not_isReachedBy (hbelow b (Nat.pos_of_ne_zero hlater) (hbudget ▸ hmax.le))
        rwa [hreports.targetResponse, hw] at hreached
      subst hstart
      refine ⟨hbudget, ?_, ?_⟩
      · rw [hreports.weights, hw]
        rfl
      · intro i hpos hi
        exact ⟨hbelow i hpos hi, hmax.max i (hbudget ▸ hi)⟩

/-- In the example both halves speak of the beam that is returned. -/
theorem converged_iff_reached_unless_start_pair :
    ∃ beam, (ofRates 1 3).optimize (.pair [-(Real.pi / 2)] 0.9 1) = .ok beam ∧
      (beam.converged = true → (Setting.real 0.9).IsReachedBy beam.targetResponse) ∧
      ((Setting.real 0.9).IsReachedBy beam.targetResponse → beam.converged = true ∨
        beam.weights = (Plan.pair 1 3 [-(Real.pi / 2)] 0.9 1).start.toList) := by
  obtain ⟨beam, hbeam⟩ := Plan.pair_exists_beam 0.9 zero_le_three
  have hplan := Plan.pair_isMadeBy [-(Real.pi / 2)] 0.9 1 one_pos zero_le_three
  obtain ⟨hfirst, hsecond⟩ := converged_iff_reached_unless_start hplan.read hbeam
  refine ⟨beam, hbeam, hfirst, ?_⟩
  intro hreached
  rcases hsecond hreached with hconverged | ⟨-, hweights, -⟩
  · exact .inl hconverged
  · exact .inr hweights

/-- The start of the example reaches the threshold, and the first step leads below it and to a
lower objective: the beam reaches the threshold and is not said to have converged. -/
theorem not_converged_iff_reached_pair :
    (Plan.pair 1 3 [-(Real.pi / 2)] 0.9 1).IsMadeBy (ofRates 1 3)
      (.pair [-(Real.pi / 2)] 0.9 1) ∧
    1 ≤ (Plan.pair 1 3 [-(Real.pi / 2)] 0.9 1).budget ∧
    ∃ beam, (ofRates 1 3).optimize (.pair [-(Real.pi / 2)] 0.9 1) = .ok beam ∧
      ¬ (beam.converged = true ↔
        (Plan.pair 1 3 [-(Real.pi / 2)] 0.9 1).threshold.IsReachedBy beam.targetResponse) := by
  have hthreshold : ∀ y,
      (Plan.pair 1 3 [-(Real.pi / 2)] 0.9 1).threshold.IsReachedBy y ↔ 0.9 ≤ y := by
    intro y
    constructor
    · rintro ⟨t, ht, hy⟩
      cases ht
      exact hy
    · intro hy
      exact ⟨.real 0.9, rfl, hy⟩
  have hbelow : ¬ 0.9 ≤ (Plan.pair 1 3 [-(Real.pi / 2)] 0.9 1).response 1 := by
    have hroot : (4 : ℝ) < √((2 - 3) ^ 2 + (1 + 3) ^ 2) := Real.lt_sqrt_of_sq_lt (by norm_num)
    rw [Plan.pair_response_one, not_le, div_lt_iff₀ (zero_lt_four.trans hroot)]
    calc (3 : ℝ) < 0.9 * 4 := by norm_num
      _ < 0.9 * √((2 - 3) ^ 2 + (1 + 3) ^ 2) := by gcongr
  have hlower : (Plan.pair 1 3 [-(Real.pi / 2)] 0.9 1).objective 1 <
      (Plan.pair 1 3 [-(Real.pi / 2)] 0.9 1).objective 0 := by
    rw [Plan.pair_objective_zero, Plan.pair_objective_one]
    norm_num
  have hplan := Plan.pair_isMadeBy [-(Real.pi / 2)] 0.9 1 one_pos zero_le_three
  obtain ⟨beam, hbeam⟩ := Plan.pair_exists_beam 0.9 zero_le_three
  obtain ⟨w, hreports⟩ := exists_reports hplan.read hbeam
  have hconverged : beam.converged = false := by
    rw [← Bool.not_eq_true, hreports.converged_iff]
    rintro ⟨y, hy, hreached⟩
    obtain ⟨i, hpos, hi, rfl⟩ := hreports.mem_history_iff.mp (List.mem_of_getLast? hy)
    have hone : i = 1 := le_antisymm (hi.trans hreports.within) hpos
    rw [hone, hthreshold] at hreached
    exact hbelow hreached
  have hresponse : beam.targetResponse = 1 := by
    obtain ⟨hbudget, -, b, hw, hmax⟩ := hreports.exhausted hconverged
    have hstart : b = 0 := by
      by_contra hlater
      have hone : b = 1 :=
        le_antisymm (hmax.le.trans hbudget.le) (Nat.one_le_iff_ne_zero.mpr hlater)
      have hbest := hmax.max 0 (Nat.zero_le _)
      rw [hone] at hbest
      exact absurd hbest (not_le.mpr hlower)
    rw [hreports.targetResponse, hw, hstart]
    exact Plan.pair_response_zero [-(Real.pi / 2)] 0.9 1
  refine ⟨hplan, le_rfl, beam, hbeam, ?_⟩
  rw [hconverged, hresponse, hthreshold]
  norm_num

end Optimizer

end PhasedArray
