import PhasedArray.Proofs.OptimizerRequest

set_option autoImplicit false

/-!
# Runs that start from weights times a complex factor (SPEC §4.8)

The optimizer scales the weights it is given, so that of a factor only its phase is left.  A phase
goes through a step as it is: the gradient is linear over the complex numbers, and neither the
objective nor a response shows the phase of the weights.  So two runs whose starts differ by a
phase go side by side, take the same decisions, and end in weights that differ by that phase; the
pattern of these is the same.
-/

namespace PhasedArray

open Matrix

/-! ## Weights times a complex factor -/

/-- A number of modulus one in the direction of `z`. -/
noncomputable def Cplx.phase (z : Cplx ℝ) : Cplx ℝ := z.divReal z.abs

section Phase

variable {z : Cplx ℝ}

theorem Cplx.toComplex_phase (z : Cplx ℝ) : z.phase.toComplex = z.toComplex / ‖z.toComplex‖ := by
  rw [phase, toComplex_divReal, abs_eq_norm]

theorem Cplx.norm_phase (hz : z ≠ 0) : ‖z.phase.toComplex‖ = 1 := by
  have hne : ‖z.toComplex‖ ≠ 0 := norm_ne_zero_iff.mpr fun h => hz (toComplex_injective h)
  rw [toComplex_phase, norm_div, Complex.norm_real, norm_norm, div_self hne]

theorem Cplx.phase_of_norm (hz : ‖z.toComplex‖ = 1) : z.phase = z := by
  apply toComplex_injective
  rw [toComplex_phase, hz, Complex.ofReal_one, div_one]

end Phase

/-- The weights `w` times `z`. -/
noncomputable def Vec.turned {n : ℕ} (z : Cplx ℝ) (w : Vector (Cplx ℝ) n) : Vector (Cplx ℝ) n :=
  w.map (z * ·)

theorem Vec.toComplex_turned {n : ℕ} (z : Cplx ℝ) (w : Vector (Cplx ℝ) n) :
    toComplex (turned z w) = z.toComplex • toComplex w := by
  rw [turned, toComplex_map]
  funext i
  rw [Cplx.toComplex_mul]
  rfl

namespace Weights

variable {n : ℕ} {z : Cplx ℝ} (w : Vector (Cplx ℝ) n)

/-- Of a factor scaling leaves the phase. -/
theorem unit_turned (z : Cplx ℝ) : unit (Vec.turned z w) = Vec.turned z.phase (unit w) := by
  apply Vec.toComplex_injective
  have hlength : Vec.norm (Vec.turned z w) = ‖z.toComplex‖ * Vec.norm w := by
    rw [Vec.norm_eq_sqrt, Vec.norm_eq_sqrt, Vec.toComplex_turned, power_smul,
      Real.sqrt_mul (sq_nonneg _), Real.sqrt_sq (norm_nonneg _)]
  rw [Vec.toComplex_turned, toComplex_unit, toComplex_unit, Vec.toComplex_turned, hlength,
    Cplx.toComplex_phase, smul_smul, smul_smul, mul_inv, Complex.ofReal_mul]
  congr 1
  push_cast
  ring

/-- Weights times a factor can be scaled if the weights can. -/
theorem normalize_turned (hz : z ≠ 0) :
    normalize (Vec.turned z w) = Vec.turned z.phase <$> normalize w := by
  have hmodulus : 0 < ‖z.toComplex‖ ^ 2 :=
    pow_pos (norm_pos_iff.mpr fun h => hz (Cplx.toComplex_injective h)) 2
  rw [normalize_eq, normalize_eq, Vec.toComplex_turned, power_smul, unit_turned]
  simp only [mul_pos_iff_of_pos_left hmodulus]
  split_ifs <;> rfl

theorem norm_response_turned (hz : ‖z.toComplex‖ = 1) (a : Vector (Cplx ℝ) n) :
    (response (Vec.turned z w) a).abs = (response w a).abs := by
  rw [Cplx.abs_eq_norm, Cplx.abs_eq_norm, toComplex_response, toComplex_response,
    Vec.toComplex_turned, smul_dotProduct, norm_smul, hz, one_mul]

end Weights

/-! ## One step -/

namespace Ascent

variable {m k : ℕ} (A : Ascent ℝ m k) {z : Cplx ℝ} (hz : ‖z.toComplex‖ = 1)
  (w : Vector (Cplx ℝ) m)

include hz in
theorem targetResponse_turned : A.targetResponse (Vec.turned z w) = A.targetResponse w :=
  Weights.norm_response_turned w hz A.target

include hz in
theorem objective_turned : A.objective (Vec.turned z w) = A.objective w := by
  rw [objective_eq, objective_eq, Vec.toComplex_turned, energy_smul_vec, hz, one_pow, one_mul]

/-- The step before scaling is linear. -/
theorem moved_turned (z : Cplx ℝ) (i : ℕ) :
    A.moved (Vec.turned z w) i = Vec.turned z (A.moved w i) := by
  apply Vec.toComplex_injective
  rw [toComplex_moved, Vec.toComplex_turned, Vec.toComplex_turned, toComplex_moved, mulVec_smul]

include hz in
/-- A phase goes through a step. -/
theorem advance_turned (i : ℕ) :
    A.advance i (Vec.turned z w) = Vec.turned z <$> A.advance i w := by
  have hne : z ≠ 0 := by
    rintro rfl
    rw [Cplx.toComplex_zero, norm_zero] at hz
    exact zero_ne_one hz
  rw [advance_eq, advance_eq, moved_turned, Weights.normalize_turned _ hne,
    Cplx.phase_of_norm hz]

end Ascent

/-! ## Runs -/

/-- The state with its weights times `z`. -/
noncomputable def Run.turned {m : ℕ} (z : Cplx ℝ) (run : Run ℝ m) : Run ℝ m :=
  { run with weights := Vec.turned z run.weights, best := Vec.turned z run.best }

/-- The end of a run with its weights times `z`. -/
noncomputable def Finished.turned {m : ℕ} (z : Cplx ℝ) (f : Finished ℝ m) : Finished ℝ m :=
  ⟨f.run.turned z, f.converged⟩

theorem Finished.weights_turned {m : ℕ} (z : Cplx ℝ) (f : Finished ℝ m) :
    (f.turned z).weights = Vec.turned z f.weights := by
  unfold Finished.weights
  cases hconverged : f.converged <;> simp [turned, Run.turned, hconverged]

namespace Run

variable {m k : ℕ} {A : Ascent ℝ m k} {z : Cplx ℝ} (hz : ‖z.toComplex‖ = 1)
include hz

theorem start_turned (w : Vector (Cplx ℝ) m) : start A (Vec.turned z w) = (start A w).turned z := by
  rw [start, A.objective_turned hz]
  rfl

theorem extend_turned (i : ℕ) (run : Run ℝ m) (w : Vector (Cplx ℝ) m) :
    (run.turned z).extend A i (Vec.turned z w) = (run.extend A i w).turned z := by
  unfold extend
  rw [A.objective_turned hz, A.targetResponse_turned hz]
  have hobjective : (run.turned z).bestObjective = run.bestObjective := rfl
  rw [hobjective]
  by_cases hgreater : run.bestObjective < A.objective w
  · simp only [if_pos hgreater]
    rfl
  · simp only [if_neg hgreater]
    rfl

/-- Two runs whose states differ by a phase go side by side. -/
theorem climb_turned (t : ℝ) (budget i : ℕ) (run : Run ℝ m) :
    climb A t budget i (run.turned z) = Finished.turned z <$> climb A t budget i run := by
  induction budget generalizing i run with
  | zero => rfl
  | succ budget ih =>
    have hstep : A.advance i (run.turned z).weights = Vec.turned z <$> A.advance i run.weights :=
      A.advance_turned hz run.weights i
    rw [climb, climb, hstep]
    cases A.advance i run.weights with
    | error e => rfl
    | ok w =>
      change (if t ≤ A.targetResponse (Vec.turned z w) then _ else _) = _
      rw [A.targetResponse_turned hz, extend_turned hz]
      dsimp only
      by_cases hreached : t ≤ A.targetResponse w
      · rw [if_pos hreached, if_pos hreached]
        rfl
      · rw [if_neg hreached, if_neg hreached]
        exact ih (i + 1) _

end Run

/-! ## Patterns -/

namespace Pattern

/-- The weights of a pattern may be given as a tensor. -/
theorem onGrid_ofVector (g : Geometry ℝ) (grid : SearchGrid ℝ) (w : Vector (Cplx ℝ) g.size) :
    onGrid g grid (.ofVector w) = analyze (factors g w grid.points.toList) grid.points.toList := by
  have hweights : weightsOf g (Tensor.ofVector w) = .ok w := dif_pos w.size_toArray
  rw [onGrid]
  change weightsOf g (Tensor.ofVector w) >>= _ = _
  rw [hweights]
  rfl

/-- A pattern does not show the phase of its weights. -/
theorem ofWeights_turned (g : Geometry ℝ) (points : Setting ℝ) {z : Cplx ℝ}
    (hz : ‖z.toComplex‖ = 1) (w : Vector (Cplx ℝ) g.size) :
    ofWeights g points (.ofVector (Vec.turned z w)) = ofWeights g points (.ofVector w) := by
  have hfactors : ∀ θ, factors g (Vec.turned z w) θ = factors g w θ := by
    intro θ
    rw [factors_eq, factors_eq]
    exact List.map_congr_left fun φ _ => Weights.norm_response_turned w hz (g.steering φ)
  rw [ofWeights, ofWeights]
  apply bind_congr
  intro grid
  rw [onGrid_ofVector, onGrid_ofVector, hfactors]

end Pattern

/-! ## Plans -/

namespace Plan

/-- The plan with its start times `z`. -/
noncomputable abbrev turned (z : Cplx ℝ) (p : Plan ℝ) : Plan ℝ :=
  { p with start := Vec.turned z p.start }

theorem run_turned {z : Cplx ℝ} (hz : ‖z.toComplex‖ = 1) (p : Plan ℝ) :
    (p.turned z).run = Finished.turned z <$> p.run := by
  cases ht : p.threshold.toNumber "snr_threshold" with
  | ok t =>
    rw [run_eq_climbFrom ht, run_eq_climbFrom (p := p.turned z) ht, Run.climbFrom, Run.climbFrom,
      ← Run.climb_turned hz, ← Run.start_turned hz]
  | error e =>
    rw [run_eq_of_error ht, run_eq_of_error (p := p.turned z) ht, p.ascent.advance_turned hz]
    by_cases hbudget : p.budget = 0
    · rw [if_pos hbudget, if_pos hbudget, Run.start_turned hz]
      rfl
    · rw [if_neg hbudget, if_neg hbudget]
      cases p.ascent.advance 0 p.start <;> rfl

end Plan

/-! ## Requests -/

/-- A setting gives the weights `w` to start from. -/
def Setting.GivesWeights (s : Setting ℝ) (w : List (Cplx ℝ)) : Prop :=
  ∃ t u, s.toTensor? = .ok (some t) ∧ t.toComplex = .ok u ∧ u.entries.toList = w

theorem Setting.givesWeights_ofVector {n : ℕ} (w : Vector (Cplx ℝ) n) :
    (Setting.tensor (.ofVector w)).GivesWeights w.toList := ⟨_, _, rfl, rfl, rfl⟩

namespace Optimizer

/-- Weights that are given are counted and scaled. -/
theorem exists_startWeights {s : Setting ℝ} {w : List (Cplx ℝ)} (h : s.GivesWeights w) :
    ∃ t, s.toTensor? = .ok t ∧ ∀ (g : Geometry ℝ) (target : Vector (Cplx ℝ) g.size),
      startWeights g target t =
        if h : w.length = g.size then Weights.normalize ((Vec.ofList w).cast h)
        else .error (.startCount g.givenSize w.length) := by
  obtain ⟨t, u, ht, hu, rfl⟩ := h
  refine ⟨some t, ht, ?_⟩
  intro g target
  rw [startWeights, hu]
  rfl

/-- A request that starts from weights times a factor has a plan that starts from the phase of the
factor times the same weights. -/
theorem plan_turned (o : Optimizer ℝ) (r : BeamRequest ℝ) {s s' : Setting ℝ} {w : List (Cplx ℝ)}
    {c : Cplx ℝ} (hc : c ≠ 0) (hs : s.GivesWeights w) (hs' : s'.GivesWeights (w.map (c * ·))) :
    o.plan { r with start := s' } = Plan.turned c.phase <$> o.plan { r with start := s } := by
  obtain ⟨t, ht, hstart⟩ := exists_startWeights hs
  obtain ⟨t', ht', hstart'⟩ := exists_startWeights hs'
  have hturned : ∀ (g : Geometry ℝ) (target : Vector (Cplx ℝ) g.size),
      startWeights g target t' = Vec.turned c.phase <$> startWeights g target t := by
    intro g target
    rw [hstart, hstart']
    by_cases hlength : w.length = g.size
    · have hlength' : (w.map (c * ·)).length = g.size := by rw [List.length_map, hlength]
      have hgiven : (Vec.ofList (w.map (c * ·))).cast hlength' =
          Vec.turned c ((Vec.ofList w).cast hlength) := by
        simp [Vec.ofList, Vec.turned]
      rw [dif_pos hlength, dif_pos hlength', hgiven, Weights.normalize_turned _ hc]
    · have hlength' : (w.map (c * ·)).length ≠ g.size := by rwa [List.length_map]
      rw [dif_neg hlength, dif_neg hlength', List.length_map]
      rfl
  have hread : s.toTensor? = pure t := ht
  have hread' : s'.toTensor? = pure t' := ht'
  simp only [plan, map_bind, apply_ite (Functor.map (Plan.turned c.phase)), hread, hread',
    pure_bind, hturned, bind_map_left, map_pure]

end Optimizer

/-! ## Beams -/

/-- The beam with its weights times `z`, and all else as it is. -/
noncomputable def Beam.turned (z : Cplx ℝ) (beam : Beam ℝ) : Beam ℝ :=
  { beam with weights := beam.weights.map (z * ·) }

theorem Plan.beam_turned {z : Cplx ℝ} (hz : ‖z.toComplex‖ = 1) (p : Plan ℝ)
    (f : Finished ℝ p.geometry.size) (pattern : Pattern ℝ) :
    (p.turned z).beam (f.turned z) pattern = (p.beam f pattern).turned z := by
  have hweights : (Vec.turned z f.weights).toList = f.weights.toList.map (z * ·) :=
    Vector.toList_map
  rw [beam, Finished.weights_turned, p.ascent.targetResponse_turned hz, hweights]
  rfl

namespace Optimizer

/-- The optimizer depends on the weights it starts from up to a complex factor only.  However the
weights `w` and `c w` are given, the two requests fail alike, or both lead to a beam; then the
iterations, the history, the response and the pattern are the same, and the weights are those of
the first times `c / |c|`. -/
theorem optimize_turned (o : Optimizer ℝ) (r : BeamRequest ℝ) {s s' : Setting ℝ}
    {w : List (Cplx ℝ)} {c : Cplx ℝ} (hc : c ≠ 0) (hs : s.GivesWeights w)
    (hs' : s'.GivesWeights (w.map (c * ·))) :
    o.optimize { r with start := s' } =
      Beam.turned (c.divReal c.abs) <$> o.optimize { r with start := s } := by
  have hz := Cplx.norm_phase hc
  change _ = Beam.turned c.phase <$> _
  rw [optimize, optimize, plan_turned o r hc hs hs', map_bind, bind_map_left]
  refine bind_congr fun p => ?_
  rw [p.run_turned hz, map_bind, bind_map_left]
  refine bind_congr fun f => ?_
  rw [Finished.weights_turned, Pattern.ofWeights_turned _ _ hz, map_bind]
  refine bind_congr fun pattern => ?_
  rw [p.beam_turned hz, map_pure]

/-- Two elements start from the first alone, and from that times twice the imaginary unit. -/
theorem optimize_turned_pair :
    ∃ beam, (ofRates 1 3).optimize (.pair [-(Real.pi / 2)] 0.9 1) = .ok beam ∧
      (ofRates 1 3).optimize { BeamRequest.pair [-(Real.pi / 2)] 0.9 1 with
        start := .tensor (.ofVector (Vec.turned ⟨0, 2⟩ Weights.first)) } =
          .ok (beam.turned ⟨0, 1⟩) := by
  have hfactor : (⟨0, 2⟩ : Cplx ℝ).toComplex = 2 * Complex.I := by
    apply Complex.ext <;> simp
  have hne : (⟨0, 2⟩ : Cplx ℝ) ≠ 0 := by
    intro h
    exact two_ne_zero (congrArg Cplx.im h)
  have hphase : (⟨0, 2⟩ : Cplx ℝ).divReal (Cplx.abs ⟨0, 2⟩) = ⟨0, 1⟩ := by
    apply Cplx.toComplex_injective
    rw [Cplx.toComplex_divReal, Cplx.abs_eq_norm, hfactor, norm_mul, Complex.norm_I, mul_one,
      Complex.norm_ofNat, Complex.ofReal_ofNat, mul_div_cancel_left₀ _ two_ne_zero]
    rfl
  have hgiven : (Setting.tensor (.ofVector (Vec.turned ⟨0, 2⟩ Weights.first))).GivesWeights
      (Weights.first.toList.map ((⟨0, 2⟩ : Cplx ℝ) * ·)) := by
    rw [← Vector.toList_map]
    exact Setting.givesWeights_ofVector _
  obtain ⟨beam, hbeam⟩ := Plan.pair_exists_beam 0.9 zero_le_three
  refine ⟨beam, hbeam, ?_⟩
  have hturned := optimize_turned (ofRates 1 3) (.pair [-(Real.pi / 2)] 0.9 1) hne
    (Setting.givesWeights_ofVector Weights.first) hgiven
  rw [hturned, hphase]
  exact congrArg (Beam.turned ⟨0, 1⟩ <$> ·) hbeam

end Optimizer

end PhasedArray
