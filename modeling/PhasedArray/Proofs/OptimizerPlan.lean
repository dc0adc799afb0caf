import PhasedArray.Proofs.Ascent
import PhasedArray.Proofs.Lobes
import PhasedArray.Proofs.Manifold
import PhasedArray.Proofs.OptimizerRun
import PhasedArray.Proofs.SearchGrid

set_option autoImplicit false

/-!
# Plans of the optimizer (SPEC §4.8)

A plan is what the optimizer reads off a request before it runs: `Plan.Answers` says of every
part of it where it comes from.  Whatever the request, the steering vectors in a plan are
those of plane waves and the start has unit power; with a checked configuration the steps go
forward and interference earns nothing.  The beam of a request is that of the run of its plan.
-/

namespace PhasedArray

/-! ## Reading a request -/

/-- Every part of a plan is read off the request, or else off the configuration. -/
structure Plan.Answers {α : Type} [Scalar α] (p : Plan α) (o : Optimizer α) (r : BeamRequest α) :
    Prop where
  geometry : Geometry.ofSettings r.elements r.spacing = .ok p.geometry
  limit : ∃ n, (r.budget.orElse o.budget).toNumber "max_iterations" = .ok n ∧ n.belowZero = false
  single : ∃ θ, r.target.toSingle "target_direction" = .ok θ
  listed : ∃ n, r.interferers.toLength "interference_angles" = .ok n
  target : Optimizer.targetOf p.geometry r.target = .ok p.ascent.target
  directions : p.geometry.directionsAmong r.interferers = .ok p.interferers
  interferers : p.ascent.interferers = p.geometry.steeringOf p.interferers
  overlapping : o.overlapping p.geometry p.ascent.target r.interferers = .ok p.overlapping
  start : ∃ t, r.start.toTensor? = .ok t ∧
    Optimizer.startWeights p.geometry p.ascent.target t = .ok p.start
  penalty : o.charge p.interferers.length = .ok p.ascent.penalty
  stepSize : p.ascent.stepSize = o.stepSize
  budget : (r.budget.orElse o.budget).toCount "max_iterations" = .ok p.budget
  threshold : p.threshold = r.threshold.orElse o.threshold

namespace Optimizer

theorem plan_eq_ok_iff {α : Type} [Scalar α] {o : Optimizer α} {r : BeamRequest α} {p : Plan α} :
    o.plan r = .ok p ↔ p.Answers o r := by
  constructor
  · intro h
    simp only [plan, Outcome.check_eq_ok, Outcome.bind_eq_ok] at h
    obtain ⟨g, hgeometry, n, hnumber, hlimit, θ, hsingle, l, hlisted, target, htarget, directions,
      hdirections, overlapping, hoverlapping, t, ht, start, hstart, penalty, hpenalty, budget,
      hbudget, h⟩ := h
    cases h
    exact {
      geometry := hgeometry
      limit := ⟨n, hnumber, Bool.eq_false_of_not_eq_true hlimit⟩
      single := ⟨θ, hsingle⟩
      listed := ⟨l, hlisted⟩
      target := htarget
      directions := hdirections
      interferers := rfl
      overlapping := hoverlapping
      start := ⟨t, ht, hstart⟩
      penalty := hpenalty
      stepSize := rfl
      budget := hbudget
      threshold := rfl }
  · intro h
    obtain ⟨n, hnumber, hlimit⟩ := h.limit
    obtain ⟨θ, hsingle⟩ := h.single
    obtain ⟨l, hlisted⟩ := h.listed
    obtain ⟨t, ht, hstart⟩ := h.start
    simp only [plan, Outcome.check_eq_ok, Outcome.bind_eq_ok]
    refine ⟨p.geometry, h.geometry, n, hnumber, ?_, θ, hsingle, l, hlisted, p.ascent.target,
      h.target, p.interferers, h.directions, p.overlapping, h.overlapping, t, ht, p.start, hstart,
      p.ascent.penalty, h.penalty, p.budget, h.budget, ?_⟩
    · rw [hlimit]
      exact Bool.false_ne_true
    · rw [← h.interferers, ← h.stepSize, ← h.threshold]
      rfl

/-- A checked configuration has steps that go forward and no reward for interference. -/
theorem ofConfig_eq_ok {c : Config ℝ} {o : Optimizer ℝ} (h : ofConfig c = .ok o) :
    0 < o.stepSize.value ∧ 0 ≤ o.penalty.value := by
  simp only [ofConfig, Outcome.check_eq_ok, Outcome.bind_eq_ok] at h
  obtain ⟨step, -, hstep, penalty, -, hpenalty, h⟩ := h
  cases h
  rw [Number.atMostZero_eq, decide_eq_true_iff, not_le] at hstep
  rw [Number.belowZero_eq, decide_eq_true_iff, not_lt] at hpenalty
  exact ⟨hstep, hpenalty⟩

/-- The steering vector of a target has entries of modulus one. -/
theorem norm_targetOf {g : Geometry ℝ} {s : Setting ℝ} {a : Vector (Cplx ℝ) g.size}
    (h : targetOf g s = .ok a) (i : Fin g.size) : ‖Vec.toComplex a i‖ = 1 := by
  simp only [targetOf, Geometry.steeringToward, Outcome.bind_eq_ok] at h
  obtain ⟨t, ⟨θ, -, ht⟩, h⟩ := h
  unfold Tensor.asVectorOf? at h
  by_cases hshape : t.shape = [g.size]
  · rw [dif_pos hshape] at h
    cases h
    obtain ⟨x, hx⟩ := g.exists_cis_of_mem_steeringOfTensor ht (Array.getElem_mem _)
    rw [Vec.toComplex_apply, Vec.get_eq_getElem]
    exact (congrArg (fun z : Cplx ℝ => ‖z.toComplex‖) hx).trans
      ((congrArg norm (Cplx.toComplex_cis x)).trans (Complex.norm_exp_ofReal_mul_I x))
  · rw [dif_neg hshape] at h
    cases h

/-- A run starts from weights of unit power. -/
theorem power_startWeights {g : Geometry ℝ} {target w : Vector (Cplx ℝ) g.size}
    {given : Option (Tensor ℝ)} (h : startWeights g target given = .ok w) :
    power (Vec.toComplex w) = 1 := by
  have hscaled : ∃ v : Vector (Cplx ℝ) g.size, Weights.normalize v = .ok w := by
    cases given with
    | none => exact ⟨_, h⟩
    | some t =>
      simp only [startWeights, Outcome.bind_eq_ok] at h
      obtain ⟨t, -, h⟩ := h
      by_cases hsize : t.entries.size = g.size
      · rw [dif_pos hsize] at h
        exact ⟨_, h⟩
      · rw [dif_neg hsize] at h
        cases h
  obtain ⟨v, hv⟩ := hscaled
  obtain ⟨hpos, rfl⟩ := Weights.normalize_eq_ok_iff.mp hv
  exact Weights.power_unit hpos

/-- Interferers are charged for as configured, if there are any. -/
theorem charge_eq (o : Optimizer ℝ) (k : ℕ) :
    o.charge k = .ok (if k = 0 then 0 else o.penalty.value) := by
  rw [charge, Number.toScalar_eq_ok]
  split_ifs <;> rfl

end Optimizer

/-! ## Plans of a checked optimizer -/

/-- A plan is what a checked optimizer reads off a request. -/
structure Plan.IsMadeBy (p : Plan ℝ) (o : Optimizer ℝ) (r : BeamRequest ℝ) : Prop where
  checked : ∃ c, Optimizer.ofConfig c = .ok o
  read : o.plan r = .ok p

namespace Plan.IsMadeBy

variable {p : Plan ℝ} {o : Optimizer ℝ} {r : BeamRequest ℝ} (h : p.IsMadeBy o r)
include h

theorem answers : p.Answers o r := Optimizer.plan_eq_ok_iff.mp h.read

theorem penalty_eq :
    p.ascent.penalty = if p.interferers.length = 0 then 0 else o.penalty.value := by
  have hcharge := h.answers.penalty
  rw [Optimizer.charge_eq, Except.ok.injEq] at hcharge
  exact hcharge.symm

/-- Its run climbs as runs should. -/
theorem isSound : p.ascent.IsSound := by
  obtain ⟨c, hc⟩ := h.checked
  obtain ⟨hstep, hpenalty⟩ := Optimizer.ofConfig_eq_ok hc
  constructor
  · exact Optimizer.norm_targetOf h.answers.target
  · intro i j
    rw [h.answers.interferers, Geometry.steeringOf, Geometry.toMatrix_steeringMatrix, nodes_apply,
      norm_pow, Geometry.norm_phasor, one_pow]
  · rw [h.answers.stepSize]
    exact hstep
  · rw [h.penalty_eq]
    split_ifs
    · exact le_rfl
    · exact hpenalty

theorem power_start : power (Vec.toComplex p.start) = 1 := by
  obtain ⟨t, -, hstart⟩ := h.answers.start
  exact Optimizer.power_startWeights hstart

/-- Interferers go uncharged if there are none or the configured charge is zero. -/
theorem isCharged_eq_false_iff :
    p.ascent.isCharged = false ↔ o.penalty.value = 0 ∨ p.interferers = [] := by
  rw [Ascent.isCharged_eq_false_iff, h.penalty_eq, ← List.length_eq_zero_iff]
  by_cases hnone : p.interferers.length = 0
  · simp [hnone]
  · rw [if_neg hnone]

/-- Without interferers every charge is small. -/
theorem isGentle
    (hsmall : o.stepSize.value * o.penalty.value * p.geometry.size * p.interferers.length < 1) :
    p.ascent.IsGentle := by
  rw [Ascent.IsGentle, h.penalty_eq, h.answers.stepSize]
  by_cases hnone : p.interferers.length = 0
  · rw [hnone, Nat.cast_zero, mul_zero]
    exact one_pos
  · rw [if_neg hnone]
    exact hsmall

end Plan.IsMadeBy

/-! ## Beams -/

namespace Pattern

variable (g : Geometry ℝ) (w : Vector (Cplx ℝ) g.size)

/-- The product with one makes no difference. -/
theorem factors_eq (θ : List ℝ) : factors g w θ = θ.map (arrayFactor g w) := by
  have hone : ∀ z : Cplx ℝ, (z * 1).abs = z.abs := by
    intro z
    rw [Cplx.abs_eq_norm, Cplx.abs_eq_norm, Cplx.toComplex_mul, Cplx.toComplex_one, mul_one]
  unfold factors
  split_ifs
  · rfl
  · exact List.map_congr_left fun θ _ => hone _

/-- The samples of the pattern of weights on a grid. -/
noncomputable def samplesOn (grid : SearchGrid ℝ) : Vector ℝ grid.size :=
  Vector.ofFn fun i => arrayFactor g w (grid.point i)

/-- Weights have a pattern on every grid that a setting makes. -/
theorem ofWeights_ofVector {points : Setting ℝ} {grid : SearchGrid ℝ}
    (hgrid : SearchGrid.ofSetting points = .ok grid) :
    ofWeights g points (.ofVector w) =
      .ok (measure (SearchGrid.size_pos hgrid) (samplesOn g w grid) grid.points) := by
  have hweights : weightsOf g (Tensor.ofVector w) = .ok w := dif_pos w.size_toArray
  have hsamples : factors g w grid.points.toList = (samplesOn g w grid).toList := by
    have hpoint : ∀ i, arrayFactor g w (grid.points.get i) = (samplesOn g w grid).get i := by
      intro i
      rw [samplesOn, SearchGrid.points, Vec.get_ofFn, Vec.get_ofFn]
    rw [factors_eq, Vec.toList_eq_ofFn, Vec.toList_eq_ofFn, List.map_ofFn]
    exact congrArg List.ofFn (funext hpoint)
  simp only [ofWeights, onGrid, Outcome.bind_eq_ok]
  refine ⟨grid, hgrid, _, rfl, w, hweights, ?_⟩
  rw [hsamples]
  exact analyze_toList _ _ _

end Pattern

namespace Optimizer

/-- A beam comes from the run of the plan of its request. -/
theorem optimize_eq_ok_iff {α : Type} [Scalar α] {o : Optimizer α} {r : BeamRequest α}
    {beam : Beam α} :
    o.optimize r = .ok beam ↔ ∃ p, o.plan r = .ok p ∧ ∃ f, p.run = .ok f ∧ ∃ pattern,
      Pattern.ofWeights p.geometry o.patternPoints (.ofVector f.weights) = .ok pattern ∧
        p.beam f pattern = beam := by
  simp only [optimize, Outcome.bind_eq_ok]
  constructor
  · rintro ⟨p, hp, f, hf, pattern, hpattern, h⟩
    exact ⟨p, hp, f, hf, pattern, hpattern, Except.ok.inj h⟩
  · rintro ⟨p, hp, f, hf, pattern, hpattern, rfl⟩
    exact ⟨p, hp, f, hf, pattern, hpattern, rfl⟩

/-- A run leads to a beam on every grid that a setting makes. -/
theorem exists_optimize {o : Optimizer ℝ} {r : BeamRequest ℝ} {p : Plan ℝ}
    (hp : o.plan r = .ok p) {f : Finished ℝ p.geometry.size} (hf : p.run = .ok f)
    {grid : SearchGrid ℝ} (hgrid : SearchGrid.ofSetting o.patternPoints = .ok grid) :
    ∃ pattern, o.optimize r = .ok (p.beam f pattern) := by
  have hpattern := Pattern.ofWeights_ofVector p.geometry f.weights hgrid
  exact ⟨_, optimize_eq_ok_iff.mpr ⟨p, hp, f, hf, _, hpattern, rfl⟩⟩

end Optimizer

end PhasedArray
