import PhasedArray.Proofs.NoiselessScene
import PhasedArray.Proofs.OptimizerPlan

set_option autoImplicit false

/-!
# Requests in numbers (SPEC §4.8)

A caller who has an array, directions and weights at hand asks for a beam in numbers.  Such
a request is always read, and its plan holds those numbers: the steering vectors of the
directions, and the weights scaled to unit power.  Two elements with the target on broadside
serve as an example.
-/

namespace PhasedArray

open Matrix

section Numbers

variable (o : Optimizer ℝ) (g : Geometry ℝ) (bound θ : ℝ) (directions : List ℝ)
  (w : Vector (Cplx ℝ) g.size) (threshold : ℝ) (budget : ℕ)

/-- A request for a beam toward `θ` that is given in numbers. -/
noncomputable def BeamRequest.ofNumbers : BeamRequest ℝ where
  elements := .whole g.size
  target := .real θ
  interferers := .list (directions.map .real)
  threshold := .real threshold
  budget := .whole budget
  spacing := .real g.spacing
  start := .tensor (.ofVector w)

/-- The plan of a request that is given in numbers, where interferers overlap with the target
beyond `bound`. -/
noncomputable def Plan.ofNumbers : Plan ℝ where
  geometry := g
  interferers := directions
  ascent :=
    { target := g.steering θ
      interferers := g.steeringOf directions
      penalty := if directions.length = 0 then 0 else o.penalty.value
      stepSize := o.stepSize }
  start := Weights.unit w
  budget := budget
  threshold := .real threshold
  overlapping := directions.filter fun φ =>
    decide (bound < Optimizer.correlation g (g.steering θ) (g.steering φ))

variable {o g bound θ directions w threshold budget}

theorem Optimizer.targetOf_real (hsize : g.size < Extent.greatestKept) :
    targetOf g (.real θ) = .ok (g.steering θ) := by
  simp only [targetOf, Outcome.bind_eq_ok]
  refine ⟨_, g.steeringToward_real hsize θ, ?_⟩
  rw [Tensor.asVectorOf?_ofVector]
  rfl

/-- An interferer overlaps with the target if it matches it beyond the bound. -/
theorem Optimizer.overlapOf_real (hsize : g.size < Extent.greatestKept)
    (hbound : o.overlap = .real bound) (target : Vector (Cplx ℝ) g.size) (φ : ℝ) :
    o.overlapOf g target (.real φ) =
      .ok (if bound < correlation g target (g.steering φ) then some φ else none) := by
  have hextent : (Tensor.ofVector (g.steering φ)).entries.size = g.size :=
    (g.steering φ).size_toArray
  have htest : o.overlap.toBound "overlap_warning" = .ok bound := by
    rw [hbound]
    rfl
  rw [overlapOf, g.steeringToward_real hsize]
  change dite _ _ _ = _
  rw [dif_pos hextent, htest]
  change ite (bound < correlation g target (g.steering φ)) _ _ = _
  split_ifs <;> rfl

theorem Optimizer.overlapping_reals (hsize : g.size < Extent.greatestKept)
    (hbound : o.overlap = .real bound) (target : Vector (Cplx ℝ) g.size) :
    o.overlapping g target (.list (directions.map .real)) =
      .ok (directions.filter fun φ =>
        decide (bound < correlation g target (g.steering φ))) := by
  have heach : o.overlapOf g target ∘ Setting.real = fun φ =>
      pure (if bound < correlation g target (g.steering φ) then some φ else none) := by
    funext φ
    exact overlapOf_real hsize hbound target φ
  have hfound : (directions.map fun φ =>
      if bound < correlation g target (g.steering φ) then some φ else none).filterMap id =
      directions.filter fun φ => decide (bound < correlation g target (g.steering φ)) := by
    rw [List.filterMap_map, ← List.filterMap_eq_filter]
    apply List.filterMap_congr
    intro φ _
    simp [Option.guard]
  change (((directions.map Setting.real).mapM (o.overlapOf g target)) >>= fun found =>
    pure (found.filterMap id)) = _
  rw [List.mapM_map, heach, List.mapM_pure, pure_bind, hfound]
  rfl

section Plan

variable (hg : Geometry.ofSettings (.whole g.size) (.real g.spacing) = .ok g)
  (hsize : g.size < Extent.greatestKept) (hbound : o.overlap = .real bound)
include hg hsize hbound

/-- A request in numbers is read as those numbers, wherever its run starts from. -/
theorem Optimizer.plan_from {start : Setting ℝ} {v : Vector (Cplx ℝ) g.size}
    (hstart : ∃ t, start.toTensor? = .ok t ∧ startWeights g (g.steering θ) t = .ok v) :
    o.plan { BeamRequest.ofNumbers g θ directions w threshold budget with start } =
      .ok { Plan.ofNumbers o g bound θ directions w threshold budget with start := v } := by
  have hlimit : (Number.whole budget : Number ℝ).belowZero = false := by
    simp [Number.belowZero]
  apply plan_eq_ok_iff.mpr
  exact {
    geometry := hg
    limit := ⟨.whole budget, rfl, hlimit⟩
    single := ⟨θ, rfl⟩
    listed := ⟨_, rfl⟩
    target := targetOf_real hsize
    directions := g.directionsAmong_reals hsize directions
    interferers := rfl
    overlapping := overlapping_reals hsize hbound _
    start := hstart
    penalty := o.charge_eq directions.length
    stepSize := rfl
    budget := rfl
    threshold := rfl }

/-- A request that is given in numbers is read as those numbers. -/
theorem Optimizer.plan_ofNumbers (hw : 0 < power (Vec.toComplex w)) :
    o.plan (.ofNumbers g θ directions w threshold budget) =
      .ok (.ofNumbers o g bound θ directions w threshold budget) :=
  plan_from (w := w) hg hsize hbound
    ⟨_, rfl, (dif_pos w.size_toArray).trans (Weights.normalize_of_pos hw)⟩

end Plan

end Numbers

/-! ## An example: two elements -/

/-- An optimizer of a first step and a charge, which samples patterns on three points. -/
noncomputable def Optimizer.ofRates (step charge : ℝ) : Optimizer ℝ where
  budget := .whole 100
  threshold := .real 0.9
  stepSize := .real step
  penalty := .real charge
  overlap := .real 0.9
  patternPoints := .whole 3

theorem Optimizer.ofRates_grid (step charge : ℝ) :
    SearchGrid.ofSetting (ofRates step charge).patternPoints = .ok (.ofNat 3) :=
  SearchGrid.ofSetting_whole three_pos (by decide)

theorem Optimizer.exists_ofConfig {step charge : ℝ} (hstep : 0 < step) (hcharge : 0 ≤ charge) :
    ∃ c, ofConfig c = .ok (ofRates step charge) := by
  refine ⟨⟨.whole 100, .real 0.9, .real step, .real charge, .real 0.9, .whole 3⟩, ?_⟩
  simp only [ofConfig, Outcome.check_eq_ok, Outcome.bind_eq_ok]
  refine ⟨.real step, rfl, ?_, .real charge, rfl, ?_, rfl⟩
  · rw [Number.atMostZero_eq, decide_eq_true_iff, not_le]
    exact hstep
  · rw [Number.belowZero_eq, decide_eq_true_iff, not_lt]
    exact hcharge

theorem Geometry.ofSettings_pair :
    ofSettings (.whole Geometry.pair.size) (.real Geometry.pair.spacing) = .ok .pair :=
  ofSettings_numbers two_pos Geometry.pair.spacing_pos rfl

/-- Weights that leave out the second of two elements. -/
noncomputable def Weights.first : Vector (Cplx ℝ) 2 := #v[1, 0]

theorem Weights.toComplex_first : Vec.toComplex first = ![1, 0] := by
  funext i
  fin_cases i <;> rfl

theorem Weights.power_first : power (Vec.toComplex first) = 1 := by
  rw [toComplex_first, power, Fin.sum_univ_two]
  simp

section Pair

variable (step charge : ℝ) (directions : List ℝ) (threshold : ℝ) (budget : ℕ)

/-- A request for a beam toward broadside from two elements, of which only the first has
weight at the start. -/
noncomputable def BeamRequest.pair : BeamRequest ℝ :=
  .ofNumbers .pair 0 directions Weights.first threshold budget

/-- The plan of such a request. -/
noncomputable def Plan.pair : Plan ℝ :=
  .ofNumbers (.ofRates step charge) .pair 0.9 0 directions Weights.first threshold budget

/-- What its run climbs. -/
noncomputable def Ascent.pair : Ascent ℝ 2 directions.length where
  target := Geometry.pair.steering 0
  interferers := Geometry.pair.steeringOf directions
  penalty := if directions.length = 0 then 0 else charge
  stepSize := .real step

variable {step charge}

theorem Plan.pair_isMadeBy (hstep : 0 < step) (hcharge : 0 ≤ charge) :
    (pair step charge directions threshold budget).IsMadeBy (.ofRates step charge)
      (.pair directions threshold budget) where
  checked := Optimizer.exists_ofConfig hstep hcharge
  read := by
    have hpos : 0 < power (Vec.toComplex Weights.first) := by
      rw [Weights.power_first]
      exact one_pos
    exact Optimizer.plan_ofNumbers Geometry.ofSettings_pair (by decide) rfl hpos

/-- Toward broadside the elements are in step. -/
theorem Ascent.pair_target : Vec.toComplex (pair step charge directions).target = ![1, 1] := by
  have hsteering := Geometry.toComplex_steering_pair 0
  rwa [Geometry.phasor_pair_zero] at hsteering

theorem Plan.pair_iterate (i : ℕ) : (pair step charge directions threshold budget).iterate i =
    (Ascent.pair step charge directions).iterate Weights.first i := by
  change (Ascent.pair step charge directions).iterate (Weights.unit Weights.first) i = _
  rw [Weights.unit_of_power Weights.power_first]

theorem Plan.pair_iterate_zero :
    (pair step charge directions threshold budget).iterate 0 = Weights.first :=
  pair_iterate directions threshold budget 0

/-- One of two elements alone responds by one. -/
theorem Plan.pair_response_zero :
    (pair step charge directions threshold budget).response 0 = 1 := by
  rw [response, pair_iterate_zero]
  change (Ascent.pair step charge directions).targetResponse Weights.first = 1
  rw [Ascent.targetResponse_eq, Ascent.pair_target, Weights.toComplex_first]
  simp

end Pair

/-! ## An interferer at the end of the array

It meets the two elements in opposition, so that a large charge turns the weights away from the
target. -/

namespace Ascent

section Endfire

variable (step charge : ℝ)

/-- An interferer at the end of the array meets the two elements in opposition. -/
theorem pair_interferenceForm : (pair step charge [-(Real.pi / 2)]).interferenceForm =
    !![1, -1; -1, 1] := by
  have hphasor : ∀ j, Geometry.pair.phasor ((Vec.ofList [-(Real.pi / 2)]).get j) = -1 := by
    intro j
    rw [← Geometry.phasor_pair_end]
    fin_cases j
    rfl
  have hcolumn : (pair step charge [-(Real.pi / 2)]).interferers.toMatrix =
      Matrix.of fun i _ => (-1 : ℂ) ^ i.val := by
    refine (Geometry.toMatrix_steeringMatrix Geometry.pair _).trans ?_
    ext i j
    rw [nodes_apply, hphasor]
    rfl
  rw [interferenceForm, hcolumn]
  ext i j
  rw [Matrix.mul_apply]
  refine (Fin.sum_univ_one _).trans ?_
  fin_cases i <;> fin_cases j <;> simp

theorem pair_form : (pair step charge [-(Real.pi / 2)]).form =
    !![1 - (charge : ℂ), 1 + charge; 1 + charge, 1 - charge] := by
  have hcharge : (pair step charge [-(Real.pi / 2)]).penalty = charge := rfl
  rw [form, pair_interferenceForm, pair_target, hcharge]
  ext i j
  fin_cases i <;> fin_cases j <;> simp [vecMulVec]

/-- The first step turns the weights against each other if the charge is large. -/
theorem pair_toComplex_moved : Vec.toComplex ((pair 1 charge [-(Real.pi / 2)]).moved
    Weights.first 0) = ![((2 - charge : ℝ) : ℂ), ((1 + charge : ℝ) : ℂ)] := by
  have hrate : (pair 1 charge [-(Real.pi / 2)]).rate 0 = 1 := by
    change (1 : ℝ) / (0 + 1 : ℕ) = 1
    norm_num
  rw [toComplex_moved, operator, pair_form, hrate, Weights.toComplex_first]
  funext i
  fin_cases i
  · simp [mulVec, dotProduct, Fin.sum_univ_two, one_apply]
    ring
  · simp [mulVec, dotProduct, Fin.sum_univ_two, one_apply]

theorem pair_power_moved : power (Vec.toComplex ((pair 1 charge [-(Real.pi / 2)]).moved
    Weights.first 0)) = (2 - charge) ^ 2 + (1 + charge) ^ 2 := by
  rw [pair_toComplex_moved, power, Fin.sum_univ_two]
  simp only [cons_val_zero, cons_val_one, Complex.norm_real, Real.norm_eq_abs, sq_abs]

theorem pair_advance : (pair 1 charge [-(Real.pi / 2)]).advance 0 Weights.first =
    .ok (Weights.unit ((pair 1 charge [-(Real.pi / 2)]).moved Weights.first 0)) := by
  have hpower : (2 - charge) ^ 2 + (1 + charge) ^ 2 =
      2 * (charge - 1 / 2) ^ 2 + 9 / 2 := by ring
  rw [advance_eq, Weights.normalize_of_pos]
  rw [pair_power_moved, hpower]
  positivity

end Endfire

end Ascent

namespace Plan

section Endfire

variable (charge threshold : ℝ) (budget : ℕ)

theorem pair_iterate_one : (pair 1 charge [-(Real.pi / 2)] threshold budget).iterate 1 =
    Weights.unit ((Ascent.pair 1 charge [-(Real.pi / 2)]).moved Weights.first 0) :=
  (pair_iterate [-(Real.pi / 2)] threshold budget 1).trans
    (Ascent.iterate_succ (Ascent.pair_advance charge))

theorem pair_advances : (pair 1 charge [-(Real.pi / 2)] threshold budget).Advances 0 := by
  rw [Advances, pair_iterate_zero, pair_iterate_one]
  exact Ascent.pair_advance charge

theorem pair_response_one : (pair 1 charge [-(Real.pi / 2)] threshold budget).response 1 =
    3 / √((2 - charge) ^ 2 + (1 + charge) ^ 2) := by
  have hsum : ![((2 - charge : ℝ) : ℂ), ((1 + charge : ℝ) : ℂ)] ⬝ᵥ ![1, 1] = 3 := by
    simp [dotProduct, Fin.sum_univ_two]
    ring
  rw [response, pair_iterate_one]
  change (Ascent.pair 1 charge [-(Real.pi / 2)]).targetResponse _ = _
  rw [Ascent.targetResponse_unit, Ascent.pair_power_moved, Ascent.pair_toComplex_moved,
    Ascent.pair_target, hsum, Complex.norm_ofNat]

theorem pair_objective_zero :
    (pair 1 charge [-(Real.pi / 2)] threshold budget).objective 0 = 1 - charge := by
  rw [objective, pair_iterate_zero]
  change (Ascent.pair 1 charge [-(Real.pi / 2)]).objective Weights.first = _
  rw [Ascent.objective_eq, Ascent.pair_form, Weights.toComplex_first, energy]
  simp [mulVec, dotProduct, Fin.sum_univ_two]

theorem pair_objective_one : (pair 1 charge [-(Real.pi / 2)] threshold budget).objective 1 =
    ((1 - charge) * ((2 - charge) ^ 2 + (1 + charge) ^ 2) +
      2 * (1 + charge) ^ 2 * (2 - charge)) / ((2 - charge) ^ 2 + (1 + charge) ^ 2) := by
  rw [objective, pair_iterate_one]
  change (Ascent.pair 1 charge [-(Real.pi / 2)]).objective _ = _
  rw [Ascent.objective_eq, Weights.energy_unit, Ascent.pair_power_moved,
    Ascent.pair_toComplex_moved, Ascent.pair_form, energy]
  congr 1
  simp [mulVec, dotProduct, Fin.sum_univ_two]
  ring

variable {charge}

/-- One iteration has a beam, whatever the charge. -/
theorem pair_exists_beam (hcharge : 0 ≤ charge) : ∃ beam,
    (Optimizer.ofRates 1 charge).optimize (.pair [-(Real.pi / 2)] threshold 1) = .ok beam := by
  have hadvance : ∀ i < 1, (pair 1 charge [-(Real.pi / 2)] threshold 1).Advances i := by
    intro i hi
    rw [Nat.lt_one_iff.mp hi]
    exact pair_advances charge threshold 1
  have hthreshold : (pair 1 charge [-(Real.pi / 2)] threshold 1).threshold.toNumber
      "snr_threshold" = .ok (.real threshold) := rfl
  obtain ⟨f, hf⟩ := exists_run hthreshold hadvance
  obtain ⟨pattern, hbeam⟩ := Optimizer.exists_optimize
    (pair_isMadeBy _ _ _ one_pos hcharge).read hf (Optimizer.ofRates_grid 1 charge)
  exact ⟨_, hbeam⟩

end Endfire

end Plan

end PhasedArray
