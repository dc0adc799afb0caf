import Mathlib.Analysis.SpecialFunctions.Complex.Circle
import PhasedArray.Proofs.NoiselessScene

set_option autoImplicit false

/-!
# Directions that an array tells apart (SPEC §4.1)

Up to half a wavelength between elements, the phase between neighbours stays in one turn, of which
it reaches one end only: directions of the half turn have different phasors.  With a wider spacing
another wave looks like the one from the end of the array, so half a wavelength is the limit.
Within it the steering vectors of distinct directions are independent as long as there are at most
as many as elements.  The two sub-arrays of an array with an element to spare tell the directions
apart as well: they see the same columns but for a turn of each by its phasor.
-/

namespace PhasedArray

open Matrix

namespace Geometry

/-! ## Phases -/

section Phases

variable {g : Geometry ℝ}

/-- The phases of the half turn lie in one turn, which lacks its end. -/
theorem phaseStep_mem (hspacing : g.spacing ≤ 1 / 2) {θ : ℝ}
    (hθ : θ ∈ Set.Ico (-(Real.pi / 2)) (Real.pi / 2)) :
    g.phaseStep θ ∈ Set.Ico (-Real.pi) Real.pi := by
  have hsine : Real.sin θ < 1 := by
    rw [← Real.sin_pi_div_two]
    exact Real.sin_lt_sin_of_lt_of_le_pi_div_two hθ.1 le_rfl hθ.2
  have hscale : 0 < 2 * Real.pi * g.spacing := mul_pos Real.two_pi_pos g.spacing_pos
  have hturn := mul_le_mul_of_nonneg_left hspacing Real.two_pi_pos.le
  rw [phaseStep_eq]
  constructor
  · have hlow := mul_le_mul_of_nonneg_left (Real.neg_one_le_sin θ) hscale.le
    linarith
  · have hhigh := mul_lt_mul_of_pos_left hsine hscale
    linarith

/-- Beyond half a wavelength another direction has the phasor of the end of the array: the phase
between neighbours goes round once from one to the other. -/
theorem exists_phasor_eq_end (hspacing : 1 / 2 < g.spacing) :
    ∃ θ ∈ Set.Ioo (-(Real.pi / 2)) (Real.pi / 2), g.phasor θ = g.phasor (-(Real.pi / 2)) := by
  have hinv : g.spacing⁻¹ < 2 := by
    rw [inv_lt_comm₀ g.spacing_pos two_pos, ← one_div]
    exact hspacing
  have hinv_pos : 0 < g.spacing⁻¹ := inv_pos.mpr g.spacing_pos
  have hlow : -1 < g.spacing⁻¹ - 1 := by linarith
  have hhigh : g.spacing⁻¹ - 1 < 1 := by linarith
  refine ⟨Real.arcsin (g.spacing⁻¹ - 1),
    ⟨Real.neg_pi_div_two_lt_arcsin.mpr hlow, Real.arcsin_lt_pi_div_two.mpr hhigh⟩, ?_⟩
  have hphase : g.phaseStep (Real.arcsin (g.spacing⁻¹ - 1)) =
      g.phaseStep (-(Real.pi / 2)) + 2 * Real.pi := by
    rw [phaseStep_eq, phaseStep_eq, Real.sin_arcsin hlow.le hhigh.le, Real.sin_neg,
      Real.sin_pi_div_two, mul_sub, mul_assoc (2 * Real.pi), mul_inv_cancel₀ g.spacing_pos.ne']
    ring
  rw [phasor, phasor, hphase, Complex.ofReal_add, add_mul, Complex.exp_add]
  push_cast
  rw [Complex.exp_two_pi_mul_I, mul_one]

/-- The directions of the half turn have different phasors exactly up to half a wavelength. -/
theorem injOn_phasor_iff :
    Set.InjOn g.phasor (Set.Ico (-(Real.pi / 2)) (Real.pi / 2)) ↔ g.spacing ≤ 1 / 2 := by
  constructor
  · intro hinjective
    by_contra hspacing
    obtain ⟨θ, hθ, hsame⟩ := exists_phasor_eq_end (not_le.mp hspacing)
    have hend : -(Real.pi / 2) ∈ Set.Ico (-(Real.pi / 2)) (Real.pi / 2) :=
      Set.left_mem_Ico.mpr (by linarith [Real.pi_pos])
    exact hθ.1.ne' (hinjective (Set.Ioo_subset_Ico_self hθ) hend hsame)
  · intro hspacing θ hθ φ hφ h
    have hphase : g.phaseStep θ = g.phaseStep φ := by
      have hturn : Real.pi - -Real.pi ≤ 2 * Real.pi := by linarith
      apply Circle.exp_injOn_Ico hturn (phaseStep_mem hspacing hθ) (phaseStep_mem hspacing hφ)
      exact Circle.ext h
    have hscale : 2 * Real.pi * g.spacing ≠ 0 := (mul_pos Real.two_pi_pos g.spacing_pos).ne'
    rw [phaseStep_eq, phaseStep_eq] at hphase
    exact Real.injOn_sin (Set.Ico_subset_Icc_self hθ) (Set.Ico_subset_Icc_self hφ)
      (mul_left_cancel₀ hscale hphase)

end Phases

/-! ## Sub-arrays -/

variable (g : Geometry ℝ) {k : ℕ} (θ : Vector ℝ k)

theorem toMatrix_dropLastRow_steeringMatrix :
    (g.steeringMatrix θ).dropLastRow.toMatrix =
      nodes (g.size - 1) fun j => g.phasor (θ.get j) := by
  rw [Mat.toMatrix_dropLastRow, toMatrix_steeringMatrix, nodes_dropLast]

theorem toMatrix_dropFirstRow_steeringMatrix :
    (g.steeringMatrix θ).dropFirstRow.toMatrix =
      (g.steeringMatrix θ).dropLastRow.toMatrix * diagonal fun j => g.phasor (θ.get j) := by
  rw [toMatrix_dropLastRow_steeringMatrix, Mat.toMatrix_dropFirstRow, toMatrix_steeringMatrix,
    nodes_dropFirst]

/-- Turning the columns does not change the rank. -/
theorem rank_mul_diagonal_phasors {m : ℕ} (A : Matrix (Fin m) (Fin k) ℂ) :
    (A * diagonal fun j => g.phasor (θ.get j)).rank = A.rank := by
  apply rank_mul_eq_left_of_isUnit_det
  rw [det_diagonal, isUnit_iff_ne_zero]
  apply Finset.prod_ne_zero_iff.mpr
  intro j _
  rw [← norm_ne_zero_iff, norm_phasor]
  exact one_ne_zero

/-! ## Independence -/

variable {g θ}

/-- Up to half a wavelength between elements, the steering vectors of distinct directions are
independent if there are at most as many as elements.  If there are fewer, what the first `m - 1`
and the last `m - 1` elements see of them is independent as well, and the phasors lead from the
one to the other. -/
theorem steeringMatrix_independent (hspacing : g.spacing ≤ 1 / 2) (hk : k ≤ g.size)
    (hθ : ∀ j, θ.get j ∈ Set.Ico (-(Real.pi / 2)) (Real.pi / 2))
    (hdistinct : Function.Injective θ.get) :
    let A := g.steeringMatrix θ
    A.toMatrix.rank = k ∧
      (k < g.size → A.dropLastRow.toMatrix.rank = k ∧ A.dropFirstRow.toMatrix.rank = k) ∧
      A.dropFirstRow.toMatrix = A.dropLastRow.toMatrix * diagonal fun j =>
        Complex.exp ((2 * Real.pi * g.spacing * Real.sin (θ.get j) : ℝ) * Complex.I) := by
  have hphasors : Function.Injective fun j => g.phasor (θ.get j) := by
    intro i j hij
    exact hdistinct (injOn_phasor_iff.mpr hspacing (hθ i) (hθ j) hij)
  refine ⟨?_, ?_, toMatrix_dropFirstRow_steeringMatrix g θ⟩
  · rw [toMatrix_steeringMatrix, rank_nodes hphasors hk]
  · intro hspare
    have hfirst : (g.steeringMatrix θ).dropLastRow.toMatrix.rank = k := by
      rw [toMatrix_dropLastRow_steeringMatrix, rank_nodes hphasors (Nat.le_sub_one_of_lt hspare)]
    refine ⟨hfirst, ?_⟩
    rw [toMatrix_dropFirstRow_steeringMatrix, rank_mul_diagonal_phasors, hfirst]

/-- Eight elements half a wavelength apart, which is the limit, tell three directions apart, the
first of which is the end of the array. -/
theorem steeringMatrix_independent_three :
    let A := standard.steeringMatrix (Vector.ofFn ![-(Real.pi / 2), 0, Real.pi / 6])
    A.toMatrix.rank = 3 ∧ A.dropLastRow.toMatrix.rank = 3 ∧ A.dropFirstRow.toMatrix.rank = 3 ∧
      A.dropFirstRow.toMatrix = A.dropLastRow.toMatrix * diagonal ![-1, 1, Complex.I] := by
  have hpi := Real.pi_pos
  have hspacing : standard.spacing ≤ 1 / 2 := by norm_num [standard]
  have hspare : 3 < standard.size := by decide
  have hangles : (Vector.ofFn ![-(Real.pi / 2), 0, Real.pi / 6]).get =
      ![-(Real.pi / 2), 0, Real.pi / 6] := funext fun j => Vec.get_ofFn _ j
  have hlow : -(Real.pi / 2) < 0 := by linarith
  have hhigh : 0 < Real.pi / 6 := by linarith
  have hdistinct : Function.Injective ![-(Real.pi / 2), 0, Real.pi / 6] :=
    ((strictMono_vecEmpty.vecCons hhigh).vecCons hlow).injective
  have hmem : ∀ j, ![-(Real.pi / 2), 0, Real.pi / 6] j ∈
      Set.Ico (-(Real.pi / 2)) (Real.pi / 2) := by
    intro j
    fin_cases j
    · exact Set.left_mem_Ico.mpr (by linarith)
    · exact ⟨hlow.le, half_pos hpi⟩
    · exact ⟨(hlow.trans hhigh).le, div_lt_div_of_pos_left hpi two_pos (by norm_num)⟩
  have hphasors : (fun j => standard.phasor (![-(Real.pi / 2), 0, Real.pi / 6] j)) =
      ![-1, 1, Complex.I] := by
    funext j
    fin_cases j
    · exact phasor_pair_end
    · exact phasor_pair_zero
    · exact phasor_pair_mirrored
  obtain ⟨hrank, hparts, hshift⟩ := steeringMatrix_independent hspacing hspare.le
    (hangles ▸ hmem) (hangles ▸ hdistinct)
  obtain ⟨hfirst, hlast⟩ := hparts hspare
  refine ⟨hrank, hfirst, hlast, hshift.trans ?_⟩
  rw [hangles, ← hphasors]
  rfl

end Geometry

end PhasedArray
