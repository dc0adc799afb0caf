import PhasedArray.Optimizer
import PhasedArray.Proofs.Exact.Reading
import PhasedArray.Proofs.Exact.Vector

set_option autoImplicit false

/-!
# Ascent of a quadratic objective (SPEC §4.8)

The objective is the energy of the weights under one Hermitian matrix: the target adds a
matrix of rank one, and the charge takes away one for each interferer.  The gradient is
the product with that matrix, by which the objective of a sum differs from the sum of the
objectives.  So a step applies the identity plus a multiple of the matrix and then scales: one
step of the power method.  Where the charge is small against the step, the matrix that is
applied is positive definite, and a step does not lower the objective.
-/

namespace PhasedArray

open Matrix

namespace Ascent

variable {m k : ℕ} (A : Ascent ℝ m k) (w : Vector (Cplx ℝ) m)

/-! ## The objective as an energy -/

/-- The sum of the matrices of rank one of all interferers. -/
noncomputable def interferenceForm : Matrix (Fin m) (Fin m) ℂ :=
  A.interferers.toMatrixᵀᴴ * A.interferers.toMatrixᵀ

/-- The matrix whose energy is the objective. -/
noncomputable def form : Matrix (Fin m) (Fin m) ℂ :=
  vecMulVec (star (Vec.toComplex A.target)) (Vec.toComplex A.target) -
    (A.penalty : ℂ) • A.interferenceForm

theorem form_isHermitian : A.form.IsHermitian := by
  rw [IsHermitian, form, interferenceForm, conjTranspose_sub, conjTranspose_vecMulVec, star_star,
    conjTranspose_smul, conjTranspose_mul, conjTranspose_conjTranspose, RCLike.star_def,
    Complex.conj_ofReal]

theorem targetResponse_eq :
    A.targetResponse w = ‖Vec.toComplex w ⬝ᵥ Vec.toComplex A.target‖ := by
  rw [targetResponse, Cplx.abs_eq_norm, Weights.toComplex_response]

/-- Scaling divides the response by the root of the power. -/
theorem targetResponse_unit : A.targetResponse (Weights.unit w) =
    ‖Vec.toComplex w ⬝ᵥ Vec.toComplex A.target‖ / √(power (Vec.toComplex w)) := by
  rw [targetResponse_eq, Weights.toComplex_unit, smul_dotProduct, norm_smul, Complex.norm_real,
    norm_inv, Vec.norm_eq_sqrt, Real.norm_of_nonneg (Real.sqrt_nonneg _), inv_mul_eq_div]

theorem toComplex_interference :
    Vec.toComplex (A.interference w) = A.interferers.toMatrixᵀ *ᵥ Vec.toComplex w := by
  rw [interference, Vec.toComplex_vecMul, mulVec_transpose]

/-- Interferers go uncharged if there are none or the charge is zero. -/
theorem isCharged_eq_false_iff : A.isCharged = false ↔ A.penalty = 0 ∨ k = 0 := by
  have hsame : Scalar.same A.penalty 0 = true ↔ A.penalty = 0 := by
    rw [Scalar.same, Bool.and_eq_true, decide_eq_true_iff, decide_eq_true_iff]
    exact le_antisymm_iff.symm
  rw [isCharged, Bool.and_eq_false_iff, Bool.not_eq_false', hsame, bne_eq_false_iff_eq, or_comm]

/-- What goes uncharged adds nothing to the form. -/
theorem charge_eq_zero (h : A.isCharged = false) :
    (A.penalty : ℂ) • A.interferenceForm = 0 := by
  rcases A.isCharged_eq_false_iff.mp h with hzero | hnone
  · rw [hzero, Complex.ofReal_zero, zero_smul]
  · subst hnone
    rw [interferenceForm, Subsingleton.elim A.interferers.toMatrixᵀ 0, Matrix.mul_zero, smul_zero]

theorem objective_eq : A.objective w = energy A.form (Vec.toComplex w) := by
  have htarget : Scalar.sq (A.targetResponse w) =
      energy (vecMulVec (star (Vec.toComplex A.target)) (Vec.toComplex A.target))
        (Vec.toComplex w) := by
    rw [Exact.scalar_sq, targetResponse_eq, energy_vecMulVec]
  have hform : energy A.form (Vec.toComplex w) = Scalar.sq (A.targetResponse w) -
      energy ((A.penalty : ℂ) • A.interferenceForm) (Vec.toComplex w) := by
    rw [form, energy_sub, htarget]
  rw [hform]
  unfold objective
  cases hcharged : A.isCharged with
  | true =>
    rw [energy_smul, interferenceForm, energy_gram, ← toComplex_interference]
    refine congrArg (fun x => Scalar.sq (A.targetResponse w) - A.penalty * x) ?_
    refine (map_total id Nat.cast_zero (fun _ _ => rfl) k _).trans ?_
    apply Finset.sum_congr rfl
    intro i _
    rw [id, Exact.scalar_sq, Cplx.abs_eq_norm]
    rfl
  | false =>
    rw [A.charge_eq_zero hcharged, energy, zero_mulVec, dotProduct_zero, Complex.zero_re,
      sub_zero]
    rfl

theorem toComplex_gradient :
    Vec.toComplex (A.gradient w) = A.form *ᵥ Vec.toComplex w := by
  have htoward : Vec.toComplex (A.target.map fun a => a.conj * Weights.response w A.target) =
      vecMulVec (star (Vec.toComplex A.target)) (Vec.toComplex A.target) *ᵥ Vec.toComplex w := by
    rw [Vec.toComplex_map, vecMulVec_mulVec]
    funext i
    simp only [Cplx.toComplex_mul, Cplx.toComplex_conj, Weights.toComplex_response,
      dotProduct_comm (Vec.toComplex w)]
    rfl
  have haway : Vec.toComplex (A.interferers.conj.mulVec (A.interference w)) =
      A.interferenceForm *ᵥ Vec.toComplex w := by
    rw [Vec.toComplex_mulVec, Mat.toMatrix_conj, toComplex_interference, mulVec_mulVec]
    rfl
  rw [form, sub_mulVec, ← htoward]
  unfold gradient
  cases hcharged : A.isCharged with
  | true =>
    rw [smul_mulVec, ← haway]
    simp only [if_true, Vec.toComplex_ofFn]
    funext i
    rw [Pi.sub_apply, Pi.smul_apply, smul_eq_mul, Vec.toComplex_apply _ i,
      Vec.toComplex_apply _ i, ← Weights.toComplex_scale]
    rfl
  | false =>
    rw [A.charge_eq_zero hcharged, zero_mulVec, sub_zero]
    rfl

/-- The gradient is that of the objective: moving the weights by `h` adds the objective of `h` and
twice the real part of the product of `h` with the gradient, whatever the directions, the number
of interferers and the charge. -/
theorem objective_add (h : Vector (Cplx ℝ) m) :
    A.objective (w + h) =
      A.objective w + A.objective h + 2 * (Vec.inner h (A.gradient w)).re := by
  have hproduct : (Vec.inner h (A.gradient w)).re =
      (star (Vec.toComplex h) ⬝ᵥ A.form *ᵥ Vec.toComplex w).re := by
    rw [← Cplx.toComplex_re, Vec.toComplex_inner, toComplex_gradient]
  rw [objective_eq, objective_eq, objective_eq, Vec.toComplex_add,
    energy_add_vec A.form_isHermitian, hproduct]

/-! ## One step -/

/-- The step of iteration `i`, counted from zero. -/
noncomputable def rate (i : ℕ) : ℝ := A.stepSize.value / (i + 1 : ℕ)

/-- The matrix that iteration `i` applies before it scales. -/
noncomputable def operator (i : ℕ) : Matrix (Fin m) (Fin m) ℂ := 1 + (A.rate i : ℂ) • A.form

/-- The weights of iteration `i` before they are scaled. -/
noncomputable def moved (i : ℕ) : Vector (Cplx ℝ) m :=
  Vector.ofFn fun j => w.get j + ((A.gradient w).get j).scale (A.rate i)

theorem advance_eq (i : ℕ) : A.advance i w = Weights.normalize (A.moved w i) := by
  unfold advance
  rw [A.stepSize.toQuotient_eq_ok]
  rfl

theorem toComplex_moved (i : ℕ) :
    Vec.toComplex (A.moved w i) = A.operator i *ᵥ Vec.toComplex w := by
  rw [moved, operator, Vec.toComplex_ofFn, add_mulVec, one_mulVec, smul_mulVec,
    ← toComplex_gradient]
  funext j
  rw [Pi.add_apply, Pi.smul_apply, smul_eq_mul, Cplx.toComplex_add, Weights.toComplex_scale]
  rfl

/-- A step leads to weights of unit power. -/
theorem power_of_advance {i : ℕ} {w v : Vector (Cplx ℝ) m} (h : A.advance i w = .ok v) :
    power (Vec.toComplex v) = 1 := by
  rw [advance_eq, Weights.normalize_eq_ok_iff] at h
  obtain ⟨hpos, rfl⟩ := h
  exact Weights.power_unit hpos

theorem operator_isHermitian (i : ℕ) : (A.operator i).IsHermitian := by
  rw [IsHermitian, operator, conjTranspose_add, conjTranspose_one, conjTranspose_smul,
    A.form_isHermitian.eq, RCLike.star_def, Complex.conj_ofReal]

theorem energy_operator (i : ℕ) (x : Fin m → ℂ) :
    energy (A.operator i) x = power x + A.rate i * energy A.form x := by
  rw [operator, energy_add, energy_one, energy_smul]

/-! ## Steps that climb -/

/-- The steering vectors are those of plane waves, steps go forward, and interference earns
nothing. -/
structure IsSound (A : Ascent ℝ m k) : Prop where
  target_unit : ∀ i, ‖Vec.toComplex A.target i‖ = 1
  interferers_unit : ∀ i j, ‖A.interferers.toMatrix i j‖ = 1
  step_pos : 0 < A.stepSize.value
  penalty_nonneg : 0 ≤ A.penalty

/-- The charge is small against the first step. -/
def IsGentle : Prop := A.stepSize.value * A.penalty * m * k < 1

namespace IsSound

variable {A} {w} (hA : A.IsSound)
include hA

theorem power_target : power (Vec.toComplex A.target) = m := power_of_norm_eq_one hA.target_unit

theorem rate_pos (i : ℕ) : 0 < A.rate i := div_pos hA.step_pos (by positivity)

theorem rate_le (i : ℕ) : A.rate i ≤ A.stepSize.value :=
  div_le_self hA.step_pos.le (by exact_mod_cast Nat.succ_pos i)

/-- No response exceeds that of the matched filter. -/
theorem targetResponse_le (hw : power (Vec.toComplex w) = 1) : A.targetResponse w ≤ √m := by
  apply Real.le_sqrt_of_sq_le
  have hbound := norm_dotProduct_sq_le (Vec.toComplex w) (Vec.toComplex A.target)
  rwa [hw, one_mul, hA.power_target, ← targetResponse_eq] at hbound

/-- The energy of the interference is bounded for each interferer. -/
theorem energy_interference_le (x : Fin m → ℂ) :
    energy A.interferenceForm x ≤ k * m * power x := by
  rw [interferenceForm, energy_gram, power]
  calc ∑ j, ‖(A.interferers.toMatrixᵀ *ᵥ x) j‖ ^ 2 ≤ ∑ _j : Fin k, m * power x := by
        apply Finset.sum_le_sum
        intro j _
        have hcolumn := power_of_norm_eq_one fun i => hA.interferers_unit i j
        rw [← hcolumn]
        exact norm_dotProduct_sq_le _ _
    _ = k * m * power x := by
        rw [Finset.sum_const, Finset.card_univ, Fintype.card_fin, nsmul_eq_mul, mul_assoc]

/-- What the charge takes away is bounded by the power. -/
theorem energy_form_ge (x : Fin m → ℂ) :
    -(A.penalty * (k * m * power x)) ≤ energy A.form x := by
  have htarget : 0 ≤
      energy (vecMulVec (star (Vec.toComplex A.target)) (Vec.toComplex A.target)) x := by
    rw [energy_vecMulVec]
    exact sq_nonneg _
  have hcharge := mul_le_mul_of_nonneg_left (hA.energy_interference_le x) hA.penalty_nonneg
  rw [form, energy_sub, energy_smul]
  linarith

/-- The matrix of a step keeps a positive part of the power. -/
theorem energy_operator_ge (i : ℕ) (x : Fin m → ℂ) :
    (1 - A.stepSize.value * A.penalty * m * k) * power x ≤ energy (A.operator i) x := by
  have hloss : 0 ≤ A.penalty * (k * m * power x) :=
    mul_nonneg hA.penalty_nonneg (mul_nonneg (by positivity) (power_nonneg x))
  have hform := mul_le_mul_of_nonneg_left (hA.energy_form_ge x) (hA.rate_pos i).le
  have hrate := mul_le_mul_of_nonneg_right (hA.rate_le i) hloss
  rw [energy_operator]
  linarith

section Gentle

variable (hgentle : A.IsGentle)
include hgentle

theorem energy_operator_nonneg (i : ℕ) (x : Fin m → ℂ) : 0 ≤ energy (A.operator i) x :=
  (mul_nonneg (sub_nonneg.mpr hgentle.le) (power_nonneg x)).trans
    (hA.energy_operator_ge i x)

/-- A gentle step leads to weights of some power. -/
theorem power_moved_pos (hw : power (Vec.toComplex w) = 1) (i : ℕ) :
    0 < power (Vec.toComplex (A.moved w i)) := by
  have hkept := hA.energy_operator_ge i (Vec.toComplex w)
  rw [hw, mul_one] at hkept
  have hpos : 0 < energy (A.operator i) (Vec.toComplex w) := (sub_pos.mpr hgentle).trans_le hkept
  rw [toComplex_moved]
  exact (pow_pos hpos 2).trans_le (energy_sq_le (A.operator_isHermitian i) hw)

/-- A gentle step does not fail and does not lower the objective. -/
theorem exists_advance (hw : power (Vec.toComplex w) = 1) (i : ℕ) :
    ∃ v, A.advance i w = .ok v ∧ A.objective w ≤ A.objective v := by
  have hpos := hA.power_moved_pos hgentle hw i
  refine ⟨Weights.unit (A.moved w i), ?_, ?_⟩
  · rw [advance_eq, Weights.normalize_of_pos hpos]
  · have hgrowth := energy_mul_power_le (A.operator_isHermitian i)
      (hA.energy_operator_nonneg hgentle i) hw
    rw [objective_eq, objective_eq, Weights.energy_unit, le_div_iff₀ hpos]
    rw [toComplex_moved] at hpos ⊢
    rw [energy_operator, energy_operator, hw] at hgrowth
    -- the identity in the operator adds the same on both sides, the step is a common factor
    apply le_of_mul_le_mul_left _ (hA.rate_pos i)
    linarith

end Gentle

end IsSound

end Ascent

end PhasedArray
