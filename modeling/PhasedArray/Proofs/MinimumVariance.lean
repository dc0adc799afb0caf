import Mathlib.Analysis.Matrix.PosDef
import PhasedArray.Proofs.Exact.Ideal
import PhasedArray.Proofs.MatchedFilter

set_option autoImplicit false

/-!
# Minimum-variance weights (SPEC §4.7)

Under a positive definite covariance `C` the weights toward `a` are a multiple of the conjugate
of `C⁻¹ a`.  Nothing can go wrong on the way to them once the singular values have been found to
lie close enough together: the system has a solution, the power `aᴴ C⁻¹ a` is positive, and
before they are scaled the weights answer `a` by one.
-/

namespace PhasedArray

open Matrix
open scoped ComplexOrder

variable {n : ℕ}

namespace Weights

/-! ## The test of singularity -/

/-- Singular values between two positive bounds pass the test if the ratio of these does. -/
theorem singularCondition?_eq_none {ratio low high : ℝ} {σs : List ℝ} (hlow : 0 < low)
    (hratio : high * ratio < low) (hσ : ∀ σ ∈ σs, σ ∈ Set.Icc low high) :
    singularCondition? (.ok ratio) σs = .ok none := by
  unfold singularCondition?
  split
  · next first last hfirst hlast =>
    obtain ⟨hfirstlow, hfirsthigh⟩ := hσ first (List.mem_of_mem_head? hfirst)
    obtain ⟨hlastlow, -⟩ := hσ last (List.mem_of_mem_getLast? hlast)
    have hnonzero : ¬Scalar.same first 0 = true := by
      simp [Scalar.same, hlow.trans_le hfirstlow]
    have hapart : ¬last ≤ first * ratio := by
      rw [not_le]
      rcases le_total 0 ratio with h | h
      · exact ((mul_le_mul_of_nonneg_right hfirsthigh h).trans_lt hratio).trans_le hlastlow
      · have hneg := mul_nonpos_of_nonneg_of_nonpos (hlow.le.trans hfirstlow) h
        exact (hneg.trans_lt hlow).trans_le hlastlow
    rw [if_neg hnonzero]
    change Except.ok (if last ≤ first * ratio then _ else _) = _
    rw [if_neg hapart]
  · rfl

/-- A covariance with such singular values is accepted. -/
theorem checkInterference_eq_ok {S : Solvers ℝ} {C : Mat (Cplx ℝ) n n} {ratio low high : ℝ}
    (hlow : 0 < low) (hratio : high * ratio < low)
    (hσ : ∀ i, (S.singularValues C).get i ∈ Set.Icc low high) :
    checkInterference S (.ok ratio) C = .ok () := by
  have hvalues : ∀ σ ∈ (S.singularValues C).toList, σ ∈ Set.Icc low high := by
    rw [Vec.toList_eq_ofFn]
    intro σ hmem
    obtain ⟨i, rfl⟩ := List.mem_ofFn.mp hmem
    exact hσ i
  rw [checkInterference, if_pos C.isFinite_eq_true,
    singularCondition?_eq_none hlow hratio hvalues]
  rfl

/-! ## The weights -/

/-- The power `aᴴ C⁻¹ a` of a steering vector under the inverse of a covariance. -/
noncomputable def inversePower (C : Mat (Cplx ℝ) n n) (a : Vector (Cplx ℝ) n) : ℝ :=
  energy C.toMatrix⁻¹ (Vec.toComplex a)

/-- The solution of the system of a regular covariance with the right side `a`. -/
noncomputable def solution (C : Mat (Cplx ℝ) n n) (a : Vector (Cplx ℝ) n) : Vector (Cplx ℝ) n :=
  (Mat.ofMatrix (C.toMatrix⁻¹ * (Mat.ofColumns (Vector.singleton a)).toMatrix)).column
    ⟨0, Nat.one_pos⟩

theorem toComplex_solution (C : Mat (Cplx ℝ) n n) (a : Vector (Cplx ℝ) n) :
    Vec.toComplex (solution C a) = C.toMatrix⁻¹ *ᵥ Vec.toComplex a := by
  rw [solution, Vec.toComplex_column, Mat.toMatrix_ofMatrix, Mat.ofColumns, Mat.toMatrix_of]
  rfl

/-- The power that the program works out is that under the inverse. -/
theorem re_inner_solution (C : Mat (Cplx ℝ) n n) (a : Vector (Cplx ℝ) n) :
    (Vec.inner a (solution C a)).re = inversePower C a := by
  rw [← Cplx.toComplex_re, Vec.toComplex_inner, toComplex_solution]
  rfl

/-- The weights before they are scaled: the conjugate of `C⁻¹ a / (aᴴ C⁻¹ a)`. -/
noncomputable def direction (C : Mat (Cplx ℝ) n n) (a : Vector (Cplx ℝ) n) : Vector (Cplx ℝ) n :=
  (solution C a).map fun z => (z.divReal (inversePower C a)).conj

theorem toComplex_direction (C : Mat (Cplx ℝ) n n) (a : Vector (Cplx ℝ) n) :
    Vec.toComplex (direction C a) =
      (inversePower C a : ℂ)⁻¹ • star (C.toMatrix⁻¹ *ᵥ Vec.toComplex a) := by
  rw [← toComplex_solution, direction, Vec.toComplex_map]
  funext i
  simp [Vec.toComplex_apply, div_eq_inv_mul]

section Regular

variable {S : Solvers ℝ} (hS : S.IsExact) {C : Mat (Cplx ℝ) n n} (hC : C.toMatrix.PosDef)
  {a : Vector (Cplx ℝ) n} (ha : Vec.toComplex a ≠ 0)

include hC ha in
theorem inversePower_pos : 0 < inversePower C a :=
  (Complex.pos_iff.mp (hC.inv.dotProduct_mulVec_pos ha)).1

include hS hC ha in
/-- Under a positive definite covariance there are weights before scaling. -/
theorem minimumVarianceDirection_eq : minimumVarianceDirection S C a = .ok (direction C a) := by
  have hsolve := hS.solve_regular (Mat.ofColumns (Vector.singleton a)) hC.det_pos.ne'
  rw [minimumVarianceDirection, Mat.ofUpper_eq_self hC.isHermitian, hsolve]
  change (if (Vec.inner a (solution C a)).re ≤ 0 then _ else _) = _
  have hpos : ¬(Vec.inner a (solution C a)).re ≤ 0 := by
    rw [re_inner_solution]
    exact not_le.mpr (inversePower_pos hC ha)
  rw [if_neg hpos, direction, ← re_inner_solution]
  rfl

include hC in
/-- The form of the inverse is real, as the inverse is Hermitian. -/
theorem star_dotProduct_inverse :
    star (Vec.toComplex a) ⬝ᵥ C.toMatrix⁻¹ *ᵥ Vec.toComplex a = (inversePower C a : ℂ) := by
  apply Complex.ext
  · rfl
  · exact hC.inv.isHermitian.im_star_dotProduct_mulVec_self (Vec.toComplex a)

include hC ha in
/-- The weights before scaling answer the steering vector by one. -/
theorem response_direction : (response (direction C a) a).toComplex = 1 := by
  have hresponse : star (C.toMatrix⁻¹ *ᵥ Vec.toComplex a) ⬝ᵥ Vec.toComplex a =
      (inversePower C a : ℂ) := by
    rw [star_mulVec, hC.inv.isHermitian.eq, ← dotProduct_mulVec, star_dotProduct_inverse hC]
  have hne : (inversePower C a : ℂ) ≠ 0 := by exact_mod_cast (inversePower_pos hC ha).ne'
  rw [toComplex_response, toComplex_direction, smul_dotProduct, hresponse,
    smul_eq_mul, inv_mul_cancel₀ hne]

include hC ha in
theorem power_direction_pos : 0 < power (Vec.toComplex (direction C a)) := by
  apply power_pos
  intro h
  have hone := response_direction hC ha
  rw [toComplex_response, h, zero_dotProduct] at hone
  exact zero_ne_one hone

include hS hC ha in
/-- Under a positive definite covariance there are weights. -/
theorem minimumVarianceToward_eq :
    minimumVarianceToward S C a = .ok (unit (direction C a)) := by
  have hfinite : a.all Cplx.isFinite = true := by simp
  rw [minimumVarianceToward, if_pos hfinite, minimumVarianceDirection_eq hS hC ha]
  exact normalize_of_pos (power_direction_pos hC ha)

include hC ha in
theorem norm_unit_direction : Vec.norm (unit (direction C a)) = 1 :=
  Vec.norm_eq_one_iff.mpr (power_unit (power_direction_pos hC ha))

include hC ha in
/-- The weights answer the steering vector by a positive number. -/
theorem response_unit_direction :
    0 < (response (unit (direction C a)) a).re ∧ (response (unit (direction C a)) a).im = 0 := by
  have hscaled : (response (unit (direction C a)) a).toComplex =
      (((Vec.norm (direction C a))⁻¹ : ℝ) : ℂ) := by
    rw [toComplex_response, toComplex_unit, smul_dotProduct, ← toComplex_response,
      response_direction hC ha]
    exact mul_one _
  have hlength : 0 < Vec.norm (direction C a) :=
    Vec.norm_pos_iff.mpr (power_direction_pos hC ha)
  constructor
  · rw [← Cplx.toComplex_re, hscaled, Complex.ofReal_re]
    exact inv_pos.mpr hlength
  · rw [← Cplx.toComplex_im, hscaled, Complex.ofReal_im]

end Regular

/-! ## Toward a direction -/

/-- A covariance that passes the test and is positive definite has minimum-variance weights
toward every direction. -/
theorem minimumVariance_eq {S : Solvers ℝ} (hS : S.IsExact) {ratio : ℝ} {g : Geometry ℝ}
    {C : Mat (Cplx ℝ) g.size g.size} (hcheck : checkInterference S (.ok ratio) C = .ok ())
    (hC : C.toMatrix.PosDef) (θ : ℝ) :
    minimumVariance S ratio g C θ = .ok (unit (direction C (g.steering θ))) := by
  rw [minimumVariance, hcheck]
  exact minimumVarianceToward_eq hS hC (steering_ne_zero g θ)

/-- They have unit power, and their response to the direction is real and positive. -/
theorem exists_minimumVariance {S : Solvers ℝ} (hS : S.IsExact) {ratio : ℝ} {g : Geometry ℝ}
    {C : Mat (Cplx ℝ) g.size g.size} (hcheck : checkInterference S (.ok ratio) C = .ok ())
    (hC : C.toMatrix.PosDef) (θ : ℝ) :
    ∃ w, minimumVariance S ratio g C θ = .ok w ∧ Vec.norm w = 1 ∧
      0 < (response w (g.steering θ)).re ∧ (response w (g.steering θ)).im = 0 :=
  have ha := steering_ne_zero g θ
  ⟨_, minimumVariance_eq hS hcheck hC θ, norm_unit_direction hC ha, response_unit_direction hC ha⟩

/-- A covariance that is given as a tensor is read as it is, and the weights come with their
response. -/
theorem minimumVarianceOfTensor_ofMat (S : Solvers ℝ) (ratio : ℝ) {g : Geometry ℝ}
    (hsize : g.size < Extent.greatestKept) (C : Mat (Cplx ℝ) g.size g.size) (θ : ℝ) :
    minimumVarianceOfTensor S (.real ratio) g (.ofMat C) (.real θ) =
      (minimumVariance S ratio g C θ).map fun w => (.ofVector w, response w (g.steering θ)) := by
  have hcomplex : (Tensor.ofMat C).toComplex = .ok (.ofMat C) := rfl
  have hratio : (Setting.real ratio).toScalar "singular_rtol" = .ok ratio := rfl
  rw [minimumVarianceOfTensor, hcomplex]
  dsimp only [bind, Except.bind]
  rw [Tensor.asMat?_ofMat]
  dsimp only
  rw [hratio, minimumVariance]
  cases hcheck : checkInterference S (.ok ratio) C with
  | error e => rfl
  | ok u =>
    dsimp only [bind, Except.bind]
    rw [g.steeringToward_real hsize]
    dsimp only
    rw [Tensor.asVectorOf?_ofVector]
    dsimp only
    cases minimumVarianceToward S C (g.steering θ) <;> rfl

end Weights

end PhasedArray
