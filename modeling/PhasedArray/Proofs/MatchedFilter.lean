import PhasedArray.Proofs.Exact.Vector
import PhasedArray.Proofs.Manifold

set_option autoImplicit false

/-!
# Matched filters (SPEC §4.7)

The matched filter of a vector is its conjugate, scaled to unit power.  It answers the vector by the
length of that, and by the inequality of Cauchy and Schwarz no weights of unit power answer louder.
Weights that answer as loud are the matched filter itself, up to a common phase.
-/

namespace PhasedArray

open Matrix

namespace Weights

variable {n : ℕ}

/-! ## The matched filter of a vector -/

/-- The matched filter of a vector. -/
noncomputable def filterOf (a : Vector (Cplx ℝ) n) : Vector (Cplx ℝ) n := unit (a.map Cplx.conj)

theorem norm_map_conj (a : Vector (Cplx ℝ) n) : Vec.norm (a.map Cplx.conj) = Vec.norm a := by
  rw [Vec.norm_eq_sqrt, Vec.toComplex_map_conj, power_star, ← Vec.norm_eq_sqrt]

theorem toComplex_filterOf (a : Vector (Cplx ℝ) n) :
    Vec.toComplex (filterOf a) = (((Vec.norm a)⁻¹ : ℝ) : ℂ) • star (Vec.toComplex a) := by
  rw [filterOf, toComplex_unit, norm_map_conj, Vec.toComplex_map_conj]

/-- It answers the vector by the length of that. -/
theorem response_filterOf (a : Vector (Cplx ℝ) n) :
    (response (filterOf a) a).toComplex = ((Vec.norm a : ℝ) : ℂ) := by
  have hlength : (Vec.norm a)⁻¹ * Vec.norm a ^ 2 = Vec.norm a := by
    rw [pow_two, ← mul_assoc, inv_mul_mul_self]
  rw [toComplex_response, toComplex_filterOf, smul_dotProduct, star_dotProduct_self,
    ← Vec.sq_norm, smul_eq_mul, ← Complex.ofReal_mul, hlength]

section Nonzero

variable {a : Vector (Cplx ℝ) n} (ha : Vec.toComplex a ≠ 0)
include ha

theorem norm_pos : 0 < Vec.norm a := Vec.norm_pos_iff.mpr (power_pos ha)

theorem power_map_conj_pos : 0 < power (Vec.toComplex (a.map Cplx.conj)) := by
  rw [Vec.toComplex_map_conj, power_star]
  exact power_pos ha

theorem matchedTo_eq : matchedTo a = .ok (filterOf a) := normalize_of_pos (power_map_conj_pos ha)

theorem norm_filterOf : Vec.norm (filterOf a) = 1 :=
  Vec.norm_eq_one_iff.mpr (power_unit (power_map_conj_pos ha))

end Nonzero

section Bound

variable {v : Vector (Cplx ℝ) n} (hv : Vec.norm v = 1)
include hv

/-- No weights of unit power answer a vector louder. -/
theorem norm_response_le (a : Vector (Cplx ℝ) n) : ‖(response v a).toComplex‖ ≤ Vec.norm a := by
  have hbound := norm_dotProduct_sq_le (Vec.toComplex v) (Vec.toComplex a)
  rw [Vec.norm_eq_one_iff.mp hv, one_mul] at hbound
  rw [toComplex_response, Vec.norm_eq_sqrt]
  exact Real.le_sqrt_of_sq_le hbound

/-- Weights of unit power that answer as loud are the matched filter up to a phase. -/
theorem exists_phase {a : Vector (Cplx ℝ) n} (ha : Vec.toComplex a ≠ 0)
    (h : Vec.norm a ≤ ‖(response v a).toComplex‖) :
    ∃ z : ℂ, ‖z‖ = 1 ∧ Vec.toComplex v = z • Vec.toComplex (filterOf a) := by
  have hloud : ‖(response v a).toComplex‖ = Vec.norm a := le_antisymm (norm_response_le hv a) h
  have hlength := norm_pos ha
  have hfilter : star (Vec.toComplex (filterOf a)) =
      (((Vec.norm a)⁻¹ : ℝ) : ℂ) • Vec.toComplex a := by
    rw [toComplex_filterOf, star_smul, star_star, RCLike.star_def, Complex.conj_ofReal]
  -- the phase is the part of the weights along the matched filter
  let z : ℂ := star (Vec.toComplex (filterOf a)) ⬝ᵥ Vec.toComplex v
  have hz : ‖z‖ = 1 := by
    simp only [z]
    rw [hfilter, smul_dotProduct, dotProduct_comm, ← toComplex_response, norm_smul, hloud,
      Complex.norm_real, Real.norm_of_nonneg (inv_nonneg.mpr hlength.le),
      inv_mul_cancel₀ hlength.ne']
  have hmixed : star (Vec.toComplex v) ⬝ᵥ z • Vec.toComplex (filterOf a) = 1 := by
    rw [dotProduct_smul, star_dotProduct, smul_eq_mul, RCLike.star_def, Complex.mul_conj', hz,
      Complex.ofReal_one, one_pow]
  refine ⟨z, hz, sub_eq_zero.mp ?_⟩
  by_contra hne
  have hpos := power_pos hne
  rw [power_sub, hmixed, power_smul, hz, Vec.norm_eq_one_iff.mp hv,
    Vec.norm_eq_one_iff.mp (norm_filterOf ha), Complex.one_re] at hpos
  norm_num at hpos

end Bound

/-! ## Toward a direction -/

variable (g : Geometry ℝ) (θ : ℝ)

/-- The first entry of every steering vector is one. -/
theorem steering_ne_zero : Vec.toComplex (g.steering θ) ≠ 0 := by
  intro h
  rw [g.toComplex_steering] at h
  have hfirst : g.phasor θ ^ 0 = 0 := congrFun h ⟨0, g.size_pos⟩
  rw [pow_zero] at hfirst
  exact one_ne_zero hfirst

/-- The matched filter of a direction. -/
noncomputable def matchedFilter : Vector (Cplx ℝ) g.size :=
  unit ((g.steering θ).map Cplx.conj)

theorem norm_conj_steering (i : Fin g.size) :
    ‖Vec.toComplex ((g.steering θ).map Cplx.conj) i‖ = 1 := by
  rw [Vec.toComplex_map_conj, Pi.star_apply, norm_star, g.norm_steering]

theorem matched_eq : matched g θ = .ok (matchedFilter g θ) :=
  matchedTo_eq (steering_ne_zero g θ)

theorem matchedToward_eq (hsize : g.size < Extent.greatestKept) :
    matchedToward g (.real θ) = .ok (.ofVector (matchedFilter g θ)) := by
  have hmatched : matchedTo (g.steering θ) = .ok (matchedFilter g θ) := matched_eq g θ
  rw [matchedToward, g.steeringToward_real hsize]
  simp only [bind, Except.bind, Tensor.asVectorOf?_ofVector, hmatched]
  rfl

theorem matchedFilter_eq : matchedFilter g θ = filterOf (g.steering θ) := rfl

theorem norm_steering : Vec.norm (g.steering θ) = √g.size :=
  norm_of_unimodular (g.norm_steering θ)

end Weights

end PhasedArray
