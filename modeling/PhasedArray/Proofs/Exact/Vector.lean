import PhasedArray.Proofs.Energy
import PhasedArray.Proofs.Exact.Matrix
import PhasedArray.Weights

set_option autoImplicit false

/-!
# Exact arithmetic: vectors and weights

`Vec.toComplex` reads a vector of complex numbers as a vector over `ℂ`.  Responses become
products of vectors, lengths become square roots of powers, and weights are scaled to unit
power exactly if they are not zero.
-/

namespace PhasedArray

open Matrix

namespace Vec

variable {m n : ℕ}

theorem toComplex_apply (x : Vector (Cplx ℝ) n) (i : Fin n) :
    toComplex x i = (x.get i).toComplex := rfl

theorem toComplex_injective : Function.Injective (toComplex (n := n)) := by
  intro x y h
  apply Vector.ext
  intro i hi
  exact Cplx.toComplex_injective (congrFun h ⟨i, hi⟩)

@[simp] theorem toComplex_ofFn (f : Fin n → Cplx ℝ) :
    toComplex (Vector.ofFn f) = fun i => (f i).toComplex := by
  funext i
  rw [toComplex_apply, get_ofFn]

@[simp] theorem toComplex_map (f : Cplx ℝ → Cplx ℝ) (x : Vector (Cplx ℝ) n) :
    toComplex (x.map f) = fun i => (f (x.get i)).toComplex := by
  funext i
  rw [toComplex_apply, get_map]

theorem toComplex_add (x y : Vector (Cplx ℝ) n) :
    toComplex (x + y) = toComplex x + toComplex y := by
  funext i
  rw [Pi.add_apply, toComplex_apply, get_eq_getElem, Fin.getElem_fin, Vector.getElem_add,
    Cplx.toComplex_add]
  rfl

theorem toComplex_map_conj (x : Vector (Cplx ℝ) n) :
    toComplex (x.map Cplx.conj) = star (toComplex x) := by
  rw [toComplex_map]
  rfl

/-! ## Products and lengths -/

theorem toComplex_bilinear (x y : Vector (Cplx ℝ) n) :
    (bilinear x y).toComplex = toComplex x ⬝ᵥ toComplex y := by
  rw [bilinear, toComplex_total, dotProduct]
  simp only [Cplx.toComplex_mul]
  rfl

theorem toComplex_inner (x y : Vector (Cplx ℝ) n) :
    (inner x y).toComplex = star (toComplex x) ⬝ᵥ toComplex y := by
  rw [inner, toComplex_total, dotProduct]
  simp only [Cplx.toComplex_mul, Cplx.toComplex_conj]
  rfl

theorem toComplex_column (A : Mat (Cplx ℝ) m n) (j : Fin n) :
    toComplex (A.column j) = A.toMatrix.col j := by
  rw [Mat.column, toComplex_ofFn]
  rfl

theorem toComplex_mulVec (A : Mat (Cplx ℝ) m n) (x : Vector (Cplx ℝ) n) :
    toComplex (A.mulVec x) = A.toMatrix *ᵥ toComplex x := by
  funext i
  rw [Mat.mulVec, toComplex_ofFn]
  simp only [toComplex_total, Cplx.toComplex_mul]
  rfl

theorem toComplex_vecMul (x : Vector (Cplx ℝ) m) (A : Mat (Cplx ℝ) m n) :
    toComplex (A.vecMul x) = toComplex x ᵥ* A.toMatrix := by
  funext j
  rw [Mat.vecMul, toComplex_ofFn]
  simp only [toComplex_total, Cplx.toComplex_mul]
  rfl

theorem normSq_eq_power (x : Vector (Cplx ℝ) n) : normSq x = power (toComplex x) := by
  rw [normSq]
  refine (map_total id Nat.cast_zero (fun _ _ => rfl) n _).trans ?_
  apply Finset.sum_congr rfl
  intro i _
  rw [← Complex.normSq_eq_norm_sq, Complex.normSq_apply]
  rfl

theorem norm_eq_sqrt (x : Vector (Cplx ℝ) n) : norm x = √(power (toComplex x)) := by
  rw [norm, normSq_eq_power]
  rfl

theorem sq_norm (x : Vector (Cplx ℝ) n) : norm x ^ 2 = power (toComplex x) := by
  rw [norm_eq_sqrt, Real.sq_sqrt (power_nonneg _)]

theorem norm_pos_iff {x : Vector (Cplx ℝ) n} : 0 < norm x ↔ 0 < power (toComplex x) := by
  rw [norm_eq_sqrt, Real.sqrt_pos]

theorem norm_eq_one_iff {x : Vector (Cplx ℝ) n} : norm x = 1 ↔ power (toComplex x) = 1 := by
  rw [norm_eq_sqrt, Real.sqrt_eq_one]

end Vec

namespace Weights

variable {n : ℕ}

theorem toComplex_response (w a : Vector (Cplx ℝ) n) :
    (response w a).toComplex = Vec.toComplex w ⬝ᵥ Vec.toComplex a :=
  Vec.toComplex_bilinear w a

theorem toComplex_scale (s : ℝ) (z : Cplx ℝ) : (z.scale s).toComplex = s * z.toComplex := by
  apply Complex.ext
  · simp [Cplx.scale, mul_comm]
  · simp [Cplx.scale, mul_comm]

/-- Weights divided by their length. -/
noncomputable def unit (w : Vector (Cplx ℝ) n) : Vector (Cplx ℝ) n :=
  w.map fun z => z.divReal (Vec.norm w)

theorem toComplex_unit (w : Vector (Cplx ℝ) n) :
    Vec.toComplex (unit w) = (((Vec.norm w)⁻¹ : ℝ) : ℂ) • Vec.toComplex w := by
  rw [unit, Vec.toComplex_map]
  funext i
  simp only [Cplx.toComplex_divReal, Pi.smul_apply, smul_eq_mul, Complex.ofReal_inv,
    div_eq_inv_mul]
  rfl

/-- Weights can be scaled to unit power exactly if they have any power. -/
theorem normalize_eq (w : Vector (Cplx ℝ) n) :
    normalize w =
      if 0 < power (Vec.toComplex w) then .ok (unit w) else .error .weightsNotScalable := by
  have hroot : (Scalar.sqrt unitPower : ℝ) = 1 := Real.sqrt_eq_one.mpr rfl
  have hscaled : (w.map fun z => (z.scale (Scalar.sqrt unitPower)).divReal (Vec.norm w)) =
      unit w := by
    rw [hroot]
    apply Vec.toComplex_injective
    simp [unit, toComplex_scale]
  have hnonneg : 0 ≤ Vec.norm w := by
    rw [Vec.norm_eq_sqrt]
    exact Real.sqrt_nonneg _
  have htest : (!Scalar.isFinite (Vec.norm w) || Scalar.same (Vec.norm w) 0) =
      decide (¬ 0 < Vec.norm w) := by
    simp [Scalar.same, hnonneg]
  rw [normalize, scaleTo, hscaled, htest]
  by_cases hpos : 0 < Vec.norm w
  · rw [if_pos (Vec.norm_pos_iff.mp hpos), if_neg (by simpa using hpos)]
  · rw [if_neg (mt Vec.norm_pos_iff.mpr hpos), if_pos (by simpa using hpos)]

theorem normalize_of_pos {w : Vector (Cplx ℝ) n} (h : 0 < power (Vec.toComplex w)) :
    normalize w = .ok (unit w) := by
  rw [normalize_eq, if_pos h]

theorem normalize_eq_ok_iff {w v : Vector (Cplx ℝ) n} :
    normalize w = .ok v ↔ 0 < power (Vec.toComplex w) ∧ unit w = v := by
  rw [normalize_eq]
  by_cases h : 0 < power (Vec.toComplex w)
  · rw [if_pos h, Except.ok.injEq]
    exact ⟨fun hv => ⟨h, hv⟩, fun hv => hv.2⟩
  · rw [if_neg h]
    exact ⟨nofun, fun hv => absurd hv.1 h⟩

/-- Scaled weights have unit power. -/
theorem power_unit {w : Vector (Cplx ℝ) n} (h : 0 < power (Vec.toComplex w)) :
    power (Vec.toComplex (unit w)) = 1 := by
  rw [toComplex_unit, power_smul, Complex.norm_real, norm_inv, Real.norm_eq_abs, inv_pow, sq_abs,
    Vec.sq_norm]
  exact inv_mul_cancel₀ h.ne'

section Unimodular

variable {w : Vector (Cplx ℝ) n} (h : ∀ i, ‖Vec.toComplex w i‖ = 1)
include h

/-- The length of weights of modulus one. -/
theorem norm_of_unimodular : Vec.norm w = √n := by
  rw [Vec.norm_eq_sqrt, power_of_norm_eq_one h]

theorem normalize_of_unimodular (hn : 0 < n) : normalize w = .ok (unit w) := by
  apply normalize_of_pos
  rw [power_of_norm_eq_one h]
  exact_mod_cast hn

/-- Weights of modulus one share the power evenly. -/
theorem abs_unit_of_unimodular (i : Fin n) : ((unit w).get i).abs = 1 / √n := by
  rw [Cplx.abs_eq_norm, ← Vec.toComplex_apply, toComplex_unit, norm_of_unimodular h,
    Pi.smul_apply, norm_smul, h i, mul_one, Complex.norm_real, norm_inv, Real.norm_eq_abs,
    abs_of_nonneg (Real.sqrt_nonneg _), one_div]

end Unimodular

/-- Weights of unit power stay as they are. -/
theorem unit_of_power {w : Vector (Cplx ℝ) n} (h : power (Vec.toComplex w) = 1) :
    unit w = w := by
  apply Vec.toComplex_injective
  rw [toComplex_unit, Vec.norm_eq_one_iff.mpr h, inv_one, Complex.ofReal_one, one_smul]

/-- Scaling divides the energy by the power. -/
theorem energy_unit (B : Matrix (Fin n) (Fin n) ℂ) (w : Vector (Cplx ℝ) n) :
    energy B (Vec.toComplex (unit w)) =
      energy B (Vec.toComplex w) / power (Vec.toComplex w) := by
  rw [toComplex_unit, energy_smul_vec, Complex.norm_real, Real.norm_eq_abs, sq_abs, inv_pow,
    Vec.sq_norm, div_eq_inv_mul]

end Weights

/-! ## Responses of tensors -/

section Tensors

variable {α : Type} [Scalar α] {n : ℕ}

omit [Scalar α] in
/-- The entries of two vectors are paired in order. -/
theorem Tensor.pairing?_ofVector (x y : Vector (Cplx α) n) :
    pairing? (ofVector x) (ofVector y) =
      some ([n], (List.finRange n).map fun i => (i.val, i.val)) := by
  have hcommon : commonShape? [n] [n] = some [n] := by
    simp [commonShape?, commonReversed?, commonExtent?]
  have hplace : ∀ i : Fin n, sourcePlace [n] [n] i = i := by
    intro i
    by_cases hn : n = 1
    · subst hn
      simp [sourcePlace]
    · simp [sourcePlace, hn, Nat.mod_eq_of_lt i.isLt]
  have hplaces : List.range (volume [n]) = (List.finRange n).map Fin.val := by
    simp [volume]
  change (commonShape? [n] [n]).map _ = _
  rw [hcommon, Option.map_some, hplaces, List.map_map]
  simp [ofVector, Function.comp_def, hplace]

/-- Vectors given as tensors have the response of the vectors. -/
theorem Weights.responseOfTensors_ofVector (w a : Vector (Cplx α) n) :
    responseOfTensors (.ofVector w) (.ofVector a) = .ok (response w a) := by
  unfold responseOfTensors
  rw [Tensor.pairing?_ofVector]
  change Except.ok (List.foldl _ _ _) = _
  rw [List.foldl_map]
  unfold response Vec.bilinear total
  rw [Fin.foldl_eq_finRange_foldl]
  congr 2
  funext acc i
  simp [Tensor.ofVector, Vec.get_eq_getElem]

end Tensors

end PhasedArray
