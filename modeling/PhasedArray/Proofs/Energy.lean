import Mathlib.Analysis.Complex.Basic
import Mathlib.LinearAlgebra.Matrix.PosDef

set_option autoImplicit false

/-!
# Quadratic forms and the power of a vector

The power of a vector is the sum of its squared moduli, and the energy of a vector under a
matrix is the real part of the quadratic form.  Two inequalities matter for ascent: that of
Cauchy and Schwarz, which bounds a response by powers, and one for a Hermitian matrix of no
negative energy, by which applying the matrix does not lower the energy per power.
-/

namespace PhasedArray

open Matrix

variable {m n : ℕ}

/-! ## Power -/

/-- The sum of the squared moduli. -/
noncomputable def power (x : Fin n → ℂ) : ℝ := ∑ i, ‖x i‖ ^ 2

theorem power_nonneg (x : Fin n → ℂ) : 0 ≤ power x := Finset.sum_nonneg fun _ _ => sq_nonneg _

theorem power_pos {x : Fin n → ℂ} (hx : x ≠ 0) : 0 < power x := by
  obtain ⟨i, hi⟩ := Function.ne_iff.mp hx
  exact Finset.sum_pos' (fun _ _ => sq_nonneg _)
    ⟨i, Finset.mem_univ i, pow_pos (norm_pos_iff.mpr hi) 2⟩

theorem power_smul (z : ℂ) (x : Fin n → ℂ) : power (z • x) = ‖z‖ ^ 2 * power x := by
  rw [power, power, Finset.mul_sum]
  apply Finset.sum_congr rfl
  intro i _
  rw [Pi.smul_apply, smul_eq_mul, norm_mul, mul_pow]

/-- The power of a vector whose entries have modulus one. -/
theorem power_of_norm_eq_one {x : Fin n → ℂ} (h : ∀ i, ‖x i‖ = 1) : power x = n := by
  rw [power]
  simp [h]

theorem power_star (x : Fin n → ℂ) : power (star x) = power x := by
  simp [power]

/-- The power is the product of a vector with its conjugate. -/
theorem star_dotProduct_self (x : Fin n → ℂ) : star x ⬝ᵥ x = (power x : ℂ) := by
  rw [dotProduct, power, Complex.ofReal_sum]
  apply Finset.sum_congr rfl
  intro i _
  rw [Pi.star_apply, RCLike.star_def, Complex.conj_mul', Complex.ofReal_pow]

/-- The real part of the product of two vectors does not depend on which one is conjugated. -/
theorem re_star_dotProduct_comm (x y : Fin n → ℂ) : (star x ⬝ᵥ y).re = (star y ⬝ᵥ x).re := by
  rw [← star_star y, star_dotProduct_star, RCLike.star_def, Complex.conj_re, star_star,
    dotProduct_comm]

/-- The power of a difference. -/
theorem power_sub (x y : Fin n → ℂ) :
    power (x - y) = power x - 2 * (star x ⬝ᵥ y).re + power y := by
  have hpower : ∀ z : Fin n → ℂ, power z = (star z ⬝ᵥ z).re := by
    intro z
    rw [star_dotProduct_self, Complex.ofReal_re]
  rw [hpower (x - y), star_sub, sub_dotProduct, dotProduct_sub, dotProduct_sub, Complex.sub_re,
    Complex.sub_re, Complex.sub_re, re_star_dotProduct_comm y x, ← hpower, ← hpower]
  ring

/-- The product of two vectors is bounded by their powers. -/
theorem norm_dotProduct_sq_le (x a : Fin n → ℂ) : ‖x ⬝ᵥ a‖ ^ 2 ≤ power x * power a := by
  have htriangle : ‖x ⬝ᵥ a‖ ≤ ∑ i, ‖x i‖ * ‖a i‖ := by
    rw [dotProduct]
    refine (norm_sum_le _ _).trans_eq ?_
    exact Finset.sum_congr rfl fun i _ => norm_mul _ _
  calc ‖x ⬝ᵥ a‖ ^ 2 ≤ (∑ i, ‖x i‖ * ‖a i‖) ^ 2 := pow_le_pow_left₀ (norm_nonneg _) htriangle 2
    _ ≤ power x * power a := Finset.sum_mul_sq_le_sq_mul_sq _ _ _

/-! ## Energy -/

/-- The real part of the quadratic form of `B`. -/
noncomputable def energy (B : Matrix (Fin n) (Fin n) ℂ) (x : Fin n → ℂ) : ℝ :=
  (star x ⬝ᵥ B *ᵥ x).re

variable (A B : Matrix (Fin n) (Fin n) ℂ) (x : Fin n → ℂ)

theorem energy_add : energy (A + B) x = energy A x + energy B x := by
  rw [energy, add_mulVec, dotProduct_add, Complex.add_re]
  rfl

theorem energy_sub : energy (A - B) x = energy A x - energy B x := by
  rw [energy, sub_mulVec, dotProduct_sub, Complex.sub_re]
  rfl

theorem energy_smul (r : ℝ) : energy ((r : ℂ) • B) x = r * energy B x := by
  rw [energy, smul_mulVec, dotProduct_smul, smul_eq_mul, Complex.re_ofReal_mul]
  rfl

/-- Products of the columns of `A` give the power of the image. -/
theorem energy_gram (A : Matrix (Fin m) (Fin n) ℂ) : energy (Aᴴ * A) x = power (A *ᵥ x) := by
  rw [energy, ← mulVec_mulVec, dotProduct_mulVec, ← star_mulVec, star_dotProduct_self,
    Complex.ofReal_re]

/-- The energy under a matrix of rank one is that of one product. -/
theorem energy_vecMulVec (a : Fin n → ℂ) : energy (vecMulVec (star a) a) x = ‖x ⬝ᵥ a‖ ^ 2 := by
  have hproduct : star x ⬝ᵥ vecMulVec (star a) a *ᵥ x = star (x ⬝ᵥ a) * (x ⬝ᵥ a) := by
    rw [vecMulVec_mulVec, dotProduct_smul, op_smul_eq_smul, smul_eq_mul, dotProduct_comm a x,
      star_dotProduct_star, dotProduct_comm a x, mul_comm]
  rw [energy, hproduct, RCLike.star_def, Complex.conj_mul', ← Complex.ofReal_pow,
    Complex.ofReal_re]

theorem energy_one : energy 1 x = power x := by
  have hgram := energy_gram x (1 : Matrix (Fin n) (Fin n) ℂ)
  rwa [conjTranspose_one, Matrix.one_mul, one_mulVec] at hgram

theorem energy_mulVec : energy B (A *ᵥ x) = energy (Aᴴ * B * A) x := by
  rw [energy, energy, star_mulVec, ← dotProduct_mulVec, mulVec_mulVec, mulVec_mulVec,
    Matrix.mul_assoc]

theorem energy_smul_vec (z : ℂ) : energy B (z • x) = ‖z‖ ^ 2 * energy B x := by
  have hmodulus : star z * z = ((‖z‖ ^ 2 : ℝ) : ℂ) := by
    rw [RCLike.star_def, Complex.conj_mul', Complex.ofReal_pow]
  rw [energy, star_smul, mulVec_smul, smul_dotProduct, dotProduct_smul, smul_smul, hmodulus,
    smul_eq_mul, Complex.re_ofReal_mul]
  rfl

/-- The energies of two vectors add up but for twice their product under `B`. -/
theorem energy_add_vec {B : Matrix (Fin n) (Fin n) ℂ} (hB : B.IsHermitian) (x y : Fin n → ℂ) :
    energy B (x + y) = energy B x + energy B y + 2 * (star y ⬝ᵥ B *ᵥ x).re := by
  have hmixed : (star x ⬝ᵥ B *ᵥ y).re = (star y ⬝ᵥ B *ᵥ x).re := by
    rw [re_star_dotProduct_comm, star_mulVec, hB.eq, ← dotProduct_mulVec]
  rw [energy, star_add, mulVec_add, add_dotProduct, dotProduct_add, dotProduct_add,
    Complex.add_re, Complex.add_re, Complex.add_re, hmixed, energy, energy]
  ring

/-! ## Energy per power -/

section Rayleigh

variable {B : Matrix (Fin n) (Fin n) ℂ} (hB : B.IsHermitian) {x : Fin n → ℂ}
include hB

/-- The energy of the image of `x` under `B - s`, for any form between. -/
theorem energy_shift (M : Matrix (Fin n) (Fin n) ℂ) (s : ℝ) :
    energy M ((B - (s : ℂ) • 1) *ᵥ x) =
      energy (B * M * B) x - s * energy (M * B + B * M) x + s ^ 2 * energy M x := by
  have hshift : (B - (s : ℂ) • (1 : Matrix (Fin n) (Fin n) ℂ))ᴴ = B - (s : ℂ) • 1 := by
    rw [conjTranspose_sub, hB.eq, conjTranspose_smul, conjTranspose_one, RCLike.star_def,
      Complex.conj_ofReal]
  have hexpand : (B - (s : ℂ) • (1 : Matrix (Fin n) (Fin n) ℂ)) * M * (B - (s : ℂ) • 1) =
      B * M * B - (s : ℂ) • (M * B + B * M) + ((s ^ 2 : ℝ) : ℂ) • M := by
    push_cast
    simp only [Matrix.sub_mul, Matrix.mul_sub, Matrix.smul_mul, Matrix.mul_smul, Matrix.one_mul,
      Matrix.mul_one, smul_add, smul_sub, smul_smul, pow_two]
    abel
  rw [energy_mulVec, hshift, hexpand, energy_add, energy_sub, energy_smul, energy_smul]

/-- The power of the image bounds the square of the energy. -/
theorem energy_sq_le (hx : power x = 1) : energy B x ^ 2 ≤ power (B *ᵥ x) := by
  have hshift := energy_shift hB (x := x) 1 (energy B x)
  have hnonneg := power_nonneg ((B - (energy B x : ℂ) • 1) *ᵥ x)
  rw [← energy_one, hshift, Matrix.mul_one, Matrix.one_mul, energy_add, energy_one, hx] at hnonneg
  have himage : power (B *ᵥ x) = energy (B * B) x := by
    rw [← energy_gram, hB.eq]
  rw [himage]
  linarith

/-- Applying a Hermitian matrix of no negative energy does not lower the energy per power. -/
theorem energy_mul_power_le (hpos : ∀ y, 0 ≤ energy B y) (hx : power x = 1) :
    energy B x * power (B *ᵥ x) ≤ energy B (B *ᵥ x) := by
  have hfirst := energy_sq_le hB hx
  have hsecond := hpos ((B - (energy B x : ℂ) • 1) *ᵥ x)
  rw [energy_shift hB, energy_add] at hsecond
  have himage : power (B *ᵥ x) = energy (B * B) x := by
    rw [← energy_gram, hB.eq]
  have hnext : energy B (B *ᵥ x) = energy (B * B * B) x := by
    rw [energy_mulVec, hB.eq]
  rw [himage] at hfirst ⊢
  rw [hnext]
  -- with `s` the energy of `x`: `E₃ - s E₂ ≥ s (E₂ - s²) ≥ 0`
  have hslack : 0 ≤ energy B x * (energy (B * B) x - energy B x ^ 2) :=
    mul_nonneg (hpos x) (sub_nonneg.mpr hfirst)
  linarith

end Rayleigh

end PhasedArray
