import PhasedArray.Mat
import PhasedArray.Proofs.Exact.Scalar

set_option autoImplicit false

/-!
# Exact arithmetic: complex numbers

A complex number of this library is a pair of scalars; over the real numbers the pair
is a point of `ℂ`.  `Cplx.toComplex` reads it there, and one lemma for each operation
says which operation of `ℂ` it is.  The quotient is worked out by dividing first by the
larger part of the divisor; over the real numbers that is the quotient of `ℂ`.
-/

namespace PhasedArray

namespace Cplx

/-- The point of `ℂ` with the given parts. -/
def toComplex (z : Cplx ℝ) : ℂ := ⟨z.re, z.im⟩

/-- The pair of parts of a point of `ℂ`. -/
def ofComplex (z : ℂ) : Cplx ℝ := ⟨z.re, z.im⟩

@[simp] theorem toComplex_re (z : Cplx ℝ) : z.toComplex.re = z.re := rfl

@[simp] theorem toComplex_im (z : Cplx ℝ) : z.toComplex.im = z.im := rfl

@[simp] theorem toComplex_ofComplex (z : ℂ) : (ofComplex z).toComplex = z := rfl

@[simp] theorem ofComplex_toComplex (z : Cplx ℝ) : ofComplex z.toComplex = z := rfl

theorem toComplex_injective : Function.Injective toComplex := fun z w h => by
  rw [← ofComplex_toComplex z, h, ofComplex_toComplex]

/-! ## Each operation is that of `ℂ` -/

@[simp] theorem toComplex_zero : (0 : Cplx ℝ).toComplex = 0 := rfl

@[simp] theorem toComplex_one : (1 : Cplx ℝ).toComplex = 1 := rfl

@[simp] theorem toComplex_ofReal (x : ℝ) : (ofReal x).toComplex = x := rfl

@[simp] theorem toComplex_add (z w : Cplx ℝ) :
    (z + w).toComplex = z.toComplex + w.toComplex := rfl

@[simp] theorem toComplex_neg (z : Cplx ℝ) : (-z).toComplex = -z.toComplex := rfl

@[simp] theorem toComplex_mul (z w : Cplx ℝ) :
    (z * w).toComplex = z.toComplex * w.toComplex :=
  Complex.ext (by simp) (by simp)

@[simp] theorem toComplex_conj (z : Cplx ℝ) : z.conj.toComplex = star z.toComplex := rfl

@[simp] theorem abs_eq_norm (z : Cplx ℝ) : z.abs = ‖z.toComplex‖ := by
  rw [Complex.norm_def, Complex.normSq_apply, ← pow_two, ← pow_two]
  rfl

@[simp] theorem arg_eq_arg (z : Cplx ℝ) : z.arg = z.toComplex.arg := rfl

@[simp] theorem toComplex_cis (x : ℝ) : (cis x).toComplex = Complex.exp (x * Complex.I) := by
  rw [Complex.exp_mul_I]
  apply Complex.ext
  · simp [cis, Complex.cos_ofReal_re]
  · simp [cis, Complex.sin_ofReal_re]

/-- Division by a real number; division by zero gives zero, as in `ℂ`. -/
@[simp] theorem toComplex_divReal (z : Cplx ℝ) (s : ℝ) :
    (z.divReal s).toComplex = z.toComplex / s := by
  have hbranch : Scalar.abs (ofReal s).im ≤ Scalar.abs (ofReal s).re := by
    simp [ofReal]
  unfold divReal quot
  rw [if_pos hbranch]
  apply Complex.ext
  · rw [Complex.div_ofReal_re]
    simp [ofReal, div_eq_mul_inv]
  · rw [Complex.div_ofReal_im]
    simp [ofReal, div_eq_mul_inv]

@[simp] theorem isFinite_eq_true (z : Cplx ℝ) : z.isFinite = true := by
  simp [isFinite]

end Cplx

/-! ## Sums -/

/-- A reading that keeps zero and sums turns a sum from the left into the sum. -/
theorem map_total {β γ : Type} {_ : Zero β} {_ : Add β} [AddCommMonoid γ] (φ : β → γ)
    (hzero : φ 0 = 0) (hadd : ∀ x y, φ (x + y) = φ x + φ y) (n : ℕ) (f : Fin n → β) :
    φ (total n f) = ∑ i, φ (f i) := by
  unfold total
  induction n with
  | zero => rw [Fin.foldl_zero, hzero, Fin.sum_univ_zero]
  | succ n ih => rw [Fin.foldl_succ_last, Fin.sum_univ_castSucc, hadd, ih]

/-- A sum of complex numbers is the sum in `ℂ`. -/
theorem toComplex_total (n : ℕ) (f : Fin n → Cplx ℝ) :
    (total n f).toComplex = ∑ i, (f i).toComplex :=
  map_total Cplx.toComplex Cplx.toComplex_zero Cplx.toComplex_add n f

end PhasedArray
