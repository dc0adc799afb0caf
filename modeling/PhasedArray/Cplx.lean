import PhasedArray.Scalar

set_option autoImplicit false

/-!
# Complex numbers over a scalar type

Amplitudes, weights and covariances are complex.  The two parts are kept as
they are; every operation below is a formula in them.
-/

namespace PhasedArray

/-- The number `re + j * im`. -/
structure Cplx (α : Type) where
  re : α
  im : α
  deriving DecidableEq, Repr, Inhabited

namespace Cplx

variable {α : Type} [Scalar α]

instance : Zero (Cplx α) := ⟨⟨0, 0⟩⟩
instance : One (Cplx α) := ⟨⟨1, 0⟩⟩
instance : Add (Cplx α) := ⟨fun z w => ⟨z.re + w.re, z.im + w.im⟩⟩
instance : Sub (Cplx α) := ⟨fun z w => ⟨z.re - w.re, z.im - w.im⟩⟩
instance : Neg (Cplx α) := ⟨fun z => ⟨-z.re, -z.im⟩⟩
instance : Mul (Cplx α) :=
  ⟨fun z w => ⟨z.re * w.re - z.im * w.im, z.re * w.im + z.im * w.re⟩⟩

/-- A real number. -/
@[inline] def ofReal (x : α) : Cplx α := ⟨x, 0⟩

/-- The conjugate. -/
@[inline] def conj (z : Cplx α) : Cplx α := ⟨z.re, -z.im⟩

/-- The product with a real number. -/
@[inline] def scale (s : α) (z : Cplx α) : Cplx α := ⟨z.re * s, z.im * s⟩

/-- The squared modulus. -/
@[inline] def normSq (z : Cplx α) : α := z.re * z.re + z.im * z.im

/-- The modulus. -/
@[inline] def abs (z : Cplx α) : α := Scalar.hypot z.re z.im

/-- The angle, in `(-π, π]`. -/
@[inline] def arg (z : Cplx α) : α := Scalar.atan2 z.im z.re

/-- The point of the unit circle at angle `x`. -/
@[inline] def cis (x : α) : Cplx α := ⟨Scalar.cos x, Scalar.sin x⟩

/-- The quotient.  Dividing first by the larger part of the divisor keeps its square
from leaving the range of the scalars. -/
@[inline] def quot (z w : Cplx α) : Cplx α :=
  if Scalar.abs w.im ≤ Scalar.abs w.re then
    let r := w.im / w.re
    let f := 1 / (w.re + w.im * r)
    ⟨(z.re + z.im * r) * f, (z.im - z.re * r) * f⟩
  else
    let r := w.re / w.im
    let f := 1 / (w.re * r + w.im)
    ⟨(z.re * r + z.im) * f, (z.im * r - z.re) * f⟩

/-- The quotient by a real number.  It is a quotient of complex numbers, so an infinite
part of `z` leaves the other part undefined. -/
@[inline] def divReal (z : Cplx α) (s : α) : Cplx α := z.quot (ofReal s)

/-- A square root, in the half-plane of real parts that are not negative. -/
def sqrt (z : Cplx α) : Cplx α :=
  let r := z.abs
  let u := Scalar.sqrt ((r + Scalar.abs z.re) / 2)
  if u ≤ 0 then ⟨0, 0⟩
  else
    let v := Scalar.abs z.im / (2 * u)
    let (x, y) := if z.re < 0 then (v, u) else (u, v)
    ⟨x, if z.im < 0 then -y else y⟩

/-- Both parts are finite. -/
@[inline] def isFinite (z : Cplx α) : Bool := Scalar.isFinite z.re && Scalar.isFinite z.im

/-- Both parts are equal in the order of the scalars. -/
@[inline] def same (z w : Cplx α) : Bool := Scalar.same z.re w.re && Scalar.same z.im w.im

/-! ## The parts of each operation -/

@[simp] theorem zero_re : (0 : Cplx α).re = 0 := rfl
@[simp] theorem zero_im : (0 : Cplx α).im = 0 := rfl
@[simp] theorem one_re : (1 : Cplx α).re = 1 := rfl
@[simp] theorem one_im : (1 : Cplx α).im = 0 := rfl
@[simp] theorem add_re (z w : Cplx α) : (z + w).re = z.re + w.re := rfl
@[simp] theorem add_im (z w : Cplx α) : (z + w).im = z.im + w.im := rfl
@[simp] theorem sub_re (z w : Cplx α) : (z - w).re = z.re - w.re := rfl
@[simp] theorem sub_im (z w : Cplx α) : (z - w).im = z.im - w.im := rfl
@[simp] theorem neg_re (z : Cplx α) : (-z).re = -z.re := rfl
@[simp] theorem neg_im (z : Cplx α) : (-z).im = -z.im := rfl
@[simp] theorem mul_re (z w : Cplx α) : (z * w).re = z.re * w.re - z.im * w.im := rfl
@[simp] theorem mul_im (z w : Cplx α) : (z * w).im = z.re * w.im + z.im * w.re := rfl
@[simp] theorem conj_re (z : Cplx α) : z.conj.re = z.re := rfl
@[simp] theorem conj_im (z : Cplx α) : z.conj.im = -z.im := rfl

end Cplx

end PhasedArray
