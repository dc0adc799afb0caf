import Mathlib.LinearAlgebra.Matrix.Hermitian
import PhasedArray.Proofs.Exact.Complex

set_option autoImplicit false

/-!
# Exact arithmetic: matrices

`Mat.toMatrix` reads a matrix of this library, over the real numbers, as a matrix over
`ℂ`; `Mat.ofMatrix` goes back.  One lemma for each operation says what it becomes: the
products, adjoints and blocks that the subspace methods are written with are those of
linear algebra.
-/

namespace PhasedArray

open Matrix

/-- The list of a vector runs through its entries. -/
theorem Vec.toList_eq_ofFn {β : Type} {n : ℕ} (x : Vector β n) : x.toList = List.ofFn x.get := by
  apply List.ext_getElem
  · simp
  · intro i hi _
    rw [Vector.getElem_toList, List.getElem_ofFn]
    rfl

/-- The entries of a vector of complex numbers. -/
def Vec.toComplex {n : ℕ} (x : Vector (Cplx ℝ) n) : Fin n → ℂ := fun i => (x.get i).toComplex

namespace Mat

variable {m n p : ℕ}

/-- The matrix over `ℂ` with the same entries. -/
def toMatrix (A : Mat (Cplx ℝ) m n) : Matrix (Fin m) (Fin n) ℂ :=
  Matrix.of fun i j => (A i j).toComplex

/-- The matrix with the entries of a matrix over `ℂ`. -/
def ofMatrix (M : Matrix (Fin m) (Fin n) ℂ) : Mat (Cplx ℝ) m n :=
  of fun i j => Cplx.ofComplex (M i j)

theorem toMatrix_apply (A : Mat (Cplx ℝ) m n) (i : Fin m) (j : Fin n) :
    A.toMatrix i j = (A i j).toComplex := rfl

@[simp] theorem toMatrix_of (f : Fin m → Fin n → Cplx ℝ) :
    (of f).toMatrix = Matrix.of fun i j => (f i j).toComplex := by
  ext i j
  rw [toMatrix_apply, of_apply, Matrix.of_apply]

@[simp] theorem toMatrix_ofMatrix (M : Matrix (Fin m) (Fin n) ℂ) : (ofMatrix M).toMatrix = M := by
  ext i j
  simp [ofMatrix]

theorem toMatrix_injective : Function.Injective (toMatrix (m := m) (n := n)) := by
  intro A B h
  ext i j : 1
  exact Cplx.toComplex_injective (congrFun (congrFun h i) j)

/-! ## Operations -/

@[simp] theorem toMatrix_mul (A : Mat (Cplx ℝ) m n) (B : Mat (Cplx ℝ) n p) :
    (A * B).toMatrix = A.toMatrix * B.toMatrix := by
  ext i j
  rw [toMatrix_apply, mul_apply, toComplex_total, Matrix.mul_apply]
  simp only [toMatrix_apply, Cplx.toComplex_mul]

@[simp] theorem toMatrix_add (A B : Mat (Cplx ℝ) m n) :
    (A + B).toMatrix = A.toMatrix + B.toMatrix := by
  ext i j
  simp [toMatrix_apply]

@[simp] theorem toMatrix_neg (A : Mat (Cplx ℝ) m n) : (-A).toMatrix = -A.toMatrix := by
  ext i j
  simp [toMatrix_apply]

@[simp] theorem toMatrix_adjoint (A : Mat (Cplx ℝ) m n) : A.adjoint.toMatrix = A.toMatrixᴴ := by
  ext i j
  simp [toMatrix_apply]

@[simp] theorem toMatrix_conj (A : Mat (Cplx ℝ) m n) : A.conj.toMatrix = A.toMatrix.map star := by
  ext i j
  simp [toMatrix_apply]

@[simp] theorem toMatrix_divReal (A : Mat (Cplx ℝ) m n) (s : ℝ) :
    (A.divReal s).toMatrix = (s : ℂ)⁻¹ • A.toMatrix := by
  ext i j
  simp [toMatrix_apply, div_eq_inv_mul]

@[simp] theorem toMatrix_identity : (identity n : Mat (Cplx ℝ) n n).toMatrix = 1 := by
  ext i j
  rw [identity, toMatrix_of, Matrix.of_apply, Matrix.one_apply]
  split_ifs <;> simp

/-! ## Blocks

A block is the submatrix that an injection of its indices picks out. -/

theorem after_lt (k : ℕ) (j : Fin (n - k)) : k + j < n := Nat.add_lt_of_lt_sub' j.isLt

/-- The places after the first `k`. -/
def after (k : ℕ) (j : Fin (n - k)) : Fin n := ⟨k + j, after_lt k j⟩

theorem next_lt (i : Fin (n - 1)) : i + 1 < n := Nat.add_lt_of_lt_sub i.isLt

/-- The place after a place that is not the last. -/
def next (i : Fin (n - 1)) : Fin n := ⟨i + 1, next_lt i⟩

@[simp] theorem toMatrix_takeColumns (A : Mat (Cplx ℝ) m n) (k : ℕ) (h : k ≤ n) :
    (A.takeColumns k h).toMatrix = A.toMatrix.submatrix id (Fin.castLE h) := by
  rw [takeColumns, toMatrix_of]
  rfl

@[simp] theorem toMatrix_dropColumns (A : Mat (Cplx ℝ) m n) (k : ℕ) :
    (A.dropColumns k).toMatrix = A.toMatrix.submatrix id (after k) := by
  rw [dropColumns, toMatrix_of]
  rfl

@[simp] theorem toMatrix_dropLastRow (A : Mat (Cplx ℝ) m n) :
    A.dropLastRow.toMatrix = A.toMatrix.submatrix (Fin.castLE (Nat.sub_le m 1)) id := by
  rw [dropLastRow, toMatrix_of]
  rfl

@[simp] theorem toMatrix_dropFirstRow (A : Mat (Cplx ℝ) m n) :
    A.dropFirstRow.toMatrix = A.toMatrix.submatrix next id := by
  rw [dropFirstRow, toMatrix_of]
  rfl

/-- Two matrices side by side act on a vector of two parts by parts. -/
theorem toMatrix_beside_mul (A : Mat (Cplx ℝ) m n) (B : Mat (Cplx ℝ) m p) {ι : Type}
    (X : Matrix (Fin (n + p)) ι ℂ) :
    (A.beside B).toMatrix * X =
      A.toMatrix * X.submatrix (Fin.castAdd p) id + B.toMatrix * X.submatrix (Fin.natAdd n) id := by
  ext i j
  simp [beside, Matrix.mul_apply, Fin.sum_univ_add, toMatrix_apply]

/-- The first columns of two matrices side by side are those of the first. -/
theorem toMatrix_beside_left (A : Mat (Cplx ℝ) m n) (B : Mat (Cplx ℝ) m p) :
    (A.beside B).toMatrix.submatrix id (Fin.castAdd p) = A.toMatrix := by
  ext i j
  simp [beside, toMatrix_apply]

/-! ## Finite matrices -/

/-- Over the real numbers every matrix is finite. -/
@[simp] theorem isFinite_eq_true (A : Mat (Cplx ℝ) m n) : A.isFinite = true := by
  simp [isFinite, all]

/-! ## Hermitian matrices

A solver that reads only one triangle and the real diagonal of a Hermitian matrix still
sees all of it. -/

theorem ofReal_diagonal {A : Mat (Cplx ℝ) n n} (h : A.toMatrix.IsHermitian) (i : Fin n) :
    Cplx.ofReal (A i i).re = A i i := by
  apply Cplx.toComplex_injective
  rw [Cplx.toComplex_ofReal]
  exact Complex.conj_eq_iff_re.mp (h.apply i i)

theorem conj_mirrored {A : Mat (Cplx ℝ) n n} (h : A.toMatrix.IsHermitian) (i j : Fin n) :
    (A j i).conj = A i j := by
  apply Cplx.toComplex_injective
  rw [Cplx.toComplex_conj]
  exact h.apply i j

theorem ofLower_eq_self {A : Mat (Cplx ℝ) n n} (h : A.toMatrix.IsHermitian) :
    A.ofLower = A := by
  ext i j : 1
  rw [ofLower, of_apply]
  split_ifs with hij hlt
  · subst hij
    exact ofReal_diagonal h i
  · rfl
  · exact conj_mirrored h i j

theorem ofUpper_eq_self {A : Mat (Cplx ℝ) n n} (h : A.toMatrix.IsHermitian) :
    A.ofUpper = A := by
  ext i j : 1
  rw [ofUpper, of_apply]
  split_ifs with hij hlt
  · subst hij
    exact ofReal_diagonal h i
  · rfl
  · exact conj_mirrored h i j

end Mat

end PhasedArray
