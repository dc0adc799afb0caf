import Mathlib.Analysis.Complex.Order
import Mathlib.Data.Complex.BigOperators
import Mathlib.LinearAlgebra.Matrix.Charpoly.Basic
import Mathlib.LinearAlgebra.Matrix.PosDef
import Mathlib.LinearAlgebra.Matrix.Rank
import Mathlib.RingTheory.SimpleRing.Principal

set_option autoImplicit false

/-!
# Orthonormal eigenbases (SPEC §4.3)

A Hermitian matrix has many orthonormal eigenbases: an eigenvector may be turned in the
complex plane, and eigenvectors of one eigenvalue may be mixed.  A solver returns one of
them.  This module says what all of them have in common: the eigenvalues in order, and,
where a set of eigenvalues differs from all others, the span of its eigenvectors.  Two
bases of that span differ by a unitary matrix of its extent (`exists_unitary`), which is
all a subspace method has to be insensitive to.
-/

namespace PhasedArray

open Matrix Polynomial
open scoped ComplexOrder

variable {n : ℕ} {H V V' : Matrix (Fin n) (Fin n) ℂ} {values values' : Fin n → ℝ}

/-- The columns of `V` are orthonormal eigenvectors of `H`, column `i` for the real
eigenvalue `values i`. -/
structure IsEigenbasis (H V : Matrix (Fin n) (Fin n) ℂ) (values : Fin n → ℝ) : Prop where
  orthonormal : Vᴴ * V = 1
  eigen : H * V = V * diagonal fun i => (values i : ℂ)

/-! ## Orthonormal columns -/

/-- Columns picked out of orthonormal ones are orthonormal. -/
theorem orthonormal_columns {ι : Type} [DecidableEq ι] (hV : Vᴴ * V = 1) {e : ι → Fin n}
    (he : Function.Injective e) : (V.submatrix id e)ᴴ * V.submatrix id e = 1 := by
  rw [conjTranspose_submatrix, ← submatrix_mul _ _ e id e Function.bijective_id, hV]
  exact submatrix_one e he

/-- The columns of one orthonormal basis, written in another one: those picked out by `e`
need only the others' columns at `e` if they are orthogonal to the rest. -/
theorem columns_eq_mul {ι : Type} [Fintype ι] (hV : Vᴴ * V = 1) {e : ι → Fin n}
    (he : Function.Injective e) (hrest : ∀ i ∉ Set.range e, ∀ a, (Vᴴ * V') i (e a) = 0) :
    V'.submatrix id e = V.submatrix id e * (Vᴴ * V').submatrix e e := by
  have hcomplete : V' = V * (Vᴴ * V') := by
    rw [← Matrix.mul_assoc, mul_eq_one_comm.mp hV, Matrix.one_mul]
  ext x a
  calc V' x (e a) = ∑ i, V x i * (Vᴴ * V') i (e a) := by
        conv_lhs => rw [hcomplete]
        rw [Matrix.mul_apply]
    _ = ∑ b, V x (e b) * (Vᴴ * V') (e b) (e a) := by
        refine (Fintype.sum_of_injective e he _ _ ?_ fun _ => rfl).symm
        intro i hi
        rw [hrest i hi a, mul_zero]

/-! ## Sequences in descending order -/

/-- A sequence in descending order is determined by its values. -/
theorem antitone_unique {f g : Fin n → ℝ} (hf : Antitone f) (hg : Antitone g)
    (h : Finset.univ.val.map f = Finset.univ.val.map g) : f = g := by
  have hperm : (List.ofFn f).Perm (List.ofFn g) := by
    simpa [Fin.univ_val_map] using h
  exact List.ofFn_injective
    (hperm.eq_of_pairwise' hf.sortedGE_ofFn.pairwise hg.sortedGE_ofFn.pairwise)

/-- If at most `k` values of a descending sequence of nonnegative numbers are not zero, the
places from `k` on hold zero. -/
theorem eq_zero_of_card_le (hvalues : Antitone values) (hpos : ∀ i, 0 ≤ values i) {k : ℕ}
    (hcard : Fintype.card {i // values i ≠ 0} ≤ k) {i : Fin n} (hi : k ≤ i.val) :
    values i = 0 := by
  by_contra hne
  have hsub : Finset.Iic i ⊆ Finset.univ.filter fun j => values j ≠ 0 := by
    intro j hj
    have hle : values i ≤ values j := hvalues (Finset.mem_Iic.mp hj)
    have hlt : 0 < values i := lt_of_le_of_ne (hpos i) (Ne.symm hne)
    exact Finset.mem_filter.mpr ⟨Finset.mem_univ j, (hlt.trans_le hle).ne'⟩
  have hle := Finset.card_le_card hsub
  rw [Fin.card_Iic, ← Fintype.card_subtype] at hle
  omega

/-- If at least `k` values of a descending sequence of nonnegative numbers are not zero, the
first `k` places hold positive numbers. -/
theorem pos_of_le_card (hvalues : Antitone values) (hpos : ∀ i, 0 ≤ values i) {k : ℕ}
    (hcard : k ≤ Fintype.card {i // values i ≠ 0}) {i : Fin n} (hi : i.val < k) :
    0 < values i := by
  refine lt_of_le_of_ne (hpos i) fun hzero => ?_
  have hsub : (Finset.univ.filter fun j => values j ≠ 0) ⊆ Finset.Iio i := by
    intro j hj
    rw [Finset.mem_Iio]
    by_contra hle
    have hle : values j ≤ values i := hvalues (not_lt.mp hle)
    have hne := (Finset.mem_filter.mp hj).2
    exact hne (le_antisymm (hle.trans hzero.symm.le) (hpos j))
  have hle := Finset.card_le_card hsub
  rw [Fin.card_Iio, ← Fintype.card_subtype] at hle
  omega

namespace IsEigenbasis

/-! ## What an eigenbasis says about its matrix -/

theorem complete (h : IsEigenbasis H V values) : V * Vᴴ = 1 := mul_eq_one_comm.mp h.orthonormal

theorem spectral (h : IsEigenbasis H V values) :
    H = V * diagonal (fun i => (values i : ℂ)) * Vᴴ := by
  rw [← h.eigen, Matrix.mul_assoc, h.complete, Matrix.mul_one]

theorem isHermitian (h : IsEigenbasis H V values) : H.IsHermitian := by
  rw [h.spectral]
  apply isHermitian_mul_mul_conjTranspose
  rw [IsHermitian, diagonal_conjTranspose]
  congr 1
  ext i
  exact Complex.conj_ofReal _

/-- The eigenvalues of an eigenbasis are the roots of the characteristic polynomial. -/
theorem roots_charpoly (h : IsEigenbasis H V values) :
    H.charpoly.roots = Finset.univ.val.map fun i => (values i : ℂ) := by
  have hcharpoly : H.charpoly = ∏ i, (X - C (values i : ℂ)) := by
    rw [h.spectral, charpoly_mul_comm, ← Matrix.mul_assoc, h.orthonormal, Matrix.one_mul,
      charpoly_diagonal]
  rw [hcharpoly, roots_prod _ _ (Finset.prod_ne_zero_iff.mpr fun i _ => X_sub_C_ne_zero _)]
  simp

/-- Two eigenbases in descending order have the same eigenvalues; only the characteristic
polynomial of their matrices matters. -/
theorem values_unique {H' : Matrix (Fin n) (Fin n) ℂ} (h : IsEigenbasis H V values)
    (h' : IsEigenbasis H' V' values') (hvalues : Antitone values) (hvalues' : Antitone values')
    (hcharpoly : H.charpoly = H'.charpoly) : values = values' := by
  apply antitone_unique hvalues hvalues'
  apply Multiset.map_injective Complex.ofReal_injective
  rw [Multiset.map_map, Multiset.map_map]
  exact h.roots_charpoly.symm.trans ((congrArg roots hcharpoly).trans h'.roots_charpoly)

/-- The eigenvalues of a positive semidefinite matrix are not negative. -/
theorem nonneg (h : IsEigenbasis H V values) (hH : H.PosSemidef) (i : Fin n) : 0 ≤ values i := by
  have hdiagonal : Vᴴ * H * V = diagonal fun i => (values i : ℂ) := by
    rw [Matrix.mul_assoc, h.eigen, ← Matrix.mul_assoc, h.orthonormal, Matrix.one_mul]
  have hpos := (hH.conjTranspose_mul_mul_same V).diag_nonneg (i := i)
  rw [hdiagonal, diagonal_apply_eq] at hpos
  exact_mod_cast hpos

/-- The rank is the number of eigenvalues that are not zero. -/
theorem card_ne_zero (h : IsEigenbasis H V values) :
    Fintype.card {i // values i ≠ 0} = H.rank := by
  have hV : IsUnit V.det := isUnit_det_of_left_inverse h.orthonormal
  have hadjoint : IsUnit Vᴴ.det := isUnit_det_of_left_inverse h.complete
  rw [h.spectral, rank_mul_eq_left_of_isUnit_det _ _ hadjoint,
    rank_mul_eq_right_of_isUnit_det _ _ hV, Matrix.rank_diagonal]
  simp

/-- The eigenvalues add up to the trace. -/
theorem sum_values (h : IsEigenbasis H V values) : ∑ i, values i = H.trace.re := by
  rw [h.spectral, trace_mul_comm, ← Matrix.mul_assoc, h.orthonormal, Matrix.one_mul,
    trace_diagonal, Complex.re_sum]
  rfl

/-- No eigenvalue of a positive semidefinite matrix is above the trace. -/
theorem le_trace (h : IsEigenbasis H V values) (hH : H.PosSemidef) (i : Fin n) :
    values i ≤ H.trace.re := by
  rw [← h.sum_values]
  exact Finset.single_le_sum (fun j _ => h.nonneg hH j) (Finset.mem_univ i)

/-! ## Two eigenbases of one matrix -/

/-- Eigenvectors for different eigenvalues are orthogonal, also across two bases. -/
theorem overlap_eq_zero (h : IsEigenbasis H V values) (h' : IsEigenbasis H V' values')
    {i j : Fin n} (hne : values i ≠ values' j) : (Vᴴ * V') i j = 0 := by
  have hleft : Vᴴ * H = diagonal (fun i => (values i : ℂ)) * Vᴴ := by
    conv_lhs => rw [h.spectral]
    rw [← Matrix.mul_assoc, ← Matrix.mul_assoc, h.orthonormal, Matrix.one_mul]
  have hboth : diagonal (fun i => (values i : ℂ)) * (Vᴴ * V') =
      Vᴴ * V' * diagonal fun i => (values' i : ℂ) := by
    rw [← Matrix.mul_assoc, ← hleft, Matrix.mul_assoc, h'.eigen, ← Matrix.mul_assoc]
  have hentry := congrFun (congrFun hboth i) j
  rw [diagonal_mul, mul_diagonal] at hentry
  have hfactor : ((values i : ℂ) - values' j) * (Vᴴ * V') i j = 0 := by
    rw [sub_mul, hentry, mul_comm, sub_self]
  refine (mul_eq_zero.mp hfactor).resolve_left fun hzero => hne ?_
  exact_mod_cast sub_eq_zero.mp hzero

/-- Eigenvectors for a set of eigenvalues that differ from all others span the same space
in every eigenbasis: two choices differ by a unitary matrix. -/
theorem exists_unitary (h : IsEigenbasis H V values) (h' : IsEigenbasis H V' values) {ι : Type}
    [Fintype ι] [DecidableEq ι] {e : ι → Fin n} (he : Function.Injective e)
    (hgap : ∀ i ∉ Set.range e, ∀ a, values i ≠ values (e a)) :
    ∃ Q : Matrix ι ι ℂ, Qᴴ * Q = 1 ∧ V'.submatrix id e = V.submatrix id e * Q := by
  have hoverlap : ∀ i ∉ Set.range e, ∀ a, (Vᴴ * V') i (e a) = 0 := fun i hi a =>
    h.overlap_eq_zero h' (hgap i hi a)
  have hcolumns := columns_eq_mul h.orthonormal he hoverlap
  refine ⟨(Vᴴ * V').submatrix e e, ?_, hcolumns⟩
  have hU := orthonormal_columns h.orthonormal he
  have hU' := orthonormal_columns h'.orthonormal he
  rw [hcolumns, conjTranspose_mul, Matrix.mul_assoc, ← Matrix.mul_assoc (V.submatrix id e)ᴴ, hU,
    Matrix.one_mul] at hU'
  exact hU'

/-- Eigenpairs may be listed in any order. -/
theorem reorder (h : IsEigenbasis H V values) (e : Equiv.Perm (Fin n)) :
    IsEigenbasis H (V.submatrix id e) (values ∘ e) where
  orthonormal := orthonormal_columns h.orthonormal e.injective
  eigen := by
    ext i j
    have hentry := congrFun (congrFun h.eigen i) (e j)
    rw [mul_diagonal] at hentry ⊢
    exact hentry

/-- Scaling a matrix and adding a multiple of the identity does the same to the eigenvalues. -/
theorem rescale (h : IsEigenbasis H V values) (s t : ℝ) :
    IsEigenbasis ((s : ℂ) • H + (t : ℂ) • 1) V fun i => s * values i + t where
  orthonormal := h.orthonormal
  eigen := by
    have hdiagonal : (diagonal fun i => ((s * values i + t : ℝ) : ℂ)) =
        (s : ℂ) • diagonal (fun i => (values i : ℂ)) + (t : ℂ) • 1 := by
      rw [smul_one_eq_diagonal, ← diagonal_smul, diagonal_add]
      congr 1
      funext i
      rw [Complex.ofReal_add, Complex.ofReal_mul]
      rfl
    rw [hdiagonal, Matrix.add_mul, Matrix.mul_add, Matrix.smul_mul, Matrix.smul_mul,
      Matrix.mul_smul, Matrix.mul_smul, h.eigen, Matrix.one_mul, Matrix.mul_one]

/-- Taking a load away lowers every eigenvalue by it. -/
theorem unload {s : ℝ} (h : IsEigenbasis (H + (s : ℂ) • 1) V values) :
    IsEigenbasis H V fun i => values i - s := by
  have hmatrix : ((1 : ℝ) : ℂ) • (H + (s : ℂ) • 1) + ((-s : ℝ) : ℂ) • 1 = H := by
    push_cast
    rw [one_smul, neg_smul, add_neg_cancel_right]
  have hvalues : (fun i => 1 * values i + -s) = fun i => values i - s := by
    funext i
    ring
  have hrescaled := h.rescale 1 (-s)
  rwa [hmatrix, hvalues] at hrescaled

/-- What a matrix lacks to the identity has the eigenvalues that its own lack to one. -/
theorem lack (h : IsEigenbasis H V values) : IsEigenbasis (1 - H) V fun i => 1 - values i := by
  have hmatrix : ((-1 : ℝ) : ℂ) • H + ((1 : ℝ) : ℂ) • 1 = 1 - H := by
    push_cast
    rw [neg_one_smul, one_smul, neg_add_eq_sub]
  have hvalues : (fun i => -1 * values i + 1) = fun i => 1 - values i := by
    funext i
    ring
  have hrescaled := h.rescale (-1) 1
  rwa [hmatrix, hvalues] at hrescaled

/-- An eigenbasis of a matrix is one of the products of its columns. -/
theorem gram (h : IsEigenbasis H V values) : IsEigenbasis (Hᴴ * H) V fun i => values i ^ 2 where
  orthonormal := h.orthonormal
  eigen := by
    have hsquares : (diagonal fun i => ((values i ^ 2 : ℝ) : ℂ)) =
        diagonal (fun i => (values i : ℂ)) * diagonal fun i => (values i : ℂ) := by
      rw [diagonal_mul_diagonal]
      congr 1
      funext i
      rw [pow_two, Complex.ofReal_mul]
    rw [h.isHermitian.eq, Matrix.mul_assoc, h.eigen, ← Matrix.mul_assoc, h.eigen, Matrix.mul_assoc,
      hsquares]

/-- A unitary change of coordinates carries eigenbases along. -/
theorem conj (h : IsEigenbasis H V values) {P : Matrix (Fin n) (Fin n) ℂ} (hP : Pᴴ * P = 1) :
    IsEigenbasis (Pᴴ * (H * P)) (Pᴴ * V) values := by
  have hcomplete : P * Pᴴ = 1 := mul_eq_one_comm.mp hP
  constructor
  · rw [conjTranspose_mul, conjTranspose_conjTranspose, Matrix.mul_assoc, ← Matrix.mul_assoc P,
      hcomplete, Matrix.one_mul, h.orthonormal]
  · rw [Matrix.mul_assoc, Matrix.mul_assoc, ← Matrix.mul_assoc P, hcomplete, Matrix.one_mul,
      h.eigen, Matrix.mul_assoc]

end IsEigenbasis

end PhasedArray
