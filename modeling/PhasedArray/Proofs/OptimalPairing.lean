import Mathlib.Algebra.Order.Rearrangement
import Mathlib.Data.Fin.Tuple.Sort
import PhasedArray.Proofs.Exact.Finite

set_option autoImplicit false

/-!
# The error of the best pairing (SPEC §4.6, §11)

Two sets of angles are compared by pairing them in ascending order.  No other pairing has a
smaller error: the squares of the differences add up to the least where the larger angles meet
the larger ones.  So the error depends on the two sets alone, not on the order in which they are
given nor on which of them is called the true one, and it is zero where they are the same set.
-/

namespace PhasedArray

namespace AngleError

variable {n : ℕ}

/-- The root mean square of the differences when angle `i` is paired with angle `p i`. -/
noncomputable def pairedError (e t : Fin n → ℝ) (p : Equiv.Perm (Fin n)) : ℝ :=
  √((∑ i, (e i - t (p i)) ^ 2) / n)

/-! ## The least sum of squares -/

/-- Values in ascending order differ the least from values in ascending order. -/
theorem sum_sq_sub_le {a b : Fin n → ℝ} (ha : Monotone a) (hb : Monotone b)
    (q : Equiv.Perm (Fin n)) : ∑ i, (a i - b i) ^ 2 ≤ ∑ i, (a i - b (q i)) ^ 2 := by
  have hexpand : ∀ c : Fin n → ℝ,
      ∑ i, (a i - c i) ^ 2 = ∑ i, a i ^ 2 + ∑ i, c i ^ 2 - 2 * ∑ i, a i * c i := by
    intro c
    rw [Finset.mul_sum, ← Finset.sum_add_distrib, ← Finset.sum_sub_distrib]
    exact Finset.sum_congr rfl fun i _ => by ring
  have hsquares : ∑ i, b (q i) ^ 2 = ∑ i, b i ^ 2 := Equiv.sum_comp q fun i => b i ^ 2
  have hproducts : ∑ i, a i * b (q i) ≤ ∑ i, a i * b i :=
    (ha.monovary hb).sum_mul_comp_perm_le_sum_mul
  rw [hexpand, hexpand, hsquares]
  linarith

/-- Pairing in ascending order is pairing by a permutation. -/
theorem pairedError_sort (e t : Fin n → ℝ) (σ τ : Equiv.Perm (Fin n)) :
    √((∑ i, (e (σ i) - t (τ i)) ^ 2) / n) = pairedError e t (σ.symm.trans τ) := by
  rw [pairedError, ← Equiv.sum_comp σ fun i => (e i - t ((σ.symm.trans τ) i)) ^ 2]
  simp

theorem isLeast_pairedError {e t : Fin n → ℝ} {σ τ : Equiv.Perm (Fin n)}
    (he : Monotone (e ∘ σ)) (ht : Monotone (t ∘ τ)) :
    IsLeast (Set.range (pairedError e t)) √((∑ i, (e (σ i) - t (τ i)) ^ 2) / n) := by
  refine ⟨⟨_, (pairedError_sort e t σ τ).symm⟩, ?_⟩
  rintro _ ⟨p, rfl⟩
  apply Real.sqrt_le_sqrt
  apply div_le_div_of_nonneg_right _ n.cast_nonneg
  -- a pairing of the given angles is a pairing of the sorted ones
  calc ∑ i, (e (σ i) - t (τ i)) ^ 2
      ≤ ∑ i, (e (σ i) - t (τ (((σ.trans p).trans τ.symm) i))) ^ 2 := sum_sq_sub_le he ht _
    _ = ∑ i, (e (σ i) - t (p (σ i))) ^ 2 := by simp
    _ = ∑ i, (e i - t (p i)) ^ 2 := Equiv.sum_comp σ fun i => (e i - t (p i)) ^ 2

/-! ## The error of two lists -/

theorem sorted_ofFn (e : Fin n → ℝ) :
    Scalar.sorted (List.ofFn e) = List.ofFn (e ∘ Tuple.sort e) := by
  apply Exact.sorted_eq_of_perm (Equiv.Perm.ofFn_comp_perm _ e)
  exact List.pairwise_ofFn.mpr fun i j hij => Tuple.monotone_sort e hij.le

theorem squares_ofFn (a b : Fin n → ℝ) :
    squares (List.ofFn a) (List.ofFn b) = List.ofFn fun i => (a i - b i) ^ 2 := by
  apply List.ext_getElem
  · simp [squares]
  · intro i _ _
    simp [squares]

/-- What is computed for as many angles as true ones. -/
theorem between_ofFn (e t : Fin (n + 1) → ℝ) :
    between (List.ofFn e) (List.ofFn t) =
      .rms √((∑ i, (e (Tuple.sort e i) - t (Tuple.sort t i)) ^ 2) / (n + 1 : ℕ)) := by
  have hlength : (List.ofFn e).length = (List.ofFn t).length := by simp
  have hsome : ¬(List.ofFn t).isEmpty = true := by simp
  rw [between, if_pos hlength, if_neg hsome, sorted_ofFn, sorted_ofFn, squares_ofFn,
    Exact.scalar_mean, List.sum_ofFn, List.length_ofFn]
  rfl

/-- The error does not depend on the order of the angles. -/
theorem between_congr {e e' t t' : List ℝ} (he : e.Perm e') (ht : t.Perm t') :
    between e t = between e' t' := by
  rw [between, between, Exact.sorted_congr he, Exact.sorted_congr ht, he.length_eq, ht.length_eq,
    ht.isEmpty_eq]

theorem squares_comm (xs ys : List ℝ) : squares xs ys = squares ys xs := by
  rw [squares, squares, List.zipWith_comm]
  congr 1
  funext x y
  rw [Exact.scalar_sq, Exact.scalar_sq, sub_sq_comm]

/-- Neither set is distinguished. -/
theorem between_comm (e t : List ℝ) : between e t = between t e := by
  by_cases hlength : e.length = t.length
  · have hempty : e.isEmpty = t.isEmpty := by
      rw [Bool.eq_iff_iff, List.isEmpty_iff_length_eq_zero, List.isEmpty_iff_length_eq_zero,
        hlength]
    rw [between, between, if_pos hlength, if_pos hlength.symm, hempty, squares_comm]
  · rw [between, between, if_neg hlength, if_neg (Ne.symm hlength)]

/-- There is no error exactly between lists of the same angles. -/
theorem between_eq_zero_iff (e t : Fin (n + 1) → ℝ) :
    between (List.ofFn e) (List.ofFn t) = .rms 0 ↔ (List.ofFn e).Perm (List.ofFn t) := by
  have hsum : 0 ≤ ∑ i, (e (Tuple.sort e i) - t (Tuple.sort t i)) ^ 2 :=
    Finset.sum_nonneg fun i _ => sq_nonneg _
  have hcount : ((n + 1 : ℕ) : ℝ) ≠ 0 := Nat.cast_ne_zero.mpr n.succ_ne_zero
  rw [between_ofFn, rms.injEq, Real.sqrt_eq_zero (div_nonneg hsum (Nat.cast_nonneg _)),
    div_eq_zero_iff, or_iff_left hcount, Finset.sum_eq_zero_iff_of_nonneg fun i _ => sq_nonneg _]
  constructor
  · intro hzero
    have hsame : e ∘ Tuple.sort e = t ∘ Tuple.sort t := by
      funext i
      exact sub_eq_zero.mp (pow_eq_zero_iff two_ne_zero |>.mp (hzero i (Finset.mem_univ i)))
    have hperm := Equiv.Perm.ofFn_comp_perm (Tuple.sort e) e
    rw [hsame] at hperm
    exact hperm.symm.trans (Equiv.Perm.ofFn_comp_perm _ t)
  · intro hperm i _
    have hsorted := Exact.sorted_congr hperm
    rw [sorted_ofFn, sorted_ofFn, List.ofFn_inj] at hsorted
    have hsame : e (Tuple.sort e i) = t (Tuple.sort t i) := congrFun hsorted i
    rw [hsame, sub_self, zero_pow two_ne_zero]

/-- Between as many angles as true ones the error is the least among all pairings.  It is the same
the other way round and in every order of the angles, and it is zero exactly where they are the
same.  Where their numbers differ the error is infinite. -/
theorem between_optimal :
    (∀ (n : ℕ) (e t : Fin (n + 1) → ℝ), ∃ x : ℝ,
      between (List.ofFn e) (List.ofFn t) = .rms x ∧
      IsLeast (Set.range (pairedError e t)) x ∧
      between (List.ofFn t) (List.ofFn e) = .rms x ∧
      (∀ σ τ : Equiv.Perm (Fin (n + 1)),
        between (List.ofFn (e ∘ σ)) (List.ofFn (t ∘ τ)) = .rms x) ∧
      (x = 0 ↔ (List.ofFn e).Perm (List.ofFn t))) ∧
    ∀ e t : List ℝ, e.length ≠ t.length →
      between e t = .unmatched ∧
      (between (e.map Extended.finite) (t.map Extended.finite)).value = .infinite false := by
  constructor
  · intro n e t
    have hbetween := between_ofFn e t
    refine ⟨_, hbetween, isLeast_pairedError (Tuple.monotone_sort e) (Tuple.monotone_sort t),
      (between_comm _ _).trans hbetween, fun σ τ => ?_, ?_⟩
    · exact (between_congr (σ.ofFn_comp_perm e) (τ.ofFn_comp_perm t)).trans hbetween
    · rw [← between_eq_zero_iff, hbetween, rms.injEq]
  · intro e t hlength
    have hlifted : (e.map Extended.finite).length ≠ (t.map Extended.finite).length := by
      simpa using hlength
    rw [(between_eq_unmatched_iff _ _).mpr hlifted]
    exact ⟨(between_eq_unmatched_iff e t).mpr hlength, value_unmatched⟩

/-- Two angles in another order are no error, and a third one is an infinite error. -/
theorem between_optimal_two :
    between [0.2, 0.1] [(0.1 : ℝ), 0.2] = .rms 0 ∧
    between [0.2, 0.1] [(0.1 : ℝ), 0.2, 0.3] = .unmatched ∧
    (between [.finite 0.2, .finite 0.1]
      [Extended.finite 0.1, .finite 0.2, .finite 0.3]).value = .infinite false := by
  obtain ⟨hequal, hother⟩ := between_optimal
  obtain ⟨x, hx, -, -, -, hzero⟩ := hequal 1 ![0.2, 0.1] ![0.1, 0.2]
  have hperm : (List.ofFn ![(0.2 : ℝ), 0.1]).Perm (List.ofFn ![(0.1 : ℝ), 0.2]) := by
    simpa using List.Perm.swap (0.1 : ℝ) 0.2 []
  obtain ⟨hunmatched, hinfinite⟩ := hother [0.2, 0.1] [0.1, 0.2, 0.3] (by decide)
  rw [hzero.mpr hperm] at hx
  exact ⟨by simpa using hx, hunmatched, hinfinite⟩

end AngleError

end PhasedArray
