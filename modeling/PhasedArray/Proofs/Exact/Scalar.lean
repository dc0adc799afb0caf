import Mathlib.Analysis.SpecialFunctions.Complex.Arg
import Mathlib.Analysis.SpecialFunctions.Log.Base
import Mathlib.Data.Int.Log
import PhasedArray.Scalar

set_option autoImplicit false

/-!
# Exact arithmetic: the real numbers as scalars

The formulas of this library are written over any type with the operations of
`Scalar`.  This module reads them over the real numbers, where every operation is
exact, every value is finite and every value has a place in the order.  Statements
about angles, subspaces and spectra are statements about this reading.

Rounding remains where a formula asks for it: `roundEven`, `truncate`, `modulo` and
`short` are the exact functions that those words name.

The last part is about the first place of a greatest value, which the scan of a list and the
runs of the optimizer both keep track of.
-/

namespace PhasedArray

/-- Scalars of which every whole number is a finite one. -/
class Scalar.HoldsWholes (α : Type) [Scalar α] : Prop where
  isFinite_ofInt (i : ℤ) : Scalar.isFinite (Scalar.ofInt i : α) = true

namespace Exact

/-- The nearest whole number; halves go to the even neighbour. -/
noncomputable def roundEven (x : ℝ) : ℝ :=
  if Int.fract x < 0.5 then ⌊x⌋
  else if 0.5 < Int.fract x then ⌊x⌋ + 1
  else if Even ⌊x⌋ then ⌊x⌋
  else ⌊x⌋ + 1

/-- The remainder of `x` by `y`, with the sign of `y`. -/
noncomputable def modulo (x y : ℝ) : ℝ := x - y * ⌊x / y⌋

/-- The whole number next to `x` on the side of zero. -/
noncomputable def truncate (x : ℝ) : ℤ := if 0 ≤ x then ⌊x⌋ else ⌈x⌉

/-- The distance between neighbouring numbers of eleven binary digits around `x`. -/
noncomputable def shortUnit (x : ℝ) : ℝ := ((2 : ℕ) : ℝ) ^ max (Int.log 2 |x| - 10) (-24)

/-- The nearest number of eleven binary digits. -/
noncomputable def short (x : ℝ) : ℝ := roundEven (x / shortUnit x) * shortUnit x

/-- The real numbers as scalars. -/
noncomputable instance : Scalar ℝ where
  zero := 0
  one := 1
  ofNat n := n
  ofScientific digits negative exponent := OfScientific.ofScientific digits negative exponent
  add x y := x + y
  sub x y := x - y
  mul x y := x * y
  div x y := x / y
  neg x := -x
  lt x y := x < y
  le x y := x ≤ y
  decLt x y := inferInstanceAs (Decidable (x < y))
  decLe x y := inferInstanceAs (Decidable (x ≤ y))
  isFinite _ := true
  pi := Real.pi
  sqrt := Real.sqrt
  exp := Real.exp
  log := Real.log
  log10 := Real.logb 10
  pow b x := b ^ x
  sin := Real.sin
  cos := Real.cos
  arcsin := Real.arcsin
  atan2 y x := Complex.arg ⟨x, y⟩
  hypot x y := Real.sqrt (x ^ 2 + y ^ 2)
  roundEven := roundEven
  modulo := modulo
  truncate := truncate
  short := short

/-! ## Primitive operations -/

@[simp] theorem scalar_isFinite (x : ℝ) : Scalar.isFinite x = true := rfl

@[simp] theorem scalar_ofNat (n : ℕ) : (Scalar.ofNat n : ℝ) = n := rfl

@[simp] theorem scalar_pi : (Scalar.pi : ℝ) = Real.pi := rfl

@[simp] theorem scalar_sin (x : ℝ) : Scalar.sin x = Real.sin x := rfl

@[simp] theorem scalar_cos (x : ℝ) : Scalar.cos x = Real.cos x := rfl

@[simp] theorem scalar_arcsin (x : ℝ) : Scalar.arcsin x = Real.arcsin x := rfl

/-! ## Derived operations -/

@[simp] theorem scalar_ofInt (i : ℤ) : (Scalar.ofInt i : ℝ) = i := by
  cases i with
  | ofNat n => simp [Scalar.ofInt]
  | negSucc n => simp [Scalar.ofInt]

instance : Scalar.HoldsWholes ℝ := ⟨fun _ => rfl⟩

/-- No real number is undefined. -/
@[simp] theorem scalar_isNaN (x : ℝ) : Scalar.isNaN x = false := by
  simp [Scalar.isNaN]

@[simp] theorem scalar_abs (x : ℝ) : Scalar.abs x = |x| := by
  unfold Scalar.abs
  split_ifs with h
  · exact (abs_of_neg h).symm
  · exact (abs_of_nonneg (not_lt.mp h)).symm

@[simp] theorem scalar_sq (x : ℝ) : Scalar.sq x = x ^ 2 := (pow_two x).symm

@[simp] theorem scalar_maxNaN (x y : ℝ) : Scalar.maxNaN x y = max x y := by
  unfold Scalar.maxNaN
  simp only [scalar_isNaN, Bool.false_eq_true, if_false]
  split_ifs with h
  · exact (max_eq_right h.le).symm
  · exact (max_eq_left (not_lt.mp h)).symm

/-- The arcsine is constant beyond the ends that a value is held between. -/
theorem arcsin_clamp (x : ℝ) : Real.arcsin (Scalar.clamp (-1) 1 x) = Real.arcsin x := by
  unfold Scalar.clamp
  split_ifs with hlow hhigh
  · rw [Real.arcsin_neg_one, Real.arcsin_of_le_neg_one hlow.le]
  · rw [Real.arcsin_one, Real.arcsin_of_one_le hhigh.le]
  · rfl

/-! ## Sums and ascending order -/

@[simp] theorem scalar_sum (xs : List ℝ) : Scalar.sum xs = xs.sum := List.sum_eq_foldl.symm

theorem scalar_mean (xs : List ℝ) : Scalar.mean xs = xs.sum / xs.length := by
  rw [Scalar.mean, scalar_sum]
  rfl

theorem scalar_sortLe (x y : ℝ) : Scalar.sortLe x y = decide (x ≤ y) := by
  rw [Scalar.sortLe, scalar_isNaN, Bool.or_false]

theorem sorted_perm (xs : List ℝ) : (Scalar.sorted xs).Perm xs := List.mergeSort_perm xs _

theorem sorted_pairwise (xs : List ℝ) : (Scalar.sorted xs).Pairwise (· ≤ ·) := by
  have hsorted : (Scalar.sorted xs).Pairwise fun x y => Scalar.sortLe x y = true := by
    apply List.pairwise_mergeSort
    · intro a b c hab hbc
      rw [scalar_sortLe, decide_eq_true_eq] at *
      exact hab.trans hbc
    · intro a b
      simpa [scalar_sortLe] using le_total a b
  simpa only [scalar_sortLe, decide_eq_true_eq] using hsorted

/-- There is one ascending order of given values. -/
theorem sorted_eq_of_perm {xs ys : List ℝ} (hperm : ys.Perm xs) (hys : ys.Pairwise (· ≤ ·)) :
    Scalar.sorted xs = ys :=
  ((sorted_perm xs).trans hperm.symm).eq_of_pairwise' (sorted_pairwise xs) hys

theorem sorted_congr {xs ys : List ℝ} (h : xs.Perm ys) : Scalar.sorted xs = Scalar.sorted ys :=
  sorted_eq_of_perm ((sorted_perm ys).trans h.symm) (sorted_pairwise ys)

/-! ## Largest values, descending order -/

theorem maximum_eq_max (xs : List ℝ) : Scalar.maximum? xs = xs.max? := by
  have hstep : (Scalar.maxNaN : ℝ → ℝ → ℝ) = max := by
    funext x y
    exact scalar_maxNaN x y
  cases xs with
  | nil => rfl
  | cons x xs => rw [Scalar.maximum?, List.max?, hstep]

/-- The largest magnitude, zero for no value. -/
theorem maximum_abs_nonneg (xs : List ℝ) :
    0 ≤ (Scalar.maximum? (xs.map Scalar.abs)).getD 0 := by
  rw [maximum_eq_max]
  cases hmax : (xs.map Scalar.abs).max? with
  | none => exact le_rfl
  | some v =>
    obtain ⟨x, -, rfl⟩ := List.mem_map.mp (List.max?_mem hmax)
    rw [scalar_abs]
    exact abs_nonneg x

section Descending

variable {ι β : Type} [LinearOrder β] (f : ι → β)

/-- The test that `a` has at least the value of `b`, as sorting takes it, is transitive. -/
theorem descending_trans (a b c : ι) (hab : decide (f b ≤ f a)) (hbc : decide (f c ≤ f b)) :
    decide (f c ≤ f a) := by
  simp only [decide_eq_true_eq] at *
  exact hbc.trans hab

/-- It holds of any two places in one order or the other. -/
theorem descending_total (a b : ι) : decide (f b ≤ f a) || decide (f a ≤ f b) := by
  simpa using le_total (f b) (f a)

/-- Sorting looks at values only: places of one value keep their order. -/
theorem filter_descending {l : List ι} {p : ι → Bool}
    (hp : ∀ a, p a → ∀ b, p b → f b ≤ f a) :
    (l.mergeSort fun a b => decide (f b ≤ f a)).filter p = l.filter p := by
  have hstable : (l.filter p).Sublist (l.mergeSort fun a b => decide (f b ≤ f a)) := by
    apply List.sublist_mergeSort (descending_trans f) (descending_total f)
    · apply List.pairwise_of_forall_mem_list
      intro a ha b hb
      exact decide_eq_true (hp a (List.of_mem_filter ha) b (List.of_mem_filter hb))
    · exact List.filter_sublist
  have hsub := hstable.filter p
  rw [List.filter_filter, List.filter_congr fun a _ => Bool.and_self (p a)] at hsub
  exact (hsub.eq_of_length ((List.mergeSort_perm l _).filter p).length_eq.symm).symm

/-- After sorting, larger values stand first, and places of one value as they stood. -/
theorem descending_pairwise {l : List ι} {R : ι → ι → Prop} (hl : l.Pairwise R) :
    (l.mergeSort fun a b => decide (f b ≤ f a)).Pairwise fun a b =>
      f b < f a ∨ f a = f b ∧ R a b := by
  rw [List.pairwise_iff_forall_sublist]
  intro a b hab
  have hle : f b ≤ f a := of_decide_eq_true (List.pairwise_iff_forall_sublist.mp
    (List.pairwise_mergeSort (descending_trans f) (descending_total f) l) hab)
  rcases hle.lt_or_eq with hless | hequal
  · exact .inl hless
  · have hplaces : [a, b].Sublist (l.filter fun c => decide (f c = f a)) := by
      rw [← filter_descending f fun c hc d hd => by
        rw [of_decide_eq_true hc, of_decide_eq_true hd]]
      simpa [hequal] using hab.filter fun c => decide (f c = f a)
    exact .inr ⟨hequal.symm,
      List.pairwise_iff_forall_sublist.mp hl (hplaces.trans List.filter_sublist)⟩

end Descending

end Exact

/-! ## First places of greatest values -/

/-- Among the values up to place `n`, that of place `b` is the greatest, and no earlier one is
as great. -/
structure IsFirstMax (f : ℕ → ℝ) (n b : ℕ) : Prop where
  le : b ≤ n
  max : ∀ i ≤ n, f i ≤ f b
  first : ∀ i < b, f i < f b

namespace IsFirstMax

variable {f : ℕ → ℝ} {n b : ℕ}

theorem zero (f : ℕ → ℝ) : IsFirstMax f 0 0 where
  le := le_rfl
  max i hi := by rw [Nat.le_zero.mp hi]
  first i hi := absurd hi (Nat.not_lt_zero i)

/-- A next value that is no greater changes nothing. -/
theorem keep (h : IsFirstMax f n b) (hnext : f (n + 1) ≤ f b) : IsFirstMax f (n + 1) b where
  le := h.le.trans (Nat.le_succ n)
  max i hi := by
    rcases Nat.le_succ_iff.mp hi with hearlier | rfl
    · exact h.max i hearlier
    · exact hnext
  first := h.first

/-- A next value that is greater takes over. -/
theorem replace (h : IsFirstMax f n b) (hnext : f b < f (n + 1)) :
    IsFirstMax f (n + 1) (n + 1) where
  le := le_rfl
  max i hi := by
    rcases Nat.le_succ_iff.mp hi with hearlier | rfl
    · exact (h.max i hearlier).trans hnext.le
    · exact le_rfl
  first i hi := (h.max i (Nat.lt_succ_iff.mp hi)).trans_lt hnext

/-- The scan of the rest of a list keeps to the first greatest value. -/
theorem scan (h : IsFirstMax f n b) (xs : List ℝ)
    (hf : ∀ j (hj : j < xs.length), xs[j] = f (n + 1 + j)) :
    IsFirstMax f (n + xs.length) (Scalar.argmaxFrom b (f b) (n + 1) xs) := by
  induction xs generalizing n b with
  | nil => exact h
  | cons x xs ih =>
    have hx : x = f (n + 1) := hf 0 (Nat.succ_pos _)
    have hrest : ∀ j (hj : j < xs.length), xs[j] = f (n + 1 + 1 + j) := by
      intro j hj
      rw [Nat.add_right_comm (n + 1)]
      exact hf (j + 1) (Nat.succ_lt_succ hj)
    have hbeats : Scalar.beats (f (n + 1)) (f b) = decide (f b < f (n + 1)) := by
      simp [Scalar.beats]
    rw [List.length_cons, ← Nat.add_assoc, Nat.add_right_comm, Scalar.argmaxFrom, hx, hbeats]
    by_cases hgreater : f b < f (n + 1)
    · rw [if_pos (decide_eq_true hgreater)]
      exact ih (h.replace hgreater) hrest
    · rw [if_neg (by simpa using hgreater)]
      exact ih (h.keep (not_lt.mp hgreater)) hrest

end IsFirstMax

/-- The place of the greatest value in a list. -/
theorem isFirstMax_argmax {xs : List ℝ} {i : ℕ} (h : Scalar.argmax? xs = some i) :
    IsFirstMax (fun j => xs.getD j 0) (xs.length - 1) i := by
  cases xs with
  | nil => cases h
  | cons x xs =>
    have hscan := (IsFirstMax.zero fun j => (x :: xs).getD j 0).scan xs (by
      intro j hj
      simp [Nat.add_comm 1 j, hj])
    rw [Nat.zero_add] at hscan
    rw [← Option.some.inj h]
    exact hscan

end PhasedArray
