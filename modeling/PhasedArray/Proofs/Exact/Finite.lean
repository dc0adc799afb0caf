import PhasedArray.AngleError
import PhasedArray.Covariance
import PhasedArray.Proofs.Exact.Extended
import PhasedArray.Rotation

set_option autoImplicit false

/-!
# Exact arithmetic: what stays finite

Sums and products of finite values are finite, and so are their quotients by positive values,
be those infinite: in exact arithmetic only a quotient by zero leads out of the finite values,
and a function outside its domain.  Hence finite matrices have finite products, finite samples
a finite covariance, and sets of finite angles of one size a finite error.
-/

namespace PhasedArray

/-! ## Entries -/

/-- What holds of zero and of the sums of two values it holds of holds of their sums. -/
theorem total_induction {β : Type} [Zero β] [Add β] (P : β → Prop) (zero : P 0)
    (add : ∀ x y, P x → P y → P (x + y)) {n : ℕ} {f : Fin n → β} (h : ∀ i, P (f i)) :
    P (total n f) := by
  unfold total
  induction n with
  | zero => rwa [Fin.foldl_zero]
  | succ n ih =>
    rw [Fin.foldl_succ_last]
    exact add _ _ (ih fun i => h i.castSucc) (h (Fin.last n))

section Entries

variable {α : Type} [Scalar α] {m n : ℕ}

theorem Cplx.isFinite_iff {z : Cplx α} :
    z.isFinite = true ↔ Scalar.isFinite z.re = true ∧ Scalar.isFinite z.im = true := by
  rw [Cplx.isFinite, Bool.and_eq_true]

theorem Mat.isFinite_iff {A : Mat (Cplx α) m n} :
    A.isFinite = true ↔ ∀ i j, (A i j).isFinite = true := by
  unfold Mat.isFinite Mat.all
  rw [Vector.all_eq_true]
  constructor
  · intro h i j
    exact Vector.all_eq_true.mp (h i i.isLt) j j.isLt
  · intro h i hi
    rw [Vector.all_eq_true]
    exact fun j hj => h ⟨i, hi⟩ ⟨j, hj⟩

end Entries

namespace Extended

variable {x y : Extended}

/-! ## Scalars -/

theorem isFinite_one : Scalar.isFinite (1 : Extended) = true := rfl

theorem isFinite_add (hx : Scalar.isFinite x = true) (hy : Scalar.isFinite y = true) :
    Scalar.isFinite (x + y) = true := by
  obtain ⟨r, rfl⟩ := isFinite_iff.mp hx
  obtain ⟨t, rfl⟩ := isFinite_iff.mp hy
  rfl

theorem isFinite_neg (hx : Scalar.isFinite x = true) : Scalar.isFinite (-x) = true := by
  obtain ⟨r, rfl⟩ := isFinite_iff.mp hx
  rfl

theorem isFinite_sub (hx : Scalar.isFinite x = true) (hy : Scalar.isFinite y = true) :
    Scalar.isFinite (x - y) = true :=
  isFinite_add hx (isFinite_neg hy)

theorem isFinite_mul (hx : Scalar.isFinite x = true) (hy : Scalar.isFinite y = true) :
    Scalar.isFinite (x * y) = true := by
  obtain ⟨r, rfl⟩ := isFinite_iff.mp hx
  obtain ⟨t, rfl⟩ := isFinite_iff.mp hy
  rfl

/-- A value above zero is a positive number or infinite. -/
theorem pos_iff : 0 < x ↔ (∃ r : ℝ, 0 < r ∧ x = finite r) ∨ x = infinite false := by
  constructor
  · intro h
    cases x with
    | finite r => exact .inl ⟨r, finite_lt.mp h, rfl⟩
    | infinite s =>
      cases s with
      | false => exact .inr rfl
      | true => exact absurd h.1 id
    | undefined => exact absurd h.1 id
  · rintro (⟨r, hr, rfl⟩ | rfl)
    · exact finite_lt.mpr hr
    · exact ⟨trivial, id⟩

theorem pos_of_le (hx : 0 < x) (h : x ≤ y) : 0 < y := by
  rcases pos_iff.mp hx with ⟨r, hr, rfl⟩ | rfl
  · cases y with
    | finite t => exact finite_lt.mpr (hr.trans_le h)
    | infinite s =>
      cases s with
      | false => exact pos_iff.mpr (.inr rfl)
      | true => exact absurd h id
    | undefined => exact absurd h id
  · cases y with
    | finite t => exact absurd h id
    | infinite s =>
      cases s with
      | false => exact hx
      | true => exact absurd h id
    | undefined => exact absurd h id

theorem pos_mul (hx : 0 < x) (hy : 0 < y) : 0 < x * y := by
  rw [pos_iff]
  rcases pos_iff.mp hx with ⟨r, hr, rfl⟩ | rfl
  · rcases pos_iff.mp hy with ⟨t, ht, rfl⟩ | rfl
    · exact .inl ⟨r * t, mul_pos hr ht, rfl⟩
    · right
      change mul (finite r) (infinite false) = _
      rw [mul, if_neg hr.ne', decide_eq_false hr.not_gt]
      rfl
  · rcases pos_iff.mp hy with ⟨t, ht, rfl⟩ | rfl
    · right
      change mul (infinite false) (finite t) = _
      rw [mul, if_neg ht.ne', decide_eq_false ht.not_gt]
      rfl
    · exact .inr rfl

/-- A finite value divided by a positive one is finite. -/
theorem isFinite_div (hx : Scalar.isFinite x = true) (hy : 0 < y) :
    Scalar.isFinite (x / y) = true := by
  obtain ⟨r, rfl⟩ := isFinite_iff.mp hx
  rcases pos_iff.mp hy with ⟨t, ht, rfl⟩ | rfl
  · rw [finite_div ht.ne', finite_isFinite]
  · rfl

/-- Held between minus one and one, a finite value is the sine of a finite angle. -/
theorem isFinite_arcsin_clamp (hx : Scalar.isFinite x = true) :
    Scalar.isFinite (Scalar.arcsin (Scalar.clamp (-1) 1 x)) = true := by
  obtain ⟨r, rfl⟩ := isFinite_iff.mp hx
  have harcsin : ∀ t ∈ Set.Icc (-1 : ℝ) 1, Scalar.isFinite (Scalar.arcsin (finite t)) = true := by
    intro t ht
    change isFinite (arcsin (finite t)) = true
    rw [arcsin, if_pos ht]
    rfl
  unfold Scalar.clamp
  simp only [one_eq, finite_neg, finite_lt]
  split_ifs with hlow hhigh
  · exact harcsin (-1) ⟨le_rfl, by norm_num⟩
  · exact harcsin 1 ⟨by norm_num, le_rfl⟩
  · exact harcsin r ⟨not_lt.mp hlow, not_lt.mp hhigh⟩

/-! ## Lists of finite values -/

theorem exists_map_finite {xs : List Extended} (h : ∀ x ∈ xs, Scalar.isFinite x = true) :
    ∃ rs : List ℝ, xs = rs.map finite := by
  induction xs with
  | nil => exact ⟨[], rfl⟩
  | cons x xs ih =>
    obtain ⟨r, rfl⟩ := isFinite_iff.mp (h x List.mem_cons_self)
    obtain ⟨rs, rfl⟩ := ih fun y hy => h y (List.mem_cons_of_mem _ hy)
    exact ⟨r :: rs, rfl⟩

theorem sum_map_finite (rs : List ℝ) : Scalar.sum (rs.map finite) = finite rs.sum := by
  have hfold : ∀ start : ℝ,
      (rs.map finite).foldl (· + ·) (finite start) = finite (start + rs.sum) := by
    induction rs with
    | nil =>
      intro start
      rw [List.sum_nil, add_zero]
      rfl
    | cons r rs ih =>
      intro start
      rw [List.map_cons, List.foldl_cons, finite_add, ih, List.sum_cons, add_assoc]
  rw [Scalar.sum, zero_eq, hfold, zero_add]

theorem mean_map_finite {rs : List ℝ} (h : rs ≠ []) :
    Scalar.mean (rs.map finite) = finite (rs.sum / rs.length) := by
  have hlength : (rs.length : ℝ) ≠ 0 := Nat.cast_ne_zero.mpr (List.length_pos_of_ne_nil h).ne'
  rw [Scalar.mean, sum_map_finite, List.length_map, ofNat_eq, finite_div hlength]

theorem squares_map_finite (rs ts : List ℝ) :
    AngleError.squares (rs.map finite) (ts.map finite) =
      (List.zipWith (fun r t => (r - t) ^ 2) rs ts).map finite := by
  rw [AngleError.squares, List.zipWith_map, List.map_zipWith]
  congr 1
  funext r t
  rw [finite_sub, Scalar.sq, finite_mul, sq]

/-- Sets of as many finite angles, if there are any, have a finite error. -/
theorem exists_between_eq_rms {estimated actual : List Extended}
    (hestimated : ∀ x ∈ estimated, Scalar.isFinite x = true)
    (hactual : ∀ x ∈ actual, Scalar.isFinite x = true)
    (hlength : estimated.length = actual.length) (hne : actual ≠ []) :
    ∃ r : ℝ, AngleError.between estimated actual = .rms (finite r) := by
  have hsorted : ∀ xs : List Extended, (∀ x ∈ xs, Scalar.isFinite x = true) →
      ∃ rs : List ℝ, Scalar.sorted xs = rs.map finite ∧ rs.length = xs.length := by
    intro xs hxs
    have hmember : ∀ x ∈ Scalar.sorted xs, Scalar.isFinite x = true :=
      fun x hx => hxs x (List.mem_mergeSort.mp hx)
    obtain ⟨rs, hrs⟩ := exists_map_finite hmember
    refine ⟨rs, hrs, ?_⟩
    rw [← List.length_map finite, ← hrs, Scalar.sorted, List.length_mergeSort]
  obtain ⟨rs, hrs, hrslength⟩ := hsorted estimated hestimated
  obtain ⟨ts, hts, htslength⟩ := hsorted actual hactual
  have hsquares : List.zipWith (fun r t => (r - t) ^ 2) rs ts ≠ [] := by
    rw [← List.length_pos_iff, List.length_zipWith, hrslength, htslength, hlength, min_self]
    exact List.length_pos_of_ne_nil hne
  have hnonneg : 0 ≤ (List.zipWith (fun r t => (r - t) ^ 2) rs ts).sum := by
    apply List.sum_nonneg
    intro x hx
    obtain ⟨i, hi, rfl⟩ := List.mem_iff_getElem.mp hx
    rw [List.getElem_zipWith]
    exact sq_nonneg _
  unfold AngleError.between
  rw [if_pos hlength, if_neg (by rwa [List.isEmpty_iff]), hrs, hts, squares_map_finite,
    mean_map_finite hsquares, finite_sqrt (div_nonneg hnonneg (Nat.cast_nonneg _))]
  exact ⟨_, rfl⟩

end Extended

/-- The error of sets of different size is infinite. -/
theorem AngleError.value_unmatched :
    (unmatched : AngleError Extended).value = .infinite false := Extended.one_div_zero

/-! ## Complex numbers -/

namespace Cplx

open Extended

variable {z w : Cplx Extended}

theorem isFinite_zero : (0 : Cplx Extended).isFinite = true := rfl

theorem isFinite_ofReal {x : Extended} (hx : Scalar.isFinite x = true) :
    (ofReal x).isFinite = true :=
  isFinite_iff.mpr ⟨hx, rfl⟩

theorem isFinite_add (hz : z.isFinite = true) (hw : w.isFinite = true) :
    (z + w).isFinite = true := by
  rw [isFinite_iff] at *
  exact ⟨Extended.isFinite_add hz.1 hw.1, Extended.isFinite_add hz.2 hw.2⟩

theorem isFinite_neg (hz : z.isFinite = true) : (-z).isFinite = true := by
  rw [isFinite_iff] at *
  exact ⟨Extended.isFinite_neg hz.1, Extended.isFinite_neg hz.2⟩

theorem isFinite_conj (hz : z.isFinite = true) : z.conj.isFinite = true := by
  rw [isFinite_iff] at *
  exact ⟨hz.1, Extended.isFinite_neg hz.2⟩

theorem isFinite_mul (hz : z.isFinite = true) (hw : w.isFinite = true) :
    (z * w).isFinite = true := by
  rw [isFinite_iff] at *
  exact ⟨Extended.isFinite_sub (Extended.isFinite_mul hz.1 hw.1) (Extended.isFinite_mul hz.2 hw.2),
    Extended.isFinite_add (Extended.isFinite_mul hz.1 hw.2) (Extended.isFinite_mul hz.2 hw.1)⟩

theorem isFinite_cis {x : Extended} (hx : Scalar.isFinite x = true) :
    (cis x).isFinite = true := by
  obtain ⟨r, rfl⟩ := Extended.isFinite_iff.mp hx
  rfl

theorem isFinite_arg (hz : z.isFinite = true) : Scalar.isFinite z.arg = true := by
  obtain ⟨x, y⟩ := z
  rw [isFinite_iff] at hz
  obtain ⟨⟨r, rfl⟩, ⟨t, rfl⟩⟩ := hz.imp Extended.isFinite_iff.mp Extended.isFinite_iff.mp
  rfl

theorem isFinite_divReal (hz : z.isFinite = true) {r : ℝ} (hr : 0 < r) :
    (z.divReal (finite r)).isFinite = true := by
  rw [isFinite_iff] at hz
  obtain ⟨x, y⟩ := z
  obtain ⟨⟨a, rfl⟩, ⟨b, rfl⟩⟩ := hz.imp Extended.isFinite_iff.mp Extended.isFinite_iff.mp
  have hbranch : Scalar.abs (0 : Extended) ≤ Scalar.abs (finite r) := by
    simp only [Scalar.abs, zero_eq, finite_lt, lt_irrefl, if_false, if_neg hr.not_gt, finite_le,
      hr.le]
  have hquot : (0 : Extended) / finite r = finite 0 := by rw [zero_eq, finite_div hr.ne', zero_div]
  unfold divReal quot
  rw [ofReal, if_pos hbranch]
  dsimp only
  rw [hquot]
  simp only [zero_eq, one_eq, finite_mul, finite_add, finite_sub, mul_zero, add_zero, sub_zero,
    finite_div hr.ne']
  rfl

end Cplx

/-! ## Matrices -/

namespace Mat

variable {m n p : ℕ} {A B : Mat (Cplx Extended) m n}

theorem isFinite_of {f : Fin m → Fin n → Cplx Extended} (h : ∀ i j, (f i j).isFinite = true) :
    (of f).isFinite = true :=
  isFinite_iff.mpr fun i j => by rw [of_apply]; exact h i j

theorem isFinite_mul (hA : A.isFinite = true) {B : Mat (Cplx Extended) n p}
    (hB : B.isFinite = true) : (A * B).isFinite = true := by
  rw [isFinite_iff] at *
  intro i j
  rw [mul_apply]
  exact total_induction (fun z : Cplx Extended => z.isFinite = true) Cplx.isFinite_zero
    (fun _ _ => Cplx.isFinite_add) fun k => Cplx.isFinite_mul (hA i k) (hB k j)

theorem isFinite_add (hA : A.isFinite = true) (hB : B.isFinite = true) :
    (A + B).isFinite = true := by
  rw [isFinite_iff] at *
  exact fun i j => by rw [add_apply]; exact Cplx.isFinite_add (hA i j) (hB i j)

theorem isFinite_neg (hA : A.isFinite = true) : (-A).isFinite = true := by
  rw [isFinite_iff] at *
  exact fun i j => by rw [neg_apply]; exact Cplx.isFinite_neg (hA i j)

theorem isFinite_adjoint (hA : A.isFinite = true) : A.adjoint.isFinite = true := by
  rw [isFinite_iff] at *
  exact fun i j => by rw [adjoint_apply]; exact Cplx.isFinite_conj (hA j i)

theorem isFinite_conj (hA : A.isFinite = true) : A.conj.isFinite = true := by
  rw [isFinite_iff] at *
  exact fun i j => by rw [conj_apply]; exact Cplx.isFinite_conj (hA i j)

theorem isFinite_divReal (hA : A.isFinite = true) {r : ℝ} (hr : 0 < r) :
    (A.divReal (.finite r)).isFinite = true := by
  rw [isFinite_iff] at *
  exact fun i j => by rw [divReal_apply]; exact Cplx.isFinite_divReal (hA i j) hr

theorem isFinite_identity (n : ℕ) : (identity n : Mat (Cplx Extended) n n).isFinite = true := by
  apply isFinite_of
  intro i j
  split_ifs <;> rfl

theorem isFinite_ofUpper {A : Mat (Cplx Extended) n n} (hA : A.isFinite = true) :
    A.ofUpper.isFinite = true := by
  rw [isFinite_iff] at hA
  apply isFinite_of
  intro i j
  split_ifs
  · exact Cplx.isFinite_ofReal (Cplx.isFinite_iff.mp (hA i i)).1
  · exact hA i j
  · exact Cplx.isFinite_conj (hA j i)

end Mat

/-! ## Covariance -/

namespace Covariance

variable {m n : ℕ}

/-- Finite samples, of which there are some, have a finite covariance. -/
theorem isFinite_sample (averaging : Bool) (hn : 0 < n) {X : Mat (Cplx Extended) m n}
    (hX : X.isFinite = true) : (sample averaging X).isFinite = true := by
  have hhalf : ∀ R : Mat (Cplx Extended) m m, R.isFinite = true → (R.divReal 2).isFinite = true :=
    fun R hR => Mat.isFinite_divReal hR (Nat.cast_pos.mpr two_pos)
  have hmean : (symmetrize (outerMean X)).isFinite = true := by
    have houter : (outerMean X).isFinite = true :=
      Mat.isFinite_divReal (Mat.isFinite_mul hX (Mat.isFinite_adjoint hX)) (Nat.cast_pos.mpr hn)
    exact hhalf _ (Mat.isFinite_add houter (Mat.isFinite_adjoint houter))
  have hreversal : (reversal m : Mat (Cplx Extended) m m).isFinite = true := by
    apply Mat.isFinite_of
    intro i j
    split_ifs <;> rfl
  unfold sample
  cases averaging with
  | false => exact hmean
  | true =>
    exact hhalf _ (Mat.isFinite_add hmean (Mat.isFinite_mul
      (Mat.isFinite_mul hreversal (Mat.isFinite_conj hmean)) hreversal))

end Covariance

end PhasedArray
