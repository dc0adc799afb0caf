import Mathlib.Analysis.Complex.ExponentialBounds
import Mathlib.Analysis.SpecialFunctions.Log.Monotone
import PhasedArray.Proofs.Exact.Reading
import PhasedArray.SourceCount

set_option autoImplicit false

/-!
# What the information criteria weigh (SPEC §4.3)

Up to a factor that depends on the number of snapshots alone, either criterion gives a number of
sources the sum of two terms.  The misfit says how unequal the remaining eigenvalues are: it is
zero where they are equal and positive otherwise.  The charge grows with the number of sources,
and its price falls to zero as the number of snapshots grows.  The estimate is the first place at
which the sum is least.
-/

namespace PhasedArray

namespace SourceCount

/-! ## Means -/

section Means

variable {values : List ℝ} (hne : values ≠ []) (hpos : ∀ x ∈ values, 0 < x)
include hne hpos

theorem mean_pos : 0 < values.sum / values.length :=
  div_pos (List.sum_pos values hpos hne) (Nat.cast_pos.mpr (List.length_pos_of_ne_nil hne))

theorem logMeanRatio_eq : logMeanRatio values =
    (values.map Real.log).sum / values.length - Real.log (values.sum / values.length) := by
  have hmean := mean_pos hne hpos
  rw [logMeanRatio, Exact.scalar_mean, Exact.scalar_mean, List.length_map]
  change Real.log (Real.exp _ / _) = _
  rw [Real.log_div (Real.exp_ne_zero _) hmean.ne', Real.log_exp]
  rfl

end Means

theorem sum_log_scaled {values : List ℝ} (hpos : ∀ x ∈ values, 0 < x) {c : ℝ} (hc : 0 < c) :
    (values.map fun x => Real.log (c * x)).sum =
      values.length * Real.log c + (values.map Real.log).sum := by
  have hsplit : values.map (fun x => Real.log (c * x)) =
      values.map fun x => Real.log c + Real.log x :=
    List.map_congr_left fun x hx => Real.log_mul hc.ne' (hpos x hx).ne'
  rw [hsplit, List.sum_map_add, List.map_const', List.sum_replicate, nsmul_eq_mul]

/-- The ratio of the means does not depend on the unit of the values. -/
theorem logMeanRatio_scaled {values : List ℝ} (hpos : ∀ x ∈ values, 0 < x) {c : ℝ} (hc : 0 < c) :
    logMeanRatio (values.map (c * ·)) = logMeanRatio values := by
  rcases eq_or_ne values [] with rfl | hne
  · rfl
  · have hscaled : ∀ x ∈ values.map (c * ·), 0 < x :=
      List.forall_mem_map.mpr fun x hx => mul_pos hc (hpos x hx)
    have hlength : (values.length : ℝ) ≠ 0 :=
      Nat.cast_ne_zero.mpr (List.length_pos_of_ne_nil hne).ne'
    have hsum : (values.map (c * ·)).sum = c * values.sum := by
      rw [List.sum_map_mul_left, List.map_id']
    rw [logMeanRatio_eq (by simpa using hne) hscaled, logMeanRatio_eq hne hpos, List.map_map,
      Function.comp_def, sum_log_scaled hpos hc, hsum, List.length_map, mul_div_assoc,
      Real.log_mul hc.ne' (mean_pos hne hpos).ne', add_div, mul_div_cancel_left₀ _ hlength]
    ring

/-! ## The two terms -/

/-- How unequal eigenvalues are: the logarithm of the ratio of the arithmetic to the geometric
mean, once for each of them. -/
noncomputable def misfit (values : List ℝ) : ℝ := -(values.length * logMeanRatio values)

theorem misfit_eq {values : List ℝ} (hne : values ≠ []) (hpos : ∀ x ∈ values, 0 < x) :
    misfit values = values.length * Real.log (values.sum / values.length) -
      (values.map Real.log).sum := by
  have hlength : (values.length : ℝ) ≠ 0 :=
    Nat.cast_ne_zero.mpr (List.length_pos_of_ne_nil hne).ne'
  rw [misfit, logMeanRatio_eq hne hpos, mul_sub, mul_div_cancel₀ _ hlength, neg_sub]

/-- Equal eigenvalues have no misfit. -/
theorem misfit_replicate (j : ℕ) {x : ℝ} (hx : 0 < x) : misfit (List.replicate j x) = 0 := by
  rcases Nat.eq_zero_or_pos j with rfl | hj
  · simp [misfit]
  · have hne : List.replicate j x ≠ [] := by simpa using hj.ne'
    have hlength : (j : ℝ) ≠ 0 := Nat.cast_ne_zero.mpr hj.ne'
    rw [misfit_eq hne fun y hy => (List.eq_of_mem_replicate hy).symm ▸ hx]
    simp [hlength]

/-- Unequal ones have one, since the logarithm is strictly below its tangent. -/
theorem misfit_pos {values : List ℝ} (hpos : ∀ x ∈ values, 0 < x) {x y : ℝ} (hx : x ∈ values)
    (hy : y ∈ values) (hxy : x ≠ y) : 0 < misfit values := by
  have hne : values ≠ [] := List.ne_nil_of_mem hx
  have hlength : (values.length : ℝ) ≠ 0 :=
    Nat.cast_ne_zero.mpr (List.length_pos_of_ne_nil hne).ne'
  have hmean := mean_pos hne hpos
  have hmisfit := misfit_eq hne hpos
  set μ := values.sum / values.length
  obtain ⟨z, hz, hzμ⟩ : ∃ z ∈ values, z ≠ μ := by
    by_contra! hall
    exact hxy ((hall x hx).trans (hall y hy).symm)
  have hless : (values.map fun x => Real.log (μ⁻¹ * x)).sum <
      (values.map fun x => μ⁻¹ * x + -1).sum := by
    apply List.sum_lt_sum
    · intro x hx
      exact Real.log_le_sub_one_of_pos (mul_pos (inv_pos.mpr hmean) (hpos x hx))
    · refine ⟨z, hz, Real.log_lt_sub_one_of_pos (mul_pos (inv_pos.mpr hmean) (hpos z hz)) ?_⟩
      rwa [ne_eq, inv_mul_eq_one₀ hmean.ne', eq_comm]
  -- the values divided by their mean add up to their number
  have htangent : (values.map fun x => μ⁻¹ * x + -1).sum = 0 := by
    have hsum : values.sum = μ * values.length := (div_mul_cancel₀ _ hlength).symm
    rw [List.sum_map_add, List.sum_map_mul_left, List.map_id', List.map_const',
      List.sum_replicate, nsmul_eq_mul, hsum, inv_mul_cancel_left₀ hmean.ne']
    ring
  rw [sum_log_scaled hpos (inv_pos.mpr hmean), Real.log_inv, htangent] at hless
  linarith

/-- What is charged for `k` sources among `m`, but for the price. -/
def charge (m k : ℕ) : ℕ := k * (2 * m - k)

theorem charge_lt {m i k : ℕ} (hik : i < k) (hk : k ≤ m) : charge m i < charge m k := by
  obtain ⟨d, rfl⟩ := Nat.exists_eq_add_of_le hik.le
  have hd : 0 < d := by omega
  have hrest : 2 * m - i = 2 * m - (i + d) + d := by omega
  have hless : i < 2 * m - (i + d) := by omega
  calc charge m i = i * (2 * m - (i + d)) + i * d := by rw [charge, hrest, Nat.mul_add]
    _ < i * (2 * m - (i + d)) + (2 * m - (i + d)) * d := by
        exact Nat.add_lt_add_left (Nat.mul_lt_mul_of_pos_right hless hd) _
    _ = charge m (i + d) := by rw [charge, Nat.add_mul, Nat.mul_comm d]

/-- The price of a charge for `n` snapshots. -/
noncomputable def price (criterion : Criterion) (n : ℝ) : ℝ :=
  match criterion with
  | .mdl => 0.5 * (Real.log n / n)
  | .aic => n⁻¹

/-- The factor that a criterion takes for `n` snapshots. -/
noncomputable def factor (criterion : Criterion) (n : ℝ) : ℝ :=
  match criterion with
  | .mdl => n
  | .aic => ((2 : ℕ) : ℝ) * n

theorem factor_pos (criterion : Criterion) {n : ℝ} (hn : 0 < n) : 0 < factor criterion n := by
  cases criterion with
  | mdl => exact hn
  | aic => exact mul_pos (Nat.cast_pos.mpr two_pos) hn

theorem price_nonneg (criterion : Criterion) {n : ℝ} (hn : 1 ≤ n) : 0 ≤ price criterion n := by
  have hpos : 0 ≤ n := zero_le_one.trans hn
  cases criterion with
  | mdl => exact mul_nonneg (by norm_num) (div_nonneg (Real.log_nonneg hn) hpos)
  | aic => exact inv_nonneg.mpr hpos

/-- The number of snapshots from which on the price falls. -/
def falling : Criterion → ℕ
  | .mdl => 3
  | .aic => 1

theorem falling_pos (criterion : Criterion) : (0 : ℝ) < falling criterion := by
  cases criterion <;> simp [falling]

theorem price_antitone (criterion : Criterion) {n n' : ℝ} (hn : falling criterion ≤ n)
    (hnn' : n ≤ n') : price criterion n' ≤ price criterion n := by
  cases criterion with
  | mdl =>
    have hexp : Real.exp 1 ≤ n := by
      refine Real.exp_one_lt_three.le.trans ?_
      simpa [falling] using hn
    exact mul_le_mul_of_nonneg_left
      (Real.log_div_self_antitoneOn hexp (hexp.trans hnn') hnn') (by norm_num)
  | aic =>
    have hpos : 0 < n := (falling_pos .aic).trans_le hn
    exact inv_anti₀ hpos hnn'

theorem tendsto_price (criterion : Criterion) :
    Filter.Tendsto (price criterion) Filter.atTop (nhds 0) := by
  cases criterion with
  | mdl =>
    have hlog := Real.tendsto_pow_log_div_mul_add_atTop 1 0 1 one_ne_zero
    change Filter.Tendsto (fun n => 0.5 * (Real.log n / n)) _ _
    simpa using hlog.const_mul 0.5
  | aic => exact tendsto_inv_atTop_zero

/-! ## The score -/

theorem times_eq (n : Number ℝ) (i : ℤ) : n.times i = n.value * i := by
  cases n with
  | whole k => simp [Number.times, Number.value]
  | real x => simp [Number.times, Number.value]

/-- The misfit of the eigenvalues that `k` sources leave, and the charge for these. -/
noncomputable def weighed (criterion : Criterion) (n : ℝ) (values : List ℝ) (k : ℕ) : ℝ :=
  misfit ((prepared values).drop k) + price criterion n * charge values.length k

@[simp] theorem length_prepared (values : List ℝ) : (prepared values).length = values.length := by
  rw [prepared, List.length_reverse, (Exact.sorted_perm _).length_eq, List.length_map]

theorem score_eq (criterion : Criterion) {n : Number ℝ} (hn : 0 < n.value) (values : List ℝ)
    (k : ℕ) : score criterion n values.length k ((prepared values).drop k) =
      factor criterion n.value * weighed criterion n.value values k := by
  have hlength : ((prepared values).drop k).length = values.length - k := by simp
  cases criterion with
  | mdl =>
    change n.times _ * _ + 0.5 * (k : ℝ) * ((2 * values.length - k : ℕ) : ℝ) * Real.log n.value = _
    simp only [times_eq, weighed, misfit, price, factor, charge, hlength]
    push_cast
    field_simp
  | aic =>
    change n.times _ * _ + 2 * ((k * (2 * values.length - k) : ℕ) : ℝ) = _
    simp only [times_eq, weighed, misfit, price, factor, charge, hlength]
    push_cast
    field_simp

/-! ## The first of the least scores -/

/-- Of the places below `m`, place `k` is the first with the least value. -/
structure IsFirstMin (f : ℕ → ℝ) (m k : ℕ) : Prop where
  lt : k < m
  least : ∀ i < m, f k ≤ f i
  first : ∀ i < k, f k < f i

namespace IsFirstMin

variable {f : ℕ → ℝ} {m k : ℕ}

theorem unique {k' : ℕ} (h : IsFirstMin f m k) (h' : IsFirstMin f m k') : k = k' := by
  rcases lt_trichotomy k k' with hlt | heq | hgt
  · exact absurd (h'.first k hlt) (h.least k' h'.lt).not_gt
  · exact heq
  · exact absurd (h.first k' hgt) (h'.least k h.lt).not_gt

/-- A positive factor does not change which value is least. -/
theorem mul_iff {a : ℝ} (ha : 0 < a) : IsFirstMin (fun i => a * f i) m k ↔ IsFirstMin f m k := by
  constructor
  · exact fun h => ⟨h.lt, fun i hi => le_of_mul_le_mul_left (h.least i hi) ha,
      fun i hi => lt_of_mul_lt_mul_left (h.first i hi) ha.le⟩
  · exact fun h => ⟨h.lt, fun i hi => mul_le_mul_of_nonneg_left (h.least i hi) ha.le,
      fun i hi => mul_lt_mul_of_pos_left (h.first i hi) ha⟩

theorem of_argmin (h : Scalar.argmin? ((List.range m).map f) = some k) : IsFirstMin f m k := by
  have hlt : k < m := by simpa using Scalar.argmax?_lt h
  have hmax := isFirstMax_argmax h
  have hvalue : ∀ i < m, (((List.range m).map f).map (- ·)).getD i 0 = -f i := by
    intro i hi
    simp [hi]
  refine ⟨hlt, fun i hi => ?_, fun i hi => ?_⟩
  · have hle := hmax.max i (by simpa using Nat.le_sub_one_of_lt hi)
    rwa [hvalue i hi, hvalue k hlt, neg_le_neg_iff] at hle
  · have hless := hmax.first i hi
    rwa [hvalue i (hi.trans hlt), hvalue k hlt, neg_lt_neg_iff] at hless

theorem exists_argmin (f : ℕ → ℝ) (hm : 0 < m) :
    ∃ k, Scalar.argmin? ((List.range m).map f) = some k := by
  have hne : ((List.range m).map f).map (- ·) ≠ [] := by simpa using hm.ne'
  exact Option.isSome_iff_exists.mp ((Scalar.argmax?_isSome_iff _).mpr hne)

theorem argmin_eq_some_iff : Scalar.argmin? ((List.range m).map f) = some k ↔ IsFirstMin f m k := by
  refine ⟨of_argmin, fun h => ?_⟩
  obtain ⟨k', hk'⟩ := exists_argmin f (Nat.zero_lt_of_lt h.lt)
  rw [hk', (of_argmin hk').unique h]

end IsFirstMin

/-- The estimate is the first number of sources with the least sum. -/
theorem estimate_eq_some_iff {criterion : Criterion} {n : Number ℝ} (hn : 0 < n.value)
    {values : List ℝ} {k : ℕ} : estimate criterion n values = some k ↔
      IsFirstMin (weighed criterion n.value values) values.length k := by
  rw [← IsFirstMin.mul_iff (factor_pos criterion hn), ← IsFirstMin.argmin_eq_some_iff]
  simp only [← score_eq criterion hn]
  rw [estimate, length_prepared]

/-- If there are eigenvalues, some number of sources below theirs is estimated. -/
theorem exists_estimate (criterion : Criterion) (n : Number ℝ) {values : List ℝ}
    (hne : values ≠ []) : ∃ k < values.length, estimate criterion n values = some k := by
  obtain ⟨k, hk⟩ := IsFirstMin.exists_argmin (fun k => score criterion n values.length k
    ((prepared values).drop k)) (List.length_pos_of_ne_nil hne)
  refine ⟨k, (IsFirstMin.of_argmin hk).lt, ?_⟩
  rw [estimate, length_prepared]
  exact hk

/-! ## Eigenvalues as they are given -/

/-- The sources that are counted for given eigenvalues, by the criterion and by the reader of
tensors.  The latter takes the logarithm of a number of snapshots only if that is kept as a
machine number. -/
structure Counts (criterion : Criterion) (n : Number ℝ) (values : List ℝ) (k : ℕ) : Prop where
  estimate : estimate criterion n values = some k
  ofTensor : (criterion = .mdl → n.isKept = true) →
    ofTensor criterion (.number n) (.ofReals values) = .ok k

theorem snapshotsOf_number {criterion : Criterion} {n : Number ℝ}
    (hkept : criterion = .mdl → n.isKept = true) (m : ℕ) :
    snapshotsOf criterion m (.number n) = .ok n := by
  have hrange : (n.isWhole && !Scalar.isFinite (n.times (2 * m))) = false := by
    rw [Exact.scalar_isFinite, Bool.not_true, Bool.and_false]
  have hchecked : (if (n.isWhole && !Scalar.isFinite (n.times (2 * m))) = true then
      throw .numberTooLarge else pure n : Outcome ℝ (Number ℝ)) = .ok n := by
    rw [hrange]
    rfl
  unfold snapshotsOf
  cases criterion with
  | mdl =>
    have hsingle : (Setting.number n).toSingle "num_snapshots" = .ok n.value := by
      simp only [Setting.toSingle, Setting.isList, Setting.toKept]
      change (if n.isKept = true then _ else _) = _
      rw [if_pos (hkept rfl)]
      rfl
    simp only [if_true, hsingle]
    exact hchecked
  | aic => exact hchecked

theorem counts_iff {criterion : Criterion} {n : Number ℝ} {values : List ℝ} {k : ℕ} :
    Counts criterion n values k ↔ SourceCount.estimate criterion n values = some k := by
  refine ⟨Counts.estimate, fun h => ⟨h, fun hkept => ?_⟩⟩
  cases values with
  | nil =>
    have hnone : SourceCount.estimate criterion n [] = none := by
      rw [SourceCount.estimate, length_prepared]
      rfl
    cases hnone.symm.trans h
  | cons x rest =>
    have hread := snapshotsOf_number hkept (x :: rest).length
    have hestimate :
        SourceCount.estimate criterion n (Tensor.ofReals (x :: rest)).reals = some k := by
      rwa [Tensor.reals_ofReals]
    unfold SourceCount.ofTensor
    change (snapshotsOf criterion (x :: rest).length (.number n) >>= _) = _
    simp only [hread, bind, Except.bind, List.isEmpty_nil, if_true, hestimate]
    rfl

end SourceCount

end PhasedArray
