import Mathlib.Analysis.SpecialFunctions.Trigonometric.Bounds
import PhasedArray.Proofs.SearchGrid

set_option autoImplicit false

/-!
# The nearest point of a grid (SPEC §4.1)

An array sees the sine of a direction, and sees it only up to multiples of two when its elements
are half a wavelength apart.  The grid point that looks most like a direction is therefore the one
whose sine is nearest.  If that is an interior point, the wrap from one end of the grid to the
other does no harm, because the two ends of the grid lie further off on either side.
-/

namespace PhasedArray

/-! ## Sines of the half turn -/

/-- The half turn of directions in front of the array: these are determined by their sine. -/
def front : Set ℝ := Set.range Real.arcsin

theorem front_eq : front = Set.Icc (-(Real.pi / 2)) (Real.pi / 2) := Real.range_arcsin

theorem strictMonoOn_sin_front : StrictMonoOn Real.sin front := by
  rw [front_eq]
  exact Real.strictMonoOn_sin

/-- Directions that differ have sines that differ by the square of that. -/
theorem two_mul_sq_le_sin_sub_sin {x y : ℝ} (hx : x ∈ front) (hy : y ∈ front) (hxy : x ≤ y) :
    2 * ((y - x) / Real.pi) ^ 2 ≤ Real.sin y - Real.sin x := by
  rw [front_eq] at hx hy
  obtain ⟨hxlow, -⟩ := hx
  obtain ⟨-, hyhigh⟩ := hy
  have hpi := Real.pi_pos
  have hhalf : (y - x) / Real.pi ≤ Real.sin ((y - x) / 2) := by
    have hbound := Real.mul_le_sin (x := (y - x) / 2) (by linarith) (by linarith)
    have hcancel : 2 / Real.pi * ((y - x) / 2) = (y - x) / Real.pi := by ring
    rwa [hcancel] at hbound
  have hnonneg : 0 ≤ (y - x) / Real.pi := div_nonneg (sub_nonneg.mpr hxy) hpi.le
  -- the mean of the directions is no nearer to an end than half their difference
  have hmean : Real.sin ((y - x) / 2) ≤ Real.cos ((y + x) / 2) := by
    rw [← Real.cos_pi_div_two_sub, ← Real.cos_abs ((y + x) / 2)]
    apply Real.cos_le_cos_of_nonneg_of_le_pi (abs_nonneg _) (by linarith)
    rw [abs_le]
    constructor <;> linarith
  rw [Real.sin_sub_sin]
  have hproduct := mul_le_mul hhalf (hhalf.trans hmean) hnonneg (hnonneg.trans hhalf)
  linarith [pow_two ((y - x) / Real.pi)]

namespace SearchGrid

variable {grid : SearchGrid ℝ} {θ : ℝ} {j : Fin grid.size}

/-- The sine of point `j` is nearer to that of `θ` than the sine of any other point, by more than
a peak has to rise above its neighbours. -/
def IsNearest (grid : SearchGrid ℝ) (θ : ℝ) (j : Fin grid.size) : Prop :=
  ∀ k, k ≠ j → (1 + 1e-9) * |Real.sin (grid.point j) - Real.sin θ| ≤
    |Real.sin (grid.point k) - Real.sin θ|

theorem IsNearest.abs_le (h : grid.IsNearest θ j) {k : Fin grid.size} (hk : k ≠ j) :
    |Real.sin (grid.point j) - Real.sin θ| ≤ |Real.sin (grid.point k) - Real.sin θ| := by
  have hnonneg := abs_nonneg (Real.sin (grid.point j) - Real.sin θ)
  exact le_trans (by linarith) (h k hk)

/-! ## Points half a degree apart -/

/-- Every point of the grid is in front of the array. -/
theorem point_mem_front {i : ℕ} (hi : i < 360) : standard.point i ∈ front := by
  have hpi := Real.pi_pos
  have hcast : (i : ℝ) ≤ 360 := by exact_mod_cast hi.le
  have hturn : (i : ℝ) * (Real.pi / 360) ≤ 360 * (Real.pi / 360) :=
    mul_le_mul_of_nonneg_right hcast (by positivity)
  have hnonneg : 0 ≤ (i : ℝ) * (Real.pi / 360) := by positivity
  rw [point_standard, front_eq]
  constructor
  · linarith
  · linarith

/-- The sines of different points are apart, and in the order of the points. -/
theorem sin_point_add_lt {i k : ℕ} (hik : i < k) (hk : k < 360) :
    Real.sin (standard.point i) + 1.5e-5 ≤ Real.sin (standard.point k) := by
  have hpi := Real.pi_pos
  have hcast : (i : ℝ) + 1 ≤ k := by exact_mod_cast hik
  have hsteps : standard.point k - standard.point i = (k - i) * (Real.pi / 360) := by
    rw [point_standard, point_standard]
    ring
  have hratio : 1 / 360 ≤ (standard.point k - standard.point i) / Real.pi := by
    rw [hsteps, le_div_iff₀ hpi]
    nlinarith
  have hle : standard.point i ≤ standard.point k := (point_standard_strictMono hik).le
  have hgap := two_mul_sq_le_sin_sub_sin (point_mem_front (hik.trans hk)) (point_mem_front hk) hle
  have hsq : (1 / 360 : ℝ) ^ 2 ≤ ((standard.point k - standard.point i) / Real.pi) ^ 2 :=
    pow_le_pow_left₀ (by norm_num) hratio 2
  linarith

theorem sin_point_apart {i k : Fin 360} (hne : k ≠ i) :
    1.5e-5 ≤ |Real.sin (standard.point k) - Real.sin (standard.point i)| := by
  rcases lt_or_gt_of_ne hne with h | h
  · rw [abs_sub_comm]
    exact le_trans (by linarith [sin_point_add_lt h i.isLt]) (le_abs_self _)
  · exact le_trans (by linarith [sin_point_add_lt h k.isLt]) (le_abs_self _)

/-- A direction that is at least as near to a point as to a later one lies before that. -/
theorem lt_of_abs_le {θ : ℝ} (hθ : θ ∈ front) {i k : ℕ} (hik : i < k) (hk : k < 360)
    (hnear : |Real.sin (standard.point i) - Real.sin θ| ≤
      |Real.sin (standard.point k) - Real.sin θ|) : θ < standard.point k := by
  have hgap := sin_point_add_lt hik hk
  apply (strictMonoOn_sin_front.lt_iff_lt hθ (point_mem_front hk)).mp
  by_contra hle
  have hle := not_lt.mp hle
  rw [abs_of_nonpos (by linarith), abs_of_nonpos (by linarith)] at hnear
  linarith

/-- One that is at least as near to a point as to an earlier one lies after that. -/
theorem gt_of_abs_le {θ : ℝ} (hθ : θ ∈ front) {i k : ℕ} (hik : i < k) (hk : k < 360)
    (hnear : |Real.sin (standard.point k) - Real.sin θ| ≤
      |Real.sin (standard.point i) - Real.sin θ|) : standard.point i < θ := by
  have hgap := sin_point_add_lt hik hk
  apply (strictMonoOn_sin_front.lt_iff_lt (point_mem_front (hik.trans hk)) hθ).mp
  by_contra hle
  have hle := not_lt.mp hle
  rw [abs_of_nonneg (by linarith), abs_of_nonneg (by linarith)] at hnear
  linarith

/-- A point within a step of a direction that lies after point `i` is not before that. -/
theorem le_of_abs_sub_le {θ : ℝ} {i k : ℕ} (hi : standard.point i < θ)
    (hnear : |standard.point k - θ| ≤ Real.pi / 360) : i ≤ k := by
  have hlt : standard.point i < standard.point (k + 1) := by
    rw [point_standard_succ]
    linarith [(abs_le.mp hnear).1]
  exact Nat.lt_succ_iff.mp (point_standard_strictMono.lt_iff_lt.mp hlt)

/-- One within a step of a direction that lies before point `i` is not after that. -/
theorem ge_of_abs_sub_le {θ : ℝ} {i k : ℕ} (hi : θ < standard.point i)
    (hnear : |standard.point k - θ| ≤ Real.pi / 360) : k ≤ i := by
  have hlt : standard.point k < standard.point (i + 1) := by
    rw [point_standard_succ]
    linarith [(abs_le.mp hnear).2]
  exact Nat.lt_succ_iff.mp (point_standard_strictMono.lt_iff_lt.mp hlt)

section Interior

variable {θ : ℝ} {j : Fin 360} (hθ : θ ∈ front) (hfirst : 0 < j.val) (hlast : j.val + 1 < 360)
  (h : standard.IsNearest θ j)
include hθ hfirst hlast h

/-- A direction lies between the neighbours of an interior point that is nearest to it. -/
theorem IsNearest.mem_Ioo :
    θ ∈ Set.Ioo (standard.point (j.val - 1)) (standard.point (j.val + 1)) := by
  have hbefore : j.val - 1 < j.val := Nat.sub_lt hfirst one_pos
  constructor
  · exact gt_of_abs_le hθ hbefore j.isLt
      (h.abs_le (k := ⟨j.val - 1, hbefore.trans j.isLt⟩) (Fin.ne_of_lt hbefore))
  · exact lt_of_abs_le hθ (Nat.lt_succ_self j.val) hlast
      (h.abs_le (k := ⟨j.val + 1, hlast⟩) (Fin.ne_of_gt (Nat.lt_succ_self j.val)))

/-- So it is less than a step away. -/
theorem IsNearest.abs_sub_lt : |standard.point j - θ| < Real.pi / 360 := by
  obtain ⟨hbefore, hafter⟩ := h.mem_Ioo hθ hfirst hlast
  have hcast : ((j.val - 1 : ℕ) : ℝ) = j.val - 1 := Nat.cast_pred hfirst
  rw [point_standard, hcast] at hbefore
  rw [point_standard, Nat.cast_succ] at hafter
  rw [point_standard, abs_lt]
  constructor <;> linarith

omit hθ hfirst hlast in
/-- What is as far from the direction in sine as another point is further than the nearest one,
and not on the source if that is. -/
theorem IsNearest.le_of_abs_le {k : Fin 360} (hk : k ≠ j) {d : ℝ}
    (hd : |Real.sin (standard.point k) - Real.sin θ| ≤ d) :
    (1 + 1e-9) * |Real.sin (standard.point j) - Real.sin θ| ≤ d ∧
      1.5e-5 ≤ |Real.sin (standard.point j) - Real.sin θ| + d := by
  have hapart := sin_point_apart hk
  have htriangle := abs_sub_le (Real.sin (standard.point k)) (Real.sin θ)
    (Real.sin (standard.point j))
  rw [abs_sub_comm (Real.sin θ)] at htriangle
  exact ⟨(h k hk).trans hd, by linarith⟩

/-- An array with elements half a wavelength apart sees every other point further off than the
nearest one: around the ends of the grid the way is at least as long as to one of its ends. -/
theorem IsNearest.exists_distance {k : Fin 360} (hk : k ≠ j) :
    ∃ d, Real.cos (Real.pi * (Real.sin (standard.point k) - Real.sin θ)) = Real.cos (Real.pi * d) ∧
      d ≤ 1 ∧ (1 + 1e-9) * |Real.sin (standard.point j) - Real.sin θ| ≤ d ∧
      1.5e-5 ≤ |Real.sin (standard.point j) - Real.sin θ| + d := by
  have hcos : Real.cos (Real.pi * (Real.sin (standard.point k) - Real.sin θ)) =
      Real.cos (Real.pi * |Real.sin (standard.point k) - Real.sin θ|) := by
    rw [← Real.cos_abs, abs_mul, abs_of_pos Real.pi_pos]
  rcases le_or_gt |Real.sin (standard.point k) - Real.sin θ| 1 with hnear | hfar
  · exact ⟨_, hcos, hnear, h.le_of_abs_le hk le_rfl⟩
  · have hwrap : Real.cos (Real.pi * |Real.sin (standard.point k) - Real.sin θ|) =
        Real.cos (Real.pi * (2 - |Real.sin (standard.point k) - Real.sin θ|)) := by
      rw [← Real.cos_two_pi_sub]
      congr 1
      ring
    refine ⟨_, hcos.trans hwrap, by linarith, ?_⟩
    rcases abs_cases (Real.sin (standard.point k) - Real.sin θ) with ⟨habs, -⟩ | ⟨habs, -⟩
    · -- around the start of the grid
      have hstart : Real.sin (standard.point (⟨0, by decide⟩ : Fin 360)) = -1 := by
        rw [point_standard, Nat.cast_zero, zero_mul, add_zero, Real.sin_neg, Real.sin_pi_div_two]
      apply h.le_of_abs_le (k := ⟨0, by decide⟩) (Fin.ne_of_lt hfirst)
      rw [hstart, habs, abs_of_nonpos (by linarith [Real.neg_one_le_sin θ])]
      linarith [Real.sin_le_one (standard.point k)]
    · -- around its end
      have hend : Real.sin θ < Real.sin (standard.point (⟨359, by decide⟩ : Fin 360)) := by
        have hbefore := Nat.lt_of_succ_lt_succ hlast
        exact strictMonoOn_sin_front hθ (point_mem_front (by decide))
          (lt_of_abs_le hθ hbefore (by decide) (h.abs_le (Fin.ne_of_gt hbefore)))
      apply h.le_of_abs_le (k := ⟨359, by decide⟩) (Fin.ne_of_gt (Nat.lt_of_succ_lt_succ hlast))
      rw [habs, abs_of_pos (by linarith)]
      linarith [Real.neg_one_le_sin (standard.point k),
        Real.sin_le_one (standard.point (⟨359, by decide⟩ : Fin 360))]

end Interior

end SearchGrid

end PhasedArray
