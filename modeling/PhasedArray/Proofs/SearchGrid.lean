import PhasedArray.Proofs.Exact.Reading
import PhasedArray.SearchGrid

set_option autoImplicit false

/-!
# Search grids that are made from settings (SPEC §4.1)

A grid has a positive number of steps, and a point for each step or part of one.  Its points
ascend.
-/

namespace PhasedArray.SearchGrid

/-- A number of steps makes a grid if it is finite, not zero or below, and can be counted. -/
theorem exists_of_ofSetting {α : Type} [Scalar α] {points : Setting α} {g : SearchGrid α}
    (h : ofSetting points = .ok g) :
    ∃ n, points.toNumber "num_points" = .ok n ∧ Scalar.isFinite n.value = true ∧
      ¬ n.atMostZero ∧ g = ⟨n.ceil.toNat, n.value⟩ := by
  simp only [ofSetting, Outcome.check_eq_ok, Outcome.bind_eq_ok] at h
  obtain ⟨n, hn, hpos, size, hsize, hgrid⟩ := h
  simp only [extentOf, Outcome.check_eq_ok, Outcome.bind_eq_ok] at hsize
  obtain ⟨hfinite, -, -, hsize⟩ := hsize
  cases hsize
  cases hgrid
  rw [Bool.not_eq_true', Bool.not_eq_false] at hfinite
  exact ⟨n, hn, hfinite, hpos, rfl⟩

theorem ofSetting_eq_ok {points : Setting ℝ} {g : SearchGrid ℝ} (h : ofSetting points = .ok g) :
    ∃ n, points.toNumber "num_points" = .ok n ∧ 0 < n.value ∧ g = ⟨n.ceil.toNat, n.value⟩ := by
  obtain ⟨n, hn, -, hpos, hgrid⟩ := exists_of_ofSetting h
  rw [Number.atMostZero_eq, decide_eq_true_iff, not_le] at hpos
  exact ⟨n, hn, hpos, hgrid⟩

/-- A whole number of points that can be kept makes a grid. -/
theorem ofSetting_whole {α : Type} [Scalar α] [Scalar.HoldsWholes α] {n : ℕ} (hpos : 0 < n)
    (hkept : n < Extent.greatestKept) : ofSetting (.whole n : Setting α) = .ok (ofNat n) := by
  have hsize : extentOf (.whole n : Number α) = .ok n := by
    simp only [extentOf, Outcome.check_eq_ok, Outcome.bind_eq_ok]
    refine ⟨?_, (), if_pos hkept, rfl⟩
    rw [Number.value, Scalar.HoldsWholes.isFinite_ofInt]
    exact Bool.false_ne_true
  have hsome : ¬ (Number.whole n : Number α).atMostZero := by
    simpa [Number.atMostZero] using hpos.ne'
  simp only [ofSetting, Outcome.check_eq_ok, Outcome.bind_eq_ok]
  exact ⟨.whole n, rfl, hsome, n, hsize, rfl⟩

/-- A grid that is made from a setting has a positive number of steps. -/
theorem steps_pos {points : Setting ℝ} {g : SearchGrid ℝ} (h : ofSetting points = .ok g) :
    0 < g.steps := by
  obtain ⟨n, -, hpos, rfl⟩ := ofSetting_eq_ok h
  exact hpos

/-- A point lies at the start of each step, the last of which need not be a whole one. -/
theorem lt_size_iff {points : Setting ℝ} {g : SearchGrid ℝ} (h : ofSetting points = .ok g) {i : ℕ} :
    i < g.size ↔ (i : ℝ) < g.steps := by
  obtain ⟨n, -, hpos, rfl⟩ := ofSetting_eq_ok h
  change i < n.ceil.toNat ↔ (i : ℝ) < n.value
  rw [Int.lt_toNat]
  cases n with
  | whole k =>
    rw [Number.value, Exact.scalar_ofInt, ← Int.cast_natCast (R := ℝ), Int.cast_lt]
    rfl
  | real x =>
    change 0 < x at hpos
    have htruncate : (Scalar.truncate x : ℤ) = ⌊x⌋ := if_pos hpos.le
    unfold Number.ceil Number.value
    dsimp only
    rw [htruncate, Exact.scalar_ofInt, ← Int.cast_natCast (R := ℝ)]
    by_cases hpart : (⌊x⌋ : ℝ) < x
    · rw [if_pos hpart, Int.lt_add_one_iff]
      exact ⟨fun hle => (Int.cast_le.mpr hle).trans_lt hpart, fun hlt => Int.le_floor.mpr hlt.le⟩
    · -- a number without a fractional part is its own floor
      have hwhole : (⌊x⌋ : ℝ) = x := le_antisymm (Int.floor_le x) (not_lt.mp hpart)
      rw [if_neg hpart, ← Int.cast_lt (R := ℝ), hwhole]

/-- It has at least one point. -/
theorem size_pos {points : Setting ℝ} {g : SearchGrid ℝ} (h : ofSetting points = .ok g) :
    0 < g.size := by
  rw [lt_size_iff h, Nat.cast_zero]
  exact steps_pos h

/-- The start of a step lies in the half turn, which holds its first end. -/
theorem point_mem_range {steps : ℝ} (hsteps : 0 < steps) {i : ℕ} (hi : (i : ℝ) < steps) :
    -(Real.pi / 2) + i * (Real.pi / steps) ∈ Set.Ico (-(Real.pi / 2)) (Real.pi / 2) := by
  have hnonneg : 0 ≤ i * (Real.pi / steps) := by positivity
  have hlt : i * (Real.pi / steps) < Real.pi := by
    rw [← mul_div_assoc, div_lt_iff₀ hsteps, mul_comm]
    exact mul_lt_mul_of_pos_left hi Real.pi_pos
  constructor <;> linarith

theorem point_mem {points : Setting ℝ} {g : SearchGrid ℝ} (h : ofSetting points = .ok g)
    (i : Fin g.size) : g.point i ∈ Set.Ico (-(Real.pi / 2)) (Real.pi / 2) := by
  have hpoint : g.point i = -(Real.pi / 2) + i * (Real.pi / g.steps) := by
    simp only [point, Exact.scalar_ofNat, Exact.scalar_pi]
    ring
  rw [hpoint]
  exact point_mem_range (steps_pos h) ((lt_size_iff h).mp i.isLt)

theorem point_strictMono {g : SearchGrid ℝ} (h : 0 < g.steps) :
    StrictMono fun i : Fin g.size => g.point i := by
  intro i j hij
  have hlt : (i.val : ℝ) < j.val := by exact_mod_cast hij
  simp only [point, Exact.scalar_ofNat, Exact.scalar_pi]
  have hstep : i.val * Real.pi / g.steps < j.val * Real.pi / g.steps := by
    gcongr
  exact add_lt_add_right hstep _

/-! ## Directions half a degree apart -/

/-- The grid that is searched unless there is another. -/
noncomputable def standard : SearchGrid ℝ := .ofNat 360

theorem ofSetting_standard : ofSetting (defaultPoints : Setting ℝ) = .ok standard :=
  ofSetting_whole (n := 360) (by decide) (by decide)

theorem point_standard (i : ℕ) :
    standard.point i = -(Real.pi / 2) + i * (Real.pi / 360) := by
  simp [point, standard, ofNat]
  ring

theorem point_standard_succ (i : ℕ) :
    standard.point (i + 1) = standard.point i + Real.pi / 360 := by
  rw [point_standard, point_standard, Nat.cast_succ]
  ring

/-- The middle point. -/
theorem point_broadside : standard.point 180 = 0 := by
  rw [point_standard]
  push_cast
  ring

theorem point_standard_strictMono : StrictMono standard.point := by
  apply strictMono_nat_of_lt_succ
  intro i
  rw [point_standard_succ]
  linarith [Real.pi_pos]

end PhasedArray.SearchGrid
