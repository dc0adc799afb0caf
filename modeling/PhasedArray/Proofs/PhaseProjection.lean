import PhasedArray.Proofs.PhaseQuantization

set_option autoImplicit false

/-!
# Quantising phases is a projection (SPEC §4.7, §11)

Whole turns do not change which level is nearest: a turn is `2 ^ b` steps, an even number unless
there are no bits, and rounding to even takes even shifts along; without bits there is one level
only.  The levels stay where they are, zero included, and so does what a quantised phase is, also
where a level close below the full turn was taken for it.
-/

namespace PhasedArray

/-! ## Shifts -/

namespace Exact

/-- Rounding takes an even shift along; an odd one turns ties around. -/
theorem roundEven_add_even (x : ℝ) {k : ℤ} (hk : Even k) :
    roundEven (x + k) = roundEven x + k := by
  have hparity : Even (⌊x⌋ + k) ↔ Even ⌊x⌋ := by
    rw [Int.even_add, iff_true_right hk]
  simp only [roundEven, Int.fract_add_intCast, Int.floor_add_intCast, hparity, Int.cast_add]
  split_ifs
  · rfl
  · exact add_right_comm _ _ _
  · rfl
  · exact add_right_comm _ _ _

theorem modulo_add_mul {y : ℝ} (hy : y ≠ 0) (x : ℝ) (k : ℤ) :
    modulo (x + k * y) y = modulo x y := by
  rw [modulo, modulo, add_div, mul_div_cancel_right₀ _ hy, Int.floor_add_intCast, Int.cast_add]
  ring

end Exact

namespace PhaseShifter

/-! ## Turns -/

/-- Without bits there is one level. -/
theorem nearestLevel_zero (x : ℝ) : nearestLevel 0 x = 0 := by
  obtain ⟨j, q, e, h⟩ := exists_lies 0 x
  have hj : j = 0 := by
    have hnonneg := h.nonneg
    have hlt := h.lt
    omega
  rw [h.level, hj, Int.cast_zero, zero_mul]

/-- Whole turns do not change the nearest level. -/
theorem nearestLevel_add_turns (b : ℕ) (x : ℝ) (k : ℤ) :
    nearestLevel b (x + k * turn) = nearestLevel b x := by
  rcases eq_or_ne b 0 with rfl | hb
  · rw [nearestLevel_zero, nearestLevel_zero]
  have hsteps : (x + k * turn) / step b = x / step b + ((k * 2 ^ b : ℤ) : ℝ) := by
    rw [add_div, ← pow_mul_step b, ← mul_assoc, mul_div_cancel_right₀ _ (step_pos b).ne']
    push_cast
    rfl
  have heven : Even (k * 2 ^ b : ℤ) := ((Int.even_pow' hb).mpr even_two).mul_left k
  have hturns : (Exact.roundEven (x / step b) + ((k * 2 ^ b : ℤ) : ℝ)) * step b =
      Exact.roundEven (x / step b) * step b + k * turn := by
    rw [← pow_mul_step b]
    push_cast
    ring
  calc nearestLevel b (x + k * turn)
      = Exact.modulo (Exact.roundEven ((x + k * turn) / step b) * step b) turn := rfl
    _ = Exact.modulo (Exact.roundEven (x / step b) * step b + k * turn) turn := by
        rw [hsteps, Exact.roundEven_add_even _ heven, hturns]
    _ = nearestLevel b x := Exact.modulo_add_mul turn_pos.ne' _ k

/-- Whole turns do not change the quantised phase. -/
theorem quantize_add_turns (b : ℕ) (x : ℝ) (k : ℤ) :
    quantize b (x + k * turn) = quantize b x :=
  congrArg (fun level => if nearTurn level then 0 else level) (nearestLevel_add_turns b x k)

/-! ## Levels -/

/-- Zero is far from the full turn. -/
theorem not_nearTurn_zero : ¬nearTurn (0 : ℝ) = true := by
  rw [nearTurn_iff, zero_sub, abs_neg, abs_of_pos turn_pos, not_le]
  have := six_lt_turn
  unfold margin
  norm_num
  linarith

theorem quantize_eq_self {b : ℕ} {y : ℝ} (hlevel : nearestLevel b y = y)
    (hnear : ¬nearTurn y = true) : quantize b y = y := by
  rw [← hlevel] at hnear
  exact (quantize_of_not_near hnear).trans hlevel

/-- A quantised phase stays where it is. -/
theorem quantize_quantize (b : ℕ) (x : ℝ) : quantize b (quantize b x) = quantize b x := by
  obtain ⟨j, q, e, h⟩ := exists_lies b x
  by_cases hnear : nearTurn (nearestLevel b x) = true
  · have hzero := nearestLevel_level (b := b) (i := 0) le_rfl (by positivity)
    rw [Int.cast_zero, zero_mul] at hzero
    rw [quantize_of_near hnear, quantize_eq_self hzero not_nearTurn_zero]
  · have hlevel : nearestLevel b (nearestLevel b x) = nearestLevel b x := by
      rw [h.level, nearestLevel_level h.nonneg h.lt]
    rw [quantize_of_not_near hnear, quantize_eq_self hlevel hnear]

theorem quantize_mem_Ico (b : ℕ) (x : ℝ) : quantize b x ∈ Set.Ico 0 turn := by
  by_cases hnear : nearTurn (nearestLevel b x) = true
  · rw [quantize_of_near hnear]
    exact ⟨le_rfl, turn_pos⟩
  · rw [quantize_of_not_near hnear]
    exact Exact.modulo_mem turn_pos _

/-- Quantising a list of phases projects them onto the levels, and each one may be taken in any
turn. -/
theorem quantizeAll_projects (b : ℕ) (xs : List ℝ) :
    ∃ ys : List ℝ, ys.length = xs.length ∧
      quantizeAll (.whole b) (.list (xs.map .real)) = .ok (.ofReals ys) ∧
      (∀ y ∈ ys, (∃ j : ℕ, j < 2 ^ b ∧ y = j * (2 * Real.pi / 2 ^ b)) ∧
        y ∈ Set.Ico 0 (2 * Real.pi)) ∧
      quantizeAll (.whole b) (.list (ys.map .real)) = .ok (.ofReals ys) ∧
      ∀ k : ℕ → ℤ, quantizeAll (.whole b) (.list
        ((xs.mapIdx fun i x => x + 2 * Real.pi * k i).map .real)) = .ok (.ofReals ys) := by
  refine ⟨xs.map (quantize b), List.length_map _, quantizeAll_reals b xs, ?_, ?_, ?_⟩
  · intro y hy
    obtain ⟨x, -, rfl⟩ := List.mem_map.mp hy
    refine ⟨?_, quantize_mem_Ico b x⟩
    rw [← turn_eq, ← step_eq]
    exact exists_quantize_eq b x
  · rw [quantizeAll_reals, List.map_map]
    congr 2
    exact List.map_congr_left fun x _ => quantize_quantize b x
  · intro k
    have hturns : ∀ i x, quantize b (x + 2 * Real.pi * k i) = quantize b x := by
      intro i x
      rw [mul_comm]
      exact quantize_add_turns b x (k i)
    rw [quantizeAll_reals]
    congr 2
    apply List.ext_getElem (by simp)
    intro i _ _
    simp [hturns]

end PhaseShifter

end PhasedArray
