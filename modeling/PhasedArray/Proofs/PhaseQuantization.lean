import Mathlib.Analysis.Real.Pi.Bounds
import PhasedArray.PhaseShifter
import PhasedArray.Proofs.Exact.Reading

set_option autoImplicit false

/-!
# Quantised phases (SPEC §4.7, §11)

Rounding a phase to a multiple of the step and taking the remainder by the full turn leads to the
level nearest to the phase on the circle, half a step away at most.  A level that lies close below
the full turn is then taken for the full turn itself and becomes zero.  How close is fixed, while
the levels come closer together with every bit: up to 16 bits no level is that close, and from 17
bits on the last ones are.  The phases of those levels are the only ones that end up more than
half a step away, and they do so without exception.

Deviation from SPEC §11, disclosed: the bound by a step that is stated there for any number of
bits holds up to 16 of them.
-/

namespace PhasedArray

/-! ## Rounding and remainders -/

namespace Exact

/-- The rounded value is a whole number half away at most, and an even one if it is half away. -/
theorem exists_roundEven (x : ℝ) :
    ∃ k : ℤ, roundEven x = k ∧ |x - k| ≤ 0.5 ∧ (|x - k| = 0.5 → Even k) := by
  have hlow := Int.fract_nonneg x
  have hhigh := Int.fract_lt_one x
  have hbelow : x - ⌊x⌋ = Int.fract x := rfl
  have habove : x - (⌊x⌋ + 1 : ℤ) = Int.fract x - 1 := by
    rw [← hbelow]
    push_cast
    ring
  unfold roundEven
  split_ifs with hless hmore heven
  · refine ⟨⌊x⌋, rfl, ?_, ?_⟩
    · rw [hbelow, abs_of_nonneg hlow]
      exact hless.le
    · rw [hbelow, abs_of_nonneg hlow]
      exact fun h => absurd h hless.ne
  · refine ⟨⌊x⌋ + 1, by push_cast; rfl, ?_, ?_⟩
    · rw [habove, abs_of_nonpos (by linarith)]
      norm_num at hmore ⊢
      linarith
    · rw [habove, abs_of_nonpos (by linarith)]
      intro h
      norm_num at hmore h
      linarith
  · refine ⟨⌊x⌋, rfl, ?_, fun _ => heven⟩
    rw [hbelow, abs_of_nonneg hlow]
    exact not_lt.mp hmore
  · refine ⟨⌊x⌋ + 1, by push_cast; rfl, ?_, fun _ => (Int.not_even_iff_odd.mp heven).add_one⟩
    rw [habove, abs_of_nonpos (by linarith)]
    norm_num at hless ⊢
    linarith

/-- A remainder by a positive number lies between zero and that number. -/
theorem modulo_mem {y : ℝ} (hy : 0 < y) (x : ℝ) : modulo x y ∈ Set.Ico 0 y := by
  have hfract : modulo x y = y * Int.fract (x / y) := by
    rw [modulo, Int.fract, mul_sub, mul_div_cancel₀ x hy.ne']
  rw [hfract]
  refine ⟨mul_nonneg hy.le (Int.fract_nonneg _), ?_⟩
  calc y * Int.fract (x / y) < y * 1 := mul_lt_mul_of_pos_left (Int.fract_lt_one _) hy
    _ = y := mul_one y

end Exact

namespace PhaseShifter

/-! ## Levels -/

theorem turn_eq : (turn : ℝ) = 2 * Real.pi := rfl

theorem turn_pos : (0 : ℝ) < turn := Real.two_pi_pos

theorem levels_eq (b : ℕ) : (levels b : ℝ) = 2 ^ b := by
  fun_induction @levels ℝ _ b with
  | case1 => exact (pow_zero 2).symm
  | case2 b hb half heven ih =>
    change half * half = 2 ^ b
    rw [show half = 2 ^ (b / 2) from ih, ← pow_add]
    congr 1
    omega
  | case3 b hb half hodd ih =>
    change (2 : ℝ) * (half * half) = 2 ^ b
    rw [show half = 2 ^ (b / 2) from ih, ← pow_add, ← pow_succ']
    congr 1
    omega

theorem step_eq (b : ℕ) : (step b : ℝ) = turn / 2 ^ b := by
  rw [step, levels_eq]

theorem step_pos (b : ℕ) : (0 : ℝ) < step b := by
  rw [step_eq]
  exact div_pos turn_pos (by positivity)

theorem pow_mul_step (b : ℕ) : 2 ^ b * (step b : ℝ) = turn := by
  rw [step_eq, mul_div_cancel₀ _ (by positivity)]

theorem half_step_eq (b : ℕ) : (step b : ℝ) / 2 = Real.pi / 2 ^ b := by
  rw [step_eq, turn_eq]
  ring

/-- The level nearest to a phase, as a phase in `[0, 2π)`. -/
noncomputable def nearestLevel (b : ℕ) (x : ℝ) : ℝ :=
  Scalar.modulo (Scalar.roundEven (x / step b) * step b) turn

/-- The phase `x` lies in turn `q`, off by `e` from level `j`, which is the nearest one. -/
structure Lies (b : ℕ) (x : ℝ) (j q : ℤ) (e : ℝ) : Prop where
  nonneg : 0 ≤ j
  lt : j < 2 ^ b
  level : nearestLevel b x = j * step b
  eq : x = j * step b + q * turn + e
  close : |e| ≤ step b / 2
  even : |e| = step b / 2 → Even (j + q * 2 ^ b)

/-- Every phase has a nearest level. -/
theorem exists_lies (b : ℕ) (x : ℝ) : ∃ j q e, Lies b x j q e := by
  have hstep := step_pos b
  obtain ⟨k, hk, hclose, heven⟩ := Exact.exists_roundEven (x / step b)
  let q : ℤ := ⌊(k * step b : ℝ) / turn⌋
  have hcount : ((2 ^ b : ℤ) : ℝ) * step b = turn := by
    push_cast
    exact pow_mul_step b
  have hlevel : nearestLevel b x = ((k - q * 2 ^ b : ℤ) : ℝ) * step b := by
    calc nearestLevel b x = Exact.modulo (Exact.roundEven (x / step b) * step b) turn := rfl
      _ = k * step b - turn * q := by rw [hk]; rfl
      _ = ((k - q * 2 ^ b : ℤ) : ℝ) * step b := by
        rw [← hcount]
        push_cast
        ring
  have hmem : nearestLevel b x ∈ Set.Ico 0 turn := Exact.modulo_mem turn_pos _
  rw [hlevel] at hmem
  have hoff : |x - k * step b| = |x / step b - k| * step b := by
    rw [← abs_of_pos hstep, ← abs_mul, abs_of_pos hstep, sub_mul, div_mul_cancel₀ x hstep.ne']
  have hhalf : (0.5 : ℝ) * step b = step b / 2 := by ring
  refine ⟨k - q * 2 ^ b, q, x - k * step b, ?_, ?_, hlevel, ?_, ?_, ?_⟩
  · have hnonneg : (0 : ℝ) ≤ ((k - q * 2 ^ b : ℤ) : ℝ) := nonneg_of_mul_nonneg_left hmem.1 hstep
    exact_mod_cast hnonneg
  · have hlt : ((k - q * 2 ^ b : ℤ) : ℝ) * step b < ((2 ^ b : ℤ) : ℝ) * step b := by
      rw [hcount]
      exact hmem.2
    exact_mod_cast lt_of_mul_lt_mul_right hlt hstep.le
  · rw [← hcount]
    push_cast
    ring
  · rw [hoff, ← hhalf]
    exact mul_le_mul_of_nonneg_right hclose hstep.le
  · intro h
    rw [hoff, ← hhalf] at h
    rw [sub_add_cancel]
    exact heven (mul_right_cancel₀ hstep.ne' h)

/-! ## The distance on the circle -/

/-- The distance of two phases on the circle. -/
noncomputable def circularDistance (x y : ℝ) : ℝ := ‖((x - y : ℝ) : AddCircle (turn : ℝ))‖

/-- The difference of two phases may be taken in any turn. -/
theorem circularDistance_eq_norm (x y : ℝ) (q : ℤ) :
    circularDistance x y = ‖((x + q * turn - y : ℝ) : AddCircle (turn : ℝ))‖ := by
  have hturns : (((q : ℝ) * turn : ℝ) : AddCircle (turn : ℝ)) = 0 := by
    rw [← zsmul_eq_mul, AddCircle.coe_zsmul, AddCircle.coe_period, smul_zero]
  have hsplit : x + q * turn - y = x - y + q * turn := by ring
  rw [hsplit, AddCircle.coe_add, hturns, add_zero]
  rfl

theorem circularDistance_le (x y : ℝ) (q : ℤ) : circularDistance x y ≤ |x + q * turn - y| := by
  rw [circularDistance_eq_norm x y q]
  exact QuotientAddGroup.norm_mk_le_norm

theorem circularDistance_eq_abs {x y : ℝ} {q : ℤ} (h : |x + q * turn - y| ≤ turn / 2) :
    circularDistance x y = |x + q * turn - y| := by
  rw [circularDistance_eq_norm x y q, AddCircle.norm_coe_eq_abs_iff _ turn_pos.ne',
    abs_of_pos turn_pos]
  exact h

/-! ## The end of the turn -/

/-- How far from the full turn a level is still taken for it. -/
noncomputable def margin : ℝ := 1e-8 + 1e-5 * turn

theorem nearTurn_iff (x : ℝ) : nearTurn x = true ↔ |x - turn| ≤ margin := by
  rw [nearTurn, Exact.scalar_abs, decide_eq_true_iff]
  rfl

theorem margin_pos : 0 < margin := by
  have := turn_pos
  unfold margin
  positivity

theorem six_lt_turn : (6 : ℝ) < turn := by
  rw [turn_eq]
  linarith [Real.pi_gt_three]

/-- Up to 16 bits the levels lie further apart. -/
theorem margin_lt_step {b : ℕ} (hb : b ≤ 16) : margin < step b := by
  have hturn := six_lt_turn
  have hpow : (2 : ℝ) ^ b ≤ 2 ^ 16 := pow_le_pow_right₀ one_le_two hb
  calc margin < turn / 2 ^ 16 := by
        unfold margin
        norm_num
        linarith
    _ ≤ turn / 2 ^ b := div_le_div_of_nonneg_left turn_pos.le (by positivity) hpow
    _ = step b := (step_eq b).symm

/-- From 17 bits on they lie closer together. -/
theorem step_le_margin {b : ℕ} (hb : 17 ≤ b) : step b ≤ margin := by
  have hturn := turn_pos
  have hpow : (2 : ℝ) ^ 17 ≤ 2 ^ b := pow_le_pow_right₀ one_le_two hb
  calc step b = turn / 2 ^ b := step_eq b
    _ ≤ turn / 2 ^ 17 := div_le_div_of_nonneg_left turn_pos.le (by positivity) hpow
    _ ≤ margin := by
        unfold margin
        norm_num
        linarith

namespace Lies

variable {b : ℕ} {x : ℝ} {j q : ℤ} {e : ℝ}

/-- The level lies a whole number of steps below the full turn. -/
theorem turn_sub_level (h : Lies b x j q e) :
    turn - nearestLevel b x = ((2 ^ b - j : ℤ) : ℝ) * step b := by
  rw [h.level, ← pow_mul_step b]
  push_cast
  ring

theorem step_le (h : Lies b x j q e) : step b ≤ turn - nearestLevel b x := by
  have hcount : (1 : ℝ) ≤ ((2 ^ b - j : ℤ) : ℝ) := by
    have hlt := h.lt
    exact_mod_cast (by omega : (1 : ℤ) ≤ 2 ^ b - j)
  rw [h.turn_sub_level]
  exact le_mul_of_one_le_left (step_pos b).le hcount

theorem nearTurn_iff (h : Lies b x j q e) :
    nearTurn (nearestLevel b x) = true ↔ turn - nearestLevel b x ≤ margin := by
  rw [PhaseShifter.nearTurn_iff, abs_sub_comm, abs_of_pos ((step_pos b).trans_le h.step_le)]

/-- A level that is kept is half a step away at most. -/
theorem circularDistance_level_le (h : Lies b x j q e) :
    circularDistance (nearestLevel b x) x ≤ step b / 2 := by
  have hoff : nearestLevel b x + q * turn - x = -e := by
    rw [h.level, h.eq]
    ring
  have hle := circularDistance_le (nearestLevel b x) x q
  rw [hoff, abs_neg] at hle
  exact hle.trans h.close

/-- Zero is away from a phase by what its level lacks to the full turn, less the offset. -/
theorem circularDistance_zero (h : Lies b x j q e)
    (hnear : nearTurn (nearestLevel b x) = true) :
    circularDistance 0 x = turn - nearestLevel b x - e := by
  have hstep := h.step_le
  have hlack := h.nearTurn_iff.mp hnear
  have hturn := six_lt_turn
  obtain ⟨hlow, hhigh⟩ := abs_le.mp h.close
  have hoff : 0 + ((q + 1 : ℤ) : ℝ) * turn - x = turn - nearestLevel b x - e := by
    conv_lhs => rw [h.eq, ← h.level]
    push_cast
    ring
  have hpos : 0 ≤ turn - nearestLevel b x - e := by linarith [step_pos b]
  have hsmall : turn - nearestLevel b x - e ≤ turn / 2 := by
    have hmargin : margin ≤ turn / 4 := by
      unfold margin
      norm_num
      linarith
    linarith
  have heq := circularDistance_eq_abs (x := 0) (y := x) (q := q + 1)
    (by rw [hoff, abs_of_nonneg hpos]; exact hsmall)
  rwa [hoff, abs_of_nonneg hpos] at heq

/-- A level that is taken for the full turn is more than half a step away: half way between the
last level and the full turn, a phase goes to the even neighbour, which is the full turn. -/
theorem half_step_lt_circularDistance_zero (h : Lies b x j q e)
    (hnear : nearTurn (nearestLevel b x) = true) : step b / 2 < circularDistance 0 x := by
  have hstep := h.step_le
  obtain ⟨hlow, hhigh⟩ := abs_le.mp h.close
  rw [h.circularDistance_zero hnear]
  by_contra hle
  have he : e = step b / 2 := by linarith
  have hlack : ((2 ^ b - j : ℤ) : ℝ) * step b = 1 * step b := by
    rw [← h.turn_sub_level]
    linarith
  have hlast : (2 ^ b - j : ℤ) = 1 := by exact_mod_cast mul_right_cancel₀ (step_pos b).ne' hlack
  have heven := h.even (by rw [he, abs_of_pos (half_pos (step_pos b))])
  have hbits : b ≠ 0 := by
    rintro rfl
    have hlevel := h.nearTurn_iff.mp hnear
    have hwhole := pow_mul_step 0
    have := margin_lt_step (Nat.zero_le 16)
    linarith
  have hpow : Even (2 ^ b : ℤ) := (Int.even_pow' hbits).mpr even_two
  have hj : Even j := (Int.even_add.mp heven).mpr (hpow.mul_left q)
  have hone : Even (1 : ℤ) := hlast ▸ hpow.sub hj
  exact Int.not_even_one hone

end Lies

/-! ## Quantised phases -/

theorem quantize_of_near {b : ℕ} {x : ℝ} (h : nearTurn (nearestLevel b x) = true) :
    quantize b x = 0 := if_pos h

theorem quantize_of_not_near {b : ℕ} {x : ℝ} (h : ¬nearTurn (nearestLevel b x) = true) :
    quantize b x = nearestLevel b x := if_neg h

/-- A phase is quantised to half a step unless its level is taken for the full turn. -/
theorem circularDistance_quantize_le_iff (b : ℕ) (x : ℝ) :
    circularDistance (quantize b x) x ≤ step b / 2 ↔ ¬nearTurn (nearestLevel b x) = true := by
  obtain ⟨j, q, e, h⟩ := exists_lies b x
  by_cases hnear : nearTurn (nearestLevel b x) = true
  · rw [quantize_of_near hnear]
    exact iff_of_false (not_le.mpr (h.half_step_lt_circularDistance_zero hnear))
      (not_not_intro hnear)
  · rw [quantize_of_not_near hnear]
    exact iff_of_true h.circularDistance_level_le hnear

/-- It is never off by more than that and the margin. -/
theorem circularDistance_quantize_le (b : ℕ) (x : ℝ) :
    circularDistance (quantize b x) x ≤ step b / 2 + margin := by
  obtain ⟨j, q, e, h⟩ := exists_lies b x
  by_cases hnear : nearTurn (nearestLevel b x) = true
  · have hlack := h.nearTurn_iff.mp hnear
    have hlow := (abs_le.mp h.close).1
    rw [quantize_of_near hnear, h.circularDistance_zero hnear]
    linarith
  · rw [quantize_of_not_near hnear]
    exact h.circularDistance_level_le.trans (le_add_of_nonneg_right margin_pos.le)

/-- A level is the nearest one to itself. -/
theorem nearestLevel_level {b : ℕ} {i : ℤ} (hi : 0 ≤ i) (hlt : i < 2 ^ b) :
    nearestLevel b (i * step b) = i * step b := by
  obtain ⟨j, q, e, h⟩ := exists_lies b (i * step b)
  have hstep := step_pos b
  have hoff : e = ((i - j - q * 2 ^ b : ℤ) : ℝ) * step b := by
    have heq := h.eq
    rw [← pow_mul_step b] at heq
    push_cast
    linarith
  have hzero : i - j - q * 2 ^ b = 0 := by
    have hclose := h.close
    rw [hoff, abs_mul, abs_of_pos hstep] at hclose
    have hless : ((|i - j - q * 2 ^ b| : ℤ) : ℝ) < 1 := by
      rw [Int.cast_abs]
      nlinarith
    exact Int.abs_lt_one_iff.mp (by exact_mod_cast hless)
  have hturns : q = 0 := by
    have hj := h.nonneg
    have hjlt := h.lt
    by_contra hne
    rcases lt_or_gt_of_ne hne with hq | hq <;> nlinarith
  rw [h.level]
  congr 2
  subst hturns
  linarith

/-- Some level is taken for the full turn exactly from 17 bits on. -/
theorem forall_not_nearTurn_iff (b : ℕ) :
    (∀ x, ¬nearTurn (nearestLevel b x) = true) ↔ b ≤ 16 := by
  constructor
  · intro hnone
    by_contra hb
    have hpow : (1 : ℤ) ≤ 2 ^ b := one_le_pow₀ one_le_two
    have hlevel := nearestLevel_level (b := b) (i := 2 ^ b - 1) (by omega) (by omega)
    apply hnone (((2 ^ b - 1 : ℤ) : ℝ) * step b)
    have hlack : ((2 ^ b - 1 : ℤ) : ℝ) * step b - turn = -step b := by
      rw [← pow_mul_step b]
      push_cast
      ring
    rw [nearTurn_iff, hlevel, hlack, abs_neg, abs_of_pos (step_pos b)]
    exact step_le_margin (by omega)
  · intro hb x hnear
    obtain ⟨j, q, e, h⟩ := exists_lies b x
    have hlack := h.nearTurn_iff.mp hnear
    exact absurd (h.step_le.trans hlack) (not_le.mpr (margin_lt_step hb))

/-- A phase is quantised to one of the levels. -/
theorem exists_quantize_eq (b : ℕ) (x : ℝ) : ∃ j : ℕ, j < 2 ^ b ∧ quantize b x = j * step b := by
  obtain ⟨j, q, e, h⟩ := exists_lies b x
  by_cases hnear : nearTurn (nearestLevel b x) = true
  · refine ⟨0, by positivity, ?_⟩
    rw [quantize_of_near hnear, Nat.cast_zero, zero_mul]
  · obtain ⟨i, rfl⟩ := Int.eq_ofNat_of_zero_le h.nonneg
    refine ⟨i, by exact_mod_cast h.lt, ?_⟩
    rw [quantize_of_not_near hnear, h.level]
    rfl

/-- Up to 16 bits every phase is quantised to half a step, and from 17 bits on some are not. -/
theorem forall_circularDistance_le_iff (b : ℕ) :
    (∀ x, circularDistance (quantize b x) x ≤ step b / 2) ↔ b ≤ 16 := by
  rw [← forall_not_nearTurn_iff]
  exact forall_congr' (circularDistance_quantize_le_iff b)

theorem bits_whole (b : ℕ) : bits (.whole b : Setting ℝ) = .ok b := by
  unfold bits
  rw [Setting.toWhole_whole]
  simp only [bind, Except.bind]
  rw [if_neg (Int.natCast_nonneg b).not_gt]
  rfl

/-- Phases are quantised one by one. -/
theorem quantizeAll_of_toReal (b : ℕ) {s : Setting ℝ} {t : Tensor ℝ} (h : s.toReal = .ok t)
    (hrank : t.rank ≠ 0) :
    quantizeAll (.whole b) s = .ok (t.mapReal fun z => quantize b z.re) := by
  unfold quantizeAll
  rw [bits_whole, h]
  exact if_neg hrank

/-- Phases in a list. -/
theorem quantizeAll_reals (b : ℕ) (xs : List ℝ) :
    quantizeAll (.whole b) (.list (xs.map .real)) = .ok (.ofReals (xs.map (quantize b))) := by
  have hreal : (Setting.list (xs.map .real)).toReal = .ok (.ofReals xs) := by
    rw [Setting.toReal, Setting.toTensor_reals]
    exact Tensor.toReal_ofReals xs
  have hmap : (Tensor.ofReals xs).mapReal (fun z => quantize b z.re) =
      .ofReals (xs.map (quantize b)) := by
    simp [Tensor.ofReals, Tensor.mapReal, Function.comp_def, Cplx.ofReal]
  rw [quantizeAll_of_toReal b hreal Nat.one_ne_zero, hmap]

/-- Every phase of a list goes to a level, half a step and the margin away at most.  It is more
than half a step away exactly if its nearest level is taken for the full turn, which happens in
some list exactly from 17 bits on. -/
theorem quantizeAll_within_half_step (b : ℕ) :
    (∀ xs : List ℝ, ∃ ys : List ℝ,
      quantizeAll (.whole b) (.list (xs.map .real)) = .ok (.ofReals ys) ∧
      List.Forall₂ (fun x y =>
        (∃ j : ℕ, j < 2 ^ b ∧ y = (j : ℝ) * step b) ∧
        circularDistance y x ≤ Real.pi / 2 ^ b + margin ∧
        (circularDistance y x ≤ Real.pi / 2 ^ b ↔ ¬nearTurn (nearestLevel b x) = true)) xs ys) ∧
    ((∀ xs ys : List ℝ, quantizeAll (.whole b) (.list (xs.map .real)) = .ok (.ofReals ys) →
      List.Forall₂ (fun x y => circularDistance y x ≤ Real.pi / 2 ^ b) xs ys) ↔ b ≤ 16) := by
  simp only [← half_step_eq, ← forall_circularDistance_le_iff, quantizeAll_reals, Except.ok.injEq,
    Tensor.ofReals_inj]
  refine ⟨fun xs => ⟨xs.map (quantize b), rfl, ?_⟩, ?_, ?_⟩
  · rw [List.forall₂_map_right_iff, List.forall₂_same]
    exact fun x _ => ⟨exists_quantize_eq b x, circularDistance_quantize_le b x,
      circularDistance_quantize_le_iff b x⟩
  · intro hall x
    exact (List.forall₂_cons.mp (hall [x] [quantize b x] rfl)).1
  · rintro hall xs _ rfl
    rw [List.forall₂_map_right_iff, List.forall₂_same]
    exact fun x _ => hall x

/-- At 20 bits a phase that is a level itself, eight steps below the full turn, goes to zero. -/
theorem quantizeAll_eight_steps_below_turn :
    quantizeAll (.whole 20) (.list [.real (turn - 8 * step 20)]) = .ok (.ofReals [(0 : ℝ)]) ∧
    circularDistance 0 (turn - 8 * step 20) = 8 * step 20 ∧
    Real.pi / 2 ^ 20 < 8 * (step 20 : ℝ) ∧ 2 * Real.pi / 2 ^ 20 < 8 * (step 20 : ℝ) := by
  have hstep := step_pos 20
  have hcount := pow_mul_step 20
  have hbelow : (turn : ℝ) - 8 * step 20 = ((2 ^ 20 - 8 : ℤ) : ℝ) * step 20 := by
    rw [← hcount]
    push_cast
    ring
  have hlevel : nearestLevel 20 (turn - 8 * step 20) = turn - 8 * step 20 := by
    rw [hbelow]
    exact nearestLevel_level (by norm_num) (by norm_num)
  have hnear : nearTurn (nearestLevel 20 (turn - 8 * step 20)) = true := by
    rw [nearTurn_iff, hlevel, sub_sub_cancel_left, abs_neg, abs_of_pos (by positivity)]
    calc 8 * (step 20 : ℝ) = step 17 := by
          rw [step_eq, step_eq]
          ring
      _ ≤ margin := step_le_margin le_rfl
  refine ⟨?_, ?_, ?_, ?_⟩
  · have hall := quantizeAll_reals 20 [turn - 8 * step 20]
    rw [List.map_singleton, List.map_singleton, quantize_of_near hnear] at hall
    exact hall
  · have hoff : 0 + ((1 : ℤ) : ℝ) * turn - (turn - 8 * step 20) = 8 * step 20 := by
      push_cast
      ring
    rw [circularDistance_eq_abs (q := 1), hoff, abs_of_pos (by positivity)]
    rw [hoff, abs_of_pos (by positivity)]
    linarith
  · rw [← half_step_eq]
    linarith
  · rw [← turn_eq, ← step_eq]
    linarith

end PhaseShifter

end PhasedArray
