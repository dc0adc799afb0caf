import PhasedArray.Proofs.Exact.Scalar

set_option autoImplicit false

/-!
# Exact arithmetic with infinities

Over the real numbers every value is finite, and no statement about values that are not says
anything there.  `Extended` adds what a binary number may be besides: the two infinities, and one
undefined value.  Operations on finite values are those of the real numbers; the others follow
the rules for binary numbers, by which an undefined operand makes the result undefined and has
no place in the order.

There is a single zero, so a quotient by zero has the sign of the dividend.
-/

namespace PhasedArray

/-- A real number, an infinity, or no number. -/
inductive Extended where
  | finite (x : ℝ)
  | infinite (negative : Bool)
  | undefined

namespace Extended

/-! ## Operations -/

/-- The sum.  Opposite infinities have none. -/
noncomputable def add : Extended → Extended → Extended
  | finite x, finite y => finite (x + y)
  | undefined, _ | _, undefined => undefined
  | infinite s, infinite t => if s = t then infinite s else undefined
  | infinite s, finite _ | finite _, infinite s => infinite s

/-- The negative. -/
noncomputable def neg : Extended → Extended
  | finite x => finite (-x)
  | infinite s => infinite !s
  | undefined => undefined

/-- The product.  Zero has none with an infinity. -/
noncomputable def mul : Extended → Extended → Extended
  | finite x, finite y => finite (x * y)
  | undefined, _ | _, undefined => undefined
  | infinite s, infinite t => infinite (s ^^ t)
  | infinite s, finite x | finite x, infinite s =>
      if x = 0 then undefined else infinite (s ^^ decide (x < 0))

/-- The reciprocal, infinite for zero. -/
noncomputable def inverse : Extended → Extended
  | finite x => if x = 0 then infinite false else finite x⁻¹
  | infinite _ => finite 0
  | undefined => undefined

/-- Whether a value lies at or below another one. -/
def Below : Extended → Extended → Prop
  | finite x, finite y => x ≤ y
  | undefined, _ | _, undefined => False
  | infinite true, _ | _, infinite false => True
  | _, _ => False

/-- The square root. -/
noncomputable def sqrt : Extended → Extended
  | finite x => if x < 0 then undefined else finite √x
  | infinite false => infinite false
  | _ => undefined

/-- The exponential. -/
noncomputable def exp : Extended → Extended
  | finite x => finite (Real.exp x)
  | infinite false => infinite false
  | infinite true => finite 0
  | undefined => undefined

/-- A logarithm, which is `f` for positive numbers. -/
noncomputable def logarithm (f : ℝ → ℝ) : Extended → Extended
  | finite x => if x < 0 then undefined else if x = 0 then infinite true else finite (f x)
  | infinite false => infinite false
  | _ => undefined

/-- The limit of the powers of a base of the magnitude `r` where the exponent grows without
bound, or falls if `falling` is set. -/
noncomputable def powerLimit (r : ℝ) (falling : Bool) : Extended :=
  if r = 1 then finite 1
  else if decide (r < 1) = falling then infinite false
  else finite 0

/-- The power `b ^ x`.  A negative base has powers with whole exponents alone. -/
noncomputable def pow : Extended → Extended → Extended
  | finite b, finite x =>
      if b = 0 ∧ x < 0 then infinite false
      else if b < 0 ∧ x ≠ ⌊x⌋ then undefined
      else finite (b ^ x)
  | finite b, infinite s => powerLimit |b| s
  | infinite s, finite x =>
      if x = 0 then finite 1
      else if x < 0 then finite 0
      else infinite (s && decide (x = ⌊x⌋ ∧ Odd ⌊x⌋))
  | infinite _, infinite s => if s then finite 0 else infinite false
  | undefined, finite x => if x = 0 then finite 1 else undefined
  | finite b, undefined => if b = 1 then finite 1 else undefined
  | _, _ => undefined

/-- A function of finite angles. -/
def ofAngle (f : ℝ → ℝ) : Extended → Extended
  | finite x => finite (f x)
  | _ => undefined

/-- The angle whose sine is given. -/
noncomputable def arcsin : Extended → Extended
  | finite x => if x ∈ Set.Icc (-1) 1 then finite (Real.arcsin x) else undefined
  | _ => undefined

/-- The direction in which a coordinate lies that may be infinite: beside an infinite one, a
finite one is none. -/
def far : Extended → ℝ
  | infinite false => 1
  | infinite true => -1
  | _ => 0

/-- The angle of the point `(x, y)`. -/
noncomputable def atan2 : Extended → Extended → Extended
  | finite y, finite x => finite (Complex.arg ⟨x, y⟩)
  | undefined, _ | _, undefined => undefined
  | finite y, infinite true => finite (if y < 0 then -Real.pi else Real.pi)
  | y, x => finite (Complex.arg ⟨far x, far y⟩)

/-- The length of the vector `(x, y)`, infinite if a component is. -/
noncomputable def hypot : Extended → Extended → Extended
  | finite x, finite y => finite √(x ^ 2 + y ^ 2)
  | infinite _, _ | _, infinite _ => infinite false
  | _, _ => undefined

/-- A function of finite values that leaves the others as they are. -/
def ofFinite (f : ℝ → ℝ) : Extended → Extended
  | finite x => finite (f x)
  | x => x

/-- The remainder, with the sign of the divisor. -/
noncomputable def modulo : Extended → Extended → Extended
  | finite x, finite y => if y = 0 then undefined else finite (Exact.modulo x y)
  | _, _ => undefined

/-- The whole number next to a finite value on the side of zero. -/
noncomputable def truncate : Extended → ℤ
  | finite x => Exact.truncate x
  | _ => 0

/-- Neither infinite nor undefined. -/
def isFinite : Extended → Bool
  | finite _ => true
  | _ => false

open Classical in
/-- The real numbers, the infinities and an undefined value as scalars. -/
noncomputable instance : Scalar Extended where
  zero := finite 0
  one := finite 1
  ofNat n := finite n
  ofScientific digits negative exponent :=
    finite (OfScientific.ofScientific digits negative exponent)
  add := add
  sub x y := add x (neg y)
  mul := mul
  div x y := mul x (inverse y)
  neg := neg
  lt x y := Below x y ∧ ¬ Below y x
  le := Below
  decLt _ _ := inferInstance
  decLe _ _ := inferInstance
  isFinite := isFinite
  pi := finite Real.pi
  sqrt := sqrt
  exp := exp
  log := logarithm Real.log
  log10 := logarithm Scalar.log10
  pow := pow
  sin := ofAngle Real.sin
  cos := ofAngle Real.cos
  arcsin := arcsin
  atan2 := atan2
  hypot := hypot
  roundEven := ofFinite Exact.roundEven
  modulo := modulo
  truncate := truncate
  short := ofFinite Exact.short

/-! ## Finite values -/

section Finite

variable (x y : ℝ)

@[simp] theorem finite_isFinite : Scalar.isFinite (finite x) = true := rfl

theorem zero_eq : (0 : Extended) = finite 0 := rfl

theorem one_eq : (1 : Extended) = finite 1 := rfl

@[simp] theorem ofNat_eq (n : ℕ) : (Scalar.ofNat n : Extended) = finite n := rfl

@[simp] theorem pi_eq : (Scalar.pi : Extended) = finite Real.pi := rfl

@[simp] theorem finite_add : finite x + finite y = finite (x + y) := rfl

@[simp] theorem finite_neg : -finite x = finite (-x) := rfl

@[simp] theorem finite_mul : finite x * finite y = finite (x * y) := rfl

@[simp] theorem finite_sub : finite x - finite y = finite (x - y) :=
  congrArg finite (sub_eq_add_neg x y).symm

variable {x y}

theorem finite_div (hy : y ≠ 0) : finite x / finite y = finite (x / y) := by
  change mul (finite x) (inverse (finite y)) = _
  rw [inverse, if_neg hy, mul, div_eq_mul_inv]

@[simp] theorem finite_le : finite x ≤ finite y ↔ x ≤ y := Iff.rfl

@[simp] theorem finite_lt : finite x < finite y ↔ x < y := by
  change x ≤ y ∧ ¬ y ≤ x ↔ x < y
  rw [not_le, and_iff_right_iff_imp]
  exact le_of_lt

theorem finite_sqrt (hx : 0 ≤ x) : Scalar.sqrt (finite x) = finite √x := if_neg (not_lt.mpr hx)

@[simp] theorem ofInt_eq (i : ℤ) : (Scalar.ofInt i : Extended) = finite i := by
  cases i with
  | ofNat n => simp [Scalar.ofInt]
  | negSucc n =>
    simp only [Scalar.ofInt, ofNat_eq, finite_neg, Int.cast_negSucc]

instance : Scalar.HoldsWholes Extended := ⟨fun i => by rw [ofInt_eq, finite_isFinite]⟩

end Finite

/-- A value is finite if it is a real number. -/
theorem isFinite_iff {x : Extended} : Scalar.isFinite x = true ↔ ∃ r, x = finite r := by
  cases x with
  | finite r => exact ⟨fun _ => ⟨r, rfl⟩, fun _ => rfl⟩
  | infinite s => exact ⟨nofun, nofun⟩
  | undefined => exact ⟨nofun, nofun⟩

/-! ## The undefined value -/

@[simp] theorem undefined_add (x : Extended) : undefined + x = undefined := rfl

@[simp] theorem add_undefined (x : Extended) : x + undefined = undefined := by cases x <;> rfl

@[simp] theorem undefined_mul (x : Extended) : undefined * x = undefined := rfl

@[simp] theorem mul_undefined (x : Extended) : x * undefined = undefined := by cases x <;> rfl

@[simp] theorem sub_undefined (x : Extended) : x - undefined = undefined := add_undefined x

@[simp] theorem undefined_sub (x : Extended) : undefined - x = undefined := rfl

@[simp] theorem undefined_div (x : Extended) : undefined / x = undefined := rfl

/-! ## The order -/

theorem not_undefined_le (x : Extended) : ¬ undefined ≤ x := id

theorem not_le_undefined (x : Extended) : ¬ x ≤ undefined := by
  cases x <;> exact id

theorem eq_of_le_of_le {x y : Extended} (hxy : x ≤ y) (hyx : y ≤ x) : x = y := by
  cases x with
  | finite r =>
    cases y with
    | finite t => exact congrArg finite (le_antisymm hxy hyx)
    | infinite s => cases s <;> contradiction
    | undefined => exact absurd hxy (not_le_undefined _)
  | infinite s =>
    cases y with
    | finite t => cases s <;> contradiction
    | infinite s' => cases s <;> cases s' <;> first | rfl | contradiction
    | undefined => exact absurd hyx (not_undefined_le _)
  | undefined => exact absurd hxy (not_undefined_le _)

theorem eq_of_same {x y : Extended} (h : Scalar.same x y = true) : x = y := by
  obtain ⟨hxy, hyx⟩ := Bool.and_eq_true_iff.mp h
  exact eq_of_le_of_le (of_decide_eq_true hxy) (of_decide_eq_true hyx)

/-- A value is undefined where it has no place in the order. -/
theorem isNaN_iff {x : Extended} : Scalar.isNaN x = true ↔ x = undefined := by
  unfold Scalar.isNaN
  rw [Bool.not_eq_true', decide_eq_false_iff_not]
  cases x with
  | finite r => exact ⟨fun h => absurd (le_refl r) h, nofun⟩
  | infinite s => cases s <;> exact ⟨fun h => absurd trivial h, nofun⟩
  | undefined => exact ⟨fun _ => rfl, fun _ => id⟩

/-- The place of a value in the order; an undefined one has none of its own. -/
noncomputable def toEReal : Extended → EReal
  | finite x => x
  | infinite true => ⊥
  | infinite false => ⊤
  | undefined => ⊥

section Places

variable {x y : Extended}

/-- Defined values have the order of their places. -/
theorem le_iff (hx : x ≠ undefined) (hy : y ≠ undefined) : x ≤ y ↔ x.toEReal ≤ y.toEReal := by
  change Below x y ↔ _
  rcases x with r | (_ | _) | _ <;> rcases y with t | (_ | _) | _ <;>
    simp_all [Below, toEReal]

theorem lt_iff : x < y ↔ x ≠ undefined ∧ y ≠ undefined ∧ x.toEReal < y.toEReal := by
  change x ≤ y ∧ ¬ y ≤ x ↔ _
  constructor
  · rintro ⟨hle, hnot⟩
    have hx : x ≠ undefined := by
      rintro rfl
      exact not_undefined_le y hle
    have hy : y ≠ undefined := by
      rintro rfl
      exact not_le_undefined x hle
    rw [le_iff hy hx, not_le] at hnot
    exact ⟨hx, hy, hnot⟩
  · rintro ⟨hx, hy, hlt⟩
    rw [le_iff hx hy, le_iff hy hx, not_le]
    exact ⟨hlt.le, hlt⟩

/-- A sum that is defined has the sum of the places. -/
theorem toEReal_add (h : x + y ≠ undefined) : (x + y).toEReal = x.toEReal + y.toEReal := by
  change add x y ≠ undefined at h
  change (add x y).toEReal = _
  rcases x with r | (_ | _) | _ <;> rcases y with t | (_ | _) | _ <;>
    simp_all [add, toEReal]

/-- A value that stays below another with something added to it, which is not negative, stays
below it without. -/
theorem lt_of_add_lt {m : Extended} (hm : ¬ m < 0) (h : x + m < y) : x < y := by
  obtain ⟨hsum, hy, hlt⟩ := lt_iff.mp h
  have hx : x ≠ undefined := by
    rintro rfl
    exact hsum (undefined_add m)
  have hdefined : m ≠ undefined := by
    rintro rfl
    exact hsum (add_undefined x)
  have hnonneg : 0 ≤ m.toEReal := by
    by_contra hneg
    exact hm (lt_iff.mpr ⟨hdefined, nofun, not_le.mp hneg⟩)
  rw [toEReal_add hsum] at hlt
  exact lt_iff.mpr ⟨hx, hy, (le_add_of_nonneg_right hnonneg).trans_lt hlt⟩

/-- Magnitudes are not negative. -/
theorem not_abs_lt_zero (x : Extended) : ¬ Scalar.abs x < 0 := by
  unfold Scalar.abs
  split_ifs with hx
  · intro hneg
    rcases x with r | (_ | _) | _
    · rw [finite_neg, zero_eq, finite_lt] at hneg
      rw [zero_eq, finite_lt] at hx
      linarith
    · exact hx.1
    · exact hneg.1
    · exact hx.1
  · exact hx

/-- A multiple of a value that is not negative is not negative. -/
theorem not_mul_lt_zero {r : ℝ} (hr : 0 < r) (hx : ¬ x < 0) : ¬ finite r * x < 0 := by
  intro hneg
  change mul (finite r) x < 0 at hneg
  rcases x with t | (_ | _) | _
  · rw [zero_eq, finite_lt, not_lt] at hx
    exact absurd (finite_lt.mp hneg) (not_lt.mpr (mul_nonneg hr.le hx))
  · rw [mul, if_neg hr.ne', decide_eq_false hr.not_gt] at hneg
    exact hneg.1
  · exact hx ⟨trivial, id⟩
  · exact hneg.1

end Places

/-! ## Quotients -/

/-- The quotient of zero by zero. -/
theorem undefined_eq : (Scalar.undefined : Extended) = undefined := by
  change mul (finite 0) (inverse (finite 0)) = undefined
  rw [inverse, if_pos rfl, mul, if_pos rfl]

/-- The quotient of one by zero. -/
theorem one_div_zero : (1 : Extended) / 0 = infinite false := by
  have hpos : ¬ (1 : ℝ) < 0 := by norm_num
  change mul (finite 1) (inverse (finite 0)) = infinite false
  rw [inverse, if_pos rfl, mul, if_neg one_ne_zero, decide_eq_false hpos]
  rfl

theorem infinite_div (negative : Bool) {r : ℝ} (hr : 0 < r) :
    infinite negative / finite r = infinite negative := by
  have hinverse : ¬ r⁻¹ < 0 := not_lt.mpr (inv_nonneg.mpr hr.le)
  change mul (infinite negative) (inverse (finite r)) = _
  rw [inverse, if_neg hr.ne', mul, if_neg (inv_ne_zero hr.ne'), decide_eq_false hinverse,
    Bool.xor_false]

/-- The mean of one value is that value. -/
theorem mean_singleton (x : Extended) : Scalar.mean [x] = x := by
  have hsum : Scalar.sum [x] = x := by
    change add (finite 0) x = x
    cases x with
    | finite r => exact congrArg finite (zero_add r)
    | _ => rfl
  rw [Scalar.mean, hsum, List.length_singleton, ofNat_eq, Nat.cast_one]
  cases x with
  | finite r => rw [finite_div one_ne_zero, div_one]
  | infinite s => exact infinite_div s one_pos
  | undefined => rfl

end Extended

end PhasedArray
