import PhasedArray.Pattern
import PhasedArray.Proofs.Exact.Matrix

set_option autoImplicit false

/-!
# The lobes of a pattern (SPEC §4.8)

A lobe is marked by five places: its top, the edges on both sides of the top, and the places where
the lobe ends.  What makes these the places of the main lobe is said without the loops that look
for them: the top is the first of the largest samples, an edge is the nearest place below half
power or the end of the pattern, and from the edges on the lobe reaches as far as the samples
fall.  Any two lobes of which this holds are the same.  Each loop finds its place, so that the
measures of a pattern are those of this lobe.
-/

namespace PhasedArray

namespace Pattern

variable {n : ℕ}

/-! ## What the main lobe is -/

/-- The places that mark a lobe. -/
structure Lobe (n : ℕ) where
  top : Fin n
  left : Fin n
  right : Fin n
  first : Fin n
  last : Fin n

/-- The nearest place from `i` down where the pattern is below `t`, or place zero. -/
def IsLeftEdge (p : Fin n → ℝ) (t : ℝ) (i l : Fin n) : Prop :=
  IsGreatest {k | k ≤ i ∧ p k < t} l ∨ (∀ k ≤ i, t ≤ p k) ∧ l.val = 0

/-- The nearest place from `i` up where the pattern is below `t`, or the last place. -/
def IsRightEdge (p : Fin n → ℝ) (t : ℝ) (i r : Fin n) : Prop :=
  IsLeast {k | i ≤ k ∧ p k < t} r ∨ (∀ k, i ≤ k → t ≤ p k) ∧ r.val + 1 = n

/-- The samples fall strictly from place `l` down to `k`, and no further. -/
def IsLeftNull (p : Fin n → ℝ) (l k : Fin n) : Prop :=
  IsLeast {j | j ≤ l ∧ StrictMonoOn p (Set.Icc j l)} k

/-- The samples fall strictly from place `r` up to `k`, and no further. -/
def IsRightNull (p : Fin n → ℝ) (r k : Fin n) : Prop :=
  IsGreatest {j | r ≤ j ∧ StrictAntiOn p (Set.Icc r j)} k

/-- The magnitude at half the power of `x`. -/
noncomputable def halfPower (x : ℝ) : ℝ := x / √((2 : ℕ) : ℝ)

/-- The lobe around the first of the largest samples. -/
structure Lobe.IsMain (m : Lobe n) (p : Fin n → ℝ) : Prop where
  top : IsLeast {k | ∀ j, p j ≤ p k} m.top
  left : IsLeftEdge p (halfPower (p m.top)) m.top m.left
  right : IsRightEdge p (halfPower (p m.top)) m.top m.right
  first : IsLeftNull p m.left m.first
  last : IsRightNull p m.right m.last

theorem IsLeftEdge.le {p : Fin n → ℝ} {t : ℝ} {i l : Fin n} (h : IsLeftEdge p t i l) : l ≤ i := by
  rcases h with h | ⟨-, hzero⟩
  · exact h.1.1
  · exact Fin.le_def.mpr (hzero ▸ Nat.zero_le _)

theorem IsRightEdge.le {p : Fin n → ℝ} {t : ℝ} {i r : Fin n} (h : IsRightEdge p t i r) : i ≤ r := by
  rcases h with h | ⟨-, hlast⟩
  · exact h.1.1
  · exact Fin.le_def.mpr (by omega)

theorem IsLeftEdge.unique {p : Fin n → ℝ} {t : ℝ} {i l l' : Fin n} (h : IsLeftEdge p t i l)
    (h' : IsLeftEdge p t i l') : l = l' := by
  rcases h with h | ⟨hnone, hzero⟩ <;> rcases h' with h' | ⟨hnone', hzero'⟩
  · exact h.unique h'
  · exact absurd h.1.2 (not_lt.mpr (hnone' l h.1.1))
  · exact absurd h'.1.2 (not_lt.mpr (hnone l' h'.1.1))
  · exact Fin.ext (hzero.trans hzero'.symm)

theorem IsRightEdge.unique {p : Fin n → ℝ} {t : ℝ} {i r r' : Fin n} (h : IsRightEdge p t i r)
    (h' : IsRightEdge p t i r') : r = r' := by
  rcases h with h | ⟨hnone, hlast⟩ <;> rcases h' with h' | ⟨hnone', hlast'⟩
  · exact h.unique h'
  · exact absurd h.1.2 (not_lt.mpr (hnone' r h.1.1))
  · exact absurd h'.1.2 (not_lt.mpr (hnone r' h'.1.1))
  · exact Fin.ext (by omega)

namespace Lobe.IsMain

variable {m m' : Lobe n} {p : Fin n → ℝ}

/-- There is one main lobe. -/
theorem unique (h : m.IsMain p) (h' : m'.IsMain p) : m = m' := by
  obtain ⟨i, l, r, k, j⟩ := m
  obtain ⟨i', l', r', k', j'⟩ := m'
  obtain rfl : i = i' := h.top.unique h'.top
  obtain rfl : l = l' := h.left.unique h'.left
  obtain rfl : r = r' := h.right.unique h'.right
  obtain rfl : k = k' := h.first.unique h'.first
  obtain rfl : j = j' := h.last.unique h'.last
  rfl

/-- The places stand in order. -/
theorem ordered (h : m.IsMain p) :
    m.first ≤ m.left ∧ m.left ≤ m.top ∧ m.top ≤ m.right ∧ m.right ≤ m.last :=
  ⟨h.first.1.1, h.left.le, h.right.le, h.last.1.1⟩

end Lobe.IsMain

/-! ## The place of the largest sample -/

/-- The lowest place of the largest sample. -/
theorem isLeast_peakPlace (h : 0 < n) (p : Vector ℝ n) :
    IsLeast {k | ∀ j, p.get j ≤ p.get k} (peakPlace h p) := by
  have hvalue (k : Fin n) : p.toList.getD k 0 = p.get k := by
    simp [Vec.get_eq_getElem]
  unfold peakPlace
  split
  · next i hfound =>
    have hmax := isFirstMax_argmax hfound
    have hi : i < n := by simpa using Scalar.argmax?_lt hfound
    constructor
    · intro j
      have hle := hmax.max j (by simpa using Nat.le_sub_one_of_lt j.isLt)
      rw [hvalue j] at hle
      exact hle.trans_eq (hvalue ⟨i, hi⟩)
    · intro k hk
      by_contra hlt
      have hless := hmax.first k (not_le.mp hlt)
      rw [hvalue k] at hless
      exact absurd (hless.trans_eq (hvalue ⟨i, hi⟩)) (not_lt.mpr (hk ⟨i, hi⟩))
  · next hfound =>
    have hsome := (Scalar.argmax?_isSome_iff p.toList).mpr
      (List.ne_nil_of_length_pos (by simpa using h))
    rw [hfound] at hsome
    cases hsome

/-- A sample that no other one reaches is the peak. -/
theorem peakPlace_eq {h : 0 < n} {p : Vector ℝ n} {i : Fin n}
    (hi : ∀ j, p.get i ≤ p.get j → j = i) : peakPlace h p = i :=
  hi _ ((isLeast_peakPlace h p).1 i)

/-! ## One place further -/

theorem le_or_eq_of_le_succ {i : ℕ} {h : i + 1 < n} {k : Fin n} (hk : k ≤ ⟨i + 1, h⟩) :
    k ≤ ⟨i, Nat.lt_of_succ_lt h⟩ ∨ k = ⟨i + 1, h⟩ := by
  rw [Fin.le_def, Fin.ext_iff] at *
  exact Nat.le_or_eq_of_le_succ hk

theorem succ_le_or_eq_of_le {i : ℕ} {h : i < n} (next : i + 1 < n) {k : Fin n}
    (hk : ⟨i, h⟩ ≤ k) : ⟨i + 1, next⟩ ≤ k ∨ k = ⟨i, h⟩ := by
  rw [Fin.le_def, Fin.ext_iff] at *
  exact (Nat.lt_or_eq_of_le hk).imp Nat.succ_le_of_lt Eq.symm

section Steps

variable {p : Fin n → ℝ} {t : ℝ} {i : ℕ} {k : Fin n}

/-- A place that is not below `t` is passed over. -/
theorem IsLeftEdge.step {h : i + 1 < n} (hkeep : t ≤ p ⟨i + 1, h⟩)
    (hedge : IsLeftEdge p t ⟨i, Nat.lt_of_succ_lt h⟩ k) : IsLeftEdge p t ⟨i + 1, h⟩ k := by
  rcases hedge with ⟨⟨hle, hbelow⟩, hgreatest⟩ | ⟨hnone, hzero⟩
  · refine .inl ⟨⟨hle.trans (Nat.le_succ i), hbelow⟩, ?_⟩
    rintro j ⟨hj, hjbelow⟩
    rcases le_or_eq_of_le_succ hj with hj | rfl
    · exact hgreatest ⟨hj, hjbelow⟩
    · exact absurd hjbelow (not_lt.mpr hkeep)
  · refine .inr ⟨fun j hj => ?_, hzero⟩
    rcases le_or_eq_of_le_succ hj with hj | rfl
    · exact hnone j hj
    · exact hkeep

theorem IsRightEdge.step {h : i < n} {next : i + 1 < n} (hkeep : t ≤ p ⟨i, h⟩)
    (hedge : IsRightEdge p t ⟨i + 1, next⟩ k) : IsRightEdge p t ⟨i, h⟩ k := by
  rcases hedge with ⟨⟨hle, hbelow⟩, hleast⟩ | ⟨hnone, hlast⟩
  · refine .inl ⟨⟨(Nat.le_succ i).trans hle, hbelow⟩, ?_⟩
    rintro j ⟨hj, hjbelow⟩
    rcases succ_le_or_eq_of_le next hj with hj | rfl
    · exact hleast ⟨hj, hjbelow⟩
    · exact absurd hjbelow (not_lt.mpr hkeep)
  · refine .inr ⟨fun j hj => ?_, hlast⟩
    rcases succ_le_or_eq_of_le next hj with hj | rfl
    · exact hnone j hj
    · exact hkeep

/-- A place from which the samples fall is passed over. -/
theorem IsLeftNull.step {h : i + 1 < n}
    (hfalls : p ⟨i, Nat.lt_of_succ_lt h⟩ < p ⟨i + 1, h⟩)
    (hnull : IsLeftNull p ⟨i, Nat.lt_of_succ_lt h⟩ k) : IsLeftNull p ⟨i + 1, h⟩ k := by
  obtain ⟨⟨hle, hmono⟩, hleast⟩ := hnull
  refine ⟨⟨hle.trans (Nat.le_succ i), ?_⟩, ?_⟩
  · rintro x ⟨hkx, hx⟩ y ⟨hky, hy⟩ hxy
    rcases le_or_eq_of_le_succ hy with hy | rfl
    · exact hmono ⟨hkx, hxy.le.trans hy⟩ ⟨hky, hy⟩ hxy
    · have hx : x ≤ ⟨i, Nat.lt_of_succ_lt h⟩ := Nat.lt_succ_iff.mp hxy
      exact (hmono.monotoneOn ⟨hkx, hx⟩ ⟨hle, le_rfl⟩ hx).trans_lt hfalls
  · rintro j ⟨hj, hjmono⟩
    rcases le_or_eq_of_le_succ hj with hj | rfl
    · exact hleast ⟨hj, hjmono.mono (Set.Icc_subset_Icc_right (Nat.le_succ i))⟩
    · exact hle.trans (Nat.le_succ i)

theorem IsRightNull.step {h : i < n} {next : i + 1 < n} (hfalls : p ⟨i + 1, next⟩ < p ⟨i, h⟩)
    (hnull : IsRightNull p ⟨i + 1, next⟩ k) : IsRightNull p ⟨i, h⟩ k := by
  obtain ⟨⟨hle, hanti⟩, hgreatest⟩ := hnull
  refine ⟨⟨(Nat.le_succ i).trans hle, ?_⟩, ?_⟩
  · rintro x ⟨hx, hxk⟩ y ⟨hy, hyk⟩ hxy
    rcases succ_le_or_eq_of_le next hx with hx | rfl
    · exact hanti ⟨hx, hxk⟩ ⟨hx.trans hxy.le, hyk⟩ hxy
    · have hy : ⟨i + 1, next⟩ ≤ y := Nat.succ_le_of_lt hxy
      exact (hanti.antitoneOn ⟨le_rfl, hle⟩ ⟨hy, hyk⟩ hy).trans_lt hfalls
  · rintro j ⟨hj, hjanti⟩
    rcases succ_le_or_eq_of_le next hj with hj | rfl
    · exact hgreatest ⟨hj, hjanti.mono (Set.Icc_subset_Icc_left (Nat.le_succ i))⟩
    · exact (Nat.le_succ i).trans hle

/-- A place from which the samples do not fall is the end. -/
theorem isLeftNull_self {h : i + 1 < n}
    (hrises : p ⟨i + 1, h⟩ ≤ p ⟨i, Nat.lt_of_succ_lt h⟩) : IsLeftNull p ⟨i + 1, h⟩ ⟨i + 1, h⟩ := by
  refine ⟨⟨le_rfl, by simp⟩, ?_⟩
  rintro j ⟨hj, hjmono⟩
  rcases le_or_eq_of_le_succ hj with hj | rfl
  · have hfalls := hjmono ⟨hj, Nat.le_succ i⟩ ⟨hj.trans (Nat.le_succ i), le_rfl⟩
      (Nat.lt_succ_self i)
    exact absurd hfalls (not_lt.mpr hrises)
  · exact le_rfl

theorem isRightNull_self {h : i < n} {next : i + 1 < n} (hrises : p ⟨i, h⟩ ≤ p ⟨i + 1, next⟩) :
    IsRightNull p ⟨i, h⟩ ⟨i, h⟩ := by
  refine ⟨⟨le_rfl, by simp⟩, ?_⟩
  rintro j ⟨hj, hjanti⟩
  rcases succ_le_or_eq_of_le next hj with hj | rfl
  · have hfalls := hjanti ⟨le_rfl, (Nat.le_succ i).trans hj⟩ ⟨Nat.le_succ i, hj⟩
      (Nat.lt_succ_self i)
    exact absurd hfalls (not_lt.mpr hrises)
  · exact le_rfl

end Steps

/-! ## The loops -/

theorem isLeftEdge_leftEdge (p : Vector ℝ n) (t : ℝ) (i : ℕ) (h : i < n) :
    IsLeftEdge p.get t ⟨i, h⟩ (leftEdge p t i h) := by
  induction i with
  | zero =>
    by_cases hbelow : p.get ⟨0, h⟩ < t
    · exact .inl ⟨⟨le_rfl, hbelow⟩, fun k hk => hk.1⟩
    · refine .inr ⟨fun k hk => ?_, rfl⟩
      obtain rfl : k = ⟨0, h⟩ := le_antisymm hk (Nat.zero_le _)
      exact not_lt.mp hbelow
  | succ i ih =>
    rw [leftEdge]
    split_ifs with hkeep
    · exact (ih _).step hkeep
    · exact .inl ⟨⟨le_rfl, not_le.mp hkeep⟩, fun k hk => hk.1⟩

theorem isRightEdge_rightEdge (p : Vector ℝ n) (t : ℝ) (i : ℕ) (h : i < n) :
    IsRightEdge p.get t ⟨i, h⟩ (rightEdge p t i h) := by
  fun_induction rightEdge p t i h with
  | case1 i h next hkeep ih => exact ih.step hkeep
  | case2 i h next hstop => exact .inl ⟨⟨le_rfl, not_le.mp hstop⟩, fun k hk => hk.1⟩
  | case3 i h hend =>
    by_cases hbelow : p.get ⟨i, h⟩ < t
    · exact .inl ⟨⟨le_rfl, hbelow⟩, fun k hk => hk.1⟩
    · refine .inr ⟨fun k hk => ?_, by simp only; omega⟩
      have hle : i ≤ k.val := hk
      obtain rfl : k = ⟨i, h⟩ := Fin.ext (by simp only; omega)
      exact not_lt.mp hbelow

theorem isLeftNull_leftNull (p : Vector ℝ n) (i : ℕ) (h : i < n) :
    IsLeftNull p.get ⟨i, h⟩ (leftNull p i h) := by
  induction i with
  | zero => exact ⟨⟨le_rfl, by simp [leftNull]⟩, fun k _ => Nat.zero_le _⟩
  | succ i ih =>
    rw [leftNull]
    split_ifs with hfalls
    · exact (ih _).step hfalls
    · exact isLeftNull_self (not_lt.mp hfalls)

theorem isRightNull_rightNull (p : Vector ℝ n) (i : ℕ) (h : i < n) :
    IsRightNull p.get ⟨i, h⟩ (rightNull p i h) := by
  fun_induction rightNull p i h with
  | case1 i h next hfalls ih => exact ih.step hfalls
  | case2 i h next hstop => exact isRightNull_self (not_lt.mp hstop)
  | case3 i h hend =>
    refine ⟨⟨le_rfl, by simp⟩, fun k _ => ?_⟩
    exact Fin.le_def.mpr (by simp only; omega)

/-! ## What is measured -/

/-- The mean distance of neighbouring directions. -/
noncomputable def meanDistance (grid : Fin (n + 1) → ℝ) : ℝ :=
  (∑ k : Fin n, (grid k.succ - grid k.castSucc)) / n

/-- The measures of the samples `p` in the directions `θ` with the lobe `m`. -/
structure Measures (p θ : Fin (n + 1) → ℝ) (m : Lobe (n + 1)) (a : Pattern ℝ) : Prop where
  samples : a.samples = List.ofFn p
  grid : a.grid = List.ofFn θ
  direction : a.direction = θ m.top
  peak : a.peak = p m.top
  width : a.width = ((m.right.val : ℝ) - m.left.val) * meanDistance θ
  sideLevel : IsGreatest (p '' (Set.Icc m.first m.last)ᶜ) a.sideLevel ∨
    (Set.Icc m.first m.last)ᶜ = ∅ ∧ a.sideLevel = 0

theorem sum_distances (grid : Fin (n + 1) → ℝ) :
    ∑ k : Fin n, (grid k.succ - grid k.castSucc) = grid (Fin.last n) - grid 0 := by
  induction n with
  | zero => simp
  | succ n ih =>
    have hrest := ih fun k => grid k.castSucc
    simp only [Fin.castSucc_zero] at hrest
    rw [Fin.sum_univ_castSucc]
    simp only [Fin.succ_castSucc, hrest, Fin.succ_last]
    ring

/-- The distance that the program works out from the ends of the grid. -/
theorem meanStep_eq (grid : Vector ℝ (n + 1)) :
    meanStep (Nat.succ_pos n) grid = meanDistance grid.get := by
  rw [meanDistance, sum_distances, meanStep]
  split_ifs with hmany
  · rfl
  · obtain rfl : n = 0 := by omega
    simp

theorem mem_outside {p : Vector ℝ n} {l r : Fin n} {x : ℝ} :
    x ∈ outside p l r ↔ x ∈ p.get '' (Set.Icc l r)ᶜ := by
  simp [outside, imp_iff_not_or]

theorem sideLevel_outside (p : Vector ℝ n) (l r : Fin n) :
    IsGreatest (p.get '' (Set.Icc l r)ᶜ) ((Scalar.maximum? (outside p l r)).getD 0) ∨
      (Set.Icc l r)ᶜ = ∅ ∧ (Scalar.maximum? (outside p l r)).getD 0 = 0 := by
  rw [Exact.maximum_eq_max]
  cases hmax : (outside p l r).max? with
  | none =>
    refine .inr ⟨?_, rfl⟩
    rw [List.max?_eq_none_iff] at hmax
    have hempty : p.get '' (Set.Icc l r)ᶜ = ∅ := by
      ext x
      rw [← mem_outside, hmax]
      simp
    exact Set.image_eq_empty.mp hempty
  | some x =>
    obtain ⟨hmem, hle⟩ := List.max?_eq_some_iff.mp hmax
    exact .inl ⟨mem_outside.mp hmem, fun y hy => hle y (mem_outside.mpr hy)⟩

/-- The lobe that the loops mark. -/
noncomputable def mainLobe (h : 0 < n) (p : Vector ℝ n) : Lobe n :=
  let i := peakPlace h p
  let l := leftEdge p (halfPower (p.get i)) i i.isLt
  let r := rightEdge p (halfPower (p.get i)) i i.isLt
  ⟨i, l, r, leftNull p l l.isLt, rightNull p r r.isLt⟩

theorem mainLobe_isMain (h : 0 < n) (p : Vector ℝ n) : (mainLobe h p).IsMain p.get where
  top := isLeast_peakPlace h p
  left := isLeftEdge_leftEdge p _ _ _
  right := isRightEdge_rightEdge p _ _ _
  first := isLeftNull_leftNull p _ _
  last := isRightNull_rightNull p _ _

theorem measures_measure (p grid : Vector ℝ (n + 1)) :
    Measures p.get grid.get (mainLobe (Nat.succ_pos n) p) (measure (Nat.succ_pos n) p grid) where
  samples := Vec.toList_eq_ofFn p
  grid := Vec.toList_eq_ofFn grid
  direction := rfl
  peak := rfl
  width := by
    obtain ⟨-, hleft, hright, -⟩ := (mainLobe_isMain (Nat.succ_pos n) p).ordered
    rw [← Nat.cast_sub (hleft.trans hright), ← meanStep_eq]
    rfl
  sideLevel := sideLevel_outside p _ _

section Bounds

variable {p θ : Fin (n + 1) → ℝ} {m : Lobe (n + 1)} {a : Pattern ℝ}

/-- Where no sample is negative, no side lobe is higher than the peak. -/
theorem Measures.sideLevel_le_peak (h : Measures p θ m a) (hm : m.IsMain p)
    (hp : ∀ k, 0 ≤ p k) : a.sideLevel ≤ a.peak := by
  rw [h.peak]
  rcases h.sideLevel with ⟨⟨k, -, hk⟩, -⟩ | ⟨-, hzero⟩
  · rw [← hk]
    exact hm.top.1 k
  · rw [hzero]
    exact hp m.top

/-- A side lobe that is not higher than the peak lies no decibel above it. -/
theorem sideDecibels_nonpos (h : a.sideLevel ≤ a.peak) {x : ℝ} (hx : a.sideDecibels? = some x) :
    x ≤ 0 := by
  unfold sideDecibels? at hx
  split_ifs at hx with hnone
  obtain ⟨hside, hpeak⟩ := not_or.mp hnone
  have hratio : a.sideLevel / a.peak ≤ 1 := (div_le_one (not_le.mp hpeak)).mpr h
  have hlog : Real.logb 10 (a.sideLevel / a.peak) ≤ 0 :=
    Real.logb_nonpos (by norm_num) (div_pos (not_le.mp hside) (not_le.mp hpeak)).le hratio
  rw [← Option.some.inj hx]
  exact mul_nonpos_of_nonneg_of_nonpos (by norm_num) hlog

end Bounds

/-! ## Patterns as they are given -/

theorem measure_cast {k : ℕ} (e : k = n) (h : 0 < n) (p grid : Vector ℝ k) :
    measure h (p.cast e) (grid.cast e) = measure (e ▸ h) p grid := by
  subst e
  rfl

theorem analyze_toList (h : 0 < n) (p grid : Vector ℝ n) :
    analyze p.toList grid.toList = .ok (measure h p grid) := by
  have hsamples : p.toList.length = n := Vector.length_toList
  have hgrid : grid.toList.length = n := Vector.length_toList
  have hp : (Vec.ofList p.toList).cast (hsamples.trans hgrid.symm) = p.cast hgrid.symm := by
    ext i hi
    simp [Vec.ofList]
  have hθ : Vec.ofList grid.toList = grid.cast hgrid.symm := by
    ext i hi
    simp [Vec.ofList]
  rw [analyze, dif_pos ⟨hsamples.trans hgrid.symm, hgrid.symm ▸ h⟩, hp, hθ, measure_cast]

theorem analyzeTensors_toList (p grid : Vector ℝ (n + 1)) :
    analyzeTensors (.ofReals p.toList) (.ofReals grid.toList) =
      .ok (measure (Nat.succ_pos n) p grid) := by
  have hshape : (Tensor.ofReals p.toList).shape = (Tensor.ofReals grid.toList).shape := by
    simp [Tensor.ofReals]
  rw [analyzeTensors, if_pos hshape, Tensor.reals_ofReals, Tensor.reals_ofReals]
  exact analyze_toList (Nat.succ_pos n) p grid

/-- Every pattern is measured, and the measures are those of its one main lobe.  The places of
the lobe stand in order, and where no sample is negative the side lobes are no higher than the
peak, also in decibels. -/
theorem analyzeTensors_measures (p grid : Vector ℝ (n + 1)) :
    ∃ a m, analyzeTensors (.ofReals p.toList) (.ofReals grid.toList) = .ok a ∧
      m.IsMain p.get ∧ (∀ m' : Lobe (n + 1), m'.IsMain p.get → m' = m) ∧
      Measures p.get grid.get m a ∧
      (m.first ≤ m.left ∧ m.left ≤ m.top ∧ m.top ≤ m.right ∧ m.right ≤ m.last) ∧
      ((∀ k, 0 ≤ p.get k) → a.sideLevel ≤ a.peak ∧ ∀ x, a.sideDecibels? = some x → x ≤ 0) := by
  have hmain := mainLobe_isMain (Nat.succ_pos n) p
  have hmeasures := measures_measure p grid
  refine ⟨_, _, analyzeTensors_toList p grid, hmain, fun _ h => h.unique hmain, hmeasures,
    hmain.ordered, fun hp => ?_⟩
  have hside := hmeasures.sideLevel_le_peak hmain hp
  exact ⟨hside, fun _ => sideDecibels_nonpos hside⟩

end Pattern

end PhasedArray
