import PhasedArray.Proofs.Lobes

set_option autoImplicit false

/-!
# Symmetries of the main lobe (SPEC §4.8)

Seen from the other side, a pattern has its samples in reverse order, and its directions too, with
the opposite sign.  Left and right are looked for by loops of their own, but what they look for is
the same after the places are reversed: an edge or a null on one side is one on the other.  So the
main lobe is reversed as well, as long as its top is the only place of the largest sample, since
of several the first is taken.  Scaling a pattern moves no place at all.
-/

namespace PhasedArray

namespace Pattern

variable {n : ℕ}

/-! ## Reversed places -/

theorem isGreatest_rev_iff {s : Set (Fin n)} {k : Fin n} :
    IsGreatest (Set.preimage Fin.rev s) k.rev ↔ IsLeast s k := by
  have hmem : k.rev ∈ Set.preimage Fin.rev s ↔ k ∈ s := by rw [Set.mem_preimage, Fin.rev_rev]
  refine and_congr hmem ⟨fun h j hj => ?_, fun h j hj => ?_⟩
  · have hle : j.rev ≤ k.rev := h (Set.mem_preimage.mpr (by rwa [Fin.rev_rev]))
    exact Fin.rev_le_rev.mp hle
  · exact Fin.le_rev_iff.mpr (h hj)

theorem isLeast_rev_iff {s : Set (Fin n)} {k : Fin n} :
    IsLeast (Set.preimage Fin.rev s) k.rev ↔ IsGreatest s k := by
  have h := isGreatest_rev_iff (s := Set.preimage Fin.rev s) (k := k.rev)
  rw [Fin.rev_rev, ← Set.preimage_comp, Fin.rev_involutive.comp_self, Set.preimage_id] at h
  exact h.symm

/-- Reversing a pattern twice changes nothing. -/
theorem comp_rev_rev (p : Fin n → ℝ) : (p ∘ Fin.rev) ∘ Fin.rev = p := by
  rw [Function.comp_assoc, Fin.rev_involutive.comp_self, Function.comp_id]

section Rev

variable {p : Fin n → ℝ}

/-- An edge on the right is one on the left of the reversed pattern. -/
theorem isLeftEdge_rev_iff {t : ℝ} {i r : Fin n} :
    IsLeftEdge (p ∘ Fin.rev) t i.rev r.rev ↔ IsRightEdge p t i r := by
  have hset : {k | k ≤ i.rev ∧ (p ∘ Fin.rev) k < t} =
      Set.preimage Fin.rev {k | i ≤ k ∧ p k < t} := by
    ext k
    exact and_congr_left fun _ => Fin.le_rev_iff
  have hnone : (∀ k ≤ i.rev, t ≤ (p ∘ Fin.rev) k) ↔ ∀ k, i ≤ k → t ≤ p k := by
    rw [Fin.rev_surjective.forall]
    exact forall_congr' fun k => imp_congr Fin.rev_le_rev (by rw [Function.comp_apply, Fin.rev_rev])
  have hend : r.rev.val = 0 ↔ r.val + 1 = n := by
    rw [Fin.val_rev]
    omega
  rw [IsLeftEdge, IsRightEdge, hset, isGreatest_rev_iff, hnone, hend]

/-- Where the samples end to fall on the right, they do so on the left of the reversed pattern. -/
theorem isLeftNull_rev_iff {r k : Fin n} :
    IsLeftNull (p ∘ Fin.rev) r.rev k.rev ↔ IsRightNull p r k := by
  have hset : {j | j ≤ r.rev ∧ StrictMonoOn (p ∘ Fin.rev) (Set.Icc j r.rev)} =
      Set.preimage Fin.rev {j | r ≤ j ∧ StrictAntiOn p (Set.Icc r j)} := by
    ext j
    refine and_congr Fin.le_rev_iff ⟨fun h x hx y hy hxy => ?_, fun h x hx y hy hxy => ?_⟩
    · have hfalls := h (a := y.rev) (b := x.rev) ⟨Fin.le_rev_iff.mpr hy.2, Fin.rev_le_rev.mpr hy.1⟩
        ⟨Fin.le_rev_iff.mpr hx.2, Fin.rev_le_rev.mpr hx.1⟩ (Fin.rev_lt_rev.mpr hxy)
      simpa using hfalls
    · exact h ⟨Fin.le_rev_iff.mp hy.2, Fin.rev_le_rev.mpr hy.1⟩
        ⟨Fin.le_rev_iff.mp hx.2, Fin.rev_le_rev.mpr hx.1⟩ (Fin.rev_lt_rev.mpr hxy)
  rw [IsLeftNull, IsRightNull, hset, isLeast_rev_iff]

/-- The other way round, an edge on the left is one on the right. -/
theorem isRightEdge_rev_iff {t : ℝ} {i l : Fin n} :
    IsRightEdge (p ∘ Fin.rev) t i.rev l.rev ↔ IsLeftEdge p t i l := by
  rw [← isLeftEdge_rev_iff, comp_rev_rev, Fin.rev_rev, Fin.rev_rev]

theorem isRightNull_rev_iff {l k : Fin n} :
    IsRightNull (p ∘ Fin.rev) l.rev k.rev ↔ IsLeftNull p l k := by
  rw [← isLeftNull_rev_iff, comp_rev_rev, Fin.rev_rev, Fin.rev_rev]

end Rev

/-! ## The reversed lobe -/

/-- A lobe seen from the other side. -/
def Lobe.mirrored (m : Lobe n) : Lobe n where
  top := m.top.rev
  left := m.right.rev
  right := m.left.rev
  first := m.last.rev
  last := m.first.rev

/-- If the largest sample is attained once, the main lobe of the reversed pattern is the reversed
main lobe. -/
theorem Lobe.IsMain.mirrored {p : Fin n → ℝ} {m : Lobe n} (h : m.IsMain p)
    (honce : ∀ k, (∀ j, p j ≤ p k) → k = m.top) : m.mirrored.IsMain (p ∘ Fin.rev) := by
  have hvalue : (p ∘ Fin.rev) m.mirrored.top = p m.top := by
    rw [Function.comp_apply, Lobe.mirrored, Fin.rev_rev]
  constructor
  · refine ⟨fun j => ?_, fun k hk => ?_⟩
    · rw [hvalue]
      exact h.top.1 j.rev
    · have hlargest : ∀ j, p j ≤ p k.rev := by
        rw [Fin.rev_surjective.forall]
        exact hk
      have hrev : k.rev.rev = m.top.rev := congrArg Fin.rev (honce k.rev hlargest)
      exact (hrev.symm.trans (Fin.rev_rev k)).le
  · rw [hvalue]
    exact isLeftEdge_rev_iff.mpr h.right
  · rw [hvalue]
    exact isRightEdge_rev_iff.mpr h.left
  · exact isLeftNull_rev_iff.mpr h.last
  · exact isRightNull_rev_iff.mpr h.first

/-! ## Measures -/

/-- Measures are determined by the samples, the directions and the lobe. -/
theorem Measures.unique {p θ : Fin (n + 1) → ℝ} {m : Lobe (n + 1)} {a b : Pattern ℝ}
    (ha : Measures p θ m a) (hb : Measures p θ m b) : a = b := by
  have hside : a.sideLevel = b.sideLevel := by
    rcases ha.sideLevel with hmax | ⟨hnone, hzero⟩ <;>
      rcases hb.sideLevel with hmax' | ⟨hnone', hzero'⟩
    · exact hmax.unique hmax'
    · rw [hnone', Set.image_empty] at hmax
      exact absurd hmax.1 (Set.notMem_empty _)
    · rw [hnone, Set.image_empty] at hmax'
      exact absurd hmax'.1 (Set.notMem_empty _)
    · exact hzero.trans hzero'.symm
  cases a
  cases b
  rw [Pattern.mk.injEq]
  exact ⟨ha.samples.trans hb.samples.symm, ha.grid.trans hb.grid.symm,
    ha.direction.trans hb.direction.symm, ha.width.trans hb.width.symm, hside,
    ha.peak.trans hb.peak.symm⟩

/-- What measures a pattern with its main lobe is what the program measures. -/
theorem measure_eq {p grid : Vector ℝ (n + 1)} {m : Lobe (n + 1)} {a : Pattern ℝ}
    (hm : m.IsMain p.get) (ha : Measures p.get grid.get m a) :
    measure (Nat.succ_pos n) p grid = a := by
  have hmeasures := measures_measure p grid
  rw [(mainLobe_isMain (Nat.succ_pos n) p).unique hm] at hmeasures
  exact hmeasures.unique ha

/-! ### Seen from the other side -/

/-- A measured pattern seen from the other side: the lobe is where it was, with the opposite sign,
and as wide and high as before. -/
noncomputable def mirrored (a : Pattern ℝ) : Pattern ℝ :=
  { a with
    samples := a.samples.reverse
    grid := (a.grid.map Neg.neg).reverse
    direction := -a.direction }

/-- Directions with the opposite sign in reverse order are as far apart. -/
theorem meanDistance_mirrored (θ : Fin (n + 1) → ℝ) :
    meanDistance (Neg.neg ∘ θ ∘ Fin.rev) = meanDistance θ := by
  rw [meanDistance, meanDistance, sum_distances, sum_distances]
  simp only [Function.comp_apply, Fin.rev_last, Fin.rev_zero]
  ring

theorem get_reverse (x : Vector ℝ n) : x.reverse.get = x.get ∘ Fin.rev := by
  funext k
  have hplace : n - 1 - k.val = k.rev.val := by
    rw [Fin.val_rev]
    omega
  refine (Vector.getElem_reverse k.isLt).trans ?_
  simp only [hplace]
  rfl

theorem reverse_ofFn (f : Fin n → ℝ) : (List.ofFn f).reverse = List.ofFn (f ∘ Fin.rev) := by
  apply List.ext_getElem
  · simp
  · intro i hi hi'
    rw [List.getElem_reverse, List.getElem_ofFn, List.getElem_ofFn]
    refine congrArg f (Fin.ext ?_)
    rw [Fin.val_rev]
    simp only [List.length_ofFn]
    omega

/-- What is outside a lobe is outside of it from the other side. -/
theorem compl_Icc_rev (i j : Fin n) :
    (Set.Icc j.rev i.rev)ᶜ = Set.preimage Fin.rev (Set.Icc i j)ᶜ := by
  rw [Set.preimage_compl, Fin.preimage_rev_Icc]

theorem image_compl_Icc_rev (p : Fin n → ℝ) (i j : Fin n) :
    (p ∘ Fin.rev) '' (Set.Icc j.rev i.rev)ᶜ = p '' (Set.Icc i j)ᶜ := by
  rw [compl_Icc_rev, Set.image_comp, Set.image_preimage_eq _ Fin.rev_surjective]

theorem Measures.mirrored {p θ : Fin (n + 1) → ℝ} {m : Lobe (n + 1)} {a : Pattern ℝ}
    (h : Measures p θ m a) :
    Measures (p ∘ Fin.rev) (Neg.neg ∘ θ ∘ Fin.rev) m.mirrored a.mirrored := by
  have hextent : ∀ k : Fin (n + 1), (k.rev.val : ℝ) = n - k.val := by
    intro k
    rw [Fin.val_rev, Nat.cast_sub k.isLt]
    push_cast
    ring
  constructor
  · rw [Pattern.mirrored, h.samples, reverse_ofFn]
  · rw [Pattern.mirrored, h.grid, List.map_ofFn, reverse_ofFn]
    rfl
  · rw [Pattern.mirrored, h.direction, Lobe.mirrored, Function.comp_apply, Function.comp_apply,
      Fin.rev_rev]
  · rw [Pattern.mirrored, h.peak, Lobe.mirrored, Function.comp_apply, Fin.rev_rev]
  · rw [Pattern.mirrored, h.width, Lobe.mirrored, hextent, hextent, meanDistance_mirrored]
    ring
  · rw [Lobe.mirrored, image_compl_Icc_rev]
    refine h.sideLevel.imp id fun hnone => ⟨?_, hnone.2⟩
    rw [compl_Icc_rev, hnone.1, Set.preimage_empty]

/-! ### Scaled -/

/-- A measured pattern in other units. -/
noncomputable def scaled (c : ℝ) (a : Pattern ℝ) : Pattern ℝ :=
  { a with
    samples := a.samples.map (c * ·)
    sideLevel := c * a.sideLevel
    peak := c * a.peak }

section Scaled

variable {c : ℝ} (hc : 0 < c)
include hc

/-- Scaling moves no place of the main lobe. -/
theorem Lobe.IsMain.scaled {p : Fin n → ℝ} {m : Lobe n} (h : m.IsMain p) :
    m.IsMain fun k => c * p k := by
  have hhalf : halfPower (c * p m.top) = c * halfPower (p m.top) := mul_div_assoc _ _ _
  obtain ⟨htop, hleft, hright, hfirst, hlast⟩ := h
  constructor
  · simpa only [mul_le_mul_iff_right₀ hc] using htop
  · simpa only [IsLeftEdge, hhalf, mul_le_mul_iff_right₀ hc, mul_lt_mul_iff_right₀ hc] using hleft
  · simpa only [IsRightEdge, hhalf, mul_le_mul_iff_right₀ hc, mul_lt_mul_iff_right₀ hc] using hright
  · simpa only [IsLeftNull, StrictMonoOn, mul_lt_mul_iff_right₀ hc] using hfirst
  · simpa only [IsRightNull, StrictAntiOn, mul_lt_mul_iff_right₀ hc] using hlast

theorem Measures.scaled {p θ : Fin (n + 1) → ℝ} {m : Lobe (n + 1)} {a : Pattern ℝ}
    (h : Measures p θ m a) : Measures (fun k => c * p k) θ m (a.scaled c) := by
  refine ⟨?_, h.grid, h.direction, ?_, h.width, ?_⟩
  · rw [Pattern.scaled, h.samples, List.map_ofFn]
    rfl
  · rw [Pattern.scaled, h.peak]
  · refine h.sideLevel.imp (fun hmax => ?_) fun hnone => ⟨hnone.1, ?_⟩
    · have hscaled := (monotone_mul_left_of_nonneg hc.le).map_isGreatest hmax
      rwa [Set.image_image] at hscaled
    · rw [Pattern.scaled, hnone.2, mul_zero]

/-- Decibels tell the side lobes from the peak, not their height. -/
theorem sideDecibels_scaled (a : Pattern ℝ) : (a.scaled c).sideDecibels? = a.sideDecibels? := by
  have hsign : ∀ x : ℝ, c * x ≤ 0 ↔ x ≤ 0 := by
    intro x
    rw [← not_lt, ← not_lt, mul_pos_iff_of_pos_left hc]
  have hratio : c * a.sideLevel / (c * a.peak) = a.sideLevel / a.peak :=
    mul_div_mul_left _ _ hc.ne'
  unfold sideDecibels? Pattern.scaled
  simp only [hsign, hratio]

end Scaled

/-! ## Patterns as they are given -/

/-- The measures of a pattern whose largest sample is attained once, seen from the other side, are
those measures seen from there.  The measures of every pattern, in other units, are those measures
in these units, and its side lobes are as many decibels below the peak. -/
theorem analyzeTensors_symmetric (p grid : Vector ℝ (n + 1)) :
    ∃ a, analyzeTensors (.ofReals p.toList) (.ofReals grid.toList) = .ok a ∧
      ((∃! k, ∀ j, p.get j ≤ p.get k) →
        analyzeTensors (.ofReals p.reverse.toList) (.ofReals (grid.map Neg.neg).reverse.toList) =
          .ok a.mirrored) ∧
      ∀ c, 0 < c →
        analyzeTensors (.ofReals (p.map (c * ·)).toList) (.ofReals grid.toList) =
          .ok (a.scaled c) ∧
        (a.scaled c).sideDecibels? = a.sideDecibels? := by
  have hmain := mainLobe_isMain (Nat.succ_pos n) p
  have hmeasures := measures_measure p grid
  refine ⟨_, analyzeTensors_toList p grid, ?_, fun c hc => ⟨?_, sideDecibels_scaled hc _⟩⟩
  · rintro ⟨i, -, honce⟩
    have hgrid : (grid.map Neg.neg).reverse.get = Neg.neg ∘ grid.get ∘ Fin.rev := by
      rw [get_reverse]
      funext k
      exact Vec.get_map _ _ _
    rw [analyzeTensors_toList]
    apply congrArg Except.ok
    apply measure_eq (m := (mainLobe (Nat.succ_pos n) p).mirrored)
    · rw [get_reverse]
      exact hmain.mirrored fun k hk => (honce k hk).trans (honce _ hmain.top.1).symm
    · rw [get_reverse, hgrid]
      exact hmeasures.mirrored
  · have hscaled : (p.map (c * ·)).get = fun k => c * p.get k := by
      funext k
      exact Vec.get_map _ _ _
    rw [analyzeTensors_toList]
    apply congrArg Except.ok
    apply measure_eq (m := mainLobe (Nat.succ_pos n) p)
    · rw [hscaled]
      exact hmain.scaled hc
    · rw [hscaled]
      exact hmeasures.scaled hc

/-- A pattern of three samples on an uneven grid. -/
theorem analyzeTensors_symmetric_three :
    ∃ a, analyzeTensors (.ofReals [1, 3, 2]) (.ofReals [-1, 0, 4]) = .ok a ∧
      analyzeTensors (.ofReals [2, 3, 1]) (.ofReals [-4, 0, 1]) = .ok a.mirrored ∧
      analyzeTensors (.ofReals [2, 6, 4]) (.ofReals [-1, 0, 4]) = .ok (a.scaled 2) ∧
      (a.scaled 2).sideDecibels? = a.sideDecibels? := by
  obtain ⟨a, ha, hmirrored, hscaled⟩ := analyzeTensors_symmetric #v[1, 3, 2] #v[-1, 0, 4]
  have honce : ∃! k : Fin 3, ∀ j, (#v[1, 3, 2] : Vector ℝ 3).get j ≤ #v[1, 3, 2].get k := by
    refine ⟨1, ?_, ?_⟩
    · intro j
      fin_cases j <;> norm_num [Vec.get_eq_getElem]
    · intro k hk
      have hpeak := hk 1
      fin_cases k
      · norm_num [Vec.get_eq_getElem] at hpeak
      · rfl
      · norm_num [Vec.get_eq_getElem] at hpeak
  obtain ⟨hdouble, hdecibels⟩ := hscaled 2 two_pos
  have hreversed := hmirrored honce
  norm_num at hreversed hdouble
  exact ⟨a, ha, hreversed, hdouble, hdecibels⟩

end Pattern

end PhasedArray
