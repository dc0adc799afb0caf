import PhasedArray.Proofs.GridRecovery
import PhasedArray.Proofs.MainLobe
import PhasedArray.Proofs.NearestPoint
import PhasedArray.Proofs.Standard

set_option autoImplicit false

/-!
# One source before the standard array (SPEC §4.4, §11)

A search half a degree apart finds one source on the grid point whose sine is nearest to that of
its direction, at most a step away, wherever it stands between the points and however strong the
side lobes are.  What the search cannot do is built into its peaks, which are interior and rise
above both neighbours: a source at an end of the range, or half way between two points in sine,
has no peak near it.

Deviation from SPEC §11, disclosed: the recovery that is stated there for any source holds for
those that have such a peak.
-/

namespace PhasedArray

open Matrix
open scoped ComplexOrder

/-! ## A row of symbols -/

namespace NoiselessScene

variable {n : ℕ}

theorem rank_row {row : Mat (Cplx ℝ) 1 n} (h : row.toMatrix ≠ 0) : row.toMatrix.rank = 1 := by
  have hpower : (row.toMatrix * row.toMatrixᴴ).det ≠ 0 := by
    intro hzero
    rw [det_fin_one] at hzero
    apply h
    rw [← self_mul_conjTranspose_eq_zero]
    ext i j
    rw [Subsingleton.elim i 0, Subsingleton.elim j 0, hzero, Matrix.zero_apply]
  rw [← rank_self_mul_conjTranspose, rank_of_det_ne_zero hpower, Fintype.card_fin]

theorem injective_phasor_one (g : Geometry ℝ) (θ : ℝ) :
    Function.Injective fun j => g.phasor ((Vector.ofFn fun _ : Fin 1 => θ).get j) :=
  Function.injective_of_subsingleton _

/-- One source that sends a row of symbols, not all of them zero. -/
noncomputable def ofRow (g : Geometry ℝ) (θ : ℝ) (row : Mat (Cplx ℝ) 1 n)
    (h : row.toMatrix ≠ 0) : NoiselessScene g 1 n where
  angles := Vector.ofFn fun _ => θ
  symbols := row
  distinct := injective_phasor_one g θ
  fullRank := rank_row h

theorem ofRow_angle (g : Geometry ℝ) (θ : ℝ) {row : Mat (Cplx ℝ) 1 n} (h : row.toMatrix ≠ 0)
    (j : Fin 1) : (ofRow g θ row h).angles.get j = θ := Vec.get_ofFn _ j

end NoiselessScene

/-! ## The spectrum of one source -/

namespace SpectralSearch

variable {D : Decomposition ℝ Geometry.standard.size} {n : ℕ}

/-- The spectrum, with the default floor and sentinel, of a source in direction `θ₀` where it is
looked at in direction `θ`. -/
noncomputable def seen (θ₀ θ : ℝ) : ℝ :=
  value 1e-10 1e10 (leakAt (Real.sin θ - Real.sin θ₀))

/-- The spectrum on the grid depends on the sines alone. -/
theorem get_spectrum_standard (hk : D.sources.val = 1) (X : NoiselessScene .standard D.sources n)
    {averaging : Bool} (hD : D.IsSpectral (X.covariance averaging)) (i : Fin D.sources)
    (k : Fin 360) :
    (SearchGrid.standard.points.map (valueAt 1e-10 1e10 .standard D.noise)).get k =
      seen (X.angles.get i) (SearchGrid.standard.point k) := by
  rw [seen, ← leakage_standard hk X hD i]
  exact (Vec.get_map _ _ _).trans (congrArg _ (Vec.get_ofFn _ _))

theorem spectrum_standard (noise : Mat (Cplx ℝ) Geometry.standard.size n) :
    SpectralSearch.standard.spectrum .standard noise =
      .ok (SearchGrid.standard.points.map (valueAt 1e-10 1e10 .standard noise)) :=
  spectrumAt_number (f := .real 1e-10) (c := .real 1e10) rfl rfl _ _ _

/-- Where the nearest grid point is interior, the search finds it and nothing else. -/
theorem find_standard (hk : D.sources.val = 1) (X : NoiselessScene .standard D.sources n)
    {averaging : Bool} (hD : D.IsSpectral (X.covariance averaging)) (i : Fin D.sources)
    (hθ : X.angles.get i ∈ front) {j : Fin 360} (hfirst : 0 < j.val) (hlast : j.val + 1 < 360)
    (h : SearchGrid.standard.IsNearest (X.angles.get i) j) :
    ∃ spectrum, SpectralSearch.standard.find .standard D =
      .ok ⟨[SearchGrid.standard.point j], spectrum, 1⟩ := by
  let values := SearchGrid.standard.points.map (valueAt 1e-10 1e10 .standard D.noise)
  have hvalue := get_spectrum_standard hk X hD i
  have hsmall : |Real.sin (SearchGrid.standard.point j) - Real.sin (X.angles.get i)| ≤ 0.01 := by
    have hstep := (Real.abs_sin_sub_sin_le _ _).trans_lt (h.abs_sub_lt hθ hfirst hlast)
    linarith [Real.pi_lt_d2]
  have hnearest : values.get j = value 1e-10 1e10
      (leakAt |Real.sin (SearchGrid.standard.point j) - Real.sin (X.angles.get i)|) := by
    rw [leakAt_abs]
    exact hvalue j
  have hrest : ∀ k : Fin 360, k ≠ j → values.get k < (1 - 1e-9) * values.get j := by
    intro k hne
    obtain ⟨d, hcos, hone, hfurther, hapart⟩ := h.exists_distance hθ hfirst hlast hne
    have hleak : leakAt (Real.sin (SearchGrid.standard.point k) - Real.sin (X.angles.get i)) =
        leakAt d := by
      rw [leakAt, leakAt, hcos]
    have hother : values.get k = value 1e-10 1e10 (leakAt d) := by
      rw [← hleak]
      exact hvalue k
    rw [hnearest, hother]
    exact value_leakAt_lt (abs_nonneg _) hsmall hfurther hone hapart
  have hpositive : ∀ k : Fin 360, 0 < values.get k := by
    intro k
    exact (hvalue k).symm ▸ value_pos _
  refine ⟨values.toList, ?_⟩
  rw [find, spectrum_standard]
  change Except.ok (SpectralSearch.standard.findIn D.sources values) = _
  rw [hk, findIn_of_top (s := SpectralSearch.standard) ⟨hfirst, hlast⟩ (hpositive j)
    fun k hk => ⟨hpositive k, hrest k hk⟩]
  rfl

/-! ## Sources without a peak -/

/-- A search for one direction returns the direction of a peak, or the angle that stands for
none. -/
theorem findIn_one_cases (s : SpectralSearch ℝ) (values : Vector ℝ s.grid.size) :
    ∃ angle, (s.findIn 1 values).angles = [angle] ∧
      (angle = -Real.pi / 4 ∨ ∃ i : Fin s.grid.size, angle = s.grid.point i ∧
        Peaks.isPeak (Peaks.margin Peaks.defaultFraction values) values i) := by
  rw [findIn, Peaks.strongest]
  cases hpeaks : Peaks.all Peaks.defaultFraction values with
  | nil =>
    have hfallback : (fallbackAngles 1 : List ℝ) = [-Real.pi / 4] := by
      simp [fallbackAngles, fallbackAngle]
    exact ⟨_, hfallback, .inl rfl⟩
  | cons i rest =>
    have hpeak : i ∈ Peaks.all Peaks.defaultFraction values := by
      rw [hpeaks]
      exact List.mem_cons_self
    exact ⟨_, rfl, .inr ⟨i, rfl, Peaks.isPeak_of_mem_all hpeak⟩⟩

/-- If every point within a step of the source has a neighbour whose spectrum is as strong, the
search misses the source. -/
theorem exists_find_far (hk : D.sources.val = 1) (X : NoiselessScene .standard D.sources n)
    {averaging : Bool} (hD : D.IsSpectral (X.covariance averaging)) (i : Fin D.sources)
    (hfallback : Real.pi / 360 < |-Real.pi / 4 - X.angles.get i|)
    (hcovered : ∀ k : ℕ, 0 < k → k + 1 < 360 →
      |SearchGrid.standard.point k - X.angles.get i| ≤ Real.pi / 360 →
        ∃ k', (k' = k - 1 ∨ k' = k + 1) ∧
          seen (X.angles.get i) (SearchGrid.standard.point k) ≤
            seen (X.angles.get i) (SearchGrid.standard.point k')) :
    ∃ found angle, SpectralSearch.standard.find .standard D = .ok found ∧
      found.angles = [angle] ∧ Real.pi / 360 < |angle - X.angles.get i| := by
  let values : Vector ℝ SpectralSearch.standard.grid.size :=
    SearchGrid.standard.points.map (valueAt 1e-10 1e10 .standard D.noise)
  have hvalue : ∀ k : Fin SpectralSearch.standard.grid.size,
      values.get k = seen (X.angles.get i) (SearchGrid.standard.point k) :=
    get_spectrum_standard hk X hD i
  have hfound : SpectralSearch.standard.find .standard D =
      .ok (SpectralSearch.standard.findIn 1 values) := by
    rw [find, spectrum_standard]
    change Except.ok (SpectralSearch.standard.findIn D.sources values) = _
    rw [hk]
  obtain ⟨angle, hangle, hcase⟩ := findIn_one_cases SpectralSearch.standard values
  refine ⟨_, angle, hfound, hangle, ?_⟩
  rcases hcase with rfl | ⟨k, rfl, hpeak⟩
  · exact hfallback
  · by_contra hnear
    have hfraction : (0 : ℝ) ≤ Peaks.defaultFraction := by
      change (0 : ℝ) ≤ 1e-9
      norm_num
    obtain ⟨hinterior, hbefore, hafter⟩ := Peaks.lt_of_isPeak hfraction hpeak
    rw [hvalue, hvalue] at hbefore hafter
    obtain ⟨k', hk' | hk', hle⟩ := hcovered k hinterior.1 hinterior.2 (not_lt.mp hnear)
    · subst hk'
      exact absurd hbefore (not_lt.mpr hle)
    · subst hk'
      exact absurd hafter (not_lt.mpr hle)

/-- Close to the source the spectrum falls with the distance in sine. -/
theorem seen_le_seen {θ₀ θ θ' : ℝ} (hclose : |θ - θ₀| ≤ Real.pi / 360)
    (hnearer : |Real.sin θ' - Real.sin θ₀| ≤ |Real.sin θ - Real.sin θ₀|) :
    seen θ₀ θ ≤ seen θ₀ θ' := by
  have hsmall : |Real.sin θ - Real.sin θ₀| ≤ 0.01 := by
    linarith [Real.abs_sin_sub_sin_le θ θ₀, Real.pi_lt_d2]
  rw [seen, seen, ← leakAt_abs, ← leakAt_abs (Real.sin θ' - Real.sin θ₀)]
  exact value_antitone (by norm_num) (by norm_num) (leakAt_mono (abs_nonneg _) hnearer hsmall)

/-- A direction that is at least as near to the first point as to the second has no other interior
point within a step. -/
theorem covered_of_first {θ : ℝ} (hθ : θ ∈ front)
    (hend : |Real.sin (SearchGrid.standard.point 0) - Real.sin θ| ≤
      |Real.sin (SearchGrid.standard.point 1) - Real.sin θ|) {k : ℕ} (hfirst : 0 < k)
    (hnear : |SearchGrid.standard.point k - θ| ≤ Real.pi / 360) :
    ∃ k', (k' = k - 1 ∨ k' = k + 1) ∧
      seen θ (SearchGrid.standard.point k) ≤ seen θ (SearchGrid.standard.point k') := by
  have hlt := SearchGrid.lt_of_abs_le hθ one_pos (by decide : 1 < 360) hend
  have hk : k = 1 := le_antisymm (SearchGrid.ge_of_abs_sub_le hlt hnear) hfirst
  subst hk
  exact ⟨0, .inl rfl, seen_le_seen hnear hend⟩

/-- The same at the other end. -/
theorem covered_of_last {θ : ℝ} (hθ : θ ∈ front)
    (hend : |Real.sin (SearchGrid.standard.point 359) - Real.sin θ| ≤
      |Real.sin (SearchGrid.standard.point 358) - Real.sin θ|) {k : ℕ} (hlast : k + 1 < 360)
    (hnear : |SearchGrid.standard.point k - θ| ≤ Real.pi / 360) :
    ∃ k', (k' = k - 1 ∨ k' = k + 1) ∧
      seen θ (SearchGrid.standard.point k) ≤ seen θ (SearchGrid.standard.point k') := by
  have hlt := SearchGrid.gt_of_abs_le hθ (by decide : 358 < 359) (by decide : 359 < 360) hend
  have hk : k = 358 := by
    have hle := SearchGrid.le_of_abs_sub_le hlt hnear
    omega
  subst hk
  exact ⟨359, .inr rfl, seen_le_seen hnear hend⟩

/-- The direction half way, in sine, from broadside to the next point. -/
noncomputable def halfWay : ℝ := Real.arcsin (0.5 * Real.sin (SearchGrid.standard.point 181))

theorem point_next : SearchGrid.standard.point 181 = Real.pi / 360 := by
  rw [SearchGrid.point_standard_succ, SearchGrid.point_broadside, zero_add]

theorem halfWay_eq : halfWay = Real.arcsin (Real.sin (Real.pi / 360) / 2) := by
  rw [halfWay, point_next]
  congr 1
  ring

theorem sin_step_pos : 0 < Real.sin (Real.pi / 360) :=
  Real.sin_pos_of_pos_of_lt_pi (by positivity) (by linarith [Real.pi_pos])

theorem sin_halfWay : Real.sin halfWay = Real.sin (Real.pi / 360) / 2 := by
  have hpos := sin_step_pos
  have hone := Real.sin_le_one (Real.pi / 360)
  rw [halfWay_eq]
  exact Real.sin_arcsin (by linarith) (by linarith)

theorem halfWay_mem : halfWay ∈ Set.Ioo 0 (Real.pi / 360) := by
  have hpi := Real.pi_pos
  have hpos := sin_step_pos
  rw [halfWay_eq]
  constructor
  · exact Real.arcsin_pos.mpr (by linarith)
  · rw [Real.arcsin_lt_iff_lt_sin' ⟨by linarith, by linarith⟩]
    linarith

/-- Half way between two points in sine, either point has the other as strong beside it. -/
theorem covered_of_halfWay {k : ℕ}
    (hnear : |SearchGrid.standard.point k - halfWay| ≤ Real.pi / 360) :
    ∃ k', (k' = k - 1 ∨ k' = k + 1) ∧
      seen halfWay (SearchGrid.standard.point k) ≤ seen halfWay (SearchGrid.standard.point k') := by
  obtain ⟨hlow, hhigh⟩ := halfWay_mem
  have hboth : seen halfWay (SearchGrid.standard.point 180) =
      seen halfWay (SearchGrid.standard.point 181) := by
    have hmirrored : Real.sin 0 - Real.sin halfWay =
        -(Real.sin (Real.pi / 360) - Real.sin halfWay) := by
      rw [Real.sin_zero, sin_halfWay]
      ring
    rw [seen, seen, SearchGrid.point_broadside, point_next, hmirrored, ← leakAt_abs, abs_neg,
      leakAt_abs]
  have hafter : 180 ≤ k := SearchGrid.le_of_abs_sub_le (SearchGrid.point_broadside ▸ hlow) hnear
  have hbefore : k ≤ 181 := SearchGrid.ge_of_abs_sub_le (point_next ▸ hhigh) hnear
  have hk : k = 180 ∨ k = 181 := by omega
  rcases hk with rfl | rfl
  · exact ⟨181, .inr rfl, hboth.le⟩
  · exact ⟨180, .inl rfl, hboth.ge⟩

end SpectralSearch

namespace Estimator

variable {S : Solvers ℝ} {n : ℕ}

/-- The estimate from a covariance whose search has a result. -/
theorem ofCovarianceTensor_of_find
    {C : Mat (Cplx ℝ) Geometry.standard.size Geometry.standard.size}
    {found : SpectralSearch.Found ℝ} (h : SpectralSearch.standard.find .standard
      (Decomposition.solved S C standard.sources) = .ok found) :
    standard.ofCovarianceTensor S (.ofMat C) =
      .ok ⟨1, (Decomposition.solved S C standard.sources).values.toList,
        .spectral found, none⟩ := by
  have hestimate := ofCovarianceTensor_ofMat S standard C
  rw [ofDecomposition_spectral S rfl] at hestimate
  exact hestimate.trans (congrArg _ h)

/-- An estimator without settings finds one source, wherever it stands among the interior points
of the grid, on the point whose sine is nearest to that of its direction. -/
theorem finds_nearest_point (hS : S.IsHermitianExact) {θ : ℝ}
    (hθ : θ ∈ Set.Ico (-(Real.pi / 2)) (Real.pi / 2)) {row : Mat (Cplx ℝ) 1 n}
    (hrow : row.toMatrix ≠ 0) (averaging : Bool) {j : Fin 360} (hfirst : 0 < j.val)
    (hlast : j.val + 1 < 360) (hnearest : SearchGrid.standard.IsNearest θ j) :
    ∃ E estimate, ofConfig .standard .default none = .ok E ∧
      E.ofCovarianceTensor S
        (.ofMat ((NoiselessScene.ofRow .standard θ row hrow).covariance averaging)) =
          .ok estimate ∧
      estimate.angles? = some [SearchGrid.standard.point j] ∧
      |SearchGrid.standard.point j - θ| ≤ Real.pi / 360 ∧
      estimate.peaks = 1 ∧ estimate.resolutionLimited = false := by
  let X := NoiselessScene.ofRow .standard θ row hrow
  let D := Decomposition.solved S (X.covariance averaging) standard.sources
  have hD : D.IsSpectral (X.covariance averaging) := X.isSpectral_solved hS one_pos averaging _
  have hfront : θ ∈ front := front_eq ▸ Set.Ico_subset_Icc_self hθ
  have hangle : X.angles.get 0 = θ := NoiselessScene.ofRow_angle .standard θ hrow 0
  obtain ⟨spectrum, hfind⟩ := SpectralSearch.find_standard (D := D) rfl X hD (0 : Fin 1)
    (hangle.symm ▸ hfront) hfirst hlast (hangle.symm ▸ hnearest)
  exact ⟨standard, _, ofConfig_default, ofCovarianceTensor_of_find hfind, rfl,
    (hnearest.abs_sub_lt hfront hfirst hlast).le, rfl, rfl⟩

/-- A source at broadside stands on the middle point. -/
theorem finds_nearest_point_broadside :
    ∃ (hrow : (Mat.identity 1 : Mat (Cplx ℝ) 1 1).toMatrix ≠ 0) (E : Estimator ℝ)
      (estimate : Estimate ℝ), ofConfig .standard .default none = .ok E ∧
      E.ofCovarianceTensor .ideal
        (.ofMat ((NoiselessScene.ofRow .standard 0 (.identity 1) hrow).covariance false)) =
          .ok estimate ∧
      estimate.angles? = some [0] ∧ estimate.peaks = 1 ∧ estimate.resolutionLimited = false := by
  have hpi := Real.pi_pos
  have hrow : (Mat.identity 1 : Mat (Cplx ℝ) 1 1).toMatrix ≠ 0 := by
    rw [Mat.toMatrix_identity]
    exact one_ne_zero
  have hnearest : SearchGrid.standard.IsNearest 0 (⟨180, by decide⟩ : Fin 360) := by
    intro k _
    dsimp only
    rw [SearchGrid.point_broadside, sub_self, abs_zero, mul_zero]
    exact abs_nonneg _
  obtain ⟨E, estimate, hE, hestimate, hangles, -, hpeaks, hlimited⟩ :=
    finds_nearest_point Solvers.ideal_isExact.toIsHermitianExact
      (θ := 0) ⟨by linarith, by linarith⟩ hrow false (by decide) (by decide) hnearest
  refine ⟨hrow, E, estimate, hE, hestimate, ?_, hpeaks, hlimited⟩
  rw [hangles]
  exact congrArg (fun angle => some [angle]) SearchGrid.point_broadside

/-- Where every point within a step of a source has a neighbour as strong, the estimate is more
than a step off. -/
theorem exists_estimate_far (hS : S.IsHermitianExact) (X : NoiselessScene .standard 1 n)
    (averaging : Bool) (hfallback : Real.pi / 360 < |-Real.pi / 4 - X.angles.get 0|)
    (hcovered : ∀ k : ℕ, 0 < k → k + 1 < 360 →
      |SearchGrid.standard.point k - X.angles.get 0| ≤ Real.pi / 360 →
        ∃ k', (k' = k - 1 ∨ k' = k + 1) ∧
          SpectralSearch.seen (X.angles.get 0) (SearchGrid.standard.point k) ≤
            SpectralSearch.seen (X.angles.get 0) (SearchGrid.standard.point k')) :
    ∃ estimate angle, standard.ofCovarianceTensor S (.ofMat (X.covariance averaging)) =
        .ok estimate ∧
      estimate.angles? = some [angle] ∧ Real.pi / 360 < |angle - X.angles.get 0| := by
  let D := Decomposition.solved S (X.covariance averaging) standard.sources
  have hD : D.IsSpectral (X.covariance averaging) := X.isSpectral_solved hS one_pos averaging _
  obtain ⟨found, angle, hfind, hangles, hfar⟩ :=
    SpectralSearch.exists_find_far (D := D) rfl X hD (0 : Fin 1) hfallback hcovered
  exact ⟨_, angle, ofCovarianceTensor_of_find hfind, congrArg some hangles, hfar⟩

/-- A source that is at least as near, in sine, to the first or the last point of the grid as to
the point beside it is missed: no peak stands at an end. -/
theorem misses_where_end_is_nearest (hS : S.IsHermitianExact) (X : NoiselessScene .standard 1 n)
    (averaging : Bool) (hθ : X.angles.get 0 ∈ front)
    (hend : |Real.sin (SearchGrid.standard.point 0) - Real.sin (X.angles.get 0)| ≤
        |Real.sin (SearchGrid.standard.point 1) - Real.sin (X.angles.get 0)| ∨
      |Real.sin (SearchGrid.standard.point 359) - Real.sin (X.angles.get 0)| ≤
        |Real.sin (SearchGrid.standard.point 358) - Real.sin (X.angles.get 0)|) :
    ∃ estimate angle, standard.ofCovarianceTensor S (.ofMat (X.covariance averaging)) =
        .ok estimate ∧
      estimate.angles? = some [angle] ∧ Real.pi / 360 < |angle - X.angles.get 0| := by
  have hpi := Real.pi_pos
  have hfallback : Real.pi / 360 < |-Real.pi / 4 - X.angles.get 0| := by
    rcases hend with hstart | hstop
    · have hlt := SearchGrid.lt_of_abs_le hθ one_pos (by decide : 1 < 360) hstart
      rw [SearchGrid.point_standard, Nat.cast_one] at hlt
      exact lt_of_lt_of_le (by linarith) (le_abs_self _)
    · have hlt := SearchGrid.gt_of_abs_le hθ (by decide : 358 < 359) (by decide) hstop
      rw [SearchGrid.point_standard] at hlt
      push_cast at hlt
      exact lt_of_lt_of_le (by linarith) (neg_le_abs _)
  apply exists_estimate_far hS X averaging hfallback
  intro k hfirst hlast hnear
  rcases hend with hstart | hstop
  · exact SpectralSearch.covered_of_first hθ hstart hfirst hnear
  · exact SpectralSearch.covered_of_last hθ hstop hlast hnear

/-- A source at the start of the range is missed, since the points at the ends of the grid are no
peaks; and so is one half way between two points in sine, since neither rises above the other. -/
theorem misses_end_and_halfWay :
    ofConfig .standard .default none = .ok standard ∧
    (∃ estimate angle, standard.ofCovarianceTensor .ideal
        (.ofMat ((NoiselessScene.single .standard (-(Real.pi / 2))).covariance false)) =
          .ok estimate ∧
      estimate.angles? = some [angle] ∧ Real.pi / 360 < |angle - -(Real.pi / 2)|) ∧
    SpectralSearch.halfWay ∈ Set.Ico (-(Real.pi / 2)) (Real.pi / 2) ∧
    ∃ estimate angle, standard.ofCovarianceTensor .ideal
        (.ofMat ((NoiselessScene.single .standard SpectralSearch.halfWay).covariance false)) =
          .ok estimate ∧
      estimate.angles? = some [angle] ∧ Real.pi / 360 < |angle - SpectralSearch.halfWay| := by
  have hpi := Real.pi_pos
  have hS := Solvers.ideal_isExact.toIsHermitianExact
  obtain ⟨hlow, hhigh⟩ := SpectralSearch.halfWay_mem
  refine ⟨ofConfig_default, ?_, ⟨by linarith, by linarith⟩, ?_⟩
  · have hmissed := misses_where_end_is_nearest hS (.single .standard (-(Real.pi / 2))) false
    rw [NoiselessScene.single_angle] at hmissed
    have hsource : SearchGrid.standard.point 0 = -(Real.pi / 2) := by
      rw [SearchGrid.point_standard, Nat.cast_zero, zero_mul, add_zero]
    have hfront : -(Real.pi / 2) ∈ front := hsource ▸ SearchGrid.point_mem_front (by decide)
    refine hmissed hfront (.inl ?_)
    rw [hsource, sub_self, abs_zero]
    exact abs_nonneg _
  · have hmissed := exists_estimate_far hS (.single .standard SpectralSearch.halfWay) false
    rw [NoiselessScene.single_angle] at hmissed
    apply hmissed
    · rw [abs_of_neg (by linarith)]
      linarith
    · intro k _ _ hnear
      exact SpectralSearch.covered_of_halfWay hnear

end Estimator

end PhasedArray
