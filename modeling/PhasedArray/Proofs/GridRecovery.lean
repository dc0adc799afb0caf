import PhasedArray.Proofs.Exact.Ideal
import PhasedArray.Proofs.Peaks
import PhasedArray.Proofs.SearchGrid
import PhasedArray.Proofs.Spectrum

set_option autoImplicit false

/-!
# Sources on the search grid (SPEC §4.4)

The spectrum has the sentinel at every source on the grid.  Where no other grid point
comes near the sentinel, these values are peaks, no other peak is as strong, and the search
returns their directions in ascending order.
-/

namespace PhasedArray

/-! ## The grid -/

/-- Whether a grid point has a source. -/
def taken {k m : ℕ} (places : Fin k → Fin m) (i : Fin m) : Bool := decide (∃ j, i = places j)

/-- The grid points with a source, in ascending order. -/
theorem perm_taken {k m : ℕ} {places : Fin k → Fin m} (h : Function.Injective places) :
    ((List.finRange m).filter (taken places)).Perm ((List.finRange k).map places) := by
  rw [List.perm_ext_iff_of_nodup ((List.nodup_finRange _).filter _)
    ((List.nodup_finRange _).map h)]
  intro i
  simp [taken, eq_comm]

/-- Places of a grid that are interior, and no two of them the same or neighbouring ones. -/
structure AreApart {k m : ℕ} (places : Fin k → Fin m) : Prop where
  injective : Function.Injective places
  interior : ∀ j, 0 < (places j).val ∧ (places j).val + 1 < m
  apart : ∀ i j, (places i).val + 1 ≠ (places j).val

namespace AreApart

variable {k m : ℕ} {places : Fin k → Fin m}

theorem countP_taken (h : AreApart places) : (List.finRange m).countP (taken places) = k := by
  rw [List.countP_eq_length_filter, (perm_taken h.injective).length_eq, List.length_map,
    List.length_finRange]

/-- No neighbour of such a place is one. -/
theorem not_taken (h : AreApart places) {i : Fin m} {j : Fin k}
    (hi : i.val + 1 = (places j).val ∨ i.val = (places j).val + 1) :
    ∀ j', i ≠ places j' := by
  rintro j' rfl
  rcases hi with hbefore | hafter
  · exact h.apart j' j hbefore
  · exact h.apart j j' hafter.symm

end AreApart

/-- The sources of a scene stand on interior points of a grid, no two of them on
neighbouring ones. -/
structure NoiselessScene.OnGrid {g : Geometry ℝ} {k n : ℕ} (X : NoiselessScene g k n)
    (grid : SearchGrid ℝ) (places : Fin k → Fin grid.size) : Prop where
  angle : ∀ j, X.angles.get j = grid.point (places j)
  interior : ∀ j, 0 < (places j).val ∧ (places j).val + 1 < grid.size
  apart : ∀ i j, (places i).val + 1 ≠ (places j).val

namespace NoiselessScene.OnGrid

variable {g : Geometry ℝ} {k n : ℕ} {X : NoiselessScene g k n} {grid : SearchGrid ℝ}
  {places : Fin k → Fin grid.size}

theorem injective (h : X.OnGrid grid places) : Function.Injective places := by
  intro i j hij
  apply X.distinct
  change g.phasor _ = g.phasor _
  rw [h.angle, h.angle, hij]

theorem areApart (h : X.OnGrid grid places) : AreApart places :=
  ⟨h.injective, h.interior, h.apart⟩

/-- The directions of those points are the directions of the sources. -/
theorem perm_angles (h : X.OnGrid grid places) :
    (((List.finRange grid.size).filter (taken places)).map
      fun i : Fin grid.size => grid.point i).Perm X.angles.toList := by
  have hangles : X.angles.toList =
      ((List.finRange k).map places).map fun i : Fin grid.size => grid.point i := by
    rw [Vec.toList_eq_ofFn, List.ofFn_eq_map, List.map_map]
    exact List.map_congr_left fun j _ => h.angle j
  rw [hangles]
  exact (perm_taken h.injective).map _

end NoiselessScene.OnGrid

namespace SpectralSearch

variable {s : SpectralSearch ℝ}

/-- If places that are apart have a value that all other values stay below by more than the
margin of a peak, the search returns the directions of those places. -/
theorem findIn_of_areApart {k : ℕ} {places : Fin k → Fin s.grid.size} (h : AreApart places)
    (hk : 0 < k)
    {values : Vector ℝ s.grid.size} {v : ℝ} (hv : 0 < v)
    (hsource : ∀ j, values.get (places j) = v)
    (hrest : ∀ i, (∀ j, i ≠ places j) → 0 < values.get i ∧ values.get i < (1 - 1e-9) * v) :
    s.findIn k values =
      { angles := ((List.finRange s.grid.size).filter (taken places)).map
          fun i : Fin s.grid.size => s.grid.point i
        spectrum := values.toList
        peaks := k } := by
  have hbelow : ∀ i, (∀ j, i ≠ places j) → values.get i + 1e-9 * v < v := by
    intro i hi
    linarith [(hrest i hi).2]
  have hrest' : ∀ i, ¬ taken places i → ∀ j, i ≠ places j := by
    intro i hi
    simpa [taken] using hi
  have hmargin : Peaks.margin Peaks.defaultFraction values = 1e-9 * v := by
    apply Peaks.margin_eq
    · exact ⟨places ⟨0, hk⟩, by rw [hsource, abs_of_pos hv]⟩
    · intro i
      by_cases hi : ∃ j, i = places j
      · obtain ⟨j, rfl⟩ := hi
        rw [hsource, abs_of_pos hv]
      · push Not at hi
        rw [abs_of_pos (hrest i hi).1]
        linarith [hbelow i hi]
  have hpeak : ∀ i, taken places i →
      Peaks.isPeak (Peaks.margin Peaks.defaultFraction values) values i := by
    intro i hi
    obtain ⟨j, rfl⟩ := of_decide_eq_true hi
    rw [hmargin, Peaks.isPeak_iff, hsource]
    exact ⟨h.interior j,
      hbelow _ (h.not_taken (.inl (Nat.sub_add_cancel (h.interior j).1))),
      hbelow _ (h.not_taken (.inr rfl))⟩
  have htop : ∀ i, taken places i → values.get i = v := by
    intro i hi
    obtain ⟨j, rfl⟩ := of_decide_eq_true hi
    exact hsource j
  have hpeaks : Peaks.strongest Peaks.defaultFraction k values =
      (List.finRange s.grid.size).filter (taken places) := by
    have hchosen := Peaks.strongest_eq_filter hpeak htop fun i hi => by
      linarith [hbelow i (hrest' i hi)]
    rw [h.countP_taken] at hchosen
    exact hchosen
  have hlength : ((List.finRange s.grid.size).filter (taken places)).length = k := by
    rw [← List.countP_eq_length_filter, h.countP_taken]
  rw [findIn, hpeaks, hlength, List.drop_eq_nil_of_le (length_fallbackAngles k).le,
    List.append_nil]

/-- A single such place is all that a search for one direction returns. -/
theorem findIn_of_top {j : Fin s.grid.size} (hj : 0 < j.val ∧ j.val + 1 < s.grid.size)
    {values : Vector ℝ s.grid.size} (htop : 0 < values.get j)
    (hrest : ∀ i, i ≠ j → 0 < values.get i ∧ values.get i < (1 - 1e-9) * values.get j) :
    s.findIn 1 values = ⟨[s.grid.point j], values.toList, 1⟩ := by
  have hplaces : AreApart fun _ : Fin 1 => j :=
    ⟨Function.injective_of_subsingleton _, fun _ => hj, fun _ _ => Nat.succ_ne_self _⟩
  have hplace : (List.finRange s.grid.size).filter (taken fun _ : Fin 1 => j) = [j] :=
    List.perm_singleton.mp (perm_taken hplaces.injective)
  rw [findIn_of_areApart hplaces one_pos htop (fun _ => rfl) fun i hi => hrest i (hi 0), hplace]
  rfl

/-- The search in a decomposition of the scene's covariance finds all sources. -/
theorem find_onGrid {g : Geometry ℝ} {D : Decomposition ℝ g.size} {n : ℕ}
    {X : NoiselessScene g D.sources n} {averaging : Bool}
    (hD : D.IsSpectral (X.covariance averaging))
    {f c : Number ℝ} (hf : s.floor = .number f) (hfloor : 0 < f.value)
    (hc : s.sentinel = .number c) (hsentinel : 0 < c.value)
    {places : Fin D.sources → Fin s.grid.size} (hX : X.OnGrid s.grid places)
    (hrest : ∀ i, (∀ j, i ≠ places j) →
      f.value ≤ leakage D.noise (g.steering (s.grid.point i)) ∧
      1 / leakage D.noise (g.steering (s.grid.point i)) < (1 - 1e-9) * c.value) :
    ∃ spectrum, s.find g D = .ok
      { angles := ((List.finRange s.grid.size).filter (taken places)).map
          fun i : Fin s.grid.size => s.grid.point i
        spectrum := spectrum
        peaks := D.sources } := by
  let values := s.grid.points.map (valueAt f.value c.value g D.noise)
  have hspectrum : s.spectrum g D.noise = .ok values := spectrumAt_number hf hc g D.noise _
  have hvalue : ∀ i : Fin s.grid.size,
      values.get i = valueAt f.value c.value g D.noise (s.grid.point i) := by
    intro i
    rw [Vec.get_map, SearchGrid.points, Vec.get_ofFn]
  have hsource : ∀ j, values.get (places j) = c.value := by
    intro j
    rw [hvalue, ← hX.angle]
    exact valueAt_eq_sentinel X hD hfloor c.value ⟨j, rfl⟩
  have hother : ∀ i, (∀ j, i ≠ places j) →
      0 < values.get i ∧ values.get i < (1 - 1e-9) * c.value := by
    intro i hi
    obtain ⟨hreach, hbelow⟩ := hrest i hi
    rw [hvalue, valueAt, value, if_pos hreach]
    exact ⟨one_div_pos.mpr (hfloor.trans_le hreach), hbelow⟩
  refine ⟨values.toList, ?_⟩
  rw [find, hspectrum, ← findIn_of_areApart hX.areApart D.sources.2.1 hsentinel hsource hother]
  rfl

end SpectralSearch

namespace Estimator

/-- A spectral search recovers sources on its grid.  If every grid point without a source
leaks enough into the noise space to reach the floor, and its reciprocal stays below the
sentinel by more than the margin of a peak, then the estimate from the covariance has the
directions of the sources in ascending order, as many peaks as sources, and is not limited in
resolution. -/
theorem spectral_recovers_grid_sources {S : Solvers ℝ} (hS : S.IsHermitianExact) {E : Estimator ℝ}
    {s : SpectralSearch ℝ} (hE : E.search = .spectral s) (hsteps : 0 < s.grid.steps)
    {f c : Number ℝ} (hf : s.floor = .number f) (hfloor : 0 < f.value)
    (hc : s.sentinel = .number c) (hsentinel : 0 < c.value) {n : ℕ}
    {X : NoiselessScene E.geometry E.sources n} {places : Fin E.sources → Fin s.grid.size}
    (hX : X.OnGrid s.grid places) {averaging : Bool} {D : Decomposition ℝ E.geometry.size}
    (hD : Decomposition.ofCovariance S (X.covariance averaging) E.sources = .ok D)
    (hrest : ∀ i, (∀ j, i ≠ places j) →
      f.value ≤ SpectralSearch.leakage D.noise (E.geometry.steering (s.grid.point i)) ∧
      1 / SpectralSearch.leakage D.noise (E.geometry.steering (s.grid.point i)) <
        (1 - 1e-9) * c.value) :
    ∃ estimate angles, E.ofCovarianceTensor S (.ofMat (X.covariance averaging)) = .ok estimate ∧
      estimate.angles? = some angles ∧ angles.Perm X.angles.toList ∧ angles.Pairwise (· < ·) ∧
      estimate.peaks = E.sources ∧ estimate.resolutionLimited = false := by
  have hsolved : Decomposition.solved S (X.covariance averaging) E.sources = D := by
    rw [Decomposition.ofCovariance_eq] at hD
    exact Except.ok.inj hD
  subst hsolved
  let D := Decomposition.solved S (X.covariance averaging) E.sources
  have hspectral : D.IsSpectral (X.covariance averaging) :=
    Decomposition.isSpectral_solved hS (X.covariance_isHermitian E.sources.2.1 averaging) _
  obtain ⟨spectrum, hfind⟩ :=
    SpectralSearch.find_onGrid (D := D) hspectral hf hfloor hc hsentinel hX hrest
  let angles := ((List.finRange s.grid.size).filter (taken places)).map
    fun i : Fin s.grid.size => s.grid.point i
  refine ⟨⟨E.sources, D.values.toList, .spectral ⟨angles, spectrum, E.sources⟩, none⟩, angles, ?_,
    rfl, hX.perm_angles, ?_, rfl, ?_⟩
  · rw [ofCovarianceTensor_ofMat, ofDecomposition_spectral S hE, hfind]
    rfl
  · rw [List.pairwise_map]
    apply ((List.pairwise_lt_finRange _).filter _).imp
    intro i j hij
    exact SearchGrid.point_strictMono hsteps hij
  · exact decide_eq_false (lt_irrefl _)

/-- Three grid points suffice for a source on the middle one before two elements. -/
theorem spectral_recovers_grid_sources_pair :
    ∃ estimate, (Estimator.pair (.spectral .coarse)).ofCovarianceTensor .ideal
        (.ofMat ((NoiselessScene.single .pair (-(Real.pi / 6))).covariance false)) = .ok estimate ∧
      estimate.angles? = some [-(Real.pi / 6)] ∧ estimate.peaks = 1 ∧
      estimate.resolutionLimited = false := by
  let k : SourceCount Geometry.pair.size := ⟨1, by decide⟩
  let X : NoiselessScene .pair k 1 := NoiselessScene.single .pair (-(Real.pi / 6))
  let D := Decomposition.solved .ideal (X.covariance false) k
  have hD : D.IsSpectral (X.covariance false) :=
    Decomposition.isSpectral_solved Solvers.ideal_isExact.toIsHermitianExact
      (X.covariance_isHermitian k.2.1 false) _
  have hX : X.OnGrid SpectralSearch.coarse.grid fun _ => (1 : Fin 3) := by
    constructor
    · intro j
      exact (NoiselessScene.single_angle .pair _ j).trans SpectralSearch.coarse_point_one.symm
    · intro j
      decide
    · intro i j
      decide
  have hphasor : ∀ j, X.phasors j = -Complex.I := fun j =>
    (congrArg Geometry.pair.phasor (NoiselessScene.single_angle .pair _ j)).trans
      Geometry.phasor_pair_sixth
  obtain ⟨hfirst, hlast⟩ := SpectralSearch.leakage_coarse (D := D) (k := k) rfl rfl X hD hphasor
  have hrest : ∀ i : Fin 3, (∀ _ : Fin k, i ≠ 1) →
      1e-10 ≤ SpectralSearch.leakage D.noise
        (Geometry.pair.steering (SpectralSearch.coarse.grid.point i)) ∧
      1 / SpectralSearch.leakage D.noise
        (Geometry.pair.steering (SpectralSearch.coarse.grid.point i)) < (1 - 1e-9) * 1e10 := by
    have hone : (1e-10 : ℝ) ≤ 1 ∧ 1 / (1 : ℝ) < (1 - 1e-9) * 1e10 := by norm_num
    have htwo : (1e-10 : ℝ) ≤ 2 ∧ 1 / (2 : ℝ) < (1 - 1e-9) * 1e10 := by norm_num
    intro i hi
    match i with
    | 0 => exact hfirst ▸ hone
    | 1 => exact absurd rfl (hi ⟨0, by decide⟩)
    | 2 => exact hlast ▸ htwo
  have hfloor : (0 : ℝ) < 1e-10 := by norm_num
  have hsentinel : (0 : ℝ) < 1e10 := by norm_num
  obtain ⟨estimate, angles, hestimate, hangles, hperm, -, hpeaks, hlimited⟩ :=
    spectral_recovers_grid_sources Solvers.ideal_isExact.toIsHermitianExact
      (E := .pair (.spectral .coarse)) (s := .coarse) rfl
      (SearchGrid.steps_pos SpectralSearch.coarse_grid)
      (f := .real 1e-10) (c := .real 1e10) rfl hfloor rfl hsentinel hX
      (Decomposition.ofCovariance_eq _ _ _) hrest
  refine ⟨estimate, hestimate, ?_, hpeaks, hlimited⟩
  rw [hangles, List.perm_singleton.mp hperm]

end Estimator

end PhasedArray
