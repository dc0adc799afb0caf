import PhasedArray.Engine
import PhasedArray.Proofs.Exact.Lifted
import PhasedArray.Proofs.FiniteSamples

set_option autoImplicit false

/-!
# A small engine (SPEC §9)

Two elements half a wavelength apart and a search of three directions for one source: the
smallest engine there is, among scalars with infinities.  It has an estimate for all finite
samples, and every scene that can be read has such samples if the draws are finite.
-/

namespace PhasedArray

open Extended

theorem Geometry.small_size_pos : 0 < 2 := two_pos

theorem Geometry.small_spacing_pos : (0 : Extended) < 0.5 :=
  finite_lt.mpr (by norm_num)

/-- Two elements half a wavelength apart. -/
noncomputable def Geometry.small : Geometry Extended where
  size := 2
  spacing := 0.5
  size_pos := small_size_pos
  spacing_pos := small_spacing_pos

theorem Geometry.sameArray_small : Geometry.small.sameArray .small = true := by
  have hsame : Scalar.same (0.5 : Extended) 0.5 = true := by
    have hle : (0.5 : Extended) ≤ 0.5 := le_refl (0.5 : ℝ)
    rw [Scalar.same, decide_eq_true hle]
    rfl
  change (Scalar.same (0.5 : Extended) 0.5 || _) = true
  rw [hsame, Bool.true_or]

/-- A search of three directions. -/
noncomputable def SpectralSearch.small : SpectralSearch Extended :=
  ⟨.ofNat 3, defaultFloor, defaultSentinel⟩

namespace Estimator

theorem small_sources : 0 < 1 ∧ 1 < Geometry.small.size := ⟨one_pos, one_lt_two⟩

/-- A search for one source before two elements. -/
noncomputable def small : Estimator Extended :=
  ⟨.small, ⟨1, small_sources⟩, false, .spectral .small⟩

/-- The same search of an averaged covariance. -/
noncomputable def smallAveraged : Estimator Extended := { small with averaging := true }

/-- The configuration of a search of three directions. -/
noncomputable def Config.small : Config Extended := { Config.default with gridPoints := .whole 3 }

theorem ofConfig_small : ofConfig .small .small none = .ok small := by
  have hcount : (Config.small : Config Extended).sourceCount .small = .ok ⟨1, small_sources⟩ := by
    unfold Config.sourceCount SourceCount.ofSetting
    change (Setting.toWhole _ _ (.whole 1 : Setting Extended) >>= _) = _
    rw [Setting.toWhole_whole]
    rfl
  change spectral .small .small = _
  simp only [spectral, Outcome.bind_eq_ok]
  exact ⟨_, hcount, .ofNat 3, SearchGrid.ofSetting_whole three_pos (by decide), rfl⟩

/-- It has an estimate for all finite samples. -/
theorem exists_estimate_small (S : Solvers Extended) {X : Snapshots Extended}
    (hX : X.elements = 2) : ∃ e, small.estimateSnapshots S X = .ok e :=
  exists_estimateSnapshots (s := .small) rfl rfl rfl S hX

end Estimator

namespace Engine

/-- The configuration of two elements and a search of three directions. -/
def smallConfig : Setting Extended :=
  .table [("array", .table [("num_elements", .whole 2)]),
    ("doa", .table [("num_grid_points", .whole 3)])]

/-- The optimizer of an engine that is configured without one. -/
noncomputable def smallOptimizer : Optimizer Extended where
  budget := .whole 100
  threshold := .real 0.9
  stepSize := .real 0.1
  penalty := .real 0
  overlap := .real 0.9
  patternPoints := SearchGrid.defaultPoints

/-- The engine. -/
noncomputable def Setup.small : Setup Extended := ⟨.small, .small, smallOptimizer, .small⟩

theorem ofConfig_small : ofConfig smallConfig = .ok Setup.small := by
  change setup (.table [("num_elements", .whole 2)]) (.table [("num_grid_points", .whole 3)])
    (.table []) = _
  have hgeometry : Geometry.ofSettings (.whole 2) Geometry.defaultSpacing = .ok .small :=
    Geometry.ofSettings_numbers (n := 2) two_pos Geometry.small_spacing_pos rfl
  simp only [setup, Outcome.bind_eq_ok]
  refine ⟨_, rfl, .small, hgeometry, _, rfl, .small, rfl, [], rfl,
    ⟨.whole 100, .real 0.9, .real 0.1, .real 0, .real 0.9, SearchGrid.defaultPoints⟩, rfl,
    smallOptimizer, ?_, .small, Estimator.ofConfig_small, rfl⟩
  simp only [Optimizer.ofConfig, Outcome.check_eq_ok, Outcome.bind_eq_ok]
  refine ⟨.real 0.1, rfl, ?_, .real 0, rfl, ?_, rfl⟩
  · rw [Number.atMostZero, decide_eq_true_iff]
    change ¬ (0.1 : ℝ) ≤ 0
    norm_num
  · rw [Number.belowZero, decide_eq_true_iff]
    exact fun h => h.2 h.1

end Engine

end PhasedArray
