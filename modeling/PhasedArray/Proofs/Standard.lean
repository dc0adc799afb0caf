import PhasedArray.Proofs.OptimizerRequest
import PhasedArray.Proofs.Sessions
import PhasedArray.Proofs.Spectrum

set_option autoImplicit false

/-!
# What is made without settings (SPEC §9)

Eight elements half a wavelength apart, one source that is searched for in 360 directions, an
optimizer of short steps, and an engine of these: that is what a caller has who asks for nothing
in particular.  Such an engine finds directions in all snapshots of its array.
-/

namespace PhasedArray

/-- A search of directions half a degree apart. -/
noncomputable def SpectralSearch.standard : SpectralSearch ℝ :=
  ⟨.standard, defaultFloor, defaultSentinel⟩

/-! ## The estimator -/

namespace Estimator

theorem standard_sources : 0 < 1 ∧ 1 < Geometry.standard.size := ⟨Nat.one_pos, Nat.le_add_left 2 6⟩

/-- A search for one source before eight elements. -/
noncomputable def standard : Estimator ℝ :=
  ⟨.standard, ⟨1, standard_sources⟩, false, .spectral .standard⟩

/-- It is the estimator of a configuration without settings. -/
theorem ofConfig_default : ofConfig .standard .default none = .ok standard := by
  have hcount : (Config.default : Config ℝ).sourceCount .standard = .ok ⟨1, standard_sources⟩ := by
    unfold Config.sourceCount SourceCount.ofSetting
    change (Setting.toWhole _ _ (.whole 1 : Setting ℝ) >>= _) = _
    rw [Setting.toWhole_whole]
    rfl
  change spectral .standard .default = _
  simp only [spectral, Outcome.bind_eq_ok]
  exact ⟨_, hcount, .standard, SearchGrid.ofSetting_standard, rfl⟩

/-- It finds directions in all snapshots of its array. -/
theorem exists_estimate_standard (S : Solvers ℝ) {n : ℕ} (hn : 0 < n)
    (X : Mat (Cplx ℝ) Geometry.standard.size n) : ∃ e, standard.estimate S (.ofMat X) = .ok e := by
  have hfloor : SpectralSearch.standard.floor = .number (.real 1e-10) := rfl
  have hsentinel : SpectralSearch.standard.sentinel = .number (.real 1e10) := rfl
  have hestimate := estimate_ofMat S standard hn X
  rw [ofDecomposition_spectral S rfl, SpectralSearch.find, SpectralSearch.spectrum,
    SpectralSearch.spectrumAt_number hfloor hsentinel] at hestimate
  exact ⟨_, hestimate⟩

end Estimator

/-! ## The engine -/

/-- An optimizer that charges nothing for interference. -/
noncomputable def Optimizer.standard : Optimizer ℝ where
  budget := .whole 100
  threshold := .real 0.9
  stepSize := .real 0.1
  penalty := .real 0
  overlap := .real 0.9
  patternPoints := SearchGrid.defaultPoints

namespace Engine

/-- The setup of an engine without settings. -/
noncomputable def Setup.standard : Setup ℝ := ⟨.standard, .default, .standard, .standard⟩

theorem ofConfig_nil : ofConfig (.table []) = .ok Setup.standard := by
  change setup (.table []) (.table []) (.table []) = _
  simp only [setup, Outcome.bind_eq_ok]
  refine ⟨[], rfl, .standard, Geometry.ofSettings_standard, [], rfl, .default, rfl, [], rfl,
    ⟨.whole 100, .real 0.9, .real 0.1, .real 0, .real 0.9, SearchGrid.defaultPoints⟩, rfl,
    .standard, ?_, .standard, Estimator.ofConfig_default, rfl⟩
  simp only [Optimizer.ofConfig, Outcome.check_eq_ok, Outcome.bind_eq_ok]
  refine ⟨.real 0.1, rfl, ?_, .real 0, rfl, ?_, rfl⟩
  · rw [Number.atMostZero_eq, decide_eq_true_iff, not_le]
    change (0 : ℝ) < 0.1
    norm_num
  · rw [Number.belowZero_eq, decide_eq_true_iff, not_lt]
    exact le_rfl

/-- Snapshots without a signal. -/
noncomputable def silence : Tensor ℝ := .ofMat (Mat.of fun (_ : Fin 8) (_ : Fin 1) => 0)

/-- Requests of three kinds: snapshots without a signal, which are searched, a method that there
is none of, and a beam without any parameters. -/
noncomputable def Request.three : List (Request ℝ) :=
  [.directions silence .nothing .nothing, .directions silence (.text "fourier") .nothing, .beam []]

/-- Angles that no estimate can be scored against: a number and a list of none. -/
def Request.ragged : Setting ℝ := .list [.whole 0, .list []]

/-- The first of the requests has an answer. -/
theorem exists_directions_silence (S : Solvers ℝ) :
    ∃ e, directions S Setup.standard silence .nothing .nothing = .ok e := by
  obtain ⟨e, he⟩ := Estimator.exists_estimate_standard S one_pos
    (Mat.of fun (_ : Fin 8) (_ : Fin 1) => 0)
  exact ⟨e, Outcome.bind_eq_ok.mpr ⟨.standard, rfl, Outcome.bind_eq_ok.mpr ⟨e, he, rfl⟩⟩⟩

theorem estimatorFor_fourier : estimatorFor Setup.standard (.text "fourier") =
    .error (.unknownMethod (.text "fourier")) := by
  have hnone : Method.ofText? "fourier" = none := by decide +kernel
  change (Estimator.methodOf (.text "fourier") >>= _) = _
  unfold Estimator.methodOf
  dsimp only
  rw [hnone]
  rfl

/-- The second has none. -/
theorem directions_fourier (S : Solvers ℝ) :
    directions S Setup.standard silence (.text "fourier") .nothing =
      .error (.unknownMethod (.text "fourier")) := by
  rw [directions, estimatorFor_fourier]
  rfl

end Engine

end PhasedArray
