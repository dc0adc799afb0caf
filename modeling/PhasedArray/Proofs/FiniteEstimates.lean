import PhasedArray.Estimator
import PhasedArray.Proofs.Exact.Finite
import PhasedArray.Proofs.Spectrum

set_option autoImplicit false

/-!
# What is found is finite (SPEC §4.4, §4.5)

An estimator finds as many angles as there are sources to be looked for, or none at all, and the
angles that it finds are finite.  So is its spectrum, if the floor is positive and the sentinel
finite.  Solvers have to keep finite matrices finite for that.
-/

namespace PhasedArray

open Extended

/-! ## Solvers -/

/-- Solvers whose answers for finite matrices are finite. -/
structure Solvers.KeepsFinite {α : Type} [Scalar α] (S : Solvers α) : Prop where
  eigenvalues : ∀ {n : ℕ} {A : Mat (Cplx α) n n}, A.isFinite = true →
    ∀ i, ((S.eigenvalues A).get i).isFinite = true
  rightSingular : ∀ {m n : ℕ} {A : Mat (Cplx α) m n}, A.isFinite = true →
    (S.rightSingular A).2.isFinite = true
  solve : ∀ {n p : ℕ} {A : Mat (Cplx α) n n} {B X : Mat (Cplx α) n p}, A.isFinite = true →
    B.isFinite = true → S.solve A B = some X → X.isFinite = true

/-! ## Rotation fits -/

namespace Rotation

variable {S : Solvers Extended} {tolerance : Outcome Extended Extended} {m k l : ℕ}

theorem isFinite_of_not_isSingular {A : Mat (Cplx Extended) m k}
    (h : isSingular S tolerance A = .ok false) : A.isFinite = true := by
  unfold isSingular at h
  split_ifs at h with hA
  · exact hA
  · exact nomatch h

theorem isFinite_solveNormal (hS : S.KeepsFinite) {gram : Mat (Cplx Extended) k k}
    {right Ψ : Mat (Cplx Extended) k l} (h : solveNormal S tolerance gram right = .ok (some Ψ)) :
    Ψ.isFinite = true := by
  obtain ⟨singular, hsingular, h⟩ := Outcome.bind_eq_ok.mp h
  cases singular with
  | true => exact nomatch h
  | false =>
    simp only [Bool.false_eq_true, if_false] at h
    split_ifs at h with hright
    exact hS.solve (Mat.isFinite_ofUpper (isFinite_of_not_isSingular hsingular)) hright
      (Except.ok.inj h)

theorem isFinite_totalLeastSquares (hS : S.KeepsFinite) {U₁ : Mat (Cplx Extended) m k}
    {U₂ : Mat (Cplx Extended) m l} {Ψ : Mat (Cplx Extended) k l}
    (h : totalLeastSquares S tolerance U₁ U₂ = .ok (some Ψ)) : Ψ.isFinite = true := by
  unfold totalLeastSquares at h
  dsimp only at h
  split_ifs at h with hstacked
  obtain ⟨singular, hsingular, h⟩ := Outcome.bind_eq_ok.mp h
  cases singular with
  | true => exact nomatch h
  | false =>
    have hlower := isFinite_of_not_isSingular hsingular
    have hupper : (upperBlock (S.rightSingular (U₁.beside U₂)).2).isFinite = true :=
      Mat.isFinite_of fun i j => Mat.isFinite_iff.mp (hS.rightSingular hstacked) _ _
    obtain ⟨inv, hinv, rfl⟩ := Option.map_eq_some_iff.mp (Except.ok.inj h)
    exact Mat.isFinite_mul (Mat.isFinite_neg hupper)
      (hS.solve hlower (Mat.isFinite_identity l) hinv)

/-- A rotation that is found is finite. -/
theorem isFinite_fit (hS : S.KeepsFinite) {kind : RotationFit} {U₁ : Mat (Cplx Extended) m k}
    {U₂ : Mat (Cplx Extended) m l} {Ψ : Mat (Cplx Extended) k l}
    (h : fit S kind tolerance U₁ U₂ = .ok (some Ψ)) : Ψ.isFinite = true := by
  cases kind with
  | leastSquares => exact isFinite_solveNormal hS h
  | totalLeastSquares => exact isFinite_totalLeastSquares hS h

theorem isFinite_directionOfStep (g : Geometry Extended) {φ : Extended}
    (hφ : Scalar.isFinite φ = true) : Scalar.isFinite (directionOfStep g φ) = true := by
  have hturn : 0 < (2 : Extended) * Scalar.pi :=
    pos_mul (finite_lt.mpr (Nat.cast_pos.mpr two_pos)) (finite_lt.mpr Real.pi_pos)
  exact isFinite_arcsin_clamp (isFinite_div hφ (pos_mul hturn g.spacing_pos))

/-- The directions that a rotation fit finds are finite, and as many as the signal subspace has
dimensions. -/
theorem finite_of_ofSubspace (hS : S.KeepsFinite) {kind : RotationFit} {g : Geometry Extended}
    {U : Mat (Cplx Extended) m k} {angles : List Extended}
    (h : ofSubspace S kind tolerance g U = .ok (some angles)) :
    angles.length = k ∧ ∀ x ∈ angles, Scalar.isFinite x = true := by
  obtain ⟨found, hfit, h⟩ := Outcome.bind_eq_ok.mp h
  obtain ⟨Ψ, rfl, rfl⟩ := Option.map_eq_some_iff.mp (Except.ok.inj h)
  refine ⟨by rw [directions, List.length_map, Vector.length_toList], ?_⟩
  intro x hx
  obtain ⟨z, hz, rfl⟩ := List.mem_map.mp hx
  obtain ⟨i, hi, rfl⟩ := Vector.mem_iff_getElem.mp (Vector.mem_toList_iff.mp hz)
  exact isFinite_directionOfStep g
    (Cplx.isFinite_arg (hS.eigenvalues (isFinite_fit hS hfit) ⟨i, hi⟩))

end Rotation

/-! ## Spectral searches -/

theorem SearchGrid.extended_steps_pos {points : Setting Extended} {grid : SearchGrid Extended}
    (h : ofSetting points = .ok grid) : 0 < grid.steps := by
  obtain ⟨n, -, hfinite, hpos, rfl⟩ := exists_of_ofSetting h
  change 0 < n.value
  cases n with
  | whole i =>
    have hi : 0 < i := by simpa [Number.atMostZero] using hpos
    rw [Number.value, ofInt_eq]
    exact finite_lt.mpr (Int.cast_pos.mpr hi)
  | real x =>
    obtain ⟨r, rfl⟩ := isFinite_iff.mp hfinite
    have hr : 0 < r := by simpa [Number.atMostZero, zero_eq] using hpos
    exact finite_lt.mpr hr

namespace SpectralSearch

variable {s : SpectralSearch Extended}

theorem isFinite_point (hs : 0 < s.grid.steps) (i : ℕ) :
    Scalar.isFinite (s.grid.point i) = true :=
  isFinite_add (isFinite_div rfl (finite_lt.mpr (Nat.cast_pos.mpr two_pos)))
    (isFinite_div rfl hs)

theorem isFinite_fallbackAngle {k : ℕ} (hk : 0 < k) (i : ℕ) :
    Scalar.isFinite (fallbackAngle (Scalar.ofNat k : Extended) i) = true := by
  have htwice : 0 < (2 : Extended) * Scalar.ofNat k :=
    pos_mul (finite_lt.mpr (Nat.cast_pos.mpr two_pos)) (finite_lt.mpr (Nat.cast_pos.mpr hk))
  exact isFinite_add (isFinite_div rfl (finite_lt.mpr (Nat.cast_pos.mpr four_pos)))
    (isFinite_div rfl htwice)

/-- A spectral search finds as many angles as it is asked for, all of them finite. -/
theorem finite_findIn (hs : 0 < s.grid.steps) {k : ℕ} (hk : 0 < k)
    (spectrum : Vector Extended s.grid.size) :
    (s.findIn k spectrum).angles.length = k ∧
      ∀ x ∈ (s.findIn k spectrum).angles, Scalar.isFinite x = true := by
  refine ⟨s.length_angles_findIn k spectrum, ?_⟩
  intro x hx
  rcases List.mem_append.mp hx with hpeak | hfill
  · obtain ⟨i, -, rfl⟩ := List.mem_map.mp hpeak
    exact isFinite_point hs i
  · obtain ⟨i, -, rfl⟩ := List.mem_map.mp (List.mem_of_mem_drop hfill)
    exact isFinite_fallbackAngle hk i

/-- Where a positive floor is not reached, the reciprocal is finite. -/
theorem isFinite_value {floor sentinel : Extended} (hfloor : 0 < floor)
    (hsentinel : Scalar.isFinite sentinel = true) (e : Extended) :
    Scalar.isFinite (value floor sentinel e) = true := by
  unfold value
  split_ifs with he
  · exact isFinite_div isFinite_one (pos_of_le hfloor he)
  · exact hsentinel

end SpectralSearch

/-! ## Scores -/

namespace Estimate

section Scored

variable {α : Type} [Scalar α] {e scored : Estimate α} {actual : List α}

/-- Scoring changes the error alone. -/
theorem scored_eq (e : Estimate α) (actual : List α) :
    e.scored actual = { e with error := (e.scored actual).error } := by
  unfold Estimate.scored
  split <;> rfl

theorem angles?_scored (e : Estimate α) (actual : List α) :
    (e.scored actual).angles? = e.angles? := by
  rw [scored_eq]
  rfl

theorem degenerate_scored (e : Estimate α) (actual : List α) :
    (e.scored actual).degenerate = e.degenerate := by
  rw [degenerate, angles?_scored]
  rfl

theorem spectrum?_scored (e : Estimate α) (actual : List α) :
    (e.scored actual).spectrum? = e.spectrum? := by
  rw [scored_eq]
  rfl

theorem error_scored (hplain : e.error = none) (actual : List α) :
    (e.scored actual).error = e.angles?.map fun angles => .between angles actual := by
  unfold Estimate.scored
  cases hangles : e.angles? with
  | none => exact hplain
  | some angles => rfl

/-- There is nothing to score in an estimate without angles. -/
theorem scored_of_degenerate (h : e.degenerate = true) (actual : List α) :
    e.scored actual = e := by
  unfold Estimate.scored
  rw [Option.isNone_iff_eq_none.mp h]

/-- An estimate that is scored against what was given is scored against the angles that this
holds, which nobody looks at if the estimate has none. -/
theorem eq_of_scoredAgainst {given : Setting α} (h : e.scoredAgainst given = .ok scored) :
    e.degenerate = true ∧ scored = e ∨
      e.degenerate = false ∧ ∃ actual, given.toReals = .ok actual ∧ scored = e.scored actual := by
  unfold scoredAgainst at h
  cases hdegenerate : e.degenerate with
  | true =>
    rw [hdegenerate, if_pos rfl] at h
    exact .inl ⟨rfl, (Except.ok.inj h).symm⟩
  | false =>
    rw [hdegenerate, if_neg Bool.false_ne_true] at h
    cases hread : given.toReals with
    | error fault =>
      rw [hread] at h
      exact nomatch h
    | ok actual =>
      rw [hread] at h
      exact .inr ⟨rfl, actual, rfl, (Except.ok.inj h).symm⟩

end Scored

theorem exists_angles {α : Type} {e : Estimate α} (h : e.degenerate = false) :
    ∃ angles, e.angles? = some angles :=
  Option.isSome_iff_exists.mp (Option.isNone_eq_false_iff.mp h)

/-- An estimate for `k` sources before it is scored: its angles, if it has any, are `k` finite
ones. -/
structure IsPlain (k : ℕ) (e : Estimate Extended) : Prop where
  sources : e.sources = k
  unscored : e.error = none
  length : ∀ {angles}, e.angles? = some angles → angles.length = k
  finite : ∀ {angles}, e.angles? = some angles → ∀ x ∈ angles, Scalar.isFinite x = true

namespace IsPlain

variable {k : ℕ} {e : Estimate Extended} {actual : List Extended}

theorem error_of_degenerate (h : e.IsPlain k) (hdegenerate : e.degenerate = true) :
    (e.scored actual).error = none := by
  rw [error_scored h.unscored, Option.isNone_iff_eq_none.mp hdegenerate]
  rfl

/-- Against another number of angles there is no pairing. -/
theorem error_of_length_ne (h : e.IsPlain k) (hdegenerate : e.degenerate = false)
    (hlength : actual.length ≠ k) : (e.scored actual).error = some .unmatched := by
  obtain ⟨angles, hangles⟩ := exists_angles hdegenerate
  rw [error_scored h.unscored, hangles, Option.map_some,
    (AngleError.between_eq_unmatched_iff angles actual).mpr (h.length hangles ▸ hlength.symm)]

/-- Against as many finite angles the error is finite. -/
theorem exists_error_of_length_eq (h : e.IsPlain k) (hdegenerate : e.degenerate = false)
    (hk : 0 < k) (hactual : ∀ x ∈ actual, Scalar.isFinite x = true)
    (hlength : actual.length = k) :
    ∃ r : ℝ, (e.scored actual).error = some (.rms (Extended.finite r)) := by
  obtain ⟨angles, hangles⟩ := exists_angles hdegenerate
  have hne : actual ≠ [] := List.ne_nil_of_length_pos (hlength ▸ hk)
  obtain ⟨r, hr⟩ := exists_between_eq_rms (h.finite hangles) hactual
    ((h.length hangles).trans hlength.symm) hne
  exact ⟨r, by rw [error_scored h.unscored, hangles, Option.map_some, hr]⟩

end IsPlain

end Estimate

/-! ## Estimators -/

namespace Estimator

section Made

variable {α : Type} [Scalar α] {S : Solvers α} {E : Estimator α} {e : Estimate α}

/-- An estimator that is made looks for the number of sources that is configured, and searches a
grid, as it is configured, or fits a rotation. -/
theorem exists_of_ofConfig {g : Geometry α} {c : Config α} {asked : Option Method}
    (h : ofConfig g c asked = .ok E) :
    ∃ k search, c.sourceCount g = .ok k ∧ E = ⟨g, k, c.averaging.isYes, search⟩ ∧
      ((∃ grid, SearchGrid.ofSetting c.gridPoints = .ok grid ∧
          search = .spectral ⟨grid, c.floor, c.sentinel⟩) ∨
        ∃ kind, search = .rotational kind (c.tolerance.toBound "singular_tol")) := by
  have hrotational : ∀ {kind}, rotational g kind c = .ok E →
      ∃ k, c.sourceCount g = .ok k ∧
        E = ⟨g, k, c.averaging.isYes, .rotational kind (c.tolerance.toBound "singular_tol")⟩ := by
    intro kind h
    unfold rotational at h
    split_ifs at h
    obtain ⟨k, hk, h⟩ := Outcome.bind_eq_ok.mp h
    exact ⟨k, hk, (Except.ok.inj h).symm⟩
  unfold ofConfig at h
  cases hmethod : asked.getD c.method with
  | music =>
    rw [hmethod] at h
    simp only [spectral, Outcome.bind_eq_ok] at h
    obtain ⟨k, hk, grid, hgrid, h⟩ := h
    exact ⟨k, _, hk, (Except.ok.inj h).symm, .inl ⟨grid, hgrid, rfl⟩⟩
  | esprit =>
    rw [hmethod] at h
    obtain ⟨k, hk, hE⟩ := hrotational h
    exact ⟨k, _, hk, hE, .inr ⟨_, rfl⟩⟩
  | tlsEsprit =>
    rw [hmethod] at h
    obtain ⟨k, hk, hE⟩ := hrotational h
    exact ⟨k, _, hk, hE, .inr ⟨_, rfl⟩⟩

theorem geometry_eq {g : Geometry α} {c : Config α} {asked : Option Method}
    (h : ofConfig g c asked = .ok E) : E.geometry = g := by
  obtain ⟨k, _, -, rfl, -⟩ := exists_of_ofConfig h
  rfl

/-- Estimators of one configuration look for one number of sources. -/
theorem sources_eq {g : Geometry α} {c : Config α} {asked asked' : Option Method}
    {E E' : Estimator α} (h : ofConfig g c asked = .ok E) (h' : ofConfig g c asked' = .ok E') :
    E.sources.val = E'.sources.val := by
  obtain ⟨k, _, hk, rfl, -⟩ := exists_of_ofConfig h
  obtain ⟨k', _, hk', rfl, -⟩ := exists_of_ofConfig h'
  cases hk.symm.trans hk'
  rfl

/-- An estimate is what is found in a decomposition for the number of sources that the estimator
looks for. -/
theorem exists_decomposition_of_estimateSnapshots {X : Snapshots α}
    (h : E.estimateSnapshots S X = .ok e) :
    ∃ D : Decomposition α E.geometry.size,
      D.sources = E.sources ∧ ofDecomposition S E D = .ok e := by
  simp only [estimateSnapshots, ofCovariance, Outcome.bind_eq_ok] at h
  obtain ⟨C, -, D, hD, h⟩ := h
  unfold Decomposition.ofCovariance at hD
  split_ifs at hD
  cases hD
  exact ⟨_, rfl, h⟩

end Made

variable {S : Solvers Extended} {g : Geometry Extended} {c : Config Extended}
  {asked : Option Method} {E : Estimator Extended} {e : Estimate Extended}

theorem isPlain_ofDecomposition (hS : S.KeepsFinite) (hE : ofConfig g c asked = .ok E)
    {D : Decomposition Extended E.geometry.size} (hD : D.sources = E.sources)
    (h : ofDecomposition S E D = .ok e) : e.IsPlain E.sources := by
  obtain ⟨k, search, -, rfl, ⟨grid, hgrid, rfl⟩ | ⟨kind, rfl⟩⟩ := exists_of_ofConfig hE
  · rw [ofDecomposition_spectral S rfl, SpectralSearch.find] at h
    have hsteps := SearchGrid.extended_steps_pos hgrid
    obtain ⟨found, hfound, rfl⟩ := Outcome.map_eq_ok.mp h
    obtain ⟨values, -, hvalues⟩ := Outcome.bind_eq_ok.mp hfound
    cases hvalues
    obtain ⟨hlength, hfinite⟩ := SpectralSearch.finite_findIn
      (s := ⟨grid, c.floor, c.sentinel⟩) hsteps D.sources.2.1 values
    refine ⟨rfl, rfl, ?_, ?_⟩
    · rintro angles ⟨⟩
      exact hD ▸ hlength
    · rintro angles ⟨⟩
      exact hfinite
  · rw [ofDecomposition_rotational S rfl] at h
    obtain ⟨found, hfound, rfl⟩ := Outcome.map_eq_ok.mp h
    refine ⟨rfl, rfl, ?_, ?_⟩
    · rintro angles rfl
      exact hD ▸ (Rotation.finite_of_ofSubspace hS hfound).1
    · rintro angles rfl
      exact (Rotation.finite_of_ofSubspace hS hfound).2

/-- An estimate from snapshots has as many finite angles as there are sources to be looked for, or
none at all. -/
theorem isPlain_estimateSnapshots (hS : S.KeepsFinite) (hE : ofConfig g c asked = .ok E)
    {X : Snapshots Extended} (h : E.estimateSnapshots S X = .ok e) : e.IsPlain E.sources := by
  obtain ⟨D, hD, h⟩ := exists_decomposition_of_estimateSnapshots h
  exact isPlain_ofDecomposition hS hE hD h

/-- Its spectrum is finite if the floor is positive and the sentinel finite. -/
theorem finite_spectrum (hE : ofConfig g c asked = .ok E) {floor sentinel : Number Extended}
    (hfloor : c.floor = .number floor) (hpos : 0 < floor.value)
    (hsentinel : c.sentinel = .number sentinel)
    (hfinite : Scalar.isFinite sentinel.value = true) {X : Snapshots Extended}
    (h : E.estimateSnapshots S X = .ok e) {spectrum : List Extended}
    (hspectrum : e.spectrum? = some spectrum) : ∀ x ∈ spectrum, Scalar.isFinite x = true := by
  obtain ⟨D, -, h⟩ := exists_decomposition_of_estimateSnapshots h
  obtain ⟨k, search, -, rfl, ⟨grid, -, rfl⟩ | ⟨kind, rfl⟩⟩ := exists_of_ofConfig hE
  · rw [ofDecomposition_spectral S rfl, SpectralSearch.find, SpectralSearch.spectrum,
      SpectralSearch.spectrumAt, SpectralSearch.valuesOf_number hfloor hsentinel] at h
    cases h
    cases hspectrum
    intro x hx
    obtain ⟨i, hi, rfl⟩ := Vector.mem_iff_getElem.mp (Vector.mem_toList_iff.mp hx)
    rw [Vector.getElem_map]
    exact SpectralSearch.isFinite_value hpos hfinite _
  · rw [ofDecomposition_rotational S rfl] at h
    obtain ⟨found, -, rfl⟩ := Outcome.map_eq_ok.mp h
    exact absurd hspectrum.symm (Option.some_ne_none spectrum)

/-- A spectral search with numbers as floor and sentinel has an estimate for all finite samples
of its array. -/
theorem exists_estimateSnapshots {s : SpectralSearch Extended} (hsearch : E.search = .spectral s)
    {floor sentinel : Number Extended} (hfloor : s.floor = .number floor)
    (hsentinel : s.sentinel = .number sentinel) (S : Solvers Extended) {X : Snapshots Extended}
    (hX : X.elements = E.geometry.size) : ∃ e, E.estimateSnapshots S X = .ok e := by
  obtain ⟨m, n, X, hm, hn, hfinite⟩ := X
  cases hX
  have hcovariance := Covariance.isFinite_sample E.averaging hn hfinite
  obtain ⟨e, he⟩ : ∃ e, ofCovariance S E (Covariance.sample E.averaging X) = .ok e := by
    rw [ofCovariance, Decomposition.ofCovariance, if_pos hcovariance]
    change ∃ e, ofDecomposition S E _ = .ok e
    rw [ofDecomposition_spectral S hsearch, SpectralSearch.find, SpectralSearch.spectrum,
      SpectralSearch.spectrumAt, SpectralSearch.valuesOf_number hfloor hsentinel]
    exact ⟨_, rfl⟩
  refine ⟨e, ?_⟩
  rw [estimateSnapshots, covarianceOf, dif_pos rfl]
  exact he

end Estimator

end PhasedArray
