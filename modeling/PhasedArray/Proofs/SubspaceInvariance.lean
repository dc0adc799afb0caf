import PhasedArray.Proofs.BasisIndependence
import PhasedArray.Proofs.Rescaling

set_option autoImplicit false

/-!
# What leaves the subspaces alone leaves the estimates alone (SPEC §4.4, §4.5)

An estimate depends on a covariance through its signal and noise subspaces.  Scaling the
covariance, adding the same noise to every element, and scaling snapshots or mixing them among
each other keep both subspaces, so two runs on data that differ in this way agree: they report
the same directions, spectrum and flags, and their eigenvalues differ by the same scale and
floor.  A spectral search compares the leakage into the noise space with its floor, and a rotation
fit compares singular values of blocks of orthonormal columns with its tolerance; none of them
changes with the scale of the data.
-/

namespace PhasedArray

open Matrix

/-! ## Two runs that agree -/

/-- Floor and sentinel, or tolerance, are numbers. -/
def Search.IsNumeric : Search ℝ → Prop
  | .spectral s => ∃ f c : Number ℝ, s.floor = .number f ∧ s.sentinel = .number c
  | .rotational _ tolerance => ∃ τ, tolerance = .ok τ

/-- What an estimate says of the directions, regardless of their order. -/
structure Estimate.Report where
  method : Method
  angles : Option (Multiset ℝ)
  spectrum : Option (List ℝ)
  peaks : ℕ
  resolutionLimited : Bool
  degenerate : Bool

/-- What the estimate `e` says. -/
def Estimate.report (e : Estimate ℝ) : Report where
  method := e.method
  angles := e.angles?.map Multiset.ofList
  spectrum := e.spectrum?
  peaks := e.peaks
  resolutionLimited := e.resolutionLimited
  degenerate := e.degenerate

namespace Estimator

/-- The outcomes `r` and `r'` of two runs of `E` agree, but for a map `f` of the eigenvalues:
both runs fail with the same fault, or both estimates say the same of the directions.  Of total
least squares, whose singular vectors may leave a choice, that is said if `apart` holds. -/
structure Agree (E : Estimator ℝ) (apart : Prop) (f : ℝ → ℝ) (r r' : Outcome ℝ (Estimate ℝ)) :
    Prop where
  returns : E.search.IsNumeric → ∃ e, r = .ok e
  eigenvalues : r'.map Estimate.eigenvalues = r.map fun e => e.eigenvalues.map f
  report : (E.method = .tlsEsprit → apart) → r'.map Estimate.report = r.map Estimate.report
  ordered : E.method = .music → r'.map Estimate.angles? = r.map Estimate.angles?

/-- The singular values of the two sub-arrays of the signal space, side by side, fall after the
first `K`. -/
def StacksApart (S : Solvers ℝ) (E : Estimator ℝ)
    (C : Mat (Cplx ℝ) E.geometry.size E.geometry.size) : Prop :=
  let D := Decomposition.solved S C E.sources
  Rotation.HasGap S D.sources.2.1 D.signal.dropLastRow D.signal.dropFirstRow

end Estimator

/-! ## The searches -/

/-- With numbers as floor and sentinel a spectral search finds something. -/
theorem SpectralSearch.exists_find {s : SpectralSearch ℝ} {f c : Number ℝ}
    (hf : s.floor = .number f) (hc : s.sentinel = .number c) (g : Geometry ℝ)
    (D : Decomposition ℝ g.size) : ∃ found, s.find g D = .ok found := by
  rw [find, spectrum, spectrumAt_number hf hc]
  exact ⟨_, rfl⟩

/-- A rotation fit fails only with its tolerance. -/
theorem Rotation.exists_ofSubspace (S : Solvers ℝ) (kind : RotationFit)
    (tolerance : Outcome ℝ ℝ) (g : Geometry ℝ) {m k : ℕ} (hk : 0 < k) (U : Mat (Cplx ℝ) m k) :
    ∃ found : ℝ → Option (List ℝ), ofSubspace S kind tolerance g U = tolerance.map found := by
  have hread : ∀ {A : Mat (Cplx ℝ) k k} {x : Option (Mat (Cplx ℝ) k k)},
      fit S kind tolerance U.dropLastRow U.dropFirstRow =
        (isSingular S tolerance A).map (fun singular => if singular then none else x) →
      ∃ found : ℝ → Option (List ℝ), ofSubspace S kind tolerance g U = tolerance.map found := by
    intro A x hfit
    refine ⟨fun τ => (if leastSingular S A hk ≤ τ then none else x).map (directions S g), ?_⟩
    rw [ofSubspace_eq, hfit, isSingular_eq S tolerance A hk]
    cases tolerance with
    | error e => rfl
    | ok τ => by_cases hτ : leastSingular S A hk ≤ τ <;> simp [Except.map, hτ]
  cases kind with
  | leastSquares => exact hread (leastSquares_eq S tolerance _ _)
  | totalLeastSquares => exact hread (totalLeastSquares_eq S tolerance _ _)

namespace Decomposition.IsSpectral

variable {g : Geometry ℝ} {D D' : Decomposition ℝ g.size} {C : Mat (Cplx ℝ) g.size g.size}

/-- What a spectral search finds does not depend on the basis of the noise space. -/
theorem find_basis (h : D.IsSpectral C) (h' : D'.IsSpectral C) (hgap : D.HasGap)
    (hk : D'.sources = D.sources) (s : SpectralSearch ℝ) : s.find g D' = s.find g D := by
  rw [SpectralSearch.find, SpectralSearch.find, SpectralSearch.spectrum, SpectralSearch.spectrum,
    s.spectrumAt_congr (h.leakage_noise_basis h' hgap hk)]
  simp only [hk]

end Decomposition.IsSpectral

namespace Estimator

variable {S S' : Solvers ℝ} {E : Estimator ℝ} {apart : Prop} {f : ℝ → ℝ}
  {D D' : Decomposition ℝ E.geometry.size}

/-- Spectral estimates agree if the same was found. -/
theorem agree_spectral {s : SpectralSearch ℝ} (hE : E.search = .spectral s)
    (hvalues : D'.values = D.values.map f) (hfind : s.find E.geometry D' = s.find E.geometry D) :
    E.Agree apart f (ofDecomposition S E D) (ofDecomposition S' E D') := by
  rw [ofDecomposition_spectral S hE, ofDecomposition_spectral S' hE, hfind, hvalues]
  constructor
  · intro hnumeric
    rw [hE] at hnumeric
    obtain ⟨floor, sentinel, hfloor, hsentinel⟩ := hnumeric
    obtain ⟨found, hfound⟩ := s.exists_find hfloor hsentinel E.geometry D
    rw [hfound]
    exact ⟨_, rfl⟩
  · cases s.find E.geometry D with
    | error e => rfl
    | ok found => exact congrArg Except.ok Vector.toList_map
  · intro _
    cases s.find E.geometry D <;> rfl
  · intro _
    cases s.find E.geometry D <;> rfl

/-- Rotational estimates agree if the same directions were found in some order. -/
theorem agree_rotational {kind : RotationFit} {tolerance : Outcome ℝ ℝ}
    (hE : E.search = .rotational kind tolerance) (hvalues : D'.values = D.values.map f)
    (hfit : (kind = .totalLeastSquares → apart) →
      (Rotation.ofSubspace S' kind tolerance E.geometry D'.signal).map
          (Option.map Multiset.ofList) =
        (Rotation.ofSubspace S kind tolerance E.geometry D.signal).map
          (Option.map Multiset.ofList)) :
    E.Agree apart f (ofDecomposition S E D) (ofDecomposition S' E D') := by
  have hmethod : E.method = kind.method := by rw [method, hE]
  obtain ⟨found, hfound⟩ :=
    Rotation.exists_ofSubspace S kind tolerance E.geometry D.sources.2.1 D.signal
  obtain ⟨found', hfound'⟩ :=
    Rotation.exists_ofSubspace S' kind tolerance E.geometry D'.sources.2.1 D'.signal
  rw [ofDecomposition_rotational S hE, ofDecomposition_rotational S' hE]
  rw [hfound, hfound'] at hfit ⊢
  constructor
  · intro hnumeric
    rw [hE] at hnumeric
    obtain ⟨τ, rfl⟩ := hnumeric
    exact ⟨_, rfl⟩
  · cases tolerance with
    | error e => rfl
    | ok τ =>
      change Except.ok D'.values.toList = Except.ok (D.values.toList.map f)
      rw [hvalues, Vector.toList_map]
  · intro hstacked
    have hsame := hfit fun hkind => hstacked (by rw [hmethod, hkind]; rfl)
    cases tolerance with
    | error e => rfl
    | ok τ =>
      have hsame : (found' τ).map Multiset.ofList = (found τ).map Multiset.ofList :=
        Except.ok.inj hsame
      have hflag : (found' τ).isNone = (found τ).isNone := by
        rw [← Option.isNone_map, hsame, Option.isNone_map]
      change Except.ok (Estimate.report _) = Except.ok (Estimate.report _)
      simp only [Estimate.report, Estimate.angles?, Estimate.degenerate, hsame, hflag]
      rfl
  · intro hmusic
    rw [hmethod] at hmusic
    cases kind <;> cases hmusic

/-- A decomposition and one of the rescaled covariance lead to estimates that agree. -/
theorem agree_rescaled (hS : S.IsExact) (hS' : S'.IsExact)
    {C : Mat (Cplx ℝ) E.geometry.size E.geometry.size} (hD : D.IsSpectral C) {s t : ℝ}
    (hs : 0 < s) (hD' : D'.IsSpectral (Covariance.rescaled s t C)) (hgap : D.HasGap)
    (hk : D'.sources = D.sources)
    (hstacked : apart → Rotation.HasGap S D.sources.2.1 D.signal.dropLastRow
      D.signal.dropFirstRow) :
    E.Agree apart (fun x => s * x + t) (ofDecomposition S E D) (ofDecomposition S' E D') := by
  have hscaled := hD.rescaled hs t
  have hvalues : D'.values = D.values.map fun x => s * x + t := (hscaled.values_eq hD').symm
  cases hE : E.search with
  | spectral search =>
    exact agree_spectral hE hvalues (hscaled.find_basis hD' (hgap.rescaled hs t) hk search)
  | rotational kind tolerance =>
    refine agree_rotational hE hvalues fun hkind => ?_
    exact (hscaled.ofSubspace_basis hS hS' hD' (hgap.rescaled hs t) hk kind
      (fun h => hstacked (hkind h)) tolerance E.geometry).symm

/-- Estimates from a covariance with a gap and from the rescaled one agree. -/
theorem agree_covariance (hS : S.IsExact) (hS' : S'.IsExact) (E : Estimator ℝ)
    {C : Mat (Cplx ℝ) E.geometry.size E.geometry.size} (hC : Covariance.HasGap C E.sources)
    {s : ℝ} (hs : 0 < s) (t : ℝ) :
    E.Agree (E.StacksApart S C) (fun x => s * x + t)
      (ofDecomposition S E (Decomposition.solved S C E.sources))
      (ofDecomposition S' E
        (Decomposition.solved S' (Covariance.rescaled s t C) E.sources)) := by
  obtain ⟨hD, hgap⟩ := hC.solved hS.toIsHermitianExact
  have hD' := Decomposition.isSpectral_solved hS'.toIsHermitianExact
    (hD.rescaled hs t).basis.isHermitian E.sources
  exact agree_rescaled hS hS' hD hs hD' hgap rfl id

/-- What leaves the signal and noise subspaces alone leaves an estimate alone.  Take a Hermitian
covariance with a gap after its `K`-th eigenvalue: estimates from `C` and from `α C + β` agree,
whatever eigenbases the solvers return, and the eigenvalues follow `α` and `β` in their order.
Take snapshots whose covariance has that gap: estimates from them and from the same snapshots
scaled by any factor but zero and mixed by a unitary matrix agree, with averaging and without.
Agreement holds of spectral searches and of least squares, and of total least squares if the
singular values of the stacked sub-arrays fall after the first `K`. -/
theorem estimate_subspace_invariant {S S' : Solvers ℝ} (hS : S.IsExact) (hS' : S'.IsExact)
    (E : Estimator ℝ) :
    (∀ (C : Mat (Cplx ℝ) E.geometry.size E.geometry.size) (α β : ℝ),
      Covariance.HasGap C E.sources → 0 < α →
        E.Agree (E.StacksApart S C) (fun x => α * x + β) (E.ofCovarianceTensor S (.ofMat C))
          (E.ofCovarianceTensor S' (.ofMat (Covariance.rescaled α β C)))) ∧
    (∀ {n : ℕ} (X : Mat (Cplx ℝ) E.geometry.size n) (c : ℂ) (U : Matrix (Fin n) (Fin n) ℂ),
      Covariance.HasGap (Covariance.sample E.averaging X) E.sources → c ≠ 0 → Uᴴ * U = 1 →
        E.Agree (E.StacksApart S (Covariance.sample E.averaging X)) (fun x => ‖c‖ ^ 2 * x)
          (E.estimate S (.ofMat X)) (E.estimate S' (.ofMat (X.mixed c U)))) := by
  constructor
  · intro C α β hC hα
    rw [ofCovarianceTensor_ofMat, ofCovarianceTensor_ofMat]
    exact agree_covariance hS hS' E hC hα β
  · intro n X c U hgap hc hU
    have hscale : 0 < ‖c‖ ^ 2 := pow_pos (norm_pos_iff.mpr hc) 2
    have hagree := agree_covariance hS hS' E hgap hscale 0
    rw [estimate_ofMat S E hgap.snapshots_pos, estimate_ofMat S' E hgap.snapshots_pos,
      Covariance.sample_mixed hU]
    simpa only [add_zero] using hagree

/-- Outcomes that agree, of an estimator that is set up with numbers, are two estimates that say
the same. -/
theorem Agree.exists_ok {r r' : Outcome ℝ (Estimate ℝ)} (h : E.Agree apart f r r')
    (hE : E.search.IsNumeric) (happart : E.method = .tlsEsprit → apart) :
    ∃ e e', r = .ok e ∧ r' = .ok e' ∧ e'.report = e.report ∧
      e'.eigenvalues = e.eigenvalues.map f := by
  obtain ⟨e, rfl⟩ := h.returns hE
  have hreport := h.report happart
  have heigenvalues := h.eigenvalues
  cases r' with
  | error fault => cases hreport
  | ok e' => exact ⟨e, e', rfl, rfl, Except.ok.inj hreport, Except.ok.inj heigenvalues⟩

/-- One source before two elements, found by least squares: with its power tripled and noise
added, and with its one snapshot turned by a right angle and doubled. -/
theorem estimate_subspace_invariant_pair :
    (∃ e e', (Estimator.pair (.rotational .leastSquares (.ok 0))).ofCovarianceTensor .ideal
          (.ofMat ((NoiselessScene.single .pair 0).covariance true)) = .ok e ∧
        (Estimator.pair (.rotational .leastSquares (.ok 0))).ofCovarianceTensor .ideal
          (.ofMat (Covariance.rescaled 3 1 ((NoiselessScene.single .pair 0).covariance true))) =
            .ok e' ∧
        e'.report = e.report ∧ e'.eigenvalues = e.eigenvalues.map fun x => 3 * x + 1) ∧
    ∃ e e', (Estimator.pair (.rotational .leastSquares (.ok 0))).estimate .ideal
          (.ofMat (NoiselessScene.single .pair 0).snapshots) = .ok e ∧
        (Estimator.pair (.rotational .leastSquares (.ok 0))).estimate .ideal
          (.ofMat ((NoiselessScene.single .pair 0).snapshots.mixed (2 * Complex.I) 1)) = .ok e' ∧
        e'.report = e.report ∧
        e'.eigenvalues = e.eigenvalues.map fun x => ‖2 * Complex.I‖ ^ 2 * x := by
  let E := Estimator.pair (.rotational .leastSquares (.ok 0))
  let X : NoiselessScene E.geometry E.sources 1 := NoiselessScene.single .pair 0
  let D := Decomposition.solved .ideal (X.covariance true) E.sources
  have hD : D.IsSpectral (X.covariance true) :=
    X.isSpectral_solved Solvers.ideal_isExact.toIsHermitianExact E.sources.2.1 true E.sources
  have hgap : Covariance.HasGap (X.covariance true) E.sources :=
    ⟨D, hD, rfl, NoiselessScene.hasGap (D := D) X hD⟩
  have hfactor : (2 * Complex.I : ℂ) ≠ 0 := mul_ne_zero two_ne_zero Complex.I_ne_zero
  obtain ⟨hcovariance, hsnapshots⟩ :=
    estimate_subspace_invariant Solvers.ideal_isExact Solvers.ideal_isExact E
  exact ⟨(hcovariance (X.covariance true) 3 1 hgap three_pos).exists_ok ⟨0, rfl⟩ nofun,
    (hsnapshots X.snapshots (2 * Complex.I) 1 hgap hfactor (by simp)).exists_ok ⟨0, rfl⟩ nofun⟩

end Estimator

end PhasedArray
