import PhasedArray.Proofs.SubspaceInvariance

set_option autoImplicit false

/-!
# A conjugated covariance is heard from the reflected directions (SPEC §4.4, §4.5)

The steering vector of `-θ`, the reflection of `θ` in broadside, is the conjugate of that of `θ`,
and the conjugate of an eigenbasis is an eigenbasis of the conjugated covariance for the same
eigenvalues.  So as much of the one leaks into the noise space as of the other into the conjugated
noise space.  A least-squares fit of conjugated sub-arrays tests the transpose of the same normal
matrix and finds the conjugated rotation; its eigenvalues are conjugated and their arguments change
sign, but for those on the branch cut, where the argument is a half turn either way.  What a solver
returns for the conjugated covariance need not be the conjugated basis, but then
`estimate_basis_independent` is about the difference.
-/

namespace PhasedArray

open Matrix Polynomial

variable {m n k p : ℕ}

/-! ## Conjugated matrices -/

/-- The conjugate of a Hermitian matrix has the same characteristic polynomial. -/
theorem charpoly_map_star {M : Matrix (Fin n) (Fin n) ℂ} (hM : M.IsHermitian) :
    (M.map star).charpoly = M.charpoly := by
  have htranspose : M.map star = Mᵀ := by
    ext i j
    exact hM.apply j i
  rw [htranspose, charpoly_transpose]

/-- The eigenvalues of a conjugated matrix are the conjugates. -/
theorem roots_charpoly_map_star (M : Matrix (Fin n) (Fin n) ℂ) :
    (M.map star).charpoly.roots = M.charpoly.roots.map star := by
  have hmap : (M.map star).charpoly = M.charpoly.map (starRingEnd ℂ) :=
    charpoly_map M (starRingEnd ℂ)
  rw [hmap, (IsAlgClosed.splits M.charpoly).roots_map]
  rfl

theorem conjTranspose_map_star (M : Matrix (Fin m) (Fin n) ℂ) :
    (M.map star)ᴴ = Mᴴ.map star := rfl

/-- The conjugate of an eigenbasis belongs to the conjugated matrix. -/
theorem IsEigenbasis.conjugate {H V : Matrix (Fin n) (Fin n) ℂ} {values : Fin n → ℝ}
    (h : IsEigenbasis H V values) : IsEigenbasis (H.map star) (V.map star) values where
  orthonormal := by
    rw [conjTranspose_map_star, ← map_star_mul, h.orthonormal]
    exact Matrix.map_one star (star_zero ℂ) (star_one ℂ)
  eigen := by
    have hdiagonal : (diagonal fun i => (values i : ℂ)).map star =
        diagonal fun i => (values i : ℂ) := by
      rw [diagonal_map (star_zero ℂ)]
      congr 1
      funext i
      exact Complex.conj_ofReal _
    rw [← map_star_mul, h.eigen, map_star_mul, hdiagonal]

namespace Mat

theorem conj_mul (A : Mat (Cplx ℝ) m n) (B : Mat (Cplx ℝ) n p) :
    (A * B).conj = A.conj * B.conj := by
  apply toMatrix_injective
  simp only [toMatrix_conj, toMatrix_mul, map_star_mul]

theorem conj_adjoint (A : Mat (Cplx ℝ) m n) : A.adjoint.conj = A.conj.adjoint := by
  apply toMatrix_injective
  simp only [toMatrix_conj, toMatrix_adjoint, conjTranspose_map_star]

theorem conj_dropLastRow (A : Mat (Cplx ℝ) m n) : A.dropLastRow.conj = A.conj.dropLastRow := by
  ext i j : 1
  simp [dropLastRow]

theorem conj_dropFirstRow (A : Mat (Cplx ℝ) m n) :
    A.dropFirstRow.conj = A.conj.dropFirstRow := by
  ext i j : 1
  simp [dropFirstRow]

end Mat

/-! ## Conjugated decompositions -/

namespace Decomposition

/-- The decomposition with its vectors conjugated. -/
noncomputable abbrev conjugate (D : Decomposition ℝ m) : Decomposition ℝ m :=
  ⟨D.values, D.vectors.conj, D.sources⟩

variable {D : Decomposition ℝ m} {C : Mat (Cplx ℝ) m m}

theorem IsSpectral.conjugate (h : D.IsSpectral C) : D.conjugate.IsSpectral C.conj where
  basis := by
    rw [Mat.toMatrix_conj, Decomposition.conjugate, Mat.toMatrix_conj]
    exact h.basis.conjugate
  descending := h.descending

theorem signal_conjugate (D : Decomposition ℝ m) : D.conjugate.signal = D.signal.conj := by
  ext i j : 1
  simp only [signal, Mat.takeColumns, Mat.of_apply, Mat.conj_apply]

theorem noise_conjugate (D : Decomposition ℝ m) : D.conjugate.noise = D.noise.conj := by
  ext i j : 1
  simp only [noise, Mat.dropColumns, Mat.of_apply, Mat.conj_apply]

end Decomposition

/-! ## Reflected directions -/

/-- A wave from the reflected direction runs through the phases backwards. -/
theorem Geometry.phasor_neg (g : Geometry ℝ) (θ : ℝ) : g.phasor (-θ) = star (g.phasor θ) := by
  have hstep : g.phaseStep (-θ) = -g.phaseStep θ := by
    rw [phaseStep_eq, phaseStep_eq, Real.sin_neg, mul_neg]
  rw [phasor, phasor, hstep, RCLike.star_def, ← Complex.exp_conj, map_mul, Complex.conj_I,
    Complex.conj_ofReal, Complex.ofReal_neg, neg_mul, mul_neg]

namespace SpectralSearch

/-- A vector leaks into a space as its conjugate leaks into the conjugated space. -/
theorem leakage_conj (U : Mat (Cplx ℝ) m p) {a b : Vector (Cplx ℝ) m}
    (hb : Vec.toComplex b = star (Vec.toComplex a)) : leakage U.conj b = leakage U a := by
  have hproduct : U.conj.toMatrixᴴ *ᵥ Vec.toComplex b = star (U.toMatrixᴴ *ᵥ Vec.toComplex a) := by
    rw [hb, Mat.toMatrix_conj, conjTranspose_map_star]
    funext j
    simp [mulVec, dotProduct, star_sum]
  rw [leakage_eq_sum, leakage_eq_sum, hproduct]
  simp only [Pi.star_apply, norm_star]

/-- The reflected direction leaks into the noise space of the conjugated covariance as the
direction leaks into the noise space of the covariance. -/
theorem leakage_reflected {g : Geometry ℝ} {C : Mat (Cplx ℝ) g.size g.size}
    {D D' : Decomposition ℝ g.size} (hD : D.IsSpectral C) (hD' : D'.IsSpectral C.conj)
    (hgap : D.HasGap) (hk : D'.sources = D.sources) (θ : ℝ) :
    leakage D'.noise (g.steering (-θ)) = leakage D.noise (g.steering θ) := by
  have hsteering : Vec.toComplex (g.steering (-θ)) = star (Vec.toComplex (g.steering θ)) := by
    rw [g.toComplex_steering, g.toComplex_steering, g.phasor_neg]
    funext i
    exact (star_pow _ _).symm
  rw [← hD.conjugate.leakage_noise_basis hD' hgap hk, Decomposition.noise_conjugate,
    leakage_conj D.noise hsteering]

/-- What the spectrum of the conjugated covariance shows in the reflected directions. -/
theorem spectrumAt_reflected (s : SpectralSearch ℝ) {g : Geometry ℝ}
    {C : Mat (Cplx ℝ) g.size g.size} {D D' : Decomposition ℝ g.size} (hD : D.IsSpectral C)
    (hD' : D'.IsSpectral C.conj) (hgap : D.HasGap) (hk : D'.sources = D.sources)
    (θ : Vector ℝ n) :
    s.spectrumAt g D'.noise (θ.map fun x => -x) = s.spectrumAt g D.noise θ := by
  rw [spectrumAt, spectrumAt, Vector.map_map]
  congr 2
  funext x
  exact leakage_reflected hD hD' hgap hk x

end SpectralSearch

/-! ## The conjugated fit -/

namespace Rotation

variable {S : Solvers ℝ}

theorem isSingular_conj (hS : S.IsExact) (tolerance : Outcome ℝ ℝ) (A : Mat (Cplx ℝ) n k) :
    isSingular S tolerance A.conj = isSingular S tolerance A := by
  apply isSingular_congr hS hS
  rw [Mat.toMatrix_conj, conjTranspose_map_star, ← map_star_mul]
  exact charpoly_map_star (isHermitian_conjTranspose_mul_self _)

/-- A conjugated system has the conjugated solution, or none if there was none. -/
theorem solve_conj (hS : S.IsExact) (A : Mat (Cplx ℝ) k k) (B : Mat (Cplx ℝ) k p) :
    S.solve A.conj B.conj = (S.solve A B).map Mat.conj := by
  have hdet : A.conj.toMatrix.det = star A.toMatrix.det := by
    rw [Mat.toMatrix_conj]
    exact (RingHom.map_det (starRingEnd ℂ) _).symm
  cases hsolved : S.solve A B with
  | none =>
    have hsingular : A.toMatrix.det = 0 := by
      by_contra hregular
      rw [hS.solve_regular B hregular] at hsolved
      cases hsolved
    exact hS.solve_singular _ (by rw [hdet, hsingular, star_zero])
  | some X =>
    obtain ⟨hregular, hX⟩ := (hS.solve_iff A B X).mp hsolved
    refine (hS.solve_iff _ _ _).mpr ⟨?_, ?_⟩
    · rw [hdet]
      exact star_ne_zero.mpr hregular
    · rw [← Mat.toMatrix_mul, ← Mat.conj_mul, Mat.toMatrix_conj, Mat.toMatrix_mul, hX,
        Mat.toMatrix_conj]

/-- Between conjugated sub-arrays least squares finds the conjugated rotation. -/
theorem leastSquares_conj (hS : S.IsExact) (tolerance : Outcome ℝ ℝ) (U₁ U₂ : Mat (Cplx ℝ) m k) :
    leastSquares S tolerance U₁.conj U₂.conj =
      (leastSquares S tolerance U₁ U₂).map (Option.map Mat.conj) := by
  rw [leastSquares_eq, leastSquares_eq, ← Mat.conj_adjoint, ← Mat.conj_mul, ← Mat.conj_mul,
    isSingular_conj hS, solve_conj hS]
  cases isSingular S tolerance (U₁.adjoint * U₁) with
  | error e => rfl
  | ok singular => cases singular <;> rfl

/-- The opposite phase step belongs to the reflected direction. -/
theorem directionOfStep_neg (g : Geometry ℝ) (φ : ℝ) :
    directionOfStep g (-φ) = -directionOfStep g φ := by
  rw [directionOfStep_eq, directionOfStep_eq, neg_div, Real.arcsin_neg]

/-- None of the phase steps of a rotation is on the branch cut of the argument: it has no
eigenvalue on the negative real axis. -/
def AvoidsCut (Ψ : Mat (Cplx ℝ) k k) : Prop := ∀ x : ℝ, x < 0 → (x : ℂ) ∉ spectrum ℂ Ψ.toMatrix

theorem avoidsCut_iff (Ψ : Mat (Cplx ℝ) k k) :
    AvoidsCut Ψ ↔ ∀ z ∈ Ψ.toMatrix.charpoly.roots, z.arg ≠ Real.pi := by
  have hroot : ∀ z : ℂ, z ∈ Ψ.toMatrix.charpoly.roots ↔ z ∈ spectrum ℂ Ψ.toMatrix := by
    intro z
    rw [mem_roots (charpoly_monic _).ne_zero, mem_spectrum_iff_isRoot_charpoly]
  constructor
  · intro h z hz harg
    obtain ⟨hneg, him⟩ := Complex.arg_eq_pi_iff.mp harg
    have hreal : (z.re : ℂ) = z := Complex.ext rfl him.symm
    exact h z.re hneg (by rwa [hreal, ← hroot])
  · intro h x hx hspectrum
    exact h x ((hroot x).mpr hspectrum) (Complex.arg_ofReal_of_neg hx)

/-- Sources whose phases step by less than a half turn keep a rotation off the cut. -/
theorem avoidsCut_of_phaseStep {g : Geometry ℝ} (X : NoiselessScene g k n)
    (hphases : ∀ j, g.phaseStep (X.angles.get j) ∈ Set.Ioo (-Real.pi) Real.pi)
    {Ψ : Mat (Cplx ℝ) k k} (hroots : Ψ.toMatrix.charpoly.roots = Finset.univ.val.map X.phasors) :
    AvoidsCut Ψ := by
  rw [avoidsCut_iff]
  intro z hz
  rw [hroots] at hz
  obtain ⟨j, -, rfl⟩ := Multiset.mem_map.mp hz
  have harg : (X.phasors j).arg = g.phaseStep (X.angles.get j) :=
    arg_phasor (Set.Ioo_subset_Ioc_self (hphases j))
  rw [harg]
  exact (hphases j).2.ne

/-- The conjugated rotation has the reflected directions. -/
theorem directions_conj (hS : S.IsExact) (g : Geometry ℝ) {Ψ : Mat (Cplx ℝ) k k}
    (hΨ : AvoidsCut Ψ) :
    (directions S g Ψ.conj : Multiset ℝ) = (directions S g Ψ : Multiset ℝ).map fun θ => -θ := by
  rw [coe_directions hS, coe_directions hS, Mat.toMatrix_conj, roots_charpoly_map_star,
    Multiset.map_map, Multiset.map_map]
  apply Multiset.map_congr rfl
  intro z hz
  have harg : (star z).arg = -z.arg := by
    rw [RCLike.star_def, Complex.arg_conj, if_neg ((avoidsCut_iff Ψ).mp hΨ z hz)]
  rw [Function.comp_apply, Function.comp_apply, harg, directionOfStep_neg]

/-- Of conjugated signal vectors a fit reads off the directions of the conjugated rotation. -/
theorem ofSubspace_conj (hS : S.IsExact) (tolerance : Outcome ℝ ℝ) (g : Geometry ℝ)
    (U : Mat (Cplx ℝ) m k) :
    ofSubspace S .leastSquares tolerance g U.conj =
      (fit S .leastSquares tolerance U.dropLastRow U.dropFirstRow).map
        (Option.map fun Ψ => directions S g Ψ.conj) := by
  rw [ofSubspace_eq, fit, fit, ← Mat.conj_dropLastRow, ← Mat.conj_dropFirstRow,
    leastSquares_conj hS]
  cases leastSquares S tolerance U.dropLastRow U.dropFirstRow with
  | error e => rfl
  | ok Ψ => cases Ψ <;> rfl

end Rotation

/-! ## Two runs -/

namespace Estimator

variable {S S' : Solvers ℝ} {E : Estimator ℝ}

/-- The rotation that the fit of an estimator finds in a covariance, if it finds one. -/
noncomputable def rotation (S : Solvers ℝ) (E : Estimator ℝ) (kind : RotationFit)
    (tolerance : Outcome ℝ ℝ) (C : Mat (Cplx ℝ) E.geometry.size E.geometry.size) :
    Outcome ℝ (Option (Mat (Cplx ℝ) E.sources E.sources)) :=
  let U := (Decomposition.solved S C E.sources).signal
  Rotation.fit S kind tolerance U.dropLastRow U.dropFirstRow

/-- The outcomes `r` and `r'` of two rotation fits are those of a scene and of its reflection: both
fits are degenerate or neither is, and if the rotation of the first is `regular`, the angles of the
second are the negatives of its angles. -/
structure Reflected (E : Estimator ℝ) (regular : Prop) (r r' : Outcome ℝ (Estimate ℝ)) : Prop where
  returns : E.search.IsNumeric → ∃ e, r = .ok e
  degenerate : r'.map Estimate.degenerate = r.map Estimate.degenerate
  angles : regular → r'.map (fun e => e.angles?.map Multiset.ofList) =
    r.map fun e => (e.angles?.map Multiset.ofList).map (Multiset.map fun θ => -θ)

/-- A result read in two steps is read in one. -/
theorem map_optionMap {β γ δ : Type} (f : β → γ) (h : γ → δ) (r : Outcome ℝ (Option β)) :
    (r.map (Option.map f)).map (Option.map h) = r.map (Option.map fun x => h (f x)) := by
  cases r with
  | error e => rfl
  | ok x => cases x <;> rfl

/-- The estimate from a covariance is read off the rotation that is found in it. -/
theorem ofCovarianceTensor_of_rotation {kind : RotationFit} {tolerance : Outcome ℝ ℝ}
    (hE : E.search = .rotational kind tolerance)
    {C : Mat (Cplx ℝ) E.geometry.size E.geometry.size}
    {Ψ : Option (Mat (Cplx ℝ) E.sources E.sources)} (hΨ : E.rotation S kind tolerance C = .ok Ψ) :
    E.ofCovarianceTensor S (.ofMat C) = .ok ⟨E.sources,
      (Decomposition.solved S C E.sources).values.toList,
      .rotational kind (Ψ.map (Rotation.directions S E.geometry)), none⟩ := by
  rw [ofCovarianceTensor_ofMat, ofDecomposition_rotational S hE, Rotation.ofSubspace_eq]
  exact congrArg (Except.map _) (congrArg (Except.map _) hΨ)

/-- With a number as its tolerance a fit returns, and so does that of the reflected scene. -/
theorem Reflected.exists_ok {regular : Prop} {r r' : Outcome ℝ (Estimate ℝ)}
    (h : E.Reflected regular r r') (hE : E.search.IsNumeric) (hregular : regular) :
    ∃ e e', r = .ok e ∧ r' = .ok e' ∧ e'.degenerate = e.degenerate ∧
      e'.angles?.map Multiset.ofList =
        (e.angles?.map Multiset.ofList).map (Multiset.map fun θ => -θ) := by
  obtain ⟨e, rfl⟩ := h.returns hE
  have hdegenerate := h.degenerate
  have hangles := h.angles hregular
  cases r' with
  | error fault => cases hdegenerate
  | ok e' => exact ⟨e, e', rfl, rfl, Except.ok.inj hdegenerate, Except.ok.inj hangles⟩

/-- What a rotation fit says is read off its rotation. -/
theorem unordered_of_rotation {kind : RotationFit} {tolerance : Outcome ℝ ℝ}
    (hE : E.search = .rotational kind tolerance) {D : Decomposition ℝ E.geometry.size}
    {β : Type} {found : Outcome ℝ (Option β)} {read : β → Multiset ℝ}
    (hfound : (Rotation.ofSubspace S kind tolerance E.geometry D.signal).map
      (Option.map Multiset.ofList) = found.map (Option.map read)) :
    (ofDecomposition S E D).map Estimate.unordered =
      found.map fun Ψ => (Ψ.isNone, Ψ.map read) := by
  rw [map_unordered_rotational S hE, hfound]
  cases found with
  | error e => rfl
  | ok Ψ => cases Ψ <;> rfl

/-- Least squares hears the conjugated covariance from the reflected directions. -/
theorem reflected_leastSquares (hS : S.IsExact) (hS' : S'.IsExact) {tolerance : Outcome ℝ ℝ}
    (hE : E.search = .rotational .leastSquares tolerance)
    {C : Mat (Cplx ℝ) E.geometry.size E.geometry.size} {D D' : Decomposition ℝ E.geometry.size}
    (hD : D.IsSpectral C) (hD' : D'.IsSpectral C.conj) (hgap : D.HasGap)
    (hk : D'.sources = D.sources) :
    E.Reflected (∀ Ψ, Rotation.fit S .leastSquares tolerance D.signal.dropLastRow
        D.signal.dropFirstRow = .ok (some Ψ) → Rotation.AvoidsCut Ψ)
      (ofDecomposition S E D) (ofDecomposition S' E D') := by
  obtain ⟨found, hfound⟩ := Rotation.exists_ofSubspace S .leastSquares tolerance E.geometry
    D.sources.2.1 D.signal
  -- both runs read their directions off the one rotation that the first finds
  have hrun : (ofDecomposition S E D).map Estimate.unordered =
      (Rotation.fit S .leastSquares tolerance D.signal.dropLastRow D.signal.dropFirstRow).map
        fun Ψ => (Ψ.isNone, Ψ.map fun Ψ => (Rotation.directions S E.geometry Ψ : Multiset ℝ)) := by
    apply unordered_of_rotation hE
    rw [Rotation.ofSubspace_eq]
    exact map_optionMap _ _ _
  have hrun' : (ofDecomposition S' E D').map Estimate.unordered =
      (Rotation.fit S .leastSquares tolerance D.signal.dropLastRow D.signal.dropFirstRow).map
        fun Ψ => (Ψ.isNone,
          Ψ.map fun Ψ => (Rotation.directions S E.geometry Ψ.conj : Multiset ℝ)) := by
    apply unordered_of_rotation hE
    rw [← hD.conjugate.ofSubspace_basis hS hS' hD' hgap hk .leastSquares nofun tolerance,
      Decomposition.signal_conjugate, Rotation.ofSubspace_conj hS]
    exact map_optionMap _ _ _
  constructor
  · rintro hnumeric
    rw [hE] at hnumeric
    obtain ⟨τ, rfl⟩ := hnumeric
    rw [ofDecomposition_rotational S hE, hfound]
    exact ⟨_, rfl⟩
  · have hdegenerate : ∀ r : Outcome ℝ (Estimate ℝ),
        r.map Estimate.degenerate = (r.map Estimate.unordered).map Prod.fst := by
      intro r
      cases r <;> rfl
    rw [hdegenerate, hdegenerate, hrun, hrun']
    cases Rotation.fit S .leastSquares tolerance D.signal.dropLastRow D.signal.dropFirstRow <;> rfl
  · intro hregular
    have hangles : ∀ (r : Outcome ℝ (Estimate ℝ)) (f : Option (Multiset ℝ) → Option (Multiset ℝ)),
        (r.map fun e => f (e.angles?.map Multiset.ofList)) =
          (r.map Estimate.unordered).map fun u => f u.2 := by
      intro r f
      cases r <;> rfl
    refine (hangles _ id).trans (Eq.trans ?_ (hangles _ (Option.map _)).symm)
    rw [hrun, hrun']
    cases hfit : Rotation.fit S .leastSquares tolerance D.signal.dropLastRow
      D.signal.dropFirstRow with
    | error e => rfl
    | ok Ψ =>
      cases Ψ with
      | none => rfl
      | some Ψ =>
        exact congrArg (fun angles => Except.ok (some angles))
          (Rotation.directions_conj hS E.geometry (hregular Ψ hfit))

/-- Conjugating the covariance reflects the estimates in broadside, whatever eigenbases the solvers
return.  Take a Hermitian covariance with a gap after its `K`-th eigenvalue.  A request for the
spectrum of its conjugate in the directions `-θ` is answered as one for its own spectrum in the
directions `θ`, entry by entry.  A least-squares fit of the conjugate is degenerate if that of the
covariance is; if it is not, and the rotation it finds in the covariance has no eigenvalue on the
negative real axis, it finds the negatives of the angles. -/
theorem estimate_conj {S S' : Solvers ℝ} (hS : S.IsExact) (hS' : S'.IsExact) (E : Estimator ℝ)
    (C : Mat (Cplx ℝ) E.geometry.size E.geometry.size) :
    (∀ (s : SpectralSearch ℝ) (count directions reflected : Setting ℝ)
      (K : SourceCount E.geometry.size) (θ : List ℝ),
      E.countOf count = .ok K → Covariance.HasGap C K → s.searchAngles directions = .ok θ →
        s.searchAngles reflected = .ok (θ.map fun x => -x) →
        E.spectrumOf S' s (.ofMat C.conj) reflected count =
            E.spectrumOf S s (.ofMat C) directions count ∧
          ((Search.spectral s).IsNumeric → ∃ values,
            E.spectrumOf S s (.ofMat C) directions count = .ok values ∧
              values.length = θ.length)) ∧
    (∀ tolerance, E.search = .rotational .leastSquares tolerance →
      Covariance.HasGap C E.sources →
        E.Reflected
          (∀ Ψ, E.rotation S .leastSquares tolerance C = .ok (some Ψ) → Rotation.AvoidsCut Ψ)
          (E.ofCovarianceTensor S (.ofMat C)) (E.ofCovarianceTensor S' (.ofMat C.conj))) := by
  constructor
  · intro s count directions reflected K θ hK hC hθ hreflected
    obtain ⟨hD, hgap⟩ := hC.solved hS.toIsHermitianExact
    have hD' := Decomposition.isSpectral_solved hS'.toIsHermitianExact
      hD.conjugate.basis.isHermitian K
    rw [E.spectrumOf_ofMat S' s C.conj reflected hK, E.spectrumOf_ofMat S s C directions hK]
    constructor
    · have hlist : θ.map (fun x => -x) = ((Vec.ofList θ).map fun x => -x).toList := by
        rw [Vector.toList_map]
        rfl
      rw [hlist] at hreflected
      rw [s.spectrumIn_eq _ _ hθ, s.spectrumIn_eq _ _ hreflected, s.spectrumAt_toList,
        s.spectrumAt_reflected hD hD' hgap rfl]
    · rintro ⟨f, c, hf, hc⟩
      exact ⟨_, SpectralSearch.spectrumIn_number hf hc hθ _ _, List.length_map _⟩
  · intro tolerance hE hC
    obtain ⟨hD, hgap⟩ := hC.solved hS.toIsHermitianExact
    have hD' := Decomposition.isSpectral_solved hS'.toIsHermitianExact
      hD.conjugate.basis.isHermitian E.sources
    rw [ofCovarianceTensor_ofMat, ofCovarianceTensor_ofMat]
    exact reflected_leastSquares hS hS' hE hD hD' hgap rfl

/-- One source a sixth of a half turn from broadside, before two elements: the conjugated covariance
is heard from the other side. -/
theorem estimate_conj_pair :
    let C := (NoiselessScene.single .pair (-(Real.pi / 6))).covariance true
    (∃ e e', (Estimator.pair (.rotational .leastSquares (.ok 0))).ofCovarianceTensor .ideal
          (.ofMat C) = .ok e ∧
        (Estimator.pair (.rotational .leastSquares (.ok 0))).ofCovarianceTensor .ideal
          (.ofMat C.conj) = .ok e' ∧
        e.angles? = some [-(Real.pi / 6)] ∧ e'.angles? = some [Real.pi / 6]) ∧
    ∃ values, (Estimator.pair (.spectral .coarse)).spectrumOf .ideal .coarse (.ofMat C)
          (.list [.real (Real.pi / 6), .real (-(Real.pi / 2))]) .nothing = .ok values ∧
        (Estimator.pair (.spectral .coarse)).spectrumOf .ideal .coarse (.ofMat C.conj)
          (.list [.real (-(Real.pi / 6)), .real (-(-(Real.pi / 2)))]) .nothing = .ok values := by
  intro C
  let E := Estimator.pair (.rotational .leastSquares (.ok 0))
  let X : NoiselessScene E.geometry E.sources 1 := NoiselessScene.single .pair (-(Real.pi / 6))
  let D := Decomposition.solved .ideal C E.sources
  have hD : D.IsSpectral C :=
    X.isSpectral_solved Solvers.ideal_isExact.toIsHermitianExact E.sources.2.1 true E.sources
  have hgap : Covariance.HasGap C E.sources := ⟨D, hD, rfl, NoiselessScene.hasGap (D := D) X hD⟩
  have hpi := Real.pi_pos
  have hangle : ∀ j, X.angles.get j = -(Real.pi / 6) := NoiselessScene.single_angle .pair _
  have hangles : ∀ j, X.angles.get j ∈ Set.Icc (-(Real.pi / 2)) (Real.pi / 2) := by
    intro j
    rw [hangle]
    constructor <;> linarith
  have hphases : ∀ j, E.geometry.phaseStep (X.angles.get j) ∈ Set.Ioo (-Real.pi) Real.pi := by
    intro j
    have hstep : E.geometry.phaseStep (X.angles.get j) = Real.pi * -(1 / 2) := by
      rw [hangle, ← Real.sin_pi_div_six, ← Real.sin_neg]
      exact Geometry.phaseStep_pair _
    rw [hstep]
    constructor <;> linarith
  obtain ⟨σ, Ψ, hσ, hroots, hfit⟩ := Rotation.exists_fit_scene (D := D) Solvers.ideal_isExact X hD
    .leastSquares (.ok 0)
  have hrotation : E.rotation .ideal .leastSquares (.ok 0) C = .ok (some Ψ) :=
    hfit.trans (congrArg Except.ok (if_neg (not_le.mpr hσ)))
  have hregular : ∀ Ψ, E.rotation .ideal .leastSquares (.ok 0) C = .ok (some Ψ) →
      Rotation.AvoidsCut Ψ := by
    intro Ψ' hΨ'
    cases hrotation.symm.trans hΨ'
    exact Rotation.avoidsCut_of_phaseStep X hphases hroots
  have hdirections : Rotation.directions .ideal E.geometry Ψ = [-(Real.pi / 6)] := by
    have hperm := Rotation.directions_perm Solvers.ideal_isExact X hangles
      (fun j => Set.Ioo_subset_Ioc_self (hphases j)) hroots
    exact List.perm_singleton.mp hperm
  have hestimate := ofCovarianceTensor_of_rotation (E := E) rfl hrotation
  obtain ⟨-, hfits⟩ := estimate_conj Solvers.ideal_isExact Solvers.ideal_isExact E C
  obtain ⟨hspectra, -⟩ := estimate_conj Solvers.ideal_isExact Solvers.ideal_isExact
    (Estimator.pair (.spectral .coarse)) C
  constructor
  · obtain ⟨e, e', he, he', -, hangles⟩ := (hfits (.ok 0) rfl hgap).exists_ok ⟨0, rfl⟩ hregular
    cases he.symm.trans hestimate
    obtain ⟨found, hfound, hreflected⟩ := Option.map_eq_some_iff.mp hangles
    have hopposite : (found : Multiset ℝ) = {Real.pi / 6} :=
      (hreflected.trans (congrArg (fun l : List ℝ => (l : Multiset ℝ).map fun θ => -θ)
        hdirections)).trans (by simp)
    rw [Multiset.coe_eq_singleton.mp hopposite] at hfound
    exact ⟨_, e', he, he', congrArg some hdirections, hfound⟩
  · obtain ⟨hsame, hreturns⟩ := hspectra .coarse .nothing
      (.list ([Real.pi / 6, -(Real.pi / 2)].map .real))
      (.list ([-(Real.pi / 6), -(-(Real.pi / 2))].map .real)) _ _ rfl hgap
      (Setting.toReals_reals _) (Setting.toReals_reals _)
    obtain ⟨values, hvalues, -⟩ := hreturns ⟨_, _, rfl, rfl⟩
    exact ⟨values, hvalues, hsame.trans hvalues⟩

end Estimator

end PhasedArray
