import PhasedArray.Proofs.Energy
import PhasedArray.Proofs.Estimator
import PhasedArray.Proofs.Exact.Ideal
import PhasedArray.Proofs.Exact.Reading
import PhasedArray.Proofs.NoiselessScene
import PhasedArray.Proofs.SearchGrid

set_option autoImplicit false

/-!
# The spectrum of a scene (SPEC §4.4)

The squared length of a steering vector's part in the noise space vanishes in the
directions of the sources, and in no direction that the array can tell from all of them:
with fewer sources than elements, one more column of powers is independent of theirs.
A positive floor then replaces the reciprocal by the sentinel exactly there.
-/

namespace PhasedArray

open Matrix

namespace SpectralSearch

variable {m n p : ℕ}

/-! ## Leakage -/

theorem leakage_eq_sum (U : Mat (Cplx ℝ) m p) (a : Vector (Cplx ℝ) m) :
    leakage U a = ∑ k, ‖(U.toMatrixᴴ *ᵥ Vec.toComplex a) k‖ ^ 2 := by
  rw [leakage]
  refine (map_total id Nat.cast_zero (fun _ _ => rfl) p _).trans ?_
  apply Finset.sum_congr rfl
  intro k _
  rw [id, Exact.scalar_sq, Cplx.abs_eq_norm, toComplex_total]
  rfl

/-- The leakage as an inner product. -/
theorem leakage_eq_dotProduct (U : Mat (Cplx ℝ) m p) (a : Vector (Cplx ℝ) m) :
    ((leakage U a : ℝ) : ℂ) =
      star (U.toMatrixᴴ *ᵥ Vec.toComplex a) ⬝ᵥ (U.toMatrixᴴ *ᵥ Vec.toComplex a) := by
  rw [leakage_eq_sum, dotProduct]
  push_cast
  apply Finset.sum_congr rfl
  intro k _
  exact (Complex.conj_mul' _).symm

/-- Nothing leaks exactly if all inner products vanish. -/
theorem leakage_eq_zero_iff {U : Mat (Cplx ℝ) m p} {a : Vector (Cplx ℝ) m} :
    leakage U a = 0 ↔ U.toMatrixᴴ *ᵥ Vec.toComplex a = 0 := by
  open scoped ComplexOrder in
  rw [← dotProduct_star_self_eq_zero, ← leakage_eq_dotProduct, Complex.ofReal_eq_zero]

/-- A change of orthonormal basis leaves the leakage alone. -/
theorem leakage_eq_of_unitary {U U' : Mat (Cplx ℝ) m p} {Q : Matrix (Fin p) (Fin p) ℂ}
    (hQ : Qᴴ * Q = 1) (hU : U'.toMatrix = U.toMatrix * Q) (a : Vector (Cplx ℝ) m) :
    leakage U' a = leakage U a := by
  have hcomplete : Q * Qᴴ = 1 := mul_eq_one_comm.mp hQ
  apply Complex.ofReal_injective
  rw [leakage_eq_dotProduct, leakage_eq_dotProduct, hU, conjTranspose_mul, ← mulVec_mulVec,
    star_mulVec, conjTranspose_conjTranspose, ← dotProduct_mulVec, mulVec_mulVec, hcomplete,
    one_mulVec]

/-- Signal and noise space share the length of a vector. -/
theorem leakage_noise_eq {D : Decomposition ℝ m} {C : Mat (Cplx ℝ) m m} (h : D.IsSpectral C)
    (a : Vector (Cplx ℝ) m) :
    ((leakage D.noise a : ℝ) : ℂ) = star (Vec.toComplex a) ⬝ᵥ Vec.toComplex a -
      star (Vec.toComplex a) ⬝ᵥ (D.signal.toMatrix * D.signal.toMatrixᴴ) *ᵥ Vec.toComplex a := by
  have hnoise : D.noise.toMatrix * D.noise.toMatrixᴴ =
      1 - D.signal.toMatrix * D.signal.toMatrixᴴ := by
    rw [← h.signal_add_noise, add_sub_cancel_left]
  rw [leakage_eq_dotProduct, star_mulVec, conjTranspose_conjTranspose, ← dotProduct_mulVec,
    mulVec_mulVec, hnoise, sub_mulVec, one_mulVec, dotProduct_sub]

/-- Nothing leaks into the noise space exactly in the directions of the sources, as far as
the array can tell directions apart. -/
theorem leakage_noise_eq_zero_iff {g : Geometry ℝ} {D : Decomposition ℝ g.size}
    (X : NoiselessScene g D.sources n) {averaging : Bool}
    (h : D.IsSpectral (X.covariance averaging)) (θ : ℝ) :
    leakage D.noise (g.steering θ) = 0 ↔ ∃ j, g.phasor θ = g.phasor (X.angles.get j) := by
  have hnoise := X.noise_mul_steering h
  rw [leakage_eq_zero_iff]
  constructor
  · intro hzero
    obtain ⟨T, -, hT⟩ := X.exists_signal_eq h
    -- without a part in the noise space, the steering vector is its part in the signal space
    have hcombination : X.steering *ᵥ
        (T *ᵥ (D.signal.toMatrixᴴ *ᵥ Vec.toComplex (g.steering θ))) =
          fun i => g.phasor θ ^ i.val := by
      calc _ = (D.signal.toMatrix * D.signal.toMatrixᴴ) *ᵥ Vec.toComplex (g.steering θ) := by
            rw [mulVec_mulVec, ← hT, mulVec_mulVec]
        _ = (D.signal.toMatrix * D.signal.toMatrixᴴ + D.noise.toMatrix * D.noise.toMatrixᴴ) *ᵥ
              Vec.toComplex (g.steering θ) := by
            rw [add_mulVec, ← mulVec_mulVec _ D.noise.toMatrix, hzero, mulVec_zero, add_zero]
        _ = fun i => g.phasor θ ^ i.val := by
            rw [h.signal_add_noise, one_mulVec, g.toComplex_steering]
    exact exists_node_eq X.distinct D.sources.2.2 hcombination
  · rintro ⟨j, hj⟩
    funext k
    have hentry := congrFun (congrFun hnoise k) j
    rw [g.toComplex_steering, hj]
    exact hentry

/-! ## One source -/

section Single

variable {g : Geometry ℝ} {D : Decomposition ℝ g.size}

/-- The steering vector of one source spans the signal space. -/
theorem signal_mul_of_single (hk : D.sources.val = 1) (X : NoiselessScene g D.sources n)
    {averaging : Bool} (hD : D.IsSpectral (X.covariance averaging)) :
    D.signal.toMatrix * D.signal.toMatrixᴴ = (g.size : ℂ)⁻¹ • (X.steering * X.steeringᴴ) := by
  have hsub : Subsingleton (Fin D.sources) := by rw [hk]; infer_instance
  have hsize : (g.size : ℂ) ≠ 0 := by exact_mod_cast g.size_pos.ne'
  obtain ⟨T, -, hT⟩ := X.exists_signal_eq hD
  have hgram : X.steeringᴴ * X.steering = (g.size : ℂ) • 1 := by
    ext i j
    have hone : ∀ l : Fin g.size, X.steeringᴴ j l * X.steering l j = 1 := fun l =>
      star_pow_mul_pow (g.norm_phasor (X.angles.get j)) l
    rw [Subsingleton.elim i j, Matrix.mul_apply, Finset.sum_congr rfl fun l _ => hone l]
    simp
  have horth := hD.signal_orthonormal
  rw [hT, conjTranspose_mul, Matrix.mul_assoc, ← Matrix.mul_assoc X.steeringᴴ, hgram,
    Matrix.smul_mul, Matrix.one_mul, Matrix.mul_smul, ← Matrix.smul_mul] at horth
  have hinverse : T * Tᴴ = (g.size : ℂ)⁻¹ • 1 := by
    have hcomm := mul_eq_one_comm.mp horth
    rw [Matrix.mul_smul] at hcomm
    rw [← hcomm, inv_smul_smul₀ hsize]
  rw [hT, conjTranspose_mul, Matrix.mul_assoc, ← Matrix.mul_assoc T, hinverse, Matrix.smul_mul,
    Matrix.one_mul, Matrix.mul_smul]

/-- With one source, what leaks is what the beam toward the source does not pick up. -/
theorem leakage_noise_of_single (hk : D.sources.val = 1) (X : NoiselessScene g D.sources n)
    {averaging : Bool} (hD : D.IsSpectral (X.covariance averaging)) (j : Fin D.sources) (θ : ℝ) :
    leakage D.noise (g.steering θ) = g.size -
      ‖∑ i ∈ Finset.range g.size, (star (X.phasors j) * g.phasor θ) ^ i‖ ^ 2 / g.size := by
  have hsub : Subsingleton (Fin D.sources) := by rw [hk]; infer_instance
  have hlength : star (Vec.toComplex (g.steering θ)) ⬝ᵥ Vec.toComplex (g.steering θ) =
      (g.size : ℂ) := by
    rw [star_dotProduct_self, power_of_norm_eq_one (g.norm_steering θ), Complex.ofReal_natCast]
  have hbeam : X.steeringᴴ *ᵥ Vec.toComplex (g.steering θ) =
      fun _ => ∑ i ∈ Finset.range g.size, (star (X.phasors j) * g.phasor θ) ^ i := by
    funext i
    rw [Subsingleton.elim i j, g.toComplex_steering, Finset.sum_range]
    simp only [mulVec, dotProduct, NoiselessScene.steering, conjTranspose_apply, nodes_apply,
      mul_pow, star_pow]
  apply Complex.ofReal_injective
  rw [leakage_noise_eq hD, hlength, signal_mul_of_single hk X hD, smul_mulVec, dotProduct_smul,
    ← mulVec_mulVec, dotProduct_mulVec, ← conjTranspose_conjTranspose X.steering, ← star_mulVec,
    conjTranspose_conjTranspose, hbeam, dotProduct, Fintype.sum_subsingleton _ j]
  have hsq : ∀ z : ℂ, star z * z = (‖z‖ : ℂ) ^ 2 := Complex.conj_mul'
  rw [Pi.star_apply, hsq, smul_eq_mul]
  push_cast
  ring

/-- The same before two elements, for a source of phasor `z`. -/
theorem leakage_noise_pair {D : Decomposition ℝ Geometry.pair.size}
    {k : SourceCount Geometry.pair.size} (hDk : D.sources = k) (hk : k.val = 1)
    (X : NoiselessScene .pair k n) {averaging : Bool}
    (hD : D.IsSpectral (X.covariance averaging)) {z : ℂ} (hz : ∀ j, X.phasors j = z) (θ : ℝ) :
    leakage D.noise (Geometry.pair.steering θ) =
      2 - ‖1 + star z * Geometry.pair.phasor θ‖ ^ 2 / 2 := by
  subst hDk
  have hsize : (Geometry.pair.size : ℝ) = 2 := Nat.cast_ofNat
  have hbeam : ∀ w : ℂ, ∑ i ∈ Finset.range Geometry.pair.size, w ^ i = 1 + w := by
    intro w
    change ∑ i ∈ Finset.range 2, w ^ i = 1 + w
    rw [Finset.sum_range_succ, Finset.sum_range_one, pow_zero, pow_one]
  rw [leakage_noise_of_single hk X hD ⟨0, D.sources.2.1⟩, hz, hbeam, hsize]

end Single

/-! ## Values -/

section Numbers

variable {α : Type} [Scalar α] [Scalar.HoldsWholes α] {s : SpectralSearch α}

/-- A number as the floor is the floor in every direction. -/
theorem floors_number {f : Number α} (hf : s.floor = .number f) (n : ℕ) :
    s.floors n = .ok (Vector.ofFn fun _ => f.value) := by
  rw [floors, hf, Setting.toBounds_number]
  simp [bind, Except.bind, Tensor.ofScalar, Tensor.commonShape?, Tensor.commonReversed?,
    Tensor.stretched, Tensor.sourcePlace, pure, Except.pure, Cplx.ofReal]

/-- A number as the sentinel is the sentinel in every direction. -/
theorem sentinels_number {c : Number α} (hc : s.sentinel = .number c) (n : ℕ) :
    s.sentinels n = .ok (Vector.ofFn fun _ => c.value) := by
  rw [sentinels, hc, Setting.toReal_number]
  simp [bind, Except.bind, Tensor.ofScalar, Tensor.filling?, Tensor.dropUnits,
    Tensor.commonShape?, Tensor.commonReversed?, Tensor.sourcePlace, pure, Except.pure]
  apply Vector.ext
  intro i hi
  simp [Cplx.ofReal]

/-- With numbers as floor and sentinel the spectrum has its value in each direction. -/
theorem valuesOf_number {f c : Number α} (hf : s.floor = .number f) (hc : s.sentinel = .number c)
    (leaks : Vector α n) :
    s.valuesOf leaks = .ok (leaks.map (value f.value c.value)) := by
  rw [valuesOf, sentinels_number hc, floors_number hf]
  change Except.ok _ = Except.ok _
  congr 1
  apply Vector.ext
  intro i hi
  simp only [Vec.get_ofFn, Vector.getElem_ofFn, Vector.getElem_map]
  rfl

end Numbers

/-- Over a sentinel that no reciprocal exceeds, less leakage is no lower value. -/
theorem value_antitone {floor sentinel : ℝ} (hfloor : 0 < floor) (hhigh : 1 / floor ≤ sentinel) :
    Antitone (value floor sentinel) := by
  intro e e' hle
  unfold value
  by_cases h : floor ≤ e
  · rw [if_pos h, if_pos (h.trans hle)]
    exact one_div_le_one_div_of_le (hfloor.trans_le h) hle
  · rw [if_neg h]
    split_ifs with h'
    · exact (one_div_le_one_div_of_le hfloor h').trans hhigh
    · exact le_rfl

/-- The spectrum in one direction. -/
noncomputable def valueAt (floor sentinel : ℝ) (g : Geometry ℝ) (noise : Mat (Cplx ℝ) g.size p)
    (θ : ℝ) : ℝ :=
  value floor sentinel (leakage noise (g.steering θ))

theorem spectrumAt_number {s : SpectralSearch ℝ} {f c : Number ℝ} (hf : s.floor = .number f)
    (hc : s.sentinel = .number c) (g : Geometry ℝ) (noise : Mat (Cplx ℝ) g.size p)
    (θ : Vector ℝ n) :
    s.spectrumAt g noise θ = .ok (θ.map (valueAt f.value c.value g noise)) := by
  rw [spectrumAt, valuesOf_number hf hc, Vector.map_map]
  rfl

/-- In a direction that the array cannot tell from a source the spectrum is the sentinel. -/
theorem valueAt_eq_sentinel {g : Geometry ℝ} {D : Decomposition ℝ g.size}
    (X : NoiselessScene g D.sources n) {averaging : Bool}
    (h : D.IsSpectral (X.covariance averaging)) {floor : ℝ} (hfloor : 0 < floor)
    (sentinel : ℝ) {θ : ℝ} (hθ : ∃ j, g.phasor θ = g.phasor (X.angles.get j)) :
    valueAt floor sentinel g D.noise θ = sentinel := by
  rw [valueAt, (leakage_noise_eq_zero_iff X h θ).mpr hθ, value, if_neg (not_le.mpr hfloor)]

/-! ## A coarse grid -/

/-- A search of three directions. -/
noncomputable def coarse : SpectralSearch ℝ := ⟨.ofNat 3, defaultFloor, defaultSentinel⟩

theorem coarse_grid : SearchGrid.ofSetting (.whole 3) = .ok coarse.grid :=
  SearchGrid.ofSetting_whole three_pos (by decide)

/-- They start at the end of the array and lie a third of a half turn apart. -/
theorem coarse_point (i : ℕ) :
    coarse.grid.point i = -(Real.pi / 2) + i * (Real.pi / 3) := by
  simp [SearchGrid.point, coarse, SearchGrid.ofNat]
  ring

theorem coarse_point_zero : coarse.grid.point 0 = -(Real.pi / 2) := by
  rw [coarse_point, Nat.cast_zero, zero_mul, add_zero]

theorem coarse_point_one : coarse.grid.point 1 = -(Real.pi / 6) := by
  rw [coarse_point]
  push_cast
  ring

theorem coarse_point_two : coarse.grid.point 2 = Real.pi / 6 := by
  rw [coarse_point]
  push_cast
  ring

/-- Two elements that hear a source on the middle point tell it from both neighbours. -/
theorem leakage_coarse {D : Decomposition ℝ Geometry.pair.size}
    {k : SourceCount Geometry.pair.size} (hDk : D.sources = k) (hk : k.val = 1)
    (X : NoiselessScene .pair k n) {averaging : Bool}
    (hD : D.IsSpectral (X.covariance averaging)) (hX : ∀ j, X.phasors j = -Complex.I) :
    leakage D.noise (Geometry.pair.steering (coarse.grid.point 0)) = 1 ∧
      leakage D.noise (Geometry.pair.steering (coarse.grid.point 2)) = 2 := by
  have hstar : star (-Complex.I) = Complex.I := by simp
  have hnorm : ‖1 + Complex.I * -1‖ ^ 2 = 2 := by
    rw [← Complex.normSq_eq_norm_sq, Complex.normSq_apply]
    norm_num
  constructor
  · rw [leakage_noise_pair hDk hk X hD hX, coarse_point_zero, Geometry.phasor_pair_end, hstar,
      hnorm]
    norm_num
  · rw [leakage_noise_pair hDk hk X hD hX, coarse_point_two, Geometry.phasor_pair_mirrored,
      hstar, Complex.I_mul_I]
    norm_num

/-! ## Requests -/

/-- The directions that a request for a spectrum names: those of the grid unless there are
others. -/
noncomputable def searchAngles (s : SpectralSearch ℝ) (directions : Setting ℝ) :
    Outcome ℝ (List ℝ) :=
  match directions with
  | .nothing => .ok s.grid.points.toList
  | given => given.toReals

/-- The spectrum in the directions that a request names. -/
noncomputable def spectrumIn (s : SpectralSearch ℝ) (g : Geometry ℝ)
    (noise : Mat (Cplx ℝ) g.size p) (directions : Setting ℝ) : Outcome ℝ (List ℝ) :=
  match directions with
  | .nothing => do
      let values ← s.spectrum g noise
      return values.toList
  | given => do
      let θ ← given.toReals
      let values ← s.spectrumAt g noise (Vec.ofList θ)
      return values.toList

/-- A list of directions is as good as a vector of them. -/
theorem spectrumAt_toList (s : SpectralSearch ℝ) (g : Geometry ℝ) (N : Mat (Cplx ℝ) g.size p)
    (x : Vector ℝ n) : (s.spectrumAt g N (Vec.ofList x.toList)).map Vector.toList =
      (s.spectrumAt g N x).map Vector.toList := by
  obtain ⟨⟨l⟩, rfl⟩ := x
  rfl

/-- The directions that a request names decide its answer. -/
theorem spectrumIn_eq (s : SpectralSearch ℝ) (g : Geometry ℝ) (N : Mat (Cplx ℝ) g.size p)
    {directions : Setting ℝ} {θ : List ℝ} (hθ : s.searchAngles directions = .ok θ) :
    s.spectrumIn g N directions = (s.spectrumAt g N (Vec.ofList θ)).map Vector.toList := by
  have hread : ∀ {n : ℕ} (x : Vector ℝ n), (do
      let values ← s.spectrumAt g N x
      return values.toList) = (s.spectrumAt g N x).map Vector.toList := by
    intro n x
    cases s.spectrumAt g N x <;> rfl
  have hgiven : ∀ given : Setting ℝ, given.toReals = .ok θ → (do
      let θ ← given.toReals
      let values ← s.spectrumAt g N (Vec.ofList θ)
      return values.toList) = (s.spectrumAt g N (Vec.ofList θ)).map Vector.toList := by
    intro given hgiven
    rw [hgiven]
    exact hread _
  cases directions with
  | nothing =>
    cases hθ
    exact (hread _).trans (s.spectrumAt_toList g N _).symm
  | _ => exact hgiven _ hθ

theorem spectrumIn_number {s : SpectralSearch ℝ} {f c : Number ℝ} (hf : s.floor = .number f)
    (hc : s.sentinel = .number c) {directions : Setting ℝ} {θ : List ℝ}
    (hθ : s.searchAngles directions = .ok θ) (g : Geometry ℝ) (noise : Mat (Cplx ℝ) g.size p) :
    s.spectrumIn g noise directions = .ok (θ.map (valueAt f.value c.value g noise)) := by
  have hlist : ((Vec.ofList θ).map (valueAt f.value c.value g noise)).toList =
      θ.map (valueAt f.value c.value g noise) := Vector.toList_map
  rw [s.spectrumIn_eq g noise hθ, spectrumAt_number hf hc, ← hlist]
  rfl

end SpectralSearch

namespace Estimator

/-- The number of sources that a request for a spectrum names: the estimator's own unless
there is another. -/
noncomputable def countOf (E : Estimator ℝ) (count : Setting ℝ) :
    Outcome ℝ (SourceCount E.geometry.size) :=
  match count with
  | .nothing => .ok E.sources
  | given => SourceCount.ofSetting E.geometry.size E.geometry.givenSize given

/-- A request whose number of sources can be read is answered from the decomposition with
that number. -/
theorem spectrumOf_ofMat (S : Solvers ℝ) (E : Estimator ℝ) (s : SpectralSearch ℝ)
    (C : Mat (Cplx ℝ) E.geometry.size E.geometry.size) (directions : Setting ℝ)
    {count : Setting ℝ} {k : SourceCount E.geometry.size} (hk : E.countOf count = .ok k) :
    E.spectrumOf S s (.ofMat C) directions count =
      s.spectrumIn E.geometry (Decomposition.solved S C k).noise directions := by
  have hdecomposed : ∀ k, (do
      let D ← Decomposition.ofEntries S (.ofMat C) C k
      s.spectrumIn E.geometry D.noise directions) =
        s.spectrumIn E.geometry (Decomposition.solved S C k).noise directions := by
    intro k
    rw [ofEntries_ofMat]
    rfl
  have hgiven : ∀ given : Setting ℝ,
      SourceCount.ofSetting E.geometry.size E.geometry.givenSize given = .ok k → (do
        let k ← SourceCount.ofSetting E.geometry.size E.geometry.givenSize given
        let D ← Decomposition.ofEntries S (.ofMat C) C k
        s.spectrumIn E.geometry D.noise directions) =
          s.spectrumIn E.geometry (Decomposition.solved S C k).noise directions := by
    intro given hread
    rw [hread]
    exact hdecomposed k
  rw [spectrumOf, checkCovariance_ofMat]
  cases count with
  | nothing =>
    cases hk
    cases directions <;> exact hdecomposed E.sources
  | _ => cases directions <;> exact hgiven _ hk

/-- A spectrum identifies the sources of a scene.  Whatever eigenbasis the solver returns, and
with or without averaging, nothing leaks into the noise space exactly in the directions that
the array cannot tell from all sources; so, with a positive floor, a request for the spectrum
gets the sentinel in every such direction. -/
theorem spectrum_identifies_sources {S : Solvers ℝ} (hS : S.IsHermitianExact) (E : Estimator ℝ)
    {k : SourceCount E.geometry.size} {n : ℕ} (X : NoiselessScene E.geometry k n)
    (averaging : Bool) :
    ∃ D, Decomposition.ofCovariance S (X.covariance averaging) k = .ok D ∧
      (∀ θ, SpectralSearch.leakage D.noise (E.geometry.steering θ) = 0 ↔
        ∃ j, E.geometry.phasor θ = E.geometry.phasor (X.angles.get j)) ∧
      ∀ (s : SpectralSearch ℝ) (f c : Number ℝ) (directions count : Setting ℝ) (angles : List ℝ),
        s.floor = .number f → 0 < f.value → s.sentinel = .number c →
        s.searchAngles directions = .ok angles → E.countOf count = .ok k →
        ∃ values, E.spectrumOf S s (.ofMat (X.covariance averaging)) directions count = .ok values ∧
          values.length = angles.length ∧
          ∀ (i : ℕ) (θ : ℝ), angles[i]? = some θ →
            (∃ j, E.geometry.phasor θ = E.geometry.phasor (X.angles.get j)) →
            values[i]? = some c.value := by
  let D := Decomposition.solved S (X.covariance averaging) k
  have hD : D.IsSpectral (X.covariance averaging) :=
    Decomposition.isSpectral_solved hS (X.covariance_isHermitian k.2.1 averaging) k
  refine ⟨D, Decomposition.ofCovariance_eq S _ k, fun θ =>
    SpectralSearch.leakage_noise_eq_zero_iff (D := D) X hD θ, ?_⟩
  intro s f c directions count angles hf hpos hc hangles hcount
  refine ⟨angles.map (SpectralSearch.valueAt f.value c.value E.geometry D.noise), ?_,
    List.length_map _, ?_⟩
  · rw [E.spectrumOf_ofMat S s _ directions hcount]
    exact SpectralSearch.spectrumIn_number hf hc hangles _ _
  · intro i θ hθ hsource
    rw [List.getElem?_map, hθ, Option.map_some,
      SpectralSearch.valueAt_eq_sentinel (D := D) X hD hpos c.value hsource]

/-- Two elements tell a source at a sixth of a half turn from broadside. -/
theorem spectrum_identifies_sources_pair :
    ∃ D values, Decomposition.ofCovariance .ideal
        ((NoiselessScene.single .pair (-(Real.pi / 6))).covariance true) ⟨1, by decide⟩ = .ok D ∧
      SpectralSearch.leakage D.noise (Geometry.pair.steering (-(Real.pi / 6))) = 0 ∧
      SpectralSearch.leakage D.noise (Geometry.pair.steering 0) ≠ 0 ∧
      (Estimator.pair (.spectral .coarse)).spectrumOf .ideal .coarse
        (.ofMat ((NoiselessScene.single .pair (-(Real.pi / 6))).covariance true)) .nothing
          .nothing = .ok values ∧ values[1]? = some (1e10 : ℝ) := by
  obtain ⟨D, hD, hleak, hspectrum⟩ := spectrum_identifies_sources (k := ⟨1, by decide⟩)
    Solvers.ideal_isExact.toIsHermitianExact (.pair (.spectral .coarse))
    (NoiselessScene.single .pair (-(Real.pi / 6))) true
  have hfloor : (0 : ℝ) < 1e-10 := by norm_num
  obtain ⟨values, hvalues, -, hsentinel⟩ := hspectrum .coarse (.real 1e-10) (.real 1e10) .nothing
    .nothing _ rfl hfloor rfl rfl rfl
  refine ⟨D, values, hD, (hleak _).mpr ⟨0, rfl⟩, ?_, hvalues, hsentinel 1 _ ?_ ⟨0, rfl⟩⟩
  · intro hzero
    obtain ⟨j, hj⟩ := (hleak _).mp hzero
    have hone : Geometry.pair.phasor 0 = 1 := by simp [Geometry.phasor_pair]
    have hsource : Geometry.pair.phasor 0 = -Complex.I := by
      rw [← Geometry.phasor_pair_sixth, ← NoiselessScene.single_angle .pair (-(Real.pi / 6)) j]
      exact hj
    rw [hone] at hsource
    simpa using congrArg Complex.re hsource
  · rw [NoiselessScene.single_angle, ← SpectralSearch.coarse_point_one, Vector.getElem?_toList]
    exact Vector.getElem?_eq_some_iff.mpr ⟨by decide, SearchGrid.points_getElem _ _ _⟩

end Estimator

end PhasedArray
