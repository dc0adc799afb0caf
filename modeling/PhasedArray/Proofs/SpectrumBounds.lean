import PhasedArray.Proofs.Spectrum

set_option autoImplicit false

/-!
# The range of a spectrum (SPEC §4.4)

The signal and the noise vectors of a decomposition resolve the identity, so they share the
power of a steering vector, which is the number of elements.  What leaks into the noise space
is therefore what the signal vectors do not pick up, it is the quadratic form of the noise
projector, and it lies between zero and the number of elements.  A spectrum is the reciprocal
of that down to a floor, so its values have a range of their own, and the sentinel below the
floor keeps their order if no reciprocal exceeds it.
-/

namespace PhasedArray

open Matrix

/-! ## One quantity in three forms -/

namespace Decomposition

/-- How the steering vector toward `θ` is shared between the two spaces of `D`: what leaks into
the noise space is what the signal vectors leave of the power, and the form of the noise
projector. -/
structure Shares {g : Geometry ℝ} (D : Decomposition ℝ g.size) (θ : ℝ) : Prop where
  rest : SpectralSearch.leakage D.noise (g.steering θ) =
    g.size - ∑ j, ‖star (D.signal.toMatrix.col j) ⬝ᵥ Vec.toComplex (g.steering θ)‖ ^ 2
  form : ((SpectralSearch.leakage D.noise (g.steering θ) : ℝ) : ℂ) =
    star (Vec.toComplex (g.steering θ)) ⬝ᵥ
      D.noiseProjector.toMatrix *ᵥ Vec.toComplex (g.steering θ)
  range : SpectralSearch.leakage D.noise (g.steering θ) ∈ Set.Icc 0 (g.size : ℝ)

end Decomposition

namespace SpectralSearch

variable {m p : ℕ}

theorem leakage_nonneg (U : Mat (Cplx ℝ) m p) (a : Vector (Cplx ℝ) m) : 0 ≤ leakage U a := by
  rw [leakage_eq_sum]
  exact power_nonneg _

/-- The leakage as the form of the projector. -/
theorem leakage_eq_form (U : Mat (Cplx ℝ) m p) (a : Vector (Cplx ℝ) m) :
    ((leakage U a : ℝ) : ℂ) =
      star (Vec.toComplex a) ⬝ᵥ (Decomposition.projector U).toMatrix *ᵥ Vec.toComplex a := by
  rw [leakage_eq_dotProduct, star_mulVec, conjTranspose_conjTranspose, ← dotProduct_mulVec,
    mulVec_mulVec, Decomposition.toMatrix_projector]

/-- Noise and signal space share the power of a vector. -/
theorem leakage_noise_eq_sub {D : Decomposition ℝ m} {C : Mat (Cplx ℝ) m m} (h : D.IsSpectral C)
    (a : Vector (Cplx ℝ) m) :
    leakage D.noise a = power (Vec.toComplex a) - leakage D.signal a := by
  apply Complex.ofReal_injective
  rw [leakage_noise_eq h, star_dotProduct_self, Complex.ofReal_sub, leakage_eq_form D.signal,
    Decomposition.toMatrix_projector]

end SpectralSearch

/-- Every steering vector is shared, whatever eigenbasis the decomposition holds. -/
theorem Decomposition.IsSpectral.shares {g : Geometry ℝ} {D : Decomposition ℝ g.size}
    {C : Mat (Cplx ℝ) g.size g.size} (h : D.IsSpectral C) (θ : ℝ) : D.Shares θ := by
  have hrest := SpectralSearch.leakage_noise_eq_sub h (g.steering θ)
  rw [power_of_norm_eq_one (g.norm_steering θ)] at hrest
  constructor
  · rw [hrest, SpectralSearch.leakage_eq_sum D.signal]
    rfl
  · exact SpectralSearch.leakage_eq_form D.noise (g.steering θ)
  · refine ⟨SpectralSearch.leakage_nonneg _ _, ?_⟩
    rw [hrest]
    exact sub_le_self _ (SpectralSearch.leakage_nonneg _ _)

/-! ## The range of the values -/

namespace SpectralSearch

/-- What the values of a spectrum are where up to `m` leaks: one for each leakage, the sentinel
or a reciprocal of what lies between the floor and `m`; and if no such reciprocal exceeds the
sentinel, less leakage is no lower value. -/
structure Inverts (floor sentinel : ℝ) (m : ℕ) (leaks values : List ℝ) : Prop where
  length : values.length = leaks.length
  range : ∀ v ∈ values, v = sentinel ∨ v ∈ Set.Icc (1 / (m : ℝ)) (1 / floor)
  order : 1 / floor ≤ sentinel →
    ∀ p ∈ leaks.zip values, ∀ q ∈ leaks.zip values, p.1 ≤ q.1 → q.2 ≤ p.2

theorem value_eq_or_mem {floor : ℝ} (hfloor : 0 < floor) (sentinel : ℝ) {m : ℕ} {e : ℝ}
    (he : e ≤ m) :
    value floor sentinel e = sentinel ∨
      value floor sentinel e ∈ Set.Icc (1 / (m : ℝ)) (1 / floor) := by
  unfold value
  split_ifs with h
  · right
    exact ⟨one_div_le_one_div_of_le (hfloor.trans_le h) he, one_div_le_one_div_of_le hfloor h⟩
  · left
    rfl

theorem inverts_map {floor : ℝ} (hfloor : 0 < floor) (sentinel : ℝ) {m : ℕ} {leaks : List ℝ}
    (hle : ∀ e ∈ leaks, e ≤ m) :
    Inverts floor sentinel m leaks (leaks.map (value floor sentinel)) := by
  constructor
  · exact List.length_map _
  · intro v hv
    obtain ⟨e, he, rfl⟩ := List.mem_map.mp hv
    exact value_eq_or_mem hfloor sentinel (hle e he)
  · intro hhigh p hp q hq hpq
    have hvalue : ∀ p ∈ leaks.zip (leaks.map (value floor sentinel)),
        p.2 = value floor sentinel p.1 := by
      intro p hp
      rw [List.zip_map_right] at hp
      obtain ⟨x, hx, rfl⟩ := List.mem_map.mp hp
      obtain ⟨i, hi, rfl⟩ := List.mem_iff_getElem.mp hx
      rw [List.getElem_zip]
      rfl
    rw [hvalue p hp, hvalue q hq]
    exact value_antitone hfloor hhigh hpq

end SpectralSearch

namespace Estimator

/-- The spectrum of a Hermitian covariance is bounded, for every number of sources and whatever
eigenbasis the solver returns.  In every direction what it inverts is what the signal vectors
leave of the steering vector's power, is the form of the noise projector, and lies between zero
and the number of elements.  With a positive floor, a request for the spectrum therefore gets
the sentinel or a reciprocal of what lies between the floor and the number of elements, and a
sentinel from the reciprocal of the floor on keeps the order: less leakage is no lower value. -/
theorem spectrum_bounded {S : Solvers ℝ} (hS : S.IsHermitianExact) (E : Estimator ℝ)
    {C : Mat (Cplx ℝ) E.geometry.size E.geometry.size} (hC : C.toMatrix.IsHermitian)
    (k : SourceCount E.geometry.size) :
    (∀ D : Decomposition ℝ E.geometry.size, D.IsSpectral C → ∀ θ, D.Shares θ) ∧
      ∃ D, Decomposition.ofCovariance S C k = .ok D ∧ D.sources = k ∧ D.IsSpectral C ∧
        ∀ (s : SpectralSearch ℝ) (f c : Number ℝ) (directions count : Setting ℝ)
          (angles : List ℝ),
          s.floor = .number f → 0 < f.value → s.sentinel = .number c →
          s.searchAngles directions = .ok angles → E.countOf count = .ok k →
          ∃ values, E.spectrumOf S s (.ofMat C) directions count = .ok values ∧
            SpectralSearch.Inverts f.value c.value E.geometry.size
              (angles.map fun θ => SpectralSearch.leakage D.noise (E.geometry.steering θ))
              values := by
  have hD : (Decomposition.solved S C k).IsSpectral C := Decomposition.isSpectral_solved hS hC k
  refine ⟨fun D h θ => h.shares θ, Decomposition.solved S C k,
    Decomposition.ofCovariance_eq S C k, rfl, hD, ?_⟩
  intro s f c directions count angles hf hfloor hc hangles hcount
  refine ⟨_, ?_, SpectralSearch.inverts_map hfloor c.value ?_⟩
  · rw [E.spectrumOf_ofMat S s C directions hcount, SpectralSearch.spectrumIn_number hf hc hangles,
      List.map_map]
    rfl
  · intro e he
    obtain ⟨θ, -, rfl⟩ := List.mem_map.mp he
    exact (hD.shares θ).range.2

/-- Two elements that hear nothing but noise, under the default floor and sentinel: every vector
is an eigenvector, and whichever the solver returns the values lie between a half and the
sentinel. -/
theorem spectrum_bounded_pair :
    ∃ values, (Estimator.pair (.spectral .coarse)).spectrumOf .ideal .coarse
        (.ofMat (Mat.identity Geometry.pair.size)) .nothing .nothing = .ok values ∧
      values.length = 3 ∧ ∀ v ∈ values, v ∈ Set.Icc (1 / 2 : ℝ) 1e10 := by
  have hidentity : (Mat.identity Geometry.pair.size : Mat (Cplx ℝ) _ _).toMatrix.IsHermitian := by
    rw [Mat.toMatrix_identity]
    exact isHermitian_one
  obtain ⟨-, D, -, -, -, hspectrum⟩ := spectrum_bounded Solvers.ideal_isExact.toIsHermitianExact
    (.pair (.spectral .coarse)) hidentity ⟨1, by decide⟩
  have hfloor : (0 : ℝ) < 1e-10 := by norm_num
  obtain ⟨values, hvalues, hinverts⟩ := hspectrum .coarse (.real 1e-10) (.real 1e10) .nothing
    .nothing _ rfl hfloor rfl rfl rfl
  refine ⟨values, hvalues, ?_, ?_⟩
  · rw [hinverts.length, List.length_map, Vector.length_toList]
    rfl
  · intro v hv
    rcases hinverts.range v hv with rfl | ⟨hlow, hhigh⟩
    · change (1e10 : ℝ) ∈ Set.Icc (1 / 2) 1e10
      constructor <;> norm_num
    · change 1 / ((2 : ℕ) : ℝ) ≤ v at hlow
      change v ≤ 1 / (1e-10 : ℝ) at hhigh
      constructor
      · exact_mod_cast hlow
      · calc v ≤ 1 / (1e-10 : ℝ) := hhigh
          _ = 1e10 := by norm_num

end Estimator

end PhasedArray
