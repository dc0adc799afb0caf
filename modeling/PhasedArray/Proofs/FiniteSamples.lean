import PhasedArray.Proofs.Draws
import PhasedArray.Proofs.Exact.Finite

set_option autoImplicit false

/-!
# Samples are as finite as their directions (SPEC §4.6)

Finite directions and finite draws make finite samples.  A direction that is not finite has no
sine, and the undefined phase of its wave is in every sample: samples that are finite come from
finite directions.
-/

namespace PhasedArray

open Extended

variable {σ : Type}

/-! ## Draws -/

namespace Generator

variable {α : Type} {draw : σ → α × σ} {P : α → Prop}

theorem forall_drawInto (h : ∀ s, P (draw s).1) {n : ℕ} {drawn : Array α}
    (hdrawn : ∀ x ∈ drawn, P x) (s : σ) : ∀ x ∈ (drawInto draw n drawn s).1, P x := by
  induction n generalizing drawn s with
  | zero => exact hdrawn
  | succ n ih =>
    rw [drawInto]
    apply ih
    intro x hx
    rcases Array.mem_push.mp hx with hold | rfl
    · exact hdrawn x hold
    · exact h s

/-- What holds of every draw holds of the entries of a matrix of draws. -/
theorem forall_drawMat (h : ∀ s, P (draw s).1) (m n : ℕ) (s : σ) (i : Fin m) (j : Fin n) :
    P ((drawMat draw m n s).1 i j) := by
  have hentry : (drawMat draw m n s).1 i j = (drawVector draw (m * n) s).1.get (Mat.place i j) :=
    Mat.of_apply _ i j
  rw [hentry]
  exact forall_drawInto h (fun x hx => absurd hx (Array.not_mem_empty x)) s _
    (Array.getElem_mem _)

/-- A stream of finite values. -/
def IsFinite (G : Generator Extended σ) : Prop :=
  (∀ s, Scalar.isFinite (G.uniform s).1 = true) ∧ ∀ s, Scalar.isFinite (G.normal s).1 = true

end Generator

/-! ## Steering vectors -/

namespace Geometry

variable {g : Geometry Extended}

theorem isFinite_steeringOf (hg : Scalar.isFinite g.spacing = true) {θ : List Extended}
    (hθ : ∀ x ∈ θ, Scalar.isFinite x = true) : (g.steeringOf θ).isFinite = true := by
  rw [Mat.isFinite_iff]
  intro i j
  have hj : Scalar.isFinite ((Vec.ofList θ).get j) = true := hθ _ (List.getElem_mem j.isLt)
  obtain ⟨x, hx⟩ := isFinite_iff.mp hj
  obtain ⟨d, hd⟩ := isFinite_iff.mp hg
  rw [steeringOf, steeringMatrix_apply, phaseStep, hx, hd]
  rfl

/-- The wave from a direction that is not finite has an undefined phase everywhere. -/
theorem re_steeringOf_eq_undefined (g : Geometry Extended) {θ : List Extended} {j : Fin θ.length}
    (hj : Scalar.isFinite θ[j] = false) (i : Fin g.size) :
    (g.steeringOf θ i j).re = undefined := by
  have hsin : Scalar.sin θ[j] = undefined := by
    cases hx : θ[j] with
    | finite x =>
      rw [hx] at hj
      exact nomatch hj
    | _ => rfl
  have hphase : g.phaseStep ((Vec.ofList θ).get j) = undefined := by
    change 2 * Scalar.pi * g.spacing * Scalar.sin θ[j] = undefined
    rw [hsin, mul_undefined]
  rw [steeringOf, steeringMatrix_apply, hphase]
  rfl

end Geometry

/-! ## Samples -/

/-- What one summand brings into a sum is in the sum. -/
theorem total_of_absorbing {β : Type} [Zero β] [Add β] (P : β → Prop)
    (left : ∀ x y, P x → P (x + y)) (right : ∀ x y, P y → P (x + y)) {n : ℕ} {f : Fin n → β}
    {i : Fin n} (h : P (f i)) : P (total n f) := by
  unfold total
  induction n with
  | zero => exact i.elim0
  | succ n ih =>
    rw [Fin.foldl_succ_last]
    cases i using Fin.lastCases with
    | last => exact right _ _ h
    | cast i => exact left _ _ (ih h)

namespace Signal

variable {G : Generator Extended σ} {g : Geometry Extended} {scene : Scene Extended}

theorem isFinite_symbols (hG : G.IsFinite) (k n : ℕ) (s : σ) :
    (symbols G k n s).1.isFinite = true := by
  apply Mat.isFinite_of
  intro i j
  have hdraw := Generator.forall_drawMat (P := fun x => Scalar.isFinite x = true) hG.1 k n s i j
  exact Cplx.isFinite_cis (isFinite_mul rfl hdraw)

theorem isFinite_clean (hG : G.IsFinite) (hg : Scalar.isFinite g.spacing = true)
    {θ : List Extended} (hθ : ∀ x ∈ θ, Scalar.isFinite x = true) (n : ℕ) (s : σ) :
    (clean G g θ n s).isFinite = true :=
  Mat.isFinite_mul (g.isFinite_steeringOf hg hθ) (isFinite_symbols hG _ _ s)

theorem isFinite_noise (hG : G.IsFinite) {amplitude : Extended}
    (hamplitude : Scalar.isFinite amplitude = true) (m n : ℕ) (s : σ) :
    (noise G amplitude m n s).1.isFinite = true := by
  apply Mat.isFinite_of
  intro i j
  have hdraw := fun s => Generator.forall_drawMat (P := fun x => Scalar.isFinite x = true)
    hG.2 m n s i j
  exact Cplx.isFinite_mul (Cplx.isFinite_ofReal hamplitude)
    (Cplx.isFinite_add (Cplx.isFinite_ofReal (hdraw s))
      (Cplx.isFinite_mul rfl (Cplx.isFinite_ofReal (hdraw _))))

theorem amplitudeOf_finite {p : ℝ} (hp : 0 ≤ p) : amplitudeOf (finite p) = finite √(p / 2) := by
  have hhalf : finite p / (2 : Extended) = finite (p / 2) := finite_div two_ne_zero
  rw [amplitudeOf, hhalf, finite_sqrt (div_nonneg hp zero_le_two)]

theorem isFinite_amplitudeOf {power : Extended} (hpower : Scalar.isFinite power = true)
    (hpos : 0 < power) : Scalar.isFinite (amplitudeOf power) = true := by
  obtain ⟨p, rfl⟩ := isFinite_iff.mp hpower
  rw [amplitudeOf_finite (finite_lt.mp hpos).le]
  rfl

/-- A scene that can be read has samples, and they are finite if its directions, the power of its
noise and the draws are. -/
theorem exists_generate (hG : G.IsFinite) (hg : Scalar.isFinite g.spacing = true)
    (hcounted : g.isCounted = true) {θ : List Extended} {n : ℕ}
    (hplan : planOf g scene = .ok (θ, n)) (hθ : ∀ x ∈ θ, Scalar.isFinite x = true)
    {power : Extended} (hpower : noisePowerOf scene = .ok power)
    (hfinite : Scalar.isFinite power = true) (s : σ) :
    ∃ (X : Mat (Cplx Extended) g.size n) (t : σ),
      generate G g scene s = (.ok ⟨n, X⟩, t) ∧ X.isFinite = true := by
  have hclean : (clean G g θ n s).isFinite = true := isFinite_clean hG hg hθ n s
  by_cases hpos : 0 < power
  · exact ⟨_, _, generate_of_noisy hcounted hplan hpower hpos s, Mat.isFinite_add hclean
      (isFinite_noise hG (isFinite_amplitudeOf hfinite hpos) _ _ _)⟩
  · exact ⟨_, _, generate_of_silent hplan hpower hpos s, hclean⟩

/-- The directions of a plan are those of its scene. -/
theorem toReals_of_planOf {θ : List Extended} {n : ℕ} (h : planOf g scene = .ok (θ, n)) :
    scene.angles.toReals = .ok θ := by
  simp only [planOf, Geometry.directionsAmong, Outcome.check_eq_ok, Outcome.bind_eq_ok] at h
  obtain ⟨-, -, -, l, ⟨l', hread, -, -, hl⟩, count, -, -, -, h⟩ := h
  cases hl
  cases h
  exact hread

/-- Samples are the waves of the sources, with noise or without. -/
theorem exists_eq_of_generate {s t : σ} {X : (n : ℕ) × Mat (Cplx Extended) g.size n}
    (h : generate G g scene s = (.ok X, t)) :
    ∃ θ, scene.angles.toReals = .ok θ ∧ ∃ S : Mat (Cplx Extended) θ.length X.1,
      X.2 = g.steeringOf θ * S ∨ ∃ W, X.2 = g.steeringOf θ * S + W := by
  unfold generate at h
  cases hplan : planOf g scene with
  | error fault =>
    rw [hplan] at h
    cases h
  | ok plan =>
    obtain ⟨θ, n⟩ := plan
    rw [hplan] at h
    dsimp only at h
    refine ⟨θ, toReals_of_planOf hplan, ?_⟩
    unfold snapshotsOf at h
    cases hpower : noisePowerOf scene with
    | error fault =>
      rw [hpower] at h
      cases h
    | ok power =>
      rw [hpower] at h
      dsimp only at h
      split_ifs at h
      · cases h
        exact ⟨_, .inr ⟨_, rfl⟩⟩
      · cases h
      · cases h
        exact ⟨_, .inl rfl⟩

/-- Samples that are there and finite come from finite directions. -/
theorem finite_of_generate {s t : σ} {X : (n : ℕ) × Mat (Cplx Extended) g.size n}
    (h : generate G g scene s = (.ok X, t)) (hn : 0 < X.1) (hX : X.2.isFinite = true) :
    ∃ θ, scene.angles.toReals = .ok θ ∧ ∀ x ∈ θ, Scalar.isFinite x = true := by
  obtain ⟨θ, hread, S, hsamples⟩ := exists_eq_of_generate h
  refine ⟨θ, hread, ?_⟩
  intro x hx
  obtain ⟨k, hk, rfl⟩ := List.mem_iff_getElem.mp hx
  by_contra hk'
  rw [Bool.not_eq_true] at hk'
  -- the first sample has an undefined part, with or without noise
  let i : Fin g.size := ⟨0, g.size_pos⟩
  let j : Fin X.1 := ⟨0, hn⟩
  have hclean : ((g.steeringOf θ * S) i j).re = undefined := by
    rw [Mat.mul_apply]
    refine total_of_absorbing (fun z : Cplx Extended => z.re = undefined) ?_ ?_ (i := ⟨k, hk⟩) ?_
    · intro z w hz
      rw [Cplx.add_re, hz, undefined_add]
    · intro z w hw
      rw [Cplx.add_re, hw, add_undefined]
    · rw [Cplx.mul_re, g.re_steeringOf_eq_undefined hk' i, undefined_mul, undefined_sub]
  have hsample : (X.2 i j).re = undefined := by
    rcases hsamples with hX | ⟨W, hX⟩
    · rw [hX, hclean]
    · rw [hX, Mat.add_apply, Cplx.add_re, hclean, undefined_add]
  have hfinite := (Cplx.isFinite_iff.mp (Mat.isFinite_iff.mp hX i j)).1
  rw [hsample] at hfinite
  exact nomatch hfinite

end Signal

end PhasedArray
