import PhasedArray.Proofs.Manifold
import PhasedArray.Proofs.SmallEngine

set_option autoImplicit false

/-!
# The ratio sets the scale of the noise alone (SPEC §4.6)

Whether there is noise and how much is decided by the signal-to-noise ratio, but what is drawn is
not: from one state of the stream all finite ratios use the same symbols and the same draws of
noise.  Noise of the power `10 ^ (-a / 10)` has `10 ^ (-a / 20)` times the amplitude of noise of
power one, so what a run has beyond the noiseless one is the same at every ratio once it is scaled
back by `10 ^ (a / 20)`.
-/

namespace PhasedArray

open Extended

/-! ## Finite complex numbers -/

namespace Cplx

/-- A summand that is finite can be taken away again. -/
theorem add_sub_of_isFinite {z w : Cplx Extended} (hz : z.isFinite = true)
    (hw : w.isFinite = true) : z + w - z = w := by
  obtain ⟨x, y⟩ := z
  obtain ⟨u, v⟩ := w
  rw [isFinite_iff] at hz hw
  obtain ⟨⟨x, rfl⟩, ⟨y, rfl⟩⟩ := hz.imp Extended.isFinite_iff.mp Extended.isFinite_iff.mp
  obtain ⟨⟨u, rfl⟩, ⟨v, rfl⟩⟩ := hw.imp Extended.isFinite_iff.mp Extended.isFinite_iff.mp
  change Cplx.mk (finite x + finite u - finite x) (finite y + finite v - finite y) = _
  simp only [finite_add, finite_sub, add_sub_cancel_left]

/-- The product of finite complex numbers is that of their parts. -/
theorem finite_mul (x y u v : ℝ) :
    (⟨finite x, finite y⟩ * ⟨finite u, finite v⟩ : Cplx Extended) =
      ⟨finite (x * u - y * v), finite (x * v + y * u)⟩ := by
  change Cplx.mk (finite (x * u) - finite (y * v)) (finite (x * v) + finite (y * u)) = _
  rw [finite_sub, finite_add]

end Cplx

namespace Signal

open Generator

/-! ## Power and amplitude -/

theorem noisePower_pos (a : ℝ) : (0 : ℝ) < 10 ^ (-(a / 10)) := Real.rpow_pos_of_pos (by norm_num) _

/-- The power of the noise at a finite ratio. -/
theorem noisePower_finite {x : Number Extended} {a : ℝ} (hx : x.value = finite a) :
    noisePower x = .ok (finite (10 ^ (-(a / 10)))) := by
  have hten : ¬ ((10 : ℝ) = 0 ∧ -(a / 10) < 0) := fun h => absurd h.1 (by norm_num)
  have hpositive : ¬ ((10 : ℝ) < 0 ∧ -(a / 10) ≠ ⌊-(a / 10)⌋) := fun h => absurd h.1 (by norm_num)
  have htenth : x.value / Scalar.ofNat 10 = finite (a / 10) := by
    rw [hx, ofNat_eq, Nat.cast_ofNat, finite_div (by norm_num)]
  have hpower : Scalar.pow (10 : Extended) (-finite (a / 10)) = finite (10 ^ (-(a / 10))) := by
    change pow (finite ((10 : ℕ) : ℝ)) (finite (-(a / 10))) = _
    rw [Nat.cast_ofNat, pow, if_neg hten, if_neg hpositive]
  rw [noisePower, Number.toQuotient_eq_ok, htenth]
  change (if _ then _ else _) = _
  rw [hpower, if_neg (by simp)]
  rfl

/-- There is no noise at the infinite ratio. -/
theorem noisePower_infinite : noisePower (.real (infinite false) : Number Extended) = .ok 0 := by
  have hlimit : ¬ |(10 : ℝ)| = 1 := by norm_num
  have hgrowing : ¬ decide (|(10 : ℝ)| < 1) = true := by norm_num
  have hpower : Scalar.pow (10 : Extended) (infinite true) = 0 := by
    change pow (finite ((10 : ℕ) : ℝ)) (infinite true) = _
    rw [Nat.cast_ofNat, pow, powerLimit, if_neg hlimit, if_neg hgrowing]
    rfl
  have htenth : infinite false / Scalar.ofNat 10 = infinite false :=
    infinite_div false (by norm_num)
  rw [noisePower, Number.toQuotient_eq_ok, Number.value, htenth]
  exact congrArg Except.ok hpower

/-- Scaled back, the amplitude of noise is that of noise of power one. -/
theorem gain_mul_amplitude (a : ℝ) :
    (10 : ℝ) ^ (a / 20) * √(10 ^ (-(a / 10)) / 2) = √(1 / 2) := by
  have hten : (0 : ℝ) < 10 := by norm_num
  have hroot : (10 : ℝ) ^ (a / 20) = √(10 ^ (a / 10)) := by
    rw [Real.sqrt_eq_rpow, ← Real.rpow_mul hten.le]
    congr 1
    ring
  have hproduct : (10 : ℝ) ^ (a / 10) * (10 ^ (-(a / 10)) / 2) = 1 / 2 := by
    rw [Real.rpow_neg hten.le, ← mul_div_assoc, mul_inv_cancel₀ (Real.rpow_pos_of_pos hten _).ne']
  rw [hroot, ← Real.sqrt_mul (Real.rpow_nonneg hten.le _), hproduct]

/-- The parts of a sample of noise are the values it is made from, scaled. -/
theorem noiseSample_finite (r x y : ℝ) :
    noiseSample (finite r) (finite x) (finite y) = ⟨finite (r * x), finite (r * y)⟩ := by
  have hturned : (⟨finite 0, finite 1⟩ * ⟨finite y, finite 0⟩ : Cplx Extended) =
      ⟨finite 0, finite y⟩ := by
    rw [Cplx.finite_mul]
    simp
  have hsum : (⟨finite x, finite 0⟩ + ⟨finite 0, finite y⟩ : Cplx Extended) =
      ⟨finite x, finite y⟩ := by
    change Cplx.mk (finite (x + 0)) (finite (0 + y)) = _
    rw [add_zero, zero_add]
  change (⟨finite r, finite 0⟩ * (⟨finite x, finite 0⟩ +
    ⟨finite 0, finite 1⟩ * ⟨finite y, finite 0⟩) : Cplx Extended) = _
  rw [hturned, hsum, Cplx.finite_mul]
  simp

/-- A sample of noise, scaled, is one of the scaled amplitude. -/
theorem scaled_noiseSample (c r x y : ℝ) :
    Cplx.ofReal (finite c) * noiseSample (finite r) (finite x) (finite y) =
      noiseSample (finite (c * r)) (finite x) (finite y) := by
  rw [noiseSample_finite, noiseSample_finite, Cplx.ofReal, zero_eq, Cplx.finite_mul]
  simp [mul_assoc]

variable {σ : Type} {G : Generator Extended σ} {g : Geometry Extended} {n : ℕ}

/-- A sample is made from two draws. -/
theorem exists_noise_apply (hG : G.IsFinite) (m n : ℕ) (s : σ) (i : Fin m) (j : Fin n) :
    ∃ x y : ℝ, ∀ amplitude, (noise G amplitude m n s).1 i j =
      noiseSample amplitude (finite x) (finite y) := by
  have hdraw := fun s => isFinite_iff.mp
    (forall_drawMat (P := fun x => Scalar.isFinite x = true) hG.2 m n s i j)
  obtain ⟨x, hx⟩ := hdraw s
  obtain ⟨y, hy⟩ := hdraw (drawMat G.normal m n s).2
  refine ⟨x, y, fun amplitude => ?_⟩
  rw [← hx, ← hy]
  exact Mat.of_apply _ i j

/-- Noise of the power `p`. -/
noncomputable def noiseOf (G : Generator Extended σ) (p : ℝ) (m n : ℕ) (s : σ) :
    Mat (Cplx Extended) m n :=
  (noise G (amplitudeOf (finite p)) m n s).1

theorem isFinite_noiseOf (hG : G.IsFinite) {p : ℝ} (hp : 0 < p) (m n : ℕ) (s : σ) :
    (noiseOf G p m n s).isFinite = true :=
  isFinite_noise hG (isFinite_amplitudeOf rfl (finite_lt.mpr hp)) m n s

/-- Scaled back, the noise at a finite ratio is noise of power one. -/
theorem scaled_noiseOf (hG : G.IsFinite) (a : ℝ) (m n : ℕ) (s : σ) (i : Fin m) (j : Fin n) :
    Cplx.ofReal (finite (10 ^ (a / 20))) * noiseOf G (10 ^ (-(a / 10))) m n s i j =
      noiseOf G 1 m n s i j := by
  obtain ⟨x, y, hsample⟩ := exists_noise_apply hG m n s i j
  rw [noiseOf, noiseOf, hsample, hsample, amplitudeOf_finite (noisePower_pos a).le,
    amplitudeOf_finite zero_le_one, scaled_noiseSample, gain_mul_amplitude]

/-- So is what snapshots at that ratio have beyond those without noise. -/
theorem scaled_sub (hG : G.IsFinite) {X : Mat (Cplx Extended) g.size n} (hX : X.isFinite = true)
    (a : ℝ) (s : σ) (i : Fin g.size) (j : Fin n) :
    Cplx.ofReal (finite (10 ^ (a / 20))) *
        ((X + noiseOf G (10 ^ (-(a / 10))) g.size n s) i j - X i j) =
      noiseOf G 1 g.size n s i j := by
  have hnoise := isFinite_noiseOf hG (noisePower_pos a) g.size n s
  rw [Mat.add_apply, Cplx.add_sub_of_isFinite (Mat.isFinite_iff.mp hX i j)
    (Mat.isFinite_iff.mp hnoise i j), scaled_noiseOf hG]

/-! ## Runs -/

/-- A list of numbers and a number of snapshots that is not zero can be read, of an array that is
not too large for either. -/
theorem planOf_reals (hsize : g.size < Extent.greatestKept) {θ : List Extended} {n : ℕ} (hn : 0 < n)
    (hkept : θ.length * n < Extent.greatestKept) (snr : Setting Extended) :
    planOf g ⟨.list (θ.map .real), snr, .whole n⟩ = .ok (θ, n) := by
  simp only [planOf, Outcome.check_eq_ok, Outcome.bind_eq_ok]
  refine ⟨.whole n, rfl, ?_, _, g.directionsAmong_reals hsize _, n, rfl, (), if_pos hkept, rfl⟩
  simpa [Number.belowOne] using hn.ne'

section Runs

variable {scene : Scene Extended} {θ : List Extended}

/-- A run at the infinite ratio. -/
theorem generate_at_infinite (hplan : planOf g scene = .ok (θ, n)) (s : σ) :
    generate G g { scene with snr := .real (infinite false) } s =
      (.ok ⟨n, clean G g θ n s⟩, after G.uniform (θ.length * n) s) := by
  have hsame : planOf g { scene with snr := .real (infinite false) } = .ok (θ, n) := hplan
  exact generate_of_silent hsame noisePower_infinite (fun h => h.2 h.1) s

/-- A run at a finite ratio. -/
theorem generate_at_finite (hcounted : g.isCounted = true) (hplan : planOf g scene = .ok (θ, n))
    {x : Number Extended} {a : ℝ} (hx : x.value = finite a) (s : σ) :
    generate G g { scene with snr := .number x } s =
      (.ok ⟨n, clean G g θ n s +
          noiseOf G (10 ^ (-(a / 10))) g.size n (after G.uniform (θ.length * n) s)⟩,
        after G.normal (2 * (g.size * n)) (after G.uniform (θ.length * n) s)) := by
  have hsame : planOf g { scene with snr := .number x } = .ok (θ, n) := hplan
  exact generate_of_noisy hcounted hsame (noisePower_finite hx) (finite_lt.mpr (noisePower_pos a)) s

end Runs

/-- The ratio changes nothing but the scale of the noise.  Take a scene that can be read: `K`
finite directions and `n` snapshots, one or more, of an array whose elements are counted.  From one
state of the stream, the runs at the ratios `a` and `b` differ from the noiseless run by the same
noise, once it is scaled back by `10 ^ (a / 20)` and `10 ^ (b / 20)`.  The noiseless run makes
`K n` uniform draws and no others, and each run with noise `2 m n` normal draws after them.  A
scene of fewer snapshots than one is refused, and draws nothing. -/
theorem generate_scales_noise (hG : G.IsFinite) (hspacing : Scalar.isFinite g.spacing = true)
    (scene : Scene Extended) (s : σ) :
    (∀ (θ : List Extended) (n : ℕ), planOf g scene = .ok (θ, n) →
      (∀ x ∈ θ, Scalar.isFinite x = true) →
      ∃ X : Mat (Cplx Extended) g.size n,
        generate G g { scene with snr := .real (infinite false) } s =
          (.ok ⟨n, X⟩, after G.uniform (θ.length * n) s) ∧
        (g.isCounted = true → ∀ (x y : Number Extended) (a b : ℝ), x.value = finite a →
          y.value = finite b → ∃ Xa Xb : Mat (Cplx Extended) g.size n,
            generate G g { scene with snr := .number x } s =
              (.ok ⟨n, Xa⟩,
                after G.normal (2 * (g.size * n)) (after G.uniform (θ.length * n) s)) ∧
            generate G g { scene with snr := .number y } s =
              (.ok ⟨n, Xb⟩,
                after G.normal (2 * (g.size * n)) (after G.uniform (θ.length * n) s)) ∧
            ∀ i j, Cplx.ofReal (finite (10 ^ (a / 20))) * (Xa i j - X i j) =
              Cplx.ofReal (finite (10 ^ (b / 20))) * (Xb i j - X i j))) ∧
    ∀ N, scene.snapshots.toNumber "num_snapshots" = .ok N → N.belowOne = true →
      generate G g scene s = (.error (.snapshotCount scene.snapshots), s) := by
  constructor
  · intro θ n hplan hθ
    have hclean : (clean G g θ n s).isFinite = true := isFinite_clean hG hspacing hθ n s
    refine ⟨clean G g θ n s, generate_at_infinite hplan s, ?_⟩
    intro hcounted x y a b hx hy
    refine ⟨_, _, generate_at_finite hcounted hplan hx s,
      generate_at_finite hcounted hplan hy s, ?_⟩
    -- both are the noise of power one that the same draws make
    intro i j
    rw [scaled_sub hG hclean, scaled_sub hG hclean]
  · intro N hread hbelow
    exact generate_of_belowOne hread hbelow G g s

/-- A stream that counts its draws of either kind. -/
noncomputable def counting : Generator Extended (ℕ × ℕ) :=
  ⟨fun s => (0, s.1 + 1, s.2), fun s => (1, s.1, s.2 + 1)⟩

theorem counting_isFinite : counting.IsFinite := ⟨fun _ => rfl, fun _ => rfl⟩

/-- One wave from broadside and one snapshot of two elements: one uniform draw without noise, four
normal draws more with noise, and none for no snapshots. -/
theorem generate_scales_noise_small :
    let scene : Scene Extended := ⟨.list [.real 0], .real 0, .whole 1⟩
    (∃ X Xa Xb : Mat (Cplx Extended) Geometry.small.size 1,
      generate counting .small { scene with snr := .real (infinite false) } (0, 0) =
        (.ok ⟨1, X⟩, (1, 0)) ∧
      generate counting .small { scene with snr := .whole 20 } (0, 0) = (.ok ⟨1, Xa⟩, (1, 4)) ∧
      generate counting .small { scene with snr := .real (finite (-10)) } (0, 0) =
        (.ok ⟨1, Xb⟩, (1, 4)) ∧
      ∀ i j, Cplx.ofReal (finite (10 ^ ((20 : ℝ) / 20))) * (Xa i j - X i j) =
        Cplx.ofReal (finite (10 ^ ((-10 : ℝ) / 20))) * (Xb i j - X i j)) ∧
    generate counting .small { scene with snapshots := .whole 0 } (0, 0) =
      (.error (.snapshotCount (.whole 0)), (0, 0)) := by
  intro scene
  have hsize : Geometry.small.size < Extent.greatestKept := by decide
  have hplan : planOf .small scene = .ok ([0], 1) :=
    planOf_reals (θ := [0]) hsize one_pos (by decide) (.real 0)
  obtain ⟨hruns, -⟩ := generate_scales_noise counting_isFinite (g := .small) rfl scene (0, 0)
  obtain ⟨-, hrefused⟩ := generate_scales_noise counting_isFinite (g := .small) rfl
    { scene with snapshots := .whole 0 } (0, 0)
  obtain ⟨X, hX, hnoisy⟩ := hruns _ _ hplan (List.forall_mem_singleton.mpr rfl)
  obtain ⟨Xa, Xb, hXa, hXb, hscaled⟩ := hnoisy rfl (.whole 20) (.real (finite (-10))) 20 (-10)
    (by rw [Number.value, ofInt_eq, Int.cast_ofNat]) rfl
  exact ⟨⟨X, Xa, Xb, hX, hXa, hXb, hscaled⟩, hrefused _ rfl rfl⟩

end Signal

end PhasedArray
