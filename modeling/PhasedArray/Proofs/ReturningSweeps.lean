import PhasedArray.Proofs.NoiseScale
import PhasedArray.Proofs.Trials

set_option autoImplicit false

/-!
# Sweeps that return (SPEC §4.6)

A sweep returns if all of its trials do, from whatever state of the stream, and if its ratios, its
number of trials and its threshold can be read.  A trial returns if the scene can be read, the
draws are finite, and the estimator is a spectral search with numbers as floor and sentinel.
-/

namespace PhasedArray

namespace Evaluation

/-! ## Sweeps of returning trials -/

section Returning

variable {α σ : Type} [Scalar α] {S : Solvers α} {G : Generator α σ} {E : Estimator α}

/-- Trials of a scene return from every state of the stream. -/
def Returns (S : Solvers α) (G : Generator α σ) (E : Estimator α) (scene : Scene α) : Prop :=
  ∀ s, ∃ e t, trial S G E E.geometry scene s = (.ok e, t)

theorem exists_trials {scene : Scene α} (h : Returns S G E scene) (bound : α) (count : ℕ)
    (tally : Tally α) (s : σ) :
    ∃ tally' t, trials S G E scene (.ok bound) count tally s = (.ok tally', t) := by
  induction count generalizing tally s with
  | zero => exact ⟨tally, s, rfl⟩
  | succ count ih =>
    obtain ⟨e, s', htrial⟩ := h s
    have hadd : ∃ next, tally.add (.ok bound) e = .ok next := by
      unfold Tally.add
      cases e.error <;> exact ⟨_, rfl⟩
    obtain ⟨next, hnext⟩ := hadd
    obtain ⟨tally', t, hrest⟩ := ih next s'
    refine ⟨tally', t, ?_⟩
    unfold trials
    rw [htrial]
    dsimp only
    rw [hnext]
    exact hrest

theorem exists_sweepInto {r : SweepRequest α} {bound : α} (hbound : r.bound = .ok bound)
    {ratios : List (Setting α)} (h : ∀ ratio ∈ ratios, Returns S G E (r.sceneAt ratio))
    (hread : ∀ ratio ∈ ratios, ∃ x, ratio.toScalar "snr_db" = .ok x) (count : ℕ)
    (same : α → α → Bool) (done : Sweep α) (s : σ) :
    ∃ result t, sweepInto S G E r count same ratios done s = (.ok result, t) := by
  induction ratios generalizing done s with
  | nil => exact ⟨done, s, rfl⟩
  | cons ratio rest ih =>
    obtain ⟨tally, s', htrials⟩ := exists_trials (h ratio List.mem_cons_self) bound count {} s
    obtain ⟨x, hx⟩ := hread ratio List.mem_cons_self
    obtain ⟨result, t, hrest⟩ := ih (fun later hlater => h later (List.mem_cons_of_mem _ hlater))
      (fun later hlater => hread later (List.mem_cons_of_mem _ hlater))
      (putBy same x (tally.point count) done) s'
    refine ⟨result, t, ?_⟩
    unfold sweepInto
    rw [hbound, htrials]
    dsimp only
    rw [hx]
    exact hrest

theorem exists_sweep {r : SweepRequest α} {bound : α} (hbound : r.bound = .ok bound)
    {ratios : List (Setting α)} (hchecked : r.checked = .ok ratios) {count : ℕ}
    (hcount : r.trials.toCount "num_trials" = .ok count)
    (h : ∀ ratio ∈ ratios, Returns S G E (r.sceneAt ratio))
    (hread : ∀ ratio ∈ ratios, ∃ x, ratio.toScalar "snr_db" = .ok x) (same : α → α → Bool)
    (s : σ) : ∃ result t, sweep S G E r same s = (.ok result, t) := by
  unfold sweep
  rw [hchecked]
  cases ratios with
  | nil => exact ⟨[], s, rfl⟩
  | cons ratio rest =>
    dsimp only
    rw [hcount]
    exact exists_sweepInto hbound h hread count same [] s

end Returning

/-! ## Trials of spectral searches -/

open Extended

variable {σ : Type}

/-- A spectral search with numbers as floor and sentinel has a result for every scene of finite
numbers that is small enough to be kept, from finite draws. -/
theorem returns_of_spectral {G : Generator Extended σ} (hG : G.IsFinite) {E : Estimator Extended}
    {s : SpectralSearch Extended} (hsearch : E.search = .spectral s)
    {floor sentinel : Number Extended} (hfloor : s.floor = .number floor)
    (hsentinel : s.sentinel = .number sentinel)
    (hspacing : Scalar.isFinite E.geometry.spacing = true) (hcounted : E.geometry.isCounted = true)
    (hsize : E.geometry.size < Extent.greatestKept) {θ : List ℝ} {n : ℕ} (hn : 0 < n)
    (hkept : θ.length * n < Extent.greatestKept) (x : ℝ) (S : Solvers Extended) :
    Returns S G E ⟨.list ((θ.map finite).map .real), .real (finite x), .whole n⟩ := by
  intro state
  let scene : Scene Extended := ⟨.list ((θ.map finite).map .real), .real (finite x), .whole n⟩
  have hangles : ∀ y ∈ θ.map finite, Scalar.isFinite y = true := by
    intro y hy
    obtain ⟨r, -, rfl⟩ := List.mem_map.mp hy
    rfl
  have hplan : Signal.planOf E.geometry scene = .ok (θ.map finite, n) :=
    Signal.planOf_reals hsize hn (by rwa [List.length_map]) (.real (finite x))
  have hvalue : (Number.real (finite x)).value = finite x := rfl
  have hpower : Signal.noisePowerOf scene = .ok (finite (10 ^ (-(x / 10)))) :=
    Signal.noisePower_finite hvalue
  obtain ⟨X, t, hdrawn, hX⟩ :=
    Signal.exists_generate hG hspacing hcounted hplan hangles hpower rfl state
  obtain ⟨e, he⟩ := Estimator.exists_estimateSnapshots hsearch hfloor hsentinel S
    (X := ⟨_, n, X, E.geometry.size_pos, hn, hX⟩) rfl
  have hestimate : estimateSamples S E X = .ok e := by
    rw [estimateSamples, Snapshots.ofMat, dif_pos E.geometry.size_pos, dif_pos hn, dif_pos hX]
    exact he
  have hassess : ∃ scored, assess S E scene.angles ⟨n, X⟩ = .ok scored := by
    rw [assess, hestimate]
    change ∃ scored, e.scoredAgainst scene.angles = .ok scored
    rw [Estimate.scoredAgainst, Setting.toReals_reals]
    split_ifs <;> exact ⟨_, rfl⟩
  obtain ⟨scored, hscored⟩ := hassess
  exact ⟨scored, t, by rw [trial_eq_of_drawn hdrawn, hscored]⟩

/-! ## A small sweep -/

/-- A stream of zeros that counts its draws. -/
noncomputable def zeros : Generator Extended ℕ := ⟨fun s => (0, s + 1), fun s => (0, s + 1)⟩

theorem zeros_isFinite : zeros.IsFinite := ⟨fun _ => rfl, fun _ => rfl⟩

/-- One wave from broadside, two trials of one snapshot at each ratio. -/
noncomputable def smallRequest (ratios : List ℝ) : SweepRequest Extended where
  angles := .list (([0].map finite).map .real)
  ratios := .list ((ratios.map finite).map .real)
  trials := .whole 2
  snapshots := .whole 1
  threshold := defaultThreshold

theorem returns_small (S : Solvers Extended) {E : Estimator Extended}
    (hE : E.geometry = .small) (hsearch : E.search = .spectral .small) (x : ℝ) :
    Returns S zeros E ⟨.list (([0].map finite).map .real), .real (finite x), .whole 1⟩ := by
  have hsize : E.geometry.size < Extent.greatestKept := by
    rw [hE]
    decide
  exact returns_of_spectral zeros_isFinite hsearch rfl rfl (by rw [hE]; rfl) (by rw [hE]; rfl)
    hsize one_pos (by decide) x S

theorem exists_sweep_small (S : Solvers Extended) {E : Estimator Extended}
    (hE : E.geometry = .small) (hsearch : E.search = .spectral .small) (ratios : List ℝ)
    (same : Extended → Extended → Bool) (s : ℕ) :
    ∃ result t, sweep S zeros E (smallRequest ratios) same s = (.ok result, t) := by
  have hbound : (smallRequest ratios).bound = .ok 0.1 := rfl
  have hchecked : (smallRequest ratios).checked = .ok ((ratios.map finite).map .real) := rfl
  have hcount : (smallRequest ratios).trials.toCount "num_trials" = .ok 2 := rfl
  refine exists_sweep hbound hchecked hcount ?_ ?_ same s
  · intro ratio hratio
    obtain ⟨_, hx, rfl⟩ := List.mem_map.mp hratio
    obtain ⟨x, -, rfl⟩ := List.mem_map.mp hx
    exact returns_small S hE hsearch x
  · intro ratio hratio
    obtain ⟨_, hx, rfl⟩ := List.mem_map.mp hratio
    obtain ⟨x, -, rfl⟩ := List.mem_map.mp hx
    exact ⟨finite x, rfl⟩

end Evaluation

end PhasedArray
