import PhasedArray.Optimizer
import PhasedArray.Proofs.Exact.Scalar

set_option autoImplicit false

/-!
# Runs of the optimizer (SPEC §4.8)

A run is a prefix of one sequence of weights, the iterates of its start.  What its state
holds is determined by that sequence and the number of iterations (`Run.Traces`): the
current weights are the last iterate, the history holds the responses of the iterates after
the start, and the best weights are the first iterate of greatest objective.  Every
iteration preserves this, and a run ends either with the first response that reaches the
threshold or with its budget (`Finished.Ends`).
-/

namespace PhasedArray

/-! ## Iterates -/

/-- The weights after a number of iterations.  Weights that cannot be scaled stay as they
are. -/
def Ascent.iterate {α : Type} [Scalar α] {m k : ℕ} (A : Ascent α m k) (w : Vector (Cplx α) m) :
    ℕ → Vector (Cplx α) m
  | 0 => w
  | i + 1 =>
      match A.advance i (A.iterate w i) with
      | .ok v => v
      | .error _ => A.iterate w i

theorem Ascent.iterate_succ {α : Type} [Scalar α] {m k : ℕ} {A : Ascent α m k}
    {w v : Vector (Cplx α) m} {i : ℕ} (h : A.advance i (A.iterate w i) = .ok v) :
    A.iterate w (i + 1) = v := by
  rw [iterate, h]

/-! ## Thresholds -/

/-- A response reaches a threshold as it was given. -/
def Setting.IsReachedBy (threshold : Setting ℝ) (y : ℝ) : Prop :=
  ∃ t, threshold.toNumber "snr_threshold" = .ok t ∧ t.value ≤ y

/-- A response stays below a threshold as it was given. -/
def Setting.IsMissedBy (threshold : Setting ℝ) (y : ℝ) : Prop :=
  ∃ t, threshold.toNumber "snr_threshold" = .ok t ∧ y < t.value

theorem Setting.not_isReachedBy {threshold : Setting ℝ} {y : ℝ} (h : threshold.IsMissedBy y) :
    ¬ threshold.IsReachedBy y := by
  obtain ⟨t, ht, hbelow⟩ := h
  rintro ⟨t', ht', habove⟩
  rw [ht, Except.ok.injEq] at ht'
  subst ht'
  exact absurd habove (not_le.mpr hbelow)

/-! ## States of a run -/

namespace Run

variable {m k : ℕ} {A : Ascent ℝ m k} {w : Vector (Cplx ℝ) m}

/-- The state of a run is that of the iterates of `w`. -/
structure Traces (A : Ascent ℝ m k) (w : Vector (Cplx ℝ) m) (run : Run ℝ m) : Prop where
  advance : ∀ i < run.iterations, A.advance i (A.iterate w i) = .ok (A.iterate w (i + 1))
  weights : run.weights = A.iterate w run.iterations
  history : run.history =
    (List.range run.iterations).map fun i => A.targetResponse (A.iterate w (i + 1))
  best : ∃ b, run.best = A.iterate w b ∧ run.bestObjective = A.objective (A.iterate w b) ∧
    IsFirstMax (fun i => A.objective (A.iterate w i)) run.iterations b

theorem traces_start (A : Ascent ℝ m k) (w : Vector (Cplx ℝ) m) : (start A w).Traces A w where
  advance i hi := absurd hi (Nat.not_lt_zero i)
  weights := rfl
  history := rfl
  best := ⟨0, rfl, rfl, .zero _⟩

/-- One iteration carries the state along the iterates. -/
theorem Traces.extend {run : Run ℝ m} (h : run.Traces A w) {v : Vector (Cplx ℝ) m}
    (hv : A.advance run.iterations run.weights = .ok v) :
    (run.extend A run.iterations v).Traces A w := by
  rw [h.weights] at hv
  have hnext : A.iterate w (run.iterations + 1) = v := A.iterate_succ hv
  constructor
  · intro i hi
    rw [extend_iterations, Nat.lt_succ_iff_lt_or_eq] at hi
    rcases hi with hearlier | rfl
    · exact h.advance i hearlier
    · rw [hv, hnext]
  · rw [extend_weights, extend_iterations, hnext]
  · rw [extend_history, extend_iterations, h.history, List.range_succ, List.map_append,
      List.map_singleton, hnext]
  · obtain ⟨b, hbest, hobjective, hmax⟩ := h.best
    rw [extend_iterations]
    unfold Run.extend
    by_cases hgreater : run.bestObjective < A.objective v
    · rw [if_pos hgreater]
      refine ⟨run.iterations + 1, hnext.symm, by rw [hnext], hmax.replace ?_⟩
      rwa [hnext, ← hobjective]
    · rw [if_neg hgreater]
      refine ⟨b, hbest, hobjective, hmax.keep ?_⟩
      rw [hnext, ← hobjective]
      exact not_lt.mp hgreater

/-- The last response of a run that has made a step is that of its weights. -/
theorem Traces.getLast?_history {run : Run ℝ m} (h : run.Traces A w)
    (hpos : 0 < run.iterations) : run.history.getLast? = some (A.targetResponse run.weights) := by
  obtain ⟨n, hn⟩ := Nat.exists_eq_add_of_lt hpos
  rw [Nat.zero_add] at hn
  rw [h.history, h.weights, hn, List.range_succ, List.map_append, List.map_singleton,
    List.getLast?_concat]

end Run

/-! ## Ends of a run -/

/-- How a run from `w` ends that may take `limit` iterations. -/
structure Finished.Ends {m k : ℕ} (A : Ascent ℝ m k) (w : Vector (Cplx ℝ) m)
    (threshold : Setting ℝ) (limit : ℕ) (f : Finished ℝ m) : Prop where
  traces : f.run.Traces A w
  within : f.run.iterations ≤ limit
  earlier : ∀ y ∈ f.run.history.dropLast, threshold.IsMissedBy y
  converged : f.converged = true →
    0 < f.run.iterations ∧ threshold.IsReachedBy (A.targetResponse f.run.weights)
  exhausted : f.converged = false →
    f.run.iterations = limit ∧ ∀ y ∈ f.run.history, threshold.IsMissedBy y

/-- A run hands back one of its iterates. -/
theorem Finished.Ends.exists_iterate {m k : ℕ} {A : Ascent ℝ m k} {w : Vector (Cplx ℝ) m}
    {threshold : Setting ℝ} {limit : ℕ} {f : Finished ℝ m} (h : f.Ends A w threshold limit) :
    ∃ i, f.weights = A.iterate w i := by
  unfold Finished.weights
  cases f.converged with
  | true => exact ⟨f.run.iterations, h.traces.weights⟩
  | false =>
    obtain ⟨b, hbest, -, -⟩ := h.traces.best
    exact ⟨b, hbest⟩

namespace Run

variable {m k : ℕ} {A : Ascent ℝ m k} {w : Vector (Cplx ℝ) m}

/-- A state whose responses all miss the threshold is an end without convergence. -/
theorem Traces.ends_exhausted {run : Run ℝ m} (h : run.Traces A w) {threshold : Setting ℝ}
    (hmissed : ∀ y ∈ run.history, threshold.IsMissedBy y) :
    (Finished.mk run false).Ends A w threshold run.iterations where
  traces := h
  within := le_rfl
  earlier y hy := hmissed y (List.mem_of_mem_dropLast hy)
  converged := nofun
  exhausted _ := ⟨rfl, hmissed⟩

/-- A run that has missed the threshold so far ends as it should. -/
theorem climb_ends {threshold : Setting ℝ} {t : Number ℝ}
    (ht : threshold.toNumber "snr_threshold" = .ok t) {budget : ℕ} {run : Run ℝ m}
    (hrun : run.Traces A w) (hmissed : ∀ y ∈ run.history, threshold.IsMissedBy y)
    {f : Finished ℝ m} (h : climb A t.value budget run.iterations run = .ok f) :
    f.Ends A w threshold (run.iterations + budget) := by
  induction budget generalizing run with
  | zero =>
    rw [climb, Except.ok.injEq] at h
    subst h
    exact hrun.ends_exhausted hmissed
  | succ budget ih =>
    rw [climb] at h
    cases hadvance : A.advance run.iterations run.weights with
    | error e =>
      rw [hadvance] at h
      exact nomatch h
    | ok v =>
      rw [hadvance] at h
      dsimp only at h
      have hnext := hrun.extend hadvance
      by_cases hreached : t.value ≤ A.targetResponse v
      · rw [if_pos hreached, Except.ok.injEq] at h
        subst h
        refine ⟨hnext, ?_, ?_, fun _ => ⟨?_, t, ht, ?_⟩, nofun⟩
        · rw [extend_iterations]
          omega
        · rwa [extend_history, List.dropLast_concat]
        · rw [extend_iterations]
          exact Nat.succ_pos _
        · rwa [extend_weights]
      · rw [if_neg hreached] at h
        have hlimit : run.iterations + (budget + 1) =
            (run.extend A run.iterations v).iterations + budget := by
          rw [extend_iterations]
          omega
        rw [hlimit]
        apply ih hnext
        · intro y hy
          rw [extend_history, List.mem_append, List.mem_singleton] at hy
          rcases hy with hearlier | rfl
          · exact hmissed y hearlier
          · exact ⟨t, ht, not_le.mp hreached⟩
        · rwa [extend_iterations]

/-- A run ends if none of its iterations fails. -/
theorem exists_climb (t : ℝ) {budget : ℕ} {run : Run ℝ m} (hrun : run.Traces A w)
    (hadvance : ∀ i < run.iterations + budget,
      A.advance i (A.iterate w i) = .ok (A.iterate w (i + 1))) :
    ∃ f, climb A t budget run.iterations run = .ok f := by
  induction budget generalizing run with
  | zero => exact ⟨_, rfl⟩
  | succ budget ih =>
    have hstep := hadvance run.iterations (by omega)
    rw [← hrun.weights] at hstep
    have hnext := hrun.extend hstep
    rw [climb, hstep]
    dsimp only
    by_cases hreached : t ≤ A.targetResponse (A.iterate w (run.iterations + 1))
    · rw [if_pos hreached]
      exact ⟨_, rfl⟩
    · rw [if_neg hreached]
      have hlater := ih hnext
      rw [extend_iterations] at hlater
      apply hlater
      intro i hi
      apply hadvance
      omega

end Run

/-! ## Plans -/

namespace Plan

section Run

variable {α : Type} [Scalar α] {p : Plan α}

/-- A threshold that is a number leaves the run of a plan to climb from the start. -/
theorem run_eq_climbFrom {t : Number α} (ht : p.threshold.toNumber "snr_threshold" = .ok t) :
    p.run = Run.climbFrom p.ascent t.value p.budget p.start := by
  rw [run, ht]

/-- A threshold that is no number is not looked at without iterations, and refused after one. -/
theorem run_eq_of_error {e : Fault α} (he : p.threshold.toNumber "snr_threshold" = .error e) :
    p.run = if p.budget = 0 then .ok ⟨.start p.ascent p.start, false⟩
      else p.ascent.advance 0 p.start >>= fun _ => .error e := by
  rw [run, he]
  cases p.budget <;> rfl

theorem eq_start_of_run {e : Fault α} (he : p.threshold.toNumber "snr_threshold" = .error e)
    {f : Finished α p.geometry.size} (h : p.run = .ok f) :
    p.budget = 0 ∧ f = ⟨.start p.ascent p.start, false⟩ := by
  rw [run_eq_of_error he] at h
  by_cases hbudget : p.budget = 0
  · rw [if_pos hbudget] at h
    exact ⟨hbudget, (Except.ok.inj h).symm⟩
  · rw [if_neg hbudget] at h
    obtain ⟨v, -, hrefused⟩ := Outcome.bind_eq_ok.mp h
    exact nomatch hrefused

end Run

section Iterates

variable (p : Plan ℝ)

/-- The weights after a number of iterations from the start of a plan. -/
noncomputable def iterate (i : ℕ) : Vector (Cplx ℝ) p.geometry.size := p.ascent.iterate p.start i

/-- Their responses toward the target. -/
noncomputable def response (i : ℕ) : ℝ := p.ascent.targetResponse (p.iterate i)

/-- Their objectives. -/
noncomputable def objective (i : ℕ) : ℝ := p.ascent.objective (p.iterate i)

/-- An iteration of a plan that does not fail. -/
def Advances (i : ℕ) : Prop := p.ascent.advance i (p.iterate i) = .ok (p.iterate (i + 1))

end Iterates

variable {p : Plan ℝ}

/-- The run of a plan ends as it should. -/
theorem run_ends {f : Finished ℝ p.geometry.size} (h : p.run = .ok f) :
    f.Ends p.ascent p.start p.threshold p.budget := by
  have hstart := Run.traces_start p.ascent p.start
  cases ht : p.threshold.toNumber "snr_threshold" with
  | ok t =>
    rw [run_eq_climbFrom ht] at h
    have hends := Run.climb_ends ht hstart nofun h
    rwa [Run.start, Nat.zero_add] at hends
  | error e =>
    obtain ⟨hbudget, rfl⟩ := eq_start_of_run ht h
    rw [hbudget]
    exact hstart.ends_exhausted nofun

/-- A plan whose threshold is a number has a run if none of its iterations fails. -/
theorem exists_run {t : Number ℝ} (ht : p.threshold.toNumber "snr_threshold" = .ok t)
    (hadvance : ∀ i < p.budget, p.Advances i) : ∃ f, p.run = .ok f := by
  have hlimit : (Run.start p.ascent p.start).iterations + p.budget = p.budget := Nat.zero_add _
  rw [← hlimit] at hadvance
  rw [run_eq_climbFrom ht]
  exact Run.exists_climb t.value (Run.traces_start p.ascent p.start) hadvance

end Plan

end PhasedArray
