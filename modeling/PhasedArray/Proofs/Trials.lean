import Mathlib.Data.Int.Order.Basic
import PhasedArray.Evaluation

set_option autoImplicit false

/-!
# Sweeps trial by trial (SPEC §4.6)

A sweep keeps of its trials no more than their errors and their number.  Here each trial is kept
as it went, with the samples that the estimator was given and what it made of them: `Trials` are
those of one block, `Blocks` those of a whole sweep.  A sweep that returns went through such
blocks (`exists_blocks_of_sweep`), and each of its points is the summary of one of them.
-/

namespace PhasedArray

namespace Evaluation

/-- Samples at `m` elements, in any number. -/
abbrev Samples (α : Type) (m : ℕ) := (n : ℕ) × Mat (Cplx α) m n

/-- A trial as it went: the samples that the estimator was given, and what it made of them. -/
structure Trial (α : Type) (m : ℕ) where
  samples : Samples α m
  estimate : Estimate α

/-- A block of a sweep: a ratio, and the trials at it in order. -/
structure Block (α : Type) (m : ℕ) where
  ratio : α
  trials : List (Trial α m)

variable {α σ : Type} [Scalar α]

/-- What an estimator makes of samples: an estimate, scored against the true angles. -/
def assess {m : ℕ} (S : Solvers α) (E : Estimator α) (actual : Setting α) (X : Samples α m) :
    Outcome α (Estimate α) := do
  let estimate ← estimateSamples S E X.2
  estimate.scoredAgainst actual

section Runs

variable (S : Solvers α) (G : Generator α σ) (E : Estimator α) (g : Geometry α)

/-- From the state `s` of the stream, trials of a scene run one after the other. -/
inductive Trials (scene : Scene α) : σ → List (Trial α g.size) → σ → Prop where
  | done (s : σ) : Trials scene s [] s
  | next {s s' t : σ} {X : Samples α g.size} {e : Estimate α} {rest : List (Trial α g.size)}
      (drawn : Signal.generate G g scene s = (.ok X, s'))
      (assessed : assess S E scene.angles X = .ok e)
      (others : Trials scene s' rest t) : Trials scene s (⟨X, e⟩ :: rest) t

/-- From the state `s` of the stream, a block of `count` trials runs at each of the ratios. -/
inductive Blocks (r : SweepRequest α) (count : ℕ) :
    List (Setting α) → σ → List (Block α g.size) → σ → Prop where
  | done (s : σ) : Blocks r count [] s [] s
  | next {ratio : Setting α} {ratios : List (Setting α)} {s s' t : σ} {x : α}
      {trials : List (Trial α g.size)} {rest : List (Block α g.size)}
      (ran : Trials S G E g (r.sceneAt ratio) s trials s')
      (counted : trials.length = count)
      (read : ratio.toScalar "snr_db" = .ok x)
      (others : Blocks r count ratios s' rest t) :
      Blocks r count (ratio :: ratios) s (⟨x, trials⟩ :: rest) t

end Runs

section Laws

variable {S : Solvers α} {G : Generator α σ} {E : Estimator α} {g : Geometry α}

/-! ## One trial -/

theorem trial_eq_of_drawn {scene : Scene α} {s s' : σ} {X : Samples α g.size}
    (h : Signal.generate G g scene s = (.ok X, s')) :
    trial S G E g scene s = (assess S E scene.angles X, s') := by
  unfold trial
  rw [h]
  rfl

/-- A trial that returns drew samples and assessed them. -/
theorem exists_drawn_of_trial {scene : Scene α} {s t : σ} {e : Estimate α}
    (h : trial S G E g scene s = (.ok e, t)) :
    ∃ X : Samples α g.size,
      Signal.generate G g scene s = (.ok X, t) ∧ assess S E scene.angles X = .ok e := by
  rcases hdrawn : Signal.generate G g scene s with ⟨drawn, s'⟩
  cases drawn with
  | error fault =>
    unfold trial at h
    rw [hdrawn] at h
    cases h
  | ok X =>
    rw [trial_eq_of_drawn hdrawn] at h
    obtain ⟨hassess, rfl⟩ := Prod.mk.inj h
    exact ⟨X, rfl, hassess⟩

/-! ## What a tally holds -/

/-- Whether an estimate counts as a success: it has an error, and that is below the bound. -/
def succeeds (threshold : Outcome α α) (e : Estimate α) : Bool :=
  match e.error, threshold with
  | some x, .ok bound => x.below bound
  | _, _ => false

/-- The tally `t` with the estimates of a list added to it. -/
def Tally.extended (threshold : Outcome α α) (t : Tally α) (es : List (Estimate α)) : Tally α :=
  { errors := t.errors ++ es.filterMap Estimate.error
    successes := t.successes + es.countP (succeeds threshold)
    degenerate := t.degenerate + es.countP fun e => e.error.isNone }

theorem Tally.extended_nil (threshold : Outcome α α) (t : Tally α) :
    t.extended threshold [] = t := by
  simp [extended]

theorem Tally.extended_cons {threshold : Outcome α α} {t t' : Tally α} {e : Estimate α}
    (h : t.add threshold e = .ok t') (es : List (Estimate α)) :
    t'.extended threshold es = t.extended threshold (e :: es) := by
  unfold add at h
  cases herror : e.error with
  | none =>
    rw [herror] at h
    cases h
    have hfails : succeeds threshold e = false := by
      unfold succeeds
      rw [herror]
    simp [extended, herror, hfails]
    omega
  | some x =>
    rw [herror] at h
    cases threshold with
    | error fault => cases h
    | ok bound =>
      cases h
      have hsucceeds : succeeds (.ok bound) e = x.below bound := by
        unfold succeeds
        rw [herror]
      cases hbelow : x.below bound <;> simp [extended, herror, hsucceeds, hbelow]
      omega

/-- A block of trials that returns ran through its trials and tallied their estimates. -/
theorem exists_trials_of_ok {scene : Scene α} {threshold : Outcome α α} {count : ℕ}
    {tally tally' : Tally α} {s t : σ}
    (h : trials S G E scene threshold count tally s = (.ok tally', t)) :
    ∃ ts : List (Trial α E.geometry.size), Trials S G E E.geometry scene s ts t ∧
      ts.length = count ∧ tally' = tally.extended threshold (ts.map Trial.estimate) := by
  induction count generalizing tally s with
  | zero =>
    cases h
    exact ⟨[], .done _, rfl, (Tally.extended_nil threshold _).symm⟩
  | succ count ih =>
    unfold trials at h
    rcases htrial : trial S G E E.geometry scene s with ⟨outcome, s'⟩
    rw [htrial] at h
    cases outcome with
    | error fault => cases h
    | ok e =>
      dsimp only at h
      obtain ⟨X, hdrawn, hassess⟩ := exists_drawn_of_trial htrial
      cases hadd : tally.add threshold e with
      | error fault =>
        rw [hadd] at h
        cases h
      | ok next =>
        rw [hadd] at h
        obtain ⟨ts, hrun, hcount, htally⟩ := ih h
        refine ⟨⟨X, e⟩ :: ts, .next hdrawn hassess hrun, congrArg (· + 1) hcount, ?_⟩
        rw [htally, List.map_cons]
        exact Tally.extended_cons hadd _

/-! ## What a sweep holds -/

/-- The statistics of estimates. -/
def pointOf (threshold : Outcome α α) (es : List (Estimate α)) : SweepPoint α :=
  (Tally.extended threshold {} es).point es.length

/-- The statistics of a block. -/
def Block.point {m : ℕ} (threshold : Outcome α α) (b : Block α m) : SweepPoint α :=
  pointOf threshold (b.trials.map Trial.estimate)

/-- The statistics of blocks by their ratios, added to those there are. -/
def summary {m : ℕ} (threshold : Outcome α α) (same : α → α → Bool) (done : Sweep α)
    (bs : List (Block α m)) : Sweep α :=
  bs.foldl (fun done b => putBy same b.ratio (b.point threshold) done) done

theorem exists_blocks_of_ok {r : SweepRequest α} {count : ℕ} {same : α → α → Bool}
    {ratios : List (Setting α)} {done result : Sweep α} {s t : σ}
    (h : sweepInto S G E r count same ratios done s = (.ok result, t)) :
    ∃ bs : List (Block α E.geometry.size), Blocks S G E E.geometry r count ratios s bs t ∧
      result = summary r.bound same done bs := by
  induction ratios generalizing done s with
  | nil =>
    cases h
    exact ⟨[], .done _, rfl⟩
  | cons ratio rest ih =>
    unfold sweepInto at h
    rcases htrials : trials S G E (r.sceneAt ratio) r.bound count {} s with ⟨outcome, s'⟩
    rw [htrials] at h
    cases outcome with
    | error fault => cases h
    | ok tally =>
      dsimp only at h
      obtain ⟨ts, hrun, hcount, htally⟩ := exists_trials_of_ok htrials
      cases hread : ratio.toScalar "snr_db" with
      | error fault =>
        rw [hread] at h
        cases h
      | ok x =>
        rw [hread] at h
        obtain ⟨bs, hblocks, hresult⟩ := ih h
        refine ⟨⟨x, ts⟩ :: bs, .next hrun hcount hread hblocks, ?_⟩
        rw [hresult, htally, ← hcount, ← List.length_map Trial.estimate]
        rfl

/-- The number of trials at each ratio, none if that was not written as a whole number. -/
def SweepRequest.count (r : SweepRequest α) : ℕ :=
  match r.trials.toCount "num_trials" with
  | .ok count => count
  | .error _ => 0

omit [Scalar α] in
theorem SweepRequest.count_eq {r : SweepRequest α} {count : ℕ}
    (h : r.trials.toCount "num_trials" = .ok count) : r.count = count := by
  unfold SweepRequest.count
  rw [h]

/-- A sweep that returns has ratios, and went through a block of trials at each of them. -/
theorem exists_blocks_of_sweep {g : Geometry α} (hg : E.geometry = g) {r : SweepRequest α}
    {same : α → α → Bool} {result : Sweep α} {s t : σ}
    (h : sweep S G E r same s = (.ok result, t)) :
    ∃ ratios, r.checked = .ok ratios ∧ ∃ bs : List (Block α g.size),
      Blocks S G E g r r.count ratios s bs t ∧ result = summary r.bound same [] bs := by
  subst hg
  unfold sweep at h
  cases hchecked : r.checked with
  | error fault =>
    rw [hchecked] at h
    cases h
  | ok ratios =>
    rw [hchecked] at h
    refine ⟨ratios, rfl, ?_⟩
    cases ratios with
    | nil =>
      cases h
      exact ⟨[], .done _, rfl⟩
    | cons ratio rest =>
      dsimp only at h
      cases hcount : r.trials.toCount "num_trials" with
      | error fault =>
        rw [hcount] at h
        cases h
      | ok count =>
        rw [hcount] at h
        rw [SweepRequest.count_eq hcount]
        exact exists_blocks_of_ok h

/-- If a sweep returns entries, its number of trials was written as a whole one. -/
theorem toCount_of_sweep {r : SweepRequest α} {same : α → α → Bool} {result : Sweep α} {s t : σ}
    (h : sweep S G E r same s = (.ok result, t)) (hne : result ≠ []) :
    r.trials.toCount "num_trials" = .ok r.count := by
  unfold sweep at h
  cases hcount : r.trials.toCount "num_trials" with
  | ok count => rw [SweepRequest.count_eq hcount]
  | error fault =>
    rw [hcount] at h
    split at h
    · cases h
    · cases h
      exact absurd rfl hne
    · cases h

/-- A block of a run is of as many trials, run one after the other. -/
theorem Blocks.exists_trials_of_mem {r : SweepRequest α} {count : ℕ}
    {ratios : List (Setting α)} {s t : σ} {bs : List (Block α g.size)}
    (h : Blocks S G E g r count ratios s bs t) {b : Block α g.size} (hb : b ∈ bs) :
    b.trials.length = count ∧
      ∃ ratio s' t', Trials S G E g (r.sceneAt ratio) s' b.trials t' := by
  induction h with
  | done => exact absurd hb List.not_mem_nil
  | next ran counted _ _ ih =>
    rcases List.mem_cons.mp hb with rfl | hlater
    · exact ⟨counted, _, _, _, ran⟩
    · exact ih hlater

/-- The ratios of the blocks are those that the run was given, as numbers. -/
theorem Blocks.mapM_ratios {r : SweepRequest α} {count : ℕ}
    {ratios : List (Setting α)} {s t : σ} {bs : List (Block α g.size)}
    (h : Blocks S G E g r count ratios s bs t) :
    ratios.mapM (fun ratio => ratio.toScalar "snr_db") = .ok (bs.map Block.ratio) := by
  induction h with
  | done => rfl
  | next _ _ read _ ih =>
    rw [List.mapM_cons, read, ih]
    rfl

/-- A number of trials that passes is at least one. -/
theorem pos_of_checked {r : SweepRequest α} {ratios : List (Setting α)}
    (h : r.checked = .ok ratios) {count : ℕ}
    (hcount : r.trials.toCount "num_trials" = .ok count) : 0 < count := by
  simp only [SweepRequest.checked, Outcome.check_eq_ok, Outcome.bind_eq_ok] at h
  obtain ⟨n, hn, hbelow, -⟩ := h
  rw [Setting.toCount, hn] at hcount
  cases n with
  | real x => exact nomatch hcount
  | whole i =>
    cases hcount
    rw [Number.belowOne, decide_eq_true_iff, not_lt] at hbelow
    exact Int.lt_toNat.mpr hbelow

end Laws

end Evaluation

end PhasedArray
